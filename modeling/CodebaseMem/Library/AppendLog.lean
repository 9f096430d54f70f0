import Mathlib.Data.Fintype.Defs
import Mathlib.Data.Finset.Card
import Mathlib.Data.List.Nodup
import Mathlib.Data.List.FinRange
import Mathlib.Data.List.Perm.Subperm

/-!
# Who drew which ticket and who appended where

Calls that draw a ticket from a counter and then append one entry to each of
several columns, with nothing holding the steps of one call together, leave
behind an order of draws and an order of appends for every column.  The log
records these orders.  It is proof data: the columns of a real structure are
its images under the calls' arguments.

* `AppendLog.Consistent`: the log tells the positions of the calls.  `Consistent.draw`
  and `Consistent.push` are its two steps.
* `Consistent.card_drawn`, `Consistent.card_order`: lengths as numbers of calls, at every
  moment.
* `Consistent.drawn_perm`, `Consistent.order_perm`: at the end each order is a
  permutation of the calls.
* `AppendLog.Aligned`: row `n` of a column shows the entry of the call with ticket `n`;
  `aligned_push_iff` says exactly when an append keeps a column aligned.

A call appends to the columns in a fixed order, which is the same for all calls.
-/

namespace CodebaseMem
namespace Library

/-- The calls in the order of their draws, and for every column the calls in
the order of their appends. -/
structure AppendLog (ι : Type*) (columns : Nat) where
  drawn : List ι
  order : Fin columns → List ι

namespace AppendLog

variable {ι V : Type*} {columns : Nat}

def empty : AppendLog ι columns where
  drawn := []
  order := fun _ => []

def draw (log : AppendLog ι columns) (i : ι) : AppendLog ι columns where
  drawn := log.drawn ++ [i]
  order := log.order

def push (log : AppendLog ι columns) (j : Fin columns) (i : ι) :
    AppendLog ι columns where
  drawn := log.drawn
  order := Function.update log.order j (log.order j ++ [i])

@[simp] theorem empty_drawn : (empty : AppendLog ι columns).drawn = [] := rfl

@[simp] theorem empty_order (j : Fin columns) :
    (empty : AppendLog ι columns).order j = [] := rfl

@[simp] theorem draw_drawn (log : AppendLog ι columns) (i : ι) :
    (log.draw i).drawn = log.drawn ++ [i] := rfl

@[simp] theorem draw_order (log : AppendLog ι columns) (i : ι) (j : Fin columns) :
    (log.draw i).order j = log.order j := rfl

@[simp] theorem push_drawn (log : AppendLog ι columns) (j : Fin columns) (i : ι) :
    (log.push j i).drawn = log.drawn := rfl

@[simp] theorem push_order_self (log : AppendLog ι columns) (j : Fin columns) (i : ι) :
    (log.push j i).order j = log.order j ++ [i] := by
  simp [push]

theorem push_order_of_ne (log : AppendLog ι columns) {j other : Fin columns}
    (hne : other ≠ j) (i : ι) :
    (log.push j i).order other = log.order other := by
  simp [push, hne]

theorem getElem?_draw_eq_some_iff (log : AppendLog ι columns) (i k : ι) (n : Nat) :
    (log.draw i).drawn[n]? = some k ↔
      log.drawn[n]? = some k ∨ (n = log.drawn.length ∧ k = i) := by
  rw [draw_drawn]
  rcases lt_trichotomy n log.drawn.length with hn | hn | hn
  · simp [List.getElem?_append_left hn, hn.ne]
  · subst hn
    simp [eq_comm]
  · have hLong : (log.drawn ++ [i]).length ≤ n := by
      rw [List.length_append, List.length_singleton]
      omega
    simp [List.getElem?_eq_none hLong, List.getElem?_eq_none hn.le, hn.ne']

/-- The log tells the positions of the calls: a call at position `0` has done
nothing, at position `1` it holds a ticket, and at position `j + 2` it has
appended to the columns `0, ..., j`. -/
structure Consistent (log : AppendLog ι columns) (pc : ι → Nat) : Prop where
  nodup_drawn : log.drawn.Nodup
  mem_drawn : ∀ i, i ∈ log.drawn ↔ 0 < pc i
  nodup_order : ∀ j, (log.order j).Nodup
  mem_order : ∀ j i, i ∈ log.order j ↔ j.val + 1 < pc i

theorem consistent_empty : (empty : AppendLog ι columns).Consistent fun _ => 0 where
  nodup_drawn := List.nodup_nil
  mem_drawn := by simp
  nodup_order := fun _ => List.nodup_nil
  mem_order := by simp

section Steps

variable [DecidableEq ι] {log : AppendLog ι columns} {pc : ι → Nat}

/-- A draw moves its call from position `0` to position `1`. -/
theorem Consistent.draw (h : log.Consistent pc) {i : ι} (hpc : pc i = 0) :
    (log.draw i).Consistent (Function.update pc i 1) where
  nodup_drawn := by
    have hFresh : i ∉ log.drawn := by
      rw [h.mem_drawn, hpc]
      omega
    rw [draw_drawn]
    exact List.nodup_append.mpr
      ⟨h.nodup_drawn, List.nodup_singleton i, by rintro a ha b hb rfl; simp_all⟩
  mem_drawn := by
    intro k
    by_cases hk : k = i
    · simp [hk]
    · simp [hk, h.mem_drawn]
  nodup_order := h.nodup_order
  mem_order := by
    intro j k
    by_cases hk : k = i
    · simp [hk, h.mem_order, hpc]
    · simp [hk, h.mem_order]

/-- An append to column `j` moves its call from position `j + 1` to position
`j + 2`. -/
theorem Consistent.push (h : log.Consistent pc) {j : Fin columns} {i : ι}
    (hpc : pc i = j.val + 1) :
    (log.push j i).Consistent (Function.update pc i (j.val + 2)) where
  nodup_drawn := h.nodup_drawn
  mem_drawn := by
    intro k
    by_cases hk : k = i
    · simp [hk, h.mem_drawn, hpc]
    · simp [hk, h.mem_drawn]
  nodup_order := by
    intro other
    by_cases hj : other = j
    · subst hj
      -- the position of the call says that it has not appended to this column
      have hFresh : i ∉ log.order other := by
        rw [h.mem_order, hpc]
        omega
      rw [push_order_self]
      exact List.nodup_append.mpr
        ⟨h.nodup_order other, List.nodup_singleton i,
          by rintro a ha b hb rfl; simp_all⟩
    · rw [push_order_of_ne _ hj]
      exact h.nodup_order other
  mem_order := by
    intro other k
    by_cases hj : other = j
    · subst hj
      by_cases hk : k = i
      · simp [hk]
      · simp [hk, h.mem_order]
    · rw [push_order_of_ne _ hj, h.mem_order]
      by_cases hk : k = i
      · subst hk
        have hval : other.val ≠ j.val := fun hEq => hj (Fin.ext hEq)
        rw [Function.update_self, hpc]
        omega
      · simp [hk]

end Steps

section Facts

variable {log : AppendLog ι columns} {pc : ι → Nat}

theorem Consistent.order_subset_drawn (h : log.Consistent pc) (j : Fin columns) :
    log.order j ⊆ log.drawn := by
  intro i hi
  rw [h.mem_drawn]
  have := (h.mem_order j i).mp hi
  omega

theorem Consistent.length_order_le (h : log.Consistent pc) (j : Fin columns) :
    (log.order j).length ≤ log.drawn.length :=
  ((h.nodup_order j).subperm (h.order_subset_drawn j)).length_le

theorem Consistent.card_drawn [Fintype ι] [DecidableEq ι] (h : log.Consistent pc) :
    log.drawn.length = (Finset.univ.filter fun i => 0 < pc i).card := by
  rw [← List.toFinset_card_of_nodup h.nodup_drawn]
  congr 1
  ext i
  rw [List.mem_toFinset, h.mem_drawn, Finset.mem_filter, and_iff_right (Finset.mem_univ i)]

theorem Consistent.card_order [Fintype ι] [DecidableEq ι] (h : log.Consistent pc)
    (j : Fin columns) :
    (log.order j).length = (Finset.univ.filter fun i => j.val + 1 < pc i).card := by
  rw [← List.toFinset_card_of_nodup (h.nodup_order j)]
  congr 1
  ext i
  rw [List.mem_toFinset, h.mem_order, Finset.mem_filter, and_iff_right (Finset.mem_univ i)]

/-- Once every call has finished, each column has been appended to by every
call exactly once. -/
theorem Consistent.order_perm {calls : Nat} {log : AppendLog (Fin calls) columns}
    {pc : Fin calls → Nat} (h : log.Consistent pc)
    (hDone : ∀ i, pc i = columns + 1) (j : Fin columns) :
    (log.order j).Perm (List.finRange calls) := by
  rw [List.perm_ext_iff_of_nodup (h.nodup_order j) (List.nodup_finRange calls)]
  intro i
  have hlt := j.isLt
  rw [h.mem_order, hDone]
  simp only [List.mem_finRange, iff_true]
  omega

/-- Once every call has finished, every call holds exactly one ticket. -/
theorem Consistent.drawn_perm {calls : Nat} {log : AppendLog (Fin calls) columns}
    {pc : Fin calls → Nat} (h : log.Consistent pc)
    (hDone : ∀ i, pc i = columns + 1) :
    log.drawn.Perm (List.finRange calls) := by
  rw [List.perm_ext_iff_of_nodup h.nodup_drawn (List.nodup_finRange calls)]
  intro i
  simp [h.mem_drawn, hDone]

end Facts

/-- Row `n` of column `j` shows the entry of the call with ticket `n`. Another call may
have pushed it, as long as its entry is the same. -/
def Aligned (log : AppendLog ι columns) (val : ι → V) (j : Fin columns) : Prop :=
  ∀ (n : Nat) (owner pusher : ι), log.drawn[n]? = some owner →
    (log.order j)[n]? = some pusher → val pusher = val owner

/-- A draw does not disturb the rows already written.  The new ticket has no row yet,
since nobody appends without a ticket. -/
theorem aligned_draw_iff {log : AppendLog ι columns} {pc : ι → Nat}
    (h : log.Consistent pc) (val : ι → V) (j : Fin columns) (i : ι) :
    (log.draw i).Aligned val j ↔ log.Aligned val j := by
  constructor
  · intro hAligned n owner pusher hOwner hPusher
    refine hAligned n owner pusher ?_ hPusher
    have hn := (List.getElem?_eq_some_iff.mp hOwner).1
    rw [draw_drawn, List.getElem?_append_left hn]
    exact hOwner
  · intro hAligned n owner pusher hOwner hPusher
    -- rows past the old tickets do not exist yet
    have hn : n < log.drawn.length :=
      lt_of_lt_of_le (List.getElem?_eq_some_iff.mp hPusher).1 (h.length_order_le j)
    rw [draw_drawn, List.getElem?_append_left hn] at hOwner
    exact hAligned n owner pusher hOwner hPusher

theorem aligned_push_of_ne_iff (log : AppendLog ι columns) (val : ι → V)
    {j other : Fin columns} (hne : other ≠ j) (i : ι) :
    (log.push j i).Aligned val other ↔ log.Aligned val other := by
  simp [Aligned, push_order_of_ne _ hne]

/-- An append keeps its column aligned exactly when it writes the entry of the
call whose ticket is the length of the column. -/
theorem aligned_push_iff (log : AppendLog ι columns) (val : ι → V)
    (j : Fin columns) (i : ι) :
    (log.push j i).Aligned val j ↔
      log.Aligned val j ∧
        ∀ owner, log.drawn[(log.order j).length]? = some owner → val i = val owner := by
  constructor
  · intro hAligned
    refine ⟨?_, ?_⟩
    · intro n owner pusher hOwner hPusher
      refine hAligned n owner pusher hOwner ?_
      have hn := (List.getElem?_eq_some_iff.mp hPusher).1
      rw [push_order_self, List.getElem?_append_left hn]
      exact hPusher
    · intro owner hOwner
      refine hAligned (log.order j).length owner i hOwner ?_
      simp
  · rintro ⟨hAligned, hNew⟩ n owner pusher hOwner hPusher
    rw [push_drawn] at hOwner
    rw [push_order_self] at hPusher
    -- either an entry from before, or the new one behind them
    rcases lt_or_ge n (log.order j).length with hn | hn
    · rw [List.getElem?_append_left hn] at hPusher
      exact hAligned n owner pusher hOwner hPusher
    · have hLast : n = (log.order j).length := by
        have := (List.getElem?_eq_some_iff.mp hPusher).1
        simp at this
        omega
      subst hLast
      have : pusher = i := by simpa using hPusher.symm
      subst this
      exact hNew owner hOwner

end AppendLog
end Library
end CodebaseMem
