import CodebaseMem.Library.StableSort
import Mathlib.Data.List.Range

/-!
# Bucket layouts

A bucket layout stores the buckets `bucket 0, …, bucket (n - 1)` one after the
other in one array.  Each bucket is the slice between two consecutive starts,
and writing into a bucket changes only that bucket.

Distributing a list over buckets by a numeric key yields its stable sort: this
is counting sort.

* `layout`, `exists_layout_eq_append`, `layout_set`: the layout, split around a bucket, and
  after a write into one.
* `bucketOf`, `bucketStart`: the elements of a list with one key, and where they begin.
* `layout_bucketOf_eq_sortByKey`: the layout of all buckets is the stable sort.
* `slotsOf`, `nextFree`, `layout_slotsOf_set`: a layout that is being filled, with the
  position at which the next element of a bucket goes.
-/

namespace CodebaseMem
namespace Library

variable {α β : Type*}

/-- The buckets below `n`, one after the other. -/
def layout (bucket : Nat → List β) (n : Nat) : List β := (List.range n).flatMap bucket

@[simp] theorem layout_zero (bucket : Nat → List β) : layout bucket 0 = [] := rfl

theorem layout_succ (bucket : Nat → List β) (n : Nat) :
    layout bucket (n + 1) = layout bucket n ++ bucket n := by
  simp [layout, List.range_succ, List.flatMap_append]

theorem layout_congr {bucket bucket' : Nat → List β} {n : Nat}
    (h : ∀ t < n, bucket t = bucket' t) : layout bucket n = layout bucket' n := by
  induction n with
  | zero => rfl
  | succ n ih =>
      rw [layout_succ, layout_succ, ih fun t ht => h t (by omega), h n (by omega)]

theorem map_layout {γ : Type*} (f : β → γ) (bucket : Nat → List β) (n : Nat) :
    (layout bucket n).map f = layout (fun t => (bucket t).map f) n := by
  rw [layout, List.map_flatMap, layout]

theorem exists_layout_eq_append (bucket : Nat → List β) {t n : Nat} (ht : t < n) :
    ∃ rest, layout bucket n = layout bucket t ++ bucket t ++ rest := by
  induction n with
  | zero => omega
  | succ n ih =>
      rw [layout_succ]
      rcases Nat.lt_succ_iff_lt_or_eq.mp ht with hLater | rfl
      · obtain ⟨rest, hRest⟩ := ih hLater
        exact ⟨rest ++ bucket n, by rw [hRest, List.append_assoc]⟩
      · exact ⟨[], (List.append_nil _).symm⟩

theorem layout_position_lt {bucket : Nat → List β} {t n k : Nat} (ht : t < n)
    (hk : k < (bucket t).length) :
    (layout bucket t).length + k < (layout bucket n).length := by
  obtain ⟨rest, hRest⟩ := exists_layout_eq_append bucket ht
  rw [hRest]
  simp only [List.length_append]
  omega

theorem layout_set {bucket : Nat → List β} {t n k : Nat} (ht : t < n)
    (hk : k < (bucket t).length) (b : β) :
    (layout bucket n).set ((layout bucket t).length + k) b =
      layout (Function.update bucket t ((bucket t).set k b)) n := by
  induction n with
  | zero => omega
  | succ n ih =>
      rw [layout_succ, layout_succ]
      rcases Nat.lt_succ_iff_lt_or_eq.mp ht with hLater | rfl
      · rw [List.set_append_left _ _ (layout_position_lt hLater hk), ih hLater,
          Function.update_of_ne hLater.ne']
      · rw [List.set_append_right _ _ (Nat.le_add_right _ _), Nat.add_sub_cancel_left,
          Function.update_self]
        congr 1
        exact layout_congr fun s hs => (Function.update_of_ne hs.ne _ _).symm

/-- The elements of `l` whose key is `t`, in their order in `l`. -/
abbrev bucketOf (key : α → Nat) (l : List α) (t : Nat) : List α :=
  l.filter fun a => key a = t

/-- Number of elements of `l` whose key is below `t`: the position at which
bucket `t` starts. -/
def bucketStart (key : α → Nat) (l : List α) (t : Nat) : Nat :=
  l.countP fun a => key a < t

@[simp] theorem bucketStart_zero (key : α → Nat) (l : List α) :
    bucketStart key l 0 = 0 := by
  simp [bucketStart]

theorem bucketStart_succ (key : α → Nat) (l : List α) (t : Nat) :
    bucketStart key l (t + 1) =
      bucketStart key l t + l.countP fun a => key a = t := by
  induction l with
  | nil => rfl
  | cons a l ih =>
      simp only [bucketStart, List.countP_cons, decide_eq_true_eq] at ih ⊢
      split_ifs <;> omega

theorem bucketStart_mono (key : α → Nat) (l : List α) {s t : Nat} (hst : s ≤ t) :
    bucketStart key l s ≤ bucketStart key l t := by
  refine List.countP_mono_left fun a _ ha => ?_
  simp only [decide_eq_true_eq] at ha ⊢
  omega

theorem bucketStart_le_length (key : α → Nat) (l : List α) (t : Nat) :
    bucketStart key l t ≤ l.length :=
  List.countP_le_length

theorem bucketStart_eq_length {key : α → Nat} {l : List α} {n : Nat}
    (h : ∀ a ∈ l, key a < n) : bucketStart key l n = l.length := by
  rw [bucketStart, List.countP_eq_length]
  simpa using h

theorem bucketStart_append (key : α → Nat) (l m : List α) (t : Nat) :
    bucketStart key (l ++ m) t = bucketStart key l t + bucketStart key m t :=
  List.countP_append

theorem length_layout_bucketOf (key : α → Nat) (l : List α) (t : Nat) :
    (layout (bucketOf key l) t).length = bucketStart key l t := by
  induction t with
  | zero => simp
  | succ t ih =>
      rw [layout_succ, List.length_append, ih, bucketStart_succ,
        List.countP_eq_length_filter]

theorem exists_layout_bucketOf_eq_append (key : α → Nat) (l : List α) {t n : Nat}
    (ht : t < n) :
    ∃ before rest, layout (bucketOf key l) n = before ++ bucketOf key l t ++ rest ∧
      before.length = bucketStart key l t ∧
      bucketStart key l (t + 1) = before.length + (bucketOf key l t).length := by
  obtain ⟨rest, hRest⟩ := exists_layout_eq_append (bucketOf key l) ht
  refine ⟨_, rest, hRest, length_layout_bucketOf key l t, ?_⟩
  rw [← length_layout_bucketOf, layout_succ, List.length_append]

theorem mem_layout_bucketOf {key : α → Nat} {l : List α} {n : Nat} {a : α} :
    a ∈ layout (bucketOf key l) n ↔ a ∈ l ∧ key a < n := by
  simp [layout]
  tauto

theorem sorted_layout_bucketOf (key : α → Nat) (l : List α) (n : Nat) :
    (layout (bucketOf key l) n).Pairwise fun a b => key a ≤ key b := by
  induction n with
  | zero => simp
  | succ n ih =>
      rw [layout_succ, List.pairwise_append]
      refine ⟨ih, ?_, ?_⟩
      · refine List.pairwise_of_forall_mem_list fun a ha b hb => ?_
        simp only [List.mem_filter, decide_eq_true_eq] at ha hb
        omega
      · intro a ha b hb
        have hBelow := (mem_layout_bucketOf.mp ha).2
        simp only [List.mem_filter, decide_eq_true_eq] at hb
        omega

theorem filter_layout_bucketOf (key : α → Nat) (l : List α) (n k : Nat) :
    (layout (bucketOf key l) n).filter (fun a => key a = k) =
      if k < n then bucketOf key l k else [] := by
  induction n with
  | zero => simp
  | succ n ih =>
      rw [layout_succ, List.filter_append, ih, List.filter_filter]
      have hOther : k ≠ n →
          (l.filter fun a => decide (key a = k) && decide (key a = n)) = [] := by
        intro hne
        rw [List.filter_eq_nil_iff]
        intro a _
        simp
        omega
      rcases Nat.lt_trichotomy k n with hLt | rfl | hGt
      · rw [hOther hLt.ne, if_pos hLt, if_pos (by omega), List.append_nil]
      · simp
      · rw [hOther hGt.ne', if_neg (by omega), if_neg (by omega), List.append_nil]

/-- Counting sort is a stable sort: laying the buckets out one after the other is sorting
by the number of the bucket. -/
theorem layout_bucketOf_eq_sortByKey {key : α → Nat} {l : List α} {n : Nat}
    (h : ∀ a ∈ l, key a < n) : layout (bucketOf key l) n = sortByKey key l := by
  refine IsStableSort.eq_sortByKey ⟨sorted_layout_bucketOf key l n, fun k => ?_⟩
  rw [filter_layout_bucketOf]
  split_ifs with hk
  · rfl
  · symm
    rw [List.filter_eq_nil_iff]
    intro a ha
    have hKey := h a ha
    simp
    omega

/-- A list that is ordered by key already is its own bucket layout. -/
theorem layout_bucketOf_of_sorted {key : α → Nat} {l : List α} {n : Nat}
    (hSorted : l.Pairwise fun a b => key a ≤ key b) (h : ∀ a ∈ l, key a < n) :
    layout (bucketOf key l) n = l := by
  rw [layout_bucketOf_eq_sortByKey h, sortByKey_of_sorted hSorted]

/-!
## Filling the buckets in one pass

The pass has distributed `done` and has `rest` still to come.  Bucket `t` holds
the elements of `done` with key `t`, followed by one empty slot for each such
element of `rest`.
-/

/-- The slots of bucket `t` when `done` has been placed and `rest` has not: the values of
the placed elements, and an empty slot for each element to come. -/
def slotsOf (key : α → Nat) (val : α → β) (done rest : List α) (t : Nat) :
    List (Option β) :=
  (bucketOf key done t).map (fun a => some (val a)) ++
    List.replicate (rest.countP fun a => key a = t) none

/-- Position of the next free slot of bucket `t`. -/
def nextFree (key : α → Nat) (done rest : List α) (t : Nat) : Nat :=
  bucketStart key (done ++ rest) t + done.countP fun a => key a = t

theorem length_layout_slotsOf (key : α → Nat) (val : α → β) (done rest : List α) (t : Nat) :
    (layout (slotsOf key val done rest) t).length = bucketStart key (done ++ rest) t := by
  induction t with
  | zero => simp
  | succ t ih =>
      have hSlots : (slotsOf key val done rest t).length =
          (done.countP fun a => key a = t) + rest.countP fun a => key a = t := by
        simp [slotsOf, List.countP_eq_length_filter]
      calc (layout (slotsOf key val done rest) (t + 1)).length
        _ = (layout (slotsOf key val done rest) t).length +
              (slotsOf key val done rest t).length := by
          rw [layout_succ, List.length_append]
        _ = bucketStart key (done ++ rest) t + (done ++ rest).countP fun a => key a = t := by
          rw [ih, hSlots, List.countP_append]
        _ = bucketStart key (done ++ rest) (t + 1) := (bucketStart_succ _ _ _).symm

theorem layout_slotsOf_nil_left (key : α → Nat) (val : α → β) (rest : List α) (n : Nat) :
    layout (slotsOf key val [] rest) n = List.replicate (bucketStart key rest n) none := by
  induction n with
  | zero => simp
  | succ n ih =>
      rw [layout_succ, ih, bucketStart_succ, slotsOf]
      simp [List.replicate_append_replicate]

theorem layout_slotsOf_nil_right (key : α → Nat) (val : α → β) (done : List α) (n : Nat) :
    layout (slotsOf key val done []) n =
      (layout (bucketOf key done) n).map fun a => some (val a) := by
  rw [map_layout]
  exact layout_congr fun t _ => by simp [slotsOf]

theorem nextFree_lt {key : α → Nat} {done rest : List α} {a : α} {n : Nat}
    (ha : key a < n) :
    nextFree key done (a :: rest) (key a) < bucketStart key (done ++ a :: rest) n := by
  have hMono := bucketStart_mono key (done ++ a :: rest) (Nat.succ_le_of_lt ha)
  rw [Nat.succ_eq_add_one, bucketStart_succ, List.countP_append,
    List.countP_cons_of_pos (by simp)] at hMono
  unfold nextFree
  omega

/-- Writing the next element into the next free slot of its bucket.  The layout before
and after differ in this slot alone, so a loop over the elements fills the buckets. -/
theorem layout_slotsOf_set {key : α → Nat} (val : α → β) {done rest : List α} {a : α}
    {n : Nat} (ha : key a < n) :
    (layout (slotsOf key val done (a :: rest)) n).set
        (nextFree key done (a :: rest) (key a)) (some (val a)) =
      layout (slotsOf key val (done ++ [a]) rest) n := by
  have hFilled : ((bucketOf key done (key a)).map fun a => some (val a)).length =
      done.countP fun b => key b = key a := by
    rw [List.length_map, List.countP_eq_length_filter]
  have hFree : (rest.countP fun b => key b = key a) + 1 =
      (a :: rest).countP fun b => key b = key a := by
    rw [List.countP_cons_of_pos (by simp)]
  have hSlot : (done.countP fun b => key b = key a) <
      (slotsOf key val done (a :: rest) (key a)).length := by
    rw [slotsOf, List.length_append, hFilled, List.length_replicate, ← hFree]
    omega
  rw [nextFree, ← length_layout_slotsOf key val, layout_set ha hSlot]
  refine layout_congr fun t _ => ?_
  by_cases ht : t = key a
  · -- the first of the empty slots becomes the last of the filled ones
    subst ht
    have hNone : (a :: rest).countP (fun b => key b = key a) =
        (rest.countP fun b => key b = key a) + 1 := hFree.symm
    rw [Function.update_self]
    calc (slotsOf key val done (a :: rest) (key a)).set
          (done.countP fun b => key b = key a) (some (val a))
      _ = (bucketOf key done (key a)).map (fun b => some (val b)) ++
            (List.replicate ((rest.countP fun b => key b = key a) + 1) none).set 0
              (some (val a)) := by
        rw [slotsOf, List.set_append_right _ _ (by rw [hFilled]), hFilled, Nat.sub_self, hNone]
      _ = (bucketOf key done (key a)).map (fun b => some (val b)) ++
            some (val a) :: List.replicate (rest.countP fun b => key b = key a) none := by
        rw [List.replicate_succ, List.set_cons_zero]
      _ = slotsOf key val (done ++ [a]) rest (key a) := by
        simp [slotsOf, List.filter_append]
  · have hOther : ¬key a = t := fun h => ht h.symm
    rw [Function.update_of_ne ht, slotsOf, slotsOf]
    simp [List.filter_append, hOther]

theorem nextFree_step (key : α → Nat) (done rest : List α) (a : α) (t : Nat) :
    nextFree key (done ++ [a]) rest t =
      nextFree key done (a :: rest) t + if key a = t then 1 else 0 := by
  rw [nextFree, nextFree, List.append_assoc, List.singleton_append, List.countP_append,
    List.countP_singleton]
  simp [Nat.add_assoc]

end Library
end CodebaseMem
