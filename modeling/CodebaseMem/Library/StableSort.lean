import Mathlib.Data.List.Sort
import Mathlib.Data.Prod.Lex

/-!
# Stable sorting by a key

A stable sort of a list by a key is ordered by the key and, for each value of
the key, lists the elements with that value in their old order.  The two
conditions determine the result.  Filtering keeps them, and so does a change of
the key that keeps the order on the elements of the list.

* `sortByKey`: a stable sort, as the insertion sort of Mathlib.
* `IsStableSort`, `eq_sortByKey`: the two conditions, and that there is one such list.
* `filter_sortByKey`, `sortByKey_filter_map`: sorting commutes with filtering.
* `sortByKey_congr`: keys that order the elements alike sort them alike.
-/

namespace CodebaseMem
namespace Library

variable {α κ : Type*} [LinearOrder κ]

/-- The result of sorting by `key` in a stable way. -/
def sortByKey (key : α → κ) (l : List α) : List α :=
  l.insertionSort fun a b => key a ≤ key b

/-- `result` lists the elements of `l` by key, equal keys in their old order. -/
structure IsStableSort (key : α → κ) (l result : List α) : Prop where
  sorted : result.Pairwise fun a b => key a ≤ key b
  stable : ∀ k, result.filter (fun a => key a = k) = l.filter (fun a => key a = k)

theorem perm_sortByKey (key : α → κ) (l : List α) : (sortByKey key l).Perm l :=
  List.perm_insertionSort _ l

@[simp] theorem mem_sortByKey {key : α → κ} {l : List α} {a : α} :
    a ∈ sortByKey key l ↔ a ∈ l :=
  (perm_sortByKey key l).mem_iff

@[simp] theorem length_sortByKey (key : α → κ) (l : List α) :
    (sortByKey key l).length = l.length :=
  (perm_sortByKey key l).length_eq

theorem sorted_sortByKey (key : α → κ) (l : List α) :
    (sortByKey key l).Pairwise fun a b => key a ≤ key b := by
  have : Std.Total fun a b : α => key a ≤ key b := ⟨fun a b => le_total (key a) (key b)⟩
  have : IsTrans α fun a b => key a ≤ key b := ⟨fun _ _ _ => le_trans⟩
  exact List.pairwise_insertionSort _ l

theorem filter_key_sortByKey (key : α → κ) (l : List α) (k : κ) :
    (sortByKey key l).filter (fun a => key a = k) = l.filter (fun a => key a = k) := by
  have hEqual : (l.filter fun a => key a = k).Pairwise fun a b => key a ≤ key b := by
    refine List.pairwise_of_forall_mem_list fun a ha b hb => ?_
    simp only [List.mem_filter, decide_eq_true_eq] at ha hb
    exact (ha.2.trans hb.2.symm).le
  have hSub : (l.filter fun a => key a = k).Sublist (sortByKey key l) :=
    List.sublist_insertionSort hEqual List.filter_sublist
  have hSubFilter := hSub.filter fun a => decide (key a = k)
  rw [List.filter_filter] at hSubFilter
  simp only [Bool.and_self] at hSubFilter
  refine (hSubFilter.eq_of_length ?_).symm
  rw [← List.countP_eq_length_filter, ← List.countP_eq_length_filter]
  exact ((perm_sortByKey key l).countP_eq _).symm

theorem isStableSort_sortByKey (key : α → κ) (l : List α) :
    IsStableSort key l (sortByKey key l) where
  sorted := sorted_sortByKey key l
  stable := filter_key_sortByKey key l

theorem key_head_le {key : α → κ} {a : α} {l : List α}
    (hSorted : (a :: l).Pairwise fun a b => key a ≤ key b) {b : α} (hb : b ∈ a :: l) :
    key a ≤ key b := by
  rcases List.mem_cons.mp hb with rfl | hTail
  · exact le_rfl
  · exact (List.pairwise_cons.mp hSorted).1 b hTail

/-- A sorted list is determined by its groups of equal keys.  Induction on the list: its
head has the least key and is the first of its group. -/
theorem eq_of_sorted_of_filter_eq {key : α → κ} {l m : List α}
    (hl : l.Pairwise fun a b => key a ≤ key b)
    (hm : m.Pairwise fun a b => key a ≤ key b)
    (hGroups : ∀ k, l.filter (fun a => key a = k) = m.filter (fun a => key a = k)) :
    l = m := by
  -- equal groups have the same elements, so the least keys agree, and then the heads
  have hMem : ∀ {x : α}, x ∈ l ↔ x ∈ m := by
    intro x
    have h := congrArg (x ∈ ·) (hGroups (key x))
    simpa using h
  induction l generalizing m with
  | nil =>
      exact (List.eq_nil_iff_forall_not_mem.mpr fun x hx => by simpa using hMem.mpr hx).symm
  | cons a l ih =>
      cases m with
      | nil => simpa using hMem (x := a)
      | cons b m =>
          have hKey : key a = key b := by
            apply le_antisymm
            · exact key_head_le hl (hMem.mpr List.mem_cons_self)
            · exact key_head_le hm (hMem.mp List.mem_cons_self)
          have hHead := hGroups (key a)
          rw [List.filter_cons_of_pos (by simp), List.filter_cons_of_pos (by simp [hKey])]
            at hHead
          obtain ⟨rfl, -⟩ := List.cons.inj hHead
          have hTails : ∀ k, l.filter (fun c => key c = k) = m.filter (fun c => key c = k) := by
            intro k
            have h := hGroups k
            by_cases hk : key a = k
            · simpa [hk] using h
            · simpa [List.filter_cons, hk] using h
          have hTailMem : ∀ {x : α}, x ∈ l ↔ x ∈ m := by
            intro x
            have h := congrArg (x ∈ ·) (hTails (key x))
            simpa using h
          rw [ih hl.of_cons hm.of_cons hTails hTailMem]

namespace IsStableSort

variable {key : α → κ} {l result : List α}

/-- There is one stable sort. -/
theorem eq_sortByKey (h : IsStableSort key l result) : result = sortByKey key l := by
  refine eq_of_sorted_of_filter_eq h.sorted (sorted_sortByKey key l) fun k => ?_
  rw [h.stable, filter_key_sortByKey]

theorem filter (h : IsStableSort key l result) (p : α → Bool) :
    IsStableSort key (l.filter p) (result.filter p) where
  sorted := h.sorted.filter p
  stable := by
    intro k
    rw [List.filter_comm _ p, List.filter_comm _ p, h.stable k]

end IsStableSort

theorem filter_sortByKey (key : α → κ) (l : List α) (p : α → Bool) :
    (sortByKey key l).filter p = sortByKey key (l.filter p) :=
  ((isStableSort_sortByKey key l).filter p).eq_sortByKey

/-- Two keys that order the elements of `l` in the same way sort it in the same
way. -/
theorem sortByKey_congr {κ' : Type*} [LinearOrder κ'] {key : α → κ} {key' : α → κ'}
    {l : List α} (hOrder : ∀ a ∈ l, ∀ b ∈ l, key a ≤ key b ↔ key' a ≤ key' b) :
    sortByKey key l = sortByKey key' l := by
  simpa [sortByKey] using List.map_insertionSort (fun a b => key a ≤ key b)
    (fun a b => key' a ≤ key' b) id l hOrder

/-- Filtering and sorting the images is filtering and sorting the elements. -/
theorem sortByKey_filter_map {β : Type*} (f : α → β) {key : α → κ} {key' : β → κ} {p : α → Bool}
    {p' : β → Bool} {l : List α} (hKey : ∀ a ∈ l, key' (f a) = key a)
    (hFilter : ∀ a ∈ l, p' (f a) = p a) :
    sortByKey key' ((l.map f).filter p') = (sortByKey key (l.filter p)).map f := by
  have hParts : (l.map f).filter p' = (l.filter p).map f := by
    rw [List.filter_map]
    congr 1
    exact List.filter_congr fun a ha => hFilter a ha
  rw [hParts, sortByKey, sortByKey]
  refine (List.map_insertionSort _ _ f _ fun a ha b hb => ?_).symm
  rw [hKey a (List.mem_of_mem_filter ha), hKey b (List.mem_of_mem_filter hb)]

theorem sortByKey_of_sorted {key : α → κ} {l : List α}
    (h : l.Pairwise fun a b => key a ≤ key b) : sortByKey key l = l :=
  (IsStableSort.eq_sortByKey ⟨h, fun _ => rfl⟩).symm

end Library
end CodebaseMem
