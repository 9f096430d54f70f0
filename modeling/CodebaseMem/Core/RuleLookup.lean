import CodebaseMem.Core.Specs
import Mathlib.Data.List.Nodup

/-!
# Looking up a rule

The node rule of a kind is found by binary search.  The search is sound on every slice;
it is complete on a slice that the comparison partitions, and `check_sorted` makes sure
of that.

* `Partitioned`: the comparison goes from `lt` over `eq` to `gt` along the slice.
* `Narrowed`: the invariant of the loop; `Narrowed.half` is one round, and
  `Narrowed.narrow` the whole loop.
* `binarySearchBy_isSome`, `exists_of_binarySearchBy`: the search finds an equal element
  if there is one, and nothing else.
* `getNodeRule_iff_listed`: in a specification that passes `check_sorted`, the search
  returns the rule that is listed.

Which of several equal elements is found is left open.  Kinds that ascend strictly are
distinct, so for a checked table there is no choice.
-/

namespace CodebaseMem
namespace Core

/-! ### Binary search -/

section BinarySearch

variable {α : Type} {cmp : α → Ordering} {xs : List α}

/-- The comparison goes from `lt` over `eq` to `gt` along the slice.  This is what a
binary search needs, and nothing is said about the order of the elements themselves. -/
def Partitioned (cmp : α → Ordering) (xs : List α) : Prop :=
  xs.Pairwise fun a b => (cmp b = .lt → cmp a = .lt) ∧ (cmp a = .gt → cmp b = .gt)

theorem Partitioned.get (h : Partitioned cmp xs) {i j : Nat} (hij : i < j) {a b : α}
    (hi : xs[i]? = some a) (hj : xs[j]? = some b) :
    (cmp b = .lt → cmp a = .lt) ∧ (cmp a = .gt → cmp b = .gt) := by
  obtain ⟨hiLt, rfl⟩ := List.getElem?_eq_some_iff.mp hi
  obtain ⟨hjLt, rfl⟩ := List.getElem?_eq_some_iff.mp hj
  exact List.pairwise_iff_getElem.mp h i j hiLt hjLt hij

/-- Everything behind the candidates is greater, and so is not the first of them, unless
it is the first element of the slice. -/
structure Narrowed (cmp : α → Ordering) (xs : List α) (base size : Nat) : Prop where
  bound : base + size ≤ xs.length
  behind : ∀ i x, base + size ≤ i → xs[i]? = some x → cmp x = .gt
  first : base = 0 ∨ ∃ x, xs[base]? = some x ∧ cmp x ≠ .gt

/-- One round halves the candidates. -/
theorem Narrowed.half {base size : Nat} (h : Narrowed cmp xs base size)
    (hCmp : Partitioned cmp xs) (hSize : 1 < size) {x : α}
    (hMid : xs[base + size / 2]? = some x) :
    Narrowed cmp xs (if cmp x = .gt then base else base + size / 2) (size - size / 2) := by
  have hBound := h.bound
  by_cases hx : cmp x = .gt
  · rw [if_pos hx]
    refine ⟨by omega, fun i y hi hy => ?_, h.first⟩
    rcases Nat.lt_or_ge (base + size / 2) i with hLater | hEarlier
    · exact (hCmp.get hLater hMid hy).2 hx
    · -- an odd number of candidates leaves the middle one among them
      have hHere : i = base + size / 2 := by omega
      rw [hHere, hMid] at hy
      rwa [← Option.some.inj hy]
  · rw [if_neg hx]
    exact ⟨by omega, fun i y hi hy => h.behind i y (by omega) hy, .inr ⟨x, hMid, hx⟩⟩

/-- The loop ends with one candidate, after as many rounds as it takes to halve the size
to one.  The fuel of the model is never used up. -/
theorem Narrowed.narrow (hCmp : Partitioned cmp xs) {fuel base size : Nat}
    (h : Narrowed cmp xs base size) (hPos : 0 < size) (hFuel : size ≤ fuel + 1) :
    Narrowed cmp xs (Core.narrow cmp xs fuel base size) 1 := by
  induction fuel generalizing base size with
  | zero =>
      obtain rfl : size = 1 := by omega
      exact h
  | succ fuel ih =>
      rw [Core.narrow]
      split
      · obtain rfl : size = 1 := by omega
        exact h
      · next hLarge =>
          have hBound := h.bound
          have hMid : xs[base + size / 2]? = some (xs.get ⟨base + size / 2, by omega⟩) :=
            List.getElem?_eq_getElem (by omega)
          have hNext := h.half hCmp (by omega) hMid
          simp only [hMid, Option.map_some, Option.some.injEq]
          exact ih hNext (by omega) (by omega)

/-- The position that is found holds an element that compares equal. -/
theorem exists_of_binarySearchBy {i : Nat} (h : binarySearchBy cmp xs = some i) :
    ∃ x, xs[i]? = some x ∧ cmp x = .eq := by
  unfold binarySearchBy at h
  split at h
  · cases h
  · dsimp only at h
    split at h
    · next hFound =>
        cases h
        exact Option.map_eq_some_iff.mp hFound
    · cases h

theorem binarySearchBy_isSome (hCmp : Partitioned cmp xs) {x : α} (hMem : x ∈ xs)
    (hEq : cmp x = .eq) : (binarySearchBy cmp xs).isSome = true := by
  obtain ⟨i, hi⟩ := List.mem_iff_getElem?.mp hMem
  have hLt := (List.getElem?_eq_some_iff.mp hi).1
  have hStart : Narrowed cmp xs 0 xs.length := by
    refine ⟨by omega, fun j y hj hy => ?_, .inl rfl⟩
    have hjLt := (List.getElem?_eq_some_iff.mp hy).1
    omega
  have hOne : Narrowed cmp xs (narrow cmp xs xs.length 0 xs.length) 1 :=
    hStart.narrow hCmp (by omega) (by omega)
  unfold binarySearchBy
  rw [if_neg (by simp [List.isEmpty_iff, List.ne_nil_of_mem hMem])]
  dsimp only
  generalize narrow cmp xs xs.length 0 xs.length = base at hOne
  have hBound := hOne.bound
  have hBase : xs[base]? = some (xs.get ⟨base, by omega⟩) := List.getElem?_eq_getElem (by omega)
  generalize xs.get ⟨base, by omega⟩ = y at hBase
  -- the element cannot stand behind the candidate, nor before one that is less
  have hFound : cmp y = .eq := by
    rcases Nat.lt_trichotomy i base with hBefore | rfl | hBehind
    · rcases hOne.first with rfl | ⟨y', hy', hNotGt⟩
      · omega
      · obtain rfl := Option.some.inj (hBase.symm.trans hy')
        cases hOrd : cmp y with
        | lt =>
            have hLess := (hCmp.get hBefore hi hBase).1 hOrd
            rw [hEq] at hLess
            cases hLess
        | eq => rfl
        | gt => exact absurd hOrd hNotGt
    · obtain rfl := Option.some.inj (hi.symm.trans hBase)
      exact hEq
    · have hGreater := hOne.behind i x hBehind hi
      rw [hEq] at hGreater
      cases hGreater
  rw [hBase, Option.map_some, hFound, if_pos rfl]
  rfl

end BinarySearch

/-! ### Sorted rules -/

theorem strCmp_eq_lt_iff {a b : String} : strCmp a b = .lt ↔ strKey a < strKey b := by
  unfold strCmp
  split
  · next h => simp [h]
  · next h => split <;> simp [h]

theorem strCmp_eq_eq_iff {a b : String} : strCmp a b = .eq ↔ a = b := by
  unfold strCmp
  split
  · next h =>
      constructor
      · intro hOrd
        cases hOrd
      · rintro rfl
        exact absurd h (lt_irrefl _)
  · split
    · next h => simp [h]
    · next h => simp [h]

theorem strCmp_eq_gt_iff {a b : String} : strCmp a b = .gt ↔ strKey b < strKey a := by
  rcases lt_trichotomy (strKey a) (strKey b) with hLess | hEqual | hGreater
  · rw [strCmp_eq_lt_iff.mpr hLess]
    exact iff_of_false Ordering.noConfusion hLess.not_gt
  · rw [strCmp_eq_eq_iff.mpr (strKey_injective hEqual), hEqual]
    exact iff_of_false Ordering.noConfusion (lt_irrefl _)
  · refine iff_of_true ?_ hGreater
    rw [strCmp, if_neg hGreater.not_gt, if_neg fun hEqual => hGreater.ne (congrArg _ hEqual.symm)]

namespace Specs

/-- `check_sorted` compares neighbours, so it passes exactly if the kinds ascend, equal
kinds excluded. -/
theorem checkSorted_eq_ok_iff {spec : LanguageSpec} :
    checkSorted spec = .ok () ↔
      spec.nodeRules.Pairwise fun rule next => strKey rule.tsKind < strKey next.tsKind := by
  have : Trans (fun rule next : NodeRule => strKey rule.tsKind < strKey next.tsKind)
      (fun rule next : NodeRule => strKey rule.tsKind < strKey next.tsKind)
      (fun rule next : NodeRule => strKey rule.tsKind < strKey next.tsKind) := ⟨lt_trans⟩
  rw [checkSorted, ← List.isChain_iff_pairwise]
  generalize spec.nodeRules = rules
  induction rules with
  | nil => simp
  | cons rule rules ih =>
      cases rules with
      | nil => simp
      | cons next rules =>
          rw [List.isChain_cons_cons, List.tail_cons, List.zip_cons_cons, List.foldlM_cons]
          refine Iff.trans ?_ (and_congr strCmp_eq_lt_iff ih)
          cases hOrd : strCmp rule.tsKind next.tsKind with
          | lt => simp [hOrd]
          | eq => simp [hOrd]
          | gt => simp [hOrd]

theorem partitioned_of_checkSorted {spec : LanguageSpec} (hChecked : checkSorted spec = .ok ())
    (tsKind : String) :
    Partitioned (fun rule : NodeRule => strCmp rule.tsKind tsKind) spec.nodeRules := by
  refine (checkSorted_eq_ok_iff.mp hChecked).imp fun {rule next} hLess => ?_
  simp only [strCmp_eq_lt_iff, strCmp_eq_gt_iff]
  exact ⟨hLess.trans, fun hGreater => hGreater.trans hLess⟩

end Specs

namespace LanguageSpec

theorem mem_of_getNodeRule {spec : LanguageSpec} {tsKind : String} {rule : NodeRule}
    (h : spec.getNodeRule tsKind = some rule) : rule ∈ spec.nodeRules ∧ rule.tsKind = tsKind := by
  obtain ⟨i, hSearch, hRule⟩ := Option.bind_eq_some_iff.mp h
  obtain ⟨rule', hRule', hEq⟩ := exists_of_binarySearchBy hSearch
  obtain rfl := Option.some.inj (hRule'.symm.trans hRule)
  exact ⟨List.mem_of_getElem? hRule, strCmp_eq_eq_iff.mp hEq⟩

/-- In a specification that passes `check_sorted`, a kind has the rule that is listed for
it, and none if none is listed.  The rule opens a scope exactly if it is listed as one
that does. -/
theorem getNodeRule_iff_listed {spec : LanguageSpec} (hChecked : Specs.checkSorted spec = .ok ())
    (tsKind : String) (rule : NodeRule) :
    (spec.getNodeRule tsKind = some rule ↔ rule ∈ spec.nodeRules ∧ rule.tsKind = tsKind) ∧
    (spec.getScopeAnchor tsKind = some rule ↔
      rule ∈ spec.nodeRules ∧ rule.tsKind = tsKind ∧ rule.scopeAnchor = true) := by
  have hRule : spec.getNodeRule tsKind = some rule ↔
      rule ∈ spec.nodeRules ∧ rule.tsKind = tsKind := by
    refine ⟨mem_of_getNodeRule, fun ⟨hMem, hKind⟩ => ?_⟩
    have hSome := binarySearchBy_isSome (Specs.partitioned_of_checkSorted hChecked tsKind) hMem
      (strCmp_eq_eq_iff.mpr hKind)
    obtain ⟨i, hSearch⟩ := Option.isSome_iff_exists.mp hSome
    obtain ⟨found, hFound, hEq⟩ := exists_of_binarySearchBy hSearch
    -- no two rules have the same kind
    have hNodup : (spec.nodeRules.map fun rule => strKey rule.tsKind).Nodup := by
      rw [List.Nodup, List.pairwise_map]
      exact (Specs.checkSorted_eq_ok_iff.mp hChecked).imp fun hLess => hLess.ne
    have hSame : found = rule := by
      refine List.inj_on_of_nodup_map hNodup (List.mem_of_getElem? hFound) hMem ?_
      rw [strCmp_eq_eq_iff.mp hEq, hKind]
    rw [getNodeRule, hSearch, Option.bind_some, hFound, hSame]
  refine ⟨hRule, ?_⟩
  rw [getScopeAnchor, Option.filter_eq_some_iff, hRule, and_assoc]

theorem getNodeRule_iff_listed_rust :
    Specs.rust.getNodeRule "impl_item" = some (.scopeOnly "impl_item") ∧
      Specs.rust.getScopeAnchor "impl_item" = some (.scopeOnly "impl_item") := by
  have hListed := getNodeRule_iff_listed (show Specs.checkSorted Specs.rust = .ok () by decide)
    "impl_item" (.scopeOnly "impl_item")
  exact ⟨hListed.1.mpr (by decide), hListed.2.mpr (by decide)⟩

end LanguageSpec

end Core
end CodebaseMem
