import CodebaseMem.Graph.FrozenGraph
import Mathlib.Data.List.Nodup
import Mathlib.Data.List.Pairwise

/-!
# The bare-name index

The resolved names are sorted and cut into groups of equal names.  Group `i` is
stored as slot `i`, and the finite-state map sends the name to that slot.

* `FstLaw`: what is relied on in the library of finite-state maps.
* `Grouped`: the groups are the maximal runs of equal names.  `exists_grouped` is the
  outer loop on a sorted list, `takeGroup_append` and the lemmas beside it are the inner
  one.
* `exists_buildBareNameIndex_eq`: what the builder does to any map library.
* `buildBareNameIndex_ok`: with the law the build succeeds, slot `i` holds group `i`, and
  the map knows exactly the names of the groups.

The names are sorted by name and node, so the result does not depend on the sort being
stable.
-/

namespace CodebaseMem
namespace Graph

open CodebaseMem.Core Library

/-- What the program relies on in the library of finite-state maps: building
from strictly ascending keys succeeds, and `get` returns exactly the inserted
pairs. -/
structure FstLaw (fst : Fst) : Prop where
  build : ∀ entries : List (List UInt8 × UInt64),
    entries.Pairwise (fun a b => a.1.map UInt8.toNat < b.1.map UInt8.toNat) →
    ∃ builder bytes map,
      entries.foldlM (fun builder entry => fst.insert builder entry.1 entry.2) fst.memory =
        some builder ∧
      fst.intoInner builder = some bytes ∧
      fst.new bytes = some map ∧
      ∀ key value, fst.get map key = some value ↔ (key, value) ∈ entries

/-- The ids that satisfy `P`, in strictly ascending order. -/
structure AscendingIds (P : NodeId → Prop) (ids : List NodeId) : Prop where
  sorted : ids.Pairwise fun a b => a.val < b.val
  mem : ∀ id, id ∈ ids ↔ P id

/-!
## The order on names
-/

theorem nameKey_le_iff {p q : String × NodeId} : nameKey p ≤ nameKey q ↔
    strKey p.1 < strKey q.1 ∨ strKey p.1 = strKey q.1 ∧ p.2.val.toNat ≤ q.2.val.toNat :=
  Prod.Lex.toLex_le_toLex

theorem strKey_le_of_nameKey_le {p q : String × NodeId} (h : nameKey p ≤ nameKey q) :
    strKey p.1 ≤ strKey q.1 := by
  rcases nameKey_le_iff.mp h with hLess | hEqual
  · exact hLess.le
  · exact hEqual.1.le

/-- The pairs of name and node before they are sorted. -/
def namedPairs (names : List String) : List (String × NodeId) :=
  names.zipIdx.map fun (name, idx) => (name, nodeIdOfIdx idx)

theorem mem_namedPairs {names : List String} (hCount : names.length ≤ 2 ^ 32) {s : String}
    {id : NodeId} : (s, id) ∈ namedPairs names ↔ names[id.val.toNat]? = some s := by
  constructor
  · intro h
    obtain ⟨⟨name, idx⟩, hMem, hPair⟩ := List.mem_map.mp h
    obtain ⟨rfl, rfl⟩ := Prod.mk.inj hPair
    have hGet := List.mem_zipIdx_iff_getElem?.mp hMem
    have hIdx := (List.getElem?_eq_some_iff.mp hGet).1
    rwa [nodeIdOfIdx, toNat_ofNat_u32 (by omega)]
  · intro h
    refine List.mem_map.mpr ⟨(s, id.val.toNat), List.mem_zipIdx_iff_getElem?.mpr h, ?_⟩
    simp [nodeIdOfIdx]

theorem nodup_namedPairs {names : List String} (hCount : names.length ≤ 2 ^ 32) :
    (namedPairs names).Nodup := by
  have hPositions : names.zipIdx.Nodup := by
    refine List.Nodup.of_map Prod.snd ?_
    rw [List.zipIdx_map_snd]
    exact List.nodup_range'
  rw [namedPairs, List.nodup_map_iff_inj_on hPositions]
  rintro ⟨s, i⟩ hi ⟨s', j⟩ hj hEq
  have hiGet := List.mem_zipIdx_iff_getElem?.mp hi
  have hjGet := List.mem_zipIdx_iff_getElem?.mp hj
  have hiLt := (List.getElem?_eq_some_iff.mp hiGet).1
  have hjLt := (List.getElem?_eq_some_iff.mp hjGet).1
  simp only [Prod.mk.injEq, nodeIdOfIdx, NodeId.mk.injEq] at hEq ⊢
  refine ⟨hEq.1, ?_⟩
  have hNat := congrArg UInt32.toNat hEq.2
  rwa [toNat_ofNat_u32 (by omega), toNat_ofNat_u32 (by omega)] at hNat

/-!
## Grouping
-/

/-- `groups` are the maximal runs of equal names of `pairs`, by name.  Put together again
they are the pairs, none of them is empty, and the names ascend strictly, so that no name
has two groups. -/
structure Grouped (pairs : List (String × NodeId)) (groups : List (String × List NodeId)) :
    Prop where
  flatten : pairs = groups.flatMap fun group => group.2.map fun id => (group.1, id)
  nonempty : ∀ group ∈ groups, group.2 ≠ []
  ascending : groups.Pairwise fun group group' => strKey group.1 < strKey group'.1

theorem takeGroup_append (key : String) (pairs : List (String × NodeId)) :
    (takeGroup key pairs).1.map (fun id => (key, id)) ++ (takeGroup key pairs).2 = pairs := by
  induction pairs with
  | nil => rfl
  | cons pair pairs ih =>
      rw [takeGroup]
      split
      · next hKey =>
          subst hKey
          simp [ih]
      · rfl

theorem takeGroup_rest_ne {key : String} {pairs rest : List (String × NodeId)}
    {pair : String × NodeId} (h : (takeGroup key pairs).2 = pair :: rest) : pair.1 ≠ key := by
  induction pairs with
  | nil => simp [takeGroup] at h
  | cons first pairs ih =>
      rw [takeGroup] at h
      split at h
      · exact ih h
      · next hKey =>
          obtain ⟨rfl, -⟩ := List.cons.inj h
          exact hKey

theorem takeGroup_rest_sublist (key : String) (pairs : List (String × NodeId)) :
    (takeGroup key pairs).2.Sublist pairs := by
  conv_rhs => rw [← takeGroup_append key pairs]
  exact List.sublist_append_right _ _

theorem takeGroup_rest_gt {pair : String × NodeId} {pairs : List (String × NodeId)}
    (hSorted : (pair :: pairs).Pairwise fun p q => nameKey p ≤ nameKey q)
    {later : String × NodeId} (hLater : later ∈ (takeGroup pair.1 pairs).2) :
    strKey pair.1 < strKey later.1 := by
  have hRest := takeGroup_rest_sublist pair.1 pairs
  have hBelow := (List.pairwise_cons.mp hSorted).1
  cases hCase : (takeGroup pair.1 pairs).2 with
  | nil => simp [hCase] at hLater
  | cons first rest =>
      have hFirstLe : strKey pair.1 ≤ strKey first.1 :=
        strKey_le_of_nameKey_le (hBelow first (hRest.subset (by simp [hCase])))
      -- the first name after the group is another one, so it is greater, and
      -- the names after it are at least as great
      have hFirst : strKey pair.1 < strKey first.1 :=
        lt_of_le_of_ne hFirstLe fun hEq => takeGroup_rest_ne hCase (strKey_injective hEq).symm
      have hRestSorted := (List.pairwise_cons.mp hSorted).2.sublist hRest
      rw [hCase] at hRestSorted hLater
      rcases List.mem_cons.mp hLater with rfl | hTail
      · exact hFirst
      · exact hFirst.trans_le
          (strKey_le_of_nameKey_le ((List.pairwise_cons.mp hRestSorted).1 later hTail))

/-- The pairs inserted for `groups`, the first of which gets slot `start`. -/
def slotEntries (start : Nat) (groups : List (String × List NodeId)) :
    List (List UInt8 × UInt64) :=
  (groups.zipIdx start).map fun (group, slot) => (utf8 group.1, UInt64.ofNat slot)

theorem slotEntries_cons (start : Nat) (group : String × List NodeId)
    (groups : List (String × List NodeId)) :
    slotEntries start (group :: groups) =
      (utf8 group.1, UInt64.ofNat start) :: slotEntries (start + 1) groups := by
  simp [slotEntries, List.zipIdx_cons]

theorem mem_slotEntries {groups : List (String × List NodeId)} {key : List UInt8}
    {value : UInt64} : (key, value) ∈ slotEntries 0 groups ↔
      ∃ slot group, groups[slot]? = some group ∧ key = utf8 group.1 ∧
        value = UInt64.ofNat slot := by
  rw [slotEntries, List.mem_map]
  constructor
  · rintro ⟨⟨group, slot⟩, hMem, hEntry⟩
    obtain ⟨rfl, rfl⟩ := Prod.mk.inj hEntry
    exact ⟨slot, group, List.mem_zipIdx_iff_getElem?.mp hMem, rfl, rfl⟩
  · rintro ⟨slot, group, hGet, rfl, rfl⟩
    exact ⟨(group, slot), List.mem_zipIdx_iff_getElem?.mpr hGet, rfl⟩

theorem expect_bind {α β : Type} (x : Option α) (f : α → Option β) :
    expect (x >>= f) = expect x >>= fun a => expect (f a) := by
  cases x <;> rfl

/-- The outer loop on a sorted list: it finds the groups, appends them to the
side table and inserts one entry for each. -/
theorem exists_grouped (pairs : List (String × NodeId))
    (hSorted : pairs.Pairwise fun p q => nameKey p ≤ nameKey q) :
    ∃ groups, Grouped pairs groups ∧ ∀ (fst : Fst) sideTable builder,
      groupNames fst pairs sideTable builder = (do
        let builder' ← expect ((slotEntries sideTable.length groups).foldlM
          (fun builder entry => fst.insert builder entry.1 entry.2) builder)
        .ok (sideTable ++ groups.map Prod.snd, builder')) := by
  induction hLength : pairs.length using Nat.strong_induction_on generalizing pairs with
  | _ n ih =>
      cases pairs with
      | nil =>
          refine ⟨[], ⟨rfl, by simp, List.Pairwise.nil⟩, fun fst sideTable builder => ?_⟩
          rw [groupNames]
          simp [slotEntries]
      | cons pair pairs =>
          have hSplit := takeGroup_append pair.1 pairs
          have hShorter : (takeGroup pair.1 pairs).2.length < n := by
            rw [← hLength, List.length_cons]
            exact Nat.lt_succ_of_le (takeGroup_snd_length_le _ _)
          have hRestSorted : (takeGroup pair.1 pairs).2.Pairwise
              fun p q => nameKey p ≤ nameKey q :=
            (List.pairwise_cons.mp hSorted).2.sublist (takeGroup_rest_sublist _ _)
          obtain ⟨groups, hGroups, hLoop⟩ := ih _ hShorter _ hRestSorted rfl
          refine ⟨(pair.1, pair.2 :: (takeGroup pair.1 pairs).1) :: groups, ⟨?_, ?_, ?_⟩, ?_⟩
          · rw [List.flatMap_cons, ← hGroups.flatten, List.map_cons, List.cons_append, hSplit]
          · rintro group (_ | ⟨_, hMem⟩)
            · simp
            · exact hGroups.nonempty group hMem
          · refine List.pairwise_cons.mpr ⟨fun group hMem => ?_, hGroups.ascending⟩
            -- any node of a later group is a pair behind the first group
            obtain ⟨id, hId⟩ := List.exists_mem_of_ne_nil _ (hGroups.nonempty group hMem)
            have hLater : (group.1, id) ∈ (takeGroup pair.1 pairs).2 := by
              rw [hGroups.flatten]
              exact List.mem_flatMap.mpr ⟨group, hMem, List.mem_map_of_mem hId⟩
            exact takeGroup_rest_gt hSorted hLater
          · intro fst sideTable builder
            rw [groupNames, slotEntries_cons, List.foldlM_cons, expect_bind]
            dsimp only
            rw [takeGroup_self]
            dsimp only
            cases fst.insert builder (utf8 pair.1) (UInt64.ofNat sideTable.length) with
            | none => rfl
            | some builder' =>
                rw [expect_some, Exec.ok_bind, Exec.ok_bind, hLoop]
                simp

/-!
## What the groups contain
-/

theorem Grouped.mem_iff {pairs : List (String × NodeId)}
    {groups : List (String × List NodeId)} (h : Grouped pairs groups)
    {group : String × List NodeId} (hGroup : group ∈ groups) {id : NodeId} :
    id ∈ group.2 ↔ (group.1, id) ∈ pairs := by
  rw [h.flatten]
  constructor
  · intro hId
    exact List.mem_flatMap.mpr ⟨group, hGroup, List.mem_map_of_mem hId⟩
  · intro hPair
    obtain ⟨group', hGroup', hMem⟩ := List.mem_flatMap.mp hPair
    obtain ⟨id', hId', hEq⟩ := List.mem_map.mp hMem
    obtain ⟨hName, rfl⟩ := Prod.mk.inj hEq
    -- two groups of one name would break the strict order of the names
    have hSame : group' = group := by
      by_contra hne
      have hDistinct : groups.Pairwise fun g g' => strKey g.1 ≠ strKey g'.1 :=
        h.ascending.imp fun hLess => hLess.ne
      have : Std.Symm fun g g' : String × List NodeId => strKey g.1 ≠ strKey g'.1 :=
        ⟨fun _ _ hDiff => hDiff.symm⟩
      exact hDistinct.forall hGroup' hGroup hne (congrArg strKey hName)
    rwa [← hSame]

theorem Grouped.exists_group_iff {pairs : List (String × NodeId)}
    {groups : List (String × List NodeId)} (h : Grouped pairs groups) {s : String} :
    (∃ ids, (s, ids) ∈ groups) ↔ ∃ id, (s, id) ∈ pairs := by
  constructor
  · rintro ⟨ids, hGroup⟩
    obtain ⟨id, hId⟩ := List.exists_mem_of_ne_nil _ (h.nonempty _ hGroup)
    exact ⟨id, (h.mem_iff hGroup).mp hId⟩
  · rintro ⟨id, hPair⟩
    rw [h.flatten] at hPair
    obtain ⟨⟨name, ids⟩, hGroup, hMem⟩ := List.mem_flatMap.mp hPair
    obtain ⟨id', -, hEq⟩ := List.mem_map.mp hMem
    obtain ⟨rfl, -⟩ := Prod.mk.inj hEq
    exact ⟨ids, hGroup⟩

theorem Grouped.ids_sorted {pairs : List (String × NodeId)}
    {groups : List (String × List NodeId)} (h : Grouped pairs groups)
    (hSorted : pairs.Pairwise fun p q => nameKey p ≤ nameKey q) (hNodup : pairs.Nodup)
    {group : String × List NodeId} (hGroup : group ∈ groups) :
    group.2.Pairwise fun a b => a.val < b.val := by
  have hSub : (group.2.map fun id => (group.1, id)).Sublist pairs := by
    obtain ⟨before, rest, hGroups⟩ := List.append_of_mem hGroup
    rw [h.flatten, hGroups, List.flatMap_append, List.flatMap_cons]
    exact (List.sublist_append_left _ _).trans (List.sublist_append_right _ _)
  have hStrict := (hSorted.sublist hSub).and (hNodup.sublist hSub)
  rw [List.pairwise_map] at hStrict
  refine hStrict.imp fun {a b} hab => ?_
  rcases nameKey_le_iff.mp hab.1 with hLess | ⟨-, hLe⟩
  -- within a group the names are equal, so the ids decide the order
  · exact absurd hLess (lt_irrefl _)
  · refine UInt32.lt_iff_toNat_lt.mpr (lt_of_le_of_ne hLe fun hEq => hab.2 ?_)
    rw [NodeId.toNat_inj.mp hEq]

/-!
## The index
-/

theorem resolveNames_ok {handles : List InternedStr} {names : List String}
    {interner : FrozenInterner}
    (hResolve : List.Forall₂ (fun handle name => interner.resolve handle = .ok name)
      handles names) : resolveNames handles interner = .ok (namedPairs names) := by
  -- the induction needs the numbering to start anywhere
  suffices h : ∀ start, (handles.zipIdx start).mapM (fun entry => do
      let name ← interner.resolve entry.1
      .ok (name, nodeIdOfIdx entry.2)) =
      (.ok ((names.zipIdx start).map fun entry => (entry.1, nodeIdOfIdx entry.2)) :
        Exec (List (String × NodeId))) from h 0
  induction hResolve with
  | nil => intro start; rfl
  | cons hHead hTail ih =>
      intro start
      rw [List.zipIdx_cons, List.mapM_cons, ih, List.zipIdx_cons, List.map_cons]
      dsimp only
      rw [hHead]
      rfl

theorem Grouped.slotEntries_ascending {pairs : List (String × NodeId)}
    {groups : List (String × List NodeId)} (h : Grouped pairs groups) :
    (slotEntries 0 groups).Pairwise fun a b => a.1.map UInt8.toNat < b.1.map UInt8.toNat := by
  have hZip : (groups.zipIdx 0).Pairwise fun a b => strKey a.1.1 < strKey b.1.1 := by
    rw [← List.pairwise_map (f := Prod.fst)
      (R := fun g g' : String × List NodeId => strKey g.1 < strKey g'.1), List.zipIdx_map_fst]
    exact h.ascending
  exact List.pairwise_map.mpr hZip

/-- What `build_bare_name_index` does to any finite-state map when all names resolve: it
inserts one entry for each group and returns the groups. -/
theorem exists_buildBareNameIndex_eq {handles : List InternedStr} {names : List String}
    {interner : FrozenInterner}
    (hResolve : List.Forall₂ (fun handle name => interner.resolve handle = .ok name)
      handles names) :
    ∃ groups, Grouped (sortByKey nameKey (namedPairs names)) groups ∧ ∀ fst : Fst,
      buildBareNameIndex fst handles interner = (do
        let builder ← expect ((slotEntries 0 groups).foldlM
          (fun builder entry => fst.insert builder entry.1 entry.2) fst.memory)
        let bytes ← expect (fst.intoInner builder)
        .ok (bytes, groups.map Prod.snd)) := by
  obtain ⟨groups, hGroups, hLoop⟩ :=
    exists_grouped _ (sorted_sortByKey nameKey (namedPairs names))
  refine ⟨groups, hGroups, fun fst => ?_⟩
  rw [buildBareNameIndex, resolveNames_ok hResolve, Exec.ok_bind, hLoop, List.length_nil,
    List.nil_append, bind_assoc]
  rfl

/-- The index of names that all resolve: the build succeeds, slot `i` holds
group `i`, and the finite-state map knows exactly the names of the groups. -/
theorem buildBareNameIndex_ok {fst : Fst} (hFst : FstLaw fst) {handles : List InternedStr}
    {names : List String} {interner : FrozenInterner}
    (hResolve : List.Forall₂ (fun handle name => interner.resolve handle = .ok name)
      handles names) :
    ∃ groups bytes map,
      buildBareNameIndex fst handles interner = .ok (bytes, groups.map Prod.snd) ∧
      Grouped (sortByKey nameKey (namedPairs names)) groups ∧
      fst.new bytes = some map ∧
      ∀ key value, fst.get map key = some value ↔ (key, value) ∈ slotEntries 0 groups := by
  obtain ⟨groups, hGroups, hBuild⟩ := exists_buildBareNameIndex_eq hResolve
  obtain ⟨builder, bytes, map, hInsert, hInner, hNew, hGet⟩ :=
    hFst.build _ hGroups.slotEntries_ascending
  refine ⟨groups, bytes, map, ?_, hGroups, hNew, hGet⟩
  rw [hBuild, hInsert, expect_some, Exec.ok_bind, hInner, expect_some, Exec.ok_bind]

end Graph
end CodebaseMem
