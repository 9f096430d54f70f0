import CodebaseMem.Graph.PlainLibraries
import Mathlib.Data.List.Dedup

/-!
# The groups of the bare-name index

Two loops share one index into the sorted pairs.  They insert every distinct name
once, in ascending order, and put every node into the group of its name.  The node
ids are cast to 32 bits on the way, so ids repeat in an array of more than `2 ^ 32`
names.

* `AcceptsAscending`: all that is asked of the map library here: it rejects only keys
  that do not ascend.
* `IndexGroups`: the entries are the distinct names, numbered from zero, and the groups
  partition the nodes by name.
* `Grouped.indexGroups`: up to `2 ^ 32` names the groups are such.
* `namesPartitioned_iff`: and beyond that they are not.
-/

namespace CodebaseMem
namespace Graph

open CodebaseMem.Core Library

/-- The map builder rejects only keys that do not ascend.  With this no insertion of the
grouping loop fails, because it inserts the names in their order. -/
def AcceptsAscending (fst : Fst) : Prop :=
  ∀ entries : List (List UInt8 × UInt64),
    entries.Pairwise (fun a b => a.1.map UInt8.toNat < b.1.map UInt8.toNat) →
    ∃ builder bytes,
      entries.foldlM (fun builder entry => fst.insert builder entry.1 entry.2) fst.memory =
        some builder ∧
      fst.intoInner builder = some bytes

theorem FstLaw.acceptsAscending {fst : Fst} (h : FstLaw fst) : AcceptsAscending fst := by
  intro entries hAscending
  obtain ⟨builder, bytes, map, hInsert, hInner, -⟩ := h.build entries hAscending
  exact ⟨builder, bytes, hInsert, hInner⟩

/-- `build_bare_name_index` inserts `entries` in this order, whatever the map library
does with them, and returns `sideTable`. -/
def Inserts (handles : List InternedStr) (interner : FrozenInterner)
    (entries : List (List UInt8 × UInt64)) (sideTable : List (List NodeId)) : Prop :=
  ∀ fst : Fst, buildBareNameIndex fst handles interner = (do
    let builder ← expect (entries.foldlM
      (fun builder entry => fst.insert builder entry.1 entry.2) fst.memory)
    let bytes ← expect (fst.intoInner builder)
    .ok (bytes, sideTable))

/-- The entries are the distinct names in ascending order, numbered from zero, and the
side table puts every node below the length of `names` into the slot of its name. -/
structure IndexGroups (names : List String) (entries : List (List UInt8 × UInt64))
    (sideTable : List (List NodeId)) : Prop where
  keys : entries.Pairwise fun a b => a.1.map UInt8.toNat < b.1.map UInt8.toNat
  slots : entries.map (fun entry => entry.2.toNat) = List.range names.dedup.length
  length : sideTable.length = names.dedup.length
  nonempty : ∀ group ∈ sideTable, group ≠ []
  ascending : ∀ group ∈ sideTable, group.Pairwise fun a b => a.val < b.val
  partition : ∀ id : NodeId, id.val.toNat < names.length →
    ∃! slot : Nat, ∃ group, sideTable[slot]? = some group ∧ id ∈ group
  named : ∀ (slot : Nat) group id, sideTable[slot]? = some group → id ∈ group →
    ∃ name, names[id.val.toNat]? = some name ∧ entries[slot]?.map Prod.fst = some (utf8 name)

/-- The grouping loop partitions the nodes: no `expect` fails for a library that accepts
ascending keys, and what is inserted and returned are the groups of equal names. -/
def NamesPartitioned (handles : List InternedStr) (names : List String)
    (interner : FrozenInterner) : Prop :=
  ∃ entries sideTable,
    Inserts handles interner entries sideTable ∧
    (∀ fst, AcceptsAscending fst →
      ∃ bytes, buildBareNameIndex fst handles interner = .ok (bytes, sideTable)) ∧
    IndexGroups names entries sideTable

/-! ### The entries -/

theorem getElem?_slotEntries (groups : List (String × List NodeId)) (slot : Nat) :
    (slotEntries 0 groups)[slot]? =
      groups[slot]?.map fun group => (utf8 group.1, UInt64.ofNat slot) := by
  rw [slotEntries, List.getElem?_map, List.getElem?_zipIdx, Option.map_map]
  simp [Function.comp_def]

theorem map_slot_slotEntries {groups : List (String × List NodeId)}
    (hFew : groups.length ≤ 2 ^ 64) :
    (slotEntries 0 groups).map (fun entry => entry.2.toNat) = List.range groups.length := by
  apply List.ext_getElem?
  intro slot
  rw [List.getElem?_map, getElem?_slotEntries, Option.map_map]
  by_cases hSlot : slot < groups.length
  · rw [List.getElem?_eq_getElem hSlot, List.getElem?_range hSlot]
    simp only [Option.map_some, Function.comp_apply, UInt64.toNat_ofNat']
    rw [Nat.mod_eq_of_lt (by omega)]
  · rw [List.getElem?_eq_none (by omega), List.getElem?_eq_none (by simpa using hSlot)]
    rfl

theorem Grouped.perm_dedup {names : List String} {groups : List (String × List NodeId)}
    (h : Grouped (sortByKey nameKey (namedPairs names)) groups)
    (hCount : names.length ≤ 2 ^ 32) : (groups.map Prod.fst).Perm names.dedup := by
  have hNodup : (groups.map Prod.fst).Nodup :=
    List.pairwise_map.mpr (h.ascending.imp fun hLess hEq => hLess.ne (congrArg strKey hEq))
  rw [List.perm_ext_iff_of_nodup hNodup names.nodup_dedup]
  intro name
  have hGroup : name ∈ groups.map Prod.fst ↔ ∃ ids, (name, ids) ∈ groups := by simp
  rw [hGroup, h.exists_group_iff, List.mem_dedup, List.mem_iff_getElem?]
  simp only [mem_sortByKey, mem_namedPairs hCount]
  constructor
  · rintro ⟨id, hName⟩
    exact ⟨id.val.toNat, hName⟩
  · rintro ⟨i, hName⟩
    have hi := (List.getElem?_eq_some_iff.mp hName).1
    refine ⟨⟨UInt32.ofNat i⟩, ?_⟩
    rwa [toNat_ofNat_u32 (by omega)]

section

variable {names : List String} {groups : List (String × List NodeId)}

theorem Grouped.mem_slot_iff (h : Grouped (sortByKey nameKey (namedPairs names)) groups)
    (hCount : names.length ≤ 2 ^ 32) {slot : Nat} {group : String × List NodeId} {id : NodeId}
    (hSlot : groups[slot]? = some group) :
    id ∈ group.2 ↔ names[id.val.toNat]? = some group.1 := by
  rw [h.mem_iff (List.mem_of_getElem? hSlot), mem_sortByKey, mem_namedPairs hCount]

theorem Grouped.existsUnique_slot (h : Grouped (sortByKey nameKey (namedPairs names)) groups)
    (hCount : names.length ≤ 2 ^ 32) {id : NodeId} (hId : id.val.toNat < names.length) :
    ∃! slot : Nat, ∃ ids, (groups.map Prod.snd)[slot]? = some ids ∧ id ∈ ids := by
  have hPerm := h.perm_dedup hCount
  have hName := List.getElem?_eq_getElem hId
  have hGroup : names[id.val.toNat] ∈ groups.map Prod.fst :=
    hPerm.mem_iff.mpr (List.mem_dedup.mpr (List.getElem_mem hId))
  obtain ⟨slot, hSlot⟩ := List.mem_iff_getElem?.mp hGroup
  rw [List.getElem?_map, Option.map_eq_some_iff] at hSlot
  obtain ⟨group, hGet, hFst⟩ := hSlot
  refine ⟨slot, ⟨group.2, ?_, (h.mem_slot_iff hCount hGet).mpr (hFst ▸ hName)⟩, ?_⟩
  · rw [List.getElem?_map, hGet]
    rfl
  · rintro slot' ⟨ids, hSlot', hOther⟩
    rw [List.getElem?_map, Option.map_eq_some_iff] at hSlot'
    obtain ⟨group', hGet', rfl⟩ := hSlot'
    -- the names of the two groups are that of the node, and no name has two groups
    have hSame : (groups.map Prod.fst)[slot']? = (groups.map Prod.fst)[slot]? := by
      calc (groups.map Prod.fst)[slot']?
        _ = some group'.1 := by rw [List.getElem?_map, hGet', Option.map_some]
        _ = names[id.val.toNat]? := ((h.mem_slot_iff hCount hGet').mp hOther).symm
        _ = some group.1 := by rw [hName, hFst]
        _ = (groups.map Prod.fst)[slot]? := by rw [List.getElem?_map, hGet, Option.map_some]
    have hDistinct : (groups.map Prod.fst).Nodup := hPerm.nodup_iff.mpr names.nodup_dedup
    have hInside : slot' < (groups.map Prod.fst).length := by
      rw [List.length_map]
      exact (List.getElem?_eq_some_iff.mp hGet').1
    exact (List.getElem?_inj hInside hDistinct).mp hSame

theorem Grouped.indexGroups (h : Grouped (sortByKey nameKey (namedPairs names)) groups)
    (hCount : names.length ≤ 2 ^ 32) :
    IndexGroups names (slotEntries 0 groups) (groups.map Prod.snd) := by
  have hLength : groups.length = names.dedup.length := by
    rw [← (h.perm_dedup hCount).length_eq, List.length_map]
  -- slots are counted in 64 bits, and there are no more groups than names
  have hFew : groups.length ≤ names.length := by
    rw [hLength]
    exact names.dedup_sublist.length_le
  have hSorted := sorted_sortByKey nameKey (namedPairs names)
  have hNodup : (sortByKey nameKey (namedPairs names)).Nodup :=
    (perm_sortByKey _ _).nodup_iff.mpr (nodup_namedPairs hCount)
  refine
    { keys := h.slotEntries_ascending
      slots := by rw [map_slot_slotEntries (by omega), hLength]
      length := by rw [List.length_map, hLength]
      nonempty := ?_
      ascending := ?_
      partition := fun id hId => h.existsUnique_slot hCount hId
      named := ?_ }
  · intro ids hIds
    obtain ⟨group, hGroup, rfl⟩ := List.mem_map.mp hIds
    exact h.nonempty group hGroup
  · intro ids hIds
    obtain ⟨group, hGroup, rfl⟩ := List.mem_map.mp hIds
    exact h.ids_sorted hSorted hNodup hGroup
  · intro slot ids id hSlot hId
    rw [List.getElem?_map, Option.map_eq_some_iff] at hSlot
    obtain ⟨group, hGet, rfl⟩ := hSlot
    refine ⟨group.1, (h.mem_slot_iff hCount hGet).mp hId, ?_⟩
    rw [getElem?_slotEntries, hGet]
    rfl

end

/-! ### More names than node ids -/

theorem length_le_of_nodup {ids : List NodeId} (hNodup : ids.Nodup) : ids.length ≤ 2 ^ 32 := by
  have hNumbers : (ids.map fun id => id.val.toNat).Nodup :=
    hNodup.map fun a b hEq => NodeId.toNat_inj.mp hEq
  have hSub : (ids.map fun id => id.val.toNat) ⊆ List.range (2 ^ 32) := by
    intro n hn
    obtain ⟨id, -, rfl⟩ := List.mem_map.mp hn
    exact List.mem_range.mpr id.val.toNat_lt
  have hLength := (List.subperm_of_subset hNumbers hSub).length_le
  rwa [List.length_map, List.length_range] at hLength

theorem IndexGroups.nodup_flatten {names : List String}
    {entries : List (List UInt8 × UInt64)} {sideTable : List (List NodeId)}
    (h : IndexGroups names entries sideTable) (hAll : 2 ^ 32 ≤ names.length) :
    sideTable.flatten.Nodup := by
  rw [List.nodup_flatten]
  refine ⟨fun group hGroup => (h.ascending group hGroup).imp ?_, ?_⟩
  · intro a b hLess hEq
    rw [hEq] at hLess
    exact UInt32.lt_irrefl _ hLess
  · rw [List.pairwise_iff_getElem]
    intro i j hi hj hij id hId hId'
    have hBelow : id.val.toNat < names.length := id.val.toNat_lt.trans_le hAll
    have hSame := (h.partition id hBelow).unique
      ⟨_, List.getElem?_eq_getElem hi, hId⟩ ⟨_, List.getElem?_eq_getElem hj, hId'⟩
    omega

theorem Grouped.length_flatten {pairs : List (String × NodeId)}
    {groups : List (String × List NodeId)} (h : Grouped pairs groups) :
    (groups.map Prod.snd).flatten.length = pairs.length := by
  conv_rhs => rw [h.flatten]
  simp [List.length_flatMap, List.length_flatten, Function.comp_def]

theorem NamesPartitioned.length_le {handles : List InternedStr} {names : List String}
    {interner : FrozenInterner}
    (hResolve : List.Forall₂ (fun handle name => interner.resolve handle = .ok name)
      handles names) (h : NamesPartitioned handles names interner) :
    handles.length ≤ 2 ^ 32 := by
  obtain ⟨entries, sideTable, -, hBuild, hGroups⟩ := h
  by_contra hMany
  have hLength := hResolve.length_eq
  obtain ⟨bytes, hIndex⟩ := hBuild plainFst fstLaw_plainFst.acceptsAscending
  obtain ⟨groups, bytes', map, hIndex', hGrouped, -⟩ :=
    buildBareNameIndex_ok fstLaw_plainFst hResolve
  obtain ⟨-, rfl⟩ := Prod.mk.inj (Except.ok.inj (hIndex.symm.trans hIndex'))
  have hFew := length_le_of_nodup (hGroups.nodup_flatten (by omega))
  rw [hGrouped.length_flatten, length_sortByKey, namedPairs, List.length_map,
    List.length_zipIdx] at hFew
  omega

/-- The grouping loop partitions the nodes exactly for arrays of up to `2 ^ 32` names. -/
theorem namesPartitioned_iff {handles : List InternedStr} {names : List String}
    {interner : FrozenInterner}
    (hResolve : List.Forall₂ (fun handle name => interner.resolve handle = .ok name)
      handles names) :
    NamesPartitioned handles names interner ↔ handles.length ≤ 2 ^ 32 := by
  refine ⟨NamesPartitioned.length_le hResolve, fun hCount => ?_⟩
  obtain ⟨groups, hGroups, hBuild⟩ := exists_buildBareNameIndex_eq hResolve
  refine ⟨slotEntries 0 groups, groups.map Prod.snd, hBuild, ?_,
    hGroups.indexGroups (hResolve.length_eq ▸ hCount)⟩
  intro fst hFst
  obtain ⟨builder, bytes, hInsert, hInner⟩ := hFst _ hGroups.slotEntries_ascending
  refine ⟨bytes, ?_⟩
  rw [hBuild, hInsert, expect_some, Exec.ok_bind, hInner, expect_some, Exec.ok_bind]

/-- Three handles, two of which resolve to equal strings. -/
theorem namesPartitioned_equal_strings :
    NamesPartitioned [⟨0⟩, ⟨5⟩, ⟨10⟩] ["b", "a", "b"] ⟨records utf8 ["b", "a", "b"]⟩ :=
  (namesPartitioned_iff (by decide)).mpr (by decide)

/-- With one name more than there are node ids, an id is in the groups twice. -/
theorem not_namesPartitioned_replicate :
    (∀ handle ∈ List.replicate (2 ^ 32 + 1) (⟨0⟩ : InternedStr),
        (⟨record utf8 "a"⟩ : FrozenInterner).resolve handle = .ok "a") ∧
      ¬NamesPartitioned (List.replicate (2 ^ 32 + 1) ⟨0⟩) (List.replicate (2 ^ 32 + 1) "a")
        ⟨record utf8 "a"⟩ := by
  have hResolve : (⟨record utf8 "a"⟩ : FrozenInterner).resolve ⟨0⟩ = .ok "a" := by decide
  refine ⟨fun handle hMem => (List.eq_of_mem_replicate hMem) ▸ hResolve, fun hPartitioned => ?_⟩
  have hAll : List.Forall₂
      (fun handle name => (⟨record utf8 "a"⟩ : FrozenInterner).resolve handle = .ok name)
      (List.replicate (2 ^ 32 + 1) ⟨0⟩) (List.replicate (2 ^ 32 + 1) "a") := by
    generalize 2 ^ 32 + 1 = count
    induction count with
    | zero => exact .nil
    | succ count ih => exact .cons hResolve ih
  have hFew := NamesPartitioned.length_le hAll hPartitioned
  rw [List.length_replicate] at hFew
  omega

end Graph
end CodebaseMem
