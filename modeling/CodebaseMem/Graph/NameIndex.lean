import CodebaseMem.Graph.Adjacency

/-!
# The name and file indexes

Three indexes are built from the node columns: by name handle, by file handle
and by resolved name.  Since two interned strings have the same handle exactly
when they are equal, the indexes agree with the strings that were added.

* `buildQnIndex_apply`, `buildFileIndex_getD`: what the first two hold for a handle: the
  last node with it, and all nodes with it.
* `AscendingIds`: the ids of the nodes with some property, in strictly ascending order;
  there is one such list.
* `IndexesAgree`: what the three indexes say about a string.
* `indexesAgree_freeze`: intern the strings in any order, compact, relocate the handles,
  add the nodes and freeze: the indexes answer for the strings.

The handles of the rows must come from the interner that was compacted.  `freeze` does
not check this, and `resolve` does not either.
-/

namespace CodebaseMem
namespace Graph

open CodebaseMem.Core Library

/-- The nodes at the positions of `entries` that carry `handle`. -/
def idsIn (entries : List (InternedStr × Nat)) (handle : InternedStr) : List NodeId :=
  (entries.filter fun entry => entry.1 = handle).map fun entry => nodeIdOfIdx entry.2

theorem idsIn_append_self (done : List (InternedStr × Nat)) (entry : InternedStr × Nat) :
    idsIn (done ++ [entry]) entry.1 = idsIn done entry.1 ++ [nodeIdOfIdx entry.2] := by
  simp [idsIn]

theorem idsIn_append_of_ne (done : List (InternedStr × Nat)) {entry : InternedStr × Nat}
    {handle : InternedStr} (hne : handle ≠ entry.1) :
    idsIn (done ++ [entry]) handle = idsIn done handle := by
  simp [idsIn, hne.symm]

/-- The name index holds the last node of each handle. -/
theorem buildQnIndex_apply (handles : List InternedStr) (handle : InternedStr) :
    buildQnIndex handles handle = (idsIn handles.zipIdx handle).getLast? := by
  have hLoop := foldl_invariant
    (fun (qnIndex : HashMap InternedStr NodeId) (entry : InternedStr × Nat) =>
      qnIndex.insert entry.1 (nodeIdOfIdx entry.2))
    (fun done _ qnIndex => ∀ h, qnIndex h = (idsIn done h).getLast?)
    handles.zipIdx HashMap.empty (fun _ => rfl) ?_
  · exact hLoop handle
  · intro done entry rest qnIndex _ hIndex h
    by_cases hh : h = entry.1
    · subst hh
      rw [HashMap.insert_self, idsIn_append_self, List.getLast?_concat]
    · rw [HashMap.insert_of_ne _ hh, idsIn_append_of_ne done hh, hIndex]

/-- The file index holds all nodes of each handle. -/
theorem buildFileIndex_getD (handles : List InternedStr) (handle : InternedStr) :
    (buildFileIndex handles handle).getD [] = idsIn handles.zipIdx handle := by
  have hLoop := foldl_invariant
    (fun (fileIndex : HashMap InternedStr (List NodeId)) (entry : InternedStr × Nat) =>
      fileIndex.insert entry.1 ((fileIndex entry.1).getD [] ++ [nodeIdOfIdx entry.2]))
    (fun done _ fileIndex => ∀ h, (fileIndex h).getD [] = idsIn done h)
    handles.zipIdx HashMap.empty (fun _ => rfl) ?_
  · exact hLoop handle
  · intro done entry rest fileIndex _ hIndex h
    by_cases hh : h = entry.1
    · subst hh
      rw [HashMap.insert_self, Option.getD_some, idsIn_append_self, hIndex]
    · rw [HashMap.insert_of_ne _ hh, idsIn_append_of_ne done hh, hIndex]

/-- The nodes of a handle are its positions, in ascending order. -/
theorem ascendingIds_idsIn {handles : List InternedStr} (hCount : handles.length < 2 ^ 32)
    (handle : InternedStr) :
    AscendingIds (fun id => handles[id.val.toNat]? = some handle)
      (idsIn handles.zipIdx handle) where
  sorted := by
    have hPositions : handles.zipIdx.Pairwise fun a b => a.2 < b.2 := by
      rw [← List.pairwise_map (f := Prod.snd) (R := fun i j : Nat => i < j),
        List.zipIdx_map_snd]
      exact List.pairwise_lt_range'
    have hBound : ∀ entry ∈ handles.zipIdx, entry.2 < 2 ^ 32 := by
      intro entry hEntry
      have hGet := List.mem_zipIdx_iff_getElem?.mp hEntry
      have hLt := (List.getElem?_eq_some_iff.mp hGet).1
      omega
    -- the cast to 32 bits keeps the order of the positions, as it is exact on them
    rw [idsIn, List.pairwise_map]
    refine List.Pairwise.imp_of_mem ?_ (hPositions.filter _)
    intro a b ha hb hLess
    have haBound := hBound a (List.mem_of_mem_filter ha)
    have hbBound := hBound b (List.mem_of_mem_filter hb)
    rw [nodeIdOfIdx, nodeIdOfIdx, UInt32.lt_iff_toNat_lt, toNat_ofNat_u32 haBound,
      toNat_ofNat_u32 hbBound]
    exact hLess
  mem := by
    intro id
    constructor
    · intro hId
      obtain ⟨⟨handle', idx⟩, hEntry, rfl⟩ := List.mem_map.mp hId
      obtain ⟨hMem, hHandle⟩ := List.mem_filter.mp hEntry
      have hGet := List.mem_zipIdx_iff_getElem?.mp hMem
      have hIdx := (List.getElem?_eq_some_iff.mp hGet).1
      rw [nodeIdOfIdx, toNat_ofNat_u32 (by omega), hGet]
      exact congrArg some (of_decide_eq_true hHandle)
    · intro hGet
      refine List.mem_map.mpr ⟨(handle, id.val.toNat), List.mem_filter.mpr ⟨?_, by simp⟩, ?_⟩
      · exact List.mem_zipIdx_iff_getElem?.mpr hGet
      · rw [nodeIdOfIdx, UInt32.ofNat_toNat]

theorem AscendingIds.unique {P : NodeId → Prop} {ids ids' : List NodeId}
    (h : AscendingIds P ids) (h' : AscendingIds P ids') : ids = ids' := by
  have : Std.Irrefl fun a b : NodeId => a.val < b.val := ⟨fun a => UInt32.lt_irrefl a.val⟩
  have : Std.Antisymm fun a b : NodeId => a.val < b.val :=
    ⟨fun a b hab hba => absurd (UInt32.lt_trans hab hba) (UInt32.lt_irrefl a.val)⟩
  exact List.Pairwise.eq_of_mem_iff h.sorted h'.sorted fun id =>
    (h.mem id).trans (h'.mem id).symm

theorem AscendingIds.congr {P Q : NodeId → Prop} {ids : List NodeId} (h : AscendingIds P ids)
    (hPQ : ∀ id, P id ↔ Q id) : AscendingIds Q ids where
  sorted := h.sorted
  mem := fun id => (h.mem id).trans (hPQ id)

theorem Grouped.length_le {pairs : List (String × NodeId)}
    {groups : List (String × List NodeId)} (h : Grouped pairs groups) :
    groups.length ≤ pairs.length := by
  rw [h.flatten]
  have hNonempty := h.nonempty
  clear h
  induction groups with
  | nil => simp
  | cons group groups ih =>
      have hGroup := List.length_pos_of_ne_nil (hNonempty group List.mem_cons_self)
      have hRest := ih fun other hOther => hNonempty other (List.mem_cons_of_mem _ hOther)
      rw [List.flatMap_cons, List.length_append, List.length_map, List.length_cons]
      omega

/-!
## Nodes given by strings
-/

/-- A node before its strings are interned. -/
structure NamedNode where
  label : NodeLabel
  name : String
  file : String
  deriving DecidableEq, Repr

/-- The ids of the nodes that satisfy `p`. -/
def IdsWhere (nodes : List NamedNode) (p : NamedNode → Prop) (id : NodeId) : Prop :=
  ∃ node, nodes[id.val.toNat]? = some node ∧ p node

/-- `row` is `node` with its strings replaced by positions in the table of the
frozen interner. -/
structure RowOf (items : List String) (node : NamedNode) (row : NodeRow) : Prop where
  label : row.label = node.label
  name : RecordAt utf8 items row.name.val.toNat node.name
  file : RecordAt utf8 items row.file.val.toNat node.file

/-- All the indexes say about the string `s` with handle `h`. -/
structure IndexesAgree (fst : Fst) (graph : FrozenGraph) (nodes : List NamedNode) (s : String)
    (h : InternedStr) : Prop where
  found : ∃ map, graph.bareNameFst fst = .ok map ∧
    ((∃ slot, fst.get map (utf8 s) = some slot) ↔ ∃ node ∈ nodes, node.name = s) ∧
    ∀ slot, fst.get map (utf8 s) = some slot → ∃ ids last,
      graph.bareNameNodesAt slot = .ok ids ∧
      AscendingIds (IdsWhere nodes fun node => node.name = s) ids ∧
      ids.getLast? = some last ∧ graph.lookupQn h = some last
  absent : (∀ node ∈ nodes, node.name ≠ s) → graph.lookupQn h = none
  file : AscendingIds (IdsWhere nodes fun node => node.file = s) (graph.nodesInFile h)

section Rows

variable {items : List String} {nodes : List NamedNode} {rows : List NodeRow}
variable {frozen : FrozenInterner}

/-- A column of handles has the handle of `s` where the nodes have the string
`s`. -/
theorem getElem?_handle_iff (hFrozen : FrozenHolds frozen items)
    {strOf : NamedNode → String} {handleOf : NodeRow → InternedStr}
    (hRows : List.Forall₂ (fun node row =>
      RecordAt utf8 items (handleOf row).val.toNat (strOf node)) nodes rows)
    {s : String} {h : InternedStr} (hHandle : RecordAt utf8 items h.val.toNat s) (i : Nat) :
    (rows.map handleOf)[i]? = some h ↔ ∃ node, nodes[i]? = some node ∧ strOf node = s := by
  induction hRows generalizing i with
  | nil => simp
  | cons hHead hTail ih =>
      cases i with
      | zero => simpa using hFrozen.handle_eq_iff hHead hHandle
      | succ i => simpa using ih i

theorem exists_idsWhere_iff (hCount : nodes.length < 2 ^ 32) {p : NamedNode → Prop} :
    (∃ id, IdsWhere nodes p id) ↔ ∃ node ∈ nodes, p node := by
  constructor
  · rintro ⟨id, node, hGet, hp⟩
    exact ⟨node, List.mem_of_getElem? hGet, hp⟩
  · rintro ⟨node, hMem, hp⟩
    obtain ⟨i, hGet⟩ := List.mem_iff_getElem?.mp hMem
    have hi := (List.getElem?_eq_some_iff.mp hGet).1
    refine ⟨nodeIdOfIdx i, node, ?_, hp⟩
    rwa [nodeIdOfIdx, toNat_ofNat_u32 (by omega)]

theorem indexesAgree_of_rows {fst : Fst} (hFrozen : FrozenHolds frozen items)
    (hRows : List.Forall₂ (RowOf items) nodes rows) (hCount : nodes.length < 2 ^ 32)
    {graph : FrozenGraph} {groups : List (String × List NodeId)} {bytes : List UInt8}
    {map : fst.Map}
    (hGroups : Grouped (sortByKey nameKey (namedPairs (nodes.map NamedNode.name))) groups)
    (hNew : fst.new bytes = some map)
    (hGet : ∀ key value, fst.get map key = some value ↔ (key, value) ∈ slotEntries 0 groups)
    (hQn : graph.qnIndex = buildQnIndex (rows.map NodeRow.name))
    (hFile : graph.fileIndex = buildFileIndex (rows.map NodeRow.file))
    (hBytes : graph.bareNameFstBytes = bytes)
    (hTable : graph.bareNameNodes = groups.map Prod.snd)
    {s : String} {h : InternedStr} (hHandle : RecordAt utf8 items h.val.toNat s) :
    IndexesAgree fst graph nodes s h := by
  have hLength : rows.length < 2 ^ 32 := hRows.length_eq ▸ hCount
  have hNames : (nodes.map NamedNode.name).length < 2 ^ 32 := by rwa [List.length_map]
  have hSorted := sorted_sortByKey nameKey (namedPairs (nodes.map NamedNode.name))
  have hNodup : (sortByKey nameKey (namedPairs (nodes.map NamedNode.name))).Nodup :=
    (perm_sortByKey _ _).nodup_iff.mpr (nodup_namedPairs hNames.le)
  have hPair : ∀ s id, (s, id) ∈ sortByKey nameKey (namedPairs (nodes.map NamedNode.name)) ↔
      IdsWhere nodes (fun node => node.name = s) id := by
    intro s id
    rw [mem_sortByKey, mem_namedPairs hNames.le, List.getElem?_map, Option.map_eq_some_iff]
    rfl
  have hLookup : ∀ slot, fst.get map (utf8 s) = some slot ↔
      ∃ i group, groups[i]? = some group ∧ s = group.1 ∧ slot = UInt64.ofNat i := by
    intro slot
    rw [hGet, mem_slotEntries]
    simp only [utf8_injective.eq_iff]
  have hQnIds : graph.lookupQn h = (idsIn (rows.map NodeRow.name).zipIdx h).getLast? := by
    rw [FrozenGraph.lookupQn, hQn, buildQnIndex_apply]
  have hNameIds : AscendingIds (IdsWhere nodes fun node => node.name = s)
      (idsIn (rows.map NodeRow.name).zipIdx h) := by
    refine (ascendingIds_idsIn (by rwa [List.length_map]) h).congr fun id => ?_
    exact getElem?_handle_iff hFrozen (hRows.imp fun _ _ hRow => hRow.name) hHandle _
  refine ⟨⟨map, by rw [FrozenGraph.bareNameFst, hBytes, hNew]; rfl, ?_, ?_⟩, ?_, ?_⟩
  · -- the map knows the name exactly when the name has a group
    rw [← exists_idsWhere_iff hCount]
    simp only [← hPair]
    rw [← hGroups.exists_group_iff]
    constructor
    · rintro ⟨slot, hSlot⟩
      obtain ⟨i, ⟨name, ids⟩, hGroup, rfl, -⟩ := (hLookup slot).mp hSlot
      exact ⟨ids, List.mem_of_getElem? hGroup⟩
    · rintro ⟨ids, hMem⟩
      obtain ⟨i, hGroup⟩ := List.mem_iff_getElem?.mp hMem
      exact ⟨UInt64.ofNat i, (hLookup _).mpr ⟨i, (s, ids), hGroup, rfl, rfl⟩⟩
  · intro slot hSlot
    obtain ⟨i, ⟨name, ids⟩, hGroup, rfl, rfl⟩ := (hLookup slot).mp hSlot
    have hMem := List.mem_of_getElem? hGroup
    have hIds : AscendingIds (IdsWhere nodes fun node => node.name = s) ids :=
      ⟨hGroups.ids_sorted hSorted hNodup hMem,
        fun id => (hGroups.mem_iff hMem).trans (hPair s id)⟩
    have hNonempty : ids ≠ [] := hGroups.nonempty _ hMem
    -- there are no more groups than nodes, so the slot fits 64 bits
    have hIndex : (UInt64.ofNat i).toNat = i := by
      have hi := (List.getElem?_eq_some_iff.mp hGroup).1
      have hFew := hGroups.length_le
      rw [length_sortByKey, namedPairs, List.length_map, List.length_zipIdx] at hFew
      rw [UInt64.toNat_ofNat']
      omega
    refine ⟨ids, ids.getLast hNonempty, ?_, hIds, List.getLast?_eq_some_getLast hNonempty, ?_⟩
    · rw [FrozenGraph.bareNameNodesAt, hTable, hIndex, index_eq_ok_iff, List.getElem?_map, hGroup]
      rfl
    · -- both lists ascend through the same ids, so they are one list
      rw [hQnIds, hNameIds.unique hIds, List.getLast?_eq_some_getLast hNonempty]
  · -- no node has the name, so no id has the handle
    intro hAbsent
    have hNone : idsIn (rows.map NodeRow.name).zipIdx h = [] := by
      refine List.eq_nil_iff_forall_not_mem.mpr fun id hId => ?_
      obtain ⟨node, hNode, hName⟩ := (hNameIds.mem id).mp hId
      exact hAbsent node (List.mem_of_getElem? hNode) hName
    rw [hQnIds, hNone]
    rfl
  · rw [FrozenGraph.nodesInFile, hFile, buildFileIndex_getD]
    refine (ascendingIds_idsIn (by rwa [List.length_map]) h).congr fun id => ?_
    exact getElem?_handle_iff hFrozen (hRows.imp fun _ _ hRow => hRow.file) hHandle _

end Rows

/-!
## The whole pipeline
-/

theorem nodeRows_map_addNode (rows : List NodeRow) : nodeRows (rows.map Call.addNode) = rows := by
  induction rows with
  | nil => rfl
  | cons row rows ih => rw [List.map_cons, nodeRows_cons, ih]; rfl

theorem edgeRows_map_addNode (rows : List NodeRow) : edgeRows (rows.map Call.addNode) = [] := by
  induction rows with
  | nil => rfl
  | cons row rows ih => rw [List.map_cons, edgeRows_cons, ih]; rfl

/-- `row` is `node` with its strings replaced by the relocated handles of a run
of `intern` calls. -/
structure StoredAs (calls : List String) (handles : List InternedStr)
    (remap : InternedStr → Exec InternedStr) (node : NamedNode) (row : NodeRow) : Prop where
  label : row.label = node.label
  name : ∃ raw, (node.name, raw) ∈ calls.zip handles ∧ remap raw = .ok row.name
  file : ∃ raw, (node.file, raw) ∈ calls.zip handles ∧ remap raw = .ok row.file

/-- Intern the strings of `nodes` in any order, compact, relocate the handles,
add the nodes in list order and freeze: the indexes agree with the strings, for
every interned string.  Freezing succeeds while the label bitmaps fit. -/
theorem indexesAgree_freeze (profile : Profile) (roaring : Roaring) {fst : Fst}
    (hFst : FstLaw fst) (shardIndex : String → Fin shardCount) (calls : List String)
    {interner : StringInterner} {handles : List InternedStr}
    (hRun : StringInterner.internAll shardIndex StringInterner.new calls =
      .ok (interner, handles))
    (hTotal : interner.totalBytes < 2 ^ 32) {frozen : FrozenInterner}
    {remap : InternedStr → Exec InternedStr}
    (hCompact : interner.compact profile = .ok (frozen, remap))
    (nodes : List NamedNode) (rows : List NodeRow)
    (hRows : List.Forall₂ (StoredAs calls handles remap) nodes rows)
    (hCount : nodes.length < 2 ^ 32) :
    (∀ graph, (build (rows.map Call.addNode)).freeze profile roaring fst frozen = .ok graph →
      ∀ s raw h, (s, raw) ∈ calls.zip handles → remap raw = .ok h →
        IndexesAgree fst graph nodes s h) ∧
    ((∀ i, ∃ buf, roaring.serializeInto (labelBitmaps roaring (nodes.map NamedNode.label) i) =
        some buf ∧ buf.length < 2 ^ 32) →
      ∃ graph, (build (rows.map Call.addNode)).freeze profile roaring fst frozen =
        .ok graph) := by
  obtain ⟨tables, hHolds, -, -, hHandles⟩ := (internerHolds_new shardIndex).internAll hRun
  obtain ⟨frozen', remap', hCompact', hFrozen, hRemap⟩ := hHolds.compact profile hTotal
  obtain ⟨rfl, rfl⟩ := Prod.mk.inj (Except.ok.inj (hCompact'.symm.trans hCompact))
  have hRecord : ∀ s raw h, (s, raw) ∈ calls.zip handles → remap' raw = .ok h →
      RecordAt utf8 (allStrings tables) h.val.toNat s := by
    intro s raw h hCall hStable
    obtain ⟨stable, hStable', hAt⟩ := hRemap s raw ((List.forall₂_iff_zip.mp hHandles).2 hCall)
    rw [hStable, Except.ok.injEq] at hStable'
    rwa [hStable']
  have hRowOf : List.Forall₂ (RowOf (allStrings tables)) nodes rows := by
    refine hRows.imp fun node row hRow => ?_
    obtain ⟨rawName, hName, hNameStable⟩ := hRow.name
    obtain ⟨rawFile, hFile, hFileStable⟩ := hRow.file
    exact ⟨hRow.label, hRecord _ _ _ hName hNameStable, hRecord _ _ _ hFile hFileStable⟩
  have hBuilt := holds_build (rows.map Call.addNode)
  rw [nodeRows_map_addNode, edgeRows_map_addNode] at hBuilt
  -- a graph without edges passes the bounds that freezing needs
  have hNoEdges := hBuilt.zippedEdges
  have hResolve : List.Forall₂ (fun handle name => frozen'.resolve handle = .ok name)
      (rows.map NodeRow.name) (nodes.map NamedNode.name) := by
    rw [List.forall₂_map_left_iff, List.forall₂_map_right_iff]
    exact hRowOf.flip.imp fun _ _ hRow => hFrozen.resolve hRow.name
  obtain ⟨groups, bytes, map, hIndex, hGroups, hNew, hGet⟩ := buildBareNameIndex_ok hFst hResolve
  rw [freeze_eq profile roaring fst frozen' (by simp [hNoEdges]) (by simp [hNoEdges]),
    hBuilt.nodeNames, hIndex]
  constructor
  · intro graph hFreeze s raw h hCall hStable
    obtain ⟨labelBytes, -, hFreeze⟩ := Exec.of_bind_eq_ok hFreeze
    obtain rfl := Except.ok.inj hFreeze
    exact indexesAgree_of_rows hFrozen hRowOf hCount hGroups hNew hGet
      (by rw [assembled, hBuilt.nodeNames]) (by rw [assembled, hBuilt.nodeFiles]) rfl rfl
      (hRecord s raw h hCall hStable)
  · intro hFits
    have hLabels : (build (rows.map Call.addNode)).nodeLabels = nodes.map NamedNode.label := by
      rw [hBuilt.nodeLabels]
      clear * - hRows
      induction hRows with
      | nil => rfl
      | cons hHead hTail ih => rw [List.map_cons, List.map_cons, ih, hHead.label]
    choose bufs hSerialize hSize using hFits
    rw [hLabels, labelIndexBytes_ok hSerialize hSize]
    exact ⟨assembled _ frozen' _ _, rfl⟩

/-- Three nodes; a name occurs twice, and one string is a name and a file. -/
def namedNodes : List NamedNode :=
  [⟨.function, "b", "f.rs"⟩, ⟨.class_, "a", "f.rs"⟩, ⟨.method, "b", "a"⟩]

/-- The order in which the strings of `namedNodes` are interned. -/
def internedStrings : List String := ["b", "f.rs", "a", "b"]

/-- Two shards are in use. -/
def twoShards (s : String) : Fin shardCount := if s = "b" then 3 else 15

/-- The rows of `namedNodes` with relocated handles. -/
def namedRows : List NodeRow :=
  [⟨.function, ⟨0⟩, ⟨5⟩, 1, 1⟩, ⟨.class_, ⟨13⟩, ⟨5⟩, 7, 1⟩, ⟨.method, ⟨0⟩, ⟨13⟩, 2, 5⟩]

theorem indexesAgree_namedNodes :
    ∃ frozen graph,
      (build (namedRows.map Call.addNode)).freeze .dev plainRoaring plainFst frozen =
        .ok graph ∧
      IndexesAgree plainFst graph namedNodes "b" ⟨0⟩ ∧
      IndexesAgree plainFst graph namedNodes "f.rs" ⟨5⟩ ∧ graph.lookupQn ⟨5⟩ = none := by
  have hRun : StringInterner.internAll twoShards StringInterner.new internedStrings =
      .ok (_, [⟨0x30000000⟩, ⟨0xF0000000⟩, ⟨0xF0000008⟩, ⟨0x30000000⟩]) := rfl
  obtain ⟨hAgree, hSucceeds⟩ := indexesAgree_freeze .dev plainRoaring fstLaw_plainFst twoShards
    internedStrings hRun (by decide) rfl namedNodes namedRows
    (.cons ⟨rfl, ⟨⟨0x30000000⟩, by decide, rfl⟩, ⟨⟨0xF0000000⟩, by decide, rfl⟩⟩ <|
      .cons ⟨rfl, ⟨⟨0xF0000008⟩, by decide, rfl⟩, ⟨⟨0xF0000000⟩, by decide, rfl⟩⟩ <|
      .cons ⟨rfl, ⟨⟨0x30000000⟩, by decide, rfl⟩, ⟨⟨0xF0000008⟩, by decide, rfl⟩⟩ .nil)
    (by decide)
  obtain ⟨graph, hGraph⟩ := hSucceeds fun i => ⟨_, rfl, by revert i; decide⟩
  have hB := hAgree graph hGraph "b" ⟨0x30000000⟩ ⟨0⟩ (by decide) rfl
  have hF := hAgree graph hGraph "f.rs" ⟨0xF0000000⟩ ⟨5⟩ (by decide) rfl
  exact ⟨_, graph, hGraph, hB, hF, hF.absent (by decide)⟩

end Graph
end CodebaseMem
