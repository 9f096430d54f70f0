import CodebaseMem.Core.Tiling
import CodebaseMem.Graph.CodeGraph
import CodebaseMem.Graph.Transpose

/-!
# Freezing represents the graph

The graph that `freeze` returns represents the nodes and edges that were added, provided
the handles in its rows are positions in the table of the frozen interner.

* `StoredRow`, `HoldsCode`: the rows of the mutable graph are those of a code graph over
  a string table.
* `HoldsCode.outgoing_eq`, `HoldsCode.incoming_eq`: the edge rows of a node are its edges
  in the code graph.
* `attributesOf_of_columns`, `lookupQn_of_columns`, `nodesInFile_of_columns`,
  `bareNames_of_groups`: one lemma for each kind of query.
* `exists_freeze`, `represents_of_freeze`: freezing succeeds while the label bitmaps fit,
  and what it returns represents the code graph.
-/

namespace CodebaseMem
namespace Graph

open CodebaseMem.Core Library

def CodeEdge.row (edge : CodeEdge) : EdgeRow :=
  ⟨nodeIdOfIdx edge.source, nodeIdOfIdx edge.target, edge.edgeType⟩

/-- `row` is `node` with its strings replaced by positions in the table of the frozen
interner. -/
structure StoredRow (items : List String) (node : CodeNode) (row : NodeRow) : Prop
    extends RowOf items node.toNamedNode row where
  line : row.line = node.line
  column : row.column = node.column

/-- The rows of `graph` are those of `code`, over the strings `items`. It speaks of the
graph before it is frozen, with handles that are relocated already. -/
structure HoldsCode (items : List String) (graph : MutableGraph) (code : CodeGraph)
    (rows : List NodeRow) : Prop where
  columns : Holds graph rows (code.edges.map CodeEdge.row)
  stored : List.Forall₂ (StoredRow items) code.nodes rows
  nodeCount : code.nodes.length < 2 ^ 32
  edgeCount : code.edges.length < 2 ^ 32

section

variable {items : List String} {mutable : MutableGraph} {code : CodeGraph} {rows : List NodeRow}

theorem toNat_nodeIdOfIdx {idx : Nat} (hIdx : idx < 2 ^ 32) :
    (nodeIdOfIdx idx).val.toNat = idx := toNat_ofNat_u32 hIdx

namespace HoldsCode

theorem length_rows (h : HoldsCode items mutable code rows) :
    rows.length = code.nodes.length := h.stored.length_eq.symm

theorem endpoints (h : HoldsCode items mutable code rows) {edge : CodeEdge}
    (hEdge : edge ∈ code.edges) :
    edge.row.sourceIdx = edge.source ∧ edge.row.targetIdx = edge.target := by
  obtain ⟨hSource, hTarget⟩ := code.endpoints edge hEdge
  have hCount := h.nodeCount
  exact ⟨toNat_nodeIdOfIdx (by omega), toNat_nodeIdOfIdx (by omega)⟩

theorem endpoints_lt (h : HoldsCode items mutable code rows) :
    ∀ edge ∈ mutable.zippedEdges, edge.sourceIdx < mutable.nodeLabels.length ∧
      edge.targetIdx < mutable.nodeLabels.length := by
  intro row hRow
  rw [h.columns.zippedEdges] at hRow
  obtain ⟨edge, hEdge, rfl⟩ := List.mem_map.mp hRow
  obtain ⟨hSource, hTarget⟩ := h.endpoints hEdge
  rw [h.columns.nodeLabels, List.length_map, h.length_rows, hSource, hTarget]
  exact code.endpoints edge hEdge

theorem length_zippedEdges (h : HoldsCode items mutable code rows) :
    mutable.zippedEdges.length = code.edges.length := by
  rw [h.columns.zippedEdges, List.length_map]

theorem length_zippedEdges_lt (h : HoldsCode items mutable code rows) :
    mutable.zippedEdges.length < 2 ^ 32 := by
  rw [h.length_zippedEdges]
  exact h.edgeCount

theorem resolve_names {frozen : FrozenInterner} (hFrozen : FrozenHolds frozen items)
    (h : HoldsCode items mutable code rows) :
    List.Forall₂ (fun handle name => frozen.resolve handle = .ok name) mutable.nodeNames
      (code.nodes.map fun node => node.name) := by
  rw [h.columns.nodeNames, List.forall₂_map_left_iff, List.forall₂_map_right_iff]
  exact h.stored.flip.imp fun _ _ hRow => hFrozen.resolve hRow.name

/-- The rows at one end of a node, sorted by the other end, are its edges sorted alike.
`near` and `far` are the two ends of a row, `nearEnd` and `farEnd` those of an edge. -/
theorem edgeEnds_rows (near far : EdgeRow → NodeId) (nearEnd farEnd : CodeEdge → Nat)
    (hNear : ∀ edge ∈ code.edges, (near edge.row).val.toNat = nearEnd edge)
    (hFar : ∀ edge ∈ code.edges, (far edge.row).val.toNat = farEnd edge) (id : NodeId) :
    edgeEnds ((sortByKey (fun row => (far row).val.toNat)
        ((code.edges.map CodeEdge.row).filter fun row => near row = id)).map fun row =>
          (far row, row.edgeType)) =
      (sortByKey farEnd (code.edges.filter fun edge => nearEnd edge = id.val.toNat)).map
        fun edge => (farEnd edge, edge.edgeType) := by
  have hPick : ∀ edge ∈ code.edges, decide (near edge.row = id) =
      decide (nearEnd edge = id.val.toNat) := by
    intro edge hEdge
    rw [decide_eq_decide, ← hNear edge hEdge, NodeId.toNat_inj]
  calc edgeEnds ((sortByKey (fun row => (far row).val.toNat)
        ((code.edges.map CodeEdge.row).filter fun row => near row = id)).map fun row =>
          (far row, row.edgeType))
    _ = edgeEnds (((sortByKey farEnd
          (code.edges.filter fun edge => nearEnd edge = id.val.toNat)).map CodeEdge.row).map
            fun row => (far row, row.edgeType)) := by
      rw [sortByKey_filter_map CodeEdge.row hFar hPick]
    _ = (sortByKey farEnd (code.edges.filter fun edge => nearEnd edge = id.val.toNat)).map
          fun edge => ((far edge.row).val.toNat, edge.edgeType) := by
      rw [edgeEnds, List.map_map, List.map_map]
      rfl
    -- an end is below `2 ^ 32`, so its id keeps it
    _ = (sortByKey farEnd (code.edges.filter fun edge => nearEnd edge = id.val.toNat)).map
          fun edge => (farEnd edge, edge.edgeType) := by
      refine List.map_congr_left fun edge hEdge => ?_
      rw [hFar edge (List.mem_of_mem_filter (mem_sortByKey.mp hEdge))]

/-- The outgoing rows of a node are its outgoing edges. -/
theorem outgoing_eq (h : HoldsCode items mutable code rows) {id : NodeId} :
    edgeEnds ((outgoing (code.edges.map CodeEdge.row) id).map fun row =>
      (row.target, row.edgeType)) = code.successors id.val.toNat :=
  edgeEnds_rows EdgeRow.source EdgeRow.target CodeEdge.source CodeEdge.target
    (fun _ hEdge => (h.endpoints hEdge).1) (fun _ hEdge => (h.endpoints hEdge).2) id

/-- The incoming rows of a node are its incoming edges. -/
theorem incoming_eq (h : HoldsCode items mutable code rows) {id : NodeId} :
    edgeEnds ((incoming (code.edges.map CodeEdge.row) id).map fun row =>
      (row.source, row.edgeType)) = code.predecessors id.val.toNat :=
  edgeEnds_rows EdgeRow.target EdgeRow.source CodeEdge.target CodeEdge.source
    (fun _ hEdge => (h.endpoints hEdge).2) (fun _ hEdge => (h.endpoints hEdge).1) id

theorem getElem?_rows (h : HoldsCode items mutable code rows) {i : Nat} {node : CodeNode}
    (hGet : code.nodes[i]? = some node) :
    ∃ row, rows[i]? = some row ∧ StoredRow items node row := by
  obtain ⟨hLt, hNode⟩ := List.getElem?_eq_some_iff.mp hGet
  have hLt' : i < rows.length := by rwa [h.length_rows]
  refine ⟨rows[i], List.getElem?_eq_getElem hLt', ?_⟩
  have hStored := h.stored.get hLt hLt'
  simpa [hNode] using hStored

end HoldsCode

/-! ### The columns -/

theorem getElem?_column_iff {frozen : FrozenInterner} (hFrozen : FrozenHolds frozen items)
    {strOf : NamedNode → String} {handleOf : NodeRow → InternedStr}
    (hColumn : ∀ node row, StoredRow items node row →
      RecordAt utf8 items (handleOf row).val.toNat (strOf node.toNamedNode))
    (h : HoldsCode items mutable code rows) {s : String} {handle : InternedStr}
    (hHandle : RecordAt utf8 items handle.val.toNat s) (i : Nat) :
    (rows.map handleOf)[i]? = some handle ↔
      i ∈ code.nodesWhere fun node => strOf node.toNamedNode = s := by
  have hRows : List.Forall₂ (fun node row => RecordAt utf8 items (handleOf row).val.toNat
      (strOf node)) (code.nodes.map CodeNode.toNamedNode) rows := by
    rw [List.forall₂_map_left_iff]
    exact h.stored.imp fun node row hRow => hColumn node row hRow
  rw [getElem?_handle_iff hFrozen hRows hHandle]
  simp [CodeGraph.nodesWhere]

theorem ascendingIds_column {frozen : FrozenInterner} (hFrozen : FrozenHolds frozen items)
    (strOf : NamedNode → String) (handleOf : NodeRow → InternedStr)
    (hColumn : ∀ node row, StoredRow items node row →
      RecordAt utf8 items (handleOf row).val.toNat (strOf node.toNamedNode))
    (h : HoldsCode items mutable code rows) {s : String} {handle : InternedStr}
    (hHandle : RecordAt utf8 items handle.val.toNat s) :
    AscendingIds (fun id => id.val.toNat ∈ code.nodesWhere fun node => strOf node.toNamedNode = s)
      (idsIn (rows.map handleOf).zipIdx handle) := by
  have hCount : (rows.map handleOf).length < 2 ^ 32 := by
    rw [List.length_map, h.length_rows]
    exact h.nodeCount
  exact (ascendingIds_idsIn hCount handle).congr fun id =>
    getElem?_column_iff hFrozen hColumn h hHandle _

/-- The last of some ascending ids is the greatest. -/
theorem AscendingIds.getLast?_eq_some_iff {numbers : Set ℕ} {ids : List NodeId}
    (h : AscendingIds (fun id => id.val.toNat ∈ numbers) ids) (hBound : ∀ n ∈ numbers, n < 2 ^ 32)
    (id : NodeId) : ids.getLast? = some id ↔ IsGreatest numbers id.val.toNat := by
  have hLast : ∀ last, ids.getLast? = some last → IsGreatest numbers last.val.toNat := by
    intro last hSome
    refine ⟨(h.mem last).mp (List.mem_of_getLast? hSome), fun n hn => ?_⟩
    have hNumber : (nodeIdOfIdx n).val.toNat = n := toNat_nodeIdOfIdx (hBound n hn)
    have hMem : nodeIdOfIdx n ∈ ids := (h.mem _).mpr (by rwa [hNumber])
    obtain ⟨front, hFront⟩ := List.getLast?_eq_some_iff.mp hSome
    rw [hFront, List.mem_append, List.mem_singleton] at hMem
    rcases hMem with hBefore | rfl
    · -- every other id stands in front of the last and is smaller
      have hSorted := h.sorted
      rw [hFront] at hSorted
      have hLess := (List.pairwise_append.mp hSorted).2.2 _ hBefore last (List.mem_singleton_self _)
      rw [UInt32.lt_iff_toNat_lt, hNumber] at hLess
      exact hLess.le
    · exact hNumber.ge
  constructor
  · exact hLast id
  · intro hGreatest
    cases hSome : ids.getLast? with
    | none =>
        rw [List.getLast?_eq_none_iff] at hSome
        have hMem := (h.mem id).mpr hGreatest.1
        rw [hSome] at hMem
        cases hMem
    | some last =>
        have hSame := (hLast last hSome).unique hGreatest
        rw [NodeId.toNat_inj.mp hSame]

/-! ### The graph -/

variable {roaring : Roaring} {mem : roaring.Bitmap → UInt32 → Prop} {fst : Fst}
  {profile : Profile} {frozen : FrozenInterner} {graph : FrozenGraph}

theorem attributesOf_of_columns (hFrozen : FrozenHolds frozen items)
    (h : HoldsCode items mutable code rows) (hInterner : graph.interner = frozen)
    (hLabels : graph.nodeLabels = mutable.nodeLabels) (hNames : graph.nodeNames = mutable.nodeNames)
    (hFiles : graph.nodeFiles = mutable.nodeFiles) (hLines : graph.nodeLines = mutable.nodeLines)
    (hColumns : graph.nodeColumns = mutable.nodeColumns) {id : NodeId} {node : CodeNode}
    (hGet : code.nodes[id.val.toNat]? = some node) : AttributesOf graph id node := by
  obtain ⟨row, hRow, hStored⟩ := h.getElem?_rows hGet
  have hColumn : ∀ {V : Type} (f : NodeRow → V), index (rows.map f) id.val.toNat = .ok (f row) := by
    intro V f
    rw [index_eq_ok_iff, List.getElem?_map, hRow, Option.map_some]
  refine ⟨?_, ⟨row.name, ?_, ⟨items, ?_, hStored.name⟩, ?_⟩,
    ⟨row.file, ?_, ⟨items, ?_, hStored.file⟩, ?_⟩, ?_, ?_⟩
  · rw [FrozenGraph.nodeLabel, hLabels, h.columns.nodeLabels, hColumn, hStored.label]
  · rw [FrozenGraph.nodeName, hNames, h.columns.nodeNames, hColumn]
  · rwa [hInterner]
  · rw [hInterner]
    exact hFrozen.resolve hStored.name
  · rw [FrozenGraph.nodeFile, hFiles, h.columns.nodeFiles, hColumn]
  · rwa [hInterner]
  · rw [hInterner]
    exact hFrozen.resolve hStored.file
  · rw [FrozenGraph.nodeLine, hLines, h.columns.nodeLines, hColumn, hStored.line]
  · rw [FrozenGraph.nodeColumn, hColumns, h.columns.nodeColumns, hColumn, hStored.column]

theorem panicsAt_of_length_le {n : Nat} (hLabels : graph.nodeLabels.length = n)
    (hNames : graph.nodeNames.length = n) (hFiles : graph.nodeFiles.length = n)
    (hLines : graph.nodeLines.length = n) (hColumns : graph.nodeColumns.length = n)
    (hForward : graph.forwardOffsets.length = n + 1) (hReverse : graph.revOffsets.length = n + 1)
    {id : NodeId} (hId : n ≤ id.val.toNat) : PanicsAt graph id := by
  have hPanic : ∀ {V : Type} (column : List V), column.length = n →
      index column id.val.toNat = .error .panic := by
    intro V column hLength
    rw [index, List.getElem?_eq_none (by omega), expect_none]
  -- the offset of the node may be the last one, then there is none behind it
  have hRange : ∀ offsets : List UInt32, offsets.length = n + 1 →
      FrozenGraph.edgeRange offsets id = .error .panic := by
    intro offsets hLength
    have hStop : index offsets (id.val.toNat + 1) = .error .panic := by
      rw [index, List.getElem?_eq_none (by omega), expect_none]
    rw [FrozenGraph.edgeRange]
    cases hStart : index offsets id.val.toNat with
    | error fault =>
        rw [index] at hStart
        cases hOffset : offsets[id.val.toNat]? with
        | none =>
            rw [hOffset, expect_none] at hStart
            rw [← hStart]
            rfl
        | some offset =>
            rw [hOffset] at hStart
            cases hStart
    | ok start => rw [Exec.ok_bind, hStop, Exec.error_bind]
  refine ⟨hPanic _ hLabels, hPanic _ hNames, hPanic _ hFiles, hPanic _ hLines, hPanic _ hColumns,
    ?_, ?_⟩
  · rw [FrozenGraph.forwardEdges, FrozenGraph.forwardEdgeRange, hRange _ hForward, Exec.error_bind]
  · rw [FrozenGraph.reverseEdges, FrozenGraph.reverseEdgeRange, hRange _ hReverse, Exec.error_bind]

theorem bareNames_of_groups {groups : List (String × List NodeId)} {bytes : List UInt8}
    {map : fst.Map} (hCount : code.nodes.length < 2 ^ 32)
    (hGroups : Grouped
      (sortByKey nameKey (namedPairs (code.nodes.map fun node => node.name))) groups)
    (hNew : fst.new bytes = some map)
    (hGet : ∀ key value, fst.get map key = some value ↔ (key, value) ∈ slotEntries 0 groups)
    (hBytes : graph.bareNameFstBytes = bytes) (hTable : graph.bareNameNodes = groups.map Prod.snd) :
    ∃ map, graph.bareNameFst fst = .ok map ∧ ∀ s,
      ((∃ slot, fst.get map (utf8 s) = some slot) ↔ (code.named s).Nonempty) ∧
      ∀ slot, fst.get map (utf8 s) = some slot → ∃ ids, graph.bareNameNodesAt slot = .ok ids ∧
        AscendingIds (fun id => id.val.toNat ∈ code.named s) ids := by
  have hNames : (code.nodes.map fun node => node.name).length ≤ 2 ^ 32 := by
    rw [List.length_map]
    exact hCount.le
  have hPair : ∀ s id, (s, id) ∈
      sortByKey nameKey (namedPairs (code.nodes.map fun node => node.name)) ↔
        id.val.toNat ∈ code.named s := by
    intro s id
    rw [mem_sortByKey, mem_namedPairs hNames, List.getElem?_map, Option.map_eq_some_iff]
    rfl
  refine ⟨map, by rw [FrozenGraph.bareNameFst, hBytes, hNew]; rfl, fun s => ⟨?_, ?_⟩⟩
  · have hKnown : (∃ slot, fst.get map (utf8 s) = some slot) ↔ ∃ ids, (s, ids) ∈ groups := by
      simp only [hGet, mem_slotEntries]
      constructor
      · rintro ⟨_, i, ⟨name, ids⟩, hGroup, hKey, -⟩
        rw [utf8_injective hKey]
        exact ⟨ids, List.mem_of_getElem? hGroup⟩
      · rintro ⟨ids, hMem⟩
        obtain ⟨i, hGroup⟩ := List.mem_iff_getElem?.mp hMem
        exact ⟨_, i, (s, ids), hGroup, rfl, rfl⟩
    rw [hKnown, hGroups.exists_group_iff]
    simp only [hPair]
    constructor
    · rintro ⟨id, hId⟩
      exact ⟨_, hId⟩
    · rintro ⟨n, hn⟩
      have hLt := code.mem_nodesWhere_lt hn
      exact ⟨nodeIdOfIdx n, by rwa [toNat_nodeIdOfIdx (by omega)]⟩
  · intro slot hSlot
    obtain ⟨i, ⟨name, ids⟩, hGroup, hKey, rfl⟩ := mem_slotEntries.mp ((hGet _ _).mp hSlot)
    obtain rfl := utf8_injective hKey
    have hMem := List.mem_of_getElem? hGroup
    -- there are no more groups than nodes, so the slot fits 64 bits
    have hIndex : (UInt64.ofNat i).toNat = i := by
      have hi := (List.getElem?_eq_some_iff.mp hGroup).1
      have hFew := hGroups.length_le
      rw [length_sortByKey, namedPairs, List.length_map, List.length_zipIdx] at hFew
      rw [UInt64.toNat_ofNat']
      omega
    refine ⟨ids, ?_, hGroups.ids_sorted (sorted_sortByKey _ _)
      ((perm_sortByKey _ _).nodup_iff.mpr (nodup_namedPairs hNames)) hMem,
      fun id => (hGroups.mem_iff hMem).trans (hPair s id)⟩
    rw [FrozenGraph.bareNameNodesAt, hTable, hIndex, index_eq_ok_iff, List.getElem?_map, hGroup]
    rfl

theorem lookupQn_of_columns (hFrozen : FrozenHolds frozen items)
    (h : HoldsCode items mutable code rows) (hQn : graph.qnIndex = buildQnIndex mutable.nodeNames)
    {s : String} {handle : InternedStr} (hHandle : RecordAt utf8 items handle.val.toNat s)
    (id : NodeId) : graph.lookupQn handle = some id ↔ IsGreatest (code.named s) id.val.toNat := by
  have hIds := ascendingIds_column hFrozen NamedNode.name NodeRow.name
    (fun _ _ hRow => hRow.name) h hHandle
  rw [FrozenGraph.lookupQn, hQn, h.columns.nodeNames, buildQnIndex_apply]
  exact hIds.getLast?_eq_some_iff
    (fun n hn => (code.mem_nodesWhere_lt hn).trans h.nodeCount) id

theorem nodesInFile_of_columns (hFrozen : FrozenHolds frozen items)
    (h : HoldsCode items mutable code rows)
    (hFile : graph.fileIndex = buildFileIndex mutable.nodeFiles)
    {s : String} {handle : InternedStr} (hHandle : RecordAt utf8 items handle.val.toNat s) :
    AscendingIds (fun id => id.val.toNat ∈ code.inFile s) (graph.nodesInFile handle) := by
  rw [FrozenGraph.nodesInFile, hFile, h.columns.nodeFiles, buildFileIndex_getD]
  exact ascendingIds_column hFrozen NamedNode.file NodeRow.file (fun _ _ hRow => hRow.file) h
    hHandle

theorem exists_freeze (profile : Profile) (roaring : Roaring) (hFst : FstLaw fst)
    (hFrozen : FrozenHolds frozen items) (h : HoldsCode items mutable code rows)
    (hFits : ∀ i, ∃ buf, roaring.serializeInto (labelBitmaps roaring mutable.nodeLabels i) =
      some buf ∧ buf.length < 2 ^ 32) :
    ∃ graph, mutable.freeze profile roaring fst frozen = .ok graph := by
  obtain ⟨groups, bytes, map, hIndex, -⟩ := buildBareNameIndex_ok hFst (h.resolve_names hFrozen)
  choose bufs hSerialize hSize using hFits
  exact ⟨_, freeze_eq_ok h.endpoints_lt h.length_zippedEdges_lt
    (labelIndexBytes_ok hSerialize hSize) hIndex⟩

/-- Every query of a frozen graph answers for the nodes and edges that were added.  Each
field is a lemma about one kind of query; here they are put together. -/
theorem represents_of_freeze (hRoaring : RoaringLaw roaring mem) (hFst : FstLaw fst)
    (hFrozen : FrozenHolds frozen items) (h : HoldsCode items mutable code rows)
    (hFreeze : mutable.freeze profile roaring fst frozen = .ok graph) :
    Represents mem fst graph code := by
  have hLabels : mutable.nodeLabels.length = code.nodes.length := by
    rw [h.columns.nodeLabels, List.length_map, h.length_rows]
  obtain ⟨-, hExact⟩ := adjacencyExact_of_freeze h.endpoints_lt h.length_zippedEdges_lt hFreeze
  have hIndexBytes := (labelIndexBytes_of_freeze hFreeze).2
  obtain ⟨bytes, index, -, hIndex, rfl⟩ :=
    exists_assembled_of_freeze_eq_ok h.endpoints_lt h.length_zippedEdges_lt hFreeze
  -- the map of bare names is the one that the groups of equal names give
  obtain ⟨groups, fstBytes, map, hBuild, hGroups, hNew, hGet⟩ :=
    buildBareNameIndex_ok hFst (h.resolve_names hFrozen)
  rw [hBuild] at hIndex
  obtain rfl := Except.ok.inj hIndex
  have hCount : (assembled mutable frozen bytes (fstBytes, groups.map Prod.snd)).nodeCount =
      code.nodes.length := hLabels
  refine
    { nodeCount := hCount
      edgeCount := fun profile => ?_
      attributes := fun id node => attributesOf_of_columns hFrozen h rfl rfl rfl rfl rfl rfl
      outOfRange := fun id => panicsAt_of_length_le hLabels ?_ ?_ ?_ ?_ ?_ ?_
      successors := fun id hId => ⟨_, hExact.forward id (hCount ▸ hId), ?_⟩
      predecessors := fun id hId => ⟨_, hExact.reverse id (hCount ▸ hId), ?_⟩
      labelled := fun label => ?_
      named := bareNames_of_groups h.nodeCount hGroups hNew hGet rfl rfl
      lookup := ?_
      file := ?_ }
  · rw [← h.length_zippedEdges]
    refine edgeCount_of_adjacencyExact hExact ?_ profile
    rw [assembled, List.length_map, length_sortEdges]
  · rw [assembled, h.columns.nodeNames, List.length_map, h.length_rows]
  · rw [assembled, h.columns.nodeFiles, List.length_map, h.length_rows]
  · rw [assembled, h.columns.nodeLines, List.length_map, h.length_rows]
  · rw [assembled, h.columns.nodeColumns, List.length_map, h.length_rows]
  · rw [hExact.forwardOffsets.length, hCount]
  · rw [hExact.revOffsets.length, hCount]
  · rw [h.columns.zippedEdges]
    exact h.outgoing_eq
  · rw [h.columns.zippedEdges]
    exact h.incoming_eq
  · -- reading the label index gives the bitmap that was built for the label
    obtain ⟨bufs, hSerialize, hSize, hRecords⟩ := exists_bufs_of_labelIndexBytes_eq_ok hIndexBytes
    refine ⟨labelBitmaps roaring mutable.nodeLabels label.toIdx, nodesWithLabel_eq hRecords hSize
      (fun i => hRoaring.deserialize _ _ (hSerialize i)) label, fun id => ?_⟩
    rw [mem_labelBitmaps_iff hRoaring (hLabels ▸ h.nodeCount), h.columns.nodeLabels,
      List.getElem?_map, Option.map_eq_some_iff]
    constructor
    · rintro ⟨row, hRow, hLabel⟩
      have hLt := (List.getElem?_eq_some_iff.mp hRow).1
      rw [h.length_rows] at hLt
      obtain ⟨row', hRow', hStored⟩ := h.getElem?_rows (List.getElem?_eq_getElem hLt)
      obtain rfl := Option.some.inj (hRow.symm.trans hRow')
      exact ⟨_, List.getElem?_eq_getElem hLt, hStored.label.symm.trans hLabel⟩
    · rintro ⟨node, hNode, hLabel⟩
      obtain ⟨row, hRow, hStored⟩ := h.getElem?_rows hNode
      exact ⟨row, hRow, hStored.label.trans hLabel⟩
  · -- a buffer has one string table, so the handle is one of this table
    rintro s handle ⟨items', hFrozen', hHandle⟩ id
    obtain rfl := hFrozen.items_unique hFrozen'
    exact lookupQn_of_columns hFrozen h rfl hHandle id
  · rintro s handle ⟨items', hFrozen', hHandle⟩
    obtain rfl := hFrozen.items_unique hFrozen'
    exact nodesInFile_of_columns hFrozen h rfl hHandle

end

end Graph
end CodebaseMem
