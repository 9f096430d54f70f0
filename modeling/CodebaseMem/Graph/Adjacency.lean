import CodebaseMem.Graph.Csr
import CodebaseMem.Graph.PlainLibraries

/-!
# The adjacency of a frozen graph

Cutting the adjacency arrays of a frozen graph at the offsets of a node gives
the edges that leave the node, by target, and the edges that enter it, by
source.  Parallel edges keep the order in which they were added.

* `freeze_eq`: what `freeze` does when every endpoint is a node and `u32` can count the
  edges: the arrays are built without a fault, and only the two indexes can still fail.
* `AdjacencyExact`: the shape of both offset arrays, and that both directions list
  exactly the edges of a table.
* `adjacencyExact_of_freeze`: every graph that `freeze` returns for such a table has it.
* `adjacencyExact_freeze_build`: the same for a sequential run of `add_node` and
  `add_edge` calls, where the indexes are built as well.

Tables with an endpoint that is not a node are the subject of the module on dangling
edges.
-/

namespace CodebaseMem
namespace Graph

open CodebaseMem.Core Library

/-- The edges with source `node`, by target.  Edges with one target keep the order in
which they were added, so the list is determined and not only its content. -/
def outgoing (edges : List EdgeRow) (node : NodeId) : List EdgeRow :=
  sortByKey EdgeRow.targetIdx (edges.filter fun edge => edge.source = node)

/-- The edges with target `node`, by source, ties in insertion order. -/
def incoming (edges : List EdgeRow) (node : NodeId) : List EdgeRow :=
  sortByKey EdgeRow.sourceIdx (edges.filter fun edge => edge.target = node)

theorem edgeKey_le_iff {a b : EdgeRow} : edgeKey a ≤ edgeKey b ↔
    a.sourceIdx < b.sourceIdx ∨ a.sourceIdx = b.sourceIdx ∧ a.targetIdx ≤ b.targetIdx :=
  Prod.Lex.toLex_le_toLex

@[simp] theorem mem_sortEdges {edges : List EdgeRow} {edge : EdgeRow} :
    edge ∈ sortEdges edges ↔ edge ∈ edges := mem_sortByKey

@[simp] theorem length_sortEdges (edges : List EdgeRow) :
    (sortEdges edges).length = edges.length := length_sortByKey ..

theorem sortEdges_sorted (edges : List EdgeRow) :
    (sortEdges edges).Pairwise fun a b => a.sourceIdx ≤ b.sourceIdx := by
  refine (sorted_sortByKey edgeKey edges).imp fun hKey => ?_
  rcases edgeKey_le_iff.mp hKey with hLess | hEqual
  · exact hLess.le
  · exact hEqual.1.le

theorem bucketOf_source_sortEdges (edges : List EdgeRow) (node : NodeId) :
    bucketOf EdgeRow.sourceIdx (sortEdges edges) node.val.toNat = outgoing edges node := by
  have hKey : (fun edge : EdgeRow => decide (edge.sourceIdx = node.val.toNat)) =
      fun edge => decide (edge.source = node) :=
    funext fun edge => decide_eq_decide.mpr NodeId.toNat_inj
  rw [bucketOf, hKey, sortEdges, filter_sortByKey, outgoing]
  refine sortByKey_congr fun a ha b hb => ?_
  simp only [List.mem_filter, decide_eq_true_eq] at ha hb
  rw [edgeKey_le_iff, EdgeRow.sourceIdx, EdgeRow.sourceIdx, ha.2, hb.2]
  simp

theorem bucketOf_target_sortEdges (edges : List EdgeRow) (node : NodeId) :
    bucketOf EdgeRow.targetIdx (sortEdges edges) node.val.toNat = incoming edges node := by
  have hKey : (fun edge : EdgeRow => decide (edge.targetIdx = node.val.toNat)) =
      fun edge => decide (edge.target = node) :=
    funext fun edge => decide_eq_decide.mpr NodeId.toNat_inj
  rw [bucketOf, hKey, sortEdges, filter_sortByKey, incoming]
  refine sortByKey_congr fun a ha b hb => ?_
  simp only [List.mem_filter, decide_eq_true_eq] at ha hb
  rw [edgeKey_le_iff, EdgeRow.targetIdx, EdgeRow.targetIdx, ha.2, hb.2]
  simp
  omega

/-- An offset array has one entry more than there are nodes, starts at zero,
never decreases and ends at the number of edges. -/
structure OffsetsSound (offsets : List UInt32) (nodeCount edgeCount : Nat) : Prop where
  length : offsets.length = nodeCount + 1
  first : offsets.head? = some 0
  monotone : offsets.Pairwise fun a b => a ≤ b
  last : ∃ stop, offsets.getLast? = some stop ∧ stop.toNat = edgeCount

theorem offsetsSound_csrOffsets {key : EdgeRow → Nat} {edges : List EdgeRow} {nodeCount : Nat}
    (hKey : ∀ edge ∈ edges, key edge < nodeCount) (hEdges : edges.length < 2 ^ 32) :
    OffsetsSound (csrOffsets key edges nodeCount) nodeCount edges.length where
  length := by simp [csrOffsets]
  first := by
    rw [List.head?_eq_getElem?, getElem?_csrOffsets (Nat.zero_le _), bucketStart_zero]
    rfl
  monotone := by
    rw [csrOffsets, List.pairwise_map]
    refine List.pairwise_lt_range.imp fun {s t} hst => ?_
    have hs := bucketStart_le_length key edges s
    have ht := bucketStart_le_length key edges t
    rw [UInt32.le_iff_toNat_le, toNat_ofNat_u32 (by omega), toNat_ofNat_u32 (by omega)]
    exact bucketStart_mono key edges hst.le
  last := by
    refine ⟨UInt32.ofNat edges.length, ?_, toNat_ofNat_u32 hEdges⟩
    rw [csrOffsets, List.range_succ, List.map_append, List.map_singleton, List.getLast?_concat,
      bucketStart_eq_length hKey]

/-- The graph `freeze` returns, from the reverse arrays, the bytes of the label index
and the name index. -/
def frozenWith (graph : MutableGraph) (interner : FrozenInterner)
    (reverse : List UInt32 × List NodeId × List EdgeType) (labelIndexBytes : List UInt8)
    (index : List UInt8 × List (List NodeId)) : FrozenGraph :=
  let forward := buildForwardCsr (sortEdges graph.zippedEdges) graph.nodeLabels.length
  { nodeLabels := graph.nodeLabels
    nodeNames := graph.nodeNames
    nodeFiles := graph.nodeFiles
    nodeLines := graph.nodeLines
    nodeColumns := graph.nodeColumns
    forwardOffsets := forward.1
    forwardEdgeTargets := forward.2.1
    forwardEdgeTypes := forward.2.2
    revOffsets := reverse.1
    revEdgeSources := reverse.2.1
    revEdgeTypes := reverse.2.2
    interner, labelIndexBytes
    qnIndex := buildQnIndex graph.nodeNames
    fileIndex := buildFileIndex graph.nodeFiles
    bareNameFstBytes := index.1
    bareNameNodes := index.2 }

/-- `freeze` sorts the edges and runs the builders that can fail one after the
other.  An empty edge table is its own sort. -/
theorem freeze_eq_bind (profile : Profile) (roaring : Roaring) (fst : Fst) (graph : MutableGraph)
    (interner : FrozenInterner) :
    graph.freeze profile roaring fst interner = (do
      let reverse ← buildReverseCsr profile (sortEdges graph.zippedEdges) graph.nodeLabels.length
      let labelIndexBytes ← labelIndexBytes roaring graph.nodeLabels
      let index ← buildBareNameIndex fst graph.nodeNames interner
      .ok (frozenWith graph interner reverse labelIndexBytes index)) := by
  have hSorted : (if graph.zippedEdges.isEmpty then graph.zippedEdges
      else sortEdges graph.zippedEdges) = sortEdges graph.zippedEdges := by
    split
    · next hEmpty => rw [List.isEmpty_iff.mp hEmpty]; rfl
    · rfl
  rw [MutableGraph.freeze]
  dsimp only
  rw [hSorted]
  rfl

theorem exists_of_freeze_eq_ok {profile : Profile} {roaring : Roaring} {fst : Fst}
    {graph : MutableGraph} {interner : FrozenInterner} {frozen : FrozenGraph}
    (hFreeze : graph.freeze profile roaring fst interner = .ok frozen) :
    ∃ reverse bytes index,
      buildReverseCsr profile (sortEdges graph.zippedEdges) graph.nodeLabels.length =
        .ok reverse ∧
      labelIndexBytes roaring graph.nodeLabels = .ok bytes ∧
      buildBareNameIndex fst graph.nodeNames interner = .ok index ∧
      frozen = frozenWith graph interner reverse bytes index := by
  rw [freeze_eq_bind] at hFreeze
  obtain ⟨reverse, hReverse, hFreeze⟩ := Exec.of_bind_eq_ok hFreeze
  obtain ⟨bytes, hBytes, hFreeze⟩ := Exec.of_bind_eq_ok hFreeze
  obtain ⟨index, hIndex, hFreeze⟩ := Exec.of_bind_eq_ok hFreeze
  exact ⟨reverse, bytes, index, hReverse, hBytes, hIndex, (Except.ok.inj hFreeze).symm⟩

/-- The graph `freeze` returns when nothing fails, from the bytes of the label
index and the name index. -/
def assembled (graph : MutableGraph) (interner : FrozenInterner) (labelIndexBytes : List UInt8)
    (index : List UInt8 × List (List NodeId)) : FrozenGraph :=
  let edges := sortEdges graph.zippedEdges
  let nodeCount := graph.nodeLabels.length
  { nodeLabels := graph.nodeLabels
    nodeNames := graph.nodeNames
    nodeFiles := graph.nodeFiles
    nodeLines := graph.nodeLines
    nodeColumns := graph.nodeColumns
    forwardOffsets := csrOffsets EdgeRow.sourceIdx edges nodeCount
    forwardEdgeTargets := edges.map EdgeRow.target
    forwardEdgeTypes := edges.map EdgeRow.edgeType
    revOffsets := csrOffsets EdgeRow.targetIdx edges nodeCount
    revEdgeSources := (layout (bucketOf EdgeRow.targetIdx edges) nodeCount).map EdgeRow.source
    revEdgeTypes := (layout (bucketOf EdgeRow.targetIdx edges) nodeCount).map EdgeRow.edgeType
    interner, labelIndexBytes
    qnIndex := buildQnIndex graph.nodeNames
    fileIndex := buildFileIndex graph.nodeFiles
    bareNameFstBytes := index.1
    bareNameNodes := index.2 }

/-- What `freeze` does with a well-formed edge table: the adjacency arrays are
built without a fault, and only the two index builders can still fail. -/
theorem freeze_eq (profile : Profile) (roaring : Roaring) (fst : Fst) {graph : MutableGraph}
    (interner : FrozenInterner)
    (hEndpoints : ∀ edge ∈ graph.zippedEdges, edge.sourceIdx < graph.nodeLabels.length ∧
      edge.targetIdx < graph.nodeLabels.length)
    (hEdges : graph.zippedEdges.length < 2 ^ 32) :
    graph.freeze profile roaring fst interner = (do
      let labelIndexBytes ← labelIndexBytes roaring graph.nodeLabels
      let index ← buildBareNameIndex fst graph.nodeNames interner
      .ok (assembled graph interner labelIndexBytes index)) := by
  have hMem : ∀ edge ∈ sortEdges graph.zippedEdges, edge.sourceIdx < graph.nodeLabels.length ∧
      edge.targetIdx < graph.nodeLabels.length :=
    fun edge hEdge => hEndpoints edge (mem_sortEdges.mp hEdge)
  have hLength : (sortEdges graph.zippedEdges).length < 2 ^ 32 := by rwa [length_sortEdges]
  rw [freeze_eq_bind, buildReverseCsr_eq profile (fun edge hEdge => (hMem edge hEdge).2) hLength,
    Exec.ok_bind]
  simp only [frozenWith,
    buildForwardCsr_eq (sortEdges_sorted _) fun edge hEdge => (hMem edge hEdge).1]
  rfl

/-- With well-formed edges `freeze` succeeds as soon as both indexes are built. -/
theorem freeze_eq_ok {profile : Profile} {roaring : Roaring} {fst : Fst} {graph : MutableGraph}
    {interner : FrozenInterner} {bytes : List UInt8} {index : List UInt8 × List (List NodeId)}
    (hEndpoints : ∀ edge ∈ graph.zippedEdges, edge.sourceIdx < graph.nodeLabels.length ∧
      edge.targetIdx < graph.nodeLabels.length)
    (hEdges : graph.zippedEdges.length < 2 ^ 32)
    (hBytes : labelIndexBytes roaring graph.nodeLabels = .ok bytes)
    (hIndex : buildBareNameIndex fst graph.nodeNames interner = .ok index) :
    graph.freeze profile roaring fst interner = .ok (assembled graph interner bytes index) := by
  rw [freeze_eq profile roaring fst interner hEndpoints hEdges, hBytes, Exec.ok_bind, hIndex,
    Exec.ok_bind]

theorem exists_assembled_of_freeze_eq_ok {profile : Profile} {roaring : Roaring} {fst : Fst}
    {graph : MutableGraph} {interner : FrozenInterner} {frozen : FrozenGraph}
    (hEndpoints : ∀ edge ∈ graph.zippedEdges, edge.sourceIdx < graph.nodeLabels.length ∧
      edge.targetIdx < graph.nodeLabels.length)
    (hEdges : graph.zippedEdges.length < 2 ^ 32)
    (hFreeze : graph.freeze profile roaring fst interner = .ok frozen) :
    ∃ bytes index, labelIndexBytes roaring graph.nodeLabels = .ok bytes ∧
      buildBareNameIndex fst graph.nodeNames interner = .ok index ∧
      frozen = assembled graph interner bytes index := by
  obtain ⟨-, bytes, index, -, hBytes, hIndex, -⟩ := exists_of_freeze_eq_ok hFreeze
  rw [freeze_eq_ok hEndpoints hEdges hBytes hIndex] at hFreeze
  exact ⟨bytes, index, hBytes, hIndex, (Except.ok.inj hFreeze).symm⟩

/-- Both directions of a frozen graph list exactly the edges of `edges`: the slice of a
node is its bucket, sorted by the other end.  The offset arrays have the shape that their
documentation promises. -/
structure AdjacencyExact (graph : FrozenGraph) (edges : List EdgeRow) : Prop where
  forward : ∀ node : NodeId, node.val.toNat < graph.nodeCount →
    graph.forwardEdges node =
      .ok ((outgoing edges node).map fun edge => (edge.target, edge.edgeType))
  reverse : ∀ node : NodeId, node.val.toNat < graph.nodeCount →
    graph.reverseEdges node =
      .ok ((incoming edges node).map fun edge => (edge.source, edge.edgeType))
  forwardOffsets : OffsetsSound graph.forwardOffsets graph.nodeCount edges.length
  revOffsets : OffsetsSound graph.revOffsets graph.nodeCount edges.length

theorem adjacencyExact_of_freeze {profile : Profile} {roaring : Roaring} {fst : Fst}
    {graph : MutableGraph} {interner : FrozenInterner} {frozen : FrozenGraph}
    (hEndpoints : ∀ edge ∈ graph.zippedEdges, edge.sourceIdx < graph.nodeLabels.length ∧
      edge.targetIdx < graph.nodeLabels.length)
    (hEdges : graph.zippedEdges.length < 2 ^ 32)
    (hFreeze : graph.freeze profile roaring fst interner = .ok frozen) :
    frozen.nodeLabels = graph.nodeLabels ∧ AdjacencyExact frozen graph.zippedEdges := by
  obtain ⟨bytes, index, -, -, rfl⟩ := exists_assembled_of_freeze_eq_ok hEndpoints hEdges hFreeze
  have hLength : (sortEdges graph.zippedEdges).length < 2 ^ 32 := by rwa [length_sortEdges]
  have hSource : ∀ edge ∈ sortEdges graph.zippedEdges,
      edge.sourceIdx < graph.nodeLabels.length :=
    fun edge hEdge => (hEndpoints edge (mem_sortEdges.mp hEdge)).1
  have hTarget : ∀ edge ∈ sortEdges graph.zippedEdges,
      edge.targetIdx < graph.nodeLabels.length :=
    fun edge hEdge => (hEndpoints edge (mem_sortEdges.mp hEdge)).2
  -- the sorted table is its own layout by sources; the reverse arrays are its layout by targets
  have hBySource := layout_bucketOf_of_sorted (sortEdges_sorted graph.zippedEdges) hSource
  refine ⟨rfl, ⟨?_, ?_, ?_, ?_⟩⟩
  · intro node hNode
    have hSlice := edgesIn_layout EdgeRow.sourceIdx EdgeRow.target hNode hLength
    rwa [assembled, FrozenGraph.nodeCount, hBySource, bucketOf_source_sortEdges] at hSlice
  · intro node hNode
    have hSlice := edgesIn_layout EdgeRow.targetIdx EdgeRow.source hNode hLength
    rwa [bucketOf_target_sortEdges] at hSlice
  · have hSound := offsetsSound_csrOffsets hSource hLength
    rwa [length_sortEdges] at hSound
  · have hSound := offsetsSound_csrOffsets hTarget hLength
    rwa [length_sortEdges] at hSound

/-- For every sequential run with endpoints below the final node count, the
adjacency of the frozen graph is exact in both directions, and freezing can only
fail in the label index and the name index. -/
theorem adjacencyExact_freeze_build (profile : Profile) (roaring : Roaring) (fst : Fst)
    (calls : List Call) (interner : FrozenInterner)
    (hEndpoints : ∀ edge ∈ edgeRows calls, edge.sourceIdx < (nodeRows calls).length ∧
      edge.targetIdx < (nodeRows calls).length)
    (hEdges : (edgeRows calls).length < 2 ^ 32) :
    (∀ frozen, (build calls).freeze profile roaring fst interner = .ok frozen →
      frozen.nodeCount = (nodeRows calls).length ∧ AdjacencyExact frozen (edgeRows calls)) ∧
    ((∃ bytes, labelIndexBytes roaring (build calls).nodeLabels = .ok bytes) →
      (∃ index, buildBareNameIndex fst (build calls).nodeNames interner = .ok index) →
      ∃ frozen, (build calls).freeze profile roaring fst interner = .ok frozen) := by
  have hHolds := holds_build calls
  have hCount : (build calls).nodeLabels.length = (nodeRows calls).length := by
    rw [hHolds.nodeLabels, List.length_map]
  rw [← hHolds.zippedEdges] at hEndpoints hEdges
  rw [← hCount] at hEndpoints
  constructor
  · intro frozen hFreeze
    obtain ⟨hLabels, hExact⟩ := adjacencyExact_of_freeze hEndpoints hEdges hFreeze
    rw [hHolds.zippedEdges] at hExact
    exact ⟨by rw [FrozenGraph.nodeCount, hLabels, hCount], hExact⟩
  · rintro ⟨bytes, hBytes⟩ ⟨index, hIndex⟩
    exact ⟨assembled (build calls) interner bytes index,
      freeze_eq_ok hEndpoints hEdges hBytes hIndex⟩

/-- Four nodes, the last of them isolated, with a self-loop and two parallel
edges. -/
def sampleCalls : List Call :=
  let node : NodeRow := ⟨.function, ⟨0⟩, ⟨0⟩, 1, 1⟩
  [.addNode node, .addNode node, .addEdge ⟨⟨1⟩, ⟨2⟩, .calls⟩, .addNode node, .addNode node,
    .addEdge ⟨⟨1⟩, ⟨0⟩, .uses⟩, .addEdge ⟨⟨2⟩, ⟨2⟩, .calls⟩, .addEdge ⟨⟨1⟩, ⟨2⟩, .imports⟩]

/-- The name of every node of `sampleCalls`. -/
def sampleInterner : FrozenInterner := ⟨record utf8 "a"⟩

theorem freeze_sampleCalls :
    ∃ frozen,
      (build sampleCalls).freeze .dev plainRoaring plainFst sampleInterner = .ok frozen := by
  have hLabels : labelIndexBytes plainRoaring (build sampleCalls).nodeLabels = .ok _ :=
    labelIndexBytes_ok (fun _ => rfl) (by decide)
  have hResolve : List.Forall₂ (fun handle name => sampleInterner.resolve handle = .ok name)
      (build sampleCalls).nodeNames ["a", "a", "a", "a"] := by decide
  obtain ⟨groups, bytes, map, hNames, -⟩ := buildBareNameIndex_ok fstLaw_plainFst hResolve
  exact ⟨_, freeze_eq_ok (by decide) (by decide) hLabels hNames⟩

theorem adjacencyExact_sampleCalls :
    ∃ frozen, (build sampleCalls).freeze .dev plainRoaring plainFst sampleInterner = .ok frozen ∧
      frozen.forwardEdges ⟨1⟩ = .ok [(⟨0⟩, .uses), (⟨2⟩, .calls), (⟨2⟩, .imports)] ∧
      frozen.reverseEdges ⟨2⟩ = .ok [(⟨1⟩, .calls), (⟨1⟩, .imports), (⟨2⟩, .calls)] ∧
      frozen.forwardEdges ⟨3⟩ = .ok [] := by
  obtain ⟨hExact, -⟩ := adjacencyExact_freeze_build .dev plainRoaring plainFst
    sampleCalls sampleInterner (by decide) (by decide)
  obtain ⟨frozen, hFreeze⟩ := freeze_sampleCalls
  obtain ⟨hCount, hAdjacency⟩ := hExact frozen hFreeze
  refine ⟨frozen, hFreeze, ?_, ?_, ?_⟩
  · rw [hAdjacency.forward ⟨1⟩ (by rw [hCount]; decide)]
    decide
  · rw [hAdjacency.reverse ⟨2⟩ (by rw [hCount]; decide)]
    decide
  · rw [hAdjacency.forward ⟨3⟩ (by rw [hCount]; decide)]
    decide

end Graph
end CodebaseMem
