import CodebaseMem.Graph.Adjacency
import Mathlib.Data.List.Count

/-!
# The two directions of the adjacency

Listing the outgoing edges of all nodes gives every edge once, and so does listing the
incoming edges of all nodes.  Hence one direction is the transpose of the other.

* `forwardListing`, `reverseListing`: the edges that the lists of all nodes stand for.
* `count_successorsIn`, `count_predecessorsIn`: how often a list has an entry is how often
  the table has the edge.
* `edgeCount_of_adjacencyExact`: the debug assertion of `edge_count` holds.
* `listings_of_freeze`: all of it for a graph that `freeze` returned.

The endpoints must be nodes and `u32` must count the edges.  A graph with a dangling
source can be frozen too, and then an edge is missing in one direction.
-/

namespace CodebaseMem
namespace Graph

open CodebaseMem.Core Library

/-- The edges that the outgoing lists of the first `n` nodes stand for. -/
def forwardListing (n : Nat) (successors : NodeId → List (NodeId × EdgeType)) : List EdgeRow :=
  layout (fun i => (successors (nodeIdOfIdx i)).map fun edge =>
    ⟨nodeIdOfIdx i, edge.1, edge.2⟩) n

/-- The edges that the incoming lists of the first `n` nodes stand for. -/
def reverseListing (n : Nat) (predecessors : NodeId → List (NodeId × EdgeType)) : List EdgeRow :=
  layout (fun i => (predecessors (nodeIdOfIdx i)).map fun edge =>
    ⟨edge.1, nodeIdOfIdx i, edge.2⟩) n

/-- The answer of `forward_edges` for a table of edges. -/
def successorsIn (edges : List EdgeRow) (id : NodeId) : List (NodeId × EdgeType) :=
  (outgoing edges id).map fun edge => (edge.target, edge.edgeType)

/-- The answer of `reverse_edges` for a table of edges. -/
def predecessorsIn (edges : List EdgeRow) (id : NodeId) : List (NodeId × EdgeType) :=
  (incoming edges id).map fun edge => (edge.source, edge.edgeType)

section

variable {edges : List EdgeRow} {n : Nat}

theorem map_successorsIn (edges : List EdgeRow) (id : NodeId) :
    (successorsIn edges id).map (fun edge => (⟨id, edge.1, edge.2⟩ : EdgeRow)) =
      outgoing edges id := by
  rw [successorsIn, List.map_map]
  refine (List.map_congr_left fun edge hEdge => ?_).trans (List.map_id _)
  obtain rfl := of_decide_eq_true (List.mem_filter.mp (mem_sortByKey.mp hEdge)).2
  rfl

theorem map_predecessorsIn (edges : List EdgeRow) (id : NodeId) :
    (predecessorsIn edges id).map (fun edge => (⟨edge.1, id, edge.2⟩ : EdgeRow)) =
      incoming edges id := by
  rw [predecessorsIn, List.map_map]
  refine (List.map_congr_left fun edge hEdge => ?_).trans (List.map_id _)
  obtain rfl := of_decide_eq_true (List.mem_filter.mp (mem_sortByKey.mp hEdge)).2
  rfl

theorem forwardListing_successorsIn (hn : n ≤ 2 ^ 32)
    (hSource : ∀ edge ∈ edges, edge.sourceIdx < n) :
    forwardListing n (successorsIn edges) = sortEdges edges := by
  have hBuckets : forwardListing n (successorsIn edges) =
      layout (bucketOf EdgeRow.sourceIdx (sortEdges edges)) n := by
    refine layout_congr fun i hi => ?_
    have hNode := bucketOf_source_sortEdges edges (nodeIdOfIdx i)
    rw [nodeIdOfIdx, toNat_ofNat_u32 (by omega)] at hNode
    rw [map_successorsIn, hNode, nodeIdOfIdx]
  rw [hBuckets, layout_bucketOf_of_sorted (sortEdges_sorted edges)
    fun edge hEdge => hSource edge (mem_sortEdges.mp hEdge)]

theorem reverseListing_predecessorsIn (hn : n ≤ 2 ^ 32)
    (hTarget : ∀ edge ∈ edges, edge.targetIdx < n) :
    reverseListing n (predecessorsIn edges) = sortByKey EdgeRow.targetIdx (sortEdges edges) := by
  have hBuckets : reverseListing n (predecessorsIn edges) =
      layout (bucketOf EdgeRow.targetIdx (sortEdges edges)) n := by
    refine layout_congr fun i hi => ?_
    have hNode := bucketOf_target_sortEdges edges (nodeIdOfIdx i)
    rw [nodeIdOfIdx, toNat_ofNat_u32 (by omega)] at hNode
    rw [map_predecessorsIn, hNode, nodeIdOfIdx]
  rw [hBuckets, layout_bucketOf_eq_sortByKey
    fun edge hEdge => hTarget edge (mem_sortEdges.mp hEdge)]

theorem count_successorsIn (edges : List EdgeRow) (i j : NodeId) (edgeType : EdgeType) :
    (successorsIn edges i).count (j, edgeType) = edges.count ⟨i, j, edgeType⟩ := by
  have hInjective : Function.Injective fun edge : NodeId × EdgeType =>
      (⟨i, edge.1, edge.2⟩ : EdgeRow) := by
    rintro ⟨target, edgeType⟩ ⟨target', edgeType'⟩ h
    cases h
    rfl
  rw [← List.count_map_of_injective _ _ hInjective, map_successorsIn, outgoing,
    (perm_sortByKey _ _).count_eq, List.count_filter (by simp)]

theorem count_predecessorsIn (edges : List EdgeRow) (i j : NodeId) (edgeType : EdgeType) :
    (predecessorsIn edges j).count (i, edgeType) = edges.count ⟨i, j, edgeType⟩ := by
  have hInjective : Function.Injective fun edge : NodeId × EdgeType =>
      (⟨edge.1, j, edge.2⟩ : EdgeRow) := by
    rintro ⟨source, edgeType⟩ ⟨source', edgeType'⟩ h
    cases h
    rfl
  rw [← List.count_map_of_injective _ _ hInjective, map_predecessorsIn, incoming,
    (perm_sortByKey _ _).count_eq, List.count_filter (by simp)]

end

theorem edgeCount_of_adjacencyExact {graph : FrozenGraph} {edges : List EdgeRow}
    (hExact : AdjacencyExact graph edges)
    (hTargets : graph.forwardEdgeTargets.length = edges.length)
    (profile : Profile) : graph.edgeCount profile = .ok edges.length := by
  obtain ⟨stop, hLast, hStop⟩ := hExact.forwardOffsets.last
  cases profile with
  | dev =>
      rw [FrozenGraph.edgeCount, hLast, Option.getD_some, hStop, hTargets, decide_eq_true rfl,
        assert_true, Exec.ok_bind]
  | release => rw [FrozenGraph.edgeCount, hTargets]

/-- In a frozen graph the outgoing lists of all nodes together hold every added edge once,
and so do the incoming lists.  An edge is listed at its source as often as at its target,
and `edge_count` counts them. -/
theorem listings_of_freeze {profile : Profile} {roaring : Roaring} {fst : Fst}
    {graph : MutableGraph} {interner : FrozenInterner} {frozen : FrozenGraph}
    (hNodes : graph.nodeLabels.length ≤ 2 ^ 32)
    (hEndpoints : ∀ edge ∈ graph.zippedEdges, edge.sourceIdx < graph.nodeLabels.length ∧
      edge.targetIdx < graph.nodeLabels.length)
    (hEdges : graph.zippedEdges.length < 2 ^ 32)
    (hFreeze : graph.freeze profile roaring fst interner = .ok frozen) :
    ∃ successors predecessors : NodeId → List (NodeId × EdgeType),
      (∀ id, id.val.toNat < frozen.nodeCount → frozen.forwardEdges id = .ok (successors id) ∧
        frozen.reverseEdges id = .ok (predecessors id)) ∧
      (forwardListing frozen.nodeCount successors).Perm graph.zippedEdges ∧
      (reverseListing frozen.nodeCount predecessors).Perm graph.zippedEdges ∧
      (∀ i j edgeType, (successors i).count (j, edgeType) =
        (predecessors j).count (i, edgeType)) ∧
      ∀ profile, frozen.edgeCount profile = .ok graph.zippedEdges.length := by
  obtain ⟨hLabels, hExact⟩ := adjacencyExact_of_freeze hEndpoints hEdges hFreeze
  have hCount : frozen.nodeCount = graph.nodeLabels.length := by rw [FrozenGraph.nodeCount, hLabels]
  refine ⟨successorsIn graph.zippedEdges, predecessorsIn graph.zippedEdges, fun id hId =>
    ⟨hExact.forward id hId, hExact.reverse id hId⟩, ?_, ?_, fun i j edgeType => ?_,
    edgeCount_of_adjacencyExact hExact ?_⟩
  · rw [hCount, forwardListing_successorsIn hNodes fun edge hEdge => (hEndpoints edge hEdge).1]
    exact perm_sortByKey _ _
  · -- the table is sorted twice, by the sources and then by the targets
    rw [hCount, reverseListing_predecessorsIn hNodes fun edge hEdge => (hEndpoints edge hEdge).2]
    exact (perm_sortByKey _ _).trans (perm_sortByKey _ _)
  · rw [count_successorsIn, count_predecessorsIn]
  · obtain ⟨bytes, index, -, -, rfl⟩ := exists_assembled_of_freeze_eq_ok hEndpoints hEdges hFreeze
    rw [assembled, List.length_map, length_sortEdges]

theorem listings_sampleCalls :
    ∃ frozen successors predecessors,
      (build sampleCalls).freeze .dev plainRoaring plainFst sampleInterner = .ok frozen ∧
      (forwardListing frozen.nodeCount successors).Perm (edgeRows sampleCalls) ∧
      (reverseListing frozen.nodeCount predecessors).Perm (edgeRows sampleCalls) ∧
      frozen.edgeCount .dev = .ok 4 := by
  obtain ⟨frozen, hFreeze⟩ := freeze_sampleCalls
  obtain ⟨successors, predecessors, -, hForward, hReverse, -, hCount⟩ :=
    listings_of_freeze (by decide) (by decide) (by decide) hFreeze
  exact ⟨frozen, successors, predecessors, hFreeze, hForward, hReverse, hCount .dev⟩

end Graph
end CodebaseMem
