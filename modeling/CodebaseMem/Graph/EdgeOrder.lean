import CodebaseMem.Graph.Adjacency

/-!
# The order in which edges are added

Two runs that add the same nodes, and the same edges in two orders, freeze to
arrays that agree on everything but the types.  The sort key of an edge leaves
its type out, so parallel edges of different types keep the order in which they
were added.

* `SameAdjacency`: the six adjacency arrays of two graphs are the same.
* `sortEdges_eq_iff`: two orders sort to the same list exactly when the parallel edges
  between any two nodes come with the same sequence of types.
* `exists_assembled_of_perm`: when the first run freezes so does the second, and the
  indexes of the two graphs are the same in any case.
* `sameAdjacency_iff_parallelTypes_eq`: the same condition for the frozen graphs.
-/

namespace CodebaseMem
namespace Graph

open CodebaseMem.Core Library

/-- The types of the edges from `source` to `target`, in the order they were
added. -/
def parallelTypes (edges : List EdgeRow) (source target : NodeId) : List EdgeType :=
  (edges.filter fun edge => edge.source = source ∧ edge.target = target).map EdgeRow.edgeType

/-- The six adjacency arrays of two graphs are the same.  The node columns and the
indexes are not compared, because no edge enters them. -/
structure SameAdjacency (a b : FrozenGraph) : Prop where
  forwardOffsets : a.forwardOffsets = b.forwardOffsets
  forwardEdgeTargets : a.forwardEdgeTargets = b.forwardEdgeTargets
  forwardEdgeTypes : a.forwardEdgeTypes = b.forwardEdgeTypes
  revOffsets : a.revOffsets = b.revOffsets
  revEdgeSources : a.revEdgeSources = b.revEdgeSources
  revEdgeTypes : a.revEdgeTypes = b.revEdgeTypes

theorem edgeKey_eq_iff {edge : EdgeRow} {source target : NodeId} :
    edgeKey edge = toLex (source.val.toNat, target.val.toNat) ↔
      edge.source = source ∧ edge.target = target := by
  rw [edgeKey, toLex_inj, Prod.mk.injEq, NodeId.toNat_inj, NodeId.toNat_inj]

theorem edgeRow_ext {a b : EdgeRow} (hKey : edgeKey a = edgeKey b)
    (hType : a.edgeType = b.edgeType) : a = b := by
  obtain ⟨hSource, hTarget⟩ := edgeKey_eq_iff.mp hKey
  cases a
  cases b
  simp_all

theorem eq_of_edgeKey_of_edgeType {l m : List EdgeRow} (hKeys : l.map edgeKey = m.map edgeKey)
    (hTypes : l.map EdgeRow.edgeType = m.map EdgeRow.edgeType) : l = m := by
  have hZip := congrArg₂ List.zip hKeys hTypes
  rw [List.zip_map', List.zip_map'] at hZip
  refine List.map_injective_iff.mpr (fun a b hPair => ?_) hZip
  obtain ⟨hKey, hType⟩ := Prod.mk.inj hPair
  exact edgeRow_ext hKey hType

/-- The parallel edges stand together in the sorted list, in insertion order. -/
theorem parallelTypes_eq (edges : List EdgeRow) (source target : NodeId) :
    parallelTypes edges source target =
      ((sortEdges edges).filter fun edge =>
        edgeKey edge = toLex (source.val.toNat, target.val.toNat)).map EdgeRow.edgeType := by
  rw [sortEdges, filter_key_sortByKey, parallelTypes]
  congr 1
  exact List.filter_congr fun edge _ => decide_eq_decide.mpr edgeKey_eq_iff.symm

section

variable {edges edges' : List EdgeRow} (hPerm : edges.Perm edges')
include hPerm

theorem sortEdges_perm : (sortEdges edges).Perm (sortEdges edges') := by
  calc (sortEdges edges).Perm edges := perm_sortByKey edgeKey edges
    List.Perm _ edges' := hPerm
    List.Perm _ (sortEdges edges') := (perm_sortByKey edgeKey edges').symm

theorem map_edgeKey_sortEdges :
    (sortEdges edges).map edgeKey = (sortEdges edges').map edgeKey := by
  have hSorted : ∀ l : List EdgeRow, ((sortEdges l).map edgeKey).Pairwise (· ≤ ·) :=
    fun l => List.pairwise_map.mpr (sorted_sortByKey edgeKey l)
  exact ((sortEdges_perm hPerm).map edgeKey).eq_of_pairwise
    (fun _ _ _ _ hLe hGe => le_antisymm hLe hGe) (hSorted edges) (hSorted edges')

theorem filter_edgeKey_eq
    (hTypes : ∀ source target,
      parallelTypes edges source target = parallelTypes edges' source target) (k : ℕ ×ₗ ℕ) :
    (sortEdges edges).filter (fun edge => edgeKey edge = k) =
      (sortEdges edges').filter fun edge => edgeKey edge = k := by
  have hPermK := (sortEdges_perm hPerm).filter fun edge => decide (edgeKey edge = k)
  have hKeys : ∀ l : List EdgeRow, (l.filter fun edge => edgeKey edge = k).map edgeKey =
      List.replicate (l.filter fun edge => edgeKey edge = k).length k := by
    intro l
    refine List.eq_replicate_iff.mpr ⟨List.length_map .., fun key hKey => ?_⟩
    obtain ⟨edge, hEdge, rfl⟩ := List.mem_map.mp hKey
    simpa using (List.mem_filter.mp hEdge).2
  -- the first edge of the group, if there is one, tells which pair of nodes it belongs to
  cases hFirst : (sortEdges edges).filter fun edge => edgeKey edge = k with
  | nil =>
      rw [hFirst] at hPermK
      exact hPermK.nil_eq
  | cons edge rest =>
      have hEdge : edge ∈ (sortEdges edges).filter fun edge => edgeKey edge = k := by
        rw [hFirst]
        exact List.mem_cons_self
      have hKey : edgeKey edge = k := by simpa using (List.mem_filter.mp hEdge).2
      rw [← hFirst]
      refine eq_of_edgeKey_of_edgeType ?_ ?_
      · rw [hKeys, hKeys, hPermK.length_eq]
      · have hPair := hTypes edge.source edge.target
        rw [parallelTypes_eq, parallelTypes_eq] at hPair
        rwa [← hKey]

/-- Two orders sort to the same list exactly when parallel edges come with the
same sequence of types. -/
theorem sortEdges_eq_iff :
    sortEdges edges = sortEdges edges' ↔
      ∀ source target,
        parallelTypes edges source target = parallelTypes edges' source target := by
  constructor
  · intro hEq source target
    rw [parallelTypes_eq, parallelTypes_eq, hEq]
  · intro hTypes
    exact eq_of_sorted_of_filter_eq (sorted_sortByKey edgeKey edges)
      (sorted_sortByKey edgeKey edges') (filter_edgeKey_eq hPerm hTypes)

end

/-- Graphs assembled over the same node columns have the same adjacency exactly
when their sorted edges are the same. -/
theorem sameAdjacency_assembled_iff {graph graph' : MutableGraph} {interner : FrozenInterner}
    {bytes : List UInt8} {index : List UInt8 × List (List NodeId)}
    (hLabels : graph.nodeLabels = graph'.nodeLabels)
    (hPerm : graph.zippedEdges.Perm graph'.zippedEdges) :
    SameAdjacency (assembled graph interner bytes index) (assembled graph' interner bytes index) ↔
      sortEdges graph.zippedEdges = sortEdges graph'.zippedEdges := by
  constructor
  · intro hSame
    exact eq_of_edgeKey_of_edgeType (map_edgeKey_sortEdges hPerm) hSame.forwardEdgeTypes
  · intro hEq
    constructor <;> simp only [assembled, hEq, hLabels]

section Runs

variable {profile : Profile} {roaring : Roaring} {fst : Fst} {interner : FrozenInterner}
  {calls calls' : List Call}

theorem nodeLabels_build_eq (hNodes : nodeRows calls = nodeRows calls') :
    (build calls).nodeLabels = (build calls').nodeLabels := by
  rw [(holds_build calls).nodeLabels, (holds_build calls').nodeLabels, hNodes]

theorem nodeNames_build_eq (hNodes : nodeRows calls = nodeRows calls') :
    (build calls).nodeNames = (build calls').nodeNames := by
  rw [(holds_build calls).nodeNames, (holds_build calls').nodeNames, hNodes]

theorem zippedEdges_build_perm (hPerm : (edgeRows calls).Perm (edgeRows calls')) :
    (build calls).zippedEdges.Perm (build calls').zippedEdges := by
  rwa [(holds_build calls).zippedEdges, (holds_build calls').zippedEdges]

theorem exists_assembled_of_perm (hNodes : nodeRows calls = nodeRows calls')
    (hPerm : (edgeRows calls).Perm (edgeRows calls'))
    (hEndpoints : ∀ edge ∈ edgeRows calls, edge.sourceIdx < (nodeRows calls).length ∧
      edge.targetIdx < (nodeRows calls).length)
    (hEdges : (edgeRows calls).length < 2 ^ 32) {frozen : FrozenGraph}
    (hFreeze : (build calls).freeze profile roaring fst interner = .ok frozen) :
    ∃ bytes index, frozen = assembled (build calls) interner bytes index ∧
      (build calls').freeze profile roaring fst interner =
        .ok (assembled (build calls') interner bytes index) := by
  have hLabels := nodeLabels_build_eq hNodes
  have hZipped := zippedEdges_build_perm hPerm
  have hCount : (build calls).nodeLabels.length = (nodeRows calls).length := by
    rw [(holds_build calls).nodeLabels, List.length_map]
  rw [← (holds_build calls).zippedEdges] at hEndpoints hEdges
  rw [← hCount] at hEndpoints
  have hEndpoints' : ∀ edge ∈ (build calls').zippedEdges,
      edge.sourceIdx < (build calls').nodeLabels.length ∧
        edge.targetIdx < (build calls').nodeLabels.length :=
    fun edge hEdge => hLabels ▸ hEndpoints edge (hZipped.mem_iff.mpr hEdge)
  have hEdges' : (build calls').zippedEdges.length < 2 ^ 32 := by rwa [← hZipped.length_eq]
  obtain ⟨bytes, index, hBytes, hIndex, hAssembled⟩ :=
    exists_assembled_of_freeze_eq_ok hEndpoints hEdges hFreeze
  rw [hLabels] at hBytes
  rw [nodeNames_build_eq hNodes] at hIndex
  exact ⟨bytes, index, hAssembled, freeze_eq_ok hEndpoints' hEdges' hBytes hIndex⟩

theorem sameAdjacency_build_iff (hNodes : nodeRows calls = nodeRows calls')
    (hPerm : (edgeRows calls).Perm (edgeRows calls')) (bytes : List UInt8)
    (index : List UInt8 × List (List NodeId)) :
    SameAdjacency (assembled (build calls) interner bytes index)
        (assembled (build calls') interner bytes index) ↔
      ∀ source target, parallelTypes (edgeRows calls) source target =
        parallelTypes (edgeRows calls') source target := by
  rw [sameAdjacency_assembled_iff (nodeLabels_build_eq hNodes) (zippedEdges_build_perm hPerm),
    (holds_build calls).zippedEdges, (holds_build calls').zippedEdges, sortEdges_eq_iff hPerm]

end Runs

/-- For the same nodes and two orders of the same edges, the arrays agree exactly
when every two nodes have their parallel edges added with the same sequence of
types. -/
theorem sameAdjacency_iff_parallelTypes_eq (profile : Profile) (roaring : Roaring) (fst : Fst)
    (interner : FrozenInterner) {calls calls' : List Call}
    (hNodes : nodeRows calls = nodeRows calls')
    (hPerm : (edgeRows calls).Perm (edgeRows calls'))
    (hEndpoints : ∀ edge ∈ edgeRows calls, edge.sourceIdx < (nodeRows calls).length ∧
      edge.targetIdx < (nodeRows calls).length)
    (hEdges : (edgeRows calls).length < 2 ^ 32) {frozen : FrozenGraph}
    (hFreeze : (build calls).freeze profile roaring fst interner = .ok frozen) :
    ∃ frozen', (build calls').freeze profile roaring fst interner = .ok frozen' ∧
      (SameAdjacency frozen frozen' ↔ ∀ source target,
        parallelTypes (edgeRows calls) source target =
          parallelTypes (edgeRows calls') source target) := by
  obtain ⟨bytes, index, rfl, hFreeze'⟩ :=
    exists_assembled_of_perm hNodes hPerm hEndpoints hEdges hFreeze
  exact ⟨_, hFreeze', sameAdjacency_build_iff hNodes hPerm bytes index⟩

/-- The edges of `sampleCalls`, with the two parallel ones in their old order. -/
def reorderedCalls : List Call :=
  let node : NodeRow := ⟨.function, ⟨0⟩, ⟨0⟩, 1, 1⟩
  [.addNode node, .addNode node, .addNode node, .addNode node, .addEdge ⟨⟨2⟩, ⟨2⟩, .calls⟩,
    .addEdge ⟨⟨1⟩, ⟨2⟩, .calls⟩, .addEdge ⟨⟨1⟩, ⟨2⟩, .imports⟩, .addEdge ⟨⟨1⟩, ⟨0⟩, .uses⟩]

theorem sameAdjacency_reorderedCalls :
    ∃ frozen frozen',
      (build sampleCalls).freeze .dev plainRoaring plainFst sampleInterner = .ok frozen ∧
      (build reorderedCalls).freeze .dev plainRoaring plainFst sampleInterner = .ok frozen' ∧
      SameAdjacency frozen frozen' := by
  obtain ⟨frozen, hFreeze⟩ := freeze_sampleCalls
  have hPerm : (edgeRows sampleCalls).Perm (edgeRows reorderedCalls) := by decide
  obtain ⟨frozen', hFreeze', hIff⟩ := sameAdjacency_iff_parallelTypes_eq .dev plainRoaring plainFst
    sampleInterner (by decide) hPerm (by decide) (by decide) hFreeze
  refine ⟨frozen, frozen', hFreeze, hFreeze', hIff.mpr fun source target => ?_⟩
  show parallelTypes [⟨⟨1⟩, ⟨2⟩, .calls⟩, ⟨⟨1⟩, ⟨0⟩, .uses⟩, ⟨⟨2⟩, ⟨2⟩, .calls⟩,
      ⟨⟨1⟩, ⟨2⟩, .imports⟩] source target =
    parallelTypes [⟨⟨2⟩, ⟨2⟩, .calls⟩, ⟨⟨1⟩, ⟨2⟩, .calls⟩, ⟨⟨1⟩, ⟨2⟩, .imports⟩,
      ⟨⟨1⟩, ⟨0⟩, .uses⟩] source target
  by_cases hSource : (⟨1⟩ : NodeId) = source
  · subst hSource
    by_cases hTarget : (⟨2⟩ : NodeId) = target
    · subst hTarget
      decide
    · simp [parallelTypes, List.filter_cons, hTarget]
  · simp [parallelTypes, List.filter_cons, hSource]

def swappedCalls : List Call :=
  let node : NodeRow := ⟨.function, ⟨0⟩, ⟨0⟩, 1, 1⟩
  [.addNode node, .addNode node, .addEdge ⟨⟨1⟩, ⟨2⟩, .imports⟩, .addNode node, .addNode node,
    .addEdge ⟨⟨1⟩, ⟨0⟩, .uses⟩, .addEdge ⟨⟨2⟩, ⟨2⟩, .calls⟩, .addEdge ⟨⟨1⟩, ⟨2⟩, .calls⟩]

theorem not_sameAdjacency_swappedCalls :
    nodeRows sampleCalls = nodeRows swappedCalls ∧
    (edgeRows sampleCalls).Perm (edgeRows swappedCalls) ∧
    (∀ edge ∈ edgeRows sampleCalls, edge.sourceIdx < (nodeRows sampleCalls).length ∧
      edge.targetIdx < (nodeRows sampleCalls).length) ∧
    ∃ frozen frozen',
      (build sampleCalls).freeze .dev plainRoaring plainFst sampleInterner = .ok frozen ∧
      (build swappedCalls).freeze .dev plainRoaring plainFst sampleInterner = .ok frozen' ∧
      frozen.forwardEdgeTypes ≠ frozen'.forwardEdgeTypes := by
  have hPerm : (edgeRows sampleCalls).Perm (edgeRows swappedCalls) := by decide
  refine ⟨by decide, hPerm, by decide, ?_⟩
  obtain ⟨frozen, hFreeze⟩ := freeze_sampleCalls
  obtain ⟨bytes, index, rfl, hFreeze'⟩ :=
    exists_assembled_of_perm (by decide) hPerm (by decide) (by decide) hFreeze
  have hTypes : (sortEdges (build sampleCalls).zippedEdges).map EdgeRow.edgeType ≠
      (sortEdges (build swappedCalls).zippedEdges).map EdgeRow.edgeType := by decide
  exact ⟨_, _, hFreeze, hFreeze', hTypes⟩

end Graph
end CodebaseMem
