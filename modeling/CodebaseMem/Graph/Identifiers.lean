import CodebaseMem.Graph.FrozenGraph

/-!
# The identifiers of a run

The `i`-th `add_node` call of a run returns the word `i` modulo `2 ^ 32`, and the
counter is read back as the number of nodes.  Neither notices when the counter
wraps around; the rows do not wrap.  Edges are counted in the same way.

* `nodeIds`, `edgeIds`: what the calls of a run return.
* `drawn`: what a counter gives that is drawn from again and again; `nodup_drawn_iff`
  says when it repeats itself.
* `IdsFresh`: no id is returned twice, and the counts are the numbers of rows.
* `idsFresh_iff`: this holds exactly for the runs with fewer than `2 ^ 32` calls of each
  kind.  No call panics in any run.

The runs are sequential.  Under concurrency the counter is still drawn from atomically.
-/

namespace CodebaseMem
namespace Graph

open CodebaseMem.Core Library

/-- The ids that the `add_node` calls return, in call order. -/
def nodeIdsFrom (graph : MutableGraph) : List Call → List NodeId
  | [] => []
  | .addNode row :: calls => (graph.addNode row).2 :: nodeIdsFrom (graph.addNode row).1 calls
  | .addEdge row :: calls => nodeIdsFrom (graph.addEdge row).1 calls

/-- The ids that the `add_edge` calls return, in call order. -/
def edgeIdsFrom (graph : MutableGraph) : List Call → List EdgeId
  | [] => []
  | .addNode row :: calls => edgeIdsFrom (graph.addNode row).1 calls
  | .addEdge row :: calls => (graph.addEdge row).2 :: edgeIdsFrom (graph.addEdge row).1 calls

def nodeIds (calls : List Call) : List NodeId := nodeIdsFrom MutableGraph.new calls

def edgeIds (calls : List Call) : List EdgeId := edgeIdsFrom MutableGraph.new calls

/-! ### A wrapping counter -/

/-- The values that `count` draws from a counter at `start` return.  The counter wraps
around silently, whatever the profile, because `fetch_add` does. -/
def drawn (start : UInt32) (count : Nat) : List UInt32 :=
  (List.range count).map fun i => start + UInt32.ofNat i

theorem drawn_succ (start : UInt32) (count : Nat) :
    drawn start (count + 1) = start :: drawn (start + 1) count := by
  rw [drawn, List.range_succ_eq_map, List.map_cons, List.map_map, drawn]
  refine congrArg₂ List.cons (UInt32.add_zero start) (List.map_congr_left fun i _ => ?_)
  rw [Function.comp_apply, Nat.succ_eq_add_one, Nat.add_comm, UInt32.ofNat_add, UInt32.add_assoc]
  rfl

theorem toNat_ofNat_mod (n : Nat) : (UInt32.ofNat n).toNat = n % 2 ^ 32 := rfl

/-- The counter repeats itself after `2 ^ 32` draws, and not before.  The draws are the
numbers from zero on, cut to 32 bits. -/
theorem nodup_drawn_iff {count : Nat} : (drawn 0 count).Nodup ↔ count ≤ 2 ^ 32 := by
  constructor
  · intro hNodup
    by_contra hLong
    have hFirst : (0 : Nat) < (drawn 0 count).length := by
      rw [drawn, List.length_map, List.length_range]
      omega
    have hAgain : 2 ^ 32 < (drawn 0 count).length := by
      rw [drawn, List.length_map, List.length_range]
      omega
    have hSame : (drawn 0 count)[0] = (drawn 0 count)[2 ^ 32] := by
      simp [drawn]
    have hIdx := (List.Nodup.getElem_inj_iff hNodup).mp hSame
    omega
  · intro hShort
    refine List.Nodup.map_on (fun i hi j hj hEq => ?_) List.nodup_range
    have hi := List.mem_range.mp hi
    have hj := List.mem_range.mp hj
    rw [UInt32.zero_add, UInt32.zero_add] at hEq
    have hNat := congrArg UInt32.toNat hEq
    rwa [toNat_ofNat_mod, toNat_ofNat_mod, Nat.mod_eq_of_lt (by omega),
      Nat.mod_eq_of_lt (by omega)] at hNat

/-- The counter still tells how often it was drawn from while it has not wrapped. -/
theorem toNat_ofNat_eq_self_iff {count : Nat} :
    (UInt32.ofNat count).toNat = count ↔ count < 2 ^ 32 := by
  rw [toNat_ofNat_mod]
  omega

/-! ### The ids of a run -/

theorem nodeIdsFrom_eq (graph : MutableGraph) (calls : List Call) :
    nodeIdsFrom graph calls =
      (drawn graph.nextNodeId (nodeRows calls).length).map NodeId.mk := by
  induction calls generalizing graph with
  | nil => rfl
  | cons call calls ih =>
      cases call with
      | addNode row =>
          have hRows : (nodeRows (.addNode row :: calls)).length = (nodeRows calls).length + 1 := by
            simp [nodeRows_cons, Call.nodeRow?]
          rw [nodeIdsFrom, ih, hRows, drawn_succ, List.map_cons]
          rfl
      | addEdge row =>
          have hRows : nodeRows (.addEdge row :: calls) = nodeRows calls := rfl
          rw [nodeIdsFrom, ih, hRows]
          rfl

theorem edgeIdsFrom_eq (graph : MutableGraph) (calls : List Call) :
    edgeIdsFrom graph calls =
      (drawn graph.nextEdgeId (edgeRows calls).length).map EdgeId.mk := by
  induction calls generalizing graph with
  | nil => rfl
  | cons call calls ih =>
      cases call with
      | addNode row =>
          have hRows : edgeRows (.addNode row :: calls) = edgeRows calls := rfl
          rw [edgeIdsFrom, ih, hRows]
          rfl
      | addEdge row =>
          have hRows : (edgeRows (.addEdge row :: calls)).length = (edgeRows calls).length + 1 := by
            simp [edgeRows_cons, Call.edgeRow?]
          rw [edgeIdsFrom, ih, hRows, drawn_succ, List.map_cons]
          rfl

/-- Node ids are distinct up to and including `2 ^ 32` calls. -/
theorem nodup_nodeIds_iff (calls : List Call) :
    (nodeIds calls).Nodup ↔ (nodeRows calls).length ≤ 2 ^ 32 := by
  rw [nodeIds, nodeIdsFrom_eq, List.nodup_map_iff fun a b h => NodeId.mk.inj h]
  exact nodup_drawn_iff

theorem nodup_edgeIds_iff (calls : List Call) :
    (edgeIds calls).Nodup ↔ (edgeRows calls).length ≤ 2 ^ 32 := by
  rw [edgeIds, edgeIdsFrom_eq, List.nodup_map_iff fun a b h => EdgeId.mk.inj h]
  exact nodup_drawn_iff

/-- `node_count` is the number of rows as long as the counter has not wrapped. -/
theorem nodeCount_build_iff (calls : List Call) :
    (build calls).nodeCount.toNat = (build calls).nodeLabels.length ↔
      (nodeRows calls).length < 2 ^ 32 := by
  rw [MutableGraph.nodeCount, (holds_build calls).nextNodeId, (holds_build calls).nodeLabels,
    List.length_map, toNat_ofNat_eq_self_iff]

theorem edgeCount_build_iff (calls : List Call) :
    (build calls).edgeCount.toNat = (build calls).edgeTypes.length ↔
      (edgeRows calls).length < 2 ^ 32 := by
  rw [MutableGraph.edgeCount, (holds_build calls).nextEdgeId, (holds_build calls).edgeTypes,
    List.length_map, toNat_ofNat_eq_self_iff]

/-- No call of the run returns an id that an earlier call returned, and the counts
are the numbers of rows. -/
structure IdsFresh (calls : List Call) : Prop where
  nodeIds : (nodeIds calls).Nodup
  nodeCount : (build calls).nodeCount.toNat = (build calls).nodeLabels.length
  edgeIds : (edgeIds calls).Nodup
  edgeCount : (build calls).edgeCount.toNat = (build calls).edgeTypes.length

/-- No call panics, and the ids are fresh and the counts right exactly for the runs
with fewer than `2 ^ 32` calls of each kind. -/
theorem idsFresh_iff (calls : List Call) :
    IdsFresh calls ↔
      (nodeRows calls).length < 2 ^ 32 ∧ (edgeRows calls).length < 2 ^ 32 := by
  constructor
  · intro hFresh
    exact ⟨(nodeCount_build_iff calls).mp hFresh.nodeCount,
      (edgeCount_build_iff calls).mp hFresh.edgeCount⟩
  · rintro ⟨hNodes, hEdges⟩
    exact
      { nodeIds := (nodup_nodeIds_iff calls).mpr hNodes.le
        nodeCount := (nodeCount_build_iff calls).mpr hNodes
        edgeIds := (nodup_edgeIds_iff calls).mpr hEdges.le
        edgeCount := (edgeCount_build_iff calls).mpr hEdges }

/-- `count` nodes that are all alike. -/
def alikeNodes (count : Nat) : List Call :=
  List.replicate count (.addNode ⟨.function, ⟨0⟩, ⟨0⟩, 1, 1⟩)

theorem length_nodeRows_alikeNodes (count : Nat) :
    (nodeRows (alikeNodes count)).length = count := by
  induction count with
  | zero => rfl
  | succ count ih =>
      calc (nodeRows (alikeNodes (count + 1))).length
        _ = 1 + (nodeRows (alikeNodes count)).length := by
          rw [alikeNodes, List.replicate_succ, nodeRows_cons, ← alikeNodes, List.length_append]
          rfl
        _ = count + 1 := by rw [ih, Nat.add_comm]

/-- With one node more than there are ids, an id is returned twice and the graph
counts a single node. -/
theorem not_idsFresh_alikeNodes :
    ¬(nodeIds (alikeNodes (2 ^ 32 + 1))).Nodup ∧
      (build (alikeNodes (2 ^ 32 + 1))).nodeCount = 1 ∧
      (build (alikeNodes (2 ^ 32 + 1))).nodeLabels.length = 2 ^ 32 + 1 := by
  have hRows := length_nodeRows_alikeNodes (2 ^ 32 + 1)
  refine ⟨?_, ?_, ?_⟩
  · rw [nodup_nodeIds_iff, hRows]
    omega
  · rw [MutableGraph.nodeCount, (holds_build _).nextNodeId, hRows]
    rfl
  · rw [(holds_build _).nodeLabels, List.length_map, hRows]

end Graph
end CodebaseMem
