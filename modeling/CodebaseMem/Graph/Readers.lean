import CodebaseMem.Graph.ConcurrentBuild

/-!
# Readers of a graph under construction

The counters and the columns can be read while calls add nodes and edges.  A call updates
the counter first and then one column after the other, so at every moment the length of a
column says how many calls have gone past it.  A reader who takes the columns in the
opposite order therefore never misses in one of them a row that another one had.

* `nodeLengths`, `edgeLengths`: what a reader sees of the two numbers, in the order in
  which the calls count and store.
* `MutableGraph.Extends`: a later graph has all the rows of an earlier one, unchanged.
* `lengths_buildRun`: for every moment and every later one.

A reader sees a length or a row under the mutex of one column, so a reading is one atomic
look.  That the rows belong together is another matter, see the modules on node rows and
on edge rows.
-/

namespace CodebaseMem
namespace Graph

open CodebaseMem.Core
open Library
open Library.Interleaving

/-- What a reader sees of the number of nodes, in the order in which `add_node` counts and
stores. -/
def nodeLengths (graph : MutableGraph) : Fin 6 → Nat
  | 0 => graph.nodeCount.toNat
  | 1 => graph.nodeLabels.length
  | 2 => graph.nodeNames.length
  | 3 => graph.nodeFiles.length
  | 4 => graph.nodeLines.length
  | 5 => graph.nodeColumns.length

/-- What a reader sees of the number of edges, in the order in which `add_edge` counts and
stores. -/
def edgeLengths (graph : MutableGraph) : Fin 4 → Nat
  | 0 => graph.edgeCount.toNat
  | 1 => graph.edgeSources.length
  | 2 => graph.edgeTargets.length
  | 3 => graph.edgeTypes.length

/-- `later` has all the rows of `graph`, unchanged.  The counters are not in it: they
grow too, but they wrap around. -/
structure MutableGraph.Extends (graph later : MutableGraph) : Prop where
  nodeLabels : graph.nodeLabels <+: later.nodeLabels
  nodeNames : graph.nodeNames <+: later.nodeNames
  nodeFiles : graph.nodeFiles <+: later.nodeFiles
  nodeLines : graph.nodeLines <+: later.nodeLines
  nodeColumns : graph.nodeColumns <+: later.nodeColumns
  edgeSources : graph.edgeSources <+: later.edgeSources
  edgeTargets : graph.edgeTargets <+: later.edgeTargets
  edgeTypes : graph.edgeTypes <+: later.edgeTypes

namespace MutableGraph.Extends

theorem refl (graph : MutableGraph) : graph.Extends graph := by
  constructor <;> exact List.prefix_rfl

theorem trans {graph later last : MutableGraph} (h : graph.Extends later)
    (h' : later.Extends last) : graph.Extends last where
  nodeLabels := h.nodeLabels.trans h'.nodeLabels
  nodeNames := h.nodeNames.trans h'.nodeNames
  nodeFiles := h.nodeFiles.trans h'.nodeFiles
  nodeLines := h.nodeLines.trans h'.nodeLines
  nodeColumns := h.nodeColumns.trans h'.nodeColumns
  edgeSources := h.edgeSources.trans h'.edgeSources
  edgeTargets := h.edgeTargets.trans h'.edgeTargets
  edgeTypes := h.edgeTypes.trans h'.edgeTypes

end MutableGraph.Extends

theorem BuildAction.extends_exec (action : BuildAction) (graph : MutableGraph)
    (id : Option UInt32) : graph.Extends (action.exec graph id).1 := by
  cases action <;> constructor <;>
    first
    | exact List.prefix_rfl
    | exact List.prefix_append _ _

section Runs

variable {nodes : List NodeRow} {edges : List EdgeRow} {config : BuildConfig nodes edges}

theorem extends_run (schedule : List (BuildCall nodes edges)) :
    config.shared.Extends
      (run (buildProgram nodes edges) BuildAction.exec schedule config).shared := by
  refine run_invariant _ _ (fun later => config.shared.Extends later.shared) ?_ schedule config
    (.refl _)
  intro later call action hExtends _
  exact hExtends.trans (action.extends_exec later.shared (later.regs call))

/-- The node calls that have taken more than `k` actions. -/
def nodeCallsPast (config : BuildConfig nodes edges) (k : Nat) : Finset (Fin nodes.length) :=
  Finset.univ.filter fun i => k < (config.pc ∘ Sum.inl) i

/-- The edge calls that have taken more than `k` actions. -/
def edgeCallsPast (config : BuildConfig nodes edges) (k : Nat) : Finset (Fin edges.length) :=
  Finset.univ.filter fun i => k < (config.pc ∘ Sum.inr) i

theorem toNat_ofNat_card {calls : Nat} (past : Finset (Fin calls)) (hFew : calls < 2 ^ 32) :
    (UInt32.ofNat past.card).toNat = past.card := by
  have hCard := Finset.card_le_univ past
  rw [Fintype.card_fin] at hCard
  exact UInt32.toNat_ofNat_of_lt' (hCard.trans_lt hFew)

theorem NodesLogged.nodeLengths_eq {log : AppendLog (Fin nodes.length) 5}
    (h : NodesLogged config log) (hFew : nodes.length < 2 ^ 32) (k : Fin 6) :
    nodeLengths config.shared k = (nodeCallsPast config k).card := by
  have hOrder := h.consistent.card_order
  match k with
  | 0 =>
      rw [nodeLengths, MutableGraph.nodeCount, h.counter, h.consistent.card_drawn]
      exact toNat_ofNat_card _ hFew
  | 1 =>
      rw [nodeLengths, h.nodeLabels, List.length_map]
      exact hOrder 0
  | 2 =>
      rw [nodeLengths, h.nodeNames, List.length_map]
      exact hOrder 1
  | 3 =>
      rw [nodeLengths, h.nodeFiles, List.length_map]
      exact hOrder 2
  | 4 =>
      rw [nodeLengths, h.nodeLines, List.length_map]
      exact hOrder 3
  | 5 =>
      rw [nodeLengths, h.nodeColumns, List.length_map]
      exact hOrder 4

theorem EdgesLogged.edgeLengths_eq {log : AppendLog (Fin edges.length) 3}
    (h : EdgesLogged config log) (hFew : edges.length < 2 ^ 32) (k : Fin 4) :
    edgeLengths config.shared k = (edgeCallsPast config k).card := by
  have hOrder := h.consistent.card_order
  match k with
  | 0 =>
      rw [edgeLengths, MutableGraph.edgeCount, h.counter, h.consistent.card_drawn]
      exact toNat_ofNat_card _ hFew
  | 1 =>
      rw [edgeLengths, h.edgeSources, List.length_map]
      exact hOrder 0
  | 2 =>
      rw [edgeLengths, h.edgeTargets, List.length_map]
      exact hOrder 1
  | 3 =>
      rw [edgeLengths, h.edgeTypes, List.length_map]
      exact hOrder 2

end Runs

/-- A call that has gone past action `k` has gone past every earlier one, and stays so. -/
theorem callsPast_subset {calls : Nat} {pc pc' : Fin calls → Nat} (hPc : ∀ i, pc i ≤ pc' i)
    {j k : Nat} (hjk : j ≤ k) :
    (Finset.univ.filter fun i => k < pc i) ⊆ Finset.univ.filter fun i => j < pc' i := by
  intro i hi
  have hPast := (Finset.mem_filter.mp hi).2
  exact Finset.mem_filter.mpr ⟨Finset.mem_univ i, (hjk.trans_lt hPast).trans_le (hPc i)⟩

/-- At every moment of every interleaving, the counter and the length of each column are
the number of calls that have gone past them.  A column that is read now has no more rows
than any column that the calls update before it has now or later, and its rows never
change. -/
theorem lengths_buildRun (nodes : List NodeRow) (edges : List EdgeRow)
    (hNodes : nodes.length < 2 ^ 32) (hEdges : edges.length < 2 ^ 32)
    (schedule more : List (BuildCall nodes edges)) :
    let now := buildRun nodes edges schedule
    let later := buildRun nodes edges (schedule ++ more)
    (∀ k, nodeLengths now.shared k = (nodeCallsPast now k).card) ∧
    (∀ k, edgeLengths now.shared k = (edgeCallsPast now k).card) ∧
    (∀ j k, j ≤ k → nodeLengths now.shared k ≤ nodeLengths later.shared j) ∧
    (∀ j k, j ≤ k → edgeLengths now.shared k ≤ edgeLengths later.shared j) ∧
    now.shared.Extends later.shared := by
  intro now later
  have hLater : later = run (buildProgram nodes edges) BuildAction.exec more now :=
    run_append _ _ schedule more _
  -- no call goes back, so a call that has gone past an action stays past it
  have hPc : ∀ call, now.pc call ≤ later.pc call := by
    intro call
    rw [hLater]
    exact pc_le_pc_run _ _ more now call
  have hNodeLengths : ∀ schedule k, nodeLengths (buildRun nodes edges schedule).shared k =
      (nodeCallsPast (buildRun nodes edges schedule) k).card := by
    intro schedule k
    obtain ⟨nodeLog, -, hLogged, -⟩ :=
      (logged_buildRun schedule : Logged (buildRun nodes edges schedule))
    exact hLogged.nodeLengths_eq hNodes k
  have hEdgeLengths : ∀ schedule k, edgeLengths (buildRun nodes edges schedule).shared k =
      (edgeCallsPast (buildRun nodes edges schedule) k).card := by
    intro schedule k
    obtain ⟨-, edgeLog, -, hLogged⟩ :=
      (logged_buildRun schedule : Logged (buildRun nodes edges schedule))
    exact hLogged.edgeLengths_eq hEdges k
  refine ⟨hNodeLengths schedule, hEdgeLengths schedule, fun j k hjk => ?_, fun j k hjk => ?_, ?_⟩
  · have hPassed : nodeCallsPast now k ⊆ nodeCallsPast later j :=
      callsPast_subset (fun i => hPc (Sum.inl i)) hjk
    calc nodeLengths now.shared k
      _ = (nodeCallsPast now k).card := hNodeLengths schedule k
      _ ≤ (nodeCallsPast later j).card := Finset.card_le_card hPassed
      _ = nodeLengths later.shared j := (hNodeLengths (schedule ++ more) j).symm
  · have hPassed : edgeCallsPast now k ⊆ edgeCallsPast later j :=
      callsPast_subset (fun i => hPc (Sum.inr i)) hjk
    calc edgeLengths now.shared k
      _ = (edgeCallsPast now k).card := hEdgeLengths schedule k
      _ ≤ (edgeCallsPast later j).card := Finset.card_le_card hPassed
      _ = edgeLengths later.shared j := (hEdgeLengths (schedule ++ more) j).symm
  · rw [hLater]
    exact extends_run more

/-- A function and a class. -/
def readRows : List NodeRow := [⟨.function, ⟨0⟩, ⟨4⟩, 1, 1⟩, ⟨.class_, ⟨8⟩, ⟨12⟩, 2, 5⟩]

/-- The first call is halfway when the second one draws its id. -/
def readTurns : List (BuildCall readRows []) :=
  List.replicate 3 (Sum.inl ⟨0, by decide⟩) ++ [Sum.inl ⟨1, by decide⟩]

theorem lengths_readTurns :
    nodeLengths (buildRun readRows [] readTurns).shared 0 = 2 ∧
      nodeLengths (buildRun readRows [] readTurns).shared 2 = 1 ∧
      nodeLengths (buildRun readRows [] readTurns).shared 3 = 0 := by
  obtain ⟨hLengths, -⟩ := lengths_buildRun readRows [] (by decide) (by decide) readTurns []
  rw [hLengths, hLengths, hLengths]
  decide

end Graph
end CodebaseMem
