import CodebaseMem.Graph.MutableGraph
import CodebaseMem.Library.Interleaving
import CodebaseMem.Library.AppendLog

/-!
# Concurrent building

`add_node` takes six atomic actions and `add_edge` takes four: the `fetch_add`
on the counter and one `lock().push(..)` for each column.  Every column has a
mutex of its own, so between two actions of one call any other call may act.

The configurations below are those of any number of calls, given by the list of
rows to add as nodes and the list of rows to add as edges.

* `BuildAction.exec`, `addNodeActions`, `addEdgeActions`: the actions and the bodies of
  the two calls; without interruption they are the sequential calls.
* `NodesLogged`, `EdgesLogged`: a configuration is explained by a log of who drew which
  id and who pushed where.
* `Logged.advance`, `logged_buildRun`: logs explain every reachable configuration.
* `AllAligned`, `RowsWhole`: two conditions on logs, which the modules on node rows and
  on edge rows compare with what a reader sees.

A push waits for the mutex of its column only, so it is one action here.  No call panics
while it holds a mutex, so none is ever poisoned.
-/

namespace CodebaseMem
namespace Graph

open CodebaseMem.Core
open Library
open Library.Interleaving

/-- The atomic actions inside `add_node` and `add_edge`. The source takes a ticket with
one `fetch_add` and then locks one mutex for each column, so nothing holds two columns
together. -/
inductive BuildAction where
  | fetchAddNodeId
  | pushNodeLabel (label : NodeLabel)
  | pushNodeName (name : InternedStr)
  | pushNodeFile (file : InternedStr)
  | pushNodeLine (line : UInt32)
  | pushNodeColumn (column : UInt32)
  | fetchAddEdgeId
  | pushEdgeSource (source : NodeId)
  | pushEdgeTarget (target : NodeId)
  | pushEdgeType (edgeType : EdgeType)
  deriving DecidableEq, Repr

namespace BuildAction

/-- Execute one action.  The register of a call holds the id it has drawn, which is
`none` until the draw.  A push never reads it: the row lands where the column ends. -/
def exec : BuildAction → MutableGraph → Option UInt32 → MutableGraph × Option UInt32
  | fetchAddNodeId, graph, _ =>
      ({ graph with nextNodeId := graph.nextNodeId + 1 }, some graph.nextNodeId)
  | pushNodeLabel label, graph, id =>
      ({ graph with nodeLabels := graph.nodeLabels ++ [label] }, id)
  | pushNodeName name, graph, id =>
      ({ graph with nodeNames := graph.nodeNames ++ [name] }, id)
  | pushNodeFile file, graph, id =>
      ({ graph with nodeFiles := graph.nodeFiles ++ [file] }, id)
  | pushNodeLine line, graph, id =>
      ({ graph with nodeLines := graph.nodeLines ++ [line] }, id)
  | pushNodeColumn column, graph, id =>
      ({ graph with nodeColumns := graph.nodeColumns ++ [column] }, id)
  | fetchAddEdgeId, graph, _ =>
      ({ graph with nextEdgeId := graph.nextEdgeId + 1 }, some graph.nextEdgeId)
  | pushEdgeSource source, graph, id =>
      ({ graph with edgeSources := graph.edgeSources ++ [source] }, id)
  | pushEdgeTarget target, graph, id =>
      ({ graph with edgeTargets := graph.edgeTargets ++ [target] }, id)
  | pushEdgeType edgeType, graph, id =>
      ({ graph with edgeTypes := graph.edgeTypes ++ [edgeType] }, id)

end BuildAction

/-- The body of `add_node`. -/
def addNodeActions (row : NodeRow) : List BuildAction :=
  [.fetchAddNodeId, .pushNodeLabel row.label, .pushNodeName row.name,
    .pushNodeFile row.file, .pushNodeLine row.line, .pushNodeColumn row.column]

/-- The body of `add_edge`. -/
def addEdgeActions (row : EdgeRow) : List BuildAction :=
  [.fetchAddEdgeId, .pushEdgeSource row.source, .pushEdgeTarget row.target,
    .pushEdgeType row.edgeType]

/-- A call that runs undisturbed is the sequential `addNode`. -/
theorem execList_addNodeActions (graph : MutableGraph) (row : NodeRow) (id : Option UInt32) :
    execList BuildAction.exec (addNodeActions row) graph id =
      ((graph.addNode row).1, some (graph.addNode row).2.val) := rfl

/-- A call that runs undisturbed is the sequential `addEdge`. -/
theorem execList_addEdgeActions (graph : MutableGraph) (row : EdgeRow) (id : Option UInt32) :
    execList BuildAction.exec (addEdgeActions row) graph id =
      ((graph.addEdge row).1, some (graph.addEdge row).2.val) := rfl

/-- The calls of a concurrent build: one for each node row and one for each edge
row. -/
abbrev BuildCall (nodes : List NodeRow) (edges : List EdgeRow) :=
  Fin nodes.length ⊕ Fin edges.length

abbrev BuildConfig (nodes : List NodeRow) (edges : List EdgeRow) :=
  Config (BuildCall nodes edges) MutableGraph (Option UInt32)

def buildProgram (nodes : List NodeRow) (edges : List EdgeRow) :
    BuildCall nodes edges → List BuildAction
  | .inl i => addNodeActions (nodes.get i)
  | .inr i => addEdgeActions (edges.get i)

def buildStart (nodes : List NodeRow) (edges : List EdgeRow) : BuildConfig nodes edges :=
  Config.start MutableGraph.new fun _ => none

def buildRun (nodes : List NodeRow) (edges : List EdgeRow)
    (schedule : List (BuildCall nodes edges)) : BuildConfig nodes edges :=
  run (buildProgram nodes edges) BuildAction.exec schedule (buildStart nodes edges)

theorem addNodeActions_cases {row : NodeRow} {position : Nat} {action : BuildAction}
    (h : (addNodeActions row)[position]? = some action) :
    (position = 0 ∧ action = .fetchAddNodeId) ∨
      (position = 1 ∧ action = .pushNodeLabel row.label) ∨
      (position = 2 ∧ action = .pushNodeName row.name) ∨
      (position = 3 ∧ action = .pushNodeFile row.file) ∨
      (position = 4 ∧ action = .pushNodeLine row.line) ∨
      (position = 5 ∧ action = .pushNodeColumn row.column) := by
  match position with
  | 0 | 1 | 2 | 3 | 4 | 5 => simpa [addNodeActions, eq_comm] using h
  | _ + 6 => simp [addNodeActions] at h

theorem addEdgeActions_cases {row : EdgeRow} {position : Nat} {action : BuildAction}
    (h : (addEdgeActions row)[position]? = some action) :
    (position = 0 ∧ action = .fetchAddEdgeId) ∨
      (position = 1 ∧ action = .pushEdgeSource row.source) ∨
      (position = 2 ∧ action = .pushEdgeTarget row.target) ∨
      (position = 3 ∧ action = .pushEdgeType row.edgeType) := by
  match position with
  | 0 | 1 | 2 | 3 => simpa [addEdgeActions, eq_comm] using h
  | _ + 4 => simp [addEdgeActions] at h

section Logs

variable {nodes : List NodeRow} {edges : List EdgeRow}

/-- The node half of a configuration, explained by a log: each column shows the
entries of the calls in the order of their pushes, and the ids count the draws
modulo `2 ^ 32`. -/
structure NodesLogged (config : BuildConfig nodes edges)
    (log : AppendLog (Fin nodes.length) 5) : Prop where
  consistent : log.Consistent (config.pc ∘ Sum.inl)
  nodeLabels : config.shared.nodeLabels = (log.order 0).map fun i => (nodes.get i).label
  nodeNames : config.shared.nodeNames = (log.order 1).map fun i => (nodes.get i).name
  nodeFiles : config.shared.nodeFiles = (log.order 2).map fun i => (nodes.get i).file
  nodeLines : config.shared.nodeLines = (log.order 3).map fun i => (nodes.get i).line
  nodeColumns : config.shared.nodeColumns = (log.order 4).map fun i => (nodes.get i).column
  counter : config.shared.nextNodeId = UInt32.ofNat log.drawn.length
  ticket : ∀ (i : Fin nodes.length) (id : UInt32),
    config.regs (Sum.inl i) = some id ↔ ∃ n, log.drawn[n]? = some i ∧ id = UInt32.ofNat n

/-- The edge half of a configuration, explained by a log. -/
structure EdgesLogged (config : BuildConfig nodes edges)
    (log : AppendLog (Fin edges.length) 3) : Prop where
  consistent : log.Consistent (config.pc ∘ Sum.inr)
  edgeSources : config.shared.edgeSources = (log.order 0).map fun i => (edges.get i).source
  edgeTargets : config.shared.edgeTargets = (log.order 1).map fun i => (edges.get i).target
  edgeTypes : config.shared.edgeTypes = (log.order 2).map fun i => (edges.get i).edgeType
  counter : config.shared.nextEdgeId = UInt32.ofNat log.drawn.length

/-- All five orders of pushes follow the order of draws, up to calls with the same entry.
The log of an interleaving decides this without running it. -/
def AllAligned (log : AppendLog (Fin nodes.length) 5) : Prop :=
  log.Aligned (fun i => (nodes.get i).label) 0 ∧
    log.Aligned (fun i => (nodes.get i).name) 1 ∧
    log.Aligned (fun i => (nodes.get i).file) 2 ∧
    log.Aligned (fun i => (nodes.get i).line) 3 ∧
    log.Aligned (fun i => (nodes.get i).column) 4

/-- Every finished row holds the source and the target of the call that pushed
its type. -/
def RowsWhole (config : BuildConfig nodes edges)
    (log : AppendLog (Fin edges.length) 3) : Prop :=
  ∀ (n : Nat) (i : Fin edges.length), (log.order 2)[n]? = some i →
    config.shared.edgeSources[n]? = some (edges.get i).source ∧
      config.shared.edgeTargets[n]? = some (edges.get i).target

theorem nodesLogged_start : NodesLogged (buildStart nodes edges) AppendLog.empty where
  consistent := AppendLog.consistent_empty
  nodeLabels := rfl
  nodeNames := rfl
  nodeFiles := rfl
  nodeLines := rfl
  nodeColumns := rfl
  counter := rfl
  ticket := by simp [buildStart]

theorem edgesLogged_start : EdgesLogged (buildStart nodes edges) AppendLog.empty where
  consistent := AppendLog.consistent_empty
  edgeSources := rfl
  edgeTargets := rfl
  edgeTypes := rfl
  counter := rfl

/-- How the log grows when node call `i` takes the action at `position`. -/
def nodeLogStep (log : AppendLog (Fin nodes.length) 5) (i : Fin nodes.length)
    (position : Nat) : AppendLog (Fin nodes.length) 5 :=
  match position with
  | 0 => log.draw i
  | 1 => log.push 0 i
  | 2 => log.push 1 i
  | 3 => log.push 2 i
  | 4 => log.push 3 i
  | _ => log.push 4 i

theorem advance_pc_comp_inl (config : BuildConfig nodes edges) (i : Fin nodes.length)
    (action : BuildAction) :
    (advance BuildAction.exec (Sum.inl i) action config).pc ∘ Sum.inl =
      Function.update (config.pc ∘ Sum.inl) i (config.pc (Sum.inl i) + 1) :=
  Function.update_comp_eq_of_injective _ Sum.inl_injective _ _

theorem advance_pc_comp_inr (config : BuildConfig nodes edges) (i : Fin edges.length)
    (action : BuildAction) :
    (advance BuildAction.exec (Sum.inr i) action config).pc ∘ Sum.inr =
      Function.update (config.pc ∘ Sum.inr) i (config.pc (Sum.inr i) + 1) :=
  Function.update_comp_eq_of_injective _ Sum.inr_injective _ _

theorem advance_regs_of_push (config : BuildConfig nodes edges) (i : BuildCall nodes edges)
    (action : BuildAction)
    (hPush : ∀ graph id, (action.exec graph id).2 = id) :
    (advance BuildAction.exec i action config).regs = config.regs := by
  simp [advance, hPush]

theorem NodesLogged.advance_inl {config : BuildConfig nodes edges}
    {log : AppendLog (Fin nodes.length) 5} (h : NodesLogged config log)
    (i : Fin nodes.length) {action : BuildAction}
    (hAction : (addNodeActions (nodes.get i))[config.pc (Sum.inl i)]? = some action) :
    NodesLogged (advance BuildAction.exec (Sum.inl i) action config)
      (nodeLogStep log i (config.pc (Sum.inl i))) := by
  rcases addNodeActions_cases hAction with
    ⟨hpc, rfl⟩ | ⟨hpc, rfl⟩ | ⟨hpc, rfl⟩ | ⟨hpc, rfl⟩ | ⟨hpc, rfl⟩ | ⟨hpc, rfl⟩ <;>
    rw [hpc] <;> constructor
  case inl.consistent =>
    rw [advance_pc_comp_inl, hpc]
    exact h.consistent.draw hpc
  case inl.ticket =>
    -- a call at its first action holds no ticket, so the new one is its only one
    have hFresh : ∀ n : Nat, log.drawn[n]? ≠ some i := by
      intro n hn
      have := (h.consistent.mem_drawn i).mp (List.mem_of_getElem? hn)
      simp [hpc] at this
    intro k id
    simp only [nodeLogStep, AppendLog.getElem?_draw_eq_some_iff]
    by_cases hk : k = i
    · subst hk
      simp [BuildAction.exec, hFresh, h.counter, eq_comm]
    · rw [advance_regs_of_ne _ (by simpa using hk)]
      simp [hk, h.ticket]
  all_goals try
    rw [advance_pc_comp_inl, hpc]
    exact h.consistent.push hpc
  all_goals try
    rw [advance_regs_of_push _ _ _ fun _ _ => rfl]
    exact h.ticket
  all_goals
    simp [advance, BuildAction.exec, nodeLogStep, AppendLog.push, h.nodeLabels,
      h.nodeNames, h.nodeFiles, h.nodeLines, h.nodeColumns, h.counter]

theorem EdgesLogged.advance_inl {config : BuildConfig nodes edges}
    {log : AppendLog (Fin edges.length) 3} (h : EdgesLogged config log)
    (i : Fin nodes.length) {action : BuildAction}
    (hAction : (addNodeActions (nodes.get i))[config.pc (Sum.inl i)]? = some action) :
    EdgesLogged (advance BuildAction.exec (Sum.inl i) action config) log := by
  have hPc : (advance BuildAction.exec (Sum.inl i) action config).pc ∘ Sum.inr =
      config.pc ∘ Sum.inr := by
    funext k
    simp [advance]
  obtain ⟨hConsistent, hSources, hTargets, hTypes, hCounter⟩ := h
  rw [← hPc] at hConsistent
  rcases addNodeActions_cases hAction with
    ⟨-, rfl⟩ | ⟨-, rfl⟩ | ⟨-, rfl⟩ | ⟨-, rfl⟩ | ⟨-, rfl⟩ | ⟨-, rfl⟩ <;>
    exact ⟨hConsistent, hSources, hTargets, hTypes, hCounter⟩

/-- How the log grows when edge call `i` takes the action at `position`. -/
def edgeLogStep (log : AppendLog (Fin edges.length) 3) (i : Fin edges.length)
    (position : Nat) : AppendLog (Fin edges.length) 3 :=
  match position with
  | 0 => log.draw i
  | 1 => log.push 0 i
  | 2 => log.push 1 i
  | _ => log.push 2 i

theorem EdgesLogged.advance_inr {config : BuildConfig nodes edges}
    {log : AppendLog (Fin edges.length) 3} (h : EdgesLogged config log)
    (i : Fin edges.length) {action : BuildAction}
    (hAction : (addEdgeActions (edges.get i))[config.pc (Sum.inr i)]? = some action) :
    EdgesLogged (advance BuildAction.exec (Sum.inr i) action config)
      (edgeLogStep log i (config.pc (Sum.inr i))) := by
  rcases addEdgeActions_cases hAction with
    ⟨hpc, rfl⟩ | ⟨hpc, rfl⟩ | ⟨hpc, rfl⟩ | ⟨hpc, rfl⟩ <;> rw [hpc] <;> constructor
  case inl.consistent =>
    rw [advance_pc_comp_inr, hpc]
    exact h.consistent.draw hpc
  all_goals try
    rw [advance_pc_comp_inr, hpc]
    exact h.consistent.push hpc
  all_goals
    simp [advance, BuildAction.exec, edgeLogStep, AppendLog.push, h.edgeSources,
      h.edgeTargets, h.edgeTypes, h.counter]

theorem NodesLogged.advance_inr {config : BuildConfig nodes edges}
    {log : AppendLog (Fin nodes.length) 5} (h : NodesLogged config log)
    (i : Fin edges.length) {action : BuildAction}
    (hAction : (addEdgeActions (edges.get i))[config.pc (Sum.inr i)]? = some action) :
    NodesLogged (advance BuildAction.exec (Sum.inr i) action config) log := by
  have hPc : (advance BuildAction.exec (Sum.inr i) action config).pc ∘ Sum.inl =
      config.pc ∘ Sum.inl := by
    funext k
    simp [advance]
  have hTicket : ∀ (k : Fin nodes.length) (id : UInt32),
      (advance BuildAction.exec (Sum.inr i) action config).regs (Sum.inl k) = some id ↔
        ∃ n, log.drawn[n]? = some k ∧ id = UInt32.ofNat n := by
    intro k id
    rw [advance_regs_of_ne _ (by simp)]
    exact h.ticket k id
  obtain ⟨hConsistent, hLabels, hNames, hFiles, hLines, hColumns, hCounter, -⟩ := h
  rw [← hPc] at hConsistent
  rcases addEdgeActions_cases hAction with ⟨-, rfl⟩ | ⟨-, rfl⟩ | ⟨-, rfl⟩ | ⟨-, rfl⟩ <;>
    exact ⟨hConsistent, hLabels, hNames, hFiles, hLines, hColumns, hCounter, hTicket⟩

/-- A configuration that logs explain: one log for the node calls and one for the edge
calls, each consistent with the positions of its calls, and the graph is what they tell.
-/
def Logged (config : BuildConfig nodes edges) : Prop :=
  ∃ (nodeLog : AppendLog (Fin nodes.length) 5) (edgeLog : AppendLog (Fin edges.length) 3),
    NodesLogged config nodeLog ∧ EdgesLogged config edgeLog

theorem logged_start : Logged (buildStart nodes edges) :=
  ⟨AppendLog.empty, AppendLog.empty, nodesLogged_start, edgesLogged_start⟩

/-- Step lemma: logs explain the configuration after any action.  The cases are the
positions of the two programs; a call of one kind leaves the log of the other alone. -/
theorem Logged.advance (config : BuildConfig nodes edges) (call : BuildCall nodes edges)
    (action : BuildAction) (h : Logged config)
    (hAction : (buildProgram nodes edges call)[config.pc call]? = some action) :
    Logged (advance BuildAction.exec call action config) := by
  obtain ⟨nodeLog, edgeLog, hNodes, hEdges⟩ := h
  cases call with
  | inl i => exact ⟨_, edgeLog, hNodes.advance_inl i hAction, hEdges.advance_inl i hAction⟩
  | inr i => exact ⟨nodeLog, _, hNodes.advance_inr i hAction, hEdges.advance_inr i hAction⟩

/-- Run lemma: logs explain every reachable configuration.  Everything that is proved of
concurrent builds starts from the two logs. -/
theorem logged_buildRun (schedule : List (BuildCall nodes edges)) :
    Logged (buildRun nodes edges schedule) :=
  run_invariant _ _ _ Logged.advance schedule _ logged_start

/-- In a configuration where every call has returned, every node call is at
position `6`. -/
theorem pc_comp_inl_of_returned {config : BuildConfig nodes edges}
    (h : Returned (buildProgram nodes edges) config) (i : Fin nodes.length) :
    (config.pc ∘ Sum.inl) i = 6 := h (Sum.inl i)

/-- In a configuration where every call has returned, every edge call is at
position `4`. -/
theorem pc_comp_inr_of_returned {config : BuildConfig nodes edges}
    (h : Returned (buildProgram nodes edges) config) (i : Fin edges.length) :
    (config.pc ∘ Sum.inr) i = 4 := h (Sum.inr i)

end Logs

end Graph
end CodebaseMem
