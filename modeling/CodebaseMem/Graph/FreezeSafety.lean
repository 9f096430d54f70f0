import CodebaseMem.Graph.Adjacency
import CodebaseMem.Graph.ConcurrentBuild
import Mathlib.Data.List.Perm.Subperm

/-!
# Freezing after a concurrent build

The second pass of the reverse builder writes into uninitialised memory without a
check.  When it does not go wrong it writes every slot exactly once: no slot may be
left unwritten, and there are as many writes as slots.  It does not go wrong after
any concurrent build whose edges lead between nodes that were added, even when
the rows of the edge table are torn.

* `writeLog`: the positions that the second pass writes, in order.  The log only watches:
  it is projected away to give the builder itself.
* `exists_writeLog_perm`: when the builder returns, its writes enumerate the slots.
* `EndpointsReturned`: every endpoint is an id that some `add_node` call has returned.
* `FreezeSafe`, `freezeSafe_of_returned`: after every interleaving of calls that have all
  returned, the columns have one length and building the arrays goes wrong nowhere.

`freeze` owns the graph, so no call runs beside it.
-/

namespace CodebaseMem
namespace Graph

open CodebaseMem.Core
open Library
open Library.Interleaving

/-! ### The positions of the writes -/

/-- `placeEdge`, which also appends the position it writes to a log.  The source writes
through a raw pointer, so the positions are what its safety comment is about. -/
def ReverseState.placeEdgeLogged (profile : Profile) (logged : ReverseState × List Nat)
    (edge : EdgeRow) : Exec (ReverseState × List Nat) := do
  let pos ← index logged.1.writePos edge.target.val.toNat
  let s ← logged.1.placeEdge profile edge
  .ok (s, logged.2 ++ [pos.toNat])

/-- The positions that the second pass writes, in the order of the writes.  Both arrays
are written at the same position, so one log serves the two. -/
def writeLog (profile : Profile) (sortedEdges : List EdgeRow) (nodeCount : Nat) :
    Exec (List Nat) := do
  let inCounts ← countIncoming profile sortedEdges nodeCount
  let (offsets, _) ← prefixSums profile inCounts
  let (_, log) ← sortedEdges.foldlM (ReverseState.placeEdgeLogged profile)
    ({ writePos := offsets
       sources := List.replicate sortedEdges.length none
       types := List.replicate sortedEdges.length none }, [])
  .ok log

section Log

variable {profile : Profile}

theorem map_fst_placeEdgeLogged (logged : ReverseState × List Nat) (edge : EdgeRow) :
    (ReverseState.placeEdgeLogged profile logged edge).map Prod.fst =
      logged.1.placeEdge profile edge := by
  unfold ReverseState.placeEdgeLogged
  cases hIndex : index logged.1.writePos edge.target.val.toNat with
  | error fault =>
      rw [ReverseState.placeEdge, hIndex]
      rfl
  | ok pos =>
      rw [Exec.ok_bind]
      cases logged.1.placeEdge profile edge <;> rfl

theorem map_fst_foldlM_placeEdgeLogged (edges : List EdgeRow)
    (logged : ReverseState × List Nat) :
    (edges.foldlM (ReverseState.placeEdgeLogged profile) logged).map Prod.fst =
      edges.foldlM (ReverseState.placeEdge profile) logged.1 := by
  induction edges generalizing logged with
  | nil => rfl
  | cons edge edges ih =>
      rw [List.foldlM_cons, List.foldlM_cons, ← map_fst_placeEdgeLogged]
      cases ReverseState.placeEdgeLogged profile logged edge with
      | error fault => rfl
      | ok next => exact ih next

theorem placeEdgeLogged_eq_ok {logged logged' : ReverseState × List Nat} {edge : EdgeRow}
    (h : ReverseState.placeEdgeLogged profile logged edge = .ok logged') :
    ∃ pos, logged'.2 = logged.2 ++ [pos] ∧
      logged'.1.sources = logged.1.sources.set pos (some edge.source) := by
  obtain ⟨pos, hIndex, h⟩ := Exec.of_bind_eq_ok h
  obtain ⟨s, hPlace, h⟩ := Exec.of_bind_eq_ok h
  obtain rfl := Except.ok.inj h
  rw [ReverseState.placeEdge, hIndex, Exec.ok_bind] at hPlace
  obtain ⟨sources, hSources, hPlace⟩ := Exec.of_bind_eq_ok hPlace
  obtain ⟨types, -, hPlace⟩ := Exec.of_bind_eq_ok hPlace
  obtain ⟨next, -, hPlace⟩ := Exec.of_bind_eq_ok hPlace
  obtain rfl := Except.ok.inj hPlace
  refine ⟨pos.toNat, rfl, ?_⟩
  rw [writeSlot] at hSources
  split at hSources
  · exact (Except.ok.inj hSources).symm
  · cases hSources

/-- After the edges `done` the log has one entry for each of them, and every slot
that is not empty is in the log. -/
structure LogHolds (slotCount : Nat) (done : List EdgeRow) (logged : ReverseState × List Nat) :
    Prop where
  slots : logged.1.sources.length = slotCount
  count : logged.2.length = done.length
  written : ∀ (pos : Nat) (source : NodeId), logged.1.sources[pos]? = some (some source) →
    pos ∈ logged.2

theorem LogHolds.step {slotCount : Nat} {done : List EdgeRow}
    {logged logged' : ReverseState × List Nat} {edge : EdgeRow}
    (h : LogHolds slotCount done logged)
    (hStep : ReverseState.placeEdgeLogged profile logged edge = .ok logged') :
    LogHolds slotCount (done ++ [edge]) logged' := by
  obtain ⟨pos, hLog, hSources⟩ := placeEdgeLogged_eq_ok hStep
  refine ⟨by rw [hSources, List.length_set, h.slots], ?_, ?_⟩
  · rw [hLog, List.length_append, List.length_append, h.count, List.length_singleton,
      List.length_singleton]
  · intro other source hOther
    rw [hSources, List.getElem?_set] at hOther
    rw [hLog, List.mem_append, List.mem_singleton]
    by_cases hEq : pos = other
    · exact .inr hEq.symm
    · rw [if_neg hEq] at hOther
      exact .inl (h.written other source hOther)

theorem assumeInit_eq_ok {α : Type} {slots : List (Option α)} {values : List α}
    (h : assumeInit slots = .ok values) : slots = values.map some := by
  induction slots generalizing values with
  | nil =>
      obtain rfl := Except.ok.inj h
      rfl
  | cons slot slots ih =>
      cases slot with
      | none => cases h
      | some value =>
          obtain ⟨rest, hRest, h⟩ := Exec.of_bind_eq_ok h
          obtain rfl := Except.ok.inj h
          rw [List.map_cons, ih hRest]

/-- When the reverse builder returns, its writes enumerate the slots.  There are as many
writes as slots, and a slot that was missed would have been read before it was written.
-/
theorem exists_writeLog_perm {edges : List EdgeRow} {nodeCount : Nat}
    {arrays : List UInt32 × List NodeId × List EdgeType}
    (h : buildReverseCsr profile edges nodeCount = .ok arrays) :
    ∃ log, writeLog profile edges nodeCount = .ok log ∧ log.Perm (List.range edges.length) := by
  obtain ⟨inCounts, hCount, h⟩ := Exec.of_bind_eq_ok h
  obtain ⟨⟨offsets, sum⟩, hSums, h⟩ := Exec.of_bind_eq_ok h
  obtain ⟨s, hPlaced, h⟩ := Exec.of_bind_eq_ok h
  obtain ⟨sources, hSources, -⟩ := Exec.of_bind_eq_ok h
  have hWatched := @map_fst_foldlM_placeEdgeLogged profile edges
    ({ writePos := offsets
       sources := List.replicate edges.length none
       types := List.replicate edges.length none }, [])
  rw [hPlaced] at hWatched
  cases hLoop : edges.foldlM (ReverseState.placeEdgeLogged profile)
      ({ writePos := offsets
         sources := List.replicate edges.length none
         types := List.replicate edges.length none }, []) with
  | error fault =>
      rw [hLoop] at hWatched
      cases hWatched
  | ok logged =>
      rw [hLoop] at hWatched
      obtain rfl : logged.1 = s := Except.ok.inj hWatched
      have hHolds := foldlM_invariant (ReverseState.placeEdgeLogged profile)
        (LogHolds edges.length) ⟨List.length_replicate .., rfl, by simp [List.getElem?_replicate]⟩
        (fun done edge logged logged' hDone hStep => hDone.step hStep) hLoop
      refine ⟨logged.2, ?_, ?_⟩
      · rw [writeLog, hCount, Exec.ok_bind, hSums, Exec.ok_bind]
        dsimp only
        rw [hLoop]
        rfl
      -- every slot was written, and there are as many writes as slots
      have hCover : List.range edges.length ⊆ logged.2 := by
        intro pos hPos
        have hInit := assumeInit_eq_ok hSources
        have hLt : pos < sources.length := by
          rw [← List.length_map (f := some), ← hInit, hHolds.slots]
          exact List.mem_range.mp hPos
        refine hHolds.written pos sources[pos] ?_
        rw [hInit, List.getElem?_map, List.getElem?_eq_getElem hLt, Option.map_some]
      refine ((List.nodup_range.subperm hCover).perm_of_length_le ?_).symm
      rw [hHolds.count, List.length_range]

end Log

/-! ### Concurrent builds -/

/-- Every endpoint of `edges` is an id that some `add_node` call of the build has
returned. -/
def EndpointsReturned {nodes : List NodeRow} {edges : List EdgeRow}
    (config : BuildConfig nodes edges) : Prop :=
  ∀ edge ∈ edges,
    (∃ i : Fin nodes.length, config.regs (.inl i) = some edge.source.val) ∧
    ∃ i : Fin nodes.length, config.regs (.inl i) = some edge.target.val

instance {nodes : List NodeRow} {edges : List EdgeRow} (config : BuildConfig nodes edges) :
    Decidable (EndpointsReturned config) :=
  inferInstanceAs (Decidable (∀ edge ∈ edges, _ ∧ _))

/-- The columns have one entry for each call, and building the adjacency arrays from
them goes wrong nowhere: no index is out of range, and the unchecked writes hit every
slot exactly once.  The forward builder only pushes, so it has no index to get wrong. -/
structure FreezeSafe (profile : Profile) (graph : MutableGraph) (nodeCount edgeCount : Nat) :
    Prop where
  nodeLabels : graph.nodeLabels.length = nodeCount
  nodeNames : graph.nodeNames.length = nodeCount
  nodeFiles : graph.nodeFiles.length = nodeCount
  nodeLines : graph.nodeLines.length = nodeCount
  nodeColumns : graph.nodeColumns.length = nodeCount
  edgeSources : graph.edgeSources.length = edgeCount
  edgeTargets : graph.edgeTargets.length = edgeCount
  edgeTypes : graph.edgeTypes.length = edgeCount
  endpoints : ∀ edge ∈ graph.zippedEdges, edge.sourceIdx < graph.nodeLabels.length ∧
    edge.targetIdx < graph.nodeLabels.length
  reverse : ∃ arrays, buildReverseCsr profile (sortEdges graph.zippedEdges)
    graph.nodeLabels.length = .ok arrays
  writes : ∃ log, writeLog profile (sortEdges graph.zippedEdges) graph.nodeLabels.length = .ok log ∧
    (∀ pos ∈ log, pos < edgeCount) ∧ log.Nodup ∧ ∀ pos < edgeCount, pos ∈ log

theorem length_zippedEdges {graph : MutableGraph} {edgeCount : Nat}
    (hSources : graph.edgeSources.length = edgeCount)
    (hTargets : graph.edgeTargets.length = edgeCount)
    (hTypes : graph.edgeTypes.length = edgeCount) : graph.zippedEdges.length = edgeCount := by
  calc graph.zippedEdges.length
    _ = min (min graph.edgeSources.length graph.edgeTargets.length) graph.edgeTypes.length := by
      rw [MutableGraph.zippedEdges, List.length_map, List.length_zip, List.length_zip]
    _ = edgeCount := by rw [hSources, hTargets, hTypes, Nat.min_self, Nat.min_self]

theorem mem_columns_of_mem_zippedEdges {graph : MutableGraph} {edge : EdgeRow}
    (h : edge ∈ graph.zippedEdges) :
    edge.source ∈ graph.edgeSources ∧ edge.target ∈ graph.edgeTargets := by
  obtain ⟨⟨⟨source, target⟩, edgeType⟩, hEntry, rfl⟩ := List.mem_map.mp h
  have hPair := (List.of_mem_zip hEntry).1
  exact ⟨(List.of_mem_zip hPair).1, (List.of_mem_zip hPair).2⟩

section Returned

variable {nodes : List NodeRow} {edges : List EdgeRow} {config : BuildConfig nodes edges}

theorem NodesLogged.toNat_lt {log : AppendLog (Fin nodes.length) 5}
    (h : NodesLogged config log) (hNodes : nodes.length < 2 ^ 32)
    (hReturned : Returned (buildProgram nodes edges) config) {i : Fin nodes.length} {id : UInt32}
    (hId : config.regs (.inl i) = some id) : id.toNat < nodes.length := by
  obtain ⟨n, hDrawn, rfl⟩ := (h.ticket i id).mp hId
  have hLt := (List.getElem?_eq_some_iff.mp hDrawn).1
  have hLength := (h.consistent.drawn_perm (pc_comp_inl_of_returned hReturned)).length_eq
  rw [List.length_finRange] at hLength
  rw [toNat_ofNat_u32 (by omega)]
  omega

theorem NodesLogged.length_order {log : AppendLog (Fin nodes.length) 5}
    (h : NodesLogged config log) (hReturned : Returned (buildProgram nodes edges) config)
    (j : Fin 5) : (log.order j).length = nodes.length := by
  rw [(h.consistent.order_perm (pc_comp_inl_of_returned hReturned) j).length_eq,
    List.length_finRange]

theorem EdgesLogged.length_order {log : AppendLog (Fin edges.length) 3}
    (h : EdgesLogged config log) (hReturned : Returned (buildProgram nodes edges) config)
    (j : Fin 3) : (log.order j).length = edges.length := by
  rw [(h.consistent.order_perm (pc_comp_inr_of_returned hReturned) j).length_eq,
    List.length_finRange]

theorem NodesLogged.length_columns {log : AppendLog (Fin nodes.length) 5}
    (h : NodesLogged config log) (hReturned : Returned (buildProgram nodes edges) config) :
    config.shared.nodeLabels.length = nodes.length ∧
      config.shared.nodeNames.length = nodes.length ∧
      config.shared.nodeFiles.length = nodes.length ∧
      config.shared.nodeLines.length = nodes.length ∧
      config.shared.nodeColumns.length = nodes.length := by
  have hOrder := h.length_order hReturned
  refine ⟨?_, ?_, ?_, ?_, ?_⟩
  · rw [h.nodeLabels, List.length_map, hOrder]
  · rw [h.nodeNames, List.length_map, hOrder]
  · rw [h.nodeFiles, List.length_map, hOrder]
  · rw [h.nodeLines, List.length_map, hOrder]
  · rw [h.nodeColumns, List.length_map, hOrder]

theorem EdgesLogged.length_columns {log : AppendLog (Fin edges.length) 3}
    (h : EdgesLogged config log) (hReturned : Returned (buildProgram nodes edges) config) :
    config.shared.edgeSources.length = edges.length ∧
      config.shared.edgeTargets.length = edges.length ∧
      config.shared.edgeTypes.length = edges.length := by
  have hOrder := h.length_order hReturned
  refine ⟨?_, ?_, ?_⟩
  · rw [h.edgeSources, List.length_map, hOrder]
  · rw [h.edgeTargets, List.length_map, hOrder]
  · rw [h.edgeTypes, List.length_map, hOrder]

/-- Every row of the edge table leads from a node to a node.  The row may mix the
arguments of several calls, but each of them is an id that was returned. -/
theorem EdgesLogged.endpoints_lt {edgeLog : AppendLog (Fin edges.length) 3}
    (hEdgeLog : EdgesLogged config edgeLog) {nodeLog : AppendLog (Fin nodes.length) 5}
    (hNodeLog : NodesLogged config nodeLog) (hNodes : nodes.length < 2 ^ 32)
    (hReturned : Returned (buildProgram nodes edges) config)
    (hEndpoints : EndpointsReturned config) {edge : EdgeRow}
    (hEdge : edge ∈ config.shared.zippedEdges) :
    edge.sourceIdx < nodes.length ∧ edge.targetIdx < nodes.length := by
  obtain ⟨hSource, hTarget⟩ := mem_columns_of_mem_zippedEdges hEdge
  rw [hEdgeLog.edgeSources, List.mem_map] at hSource
  rw [hEdgeLog.edgeTargets, List.mem_map] at hTarget
  obtain ⟨k, -, hk⟩ := hSource
  obtain ⟨l, -, hl⟩ := hTarget
  obtain ⟨i, hi⟩ := (hEndpoints _ (List.get_mem edges k)).1
  obtain ⟨j, hj⟩ := (hEndpoints _ (List.get_mem edges l)).2
  rw [hk] at hi
  rw [hl] at hj
  exact ⟨hNodeLog.toNat_lt hNodes hReturned hi, hNodeLog.toNat_lt hNodes hReturned hj⟩

end Returned

/-- After every interleaving of `add_node` and `add_edge` calls that have all
returned, freezing is safe. -/
theorem freezeSafe_of_returned (profile : Profile) (nodes : List NodeRow) (edges : List EdgeRow)
    (hNodes : nodes.length < 2 ^ 32) (hEdges : edges.length < 2 ^ 32)
    (schedule : List (BuildCall nodes edges))
    (hReturned : Returned (buildProgram nodes edges) (buildRun nodes edges schedule))
    (hEndpoints : EndpointsReturned (buildRun nodes edges schedule)) :
    FreezeSafe profile (buildRun nodes edges schedule).shared nodes.length edges.length := by
  obtain ⟨nodeLog, edgeLog, hNodeLog, hEdgeLog⟩ := logged_buildRun schedule
  obtain ⟨hLabels, hNames, hFiles, hLines, hColumns⟩ := hNodeLog.length_columns hReturned
  obtain ⟨hSources, hTargets, hTypes⟩ := hEdgeLog.length_columns hReturned
  -- a torn row takes its two ends from two calls, and each of them is a returned id
  have hRows : ∀ edge ∈ (buildRun nodes edges schedule).shared.zippedEdges,
      edge.sourceIdx < nodes.length ∧ edge.targetIdx < nodes.length :=
    fun edge hEdge => hEdgeLog.endpoints_lt hNodeLog hNodes hReturned hEndpoints hEdge
  have hCount : (sortEdges (buildRun nodes edges schedule).shared.zippedEdges).length =
      edges.length := by
    rw [length_sortEdges, length_zippedEdges hSources hTargets hTypes]
  rw [← hLabels] at hRows
  have hReverse := buildReverseCsr_eq profile
    (fun edge hEdge => (hRows edge (mem_sortEdges.mp hEdge)).2) (hCount ▸ hEdges)
  obtain ⟨log, hLog, hPerm⟩ := exists_writeLog_perm hReverse
  rw [hCount] at hPerm
  exact
    { nodeLabels := hLabels
      nodeNames := hNames
      nodeFiles := hFiles
      nodeLines := hLines
      nodeColumns := hColumns
      edgeSources := hSources
      edgeTargets := hTargets
      edgeTypes := hTypes
      endpoints := hRows
      reverse := ⟨_, hReverse⟩
      writes := ⟨log, hLog, fun pos hPos => List.mem_range.mp (hPerm.mem_iff.mp hPos),
        hPerm.nodup_iff.mpr List.nodup_range,
        fun pos hPos => hPerm.mem_iff.mpr (List.mem_range.mpr hPos)⟩ }

/-- Two nodes, and one edge in each direction. -/
def mutualNodes : List NodeRow := [⟨.function, ⟨0⟩, ⟨0⟩, 1, 1⟩, ⟨.class_, ⟨0⟩, ⟨0⟩, 2, 5⟩]

def mutualEdges : List EdgeRow := [⟨⟨0⟩, ⟨1⟩, .calls⟩, ⟨⟨1⟩, ⟨0⟩, .imports⟩]

/-- The nodes are added one after the other.  The second edge passes the first
between the push of its source and the push of its target. -/
def tornSchedule : List (BuildCall mutualNodes mutualEdges) :=
  List.replicate 6 (Sum.inl ⟨0, by decide⟩) ++ List.replicate 6 (Sum.inl ⟨1, by decide⟩) ++
    List.replicate 2 (Sum.inr ⟨0, by decide⟩) ++ List.replicate 4 (Sum.inr ⟨1, by decide⟩) ++
    List.replicate 2 (Sum.inr ⟨0, by decide⟩)

/-- Both rows are torn into self-loops, and freezing them is still safe. -/
theorem freezeSafe_torn :
    (buildRun mutualNodes mutualEdges tornSchedule).shared.zippedEdges =
        [⟨⟨0⟩, ⟨0⟩, .imports⟩, ⟨⟨1⟩, ⟨1⟩, .calls⟩] ∧
      FreezeSafe .dev (buildRun mutualNodes mutualEdges tornSchedule).shared 2 2 :=
  ⟨by decide, freezeSafe_of_returned .dev mutualNodes mutualEdges (by decide) (by decide)
    tornSchedule (by decide) (by decide)⟩

end Graph
end CodebaseMem
