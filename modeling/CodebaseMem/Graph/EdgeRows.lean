import CodebaseMem.Graph.ConcurrentBuild
import Mathlib.Data.Multiset.Basic

/-!
# Edge rows under concurrency

`freeze` zips the three edge columns.  `add_edge` pushes onto them under three
different mutexes, so two calls can pass each other between their pushes and
leave rows that no call asked for.  A row is finished by the push of its type;
this file proves that a run keeps the multiset of its edges when each such push
finds its own source and target in the row it finishes.

* `TriplesKept`: the zipped triples are the triples of the calls, with multiplicity.
* `RowFinished`: the condition on a push of a type, on the columns before it.
* `WholeLogged.advance`, `triplesKept_of_rows_finished`: the step lemma and the run
  lemma.

The condition is not necessary: two calls that pass each other with equal sources and
types keep their triples without it.
-/

namespace CodebaseMem
namespace Graph

open CodebaseMem.Core
open Library
open Library.Interleaving

section Rows

variable {nodes : List NodeRow} {edges : List EdgeRow}

/-- The zipped triples are the triples passed to the calls, counted with
multiplicity. -/
def TriplesKept (config : BuildConfig nodes edges) : Prop :=
  (config.shared.zippedEdges : Multiset EdgeRow) = (edges : Multiset EdgeRow)

/-- A push of an edge type finishes a row that holds the source and the target
of the same call. -/
def RowFinished (config : BuildConfig nodes edges) :
    BuildCall nodes edges → BuildAction → Prop
  | .inr i, .pushEdgeType _ =>
      config.shared.edgeSources[config.shared.edgeTypes.length]? =
          some (edges.get i).source ∧
        config.shared.edgeTargets[config.shared.edgeTypes.length]? =
          some (edges.get i).target
  | _, _ => True

instance (config : BuildConfig nodes edges) (call : BuildCall nodes edges)
    (action : BuildAction) : Decidable (RowFinished config call action) := by
  unfold RowFinished
  split <;> infer_instance

/-- The invariant of runs whose pushes finish their own rows: logs explain the
configuration, and the rows that all three columns have are whole. -/
def WholeLogged (config : BuildConfig nodes edges) : Prop :=
  ∃ (nodeLog : AppendLog (Fin nodes.length) 5) (edgeLog : AppendLog (Fin edges.length) 3),
    NodesLogged config nodeLog ∧ EdgesLogged config edgeLog ∧ RowsWhole config edgeLog

variable {config : BuildConfig nodes edges} {log : AppendLog (Fin edges.length) 3}

theorem wholeLogged_start : WholeLogged (buildStart nodes edges) :=
  ⟨AppendLog.empty, AppendLog.empty, nodesLogged_start, edgesLogged_start, by simp [RowsWhole]⟩

theorem RowsWhole.of_append {other : BuildConfig nodes edges}
    {later : AppendLog (Fin edges.length) 3} (h : RowsWhole config log)
    (hOrder : later.order 2 = log.order 2) (moreSources moreTargets : List NodeId)
    (hSources : other.shared.edgeSources = config.shared.edgeSources ++ moreSources)
    (hTargets : other.shared.edgeTargets = config.shared.edgeTargets ++ moreTargets) :
    RowsWhole other later := by
  intro n i hi
  rw [hOrder] at hi
  obtain ⟨hSource, hTarget⟩ := h n i hi
  constructor
  · rw [hSources, List.getElem?_append_left (List.getElem?_eq_some_iff.mp hSource).1]
    exact hSource
  · rw [hTargets, List.getElem?_append_left (List.getElem?_eq_some_iff.mp hTarget).1]
    exact hTarget

theorem RowsWhole.advance_inr (h : RowsWhole config log) (hEdges : EdgesLogged config log)
    (i : Fin edges.length) {action : BuildAction}
    (hAction : (addEdgeActions (edges.get i))[config.pc (Sum.inr i)]? = some action)
    (hFinished : RowFinished config (Sum.inr i) action) :
    RowsWhole (advance BuildAction.exec (Sum.inr i) action config)
      (edgeLogStep log i (config.pc (Sum.inr i))) := by
  rcases addEdgeActions_cases hAction with
    ⟨hpc, rfl⟩ | ⟨hpc, rfl⟩ | ⟨hpc, rfl⟩ | ⟨hpc, rfl⟩ <;> rw [hpc]
  -- a draw and the pushes of an endpoint finish no row
  · exact h.of_append rfl [] [] (List.append_nil _).symm (List.append_nil _).symm
  · exact h.of_append (AppendLog.push_order_of_ne log (by decide) i)
      [(edges.get i).source] [] rfl (List.append_nil _).symm
  · exact h.of_append (AppendLog.push_order_of_ne log (by decide) i)
      [] [(edges.get i).target] (List.append_nil _).symm rfl
  · intro n k hk
    change ((log.push 2 i).order 2)[n]? = some k at hk
    rw [AppendLog.push_order_self] at hk
    rcases lt_or_ge n (log.order 2).length with hn | hn
    · rw [List.getElem?_append_left hn] at hk
      exact h n k hk
    · -- the push of the type finishes the row that the condition speaks of
      have hLast : n = config.shared.edgeTypes.length := by
        have hLt := (List.getElem?_eq_some_iff.mp hk).1
        rw [List.length_append, List.length_singleton] at hLt
        rw [hEdges.edgeTypes, List.length_map]
        omega
      have hki : k = i := by
        rw [List.getElem?_append_right hn] at hk
        have hMem := List.mem_of_getElem? hk
        simpa using hMem
      subst hLast
      subst hki
      exact hFinished

/-- Step lemma: an action that meets the condition keeps the invariant.  Only the push of
a type finishes a row, so only there is something to show. -/
theorem WholeLogged.advance (config : BuildConfig nodes edges)
    (call : BuildCall nodes edges) (action : BuildAction) (h : WholeLogged config)
    (hAction : (buildProgram nodes edges call)[config.pc call]? = some action)
    (hFinished : RowFinished config call action) :
    WholeLogged (advance BuildAction.exec call action config) := by
  obtain ⟨nodeLog, edgeLog, hNodes, hEdges, hWhole⟩ := h
  cases call with
  | inl i =>
      have hEdges' := hEdges.advance_inl i hAction
      refine ⟨_, edgeLog, hNodes.advance_inl i hAction, hEdges', ?_⟩
      refine hWhole.of_append rfl [] [] ?_ ?_
      · rw [hEdges'.edgeSources, hEdges.edgeSources, List.append_nil]
      · rw [hEdges'.edgeTargets, hEdges.edgeTargets, List.append_nil]
  | inr i =>
      exact ⟨nodeLog, _, hNodes.advance_inr i hAction, hEdges.advance_inr i hAction,
        hWhole.advance_inr hEdges i hAction hFinished⟩

/-- With all rows whole, the zipped triples are those of the calls in the order
of their type pushes. -/
theorem RowsWhole.zippedEdges_eq (h : RowsWhole config log) (hEdges : EdgesLogged config log) :
    config.shared.zippedEdges = (log.order 2).map fun i => edges.get i := by
  apply List.ext_getElem?
  intro n
  rw [MutableGraph.zippedEdges, List.getElem?_map, List.getElem?_map]
  cases hi : (log.order 2)[n]? with
  | none =>
      -- the zip is as short as the column of the types
      have hLen : config.shared.edgeTypes.length ≤ n := by
        rw [hEdges.edgeTypes, List.length_map]
        exact List.getElem?_eq_none_iff.mp hi
      rw [List.getElem?_eq_none]
      · rfl
      · rw [List.length_zip]
        omega
  | some i =>
      obtain ⟨hSource, hTarget⟩ := h n i hi
      have hType : config.shared.edgeTypes[n]? = some (edges.get i).edgeType := by
        rw [hEdges.edgeTypes, List.getElem?_map, hi]
        rfl
      have hPair : (config.shared.edgeSources.zip config.shared.edgeTargets)[n]? =
          some ((edges.get i).source, (edges.get i).target) :=
        List.getElem?_zip_eq_some.mpr ⟨hSource, hTarget⟩
      have hTriple : ((config.shared.edgeSources.zip config.shared.edgeTargets).zip
          config.shared.edgeTypes)[n]? =
          some (((edges.get i).source, (edges.get i).target), (edges.get i).edgeType) :=
        List.getElem?_zip_eq_some.mpr ⟨hPair, hType⟩
      rw [hTriple]
      rfl

end Rows

/-- In every interleaving whose type pushes finish rows of their own call, once
all calls have returned, the zipped columns hold exactly the triples passed to
the calls. -/
theorem triplesKept_of_rows_finished (nodes : List NodeRow) (edges : List EdgeRow)
    (schedule : List (BuildCall nodes edges))
    (hMeet : StepsMeet (buildProgram nodes edges) BuildAction.exec RowFinished schedule
      (buildStart nodes edges))
    (hReturned : Returned (buildProgram nodes edges) (buildRun nodes edges schedule)) :
    TriplesKept (buildRun nodes edges schedule) := by
  obtain ⟨nodeLog, log, -, hEdges, hWhole⟩ :=
    run_invariant_of_stepsMeet WholeLogged.advance schedule _ wholeLogged_start hMeet
  have hPerm : (log.order 2).Perm (List.finRange edges.length) :=
    hEdges.consistent.order_perm (pc_comp_inr_of_returned hReturned) 2
  have hZip : (buildRun nodes edges schedule).shared.zippedEdges =
      (log.order 2).map fun i => edges.get i := hWhole.zippedEdges_eq hEdges
  rw [TriplesKept, hZip, Multiset.coe_eq_coe]
  have hMapped := hPerm.map fun i => edges.get i
  rwa [List.map_get_finRange] at hMapped

/-- Two edges without a common endpoint. -/
def twoEdges : List EdgeRow := [⟨⟨0⟩, ⟨1⟩, .calls⟩, ⟨⟨2⟩, ⟨3⟩, .imports⟩]

/-- The second call passes the first between the push of its source and the push
of its target. -/
def passingSchedule : List (BuildCall [] twoEdges) :=
  List.replicate 2 (Sum.inr ⟨0, by decide⟩) ++ List.replicate 4 (Sum.inr ⟨1, by decide⟩) ++
    List.replicate 2 (Sum.inr ⟨0, by decide⟩)

/-- The calls overlap, but no call passes the other. -/
def inOrderSchedule : List (BuildCall [] twoEdges) :=
  [Sum.inr ⟨0, by decide⟩, Sum.inr ⟨1, by decide⟩, Sum.inr ⟨0, by decide⟩,
    Sum.inr ⟨1, by decide⟩, Sum.inr ⟨0, by decide⟩, Sum.inr ⟨1, by decide⟩,
    Sum.inr ⟨0, by decide⟩, Sum.inr ⟨1, by decide⟩]

/-- Overlapping calls that finish their own rows keep their edges. -/
theorem triplesKept_inOrder : TriplesKept (buildRun [] twoEdges inOrderSchedule) :=
  triplesKept_of_rows_finished [] twoEdges inOrderSchedule
    (by decide) (by decide)

/-- When one call passes another between two pushes, the zipped columns hold
edges that nobody added. -/
theorem not_triplesKept_of_passing :
    ¬ ∀ (edges : List EdgeRow) (schedule : List (BuildCall [] edges)),
      Returned (buildProgram [] edges) (buildRun [] edges schedule) →
        TriplesKept (buildRun [] edges schedule) := by
  intro hAll
  have hKept := hAll twoEdges passingSchedule (by decide)
  rw [TriplesKept, Multiset.coe_eq_coe] at hKept
  revert hKept
  decide

end Graph
end CodebaseMem
