import CodebaseMem.Graph.EdgeRows
import CodebaseMem.Graph.FreezeSafety
import CodebaseMem.Graph.NodeRows

/-!
# Concurrent builds that could have been serial

Everything that holds of a graph built by one call after the other holds of a
concurrent build that leaves the same columns and counters as some serial run of its
calls.  This file shows that the node rows and the edge triples decide whether it does:
nothing else of the interleaving is left in the graph.

* `Serializable`: the graph is that of some sequential run, and each node call returned
  the number of its row there.
* `holds_of_rowsStayWithIds`: rows that stayed with their ids are, in the order of the
  draws, the whole graph.
* `serializable_iff`: the exact condition, for fewer than `2 ^ 32` node calls.
* `RanOneByOne.concat`, `buildRun_oneByOne_eq_build`: the schedules without overlap leave
  exactly what the sequential calls leave, in the order of the schedule.

The serial order need not be the order in which overlapping calls began or returned.
-/

namespace CodebaseMem
namespace Graph

open CodebaseMem.Core
open Library
open Library.Interleaving

/-- The graph is that of one call after the other, and each node call returned the number
of its row in that run. -/
def Serializable {nodes : List NodeRow} {edges : List EdgeRow}
    (config : BuildConfig nodes edges) : Prop :=
  ∃ calls : List Call, config.shared = build calls ∧
    (nodeRows calls).Perm nodes ∧ (edgeRows calls).Perm edges ∧
    ∀ i : Fin nodes.length, ∃ id : UInt32, config.regs (Sum.inl i) = some id ∧
      (nodeRows calls)[id.toNat]? = some (nodes.get i)

theorem Holds.unique {graph other : MutableGraph} {nodes : List NodeRow} {edges : List EdgeRow}
    (h : Holds graph nodes edges) (h' : Holds other nodes edges) : graph = other := by
  obtain ⟨h1, h2, h3, h4, h5, h6, h7, h8, h9, h10⟩ := h
  obtain ⟨h1', h2', h3', h4', h5', h6', h7', h8', h9', h10'⟩ := h'
  cases graph
  cases other
  simp_all

/-- A run that adds the nodes first. -/
def serialCalls (nodes : List NodeRow) (edges : List EdgeRow) : List Call :=
  nodes.map .addNode ++ edges.map .addEdge

@[simp] theorem nodeRows_serialCalls (nodes : List NodeRow) (edges : List EdgeRow) :
    nodeRows (serialCalls nodes edges) = nodes := by
  rw [nodeRows, serialCalls, List.filterMap_append, List.filterMap_map, List.filterMap_map]
  have hNode : Call.nodeRow? ∘ Call.addNode = some := rfl
  have hEdge : Call.nodeRow? ∘ Call.addEdge = fun _ => none := rfl
  rw [hNode, hEdge, List.filterMap_some, List.filterMap_none, List.append_nil]

@[simp] theorem edgeRows_serialCalls (nodes : List NodeRow) (edges : List EdgeRow) :
    edgeRows (serialCalls nodes edges) = edges := by
  rw [edgeRows, serialCalls, List.filterMap_append, List.filterMap_map, List.filterMap_map]
  have hNode : Call.edgeRow? ∘ Call.addNode = fun _ => none := rfl
  have hEdge : Call.edgeRow? ∘ Call.addEdge = some := rfl
  rw [hNode, hEdge, List.filterMap_some, List.filterMap_none, List.nil_append]

section Columns

variable {nodes : List NodeRow} {edges : List EdgeRow} {config : BuildConfig nodes edges}

/-- A node column that agrees with the ids shows the arguments in the order of the
draws. -/
theorem NodesLogged.column_eq {V : Type} {log : AppendLog (Fin nodes.length) 5}
    (h : NodesLogged config log) (hFew : nodes.length < 2 ^ 32)
    (hReturned : Returned (buildProgram nodes edges) config) {j : Fin 5} {column : List V}
    {val : NodeRow → V} (hColumn : column = (log.order j).map fun i => val (nodes.get i))
    (hAgrees : ColumnAgrees config column val) :
    column = (log.drawn.map nodes.get).map val := by
  have hDrawn := h.consistent.drawn_perm (pc_comp_inl_of_returned hReturned)
  have hLength : column.length = log.drawn.length := by
    rw [hColumn, List.length_map, h.length_order hReturned, hDrawn.length_eq,
      List.length_finRange]
  apply List.ext_getElem?
  intro n
  rw [List.getElem?_map, List.getElem?_map]
  cases hn : log.drawn[n]? with
  | none =>
      rw [List.getElem?_eq_none_iff] at hn
      rw [List.getElem?_eq_none (by omega)]
      rfl
  | some i =>
      have hSmall : n < 2 ^ 32 :=
        ((List.getElem?_eq_some_iff.mp hn).1.trans_le h.length_drawn_le).trans hFew
      have hEntry := h.exists_entry hFew hReturned hColumn hn hAgrees
      rwa [UInt32.toNat_ofNat_of_lt' hSmall] at hEntry

theorem MutableGraph.columns_of_zippedEdges {graph : MutableGraph} {n : Nat}
    (hSources : graph.edgeSources.length = n) (hTargets : graph.edgeTargets.length = n)
    (hTypes : graph.edgeTypes.length = n) :
    graph.edgeSources = graph.zippedEdges.map EdgeRow.source ∧
      graph.edgeTargets = graph.zippedEdges.map EdgeRow.target ∧
      graph.edgeTypes = graph.zippedEdges.map EdgeRow.edgeType := by
  have hPairs : (graph.edgeSources.zip graph.edgeTargets).length = n := by
    rw [List.length_zip, hSources, hTargets, min_self]
  have hFst : ((graph.edgeSources.zip graph.edgeTargets).zip graph.edgeTypes).map Prod.fst =
      graph.edgeSources.zip graph.edgeTargets :=
    List.map_fst_zip (hPairs.trans hTypes.symm).le
  have hSnd : ((graph.edgeSources.zip graph.edgeTargets).zip graph.edgeTypes).map Prod.snd =
      graph.edgeTypes := List.map_snd_zip (hTypes.trans hPairs.symm).le
  simp only [MutableGraph.zippedEdges, List.map_map]
  refine ⟨?_, ?_, hSnd.symm⟩
  · have hSource : (graph.edgeSources.zip graph.edgeTargets).map Prod.fst = graph.edgeSources :=
      List.map_fst_zip (hSources.trans hTargets.symm).le
    rw [← hFst, List.map_map] at hSource
    exact hSource.symm
  · have hTarget : (graph.edgeSources.zip graph.edgeTargets).map Prod.snd = graph.edgeTargets :=
      List.map_snd_zip (hTargets.trans hSources.symm).le
    rw [← hFst, List.map_map] at hTarget
    exact hTarget.symm

/-- Rows that stayed with their ids are, in the order of the draws and with the zipped
triples, the whole graph. -/
theorem holds_of_rowsStayWithIds (hFew : nodes.length < 2 ^ 32) (hLogged : Logged config)
    (hReturned : Returned (buildProgram nodes edges) config) (hStay : RowsStayWithIds config) :
    ∃ drawn : List (Fin nodes.length), drawn.Perm (List.finRange nodes.length) ∧
      Holds config.shared (drawn.map nodes.get) config.shared.zippedEdges ∧
      ∀ i : Fin nodes.length, ∃ id : UInt32, config.regs (Sum.inl i) = some id ∧
        drawn[id.toNat]? = some i := by
  -- the serial order is that of the draws, which the log has noted
  have hAgree := (rowsStayWithIds_iff_rowsAgree hFew hLogged hReturned).mp hStay
  obtain ⟨log, edgeLog, hNodes, hEdges⟩ := hLogged
  have hDrawn : log.drawn.Perm (List.finRange nodes.length) :=
    hNodes.consistent.drawn_perm (pc_comp_inl_of_returned hReturned)
  obtain ⟨hLengthS, hLengthT, hLengthTy⟩ := hEdges.length_columns hReturned
  obtain ⟨hSources, hTargets, hTypes⟩ :=
    MutableGraph.columns_of_zippedEdges hLengthS hLengthT hLengthTy
  refine ⟨log.drawn, hDrawn, ?_, fun i => ?_⟩
  · exact
      { nodeLabels := hNodes.column_eq hFew hReturned hNodes.nodeLabels hAgree.labels
        nodeNames := hNodes.column_eq hFew hReturned hNodes.nodeNames hAgree.names
        nodeFiles := hNodes.column_eq hFew hReturned hNodes.nodeFiles hAgree.files
        nodeLines := hNodes.column_eq hFew hReturned hNodes.nodeLines hAgree.lines
        nodeColumns := hNodes.column_eq hFew hReturned hNodes.nodeColumns hAgree.columns
        edgeSources := hSources
        edgeTargets := hTargets
        edgeTypes := hTypes
        nextNodeId := by rw [hNodes.counter, List.length_map]
        nextEdgeId := by
          have hDrawnEdges := hEdges.consistent.drawn_perm (pc_comp_inr_of_returned hReturned)
          rw [hEdges.counter, hDrawnEdges.length_eq, List.length_finRange,
            length_zippedEdges hLengthS hLengthT hLengthTy] }
  · -- the id of a call is its place among the draws
    obtain ⟨n, hn⟩ := List.mem_iff_getElem?.mp (hDrawn.mem_iff.mpr (List.mem_finRange i))
    have hSmall : n < 2 ^ 32 :=
      ((List.getElem?_eq_some_iff.mp hn).1.trans_le hNodes.length_drawn_le).trans hFew
    refine ⟨UInt32.ofNat n, (hNodes.ticket i _).mpr ⟨n, hn, rfl⟩, ?_⟩
    rw [UInt32.toNat_ofNat_of_lt' hSmall, hn]

end Columns

theorem Serializable.intact {nodes : List NodeRow} {edges : List EdgeRow}
    {config : BuildConfig nodes edges} (h : Serializable config) :
    RowsStayWithIds config ∧ TriplesKept config := by
  obtain ⟨calls, hShared, hNodes, hEdges, hIds⟩ := h
  have hHolds : Holds config.shared (nodeRows calls) (edgeRows calls) :=
    hShared ▸ holds_build calls
  refine ⟨fun i => ?_, ?_⟩
  · obtain ⟨id, hId, hRow⟩ := hIds i
    refine ⟨id, hId, ?_, ?_, ?_, ?_, ?_⟩
    · rw [hHolds.nodeLabels, List.getElem?_map, hRow, Option.map_some]
    · rw [hHolds.nodeNames, List.getElem?_map, hRow, Option.map_some]
    · rw [hHolds.nodeFiles, List.getElem?_map, hRow, Option.map_some]
    · rw [hHolds.nodeLines, List.getElem?_map, hRow, Option.map_some]
    · rw [hHolds.nodeColumns, List.getElem?_map, hRow, Option.map_some]
  · rw [TriplesKept, hHolds.zippedEdges, Multiset.coe_eq_coe]
    exact hEdges

/-- For every interleaving of fewer than `2 ^ 32` calls that have all returned, some
serial run of the calls leaves the same graph with the same node ids exactly when the node
rows stayed with their ids and the edge triples were kept. -/
theorem serializable_iff (nodes : List NodeRow) (edges : List EdgeRow)
    (hFew : nodes.length < 2 ^ 32) (schedule : List (BuildCall nodes edges))
    (hReturned : Returned (buildProgram nodes edges) (buildRun nodes edges schedule)) :
    Serializable (buildRun nodes edges schedule) ↔
      RowsStayWithIds (buildRun nodes edges schedule) ∧
        TriplesKept (buildRun nodes edges schedule) := by
  refine ⟨Serializable.intact, ?_⟩
  rintro ⟨hStay, hKept⟩
  obtain ⟨drawn, hDrawn, hHolds, hIds⟩ :=
    holds_of_rowsStayWithIds hFew (logged_buildRun schedule) hReturned hStay
  have hRows : (drawn.map nodes.get).Perm nodes := by
    have hMapped := hDrawn.map nodes.get
    rwa [List.map_get_finRange] at hMapped
  have hSerial := holds_build
    (serialCalls (drawn.map nodes.get) (buildRun nodes edges schedule).shared.zippedEdges)
  rw [nodeRows_serialCalls, edgeRows_serialCalls] at hSerial
  refine ⟨_, hHolds.unique hSerial, ?_, ?_, fun i => ?_⟩
  · rwa [nodeRows_serialCalls]
  · rw [edgeRows_serialCalls]
    exact Multiset.coe_eq_coe.mp hKept
  · obtain ⟨id, hId, hDraw⟩ := hIds i
    refine ⟨id, hId, ?_⟩
    rw [nodeRows_serialCalls, List.getElem?_map, hDraw]
    rfl

/-- A function and a method that calls it. -/
def callerNodes : List NodeRow :=
  [⟨.function, ⟨0⟩, ⟨5⟩, 3, 1⟩, ⟨.method, ⟨9⟩, ⟨5⟩, 8, 5⟩]

def callerEdges : List EdgeRow := [⟨⟨1⟩, ⟨0⟩, .calls⟩]

/-- Two node calls and an edge call overlap, but no call passes another of its kind. -/
def overlappingSchedule : List (BuildCall callerNodes callerEdges) :=
  (List.replicate 4 [Sum.inl ⟨0, by decide⟩, Sum.inr ⟨0, by decide⟩,
    Sum.inl ⟨1, by decide⟩]).flatten ++
    (List.replicate 2 [Sum.inl ⟨0, by decide⟩, Sum.inl ⟨1, by decide⟩]).flatten

theorem serializable_overlapping :
    Serializable (buildRun callerNodes callerEdges overlappingSchedule) := by
  have hStay : RowsStayWithIds (buildRun callerNodes callerEdges overlappingSchedule)
    | ⟨0, _⟩ => ⟨0, rfl, rfl, rfl, rfl, rfl, rfl⟩
    | ⟨1, _⟩ => ⟨1, rfl, rfl, rfl, rfl, rfl, rfl⟩
  exact (serializable_iff callerNodes callerEdges (by decide) overlappingSchedule (by decide)).mpr
    ⟨hStay, rfl⟩

/-! ### Calls that do not overlap -/

def Call.id (graph : MutableGraph) : Call → UInt32
  | .addNode row => (graph.addNode row).2.val
  | .addEdge row => (graph.addEdge row).2.val

/-- The sequential call that a concurrent one should amount to. -/
def callOf (nodes : List NodeRow) (edges : List EdgeRow) : BuildCall nodes edges → Call
  | .inl i => .addNode (nodes.get i)
  | .inr i => .addEdge (edges.get i)

theorem build_concat (calls : List Call) (call : Call) :
    build (calls ++ [call]) = call.apply (build calls) := by
  rw [build, List.foldl_concat]
  rfl

section OneByOne

variable {nodes : List NodeRow} {edges : List EdgeRow}

/-- A call that runs undisturbed is the sequential call. -/
theorem execList_buildProgram (call : BuildCall nodes edges) (graph : MutableGraph)
    (id : Option UInt32) :
    execList BuildAction.exec (buildProgram nodes edges call) graph id =
      ((callOf nodes edges call).apply graph, some ((callOf nodes edges call).id graph)) := by
  cases call with
  | inl i => exact execList_addNodeActions graph (nodes.get i) id
  | inr i => exact execList_addEdgeActions graph (edges.get i) id

/-- One more call, after calls that did not overlap. -/
theorem buildRun_oneByOne_concat {order : List (BuildCall nodes edges)}
    {call : BuildCall nodes edges} (hNew : call ∉ order) :
    let before := buildRun nodes edges (oneByOne (buildProgram nodes edges) order)
    buildRun nodes edges (oneByOne (buildProgram nodes edges) (order ++ [call])) =
      { shared := (callOf nodes edges call).apply before.shared
        pc := Function.update before.pc call (buildProgram nodes edges call).length
        regs := Function.update before.regs call
          (some ((callOf nodes edges call).id before.shared)) } := by
  intro before
  have hRun := @run_oneByOne_concat _ _ _ _ _ (buildProgram nodes edges) BuildAction.exec order call
    (buildStart nodes edges) hNew rfl
  dsimp only at hRun
  rwa [execList_buildProgram] at hRun

/-- The calls of `order` have run one after the other. -/
structure RanOneByOne (order : List (BuildCall nodes edges)) (config : BuildConfig nodes edges) :
    Prop where
  shared : config.shared = build (order.map (callOf nodes edges))
  returned : ∀ call ∈ order, config.pc call = (buildProgram nodes edges call).length
  ids : ∀ before call after, order = before ++ call :: after →
    config.regs call =
      some ((callOf nodes edges call).id (build (before.map (callOf nodes edges))))

/-- Step lemma: one more call runs to its end.  The earlier calls keep their registers,
and the graph they left is the one that the new call starts from. -/
theorem RanOneByOne.concat {order : List (BuildCall nodes edges)} {call : BuildCall nodes edges}
    (hNew : call ∉ order)
    (h : RanOneByOne order (buildRun nodes edges (oneByOne (buildProgram nodes edges) order))) :
    RanOneByOne (order ++ [call])
      (buildRun nodes edges (oneByOne (buildProgram nodes edges) (order ++ [call]))) := by
  rw [buildRun_oneByOne_concat hNew]
  constructor
  · dsimp only
    rw [h.shared, List.map_append, List.map_singleton, build_concat]
  · intro other hOther
    dsimp only
    by_cases hSame : other = call
    · rw [hSame, Function.update_self]
    · rw [Function.update_of_ne hSame]
      have hEarlier : other ∈ order := by simpa [hSame] using hOther
      exact h.returned other hEarlier
  · intro before other after hSplit
    dsimp only
    rcases List.eq_nil_or_concat after with rfl | ⟨later, last, rfl⟩
    · -- the new call itself
      obtain ⟨rfl, rfl⟩ := List.append_singleton_inj.mp hSplit
      rw [Function.update_self, h.shared]
    · -- an earlier call, whose register the new one leaves alone
      obtain ⟨rfl, rfl⟩ : order = before ++ other :: later ∧ call = last := by
        rw [List.concat_eq_append, ← List.cons_append, ← List.append_assoc] at hSplit
        exact List.append_singleton_inj.mp hSplit
      have hOther : other ≠ call := by
        rintro rfl
        exact hNew (by simp)
      rw [Function.update_of_ne hOther]
      exact h.ids before other later rfl

/-- Run lemma: the calls of any list without repetitions run one after the other. -/
theorem ranOneByOne {order : List (BuildCall nodes edges)} (hNodup : order.Nodup) :
    RanOneByOne order (buildRun nodes edges (oneByOne (buildProgram nodes edges) order)) := by
  induction order using List.reverseRecOn with
  | nil => exact ⟨rfl, by simp, by simp⟩
  | append_singleton order call ih =>
      rw [List.nodup_append] at hNodup
      have hNew : call ∉ order := fun hMem =>
        hNodup.2.2 call hMem call List.mem_cons_self rfl
      exact (ih hNodup.1).concat hNew

theorem nodeRows_map_callOf (order : List (BuildCall nodes edges)) :
    nodeRows (order.map (callOf nodes edges)) =
      (order.filterMap Sum.getLeft?).map nodes.get := by
  rw [nodeRows, List.filterMap_map, List.map_filterMap]
  congr 1
  funext call
  cases call <;> rfl

theorem edgeRows_map_callOf (order : List (BuildCall nodes edges)) :
    edgeRows (order.map (callOf nodes edges)) =
      (order.filterMap Sum.getRight?).map edges.get := by
  rw [edgeRows, List.filterMap_map, List.map_filterMap]
  congr 1
  funext call
  cases call <;> rfl

/-- The elements that a partial injection is defined on, in any order without repetitions
and gaps, have all its values. -/
theorem filterMap_perm_finRange {α : Type} {n : Nat} {f : α → Option (Fin n)} {order : List α}
    (hNodup : order.Nodup) (hInjective : ∀ a a' i, f a = some i → f a' = some i → a = a')
    (hOnto : ∀ i, ∃ a ∈ order, f a = some i) :
    (order.filterMap f).Perm (List.finRange n) := by
  have hNodup' : (order.filterMap f).Nodup := hNodup.filterMap fun a a' i hi hi' =>
    hInjective a a' i (Option.mem_def.mp hi) (Option.mem_def.mp hi')
  refine (List.perm_ext_iff_of_nodup hNodup' (List.nodup_finRange n)).mpr fun i => ?_
  exact iff_of_true (List.mem_filterMap.mpr (hOnto i)) (List.mem_finRange i)

theorem RanOneByOne.serializable {order : List (BuildCall nodes edges)} (hNodup : order.Nodup)
    (hAll : ∀ call, call ∈ order) (hFew : nodes.length < 2 ^ 32)
    {config : BuildConfig nodes edges} (h : RanOneByOne order config) : Serializable config := by
  have hNodes : (nodeRows (order.map (callOf nodes edges))).Perm nodes := by
    have hPerm := filterMap_perm_finRange (f := Sum.getLeft?) hNodup (by
      rintro (_ | _) (_ | _) i hi hi' <;> simp_all) fun i => ⟨.inl i, hAll _, rfl⟩
    have hMapped := hPerm.map nodes.get
    rwa [List.map_get_finRange, ← nodeRows_map_callOf] at hMapped
  have hEdges : (edgeRows (order.map (callOf nodes edges))).Perm edges := by
    have hPerm := filterMap_perm_finRange (f := Sum.getRight?) hNodup (by
      rintro (_ | _) (_ | _) i hi hi' <;> simp_all) fun i => ⟨.inr i, hAll _, rfl⟩
    have hMapped := hPerm.map edges.get
    rwa [List.map_get_finRange, ← edgeRows_map_callOf] at hMapped
  refine ⟨_, h.shared, hNodes, hEdges, fun i => ?_⟩
  obtain ⟨before, after, hSplit⟩ := List.append_of_mem (hAll (.inl i))
  have hRows : nodeRows (order.map (callOf nodes edges)) =
      nodeRows (before.map (callOf nodes edges)) ++
        nodes.get i :: nodeRows (after.map (callOf nodes edges)) := by
    rw [hSplit, List.map_append, List.map_cons, nodeRows, List.filterMap_append]
    rfl
  have hSmall : (nodeRows (before.map (callOf nodes edges))).length < 2 ^ 32 := by
    have hLength := hNodes.length_eq
    rw [hRows, List.length_append] at hLength
    omega
  -- the id counts the node calls before
  refine ⟨_, h.ids before (.inl i) after hSplit, ?_⟩
  have hId : (callOf nodes edges (.inl i)).id (build (before.map (callOf nodes edges))) =
      UInt32.ofNat (nodeRows (before.map (callOf nodes edges))).length :=
    (holds_build _).nextNodeId
  rw [hId, UInt32.toNat_ofNat_of_lt' hSmall, hRows, List.getElem?_append_right le_rfl,
    Nat.sub_self, List.getElem?_cons_zero]

end OneByOne

/-- The schedules without overlap are the sequential runs.  For every order of all calls,
the schedule that runs them in turn returns, and it leaves the graph and the ids that the
sequential calls leave in this order; so the rows stay with their ids, and the triples are
kept. -/
theorem buildRun_oneByOne_eq_build (nodes : List NodeRow) (edges : List EdgeRow)
    {order : List (BuildCall nodes edges)} (hNodup : order.Nodup) (hAll : ∀ call, call ∈ order) :
    let config := buildRun nodes edges (oneByOne (buildProgram nodes edges) order)
    Returned (buildProgram nodes edges) config ∧
      config.shared = build (order.map (callOf nodes edges)) ∧
      (∀ before call after, order = before ++ call :: after →
        config.regs call =
          some ((callOf nodes edges call).id (build (before.map (callOf nodes edges))))) ∧
      (nodes.length < 2 ^ 32 → RowsStayWithIds config ∧ TriplesKept config) := by
  intro config
  have hRan : RanOneByOne order config := ranOneByOne hNodup
  exact ⟨fun call => hRan.returned call (hAll call), hRan.shared, hRan.ids,
    fun hFew => (hRan.serializable hNodup hAll hFew).intact⟩

/-- The second node, its edge and the first node. -/
def callerOrder : List (BuildCall callerNodes callerEdges) :=
  [.inl ⟨1, by decide⟩, .inr ⟨0, by decide⟩, .inl ⟨0, by decide⟩]

/-- The node that is added last has the id 1. -/
theorem buildRun_oneByOne_callerOrder :
    (buildRun callerNodes callerEdges
      (oneByOne (buildProgram callerNodes callerEdges) callerOrder)).regs
        (.inl ⟨0, by decide⟩) = some 1 := by
  have hAll : ∀ call : BuildCall callerNodes callerEdges, call ∈ callerOrder
    | .inl ⟨0, _⟩ => by simp [callerOrder]
    | .inl ⟨1, _⟩ => by simp [callerOrder]
    | .inr ⟨0, _⟩ => by simp [callerOrder]
  have hRun := buildRun_oneByOne_eq_build callerNodes callerEdges (by decide) hAll
  exact hRun.2.2.1 [.inl ⟨1, by decide⟩, .inr ⟨0, by decide⟩] _ [] rfl

end Graph
end CodebaseMem
