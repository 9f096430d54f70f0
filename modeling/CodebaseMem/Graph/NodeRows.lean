import CodebaseMem.Graph.ConcurrentBuild

/-!
# Node rows under concurrency

`add_node` returns the id it drew from the counter, and the columns are read at
that index.  Nothing makes the order of the pushes onto a column the order of
the draws, so a row can show the data of another call.  This file proves exactly
when it does not.

* `RowsStayWithIds`: at the id each call returned, every column holds its argument.
* `PushInPlace`: a push appends the argument of the call that drew the length of the
  column as its id.  A column and a counter decide it before the push.
* `rowsAgree_advance_iff`: the step lemma; a step keeps the rows in agreement with the ids
  exactly when it is in place.
* `rowsStayWithIds_iff_pushes_in_place`: the run lemma, for fewer than `2 ^ 32` calls.
* `NodesLogged.rowsStayWithIds_iff_allAligned`: the same condition read off the
  interleaving: the pushes onto each column come in the order of the draws, up to equal
  arguments.

With `2 ^ 32` calls or more the counter wraps around and two calls share an id; nothing is
proved about such runs here.
-/

namespace CodebaseMem
namespace Graph

open CodebaseMem.Core
open Library
open Library.Interleaving

section Rows

variable {nodes : List NodeRow} {edges : List EdgeRow} {V : Type}

/-- The property the accessors rely on: at the id each call returned, every
column holds that call's argument. -/
def RowsStayWithIds (config : BuildConfig nodes edges) : Prop :=
  ∀ i : Fin nodes.length, ∃ id : UInt32, config.regs (Sum.inl i) = some id ∧
    config.shared.nodeLabels[id.toNat]? = some (nodes.get i).label ∧
    config.shared.nodeNames[id.toNat]? = some (nodes.get i).name ∧
    config.shared.nodeFiles[id.toNat]? = some (nodes.get i).file ∧
    config.shared.nodeLines[id.toNat]? = some (nodes.get i).line ∧
    config.shared.nodeColumns[id.toNat]? = some (nodes.get i).column

/-- The call whose id is the length of `column`, if it has drawn it already,
passed `entry`. -/
def OwnerPassed (config : BuildConfig nodes edges) (column : List V)
    (val : NodeRow → V) (entry : V) : Prop :=
  ∀ owner : Fin nodes.length,
    config.regs (Sum.inl owner) = some (UInt32.ofNat column.length) →
      val (nodes.get owner) = entry

/-- A push onto a node column appends the argument of the call that owns the
next row. -/
def PushInPlace (config : BuildConfig nodes edges) (_call : BuildCall nodes edges) :
    BuildAction → Prop
  | .pushNodeLabel label =>
      OwnerPassed config config.shared.nodeLabels NodeRow.label label
  | .pushNodeName name =>
      OwnerPassed config config.shared.nodeNames NodeRow.name name
  | .pushNodeFile file =>
      OwnerPassed config config.shared.nodeFiles NodeRow.file file
  | .pushNodeLine line =>
      OwnerPassed config config.shared.nodeLines NodeRow.line line
  | .pushNodeColumn column =>
      OwnerPassed config config.shared.nodeColumns NodeRow.column column
  | _ => True

/-- No entry of `column` that is present at a drawn id differs from the argument
of the call that drew it. -/
def ColumnAgrees (config : BuildConfig nodes edges) (column : List V)
    (val : NodeRow → V) : Prop :=
  ∀ (i : Fin nodes.length) (id : UInt32), config.regs (Sum.inl i) = some id →
    ∀ entry, column[id.toNat]? = some entry → entry = val (nodes.get i)

/-- The five columns agree with the ids drawn so far.  Where a column is not yet as long
as an id says, nothing is asked of it. -/
structure RowsAgree (config : BuildConfig nodes edges) : Prop where
  labels : ColumnAgrees config config.shared.nodeLabels NodeRow.label
  names : ColumnAgrees config config.shared.nodeNames NodeRow.name
  files : ColumnAgrees config config.shared.nodeFiles NodeRow.file
  lines : ColumnAgrees config config.shared.nodeLines NodeRow.line
  columns : ColumnAgrees config config.shared.nodeColumns NodeRow.column

variable {config : BuildConfig nodes edges} {log : AppendLog (Fin nodes.length) 5}

theorem NodesLogged.length_drawn_le (h : NodesLogged config log) :
    log.drawn.length ≤ nodes.length := by
  have := List.Nodup.length_le_card h.consistent.nodup_drawn
  simpa using this

/-- With fewer than `2 ^ 32` calls an id determines its ticket, because the counter has
not come round. -/
theorem NodesLogged.regs_eq_ofNat_iff (h : NodesLogged config log)
    (hFew : nodes.length < 2 ^ 32) {n : Nat} (hn : n < 2 ^ 32) (i : Fin nodes.length) :
    config.regs (Sum.inl i) = some (UInt32.ofNat n) ↔ log.drawn[n]? = some i := by
  rw [h.ticket]
  constructor
  · rintro ⟨m, hm, hEq⟩
    have hmLt : m < 2 ^ 32 :=
      ((List.getElem?_eq_some_iff.mp hm).1.trans_le h.length_drawn_le).trans hFew
    -- both tickets are below `2 ^ 32`, so the ids tell them apart
    have : n = m := by
      have hNat := congrArg UInt32.toNat hEq
      rwa [UInt32.toNat_ofNat_of_lt' hn, UInt32.toNat_ofNat_of_lt' hmLt] at hNat
    rw [this]
    exact hm
  · intro hn'
    exact ⟨n, hn', rfl⟩

/-- A column agrees with the ids exactly when its order of pushes is, up to
equal arguments, the order of draws. -/
theorem NodesLogged.columnAgrees_iff_aligned (h : NodesLogged config log)
    (hFew : nodes.length < 2 ^ 32) {j : Fin 5} {column : List V} {val : NodeRow → V}
    (hColumn : column = (log.order j).map fun i => val (nodes.get i)) :
    ColumnAgrees config column val ↔ log.Aligned (fun i => val (nodes.get i)) j := by
  subst hColumn
  constructor
  · intro hAgrees n owner pusher hOwner hPusher
    have hn : n < 2 ^ 32 :=
      ((List.getElem?_eq_some_iff.mp hOwner).1.trans_le h.length_drawn_le).trans hFew
    refine hAgrees owner (UInt32.ofNat n) ((h.regs_eq_ofNat_iff hFew hn owner).mpr hOwner) _ ?_
    rw [UInt32.toNat_ofNat_of_lt' hn, List.getElem?_map, hPusher]
    rfl
  · intro hAligned i id hId entry hEntry
    obtain ⟨n, hOwner, rfl⟩ := (h.ticket i id).mp hId
    have hn : n < 2 ^ 32 :=
      ((List.getElem?_eq_some_iff.mp hOwner).1.trans_le h.length_drawn_le).trans hFew
    rw [UInt32.toNat_ofNat_of_lt' hn, List.getElem?_map] at hEntry
    obtain ⟨pusher, hPusher, rfl⟩ := Option.map_eq_some_iff.mp hEntry
    exact hAligned n i pusher hOwner hPusher

/-- The condition on a push, read off the log.  On the left it is about the column and
the ids, as the code sees them; on the right about the orders of draws and pushes. -/
theorem NodesLogged.ownerPassed_iff (h : NodesLogged config log)
    (hFew : nodes.length < 2 ^ 32) {j : Fin 5} {column : List V} {val : NodeRow → V}
    (hColumn : column = (log.order j).map fun i => val (nodes.get i)) (entry : V) :
    OwnerPassed config column val entry ↔
      ∀ owner, log.drawn[(log.order j).length]? = some owner →
        entry = val (nodes.get owner) := by
  subst hColumn
  have hLt : (log.order j).length < 2 ^ 32 := by
    calc (log.order j).length
      _ ≤ log.drawn.length := h.consistent.length_order_le j
      _ ≤ nodes.length := h.length_drawn_le
      _ < 2 ^ 32 := hFew
  simp only [OwnerPassed, List.length_map, h.regs_eq_ofNat_iff hFew hLt]
  exact forall_congr' fun owner => imp_congr_right fun _ => eq_comm

theorem NodesLogged.rowsAgree_iff (h : NodesLogged config log)
    (hFew : nodes.length < 2 ^ 32) : RowsAgree config ↔ AllAligned log := by
  have hLabels := h.columnAgrees_iff_aligned hFew h.nodeLabels
  have hNames := h.columnAgrees_iff_aligned hFew h.nodeNames
  have hFiles := h.columnAgrees_iff_aligned hFew h.nodeFiles
  have hLines := h.columnAgrees_iff_aligned hFew h.nodeLines
  have hColumns := h.columnAgrees_iff_aligned hFew h.nodeColumns
  rw [AllAligned, ← hLabels, ← hNames, ← hFiles, ← hLines, ← hColumns]
  constructor
  -- a structure on one side, a conjunction on the other
  · rintro ⟨h1, h2, h3, h4, h5⟩
    exact ⟨h1, h2, h3, h4, h5⟩
  · rintro ⟨h1, h2, h3, h4, h5⟩
    exact ⟨h1, h2, h3, h4, h5⟩

/-- Growing the log by the action of a node call keeps it aligned exactly when
the action was in place. -/
theorem NodesLogged.allAligned_step_iff (h : NodesLogged config log)
    (hFew : nodes.length < 2 ^ 32) (i : Fin nodes.length) {action : BuildAction}
    (hAction : (addNodeActions (nodes.get i))[config.pc (Sum.inl i)]? = some action) :
    AllAligned (nodeLogStep log i (config.pc (Sum.inl i))) ↔
      AllAligned log ∧ PushInPlace config (Sum.inl i) action := by
  rcases addNodeActions_cases hAction with
    ⟨hpc, rfl⟩ | ⟨hpc, rfl⟩ | ⟨hpc, rfl⟩ | ⟨hpc, rfl⟩ | ⟨hpc, rfl⟩ | ⟨hpc, rfl⟩ <;>
    simp only [hpc, nodeLogStep, AllAligned, PushInPlace]
  · simp only [AppendLog.aligned_draw_iff h.consistent, and_true]
  · rw [h.ownerPassed_iff hFew h.nodeLabels, AppendLog.aligned_push_iff]
    simp only [AppendLog.aligned_push_of_ne_iff, ne_eq, Fin.reduceEq, not_false_eq_true]
    tauto
  · rw [h.ownerPassed_iff hFew h.nodeNames, AppendLog.aligned_push_iff]
    simp only [AppendLog.aligned_push_of_ne_iff, ne_eq, Fin.reduceEq, not_false_eq_true]
    tauto
  · rw [h.ownerPassed_iff hFew h.nodeFiles, AppendLog.aligned_push_iff]
    simp only [AppendLog.aligned_push_of_ne_iff, ne_eq, Fin.reduceEq, not_false_eq_true]
    tauto
  · rw [h.ownerPassed_iff hFew h.nodeLines, AppendLog.aligned_push_iff]
    simp only [AppendLog.aligned_push_of_ne_iff, ne_eq, Fin.reduceEq, not_false_eq_true]
    tauto
  · rw [h.ownerPassed_iff hFew h.nodeColumns, AppendLog.aligned_push_iff]
    simp only [AppendLog.aligned_push_of_ne_iff, ne_eq, Fin.reduceEq, not_false_eq_true]
    tauto

/-- Step lemma: an action keeps the rows in agreement with the ids exactly when
it is in place. -/
theorem rowsAgree_advance_iff (hFew : nodes.length < 2 ^ 32)
    (config : BuildConfig nodes edges) (call : BuildCall nodes edges)
    (action : BuildAction) (hLogged : Logged config)
    (hAction : (buildProgram nodes edges call)[config.pc call]? = some action) :
    RowsAgree (advance BuildAction.exec call action config) ↔
      RowsAgree config ∧ PushInPlace config call action := by
  obtain ⟨log, edgeLog, hNodes, hEdges⟩ := hLogged
  cases call with
  | inl i =>
      rw [(hNodes.advance_inl i hAction).rowsAgree_iff hFew, hNodes.rowsAgree_iff hFew]
      exact hNodes.allAligned_step_iff hFew i hAction
  | inr i =>
      -- an edge call touches no column of the nodes
      rw [(hNodes.advance_inr i hAction).rowsAgree_iff hFew, hNodes.rowsAgree_iff hFew]
      rcases addEdgeActions_cases hAction with ⟨-, rfl⟩ | ⟨-, rfl⟩ | ⟨-, rfl⟩ | ⟨-, rfl⟩ <;>
        simp [PushInPlace]

theorem rowsAgree_start : RowsAgree (buildStart nodes edges) := by
  constructor <;> intro i id hId <;> simp [buildStart] at hId

theorem NodesLogged.exists_entry (h : NodesLogged config log)
    (hFew : nodes.length < 2 ^ 32) (hReturned : Returned (buildProgram nodes edges) config)
    {j : Fin 5} {column : List V} {val : NodeRow → V}
    (hColumn : column = (log.order j).map fun i => val (nodes.get i))
    {i : Fin nodes.length} {n : Nat} (hn : log.drawn[n]? = some i)
    (hAgrees : ColumnAgrees config column val) :
    column[(UInt32.ofNat n).toNat]? = some (val (nodes.get i)) := by
  have hDone := pc_comp_inl_of_returned hReturned
  have hnLt : n < log.drawn.length := (List.getElem?_eq_some_iff.mp hn).1
  have hnSmall : n < 2 ^ 32 := (hnLt.trans_le h.length_drawn_le).trans hFew
  have hLength : column.length = log.drawn.length := by
    rw [hColumn, List.length_map, (h.consistent.order_perm hDone j).length_eq,
      (h.consistent.drawn_perm hDone).length_eq]
  have hToNat : (UInt32.ofNat n).toNat = n := UInt32.toNat_ofNat_of_lt' hnSmall
  have hInside : n < column.length := by omega
  have hSome : column[n]? = some column[n] := List.getElem?_eq_getElem hInside
  have hEntry := hAgrees i (UInt32.ofNat n) ((h.regs_eq_ofNat_iff hFew hnSmall i).mpr hn)
    column[n] (by rw [hToNat, hSome])
  rw [hToNat, hSome, hEntry]

/-- Once every call has returned, agreement is the whole property. -/
theorem rowsStayWithIds_iff_rowsAgree (hFew : nodes.length < 2 ^ 32)
    (hLogged : Logged config) (hReturned : Returned (buildProgram nodes edges) config) :
    RowsStayWithIds config ↔ RowsAgree config := by
  obtain ⟨log, edgeLog, hNodes, hEdges⟩ := hLogged
  constructor
  · intro hStay
    constructor <;> intro i id hId entry hEntry <;>
      obtain ⟨id', hId', hLabel, hName, hFile, hLine, hColumn⟩ := hStay i <;>
      obtain rfl : id = id' := Option.some.inj (hId.symm.trans hId')
    · exact Option.some.inj (hEntry.symm.trans hLabel)
    · exact Option.some.inj (hEntry.symm.trans hName)
    · exact Option.some.inj (hEntry.symm.trans hFile)
    · exact Option.some.inj (hEntry.symm.trans hLine)
    · exact Option.some.inj (hEntry.symm.trans hColumn)
  · -- a call that has returned drew a ticket, and its entry is in every column
    intro hAgree i
    have hDrawn : i ∈ log.drawn := by
      rw [hNodes.consistent.mem_drawn, pc_comp_inl_of_returned hReturned]
      omega
    obtain ⟨n, hn⟩ := List.mem_iff_getElem?.mp hDrawn
    refine ⟨UInt32.ofNat n, (hNodes.ticket i _).mpr ⟨n, hn, rfl⟩, ?_, ?_, ?_, ?_, ?_⟩
    · exact hNodes.exists_entry hFew hReturned hNodes.nodeLabels hn hAgree.labels
    · exact hNodes.exists_entry hFew hReturned hNodes.nodeNames hn hAgree.names
    · exact hNodes.exists_entry hFew hReturned hNodes.nodeFiles hn hAgree.files
    · exact hNodes.exists_entry hFew hReturned hNodes.nodeLines hn hAgree.lines
    · exact hNodes.exists_entry hFew hReturned hNodes.nodeColumns hn hAgree.columns

end Rows

/-- The same as a condition on the interleaving: once every call has returned, the rows
stay with their ids exactly when in each column the pushes came in the order of the draws,
up to equal arguments. -/
theorem NodesLogged.rowsStayWithIds_iff_allAligned {nodes : List NodeRow} {edges : List EdgeRow}
    {config : BuildConfig nodes edges} {log : AppendLog (Fin nodes.length) 5}
    {edgeLog : AppendLog (Fin edges.length) 3} (h : NodesLogged config log)
    (hEdges : EdgesLogged config edgeLog) (hFew : nodes.length < 2 ^ 32)
    (hReturned : Returned (buildProgram nodes edges) config) :
    RowsStayWithIds config ↔ AllAligned log :=
  (rowsStayWithIds_iff_rowsAgree hFew ⟨log, edgeLog, h, hEdges⟩ hReturned).trans
    (h.rowsAgree_iff hFew)

/-- For every interleaving of fewer than `2 ^ 32` calls that have all returned,
the rows stay with their ids exactly when every push of the run was in place. -/
theorem rowsStayWithIds_iff_pushes_in_place (nodes : List NodeRow) (edges : List EdgeRow)
    (hFew : nodes.length < 2 ^ 32) (schedule : List (BuildCall nodes edges))
    (hReturned : Returned (buildProgram nodes edges) (buildRun nodes edges schedule)) :
    RowsStayWithIds (buildRun nodes edges schedule) ↔
      StepsMeet (buildProgram nodes edges) BuildAction.exec PushInPlace schedule
        (buildStart nodes edges) := by
  obtain ⟨log, edgeLog, hNodes, hEdges⟩ := logged_buildRun schedule
  calc RowsStayWithIds (buildRun nodes edges schedule)
      ↔ AllAligned log := hNodes.rowsStayWithIds_iff_allAligned hEdges hFew hReturned
    _ ↔ RowsAgree (buildRun nodes edges schedule) := (hNodes.rowsAgree_iff hFew).symm
    -- the rows agree at the start, and every step keeps this exactly if it is in place
    _ ↔ RowsAgree (buildStart nodes edges) ∧ StepsMeet (buildProgram nodes edges)
          BuildAction.exec PushInPlace schedule (buildStart nodes edges) :=
        stepsMeet_iff_of_step_iff Logged.advance (rowsAgree_advance_iff hFew) schedule
          (buildStart nodes edges) logged_start
    _ ↔ _ := and_iff_right rowsAgree_start

/-- Two nodes that differ in every column. -/
def twoNodes : List NodeRow :=
  [⟨.function, ⟨0⟩, ⟨4⟩, 1, 1⟩, ⟨.class_, ⟨8⟩, ⟨12⟩, 2, 5⟩]

/-- The first call draws its id, the second call runs from start to end, and the
first call then pushes its row. -/
def overtakingSchedule : List (BuildCall twoNodes []) :=
  Sum.inl ⟨0, by decide⟩ :: List.replicate 6 (Sum.inl ⟨1, by decide⟩) ++
    List.replicate 5 (Sum.inl ⟨0, by decide⟩)

/-- The two calls take turns. -/
def alternatingSchedule : List (BuildCall twoNodes []) :=
  (List.replicate 6 [Sum.inl ⟨0, by decide⟩, Sum.inl ⟨1, by decide⟩]).flatten

/-- Two calls that overlap and do not pass each other meet the condition, and their rows
stay. -/
theorem rowsStayWithIds_alternating :
    RowsStayWithIds (buildRun twoNodes [] alternatingSchedule) ∧
      StepsMeet (buildProgram twoNodes []) BuildAction.exec PushInPlace alternatingSchedule
        (buildStart twoNodes []) := by
  have hStay : RowsStayWithIds (buildRun twoNodes [] alternatingSchedule)
    | ⟨0, _⟩ => ⟨0, rfl, rfl, rfl, rfl, rfl, rfl⟩
    | ⟨1, _⟩ => ⟨1, rfl, rfl, rfl, rfl, rfl, rfl⟩
  exact ⟨hStay, (rowsStayWithIds_iff_pushes_in_place twoNodes [] (by decide)
    alternatingSchedule (by decide)).mp hStay⟩

/-- When a call is overtaken between its draw and its pushes, its id reads the
row of the other call. -/
theorem not_rowsStayWithIds_of_overtaking :
    ¬ ∀ (nodes : List NodeRow) (schedule : List (BuildCall nodes [])),
      nodes.length < 2 ^ 32 →
        Returned (buildProgram nodes []) (buildRun nodes [] schedule) →
          RowsStayWithIds (buildRun nodes [] schedule) := by
  intro hAll
  obtain ⟨id, hId, hLabel, -⟩ :=
    hAll twoNodes overtakingSchedule (by decide) (by decide) ⟨0, by decide⟩
  have hDrawn : (buildRun twoNodes [] overtakingSchedule).regs (Sum.inl ⟨0, by decide⟩) =
      some 0 := by decide
  obtain rfl : id = 0 := Option.some.inj (hId.symm.trans hDrawn)
  revert hLabel
  decide

end Graph
end CodebaseMem
