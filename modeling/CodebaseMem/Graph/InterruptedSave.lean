import CodebaseMem.Graph.Save

/-!
# Saves that do not finish

A step of `save` can fail, and the machine can stop at any moment.  What reaches the
disk of a file that was not synced is then arbitrary.  The destination is safe because
`save` writes to another file: to another name always, and to another inode unless the
temporary path leads to the file of the destination.

* `Interruption`, `interruptedSave`: an error or a stop at any step, after any number of
  bytes of a write.
* `Untouched`: the destination leads where it led, to what was there.
* `SurvivesInterruptions`: whatever happens, the destination holds what it held before or
  the new image, and the new image if `save` has returned a size.
* `survivesInterruptions_iff`: this holds exactly when the graph cannot be serialised or
  the two paths are not names of one file.

A rename takes effect whole or not at all, and is durable once it is done; that a stop may
take it back, since nothing syncs the directory, is in the module on snapshots.  Symbolic
links are not modelled.
-/

namespace CodebaseMem
namespace Graph

open CodebaseMem.Core Library

/-! ### Interruptions -/

/-- The part of an interrupted step that takes effect: a write passes on some of its
bytes, every other step does nothing. -/
def SaveAction.interrupted (bytes : Nat) : SaveAction → Option SaveAction
  | writeAll content => some (.writeAll (content.take bytes))
  | _ => none

/-- The steps before number `step`, and what takes effect of that one.  With a number
behind the last step nothing is interrupted. -/
def interruptedActions (actions : List SaveAction) (step bytes : Nat) : List SaveAction :=
  actions.take step ++ (actions[step]?.bind (SaveAction.interrupted bytes)).toList

/-- What can happen to a call at a step: the step returns an error, or the machine stops
and leaves `lost` in a file that was open and not synced. -/
inductive Interruption where
  | fail (step bytes : Nat)
  | crash (step bytes : Nat) (lost : List UInt8)
  deriving DecidableEq, Repr

def SaveAction.execAll (actions : List SaveAction) (state : Files × SaveLocals) :
    Files × SaveLocals :=
  actions.foldl (fun state action => action.exec state.1 state.2) state

/-- A file that is open was not synced, so a crash may leave anything in it.  What the
steps before did to the names stays. -/
def loseUnsynced (lost : List UInt8) (state : Files × SaveLocals) : Files :=
  match state.2.file with
  | none => state.1
  | some handle =>
      { state.1 with contents := Function.update state.1.contents handle.inode lost }

/-- `save` with an interruption: the files it leaves and what it returns, if it does.  An
error ends the call with a value, a crash ends it with none. -/
def interruptedSave (rkyv : Rkyv) (xxh3 : Xxh3) (files : Files) (graph : FrozenGraph)
    (path : Path) : Option Interruption → Files × Option (Except SaveError UInt64)
  | none => save rkyv xxh3 files graph path
  | some (.fail step bytes) =>
      let call : SaveCall := ⟨graph, path⟩
      let actions := call.actions rkyv xxh3
      let state := SaveAction.execAll (interruptedActions actions step bytes)
        (files, call.locals rkyv xxh3)
      (state.1, if step < actions.length then some (.error .io) else state.2.returned)
  | some (.crash step bytes lost) =>
      let call : SaveCall := ⟨graph, path⟩
      let actions := call.actions rkyv xxh3
      let state := SaveAction.execAll (interruptedActions actions step bytes)
        (files, call.locals rkyv xxh3)
      (loseUnsynced lost state, if step < actions.length then none else state.2.returned)

/-- The path holds the complete image of the graph. -/
def HoldsNewImage (rkyv : Rkyv) (xxh3 : Xxh3) (graph : FrozenGraph) (path : Path)
    (files : Files) : Prop :=
  ∃ header payload, prepare rkyv xxh3 graph = .ok (header, payload) ∧
    files.contentAt path = some (image header payload)

/-- The temporary path is another one, and whatever happens the destination holds what it
held before or the new image, and the new image if the call returned successfully. -/
def SurvivesInterruptions (rkyv : Rkyv) (xxh3 : Xxh3) (files : Files) (graph : FrozenGraph)
    (path : Path) : Prop :=
  tmpPath path ≠ path ∧ ∀ interruption : Option Interruption,
    let result := interruptedSave rkyv xxh3 files graph path interruption
    (result.1.contentAt path = files.contentAt path ∨
        HoldsNewImage rkyv xxh3 graph path result.1) ∧
      ∀ size, result.2 = some (.ok size) → HoldsNewImage rkyv xxh3 graph path result.1

/-- Two paths lead to one file. -/
def SameFile (files : Files) (path other : Path) : Prop :=
  ∃ inode, files.names path = some inode ∧ files.names other = some inode

/-! ### The steps before the rename -/

/-- The path leads where it led, to what was there, and the open file is another one.
Unless the temporary path leads to the same file, every step before the rename keeps
this. -/
structure Untouched (files : Files) (path : Path) (state : Files × SaveLocals) : Prop where
  names : state.1.names path = files.names path
  contents : ∀ inode, files.names path = some inode →
    state.1.contents inode = files.contents inode
  file : ∀ handle, state.2.file = some handle → files.names path ≠ some handle.inode

namespace Untouched

variable {files : Files} {path : Path} {state : Files × SaveLocals}

theorem contentAt (h : Untouched files path state) :
    state.1.contentAt path = files.contentAt path :=
  FileSystem.contentAt_congr h.names h.contents

theorem contentAt_loseUnsynced (h : Untouched files path state) (lost : List UInt8) :
    (loseUnsynced lost state).contentAt path = files.contentAt path := by
  unfold loseUnsynced
  split
  · exact h.contentAt
  · next handle hFile =>
      refine FileSystem.contentAt_congr h.names fun inode hInode => ?_
      have hne : inode ≠ handle.inode := by
        rintro rfl
        exact h.file handle hFile hInode
      show Function.update state.1.contents handle.inode lost inode = _
      rw [Function.update_of_ne hne]
      exact h.contents inode hInode

/-- The temporary file is another one unless its path leads to the destination. -/
theorem create {locals : SaveLocals} (hApart : ¬SameFile files (tmpPath path) path) :
    Untouched files path ((SaveAction.create (tmpPath path)).exec files locals) := by
  have hCreated := files.create_spec (tmpPath path)
  have hInode : files.names path ≠ some (files.create (tmpPath path)).2 := by
    intro hPath
    rcases hCreated.old_or_new with hOld | ⟨-, hNew⟩
    · exact hApart ⟨_, hOld, hPath⟩
    · exact hNew path hPath
  refine ⟨hCreated.names_of_ne path (tmpPath_ne path).symm, fun inode hPath => ?_, ?_⟩
  · refine hCreated.contents_of_ne inode ?_
    rintro rfl
    exact hInode hPath
  · rintro handle hFile
    cases hFile
    exact hInode

/-- A write goes to the open file. -/
theorem writeAll (h : Untouched files path state) (bytes : List UInt8) :
    Untouched files path ((SaveAction.writeAll bytes).exec state.1 state.2) := by
  cases hFile : state.2.file with
  | none =>
      have hExec : (SaveAction.writeAll bytes).exec state.1 state.2 = state := by
        simp only [SaveAction.exec, hFile]
      rwa [hExec]
  | some handle =>
      have hExec : (SaveAction.writeAll bytes).exec state.1 state.2 =
          (state.1.write 0 handle.inode handle.offset bytes,
            { state.2 with file := some ⟨handle.inode, handle.offset + bytes.length⟩ }) := by
        simp only [SaveAction.exec, hFile]
      rw [hExec]
      refine ⟨h.names, fun inode hPath => ?_, ?_⟩
      · have hne : inode ≠ handle.inode := by
          rintro rfl
          exact h.file handle hFile hPath
        rw [FileSystem.contents_write_of_ne 0 state.1 hne]
        exact h.contents inode hPath
      · rintro handle' hFile'
        cases hFile'
        exact h.file handle hFile

theorem syncAll (h : Untouched files path state) :
    Untouched files path (SaveAction.syncAll.exec state.1 state.2) :=
  ⟨h.names, h.contents, fun _ hFile => by cases hFile⟩

/-- Any number of writes and syncs, by induction on the list of steps. -/
theorem execAll (h : Untouched files path state) {actions : List SaveAction}
    (hActions : ∀ action ∈ actions, action = .syncAll ∨ ∃ bytes, action = .writeAll bytes) :
    Untouched files path (SaveAction.execAll actions state) := by
  induction actions generalizing state with
  | nil => exact h
  | cons action actions ih =>
      have hFirst : Untouched files path (action.exec state.1 state.2) := by
        rcases hActions action List.mem_cons_self with rfl | ⟨bytes, rfl⟩
        · exact h.syncAll
        · exact h.writeAll bytes
      exact ih hFirst fun later hLater => hActions later (List.mem_cons_of_mem _ hLater)

end Untouched

/-! ### All interruptions -/

section

variable {header : FrozenGraphHeader} {payload : List UInt8} {path : Path} {files : Files}

/-- Before the rename is done, a call has taken no step, or has created the temporary file
and gone on to write and sync it. -/
theorem interruptedActions_cases {step : Nat} (hStep : step < 5) (bytes : Nat) :
    interruptedActions (saveActions header payload path) step bytes = [] ∨
      ∃ rest, interruptedActions (saveActions header payload path) step bytes =
          .create (tmpPath path) :: rest ∧
        ∀ action ∈ rest, action = .syncAll ∨ ∃ content, action = .writeAll content := by
  match step, hStep with
  | 0, _ => exact .inl rfl
  | 1, _ => exact .inr ⟨_, rfl, by simp [saveActions, SaveAction.interrupted]⟩
  | 2, _ => exact .inr ⟨_, rfl, by simp [saveActions, SaveAction.interrupted]⟩
  | 3, _ => exact .inr ⟨_, rfl, by simp [saveActions, SaveAction.interrupted]⟩
  | 4, _ => exact .inr ⟨_, rfl, by simp [saveActions, SaveAction.interrupted]⟩

theorem interruptedActions_of_le {actions : List SaveAction} {step : Nat}
    (hStep : actions.length ≤ step) (bytes : Nat) :
    interruptedActions actions step bytes = actions := by
  rw [interruptedActions, List.take_of_length_le hStep, List.getElem?_eq_none hStep]
  exact List.append_nil _

theorem untouched_interruptedActions (hApart : ¬SameFile files (tmpPath path) path)
    {locals : SaveLocals} (hFile : locals.file = none) {step : Nat} (hStep : step < 5)
    (bytes : Nat) :
    Untouched files path
      (SaveAction.execAll (interruptedActions (saveActions header payload path) step bytes)
        (files, locals)) := by
  rcases @interruptedActions_cases header payload path step hStep bytes with
    hNone | ⟨rest, hCreated, hRest⟩
  · rw [hNone]
    refine ⟨rfl, fun _ _ => rfl, fun handle hSome => ?_⟩
    have hNot := hFile.symm.trans hSome
    cases hNot
  · rw [hCreated]
    exact (Untouched.create hApart).execAll hRest

theorem file_execAll_saveActions (locals : SaveLocals) :
    (SaveAction.execAll (saveActions header payload path) (files, locals)).2.file = none := by
  have hRename : ∀ (files : Files) (locals : SaveLocals) (source target : Path) (size : UInt64),
      ((SaveAction.rename source target size).exec files locals).2.file = locals.file := by
    intro files locals source target size
    simp only [SaveAction.exec]
    split <;> rfl
  simp only [SaveAction.execAll, saveActions, List.foldl_cons, List.foldl_nil, hRename]
  rfl

/-- What an interruption leaves behind: an untouched destination and no success before
the rename is done, and what `save` leaves and returns after it. -/
theorem interruptedSave_cases {rkyv : Rkyv} {xxh3 : Xxh3} {graph : FrozenGraph}
    (hPrepare : prepare rkyv xxh3 graph = .ok (header, payload))
    (hApart : ¬SameFile files (tmpPath path) path) (interruption : Option Interruption) :
    interruptedSave rkyv xxh3 files graph path interruption = save rkyv xxh3 files graph path ∨
      (interruptedSave rkyv xxh3 files graph path interruption).1.contentAt path =
          files.contentAt path ∧
        ∀ size,
          (interruptedSave rkyv xxh3 files graph path interruption).2 ≠ some (.ok size) := by
  have hActions : SaveCall.actions rkyv xxh3 ⟨graph, path⟩ = saveActions header payload path := by
    rw [SaveCall.actions, hPrepare]
  have hSave : save rkyv xxh3 files graph path =
      ((SaveAction.execAll (saveActions header payload path)
          (files, SaveCall.locals rkyv xxh3 ⟨graph, path⟩)).1,
        (SaveAction.execAll (saveActions header payload path)
          (files, SaveCall.locals rkyv xxh3 ⟨graph, path⟩)).2.returned) := by
    rw [← hActions]
    rfl
  have hLength : (saveActions header payload path).length = 5 := rfl
  have hFile : (SaveCall.locals rkyv xxh3 ⟨graph, path⟩).file = none := rfl
  -- all five steps were taken, or the rename was not
  rcases interruption with - | ⟨step, bytes⟩ | ⟨step, bytes, lost⟩
  · exact .inl rfl
  · simp only [interruptedSave, hActions, hLength]
    by_cases hStep : step < 5
    · right
      rw [if_pos hStep]
      exact ⟨(untouched_interruptedActions hApart hFile hStep bytes).contentAt,
        fun size hOk => by cases hOk⟩
    · left
      rw [if_neg hStep, interruptedActions_of_le (by omega), hSave]
  · simp only [interruptedSave, hActions, hLength]
    by_cases hStep : step < 5
    · right
      rw [if_pos hStep]
      exact ⟨(untouched_interruptedActions hApart hFile hStep bytes).contentAt_loseUnsynced lost,
        fun size hOk => by cases hOk⟩
    · left
      rw [if_neg hStep, interruptedActions_of_le (by omega), hSave, loseUnsynced,
        file_execAll_saveActions]

/-- A failed write of the header leaves the bytes it has passed on in the destination if
the temporary path leads there. -/
theorem contentAt_interruptedSave_of_sameFile {rkyv : Rkyv} {xxh3 : Xxh3} {graph : FrozenGraph}
    (hPrepare : prepare rkyv xxh3 graph = .ok (header, payload))
    (hSame : SameFile files (tmpPath path) path) (bytes : Nat) :
    (interruptedSave rkyv xxh3 files graph path (some (.fail 1 bytes))).1.contentAt path =
      some (header.toBytes.toList.take bytes) := by
  obtain ⟨inode, hTmp, hPath⟩ := hSame
  have hCreated := files.create_spec (tmpPath path)
  have hInode : (files.create (tmpPath path)).2 = inode := by
    rcases hCreated.old_or_new with hOld | ⟨hNone, -⟩
    · exact Option.some.inj (hOld.symm.trans hTmp)
    · rw [hTmp] at hNone
      cases hNone
  rw [hInode] at hCreated
  have hName : (files.create (tmpPath path)).1.names path = some inode :=
    (hCreated.names_of_ne path (tmpPath_ne path).symm).trans hPath
  have hActions : interruptedActions (SaveCall.actions rkyv xxh3 ⟨graph, path⟩) 1 bytes =
      [.create (tmpPath path), .writeAll (header.toBytes.toList.take bytes)] := by
    rw [SaveCall.actions, hPrepare]
    rfl
  simp only [interruptedSave, hActions, SaveAction.execAll, List.foldl_cons, List.foldl_nil,
    SaveAction.exec, hInode]
  have hEmpty : (files.create (tmpPath path)).1.contents inode = [] := hCreated.contents_self
  let written :=
    (files.create (tmpPath path)).1.write 0 inode 0 (header.toBytes.toList.take bytes)
  calc written.contentAt path
    _ = some (written.contents inode) := by
      rw [FileSystem.contentAt, FileSystem.names_write, hName, Option.map_some]
    _ = some (header.toBytes.toList.take bytes) := by
      rw [FileSystem.contents_write_end 0 _ (by rw [hEmpty]; rfl), hEmpty, List.nil_append]

theorem exists_partialHeader (old : Option (List UInt8)) (header : FrozenGraphHeader) :
    ∃ bytes < headerSize, some (header.toBytes.toList.take bytes) ≠ old := by
  by_cases hOld : old = some []
  · refine ⟨1, by decide, fun hSame => ?_⟩
    have hLength := congrArg List.length (Option.some.inj (hSame.trans hOld))
    rw [List.length_take, List.Vector.toList_length, List.length_nil, headerSize] at hLength
    omega
  · exact ⟨0, by decide, fun hSame => hOld (hSame.symm.trans (by rw [List.take_zero]))⟩

theorem take_header_ne_image (header : FrozenGraphHeader) (payload : List UInt8) {bytes : Nat}
    (hShort : bytes < headerSize) : header.toBytes.toList.take bytes ≠ image header payload := by
  intro hSame
  have hLength := congrArg List.length hSame
  rw [image, List.length_take, List.length_append, List.Vector.toList_length] at hLength
  omega

theorem interruptedSave_of_error {rkyv : Rkyv} {xxh3 : Xxh3} {graph : FrozenGraph}
    {error : SaveError} (hPrepare : prepare rkyv xxh3 graph = .error error)
    (interruption : Option Interruption) :
    interruptedSave rkyv xxh3 files graph path interruption = (files, some (.error error)) := by
  have hActions : SaveCall.actions rkyv xxh3 ⟨graph, path⟩ = [] := by
    rw [SaveCall.actions, hPrepare]
  have hLocals : SaveCall.locals rkyv xxh3 ⟨graph, path⟩ = ⟨none, some (.error error)⟩ := by
    rw [SaveCall.locals, hPrepare]
  have hNothing : ∀ step bytes, interruptedActions [] step bytes = [] :=
    fun step => interruptedActions_of_le (Nat.zero_le step)
  rcases interruption with - | ⟨step, bytes⟩ | ⟨step, bytes, lost⟩
  · simp only [interruptedSave, save, hActions, hLocals]
    rfl
  · simp only [interruptedSave, hActions, hLocals, hNothing]
    rfl
  · simp only [interruptedSave, hActions, hLocals, hNothing]
    rfl

/-- A call survives all interruptions exactly when the graph cannot be serialised or the
temporary path and the destination are not two names of one file.  Names lead to inodes
here, so one file with two names is a hard link; a name that leads to another name, a
symbolic link, is not in the model. -/
theorem survivesInterruptions_iff (rkyv : Rkyv) (xxh3 : Xxh3) (files : Files)
    (graph : FrozenGraph) (path : Path) :
    SurvivesInterruptions rkyv xxh3 files graph path ↔
      (∃ error, prepare rkyv xxh3 graph = .error error) ∨
        ¬SameFile files (tmpPath path) path := by
  cases hPrepare : prepare rkyv xxh3 graph with
  | error error =>
      refine iff_of_true ⟨tmpPath_ne path, fun interruption => ?_⟩ (.inl ⟨error, rfl⟩)
      rw [interruptedSave_of_error hPrepare]
      exact ⟨.inl rfl, fun size hOk => by cases hOk⟩
  | ok prepared =>
      obtain ⟨header, payload⟩ := prepared
      constructor
      · rintro ⟨-, hSurvives⟩
        right
        intro hSame
        -- a first write that fails after some bytes leaves neither the old content nor an image
        obtain ⟨bytes, hShort, hDiffers⟩ := exists_partialHeader (files.contentAt path) header
        have hPartial := contentAt_interruptedSave_of_sameFile hPrepare hSame bytes
        rcases (hSurvives (some (.fail 1 bytes))).1 with hOld | ⟨header', payload', hNew, hImage⟩
        · exact hDiffers (hPartial.symm.trans hOld)
        · rw [hPrepare] at hNew
          cases hNew
          exact take_header_ne_image header payload hShort
            (Option.some.inj (hPartial.symm.trans hImage))
      · rintro (⟨error, hError⟩ | hApart)
        · cases hError
        · refine ⟨tmpPath_ne path, fun interruption => ?_⟩
          obtain ⟨hContent, hReturned⟩ := save_spec hPrepare files path
          rcases interruptedSave_cases hPrepare hApart interruption with
            hSame | ⟨hUntouched, hNoSuccess⟩
          · rw [hSame]
            exact ⟨.inr ⟨header, payload, hPrepare, hContent⟩,
              fun _ _ => ⟨header, payload, hPrepare, hContent⟩⟩
          · exact ⟨.inl hUntouched, fun size hOk => absurd hOk (hNoSuccess size)⟩

end

def linkedBin : Path := ⟨[], utf8 "linked.bin"⟩

/-- A directory in which the temporary file is a second name of the destination. -/
def linkedFiles : Files where
  names := fun path => if path = linkedBin ∨ path = tmpPath linkedBin then some 0 else none
  contents := fun _ => [7]
  next := 1
  names_lt := by
    intro path inode hName
    split at hName
    · cases hName
      exact Nat.one_pos
    · cases hName

/-- The first write fails, the call returns an error and the destination is empty. -/
theorem not_survivesInterruptions_linked :
    ¬SurvivesInterruptions labelIndexRkyv byteSum linkedFiles (labelIndexGraph [1]) linkedBin := by
  rintro ⟨-, hSurvives⟩
  have hEmpty : (interruptedSave labelIndexRkyv byteSum linkedFiles (labelIndexGraph [1])
      linkedBin (some (.fail 1 0))).1.contentAt linkedBin = some [] := by decide
  rcases (hSurvives (some (.fail 1 0))).1 with hOld | ⟨header, payload, -, hImage⟩
  · have hContent : some ([] : List UInt8) = some [7] := hEmpty.symm.trans hOld
    cases hContent
  · refine take_header_ne_image header payload (by decide : 0 < headerSize) ?_
    rw [List.take_zero]
    exact Option.some.inj (hEmpty.symm.trans hImage)

end Graph
end CodebaseMem
