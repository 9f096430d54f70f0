import CodebaseMem.Graph.Save
import CodebaseMem.Library.Interleaving

/-!
# Concurrent saves

Any number of calls of `save` take their steps in any order.  The name of the
temporary file depends on the destination only, so two calls can open one inode,
and then one of them can rename what the other has truncated.  This file proves
that nothing goes wrong in a run in which every call finds its temporary path
clear when it opens it.

* `DestinationsIntact`: every destination holds what it held at first, or a complete
  image of a graph that was saved there.
* `PathClear`, `CreateClear`: the condition on the moment at which a call opens its
  temporary file.
* `WorksOn`, `SavesHold`: the invariant; a call in progress is alone on its inode.
* `SavesHold.advance`, `destinationsIntact_of_create_clear`: the step lemma and the run
  lemma.

A write is one step, steps do not fail, and the machine does not stop; the modules on
interrupted saves and on snapshots have these.  Symbolic links are not modelled.
-/

namespace CodebaseMem
namespace Graph

open CodebaseMem.Core Library
open Library.Interleaving

section Runs

variable (rkyv : Rkyv) (xxh3 : Xxh3) {calls : List SaveCall}

abbrev SaveConfig (calls : List SaveCall) := Config (Fin calls.length) Files SaveLocals

def destOf (k : Fin calls.length) : Path := (calls.get k).path

def tmpOf (k : Fin calls.length) : Path := tmpPath (destOf k)

def saveProgram (k : Fin calls.length) : List SaveAction := (calls.get k).actions rkyv xxh3

def saveStart (calls : List SaveCall) (files : Files) : SaveConfig calls :=
  Config.start files fun k => (calls.get k).locals rkyv xxh3

def saveRun (calls : List SaveCall) (files : Files) (schedule : List (Fin calls.length)) :
    SaveConfig calls :=
  run (saveProgram rkyv xxh3) SaveAction.exec schedule (saveStart rkyv xxh3 calls files)

/-- The path holds the image of a graph that some call was asked to save there.  Which
call it was is left open, because overlapping calls may finish in any order. -/
def HoldsImage (config : SaveConfig calls) (path : Path) : Prop :=
  ∃ j : Fin calls.length, destOf j = path ∧ ∃ header payload,
    prepare rkyv xxh3 (calls.get j).graph = .ok (header, payload) ∧
      config.shared.contentAt path = some (image header payload)

/-- Every destination holds what it held at first, or a complete image. -/
def DestinationsIntact (files : Files) (config : SaveConfig calls) : Prop :=
  ∀ k : Fin calls.length, config.shared.contentAt (destOf k) = files.contentAt (destOf k) ∨
    HoldsImage rkyv xxh3 config (destOf k)

/-- The call has opened its temporary file and not yet renamed it.  A call whose graph
cannot be serialised takes no step and is never in progress. -/
def InProgress (config : SaveConfig calls) (k : Fin calls.length) : Prop :=
  0 < config.pc k ∧ config.pc k < (saveProgram rkyv xxh3 k).length

instance (config : SaveConfig calls) : DecidablePred (InProgress rkyv xxh3 config) := fun _ =>
  inferInstanceAs (Decidable (_ ∧ _))

/-- The temporary path is no destination, and the file it leads to is neither a
destination nor the temporary file of another call in progress. -/
def PathClear (config : SaveConfig calls) (k : Fin calls.length) (path : Path) : Prop :=
  (∀ j : Fin calls.length, path ≠ destOf j) ∧
    ∀ inode ∈ config.shared.names path,
      (∀ j : Fin calls.length, config.shared.names (destOf j) ≠ some inode) ∧
        ∀ j, j ≠ k → InProgress rkyv xxh3 config j →
          config.shared.names (tmpOf j) ≠ some inode

/-- A call that opens its temporary file finds the path clear; the other steps are free.
The condition is on the state before the step, and `save` never checks it. -/
def CreateClear (config : SaveConfig calls) (k : Fin calls.length) : SaveAction → Prop
  | .create path => PathClear rkyv xxh3 config k path
  | _ => True

instance (config : SaveConfig calls) (k : Fin calls.length) (path : Path) :
    Decidable (PathClear rkyv xxh3 config k path) :=
  inferInstanceAs (Decidable (_ ∧ _))

instance (config : SaveConfig calls) (k : Fin calls.length) (action : SaveAction) :
    Decidable (CreateClear rkyv xxh3 config k action) := by
  unfold CreateClear
  split <;> infer_instance

theorem saveProgram_cases {k : Fin calls.length} {position : Nat} {action : SaveAction}
    (h : (saveProgram rkyv xxh3 k)[position]? = some action) :
    ∃ header payload, prepare rkyv xxh3 (calls.get k).graph = .ok (header, payload) ∧
      saveProgram rkyv xxh3 k = saveActions header payload (destOf k) ∧
      ((position = 0 ∧ action = .create (tmpOf k)) ∨
        (position = 1 ∧ action = .writeAll header.toBytes.toList) ∨
        (position = 2 ∧ action = .writeAll payload) ∨
        (position = 3 ∧ action = .syncAll) ∨
        (position = 4 ∧ action = .rename (tmpOf k) (destOf k)
          (UInt64.ofNat headerSize + header.payloadLen))) := by
  unfold saveProgram SaveCall.actions at h ⊢
  cases hPrepare : prepare rkyv xxh3 (calls.get k).graph with
  | error e =>
      rw [hPrepare] at h
      cases h
  | ok prepared =>
      obtain ⟨header, payload⟩ := prepared
      rw [hPrepare] at h
      refine ⟨header, payload, rfl, rfl, ?_⟩
      match position, h with
      | 0, h => exact .inl ⟨rfl, (Option.some.inj h).symm⟩
      | 1, h => exact .inr (.inl ⟨rfl, (Option.some.inj h).symm⟩)
      | 2, h => exact .inr (.inr (.inl ⟨rfl, (Option.some.inj h).symm⟩))
      | 3, h => exact .inr (.inr (.inr (.inl ⟨rfl, (Option.some.inj h).symm⟩)))
      | 4, h => exact .inr (.inr (.inr (.inr ⟨rfl, (Option.some.inj h).symm⟩)))
      | position + 5, h => cases h

/-! ### The invariant -/

/-- What a program has written to its file before a position. -/
def writtenBefore (actions : List SaveAction) (position : Nat) : List UInt8 :=
  (actions.take position).flatMap SaveAction.written

/-- Call `k` is the only one in progress that works on `inode`, its temporary
path leads there, no destination does, and the inode holds what the call has
written so far. -/
structure WorksOn (config : SaveConfig calls) (k : Fin calls.length) (inode : Nat) : Prop where
  names_tmp : config.shared.names (tmpOf k) = some inode
  contents : config.shared.contents inode =
    writtenBefore (saveProgram rkyv xxh3 k) (config.pc k)
  file : config.pc k < 4 → (config.regs k).file =
    some ⟨inode, (writtenBefore (saveProgram rkyv xxh3 k) (config.pc k)).length⟩
  tmp_ne : ∀ j : Fin calls.length, tmpOf k ≠ destOf j
  dest_ne : ∀ j : Fin calls.length, config.shared.names (destOf j) ≠ some inode
  alone : ∀ j, j ≠ k → InProgress rkyv xxh3 config j →
    config.shared.names (tmpOf j) ≠ some inode

/-- The invariant of runs whose calls find their temporary paths clear.  The destinations
are intact, and a call on its way works on an inode that no destination and no other call
leads to. -/
structure SavesHold (files : Files) (config : SaveConfig calls) : Prop where
  intact : DestinationsIntact rkyv xxh3 files config
  working : ∀ k, InProgress rkyv xxh3 config k → ∃ inode, WorksOn rkyv xxh3 config k inode

variable {rkyv xxh3} {config : SaveConfig calls} {files : Files}

theorem savesHold_start : SavesHold rkyv xxh3 files (saveStart rkyv xxh3 calls files) where
  intact := fun _ => .inl rfl
  working := fun _ h => absurd h.1 (Nat.lt_irrefl 0)

/-- Destinations stay intact when a step changes neither where they lead nor what
is there. -/
theorem DestinationsIntact.of_contentAt {other : SaveConfig calls}
    (h : DestinationsIntact rkyv xxh3 files config)
    (hSame : ∀ k : Fin calls.length,
      other.shared.contentAt (destOf k) = config.shared.contentAt (destOf k)) :
    DestinationsIntact rkyv xxh3 files other := by
  intro k
  rcases h k with hInitial | ⟨j, hj, header, payload, hPrepare, hImage⟩
  · exact .inl ((hSame k).trans hInitial)
  · exact .inr ⟨j, hj, header, payload, hPrepare, (hSame k).trans hImage⟩

/-- A step of another call does not disturb a call that keeps its inode, its name
and its contents. -/
theorem WorksOn.of_other {other : SaveConfig calls} {k : Fin calls.length} {inode : Nat}
    (h : WorksOn rkyv xxh3 config k inode)
    (hPc : other.pc k = config.pc k) (hRegs : other.regs k = config.regs k)
    (hName : other.shared.names (tmpOf k) = some inode)
    (hContents : other.shared.contents inode = config.shared.contents inode)
    (hDest : ∀ j : Fin calls.length, other.shared.names (destOf j) ≠ some inode)
    (hAlone : ∀ j, j ≠ k → InProgress rkyv xxh3 other j →
      other.shared.names (tmpOf j) ≠ some inode) :
    WorksOn rkyv xxh3 other k inode where
  names_tmp := hName
  contents := by rw [hContents, h.contents, hPc]
  file := by
    rw [hPc, hRegs]
    exact h.file
  tmp_ne := h.tmp_ne
  dest_ne := hDest
  alone := hAlone

theorem writtenBefore_succ {actions : List SaveAction} {position : Nat} {action : SaveAction}
    (h : actions[position]? = some action) :
    writtenBefore actions (position + 1) =
      writtenBefore actions position ++ action.written := by
  calc writtenBefore actions (position + 1)
    _ = (actions.take position ++ [action]).flatMap SaveAction.written := by
      rw [writtenBefore, List.take_add_one, h, Option.toList_some]
    _ = writtenBefore actions position ++ action.written := by
      rw [List.flatMap_append, List.flatMap_singleton, writtenBefore]

theorem inProgress_advance_of_ne {j k : Fin calls.length} (hne : j ≠ k)
    (action : SaveAction) :
    InProgress rkyv xxh3 (advance SaveAction.exec k action config) j ↔
      InProgress rkyv xxh3 config j := by
  rw [InProgress, InProgress, advance_pc_of_ne SaveAction.exec hne]

/-! ### The steps -/

/-- A step that keeps all names and adds to the call's own inode keeps the
invariant. -/
theorem SavesHold.advance_own (h : SavesHold rkyv xxh3 files config) {k : Fin calls.length}
    {action : SaveAction} {inode : Nat} (hk : WorksOn rkyv xxh3 config k inode)
    (hAction : (saveProgram rkyv xxh3 k)[config.pc k]? = some action)
    (hNames : (action.exec config.shared (config.regs k)).1.names = config.shared.names)
    (hOthers : ∀ other, other ≠ inode →
      (action.exec config.shared (config.regs k)).1.contents other =
        config.shared.contents other)
    (hOwn : (action.exec config.shared (config.regs k)).1.contents inode =
      config.shared.contents inode ++ action.written)
    (hFile : config.pc k + 1 < 4 → (action.exec config.shared (config.regs k)).2.file =
      some ⟨inode, (writtenBefore (saveProgram rkyv xxh3 k) (config.pc k + 1)).length⟩)
    (hInProgress : InProgress rkyv xxh3 config k) :
    SavesHold rkyv xxh3 files (advance SaveAction.exec k action config) where
  intact := by
    refine h.intact.of_contentAt fun j => ?_
    refine FileSystem.contentAt_congr (congrFun hNames _) fun other hOther => hOthers other ?_
    rintro rfl
    exact hk.dest_ne j hOther
  working := by
    have hBefore : ∀ i, InProgress rkyv xxh3 (advance SaveAction.exec k action config) i →
        InProgress rkyv xxh3 config i := by
      intro i hi
      by_cases hik : i = k
      · exact hik ▸ hInProgress
      · exact (inProgress_advance_of_ne hik action).mp hi
    intro j hj
    by_cases hjk : j = k
    · subst hjk
      refine ⟨inode, ?_⟩
      exact {
        names_tmp := (congrFun hNames _).trans hk.names_tmp
        contents := by
          rw [advance_pc_self, writtenBefore_succ hAction, ← hk.contents]
          exact hOwn
        file := by
          rw [advance_pc_self, advance_regs_self]
          exact hFile
        tmp_ne := hk.tmp_ne
        dest_ne := fun i hi => hk.dest_ne i ((congrFun hNames _).symm.trans hi)
        alone := fun i hne hi hSame =>
          hk.alone i hne (hBefore i hi) ((congrFun hNames _).symm.trans hSame) }
    · obtain ⟨inodeJ, hWorks⟩ := h.working j (hBefore j hj)
      -- both calls are in progress, so they work on different inodes
      have hApart : inodeJ ≠ inode := fun hEq =>
        hk.alone j hjk (hBefore j hj) (hEq ▸ hWorks.names_tmp)
      exact ⟨inodeJ, hWorks.of_other (advance_pc_of_ne _ hjk _ _) (advance_regs_of_ne _ hjk _ _)
        ((congrFun hNames _).trans hWorks.names_tmp) (hOthers inodeJ hApart)
        (fun i hi => hWorks.dest_ne i ((congrFun hNames _).symm.trans hi))
        (fun i hne hi hSame =>
          hWorks.alone i hne (hBefore i hi) ((congrFun hNames _).symm.trans hSame))⟩

theorem SavesHold.advance_writeAll (h : SavesHold rkyv xxh3 files config)
    {k : Fin calls.length} {bytes : List UInt8}
    (hAction : (saveProgram rkyv xxh3 k)[config.pc k]? = some (.writeAll bytes))
    (hPc : config.pc k = 1 ∨ config.pc k = 2) :
    SavesHold rkyv xxh3 files (advance SaveAction.exec k (.writeAll bytes) config) := by
  have hInProgress : InProgress rkyv xxh3 config k :=
    ⟨by omega, (List.getElem?_eq_some_iff.mp hAction).1⟩
  obtain ⟨inode, hk⟩ := h.working k hInProgress
  have hFile := hk.file (by omega)
  rw [← hk.contents] at hFile
  have hExec : (SaveAction.writeAll bytes).exec config.shared (config.regs k) =
      (config.shared.write 0 inode (config.shared.contents inode).length bytes,
        { config.regs k with
          file := some ⟨inode, (config.shared.contents inode).length + bytes.length⟩ }) := by
    simp [SaveAction.exec, hFile]
  -- the write goes to the inode of the call, and no other call or destination leads there
  refine h.advance_own hk hAction ?_ ?_ ?_ ?_ hInProgress
  · rw [hExec]
    rfl
  · intro other hne
    rw [hExec]
    exact FileSystem.contents_write_of_ne 0 _ hne _ _
  · rw [hExec]
    exact FileSystem.contents_write_end 0 _ rfl _
  · intro _
    rw [hExec, writtenBefore_succ hAction, ← hk.contents, List.length_append]
    rfl

theorem SavesHold.advance_syncAll (h : SavesHold rkyv xxh3 files config)
    {k : Fin calls.length}
    (hAction : (saveProgram rkyv xxh3 k)[config.pc k]? = some .syncAll)
    (hPc : config.pc k = 3) :
    SavesHold rkyv xxh3 files (advance SaveAction.exec k .syncAll config) := by
  have hInProgress : InProgress rkyv xxh3 config k :=
    ⟨by omega, (List.getElem?_eq_some_iff.mp hAction).1⟩
  obtain ⟨inode, hk⟩ := h.working k hInProgress
  exact h.advance_own hk hAction rfl (fun _ _ => rfl) (List.append_nil _).symm
    (fun hLt => by omega) hInProgress

/-- Opening a clear path keeps the invariant: the inode is the call's alone.  It is a new
one, or one that no destination and no other call in progress leads to. -/
theorem SavesHold.advance_create (h : SavesHold rkyv xxh3 files config)
    {k : Fin calls.length}
    (hAction : (saveProgram rkyv xxh3 k)[config.pc k]? = some (.create (tmpOf k)))
    (hPc : config.pc k = 0) (hClear : PathClear rkyv xxh3 config k (tmpOf k)) :
    SavesHold rkyv xxh3 files (advance SaveAction.exec k (.create (tmpOf k)) config) := by
  have hCreated := config.shared.create_spec (tmpOf k)
  generalize hCreate : config.shared.create (tmpOf k) = created at hCreated
  obtain ⟨shared, inode⟩ := created
  dsimp only at hCreated
  have hShared : (advance SaveAction.exec k (.create (tmpOf k)) config).shared = shared :=
    congrArg Prod.fst hCreate
  have hFile : ((advance SaveAction.exec k (.create (tmpOf k)) config).regs k).file =
      some ⟨inode, 0⟩ := by
    rw [advance_regs_self]
    exact congrArg (fun created => some (⟨created.2, 0⟩ : Handle)) hCreate
  -- the inode is one that the path led to, and then `hClear` applies, or a new
  -- one that nothing leads to
  have hDests : ∀ j : Fin calls.length, config.shared.names (destOf j) ≠ some inode := by
    rcases hCreated.old_or_new with hOld | ⟨-, hNew⟩
    · exact (hClear.2 inode hOld).1
    · exact fun j => hNew _
  have hOthers : ∀ j, j ≠ k → InProgress rkyv xxh3 config j →
      config.shared.names (tmpOf j) ≠ some inode := by
    rcases hCreated.old_or_new with hOld | ⟨-, hNew⟩
    · exact (hClear.2 inode hOld).2
    · exact fun j _ _ => hNew _
  -- a call in progress with the same temporary path would share the inode
  have hTmps : ∀ j, j ≠ k → InProgress rkyv xxh3 config j → tmpOf j ≠ tmpOf k := by
    intro j hjk hj hSame
    obtain ⟨inodeJ, hWorks⟩ := h.working j hj
    have hName := hWorks.names_tmp
    rw [hSame] at hName
    rcases hCreated.old_or_new with hOld | ⟨hNone, -⟩
    · exact hOthers j hjk hj (by rw [hSame, hOld])
    · rw [hNone] at hName
      cases hName
  have hNamesDest : ∀ j : Fin calls.length,
      shared.names (destOf j) = config.shared.names (destOf j) :=
    fun j => hCreated.names_of_ne _ (hClear.1 j).symm
  have hNamesTmp : ∀ j, j ≠ k → InProgress rkyv xxh3 config j →
      shared.names (tmpOf j) = config.shared.names (tmpOf j) :=
    fun j hjk hj => hCreated.names_of_ne _ (hTmps j hjk hj)
  constructor
  · refine h.intact.of_contentAt fun j => ?_
    rw [hShared]
    refine FileSystem.contentAt_congr (hNamesDest j) fun other hOther =>
      hCreated.contents_of_ne other ?_
    rintro rfl
    exact hDests j hOther
  · intro j hj
    by_cases hjk : j = k
    · -- the call itself: an empty file with the handle at its start
      subst hjk
      have hWritten : writtenBefore (saveProgram rkyv xxh3 j) 1 = [] := by
        rw [hPc] at hAction
        exact writtenBefore_succ hAction
      refine ⟨inode, ?_⟩
      constructor
      · rw [hShared]
        exact hCreated.names_self
      · rw [hShared, advance_pc_self, hPc, hWritten]
        exact hCreated.contents_self
      · intro _
        rw [hFile, advance_pc_self, hPc, hWritten]
        rfl
      · exact hClear.1
      · intro i
        rw [hShared, hNamesDest]
        exact hDests i
      · intro i hij hi
        have hi' := (inProgress_advance_of_ne hij _).mp hi
        rw [hShared, hNamesTmp i hij hi']
        exact hOthers i hij hi'
    · -- another call keeps its name and its inode
      have hj' := (inProgress_advance_of_ne hjk _).mp hj
      obtain ⟨inodeJ, hWorks⟩ := h.working j hj'
      have hApart : inodeJ ≠ inode := fun hEq =>
        hOthers j hjk hj' (hEq ▸ hWorks.names_tmp)
      refine ⟨inodeJ, hWorks.of_other (advance_pc_of_ne _ hjk _ _)
        (advance_regs_of_ne _ hjk _ _) ?_ ?_ ?_ ?_⟩
      · rw [hShared, hNamesTmp j hjk hj']
        exact hWorks.names_tmp
      · rw [hShared]
        exact hCreated.contents_of_ne _ hApart
      · intro i
        rw [hShared, hNamesDest]
        exact hWorks.dest_ne i
      · intro i hij hi
        rw [hShared]
        by_cases hik : i = k
        · rw [hik, hCreated.names_self]
          exact fun hSame => hApart (Option.some.inj hSame).symm
        · have hi' := (inProgress_advance_of_ne hik _).mp hi
          rw [hNamesTmp i hik hi']
          exact hWorks.alone i hij hi'

/-- Renaming the finished file keeps the invariant: the destination gets the whole
image. -/
theorem SavesHold.advance_rename (h : SavesHold rkyv xxh3 files config)
    {k : Fin calls.length} {header : FrozenGraphHeader} {payload : List UInt8} {size : UInt64}
    (hPrepare : prepare rkyv xxh3 (calls.get k).graph = .ok (header, payload))
    (hProgram : saveProgram rkyv xxh3 k = saveActions header payload (destOf k))
    (hAction : (saveProgram rkyv xxh3 k)[config.pc k]? =
      some (.rename (tmpOf k) (destOf k) size))
    (hPc : config.pc k = 4) :
    SavesHold rkyv xxh3 files
      (advance SaveAction.exec k (.rename (tmpOf k) (destOf k) size) config) := by
  have hInProgress : InProgress rkyv xxh3 config k :=
    ⟨by omega, (List.getElem?_eq_some_iff.mp hAction).1⟩
  obtain ⟨inode, hk⟩ := h.working k hInProgress
  obtain ⟨shared, hRename, hRenamed⟩ := FileSystem.rename_spec hk.names_tmp (hk.dest_ne k)
  have hShared : (advance SaveAction.exec k (.rename (tmpOf k) (destOf k) size) config).shared =
      shared := by
    simp [advance, SaveAction.exec, hRename]
  -- before its last step the call has written the header and the payload
  have hImage : config.shared.contents inode = image header payload := by
    rw [hk.contents, hPc, hProgram]
    simp [writtenBefore, saveActions, SaveAction.written, image]
  have hNames : ∀ path, path ≠ tmpOf k → path ≠ destOf k →
      shared.names path = config.shared.names path :=
    fun path hTmp hDest => hRenamed.names_of_ne path hTmp hDest
  have hDone : ¬InProgress rkyv xxh3
      (advance SaveAction.exec k (.rename (tmpOf k) (destOf k) size) config) k := by
    intro hLater
    have hLt := hLater.2
    rw [advance_pc_self, hPc, hProgram] at hLt
    exact absurd hLt (by simp [saveActions])
  have hNamesTmp : ∀ j, j ≠ k → InProgress rkyv xxh3 config j →
      shared.names (tmpOf j) = config.shared.names (tmpOf j) := by
    intro j hjk hj
    obtain ⟨inodeJ, hWorks⟩ := h.working j hj
    refine hNames _ (fun hSame => hk.alone j hjk hj ?_) (hWorks.tmp_ne k)
    rw [hSame, hk.names_tmp]
  constructor
  · intro i
    rw [HoldsImage, hShared]
    by_cases hSame : destOf i = destOf k
    -- the destination now leads to the inode that the call has filled
    · refine .inr ⟨k, hSame.symm, header, payload, hPrepare, ?_⟩
      calc shared.contentAt (destOf i)
        _ = some (shared.contents inode) := by
          rw [hSame, FileSystem.contentAt, hRenamed.names_target, Option.map_some]
        _ = some (image header payload) := by rw [hRenamed.contents_eq, hImage]
    · have hContent : shared.contentAt (destOf i) = config.shared.contentAt (destOf i) :=
        FileSystem.contentAt_congr (hNames _ (hk.tmp_ne i).symm hSame)
          fun _ _ => congrFun hRenamed.contents_eq _
      rw [hContent]
      exact h.intact i
  · intro j hj
    have hjk : j ≠ k := fun hEq => hDone (hEq ▸ hj)
    have hj' := (inProgress_advance_of_ne hjk _).mp hj
    obtain ⟨inodeJ, hWorks⟩ := h.working j hj'
    refine ⟨inodeJ, hWorks.of_other (advance_pc_of_ne _ hjk _ _)
      (advance_regs_of_ne _ hjk _ _) ?_ ?_ ?_ ?_⟩
    · rw [hShared, hNamesTmp j hjk hj']
      exact hWorks.names_tmp
    · rw [hShared, hRenamed.contents_eq]
    · intro i
      rw [hShared]
      by_cases hSame : destOf i = destOf k
      · rw [hSame, hRenamed.names_target]
        intro hEq
        exact hk.alone j hjk hj' (Option.some.inj hEq ▸ hWorks.names_tmp)
      · rw [hNames _ (hk.tmp_ne i).symm hSame]
        exact hWorks.dest_ne i
    · intro i hij hi
      have hik : i ≠ k := fun hEq => hDone (hEq ▸ hi)
      have hi' := (inProgress_advance_of_ne hik _).mp hi
      rw [hShared, hNamesTmp i hik hi']
      exact hWorks.alone i hij hi'

/-- Step lemma: a step of a call that finds its temporary path clear keeps the
invariant. -/
theorem SavesHold.advance (config : SaveConfig calls) (k : Fin calls.length)
    (action : SaveAction) (h : SavesHold rkyv xxh3 files config)
    (hAction : (saveProgram rkyv xxh3 k)[config.pc k]? = some action)
    (hClear : CreateClear rkyv xxh3 config k action) :
    SavesHold rkyv xxh3 files (advance SaveAction.exec k action config) := by
  obtain ⟨header, payload, hPrepare, hProgram, hCases⟩ := saveProgram_cases rkyv xxh3 hAction
  rcases hCases with
    ⟨hPc, rfl⟩ | ⟨hPc, rfl⟩ | ⟨hPc, rfl⟩ | ⟨hPc, rfl⟩ | ⟨hPc, rfl⟩
  · exact h.advance_create hAction hPc hClear
  · exact h.advance_writeAll hAction (.inl hPc)
  · exact h.advance_writeAll hAction (.inr hPc)
  · exact h.advance_syncAll hAction hPc
  · exact h.advance_rename hPrepare hProgram hAction hPc

end Runs

/-- In every run in which each call finds its temporary path clear when it opens
it, every destination holds at every moment what it held at first or the complete
image of a graph that some call was asked to save there. -/
theorem destinationsIntact_of_create_clear (rkyv : Rkyv) (xxh3 : Xxh3)
    (calls : List SaveCall) (files : Files) (schedule : List (Fin calls.length))
    (hClear : StepsMeet (saveProgram rkyv xxh3) SaveAction.exec (CreateClear rkyv xxh3)
      schedule (saveStart rkyv xxh3 calls files)) (n : Nat) :
    DestinationsIntact rkyv xxh3 files (saveRun rkyv xxh3 calls files (schedule.take n)) := by
  rw [← List.take_append_drop n schedule, stepsMeet_append] at hClear
  exact (run_invariant_of_stepsMeet SavesHold.advance (schedule.take n) _ savesHold_start
    hClear.1).intact

/-- An empty directory. -/
def noFiles : Files where
  names := fun _ => none
  contents := fun _ => []
  next := 0
  names_lt := fun h => by cases h

def graphBin : Path := ⟨[], utf8 "graph.bin"⟩

def backupBin : Path := ⟨[], utf8 "backup.bin"⟩

/-- Two graphs for two destinations. -/
def separateSaves : List SaveCall :=
  [⟨labelIndexGraph [1], graphBin⟩, ⟨labelIndexGraph [2, 2], backupBin⟩]

/-- The two calls take their steps in turn. -/
def inTurn : List (Fin separateSaves.length) :=
  ([0, 1, 0, 1, 0, 1, 0, 1, 0, 1] : List (Fin 2))

/-- Saves to destinations with temporary files of their own do not disturb each
other. -/
theorem destinationsIntact_inTurn :
    DestinationsIntact labelIndexRkyv byteSum noFiles
      (saveRun labelIndexRkyv byteSum separateSaves noFiles (inTurn.take 10)) :=
  destinationsIntact_of_create_clear labelIndexRkyv byteSum separateSaves noFiles inTurn
    (by decide) 10

/-- Two graphs for one destination. -/
def competingSaves : List SaveCall :=
  [⟨labelIndexGraph [1], graphBin⟩, ⟨labelIndexGraph [2, 2], graphBin⟩]

/-- The second call opens the temporary file when the first has written it and is
about to rename it. -/
def truncatingSchedule : List (Fin competingSaves.length) :=
  ([0, 0, 0, 0, 1, 0] : List (Fin 2))

/-- Two savers share one temporary file, and the destination ends up empty. -/
theorem not_destinationsIntact_of_shared_tmp :
    ¬∀ (rkyv : Rkyv) (xxh3 : Xxh3) (calls : List SaveCall) (files : Files)
        (schedule : List (Fin calls.length)),
      DestinationsIntact rkyv xxh3 files (saveRun rkyv xxh3 calls files schedule) := by
  intro h
  have hIntact := h labelIndexRkyv byteSum competingSaves noFiles truncatingSchedule
    (0 : Fin 2)
  have hEmpty : (saveRun labelIndexRkyv byteSum competingSaves noFiles
      truncatingSchedule).shared.contentAt graphBin = some [] := by decide
  rcases hIntact with hInitial | ⟨j, -, header, payload, -, hImage⟩
  · have hNone := hEmpty.symm.trans hInitial
    cases hNone
  · have hNil : [] = image header payload := Option.some.inj (hEmpty.symm.trans hImage)
    have hLength := congrArg List.length hNil
    rw [image, List.length_append, List.Vector.toList_length, List.length_nil, headerSize]
      at hLength
    omega

end Graph
end CodebaseMem
