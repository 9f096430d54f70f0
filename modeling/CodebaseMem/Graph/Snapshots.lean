import CodebaseMem.Graph.ConcurrentSaves
import CodebaseMem.Graph.InterruptedSave
import CodebaseMem.Graph.Loading

/-!
# Readers of a file that is saved again and again

A program saves one graph after the other to one path, and other programs load the
file at any moment, also between two steps of a save.  A loaded graph keeps the mapping
of the file, so the inode it mapped must never change, although the saves go on.

Saves fail at any step, and the machine can stop.  A stop ends the save on its way and
the readers.  Of the file that was open and not synced it leaves arbitrary contents.
And since `save` syncs the file but never the directory it is in, a stop may take back
the latest steps of the directory, renames among them: the names are then what they
were at some moment since the machine was started.  What a stop has brought back stays.

* `GraphFile.next` is one event of such a life, `GraphFile.run` a sequence of them;
* `SnapshotsHold` is the invariant, kept by every event (`SnapshotsHold.next`);
* `keepsSnapshots_iff` and `load_run` are about whole runs.

The model has one saver at a time (`ConcurrentSaves` has several), and no other program
changes the files.  A stop takes back steps of the directory from the last one on,
never one from the middle, and no contents that were synced.  The temporary file that a
failed save leaves behind keeps its contents over a stop: the next save truncates it
anyway.
-/

namespace CodebaseMem
namespace Graph

open CodebaseMem.Core Library

/-- A call of `save` on its way: the number of steps behind it and its local state. -/
structure RunningSave where
  graph : FrozenGraph
  step : Nat
  locals : SaveLocals

/-- A mapped file: its inode, and the bytes it held when it was mapped. -/
structure Mapping where
  inode : Nat
  bytes : List UInt8

/-- The names at some moment, and the graph whose image a save had put at the path, if
one had. -/
structure Directory where
  files : Files
  version : Option FrozenGraph

/-- The files, the save on its way and the mappings the readers hold.  Beside them
stand the graph whose image is at the path, unless it is as at first, the record of all
graphs that were put there, and the states of the directory that a stop may bring
back. -/
structure GraphFile where
  files : Files
  saving : Option RunningSave
  mappings : List Mapping
  version : Option FrozenGraph
  published : List FrozenGraph
  past : List Directory

/-- What can happen next.  A stop leaves `lost` in the open file and goes back to the
state of the directory number `back` since the start, or to the present one if there
are not so many. -/
inductive GraphFileEvent where
  | begin (graph : FrozenGraph)
  | advance
  | fail (bytes : Nat)
  | stop (bytes : Nat) (lost : List UInt8) (back : Nat)
  | map

def GraphFileEvent.isStop : GraphFileEvent → Bool
  | .stop _ _ _ => true
  | _ => false

namespace GraphFile

def start (files : Files) : GraphFile where
  files := files
  saving := none
  mappings := []
  version := none
  published := []
  past := [⟨files, none⟩]

def directory (s : GraphFile) : Directory := ⟨s.files, s.version⟩

section

variable (rkyv : Rkyv) (xxh3 : Xxh3) (path : Path)

/-- The next step of a save, if it has one. -/
def nextAction (save : RunningSave) : Option SaveAction :=
  (SaveCall.actions rkyv xxh3 ⟨save.graph, path⟩)[save.step]?

/-- What takes effect of a step that is interrupted. -/
def interrupt (s : GraphFile) (bytes : Nat) : Files × SaveLocals :=
  match s.saving with
  | none => (s.files, ⟨none, none⟩)
  | some save =>
      match (nextAction rkyv xxh3 path save).bind (SaveAction.interrupted bytes) with
      | none => (s.files, save.locals)
      | some action => action.exec s.files save.locals

/-- The step is a rename that succeeds. -/
def publishes (files : Files) : SaveAction → Bool
  | .rename source target _ => (files.rename source target).isSome
  | _ => false

def takeStep (s : GraphFile) (save : RunningSave) (action : SaveAction) : GraphFile :=
  let result := action.exec s.files save.locals
  { s with
    files := result.1
    saving := some ⟨save.graph, save.step + 1, result.2⟩
    version := if publishes s.files action then some save.graph else s.version
    published := if publishes s.files action then s.published ++ [save.graph] else s.published }

/-- Note the present state of the directory. -/
def record (s : GraphFile) : GraphFile := { s with past := s.past ++ [s.directory] }

/-- The machine stops, with these contents of the files, and starts again in an earlier
state of the directory. -/
def restart (s : GraphFile) (files : Files) (directory : Directory) : GraphFile :=
  let files := files.restore directory.files
  { s with
    files := files
    saving := none
    mappings := []
    version := directory.version
    past := [⟨files, directory.version⟩] }

/-- One event.  A save begins when the one before has ended. -/
def next (s : GraphFile) : GraphFileEvent → GraphFile
  | .begin graph =>
      match s.saving with
      | some _ => s
      | none =>
          { s with saving := some ⟨graph, 0, SaveCall.locals rkyv xxh3 ⟨graph, path⟩⟩ }
  | .advance =>
      match s.saving with
      | none => s
      | some save =>
          match nextAction rkyv xxh3 path save with
          | none => { s with saving := none }
          | some action => (s.takeStep save action).record
  | .fail bytes => { s with files := (s.interrupt rkyv xxh3 path bytes).1, saving := none }
  | .stop bytes lost back =>
      s.restart (loseUnsynced lost (s.interrupt rkyv xxh3 path bytes))
        (s.past.getD back s.directory)
  -- the part of `load` that opens and maps the file
  | .map =>
      match s.files.names path with
      | none => s
      | some inode => { s with mappings := s.mappings ++ [⟨inode, s.files.contents inode⟩] }

def run (events : List GraphFileEvent) (s : GraphFile) : GraphFile :=
  events.foldl (next rkyv xxh3 path) s

theorem run_concat (events : List GraphFileEvent) (event : GraphFileEvent) (s : GraphFile) :
    s.run rkyv xxh3 path (events ++ [event]) =
      (s.run rkyv xxh3 path events).next rkyv xxh3 path event := by
  rw [run, List.foldl_append]
  rfl

/-- What the path should hold: the image of the version, and before the first one what
it held initially. -/
def current (initial : Option (List UInt8)) (version : Option FrozenGraph) :
    Option (List UInt8) :=
  match version with
  | none => initial
  | some graph => imageOf rkyv xxh3 graph

/-- Until a stop, an event leaves the version and the record as they are, or publishes a
graph. -/
theorem next_cases (s : GraphFile) {event : GraphFileEvent} (hRunning : event.isStop = false) :
    ((s.next rkyv xxh3 path event).published = s.published ∧
        (s.next rkyv xxh3 path event).version = s.version) ∨
      ∃ graph, (s.next rkyv xxh3 path event).published = s.published ++ [graph] ∧
        (s.next rkyv xxh3 path event).version = some graph := by
  cases event with
  | begin graph =>
      unfold next
      dsimp only
      split <;> exact Or.inl ⟨rfl, rfl⟩
  | advance =>
      unfold next
      dsimp only
      split
      · exact Or.inl ⟨rfl, rfl⟩
      · next save hSaving =>
          split
          · exact Or.inl ⟨rfl, rfl⟩
          · next action hAction =>
              dsimp only [record, takeStep]
              cases publishes s.files action with
              | true => exact Or.inr ⟨save.graph, rfl, rfl⟩
              | false => exact Or.inl ⟨rfl, rfl⟩
  | fail bytes => exact Or.inl ⟨rfl, rfl⟩
  | stop bytes lost back => cases hRunning
  | map =>
      unfold next
      dsimp only
      split <;> exact Or.inl ⟨rfl, rfl⟩

/-- The only state of the directory that an event notes is the one it leads to. -/
theorem mem_past_next {s : GraphFile} {event : GraphFileEvent} {d : Directory}
    (hd : d ∈ (s.next rkyv xxh3 path event).past) :
    d ∈ s.past ∨ d.version = (s.next rkyv xxh3 path event).version := by
  cases event with
  | begin graph =>
      unfold next at hd
      dsimp only at hd
      split at hd <;> exact Or.inl hd
  | advance =>
      unfold next at hd ⊢
      dsimp only at hd ⊢
      split at hd
      · exact Or.inl hd
      · split at hd
        · exact Or.inl hd
        · rcases List.mem_append.mp hd with hOld | hNew
          · exact Or.inl hOld
          · rw [List.mem_singleton.mp hNew]
            exact Or.inr rfl
  | fail bytes => exact Or.inl hd
  | stop bytes lost back =>
      rw [List.mem_singleton.mp hd]
      exact Or.inr rfl
  | map =>
      unfold next at hd
      dsimp only at hd
      split at hd <;> exact Or.inl hd

theorem takeStep_of_not_publishes {s : GraphFile} {save : RunningSave} {action : SaveAction}
    (hNot : publishes s.files action = false) :
    s.takeStep save action =
      { s with
        files := (action.exec s.files save.locals).1
        saving := some ⟨save.graph, save.step + 1, (action.exec s.files save.locals).2⟩ } := by
  simp [takeStep, hNot]

/-! ### The invariant -/

/-- The open file of a save is the temporary file, which holds what the save has
written so far. -/
structure SaveHolds (files : Files) (save : RunningSave) : Prop where
  file : ∀ handle, save.locals.file = some handle →
    files.names (tmpPath path) = some handle.inode
  written : 0 < save.step → save.step < 5 → ∃ inode,
    files.names (tmpPath path) = some inode ∧
      files.contents inode =
        writtenBefore (SaveCall.actions rkyv xxh3 ⟨save.graph, path⟩) save.step ∧
      (save.step < 4 → save.locals.file = some ⟨inode, (files.contents inode).length⟩)
  closed : 4 ≤ save.step → save.locals.file = none

/-- The names of this state, over the present contents: the path holds what it should,
and the temporary path leads elsewhere. -/
structure DirectoryHolds (initial : Option (List UInt8)) (files : Files)
    (published : List FrozenGraph) (d : Directory) : Prop where
  content : (d.files.names path).map files.contents = current rkyv xxh3 initial d.version
  saved : ∀ graph, d.version = some graph → graph ∈ published
  apart : ∀ inode, d.files.names (tmpPath path) = some inode →
    d.files.names path ≠ some inode
  older : d.files.next ≤ files.next

/-- Every state of the directory that a stop may bring back is sound, no mapping has
changed, and the temporary path leads neither to a mapped file nor to a file that the
path led to in any of these states. -/
structure SnapshotsHold (initial : Option (List UInt8)) (s : GraphFile) : Prop where
  present : DirectoryHolds rkyv xxh3 path initial s.files s.published s.directory
  past : ∀ d ∈ s.past, DirectoryHolds rkyv xxh3 path initial s.files s.published d
  prepared : ∀ graph ∈ s.published, ∃ header payload,
    prepare rkyv xxh3 graph = .ok (header, payload)
  unchanged : ∀ mapping ∈ s.mappings, s.files.contents mapping.inode = mapping.bytes
  origin : ∀ mapping ∈ s.mappings, initial = some mapping.bytes ∨
    ∃ graph ∈ s.published, imageOf rkyv xxh3 graph = some mapping.bytes
  below : ∀ mapping ∈ s.mappings, mapping.inode < s.files.next
  apart : ∀ inode, s.files.names (tmpPath path) = some inode →
    (∀ d ∈ s.past, d.files.names path ≠ some inode) ∧
      ∀ mapping ∈ s.mappings, mapping.inode ≠ inode
  saving : ∀ save, s.saving = some save → SaveHolds rkyv xxh3 path s.files save

variable {rkyv xxh3 path} {initial : Option (List UInt8)} {s : GraphFile}

theorem snapshotsHold_start (files : Files) (hApart : ¬SameFile files (tmpPath path) path) :
    SnapshotsHold rkyv xxh3 path (files.contentAt path) (start files) := by
  have hTmp : ∀ inode, files.names (tmpPath path) = some inode →
      files.names path ≠ some inode := fun inode hTmp hPath => hApart ⟨inode, hTmp, hPath⟩
  have hHolds : DirectoryHolds rkyv xxh3 path (files.contentAt path) files [] ⟨files, none⟩ :=
    ⟨rfl, by simp, hTmp, le_rfl⟩
  exact {
    present := hHolds
    past := by simpa [start] using hHolds
    prepared := by simp [start]
    unchanged := by simp [start]
    origin := by simp [start]
    below := by simp [start]
    apart := by simpa [start] using hTmp
    saving := by simp [start] }

/-- A state of the directory stays sound when nothing changes in the file that its path
leads to. -/
theorem DirectoryHolds.mono {files files' : Files} {published published' : List FrozenGraph}
    {d : Directory} (h : DirectoryHolds rkyv xxh3 path initial files published d)
    (hContents : ∀ inode, d.files.names path = some inode →
      files'.contents inode = files.contents inode)
    (hPublished : published ⊆ published') (hNext : files.next ≤ files'.next) :
    DirectoryHolds rkyv xxh3 path initial files' published' d where
  content := by
    rw [← h.content]
    cases hPath : d.files.names path with
    | none => rfl
    | some inode => rw [Option.map_some, Option.map_some, hContents inode hPath]
  saved := fun graph hGraph => hPublished (h.saved graph hGraph)
  apart := h.apart
  older := h.older.trans hNext

/-- The state that was noted last is the present one. -/
theorem SnapshotsHold.record (h : SnapshotsHold rkyv xxh3 path initial s) :
    SnapshotsHold rkyv xxh3 path initial s.record where
  present := h.present
  past := by
    intro d hd
    rcases List.mem_append.mp hd with hOld | hNew
    · exact h.past d hOld
    · rw [List.mem_singleton.mp hNew]
      exact h.present
  prepared := h.prepared
  unchanged := h.unchanged
  origin := h.origin
  below := h.below
  apart := by
    intro inode hTmp
    refine ⟨fun d hd => ?_, (h.apart inode hTmp).2⟩
    rcases List.mem_append.mp hd with hOld | hNew
    · exact (h.apart inode hTmp).1 d hOld
    · rw [List.mem_singleton.mp hNew]
      exact h.present.apart inode hTmp
  saving := h.saving

/-- A change to the temporary file alone.  The names stay, and the contents of every
inode that the temporary path does not lead to, so no version and no mapping is touched.
-/
theorem SnapshotsHold.of_frame (h : SnapshotsHold rkyv xxh3 path initial s) {files : Files}
    (saving : Option RunningSave) (hNames : files.names = s.files.names)
    (hNext : files.next = s.files.next)
    (hContents : ∀ inode, s.files.names (tmpPath path) ≠ some inode →
      files.contents inode = s.files.contents inode)
    (hSaving : ∀ save, saving = some save → SaveHolds rkyv xxh3 path files save) :
    SnapshotsHold rkyv xxh3 path initial { s with files := files, saving := saving } where
  present := by
    have hSame := h.present.mono
      (fun inode hPath => hContents inode fun hTmp => h.present.apart inode hTmp hPath)
      (fun _ hGraph => hGraph) hNext.ge
    refine ⟨?_, h.present.saved, ?_, le_rfl⟩
    · simpa [directory, hNames] using hSame.content
    · simpa [directory, hNames] using h.present.apart
  past := fun d hd => (h.past d hd).mono
    (fun inode hPath => hContents inode fun hTmp => (h.apart inode hTmp).1 d hd hPath)
    (fun _ hGraph => hGraph) hNext.ge
  prepared := h.prepared
  unchanged := by
    intro mapping hMem
    rw [← h.unchanged mapping hMem]
    exact hContents _ fun hTmp => (h.apart _ hTmp).2 mapping hMem rfl
  origin := h.origin
  below := by
    rw [hNext]
    exact h.below
  apart := by
    rw [hNames]
    exact h.apart
  saving := hSaving

/-- The machine starts again in a sound state of the directory.  There are no mappings
and no save on its way, and the states before are forgotten. -/
theorem DirectoryHolds.restart {files : Files} {d : Directory}
    (h : DirectoryHolds rkyv xxh3 path initial files s.published d)
    (hPrepared : ∀ graph ∈ s.published, ∃ header payload,
      prepare rkyv xxh3 graph = .ok (header, payload)) :
    SnapshotsHold rkyv xxh3 path initial (s.restart files d) := by
  have hHolds : DirectoryHolds rkyv xxh3 path initial (files.restore d.files) s.published
      ⟨files.restore d.files, d.version⟩ := ⟨h.content, h.saved, h.apart, le_rfl⟩
  exact {
    present := hHolds
    past := by simpa [GraphFile.restart] using hHolds
    prepared := hPrepared
    unchanged := fun mapping hMem => by cases hMem
    origin := fun mapping hMem => by cases hMem
    below := fun mapping hMem => by cases hMem
    apart := fun inode hTmp =>
      ⟨by simpa [GraphFile.restart] using h.apart inode hTmp, fun mapping hMem => by cases hMem⟩
    saving := fun save hNone => by cases hNone }

theorem nextAction_cases {save : RunningSave} {action : SaveAction}
    (hAction : nextAction rkyv xxh3 path save = some action) :
    ∃ header payload, prepare rkyv xxh3 save.graph = .ok (header, payload) ∧
      SaveCall.actions rkyv xxh3 ⟨save.graph, path⟩ = saveActions header payload path ∧
      ((save.step = 0 ∧ action = .create (tmpPath path)) ∨
        (save.step = 1 ∧ action = .writeAll header.toBytes.toList) ∨
        (save.step = 2 ∧ action = .writeAll payload) ∨
        (save.step = 3 ∧ action = .syncAll) ∨
        (save.step = 4 ∧ action = .rename (tmpPath path) path
          (UInt64.ofNat headerSize + header.payloadLen))) :=
  @saveProgram_cases rkyv xxh3 [⟨save.graph, path⟩] ⟨0, by simp⟩ save.step action hAction

theorem SaveHolds.frame_writeAll {files : Files} {save : RunningSave}
    (h : SaveHolds rkyv xxh3 path files save) (bytes : List UInt8) :
    let result := (SaveAction.writeAll bytes).exec files save.locals
    result.1.names = files.names ∧ result.1.next = files.next ∧
      ∀ inode, files.names (tmpPath path) ≠ some inode →
        result.1.contents inode = files.contents inode := by
  cases hFile : save.locals.file with
  | none => simp [SaveAction.exec, hFile]
  | some handle =>
      simp only [SaveAction.exec, hFile]
      refine ⟨rfl, rfl, fun inode hTmp => ?_⟩
      refine FileSystem.contents_write_of_ne 0 files ?_ _ _
      rintro rfl
      exact hTmp (h.file handle hFile)

/-- A step that is interrupted changes the temporary file at most.  Only a write takes
effect in part. -/
theorem SnapshotsHold.frame_interrupt (h : SnapshotsHold rkyv xxh3 path initial s)
    (bytes : Nat) :
    let result := s.interrupt rkyv xxh3 path bytes
    result.1.names = s.files.names ∧ result.1.next = s.files.next ∧
      (∀ inode, s.files.names (tmpPath path) ≠ some inode →
        result.1.contents inode = s.files.contents inode) ∧
      ∀ handle, result.2.file = some handle →
        s.files.names (tmpPath path) = some handle.inode := by
  unfold interrupt
  cases hSaving : s.saving with
  | none => simp
  | some save =>
      have hSave := h.saving save hSaving
      dsimp only
      cases hAction : (nextAction rkyv xxh3 path save).bind (SaveAction.interrupted bytes) with
      | none => exact ⟨rfl, rfl, fun _ _ => rfl, hSave.file⟩
      | some action =>
          obtain ⟨whole, -, hPart⟩ := Option.bind_eq_some_iff.mp hAction
          cases whole with
          | writeAll content =>
              obtain rfl := Option.some.inj hPart
              obtain ⟨hNames, hNext, hContents⟩ := hSave.frame_writeAll (content.take bytes)
              refine ⟨hNames, hNext, hContents, fun handle hHandle => ?_⟩
              cases hFile : save.locals.file with
              | none => simp [SaveAction.exec, hFile] at hHandle
              | some before =>
                  simp only [SaveAction.exec, hFile, Option.some.injEq] at hHandle
                  rw [hSave.file before hFile, ← hHandle]
          | create => cases hPart
          | syncAll => cases hPart
          | rename => cases hPart

theorem SnapshotsHold.fail (h : SnapshotsHold rkyv xxh3 path initial s) (bytes : Nat) :
    SnapshotsHold rkyv xxh3 path initial (s.next rkyv xxh3 path (.fail bytes)) := by
  obtain ⟨hNames, hNext, hContents, -⟩ := h.frame_interrupt bytes
  exact h.of_frame none hNames hNext hContents fun save hNone => by cases hNone

/-- When the machine stops, the readers are gone, and the path leads to what it led to
at some moment before. -/
theorem SnapshotsHold.stop (h : SnapshotsHold rkyv xxh3 path initial s) (bytes : Nat)
    (lost : List UInt8) (back : Nat) :
    SnapshotsHold rkyv xxh3 path initial (s.next rkyv xxh3 path (.stop bytes lost back)) := by
  obtain ⟨hNames, hNext, hContents, hFile⟩ := h.frame_interrupt bytes
  have hLost : (loseUnsynced lost (s.interrupt rkyv xxh3 path bytes)).names = s.files.names ∧
      (loseUnsynced lost (s.interrupt rkyv xxh3 path bytes)).next = s.files.next ∧
      ∀ inode, s.files.names (tmpPath path) ≠ some inode →
        (loseUnsynced lost (s.interrupt rkyv xxh3 path bytes)).contents inode =
          s.files.contents inode := by
    unfold loseUnsynced
    split
    · exact ⟨hNames, hNext, hContents⟩
    · next handle hHandle =>
        refine ⟨hNames, hNext, fun inode hTmp => ?_⟩
        have hne : inode ≠ handle.inode := by
          rintro rfl
          exact hTmp (hFile handle hHandle)
        show Function.update (s.interrupt rkyv xxh3 path bytes).1.contents handle.inode lost
          inode = _
        rw [Function.update_of_ne hne]
        exact hContents inode hTmp
  obtain ⟨hNames', hNext', hContents'⟩ := hLost
  have hFrame := h.of_frame none hNames' hNext' hContents'
    fun save hNone => by cases hNone
  -- the state that comes back is one of those noted, or the present one
  have hBack : DirectoryHolds rkyv xxh3 path initial
      (loseUnsynced lost (s.interrupt rkyv xxh3 path bytes)) s.published
      (s.past.getD back s.directory) := by
    rw [List.getD_eq_getElem?_getD]
    cases hPast : s.past[back]? with
    | some d => exact hFrame.past d (List.mem_of_getElem? hPast)
    | none =>
        refine ⟨?_, hFrame.present.saved, h.present.apart, hNext'.ge⟩
        have hContent := hFrame.present.content
        dsimp only [directory] at hContent
        rwa [hNames'] at hContent
  exact hBack.restart h.prepared

theorem SnapshotsHold.map (h : SnapshotsHold rkyv xxh3 path initial s) :
    SnapshotsHold rkyv xxh3 path initial (s.next rkyv xxh3 path .map) := by
  unfold next
  dsimp only
  split
  · exact h
  · next inode hPath =>
      -- the new mapping holds what the path holds, and that is the present version
      have hOrigin : initial = some (s.files.contents inode) ∨
          ∃ graph ∈ s.published, imageOf rkyv xxh3 graph = some (s.files.contents inode) := by
        have hContent := h.present.content
        dsimp only [directory] at hContent
        rw [hPath, Option.map_some] at hContent
        cases hVersion : s.version with
        | none =>
            rw [hVersion, GraphFile.current] at hContent
            exact Or.inl hContent.symm
        | some graph =>
            rw [hVersion, GraphFile.current] at hContent
            exact Or.inr ⟨graph, h.present.saved graph hVersion, hContent.symm⟩
      -- every clause about mappings splits into the old ones and the new one
      have hMem : ∀ mapping, mapping ∈ s.mappings ++ [⟨inode, s.files.contents inode⟩] →
          mapping ∈ s.mappings ∨ mapping = ⟨inode, s.files.contents inode⟩ := by
        intro mapping hMapping
        simpa using hMapping
      refine ⟨h.present, h.past, h.prepared, ?_, ?_, ?_, ?_, h.saving⟩
      · intro mapping hMapping
        rcases hMem mapping hMapping with hOld | rfl
        · exact h.unchanged mapping hOld
        · rfl
      · intro mapping hMapping
        rcases hMem mapping hMapping with hOld | rfl
        · exact h.origin mapping hOld
        · exact hOrigin
      · intro mapping hMapping
        rcases hMem mapping hMapping with hOld | rfl
        · exact h.below mapping hOld
        · exact s.files.names_lt hPath
      · intro other hTmp
        refine ⟨(h.apart other hTmp).1, fun mapping hMapping => ?_⟩
        rcases hMem mapping hMapping with hOld | rfl
        · exact (h.apart other hTmp).2 mapping hOld
        · rintro rfl
          exact h.present.apart inode hTmp hPath

/-- Opening the temporary file takes an inode that no reader has mapped and that no
state of the directory has at the path. -/
theorem SnapshotsHold.create (h : SnapshotsHold rkyv xxh3 path initial s) {save : RunningSave}
    {header : FrozenGraphHeader} {payload : List UInt8}
    (hActions : SaveCall.actions rkyv xxh3 ⟨save.graph, path⟩ = saveActions header payload path)
    (hStep : save.step = 0) :
    SnapshotsHold rkyv xxh3 path initial (s.takeStep save (.create (tmpPath path))) := by
  have hCreated := s.files.create_spec (tmpPath path)
  have hInode := s.files.create_inode (tmpPath path)
  rw [takeStep_of_not_publishes rfl, hStep]
  simp only [SaveAction.exec]
  generalize hCreate : s.files.create (tmpPath path) = created at hCreated hInode
  obtain ⟨files, inode⟩ := created
  dsimp only at hCreated hInode ⊢
  -- the old temporary file, which is no one else's, or a new inode
  have hOther : ∀ d, DirectoryHolds rkyv xxh3 path initial s.files s.published d →
      (s.files.names (tmpPath path) = some inode → d.files.names path ≠ some inode) →
        d.files.names path ≠ some inode := by
    intro d hd hOld hPath
    rcases hInode with ⟨hTmp, -⟩ | ⟨hNew, -⟩
    · exact hOld hTmp hPath
    · have hBelow := d.files.names_lt hPath
      have hOlder := hd.older
      omega
  have hPresent := hOther s.directory h.present fun hTmp => h.present.apart inode hTmp
  have hPast : ∀ d ∈ s.past, d.files.names path ≠ some inode := fun d hd =>
    hOther d (h.past d hd) fun hTmp => (h.apart inode hTmp).1 d hd
  have hMapped : ∀ mapping ∈ s.mappings, mapping.inode ≠ inode := by
    rcases hInode with ⟨hOld, -⟩ | ⟨hNew, -⟩
    · exact (h.apart inode hOld).2
    · intro mapping hMem
      have hBelow := h.below mapping hMem
      omega
  have hNext : s.files.next ≤ files.next := by
    rcases hInode with ⟨-, hSame⟩ | ⟨-, hSucc⟩
    · exact hSame.ge
    · omega
  have hKept : ∀ d, DirectoryHolds rkyv xxh3 path initial s.files s.published d →
      d.files.names path ≠ some inode →
        DirectoryHolds rkyv xxh3 path initial files s.published d := by
    intro d hd hNot
    refine hd.mono (fun other hPath => hCreated.contents_of_ne other ?_) (fun _ hg => hg) hNext
    rintro rfl
    exact hNot hPath
  have hNamesPath : files.names path = s.files.names path :=
    hCreated.names_of_ne path (tmpPath_ne path).symm
  have hWritten : writtenBefore (SaveCall.actions rkyv xxh3 ⟨save.graph, path⟩) 1 = [] := by
    rw [hActions]
    rfl
  refine ⟨⟨?_, h.present.saved, ?_, le_rfl⟩, ?_, h.prepared, ?_, h.origin, ?_, ?_, ?_⟩
  · dsimp only [directory]
    rw [hNamesPath]
    exact (hKept s.directory h.present hPresent).content
  · intro other hTmp
    obtain rfl := Option.some.inj (hCreated.names_self.symm.trans hTmp)
    dsimp only [directory]
    rw [hNamesPath]
    exact hPresent
  · exact fun d hd => hKept d (h.past d hd) (hPast d hd)
  · intro mapping hMem
    rw [← h.unchanged mapping hMem]
    exact hCreated.contents_of_ne _ (hMapped mapping hMem)
  · intro mapping hMem
    exact (h.below mapping hMem).trans_le hNext
  · intro other hTmp
    obtain rfl := Option.some.inj (hCreated.names_self.symm.trans hTmp)
    exact ⟨hPast, hMapped⟩
  · intro running hRunning
    obtain rfl := Option.some.inj hRunning
    refine ⟨?_, fun _ _ => ⟨inode, hCreated.names_self, ?_, fun _ => ?_⟩, fun hFour => ?_⟩
    · rintro handle hHandle
      cases hHandle
      exact hCreated.names_self
    · rw [hWritten]
      exact hCreated.contents_self
    · rw [hCreated.contents_self]
      rfl
    · dsimp only at hFour
      omega

theorem SnapshotsHold.writeAll (h : SnapshotsHold rkyv xxh3 path initial s) {save : RunningSave}
    (hSave : SaveHolds rkyv xxh3 path s.files save) {bytes : List UInt8}
    (hAction : nextAction rkyv xxh3 path save = some (.writeAll bytes))
    (hPositive : 0 < save.step) (hStep : save.step < 3) :
    SnapshotsHold rkyv xxh3 path initial (s.takeStep save (.writeAll bytes)) := by
  obtain ⟨hNames, hNext, hContents⟩ := hSave.frame_writeAll bytes
  obtain ⟨inode, hTmp, hWritten, hHandle⟩ := hSave.written hPositive (by omega)
  replace hHandle := hHandle (by omega)
  rw [takeStep_of_not_publishes rfl]
  refine h.of_frame _ hNames hNext hContents fun running hRunning => ?_
  obtain rfl := Option.some.inj hRunning
  -- the handle stands at the end of the file, so the write appends
  have hAppended : ((SaveAction.writeAll bytes).exec s.files save.locals).1.contents inode =
      s.files.contents inode ++ bytes := by
    simp only [SaveAction.exec, hHandle]
    exact FileSystem.contents_write_end 0 _ rfl bytes
  have hMoved : ((SaveAction.writeAll bytes).exec s.files save.locals).2.file =
      some ⟨inode, (s.files.contents inode ++ bytes).length⟩ := by
    simp only [SaveAction.exec, hHandle, List.length_append]
  have hTmp' : ((SaveAction.writeAll bytes).exec s.files save.locals).1.names (tmpPath path) =
      some inode := by
    rw [hNames]
    exact hTmp
  refine ⟨?_, fun _ _ => ⟨inode, hTmp', ?_, fun _ => ?_⟩, fun hFour => ?_⟩
  · intro handle hFile
    rw [hMoved] at hFile
    obtain rfl := Option.some.inj hFile
    exact hTmp'
  · rw [hAppended, hWritten]
    exact (writtenBefore_succ hAction).symm
  · rw [hMoved, hAppended]
  · dsimp only at hFour
    omega

/-- Syncing closes the temporary file. -/
theorem SnapshotsHold.syncAll (h : SnapshotsHold rkyv xxh3 path initial s) {save : RunningSave}
    (hSave : SaveHolds rkyv xxh3 path s.files save)
    (hAction : nextAction rkyv xxh3 path save = some .syncAll) (hStep : save.step = 3) :
    SnapshotsHold rkyv xxh3 path initial (s.takeStep save .syncAll) := by
  obtain ⟨inode, hTmp, hWritten, -⟩ := hSave.written (by omega) (by omega)
  rw [takeStep_of_not_publishes rfl]
  refine h.of_frame _ rfl rfl (fun _ _ => rfl) fun running hRunning => ?_
  obtain rfl := Option.some.inj hRunning
  refine ⟨?_, fun _ _ => ⟨inode, hTmp, ?_, fun hLt => ?_⟩, fun _ => rfl⟩
  · intro handle hFile
    cases hFile
  · -- syncing writes nothing
    calc s.files.contents inode
      _ = writtenBefore (SaveCall.actions rkyv xxh3 ⟨save.graph, path⟩) save.step := hWritten
      _ = writtenBefore (SaveCall.actions rkyv xxh3 ⟨save.graph, path⟩) save.step ++
            SaveAction.syncAll.written := (List.append_nil _).symm
      _ = writtenBefore (SaveCall.actions rkyv xxh3 ⟨save.graph, path⟩) (save.step + 1) :=
        (writtenBefore_succ hAction).symm
  · dsimp only at hLt
    omega

/-- Renaming the finished file publishes the graph.  The old file keeps its inode. -/
theorem SnapshotsHold.rename (h : SnapshotsHold rkyv xxh3 path initial s) {save : RunningSave}
    (hSave : SaveHolds rkyv xxh3 path s.files save) {header : FrozenGraphHeader}
    {payload : List UInt8} {size : UInt64}
    (hPrepare : prepare rkyv xxh3 save.graph = .ok (header, payload))
    (hActions : SaveCall.actions rkyv xxh3 ⟨save.graph, path⟩ = saveActions header payload path)
    (hStep : save.step = 4) :
    SnapshotsHold rkyv xxh3 path initial
      (s.takeStep save (.rename (tmpPath path) path size)) := by
  obtain ⟨inode, hTmp, hWritten, -⟩ := hSave.written (by omega) (by omega)
  obtain ⟨files, hRename, hRenamed⟩ :=
    FileSystem.rename_spec hTmp (h.present.apart inode hTmp)
  have hNext := FileSystem.next_rename hRename
  have hClosed := hSave.closed hStep.ge
  -- before its last step the save has written the header and the payload
  have hImage : s.files.contents inode = image header payload := by
    rw [hWritten, hStep, hActions]
    simp [writtenBefore, saveActions, SaveAction.written, image]
  have hOf : imageOf rkyv xxh3 save.graph = some (image header payload) := by
    rw [imageOf, hPrepare]
  have hGrows : s.published ⊆ s.published ++ [save.graph] := List.subset_append_left _ _
  have hNoTmp : ∀ other, files.names (tmpPath path) ≠ some other := by
    intro other hOther
    rw [hRenamed.names_source] at hOther
    cases hOther
  have hPublishes : publishes s.files (.rename (tmpPath path) path size) = true := by
    rw [publishes, hRename, Option.isSome_some]
  simp only [takeStep, hPublishes, if_true, SaveAction.exec, hRename]
  refine ⟨⟨?_, ?_, fun other hOther => absurd hOther (hNoTmp other), le_rfl⟩, ?_, ?_, ?_, ?_, ?_,
    fun other hOther => absurd hOther (hNoTmp other), ?_⟩
  · dsimp only [directory]
    rw [hRenamed.names_target, Option.map_some, hRenamed.contents_eq, hImage, GraphFile.current]
    exact hOf.symm
  · rintro graph hGraph
    obtain rfl := Option.some.inj hGraph
    simp
  · exact fun d hd => (h.past d hd).mono (fun _ _ => by rw [hRenamed.contents_eq]) hGrows hNext.ge
  · intro graph hGraph
    rcases List.mem_append.mp hGraph with hOld | hNew
    · exact h.prepared graph hOld
    · rw [List.mem_singleton.mp hNew]
      exact ⟨header, payload, hPrepare⟩
  · intro mapping hMem
    rw [hRenamed.contents_eq]
    exact h.unchanged mapping hMem
  · intro mapping hMem
    rcases h.origin mapping hMem with hInitial | ⟨graph, hGraph, hBytes⟩
    · exact Or.inl hInitial
    · exact Or.inr ⟨graph, hGrows hGraph, hBytes⟩
  · rw [hNext]
    exact h.below
  · intro running hRunning
    obtain rfl := Option.some.inj hRunning
    refine ⟨fun handle hFile => ?_, fun _ hLt => ?_, fun _ => hClosed⟩
    · dsimp only at hFile
      rw [hClosed] at hFile
      cases hFile
    · dsimp only at hLt
      omega

theorem SnapshotsHold.advance (h : SnapshotsHold rkyv xxh3 path initial s) :
    SnapshotsHold rkyv xxh3 path initial (s.next rkyv xxh3 path .advance) := by
  unfold next
  dsimp only
  split
  · exact h
  · next save hSaving =>
      have hSave := h.saving save hSaving
      split
      · exact h.of_frame none rfl rfl (fun _ _ => rfl) fun running hNone => by cases hNone
      · next action hAction =>
          obtain ⟨header, payload, hPrepare, hActions, hCases⟩ := nextAction_cases hAction
          apply SnapshotsHold.record
          rcases hCases with
            ⟨hStep, rfl⟩ | ⟨hStep, rfl⟩ | ⟨hStep, rfl⟩ | ⟨hStep, rfl⟩ | ⟨hStep, rfl⟩
          · exact h.create hActions hStep
          · exact h.writeAll hSave hAction (by omega) (by omega)
          · exact h.writeAll hSave hAction (by omega) (by omega)
          · exact h.syncAll hSave hAction hStep
          · exact h.rename hSave hPrepare hActions hStep

/-- The step lemma, with one case for each event.  A save on its way takes the step that
its number says. -/
theorem SnapshotsHold.next (h : SnapshotsHold rkyv xxh3 path initial s) (event : GraphFileEvent) :
    SnapshotsHold rkyv xxh3 path initial (s.next rkyv xxh3 path event) := by
  cases event with
  | begin graph =>
      unfold GraphFile.next
      dsimp only
      split
      · exact h
      · refine h.of_frame _ rfl rfl (fun _ _ => rfl) fun running hRunning => ?_
        obtain rfl := Option.some.inj hRunning
        refine ⟨?_, ?_, fun _ => rfl⟩
        · intro handle hFile
          cases hFile
        · intro hPositive
          cases hPositive
  | advance => exact h.advance
  | fail bytes => exact h.fail bytes
  | stop bytes lost back => exact h.stop bytes lost back
  | map => exact h.map

/-- The run lemma, by induction on the events. -/
theorem SnapshotsHold.run (h : SnapshotsHold rkyv xxh3 path initial s)
    (events : List GraphFileEvent) :
    SnapshotsHold rkyv xxh3 path initial (s.run rkyv xxh3 path events) := by
  induction events generalizing s with
  | nil => exact h
  | cons event events ih => exact ih (h.next event)

end

/-! ### All runs -/

section

variable (rkyv : Rkyv) (xxh3 : Xxh3) (path : Path)

/-- Until the machine stops, the version is the graph that was published last.  Only a
rename that succeeds changes either of them. -/
theorem version_run {events : List GraphFileEvent}
    (hRunning : ∀ event ∈ events, event.isStop = false) (s : GraphFile) :
    ∃ saved, (s.run rkyv xxh3 path events).published = s.published ++ saved ∧
      (s.run rkyv xxh3 path events).version = saved.getLast?.or s.version := by
  induction events generalizing s with
  | nil => exact ⟨[], by simp [run], rfl⟩
  | cons event events ih =>
      obtain ⟨saved, hPublished, hVersion⟩ :=
        ih (fun later hLater => hRunning later (List.mem_cons_of_mem _ hLater))
          (s.next rkyv xxh3 path event)
      rcases next_cases rkyv xxh3 path s (hRunning event List.mem_cons_self) with
        ⟨hNewPublished, hNewVersion⟩ | ⟨graph, hNewPublished, hNewVersion⟩
      · rw [hNewPublished] at hPublished
        rw [hNewVersion] at hVersion
        exact ⟨saved, hPublished, hVersion⟩
      · rw [hNewPublished, List.append_assoc] at hPublished
        rw [hNewVersion] at hVersion
        refine ⟨graph :: saved, hPublished, hVersion.trans ?_⟩
        cases saved with
        | nil => rfl
        | cons first rest =>
            rw [List.getLast?_cons_cons,
              List.getLast?_eq_some_getLast (List.cons_ne_nil first rest)]
            rfl

/-- The states of the directory that are noted come with versions the path had. -/
theorem exists_version_of_mem_past (files : Files) (events : List GraphFileEvent) :
    ∀ d ∈ ((start files).run rkyv xxh3 path events).past, ∃ n,
      d.version = ((start files).run rkyv xxh3 path (events.take n)).version := by
  induction events using List.reverseRecOn with
  | nil =>
      intro d hd
      rw [List.mem_singleton.mp hd]
      exact ⟨0, rfl⟩
  | append_singleton events event ih =>
      intro d hd
      rw [run_concat] at hd
      rcases mem_past_next rkyv xxh3 path hd with hOld | hNew
      · obtain ⟨n, hVersion⟩ := ih d hOld
        refine ⟨min n events.length, hVersion.trans ?_⟩
        rw [List.take_append_of_le_length (Nat.min_le_right ..), ← List.take_eq_take_min]
      · refine ⟨events.length + 1, ?_⟩
        rw [List.take_of_length_le (by simp), run_concat]
        exact hNew

/-- A stop brings back the version of some earlier moment.  It may be any since the
machine was started, as nothing tells how far the directory had reached the disk. -/
theorem exists_version_stop (files : Files) (events : List GraphFileEvent) (bytes : Nat)
    (lost : List UInt8) (back : Nat) :
    ∃ n, ((start files).run rkyv xxh3 path (events ++ [.stop bytes lost back])).version =
      ((start files).run rkyv xxh3 path (events.take n)).version := by
  rw [run_concat]
  show ∃ n, ((((start files).run rkyv xxh3 path events).past.getD back
    ((start files).run rkyv xxh3 path events).directory).version) = _
  rw [List.getD_eq_getElem?_getD]
  cases hPast : ((start files).run rkyv xxh3 path events).past[back]? with
  | some d =>
      exact exists_version_of_mem_past rkyv xxh3 path files events d (List.mem_of_getElem? hPast)
  | none => exact ⟨events.length, by rw [List.take_length]; rfl⟩

end

/-- Whatever happens from `files` on, no mapping of a reader ever changes, every mapping
holds the initial content or the complete image of a graph that was published, and so
does the path. -/
def KeepsSnapshots (rkyv : Rkyv) (xxh3 : Xxh3) (path : Path) (files : Files) : Prop :=
  ∀ events : List GraphFileEvent,
    let s := (start files).run rkyv xxh3 path events
    (∀ mapping ∈ s.mappings, s.files.contents mapping.inode = mapping.bytes ∧
      (files.contentAt path = some mapping.bytes ∨
        ∃ graph ∈ s.published, imageOf rkyv xxh3 graph = some mapping.bytes)) ∧
    s.files.contentAt path = current rkyv xxh3 (files.contentAt path) s.version ∧
    ∀ graph, s.version = some graph → graph ∈ s.published

/-- Mapping the file is sound in all runs exactly if the temporary path does not lead to
the file of the path at first. -/
theorem keepsSnapshots_iff (rkyv : Rkyv) (xxh3 : Xxh3) (path : Path) (files : Files)
    (hSaves : ∃ graph header payload, prepare rkyv xxh3 graph = .ok (header, payload)) :
    KeepsSnapshots rkyv xxh3 path files ↔ ¬SameFile files (tmpPath path) path := by
  constructor
  · rintro hKeeps hSame
    obtain ⟨graph, header, payload, hPrepare⟩ := hSaves
    obtain ⟨inode, hTmp, hPath⟩ := hSame
    have hCreated := files.create_spec (tmpPath path)
    have hInode : (files.create (tmpPath path)).2 = inode := by
      rcases hCreated.old_or_new with hOld | ⟨hNone, -⟩
      · exact Option.some.inj (hOld.symm.trans hTmp)
      · rw [hTmp] at hNone
        cases hNone
    rw [hInode] at hCreated
    have hActions : SaveCall.actions rkyv xxh3 ⟨graph, path⟩ = saveActions header payload path := by
      rw [SaveCall.actions, hPrepare]
    have hMapped := (hKeeps [.map, .begin graph, .advance]).1 ⟨inode, files.contents inode⟩
    have hMapped' :=
      (hKeeps [.map, .begin graph, .advance, .advance]).1 ⟨inode, files.contents inode⟩
    simp only [run, List.foldl_cons, List.foldl_nil, next, start, hPath, List.nil_append,
      List.mem_singleton, forall_const, nextAction, hActions, saveActions, record, takeStep,
      List.getElem?_cons_zero, List.getElem?_cons_succ, SaveAction.exec, hInode, zero_add]
      at hMapped hMapped'
    -- opening the temporary file empties the mapped inode, and writing the header fills it
    have hEmpty : [] = files.contents inode := hCreated.contents_self.symm.trans hMapped.1
    have hFull := hMapped'.1
    rw [FileSystem.contents_write_end 0 _ (by rw [hCreated.contents_self]; rfl),
      hCreated.contents_self, List.nil_append, ← hEmpty] at hFull
    have hLength := congrArg List.length hFull
    rw [List.Vector.toList_length] at hLength
    cases hLength
  · intro hApart events
    have hHolds : SnapshotsHold rkyv xxh3 path (files.contentAt path) _ :=
      (snapshotsHold_start files hApart).run events
    exact ⟨fun mapping hMem => ⟨hHolds.unchanged mapping hMem, hHolds.origin mapping hMem⟩,
      hHolds.present.content, hHolds.present.saved⟩

theorem not_sameFile_noFiles (path other : Path) : ¬SameFile noFiles path other := by
  rintro ⟨inode, hName, -⟩
  cases hName

theorem keepsSnapshots_noFiles : KeepsSnapshots labelIndexRkyv byteSum graphBin noFiles :=
  (keepsSnapshots_iff labelIndexRkyv byteSum graphBin noFiles
    ⟨labelIndexGraph [1], _, _, rfl⟩).mpr (not_sameFile_noFiles _ _)

/-- In every run, also one with failed saves and stops of the machine, loading the path
gives the version, and every mapping still loads as the graph it was mapped for, unless
it goes back to the initial content.  Until a stop the version is the graph saved last.
A stop brings back the version of an earlier moment: nothing has synced the directory. -/
theorem load_run (profile : Profile) (rkyv : Rkyv) (xxh3 : Xxh3) (path : Path) (files : Files)
    (hApart : ¬SameFile files (tmpPath path) path) (events : List GraphFileEvent)
    (hLaws : ∀ graph ∈ ((start files).run rkyv xxh3 path events).published,
      RoundTrips rkyv graph) :
    let s := (start files).run rkyv xxh3 path events
    (∀ graph, s.version = some graph → ∃ mmap, s.files.contentAt path = some mmap ∧
        load profile rkyv xxh3 s.files path = .ok (.ok ⟨mmap, graph⟩)) ∧
    (s.version = none → load profile rkyv xxh3 s.files path = load profile rkyv xxh3 files path) ∧
    (∀ mapping ∈ s.mappings, files.contentAt path = some mapping.bytes ∨
      ∃ graph ∈ s.published, fromMmap profile rkyv xxh3 (s.files.contents mapping.inode) =
        .ok (.ok ⟨mapping.bytes, graph⟩)) ∧
    (∀ before after, events = before ++ after → (∀ event ∈ after, event.isStop = false) →
      ∃ saved, s.published = ((start files).run rkyv xxh3 path before).published ++ saved ∧
        s.version = saved.getLast?.or ((start files).run rkyv xxh3 path before).version) ∧
    ∀ before bytes lost back, events = before ++ [.stop bytes lost back] →
      ∃ n, s.version = ((start files).run rkyv xxh3 path (before.take n)).version := by
  intro s
  have hHolds : SnapshotsHold rkyv xxh3 path (files.contentAt path) s :=
    (snapshotsHold_start files hApart).run events
  have hContent : s.files.contentAt path = current rkyv xxh3 (files.contentAt path) s.version :=
    hHolds.present.content
  -- what the path holds, what the mappings hold, and how the version came about
  refine ⟨fun graph hVersion => ?_, fun hNone => ?_, fun mapping hMem => ?_, ?_, ?_⟩
  · have hMem := hHolds.present.saved graph hVersion
    rw [hVersion, current] at hContent
    obtain ⟨header, payload, hPrepare⟩ := hHolds.prepared graph hMem
    have hImage : imageOf rkyv xxh3 graph = some (image header payload) := by
      rw [imageOf, hPrepare]
    have hLoad := fromMmap_imageOf profile (hLaws graph hMem) hImage []
    rw [List.append_nil] at hLoad
    have hHere : s.files.contentAt path = some (image header payload) := hContent.trans hImage
    exact ⟨image header payload, hHere, load_of_contentAt hHere hLoad⟩
  · rw [hNone, current] at hContent
    rw [load, hContent, load]
  · rcases hHolds.origin mapping hMem with hInitial | ⟨graph, hGraph, hImage⟩
    · exact Or.inl hInitial
    · have hLoad := fromMmap_imageOf profile (hLaws graph hGraph) hImage []
      rw [List.append_nil] at hLoad
      refine Or.inr ⟨graph, hGraph, ?_⟩
      rw [hHolds.unchanged mapping hMem, hLoad]
  · rintro before after rfl hRunning
    have hRun : s = ((start files).run rkyv xxh3 path before).run rkyv xxh3 path after := by
      rw [run, run, ← List.foldl_append]
      rfl
    rw [hRun]
    exact version_run rkyv xxh3 path hRunning _
  · rintro before bytes lost back rfl
    exact exists_version_stop rkyv xxh3 path files before bytes lost back

/-- The second of two saves is finished when the machine stops, and its rename is lost. -/
def stopAfterSecondSave : List GraphFileEvent :=
  [.begin (labelIndexGraph [1]), .advance, .advance, .advance, .advance, .advance, .map, .advance,
    .begin (labelIndexGraph [2, 2]), .advance, .advance, .advance, .advance, .advance,
    .stop 0 [] 9]

theorem load_run_stopAfterSecondSave :
    let s := (start noFiles).run labelIndexRkyv byteSum graphBin stopAfterSecondSave
    s.published = [labelIndexGraph [1], labelIndexGraph [2, 2]] ∧
      ∃ mmap, load .dev labelIndexRkyv byteSum s.files graphBin =
        .ok (.ok ⟨mmap, labelIndexGraph [1]⟩) := by
  have hPublished : ((start noFiles).run labelIndexRkyv byteSum graphBin
      stopAfterSecondSave).published = [labelIndexGraph [1], labelIndexGraph [2, 2]] := rfl
  have hVersion : ((start noFiles).run labelIndexRkyv byteSum graphBin
      stopAfterSecondSave).version = some (labelIndexGraph [1]) := rfl
  obtain ⟨hLoads, -⟩ := load_run .dev labelIndexRkyv byteSum graphBin noFiles
    (not_sameFile_noFiles _ _) stopAfterSecondSave (by
      intro graph hGraph
      rw [hPublished] at hGraph
      rcases List.mem_cons.mp hGraph with rfl | hSecond
      · exact roundTrips_labelIndexGraph _ (by decide)
      · rw [List.mem_singleton.mp hSecond]
        exact roundTrips_labelIndexGraph _ (by decide))
  obtain ⟨mmap, -, hLoad⟩ := hLoads (labelIndexGraph [1]) hVersion
  exact ⟨hPublished, mmap, hLoad⟩

end GraphFile

end Graph
end CodebaseMem
