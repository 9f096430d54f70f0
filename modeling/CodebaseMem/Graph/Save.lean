import CodebaseMem.Graph.Persistence
import CodebaseMem.Library.NamedFiles

/-!
# Writing a graph to a file

`save` writes the image of a graph to a temporary file beside the destination
and renames it.  The name of the temporary file is the stem of the destination
with the extension `bin.tmp`.

* `fileStem`, `withExtension`, `tmpPath`: the two paths, as the standard library computes
  them.
* `SaveAction`, `saveActions`: the steps of `save` on the file system, over inodes and
  names of the library.
* `save_spec`: an undisturbed call puts the whole image at the destination, whatever was
  there and whatever the temporary path led to.
* `fromMmap_save`: a graph that was saved loads again.

Symbolic links are not modelled: a path is a name that leads to an inode or to none.  A
rename is taken to be done when it returns; that the directory is never synced matters in
the module on snapshots only.
-/

namespace CodebaseMem
namespace Graph

open CodebaseMem.Core Library

/-! ### Paths -/

/-- A path with a file name.  Every other path ends in a directory, which
`File::create` refuses to open. -/
structure Path where
  directory : List UInt8
  fileName : List UInt8
  deriving DecidableEq, Repr

namespace Path

def dot : UInt8 := 0x2E

/-- What stands before the last dot of a file name.  The result is empty where that dot
is the first byte, and `none` where there is no dot. -/
def beforeLastDot : List UInt8 → Option (List UInt8)
  | [] => none
  | byte :: rest =>
      match beforeLastDot rest with
      | some before => some (byte :: before)
      | none => if byte = dot then some [] else none

/-- `Path::file_stem`.  A name whose only dot is its first byte has no
extension. -/
def fileStem (fileName : List UInt8) : List UInt8 :=
  match beforeLastDot fileName with
  | none => fileName
  | some [] => fileName
  | some (byte :: before) => byte :: before

/-- `Path::with_extension`, for an extension that is not empty. -/
def withExtension (path : Path) (extension : List UInt8) : Path :=
  { path with fileName := fileStem path.fileName ++ dot :: extension }

end Path

/-- The bytes of `bin.tmp`. -/
def tmpExtension : List UInt8 := [0x62, 0x69, 0x6E, 0x2E, 0x74, 0x6D, 0x70]

def tmpPath (path : Path) : Path := path.withExtension tmpExtension

/-- The part before the last dot, the dot and a rest without a dot make up the file
name. -/
theorem beforeLastDot_spec {fileName before : List UInt8}
    (h : Path.beforeLastDot fileName = some before) :
    ∃ after, fileName = before ++ Path.dot :: after ∧ Path.dot ∉ after := by
  -- behind the last dot the search finds none, so there is no dot
  have hNone : ∀ name : List UInt8, Path.beforeLastDot name = none → Path.dot ∉ name := by
    intro name
    induction name with
    | nil => simp
    | cons byte rest ih =>
        intro hName
        rw [Path.beforeLastDot] at hName
        cases hRest : Path.beforeLastDot rest with
        | some before => simp [hRest] at hName
        | none =>
            have hByte : byte ≠ Path.dot := fun hDot => by simp [hRest, hDot] at hName
            simp [ih hRest, hByte.symm]
  induction fileName generalizing before with
  | nil => cases h
  | cons byte rest ih =>
      rw [Path.beforeLastDot] at h
      cases hRest : Path.beforeLastDot rest with
      | some front =>
          rw [hRest] at h
          cases h
          obtain ⟨after, hSplit, hAfter⟩ := ih hRest
          exact ⟨after, by rw [hSplit]; rfl, hAfter⟩
      | none =>
          rw [hRest] at h
          dsimp only at h
          split at h
          · next hDot =>
              cases h
              exact ⟨rest, by rw [hDot]; rfl, hNone rest hRest⟩
          · cases h

/-- The temporary file is never the destination itself.  What follows its stem has a dot
in it, and what follows the stem of the destination has none. -/
theorem tmpPath_ne (path : Path) : tmpPath path ≠ path := by
  intro hSame
  have hName : Path.fileStem path.fileName ++ Path.dot :: tmpExtension = path.fileName :=
    congrArg Path.fileName hSame
  have hWhole : ∀ stem, stem = path.fileName → stem ++ Path.dot :: tmpExtension ≠
      path.fileName := by
    intro stem hStem hEqual
    have hLength := congrArg List.length hEqual
    rw [hStem, List.length_append, List.length_cons] at hLength
    omega
  unfold Path.fileStem at hName
  split at hName
  · exact hWhole _ rfl hName
  · exact hWhole _ rfl hName
  · next byte before hBefore =>
      -- the extension has a dot, what follows the last dot has none
      obtain ⟨after, hSplit, hAfter⟩ := beforeLastDot_spec hBefore
      have hTail : tmpExtension = after := by
        have hBoth := hName.trans hSplit
        simpa using hBoth
      rw [← hTail] at hAfter
      exact hAfter (by decide)

/-! ### The steps -/

/-- An open file and the position of the next write. -/
structure Handle where
  inode : Nat
  offset : Nat
  deriving DecidableEq, Repr

/-- The steps of `save` that touch the file system.  Each is one system call or a call of
the standard library that writes everything, and other processes see the state between
two. -/
inductive SaveAction where
  | create (path : Path)
  | writeAll (bytes : List UInt8)
  | syncAll
  | rename (source target : Path) (size : UInt64)
  deriving DecidableEq, Repr

/-- The local state of a call: its open file and what it has returned. -/
structure SaveLocals where
  file : Option Handle
  returned : Option (Except SaveError UInt64)

abbrev Files := FileSystem Path UInt8

namespace SaveAction

def exec : SaveAction → Files → SaveLocals → Files × SaveLocals
  | create path, files, locals =>
      ((files.create path).1, { locals with file := some ⟨(files.create path).2, 0⟩ })
  | writeAll bytes, files, locals =>
      match locals.file with
      | none => (files, locals)
      | some handle =>
          (files.write 0 handle.inode handle.offset bytes,
            { locals with file := some ⟨handle.inode, handle.offset + bytes.length⟩ })
  -- the block that holds the file ends here, which closes it
  | syncAll, files, locals => (files, { locals with file := none })
  | rename source target size, files, locals =>
      match files.rename source target with
      | none => (files, { locals with returned := some (.error .io) })
      | some files => (files, { locals with returned := some (.ok size) })

/-- The bytes a step adds to the open file, which is empty when it is opened. -/
def written : SaveAction → List UInt8
  | writeAll bytes => bytes
  | _ => []

end SaveAction

/-- The body of `save` once the graph is serialised. -/
def saveActions (header : FrozenGraphHeader) (payload : List UInt8) (path : Path) :
    List SaveAction :=
  [.create (tmpPath path), .writeAll header.toBytes.toList, .writeAll payload, .syncAll,
    .rename (tmpPath path) path (UInt64.ofNat headerSize + header.payloadLen)]

structure SaveCall where
  graph : FrozenGraph
  path : Path

/-- What a call does to the file system: nothing if serialisation fails. -/
def SaveCall.actions (rkyv : Rkyv) (xxh3 : Xxh3) (call : SaveCall) : List SaveAction :=
  match prepare rkyv xxh3 call.graph with
  | .error _ => []
  | .ok (header, payload) => saveActions header payload call.path

/-- The local state a call starts its steps with. -/
def SaveCall.locals (rkyv : Rkyv) (xxh3 : Xxh3) (call : SaveCall) : SaveLocals where
  file := none
  returned :=
    match prepare rkyv xxh3 call.graph with
    | .error error => some (.error error)
    | .ok _ => none

/-- `save` with nothing else going on. -/
def save (rkyv : Rkyv) (xxh3 : Xxh3) (files : Files) (graph : FrozenGraph) (path : Path) :
    Files × Option (Except SaveError UInt64) :=
  let call : SaveCall := ⟨graph, path⟩
  let (files, locals) := (call.actions rkyv xxh3).foldl
    (fun state action => action.exec state.1 state.2) (files, call.locals rkyv xxh3)
  (files, locals.returned)

/-- An undisturbed `save` puts the whole image at the destination, whatever was
there and whatever the temporary path led to. -/
theorem save_spec {rkyv : Rkyv} {xxh3 : Xxh3} {graph : FrozenGraph}
    {header : FrozenGraphHeader} {payload : List UInt8}
    (hPrepare : prepare rkyv xxh3 graph = .ok (header, payload)) (files : Files)
    (path : Path) :
    (save rkyv xxh3 files graph path).1.contentAt path = some (image header payload) ∧
      (save rkyv xxh3 files graph path).2 =
        some (.ok (UInt64.ofNat headerSize + header.payloadLen)) := by
  have hCreated := files.create_spec (tmpPath path)
  generalize hCreate : files.create (tmpPath path) = created at hCreated
  obtain ⟨files₁, inode⟩ := created
  dsimp only at hCreated
  -- the file systems after the two writes and after the rename
  let headerBytes := header.toBytes.toList
  let files₂ := files₁.write 0 inode 0 headerBytes
  let files₃ := files₂.write 0 inode (0 + headerBytes.length) payload
  have hFirst : files₂.contents inode = headerBytes := by
    rw [FileSystem.contents_write_end 0 files₁ (by rw [hCreated.contents_self]; rfl),
      hCreated.contents_self, List.nil_append]
  have hSecond : files₃.contents inode = image header payload := by
    rw [FileSystem.contents_write_end 0 files₂ (by rw [hFirst, Nat.zero_add]), hFirst]
    rfl
  have hSource : files₃.names (tmpPath path) = some inode := hCreated.names_self
  obtain ⟨files₄, hRename, hTarget, hContents⟩ := FileSystem.rename_target hSource path
  have hSave : save rkyv xxh3 files graph path =
      (files₄, some (.ok (UInt64.ofNat headerSize + header.payloadLen))) := by
    simp only [save, SaveCall.actions, SaveCall.locals, hPrepare, saveActions, List.foldl_cons,
      List.foldl_nil, SaveAction.exec, hCreate]
    simp only [files₃, files₂, headerBytes] at hRename
    rw [hRename]
  rw [hSave]
  refine ⟨?_, rfl⟩
  rw [FileSystem.contentAt, hTarget, Option.map_some, hContents, hSecond]

/-- A graph that was saved loads again from the file at the destination. -/
theorem fromMmap_save (profile : Profile) (rkyv : Rkyv) (xxh3 : Xxh3) {graph : FrozenGraph}
    {payload : List UInt8} (hBytes : rkyv.toBytes graph = .ok payload)
    (hDecodes : rkyv.fromBytes payload = .ok graph) (hLength : payload.length < 2 ^ 63)
    (files : Files) (path : Path) :
    ∃ mmap, (save rkyv xxh3 files graph path).1.contentAt path = some mmap ∧
      fromMmap profile rkyv xxh3 mmap = .ok (.ok ⟨mmap, graph⟩) := by
  have hPrepare := prepare_eq rkyv xxh3 hBytes (by omega)
  refine ⟨_, (save_spec hPrepare files path).1, ?_⟩
  have hLoad := fromMmap_newImage profile rkyv xxh3 hDecodes hLength []
  rwa [List.append_nil] at hLoad

end Graph
end CodebaseMem
