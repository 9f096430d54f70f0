import Mathlib.Data.List.TakeDrop
import Mathlib.Logic.Function.Basic

/-!
# A file system of names and inodes

Names lead to inodes, and inodes hold contents.  An inode lives on when its name
is taken away, and inode numbers are not used twice.  Every inode a name leads
to is below `next`, so the number `next` is free.

* `create` opens a name for writing and truncates what it leads to;
* `write` changes the contents of one inode;
* `rename` moves a name, and the inode the target led to keeps its contents;
* `restore` puts the names back to an earlier state.

Each of them comes with a lemma that says everything it changes.

Several names may lead to one inode (hard links).  A name never leads to another
name: symbolic links are not modelled, nor are directories, permissions and errors
other than that of a missing name.  The operations take effect at once and say
nothing about what is on the disk.  A development that models a stop of the machine
says itself which names and contents survive it, with `restore` for the names.
-/

namespace CodebaseMem
namespace Library

variable {ν β : Type*}

/-- Write `bytes` over `content` from `offset` on.  A gap behind the end of the
content is filled with `pad`; writing nothing leaves the content alone. -/
def overwrite (pad : β) (content : List β) (offset : Nat) (bytes : List β) : List β :=
  if bytes.isEmpty then content
  else
    (content ++ List.replicate (offset - content.length) pad).take offset ++ bytes ++
      content.drop (offset + bytes.length)

theorem overwrite_length (pad : β) (content bytes : List β) :
    overwrite pad content content.length bytes = content ++ bytes := by
  unfold overwrite
  cases bytes with
  | nil => simp
  | cons byte bytes => simp

/-- Names, the inodes they lead to and the contents of the inodes. -/
structure FileSystem (ν β : Type*) where
  names : ν → Option Nat
  contents : Nat → List β
  next : Nat
  names_lt : ∀ {name inode}, names name = some inode → inode < next

namespace FileSystem

/-- What a name holds, if it leads anywhere. -/
def contentAt (fs : FileSystem ν β) (name : ν) : Option (List β) :=
  (fs.names name).map fs.contents

theorem contentAt_congr {fs fs' : FileSystem ν β} {name : ν}
    (hName : fs'.names name = fs.names name)
    (hContent : ∀ inode, fs.names name = some inode → fs'.contents inode = fs.contents inode) :
    fs'.contentAt name = fs.contentAt name := by
  rw [contentAt, contentAt, hName]
  cases hInode : fs.names name with
  | none => rfl
  | some inode => simp [hContent inode hInode]

def write (pad : β) (fs : FileSystem ν β) (inode offset : Nat) (bytes : List β) :
    FileSystem ν β :=
  { fs with
    contents :=
      Function.update fs.contents inode (overwrite pad (fs.contents inode) offset bytes) }

@[simp] theorem names_write (pad : β) (fs : FileSystem ν β) (inode offset : Nat)
    (bytes : List β) : (fs.write pad inode offset bytes).names = fs.names := rfl

theorem contents_write_of_ne (pad : β) (fs : FileSystem ν β) {inode other : Nat}
    (hne : other ≠ inode) (offset : Nat) (bytes : List β) :
    (fs.write pad inode offset bytes).contents other = fs.contents other :=
  Function.update_of_ne hne ..

theorem contents_write_end (pad : β) (fs : FileSystem ν β) {inode offset : Nat}
    (hEnd : offset = (fs.contents inode).length) (bytes : List β) :
    (fs.write pad inode offset bytes).contents inode = fs.contents inode ++ bytes := by
  dsimp only [write]
  rw [Function.update_self, hEnd, overwrite_length]

/-- The names as they were in `old`, over the contents as they are now. -/
def restore (fs old : FileSystem ν β) : FileSystem ν β where
  names := old.names
  contents := fs.contents
  next := max fs.next old.next
  names_lt := fun hName => Nat.lt_of_lt_of_le (old.names_lt hName) (Nat.le_max_right ..)

@[simp] theorem names_restore (fs old : FileSystem ν β) : (fs.restore old).names = old.names := rfl

@[simp] theorem contents_restore (fs old : FileSystem ν β) :
    (fs.restore old).contents = fs.contents := rfl

variable [DecidableEq ν]

/-- Open a name for writing: truncate the inode it leads to, or let it lead to a
new empty one.  The second component is the inode. -/
def create (fs : FileSystem ν β) (name : ν) : FileSystem ν β × Nat :=
  match hName : fs.names name with
  | some inode => ({ fs with contents := Function.update fs.contents inode [] }, inode)
  | none =>
      ({ names := Function.update fs.names name (some fs.next)
         contents := Function.update fs.contents fs.next []
         next := fs.next + 1
         names_lt := by
           intro other inode hOther
           by_cases hSame : other = name
           · rw [hSame, Function.update_self] at hOther
             cases hOther
             exact Nat.lt_succ_self _
           · rw [Function.update_of_ne hSame] at hOther
             exact Nat.lt_succ_of_lt (fs.names_lt hOther) }, fs.next)

/-- Move a name.  It fails when the name leads nowhere and does nothing when both
names lead to one inode. -/
def rename (fs : FileSystem ν β) (source target : ν) : Option (FileSystem ν β) :=
  match hSource : fs.names source with
  | none => none
  | some inode =>
      if fs.names target = some inode then some fs
      else some { fs with
        names := Function.update (Function.update fs.names target (some inode)) source none
        names_lt := by
          intro name other hName
          by_cases hMoved : name = source
          · rw [hMoved, Function.update_self] at hName
            cases hName
          · rw [Function.update_of_ne hMoved] at hName
            by_cases hTarget : name = target
            · rw [hTarget, Function.update_self] at hName
              cases hName
              exact fs.names_lt hSource
            · rw [Function.update_of_ne hTarget] at hName
              exact fs.names_lt hName }

/-! ### What each operation changes -/

/-- `fs'` and `inode` are what creating `name` in `fs` gives. -/
structure Created (fs : FileSystem ν β) (name : ν) (fs' : FileSystem ν β) (inode : Nat) :
    Prop where
  names_self : fs'.names name = some inode
  names_of_ne : ∀ other, other ≠ name → fs'.names other = fs.names other
  contents_self : fs'.contents inode = []
  contents_of_ne : ∀ other, other ≠ inode → fs'.contents other = fs.contents other
  old_or_new : fs.names name = some inode ∨
    fs.names name = none ∧ ∀ other, fs.names other ≠ some inode

theorem create_spec (fs : FileSystem ν β) (name : ν) :
    Created fs name (fs.create name).1 (fs.create name).2 := by
  unfold create
  split
  · next inode hName =>
      exact {
        names_self := hName
        names_of_ne := fun _ _ => rfl
        contents_self := Function.update_self ..
        contents_of_ne := fun _ hne => Function.update_of_ne hne ..
        old_or_new := .inl hName }
  · next hName =>
      exact {
        names_self := Function.update_self ..
        names_of_ne := fun _ hne => Function.update_of_ne hne ..
        contents_self := Function.update_self ..
        contents_of_ne := fun _ hne => Function.update_of_ne hne ..
        old_or_new := .inr ⟨hName, fun _ hOther => Nat.lt_irrefl _ (fs.names_lt hOther)⟩ }

theorem create_inode (fs : FileSystem ν β) (name : ν) :
    (fs.names name = some (fs.create name).2 ∧ (fs.create name).1.next = fs.next) ∨
      ((fs.create name).2 = fs.next ∧ (fs.create name).1.next = fs.next + 1) := by
  unfold create
  split
  · next inode hName => exact Or.inl ⟨hName, rfl⟩
  · exact Or.inr ⟨rfl, rfl⟩

/-- `fs'` is what moving `source`, which leads to `inode`, to `target` gives.  No
contents change, so a reader who has the old file open keeps it. -/
structure Renamed (fs : FileSystem ν β) (source target : ν) (inode : Nat)
    (fs' : FileSystem ν β) : Prop where
  contents_eq : fs'.contents = fs.contents
  names_source : fs'.names source = none
  names_target : fs'.names target = some inode
  names_of_ne : ∀ other, other ≠ source → other ≠ target → fs'.names other = fs.names other

theorem next_rename {fs fs' : FileSystem ν β} {source target : ν}
    (hRename : fs.rename source target = some fs') : fs'.next = fs.next := by
  unfold rename at hRename
  split at hRename
  · cases hRename
  · split at hRename
    · obtain rfl := Option.some.inj hRename
      rfl
    · obtain rfl := Option.some.inj hRename
      rfl

/-- A name that leads to an inode of its own is moved. -/
theorem rename_spec {fs : FileSystem ν β} {source target : ν} {inode : Nat}
    (hSource : fs.names source = some inode) (hTarget : fs.names target ≠ some inode) :
    ∃ fs', fs.rename source target = some fs' ∧ Renamed fs source target inode fs' := by
  have hne : target ≠ source := fun h => hTarget (h ▸ hSource)
  unfold rename
  split
  · next hNone => simp [hSource] at hNone
  · next other hOther =>
      have hInode : other = inode := Option.some.inj (hOther.symm.trans hSource)
      subst hInode
      rw [if_neg hTarget]
      exact ⟨_, rfl, {
        contents_eq := rfl
        names_source := Function.update_self ..
        names_target := by
          show Function.update (Function.update fs.names target (some other)) source none target = _
          rw [Function.update_of_ne hne, Function.update_self]
        names_of_ne := fun name hSource hTarget => by
          show Function.update (Function.update fs.names target (some other)) source none name = _
          rw [Function.update_of_ne hSource, Function.update_of_ne hTarget] }⟩

/-- Moving a name that leads somewhere lets the target lead there, also when it
already does. -/
theorem rename_target {fs : FileSystem ν β} {source : ν} {inode : Nat}
    (hSource : fs.names source = some inode) (target : ν) :
    ∃ fs', fs.rename source target = some fs' ∧ fs'.names target = some inode ∧
      fs'.contents = fs.contents := by
  by_cases hTarget : fs.names target = some inode
  · refine ⟨fs, ?_, hTarget, rfl⟩
    unfold rename
    split
    · next hNone => simp [hSource] at hNone
    · next other hOther =>
        have hInode : other = inode := Option.some.inj (hOther.symm.trans hSource)
        subst hInode
        rw [if_pos hTarget]
  · obtain ⟨fs', hRename, hSpec⟩ := rename_spec hSource hTarget
    exact ⟨fs', hRename, hSpec.names_target, hSpec.contents_eq⟩

end FileSystem

end Library
end CodebaseMem
