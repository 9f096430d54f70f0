import CodebaseMem.Core.Paths
import Mathlib.Tactic.SplitIfs

/-!
# Discovery of source files

The walker of the `ignore` library yields the entries below a root.  Discovery keeps
the regular files whose language is known and filters their paths by dots afterwards,
so that the walker may enter dot directories for the ignore files in them.

* `entryToFile`, `keepsFile`, `discover`: the code, for any walk.
* `KeptAsConfigured`: what the two flags promise by their documentation.
* `keptAsConfigured_iff`: exactly when discovery does with a file what they promise.  The
  loop over the directories looks at the file name as well, and it passes over names
  that are not UTF-8.
* `Built`, `mem_discover_iff_of_built`: the configurations that the methods of
  `DiscoverConfig` lead to, and exactly which files discovery returns for them.

The walk is a parameter: which files ignore files and the depth rule out is the
library's part, and `walkOptions` records what it is asked for.  The parallel iterator
is the list of its items.
-/

namespace CodebaseMem
namespace Discover

open CodebaseMem.Core

/-- `std::fs::FileType`. -/
inductive FileType where
  | file
  | dir
  | symlink
  | other
  deriving DecidableEq, Repr

structure DirEntry where
  path : PathBuf
  fileType : Option FileType
  deriving DecidableEq, Repr

/-- The options of `ignore::WalkBuilder` that discovery sets. -/
structure WalkBuilder where
  root : PathBuf
  hidden : Bool
  gitIgnore : Bool
  gitGlobal : Bool
  gitExclude : Bool
  parents : Bool
  requireGit : Bool
  maxDepth : Option Nat

/-- The walk of the `ignore` library, which gives `none` for an entry that it cannot
read. -/
abbrev Walk := WalkBuilder → List (Option DirEntry)

structure DiscoveredFile where
  path : PathBuf
  language : Language
  deriving DecidableEq, Repr

structure DiscoverConfig where
  skipHidden : Bool
  skipDotdirs : Bool
  maxDepth : Option Nat
  deriving DecidableEq, Repr

namespace DiscoverConfig

def new : DiscoverConfig where
  skipHidden := true
  skipDotdirs := true
  maxDepth := none

def includeHidden (config : DiscoverConfig) : DiscoverConfig :=
  { config with skipHidden := false, skipDotdirs := false }

/-- The setter `max_depth`. -/
def setMaxDepth (config : DiscoverConfig) (depth : Option Nat) : DiscoverConfig :=
  { config with maxDepth := depth }

end DiscoverConfig

/-- A regular file whose language is known.  Symbolic links, directories and files with
another extension are dropped before the closure sees them. -/
def entryToFile (entry : DirEntry) : Option DiscoveredFile := do
  let fileType ← entry.fileType
  if fileType ≠ .file then none
  else
    let language ← fromPath entry.path
    some { path := entry.path, language := language }

/-- The component makes the filter for dot directories reject a path.  A name that is
not UTF-8 never does. -/
def isDotComponent : Component → Bool
  | .normal name =>
      match toStr name with
      | some s => startsWithDot s
      | none => false
  | _ => false

/-- The closure that filters the discovered files.  The hidden files are told by the file
name, the dot directories by a loop over the components below the root, which the file
name is one of. -/
def keepsFile (root : PathBuf) (config : DiscoverConfig) (file : DiscoveredFile) : Bool :=
  if config.skipHidden && startsWithDot (((fileName file.path).bind toStr).getD "") then false
  -- the loop runs over all components below the root, the file name among them
  else if config.skipDotdirs &&
      ((stripBase file.path root).getD file.path).any isDotComponent then false
  else true

def walkOptions (root : PathBuf) (config : DiscoverConfig) : WalkBuilder where
  root := root
  hidden := false
  gitIgnore := true
  gitGlobal := true
  gitExclude := true
  parents := true
  requireGit := false
  maxDepth := config.maxDepth

def discover (walk : Walk) (root : PathBuf) (config : DiscoverConfig) : List DiscoveredFile :=
  (((walk (walkOptions root config)).filterMap id).filterMap entryToFile).filter
    (keepsFile root config)

/-! ### What the flags promise -/

/-- `skip_hidden` is about the name of the file, `skip_dotdirs` about the directories
between the root and the file. -/
def KeptAsConfigured (config : DiscoverConfig) (dirs : List (List UInt8)) (name : List UInt8) :
    Prop :=
  (config.skipHidden = false ∨ ¬DotName name) ∧
    (config.skipDotdirs = false ∨ ¬∃ dir ∈ dirs, DotName dir)

instance (config : DiscoverConfig) (dirs : List (List UInt8)) (name : List UInt8) :
    Decidable (KeptAsConfigured config dirs name) :=
  inferInstanceAs (Decidable ((_ ∨ _) ∧ (_ ∨ ¬_)))

theorem mem_discover_iff {walk : Walk} {root : PathBuf} {config : DiscoverConfig}
    {file : DiscoveredFile} :
    file ∈ discover walk root config ↔
      (∃ entry, some entry ∈ walk (walkOptions root config) ∧ entryToFile entry = some file) ∧
        keepsFile root config file = true := by
  rw [discover, List.mem_filter, List.mem_filterMap]
  simp only [List.mem_filterMap, id_eq, exists_eq_right]

theorem entryToFile_eq_some {entry : DirEntry} {language : Language}
    (hFile : entry.fileType = some .file) (hLanguage : fromPath entry.path = some language) :
    entryToFile entry = some ⟨entry.path, language⟩ := by
  simp [entryToFile, hFile, hLanguage]

theorem mem_discover_iff_keepsFile {walk : Walk} {root : PathBuf} {config : DiscoverConfig}
    {entry : DirEntry} {language : Language}
    (hWalk : some entry ∈ walk (walkOptions root config)) (hFile : entry.fileType = some .file)
    (hLanguage : fromPath entry.path = some language) :
    ⟨entry.path, language⟩ ∈ discover walk root config ↔
      keepsFile root config ⟨entry.path, language⟩ = true := by
  rw [mem_discover_iff, and_iff_right]
  exact ⟨entry, hWalk, entryToFile_eq_some hFile hLanguage⟩

theorem exists_toStr_of_fromPath {root : PathBuf} {dirs : List (List UInt8)} {name : List UInt8}
    {language : Language} (h : fromPath (below root dirs name) = some language) :
    ∃ s, toStr name = some s := by
  rw [fromPath, fileName_below, Option.bind_some] at h
  cases hName : toStr name with
  | none => simp [hName] at h
  | some s => exact ⟨s, rfl⟩

/-- The loop sees the dots of names that are UTF-8. -/
theorem isDotComponent_normal_iff (name : List UInt8) :
    isDotComponent (.normal name) = true ↔ DotName name ∧ (toStr name).isSome = true := by
  rw [isDotComponent]
  cases hName : toStr name with
  | none => simp
  | some s => simp [startsWithDot_iff_dotName hName]

theorem any_isDotComponent_iff {dirs : List (List UInt8)} {name : List UInt8} {s : String}
    (hName : toStr name = some s) :
    ((dirs ++ [name]).map Component.normal).any isDotComponent = true ↔
      (∃ dir ∈ dirs, DotName dir ∧ (toStr dir).isSome = true) ∨ DotName name := by
  simp only [List.any_eq_true, List.mem_map, List.mem_append, List.mem_singleton]
  constructor
  · rintro ⟨_, ⟨dir, hDir | rfl, rfl⟩, hComponent⟩
    · exact .inl ⟨dir, hDir, (isDotComponent_normal_iff dir).mp hComponent⟩
    · exact .inr ((isDotComponent_normal_iff dir).mp hComponent).1
  · rintro (⟨dir, hDir, hComponent⟩ | hLast)
    · exact ⟨_, ⟨dir, .inl hDir, rfl⟩, (isDotComponent_normal_iff dir).mpr hComponent⟩
    · refine ⟨_, ⟨name, .inr rfl, rfl⟩, (isDotComponent_normal_iff name).mpr ⟨hLast, ?_⟩⟩
      rw [hName]
      rfl

theorem keepsFile_below_iff {root : PathBuf} {config : DiscoverConfig} {dirs : List (List UInt8)}
    {name : List UInt8} {language : Language}
    (hLanguage : fromPath (below root dirs name) = some language) :
    keepsFile root config ⟨below root dirs name, language⟩ = true ↔
      (config.skipHidden = false ∨ ¬DotName name) ∧
        (config.skipDotdirs = false ∨
          (¬∃ dir ∈ dirs, DotName dir ∧ (toStr dir).isSome = true) ∧ ¬DotName name) := by
  obtain ⟨s, hName⟩ := exists_toStr_of_fromPath hLanguage
  have hKeeps : keepsFile root config ⟨below root dirs name, language⟩ = true ↔
      ¬(config.skipHidden = true ∧ startsWithDot s = true) ∧
        ¬(config.skipDotdirs = true ∧
          ((dirs ++ [name]).map Component.normal).any isDotComponent = true) := by
    rw [keepsFile, fileName_below, Option.bind_some, hName, Option.getD_some, stripBase_below,
      Option.getD_some, ← Bool.and_eq_true, ← Bool.and_eq_true]
    split_ifs with hHidden hDotdirs
    · simp only [hHidden, not_true_eq_false, false_and]
    · simp only [hDotdirs, not_true_eq_false, and_false]
    · exact iff_of_true rfl ⟨hHidden, hDotdirs⟩
  rw [hKeeps, startsWithDot_iff_dotName hName, any_isDotComponent_iff hName,
    ← Bool.not_eq_true, ← Bool.not_eq_true, not_and_or, not_and_or, not_or]

/-- Where the filters of the closure and the promises of the flags agree: `file` and `dir`
say that the file name and a directory start with a dot, `readable` that a directory does
so and is UTF-8. -/
theorem filters_agree_iff {hidden dotdirs file dir readable : Prop} (h : readable → dir) :
    (((¬hidden ∨ ¬file) ∧ (¬dotdirs ∨ ¬readable ∧ ¬file)) ↔
        (¬hidden ∨ ¬file) ∧ (¬dotdirs ∨ ¬dir)) ↔
      ¬dotdirs ∨ file ∧ (hidden ∨ dir) ∨ ¬file ∧ (dir → readable) := by
  by_cases hDotdirs : dotdirs
  · by_cases hFile : file
    · by_cases hHidden : hidden <;> simp [hDotdirs, hFile, hHidden]
    · by_cases hReadable : readable
      · simp [hDotdirs, hFile, hReadable, h hReadable]
      · simp [hDotdirs, hFile, hReadable]
  · simp [hDotdirs]

/-- Discovery keeps a regular file with a known language as the flags promise exactly when
the filter for directories is off, or the file is dot-prefixed and to be dropped anyway, or
it is not dot-prefixed and some name of its dot directories, if any, is UTF-8. -/
theorem keptAsConfigured_iff {walk : Walk} {root : PathBuf} {config : DiscoverConfig}
    {dirs : List (List UInt8)} {name : List UInt8} {entry : DirEntry} {language : Language}
    (hWalk : some entry ∈ walk (walkOptions root config))
    (hPath : entry.path = below root dirs name) (hFile : entry.fileType = some .file)
    (hLanguage : fromPath entry.path = some language) :
    (⟨entry.path, language⟩ ∈ discover walk root config ↔ KeptAsConfigured config dirs name) ↔
      config.skipDotdirs = false ∨
        DotName name ∧ (config.skipHidden = true ∨ ∃ dir ∈ dirs, DotName dir) ∨
        ¬DotName name ∧ ((∃ dir ∈ dirs, DotName dir) →
          ∃ dir ∈ dirs, DotName dir ∧ (toStr dir).isSome = true) := by
  have hReadable : (∃ dir ∈ dirs, DotName dir ∧ (toStr dir).isSome = true) →
      ∃ dir ∈ dirs, DotName dir := fun ⟨dir, hDir, hDot, _⟩ => ⟨dir, hDir, hDot⟩
  rw [mem_discover_iff_keepsFile hWalk hFile hLanguage, KeptAsConfigured]
  rw [hPath] at hLanguage ⊢
  rw [keepsFile_below_iff hLanguage, ← Bool.not_eq_true, ← Bool.not_eq_true]
  exact filters_agree_iff hReadable

/-- The entry of a regular file below `/repo`. -/
def repoFile (dirs : List (List UInt8)) (name : List UInt8) : DirEntry :=
  ⟨below [.rootDir, .normal (utf8 "repo")] dirs name, some .file⟩

/-- By default a file in a dot directory is left out. -/
theorem keptAsConfigured_dotDirectory :
    ⟨(repoFile [utf8 ".venv"] (utf8 "a.py")).path, .python⟩ ∈
        discover (fun _ => [some (repoFile [utf8 ".venv"] (utf8 "a.py"))])
          [.rootDir, .normal (utf8 "repo")] .new ↔
      KeptAsConfigured .new [utf8 ".venv"] (utf8 "a.py") :=
  (@keptAsConfigured_iff (fun _ => [some (repoFile [utf8 ".venv"] (utf8 "a.py"))]) _ _ _ _ _ _
    List.mem_cons_self rfl rfl (by decide)).mpr (by decide)

/-- With hidden files included and dot directories skipped, a hidden file at the root is
left out; and by default a file in a dot directory whose name is not UTF-8 is kept. -/
theorem not_keptAsConfigured_hidden :
    ¬(⟨(repoFile [] (utf8 ".hidden.rs")).path, .rust⟩ ∈
          discover (fun _ => [some (repoFile [] (utf8 ".hidden.rs"))])
            [.rootDir, .normal (utf8 "repo")] ⟨false, true, none⟩ ↔
        KeptAsConfigured ⟨false, true, none⟩ [] (utf8 ".hidden.rs")) ∧
      ¬(⟨(repoFile [[0x2E, 0xFF]] (utf8 "main.rs")).path, .rust⟩ ∈
          discover (fun _ => [some (repoFile [[0x2E, 0xFF]] (utf8 "main.rs"))])
            [.rootDir, .normal (utf8 "repo")] .new ↔
        KeptAsConfigured .new [[0x2E, 0xFF]] (utf8 "main.rs")) := by
  constructor <;> decide

/-! ### The configurations that the methods build -/

/-- The configurations that the methods of `DiscoverConfig` lead to. -/
inductive Built : DiscoverConfig → Prop
  | new : Built .new
  | includeHidden {config : DiscoverConfig} (h : Built config) : Built config.includeHidden
  | setMaxDepth {config : DiscoverConfig} (h : Built config) (depth : Option Nat) :
      Built (config.setMaxDepth depth)

/-- The methods turn both filters off or none. -/
theorem Built.flags_eq {config : DiscoverConfig} (h : Built config) :
    config.skipHidden = config.skipDotdirs := by
  induction h with
  | new => rfl
  | includeHidden h ih => rfl
  | setMaxDepth h depth ih => exact ih

/-- The directory names that the loop of the closure looks at. -/
def readable (dirs : List (List UInt8)) : List (List UInt8) :=
  dirs.filter fun dir => (toStr dir).isSome

theorem exists_readable_dotName_iff {dirs : List (List UInt8)} :
    (∃ dir ∈ readable dirs, DotName dir) ↔
      ∃ dir ∈ dirs, DotName dir ∧ (toStr dir).isSome = true := by
  constructor
  · rintro ⟨dir, hDir, hDot⟩
    obtain ⟨hMem, hUtf8⟩ := List.mem_filter.mp hDir
    exact ⟨dir, hMem, hDot, hUtf8⟩
  · rintro ⟨dir, hMem, hDot, hUtf8⟩
    exact ⟨dir, List.mem_filter.mpr ⟨hMem, hUtf8⟩, hDot⟩

/-- With a configuration that the methods build, the closure does what the flags promise,
for the directories whose names are UTF-8: the file name that the loop looks at as well is
then rejected by the other filter anyway. -/
theorem keepsFile_iff_of_built {root : PathBuf} {config : DiscoverConfig}
    {dirs : List (List UInt8)} {name : List UInt8} {language : Language} (hBuilt : Built config)
    (hLanguage : fromPath (below root dirs name) = some language) :
    keepsFile root config ⟨below root dirs name, language⟩ = true ↔
      KeptAsConfigured config (readable dirs) name := by
  rw [keepsFile_below_iff hLanguage, KeptAsConfigured, exists_readable_dotName_iff,
    hBuilt.flags_eq]
  cases config.skipDotdirs with
  | false => simp
  | true => simp [and_comm]

theorem fileType_of_entryToFile {entry : DirEntry} {file : DiscoveredFile}
    (h : entryToFile entry = some file) :
    entry = ⟨file.path, some .file⟩ ∧ fromPath file.path = some file.language := by
  obtain ⟨path, fileType⟩ := entry
  simp only [entryToFile, Option.bind_eq_bind, Option.bind_eq_some_iff] at h
  obtain ⟨found, hFound, hRest⟩ := h
  split_ifs at hRest with hFile
  obtain ⟨language, hLanguage, hSome⟩ := Option.bind_eq_some_iff.mp hRest
  obtain rfl := Option.some.inj hSome
  rw [not_not.mp hFile] at hFound
  exact ⟨congrArg (DirEntry.mk path) hFound, hLanguage⟩

/-- Discovery with a configuration that the methods build, of a root that is a directory:
the regular files of the walk whose language is known and which the flags keep, and no
others.  The walk is any that yields its regular files below the root. -/
theorem mem_discover_iff_of_built {walk : Walk} {root : PathBuf} {config : DiscoverConfig}
    (hBuilt : Built config)
    (hBelow : ∀ path, some ⟨path, some .file⟩ ∈ walk (walkOptions root config) →
      ∃ dirs name, path = below root dirs name) (file : DiscoveredFile) :
    file ∈ discover walk root config ↔
      ∃ dirs name, file.path = below root dirs name ∧
        some ⟨file.path, some .file⟩ ∈ walk (walkOptions root config) ∧
        fromPath file.path = some file.language ∧
        KeptAsConfigured config (readable dirs) name := by
  obtain ⟨path, language⟩ := file
  dsimp only
  constructor
  · intro hMem
    obtain ⟨⟨entry, hWalk, hEntry⟩, hKeeps⟩ := mem_discover_iff.mp hMem
    obtain ⟨rfl, hLanguage⟩ := fileType_of_entryToFile hEntry
    obtain ⟨dirs, name, rfl⟩ := hBelow path hWalk
    exact ⟨dirs, name, rfl, hWalk, hLanguage, (keepsFile_iff_of_built hBuilt hLanguage).mp hKeeps⟩
  · rintro ⟨dirs, name, rfl, hWalk, hLanguage, hKept⟩
    have hDecides := @mem_discover_iff_keepsFile walk root config
      ⟨below root dirs name, some .file⟩ language hWalk rfl hLanguage
    exact hDecides.mpr ((keepsFile_iff_of_built hBuilt hLanguage).mpr hKept)

/-- With hidden files included and a depth set, a file in a dot directory is discovered. -/
theorem mem_discover_includeHidden :
    ⟨below [.rootDir, .normal (utf8 "repo")] [utf8 ".venv"] (utf8 "a.py"), .python⟩ ∈
      discover (fun _ => [none, some (repoFile [utf8 ".venv"] (utf8 "a.py"))])
        [.rootDir, .normal (utf8 "repo")] (DiscoverConfig.new.includeHidden.setMaxDepth (some 2)) := by
  refine (mem_discover_iff_of_built (.setMaxDepth (.includeHidden .new) _) ?_ _).mpr
    ⟨[utf8 ".venv"], utf8 "a.py", rfl, by decide, by decide, by decide⟩
  intro path hPath
  simp only [List.mem_cons, reduceCtorEq, Option.some.injEq, List.not_mem_nil, or_false,
    false_or] at hPath
  exact ⟨_, _, congrArg DirEntry.path hPath⟩

end Discover
end CodebaseMem
