import CodebaseMem.Core.Bytes
import CodebaseMem.Core.Types

/-!
# Paths and the languages of files

A path is read through its components.  File names are bytes that need not be
UTF-8.  The language of a file is decided by what stands behind the last dot of its
name.

* `Component`, `PathBuf`: what the code sees of a path.
* `fromExtension`, `fromPath`: the table of extensions and the lookup in it.
* `below`: the path of a file below a root, with the simp lemmas for its name and for
  what is left of it without the root.
* `DotName`: a name that starts with a dot byte, which is what the documentation means by
  dot-prefixed; `startsWithDot_iff_dotName` relates it to the code's test on strings.

These are Unix paths.  The prefixes of Windows paths have no component here, and a path
is taken to be normalised as `components` normalises it.
-/

namespace CodebaseMem
namespace Core

/-- `std::path::Component` on Unix. -/
inductive Component where
  | rootDir
  | curDir
  | parentDir
  | normal (name : List UInt8)
  deriving DecidableEq, Repr

/-- A path, as the components that `Path::components` yields.  The methods below and
the comparison of paths see nothing else of it. -/
abbrev PathBuf := List Component

/-- `Path::file_name`. There is none where the path ends in `..` or in the root
directory. -/
def fileName (path : PathBuf) : Option (List UInt8) :=
  match path.getLast? with
  | some (.normal name) => some name
  | _ => none

/-- `Path::strip_prefix(base).ok()`. -/
def stripBase (path base : PathBuf) : Option PathBuf :=
  if base.isPrefixOf path then some (path.drop base.length) else none

/-- `OsStr::to_str`. On Unix a name is any bytes, and only those that are UTF-8 are a
string. -/
def toStr (name : List UInt8) : Option String := String.fromUTF8? ⟨name.toArray⟩

/-- `str::starts_with('.')`. -/
def startsWithDot (s : String) : Bool := s.toList.head? = some '.'

/-- The part behind the last dot, `rsplit_once('.')` without the part before it. -/
def afterLastDot (s : String) : Option String :=
  if '.' ∈ s.toList then
    some (String.ofList (s.toList.reverse.takeWhile (· ≠ '.')).reverse)
  else none

/-- `str::to_ascii_lowercase`. -/
def toAsciiLowercase (s : String) : String := String.ofList (s.toList.map Char.toLower)

/-- The language for a file extension without its dot. -/
def fromExtension (ext : String) : Option Language :=
  match toAsciiLowercase ext with
  | "bash" | "csh" | "ps1" | "sh" | "zsh" => some .shell
  | "c" => some .c
  | "cc" | "cpp" | "cxx" | "h" | "hpp" => some .cpp
  | "clj" | "scala" => some .scala
  | "cs" => some .cSharp
  | "css" | "scss" => some .css
  | "go" => some .go
  | "htm" | "html" | "vue" => some .html
  | "java" => some .java
  | "js" | "jsx" | "mjs" => some .javaScript
  | "json" => some .json
  | "kt" | "kts" => some .kotlin
  | "md" | "markdown" | "txt" => some .markdown
  | "php" => some .php
  | "py" => some .python
  | "rb" => some .ruby
  | "rs" => some .rust
  | "sql" => some .sql
  | "swift" => some .swift
  | "toml" => some .toml
  | "ts" | "tsx" => some .typeScript
  | "yaml" | "yml" => some .yaml
  | "zig" => some .zig
  | _ => none

/-- The language for a path, based on the extension of its file name. -/
def fromPath (path : PathBuf) : Option Language := do
  let name ← (fileName path).bind toStr
  let ext ← afterLastDot name
  fromExtension ext

example : fromPath [.normal [0x61], .normal (utf8 "b.tar.RS")] = some .rust := by decide

/-! ### Below a directory -/

def below (root : PathBuf) (dirs : List (List UInt8)) (name : List UInt8) : PathBuf :=
  root ++ (dirs ++ [name]).map .normal

@[simp] theorem fileName_below (root : PathBuf) (dirs : List (List UInt8)) (name : List UInt8) :
    fileName (below root dirs name) = some name := by
  simp [fileName, below]

@[simp] theorem stripBase_below (root : PathBuf) (dirs : List (List UInt8))
    (name : List UInt8) :
    stripBase (below root dirs name) root = some ((dirs ++ [name]).map .normal) := by
  rw [stripBase, below, if_pos (List.isPrefixOf_iff_prefix.mpr (List.prefix_append _ _)),
    List.drop_left]

/-! ### Dots -/

def dotByte : UInt8 := 0x2E

/-- A name that starts with a dot, whatever follows it. -/
def DotName (name : List UInt8) : Prop := name.head? = some dotByte

instance : DecidablePred DotName := fun name => inferInstanceAs (Decidable (name.head? = _))

/-- Only the dot is encoded with the byte of the dot in front. -/
theorem head_utf8EncodeChar_iff (c : Char) :
    (String.utf8EncodeChar c).head? = some dotByte ↔ c = '.' := by
  -- every byte in front of a longer encoding has its top bit set
  have hHigh : ∀ a b : UInt8, dotByte < b → a ||| b ≠ dotByte := by
    intro a b hb hEq
    have hNat := congrArg UInt8.toNat hEq
    rw [UInt8.toNat_or] at hNat
    have hLe : b.toNat ≤ a.toNat ||| b.toNat := Nat.right_le_or
    have hLess := UInt8.lt_iff_toNat_lt.mp hb
    omega
  have hNotDot : c.utf8Size ≠ 1 → c ≠ '.' := by
    rintro hSize rfl
    exact hSize (by decide)
  rcases Char.utf8Size_eq c with hSize | hSize | hSize | hSize
  · rw [String.utf8EncodeChar_eq_singleton hSize, List.head?_cons, Option.some_inj]
    have hSmall := UInt32.le_iff_toNat_le.mp (Char.utf8Size_eq_one_iff.mp hSize)
    constructor
    · intro hByte
      have hNat := congrArg UInt8.toNat hByte
      rw [UInt32.toNat_toUInt8] at hNat
      have hCode : c.val.toNat = 0x2E := by
        have hDot : dotByte.toNat = 0x2E := rfl
        have hMax : (127 : UInt32).toNat = 127 := rfl
        omega
      exact Char.ext (UInt32.toNat_inj.mp hCode)
    · rintro rfl
      rfl
  · rw [String.utf8EncodeChar_eq_cons_cons hSize, List.head?_cons, Option.some_inj]
    exact iff_of_false (hHigh _ _ (by decide)) (hNotDot (by omega))
  · rw [String.utf8EncodeChar_eq_cons_cons_cons hSize, List.head?_cons, Option.some_inj]
    exact iff_of_false (hHigh _ _ (by decide)) (hNotDot (by omega))
  · rw [String.utf8EncodeChar_eq_cons_cons_cons_cons hSize, List.head?_cons, Option.some_inj]
    exact iff_of_false (hHigh _ _ (by decide)) (hNotDot (by omega))

theorem utf8_of_toStr {name : List UInt8} {s : String} (h : toStr name = some s) :
    utf8 s = name := by
  unfold toStr String.fromUTF8? at h
  split at h
  · cases h
    rfl
  · cases h

theorem startsWithDot_iff_dotName {name : List UInt8} {s : String} (h : toStr name = some s) :
    startsWithDot s = true ↔ DotName name := by
  rw [startsWithDot, decide_eq_true_iff, DotName, ← utf8_of_toStr h, utf8_eq_flatMap]
  cases s.toList with
  | nil => simp
  | cons c chars =>
      have hNonempty : String.utf8EncodeChar c ≠ [] := by
        rw [← List.length_pos_iff, String.length_utf8EncodeChar]
        exact c.utf8Size_pos
      rw [List.flatMap_cons, List.head?_append_of_ne_nil _ hNonempty, head_utf8EncodeChar_iff]
      simp

end Core
end CodebaseMem
