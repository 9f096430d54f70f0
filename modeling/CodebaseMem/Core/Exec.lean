import Mathlib.Algebra.Group.Nat.Defs
import Mathlib.Data.List.TakeDrop
import Mathlib.Logic.Function.Basic

/-!
# Running the compiled program

A function of the program either returns or goes wrong.  It goes wrong by a
panic (an index out of range, a failed `assert!`, `unwrap` or `expect`, an
overflow in a build with overflow checks) or, inside an `unsafe` block, by
undefined behaviour.  Recoverable errors (`Result`) are ordinary values and are
modelled where they are returned.

* `Exec`: a computation that returns or has one of the two faults.  `bind_eq_ok_iff` and
  `of_bind_eq_ok` take a sequence of computations apart.
* `index`, `slice`, `addU32`, `addUsize`: the operations that can panic, each with the
  condition under which it returns.
* `HashMap`: a map that is read and extended, never iterated.

Lengths and indices of collections that exist in memory are natural numbers.
Machine integers keep their width, and additions that can exceed it take the
build profile as an argument.  Allocation never fails.
-/

namespace CodebaseMem
namespace Core

/-- The two ways a call can go wrong.  They are kept apart because a panic is defined,
and a caller may even rely on it. -/
inductive Fault where
  | panic
  | undefinedBehaviour
  deriving DecidableEq, Repr

/-- A computation of the compiled program.  What it reads and changes is passed
explicitly, so a failed call leaves no state behind. -/
abbrev Exec (α : Type) := Except Fault α

instance {α : Type} [DecidableEq α] : DecidableEq (Exec α)
  | .ok a, .ok b => decidable_of_iff (a = b) (by simp)
  | .error a, .error b => decidable_of_iff (a = b) (by simp)
  | .ok _, .error _ => isFalse (by simp)
  | .error _, .ok _ => isFalse (by simp)

/-- Cargo's `dev` profile traps integer overflow, its `release` profile wraps
around. -/
inductive Profile where
  | dev
  | release
  deriving DecidableEq, Repr

namespace Exec

variable {α β : Type}

@[simp] theorem ok_bind (a : α) (f : α → Exec β) :
    ((Except.ok a : Exec α) >>= f) = f a := rfl

@[simp] theorem error_bind (fault : Fault) (f : α → Exec β) :
    ((Except.error fault : Exec α) >>= f) = Except.error fault := rfl

@[simp] theorem pure_eq_ok (a : α) : (pure a : Exec α) = Except.ok a := rfl

theorem bind_eq_ok_iff {x : Exec α} {f : α → Exec β} {b : β} :
    (x >>= f) = Except.ok b ↔ ∃ a, x = Except.ok a ∧ f a = Except.ok b := by
  cases x with
  | error fault => simp
  | ok a => simp

/-- Peel the first computation off a sequence that returned.  The lemmas about a call
that returned take it apart with this, from the front. -/
theorem of_bind_eq_ok {x : Exec α} {f : α → Exec β} {b : β}
    (h : (x >>= f) = Except.ok b) : ∃ a, x = Except.ok a ∧ f a = Except.ok b :=
  bind_eq_ok_iff.mp h

end Exec

/-- `Option::unwrap` and `Option::expect`. -/
def expect {α : Type} : Option α → Exec α
  | some a => .ok a
  | none => .error .panic

@[simp] theorem expect_some {α : Type} (a : α) : expect (some a) = .ok a := rfl

@[simp] theorem expect_none {α : Type} : expect (none : Option α) = .error .panic := rfl

theorem expect_eq_ok_iff {α : Type} {x : Option α} {a : α} :
    expect x = .ok a ↔ x = some a := by
  cases x <;> simp [expect]

/-- `assert!`. -/
def assert (condition : Bool) : Exec Unit :=
  if condition then .ok () else .error .panic

@[simp] theorem assert_true : assert true = .ok () := rfl

@[simp] theorem assert_false : assert false = .error .panic := rfl

theorem assert_eq_ok_iff {condition : Bool} {u : Unit} :
    assert condition = .ok u ↔ condition = true := by
  cases condition <;> simp [assert]

/-- The bounds-checked index expression `xs[i]`. -/
def index {α : Type} (xs : List α) (i : Nat) : Exec α := expect xs[i]?

theorem index_eq_ok_iff {α : Type} {xs : List α} {i : Nat} {a : α} :
    index xs i = .ok a ↔ xs[i]? = some a := by
  rw [index, expect_eq_ok_iff]

/-- The bounds-checked slice expression `&xs[start..stop]`. -/
def slice {α : Type} (xs : List α) (start stop : Nat) : Exec (List α) :=
  if start ≤ stop ∧ stop ≤ xs.length then
    .ok ((xs.take stop).drop start)
  else
    .error .panic

theorem slice_ok {α : Type} {xs : List α} {start stop : Nat}
    (hStart : start ≤ stop) (hStop : stop ≤ xs.length) :
    slice xs start stop = .ok ((xs.take stop).drop start) := by
  rw [slice, if_pos ⟨hStart, hStop⟩]

theorem slice_append_append {α : Type} (before middle rest : List α) {stop : Nat}
    (hStop : stop = before.length + middle.length) :
    slice (before ++ middle ++ rest) before.length stop = .ok middle := by
  subst hStop
  rw [slice_ok (by omega) (by simp)]
  simp [List.take_append]

theorem slice_panic {α : Type} {xs : List α} {start stop : Nat}
    (h : ¬(start ≤ stop ∧ stop ≤ xs.length)) :
    slice xs start stop = .error .panic := by
  rw [slice, if_neg h]

/-- `a + b` on `u32`. -/
def addU32 (profile : Profile) (a b : UInt32) : Exec UInt32 :=
  if a.toNat + b.toNat < 2 ^ 32 then .ok (a + b)
  else match profile with
    | .dev => .error .panic
    | .release => .ok (a + b)

/-- Additions that stay below `2 ^ 32` agree in the two profiles. -/
theorem addU32_ok (profile : Profile) {a b : UInt32} (h : a.toNat + b.toNat < 2 ^ 32) :
    addU32 profile a b = .ok (a + b) := by
  unfold addU32
  rw [if_pos h]

/-- A sum that exceeds `u32` panics under overflow checks and wraps without. -/
theorem addU32_eq_ite (profile : Profile) (a b : UInt32) :
    addU32 profile a b =
      if profile = .release ∨ a.toNat + b.toNat < 2 ^ 32 then .ok (a + b)
      else .error .panic := by
  unfold addU32
  cases profile with
  | dev => simp
  | release => simp

/-- `a + b` on a 64-bit `usize`. -/
def addUsize (profile : Profile) (a b : UInt64) : Exec UInt64 :=
  if a.toNat + b.toNat < 2 ^ 64 then .ok (a + b)
  else match profile with
    | .dev => .error .panic
    | .release => .ok (a + b)

theorem addUsize_ok (profile : Profile) {a b : UInt64} (h : a.toNat + b.toNat < 2 ^ 64) :
    addUsize profile a b = .ok (a + b) := by
  unfold addUsize
  rw [if_pos h]

/-- A sum that exceeds `usize` panics under overflow checks and wraps without. -/
theorem addUsize_eq_ite (profile : Profile) (a b : UInt64) :
    addUsize profile a b =
      if profile = .release ∨ a.toNat + b.toNat < 2 ^ 64 then .ok (a + b)
      else .error .panic := by
  unfold addUsize
  cases profile with
  | dev => simp
  | release => simp

/-- A hash map is read and extended, never iterated, so it is the partial
function it represents. -/
abbrev HashMap (κ υ : Type*) := κ → Option υ

namespace HashMap

variable {κ υ : Type*}

def empty : HashMap κ υ := fun _ => none

@[simp] theorem empty_apply (key : κ) : (empty : HashMap κ υ) key = none := rfl

variable [DecidableEq κ]

/-- `HashMap::insert`: a present key is overwritten. -/
def insert (m : HashMap κ υ) (key : κ) (value : υ) : HashMap κ υ :=
  Function.update m key (some value)

@[simp] theorem insert_self (m : HashMap κ υ) (key : κ) (value : υ) :
    m.insert key value key = some value := by
  simp [insert]

theorem insert_of_ne (m : HashMap κ υ) {key other : κ} (hne : other ≠ key) (value : υ) :
    m.insert key value other = m other := by
  simp [insert, hne]

end HashMap

end Core
end CodebaseMem
