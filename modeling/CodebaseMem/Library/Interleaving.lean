import Mathlib.Logic.Function.Basic
import Mathlib.Data.Fintype.Sum

/-!
# Calls that interleave at the granularity of atomic actions

A family of calls, indexed by `ι`, runs concurrently over one shared state.
Each call is a straight-line list of atomic actions with registers of its own.
A schedule names, at each instant, the call that takes its next action, so the
schedules are exactly the interleavings.  Naming a call that has returned does
nothing.

The module fixes no shared state and no set of actions.

* `run_invariant`: what each action preserves holds after every schedule.
* `StepsMeet`, `run_invariant_of_stepsMeet`: what is preserved by the actions that meet a
  side condition holds after every schedule all of whose actions met it.
* `stepsMeet_iff_of_step_iff`: where an action keeps a property exactly if it meets the
  condition, a schedule keeps it exactly if all its actions do.
* `oneByOne`, `run_oneByOne_concat`: the schedules in which no two calls overlap, and what one
  more call does after them.

An action is atomic and sees all earlier actions, so this is sequential consistency.
Weaker memory orders and calls that wait for each other are not in the model.
-/

namespace CodebaseMem
namespace Library
namespace Interleaving

variable {ι σ κ α : Type*}

/-- The shared state together with each call's position and registers.  The position
counts the actions a call has taken, so a call at the end of its program has returned.
-/
structure Config (ι σ κ : Type*) where
  shared : σ
  pc : ι → Nat
  regs : ι → κ

def Config.start (shared : σ) (regs : ι → κ) : Config ι σ κ where
  shared := shared
  pc := fun _ => 0
  regs := regs

@[simp] theorem Config.start_shared (shared : σ) (regs : ι → κ) :
    (Config.start shared regs).shared = shared := rfl

@[simp] theorem Config.start_pc (shared : σ) (regs : ι → κ) (i : ι) :
    (Config.start shared regs).pc i = 0 := rfl

@[simp] theorem Config.start_regs (shared : σ) (regs : ι → κ) (i : ι) :
    (Config.start shared regs).regs i = regs i := rfl

/-! ### Calls without overlap -/

/-- Execute some actions with nothing in between. -/
def execList (exec : α → σ → κ → σ × κ) (actions : List α) (shared : σ) (registers : κ) : σ × κ :=
  actions.foldl (fun state action => exec action state.1 state.2) (shared, registers)

section

variable (program : ι → List α)

/-- The schedule that runs calls one after the other, each from its start to its end. -/
def oneByOne (order : List ι) : List ι :=
  order.flatMap fun i => List.replicate (program i).length i

theorem oneByOne_append (first second : List ι) :
    oneByOne program (first ++ second) = oneByOne program first ++ oneByOne program second :=
  List.flatMap_append

theorem oneByOne_singleton (i : ι) :
    oneByOne program [i] = List.replicate (program i).length i := List.flatMap_singleton _ _

theorem mem_of_mem_oneByOne {i : ι} {order : List ι} (h : i ∈ oneByOne program order) :
    i ∈ order := by
  obtain ⟨j, hj, hi⟩ := List.mem_flatMap.mp h
  rwa [List.eq_of_mem_replicate hi]

end

/-! ### Runs -/

section Runs

variable [DecidableEq ι] (program : ι → List α) (exec : α → σ → κ → σ × κ)

/-- Call `i` executes `action` and moves one position forward. -/
def advance (i : ι) (action : α) (config : Config ι σ κ) : Config ι σ κ where
  shared := (exec action config.shared (config.regs i)).1
  pc := Function.update config.pc i (config.pc i + 1)
  regs := Function.update config.regs i (exec action config.shared (config.regs i)).2

/-- Call `i` takes its next action, if it has not returned. -/
def fire (i : ι) (config : Config ι σ κ) : Config ι σ κ :=
  match (program i)[config.pc i]? with
  | none => config
  | some action => advance exec i action config

def run (schedule : List ι) (config : Config ι σ κ) : Config ι σ κ :=
  schedule.foldl (fun current i => fire program exec i current) config

/-- Every call has executed its whole program. -/
def Returned (config : Config ι σ κ) : Prop :=
  ∀ i, config.pc i = (program i).length

instance [Fintype ι] (config : Config ι σ κ) : Decidable (Returned program config) :=
  inferInstanceAs (Decidable (∀ i, config.pc i = (program i).length))

@[simp] theorem run_nil (config : Config ι σ κ) :
    run program exec [] config = config := rfl

@[simp] theorem run_cons (i : ι) (schedule : List ι) (config : Config ι σ κ) :
    run program exec (i :: schedule) config =
      run program exec schedule (fire program exec i config) := rfl

/-- Everything one scheduling decision can do: nothing, or the next action of
the scheduled call. -/
theorem fire_cases (i : ι) (config : Config ι σ κ) :
    ((program i)[config.pc i]? = none ∧ fire program exec i config = config) ∨
      ∃ action, (program i)[config.pc i]? = some action ∧
        fire program exec i config = advance exec i action config := by
  cases hAction : (program i)[config.pc i]? with
  | none => exact Or.inl ⟨rfl, by simp [fire, hAction]⟩
  | some action => exact Or.inr ⟨action, rfl, by simp [fire, hAction]⟩

@[simp] theorem advance_pc_self (i : ι) (action : α) (config : Config ι σ κ) :
    (advance exec i action config).pc i = config.pc i + 1 := by
  simp [advance]

theorem advance_pc_of_ne {i other : ι} (hne : other ≠ i) (action : α)
    (config : Config ι σ κ) :
    (advance exec i action config).pc other = config.pc other := by
  simp [advance, hne]

@[simp] theorem advance_regs_self (i : ι) (action : α) (config : Config ι σ κ) :
    (advance exec i action config).regs i =
      (exec action config.shared (config.regs i)).2 := by
  simp [advance]

theorem advance_regs_of_ne {i other : ι} (hne : other ≠ i) (action : α)
    (config : Config ι σ κ) :
    (advance exec i action config).regs other = config.regs other := by
  simp [advance, hne]

/-- The invariant rule.  What every action preserves holds after every
schedule. -/
theorem run_invariant (inv : Config ι σ κ → Prop)
    (hStep : ∀ config i action, inv config → (program i)[config.pc i]? = some action →
      inv (advance exec i action config))
    (schedule : List ι) (config : Config ι σ κ) (hInit : inv config) :
    inv (run program exec schedule config) := by
  induction schedule generalizing config with
  | nil => exact hInit
  | cons i schedule ih =>
      rw [run_cons]
      apply ih
      rcases fire_cases program exec i config with ⟨_, hStay⟩ | ⟨action, hAction, hFire⟩
      · rw [hStay]
        exact hInit
      · rw [hFire]
        exact hStep config i action hInit hAction

theorem run_append (first second : List ι) (config : Config ι σ κ) :
    run program exec (first ++ second) config =
      run program exec second (run program exec first config) :=
  List.foldl_append

theorem pc_le_pc_run (schedule : List ι) (config : Config ι σ κ) (i : ι) :
    config.pc i ≤ (run program exec schedule config).pc i := by
  refine run_invariant program exec (fun later => config.pc i ≤ later.pc i) ?_ schedule config
    le_rfl
  intro later j action hLe _
  by_cases hSame : i = j
  · subst hSame
    rw [advance_pc_self]
    omega
  · rw [advance_pc_of_ne exec hSame]
    exact hLe

/-- Every action taken along the schedule met `cond` in the configuration it
was taken from. -/
def StepsMeet (cond : Config ι σ κ → ι → α → Prop) :
    List ι → Config ι σ κ → Prop
  | [], _ => True
  | i :: schedule, config =>
      (∀ action, (program i)[config.pc i]? = some action → cond config i action) ∧
        StepsMeet cond schedule (fire program exec i config)

instance decidableStepsMeet (cond : Config ι σ κ → ι → α → Prop)
    [∀ config i action, Decidable (cond config i action)] :
    ∀ (schedule : List ι) (config : Config ι σ κ),
      Decidable (StepsMeet program exec cond schedule config)
  | [], _ => isTrue trivial
  | i :: schedule, config =>
      have := decidableStepsMeet cond schedule (fire program exec i config)
      inferInstanceAs (Decidable
        ((∀ action ∈ (program i)[config.pc i]?, cond config i action) ∧ _))

variable {program exec}

/-- A schedule meets the condition exactly when both halves of any split of it
do. -/
theorem stepsMeet_append {cond : Config ι σ κ → ι → α → Prop}
    (first second : List ι) (config : Config ι σ κ) :
    StepsMeet program exec cond (first ++ second) config ↔
      StepsMeet program exec cond first config ∧
        StepsMeet program exec cond second (run program exec first config) := by
  induction first generalizing config with
  | nil => simp [StepsMeet]
  | cons i first ih => simp [StepsMeet, ih, and_assoc]

/-- The conditional invariant rule.  What every action that meets `cond`
preserves holds after every schedule whose actions all met it. -/
theorem run_invariant_of_stepsMeet {inv : Config ι σ κ → Prop}
    {cond : Config ι σ κ → ι → α → Prop}
    (hStep : ∀ config i action, inv config → (program i)[config.pc i]? = some action →
      cond config i action → inv (advance exec i action config))
    (schedule : List ι) (config : Config ι σ κ) (hInit : inv config)
    (hMeet : StepsMeet program exec cond schedule config) :
    inv (run program exec schedule config) := by
  induction schedule generalizing config with
  | nil => exact hInit
  | cons i schedule ih =>
      obtain ⟨hHere, hRest⟩ := hMeet
      rw [run_cons]
      refine ih _ ?_ hRest
      rcases fire_cases program exec i config with ⟨_, hStay⟩ | ⟨action, hAction, hFire⟩
      · rw [hStay]
        exact hInit
      · rw [hFire]
        exact hStep config i action hInit hAction (hHere action hAction)

/-- When an action meets `cond` exactly if it keeps `good` (given the
unconditional invariant `inv`), a whole schedule meets `cond` exactly if `good`
holds at its end.  A violation of `good` is never repaired. -/
theorem stepsMeet_iff_of_step_iff {inv good : Config ι σ κ → Prop}
    {cond : Config ι σ κ → ι → α → Prop}
    (hInv : ∀ config i action, inv config → (program i)[config.pc i]? = some action →
      inv (advance exec i action config))
    (hStep : ∀ config i action, inv config → (program i)[config.pc i]? = some action →
      (good (advance exec i action config) ↔ good config ∧ cond config i action))
    (schedule : List ι) (config : Config ι σ κ) (hInit : inv config) :
    good (run program exec schedule config) ↔
      good config ∧ StepsMeet program exec cond schedule config := by
  induction schedule generalizing config with
  | nil => simp [StepsMeet]
  | cons i schedule ih =>
      rw [run_cons]
      simp only [StepsMeet]
      rcases fire_cases program exec i config with
        ⟨hNone, hStay⟩ | ⟨action, hAction, hFire⟩
      · rw [hStay, ih config hInit]
        simp [hNone]
      · rw [hFire, ih _ (hInv config i action hInit hAction),
          hStep config i action hInit hAction]
        simp [hAction, and_assoc]

theorem run_of_notMem {i : ι} {schedule : List ι} (h : i ∉ schedule) (config : Config ι σ κ) :
    (run program exec schedule config).pc i = config.pc i ∧
      (run program exec schedule config).regs i = config.regs i := by
  induction schedule generalizing config with
  | nil => exact ⟨rfl, rfl⟩
  | cons j schedule ih =>
      rw [List.mem_cons, not_or] at h
      rw [run_cons]
      obtain ⟨hPc, hRegs⟩ := ih h.2 (fire program exec j config)
      rcases fire_cases program exec j config with ⟨-, hStay⟩ | ⟨action, -, hFire⟩
      · rw [hPc, hRegs, hStay]
        exact ⟨rfl, rfl⟩
      · rw [hPc, hRegs, hFire]
        exact ⟨advance_pc_of_ne exec h.1 action config, advance_regs_of_ne exec h.1 action config⟩

/-- A call that is scheduled as often as it has actions left executes them with nothing in
between. -/
theorem run_replicate {i : ι} {actions : List α} {config : Config ι σ κ}
    (hActions : (program i).drop (config.pc i) = actions) :
    run program exec (List.replicate actions.length i) config =
      { shared := (execList exec actions config.shared (config.regs i)).1
        pc := Function.update config.pc i (config.pc i + actions.length)
        regs := Function.update config.regs i
          (execList exec actions config.shared (config.regs i)).2 } := by
  induction actions generalizing config with
  | nil => simp [execList]
  | cons action actions ih =>
      have hHere : (program i)[config.pc i]? = some action := by
        rw [← List.head?_drop, hActions, List.head?_cons]
      have hRest : (program i).drop ((advance exec i action config).pc i) = actions := by
        rw [advance_pc_self, ← List.drop_drop, hActions, List.drop_one, List.tail_cons]
      have hFire : fire program exec i config = advance exec i action config := by
        rw [fire, hHere]
      rw [List.length_cons, List.replicate_succ, run_cons, hFire, ih hRest]
      simp [advance, execList, Nat.add_assoc, Nat.add_comm 1]

/-- A call that has not started and runs to its end after calls that do not include it
finds its registers untouched. -/
theorem run_oneByOne_concat {order : List ι} {i : ι} {config : Config ι σ κ} (hNew : i ∉ order)
    (hStart : config.pc i = 0) :
    let before := run program exec (oneByOne program order) config
    run program exec (oneByOne program (order ++ [i])) config =
      { shared := (execList exec (program i) before.shared (config.regs i)).1
        pc := Function.update before.pc i (program i).length
        regs := Function.update before.regs i
          (execList exec (program i) before.shared (config.regs i)).2 } := by
  intro before
  obtain ⟨hPc, hRegs⟩ : before.pc i = config.pc i ∧ before.regs i = config.regs i :=
    run_of_notMem (mt (mem_of_mem_oneByOne program) hNew) config
  have hAll : (program i).drop (before.pc i) = program i := by rw [hPc, hStart, List.drop_zero]
  calc run program exec (oneByOne program (order ++ [i])) config
    _ = run program exec (List.replicate (program i).length i) before := by
      rw [oneByOne_append, run_append, oneByOne_singleton]
    -- the call has not started, so all its actions are left
    _ = { shared := (execList exec (program i) before.shared (before.regs i)).1
          pc := Function.update before.pc i (before.pc i + (program i).length)
          regs := Function.update before.regs i
            (execList exec (program i) before.shared (before.regs i)).2 } :=
      run_replicate hAll
    _ = _ := by rw [hPc, hStart, hRegs, Nat.zero_add]

end Runs

end Interleaving
end Library
end CodebaseMem
