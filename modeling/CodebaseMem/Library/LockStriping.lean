import Mathlib.Algebra.BigOperators.Group.Finset.Basic
import Mathlib.Algebra.BigOperators.Ring.Finset
import Mathlib.Algebra.Order.BigOperators.Group.Finset
import Mathlib.Data.List.Basic
import Mathlib.Logic.Function.Basic

/-!
# Objects behind striped locks

A family of objects, indexed by `ι`, stands behind one mutex for each of them.  A
thread runs its operations one after the other.  For each of them it acquires the
mutex of the object the operation works on, works, and releases the mutex.  Work that
fails poisons the mutex and ends the thread, and so does an attempt to acquire a
poisoned mutex.

* `step`, `run`: a schedule names the thread that moves next.  A thread that waits is
  passed over.
* `Step`: everything a step can do, one constructor for each kind of step; every
  invariant below is proved by cases on it.
* `Linear`, `linear_run`: every run is equivalent to a sequential run of the operations,
  in the order in which their work was done.
* `Casualties`, `casualties_run`: a poisoned mutex has an operation that failed behind it.
* `Linear.exists_step`, `moves_add_remaining_le`, `Linear.exists_completion`: no run gets
  stuck before every thread has ended, and none goes on for ever.

A thread holds at most one mutex at a time, which is why no deadlock is possible.  Work
under a lock is one step, and mutexes are not fair.
-/

namespace CodebaseMem
namespace Library
namespace LockStriping

variable {τ ι α σ ρ ε : Type*}

/-- The object an operation works on, and what it does there.  The object is known before
the mutex is locked.  Work that fails changes nothing. -/
structure Service (ι α σ ρ ε : Type*) where
  home : α → ι
  work : α → σ → Except ε (σ × ρ)

structure Cell (τ σ : Type*) where
  value : σ
  holder : Option τ
  poisoned : Bool

/-- Where a thread is in its first operation.  It locks the mutex, works, and unlocks,
each in a step of its own, so that other threads can move in between. -/
inductive Phase (ρ : Type*) where
  | ready
  | holding
  | leaving (result : ρ)
  | crashed
  deriving DecidableEq

/-- The operations a thread has not finished, and the results of those it has. -/
structure Worker (α ρ : Type*) where
  todo : List α
  phase : Phase ρ
  results : List ρ

structure State (τ ι α σ ρ : Type*) where
  cells : ι → Cell τ σ
  workers : τ → Worker α ρ

/-- All mutexes are free, and no thread has begun. -/
def State.start (values : ι → σ) (programs : τ → List α) : State τ ι α σ ρ where
  cells := fun i => ⟨values i, none, false⟩
  workers := fun t => ⟨programs t, .ready, []⟩

structure Event (τ α ρ : Type*) where
  thread : τ
  op : α
  result : ρ

section Semantics

variable [DecidableEq τ] [DecidableEq ι] (service : Service ι α σ ρ ε)

def State.put (s : State τ ι α σ ρ) (i : ι) (cell : Cell τ σ) (t : τ) (worker : Worker α ρ) :
    State τ ι α σ ρ where
  cells := Function.update s.cells i cell
  workers := Function.update s.workers t worker

/-- The next step of a thread.  There is none when the thread has ended or waits.  A
failure poisons the mutex, and a thread that locks a poisoned mutex crashes as well. -/
def step (t : τ) (s : State τ ι α σ ρ) : Option (State τ ι α σ ρ) :=
  let worker := s.workers t
  match worker.todo with
  | [] => none
  | op :: rest =>
      let i := service.home op
      let cell := s.cells i
      match worker.phase with
      | .ready =>
          if cell.holder.isSome then none
          else if cell.poisoned then some (s.put i cell t { worker with phase := .crashed })
          else some (s.put i { cell with holder := some t } t { worker with phase := .holding })
      | .holding =>
          match service.work op cell.value with
          | .error _ =>
              some (s.put i { cell with holder := none, poisoned := true } t
                { worker with phase := .crashed })
          | .ok (value, result) =>
              some (s.put i { cell with value := value } t { worker with phase := .leaving result })
      | .leaving result =>
          some (s.put i { cell with holder := none } t ⟨rest, .ready, worker.results ++ [result]⟩)
      | .crashed => none

/-- The work the next step of a thread does, if it does any.  Locking and unlocking are
no work, so an operation counts at one moment only. -/
def event (t : τ) (s : State τ ι α σ ρ) : Option (Event τ α ρ) :=
  match (s.workers t).todo, (s.workers t).phase with
  | op :: _, .holding =>
      match service.work op (s.cells (service.home op)).value with
      | .error _ => none
      | .ok (_, result) => some ⟨t, op, result⟩
  | _, _ => none

/-- A schedule names the thread that moves next.  A thread that cannot move is passed
over. -/
def run (schedule : List τ) (s : State τ ι α σ ρ) : State τ ι α σ ρ :=
  schedule.foldl (fun s t => (step service t s).getD s) s

/-- The work done along a schedule. -/
def history : List τ → State τ ι α σ ρ → List (Event τ α ρ)
  | [], _ => []
  | t :: schedule, s =>
      (event service t s).toList ++ history schedule ((step service t s).getD s)

/-- A sequential run of operations. -/
def replay (values : ι → σ) : List α → Except ε ((ι → σ) × List ρ)
  | [] => .ok (values, [])
  | op :: ops =>
      match service.work op (values (service.home op)) with
      | .error failure => .error failure
      | .ok (value, result) =>
          match replay (Function.update values (service.home op) value) ops with
          | .error failure => .error failure
          | .ok (values, results) => .ok (values, result :: results)

end Semantics

/-! ### Parts of a history -/

section Histories

variable [DecidableEq τ]

def opsOf (t : τ) (events : List (Event τ α ρ)) : List α :=
  (events.filter fun e => e.thread = t).map Event.op

def resultsOf (t : τ) (events : List (Event τ α ρ)) : List ρ :=
  (events.filter fun e => e.thread = t).map Event.result

theorem opsOf_concat_self (events : List (Event τ α ρ)) (t : τ) (op : α) (result : ρ) :
    opsOf t (events ++ [⟨t, op, result⟩]) = opsOf t events ++ [op] := by
  simp [opsOf]

theorem opsOf_concat_of_ne {t u : τ} (hne : u ≠ t) (events : List (Event τ α ρ)) (op : α)
    (result : ρ) : opsOf u (events ++ [⟨t, op, result⟩]) = opsOf u events := by
  simp [opsOf, hne.symm]

theorem resultsOf_concat_self (events : List (Event τ α ρ)) (t : τ) (op : α) (result : ρ) :
    resultsOf t (events ++ [⟨t, op, result⟩]) = resultsOf t events ++ [result] := by
  simp [resultsOf]

theorem resultsOf_concat_of_ne {t u : τ} (hne : u ≠ t) (events : List (Event τ α ρ)) (op : α)
    (result : ρ) : resultsOf u (events ++ [⟨t, op, result⟩]) = resultsOf u events := by
  simp [resultsOf, hne.symm]

theorem mem_of_mem_zip_ofThread {t : τ} {events : List (Event τ α ρ)} {op : α} {result : ρ}
    (hMem : (op, result) ∈ (opsOf t events).zip (resultsOf t events)) :
    (op, result) ∈ (events.map Event.op).zip (events.map Event.result) := by
  rw [opsOf, resultsOf, List.zip_map'] at hMem
  rw [List.zip_map']
  obtain ⟨e, hEvent, hPair⟩ := List.mem_map.mp hMem
  exact List.mem_map.mpr ⟨e, (List.mem_filter.mp hEvent).1, hPair⟩

theorem mem_ops_iff {events : List (Event τ α ρ)} {op : α} :
    op ∈ events.map Event.op ↔ ∃ t, op ∈ opsOf t events := by
  simp [opsOf]

end Histories

namespace Worker

/-- The operations whose work is still to be done. -/
def pending (worker : Worker α ρ) : List α :=
  match worker.phase with
  | .leaving _ => worker.todo.tail
  | _ => worker.todo

/-- The results of the work that was done. -/
def obtained (worker : Worker α ρ) : List ρ :=
  match worker.phase with
  | .leaving result => worker.results ++ [result]
  | _ => worker.results

/-- The object whose mutex the thread has acquired and not released. -/
def held (service : Service ι α σ ρ ε) (worker : Worker α ρ) : Option ι :=
  match worker.todo, worker.phase with
  | op :: _, .holding => some (service.home op)
  | op :: _, .leaving _ => some (service.home op)
  | _, _ => none

/-- The thread has returned from all its operations, or a failure has ended it. -/
def Ended (worker : Worker α ρ) : Prop := worker.todo = [] ∨ worker.phase = .crashed

/-- An upper bound for the number of steps the thread still takes: three for each
operation that it has not begun, and none once it has crashed. -/
def remaining (worker : Worker α ρ) : Nat :=
  match worker.phase with
  | .ready => 3 * worker.todo.length
  | .holding => 3 * worker.todo.length - 1
  | .leaving _ => 3 * worker.todo.length - 2
  | .crashed => 0

end Worker

section Steps

variable [DecidableEq τ] [DecidableEq ι] {service : Service ι α σ ρ ε}

namespace State

variable (s : State τ ι α σ ρ) (i : ι) (cell : Cell τ σ) (t : τ) (worker : Worker α ρ)

@[simp] theorem put_cells_self : (s.put i cell t worker).cells i = cell :=
  Function.update_self ..

@[simp] theorem put_workers_self : (s.put i cell t worker).workers t = worker :=
  Function.update_self ..

theorem put_cells_of_ne {j : ι} (hne : j ≠ i) : (s.put i cell t worker).cells j = s.cells j :=
  Function.update_of_ne hne ..

theorem put_workers_of_ne {u : τ} (hne : u ≠ t) :
    (s.put i cell t worker).workers u = s.workers u :=
  Function.update_of_ne hne ..

theorem forall_cells_put (p : ι → Cell τ σ → Prop) :
    (∀ j, p j ((s.put i cell t worker).cells j)) ↔ p i cell ∧ ∀ j ≠ i, p j (s.cells j) :=
  Function.forall_update_iff s.cells p

theorem forall_workers_put (p : τ → Worker α ρ → Prop) :
    (∀ u, p u ((s.put i cell t worker).workers u)) ↔ p t worker ∧ ∀ u ≠ t, p u (s.workers u) :=
  Function.forall_update_iff s.workers p

end State

variable (service) in
/-- Everything a step of thread `t` can do, with the work it does. -/
inductive Step (t : τ) (s : State τ ι α σ ρ) :
    State τ ι α σ ρ → Option (Event τ α ρ) → Prop
  | acquire {op rest} (hTodo : (s.workers t).todo = op :: rest)
      (hPhase : (s.workers t).phase = .ready)
      (hFree : (s.cells (service.home op)).holder = none)
      (hSound : (s.cells (service.home op)).poisoned = false) :
      Step t s (s.put (service.home op) { s.cells (service.home op) with holder := some t } t
        { s.workers t with phase := .holding }) none
  | refuse {op rest} (hTodo : (s.workers t).todo = op :: rest)
      (hPhase : (s.workers t).phase = .ready)
      (hFree : (s.cells (service.home op)).holder = none)
      (hPoisoned : (s.cells (service.home op)).poisoned = true) :
      Step t s (s.put (service.home op) (s.cells (service.home op)) t
        { s.workers t with phase := .crashed }) none
  | fail {op rest failure} (hTodo : (s.workers t).todo = op :: rest)
      (hPhase : (s.workers t).phase = .holding)
      (hWork : service.work op (s.cells (service.home op)).value = .error failure) :
      Step t s (s.put (service.home op)
        { s.cells (service.home op) with holder := none, poisoned := true } t
        { s.workers t with phase := .crashed }) none
  | work {op rest value result} (hTodo : (s.workers t).todo = op :: rest)
      (hPhase : (s.workers t).phase = .holding)
      (hWork : service.work op (s.cells (service.home op)).value = .ok (value, result)) :
      Step t s (s.put (service.home op) { s.cells (service.home op) with value := value } t
        { s.workers t with phase := .leaving result }) (some ⟨t, op, result⟩)
  | release {op rest result} (hTodo : (s.workers t).todo = op :: rest)
      (hPhase : (s.workers t).phase = .leaving result) :
      Step t s (s.put (service.home op) { s.cells (service.home op) with holder := none } t
        ⟨rest, .ready, (s.workers t).results ++ [result]⟩) none

theorem step_sound {t : τ} {s s' : State τ ι α σ ρ} (hStep : step service t s = some s') :
    Step service t s s' (event service t s) := by
  -- the cases of the definition, in its order: ready, holding, leaving, crashed
  unfold step at hStep
  dsimp only at hStep
  split at hStep
  · cases hStep
  · next op rest hTodo =>
      split at hStep
      · next hPhase =>
          have hEvent : event service t s = none := by simp [event, hTodo, hPhase]
          rw [hEvent]
          split at hStep
          · cases hStep
          · next hFree =>
              rw [Option.not_isSome_iff_eq_none] at hFree
              split at hStep
              · next hPoisoned =>
                  obtain rfl := Option.some.inj hStep
                  exact .refuse hTodo hPhase hFree hPoisoned
              · next hSound =>
                  obtain rfl := Option.some.inj hStep
                  exact .acquire hTodo hPhase hFree (by simpa using hSound)
      · next hPhase =>
          split at hStep
          · next failure hWork =>
              obtain rfl := Option.some.inj hStep
              have hEvent : event service t s = none := by simp [event, hTodo, hPhase, hWork]
              rw [hEvent]
              exact .fail hTodo hPhase hWork
          · next value result hWork =>
              obtain rfl := Option.some.inj hStep
              have hEvent : event service t s = some ⟨t, op, result⟩ := by
                simp [event, hTodo, hPhase, hWork]
              rw [hEvent]
              exact .work hTodo hPhase hWork
      · next result hPhase =>
          obtain rfl := Option.some.inj hStep
          have hEvent : event service t s = none := by simp [event, hTodo, hPhase]
          rw [hEvent]
          exact .release hTodo hPhase
      · cases hStep

/-- A thread that cannot move has ended or waits for a mutex. -/
theorem ended_or_waits_of_step_eq_none {t : τ} {s : State τ ι α σ ρ}
    (hStep : step service t s = none) :
    (s.workers t).Ended ∨ ∃ op u, op ∈ (s.workers t).todo ∧
      (s.cells (service.home op)).holder = some u := by
  unfold step at hStep
  dsimp only at hStep
  split at hStep
  · next hTodo => exact Or.inl (Or.inl hTodo)
  · next op rest hTodo =>
      split at hStep
      · next hPhase =>
          split at hStep
          · next hHeld =>
              obtain ⟨u, hHolder⟩ := Option.isSome_iff_exists.mp hHeld
              exact Or.inr ⟨op, u, by simp [hTodo], hHolder⟩
          · split at hStep <;> cases hStep
      · split at hStep <;> cases hStep
      · cases hStep
      · next hPhase => exact Or.inl (Or.inr hPhase)

theorem step_isSome_of_held {t : τ} {s : State τ ι α σ ρ} {i : ι}
    (hHeld : (s.workers t).held service = some i) : ∃ s', step service t s = some s' := by
  unfold Worker.held at hHeld
  unfold step
  dsimp only
  split at hHeld
  · next op rest hTodo hPhase =>
      rw [hTodo, hPhase]
      dsimp only
      cases service.work op (s.cells (service.home op)).value with
      | error failure => exact ⟨_, rfl⟩
      | ok done => exact ⟨_, rfl⟩
  · next op rest result hTodo hPhase =>
      rw [hTodo, hPhase]
      exact ⟨_, rfl⟩
  · cases hHeld

/-! ### Linear histories -/

variable (service) in
theorem replay_concat {values values' : ι → σ} {ops : List α} {results : List ρ} {op : α}
    {value : σ} {result : ρ} (hOps : replay service values ops = .ok (values', results))
    (hWork : service.work op (values' (service.home op)) = .ok (value, result)) :
    replay service values (ops ++ [op]) =
      .ok (Function.update values' (service.home op) value, results ++ [result]) := by
  induction ops generalizing values results with
  | nil =>
      obtain ⟨rfl, rfl⟩ := Prod.mk.inj (Except.ok.inj hOps)
      simp [replay, hWork]
  | cons first ops ih =>
      rw [replay] at hOps
      cases hFirst : service.work first (values (service.home first)) with
      | error failure => simp [hFirst] at hOps
      | ok done =>
          obtain ⟨value', result'⟩ := done
          cases hRest : replay service
              (Function.update values (service.home first) value') ops with
          | error failure => simp [hFirst, hRest] at hOps
          | ok done =>
              obtain ⟨last, rest⟩ := done
              simp only [hFirst, hRest] at hOps
              obtain ⟨rfl, rfl⟩ := Prod.mk.inj (Except.ok.inj hOps)
              simp [replay, hFirst, ih hRest]

variable (service) in
/-- The events are a sequential run of the work done so far.  Each thread's part of
them is the part of its program that lies behind it. -/
structure Linear (values : ι → σ) (programs : τ → List α) (s : State τ ι α σ ρ)
    (events : List (Event τ α ρ)) : Prop where
  replay : replay service values (events.map Event.op) =
    .ok (fun i => (s.cells i).value, events.map Event.result)
  programs : ∀ t, programs t = opsOf t events ++ (s.workers t).pending
  results : ∀ t, resultsOf t events = (s.workers t).obtained
  holder : ∀ i t, (s.cells i).holder = some t ↔ (s.workers t).held service = some i
  idle : ∀ t, (s.workers t).todo = [] → (s.workers t).phase = .ready

theorem linear_start (values : ι → σ) (programs : τ → List α) :
    Linear service values programs (State.start values programs) [] where
  replay := rfl
  programs := fun _ => rfl
  results := fun _ => rfl
  holder := by
    intro i t
    have hNone : ((State.start values programs).workers t : Worker α ρ).held service = none := by
      simp [State.start, Worker.held]
    rw [hNone]
    simp [State.start]
  idle := fun _ _ => rfl

/-- Replacing a cell and a worker keeps the holders right if the worker holds no
other mutex before and after. -/
theorem holder_put {s : State τ ι α σ ρ} {i : ι} {cell : Cell τ σ} {t : τ}
    {worker : Worker α ρ}
    (hHolder : ∀ j u, (s.cells j).holder = some u ↔ (s.workers u).held service = some j)
    (hBefore : ∀ j ≠ i, (s.workers t).held service ≠ some j)
    (hAfter : ∀ j ≠ i, worker.held service ≠ some j)
    (hSelf : cell.holder = some t ↔ worker.held service = some i)
    (hOther : ∀ u ≠ t, cell.holder = some u ↔ (s.cells i).holder = some u) (j : ι) (u : τ) :
    ((s.put i cell t worker).cells j).holder = some u ↔
      ((s.put i cell t worker).workers u).held service = some j := by
  by_cases hj : j = i
  · subst hj
    by_cases hu : u = t
    · subst hu
      simpa using hSelf
    · rw [State.put_cells_self, State.put_workers_of_ne _ _ _ _ _ hu, hOther u hu, hHolder]
  · rw [State.put_cells_of_ne _ _ _ _ _ hj, hHolder]
    by_cases hu : u = t
    · subst hu
      rw [State.put_workers_self]
      exact iff_of_false (hBefore j hj) (hAfter j hj)
    · rw [State.put_workers_of_ne _ _ _ _ _ hu]

/-- A step that does no work keeps a linear history.  Locking, refusing, failing and
unlocking change who holds what, but not the values and not what was returned. -/
theorem Linear.silent {values : ι → σ} {programs : τ → List α} {s : State τ ι α σ ρ}
    {events : List (Event τ α ρ)} (h : Linear service values programs s events) {i : ι}
    {cell : Cell τ σ} {t : τ} {worker : Worker α ρ} (hValue : cell.value = (s.cells i).value)
    (hPending : worker.pending = (s.workers t).pending)
    (hObtained : worker.obtained = (s.workers t).obtained)
    (hIdle : worker.todo = [] → worker.phase = .ready)
    (hHolder : ∀ j u, ((s.put i cell t worker).cells j).holder = some u ↔
      ((s.put i cell t worker).workers u).held service = some j) :
    Linear service values programs (s.put i cell t worker) events := by
  have hValues : ∀ j, ((s.put i cell t worker).cells j).value = (s.cells j).value :=
    (s.forall_cells_put i cell t worker fun j c => c.value = (s.cells j).value).mpr
      ⟨hValue, fun _ _ => rfl⟩
  refine ⟨?_, ?_, ?_, hHolder, ?_⟩
  · rw [h.replay]
    congr 2
    exact (funext hValues).symm
  · refine (s.forall_workers_put i cell t worker
      fun u w => programs u = opsOf u events ++ w.pending).mpr ⟨?_, fun u _ => h.programs u⟩
    rw [hPending]
    exact h.programs t
  · refine (s.forall_workers_put i cell t worker
      fun u w => resultsOf u events = w.obtained).mpr ⟨?_, fun u _ => h.results u⟩
    rw [hObtained]
    exact h.results t
  · exact (s.forall_workers_put i cell t worker fun _ w => w.todo = [] → w.phase = .ready).mpr
      ⟨hIdle, fun u _ => h.idle u⟩

/-- A step that works appends its work to a linear history.  The values change in the
cell of the operation only, which is what the sequential run does too. -/
theorem Linear.worked {values : ι → σ} {programs : τ → List α} {s : State τ ι α σ ρ}
    {events : List (Event τ α ρ)} (h : Linear service values programs s events) {op : α}
    {value : σ} {result : ρ} {cell : Cell τ σ} {t : τ} {worker : Worker α ρ}
    (hWork : service.work op (s.cells (service.home op)).value = .ok (value, result))
    (hValue : cell.value = value) (hPending : (s.workers t).pending = op :: worker.pending)
    (hObtained : worker.obtained = (s.workers t).obtained ++ [result])
    (hIdle : worker.todo = [] → worker.phase = .ready)
    (hHolder : ∀ j u, ((s.put (service.home op) cell t worker).cells j).holder = some u ↔
      ((s.put (service.home op) cell t worker).workers u).held service = some j) :
    Linear service values programs (s.put (service.home op) cell t worker)
      (events ++ [⟨t, op, result⟩]) := by
  -- the replay of the longer history ends in the values after the step
  have hValues : ∀ j, ((s.put (service.home op) cell t worker).cells j).value =
      Function.update (fun j => (s.cells j).value) (service.home op) value j := by
    refine (s.forall_cells_put (service.home op) cell t worker fun j c => c.value =
      Function.update (fun j => (s.cells j).value) (service.home op) value j).mpr ⟨?_, ?_⟩
    · rw [Function.update_self, hValue]
    · intro j hj
      rw [Function.update_of_ne hj]
  refine ⟨?_, ?_, ?_, hHolder, ?_⟩
  · rw [List.map_append, List.map_append, List.map_singleton, List.map_singleton,
      replay_concat service h.replay hWork]
    congr 2
    exact (funext hValues).symm
  · refine (s.forall_workers_put (service.home op) cell t worker fun u w =>
      programs u = opsOf u (events ++ [⟨t, op, result⟩]) ++ w.pending).mpr ⟨?_, ?_⟩
    · rw [opsOf_concat_self, List.append_assoc, List.singleton_append, ← hPending]
      exact h.programs t
    · intro u hu
      rw [opsOf_concat_of_ne hu]
      exact h.programs u
  · refine (s.forall_workers_put (service.home op) cell t worker fun u w =>
      resultsOf u (events ++ [⟨t, op, result⟩]) = w.obtained).mpr ⟨?_, ?_⟩
    · rw [resultsOf_concat_self, hObtained, h.results]
    · intro u hu
      rw [resultsOf_concat_of_ne hu]
      exact h.results u
  · exact (s.forall_workers_put (service.home op) cell t worker
      fun _ w => w.todo = [] → w.phase = .ready).mpr ⟨hIdle, fun u _ => h.idle u⟩

/-- What one step preserves: its work goes to the end of the history.  The cases are
those of `Step`; only the one that works appends an operation. -/
theorem Linear.step {values : ι → σ} {programs : τ → List α} {s s' : State τ ι α σ ρ}
    {events : List (Event τ α ρ)} {t : τ} {done : Option (Event τ α ρ)}
    (h : Linear service values programs s events) (hStep : Step service t s s' done) :
    Linear service values programs s' (events ++ done.toList) := by
  -- only `work` appends to the history; in every case the holders of the mutexes are those
  -- that the workers hold
  cases hStep with
  | @acquire op rest hTodo hPhase hFree hSound =>
      rw [Option.toList_none, List.append_nil]
      refine h.silent rfl (by simp [Worker.pending, hPhase]) (by simp [Worker.obtained, hPhase])
        (by simp [hTodo]) (holder_put h.holder ?_ ?_ ?_ ?_)
      · simp [Worker.held, hTodo, hPhase]
      · intro j hj
        simpa [Worker.held, hTodo] using hj.symm
      · simp [Worker.held, hTodo]
      · intro u hu
        simp [hFree, hu.symm]
  | @refuse op rest hTodo hPhase hFree hPoisoned =>
      rw [Option.toList_none, List.append_nil]
      refine h.silent rfl (by simp [Worker.pending, hPhase]) (by simp [Worker.obtained, hPhase])
        (by simp [hTodo]) (holder_put h.holder ?_ ?_ ?_ ?_)
      · simp [Worker.held, hTodo, hPhase]
      · simp [Worker.held, hTodo]
      · simp [Worker.held, hTodo, hFree]
      · simp
  | @fail op rest failure hTodo hPhase hWork =>
      have hHolds : (s.cells (service.home op)).holder = some t := by
        rw [h.holder]
        simp [Worker.held, hTodo, hPhase]
      rw [Option.toList_none, List.append_nil]
      refine h.silent rfl (by simp [Worker.pending, hPhase]) (by simp [Worker.obtained, hPhase])
        (by simp [hTodo]) (holder_put h.holder ?_ ?_ ?_ ?_)
      · intro j hj
        simpa [Worker.held, hTodo, hPhase] using hj.symm
      · simp [Worker.held, hTodo]
      · simp [Worker.held, hTodo]
      · intro u hu
        simp [hHolds, hu.symm]
  | @work op rest value result hTodo hPhase hWork =>
      have hHolds : (s.cells (service.home op)).holder = some t := by
        rw [h.holder]
        simp [Worker.held, hTodo, hPhase]
      rw [Option.toList_some]
      refine h.worked hWork rfl (by simp [Worker.pending, hTodo, hPhase])
        (by simp [Worker.obtained, hPhase]) (by simp [hTodo]) (holder_put h.holder ?_ ?_ ?_ ?_)
      · intro j hj
        simpa [Worker.held, hTodo, hPhase] using hj.symm
      · intro j hj
        simpa [Worker.held, hTodo] using hj.symm
      · simp [Worker.held, hTodo, hHolds]
      · simp
  | @release op rest result hTodo hPhase =>
      have hHolds : (s.cells (service.home op)).holder = some t := by
        rw [h.holder]
        simp [Worker.held, hTodo, hPhase]
      rw [Option.toList_none, List.append_nil]
      refine h.silent rfl (by simp [Worker.pending, hTodo, hPhase])
        (by simp [Worker.obtained, hPhase]) (fun _ => rfl) (holder_put h.holder ?_ ?_ ?_ ?_)
      · intro j hj
        simpa [Worker.held, hTodo, hPhase] using hj.symm
      · intro j hj
        cases rest with
        | nil => simp [Worker.held]
        | cons => simp [Worker.held]
      · cases rest with
        | nil => simp [Worker.held]
        | cons => simp [Worker.held]
      · intro u hu
        simp [hHolds, hu.symm]

theorem event_eq_none {t : τ} {s : State τ ι α σ ρ} (hStep : step service t s = none) :
    event service t s = none := by
  unfold event
  split
  · next op rest hTodo hPhase =>
      have hHeld : (s.workers t).held service = some (service.home op) := by
        simp [Worker.held, hTodo, hPhase]
      obtain ⟨s', hMoves⟩ := step_isSome_of_held hHeld
      rw [hStep] at hMoves
      cases hMoves
  · rfl

/-- The invariant rule.  What every step preserves holds after every schedule, and the
invariant may speak of the history of the schedule as well. -/
theorem run_invariant {inv : State τ ι α σ ρ → List (Event τ α ρ) → Prop}
    (hInv : ∀ t s s' events done, inv s events → Step service t s s' done →
      inv s' (events ++ done.toList))
    (schedule : List τ) {s : State τ ι α σ ρ} {events : List (Event τ α ρ)}
    (hStart : inv s events) :
    inv (run service schedule s) (events ++ history service schedule s) := by
  induction schedule generalizing s events with
  | nil => simpa [run, history] using hStart
  | cons t schedule ih =>
      rw [history, ← List.append_assoc]
      show inv (run service schedule ((step service t s).getD s)) _
      apply ih
      cases hStep : step service t s with
      | none => simpa [event_eq_none hStep] using hStart
      | some s' => exact hInv t s s' events _ hStart (step_sound hStep)

/-- What a whole run preserves. -/
theorem Linear.run {values : ι → σ} {programs : τ → List α} {s : State τ ι α σ ρ}
    {events : List (Event τ α ρ)} (h : Linear service values programs s events)
    (schedule : List τ) :
    Linear service values programs (run service schedule s)
      (events ++ history service schedule s) :=
  run_invariant (fun _ _ _ _ _ hLinear hStep => hLinear.step hStep) schedule h

theorem linear_run (service : Service ι α σ ρ ε) (values : ι → σ) (programs : τ → List α)
    (schedule : List τ) :
    Linear service values programs (LockStriping.run service schedule (.start values programs))
      (history service schedule (.start values programs)) :=
  (linear_start values programs).run schedule

/-- A thread that has ended without a failure has run its whole program, and its results
are those of its part of the history. -/
theorem Linear.finished {values : ι → σ} {programs : τ → List α} {s : State τ ι α σ ρ}
    {events : List (Event τ α ρ)} (h : Linear service values programs s events) {t : τ}
    (hEnded : (s.workers t).Ended) (hAlive : (s.workers t).phase ≠ .crashed) :
    opsOf t events = programs t ∧ resultsOf t events = (s.workers t).results := by
  have hTodo := hEnded.resolve_right hAlive
  have hPhase := h.idle t hTodo
  have hPending : (s.workers t).pending = [] := by simp [Worker.pending, hPhase, hTodo]
  have hObtained : (s.workers t).obtained = (s.workers t).results := by
    simp [Worker.obtained, hPhase]
  exact ⟨by rw [h.programs, hPending, List.append_nil], by rw [h.results, hObtained]⟩

/-! ### Failures -/

variable (service) in
/-- A poisoned mutex is free, and some thread was ended by an operation that fails
on the object behind it.  A thread that a failure ended had come to a poisoned
mutex. -/
structure Casualties (s : State τ ι α σ ρ) : Prop where
  free : ∀ i, (s.cells i).poisoned = true → (s.cells i).holder = none
  cause : ∀ i, (s.cells i).poisoned = true → ∃ t op rest failure,
    (s.workers t).todo = op :: rest ∧ (s.workers t).phase = .crashed ∧
      service.home op = i ∧ service.work op (s.cells i).value = .error failure
  crashed : ∀ t, (s.workers t).phase = .crashed → ∃ op rest,
    (s.workers t).todo = op :: rest ∧ (s.cells (service.home op)).poisoned = true

omit [DecidableEq τ] [DecidableEq ι] in
theorem casualties_start (values : ι → σ) (programs : τ → List α) :
    Casualties service (State.start values programs) where
  free := by simp [State.start]
  cause := by simp [State.start]
  crashed := by simp [State.start]

theorem Casualties.put {s : State τ ι α σ ρ} {i : ι} {cell : Cell τ σ} {t : τ}
    {worker : Worker α ρ} (h : Casualties service s)
    (hAlive : (s.workers t).phase ≠ .crashed)
    (hFree : cell.poisoned = true → cell.holder = none)
    (hKept : (s.cells i).poisoned = true → cell.poisoned = true ∧ cell.value = (s.cells i).value)
    (hCause : cell.poisoned = true → (s.cells i).poisoned = true ∨ ∃ op rest failure,
      worker.todo = op :: rest ∧ worker.phase = .crashed ∧ service.home op = i ∧
        service.work op cell.value = .error failure)
    (hCrashed : worker.phase = .crashed → ∃ op rest, worker.todo = op :: rest ∧
      service.home op = i ∧ cell.poisoned = true) :
    Casualties service (s.put i cell t worker) := by
  -- a cause found before is another thread's, on the same value
  have hOld : ∀ j, (s.cells j).poisoned = true → ∃ u op rest failure,
      ((s.put i cell t worker).workers u).todo = op :: rest ∧
      ((s.put i cell t worker).workers u).phase = .crashed ∧ service.home op = j ∧
      service.work op (s.cells j).value = .error failure := by
    intro j hPoisoned
    obtain ⟨u, op, rest, failure, hTodo, hPhase, hHome, hWork⟩ := h.cause j hPoisoned
    have hu : u ≠ t := by
      rintro rfl
      exact hAlive hPhase
    refine ⟨u, op, rest, failure, ?_, ?_, hHome, hWork⟩
    · rwa [State.put_workers_of_ne _ _ _ _ _ hu]
    · rwa [State.put_workers_of_ne _ _ _ _ _ hu]
  refine ⟨?_, ?_, ?_⟩
  · exact (s.forall_cells_put i cell t worker fun _ c => c.poisoned = true → c.holder = none).mpr
      ⟨hFree, fun j _ => h.free j⟩
  · refine (s.forall_cells_put i cell t worker fun j c => c.poisoned = true →
      ∃ u op rest failure, ((s.put i cell t worker).workers u).todo = op :: rest ∧
        ((s.put i cell t worker).workers u).phase = .crashed ∧ service.home op = j ∧
        service.work op c.value = .error failure).mpr ⟨?_, fun j _ => hOld j⟩
    intro hPoisoned
    rcases hCause hPoisoned with hBefore | ⟨op, rest, failure, hTodo, hPhase, hHome, hWork⟩
    · rw [(hKept hBefore).2]
      exact hOld i hBefore
    · exact ⟨t, op, rest, failure, by simpa using hTodo, by simpa using hPhase, hHome, hWork⟩
  · -- no poisoned mutex is mended
    have hStays : ∀ j, (s.cells j).poisoned = true →
        ((s.put i cell t worker).cells j).poisoned = true :=
      (s.forall_cells_put i cell t worker
        fun j c => (s.cells j).poisoned = true → c.poisoned = true).mpr
        ⟨fun hPoisoned => (hKept hPoisoned).1, fun _ _ hPoisoned => hPoisoned⟩
    refine (s.forall_workers_put i cell t worker fun _ w => w.phase = .crashed →
      ∃ op rest, w.todo = op :: rest ∧
        ((s.put i cell t worker).cells (service.home op)).poisoned = true).mpr ⟨?_, ?_⟩
    · intro hPhase
      obtain ⟨op, rest, hTodo, rfl, hPoisoned⟩ := hCrashed hPhase
      exact ⟨op, rest, hTodo, by simpa using hPoisoned⟩
    · intro u _ hPhase
      obtain ⟨op, rest, hTodo, hPoisoned⟩ := h.crashed u hPhase
      exact ⟨op, rest, hTodo, hStays _ hPoisoned⟩

/-- What one step preserves. -/
theorem Casualties.step {values : ι → σ} {programs : τ → List α} {s s' : State τ ι α σ ρ}
    {events : List (Event τ α ρ)} {t : τ} {done : Option (Event τ α ρ)}
    (h : Casualties service s) (hLinear : Linear service values programs s events)
    (hStep : Step service t s s' done) : Casualties service s' := by
  -- the mutex of a thread that works is not poisoned, because it is not free
  have hSound : ∀ i, (s.workers t).held service = some i → (s.cells i).poisoned = false := by
    intro i hHeld
    rw [← hLinear.holder] at hHeld
    by_contra hPoisoned
    rw [Bool.not_eq_false] at hPoisoned
    rw [h.free i hPoisoned] at hHeld
    cases hHeld
  cases hStep with
  | acquire hTodo hPhase hFree hSound =>
      exact h.put (by simp [hPhase]) (by simp [hSound]) (by simp [hSound]) (by simp [hSound])
        (by simp)
  | refuse hTodo hPhase hFree hPoisoned =>
      exact h.put (by simp [hPhase]) (by simp [hFree]) (by simp) Or.inl
        fun _ => ⟨_, _, hTodo, rfl, hPoisoned⟩
  | fail hTodo hPhase hWork =>
      exact h.put (by simp [hPhase]) (by simp) (by simp)
        (fun _ => Or.inr ⟨_, _, _, hTodo, rfl, rfl, hWork⟩) fun _ => ⟨_, _, hTodo, rfl, rfl⟩
  | @work op rest value result hTodo hPhase hWork =>
      have hHere := hSound (service.home op) (by simp [Worker.held, hTodo, hPhase])
      exact h.put (by simp [hPhase]) (by simp [hHere]) (by simp [hHere]) (by simp [hHere])
        (by simp)
  | @release op rest result hTodo hPhase =>
      have hHere := hSound (service.home op) (by simp [Worker.held, hTodo, hPhase])
      exact h.put (by simp [hPhase]) (by simp [hHere]) (by simp [hHere]) (by simp [hHere])
        (by simp)

theorem casualties_run (service : Service ι α σ ρ ε) (values : ι → σ) (programs : τ → List α)
    (schedule : List τ) :
    Casualties service (LockStriping.run service schedule (.start values programs)) := by
  have hBoth : Linear service values programs
        (LockStriping.run service schedule (.start values programs))
        ([] ++ history service schedule (.start values programs)) ∧
      Casualties service (LockStriping.run service schedule (.start values programs)) :=
    @run_invariant _ _ _ _ _ _ _ _ service
      (fun s events => Linear service values programs s events ∧ Casualties service s)
      (fun _ _ _ _ _ h hStep => ⟨h.1.step hStep, h.2.step h.1 hStep⟩) schedule _ _
      ⟨linear_start values programs, casualties_start values programs⟩
  exact hBoth.2

/-! ### Progress -/

/-- No deadlock: while a thread has not ended, some thread can move.  A thread holds one
mutex at a time and does not wait while it holds it. -/
theorem Linear.exists_step {values : ι → σ} {programs : τ → List α} {s : State τ ι α σ ρ}
    {events : List (Event τ α ρ)} (h : Linear service values programs s events) {t : τ}
    (hAlive : ¬(s.workers t).Ended) : ∃ u s', LockStriping.step service u s = some s' := by
  cases hStep : LockStriping.step service t s with
  | some s' => exact ⟨t, s', hStep⟩
  | none =>
      rcases ended_or_waits_of_step_eq_none hStep with hEnded | ⟨op, u, -, hHolder⟩
      · exact absurd hEnded hAlive
      · rw [h.holder] at hHolder
        exact ⟨u, step_isSome_of_held hHolder⟩

section Counting

variable [Fintype τ]

/-- An upper bound for the number of steps all threads still take. -/
def State.remaining (s : State τ ι α σ ρ) : Nat := ∑ t, (s.workers t).remaining

omit [DecidableEq τ] [DecidableEq ι] in
theorem State.remaining_start (values : ι → σ) (programs : τ → List α) :
    (State.start values programs : State τ ι α σ ρ).remaining =
      3 * ∑ t, (programs t).length := by
  rw [Finset.mul_sum]
  rfl

theorem Step.remaining_lt {t : τ} {s s' : State τ ι α σ ρ} {done : Option (Event τ α ρ)}
    (hStep : Step service t s s' done) : s'.remaining < s.remaining := by
  -- only the moving thread's count changes, and it falls
  have hPut : ∀ i cell worker, worker.remaining < (s.workers t).remaining →
      (s.put i cell t worker).remaining < s.remaining := by
    intro i cell worker hLess
    refine Finset.sum_lt_sum (fun u _ => ?_) ⟨t, Finset.mem_univ t, by simpa using hLess⟩
    by_cases hu : u = t
    · subst hu
      simpa using hLess.le
    · rw [State.put_workers_of_ne _ _ _ _ _ hu]
  cases hStep with
  | acquire hTodo hPhase hFree hSound =>
      exact hPut _ _ _ (by simp only [Worker.remaining, hTodo, hPhase, List.length_cons]; omega)
  | refuse hTodo hPhase hFree hPoisoned =>
      exact hPut _ _ _ (by simp only [Worker.remaining, hTodo, hPhase, List.length_cons]; omega)
  | fail hTodo hPhase hWork =>
      exact hPut _ _ _ (by simp only [Worker.remaining, hTodo, hPhase, List.length_cons]; omega)
  | work hTodo hPhase hWork =>
      exact hPut _ _ _ (by simp only [Worker.remaining, hTodo, hPhase, List.length_cons]; omega)
  | release hTodo hPhase =>
      exact hPut _ _ _ (by simp only [Worker.remaining, hTodo, hPhase, List.length_cons]; omega)

variable (service) in
def moves : List τ → State τ ι α σ ρ → Nat
  | [], _ => 0
  | t :: schedule, s =>
      (if (step service t s).isSome then 1 else 0) + moves schedule ((step service t s).getD s)

/-- Every schedule takes at most as many steps as remain.  With this a run cannot go on
forever, whichever thread is scheduled. -/
theorem moves_add_remaining_le (schedule : List τ) (s : State τ ι α σ ρ) :
    moves service schedule s + (run service schedule s).remaining ≤ s.remaining := by
  induction schedule generalizing s with
  | nil => simp [moves, run]
  | cons t schedule ih =>
      have hRest := ih ((step service t s).getD s)
      show moves service (t :: schedule) s +
        (run service schedule ((step service t s).getD s)).remaining ≤ s.remaining
      rw [moves]
      cases hStep : step service t s with
      | none =>
          rw [hStep, Option.getD_none] at hRest
          simp only [Option.isSome_none, Bool.false_eq_true, if_false, Option.getD_none]
          omega
      | some s' =>
          have hLess := (step_sound hStep).remaining_lt
          rw [hStep, Option.getD_some] at hRest
          simp only [Option.isSome_some, if_true, Option.getD_some]
          omega

/-- Every run can be continued until all threads have ended.  Induction on the steps that
remain: while one is left, some thread can move. -/
theorem Linear.exists_completion {values : ι → σ} {programs : τ → List α}
    {s : State τ ι α σ ρ} {events : List (Event τ α ρ)}
    (h : Linear service values programs s events) :
    ∃ schedule, ∀ t, ((LockStriping.run service schedule s).workers t).Ended := by
  induction hRemaining : s.remaining using Nat.strong_induction_on generalizing s events with
  | _ n ih =>
      by_cases hEnded : ∀ t, (s.workers t).Ended
      · exact ⟨[], hEnded⟩
      · push Not at hEnded
        obtain ⟨t, hAlive⟩ := hEnded
        obtain ⟨u, s', hStep⟩ := h.exists_step hAlive
        have hSound := step_sound hStep
        obtain ⟨schedule, hAll⟩ :=
          ih s'.remaining (hRemaining ▸ hSound.remaining_lt) (h.step hSound) rfl
        refine ⟨u :: schedule, ?_⟩
        show ∀ t, ((LockStriping.run service schedule
          ((LockStriping.step service u s).getD s)).workers t).Ended
        rwa [hStep, Option.getD_some]

end Counting

end Steps

end LockStriping
end Library
end CodebaseMem
