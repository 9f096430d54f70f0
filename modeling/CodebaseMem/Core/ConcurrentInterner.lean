import CodebaseMem.Core.Capacity
import CodebaseMem.Library.LockStriping

/-!
# The interner under concurrent calls

`intern` takes a shared reference.  A call acquires the mutex of the shard the string
hashes to, works on the shard, and releases the mutex.  A panic in between poisons the
mutex, and every later call on that shard panics too.  `compact` takes the mutexes
apart, and panics if one of them is poisoned.

* `SharedInterner`: lock striping of the library with `shardService` as the work under a
  lock.  A thread has a program of strings, and a schedule names the thread that steps.
* `internAll_calls`: every run is, at every moment, a sequential run of the calls made so
  far.
* `panics_iff_overfull`: runs end, and whether a thread panics does not depend on the
  schedule.
* `resolve_after_threads`: what the handles of all threads mean after `compact`.

The mutex need not be fair: a waiting thread may be passed over for as long as others
have steps left.  Calls that race with `compact` do not exist, as it owns the interner.
-/

namespace CodebaseMem
namespace Core

open Library LockStriping

/-- What `intern` does under the lock of a shard.  The shard index is computed before the
lock is taken, from the string alone. -/
def shardService (shardIndex : String → Fin shardCount) :
    Service (Fin shardCount) String ShardInner InternedStr Fault where
  home := shardIndex
  work := fun s shard => do
    let (shard, localOffset) ← shard.intern s
    .ok (shard, encodeHandle (shardIndex s) localOffset)

@[simp] theorem shardService_home (shardIndex : String → Fin shardCount) (s : String) :
    (shardService shardIndex).home s = shardIndex s := rfl

theorem shardService_work {shardIndex : String → Fin shardCount} {s : String}
    {shard shard' : ShardInner} {offset : UInt32}
    (hIntern : shard.intern s = .ok (shard', offset)) :
    (shardService shardIndex).work s shard = .ok (shard', encodeHandle (shardIndex s) offset) := by
  show (do
    let (shard, localOffset) ← shard.intern s
    .ok (shard, encodeHandle (shardIndex s) localOffset)) = _
  rw [hIntern, Exec.ok_bind]

/-- A `StringInterner` that the threads `τ` share. -/
abbrev SharedInterner (τ : Type*) := State τ (Fin shardCount) String ShardInner InternedStr

namespace SharedInterner

variable {τ : Type*}

/-- No thread has begun to intern the strings of its program. -/
def new (programs : τ → List String) : SharedInterner τ :=
  State.start (fun _ => ShardInner.new) programs

def interner (shared : SharedInterner τ) : StringInterner where
  shards := fun i => (shared.cells i).value

/-- `Mutex::into_inner`, unwrapped.  A mutex is poisoned when a thread panicked while it
held it, and then the `unwrap` panics too. -/
def intoInner (cell : Cell τ ShardInner) : Exec ShardInner :=
  expect (if cell.poisoned then none else some cell.value)

/-- Compact all shard buffers into a single contiguous buffer. -/
def compact (profile : Profile) (shared : SharedInterner τ) :
    Exec (FrozenInterner × (InternedStr → Exec InternedStr)) := do
  let shards ← (List.finRange shardCount).mapM fun i => intoInner (shared.cells i)
  let shardBufs := shards.map ShardInner.buf
  let shardStart ← StringInterner.shardStarts profile 0 shardBufs
  .ok ({ buf := shardBufs.flatten }, StringInterner.remap profile shardStart)

theorem compact_of_sound (profile : Profile) {shared : SharedInterner τ}
    (hSound : ∀ i, (shared.cells i).poisoned = false) :
    shared.compact profile = shared.interner.compact profile := by
  have hShards : ∀ shards : List (Fin shardCount),
      (shards.mapM fun i => intoInner (shared.cells i)) =
        .ok (shards.map fun i => (shared.cells i).value) := by
    intro shards
    induction shards with
    | nil => rfl
    | cons i shards ih =>
        have hHere : intoInner (shared.cells i) = .ok (shared.cells i).value := by
          simp [intoInner, hSound i]
        rw [List.mapM_cons, hHere, Exec.ok_bind, ih]
        rfl
  rw [compact, hShards, Exec.ok_bind, List.map_map]
  rfl

theorem compact_of_poisoned (profile : Profile) {shared : SharedInterner τ} {i : Fin shardCount}
    (hPoisoned : (shared.cells i).poisoned = true) :
    shared.compact profile = .error .panic := by
  have hShards : ∀ shards : List (Fin shardCount), i ∈ shards →
      (shards.mapM fun i => intoInner (shared.cells i)) = .error .panic := by
    intro shards
    induction shards with
    | nil =>
        intro hMem
        cases hMem
    | cons j shards ih =>
        intro hMem
        rw [List.mapM_cons]
        by_cases hj : (shared.cells j).poisoned = true
        · simp [intoInner, hj]
        · rcases List.mem_cons.mp hMem with rfl | hLater
          · exact absurd hPoisoned hj
          · rw [ih hLater]
            simp [intoInner, hj]
  rw [compact, hShards _ (List.mem_finRange i), Exec.error_bind]

end SharedInterner

/-! ### The sequential runs -/

section Sequential

variable (shardIndex : String → Fin shardCount)

/-- A sequential run of the service is a run of `intern` calls.  The history of the
threads is such a run, and with this the results about one thread apply to many. -/
theorem internAll_eq_of_replay {calls : List String} {values values' : Fin shardCount → ShardInner}
    {handles : List InternedStr}
    (hReplay : replay (shardService shardIndex) values calls = .ok (values', handles)) :
    StringInterner.internAll shardIndex ⟨values⟩ calls = .ok (⟨values'⟩, handles) := by
  induction calls generalizing values handles with
  | nil =>
      obtain ⟨rfl, rfl⟩ := Prod.mk.inj (Except.ok.inj hReplay)
      rfl
  | cons s calls ih =>
      rw [replay] at hReplay
      split at hReplay
      · cases hReplay
      · next shard handle hWork =>
          split at hReplay
          · cases hReplay
          · next last rest hRest =>
              obtain ⟨rfl, rfl⟩ := Prod.mk.inj (Except.ok.inj hReplay)
              obtain ⟨⟨shard', offset⟩, hIntern, hDone⟩ := Exec.of_bind_eq_ok hWork
              obtain ⟨rfl, rfl⟩ := Prod.mk.inj (Except.ok.inj hDone)
              have hFirst : StringInterner.intern shardIndex ⟨values⟩ s =
                  .ok (⟨Function.update values (shardIndex s) shard'⟩,
                    encodeHandle (shardIndex s) offset) := by
                have hIntern' : (values (shardIndex s)).intern s = .ok (shard', offset) := hIntern
                rw [StringInterner.intern, hIntern', Exec.ok_bind]
              have hLater : replay (shardService shardIndex)
                  (Function.update values (shardIndex s) shard') calls = .ok (last, rest) := hRest
              rw [StringInterner.internAll, hFirst, Exec.ok_bind]
              dsimp only
              rw [ih hLater, Exec.ok_bind]

end Sequential

namespace SharedInterner

variable {τ : Type*} [DecidableEq τ] (shardIndex : String → Fin shardCount)
  (programs : τ → List String)

def after (schedule : List τ) : SharedInterner τ :=
  run (shardService shardIndex) schedule (new programs)

/-- The `intern` calls of a schedule, in the order in which they found or stored
their string. -/
def calls (schedule : List τ) : List (Event τ String InternedStr) :=
  history (shardService shardIndex) schedule (new programs)

theorem linear_after (schedule : List τ) :
    Linear (shardService shardIndex) (fun _ => ShardInner.new) programs
      (after shardIndex programs schedule) (calls shardIndex programs schedule) :=
  linear_run _ _ programs schedule

/-- At every moment of every interleaving the shards are those of a sequential run of
the calls made so far, which return the same handles there.  The sequential run keeps
the order of the calls of each thread. -/
theorem internAll_calls (schedule : List τ) :
    StringInterner.internAll shardIndex StringInterner.new
        ((calls shardIndex programs schedule).map Event.op) =
      .ok ((after shardIndex programs schedule).interner,
        (calls shardIndex programs schedule).map Event.result) ∧
    ∀ t, programs t = opsOf t (calls shardIndex programs schedule) ++
        ((after shardIndex programs schedule).workers t).pending ∧
      resultsOf t (calls shardIndex programs schedule) =
        ((after shardIndex programs schedule).workers t).obtained := by
  have hLinear := linear_after shardIndex programs schedule
  exact ⟨internAll_eq_of_replay shardIndex hLinear.replay,
    fun t => ⟨hLinear.programs t, hLinear.results t⟩⟩

/-! ### Panics -/

/-- All strings the threads were to intern. -/
def allCalls [Fintype τ] : Finset String := Finset.univ.biUnion fun t => (programs t).toFinset

omit [DecidableEq τ] in
variable {programs} in
theorem mem_allCalls [Fintype τ] {s : String} : s ∈ allCalls programs ↔ ∃ t, s ∈ programs t := by
  simp [allCalls]

/-- All threads have returned or panicked.  `compact` consumes the interner, so it is
called after that. -/
def AllEnded (shared : SharedInterner τ) : Prop := ∀ t, (shared.workers t).Ended

instance [Fintype τ] (shared : SharedInterner τ) : Decidable (AllEnded shared) :=
  inferInstanceAs (Decidable (∀ t, (shared.workers t).todo = [] ∨
    (shared.workers t).phase = .crashed))

section Finite

variable [Fintype τ]

theorem calls_subset (schedule : List τ) :
    ((calls shardIndex programs schedule).map Event.op).toFinset ⊆ allCalls programs := by
  intro s hCall
  rw [List.mem_toFinset, mem_ops_iff] at hCall
  obtain ⟨t, hCall⟩ := hCall
  refine mem_allCalls.mpr ⟨t, ?_⟩
  rw [(linear_after shardIndex programs schedule).programs t]
  exact List.mem_append_left _ hCall

/-- A poisoned shard was too small for the strings that hash to it.  The strings of all
programs are counted, also those that no thread came to after the panic. -/
theorem overfull_of_poisoned {schedule : List τ} {i : Fin shardCount}
    (hPoisoned : ((after shardIndex programs schedule).cells i).poisoned = true) :
    2 ^ 28 < shardDemand shardIndex (allCalls programs) i := by
  have hLinear := linear_after shardIndex programs schedule
  have hCasualties : Casualties (shardService shardIndex) (after shardIndex programs schedule) :=
    casualties_run _ _ programs schedule
  -- some thread panicked on the very buffer that the shard still has
  obtain ⟨t, s, rest, fault, hTodo, hPhase, rfl, hWork⟩ := hCasualties.cause i hPoisoned
  have hOwn : s ∈ allCalls programs := by
    refine mem_allCalls.mpr ⟨t, ?_⟩
    rw [hLinear.programs t]
    simp [Worker.pending, hPhase, hTodo]
  obtain ⟨tables, hHolds, hTables, -⟩ :=
    StringInterner.tablesOf_internAll (internAll_calls shardIndex programs schedule).1
  by_contra hFits
  have hDemand := shardDemand_mono shardIndex
    (Finset.insert_subset hOwn (calls_subset shardIndex programs schedule)) (shardIndex s)
  obtain ⟨shard, offset, hIntern⟩ :=
    hHolds.exists_intern hTables (hDemand.trans (Nat.not_lt.mp hFits))
  replace hIntern : ((after shardIndex programs schedule).cells (shardIndex s)).value.intern s =
    .ok (shard, offset) := hIntern
  rw [shardService_home, shardService_work hIntern] at hWork
  cases hWork

/-- When all threads have ended without a panic, they have interned all strings, so what
the shards hold does not depend on the schedule. -/
theorem calls_eq_allCalls {schedule : List τ}
    (hEnded : AllEnded (after shardIndex programs schedule))
    (hAlive : ∀ t, ((after shardIndex programs schedule).workers t).phase ≠ .crashed) :
    ((calls shardIndex programs schedule).map Event.op).toFinset = allCalls programs := by
  have hLinear := linear_after shardIndex programs schedule
  ext s
  rw [List.mem_toFinset, mem_ops_iff, mem_allCalls]
  exact exists_congr fun t => by rw [(hLinear.finished (hEnded t) (hAlive t)).1]

/-- Concurrent `intern` calls never wait for ever: a schedule takes at most three
steps for each call, and every run can be continued until all threads have ended.
Whether a thread then has panicked depends on the strings alone, not on the schedule:
some thread has if and only if the strings overfill a shard, and then `compact` panics
as well. -/
theorem panics_iff_overfull (profile : Profile) (schedule : List τ) :
    moves (shardService shardIndex) schedule (new programs) ≤ 3 * ∑ t, (programs t).length ∧
    (∃ more, AllEnded (after shardIndex programs (schedule ++ more))) ∧
    (AllEnded (after shardIndex programs schedule) →
      ((∃ t, ((after shardIndex programs schedule).workers t).phase = .crashed) ↔
        ∃ i, 2 ^ 28 < shardDemand shardIndex (allCalls programs) i) ∧
      ((∃ i, 2 ^ 28 < shardDemand shardIndex (allCalls programs) i) →
        (after shardIndex programs schedule).compact profile = .error .panic)) := by
  have hLinear := linear_after shardIndex programs schedule
  have hCasualties : Casualties (shardService shardIndex) (after shardIndex programs schedule) :=
    casualties_run _ _ programs schedule
  refine ⟨?_, ?_, fun hEnded => ?_⟩
  · have hMoves : moves (shardService shardIndex) schedule (new programs) + _ ≤ _ :=
      moves_add_remaining_le schedule (new programs)
    rw [new, State.remaining_start] at hMoves
    exact (Nat.le_add_right _ _).trans hMoves
  · obtain ⟨more, hMore⟩ := hLinear.exists_completion
    refine ⟨more, ?_⟩
    rw [after, run, List.foldl_append]
    exact hMore
  · -- if nobody had panicked, all strings would have fitted
    have hPanic : (∃ i, 2 ^ 28 < shardDemand shardIndex (allCalls programs) i) →
        ∃ t, ((after shardIndex programs schedule).workers t).phase = .crashed := by
      rintro ⟨i, hOver⟩
      by_contra hAlive
      push Not at hAlive
      rw [← calls_eq_allCalls shardIndex programs hEnded hAlive] at hOver
      have hFits := (StringInterner.internAll_returns_iff shardIndex
        ((calls shardIndex programs schedule).map Event.op)).1.mp
          ⟨_, _, (internAll_calls shardIndex programs schedule).1⟩ i
      omega
    refine ⟨⟨?_, hPanic⟩, fun hOver => ?_⟩
    · rintro ⟨t, hCrashed⟩
      obtain ⟨s, rest, -, hPoisoned⟩ := hCasualties.crashed t hCrashed
      exact ⟨_, overfull_of_poisoned shardIndex programs hPoisoned⟩
    · obtain ⟨t, hCrashed⟩ := hPanic hOver
      obtain ⟨s, rest, -, hPoisoned⟩ := hCasualties.crashed t hCrashed
      exact compact_of_poisoned profile hPoisoned

/-- When all threads have ended and no shard is overfull, the shards hold all strings,
and every handle a thread has been given is the handle of its string. -/
theorem exists_tables (schedule : List τ) (hEnded : AllEnded (after shardIndex programs schedule))
    (hShards : ∀ i, shardDemand shardIndex (allCalls programs) i ≤ 2 ^ 28) :
    ∃ tables,
      InternerHolds shardIndex (after shardIndex programs schedule).interner tables ∧
      (after shardIndex programs schedule).interner.totalBytes =
        ∑ s ∈ allCalls programs, recordLen s ∧
      (∀ i, ((after shardIndex programs schedule).cells i).poisoned = false) ∧
      (∀ t, ((after shardIndex programs schedule).workers t).results.length =
        (programs t).length) ∧
      ∀ t s h, (s, h) ∈
          (programs t).zip ((after shardIndex programs schedule).workers t).results →
        HandleOf shardIndex tables s h := by
  have hLinear := linear_after shardIndex programs schedule
  have hCasualties : Casualties (shardService shardIndex) (after shardIndex programs schedule) :=
    casualties_run _ _ programs schedule
  have hSound : ∀ i, ((after shardIndex programs schedule).cells i).poisoned = false := by
    intro i
    by_contra hPoisoned
    rw [Bool.not_eq_false] at hPoisoned
    exact (overfull_of_poisoned shardIndex programs hPoisoned).not_ge (hShards i)
  -- a thread panics only on a poisoned shard or poisons one
  have hAlive : ∀ t, ((after shardIndex programs schedule).workers t).phase ≠ .crashed := by
    intro t hCrashed
    obtain ⟨s, rest, -, hPoisoned⟩ := hCasualties.crashed t hCrashed
    rw [hSound] at hPoisoned
    cases hPoisoned
  have hRun := (internAll_calls shardIndex programs schedule).1
  have hBytes := ((StringInterner.internAll_returns_iff shardIndex _).2 _ _ hRun).2
  rw [calls_eq_allCalls shardIndex programs hEnded hAlive] at hBytes
  obtain ⟨tables, hHolds, -, hHandles⟩ := StringInterner.tablesOf_internAll hRun
  refine ⟨tables, hHolds, hBytes, hSound, fun t => ?_, fun t s h hMem => ?_⟩
  · obtain ⟨hOps, hResults⟩ := hLinear.finished (hEnded t) (hAlive t)
    rw [← hOps, ← hResults]
    simp [opsOf, resultsOf]
  · -- a handle of a thread is a handle of the sequential run
    obtain ⟨hOps, hResults⟩ := hLinear.finished (hEnded t) (hAlive t)
    rw [← hOps, ← hResults] at hMem
    exact (List.forall₂_iff_zip.mp hHandles).2 (mem_of_mem_zip_ofThread hMem)

/-- When all threads have ended and no shard is overfull, `compact` gives a buffer
whose length does not depend on the schedule.  Every handle a thread has been given
resolves to its string, and two handles, of one thread or of two, are equal exactly
when their strings are. -/
theorem resolve_after_threads (profile : Profile) (schedule : List τ)
    (hEnded : AllEnded (after shardIndex programs schedule))
    (hShards : ∀ i, shardDemand shardIndex (allCalls programs) i ≤ 2 ^ 28)
    (hTotal : ∑ s ∈ allCalls programs, recordLen s < 2 ^ 32) :
    ∃ frozen remap,
      (after shardIndex programs schedule).compact profile = .ok (frozen, remap) ∧
      frozen.bufLen = ∑ s ∈ allCalls programs, recordLen s ∧
      (∀ t, ((after shardIndex programs schedule).workers t).results.length =
        (programs t).length) ∧
      (∀ t s h, (s, h) ∈
          (programs t).zip ((after shardIndex programs schedule).workers t).results →
        ∃ stable, remap h = .ok stable ∧ frozen.resolve stable = .ok s) ∧
      ∀ t₁ s₁ h₁ t₂ s₂ h₂,
        (s₁, h₁) ∈ (programs t₁).zip ((after shardIndex programs schedule).workers t₁).results →
        (s₂, h₂) ∈ (programs t₂).zip ((after shardIndex programs schedule).workers t₂).results →
        (h₁ = h₂ ↔ s₁ = s₂) ∧ (remap h₁ = remap h₂ ↔ s₁ = s₂) := by
  obtain ⟨tables, hHolds, hBytes, hSound, hLengths, hHandleOf⟩ :=
    exists_tables shardIndex programs schedule hEnded hShards
  obtain ⟨frozen, remap, hCompact, hFrozen, hRemap⟩ := hHolds.compact profile (hBytes ▸ hTotal)
  refine ⟨frozen, remap, by rw [compact_of_sound profile hSound, hCompact], ?_, hLengths, ?_, ?_⟩
  · rw [FrozenInterner.bufLen, hFrozen.buf, ← hHolds.shardBufs_flatten,
      ← StringInterner.totalBytes_eq, hBytes]
  · intro t s h hMem
    obtain ⟨stable, hStable, hRecord⟩ := hRemap s h (hHandleOf t s h hMem)
    exact ⟨stable, hStable, hFrozen.resolve hRecord⟩
  · -- all threads share one table, so it does not matter whose handles are compared
    intro t₁ s₁ h₁ t₂ s₂ h₂ hMem₁ hMem₂
    refine ⟨hHolds.handle_eq_iff (hHandleOf _ _ _ hMem₁) (hHandleOf _ _ _ hMem₂), ?_⟩
    obtain ⟨stable₁, hStable₁, hRecord₁⟩ := hRemap s₁ h₁ (hHandleOf _ _ _ hMem₁)
    obtain ⟨stable₂, hStable₂, hRecord₂⟩ := hRemap s₂ h₂ (hHandleOf _ _ _ hMem₂)
    rw [hStable₁, hStable₂, Except.ok.injEq]
    exact hFrozen.handle_eq_iff hRecord₁ hRecord₂

end Finite

/-- Two threads that intern the same string at the same time. -/
theorem resolve_after_threads_two :
    ∃ frozen remap, (after (fun s => if s = "b" then 3 else 15)
        (fun t : Bool => if t then ["b", "ab"] else ["ab"])
        [true, false, true, true, false, true, false, true, true, true]).compact .dev =
          .ok (frozen, remap) ∧ frozen.bufLen = 11 := by
  obtain ⟨frozen, remap, hCompact, hLength, -⟩ := resolve_after_threads
    (fun s => if s = "b" then 3 else 15) (fun t : Bool => if t then ["b", "ab"] else ["ab"]) .dev
    [true, false, true, true, false, true, false, true, true, true]
    (by decide) (by decide) (by decide)
  exact ⟨frozen, remap, hCompact, hLength.trans (by decide)⟩

end SharedInterner

end Core
end CodebaseMem
