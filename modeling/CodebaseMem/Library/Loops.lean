import Mathlib.Data.List.Basic

/-!
# Loops over lists

Rules for a loop over a list, most of them stated in terms of the part of the
list that the loop has seen and the part that is still to come.

* `foldl_invariant`: for a loop that cannot fail.
* `foldlM_closedForm`: for a loop whose state after each part is known, which then does not
  fail.
* `foldlM_invariant`, `exists_foldlM_eq_ok`: what holds after a loop that succeeds, and
  that it succeeds.
* `foldlM_error`: a loop fails only as one of its rounds does.
-/

namespace CodebaseMem
namespace Library

variable {α σ ε : Type*}

/-- What holds before the loop and is kept by every round holds after it.  The invariant
sees the elements that are done and those that are left. -/
theorem foldl_invariant (step : σ → α → σ) (Inv : List α → List α → σ → Prop) (l : List α)
    (init : σ) (hInit : Inv [] l init)
    (hStep : ∀ done a rest s, l = done ++ a :: rest → Inv done (a :: rest) s →
      Inv (done ++ [a]) rest (step s a)) :
    Inv l [] (l.foldl step init) := by
  suffices h : ∀ done rest s, l = done ++ rest → Inv done rest s →
      Inv l [] (rest.foldl step s) from h [] l init rfl hInit
  intro done rest
  induction rest generalizing done with
  | nil =>
      intro s hl hs
      rw [List.append_nil] at hl
      rwa [hl]
  | cons a rest ih =>
      intro s hl hs
      exact ih (done ++ [a]) _ (by simpa using hl) (hStep done a rest s hl hs)

/-- A loop that may fail and whose state has a closed form does not fail.  The closed
form is a function of the elements that were handled and of those that are left. -/
theorem foldlM_closedForm (step : σ → α → Except ε σ) (closed : List α → List α → σ)
    (l : List α)
    (hStep : ∀ done a rest, l = done ++ a :: rest →
      step (closed done (a :: rest)) a = .ok (closed (done ++ [a]) rest)) :
    l.foldlM step (closed [] l) = .ok (closed l []) := by
  suffices h : ∀ done rest, l = done ++ rest →
      rest.foldlM step (closed done rest) = .ok (closed l []) from h [] l rfl
  intro done rest
  induction rest generalizing done with
  | nil =>
      intro hl
      rw [List.append_nil] at hl
      rw [hl]
      rfl
  | cons a rest ih =>
      intro hl
      rw [List.foldlM_cons, hStep done a rest hl]
      exact ih (done ++ [a]) (by simpa using hl)

/-- What holds before a loop and is kept by every round that succeeds holds after
the loop, if the loop succeeds. -/
theorem foldlM_invariant (step : σ → α → Except ε σ) (Inv : List α → σ → Prop) {l : List α}
    {init last : σ} (hInit : Inv [] init)
    (hStep : ∀ done a s s', Inv done s → step s a = .ok s' → Inv (done ++ [a]) s')
    (hRun : l.foldlM step init = .ok last) : Inv l last := by
  suffices h : ∀ done rest s, l = done ++ rest → Inv done s →
      rest.foldlM step s = .ok last → Inv l last from h [] l init rfl hInit hRun
  intro done rest
  induction rest generalizing done with
  | nil =>
      intro s hl hs hRest
      rw [List.append_nil] at hl
      obtain rfl : s = last := Except.ok.inj hRest
      rwa [hl]
  | cons a rest ih =>
      intro s hl hs hRest
      rw [List.foldlM_cons] at hRest
      cases hFirst : step s a with
      | error e =>
          rw [hFirst] at hRest
          cases hRest
      | ok s' =>
          rw [hFirst] at hRest
          exact ih (done ++ [a]) s' (by simpa using hl) (hStep done a s s' hs hFirst) hRest

/-- A loop succeeds when no round fails from a state of the invariant. -/
theorem exists_foldlM_eq_ok (step : σ → α → Except ε σ) (Inv : σ → Prop) {l : List α} {init : σ}
    (hInit : Inv init)
    (hStep : ∀ a ∈ l, ∀ s, Inv s → ∃ s', step s a = .ok s' ∧ Inv s') :
    ∃ last, l.foldlM step init = .ok last ∧ Inv last := by
  induction l generalizing init with
  | nil => exact ⟨init, rfl, hInit⟩
  | cons a l ih =>
      obtain ⟨s', hFirst, hs'⟩ := hStep a List.mem_cons_self init hInit
      rw [List.foldlM_cons, hFirst]
      exact ih hs' fun b hb => hStep b (List.mem_cons_of_mem _ hb)

/-- A loop fails only in a way in which one of its rounds fails. -/
theorem foldlM_error (step : σ → α → Except ε σ) {e : ε} {l : List α} {init : σ}
    (hRun : l.foldlM step init = .error e) : ∃ s a, step s a = .error e := by
  induction l generalizing init with
  | nil => cases hRun
  | cons a l ih =>
      rw [List.foldlM_cons] at hRun
      cases hFirst : step init a with
      | error e' =>
          rw [hFirst] at hRun
          obtain rfl : e' = e := Except.error.inj hRun
          exact ⟨init, a, hFirst⟩
      | ok s' =>
          rw [hFirst] at hRun
          exact ih hRun

end Library
end CodebaseMem
