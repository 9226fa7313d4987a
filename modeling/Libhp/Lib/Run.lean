import Mathlib.Logic.Relation
import Mathlib.Tactic

/-!
# Runs

Runs of a partial step function, with a condition on each step taken. `none` means
that the step is not defined. The second half does the same for a system whose steps
are labelled with actions, any defined action being possible next.
-/
namespace Run

section
variable {S : Type} {step : S → Option S} {ok : S → S → Prop}

/-- `s'` is reached from `s` by steps that all satisfy `ok`. -/
def Via (step : S → Option S) (ok : S → S → Prop) : S → S → Prop :=
  Relation.ReflTransGen fun s s' => step s = some s' ∧ ok s s'

/-- What every step keeps holds along every run. -/
theorem Via.invariant {I : S → Prop} {s s' : S} (h : Via step ok s s') (hs : I s)
    (hstep : ∀ s s', I s → step s = some s' → ok s s' → I s') : I s' := by
  induction h with
  | refl => exact hs
  | tail _ hlast ih => exact hstep _ _ ih hlast.1 hlast.2

/-- `n` steps, each of which passes the test. -/
def iter (step : S → Option S) (test : S → S → Bool) : Nat → S → Option S
  | 0, s => some s
  | n + 1, s => (step s).bind fun s' => if test s s' then iter step test n s' else none

/-- A run that can be computed. -/
theorem via_iter {test : S → S → Bool} (htest : ∀ s s', test s s' = true → ok s s') :
    ∀ {n : Nat} {s s' : S}, iter step test n s = some s' → Via step ok s s' := by
  intro n
  induction n with
  | zero =>
    intro s s' h
    cases h
    exact Relation.ReflTransGen.refl
  | succ n ih =>
    intro s s' h
    obtain ⟨t, hstep, hrest⟩ := Option.bind_eq_some_iff.mp h
    split at hrest
    · next hpass => exact Relation.ReflTransGen.head ⟨hstep, htest s t hpass⟩ (ih hrest)
    · cases hrest

/-- A run whose end passes a check. -/
theorem via_any (test : S → S → Bool) (n : Nat) (htest : ∀ s s', test s s' = true → ok s s')
    {s : S} (P : S → Prop) [DecidablePred P]
    (h : (iter step test n s).any (fun s' => decide (P s')) = true) :
    ∃ s', Via step ok s s' ∧ P s' := by
  obtain ⟨s', hiter, hp⟩ := (Option.any_eq_true _ _).mp h
  exact ⟨s', via_iter htest hiter, of_decide_eq_true hp⟩

end

section
variable {S A : Type} {step : S → A → Option S} {ok : S → A → Prop}

/-- `s'` is reached from `s` by actions that all satisfy `ok` where they are taken. -/
def Along (step : S → A → Option S) (ok : S → A → Prop) : S → S → Prop :=
  Relation.ReflTransGen fun s s' => ∃ a, step s a = some s' ∧ ok s a

/-- What every action keeps holds along every run. -/
theorem Along.invariant {I : S → Prop} {s s' : S} (h : Along step ok s s') (hs : I s)
    (hstep : ∀ s a s', I s → step s a = some s' → ok s a → I s') : I s' := by
  induction h with
  | refl => exact hs
  | tail _ hlast ih =>
    obtain ⟨a, hstep', hok⟩ := hlast
    exact hstep _ a _ ih hstep' hok

/-- The actions one after the other, each of which passes the test. -/
def follow (step : S → A → Option S) (test : S → A → Bool) : List A → S → Option S
  | [], s => some s
  | a :: as, s => if test s a then (step s a).bind (follow step test as) else none

theorem along_follow {test : S → A → Bool} (htest : ∀ s a, test s a = true → ok s a) :
    ∀ {as : List A} {s s' : S}, follow step test as s = some s' → Along step ok s s' := by
  intro as
  induction as with
  | nil =>
    intro s s' h
    cases h
    exact Relation.ReflTransGen.refl
  | cons a as ih =>
    intro s s' h
    unfold follow at h
    split at h
    · next hpass =>
      obtain ⟨t, hstep, hrest⟩ := Option.bind_eq_some_iff.mp h
      exact Relation.ReflTransGen.head ⟨a, hstep, htest s a hpass⟩ (ih hrest)
    · cases h

/-- A run through given actions whose end passes a check. -/
theorem along_any (test : S → A → Bool) (as : List A) (htest : ∀ s a, test s a = true → ok s a)
    {s : S} (P : S → Prop) [DecidablePred P]
    (h : (follow step test as s).any (fun s' => decide (P s')) = true) :
    ∃ s', Along step ok s s' ∧ P s' := by
  obtain ⟨s', hfollow, hp⟩ := (Option.any_eq_true _ _).mp h
  exact ⟨s', along_follow htest hfollow, of_decide_eq_true hp⟩

end

end Run
