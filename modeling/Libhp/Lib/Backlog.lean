import Mathlib.Tactic

/-!
# Backlog of a unit-rate server

A server that takes one unit of waiting work a round, after which the round's
arrivals join. Whether the work left over at the end is below a bound is decided by
the arrivals of each last stretch of rounds.
-/
namespace Backlog

/-- Work waiting after the rounds with the given arrivals, with `p` waiting at first. -/
def backlog : Nat → List Nat → Nat
  | p, [] => p
  | p, a :: as => backlog (p - 1 + a) as

theorem backlog_le_iff (b : Nat) :
    ∀ (as : List Nat) (p : Nat), backlog p as ≤ b + 1 ↔
      p + as.sum ≤ b + 1 + as.length ∧ ∀ ys, ys <:+ as → ys.sum ≤ b + ys.length := by
  intro as
  induction as with
  | nil =>
    intro p
    simp [backlog]
  | cons a as ih =>
    intro p
    rw [backlog, ih]
    constructor
    · intro ⟨hall, htail⟩
      refine ⟨?_, fun ys hys => ?_⟩
      · rw [List.sum_cons, List.length_cons]
        omega
      · rcases List.suffix_cons_iff.mp hys with rfl | hys
        · rw [List.sum_cons, List.length_cons]
          omega
        · exact htail ys hys
    · intro ⟨hall, htail⟩
      have hown := htail (a :: as) (List.suffix_refl _)
      rw [List.sum_cons, List.length_cons] at hall hown
      exact ⟨by omega, fun ys hys => htail ys (hys.trans (List.suffix_cons a as))⟩

/-- From an empty start only the last stretches matter, the whole being one of them. -/
theorem backlog_zero_le_iff (b : Nat) (as : List Nat) :
    backlog 0 as ≤ b + 1 ↔ ∀ ys, ys <:+ as → ys.sum ≤ b + ys.length := by
  rw [backlog_le_iff]
  constructor
  · exact And.right
  · intro h
    have hall := h as (List.suffix_refl as)
    exact ⟨by omega, h⟩

end Backlog
