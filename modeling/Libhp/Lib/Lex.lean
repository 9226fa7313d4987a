import Mathlib.Order.PiLex
import Mathlib.Tactic

/-!
# Comparisons as numbers

The C convention for the result of a comparison, and such a comparison of sequences by the first
place where they differ.
-/
namespace Lex
variable {α : Type*} [LinearOrder α]

/-- How `x` compares with `y`: 1, -1 or 0. -/
def sign (x y : α) : Int := if y < x then 1 else if x < y then -1 else 0

theorem sign_of_lt {x y : α} (h : x < y) : sign x y = -1 := by
  rw [sign, if_neg (lt_asymm h), if_pos h]

theorem sign_of_gt {x y : α} (h : y < x) : sign x y = 1 := if_pos h

@[simp] theorem sign_self (x : α) : sign x x = 0 := by
  rw [sign, if_neg (lt_irrefl x), if_neg (lt_irrefl x)]

theorem sign_swap (x y : α) : sign x y = -sign y x := by
  rcases lt_trichotomy x y with h | rfl | h
  · rw [sign_of_lt h, sign_of_gt h]
  · rw [sign_self, neg_zero]
  · rw [sign_of_gt h, sign_of_lt h, neg_neg]

theorem sign_nonpos_iff (x y : α) : sign x y ≤ 0 ↔ x ≤ y := by
  rcases lt_trichotomy x y with h | rfl | h
  · rw [sign_of_lt h]
    exact iff_of_true (by decide) h.le
  · rw [sign_self]
    exact iff_of_true le_rfl le_rfl
  · rw [sign_of_gt h]
    exact iff_of_false (by decide) h.not_ge

/-- The first place where two sequences differ decides. -/
theorem sign_toLex {u v : ℕ → α} {i : ℕ} (heq : ∀ j < i, u j = v j) (hne : u i ≠ v i) :
    sign (toLex u) (toLex v) = sign (u i) (v i) := by
  rcases lt_or_gt_of_ne hne with h | h
  · have hlex : toLex u < toLex v := ⟨i, heq, h⟩
    rw [sign_of_lt hlex, sign_of_lt h]
  · have hlex : toLex v < toLex u := ⟨i, fun j hj => (heq j hj).symm, h⟩
    rw [sign_of_gt hlex, sign_of_gt h]

end Lex
