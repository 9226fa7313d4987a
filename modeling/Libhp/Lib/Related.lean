import Mathlib.Tactic

/-!
# Related results

Two computations over two states that differ in what does not matter: both fail, or both
succeed with the same values and related states.
-/
namespace Related

section
variable {α β γ δ : Type} {r : α → β → Prop} {q : γ → δ → Prop}

theorem bind {a : Option α} {b : Option β} {f : α → Option γ} {g : β → Option δ}
    (h : Option.Rel r a b) (hfg : ∀ x y, r x y → Option.Rel q (f x) (g y)) :
    Option.Rel q (a.bind f) (b.bind g) := by
  cases h with
  | none => exact .none
  | some hxy => exact hfg _ _ hxy

theorem map {a : Option α} {b : Option β} {f : α → γ} {g : β → δ} (h : Option.Rel r a b)
    (hfg : ∀ x y, r x y → q (f x) (g y)) : Option.Rel q (a.map f) (b.map g) := by
  cases h with
  | none => exact .none
  | some hxy => exact .some (hfg _ _ hxy)

/-- What does not tell related results apart is the same after both. -/
theorem map_eq {a : Option α} {b : Option β} {f : α → γ} {g : β → γ} (h : Option.Rel r a b)
    (hfg : ∀ x y, r x y → f x = g y) : a.map f = b.map g := by
  cases h with
  | none => rfl
  | some hxy => exact congrArg some (hfg _ _ hxy)

end

section
variable {α β σ τ : Type} {Q : σ → τ → Prop}

/-- The same values, and related states. -/
def Alike (Q : σ → τ → Prop) (a : α × σ) (b : α × τ) : Prop := a.1 = b.1 ∧ Q a.2 b.2

/-- The same two values, and related states. -/
def Alike₂ (Q : σ → τ → Prop) : α × β × σ → α × β × τ → Prop := Alike (Alike Q)

end
end Related
