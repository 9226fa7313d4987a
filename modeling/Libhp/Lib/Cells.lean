import Mathlib.Data.List.TakeDrop
import Mathlib.Logic.Function.Basic

/-!
# Cells of a memory

Values stored at a list of addresses, one after the other, and what the memory holds then.
-/
namespace Cells
variable {α β : Type*} [DecidableEq α]

/-- Store the values at the addresses, as far as both go. -/
def store (mem : α → β) : List α → List β → α → β
  | a :: as, b :: bs => store (Function.update mem a b) as bs
  | _, _ => mem

@[simp] theorem store_nil (mem : α → β) (as : List α) : store mem as [] = mem := by
  cases as <;> rfl

theorem store_append (mem : α → β) (as : List α) (bs bs' : List β) :
    store mem as (bs ++ bs') = store (store mem as bs) (as.drop bs.length) bs' := by
  induction as generalizing mem bs with
  | nil =>
    rw [List.drop_nil]
    rfl
  | cons a as ih =>
    cases bs with
    | nil => rfl
    | cons b bs => exact ih (Function.update mem a b) bs

/-- The other cells do not change. -/
theorem store_of_notMem (mem : α → β) {as : List α} (bs : List β) {a : α} (h : a ∉ as) :
    store mem as bs a = mem a := by
  induction as generalizing mem bs with
  | nil => rfl
  | cons a' as ih =>
    have hne : a ≠ a' := fun heq => h (heq ▸ List.mem_cons_self)
    have hrest : a ∉ as := fun hmem => h (List.mem_cons_of_mem a' hmem)
    cases bs with
    | nil => rfl
    | cons b bs => exact (ih _ bs hrest).trans (Function.update_of_ne hne b mem)

/-- Where the addresses differ, what is stored is read back. -/
theorem map_store (mem : α → β) {as : List α} {bs : List β} (hne : as.Nodup)
    (hlen : bs.length ≤ as.length) :
    as.map (store mem as bs) = bs ++ (as.drop bs.length).map mem := by
  induction as generalizing mem bs with
  | nil =>
    obtain rfl := List.length_eq_zero_iff.mp (Nat.le_zero.mp hlen)
    rfl
  | cons a as ih =>
    cases bs with
    | nil => simp
    | cons b bs =>
      obtain ⟨hnot, hne⟩ := List.nodup_cons.mp hne
      have hhead : store (Function.update mem a b) as bs a = b :=
        (store_of_notMem _ bs hnot).trans (Function.update_self a b mem)
      have hold : (as.drop bs.length).map (Function.update mem a b) =
          (as.drop bs.length).map mem := by
        apply List.map_congr_left
        intro x hx
        have hxa : x ≠ a := fun heq => hnot (heq ▸ List.mem_of_mem_drop hx)
        exact Function.update_of_ne hxa b mem
      show store (Function.update mem a b) as bs a ::
        as.map (store (Function.update mem a b) as bs) = _
      rw [hhead, ih _ hne (Nat.le_of_succ_le_succ hlen), hold]
      rfl

end Cells
