import Mathlib.Data.List.TakeWhile
import Mathlib.Tactic

/-!
# Slots of a list

Reading, replacing and removing the element at an index, up to the order of the others.
-/
namespace Slots

section
variable {α β : Type} {xs : List α} {i : Nat} {x y : α}

theorem perm_eraseIdx (h : xs[i]? = some x) : xs.Perm (x :: xs.eraseIdx i) := by
  obtain ⟨hi, rfl⟩ := List.getElem?_eq_some_iff.mp h
  exact (List.getElem_cons_eraseIdx_perm hi).symm

theorem perm_set (h : xs[i]? = some x) : (xs.set i y).Perm (y :: xs.eraseIdx i) := by
  have hi := (List.getElem?_eq_some_iff.mp h).1
  have hget : (xs.set i y)[i]? = some y := List.getElem?_set_self hi
  have hperm := perm_eraseIdx hget
  rwa [List.eraseIdx_set_eq] at hperm

/-- The other elements do not change. -/
theorem map_set_same {f : α → β} (h : xs[i]? = some x) (heq : f y = f x) :
    (xs.set i y).map f = xs.map f := by
  obtain ⟨hi, rfl⟩ := List.getElem?_eq_some_iff.mp h
  rw [List.map_set, heq, ← List.getElem_map f (h := by simpa using hi), List.set_getElem_self]

theorem countP_eraseIdx (p : α → Bool) (h : xs[i]? = some x) :
    xs.countP p = (xs.eraseIdx i).countP p + if p x then 1 else 0 := by
  rw [(perm_eraseIdx h).countP_eq p, List.countP_cons]

theorem countP_set (p : α → Bool) (h : xs[i]? = some x) :
    (xs.set i y).countP p + (if p x then 1 else 0) = xs.countP p + if p y then 1 else 0 := by
  rw [(perm_set h).countP_eq p, (perm_eraseIdx h).countP_eq p, List.countP_cons, List.countP_cons]
  exact Nat.add_right_comm _ _ _

theorem perm_eraseP {p : α → Bool} (h : xs.find? p = some x) : xs.Perm (x :: xs.eraseP p) := by
  induction xs with
  | nil => cases h
  | cons z zs ih =>
    by_cases hz : p z
    · rw [List.find?_cons_of_pos hz] at h
      cases h
      rw [List.eraseP_cons_of_pos hz]
    · rw [List.find?_cons_of_neg hz] at h
      rw [List.eraseP_cons_of_neg hz]
      exact ((ih h).cons z).trans (List.Perm.swap x z _)

theorem mem_set (h : y ∈ xs.set i x) : y ∈ xs ∨ y = x := List.mem_or_eq_of_mem_set h

end

section
variable {α : Type} {p : α → Prop} {front front' back back' : List α} {a a' : α}

/-- The first element of a kind: none before it is one. -/
structure First (p : α → Prop) (xs front : List α) (a : α) (back : List α) : Prop where
  split : xs = front ++ a :: back
  here : p a
  before : ∀ x ∈ front, ¬ p x

theorem First.mem {xs : List α} (h : First p xs front a back) : a ∈ xs := by
  rw [h.split]
  exact List.mem_append.mpr (.inr List.mem_cons_self)

theorem First.unique {xs : List α} (h : First p xs front a back) (h' : First p xs front' a' back') :
    front = front' ∧ a = a' ∧ back = back' := by
  obtain ⟨rfl, ha, hbefore⟩ := h
  obtain ⟨hsplit, ha', hbefore'⟩ := h'
  induction front generalizing front' with
  | nil =>
    cases front' with
    | nil => exact ⟨rfl, List.cons.inj hsplit⟩
    | cons x front' =>
      have hx : a = x := (List.cons.inj hsplit).1
      exact absurd ha (hx ▸ hbefore' x List.mem_cons_self)
  | cons x front ih =>
    cases front' with
    | nil =>
      have hx : x = a' := (List.cons.inj hsplit).1
      exact absurd ha' (hx ▸ hbefore x List.mem_cons_self)
    | cons x' front' =>
      obtain ⟨rfl, htail⟩ := List.cons.inj hsplit
      obtain ⟨rfl, hrest⟩ := ih (fun y hy => hbefore y (List.mem_cons_of_mem _ hy)) htail
        fun y hy => hbefore' y (List.mem_cons_of_mem _ hy)
      exact ⟨rfl, hrest⟩

/-- There is a first one if there is any. -/
theorem First.exists {xs : List α} (h : ∃ x ∈ xs, p x) : ∃ front a back, First p xs front a back := by
  classical
  induction xs with
  | nil => simp at h
  | cons x xs ih =>
    by_cases hx : p x
    · exact ⟨[], x, xs, rfl, hx, by simp⟩
    · obtain ⟨y, hy, hpy⟩ := h
      have hy' : y ∈ xs := (List.mem_cons.mp hy).resolve_left fun heq => hx (heq ▸ hpy)
      obtain ⟨front, a, back, rfl, ha, hbefore⟩ := ih ⟨y, hy', hpy⟩
      exact ⟨x :: front, a, back, rfl, ha, List.forall_mem_cons.mpr ⟨hx, hbefore⟩⟩

/-- How a search with a test finds it. -/
theorem First.of_dropWhile {xs : List α} {q : α → Bool} (hq : ∀ x, q x = false ↔ p x)
    (h : xs.dropWhile q = a :: back) : First p xs (xs.takeWhile q) a back := by
  refine ⟨?_, (hq a).mp ?_, fun x hx hp => ?_⟩
  · rw [← h, List.takeWhile_append_dropWhile]
  · have hstop := List.head?_dropWhile_not q xs
    rw [h] at hstop
    simpa using hstop
  · have hpass := List.mem_takeWhile_imp hx
    rw [(hq x).mpr hp] at hpass
    cases hpass

theorem none_of_dropWhile {xs : List α} {q : α → Bool} (hq : ∀ x, q x = false ↔ p x)
    (h : xs.dropWhile q = []) : ∀ x ∈ xs, ¬ p x := by
  intro x hx hp
  have hpass := List.dropWhile_eq_nil_iff.mp h x hx
  rw [(hq x).mpr hp] at hpass
  cases hpass

end

end Slots
