import Mathlib.Tactic

/-!
# Replacing the occurrences of a pattern

The occurrences of a pattern in a list are taken from left to right, each behind the one before
it.
-/
namespace Replace
variable {α : Type*} [DecidableEq α]

/-- What stands before and behind the first occurrence of the pattern. -/
def cutAt (pat : List α) : List α → Option (List α × List α)
  | [] => none
  | x :: xs =>
    if pat <+: x :: xs then some ([], (x :: xs).drop pat.length)
    else (cutAt pat xs).map fun (before, behind) => (x :: before, behind)

theorem cutAt_some {pat s before behind : List α} (h : cutAt pat s = some (before, behind)) :
    s = before ++ (pat ++ behind) := by
  induction s generalizing before with
  | nil => cases h
  | cons x xs ih =>
    unfold cutAt at h
    split at h
    · next hpre =>
      cases h
      rw [List.nil_append, ← List.prefix_iff_eq_append.mp hpre, List.drop_left]
    · obtain ⟨⟨b, r⟩, hcut, heq⟩ := Option.map_eq_some_iff.mp h
      cases heq
      rw [ih hcut, List.cons_append]

theorem cutAt_length {pat s before behind : List α} (hpat : pat ≠ [])
    (h : cutAt pat s = some (before, behind)) : behind.length < s.length := by
  have hpos := List.length_pos_of_ne_nil hpat
  rw [cutAt_some h, List.length_append, List.length_append]
  omega

/-- The number of occurrences. -/
def count (pat : List α) (hpat : pat ≠ []) (s : List α) : Nat :=
  match _h : cutAt pat s with
  | none => 0
  | some (_, behind) => count pat hpat behind + 1
termination_by s.length
decreasing_by exact cutAt_length hpat _h

/-- Each occurrence replaced. -/
def replaceAll (pat : List α) (hpat : pat ≠ []) (new s : List α) : List α :=
  match _h : cutAt pat s with
  | none => s
  | some (before, behind) => before ++ (new ++ replaceAll pat hpat new behind)
termination_by s.length
decreasing_by exact cutAt_length hpat _h

variable {pat : List α} (hpat : pat ≠ [])

theorem count_none {s : List α} (h : cutAt pat s = none) : count pat hpat s = 0 := by
  rw [count]
  split
  · rfl
  · next heq => rw [h] at heq; cases heq

theorem count_some {s before behind : List α} (h : cutAt pat s = some (before, behind)) :
    count pat hpat s = count pat hpat behind + 1 := by
  rw [count]
  split
  · next heq => rw [h] at heq; cases heq
  · next heq => rw [h] at heq; cases heq; rfl

theorem replaceAll_none {s : List α} (new : List α) (h : cutAt pat s = none) :
    replaceAll pat hpat new s = s := by
  rw [replaceAll]
  split
  · rfl
  · next heq => rw [h] at heq; cases heq

theorem replaceAll_some {s before behind : List α} (new : List α)
    (h : cutAt pat s = some (before, behind)) :
    replaceAll pat hpat new s = before ++ (new ++ replaceAll pat hpat new behind) := by
  rw [replaceAll]
  split
  · next heq => rw [h] at heq; cases heq
  · next heq => rw [h] at heq; cases heq; rfl

/-- The length is known before anything is replaced. -/
theorem length_replaceAll (new s : List α) :
    (replaceAll pat hpat new s).length + pat.length * count pat hpat s =
      s.length + new.length * count pat hpat s := by
  induction hn : s.length using Nat.strong_induction_on generalizing s with
  | _ n ih =>
    cases hcut : cutAt pat s with
    | none =>
      rw [replaceAll_none hpat new hcut, count_none hpat hcut, hn, Nat.mul_zero, Nat.mul_zero]
    | some r =>
      obtain ⟨before, behind⟩ := r
      have hrest := ih _ (hn ▸ cutAt_length hpat hcut) behind rfl
      have hlen : s.length = before.length + (pat.length + behind.length) := by
        conv_lhs => rw [cutAt_some hcut]
        rw [List.length_append, List.length_append]
      rw [replaceAll_some hpat new hcut, count_some hpat hcut, List.length_append,
        List.length_append, Nat.mul_succ, Nat.mul_succ]
      omega

end Replace
