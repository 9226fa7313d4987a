import Mathlib.Tactic

/-!
# Ledgers

Numbered records, each either held or given up: `next` of them have been made, and every
number below `next` occurs exactly once among those held and those given up.
-/
namespace Ledger

/-- Every record made is held or given up, and that once. -/
def Balanced (held gone : List Nat) (next : Nat) : Prop :=
  (held ++ gone).Perm (List.range next)

section
variable {held held' gone gone' : List Nat} {next k : Nat}

theorem Balanced.nil : Balanced [] [] 0 := List.Perm.refl []

/-- Records may change hands. -/
theorem Balanced.perm (h : Balanced held gone next)
    (hperm : (held' ++ gone').Perm (held ++ gone)) : Balanced held' gone' next :=
  hperm.trans h

/-- The next record is made. -/
theorem Balanced.make (h : Balanced held gone next)
    (hperm : (held' ++ gone').Perm ((held ++ gone) ++ [next])) :
    Balanced held' gone' (next + 1) := by
  unfold Balanced
  rw [List.range_succ]
  exact hperm.trans (h.append_right [next])

theorem Balanced.lt (h : Balanced held gone next) (hk : k ∈ held ++ gone) : k < next :=
  List.mem_range.mp (h.mem_iff.mp hk)

/-- Nothing is lost. -/
theorem Balanced.complete (h : Balanced held gone next) (hk : k < next) : k ∈ held ∨ k ∈ gone :=
  List.mem_append.mp (h.mem_iff.mpr (List.mem_range.mpr hk))

theorem Balanced.nodup (h : Balanced held gone next) : (held ++ gone).Nodup :=
  h.nodup_iff.mpr List.nodup_range

/-- Nothing is given up twice. -/
theorem Balanced.once (h : Balanced held gone next) : gone.Nodup := h.nodup.of_append_right

/-- What is held has not been given up. -/
theorem Balanced.apart (h : Balanced held gone next) (hk : k ∈ held) : k ∉ gone :=
  List.disjoint_of_nodup_append h.nodup hk

end

end Ledger
