import Mathlib.Tactic

/-!
# Moving slots inside an array

C's `memmove` on an array given as the list of its slots, and what a single slot
holds afterwards.
-/
namespace Memmove
variable {α : Type*}

/-- Copy `n` slots from index `src` to index `dst`. -/
def memmove (xs : List α) (dst src n : Nat) : List α :=
  xs.take dst ++ (xs.drop src).take n ++ xs.drop (dst + n)

/-- The slots `ys` from index `dst` on. -/
def overwrite (xs : List α) (dst : Nat) (ys : List α) : List α :=
  xs.take dst ++ ys ++ xs.drop (dst + ys.length)

theorem length_memmove {xs : List α} {dst src n : Nat} (hs : src + n ≤ xs.length)
    (hd : dst + n ≤ xs.length) : (memmove xs dst src n).length = xs.length := by
  simp only [memmove, List.length_append, List.length_take, List.length_drop]
  omega

/-- Inside the target a slot holds what its source held, elsewhere it is unchanged. -/
theorem getElem?_memmove {xs : List α} {dst src n : Nat} (hs : src + n ≤ xs.length)
    (hd : dst + n ≤ xs.length) (j : Nat) :
    (memmove xs dst src n)[j]? =
      if dst ≤ j ∧ j < dst + n then xs[src + (j - dst)]? else xs[j]? := by
  have hlow : (xs.take dst).length = dst := by rw [List.length_take]; omega
  have hmid : ((xs.drop src).take n).length = n := by
    rw [List.length_take, List.length_drop]
    omega
  rw [memmove, List.append_assoc]
  by_cases h1 : j < dst
  · rw [List.getElem?_append_left (by omega), List.getElem?_take_of_lt h1, if_neg (by omega)]
  · rw [List.getElem?_append_right (by omega), hlow]
    by_cases h2 : j < dst + n
    · rw [List.getElem?_append_left (by omega), List.getElem?_take_of_lt (by omega),
        List.getElem?_drop, if_pos (by omega)]
    · rw [List.getElem?_append_right (by omega), hmid, List.getElem?_drop, if_neg (by omega)]
      congr 1
      omega

theorem length_overwrite {xs ys : List α} {dst : Nat} (h : dst + ys.length ≤ xs.length) :
    (overwrite xs dst ys).length = xs.length := by
  simp only [overwrite, List.length_append, List.length_take, List.length_drop]
  omega

theorem take_overwrite {xs ys : List α} {dst : Nat} (h : dst ≤ xs.length) :
    (overwrite xs dst ys).take (dst + ys.length) = xs.take dst ++ ys := by
  apply List.take_left'
  rw [List.length_append, List.length_take_of_le h]

@[simp] theorem memmove_self (xs : List α) (src n : Nat) : memmove xs src src n = xs := by
  rw [memmove, List.append_assoc, ← List.drop_drop, List.take_append_drop, List.take_append_drop]

/-- Closing the gap at `i` among the first `n` slots. -/
theorem take_memmove_erase {xs : List α} {n i : Nat} (hn : n ≤ xs.length) (hi : i < n) :
    (memmove xs i (i + 1) (n - (i + 1))).take (n - 1) = (xs.take n).eraseIdx i := by
  apply List.ext_getElem?
  intro j
  rw [List.getElem?_take, List.getElem?_eraseIdx,
    getElem?_memmove (by omega) (by omega)]
  by_cases hj : j < n - 1
  · rw [if_pos hj]
    by_cases hij : j < i
    · rw [if_neg (by omega), if_pos hij, List.getElem?_take_of_lt (by omega)]
    · rw [if_pos (by omega), if_neg hij, List.getElem?_take_of_lt (by omega)]
      congr 1
      omega
  · rw [if_neg hj]
    by_cases hij : j < i
    · omega
    · rw [if_neg hij, List.getElem?_take_eq_none (by omega)]

/-- Replacing the slots from `v` to `vend` among the first `n`: what is behind them moves first,
then the new slots are written. -/
theorem take_memmove_replace {xs ys zs : List α} {v vend n : Nat} (hv : v ≤ vend) (hvend : vend ≤ n)
    (hn : n ≤ xs.length) (hfit : v + ys.length + (n - vend) ≤ xs.length)
    (hzs : zs = memmove xs (v + ys.length) vend (n - vend)) :
    (overwrite zs v ys).take (v + ys.length + (n - vend)) =
      xs.take v ++ ys ++ (xs.take n).drop vend := by
  have hlow : (xs.take (v + ys.length)).length = v + ys.length := List.length_take_of_le (by omega)
  have hmid : ((xs.take n).drop vend).length = n - vend := by
    rw [List.length_drop, List.length_take_of_le hn]
  have hmove : zs = xs.take (v + ys.length) ++ ((xs.take n).drop vend ++
      xs.drop (v + ys.length + (n - vend))) := by
    rw [hzs, memmove, List.drop_take, List.append_assoc]
  have hhead : zs.take v = xs.take v := by
    rw [hmove, List.take_append_of_le_length (by omega), List.take_take]
    congr 1
    omega
  have htail : zs.drop (v + ys.length) =
      (xs.take n).drop vend ++ xs.drop (v + ys.length + (n - vend)) := by
    rw [hmove, List.drop_left' hlow]
  rw [overwrite, hhead, htail, ← List.append_assoc]
  apply List.take_left'
  rw [List.length_append, List.length_append, List.length_take_of_le (by omega), hmid]

end Memmove
