import Libhp.Json.Cjson
import Libhp.Lib.Lex

/-!
# Comparing versions

`hp_vercmp` of `hp_str.c`. The loop compares the components one by one, with `"0"` in the place
of those that the shorter version does not have. What it computes is the order of the versions
as infinite sequences of numbers.
-/
namespace Libhp.Str
open Libhp.Json

/-- `atoi`, of which only this is used. -/
structure Atoi where
  parse : Text → Int
  parse_zero : parse ['0'] = 0
  parse_nil : parse [] = 0

section
variable (sds : Sds) (atoi : Atoi)

/-- The loop over the components: `k` of them are left, from the one at `i` on. -/
def vercmpLoop (sVer sCmp : List Text) : Nat → Nat → Int
  | 0, _ => 0
  | k + 1, i =>
    let iVer := atoi.parse (if h : i < sVer.length then sVer.get ⟨i, h⟩ else ['0'])
    let iCmp := atoi.parse (if h : i < sCmp.length then sCmp.get ⟨i, h⟩ else ['0'])
    if iVer > iCmp then 1 else if iVer < iCmp then -1 else vercmpLoop sVer sCmp k (i + 1)

/-- `hp_vercmp`, where `none` is `NULL`. -/
def hpVercmp (ver cmp : Option Text) : Int :=
  let sVer := sds.splitlen (ver.getD []) '.'
  let sCmp := sds.splitlen (cmp.getD []) '.'
  vercmpLoop atoi sVer sCmp (max sVer.length sCmp.length) 0

/-- The numbers of the components, and zeros behind them. -/
def numbers (comps : List Text) (i : ℕ) : ℤ := ((comps.map atoi.parse)[i]?).getD 0

/-- A version in the lexicographic order of the sequences. -/
def version (ver : Option Text) : Lex (ℕ → ℤ) := toLex (numbers atoi (sds.splitlen (ver.getD []) '.'))

end

variable {sds : Sds} {atoi : Atoi}

theorem parse_get (comps : List Text) (i : Nat) :
    atoi.parse (if h : i < comps.length then comps.get ⟨i, h⟩ else ['0']) = numbers atoi comps i := by
  rw [numbers, List.getElem?_map]
  by_cases h : i < comps.length
  · rw [dif_pos h, List.getElem?_eq_getElem h]
    rfl
  · rw [dif_neg h, List.getElem?_eq_none (Nat.le_of_not_lt h), atoi.parse_zero]
    rfl

theorem numbers_of_le {comps : List Text} {i : ℕ} (h : comps.length ≤ i) :
    numbers atoi comps i = 0 := by
  rw [numbers, List.getElem?_eq_none (by rwa [List.length_map])]
  rfl

/-- What the loop comes to, where the components before it are equal. -/
theorem vercmpLoop_eq (a b : List Text) {k i : Nat} (hk : max a.length b.length ≤ i + k)
    (heq : ∀ j < i, numbers atoi a j = numbers atoi b j) :
    vercmpLoop atoi a b k i = Lex.sign (toLex (numbers atoi a)) (toLex (numbers atoi b)) := by
  induction k generalizing i with
  | zero =>
    have hsame : numbers atoi a = numbers atoi b := by
      funext j
      by_cases hj : j < i
      · exact heq j hj
      · rw [numbers_of_le (by omega), numbers_of_le (by omega)]
    rw [hsame, Lex.sign_self, vercmpLoop]
  | succ k ih =>
    rw [vercmpLoop, parse_get, parse_get]
    by_cases hne : numbers atoi a i = numbers atoi b i
    · have hrest := ih (i := i + 1) (by omega) fun j hj => by
        rcases Nat.lt_succ_iff_lt_or_eq.mp hj with h | rfl
        · exact heq j h
        · exact hne
      rw [hne, if_neg (lt_irrefl _), if_neg (lt_irrefl _), hrest]
    · rw [Lex.sign_toLex heq hne, Lex.sign]
      rcases lt_or_gt_of_ne hne with h | h
      · rw [if_neg (lt_asymm h), if_pos h, if_neg (lt_asymm h), if_pos h]
      · rw [if_pos h, if_pos h]

/-- `hp_vercmp` is the comparison in that order. -/
theorem hpVercmp_eq (ver cmp : Option Text) :
    hpVercmp sds atoi ver cmp = Lex.sign (version sds atoi ver) (version sds atoi cmp) :=
  vercmpLoop_eq _ _ (Nat.le_add_left ..) fun _ hj => absurd hj (Nat.not_lt_zero _)

/-- `n` times `".0"` behind a version. -/
def addZeros (n : Nat) (ver : Option Text) : Option Text :=
  some (ver.getD [] ++ (List.replicate n ['.', '0']).flatten)

theorem splitlen_eq {s : Text} (hs : s ≠ []) (c : Char) : sds.splitlen s c = s.splitOn c := by
  have hjoin := List.splitOn_intercalate c (sds.apart s c) (splitlen_ne hs c)
  rwa [sds.join s c hs, eq_comm] at hjoin

theorem numbers_concat (comps : List Text) {z : Text} (hz : atoi.parse z = 0) :
    numbers atoi (comps ++ [z]) = numbers atoi comps := by
  funext i
  rw [numbers, List.map_append, List.map_singleton, hz]
  rcases Nat.lt_trichotomy i comps.length with h | rfl | h
  · rw [List.getElem?_append_left (by rwa [List.length_map])]
    rfl
  · rw [numbers_of_le le_rfl, List.getElem?_append_right (by rw [List.length_map]),
      List.length_map, Nat.sub_self]
    rfl
  · rw [numbers_of_le h.le, List.getElem?_eq_none]
    · rfl
    · rwa [List.length_append, List.length_map, List.length_singleton]

/-- One more component that is zero changes nothing. -/
theorem version_zero (s : Text) :
    version sds atoi (some (s ++ ['.', '0'])) = version sds atoi (some s) := by
  have hsplit : sds.splitlen (s ++ ['.', '0']) '.' = s.splitOn '.' ++ [['0']] := by
    rw [splitlen_eq (by simp), List.splitOn_append_cons_self]
    rfl
  rw [version, version, Option.getD_some, Option.getD_some, hsplit,
    numbers_concat _ atoi.parse_zero]
  congr 1
  by_cases hs : s = []
  · rw [hs, sds.split_nil, List.splitOn_nil]
    exact numbers_concat [] atoi.parse_nil
  · rw [splitlen_eq hs]

theorem version_addZeros (n : Nat) (ver : Option Text) :
    version sds atoi (addZeros n ver) = version sds atoi ver := by
  induction n with
  | zero => simp [addZeros, version]
  | succ n ih =>
    rw [addZeros, List.replicate_succ', List.flatten_concat, ← List.append_assoc, version_zero, ← ih,
      addZeros]

/-- Versions are compared in a total preorder, in which `".0"` behind a version does not
matter. -/
theorem vercmp_preorder (sds : Sds) (atoi : Atoi) (a b c : Option Text) :
    hpVercmp sds atoi a b = -hpVercmp sds atoi b a ∧
      (hpVercmp sds atoi a b ≤ 0 → hpVercmp sds atoi b c ≤ 0 → hpVercmp sds atoi a c ≤ 0) ∧
      ∀ n, hpVercmp sds atoi (addZeros n a) b = hpVercmp sds atoi a b ∧
        hpVercmp sds atoi a (addZeros n b) = hpVercmp sds atoi a b := by
  refine ⟨?_, fun hab hbc => ?_, fun n => ⟨?_, ?_⟩⟩
  · rw [hpVercmp_eq, hpVercmp_eq]
    exact Lex.sign_swap _ _
  · rw [hpVercmp_eq, Lex.sign_nonpos_iff] at hab hbc ⊢
    exact hab.trans hbc
  · rw [hpVercmp_eq, hpVercmp_eq, version_addZeros]
  · rw [hpVercmp_eq, hpVercmp_eq, version_addZeros]

def plainAtoi : Atoi := ⟨indexValue, rfl, rfl⟩

example : hpVercmp plainSds plainAtoi (some ['1', '.', '0', '.', '1']) (some ['1', '.', '1']) = -1 := by
  decide

example : hpVercmp plainSds plainAtoi (some ['1', '.', '.']) none = 1 := by decide

end Libhp.Str
