import Libhp.Lib.CInt
import Libhp.Lib.Text
import Libhp.Str.Mem

/-!
# `ll2string`

Decimal numbers for the signal handler of `hp_sig.c`: two characters a turn, written from the
last to the first into a buffer of the caller's.
-/
namespace Libhp.Sig
open CInt
open Libhp.Str (Byte Fault put)

def LLONG_MAX : Int := 2 ^ 63 - 1
def LLONG_MIN : Int := -2 ^ 63

/-- The number of digits of a 64-bit `v`: two nested calls are enough. -/
def digits10 : Nat → Nat → Nat
  | 0, _ => 0
  | fuel + 1, v =>
    if v < 10 then 1
    else if v < 100 then 2
    else if v < 1000 then 3
    else if v < 1000000000000 then
      if v < 100000000 then
        if v < 1000000 then
          if v < 10000 then 4
          else 5 + (if v ≥ 100000 then 1 else 0)
        else 7 + (if v ≥ 10000000 then 1 else 0)
      else if v < 10000000000 then 9 + (if v ≥ 1000000000 then 1 else 0)
      else 11 + (if v ≥ 100000000000 then 1 else 0)
    else 12 + digits10 fuel (v / 1000000000000)

def digits : List Byte :=
  Text.ascii "0001020304050607080910111213141516171819" ++
  Text.ascii "2021222324252627282930313233343536373839" ++
  Text.ascii "4041424344454647484950515253545556575859" ++
  Text.ascii "6061626364656667686970717273747576777879" ++
  Text.ascii "8081828384858687888990919293949596979899"

def digitAt (i : Nat) : Except Fault Byte :=
  match digits[i]? with
  | some b => .ok b
  | none => .error .read

/-- `while (value >= 100)`, with what is left of `value` and `next` afterwards. -/
def ll2stringLoop : Nat → Nat → Nat → List Byte → Except Fault (List Byte × Nat × Nat)
  | 0, value, next, dst => .ok (dst, value, next)
  | fuel + 1, value, next, dst =>
    if 100 ≤ value then do
      let i := (value % 100) * 2
      let lo ← digitAt (i + 1)
      let dst ← put dst next [lo]
      let hi ← digitAt i
      let dst ← put dst (toUnsigned (next - 1)) [hi]
      ll2stringLoop fuel (value / 100) (toUnsigned (next - 2)) dst
    else .ok (dst, value, next)

/-- The last one or two digits that are left of `value`. -/
def ll2stringFirst (value next : Nat) (dst : List Byte) : Except Fault (List Byte) :=
  if value < 10 then put dst next [UInt8.ofNat (48 + value)]
  else do
    let lo ← digitAt (value * 2 + 1)
    let dst ← put dst next [lo]
    let hi ← digitAt (value * 2)
    put dst (toUnsigned (next - 1)) [hi]

def ll2stringSign (negative : Nat) (dst : List Byte) : Except Fault (List Byte) :=
  if negative = 1 then put dst 0 [45] else .ok dst

/-- The buffer afterwards and the result. A 64-bit number has at most 20 digits. -/
def ll2string (dst : List Byte) (dstlen : Nat) (svalue : Int) : Except Fault (List Byte × Nat) :=
  let value : Nat :=
    if svalue < 0 then
      if svalue ≠ LLONG_MIN then (-svalue).toNat else LLONG_MAX.toNat + 1
    else svalue.toNat
  let negative := if svalue < 0 then 1 else 0
  let length := digits10 2 value + negative
  if length ≥ dstlen then .ok (dst, 0)
  else do
    let dst ← put dst length [0]
    let (dst, value, next) ← ll2stringLoop 20 value (toUnsigned (length - 1)) dst
    let dst ← ll2stringFirst value next dst
    let dst ← ll2stringSign negative dst
    .ok (dst, length)

/-- The text of a number, with its sign. -/
def decimalInt (n : Int) : List Byte :=
  if n < 0 then 45 :: Text.decimal n.natAbs else Text.decimal n.natAbs

theorem decimal_step {v : Nat} (hv : 10 ≤ v) :
    Text.decimal v = Text.decimal (v / 10) ++ [Text.digit (v % 10)] := by
  have hne : v ≠ 0 := by omega
  have hne' : v / 10 ≠ 0 := by omega
  rw [Text.decimal, if_neg hne, Text.decimal, if_neg hne', Nat.digits_def' (by decide) (by omega),
    List.reverse_cons, List.map_append]
  rfl

theorem decimal_small {v : Nat} (hv : v < 10) : Text.decimal v = [Text.digit v] := by
  by_cases h : v = 0
  · subst h
    rfl
  · rw [Text.decimal, if_neg h, Nat.digits_of_lt 10 v h hv]
    rfl

theorem length_decimal {v k : Nat} (hlo : k = 0 ∨ 10 ^ k ≤ v) (hhi : v < 10 ^ (k + 1)) :
    (Text.decimal v).length = k + 1 := by
  induction k generalizing v with
  | zero => rw [decimal_small (by simpa using hhi)]; rfl
  | succ k ih =>
    have hge : 10 ^ (k + 1) ≤ v := hlo.resolve_left (Nat.succ_ne_zero k)
    have hten : 10 ≤ v := le_trans (Nat.le_self_pow (Nat.succ_ne_zero k) 10) hge
    have hlo' : 10 ^ k ≤ v / 10 := by
      rw [Nat.le_div_iff_mul_le (by decide), ← Nat.pow_succ]
      exact hge
    have hhi' : v / 10 < 10 ^ (k + 1) := by
      rw [Nat.div_lt_iff_lt_mul (by decide), ← Nat.pow_succ]
      exact hhi
    rw [decimal_step hten, List.length_append, ih (.inr hlo') hhi', List.length_singleton]

/-- Dividing by a power of ten takes that many digits off. -/
theorem length_decimal_div {v k : Nat} (hv : 10 ^ k ≤ v) :
    (Text.decimal v).length = (Text.decimal (v / 10 ^ k)).length + k := by
  induction k generalizing v with
  | zero => rw [Nat.pow_zero, Nat.div_one, Nat.add_zero]
  | succ k ih =>
    have hten : 10 ≤ v := le_trans (Nat.le_self_pow (Nat.succ_ne_zero k) 10) hv
    have hdiv : 10 ^ k ≤ v / 10 := by
      rw [Nat.le_div_iff_mul_le (by decide), ← Nat.pow_succ]
      exact hv
    rw [decimal_step hten, List.length_append, List.length_singleton, ih hdiv, Nat.div_div_eq_div_mul,
      Nat.mul_comm 10, ← Nat.pow_succ, Nat.add_assoc]

theorem length_decimal_le {v k : Nat} (hv : v < 10 ^ (k + 1)) :
    (Text.decimal v).length ≤ k + 1 := by
  induction k generalizing v with
  | zero => rw [decimal_small (by simpa using hv)]; exact Nat.le_refl 1
  | succ k ih =>
    by_cases hten : v < 10
    · rw [decimal_small hten, List.length_singleton]
      omega
    · have hdiv : v / 10 < 10 ^ (k + 1) := by
        rw [Nat.div_lt_iff_lt_mul (by decide), ← Nat.pow_succ]
        exact hv
      rw [decimal_step (Nat.not_lt.mp hten), List.length_append, List.length_singleton]
      exact Nat.succ_le_succ (ih hdiv)

theorem digits10_small {fuel v : Nat} (hv : v < 10 ^ 12) :
    digits10 (fuel + 1) v = (Text.decimal v).length := by
  have hlen : ∀ k, k = 0 ∨ 10 ^ k ≤ v → v < 10 ^ (k + 1) → k + 1 = (Text.decimal v).length :=
    fun k hlo hhi => (length_decimal hlo hhi).symm
  rw [digits10]
  split_ifs
  · exact hlen 0 (by omega) (by omega)
  · exact hlen 1 (by omega) (by omega)
  · exact hlen 2 (by omega) (by omega)
  · exact hlen 3 (by omega) (by omega)
  · exact hlen 5 (by omega) (by omega)
  · exact hlen 4 (by omega) (by omega)
  · exact hlen 7 (by omega) (by omega)
  · exact hlen 6 (by omega) (by omega)
  · exact hlen 9 (by omega) (by omega)
  · exact hlen 8 (by omega) (by omega)
  · exact hlen 11 (by omega) (by omega)
  · exact hlen 10 (by omega) (by omega)
  · omega

theorem digits10_eq {v : Nat} (hv : v < 2 ^ 64) : digits10 2 v = (Text.decimal v).length := by
  by_cases hsmall : v < 10 ^ 12
  · exact digits10_small hsmall
  · have hquot : v / 10 ^ 12 < 10 ^ 12 := by omega
    rw [digits10, if_neg (by omega), if_neg (by omega), if_neg (by omega), if_neg (by omega)]
    rw [show (1000000000000 : Nat) = 10 ^ 12 from rfl, digits10_small hquot,
      length_decimal_div (Nat.not_lt.mp hsmall), Nat.add_comm]

theorem digitAt_eq {k : Nat} (hk : k < 100) :
    digitAt (k * 2) = .ok (Text.digit (k / 10)) ∧
      digitAt (k * 2 + 1) = .ok (Text.digit (k % 10)) := by
  have hall : ∀ k : Fin 100, digits[k.val * 2]? = some (Text.digit (k.val / 10)) ∧
      digits[k.val * 2 + 1]? = some (Text.digit (k.val % 10)) := by decide +kernel
  obtain ⟨hhi, hlo⟩ := hall ⟨k, hk⟩
  rw [digitAt, digitAt, hhi, hlo]
  exact ⟨rfl, rfl⟩

theorem put_one {front back mem : List Byte} {off : Nat} (x b : Byte)
    (hmem : mem = front ++ x :: back) (hoff : off = front.length) :
    put mem off [b] = .ok (front ++ b :: back) := by
  subst hmem hoff
  have hdrop : (front ++ x :: back).drop (front.length + [b].length) = back := by
    rw [List.append_cons]
    exact List.drop_left' (by simp)
  rw [put, if_neg (by simp), Memmove.overwrite, List.take_left, hdrop, List.append_assoc,
    List.singleton_append]

theorem decimal_step₂ {v : Nat} (hv : 100 ≤ v) : Text.decimal v =
    Text.decimal (v / 100) ++ [Text.digit (v % 100 / 10), Text.digit (v % 100 % 10)] := by
  have hdiv : v / 10 / 10 = v / 100 := Nat.div_div_eq_div_mul v 10 10
  have htens : v / 10 % 10 = v % 100 / 10 := by omega
  have hones : v % 10 = v % 100 % 10 := by omega
  rw [decimal_step (by omega), decimal_step (v := v / 10) (by omega), hdiv, htens, ← hones,
    List.append_assoc]
  rfl

/-- The last two of at least three slots. -/
theorem last_two (front : List Byte) (h : 3 ≤ front.length) :
    ∃ init x y, front = init ++ [x, y] ∧ 1 ≤ init.length := by
  obtain ⟨init, y, rfl⟩ := (List.eq_nil_or_concat front).resolve_left (by rintro rfl; simp at h)
  rw [List.length_concat] at h
  obtain ⟨init, x, rfl⟩ := (List.eq_nil_or_concat init).resolve_left (by rintro rfl; simp at h)
  rw [List.length_concat] at h
  exact ⟨init, x, y, by simp, by omega⟩

/-- The loop writes the last digits at the end of `front`, and leaves the first one or two. -/
theorem ll2stringLoop_eq (fuel value : Nat) (front back : List Byte)
    (hfuel : (Text.decimal value).length ≤ 2 * fuel + 2)
    (hfront : (Text.decimal value).length ≤ front.length) (hlen : front.length < 2 ^ 32) :
    ∃ value' ds, value' < 100 ∧ Text.decimal value = Text.decimal value' ++ ds ∧
      ll2stringLoop fuel value (front.length - 1) (front ++ back) =
        .ok (front.take (front.length - ds.length) ++ (ds ++ back), value',
          front.length - ds.length - 1) := by
  have hdone : value < 100 → ∃ value' ds, value' < 100 ∧
      Text.decimal value = Text.decimal value' ++ ds ∧
      (.ok (front ++ back, value, front.length - 1) : Except Fault (List Byte × Nat × Nat)) =
        .ok (front.take (front.length - ds.length) ++ (ds ++ back), value',
          front.length - ds.length - 1) := fun hlt =>
    ⟨value, [], hlt, (List.append_nil _).symm, by simp⟩
  induction fuel generalizing value front back with
  | zero =>
    refine hdone (Nat.lt_of_not_le fun hge => ?_)
    rw [decimal_step₂ hge, List.length_append] at hfuel
    have hpos := List.length_pos_iff.mpr (Text.decimal_ne_nil (value / 100))
    simp only [List.length_cons, List.length_nil] at hfuel
    omega
  | succ fuel ih =>
    by_cases hge : 100 ≤ value
    · have hdec := decimal_step₂ hge
      have hdeclen : (Text.decimal value).length = (Text.decimal (value / 100)).length + 2 := by
        rw [hdec, List.length_append]
        rfl
      have hpos := List.length_pos_iff.mpr (Text.decimal_ne_nil (value / 100))
      obtain ⟨init, x, y, rfl, hinit⟩ := last_two front (by omega)
      simp only [List.length_append, List.length_cons, List.length_nil] at hfront hlen
      obtain ⟨hhi, hlo⟩ := digitAt_eq (Nat.mod_lt value (by decide : 0 < 100))
      obtain ⟨value', ds, hlt, hsplit, hloop⟩ := ih (value / 100) init
        (Text.digit (value % 100 / 10) :: Text.digit (value % 100 % 10) :: back) (by omega)
        (by omega) (by omega) (fun hlt => ⟨value / 100, [], hlt, by simp, by simp⟩)
      have hlast : (init ++ [x, y]).length - 1 = (init ++ [x]).length := by simp
      have hput₁ : put (init ++ [x, y] ++ back) ((init ++ [x, y]).length - 1)
          [Text.digit (value % 100 % 10)] =
            .ok (init ++ [x] ++ Text.digit (value % 100 % 10) :: back) :=
        put_one y _ (by simp) hlast
      have hprev : toUnsigned (((init ++ [x, y]).length - 1 : Nat) - 1 : Int) = init.length :=
        toUnsigned_eq (by simp) (by omega)
      have hput₂ : put (init ++ [x] ++ Text.digit (value % 100 % 10) :: back)
          (toUnsigned (((init ++ [x, y]).length - 1 : Nat) - 1 : Int)) [Text.digit (value % 100 / 10)] =
            .ok (init ++ Text.digit (value % 100 / 10) :: Text.digit (value % 100 % 10) :: back) :=
        put_one x _ (by simp) hprev
      have hnext : toUnsigned (((init ++ [x, y]).length - 1 : Nat) - 2 : Int) = init.length - 1 :=
        toUnsigned_eq (by simp; omega) (by omega)
      refine ⟨value', ds ++ [Text.digit (value % 100 / 10), Text.digit (value % 100 % 10)], hlt,
        by rw [hdec, hsplit, List.append_assoc], ?_⟩
      have hstep : ll2stringLoop (fuel + 1) value ((init ++ [x, y]).length - 1)
          (init ++ [x, y] ++ back) = ll2stringLoop fuel (value / 100) (init.length - 1)
            (init ++ Text.digit (value % 100 / 10) :: Text.digit (value % 100 % 10) :: back) := by
        rw [ll2stringLoop, if_pos hge]
        simp only [hlo, hhi, hput₁, hput₂, hnext, bind, Except.bind]
      have hds : ds.length ≤ init.length := by
        have hall := congrArg List.length hsplit
        rw [List.length_append] at hall
        omega
      rw [hstep, hloop]
      have hrest : (init ++ [x, y]).length - (ds ++ [Text.digit (value % 100 / 10),
          Text.digit (value % 100 % 10)]).length = init.length - ds.length := by
        simp only [List.length_append, List.length_cons, List.length_nil]
        omega
      rw [hrest, List.take_append_of_le_length (Nat.sub_le _ _), List.append_assoc ds]
      rfl
    · rw [ll2stringLoop, if_neg hge]
      exact hdone (Nat.lt_of_not_le hge)

/-- The first one or two digits, in front of those that the loop has written. -/
theorem ll2string_first {value : Nat} (hvalue : value < 100) {front : List Byte}
    {sign : Nat} (back : List Byte) (hfront : front.length = sign + (Text.decimal value).length)
    (hlen : front.length < 2 ^ 32) :
    ll2stringFirst value (front.length - 1) (front ++ back) =
      .ok (front.take sign ++ (Text.decimal value ++ back)) := by
  rw [ll2stringFirst]
  by_cases hten : value < 10
  · rw [decimal_small hten, List.length_singleton] at hfront
    obtain ⟨x, hx⟩ := List.length_eq_one_iff.mp (show (front.drop sign).length = 1 by
      rw [List.length_drop, hfront, Nat.add_sub_cancel_left])
    have hsplit := List.take_append_drop sign front
    rw [hx] at hsplit
    rw [if_pos hten, decimal_small hten]
    refine put_one x _ ?_ ?_
    · rw [List.append_cons, hsplit]
      rfl
    · rw [hfront, List.length_take_of_le (by omega)]
      rfl
  · have hdec : Text.decimal value = [Text.digit (value / 10), Text.digit (value % 10)] := by
      rw [decimal_step (Nat.not_lt.mp hten), decimal_small (by omega)]
      rfl
    rw [hdec, List.length_cons, List.length_singleton] at hfront
    obtain ⟨x, y, hxy⟩ := List.length_eq_two.mp (show (front.drop sign).length = 2 by
      rw [List.length_drop, hfront, Nat.add_sub_cancel_left])
    have hsplit := List.take_append_drop sign front
    have htake : (front.take sign).length = sign := List.length_take_of_le (by omega)
    rw [hxy] at hsplit
    have hmem : front ++ back = front.take sign ++ ([x, y] ++ back) := by
      rw [← List.append_assoc, hsplit]
    obtain ⟨hhi, hlo⟩ := digitAt_eq hvalue
    have hput₁ : put (front ++ back) (front.length - 1) [Text.digit (value % 10)] =
        .ok (front.take sign ++ [x] ++ Text.digit (value % 10) :: back) :=
      put_one y _ (by rw [hmem, List.append_assoc]; rfl)
        (by rw [List.length_append, htake, hfront]; rfl)
    have hprev : toUnsigned ((front.length - 1 : Nat) - 1 : Int) = (front.take sign).length :=
      toUnsigned_eq (by rw [htake, hfront]; omega) (by omega)
    have hput₂ : put (front.take sign ++ [x] ++ Text.digit (value % 10) :: back)
        (toUnsigned ((front.length - 1 : Nat) - 1 : Int)) [Text.digit (value / 10)] =
          .ok (front.take sign ++ Text.digit (value / 10) :: Text.digit (value % 10) :: back) :=
      put_one x _ (by simp) hprev
    rw [if_neg hten, hdec]
    simp only [hlo, hhi, hput₁, bind, Except.bind]
    rw [hput₂]
    simp

/-- A 64-bit number is written with its NUL and nothing else is, if there is room for both;
otherwise the buffer is left alone, and the result is 0. -/
theorem ll2string_eq {dst : List Byte} {dstlen : Nat} {svalue : Int} (hdst : dstlen ≤ dst.length)
    (hlo : LLONG_MIN ≤ svalue) (hhi : svalue ≤ LLONG_MAX) :
    ll2string dst dstlen svalue =
      if (decimalInt svalue).length < dstlen then
        .ok (Memmove.overwrite dst 0 (decimalInt svalue ++ [0]), (decimalInt svalue).length)
      else .ok (dst, 0) := by
  rw [LLONG_MIN] at hlo
  rw [LLONG_MAX] at hhi
  have hvalue : (if svalue < 0 then
      if svalue ≠ LLONG_MIN then (-svalue).toNat else LLONG_MAX.toNat + 1
      else svalue.toNat) = svalue.natAbs := by
    rw [LLONG_MIN, LLONG_MAX]
    split
    · split
      · omega
      · next heq =>
        rw [not_ne_iff.mp heq]
        rfl
    · omega
  generalize hneg : (if svalue < 0 then 1 else 0 : Nat) = sign
  have hdigits := digits10_eq (v := svalue.natAbs) (by omega)
  have hmax : (Text.decimal svalue.natAbs).length ≤ 20 := length_decimal_le (k := 19) (by omega)
  have htext : (decimalInt svalue).length = (Text.decimal svalue.natAbs).length + sign := by
    rw [← hneg, decimalInt]
    split <;> rfl
  have hsign : sign ≤ 1 := by
    rw [← hneg]
    split <;> decide
  rw [ll2string]
  simp only [hvalue, hneg, hdigits, ← htext, ge_iff_le]
  by_cases hroom : (decimalInt svalue).length < dstlen
  · rw [if_neg (Nat.not_le.mpr hroom), if_pos hroom]
    have hlt : (decimalInt svalue).length < dst.length := Nat.lt_of_lt_of_le hroom hdst
    generalize hlen : (decimalInt svalue).length = len at htext hlt
    have hfront : (dst.take len).length = len := List.length_take_of_le hlt.le
    have hmem : dst = dst.take len ++ dst[len] :: dst.drop (len + 1) := by
      rw [← List.drop_eq_getElem_cons hlt, List.take_append_drop]
    have hput := put_one _ 0 hmem hfront.symm
    have hpos := List.length_pos_iff.mpr (Text.decimal_ne_nil svalue.natAbs)
    have hstart : toUnsigned ((len : Int) - 1) = (dst.take len).length - 1 :=
      toUnsigned_eq (by rw [hfront]; omega) (by omega)
    obtain ⟨value, ds, hsmall, hsplit, hloop⟩ := ll2stringLoop_eq 20 svalue.natAbs
      (dst.take len) (0 :: dst.drop (len + 1)) (by omega) (by omega) (by omega)
    have hds := congrArg List.length hsplit
    rw [List.length_append] at hds
    have hleft : ((dst.take len).take ((dst.take len).length - ds.length)).length =
        sign + (Text.decimal value).length := by
      rw [List.length_take, hfront]
      omega
    have hfirst := ll2string_first hsmall (ds ++ 0 :: dst.drop (len + 1)) hleft (by omega)
    have hnext : ((dst.take len).take ((dst.take len).length - ds.length)).length - 1 =
        (dst.take len).length - ds.length - 1 := by
      rw [hleft, hfront]
      omega
    have htake : ((dst.take len).take ((dst.take len).length - ds.length)).take sign =
        dst.take sign := by
      rw [List.take_take, List.take_take, hfront]
      congr 1
      omega
    rw [hnext, htake, ← List.append_assoc (Text.decimal value), ← hsplit] at hfirst
    simp only [hput, hstart, hloop, hfirst, bind, Except.bind]
    rw [ll2stringSign]
    have htail : Memmove.overwrite dst 0 (decimalInt svalue ++ [0]) =
        decimalInt svalue ++ 0 :: dst.drop (len + 1) := by
      rw [Memmove.overwrite, List.take_zero, List.nil_append, List.append_assoc, Nat.zero_add,
        List.length_append, hlen]
      rfl
    by_cases hnegative : svalue < 0
    · rw [if_pos hnegative] at hneg
      subst hneg
      obtain ⟨x, hx⟩ := List.length_eq_one_iff.mp (show (dst.take 1).length = 1 by
        rw [List.length_take_of_le (by omega)])
      have hput : put (dst.take 1 ++ (Text.decimal svalue.natAbs ++ 0 :: dst.drop (len + 1))) 0
          [45] = .ok ([] ++ 45 :: (Text.decimal svalue.natAbs ++ 0 :: dst.drop (len + 1))) :=
        put_one x 45 (by rw [hx]; rfl) rfl
      rw [if_pos rfl, hput, htail, ← hlen, decimalInt, if_pos hnegative]
      rfl
    · rw [if_neg hnegative] at hneg
      subst hneg
      rw [if_neg (by decide), htail, ← hlen, decimalInt, if_neg hnegative]
      rfl
  · rw [if_pos (Nat.not_lt.mp hroom), if_neg hroom]

/-- A number with its sign, as a reader takes it. -/
def readInt : List Byte → Option Int
  | 45 :: bs => (Text.readDecimal bs).map fun n : Nat => -(n : Int)
  | bs => (Text.readDecimal bs).map fun n : Nat => (n : Int)

theorem readInt_decimalInt (n : Int) : readInt (decimalInt n) = some n := by
  rw [decimalInt]
  split
  · rw [readInt, Text.readDecimal_decimal, Option.map_some, Option.some.injEq]
    omega
  · have hminus : (45 : UInt8) ∉ Text.decimal n.natAbs :=
      Text.not_mem_decimal (by decide) n.natAbs
    obtain ⟨b, bs, hbs⟩ := List.exists_cons_of_ne_nil (Text.decimal_ne_nil n.natAbs)
    have hb : b ≠ 45 := fun heq => hminus (hbs ▸ heq ▸ List.mem_cons_self)
    have hread : readInt (b :: bs) = (Text.readDecimal (b :: bs)).map fun n : Nat => (n : Int) := by
      rw [readInt]
      exact fun _ heq => hb (List.cons.inj heq).1
    rw [hbs, hread, ← hbs, Text.readDecimal_decimal, Option.map_some, Option.some.injEq]
    omega

/-- For every 64-bit number and every buffer: either the number and a NUL are written at its
start, so that it is read back from there, or there is no room for both, nothing is written
and the result is 0. -/
theorem ll2string_round_trip (dst : List Byte) (dstlen : Nat) (svalue : Int)
    (hdst : dstlen ≤ dst.length) (hlo : LLONG_MIN ≤ svalue) (hhi : svalue ≤ LLONG_MAX) :
    readInt (decimalInt svalue) = some svalue ∧ ll2string dst dstlen svalue =
      if (decimalInt svalue).length < dstlen then
        .ok (Memmove.overwrite dst 0 (decimalInt svalue ++ [0]), (decimalInt svalue).length)
      else .ok (dst, 0) :=
  ⟨readInt_decimalInt svalue, ll2string_eq hdst hlo hhi⟩

theorem ll2string_round_trip_minus : ll2string [1, 1, 1] 3 (-7) = .ok ([45, 55, 0], 2) ∧
    ll2string [1, 1, 1] 2 (-7) = .ok ([1, 1, 1], 0) := by
  have htext : decimalInt (-7) = [45, 55] := by
    rw [decimalInt, if_pos (by decide), decimal_small (by decide)]
    rfl
  have hfits := (ll2string_round_trip [1, 1, 1] 3 (-7) (by decide) (by decide) (by decide)).2
  have hshort := (ll2string_round_trip [1, 1, 1] 2 (-7) (by decide) (by decide) (by decide)).2
  rw [htext] at hfits hshort
  exact ⟨hfits, hshort⟩

end Libhp.Sig
