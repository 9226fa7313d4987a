import Libhp.Str.Mem

/-!
# `hp_urldecode`

The decoder of `hp_url.c` on its two buffers, and what it is for: whatever a client chooses
to escape, the text comes back.
-/
namespace Libhp.Url
open Libhp.Str (Byte Fault put)

/-- The byte at index `i` of an object. -/
def load (mem : List Byte) (i : Nat) : Except Fault Byte :=
  match mem[i]? with
  | some b => .ok b
  | none => .error .read

def isUpperHex (ch : Byte) : Bool := (48 ≤ ch && ch ≤ 57) || (65 ≤ ch && ch ≤ 70)

def isHexChar (ch : Byte) : Bool := isUpperHex ch || (97 ≤ ch && ch ≤ 102)

/-- `HEX_VALUE` -/
def hexValue (ch : Byte) : Byte :=
  if 48 ≤ ch && ch ≤ 57 then ch - 48 else if 97 ≤ ch && ch ≤ 102 then ch - 97 + 10 else ch - 65 + 10

/-- The loop of `urldecode_ex`: the destination and how far it is filled. -/
def urldecodeLoop (src : List Byte) (pEnd : Nat) :
    Nat → Nat → Nat → List Byte → Except Fault (List Byte × Nat)
  | 0, _, pDest, dest => .ok (dest, pDest)
  | fuel + 1, pSrc, pDest, dest =>
    if pSrc < pEnd then do
      let c ← load src pSrc
      if c = 37 ∧ pSrc + 2 < pEnd then
        let cHigh ← load src (pSrc + 1)
        let cLow ← load src (pSrc + 2)
        if isHexChar cHigh && isHexChar cLow then
          let dest ← put dest pDest [hexValue cHigh <<< 4 ||| hexValue cLow]
          urldecodeLoop src pEnd fuel (pSrc + 3) (pDest + 1) dest
        else
          let dest ← put dest pDest [c]
          urldecodeLoop src pEnd fuel (pSrc + 1) (pDest + 1) dest
      else if c = 43 then
        let dest ← put dest pDest [32]
        urldecodeLoop src pEnd fuel (pSrc + 1) (pDest + 1) dest
      else
        let dest ← put dest pDest [c]
        urldecodeLoop src pEnd fuel (pSrc + 1) (pDest + 1) dest
    else .ok (dest, pDest)

/-- Each turn of the loop takes at least one byte of the source. -/
def urldecodeEx (src : List Byte) (srcLen : Nat) (dest : List Byte) :
    Except Fault (List Byte × Nat) :=
  urldecodeLoop src srcLen srcLen 0 0 dest

def hpUrldecode (src : List Byte) (srcLen : Nat) (dest : List Byte) :
    Except Fault (List Byte × Nat) := do
  let (dest, destLen) ← urldecodeEx src srcLen dest
  let dest ← put dest destLen [0]
  .ok (dest, destLen)

/-- An escape that is cut off or has no digits stands for itself. -/
def decode : List Byte → List Byte
  | [] => []
  | [c] => [if c = 43 then 32 else c]
  | [c, d] => [if c = 43 then 32 else c, if d = 43 then 32 else d]
  | c :: h :: l :: bs =>
    if c = 37 then
      if isHexChar h && isHexChar l then (hexValue h <<< 4 ||| hexValue l) :: decode bs
      else c :: decode (h :: l :: bs)
    else (if c = 43 then 32 else c) :: decode (h :: l :: bs)

theorem decode_plain {c : Byte} (hc : c ≠ 37) (bs : List Byte) :
    decode (c :: bs) = (if c = 43 then 32 else c) :: decode bs := by
  match bs with
  | [] => rfl
  | [_] => rfl
  | _ :: _ :: _ => rw [decode, if_neg hc]

theorem decode_escape {h l : Byte} (hh : isHexChar h = true) (hl : isHexChar l = true)
    (bs : List Byte) :
    decode (37 :: h :: l :: bs) = (hexValue h <<< 4 ||| hexValue l) :: decode bs := by
  rw [decode, if_pos rfl, hh, hl]
  rfl

theorem length_decode_le (bs : List Byte) : (decode bs).length ≤ bs.length := by
  induction bs using decode.induct with
  | case1 => exact Nat.le_refl _
  | case2 c => exact Nat.le_refl _
  | case3 c d => exact Nat.le_refl _
  | case4 h l bs hhl ih =>
    rw [decode, if_pos rfl, if_pos hhl, List.length_cons, List.length_cons, List.length_cons,
      List.length_cons]
    omega
  | case5 h l bs hhl ih =>
    rw [decode, if_pos rfl, if_neg hhl]
    exact Nat.succ_le_succ ih
  | case6 c h l bs hc ih =>
    rw [decode, if_neg hc]
    exact Nat.succ_le_succ ih

theorem load_at {pre post : List Byte} {b : Byte} {i : Nat} (hi : i = pre.length) :
    load (pre ++ b :: post) i = .ok b := by
  subst hi
  rw [load, List.getElem?_append_right (Nat.le_refl _), Nat.sub_self, List.getElem?_cons_zero]

theorem overwrite_cons {dest ys : List Byte} {off : Nat} {b : Byte} (h : off < dest.length) :
    Memmove.overwrite (Memmove.overwrite dest off [b]) (off + 1) ys =
      Memmove.overwrite dest off (b :: ys) := by
  have htake : (Memmove.overwrite dest off [b]).take (off + [b].length) = dest.take off ++ [b] :=
    Memmove.take_overwrite (Nat.le_of_lt h)
  rw [List.length_singleton] at htake
  have hdrop : (Memmove.overwrite dest off [b]).drop (off + 1 + ys.length) =
      dest.drop (off + (b :: ys).length) := by
    have hlen : (dest.take off ++ [b]).length = off + 1 := by
      rw [List.length_append, List.length_take_of_le (Nat.le_of_lt h), List.length_singleton]
    rw [Memmove.overwrite, ← List.drop_drop, List.drop_left' hlen, List.drop_drop,
      List.length_singleton, List.length_cons]
    congr 1
    omega
  rw [Memmove.overwrite, htake, hdrop, Memmove.overwrite, List.append_assoc (dest.take off),
    List.singleton_append]

/-- What is written, if it fits. -/
def wrote (dest : List Byte) (off : Nat) (bs : List Byte) : Except Fault (List Byte × Nat) :=
  if dest.length < off + bs.length then .error .write
  else .ok (Memmove.overwrite dest off bs, off + bs.length)

theorem wrote_nil {dest : List Byte} {off : Nat} (h : off ≤ dest.length) :
    wrote dest off [] = .ok (dest, off) := by
  rw [wrote, List.length_nil, Nat.add_zero, if_neg (Nat.not_lt.mpr h), Memmove.overwrite,
    List.append_nil, List.length_nil, Nat.add_zero, List.take_append_drop]

/-- A byte is written, and then the others. -/
theorem put_wrote {dest bs : List Byte} {off : Nat} {b : Byte} (next : List Byte →
    Except Fault (List Byte × Nat)) (hnext : ∀ dest', dest'.length = dest.length →
      off < dest.length → next dest' = wrote dest' (off + 1) bs) :
    (put dest off [b] >>= next) = wrote dest off (b :: bs) := by
  by_cases h : off < dest.length
  · have hfit : ¬ dest.length < off + [b].length := by
      rw [List.length_singleton]
      omega
    have hlen := Memmove.length_overwrite (Nat.not_lt.mp hfit)
    rw [put, if_neg hfit]
    apply (hnext _ hlen h).trans
    rw [wrote, wrote, hlen, overwrite_cons h, List.length_cons, Nat.add_right_comm, Nat.add_assoc]
  · have hno : dest.length < off + [b].length := by
      rw [List.length_singleton]
      omega
    have hno' : dest.length < off + (b :: bs).length := by
      rw [List.length_cons]
      omega
    rw [put, if_pos hno, wrote, if_pos hno']
    rfl

section
variable {src pre post bs dest : List Byte} {pEnd fuel pDest : Nat} {c : Byte}

/-- A turn that takes one byte. -/
theorem urldecodeLoop_plain (hsrc : src = pre ++ c :: bs ++ post) (hlt : pre.length < pEnd)
    (hesc : ¬ (c = 37 ∧ pre.length + 2 < pEnd)) :
    urldecodeLoop src pEnd (fuel + 1) pre.length pDest dest =
      put dest pDest [if c = 43 then 32 else c] >>=
        urldecodeLoop src pEnd fuel (pre.length + 1) (pDest + 1) := by
  have hload : load src pre.length = .ok c := by
    rw [hsrc, List.append_assoc, List.cons_append]
    exact load_at rfl
  rw [urldecodeLoop, if_pos hlt, hload]
  change (if c = 37 ∧ pre.length + 2 < pEnd then _ else _) = _
  rw [if_neg hesc]
  split <;> rfl

/-- A turn that finds a `%` with two bytes behind it. -/
theorem urldecodeLoop_percent {h l : Byte} (hsrc : src = pre ++ 37 :: h :: l :: bs ++ post)
    (hlt : pre.length + 2 < pEnd) :
    urldecodeLoop src pEnd (fuel + 1) pre.length pDest dest =
      if isHexChar h && isHexChar l then
        put dest pDest [hexValue h <<< 4 ||| hexValue l] >>=
          urldecodeLoop src pEnd fuel (pre.length + 3) (pDest + 1)
      else put dest pDest [37] >>= urldecodeLoop src pEnd fuel (pre.length + 1) (pDest + 1) := by
  have hload : load src pre.length = .ok 37 := by
    rw [hsrc, List.append_assoc, List.cons_append]
    exact load_at rfl
  have hloadh : load src (pre.length + 1) = .ok h := by
    rw [hsrc, List.append_assoc, List.cons_append, List.append_cons]
    exact load_at (by simp)
  have hloadl : load src (pre.length + 2) = .ok l := by
    rw [hsrc, List.append_assoc, List.cons_append, List.append_cons, List.cons_append,
      List.append_cons]
    exact load_at (by simp)
  rw [urldecodeLoop, if_pos (by omega), hload]
  change (if 37 = (37 : Byte) ∧ pre.length + 2 < pEnd then _ else _) = _
  rw [if_pos ⟨rfl, hlt⟩, hloadh, hloadl]
  rfl

end

/-- Where `bs` is left to decode, whatever stands before and behind it, the loop writes `out`. -/
def Yields (bs out : List Byte) : Prop :=
  ∀ (src pre post : List Byte) (pEnd fuel pDest : Nat) (dest : List Byte),
    src = pre ++ bs ++ post → pEnd = pre.length + bs.length → bs.length ≤ fuel →
    pDest ≤ dest.length → urldecodeLoop src pEnd fuel pre.length pDest dest = wrote dest pDest out

section
variable {src pre post bs out dest : List Byte} {pEnd fuel pDest : Nat} {c h l : Byte}

theorem Yields.nil : Yields [] [] := by
  intro src pre post pEnd fuel pDest dest hsrc hend hfuel hdest
  rw [wrote_nil hdest]
  cases fuel with
  | zero => rfl
  | succ fuel => rw [urldecodeLoop, if_neg (by rw [hend]; exact Nat.lt_irrefl _)]

/-- The bytes of `front` are taken, and one byte is written for them. -/
theorem Yields.next (hy : Yields bs out) (front : List Byte) (b : Byte)
    (hsrc : src = pre ++ (front ++ bs) ++ post) (hend : pEnd = pre.length + (front ++ bs).length)
    (hfuel : bs.length ≤ fuel) :
    (put dest pDest [b] >>= urldecodeLoop src pEnd fuel (pre.length + front.length) (pDest + 1)) =
      wrote dest pDest (b :: out) := by
  apply put_wrote _
  intro dest' hlen hlt
  have hrec := hy src (pre ++ front) post pEnd fuel (pDest + 1) dest' (by simpa using hsrc)
    (by simpa [Nat.add_assoc] using hend) hfuel (by omega)
  rwa [List.length_append] at hrec

theorem Yields.plain (hy : Yields bs out) (hc : c ≠ 37 ∨ bs.length < 2) :
    Yields (c :: bs) ((if c = 43 then 32 else c) :: out) := by
  intro src pre post pEnd fuel pDest dest hsrc hend hfuel hdest
  rw [List.length_cons] at hend hfuel
  cases fuel with
  | zero => cases hfuel
  | succ fuel =>
    rw [urldecodeLoop_plain hsrc (by omega) (by rintro ⟨rfl, hlt⟩; exact hc.elim (· rfl) (by omega))]
    exact hy.next [c] _ hsrc hend (Nat.le_of_succ_le_succ hfuel)

theorem Yields.escape (hy : Yields bs out) (hhl : (isHexChar h && isHexChar l) = true) :
    Yields (37 :: h :: l :: bs) ((hexValue h <<< 4 ||| hexValue l) :: out) := by
  intro src pre post pEnd fuel pDest dest hsrc hend hfuel hdest
  rw [List.length_cons, List.length_cons, List.length_cons] at hend hfuel
  cases fuel with
  | zero => cases hfuel
  | succ fuel =>
    rw [urldecodeLoop_percent hsrc (by omega), if_pos hhl]
    exact hy.next [37, h, l] _ hsrc hend (by omega)

theorem Yields.not_escape (hy : Yields (h :: l :: bs) out)
    (hhl : (isHexChar h && isHexChar l) = false) : Yields (37 :: h :: l :: bs) (37 :: out) := by
  intro src pre post pEnd fuel pDest dest hsrc hend hfuel hdest
  rw [List.length_cons] at hfuel
  cases fuel with
  | zero => cases hfuel
  | succ fuel =>
    have hlt : pre.length + 2 < pEnd := by
      simp only [List.length_cons] at hend
      omega
    rw [urldecodeLoop_percent hsrc hlt, if_neg (by rw [hhl]; exact Bool.false_ne_true)]
    exact hy.next [37] _ hsrc hend (Nat.le_of_succ_le_succ hfuel)

end

theorem yields_decode (bs : List Byte) : Yields bs (decode bs) := by
  induction bs using decode.induct with
  | case1 => exact .nil
  | case2 c => exact Yields.nil.plain (.inr (by decide))
  | case3 c d => exact (Yields.nil.plain (.inr (by decide))).plain (.inr (by simp))
  | case4 h l bs hhl ih =>
    rw [decode, if_pos rfl, if_pos hhl]
    exact ih.escape hhl
  | case5 h l bs hhl ih =>
    rw [decode, if_pos rfl, if_neg hhl]
    exact ih.not_escape (Bool.eq_false_iff.mpr hhl)
  | case6 c h l bs hc ih =>
    rw [decode, if_neg hc]
    exact ih.plain (.inl hc)

/-- The decoded text and its NUL are written, and nothing else; that is in bounds exactly
when the destination has room for both. -/
theorem hpUrldecode_eq {src dest : List Byte} {srcLen : Nat} (hsrc : srcLen ≤ src.length) :
    hpUrldecode src srcLen dest =
      if (decode (src.take srcLen)).length < dest.length then
        .ok (Memmove.overwrite dest 0 (decode (src.take srcLen) ++ [0]),
          (decode (src.take srcLen)).length)
      else .error .write := by
  have hlen : (src.take srcLen).length = srcLen := List.length_take_of_le hsrc
  have hloop := yields_decode (src.take srcLen) src [] (src.drop srcLen) srcLen srcLen 0 dest
    (by rw [List.nil_append, List.take_append_drop]) (by rw [hlen, List.length_nil, Nat.zero_add])
    (Nat.le_of_eq hlen) (Nat.zero_le _)
  rw [List.length_nil] at hloop
  rw [hpUrldecode, urldecodeEx, hloop, wrote, Nat.zero_add]
  generalize decode (src.take srcLen) = out
  by_cases hfit : dest.length < out.length
  · rw [if_pos hfit, if_neg (by omega)]
    rfl
  · rw [if_neg hfit]
    have hover : (Memmove.overwrite dest 0 out).length = dest.length :=
      Memmove.length_overwrite (by omega)
    change (put (Memmove.overwrite dest 0 out) out.length [0] >>= fun d => .ok (d, out.length)) = _
    rw [put, hover, List.length_singleton]
    by_cases hroom : out.length < dest.length
    · rw [if_neg (by omega), if_pos hroom]
      have htake : (Memmove.overwrite dest 0 out).take (0 + out.length) = dest.take 0 ++ out :=
        Memmove.take_overwrite (Nat.zero_le _)
      rw [Nat.zero_add, List.take_zero, List.nil_append] at htake
      have hdrop : (Memmove.overwrite dest 0 out).drop (out.length + 1) =
          dest.drop (out.length + 1) := by
        rw [← List.drop_drop, Memmove.overwrite, List.take_zero, List.nil_append, List.drop_left,
          List.drop_drop, Nat.zero_add]
      simp only [Memmove.overwrite] at htake hdrop ⊢
      rw [htake, List.length_singleton, hdrop]
      simp [List.take_zero, bind, Except.bind]
    · rw [if_pos (by omega), if_neg hroom]
      rfl

/-- `ws` is a way to send `bs`: each byte as it is, as an escape, or as `+` if it is a space. -/
inductive Encodes : List Byte → List Byte → Prop where
  | nil : Encodes [] []
  | plain {c bs ws} : c ≠ 37 → c ≠ 43 → Encodes bs ws → Encodes (c :: bs) (c :: ws)
  | plus {bs ws} : Encodes bs ws → Encodes (32 :: bs) (43 :: ws)
  | escape {h l bs ws} : isHexChar h = true → isHexChar l = true → Encodes bs ws →
      Encodes ((hexValue h <<< 4 ||| hexValue l) :: bs) (37 :: h :: l :: ws)

theorem decode_encodes {bs ws : List Byte} (h : Encodes bs ws) : decode ws = bs := by
  induction h with
  | nil => rfl
  | plain hc hp _ ih => rw [decode_plain hc, if_neg hp, ih]
  | plus _ ih => rw [decode_plain (by decide), if_pos rfl, ih]
  | escape hh hl _ ih => rw [decode_escape hh hl, ih]

def hexDigit (d : Byte) : Byte := if d < 10 then 48 + d else 55 + d

/-- The encoder that leaves the bytes in `safe` as they are. -/
def urlencode (safe : Byte → Bool) (bs : List Byte) : List Byte :=
  bs.flatMap fun b => if safe b then [b] else [37, hexDigit (b >>> 4), hexDigit (b &&& 15)]

theorem hexDigit_value (b : Byte) :
    isHexChar (hexDigit (b >>> 4)) = true ∧ isHexChar (hexDigit (b &&& 15)) = true ∧
      hexValue (hexDigit (b >>> 4)) <<< 4 ||| hexValue (hexDigit (b &&& 15)) = b := by
  have hall : ∀ n : Fin 256, isHexChar (hexDigit (UInt8.ofFin n >>> 4)) = true ∧
      isHexChar (hexDigit (UInt8.ofFin n &&& 15)) = true ∧
      hexValue (hexDigit (UInt8.ofFin n >>> 4)) <<< 4 ||| hexValue (hexDigit (UInt8.ofFin n &&& 15)) =
        UInt8.ofFin n := by decide +kernel
  exact hall b.toFin

theorem encodes_urlencode {safe : Byte → Bool} (h37 : safe 37 = false) (h43 : safe 43 = false)
    (bs : List Byte) : Encodes bs (urlencode safe bs) := by
  induction bs with
  | nil => exact .nil
  | cons b bs ih =>
    rw [urlencode, List.flatMap_cons]
    by_cases hb : safe b = true
    · rw [if_pos hb]
      refine .plain ?_ ?_ ih
      · rintro rfl
        rw [h37] at hb
        cases hb
      · rintro rfl
        rw [h43] at hb
        cases hb
    · rw [if_neg hb]
      obtain ⟨hh, hl, hval⟩ := hexDigit_value b
      have henc := Encodes.escape hh hl ih
      rw [hval] at henc
      exact henc

/-- What a client has sent comes back with a NUL, if the destination has room for both; the
bytes around the source are not looked at. -/
theorem hpUrldecode_encodes {bs ws : List Byte} (henc : Encodes bs ws) (after dest : List Byte) :
    hpUrldecode (ws ++ after) ws.length dest =
      if bs.length < dest.length then
        .ok (Memmove.overwrite dest 0 (bs ++ [0]), bs.length)
      else .error .write := by
  rw [hpUrldecode_eq (by rw [List.length_append]; exact Nat.le_add_right _ _), List.take_left,
    decode_encodes henc]

/-- `a%` and `a b` in a block of their own size. -/
theorem hpUrldecode_encodes_percent :
    hpUrldecode [97, 37, 50, 53, 43, 98] 6 [1, 1, 1, 1, 1] = .ok ([97, 37, 32, 98, 0], 4) ∧
      hpUrldecode [97, 37, 50, 53, 43, 98] 6 [1, 1, 1, 1] = .error .write := by
  have henc : Encodes [97, 37, 32, 98] [97, 37, 50, 53, 43, 98] :=
    .plain (by decide) (by decide) (.escape (h := 50) (l := 53) (by decide) (by decide)
      (.plus (.plain (by decide) (by decide) .nil)))
  exact ⟨hpUrldecode_encodes henc [] [1, 1, 1, 1, 1], hpUrldecode_encodes henc [] [1, 1, 1, 1]⟩

end Libhp.Url
