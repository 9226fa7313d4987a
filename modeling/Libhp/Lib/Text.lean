import Mathlib.Tactic

/-!
# Text on the wire

ASCII strings as bytes, decimal numbers, and lines that end in CRLF, each with what reads it
back; and the parts of a text that has been split.
-/
namespace Text

def ascii (s : String) : List UInt8 := s.toList.map fun c => UInt8.ofNat c.toNat

def crlf : List UInt8 := [13, 10]

def digit (d : Nat) : UInt8 := UInt8.ofNat (48 + d)

def decimal (n : Nat) : List UInt8 :=
  if n = 0 then [digit 0] else (Nat.digits 10 n).reverse.map digit

def toLower (b : UInt8) : UInt8 := if 65 ≤ b ∧ b ≤ 90 then b + 32 else b

def isDigit (b : UInt8) : Bool := 48 ≤ b.toNat && b.toNat ≤ 57

def readDecimal (bs : List UInt8) : Option Nat :=
  if bs ≠ [] ∧ bs.all isDigit then some (bs.foldl (fun n b => 10 * n + (b.toNat - 48)) 0) else none

/-- The bytes before the first CRLF and those after it. -/
def readLine : List UInt8 → Option (List UInt8 × List UInt8)
  | [] => none
  | b :: bs =>
    match b, bs with
    | 13, 10 :: rest => some ([], rest)
    | _, _ => (readLine bs).map fun (line, rest) => (b :: line, rest)

/-- The lines before the first empty one and what comes after it. -/
def readLines : Nat → List UInt8 → Option (List (List UInt8) × List UInt8)
  | 0, _ => none
  | fuel + 1, bs =>
    (readLine bs).bind fun (line, rest) =>
      if line = [] then some ([], rest)
      else (readLines fuel rest).map fun (lines, rest) => (line :: lines, rest)

/-- The parts that are not empty. -/
def nonempty {α : Type} (parts : List (List α)) : List (List α) := parts.filter fun p => p ≠ []

theorem nonempty_cons {α : Type} {p : List α} (hp : p ≠ []) (parts : List (List α)) :
    nonempty (p :: parts) = p :: nonempty parts := List.filter_cons_of_pos (by simpa using hp)

/-- A character below the letters has one case. -/
theorem toLower_eq_low {c : UInt8} (hc : c < 65) (a : UInt8) : toLower a = toLower c ↔ a = c := by
  have hlow := UInt8.lt_iff_toNat_lt.mp hc
  have hself : toLower c = c := if_neg fun h => UInt8.not_le.mpr hc h.1
  rw [hself, toLower]
  split
  · next h =>
    have hle := UInt8.le_iff_toNat_le.mp h.1
    have hle' := UInt8.le_iff_toNat_le.mp h.2
    rw [← UInt8.toNat_inj, ← UInt8.toNat_inj, UInt8.toNat_add]
    simp at hlow hle hle' ⊢
    omega
  · rfl

theorem toNat_digit {d : Nat} (h : d < 10) : (digit d).toNat = 48 + d := by
  unfold digit
  rw [UInt8.toNat_ofNat']
  omega

theorem isDigit_digit {d : Nat} (h : d < 10) : isDigit (digit d) = true := by
  unfold isDigit
  rw [toNat_digit h]
  simp only [Bool.and_eq_true, decide_eq_true_eq]
  omega

/-- A number's digits are digits. -/
theorem decimal_digits (n : Nat) : ∃ ds, decimal n = List.map digit ds ∧ ∀ d ∈ ds, d < 10 := by
  unfold decimal
  split
  · exact ⟨[0], rfl, by simp⟩
  · refine ⟨_, rfl, fun d hd => ?_⟩
    exact Nat.digits_lt_base (by decide) (List.mem_reverse.mp hd)

theorem decimal_ne_nil (n : Nat) : decimal n ≠ [] := by
  unfold decimal
  split
  · exact List.cons_ne_nil _ _
  · next h =>
    intro hnil
    rw [List.map_eq_nil_iff, List.reverse_eq_nil_iff] at hnil
    exact h (Nat.digits_eq_nil_iff_eq_zero.mp hnil)

theorem not_mem_decimal {b : UInt8} (hb : isDigit b = false) (n : Nat) : b ∉ decimal n := by
  obtain ⟨ds, hds, hlt⟩ := decimal_digits n
  rw [hds]
  intro hmem
  obtain ⟨d, hd, rfl⟩ := List.mem_map.mp hmem
  rw [isDigit_digit (hlt d hd)] at hb
  cases hb

theorem foldl_digits (ds : List Nat) (h : ∀ d ∈ ds, d < 10) :
    (ds.reverse.map digit).foldl (fun n b => 10 * n + (b.toNat - 48)) 0 = Nat.ofDigits 10 ds := by
  induction ds with
  | nil => rfl
  | cons d ds ih =>
    have hd := toNat_digit (h d List.mem_cons_self)
    rw [List.reverse_cons, List.map_append, List.foldl_append,
      ih fun x hx => h x (List.mem_cons_of_mem d hx), Nat.ofDigits_cons]
    show 10 * Nat.ofDigits 10 ds + ((digit d).toNat - 48) = _
    omega

/-- A number is read back. -/
theorem readDecimal_decimal (n : Nat) : readDecimal (decimal n) = some n := by
  have hall : (decimal n).all isDigit = true := by
    obtain ⟨ds, hds, hlt⟩ := decimal_digits n
    rw [hds, List.all_map, List.all_eq_true]
    exact fun d hd => isDigit_digit (hlt d hd)
  unfold readDecimal
  rw [if_pos ⟨decimal_ne_nil n, hall⟩]
  congr 1
  unfold decimal
  split
  · next h => rw [h]; rfl
  · rw [foldl_digits _ fun d hd => Nat.digits_lt_base (by decide) hd, Nat.ofDigits_digits]

/-- The number that a string of digits denotes, leading zeros allowed. -/
def value (bs : List UInt8) : Nat := bs.foldl (fun n b => 10 * n + (b.toNat - 48)) 0

theorem foldl_value (bs : List UInt8) (n : Nat) :
    bs.foldl (fun n b => 10 * n + (b.toNat - 48)) n = n * 10 ^ bs.length + value bs := by
  induction bs generalizing n with
  | nil => simp [value]
  | cons b bs ih =>
    rw [value, List.foldl_cons, List.foldl_cons, ih, ih (10 * 0 + (b.toNat - 48)), List.length_cons,
      Nat.pow_succ]
    ring

theorem value_cons (b : UInt8) (bs : List UInt8) :
    value (b :: bs) = (b.toNat - 48) * 10 ^ bs.length + value bs := by
  rw [value, List.foldl_cons, foldl_value, Nat.mul_zero, Nat.zero_add]

theorem isDigit_iff {b : UInt8} : isDigit b = true ↔ 48 ≤ b.toNat ∧ b.toNat ≤ 57 := by
  simp only [isDigit, Bool.and_eq_true, decide_eq_true_eq]

theorem value_lt {bs : List UInt8} (h : ∀ b ∈ bs, isDigit b = true) :
    value bs < 10 ^ bs.length := by
  induction bs with
  | nil => simp [value]
  | cons b bs ih =>
    have hrest := ih fun x hx => h x (List.mem_cons_of_mem b hx)
    have hb := isDigit_iff.mp (h b List.mem_cons_self)
    have hdigit : b.toNat - 48 ≤ 9 := by omega
    have hmul : (b.toNat - 48) * 10 ^ bs.length ≤ 9 * 10 ^ bs.length :=
      Nat.mul_le_mul_right _ hdigit
    rw [value_cons, List.length_cons, Nat.pow_succ]
    omega

/-- Strings of digits of one length are in order as texts exactly if they are as numbers. -/
theorem le_iff_value_le {as bs : List UInt8} (hlen : as.length = bs.length)
    (ha : ∀ b ∈ as, isDigit b = true) (hb : ∀ b ∈ bs, isDigit b = true) :
    as ≤ bs ↔ value as ≤ value bs := by
  induction as generalizing bs with
  | nil =>
    cases List.length_eq_zero_iff.mp hlen.symm
    exact iff_of_true (List.le_refl _) (Nat.le_refl _)
  | cons a as ih =>
    obtain ⟨b, bs, rfl⟩ : ∃ b bs', bs = b :: bs' := by
      cases bs with
      | nil => cases hlen
      | cons b bs => exact ⟨b, bs, rfl⟩
    have hlen' : as.length = bs.length := Nat.succ_injective hlen
    have hrest := ih hlen' (fun x hx => ha x (List.mem_cons_of_mem a hx))
      fun x hx => hb x (List.mem_cons_of_mem b hx)
    have hlt := value_lt fun x hx => ha x (List.mem_cons_of_mem a hx)
    have hlt' := value_lt fun x hx => hb x (List.mem_cons_of_mem b hx)
    have hda := isDigit_iff.mp (ha a List.mem_cons_self)
    have hdb := isDigit_iff.mp (hb b List.mem_cons_self)
    rw [List.cons_le_cons_iff, hrest, value_cons, value_cons, hlen', UInt8.lt_iff_toNat_lt]
    rw [hlen'] at hlt
    generalize 10 ^ bs.length = p at hlt hlt'
    rcases Nat.lt_trichotomy a.toNat b.toNat with hab | hab | hab
    · have hmul : (a.toNat - 48 + 1) * p ≤ (b.toNat - 48) * p :=
        Nat.mul_le_mul_right p (by omega)
      rw [Nat.add_mul] at hmul
      exact iff_of_true (.inl hab) (by omega)
    · have hsame : a = b := UInt8.toNat_inj.mp hab
      subst hsame
      simp
    · have hmul : (b.toNat - 48 + 1) * p ≤ (a.toNat - 48) * p :=
        Nat.mul_le_mul_right p (by omega)
      rw [Nat.add_mul] at hmul
      refine iff_of_false ?_ (by omega)
      rintro (h | ⟨rfl, -⟩)
      · omega
      · omega

/-- A line without CR is read back. -/
theorem readLine_crlf {line : List UInt8} (h : (13 : UInt8) ∉ line) (rest : List UInt8) :
    readLine (line ++ (crlf ++ rest)) = some (line, rest) := by
  induction line with
  | nil => rfl
  | cons b line ih =>
    have hb : b ≠ 13 := fun he => h (he ▸ List.mem_cons_self)
    have hrest := ih fun hm => h (List.mem_cons_of_mem b hm)
    rw [List.cons_append]
    unfold readLine
    split
    · next heq _ => exact absurd rfl hb
    · rw [hrest]
      rfl

/-- So are lines up to the empty one. -/
theorem readLines_crlf {lines : List (List UInt8)} (hcr : ∀ l ∈ lines, (13 : UInt8) ∉ l)
    (hne : ∀ l ∈ lines, l ≠ []) {fuel : Nat} (hfuel : lines.length < fuel) (rest : List UInt8) :
    readLines fuel (lines.flatMap (· ++ crlf) ++ (crlf ++ rest)) = some (lines, rest) := by
  induction lines generalizing fuel with
  | nil =>
    obtain ⟨fuel, rfl⟩ := Nat.exists_eq_add_of_lt hfuel
    rfl
  | cons line lines ih =>
    obtain ⟨fuel, rfl⟩ := Nat.exists_eq_add_of_lt (Nat.zero_lt_of_lt hfuel)
    rw [Nat.zero_add] at hfuel ⊢
    rw [List.flatMap_cons, List.append_assoc, List.append_assoc]
    unfold readLines
    rw [readLine_crlf (hcr line List.mem_cons_self), Option.bind_some]
    show (if line = [] then _ else Option.map _ (readLines fuel _)) = _
    rw [if_neg (hne line List.mem_cons_self),
      ih (fun l hl => hcr l (List.mem_cons_of_mem _ hl))
        (fun l hl => hne l (List.mem_cons_of_mem _ hl)) (Nat.lt_of_succ_lt_succ hfuel)]
    rfl

end Text
