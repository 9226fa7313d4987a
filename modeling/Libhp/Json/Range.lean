import Libhp.Json.Col
import Libhp.Str.Buf

/-!
# Ranges of a string

`cjson_sval` of `hp_cjson.c`: a key that ends in `[b,e]` asks for the characters from `b` to `e` of
a string, which are copied to `def`. As for the paths, `none` means that the behaviour is undefined.
-/
namespace Libhp.Json.Range
open CInt
open Libhp.Buf (Chars nul cstr ncopy)

/-- Besides the lookups: the string of a node, and whether it is an object or an array. -/
structure CJsonText (P : Type) extends CJson P where
  valuestring : P → Option Text
  nested : P → Bool
  no_nul : ∀ p s, valuestring p = some s → nul ∉ s

/-- What `cjson_sval` returns: `NULL`, `def`, the node's string or the node printed. -/
inductive Sval (P : Type) where
  | null
  | dflt
  | value (s : Text)
  | printed (json : P)

/-- `\[([0-9]+),([0-9]+)\]$` at the start of a text: the groups that it captures. -/
def rangeAt : Text → Option (Text × Text)
  | '[' :: rest =>
    match rest.dropWhile Char.isDigit with
    | ',' :: rest' =>
      let b := rest.takeWhile Char.isDigit
      let e := rest'.takeWhile Char.isDigit
      if b ≠ [] ∧ e ≠ [] ∧ rest'.dropWhile Char.isDigit = [']'] then some (b, e) else none
    | _ => none
  | _ => none

/-- The first match of the pattern: what stands before it, and the groups. -/
def regexec : Text → Option (Text × Text × Text)
  | [] => none
  | c :: cs =>
    match rangeAt (c :: cs) with
    | some groups => some ([], groups)
    | none => (regexec cs).map fun (k, groups) => (c :: k, groups)

/-- `data` is stored at the start of `def`, which may be `NULL`. -/
def store (data : Chars) : Option Chars → Option Chars
  | none => none
  | some buf => if data.length ≤ buf.length then some (Memmove.overwrite buf 0 data) else none

/-- The range of a string: what is left in `def`. -/
def copyRange (valuestring : Text) (b e : Int) (dflt : Option Chars) : Option (Option Chars) :=
  let n := toInt valuestring.length
  let b := if b < 0 then 0 else b
  if b > n - 1 then some dflt
  else
    let e := if e < 0 then 0 else e
    let e := if e > n - 1 then n - 1 else e
    if e < b then some dflt
    else
      let copied := ncopy (valuestring.drop b.toNat) (e + 1 - b).toNat
      (store (copied ++ [nul]) dflt).map some

section
variable {P : Type} (lib : CJsonText P) (sds : Sds)

/-- What is returned, and `def` afterwards. -/
def cjsonSval (cjson : Option P) (key : Option Text) (dflt : Option Chars) :
    Option (Sval P × Option Chars) :=
  match cjson, key with
  | some cjson, some key =>
    match regexec key with
    | some (k, b, e) =>
      (cjson_ lib.toCJson sds (some cjson) (some k)).bind fun json =>
        match json.bind lib.valuestring with
        | none => some (.dflt, dflt)
        | some valuestring =>
          (myatoi b).bind fun b => (myatoi e).bind fun e =>
            (copyRange valuestring b e dflt).map fun dflt => (.dflt, dflt)
    | none =>
      (cjson_ lib.toCJson sds (some cjson) (some key)).map fun json =>
        match json with
        | none => (.dflt, dflt)
        | some json =>
          if lib.nested json then (.printed json, dflt)
          else
            match lib.valuestring json with
            | some s => (.value s, dflt)
            | none => (.dflt, dflt)
  | _, _ => some (.null, dflt)

/-- The text that the caller finds, unless it is printed. -/
def textOf : Sval P × Option Chars → Option Text
  | (.dflt, some buf) => (cstr buf).toOption
  | (.value s, _) => some s
  | _ => none

def svalText (json : P) (key : Text) (buf : Chars) : Option Text :=
  (cjsonSval lib sds (some json) (some key) (some buf)).bind textOf

end

/-- `[b,e]` -/
def rangeKey (b e : Nat) : Text :=
  '[' :: (Nat.toDigits 10 b ++ ',' :: (Nat.toDigits 10 e ++ [']']))

/-- Ranges of the given lengths, one behind the other. -/
def rangesFrom : Nat → List Nat → List (Nat × Nat)
  | _, [] => []
  | b, len :: lens => (b, b + len - 1) :: rangesFrom (b + len) lens

/-- The texts that a caller finds who asks for the ranges of a path one after the other. -/
def readRanges {P : Type} (lib : CJsonText P) (sds : Sds) (json : P) (path : Text) (buf : Chars)
    (ranges : List (Nat × Nat)) : Option (List Text) :=
  ranges.mapM fun r => svalText lib sds json (path ++ rangeKey r.1 r.2) buf

theorem rangeAt_bracket {rest : Text} {m : Text × Text} (h : rangeAt ('[' :: rest) = some m) :
    '[' ∉ rest := by
  have hdigits : ∀ s : Text, '[' ∉ s.takeWhile Char.isDigit := fun s hin =>
    absurd (List.mem_takeWhile_imp hin) (by decide)
  rw [rangeAt] at h
  split at h
  · next rest' hrest =>
    dsimp only at h
    split at h
    · next hmatch =>
      rw [← List.takeWhile_append_dropWhile (p := Char.isDigit) (l := rest), hrest,
        ← List.takeWhile_append_dropWhile (p := Char.isDigit) (l := rest'), hmatch.2.2]
      simp [hdigits]
    · cases h
  · cases h

theorem rangeAt_key (b e : Nat) :
    rangeAt (rangeKey b e) = some (Nat.toDigits 10 b, Nat.toDigits 10 e) := by
  have hspan : ∀ (i : Nat) (c : Char) (s : Text), c.isDigit = false →
      (Nat.toDigits 10 i ++ c :: s).takeWhile Char.isDigit = Nat.toDigits 10 i ∧
        (Nat.toDigits 10 i ++ c :: s).dropWhile Char.isDigit = c :: s := by
    intro i c s hc
    have hall := isDigit_toDigits i
    rw [List.takeWhile_append_of_pos hall, List.dropWhile_append_of_pos hall,
      List.takeWhile_cons_of_neg (by simp [hc]), List.dropWhile_cons_of_neg (by simp [hc])]
    exact ⟨List.append_nil _, rfl⟩
  obtain ⟨htake, hdrop⟩ := hspan b ',' (Nat.toDigits 10 e ++ [']']) (by decide)
  obtain ⟨htake', hdrop'⟩ := hspan e ']' [] (by decide)
  rw [rangeKey, rangeAt, hdrop, htake]
  simp only [htake', hdrop']
  exact if_pos ⟨Nat.toDigits_ne_nil, Nat.toDigits_ne_nil, trivial⟩

/-- The range is found behind any path. -/
theorem regexec_key (path : Text) (b e : Nat) :
    regexec (path ++ rangeKey b e) = some (path, Nat.toDigits 10 b, Nat.toDigits 10 e) := by
  induction path with
  | nil =>
    have hat := rangeAt_key b e
    rw [List.nil_append, rangeKey] at *
    rw [regexec, hat]
  | cons c path ih =>
    rw [List.cons_append, regexec, ih]
    have hnone : rangeAt (c :: (path ++ rangeKey b e)) = none := by
      cases hat : rangeAt (c :: (path ++ rangeKey b e)) with
      | none => rfl
      | some m =>
        by_cases hc : c = '['
        · subst hc
          exact absurd (by simp [rangeKey]) (rangeAt_bracket hat)
        · unfold rangeAt at hat
          split at hat
          · next heq => exact absurd (List.cons.inj heq).1 hc
          · cases hat
    rw [hnone]
    rfl

section
variable {v : Text} {b e : Nat} {buf : Chars}

/-- Inside of the string and in their order, the ends are as given but for the last character. -/
theorem copyRange_eq (hlen : (v.length : Int) ≤ INT_MAX) (dflt : Option Chars) :
    copyRange v b e dflt =
      if b < v.length ∧ b ≤ e then
        (store ((v.drop b).take (e + 1 - b) ++ [nul]) dflt).map some
      else some dflt := by
  have hn : toInt v.length = v.length :=
    toInt_eq (by omega) (by rw [INT_MAX] at hlen; omega)
  unfold copyRange
  rw [hn]
  simp only [if_neg (Int.not_lt.mpr (Int.natCast_nonneg _))]
  by_cases hb : b < v.length
  · rw [if_neg (show ¬ (b : Int) > v.length - 1 by omega)]
    by_cases he : e < v.length
    · rw [if_neg (show ¬ (e : Int) > v.length - 1 by omega)]
      by_cases hbe : b ≤ e
      · have hcount : ((e : Int) + 1 - b).toNat = e + 1 - b := by omega
        rw [if_neg (by omega), if_pos ⟨hb, hbe⟩, hcount, Int.toNat_natCast,
          Libhp.Buf.ncopy_long (by rw [List.length_drop]; omega)]
      · rw [if_pos (by omega), if_neg (fun h => hbe h.2)]
    · have hcount : ((v.length : Int) - 1 + 1 - b).toNat = v.length - b := by omega
      rw [if_pos (show (e : Int) > v.length - 1 by omega), if_neg (by omega),
        if_pos ⟨hb, by omega⟩, hcount, Int.toNat_natCast,
        Libhp.Buf.ncopy_long (by rw [List.length_drop]), List.take_of_length_le,
        List.take_of_length_le]
      · rw [List.length_drop]
        omega
      · rw [List.length_drop]
  · rw [if_pos (by omega), if_neg (fun h => hb h.1)]

theorem cstr_store {s : Text} (hs : nul ∉ s) (hfits : s.length < buf.length) :
    ∃ buf', store (s ++ [nul]) (some buf) = some buf' ∧ cstr buf' = .ok s := by
  refine ⟨_, if_pos (by simpa using hfits), ?_⟩
  rw [Memmove.overwrite, List.take_zero, List.nil_append, List.append_assoc]
  exact Libhp.Buf.cstr_append hs _

end

section
variable {P : Type} {lib : CJsonText P} {sds : Sds}

/-- The characters from `b` to `e` of the string that a path leads to. -/
theorem svalText_range {json p : P} {path v : Text} {b e : Nat} {buf : Chars}
    (hpath : cjson_ lib.toCJson sds (some json) (some path) = some (some p))
    (hv : lib.valuestring p = some v) (hlen : (v.length : Int) ≤ INT_MAX) (he : (e : Int) ≤ INT_MAX)
    (hb : b ≤ e) (hbuf : e + 1 - b < buf.length) (hempty : cstr buf = .ok []) :
    svalText lib sds json (path ++ rangeKey b e) buf = some ((v.drop b).take (e + 1 - b)) := by
  have hmyatoi : ∀ i : Nat, (i : Int) ≤ INT_MAX → myatoi (Nat.toDigits 10 i) = some (i : Int) := by
    intro i hi
    rw [myatoi_eq, if_pos (indexFits_toDigits hi), indexValue_toDigits]
  have hsval : cjsonSval lib sds (some json) (some (path ++ rangeKey b e)) (some buf) =
      (copyRange v b e (some buf)).map fun dflt => (.dflt, dflt) := by
    rw [cjsonSval]
    simp only [regexec_key, hpath, Option.bind_some, hv]
    rw [hmyatoi b (by omega), hmyatoi e he]
    rfl
  rw [svalText, hsval, copyRange_eq hlen]
  by_cases hin : b < v.length
  · have hnul : nul ∉ (v.drop b).take (e + 1 - b) := fun h =>
      lib.no_nul p v hv (List.mem_of_mem_drop (List.mem_of_mem_take h))
    have hfits : ((v.drop b).take (e + 1 - b)).length < buf.length :=
      Nat.lt_of_le_of_lt (List.length_take_le _ _) hbuf
    obtain ⟨buf', hstore, hcstr⟩ := cstr_store hnul hfits
    rw [if_pos ⟨hin, hb⟩, hstore]
    show (cstr buf').toOption = _
    rw [hcstr]
    rfl
  · rw [if_neg (fun h => hin h.1), List.drop_eq_nil_iff.mpr (Nat.le_of_not_lt hin), List.take_nil]
    show (cstr buf).toOption = _
    rw [hempty]
    rfl

/-- Ranges one behind the other. -/
theorem svalText_ranges {json p : P} {path v : Text} {buf : Chars}
    (hpath : cjson_ lib.toCJson sds (some json) (some path) = some (some p))
    (hv : lib.valuestring p = some v) (hlen : (v.length : Int) ≤ INT_MAX)
    (hempty : cstr buf = .ok []) (lens : List Nat)
    (hlens : ∀ len ∈ lens, 0 < len ∧ len < buf.length) (b : Nat)
    (hfits : ((b + lens.sum : Nat) : Int) ≤ INT_MAX) :
    ∃ texts, readRanges lib sds json path buf (rangesFrom b lens) = some texts ∧
      texts.flatten = (v.drop b).take lens.sum := by
  induction lens generalizing b with
  | nil => exact ⟨[], rfl, by simp⟩
  | cons len lens ih =>
    obtain ⟨hpos, hroom⟩ := hlens len List.mem_cons_self
    rw [List.sum_cons] at hfits
    have hcount : b + len - 1 + 1 - b = len := by omega
    have hone := svalText_range (b := b) (e := b + len - 1) hpath hv hlen (by omega) (by omega)
      (hcount.symm ▸ hroom) hempty
    rw [hcount] at hone
    obtain ⟨texts, htexts, hflatten⟩ := ih (fun l hl => hlens l (List.mem_cons_of_mem _ hl))
      (b + len) (by rw [Nat.add_assoc]; exact hfits)
    refine ⟨(v.drop b).take len :: texts, ?_, ?_⟩
    · rw [readRanges] at htexts ⊢
      rw [rangesFrom, List.mapM_cons, hone, htexts]
      rfl
    · rw [List.flatten_cons, hflatten, List.sum_cons, ← List.drop_drop, List.take_add]

/-- A string that is read range by range, each into a buffer that has room for it and starts with
a NUL, is read whole: `cjson_sval` gives every character once, and nothing behind the last one. -/
theorem sval_ranges (lib : CJsonText P) (sds : Sds) (json p : P) (path v : Text) (buf : Chars)
    (lens : List Nat) (hpath : cjson_ lib.toCJson sds (some json) (some path) = some (some p))
    (hv : lib.valuestring p = some v) (hempty : cstr buf = .ok [])
    (hlens : ∀ len ∈ lens, 0 < len ∧ len < buf.length) (hsum : (lens.sum : Int) ≤ INT_MAX)
    (hall : v.length ≤ lens.sum) :
    ∃ texts, readRanges lib sds json path buf (rangesFrom 0 lens) = some texts ∧
      texts.flatten = v := by
  obtain ⟨texts, htexts, hflatten⟩ := svalText_ranges hpath hv (by omega) hempty lens hlens 0
    (by rwa [Nat.zero_add])
  refine ⟨texts, htexts, ?_⟩
  rw [hflatten, List.drop_zero, List.take_of_length_le hall]

end

/-- The member `id` is the string `abc`. -/
def idText : CJsonText Item where
  toCJson := treeLib
  valuestring p := if p.string = some ['i', 'd'] then some ['a', 'b', 'c'] else none
  nested p := p.string.isNone
  no_nul p s h := by
    split at h
    · cases h
      decide
    · cases h

theorem sval_ranges_id :
    ∃ texts, readRanges idText plainSds idTree ['i', 'd'] [nul, 'x', 'x'] [(0, 1), (2, 3)] =
      some texts ∧ texts.flatten = ['a', 'b', 'c'] :=
  sval_ranges idText plainSds idTree (.node (some ['i', 'd']) []) ['i', 'd'] ['a', 'b', 'c']
    [nul, 'x', 'x'] [2, 2] rfl rfl rfl (by decide) (by decide) (by decide)

end Libhp.Json.Range
