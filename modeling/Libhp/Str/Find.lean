import Libhp.Json.Cjson
import Libhp.Str.Mem
import Mathlib.Data.List.TakeWhile

/-!
# Searching a list of integers

`myatoi` and `hp_str_find` of `hp_str.c`, with every read and write checked: the digits of a
number go into an array of 64, the numbers of a list into one of 256. A pointer is the list of
the characters that may be read from it on.
-/
namespace Libhp.Str
open CInt
open Libhp.Json (Text digitOf myatoiSum decimal leadingDigits indexValue IndexFits)
open Text (nonempty)

/-- The loop of `myatoi` over `len` characters, with the digits stored so far. -/
def collect : Nat → Text → List Nat → Except Fault (List Nat)
  | 0, _, ints => .ok ints
  | _ + 1, [], _ => .error .read
  | len + 1, c :: p, ints =>
    if c.isDigit then
      if ints.length < 64 then collect len p (ints ++ [digitOf c]) else .error .write
    else .ok ints

/-- `myatoi`, where `none` is `NULL`. -/
def myatoi (str : Option Text) (len : Nat) : Except Fault Int :=
  match str with
  | none => .ok 0
  -- `str[0]` is read before `len` is looked at
  | some [] => .error .read
  | some (c :: rest) =>
    if c = '\x00' ∨ len = 0 then .ok 0
    else
      let f := c = '-'
      let (str, len) := if c = '+' ∨ c = '-' then (rest, len - 1) else (c :: rest, len)
      match collect len str [] with
      | .error e => .error e
      | .ok ints =>
        match myatoiSum ints 0 with
        | none => .error .overflow
        | some r => .ok (if f then -r else r)

/-- One item of the list: `len` characters from `p` on. -/
def storeItem (p : Text) (len : Nat) (protos : List Int) : Except Fault (List Int) :=
  if len > 0 then
    match myatoi (some p) len with
    | .error e => .error e
    | .ok r => if protos.length < 256 then .ok (protos ++ [r]) else .error .write
  else .ok protos

/-- The loop of `hp_str_find`. -/
def findLoop (p : Text) (protos : List Int) : Except Fault (List Int) :=
  match storeItem p (p.takeWhile (· ≠ ',')).length protos with
  | .error e => .error e
  | .ok protos =>
    match _h : p.dropWhile (· ≠ ',') with
    | [] => .ok protos
    | _ :: rest => findLoop rest protos
termination_by p.length
decreasing_by
  have hlen := (List.dropWhile_suffix (l := p) fun c => decide (c ≠ ',')).length_le
  rw [_h, List.length_cons] at hlen
  omega

/-- `hp_str_find` -/
def hpStrFind (val : Int) (str : Option Text) : Except Fault Int :=
  match str with
  | none => .ok 0
  | some [] => .ok 0
  | some (c :: rest) =>
    match findLoop (c :: rest) [] with
    | .error e => .error e
    | .ok protos => .ok (if val ∈ protos then 1 else 0)

/-- The digits are read inside of the given length, and there is room for 64 of them. -/
theorem collect_eq {len : Nat} {p : Text} (hlen : len ≤ p.length) {ints : List Nat}
    (hints : ints.length ≤ 64) :
    collect len p ints =
      if ints.length + ((p.take len).takeWhile Char.isDigit).length ≤ 64 then
        .ok (ints ++ ((p.take len).takeWhile Char.isDigit).map digitOf)
      else .error .write := by
  induction len generalizing p ints with
  | zero => simp [collect, hints]
  | succ len ih =>
    cases p with
    | nil => simp at hlen
    | cons c p =>
      rw [collect, List.take_succ_cons]
      by_cases hc : c.isDigit = true
      · rw [if_pos hc, List.takeWhile_cons_of_pos hc, List.length_cons, List.map_cons]
        by_cases hroom : ints.length < 64
        · have hnext : (ints ++ [digitOf c]).length ≤ 64 := by simpa using hroom
          rw [if_pos hroom, ih (by simpa using hlen) hnext, List.length_append,
            List.length_singleton, List.append_assoc, List.singleton_append, Nat.add_assoc,
            Nat.add_comm 1]
        · rw [if_neg hroom, if_neg (by omega)]
      · rw [if_neg hc, List.takeWhile_cons_of_neg hc]
        simp [hints]

theorem collect_nil {len : Nat} {p : Text} (hlen : len ≤ p.length) :
    collect len p [] =
      if (((p.take len).takeWhile Char.isDigit).map digitOf).length ≤ 64 then
        .ok (((p.take len).takeWhile Char.isDigit).map digitOf)
      else .error .write := by
  have h := collect_eq hlen (show ([] : List Nat).length ≤ 64 by decide)
  rwa [List.length_nil, Nat.zero_add, List.nil_append, ← List.length_map] at h

/-- `myatoi` looks at the sign as the meaning of a number does. -/
theorem sign_cons (c : Char) (rest : Text) :
    Libhp.Json.sign (c :: rest) =
      (decide (c = '-'), if c = '+' ∨ c = '-' then rest else c :: rest) := by
  by_cases hminus : c = '-'
  · subst hminus
    rfl
  · by_cases hplus : c = '+'
    · subst hplus
      rfl
    · rw [if_neg (by simp [hplus, hminus]), decide_eq_false hminus, Libhp.Json.sign]
      · exact fun _ h => hminus (List.cons.inj h).1
      · exact fun _ h => hplus (List.cons.inj h).1

/-- The digits are those of the characters within the given length. -/
theorem collect_digits {c : Char} {p : Text} {len : Nat} (hlen : len ≤ p.length) :
    (if c = '+' ∨ c = '-' then collect len p [] else collect (len + 1) (c :: p) []) =
      if (leadingDigits (c :: p.take len)).length ≤ 64 then .ok (leadingDigits (c :: p.take len))
      else .error .write := by
  rw [leadingDigits, sign_cons]
  by_cases hsign : c = '+' ∨ c = '-'
  · rw [if_pos hsign, if_pos hsign, collect_nil hlen]
  · rw [if_neg hsign, if_neg hsign, collect_nil (by simpa using hlen), List.take_succ_cons]

theorem myatoi_cons {c : Char} {p : Text} {len : Nat} (hnul : c ≠ '\x00') :
    myatoi (some (c :: p)) (len + 1) =
      match (if c = '+' ∨ c = '-' then collect len p [] else collect (len + 1) (c :: p) []) with
      | .error e => .error e
      | .ok ints =>
        match myatoiSum ints 0 with
        | none => .error .overflow
        | some r => .ok (if c = '-' then -r else r) := by
  rw [myatoi, if_neg (by simp [hnul])]
  by_cases hsign : c = '+' ∨ c = '-'
  · simp only [if_pos hsign, Nat.add_sub_cancel]
  · simp only [if_neg hsign]

/-- `myatoi` reads the given length only and gives the number, as far as it can. -/
theorem myatoi_cases {p : Text} {len : Nat} (hpos : 0 < len) (hlen : len ≤ p.length) :
    IndexFits (p.take len) ∧ myatoi (some p) len = .ok (indexValue (p.take len)) ∨
      ¬ IndexFits (p.take len) ∧ ∃ e, myatoi (some p) len = .error e := by
  obtain ⟨c, p, rfl⟩ := List.exists_cons_of_length_pos (Nat.lt_of_lt_of_le hpos hlen)
  obtain ⟨len, rfl⟩ : ∃ k, len = k + 1 := ⟨len - 1, by omega⟩
  rw [List.take_succ_cons, indexValue, IndexFits]
  by_cases hnul : c = '\x00'
  · subst hnul
    left
    have hdigits : leadingDigits ('\x00' :: p.take len) = [] := rfl
    have hsign : (Libhp.Json.sign ('\x00' :: p.take len)).1 = false := rfl
    rw [hdigits, hsign, myatoi, if_pos (.inl rfl)]
    exact ⟨by decide, rfl⟩
  · rw [myatoi_cons hnul, collect_digits (by simpa using hlen)]
    generalize hints : leadingDigits (c :: p.take len) = ints
    have hsum := Libhp.Json.myatoiSum_eq ints (show (0 : Int) ≤ INT_MAX by decide)
    rw [Int.zero_add] at hsum
    by_cases hroom : ints.length ≤ 64
    · rw [if_pos hroom]
      dsimp only
      rw [hsum, sign_cons]
      by_cases hvalue : (decimal ints : Int) ≤ INT_MAX
      · left
        rw [if_pos hvalue]
        refine ⟨⟨hroom, hvalue⟩, ?_⟩
        simp
      · right
        rw [if_neg hvalue]
        exact ⟨fun h => hvalue h.2, _, rfl⟩
    · right
      rw [if_neg hroom]
      exact ⟨fun h => hroom h.1, _, rfl⟩

/-- On a string that is read whole this is the `myatoi` of the paths into JSON. -/
theorem myatoi_ok_iff {s : Text} (hs : s ≠ []) (r : Int) :
    myatoi (some s) s.length = .ok r ↔ Libhp.Json.myatoi s = some r := by
  have hcases := myatoi_cases (List.length_pos_of_ne_nil hs) le_rfl
  rw [List.take_length] at hcases
  rw [Libhp.Json.myatoi_eq]
  rcases hcases with ⟨hfits, hok⟩ | ⟨hover, e, herr⟩
  · rw [hok, if_pos hfits, Except.ok.injEq, Option.some.injEq]
  · rw [herr, if_neg hover]
    simp

/-- The items that are not empty. -/
def items (p : Text) : List Text := nonempty (p.splitOn ',')

theorem not_mem_item (p : Text) : ',' ∉ p.takeWhile (· ≠ ',') := by
  intro hmem
  simpa using List.mem_takeWhile_imp hmem

/-- The last item. -/
theorem splitOn_last {p : Text} (h : p.dropWhile (· ≠ ',') = []) :
    p.splitOn ',' = [p.takeWhile (· ≠ ',')] := by
  have hp := List.takeWhile_append_dropWhile (p := (· ≠ ',')) (l := p)
  rw [h, List.append_nil] at hp
  rw [hp]
  exact List.splitOn_eq_singleton (hp ▸ not_mem_item p)

/-- The loop cuts off an item at a comma. -/
theorem splitOn_more {p rest : Text} {c : Char} (h : p.dropWhile (· ≠ ',') = c :: rest) :
    p.splitOn ',' = p.takeWhile (· ≠ ',') :: rest.splitOn ',' := by
  have hc : c = ',' := by
    have hhead := List.head?_dropWhile_not (· ≠ ',') p
    rw [h] at hhead
    simpa using hhead
  have hp := List.takeWhile_append_dropWhile (p := (· ≠ ',')) (l := p)
  rw [h, hc] at hp
  calc p.splitOn ',' = (p.takeWhile (· ≠ ',') ++ ',' :: rest).splitOn ',' := by rw [hp]
    _ = p.takeWhile (· ≠ ',') :: rest.splitOn ',' :=
      List.splitOn_append_cons_self_of_not_mem (not_mem_item p) rest

/-- The array has room for the items, and each of them can be computed. -/
def ListFits (xs : List Text) (protos : List Int) : Prop :=
  protos.length + xs.length ≤ 256 ∧ ∀ x ∈ xs, IndexFits x

/-- An item is stored if it can be computed and there is room for it. -/
theorem storeItem_cases {p item : Text} (hitem : item <+: p) {protos : List Int}
    (hprotos : protos.length ≤ 256) :
    ListFits (nonempty [item]) protos ∧
        storeItem p item.length protos = .ok (protos ++ (nonempty [item]).map indexValue) ∨
      ¬ ListFits (nonempty [item]) protos ∧ ∃ e, storeItem p item.length protos = .error e := by
  by_cases hnil : item = []
  · have hxs : nonempty [item] = [] := by simp [nonempty, hnil]
    left
    rw [hxs, hnil]
    exact ⟨⟨hprotos, by simp⟩, by simp [storeItem]⟩
  · have hxs : nonempty [item] = [item] := by simp [nonempty, hnil]
    have hpos := List.length_pos_of_ne_nil hnil
    have hcases := myatoi_cases hpos hitem.length_le
    rw [← List.prefix_iff_eq_take.mp hitem] at hcases
    rw [hxs, storeItem, if_pos hpos]
    rcases hcases with ⟨hfits, hok⟩ | ⟨hover, e, herr⟩
    · rw [hok]
      dsimp only
      by_cases hroom : protos.length < 256
      · left
        rw [if_pos hroom]
        refine ⟨⟨hroom, by simpa using hfits⟩, rfl⟩
      · right
        rw [if_neg hroom]
        exact ⟨fun h => hroom h.1, _, rfl⟩
    · right
      rw [herr]
      exact ⟨fun h => hover (h.2 item List.mem_cons_self), e, rfl⟩

theorem listFits_append (xs ys : List Text) (protos : List Int) :
    ListFits (xs ++ ys) protos ↔
      ListFits xs protos ∧ ListFits ys (protos ++ xs.map indexValue) := by
  simp only [ListFits, List.length_append, List.length_map, List.mem_append]
  constructor
  · intro ⟨hlen, hall⟩
    exact ⟨⟨by omega, fun x hx => hall x (.inl hx)⟩, by omega, fun x hx => hall x (.inr hx)⟩
  · intro ⟨⟨_, hxs⟩, hlen, hys⟩
    exact ⟨by omega, fun x hx => hx.elim (hxs x) (hys x)⟩

/-- The loop stores the values of the items, as far as it can. -/
theorem findLoop_cases (p : Text) {protos : List Int} (hprotos : protos.length ≤ 256) :
    ListFits (items p) protos ∧
        findLoop p protos = .ok (protos ++ (items p).map indexValue) ∨
      ¬ ListFits (items p) protos ∧ ∃ e, findLoop p protos = .error e := by
  induction hn : p.length using Nat.strong_induction_on generalizing p protos with
  | _ n ih =>
    have hstore := storeItem_cases (List.takeWhile_prefix (l := p) fun c => decide (c ≠ ',')) hprotos
    rw [findLoop]
    rcases hstore with ⟨hfits, hok⟩ | ⟨hover, e, herr⟩
    · rw [hok]
      dsimp only
      split
      · next hdrop =>
        left
        rw [items, splitOn_last hdrop]
        exact ⟨hfits, rfl⟩
      · next c rest hdrop =>
        have hsplit : items p = nonempty [p.takeWhile (· ≠ ',')] ++ items rest := by
          rw [items, splitOn_more hdrop, ← List.singleton_append, nonempty, List.filter_append]
          rfl
        have hshort : rest.length < n := by
          have hlen := (List.dropWhile_suffix (l := p) fun c => decide (c ≠ ',')).length_le
          rw [hdrop, List.length_cons] at hlen
          omega
        have hroom : (protos ++ (nonempty [p.takeWhile (· ≠ ',')]).map indexValue).length ≤ 256 := by
          rw [List.length_append, List.length_map]
          exact hfits.1
        rw [hsplit, listFits_append, List.map_append, ← List.append_assoc]
        rcases ih rest.length hshort rest hroom rfl with ⟨hrest, hok'⟩ | ⟨hover, e, herr⟩
        · exact .inl ⟨⟨hfits, hrest⟩, hok'⟩
        · exact .inr ⟨fun h => hover h.2, e, herr⟩
    · right
      rw [herr]
      refine ⟨fun h => hover ?_, e, rfl⟩
      cases hdrop : p.dropWhile (· ≠ ',') with
      | nil => rwa [items, splitOn_last hdrop] at h
      | cons c rest =>
        rw [items, splitOn_more hdrop, ← List.singleton_append, nonempty, List.filter_append] at h
        exact ((listFits_append _ _ protos).mp h).1

/-- For every string: `myatoi` gives its number, reading only the given length, exactly where
there is something to read, at most 64 digits and a value whose size an `int` holds; and
`hp_str_find` tells whether a value is that of an item exactly where this holds for each item
that is not empty and there are at most 256 of them. -/
theorem find_iff (s : Text) :
    (myatoi (some s) s.length = .ok (indexValue s) ↔ s ≠ [] ∧ IndexFits s) ∧
      ∀ val, hpStrFind val (some s) = .ok (if ∃ x ∈ items s, indexValue x = val then 1 else 0) ↔
        (items s).length ≤ 256 ∧ ∀ x ∈ items s, IndexFits x := by
  constructor
  · by_cases hnil : s = []
    · subst hnil
      exact iff_of_false (by simp [myatoi]) (by simp)
    · have hcases := myatoi_cases (List.length_pos_of_ne_nil hnil) le_rfl
      rw [List.take_length] at hcases
      rw [and_iff_right hnil]
      rcases hcases with ⟨hfits, hok⟩ | ⟨hover, e, herr⟩
      · exact iff_of_true hok hfits
      · rw [herr]
        exact iff_of_false (by simp) hover
  · intro val
    have hnone : ListFits (items s) [] ↔ (items s).length ≤ 256 ∧ ∀ x ∈ items s, IndexFits x := by
      rw [ListFits, List.length_nil, Nat.zero_add]
    rw [← hnone]
    cases s with
    | nil =>
      have hitems : items [] = [] := by decide
      rw [hitems]
      exact iff_of_true (by simp [hpStrFind]) ⟨by decide, by simp⟩
    | cons c rest =>
      rw [hpStrFind]
      have hempty : ([] : List Int).length ≤ 256 := by decide
      rcases findLoop_cases (c :: rest) hempty with ⟨hfits, hok⟩ | ⟨hover, e, herr⟩
      · rw [hok]
        refine iff_of_true ?_ hfits
        simp
      · rw [herr]
        exact iff_of_false (by simp) hover

/-- `"-2147483648"` -/
def intMin : Text := ['-', '2', '1', '4', '7', '4', '8', '3', '6', '4', '8']

/-- The smallest `int` overflows before its sign is put on, and 65 digits do not fit the array,
zeros or not. -/
theorem numbers_lost :
    myatoi (some intMin) 11 = .error .overflow ∧
      myatoi (some (List.replicate 65 '0')) 65 = .error .write ∧
      ∀ r, hpStrFind (-2147483648) (some intMin) ≠ .ok r := by
  refine ⟨by decide +kernel, by decide +kernel, fun r h => ?_⟩
  have hempty : ([] : List Int).length ≤ 256 := by decide
  rw [intMin, hpStrFind] at h
  rcases findLoop_cases intMin hempty with ⟨hfits, -⟩ | ⟨-, e, herr⟩
  · exact absurd hfits.2 (by decide +kernel)
  · rw [intMin] at herr
    rw [herr] at h
    cases h

end Libhp.Str
