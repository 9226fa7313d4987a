import Libhp.Lib.CInt
import Libhp.Lib.Text

/-!
# Paths into a JSON tree

`cjson_` of `hp_cjson.c`: a path is split at `/`, each segment at `|` into alternatives,
and an alternative may end in an array index. One variable holds the node reached so far
and what the alternatives have made of it. `none` as the result of a function of the code
means that its behaviour is undefined.
-/
namespace Libhp.Json
open CInt
open Text (nonempty nonempty_cons)

abbrev Text := List Char

/-- What is used of the cJSON library; the nodes are of any type, `none` is `NULL`. -/
structure CJson (P : Type) where
  getObjectItem : Option P → Text → Option P
  getArraySize : Option P → Int
  getArrayItem : Option P → Int → Option P
  objectItem_null : ∀ name, getObjectItem none name = none
  arrayItem_null : ∀ i, getArrayItem none i = none

/-- `sdssplitlen` with a separator of one character. -/
structure Sds where
  splitlen : Text → Char → List Text
  split_nil : ∀ c, splitlen [] c = []
  join : ∀ s c, s ≠ [] → [c].intercalate (splitlen s c) = s
  apart : ∀ s c, ∀ p ∈ splitlen s c, c ∉ p

def digitOf (c : Char) : Nat := c.toNat - 48

/-- The sum of `myatoi`, each term of which has to fit. -/
def myatoiSum : List Nat → Int → Option Int
  | [], r => some r
  | d :: ds, r =>
    if r + d * 10 ^ ds.length ≤ INT_MAX then myatoiSum ds (r + d * 10 ^ ds.length) else none

/-- Whether a number is negative, and what follows its sign. -/
def sign : Text → Bool × Text
  | '-' :: rest => (true, rest)
  | '+' :: rest => (false, rest)
  | s => (false, s)

def leadingDigits (s : Text) : List Nat := ((sign s).2.takeWhile Char.isDigit).map digitOf

/-- The digits are stored in an array of 64 before they are summed up. -/
def myatoi (s : Text) : Option Int :=
  let ints := leadingDigits s
  if ints.length ≤ 64 then (myatoiSum ints 0).map fun r => if (sign s).1 then -r else r
  else none

/-- `[+-]?[0-9]+` -/
def isIndex (s : Text) : Bool := !(sign s).2.isEmpty && (sign s).2.all Char.isDigit

/-- The pattern at the start of a text: the group that it captures. -/
def matchAt : Text → Option Text
  | '[' :: rest =>
    if rest.getLast? = some ']' ∧ isIndex rest.dropLast = true then some rest.dropLast else none
  | _ => none

/-- The first match of the pattern: what stands before it, and the group. -/
def regexec : Text → Option (Text × Text)
  | [] => none
  | c :: cs =>
    match matchAt (c :: cs) with
    | some group => some ([], group)
    | none => (regexec cs).map fun (name, group) => (c :: name, group)

def clamp (n b : Int) : Int :=
  let b := if b < 0 then 0 else b
  if b > n - 1 then n - 1 else b

section
variable {P : Type} (lib : CJson P)

/-- The end of the loop's body: a node is taken, and otherwise the one that the segment
started from is tried again, unless this was the last piece. -/
def settle (tmp : Option P) (last : Bool) (subjson : Option P) : Option P × Bool :=
  if subjson.isSome then (subjson, true) else (if last then subjson else tmp, false)

/-- One alternative, and whether the loop is left. -/
def altStep (tmp : Option P) (last : Bool) (subjson : Option P) (a : Text) :
    Option (Option P × Bool) :=
  if a = [] then some (subjson, false)
  else if ']' ∈ a then
    match regexec a with
    | some (name, group) =>
      let subjson := if name = [] then subjson else lib.getObjectItem subjson name
      if name ≠ [] ∧ subjson.isNone then some (subjson, false)
      else (myatoi group).map fun b =>
        settle tmp last (lib.getArrayItem subjson (clamp (lib.getArraySize subjson) b))
    | none => some (settle tmp last (lib.getObjectItem subjson a))
  else some (settle tmp last (lib.getObjectItem subjson a))

def altLoop (tmp : Option P) : List Text → Option P → Option (Option P)
  | [], subjson => some subjson
  | a :: rest, subjson =>
    (altStep lib tmp rest.isEmpty subjson a).bind fun (subjson, done) =>
      if done then some subjson else altLoop tmp rest subjson

variable (sds : Sds)

def segLoop : List Text → Option P → Option (Option P)
  | [], subjson => some subjson
  | s :: rest, subjson =>
    if s = [] then segLoop rest subjson
    else (altLoop lib subjson (sds.splitlen s '|') subjson).bind fun subjson =>
      if subjson.isNone then some none else segLoop rest subjson

def cjson_ (cjson : Option P) (key : Option Text) : Option (Option P) :=
  match cjson, key with
  | some cjson, some key => segLoop lib sds (sds.splitlen key '/') (some cjson)
  | _, _ => some none

/-- The alternatives that a loop tries, each with the node it is resolved against. -/
def tries (tmp : Option P) : List Text → Option P → List (Text × Option P)
  | [], _ => []
  | a :: rest, subjson =>
    (if a = [] then [] else [(a, subjson)]) ++
      match altStep lib tmp rest.isEmpty subjson a with
      | some (subjson, false) => tries tmp rest subjson
      | _ => []

end

section
variable {P : Type} (lib : CJson P) (sds : Sds)

/-- The number that a row of digits stands for. -/
def decimal : List Nat → Nat
  | [] => 0
  | d :: ds => d * 10 ^ ds.length + decimal ds

/-- The number that an index stands for. -/
def indexValue (group : Text) : Int :=
  if (sign group).1 then -(decimal (leadingDigits group)) else decimal (leadingDigits group)

/-- What an alternative selects from a node. -/
def resolve (t : P) (a : Text) : Option P :=
  match regexec a with
  | some (name, group) =>
    (if name = [] then some t else lib.getObjectItem (some t) name).bind fun array =>
      lib.getArrayItem (some array) (clamp (lib.getArraySize (some array)) (indexValue group))
  | none => lib.getObjectItem (some t) a

/-- The first alternative that resolves. -/
def select (t : P) (s : Text) : Option P :=
  (nonempty (sds.splitlen s '|')).findSome? (resolve lib t)

def segments (key : Text) : List Text := nonempty (sds.splitlen key '/')

/-- What a path means. -/
def meaning (json : P) (key : Text) : Option P := (segments sds key).foldlM (select lib sds) json

/-- One segment, from the node `t`: every alternative is resolved against `t`, and the
result is `NULL` if no alternative resolves. -/
structure FollowsAt (t : P) (alts : List Text) : Prop where
  defined : (altLoop lib (some t) alts (some t)).isSome
  against : ∀ b ∈ tries lib (some t) alts (some t), b.2 = some t
  null : (∀ a ∈ nonempty alts, resolve lib t a = none) →
    altLoop lib (some t) alts (some t) = some none

/-- The code gives a path its meaning, at the end and at every segment. -/
structure Follows (json : P) (key : Text) : Prop where
  value : cjson_ lib sds (some json) (some key) = some (meaning lib sds json key)
  each : ∀ before s after t, segments sds key = before ++ s :: after →
    segLoop lib sds before (some json) = some (some t) →
    FollowsAt lib t (sds.splitlen s '|')

/-- The index can be computed. -/
def IndexFits (group : Text) : Prop :=
  (leadingDigits group).length ≤ 64 ∧ (decimal (leadingDigits group) : Int) ≤ INT_MAX

instance (group : Text) : Decidable (IndexFits group) := inferInstanceAs (Decidable (_ ∧ _))

/-- `name[i]` without a member `name`. -/
def hollow (t : P) (a : Text) : Bool :=
  match regexec a with
  | some (name, _) => name ≠ [] && (lib.getObjectItem (some t) name).isNone
  | none => false

def AltFits (t : P) (a : Text) : Prop :=
  match regexec a with
  | some (_, group) => hollow lib t a = true ∨ IndexFits group
  | none => True

instance (t : P) (a : Text) : Decidable (AltFits lib t a) :=
  match h : regexec a with
  | some (_, group) =>
    decidable_of_iff (hollow lib t a = true ∨ IndexFits group) (by simp [AltFits, h])
  | none => isTrue (by simp [AltFits, h])

/-- The alternatives up to the first one that resolves: no index is too large, `name[i]`
without a member is the last one that is not empty, and unless it is, the last is not empty. -/
def Straight (t : P) : List Text → Prop
  | [] => True
  | a :: rest =>
    if a = [] then rest ≠ [] ∧ Straight t rest
    else AltFits lib t a ∧ ((resolve lib t a).isSome ∨
      if hollow lib t a then ∀ b ∈ rest, b = [] else Straight t rest)

/-- Each segment from the node that the ones before it mean. -/
def StraightPath : List Text → P → Prop
  | [], _ => True
  | s :: rest, t =>
    Straight lib t (sds.splitlen s '|') ∧
      ∀ u, select lib sds t s = some u → StraightPath rest u

end

theorem decimal_cons (d : Nat) (ds : List Nat) :
    decimal (d :: ds) = d * 10 ^ ds.length + decimal ds := rfl

theorem myatoiSum_eq (ds : List Nat) {r : Int} (hr : r ≤ INT_MAX) :
    myatoiSum ds r = if r + decimal ds ≤ INT_MAX then some (r + decimal ds) else none := by
  induction ds generalizing r with
  | nil => simp [myatoiSum, decimal, hr]
  | cons d ds ih =>
    have hsum : r + ((decimal (d :: ds) : Nat) : Int) =
        r + (d : Int) * 10 ^ ds.length + (decimal ds : Nat) := by
      rw [decimal_cons]
      push_cast
      ring
    unfold myatoiSum
    rw [hsum]
    by_cases hle : r + (d : Int) * 10 ^ ds.length ≤ INT_MAX
    · rw [if_pos hle, ih hle]
    · rw [if_neg hle, if_neg (by omega)]

/-- `myatoi` gives the number, as far as it can. -/
theorem myatoi_eq (group : Text) :
    myatoi group = if IndexFits group then some (indexValue group) else none := by
  have hsum := myatoiSum_eq (leadingDigits group) (show (0 : Int) ≤ INT_MAX by decide)
  rw [Int.zero_add] at hsum
  by_cases hfits : IndexFits group
  · rw [if_pos hfits]
    simp [myatoi, hsum, hfits.1, hfits.2, indexValue]
  · rw [if_neg hfits]
    by_cases hlen : (leadingDigits group).length ≤ 64
    · have hlarge : ¬ (decimal (leadingDigits group) : Int) ≤ INT_MAX := fun h => hfits ⟨hlen, h⟩
      simp [myatoi, hsum, hlarge]
    · simp [myatoi, hlen]

theorem matchAt_bracket {s group : Text} (h : matchAt s = some group) : ']' ∈ s := by
  unfold matchAt at h
  split at h
  · next rest =>
    split at h
    · next hmatch => exact List.mem_cons_of_mem _ (List.mem_of_getLast? hmatch.1)
    · cases h
  · cases h

/-- A text that matches has a bracket, so that the code looks for a match. -/
theorem regexec_bracket {s : Text} {m : Text × Text} (h : regexec s = some m) : ']' ∈ s := by
  induction s generalizing m with
  | nil => cases h
  | cons c cs ih =>
    unfold regexec at h
    split at h
    · next hmatch => exact matchAt_bracket hmatch
    · obtain ⟨m', hm', -⟩ := Option.map_eq_some_iff.mp h
      exact List.mem_cons_of_mem _ (ih hm')

section
variable {P : Type} {lib : CJson P} {t : P}

theorem resolve_hollow {a : Text} (h : hollow lib t a = true) : resolve lib t a = none := by
  unfold hollow at h
  unfold resolve
  cases hmatch : regexec a with
  | none =>
    rw [hmatch] at h
    cases h
  | some m =>
    rw [hmatch] at h
    obtain ⟨hname, hnone⟩ := (Bool.and_eq_true _ _).mp h
    simp only
    rw [if_neg (of_decide_eq_true hname), Option.isNone_iff_eq_none.mp hnone]
    rfl

theorem altFits_hollow {a : Text} (h : hollow lib t a = true) : AltFits lib t a := by
  unfold AltFits
  split
  · exact Or.inl h
  · trivial

/-- An alternative that is tried while the variable still holds the node. -/
theorem altStep_here (last : Bool) {a : Text} (ha : a ≠ []) :
    altStep lib (some t) last (some t) a =
      if hollow lib t a then some (none, false)
      else if AltFits lib t a then some (settle (some t) last (resolve lib t a)) else none := by
  unfold altStep
  rw [if_neg ha]
  cases hmatch : regexec a with
  | none =>
    have hresolve : resolve lib t a = lib.getObjectItem (some t) a := by simp [resolve, hmatch]
    have hhollow : hollow lib t a = false := by simp [hollow, hmatch]
    have hfits : AltFits lib t a := by simp [AltFits, hmatch]
    rw [hhollow, if_pos hfits, hresolve]
    simp
  | some m =>
    obtain ⟨name, group⟩ := m
    rw [if_pos (regexec_bracket hmatch)]
    have hindex : hollow lib t a = false → ∀ array,
        (if name = [] then some t else lib.getObjectItem (some t) name) = some array →
        ((myatoi group).map fun b => settle (some t) last
          (lib.getArrayItem (some array) (clamp (lib.getArraySize (some array)) b))) =
        if AltFits lib t a then some (settle (some t) last (resolve lib t a)) else none := by
      intro hhollow array harray
      have hfits : AltFits lib t a ↔ IndexFits group := by simp [AltFits, hmatch, hhollow]
      have hresolve : resolve lib t a = lib.getArrayItem (some array)
          (clamp (lib.getArraySize (some array)) (indexValue group)) := by
        simp only [resolve, hmatch, harray, Option.bind_some]
      rw [myatoi_eq, hresolve]
      by_cases hgroup : IndexFits group
      · rw [if_pos hgroup, if_pos (hfits.mpr hgroup)]
        rfl
      · rw [if_neg hgroup, if_neg (fun h => hgroup (hfits.mp h))]
        rfl
    by_cases hname : name = []
    · have hhollow : hollow lib t a = false := by simp [hollow, hmatch, hname]
      rw [hhollow, ← hindex hhollow t (if_pos hname)]
      simp [hname]
    · cases hmember : lib.getObjectItem (some t) name with
      | none =>
        have hhollow : hollow lib t a = true := by simp [hollow, hmatch, hname, hmember]
        rw [hhollow]
        simp [hname, hmember]
      | some array =>
        have hhollow : hollow lib t a = false := by simp [hollow, hmatch, hmember]
        rw [hhollow, ← hindex hhollow array (by rw [if_neg hname, hmember])]
        simp [hname, hmember]

theorem altLoop_cons (tmp : Option P) (a : Text) (rest : List Text) (subjson : Option P) :
    altLoop lib tmp (a :: rest) subjson =
      (altStep lib tmp rest.isEmpty subjson a).bind fun r =>
        if r.2 then some r.1 else altLoop lib tmp rest r.1 := rfl

theorem altStep_empty (tmp : Option P) (last : Bool) (subjson : Option P) :
    altStep lib tmp last subjson [] = some (subjson, false) := if_pos rfl

/-- Empty pieces change nothing. -/
theorem altLoop_blank (lib : CJson P) (tmp : Option P) {rest : List Text} (h : ∀ b ∈ rest, b = [])
    (subjson : Option P) :
    altLoop lib tmp rest subjson = some subjson ∧ tries lib tmp rest subjson = [] := by
  induction rest with
  | nil => exact ⟨rfl, rfl⟩
  | cons b rest ih =>
    obtain rfl := h b List.mem_cons_self
    obtain ⟨hloop, htries⟩ := ih fun b hb => h b (List.mem_cons_of_mem _ hb)
    refine ⟨?_, ?_⟩
    · rw [altLoop_cons, altStep_empty]
      exact hloop
    · unfold tries
      rw [if_pos rfl, altStep_empty]
      exact htries

/-- The first piece that is not empty is tried with what the variable holds. -/
theorem tries_first (lib : CJson P) (tmp : Option P) {rest : List Text}
    (h : ∃ b ∈ rest, b ≠ []) (subjson : Option P) : ∃ b, (b, subjson) ∈ tries lib tmp rest subjson := by
  induction rest with
  | nil =>
    obtain ⟨b, hb, -⟩ := h
    cases hb
  | cons b rest ih =>
    unfold tries
    by_cases hb : b = []
    · subst hb
      rw [if_pos rfl, altStep_empty]
      obtain ⟨b', hb', hne⟩ := h
      rcases List.mem_cons.mp hb' with rfl | hmem
      · exact absurd rfl hne
      · exact ih ⟨b', hmem, hne⟩
    · rw [if_neg hb]
      exact ⟨b, List.mem_append_left _ List.mem_cons_self⟩

/-- On a straight segment the loop selects the first alternative that resolves. -/
theorem altLoop_straight {alts : List Text} (hne : alts ≠ []) (h : Straight lib t alts) :
    altLoop lib (some t) alts (some t) = some ((nonempty alts).findSome? (resolve lib t)) ∧
      ∀ b ∈ tries lib (some t) alts (some t), b.2 = some t := by
  induction alts with
  | nil => exact absurd rfl hne
  | cons a rest ih =>
    unfold Straight at h
    by_cases ha : a = []
    · subst ha
      rw [if_pos rfl] at h
      obtain ⟨hloop, htries⟩ := ih h.1 h.2
      refine ⟨?_, ?_⟩
      · rw [altLoop_cons, altStep_empty]
        exact hloop
      · unfold tries
        rw [if_pos rfl, altStep_empty]
        exact htries
    · rw [if_neg ha] at h
      obtain ⟨hfits, hrest⟩ := h
      rw [altLoop_cons, nonempty_cons ha, List.findSome?_cons]
      unfold tries
      rw [if_neg ha, altStep_here _ ha]
      cases hhollow : hollow lib t a with
      | true =>
        rw [hhollow, resolve_hollow hhollow] at hrest
        have hblank : ∀ b ∈ rest, b = [] := hrest.resolve_left Bool.false_ne_true
        obtain ⟨hloop, htries⟩ := altLoop_blank lib (some t) hblank none
        have hnil : nonempty rest = [] :=
          List.filter_eq_nil_iff.mpr fun b hb => by simp [hblank b hb]
        rw [resolve_hollow hhollow, hnil]
        refine ⟨hloop, ?_⟩
        simp only [↓reduceIte, htries]
        simp
      | false =>
        rw [hhollow] at hrest
        simp only [Bool.false_eq_true, ↓reduceIte, if_pos hfits] at hrest ⊢
        cases hres : resolve lib t a with
        | some u =>
          refine ⟨rfl, ?_⟩
          simp [settle]
        | none =>
          rw [hres] at hrest
          have hstraight : Straight lib t rest := hrest.resolve_left Bool.false_ne_true
          cases rest with
          | nil =>
            refine ⟨rfl, ?_⟩
            simp [settle, tries]
          | cons b rest =>
            obtain ⟨hloop, htries⟩ := ih (List.cons_ne_nil _ _) hstraight
            refine ⟨hloop, fun c hc => ?_⟩
            rcases List.mem_append.mp hc with hc | hc
            · rw [List.mem_singleton.mp hc]
            · exact htries c hc

/-- Only a straight segment is followed. -/
theorem FollowsAt.straight {alts : List Text} (hne : alts ≠ []) (h : FollowsAt lib t alts) :
    Straight lib t alts := by
  induction alts with
  | nil => exact absurd rfl hne
  | cons a rest ih =>
    obtain ⟨hdef, hagainst, hnull⟩ := h
    rw [altLoop_cons] at hdef hnull
    unfold tries at hagainst
    unfold Straight
    by_cases ha : a = []
    · subst ha
      rw [if_pos rfl, altStep_empty] at hagainst
      rw [altStep_empty] at hdef hnull
      rw [if_pos rfl]
      have hrest : rest ≠ [] := by
        rintro rfl
        exact absurd (hnull fun a ha => nomatch ha) (by simp [altLoop])
      exact ⟨hrest, ih hrest ⟨hdef, hagainst, hnull⟩⟩
    · rw [if_neg ha, altStep_here _ ha] at hagainst
      rw [altStep_here _ ha] at hdef hnull
      rw [if_neg ha]
      rw [nonempty_cons ha] at hnull
      cases hhollow : hollow lib t a with
      | true =>
        rw [hhollow] at hagainst
        refine ⟨altFits_hollow hhollow, Or.inr ?_⟩
        rw [if_pos rfl]
        by_contra hlater
        push Not at hlater
        obtain ⟨b, hb⟩ := tries_first lib (some t) hlater none
        exact absurd (hagainst _ (List.mem_append_right _ hb)) (Option.some_ne_none t).symm
      | false =>
        rw [hhollow] at hagainst hdef hnull
        simp only [Bool.false_eq_true, ↓reduceIte] at hagainst hdef hnull ⊢
        by_cases hfits : AltFits lib t a
        · simp only [if_pos hfits, Option.bind_some] at hagainst hdef hnull
          refine ⟨hfits, ?_⟩
          cases hres : resolve lib t a with
          | some u => exact Or.inl rfl
          | none =>
            rw [hres] at hagainst hdef hnull
            apply Or.inr
            cases rest with
            | nil => trivial
            | cons b rest =>
              refine ih (List.cons_ne_nil _ _) ⟨hdef, fun c hc => ?_, fun hnone => ?_⟩
              · exact hagainst c (List.mem_append_right _ hc)
              · apply hnull
                intro c hc
                rcases List.mem_cons.mp hc with rfl | hc
                · exact hres
                · exact hnone c hc
        · rw [if_neg hfits] at hdef
          cases hdef

variable {sds : Sds}

theorem splitlen_ne {s : Text} (hs : s ≠ []) (c : Char) : sds.splitlen s c ≠ [] := by
  intro h
  have hjoin := sds.join s c hs
  rw [h] at hjoin
  exact hs hjoin.symm

theorem followsAt_iff {s : Text} (hs : s ≠ []) :
    FollowsAt lib t (sds.splitlen s '|') ↔ Straight lib t (sds.splitlen s '|') := by
  constructor
  · exact fun h => h.straight (splitlen_ne hs '|')
  · intro h
    obtain ⟨hloop, hagainst⟩ := altLoop_straight (splitlen_ne hs '|') h
    refine ⟨by rw [hloop]; rfl, hagainst, fun hnull => ?_⟩
    rw [hloop, List.findSome?_eq_none_iff.mpr hnull]

theorem segLoop_cons (s : Text) (rest : List Text) (subjson : Option P) :
    segLoop lib sds (s :: rest) subjson =
      if s = [] then segLoop lib sds rest subjson
      else (altLoop lib subjson (sds.splitlen s '|') subjson).bind fun subjson =>
        if subjson.isNone then some none else segLoop lib sds rest subjson := rfl

/-- On a straight segment the code selects what the segment means. -/
theorem segLoop_straight {s : Text} (hs : s ≠ []) (h : Straight lib t (sds.splitlen s '|'))
    (rest : List Text) :
    segLoop lib sds (s :: rest) (some t) =
      (select lib sds t s).elim (some none) fun u => segLoop lib sds rest (some u) := by
  have hloop := (altLoop_straight (splitlen_ne hs '|') h).1
  rw [segLoop_cons, if_neg hs, hloop]
  show (if (select lib sds t s).isNone then some none
    else segLoop lib sds rest (select lib sds t s)) = _
  cases select lib sds t s with
  | none => rfl
  | some u => rfl

/-- Empty segments change nothing. -/
theorem segLoop_nonempty (segs : List Text) (subjson : Option P) :
    segLoop lib sds segs subjson = segLoop lib sds (nonempty segs) subjson := by
  induction segs generalizing subjson with
  | nil => rfl
  | cons s rest ih =>
    by_cases hs : s = []
    · subst hs
      exact ih subjson
    · rw [nonempty_cons hs]
      rw [segLoop_cons, segLoop_cons, if_neg hs, if_neg hs]
      simp only [ih]

theorem segLoop_meaning {segs : List Text} (hsegs : ∀ s ∈ segs, s ≠ [])
    (h : StraightPath lib sds segs t) :
    segLoop lib sds segs (some t) = some (segs.foldlM (select lib sds) t) := by
  induction segs generalizing t with
  | nil => rfl
  | cons s rest ih =>
    rw [segLoop_straight (hsegs s List.mem_cons_self) h.1, List.foldlM_cons]
    cases hsel : select lib sds t s with
    | none => rfl
    | some u => exact ih (fun s' hs' => hsegs s' (List.mem_cons_of_mem _ hs')) (h.2 u hsel)

/-- Every segment is followed from where the code comes to it exactly if the path is
straight. -/
theorem each_iff {segs : List Text} (hsegs : ∀ s ∈ segs, s ≠ []) :
    (∀ before s after u, segs = before ++ s :: after →
      segLoop lib sds before (some t) = some (some u) →
      FollowsAt lib u (sds.splitlen s '|')) ↔ StraightPath lib sds segs t := by
  induction segs generalizing t with
  | nil =>
    refine iff_of_true (fun before s after u h => ?_) trivial
    cases before <;> cases h
  | cons s rest ih =>
    have hs := hsegs s List.mem_cons_self
    have hrest : ∀ s' ∈ rest, s' ≠ [] := fun s' hs' => hsegs s' (List.mem_cons_of_mem _ hs')
    constructor
    · intro h
      have hstraight := (followsAt_iff hs).mp (h [] s rest t rfl rfl)
      refine ⟨hstraight, fun u hu => (ih hrest).mp fun before s' after v hsplit hreach => ?_⟩
      apply h (s :: before) s' after v (by rw [hsplit]; rfl)
      rw [segLoop_straight hs hstraight, hu]
      exact hreach
    · intro ⟨hstraight, hnext⟩ before s' after u hsplit hreach
      cases before with
      | nil =>
        cases hsplit
        cases hreach
        exact (followsAt_iff hs).mpr hstraight
      | cons b before =>
        cases hsplit
        rw [segLoop_straight hs hstraight] at hreach
        cases hsel : select lib sds t s with
        | none =>
          rw [hsel] at hreach
          cases hreach
        | some v =>
          rw [hsel] at hreach
          exact (ih hrest).mpr (hnext v hsel) before s' after u rfl hreach

theorem segments_nonempty (key : Text) : ∀ s ∈ segments sds key, s ≠ [] := by
  intro s hs
  exact of_decide_eq_true (List.mem_filter.mp hs).2

/-- A path has its meaning, at its end and segment by segment, exactly if it is straight. -/
theorem path_meaning (lib : CJson P) (sds : Sds) (json : P) (key : Text) :
    Follows lib sds json key ↔ StraightPath lib sds (segments sds key) json := by
  constructor
  · exact fun h => (each_iff (segments_nonempty key)).mp h.each
  · intro h
    refine ⟨?_, (each_iff (segments_nonempty key)).mpr h⟩
    show segLoop lib sds _ _ = _
    rw [segLoop_nonempty]
    exact segLoop_meaning (segments_nonempty key) h

end

section

/-- A JSON value with the name that it has in its object, if it is in one. -/
inductive Item where
  | node (string : Option Text) (children : List Item)

def Item.string : Item → Option Text
  | .node s _ => s

def Item.children : Item → List Item
  | .node _ kids => kids

/-- The lookups of cJSON on a tree: names are compared without regard to case. -/
def treeLib : CJson Item where
  getObjectItem json name := json.bind fun j =>
    j.children.find? fun k => k.string.map (·.map Char.toLower) = some (name.map Char.toLower)
  getArraySize json := json.elim 0 fun j => j.children.length
  getArrayItem json i := json.bind fun j => if i < 0 then none else j.children[i.toNat]?
  objectItem_null := fun _ => rfl
  arrayItem_null := fun _ => rfl

theorem splitOn_apart (s : Text) (c : Char) : ∀ p ∈ s.splitOn c, c ∉ p := by
  induction s with
  | nil =>
    intro p hp
    rw [List.splitOn_nil, List.mem_singleton] at hp
    subst hp
    exact List.not_mem_nil
  | cons x s ih =>
    intro p hp
    rw [List.splitOn_cons_eq_if_modifyHead] at hp
    by_cases hx : x = c
    · rw [if_pos (beq_iff_eq.mpr hx)] at hp
      rcases List.mem_cons.mp hp with rfl | hp
      · exact List.not_mem_nil
      · exact ih p hp
    · rw [if_neg (fun h => hx (beq_iff_eq.mp h))] at hp
      cases hsplit : s.splitOn c with
      | nil => exact absurd hsplit (List.splitOn_ne_nil c s)
      | cons q rest =>
        rw [hsplit] at hp ih
        rcases List.mem_cons.mp hp with rfl | hp
        · intro hmem
          rcases List.mem_cons.mp hmem with h | hmem
          · exact hx h.symm
          · exact ih q List.mem_cons_self hmem
        · exact ih p (List.mem_cons_of_mem _ hp)

def plainSds : Sds where
  splitlen s c := if s = [] then [] else s.splitOn c
  split_nil := fun _ => rfl
  join := fun s c hs => by rw [if_neg hs, List.intercalate_splitOn]
  apart := fun s c p hp => by
    by_cases hs : s = []
    · rw [if_pos hs] at hp
      cases hp
    · rw [if_neg hs] at hp
      exact splitOn_apart s c p hp

/-- An object with one member `id`. -/
def idTree : Item := .node none [.node (some ['i', 'd']) []]

/-- `x[0]|id` finds nothing where the member `id` is, and `x|` the object itself where
there is no member `x`. -/
theorem path_astray :
    (cjson_ treeLib plainSds (some idTree) (some ['x', '[', '0', ']', '|', 'i', 'd']) = some none ∧
      (meaning treeLib plainSds idTree ['x', '[', '0', ']', '|', 'i', 'd']).isSome ∧
      ¬ Follows treeLib plainSds idTree ['x', '[', '0', ']', '|', 'i', 'd']) ∧
    cjson_ treeLib plainSds (some idTree) (some ['x', '|']) = some (some idTree) ∧
      meaning treeLib plainSds idTree ['x', '|'] = none ∧
      ¬ Follows treeLib plainSds idTree ['x', '|'] := by
  refine ⟨⟨rfl, rfl, fun h => ?_⟩, rfl, rfl, fun h => ?_⟩
  · have hvalue := h.value
    change some none = some (some _) at hvalue
    cases hvalue
  · have hvalue := h.value
    change some (some idTree) = some none at hvalue
    cases hvalue

end
end Libhp.Json
