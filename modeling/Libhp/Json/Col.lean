import Libhp.Str.Vercmp
import Mathlib.Data.List.TakeWhile

/-!
# A column of a JSON array

`cjson_col` of `hp_cjson.c`: the path is cut at its last `/`, the node before it is looked up
once, and the rest of the path behind the index of each of its children. What is found is copied
with `cJSON_Duplicate`, without its children.
-/
namespace Libhp.Json
open CInt
open Libhp.Str (splitlen_eq)
open Text (nonempty_cons)

/-- Besides the lookups: the children of a node, which cJSON counts with an `int`, what else there
is in it (type, string, number, name), and `cJSON_Duplicate(_, 0)`. -/
structure CJsonTree (P V : Type) extends CJson P where
  children : P → List P
  value : P → V
  duplicate : P → P
  few : ∀ p, ((children p).length : Int) ≤ INT_MAX
  size_eq : ∀ p, getArraySize (some p) = (children p).length
  item_eq : ∀ p (i : Nat), getArrayItem (some p) i = (children p)[i]?
  duplicate_value : ∀ p, value (duplicate p) = value p
  duplicate_children : ∀ p, children (duplicate p) = []

/-- What stands before and behind the last `c`. -/
def strrchr (c : Char) : Text → Option (Text × Text)
  | [] => none
  | x :: xs =>
    match strrchr c xs with
    | some (front, back) => some (x :: front, back)
    | none => if x = c then some ([], xs) else none

/-- `"[%d]/%s"` -/
def indexed (i : Nat) (p : Text) : Text := '[' :: (Nat.toDigits 10 i ++ ']' :: '/' :: p)

section
variable {P V : Type} (lib : CJsonTree P V) (sds : Sds)

/-- The loop of `cjson_col` over the children `obj`, from the `i`-th on. -/
def colLoop (arr : P) (p : Text) : List P → Nat → List P → Option (Option (List P))
  | [], _, json => some (some json)
  | _ :: rest, i, json =>
    (cjson_ lib.toCJson sds (some arr) (some (indexed i p))).bind fun
      | none => some none
      | some col => colLoop arr p rest (i + 1) (json ++ [lib.duplicate col])

/-- `cjson_col`: the elements of the new array. -/
def cjsonCol (cjson : Option P) (key : Option Text) : Option (Option (List P)) :=
  match cjson, key with
  | some cjson, some key =>
    match strrchr '/' key with
    | some (k, p) => (cjson_ lib.toCJson sds (some cjson) (some k)).bind fun
      | none => some none
      | some arr => colLoop lib sds arr p (lib.children arr) 0 []
    | none => colLoop lib sds cjson key (lib.children cjson) 0 []
  | _, _ => some none

/-- Equal as JSON values, down to the leaves. -/
inductive DeepEqual : P → P → Prop
  | node {x y : P} (hvalue : lib.value x = lib.value y)
      (hchildren : List.Forall₂ DeepEqual (lib.children x) (lib.children y)) : DeepEqual x y

/-- `prefix/name` or `name` -/
def columnKey : Option Text → Text → Text
  | some k, name => k ++ '/' :: name
  | none, name => name

/-- `cjson_(json, prefix)`, or `json` itself. -/
def columnArray (json : P) : Option Text → Option (Option P)
  | some k => cjson_ lib.toCJson sds (some json) (some k)
  | none => some (some json)

/-- The children of a node that may be `NULL`. -/
def rows (arr : Option P) : List P := arr.elim [] lib.children

/-- `NULL` exactly if there is no array or a cell is missing, and otherwise an array of the
cells. -/
def Collects (arr : Option P) (cells : List (Option P)) (r : Option (Option (List P))) : Prop :=
  ∃ json, r = some json ∧ (json = none ↔ arr = none ∨ none ∈ cells) ∧
    ∀ items, json = some items →
      List.Forall₂ (fun item cell => ∃ c, cell = some c ∧ DeepEqual lib item c) items cells

end

theorem strrchr_none {c : Char} {s : Text} (h : c ∉ s) : strrchr c s = none := by
  induction s with
  | nil => rfl
  | cons x s ih =>
    rw [List.mem_cons, not_or] at h
    rw [strrchr, ih h.2]
    exact if_neg fun heq => h.1 heq.symm

theorem strrchr_append (front : Text) {c : Char} {back : Text} (h : c ∉ back) :
    strrchr c (front ++ c :: back) = some (front, back) := by
  induction front with
  | nil =>
    rw [List.nil_append, strrchr, strrchr_none h]
    exact if_pos rfl
  | cons x front ih => rw [List.cons_append, strrchr, ih]

theorem sign_digit {c : Char} (hc : c.isDigit = true) (s : Text) :
    sign (c :: s) = (false, c :: s) := by
  rw [sign]
  · rintro rest ⟨⟩
    exact absurd hc (by decide)
  · rintro rest ⟨⟩
    exact absurd hc (by decide)

theorem sign_digits (i : Nat) : sign (Nat.toDigits 10 i) = (false, Nat.toDigits 10 i) := by
  cases h : Nat.toDigits 10 i with
  | nil => exact absurd h Nat.toDigits_ne_nil
  | cons c s =>
    have hc : c ∈ Nat.toDigits 10 i := h ▸ List.mem_cons_self
    exact sign_digit (Nat.isDigit_of_mem_toDigits (by decide) (by decide) hc) s

theorem isDigit_toDigits (i : Nat) : ∀ c ∈ Nat.toDigits 10 i, c.isDigit = true :=
  fun _ hc => Nat.isDigit_of_mem_toDigits (by decide) (by decide) hc

theorem leadingDigits_toDigits (i : Nat) :
    leadingDigits (Nat.toDigits 10 i) = (Nat.toDigits 10 i).map digitOf := by
  rw [leadingDigits, sign_digits, List.takeWhile_eq_self_iff.mpr (isDigit_toDigits i)]

theorem ofDigitChars_decimal (s : Text) : Nat.ofDigitChars 10 s 0 = decimal (s.map digitOf) := by
  induction s with
  | nil => rfl
  | cons c s ih =>
    rw [Nat.ofDigitChars_cons, Nat.ofDigitChars_eq_ofDigitChars_zero, ih, List.map_cons,
      decimal_cons, List.length_map, Nat.mul_zero, Nat.zero_add, Nat.mul_comm]
    rfl

theorem indexValue_toDigits (i : Nat) : indexValue (Nat.toDigits 10 i) = i := by
  rw [indexValue, sign_digits, leadingDigits_toDigits, ← ofDigitChars_decimal,
    Nat.ofDigitChars_ten_toDigits]
  rfl

theorem indexFits_toDigits {i : Nat} (h : (i : Int) ≤ INT_MAX) : IndexFits (Nat.toDigits 10 i) := by
  rw [IndexFits, leadingDigits_toDigits, List.length_map, ← ofDigitChars_decimal,
    Nat.ofDigitChars_ten_toDigits]
  refine ⟨(Nat.length_toDigits_le_iff (by decide) (by decide)).mpr ?_, h⟩
  have hlt : i ≤ 2147483647 := by rw [INT_MAX] at h; omega
  omega

theorem regexec_index (i : Nat) :
    regexec ('[' :: (Nat.toDigits 10 i ++ [']'])) = some ([], Nat.toDigits 10 i) := by
  have hindex : isIndex (Nat.toDigits 10 i) = true := by
    rw [isIndex, sign_digits]
    simpa using isDigit_toDigits i
  have hmatch : matchAt ('[' :: (Nat.toDigits 10 i ++ [']'])) = some (Nat.toDigits 10 i) := by
    rw [matchAt, List.dropLast_concat, if_pos ⟨List.getLast?_concat, hindex⟩]
  rw [regexec, hmatch]

section
variable {P V : Type} {lib : CJsonTree P V} {sds : Sds}

theorem clamp_of_lt {i n : Nat} (h : i < n) : clamp n i = i := by
  unfold clamp
  rw [if_neg (by omega), if_neg (by omega)]

/-- An index that is the place of a child selects that child. -/
theorem resolve_index {arr c : P} {i : Nat} (hc : (lib.children arr)[i]? = some c) :
    resolve lib.toCJson arr ('[' :: (Nat.toDigits 10 i ++ [']'])) = some c := by
  obtain ⟨hi, -⟩ := List.getElem?_eq_some_iff.mp hc
  rw [resolve, regexec_index]
  simp only [if_true, Option.bind_some]
  rw [indexValue_toDigits, lib.size_eq, clamp_of_lt hi, lib.item_eq, hc]

theorem splitlen_single {s : Text} (hs : s ≠ []) {c : Char} (hc : c ∉ s) :
    sds.splitlen s c = [s] := by
  rw [splitlen_eq hs, List.splitOn_eq_singleton hc]

theorem not_mem_index {x : Char} (hx : x.isDigit = false) (hopen : x ≠ '[') (hclose : x ≠ ']')
    (i : Nat) : x ∉ '[' :: (Nat.toDigits 10 i ++ [']']) := by
  have hdigits : x ∉ Nat.toDigits 10 i := fun h => by
    rw [isDigit_toDigits i x h] at hx
    cases hx
  simp [hopen, hclose, hdigits]

/-- The path behind an index is looked up in the child that has it. -/
theorem cjson_indexed {arr c : P} {i : Nat} (hc : (lib.children arr)[i]? = some c) {p : Text}
    (hp : '/' ∉ p) :
    cjson_ lib.toCJson sds (some arr) (some (indexed i p)) =
      cjson_ lib.toCJson sds (some c) (some p) := by
  have hlt : (i : Int) ≤ INT_MAX := by
    obtain ⟨hi, -⟩ := List.getElem?_eq_some_iff.mp hc
    have hfew := lib.few arr
    omega
  have hindex : '[' :: (Nat.toDigits 10 i ++ [']']) ≠ [] := List.cons_ne_nil _ _
  have hslash := not_mem_index (x := '/') (by decide) (by decide) (by decide) i
  have hbar := not_mem_index (x := '|') (by decide) (by decide) (by decide) i
  have hsplit : sds.splitlen (indexed i p) '/' = ['[' :: (Nat.toDigits 10 i ++ [']']), p] := by
    have happ : indexed i p = '[' :: (Nat.toDigits 10 i ++ [']']) ++ '/' :: p := by
      simp [indexed]
    rw [happ, splitlen_eq (by simp), List.splitOn_append_cons_self_of_not_mem hslash,
      List.splitOn_eq_singleton hp]
  have hstraight : Straight lib.toCJson arr
      (sds.splitlen ('[' :: (Nat.toDigits 10 i ++ [']'])) '|') := by
    rw [splitlen_single hindex hbar, Straight, if_neg hindex, resolve_index hc]
    refine ⟨?_, Or.inl rfl⟩
    rw [AltFits, regexec_index]
    exact Or.inr (indexFits_toDigits hlt)
  have hselect : select lib.toCJson sds arr ('[' :: (Nat.toDigits 10 i ++ [']'])) = some c := by
    rw [select, splitlen_single hindex hbar, nonempty_cons hindex, List.findSome?_cons,
      resolve_index hc]
  show segLoop lib.toCJson sds _ _ = segLoop lib.toCJson sds _ _
  rw [hsplit, segLoop_straight hindex hstraight, hselect, Option.elim_some]
  by_cases hnil : p = []
  · rw [hnil, sds.split_nil]
    exact segLoop_nonempty [[]] (some c)
  · rw [splitlen_single hnil hp]

/-- A round of the loop looks at the next child. -/
theorem colLoop_cons {arr c : P} {p : Text} (hp : '/' ∉ p) {rest : List P} {i : Nat}
    (hdrop : (lib.children arr).drop i = c :: rest) {cell : Option P}
    (hcell : cjson_ lib.toCJson sds (some c) (some p) = some cell) (json : List P) :
    (lib.children arr).drop (i + 1) = rest ∧
      colLoop lib sds arr p (c :: rest) i json =
        cell.elim (some none) fun col =>
          colLoop lib sds arr p rest (i + 1) (json ++ [lib.duplicate col]) := by
  have hc : (lib.children arr)[i]? = some c := by rw [← List.head?_drop, hdrop, List.head?_cons]
  refine ⟨by rw [← List.drop_drop, hdrop, List.drop_one, List.tail_cons], ?_⟩
  rw [colLoop, cjson_indexed hc hp, hcell, Option.bind_some]
  cases cell <;> rfl

/-- A missing cell ends the loop with `NULL`. -/
theorem colLoop_missing {arr : P} {p : Text} (hp : '/' ∉ p) {rest : List P}
    {cells : List (Option P)} (hcells : List.Forall₂ (fun c cell =>
      cjson_ lib.toCJson sds (some c) (some p) = some cell) rest cells) (hnone : none ∈ cells) :
    ∀ (i : Nat) (json : List P), (lib.children arr).drop i = rest →
      colLoop lib sds arr p rest i json = some none := by
  induction hcells with
  | nil => exact absurd hnone List.not_mem_nil
  | @cons c cell rest cells hcell _ ih =>
    intro i json hdrop
    obtain ⟨hrest, hround⟩ := colLoop_cons hp hdrop hcell json
    rw [hround]
    cases cell with
    | none => rfl
    | some col => exact ih ((List.mem_cons.mp hnone).resolve_left (by simp)) (i + 1) _ hrest

/-- Otherwise the cells are copied in order. -/
theorem colLoop_found {arr : P} {p : Text} (hp : '/' ∉ p) {rest cols : List P}
    (hcols : List.Forall₂ (fun c col =>
      cjson_ lib.toCJson sds (some c) (some p) = some (some col)) rest cols) :
    ∀ (i : Nat) (json : List P), (lib.children arr).drop i = rest →
      colLoop lib sds arr p rest i json = some (some (json ++ cols.map lib.duplicate)) := by
  induction hcols with
  | nil =>
    intro i json _
    rw [List.map_nil, List.append_nil]
    rfl
  | @cons c col rest cols hcell _ ih =>
    intro i json hdrop
    obtain ⟨hrest, hround⟩ := colLoop_cons hp hdrop hcell json
    rw [hround, List.map_cons, List.append_cons]
    exact ih (i + 1) _ hrest

/-- A copy without children is the same value exactly if there were none. -/
theorem deepEqual_duplicate (lib : CJsonTree P V) (c : P) :
    DeepEqual lib (lib.duplicate c) c ↔ lib.children c = [] := by
  constructor
  · intro ⟨_, hchildren⟩
    rw [lib.duplicate_children] at hchildren
    exact List.forall₂_nil_left_iff.mp hchildren
  · intro h
    apply DeepEqual.node (lib.duplicate_value c)
    rw [lib.duplicate_children, h]
    exact List.Forall₂.nil

/-- `cjson_col` by the node before the last `/`. -/
theorem cjsonCol_eq (json : P) (pre : Option Text) {name : Text} (hname : '/' ∉ name)
    {arr : Option P} (harr : columnArray lib sds json pre = some arr) :
    cjsonCol lib sds (some json) (some (columnKey pre name)) =
      arr.elim (some none) fun arr => colLoop lib sds arr name (lib.children arr) 0 [] := by
  cases pre with
  | none =>
    cases harr
    simp only [cjsonCol, columnKey, strrchr_none hname, Option.elim_some]
  | some k =>
    have hfound : cjson_ lib.toCJson sds (some json) (some k) = some arr := harr
    simp only [cjsonCol, columnKey, strrchr_append k hname, hfound, Option.bind_some]
    cases arr <;> rfl

theorem cells_cases (cells : List (Option P)) :
    none ∈ cells ∨ ∃ cols : List P, cells = cols.map some := by
  induction cells with
  | nil => exact Or.inr ⟨[], rfl⟩
  | cons cell cells ih =>
    cases cell with
    | none => exact Or.inl List.mem_cons_self
    | some col =>
      rcases ih with h | ⟨cols, rfl⟩
      · exact Or.inl (List.mem_cons_of_mem _ h)
      · exact Or.inr ⟨col :: cols, rfl⟩

/-- A column is collected exactly if a cell is missing or no cell found has children. -/
theorem collects_iff (lib : CJsonTree P V) (sds : Sds) (json : P) (pre : Option Text)
    (name : Text) (hname : '/' ∉ name) (arr : Option P)
    (harr : columnArray lib sds json pre = some arr) (cells : List (Option P))
    (hcells : List.Forall₂ (fun c cell =>
      cjson_ lib.toCJson sds (some c) (some name) = some cell) (rows lib arr) cells) :
    Collects lib arr cells (cjsonCol lib sds (some json) (some (columnKey pre name))) ↔
      none ∈ cells ∨ ∀ c, some c ∈ cells → lib.children c = [] := by
  rw [cjsonCol_eq json pre hname harr]
  cases arr with
  | none =>
    cases hcells
    refine iff_of_true ⟨none, rfl, by simp, by simp⟩ (Or.inr (by simp))
  | some arr =>
    change List.Forall₂ _ (lib.children arr) cells at hcells
    rw [Option.elim_some]
    rcases cells_cases cells with hnone | ⟨cols, rfl⟩
    · rw [colLoop_missing hname hcells hnone 0 [] rfl]
      exact iff_of_true ⟨none, rfl, by simp [hnone], by simp⟩ (Or.inl hnone)
    · have hcols := List.forall₂_map_right_iff.mp hcells
      rw [colLoop_found hname hcols 0 [] rfl, List.nil_append]
      have hitems : List.Forall₂ (fun item cell => ∃ c, cell = some c ∧ DeepEqual lib item c)
          (cols.map lib.duplicate) (cols.map some) ↔ ∀ c ∈ cols, lib.children c = [] := by
        rw [List.forall₂_map_left_iff, List.forall₂_map_right_iff, List.forall₂_same]
        apply forall₂_congr
        intro c _
        rw [← deepEqual_duplicate lib c]
        simp
      simp only [Collects, Option.some.injEq, exists_eq_left', reduceCtorEq, false_iff,
        forall_eq', hitems]
      simp

end

/-- A node of `{"a":[{"n":"x"}],"b":[{"n":["x"]}]}`, or a copy of it without its children. -/
structure Spot where
  index : Fin 8
  bare : Bool
  deriving DecidableEq

def Spot.whole (i : Fin 8) : Spot := ⟨i, false⟩

def Spot.children (s : Spot) : List Spot :=
  if s.bare then []
  else
    match s.index with
    | 0 => [whole 1, whole 4]
    | 1 => [whole 2]
    | 2 => [whole 3]
    | 4 => [whole 5]
    | 5 => [whole 6]
    | 6 => [whole 7]
    | _ => []

def Spot.name (s : Spot) : Option Text :=
  match s.index with
  | 1 => some ['a']
  | 4 => some ['b']
  | 3 | 6 => some ['n']
  | _ => none

def spots : CJsonTree Spot (Fin 8) where
  getObjectItem json name := json.bind fun j =>
    j.children.find? fun k => k.name.map (·.map Char.toLower) = some (name.map Char.toLower)
  getArraySize json := json.elim 0 fun j => j.children.length
  getArrayItem json i := json.bind fun j => if i < 0 then none else j.children[i.toNat]?
  objectItem_null _ := rfl
  arrayItem_null _ := rfl
  children := Spot.children
  value s := s.index
  duplicate s := ⟨s.index, true⟩
  few := by
    intro ⟨i, b⟩
    revert i b
    decide
  size_eq _ := rfl
  item_eq s i := by
    rw [Option.bind_some, if_neg (Int.not_lt.mpr (Int.natCast_nonneg i)), Int.toNat_natCast]
  duplicate_value _ := rfl
  duplicate_children _ := rfl

theorem collects_strings :
    Collects spots (some (Spot.whole 1)) [some (Spot.whole 3)]
      (cjsonCol spots plainSds (some (Spot.whole 0)) (some (columnKey (some ['a']) ['n']))) :=
  (collects_iff spots plainSds (Spot.whole 0) (some ['a']) ['n'] (by decide)
    (some (Spot.whole 1)) rfl [some (Spot.whole 3)]
    (List.Forall₂.cons rfl List.Forall₂.nil)).mpr (Or.inr fun c hc => by
      rw [List.mem_singleton, Option.some.injEq] at hc
      rw [hc]
      rfl)

/-- The cell is an array of one string, and its copy is an empty array. -/
theorem column_emptied :
    columnArray spots plainSds (Spot.whole 0) (some ['b']) = some (some (Spot.whole 4)) ∧
      cjson_ spots.toCJson plainSds (some (Spot.whole 5)) (some ['n']) =
        some (some (Spot.whole 6)) ∧
      ¬ Collects spots (some (Spot.whole 4)) [some (Spot.whole 6)]
        (cjsonCol spots plainSds (some (Spot.whole 0)) (some (columnKey (some ['b']) ['n']))) := by
  refine ⟨rfl, rfl, ?_⟩
  intro ⟨json, hjson, _, hitems⟩
  have hcol : cjsonCol spots plainSds (some (Spot.whole 0))
      (some (columnKey (some ['b']) ['n'])) = some (some [⟨6, true⟩]) := rfl
  rw [hcol, Option.some.injEq] at hjson
  have hcells := hitems _ hjson.symm
  rw [List.forall₂_cons] at hcells
  obtain ⟨⟨c, hc, hdeep⟩, -⟩ := hcells
  cases hc
  exact absurd ((deepEqual_duplicate spots (Spot.whole 6)).mp hdeep) (by decide)

end Libhp.Json
