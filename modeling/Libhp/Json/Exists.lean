import Libhp.Json.Col

/-!
# Whether paths exist

`cjson_exists` of `hp_cjson.c` walks its paths by itself, without alternatives and indices. On
paths that have neither it says what `cjson_` finds.
-/
namespace Libhp.Json
open Text (nonempty_cons)

section
variable {P : Type} (lib : CJson P) (sds : Sds)

/-- The loop over the segments of one path. -/
def existsLoop : List Text → Option P → Int → Int
  | [], _, rc => rc
  | s :: rest, subjson, rc =>
    if s = [] then existsLoop rest subjson rc
    else
      match lib.getObjectItem subjson s with
      | none => 0
      | some subjson => existsLoop rest (some subjson) rc

/-- The loop over the arguments, which has no end if none of them is `NULL`. -/
def existsArgs (cjson : P) : List (Option Text) → Int → Option Int
  | [], _ => none
  | none :: _, rc => some rc
  | some val :: ap, rc =>
    existsArgs cjson ap (existsLoop lib (sds.splitlen val '/') (some cjson) rc)

def cjsonExists (cjson : Option P) (ap : List (Option Text)) : Option Int :=
  match cjson with
  | none => some 0
  | some cjson => existsArgs lib sds cjson ap 1

/-- The path has neither alternatives nor indices. -/
def PlainPath (key : Text) : Prop := ∀ s ∈ sds.splitlen key '/', '|' ∉ s ∧ ']' ∉ s

/-- `cjson_` finds a node. -/
def Found (json : P) (key : Text) : Prop :=
  ∃ n, cjson_ lib sds (some json) (some key) = some (some n)

end

section
variable {P : Type} {lib : CJson P} {sds : Sds} {t : P}

/-- Without a bracket a segment is the name of a member. -/
theorem resolve_plain {s : Text} (h : ']' ∉ s) : resolve lib t s = lib.getObjectItem (some t) s := by
  cases hmatch : regexec s with
  | none => rw [resolve, hmatch]
  | some m => exact absurd (regexec_bracket hmatch) h

theorem segLoop_plain {s : Text} (hs : s ≠ []) (hbar : '|' ∉ s) (hbracket : ']' ∉ s)
    (rest : List Text) :
    segLoop lib sds (s :: rest) (some t) =
      (lib.getObjectItem (some t) s).elim (some none) fun u =>
        segLoop lib sds rest (some u) := by
  have hsplit : sds.splitlen s '|' = [s] := splitlen_single hs hbar
  have hfits : AltFits lib t s := by
    cases hmatch : regexec s with
    | none => rw [AltFits, hmatch]; trivial
    | some m => exact absurd (regexec_bracket hmatch) hbracket
  have hstraight : Straight lib t (sds.splitlen s '|') := by
    rw [hsplit, Straight, if_neg hs]
    refine ⟨hfits, Or.inr ?_⟩
    split
    · exact fun b hb => absurd hb List.not_mem_nil
    · trivial
  have hselect : select lib sds t s = lib.getObjectItem (some t) s := by
    rw [select, hsplit, nonempty_cons hs, ← resolve_plain hbracket, List.findSome?_cons]
    cases resolve lib t s <;> rfl
  rw [segLoop_straight hs hstraight, hselect]

/-- The two walkers on one path. -/
theorem existsLoop_segLoop (lib : CJson P) (sds : Sds) (segs : List Text)
    (hsegs : ∀ s ∈ segs, '|' ∉ s ∧ ']' ∉ s) :
    ∀ t : P, ∃ r, segLoop lib sds segs (some t) = some r ∧
      ∀ rc, existsLoop lib segs (some t) rc = if r.isSome then rc else 0 := by
  induction segs with
  | nil => exact fun t => ⟨some t, rfl, fun rc => rfl⟩
  | cons s rest ih =>
    intro t
    have hrest : ∀ s' ∈ rest, '|' ∉ s' ∧ ']' ∉ s' := fun s' hs' =>
      hsegs s' (List.mem_cons_of_mem _ hs')
    obtain ⟨hbar, hbracket⟩ := hsegs s List.mem_cons_self
    by_cases hs : s = []
    · obtain ⟨r, hseg, hexists⟩ := ih hrest t
      refine ⟨r, ?_, fun rc => ?_⟩
      · rw [segLoop_cons, if_pos hs, hseg]
      · rw [existsLoop, if_pos hs, hexists]
    · rw [segLoop_plain hs hbar hbracket]
      cases hitem : lib.getObjectItem (some t) s with
      | none =>
        refine ⟨none, rfl, fun rc => ?_⟩
        rw [existsLoop, if_neg hs, hitem]
        rfl
      | some u =>
        obtain ⟨r, hseg, hexists⟩ := ih hrest u
        refine ⟨r, hseg, fun rc => ?_⟩
        rw [existsLoop, if_neg hs, hitem]
        exact hexists rc

/-- One path keeps the result so far if it is found, and makes it 0 otherwise. -/
theorem existsLoop_found {key : Text} (hkey : PlainPath sds key) (rc : Int) :
    existsLoop lib (sds.splitlen key '/') (some t) rc ≠ 0 ↔ rc ≠ 0 ∧ Found lib sds t key := by
  obtain ⟨r, hseg, hexists⟩ := existsLoop_segLoop lib sds _ hkey t
  have hpath : cjson_ lib sds (some t) (some key) = some r := hseg
  rw [hexists, Found, hpath]
  cases r with
  | none => simp
  | some n => simp

/-- The arguments up to the `NULL`. -/
theorem existsArgs_found (lib : CJson P) (json : P) (keys : List Text)
    (hkeys : ∀ key ∈ keys, PlainPath sds key) (more : List (Option Text)) : ∀ rc, ∃ rc',
      existsArgs lib sds json (keys.map some ++ none :: more) rc = some rc' ∧
        (rc' ≠ 0 ↔ rc ≠ 0 ∧ ∀ key ∈ keys, Found lib sds json key) := by
  induction keys with
  | nil => exact fun rc => ⟨rc, rfl, by simp⟩
  | cons key keys ih =>
    intro rc
    obtain ⟨rc', hargs, hrc'⟩ := ih (fun k hk => hkeys k (List.mem_cons_of_mem _ hk))
      (existsLoop lib (sds.splitlen key '/') (some json) rc)
    refine ⟨rc', hargs, ?_⟩
    rw [hrc', existsLoop_found (hkeys key List.mem_cons_self), List.forall_mem_cons, and_assoc]

/-- `cjson_exists` is true exactly if `cjson_` finds every path. -/
theorem exists_iff (lib : CJson P) (sds : Sds) (json : P) (keys : List Text)
    (hkeys : ∀ key ∈ keys, PlainPath sds key) (more : List (Option Text)) :
    ∃ rc, cjsonExists lib sds (some json) (keys.map some ++ none :: more) = some rc ∧
      (rc ≠ 0 ↔ ∀ key ∈ keys, Found lib sds json key) := by
  obtain ⟨rc, hargs, hrc⟩ := existsArgs_found lib json keys hkeys more 1
  exact ⟨rc, hargs, hrc.trans (and_iff_right one_ne_zero)⟩

end

theorem exists_members :
    ∃ rc, cjsonExists treeLib plainSds (some idTree)
        ([['/', '/', 'i', 'd', '/'], ['x']].map some ++ none :: []) = some rc ∧
      (rc ≠ 0 ↔ ∀ key ∈ [['/', '/', 'i', 'd', '/'], ['x']], Found treeLib plainSds idTree key) :=
  exists_iff treeLib plainSds idTree [['/', '/', 'i', 'd', '/'], ['x']]
    (by
      have hid : PlainPath plainSds ['/', '/', 'i', 'd', '/'] := by unfold PlainPath; decide
      have hx : PlainPath plainSds ['x'] := by unfold PlainPath; decide
      simp [hid, hx]) []

end Libhp.Json
