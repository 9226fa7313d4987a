import Libhp.Json.Exists
import Mathlib.Data.List.DropRight

/-!
# Checked members

`cjson_check` of `hp_cjson.c` looks a value up by its path, and puts what the check makes of it
into the object under the path as a name.
-/
namespace Libhp.Json.Check

/-- Besides the lookups: the string of a node, `cJSON_CreateString`, and
`cJSON_ReplaceItemInObject`, after which the new item is found under the name if there was an item
before, and neither what is found under other names, case aside, nor the object's own string is
touched. -/
structure CJsonObject (P : Type) extends CJson P where
  valuestring : P → Option Text
  createString : Text → P
  replaceItemInObject : P → Text → P → P
  valuestring_create : ∀ s, valuestring (createString s) = some s
  item_replaced : ∀ object name new old, getObjectItem (some object) name = some old →
    (getObjectItem (some (replaceItemInObject object name new)) name).bind valuestring =
      valuestring new
  valuestring_replaced : ∀ object name new,
    valuestring (replaceItemInObject object name new) = valuestring object
  item_other : ∀ object name new key, name.map Char.toLower ≠ key.map Char.toLower →
    getObjectItem (some (replaceItemInObject object name new)) key =
      getObjectItem (some object) key

/-- `sdstrim(s, " ")`: what is left without the blanks on both sides. -/
structure Trim where
  trim : Text → Text
  blanks : ∀ s, ∃ l r, s = l ++ trim s ++ r ∧ (∀ c ∈ l, c = ' ') ∧ ∀ c ∈ r, c = ' '
  bare : ∀ s, (trim s).head? ≠ some ' ' ∧ (trim s).getLast? ≠ some ' '

section
variable {P : Type} (lib : CJsonObject P) (sdstrim : Trim)

/-- `check_string`, with the length in bytes. -/
def checkString (val : Option P) (minLen maxLen : Nat) : Option P :=
  match val.bind lib.valuestring with
  | none => none
  | some v =>
    let s := sdstrim.trim v
    if minLen ≤ s.length ∧ s.length ≤ maxLen then some (lib.createString s) else none

def checkPhone (val : Option P) : Option P := checkString lib sdstrim val 11 11
def checkMeid (val : Option P) : Option P := checkString lib sdstrim val 1 15
def checkIccid (val : Option P) : Option P := checkString lib sdstrim val 1 20
def checkImei (val : Option P) : Option P := checkString lib sdstrim val 1 17
def checkImsi (val : Option P) : Option P := checkString lib sdstrim val 1 15

/-- `cjson_check`: what it returns, and the object afterwards. -/
def cjsonCheck (sds : Sds) (cjson : P) (key : Text) (fn : Option P → Option P) :
    Option (Int × P) :=
  (cjson_ lib.toCJson sds (some cjson) (some key)).map fun val =>
    match fn val with
    | some val => (1, lib.replaceItemInObject cjson key val)
    | none => (0, cjson)

/-- The path leads to the string. -/
def Leads (sds : Sds) (json : P) (key v : Text) : Prop :=
  ∃ n, cjson_ lib.toCJson sds (some json) (some key) = some (some n) ∧ lib.valuestring n = some v

end

section
variable {P : Type} {lib : CJsonObject P} {sds : Sds} {json : P} {key : Text}

theorem toLower_slash {c : Char} (h : c.toLower = '/') : c = '/' := by
  unfold Char.toLower at h
  split at h
  · next hupper =>
    have hlow : 65 ≤ c.val.toNat := hupper.1
    have hhigh : c.val.toNat ≤ 90 := hupper.2
    have hval := congrArg (fun c => c.val.toNat) h
    have hsum : (c.val.toNat + 32) % 2 ^ 32 = 47 := hval
    omega
  · exact h

/-- What stands between slashes is another name than what has one. -/
theorem toLower_ne {s : Text} (hs : '/' ∉ s) (hkey : '/' ∈ key) :
    key.map Char.toLower ≠ s.map Char.toLower := by
  intro heq
  have hin : '/' ∈ s.map Char.toLower := heq ▸ List.mem_map.mpr ⟨'/', hkey, rfl⟩
  obtain ⟨c, hc, hlower⟩ := List.mem_map.mp hin
  exact hs (toLower_slash hlower ▸ hc)

/-- A path in which the name is no segment leads to the same string as before. -/
theorem segLoop_replaced {name : Text} (new : P) (segs : List Text)
    (hsegs : ∀ s ∈ segs, ('|' ∉ s ∧ ']' ∉ s) ∧ name.map Char.toLower ≠ s.map Char.toLower) :
    (segLoop lib.toCJson sds segs (some (lib.replaceItemInObject json name new))).map
        (·.bind lib.valuestring) =
      (segLoop lib.toCJson sds segs (some json)).map (·.bind lib.valuestring) := by
  induction segs with
  | nil => exact congrArg some (lib.valuestring_replaced json name new)
  | cons s segs ih =>
    by_cases hs : s = []
    · rw [segLoop_cons, segLoop_cons, if_pos hs, if_pos hs]
      exact ih fun s' hs' => hsegs s' (List.mem_cons_of_mem _ hs')
    · obtain ⟨⟨hbar, hbracket⟩, hother⟩ := hsegs s List.mem_cons_self
      rw [segLoop_plain hs hbar hbracket, segLoop_plain hs hbar hbracket,
        lib.item_other json name new s hother]

theorem leads_iff {v : Text} :
    Leads lib sds json key v ↔ (cjson_ lib.toCJson sds (some json) (some key)).map
      (·.bind lib.valuestring) = some (some v) := by
  simp only [Leads, Option.map_eq_some_iff, Option.bind_eq_some_iff]
  constructor
  · rintro ⟨n, hn, hv⟩
    exact ⟨some n, hn, n, rfl, hv⟩
  · rintro ⟨r, hr, n, rfl, hv⟩
    exact ⟨n, hr, hv⟩

theorem leads_unique {v w : Text} (hv : Leads lib sds json key v) (hw : Leads lib sds json key w) :
    v = w := by
  rw [leads_iff] at hv hw
  rw [hv] at hw
  exact Option.some.inj (Option.some.inj hw)

/-- A name without a slash is the name of a member. -/
theorem cjson_name (hkey : PlainPath sds key) (hne : key ≠ []) (hslash : '/' ∉ key) (t : P) :
    cjson_ lib.toCJson sds (some t) (some key) = some (lib.getObjectItem (some t) key) := by
  have hsplit : sds.splitlen key '/' = [key] := splitlen_single hne hslash
  obtain ⟨hbar, hbracket⟩ := hkey key (by rw [hsplit]; exact List.mem_singleton_self _)
  show segLoop lib.toCJson sds (sds.splitlen key '/') (some t) = _
  rw [hsplit, segLoop_plain hne hbar hbracket]
  cases lib.getObjectItem (some t) key <;> rfl

/-- Behind the replacement the new string is found if the path is a name, and what was there
before otherwise. -/
theorem leads_replaced (hkey : PlainPath sds key) {v : Text} (hv : Leads lib sds json key v)
    (t w : Text) :
    Leads lib sds (lib.replaceItemInObject json key (lib.createString t)) key w ↔
      w = if key ≠ [] ∧ '/' ∉ key then t else v := by
  by_cases hname : key ≠ [] ∧ '/' ∉ key
  · obtain ⟨n, hn, -⟩ := hv
    rw [cjson_name hkey hname.1 hname.2] at hn
    have hnew := lib.item_replaced json key (lib.createString t) n (Option.some.inj hn)
    rw [if_pos hname, leads_iff, cjson_name hkey hname.1 hname.2, Option.map_some, hnew,
      lib.valuestring_create]
    simp [eq_comm]
  · have hsegs : ∀ s ∈ sds.splitlen key '/', ('|' ∉ s ∧ ']' ∉ s) ∧
        key.map Char.toLower ≠ s.map Char.toLower := by
      intro s hs
      refine ⟨hkey s hs, toLower_ne (sds.apart key '/' s hs) ?_⟩
      by_contra hslash
      have hnil : key = [] := by
        by_contra hne
        exact hname ⟨hne, hslash⟩
      rw [hnil, sds.split_nil] at hs
      cases hs
    have hsame := @segLoop_replaced P lib sds json key (lib.createString t) _ hsegs
    rw [if_neg hname, leads_iff]
    show (segLoop lib.toCJson sds (sds.splitlen key '/') _).map _ = _ ↔ _
    rw [hsame]
    show (cjson_ lib.toCJson sds (some json) (some key)).map _ = _ ↔ _
    rw [← leads_iff]
    exact ⟨fun h => leads_unique h hv, fun h => h ▸ hv⟩

/-- For every path of names `cjson_check` accepts a string exactly if its length without the
blanks around it is in bounds. The path then leads to the string without the blanks exactly if it
is the name of a member of the object itself, or there were no blanks. -/
theorem check_iff (lib : CJsonObject P) (sds : Sds) (sdstrim : Trim) (json : P) (key : Text)
    (minLen maxLen : Nat) (hkey : PlainPath sds key) :
    ∃ rc json', cjsonCheck lib sds json key
        (fun val => checkString lib sdstrim val minLen maxLen) = some (rc, json') ∧
      (rc = 1 ↔ ∃ v, Leads lib sds json key v ∧ minLen ≤ (sdstrim.trim v).length ∧
        (sdstrim.trim v).length ≤ maxLen) ∧
      ∀ v, rc = 1 → Leads lib sds json key v →
        (Leads lib sds json' key (sdstrim.trim v) ↔
          key ≠ [] ∧ '/' ∉ key ∨ sdstrim.trim v = v) := by
  obtain ⟨r, hpath, -⟩ : ∃ r, cjson_ lib.toCJson sds (some json) (some key) = some r ∧ _ :=
    existsLoop_segLoop lib.toCJson sds (sds.splitlen key '/') hkey json
  have hleads : ∀ v, Leads lib sds json key v ↔ r.bind lib.valuestring = some v := fun v => by
    rw [leads_iff, hpath, Option.map_some, Option.some.injEq]
  rw [cjsonCheck, hpath, Option.map_some]
  cases hval : r.bind lib.valuestring with
  | none =>
    have hno : ∀ v, ¬ Leads lib sds json key v := fun v h => by
      rw [hleads, hval] at h
      cases h
    have hfail : checkString lib sdstrim r minLen maxLen = none := by rw [checkString, hval]
    rw [hfail]
    refine ⟨0, json, rfl, iff_of_false (by decide) ?_, fun v h => absurd h (by decide)⟩
    rintro ⟨v, hv, -⟩
    exact hno v hv
  | some v =>
    have hv : Leads lib sds json key v := (hleads v).mpr hval
    by_cases hlen : minLen ≤ (sdstrim.trim v).length ∧ (sdstrim.trim v).length ≤ maxLen
    · have hok : checkString lib sdstrim r minLen maxLen =
          some (lib.createString (sdstrim.trim v)) := by
        rw [checkString, hval]
        exact if_pos hlen
      rw [hok]
      refine ⟨1, _, rfl, iff_of_true rfl ⟨v, hv, hlen⟩, fun w _ hw => ?_⟩
      obtain rfl := leads_unique hv hw
      rw [leads_replaced hkey hv]
      by_cases hname : key ≠ [] ∧ '/' ∉ key
      · simp [hname]
      · rw [if_neg hname]
        exact (or_iff_right hname).symm
    · have hfail : checkString lib sdstrim r minLen maxLen = none := by
        rw [checkString, hval]
        exact if_neg hlen
      rw [hfail]
      refine ⟨0, json, rfl, iff_of_false (by decide) ?_, fun v h => absurd h (by decide)⟩
      rintro ⟨w, hw, hlen'⟩
      obtain rfl := leads_unique hv hw
      exact hlen hlen'

end

/-- A tree: the name of a node, its string and its children. -/
inductive Node where
  | node (string valuestring : Option Text) (children : List Node)

def Node.string : Node → Option Text
  | .node s _ _ => s

def Node.valuestring : Node → Option Text
  | .node _ v _ => v

def Node.children : Node → List Node
  | .node _ _ cs => cs

def Node.named (name : Text) (n : Node) : Bool :=
  n.string.map (·.map Char.toLower) = some (name.map Char.toLower)

/-- The first child of the name is replaced, if there is one. -/
def replaceChild (name : Text) (new : Node) : List Node → List Node
  | [] => []
  | c :: cs => if c.named name then new :: cs else c :: replaceChild name new cs

section
variable {new : Node} {name key : Text}

theorem find_replaceChild (hnew : new.named name = true) {cs : List Node} {c : Node}
    (h : cs.find? (Node.named name) = some c) :
    (replaceChild name new cs).find? (Node.named name) = some new := by
  induction cs with
  | nil => cases h
  | cons x cs ih =>
    unfold replaceChild
    by_cases hx : x.named name = true
    · rw [if_pos hx, List.find?_cons_of_pos hnew]
    · rw [if_neg hx, List.find?_cons_of_neg hx]
      rw [List.find?_cons_of_neg hx] at h
      exact ih h

theorem find_replaceChild_other (hname : ∀ n : Node, n.named name = true → n.named key = false)
    (hnew : new.named name = true) (cs : List Node) :
    (replaceChild name new cs).find? (Node.named key) = cs.find? (Node.named key) := by
  induction cs with
  | nil => rfl
  | cons x cs ih =>
    unfold replaceChild
    by_cases hx : x.named name = true
    · rw [if_pos hx, List.find?_cons_of_neg (by simp [hname new hnew]),
        List.find?_cons_of_neg (by simp [hname x hx])]
    · rw [if_neg hx, List.find?_cons, List.find?_cons, ih]

/-- A node has one name. -/
theorem named_other (hne : name.map Char.toLower ≠ key.map Char.toLower) {n : Node}
    (hn : n.named name = true) : n.named key = false := by
  have heq : n.string.map (·.map Char.toLower) = some (name.map Char.toLower) :=
    of_decide_eq_true hn
  exact decide_eq_false fun h => hne (Option.some.inj (heq.symm.trans h))

end

def nodeLib : CJsonObject Node where
  getObjectItem json name := json.bind fun j => j.children.find? (Node.named name)
  getArraySize json := json.elim 0 fun j => j.children.length
  getArrayItem json i := json.bind fun j => if i < 0 then none else j.children[i.toNat]?
  objectItem_null := fun _ => rfl
  arrayItem_null := fun _ => rfl
  valuestring := Node.valuestring
  createString s := .node none (some s) []
  replaceItemInObject object name new :=
    .node object.string object.valuestring
      (replaceChild name (.node (some name) new.valuestring new.children) object.children)
  valuestring_create _ := rfl
  item_replaced object name new old h := by
    rw [Option.bind_some] at h ⊢
    exact congrArg (Option.bind · Node.valuestring)
      (find_replaceChild (decide_eq_true rfl) h)
  valuestring_replaced _ _ _ := rfl
  item_other object name new key hne := by
    rw [Option.bind_some, Option.bind_some]
    exact find_replaceChild_other (fun _ => named_other hne) (decide_eq_true rfl) object.children

/-- Blanks are dropped at the front and at the end. -/
def plainTrim : Trim where
  trim s := (s.dropWhile (· = ' ')).rdropWhile (· = ' ')
  blanks s := by
    refine ⟨s.takeWhile (· = ' '), (s.dropWhile (· = ' ')).rtakeWhile (· = ' '), ?_, ?_, ?_⟩
    · rw [List.append_assoc, List.rdropWhile_append_rtakeWhile, List.takeWhile_append_dropWhile]
    · intro c hc
      have hblank := List.mem_takeWhile_imp hc
      exact of_decide_eq_true hblank
    · intro c hc
      have hblank := List.mem_rtakeWhile_imp hc
      exact of_decide_eq_true hblank
  bare s := by
    let rest := s.dropWhile (· = ' ')
    refine ⟨fun hhead => ?_, fun hlast => ?_⟩
    · obtain ⟨t, ht⟩ : rest.rdropWhile (· = ' ') <+: rest := List.rdropWhile_prefix _ _
      have hfirst : rest.head? = some ' ' := by
        rw [← ht, List.head?_append, hhead, Option.some_or]
      have hblank := List.head?_dropWhile_not (fun c => decide (c = ' ')) s
      rw [hfirst] at hblank
      exact absurd hblank (by decide)
    · have hne : rest.rdropWhile (· = ' ') ≠ [] := fun hnil => by
        rw [hnil] at hlast
        cases hlast
      have hblank := List.rdropWhile_last_not _ rest hne
      rw [List.getLast?_eq_some_getLast hne] at hlast
      exact hblank (decide_eq_true (Option.some.inj hlast))

/-- A number with blanks, in the object `user` and of its own. -/
def phones : Node :=
  .node none none [.node (some ['u', 's', 'e', 'r']) none [.node (some ['t', 'e', 'l'])
    (some [' ', '1', '2', ' ']) []], .node (some ['T', 'e', 'l']) (some ['3', '4', ' ']) []]

/-- The check of the number in `user` accepts it, and the path leads to it with its blanks as
before. -/
theorem check_iff_tel :
    ∃ json', cjsonCheck nodeLib plainSds phones ['u', 's', 'e', 'r', '/', 't', 'e', 'l']
        (fun val => checkString nodeLib plainTrim val 1 2) = some (1, json') ∧
      ¬ Leads nodeLib plainSds json' ['u', 's', 'e', 'r', '/', 't', 'e', 'l'] ['1', '2'] := by
  have hkey : PlainPath plainSds ['u', 's', 'e', 'r', '/', 't', 'e', 'l'] := by
    unfold PlainPath
    decide
  have hleads : Leads nodeLib plainSds phones ['u', 's', 'e', 'r', '/', 't', 'e', 'l']
      [' ', '1', '2', ' '] := ⟨_, rfl, rfl⟩
  obtain ⟨rc, json', hrun, hrc, hlead⟩ :=
    check_iff nodeLib plainSds plainTrim phones _ 1 2 hkey
  obtain rfl : rc = 1 := hrc.mpr ⟨_, hleads, by decide, by decide⟩
  exact ⟨json', hrun, fun h => absurd ((hlead _ rfl hleads).mp h) (by decide)⟩

end Libhp.Json.Check
