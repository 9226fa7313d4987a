import Libhp.Str.Buf

/-!
# The .ini settings

`hp_ini.c` with its default handler: `#load`, `#set`, `#unload` and the lookup of a key, over
the dictionary and the default section that an `hp_ini` holds. The dictionary and what `ini_parse`
finds in a file are parameters. A C string is the list of its characters.
-/
namespace Libhp.Ini
open Libhp.Buf
open Libhp.Str (Fault)

/-- The dictionary: a map from strings to strings. -/
structure Dict (D : Type) where
  create : D
  replace : D → Chars → Chars → D
  fetchValue : D → Chars → Option Chars
  fetch_create : ∀ k, fetchValue create k = none
  fetch_replace : ∀ d k v k',
    fetchValue (replace d k v) k' = if k' = k then some v else fetchValue d k'

/-- One call of the handler: section, name and value. -/
structure Pair where
  sect : Option Chars
  name : Chars
  value : Chars

/-- What `ini_parse` hands over of a file, and what it returns. -/
structure Parsed where
  pairs : List Pair
  line : Int

/-- `char section[64]`, the string in it. -/
structure Sect where
  chars : Chars
  fits : chars.length < 64

structure HpIni (D : Type) where
  dict : Option D
  sect : Sect

variable {D : Type}

def noSect : Sect := ⟨[], by decide⟩

/-- `strncpy(ini->section, section, sizeof(ini->section) - 1)`, where the last byte stays NUL. -/
def copySect (s : Chars) : Sect :=
  ⟨s.take 63, lt_of_le_of_lt (List.length_take_le 63 s) (by decide)⟩

/-- An `hp_ini` as it is before its first use. -/
def zeroed : HpIni D := ⟨none, noSect⟩

/-- The key `k` in the section `s`: `"%s/%s"`. -/
def qualified (s k : Chars) : Chars := s ++ '/' :: k

/-- `hp_config_ini_def_parser`, on the section and the dictionary. -/
def hpConfigIniDefParser (M : Dict D) (st : Sect × D) (p : Pair) : Sect × D :=
  let s := p.sect.getD []
  let sect := if st.1.chars = [] then copySect s else st.1
  let k := if s ≠ [] then qualified s p.name else p.name
  (sect, M.replace st.2 k p.value)

/-- What `#set` finds in its buffer of 128, `none` for a command without a value. -/
def setPair (k : Chars) : Except Fault (Option (Chars × Chars)) :=
  match strchr ((ncopy k 128).drop 5) ' ' with
  | .error e => .error e
  | .ok none => .ok none
  | .ok (some (k_, v)) =>
    match cstr v with
    | .error e => .error e
    | .ok v => .ok (some (k_, v))

/-- The key under which a lookup searches. -/
def lookupKey (s : Sect) (k : Chars) : Chars :=
  if s.chars ≠ [] ∧ '/' ∉ k then qualified s.chars k else k

/-- `hp_ini_exec`, with what `ini_parse` would do with each file. -/
def hpIniExec (M : Dict D) (iniParse : Chars → Parsed) (ini : HpIni D) (k : Chars) :
    Except Fault (HpIni D × Chars) :=
  let d := ini.dict.getD M.create
  if k = ['#', 'u', 'n', 'l', 'o', 'a', 'd'] then .ok (⟨none, noSect⟩, ['0'])
  else if ['#', 'l', 'o', 'a', 'd'].isPrefixOf k ∧ 7 ≤ k.length then
    let file := iniParse (k.drop 6)
    let st := file.pairs.foldl (hpConfigIniDefParser M) (ini.sect, d)
    .ok (⟨some st.2, st.1⟩, if file.line ≠ 0 then ['-', '1'] else ['0'])
  else if ['#', 's', 'e', 't'].isPrefixOf k ∧ 8 ≤ k.length then
    match setPair k with
    | .error e => .error e
    | .ok none => .ok (⟨some d, ini.sect⟩, ['-', '1'])
    | .ok (some (k_, v)) => .ok (⟨some (M.replace d k_ v), ini.sect⟩, ['0'])
  -- the entries are printed
  else if k = ['#', 's', 'h', 'o', 'w'] then .ok (⟨some d, ini.sect⟩, ['0'])
  else .ok (⟨some d, ini.sect⟩, (M.fetchValue d (lookupKey ini.sect k)).getD [])

/-- A state that some sequence of commands leads to, whatever is in the files it loads. -/
inductive Reached (M : Dict D) : HpIni D → Prop
  | zeroed : Reached M zeroed
  | exec {ini ini' : HpIni D} {iniParse : Chars → Parsed} {k r : Chars} (h : Reached M ini)
      (hexec : hpIniExec M iniParse ini k = .ok (ini', r)) : Reached M ini'

/-- A key: a C string without a blank that is no command. -/
structure IsKey (k : Chars) : Prop where
  terminated : nul ∉ k
  noBlank : ' ' ∉ k
  noCommand : k.head? ≠ some '#'

/-- `#set k v` -/
def setCommand (k v : Chars) : Chars := ['#', 's', 'e', 't', ' '] ++ k ++ ' ' :: v

/-- What a command returns. -/
def result (M : Dict D) (iniParse : Chars → Parsed) (ini : HpIni D) (k : Chars) :
    Except Fault Chars :=
  (hpIniExec M iniParse ini k).map Prod.snd

/-- The value of the entry `k` of the dictionary, empty if there is none. -/
def entry (M : Dict D) (ini : HpIni D) (k : Chars) : Chars :=
  (M.fetchValue (ini.dict.getD M.create) k).getD []

/-- `#set k v`, if it returns "0", makes `v` the value of `k`, with or without its section, and
keeps that of every other key. -/
def SetGet (M : Dict D) (iniParse : Chars → Parsed) (ini : HpIni D) (k v : Chars) : Prop :=
  ∃ ini' r, hpIniExec M iniParse ini (setCommand k v) = .ok (ini', r) ∧
    (r = ['0'] → result M iniParse ini' k = .ok v ∧
      ∀ k', IsKey k' → k' ≠ k →
        if lookupKey ini.sect k' = lookupKey ini.sect k then result M iniParse ini' k' = .ok v
        else result M iniParse ini' k' = result M iniParse ini k')

/-- The command fits into the buffer, and `k` names its section or there is none in force, or it
has the value already. A command of less than 8 characters is looked up. -/
def SetFits (M : Dict D) (ini : HpIni D) (k v : Chars) : Prop :=
  (setCommand k v).length < 128 ∧
    if k.length + v.length < 2 then
      entry M ini (lookupKey ini.sect (setCommand k v)) = ['0'] →
        entry M ini (lookupKey ini.sect k) = v
    else
      ini.sect.chars = [] ∨ '/' ∈ k ∨ entry M ini (qualified ini.sect.chars k) = v

variable {M : Dict D} {iniParse : Chars → Parsed} {ini : HpIni D} {k v : Chars}

theorem hpIniExec_key (hk : IsKey k) :
    hpIniExec M iniParse ini k =
      .ok (⟨some (ini.dict.getD M.create), ini.sect⟩, entry M ini (lookupKey ini.sect k)) := by
  have hhead := hk.noCommand
  cases k with
  | nil => rfl
  | cons c k =>
    have hc : ¬ c = '#' := fun h => hhead (congrArg some h)
    have hc' : ¬ '#' = c := fun h => hc h.symm
    simp only [hpIniExec, List.cons.injEq, hc, false_and, if_false, List.isPrefixOf_cons_cons,
      beq_iff_eq, hc', Bool.and_eq_true, entry]

theorem result_key (hk : IsKey k) :
    result M iniParse ini k = .ok (entry M ini (lookupKey ini.sect k)) := by
  rw [result, hpIniExec_key hk]
  rfl

theorem lookupKey_slash {s : Sect} (h : '/' ∈ k) : lookupKey s k = k :=
  if_neg fun hk => hk.2 h

theorem lookupKey_noSect {s : Sect} (h : s.chars = []) : lookupKey s k = k :=
  if_neg fun hk => hk.1 h

theorem lookupKey_sect {s : Sect} (h : s.chars ≠ []) (hk : '/' ∉ k) :
    lookupKey s k = qualified s.chars k := if_pos ⟨h, hk⟩

theorem slash_mem_qualified (s k : Chars) : '/' ∈ qualified s k := by
  simp [qualified]

/-- A key without its section is looked up elsewhere, and no key is looked up there. -/
theorem lookupKey_ne {s : Sect} (h : s.chars ≠ []) (hk : '/' ∉ k) (x : Chars) :
    lookupKey s x ≠ k := by
  rw [lookupKey]
  split
  · exact fun heq => hk (heq ▸ slash_mem_qualified _ _)
  · next hx => exact fun heq => hx ⟨h, heq ▸ hk⟩

theorem length_setCommand (k v : Chars) :
    (setCommand k v).length = k.length + v.length + 6 := by
  simp only [setCommand, List.length_append, List.length_cons, List.length_nil]
  omega

theorem nul_not_mem_setCommand (hk : nul ∉ k) (hv : nul ∉ v) : nul ∉ setCommand k v := by
  simp only [setCommand, List.mem_append, List.mem_cons, List.not_mem_nil, not_or]
  exact ⟨⟨by decide, hk⟩, by decide, hv⟩

theorem hpIniExec_set (hlen : 2 ≤ k.length + v.length) :
    hpIniExec M iniParse ini (setCommand k v) =
      match setPair (setCommand k v) with
      | .error e => .error e
      | .ok none => .ok (⟨some (ini.dict.getD M.create), ini.sect⟩, ['-', '1'])
      | .ok (some (k_, v)) =>
        .ok (⟨some (M.replace (ini.dict.getD M.create) k_ v), ini.sect⟩, ['0']) := by
  have h8 : 8 ≤ (setCommand k v).length := by rw [length_setCommand]; omega
  rw [hpIniExec, if_neg (by simp [setCommand]), if_neg (by simp [setCommand]),
    if_pos ⟨by simp [setCommand], h8⟩]

/-- A command too short for `#set` is taken for a key. -/
theorem hpIniExec_set_short (hlen : k.length + v.length < 2) :
    hpIniExec M iniParse ini (setCommand k v) =
      .ok (⟨some (ini.dict.getD M.create), ini.sect⟩,
        entry M ini (lookupKey ini.sect (setCommand k v))) := by
  have h8 : ¬ 8 ≤ (setCommand k v).length := by rw [length_setCommand]; omega
  rw [hpIniExec, if_neg (by simp [setCommand]), if_neg (by simp [setCommand]),
    if_neg fun h => h8 h.2, if_neg (by simp [setCommand])]
  rfl

/-- A command that fits is taken apart as it was put together. -/
theorem setPair_fits (hk : IsKey k) (hv : nul ∉ v) (hlen : (setCommand k v).length < 128) :
    setPair (setCommand k v) = .ok (some (k, v)) := by
  obtain ⟨rest, hrest⟩ := ncopy_terminated hlen
  have hdrop : (ncopy (setCommand k v) 128).drop 5 = k ++ ' ' :: (v ++ nul :: rest) := by
    rw [hrest]
    simp [setCommand]
  rw [setPair, hdrop, strchr_found hk.terminated hk.noBlank]
  simp only [cstr_append hv]

/-- One that does not is read past the end of the buffer. -/
theorem setPair_overrun (hk : IsKey k) (hv : nul ∉ v) (hlen : 128 ≤ (setCommand k v).length) :
    setPair (setCommand k v) = .error .read := by
  have hmem : nul ∉ (ncopy (setCommand k v) 128).drop 5 := by
    rw [ncopy_long hlen]
    exact fun h => nul_not_mem_setCommand hk.terminated hv
      (List.mem_of_mem_take (List.mem_of_mem_drop h))
  rw [setPair]
  obtain h | ⟨s, rest, h, hrest⟩ := strchr_unterminated hmem ' '
  · rw [h]
  · rw [h]
    simp only [cstr_error hrest]

theorem entry_replace (d : D) (s : Sect) (k v x : Chars) :
    entry M ⟨some (M.replace d k v), s⟩ x = if x = k then v else entry M ⟨some d, s⟩ x := by
  simp only [entry, Option.getD_some, M.fetch_replace]
  split <;> rfl

theorem result_replace {x : Chars} (hx : IsKey x) :
    result M iniParse ⟨some (M.replace (ini.dict.getD M.create) k v), ini.sect⟩ x =
      if lookupKey ini.sect x = k then .ok v else result M iniParse ini x := by
  rw [result_key hx, entry_replace, result_key hx]
  split <;> rfl

/-- What a set stores is what the lookups then find, exactly if the key names its section, or none
is in force, or the value was there. -/
theorem stored_iff (hk : IsKey k) :
    (result M iniParse ⟨some (M.replace (ini.dict.getD M.create) k v), ini.sect⟩ k = .ok v ∧
      ∀ k', IsKey k' → k' ≠ k →
        if lookupKey ini.sect k' = lookupKey ini.sect k then
          result M iniParse ⟨some (M.replace (ini.dict.getD M.create) k v), ini.sect⟩ k' = .ok v
        else
          result M iniParse ⟨some (M.replace (ini.dict.getD M.create) k v), ini.sect⟩ k' =
            result M iniParse ini k') ↔
    (ini.sect.chars = [] ∨ '/' ∈ k ∨ entry M ini (qualified ini.sect.chars k) = v) := by
  by_cases hself : lookupKey ini.sect k = k
  · refine iff_of_true ⟨?_, fun x hx _ => ?_⟩ ?_
    · rw [result_replace hk, if_pos hself]
    · rw [hself, result_replace hx]
      split <;> rfl
    · by_contra! h
      exact lookupKey_ne h.1 h.2.1 k hself
  · have hs : ini.sect.chars ≠ [] := fun h => hself (lookupKey_noSect h)
    have hslash : '/' ∉ k := fun h => hself (lookupKey_slash h)
    have hkeep : ∀ x, IsKey x →
        result M iniParse ⟨some (M.replace (ini.dict.getD M.create) k v), ini.sect⟩ x =
          .ok (entry M ini (lookupKey ini.sect x)) := fun x hx => by
      rw [result_replace hx, if_neg (lookupKey_ne hs hslash x), result_key hx]
    rw [hkeep k hk, lookupKey_sect hs hslash, Except.ok.injEq]
    constructor
    · exact fun h => Or.inr (Or.inr h.1)
    · rintro (h | h | h)
      · exact absurd h hs
      · exact absurd h hslash
      · refine ⟨h, fun x hx _ => ?_⟩
        rw [hkeep x hx]
        split
        · next heq => rw [heq, h]
        · rw [result_key hx]

/-- Where the dictionary was not created yet, creating it changes no result. -/
theorem result_created (hk : IsKey k) :
    result M iniParse ⟨some (ini.dict.getD M.create), ini.sect⟩ k = result M iniParse ini k := by
  rw [result_key hk, result_key hk]
  rfl

/-- In every state, whether commands lead to it or not, a set gives back the value and keeps the
other keys exactly if it fits. -/
theorem set_get_iff (M : Dict D) (iniParse : Chars → Parsed) (ini : HpIni D) (k v : Chars)
    (hk : IsKey k) (hv : nul ∉ v) : SetGet M iniParse ini k v ↔ SetFits M ini k v := by
  by_cases hlen : (setCommand k v).length < 128
  swap
  · have hbig : 2 ≤ k.length + v.length := by rw [length_setCommand] at hlen; omega
    have hfault : hpIniExec M iniParse ini (setCommand k v) = _ := hpIniExec_set hbig
    rw [setPair_overrun hk hv (by omega)] at hfault
    refine iff_of_false (fun ⟨ini', r, hexec, _⟩ => ?_) fun h => hlen h.1
    rw [hfault] at hexec
    cases hexec
  by_cases hshort : k.length + v.length < 2
  · rw [SetGet, hpIniExec_set_short hshort, SetFits, if_pos hshort]
    constructor
    · intro ⟨ini', r, hexec, h⟩
      cases hexec
      refine ⟨hlen, fun hzero => ?_⟩
      have hget := (h hzero).1
      rw [result_created hk, result_key hk, Except.ok.injEq] at hget
      exact hget
    · intro ⟨_, h⟩
      refine ⟨_, _, rfl, fun hzero => ⟨?_, fun k' hk' _ => ?_⟩⟩
      · rw [result_created hk, result_key hk, h hzero]
      · rw [result_created hk', result_key hk']
        split
        · next heq => rw [heq, h hzero]
        · rfl
  · rw [SetGet, hpIniExec_set (by omega), setPair_fits hk hv hlen, SetFits, if_neg hshort,
      ← stored_iff  hk]
    constructor
    · intro ⟨ini', r, hexec, h⟩
      cases hexec
      exact ⟨hlen, h rfl⟩
    · intro ⟨_, h⟩
      exact ⟨_, _, rfl, fun _ => h⟩

/-- Pairs, the newest first. -/
def plainDict : Dict (List (Chars × Chars)) where
  create := []
  replace d k v := (k, v) :: d
  fetchValue d k := d.lookup k
  fetch_create _ := rfl
  fetch_replace d k v k' := by
    by_cases h : k' = k
    · rw [if_pos h, h, List.lookup_cons_self]
    · rw [if_neg h, List.lookup_cons, beq_false_of_ne h]

/-- Every file has the section `s` with `n = 1` in it. -/
def oneFile (_ : Chars) : Parsed := ⟨[⟨some ['s'], ['n'], ['1']⟩], 0⟩

def loaded : HpIni (List (Chars × Chars)) := ⟨some [(['s', '/', 'n'], ['1'])], ⟨['s'], by decide⟩⟩

theorem isKey_n : IsKey ['n'] := ⟨by decide, by decide, by decide⟩

theorem loaded_reached : Reached plainDict loaded := by
  have hload : hpIniExec plainDict oneFile zeroed ['#', 'l', 'o', 'a', 'd', ' ', 'f'] =
    .ok (loaded, ['0']) := rfl
  exact Reached.exec Reached.zeroed hload

theorem set_get_plain : SetGet plainDict oneFile loaded ['s', '/', 'n'] ['2', '2'] :=
  (set_get_iff plainDict oneFile loaded ['s', '/', 'n'] ['2', '2']
    ⟨by decide, by decide, by decide⟩ (by decide)).mpr
    ⟨by decide, by
      rw [if_neg (by decide)]
      exact Or.inr (Or.inl (by decide))⟩

/-- A setting of a section is set without its section, and keeps its value. -/
theorem set_misses :
    ¬ ∀ ini : HpIni (List (Chars × Chars)), Reached plainDict ini → ∀ k v, IsKey k → nul ∉ v →
      SetGet plainDict oneFile ini k v := by
  intro hall
  obtain ⟨ini', r, hexec, h⟩ := hall loaded loaded_reached ['n'] ['2', '2'] isKey_n (by decide)
  have hset : hpIniExec plainDict oneFile loaded (setCommand ['n'] ['2', '2']) =
    .ok (⟨some [(['n'], ['2', '2']), (['s', '/', 'n'], ['1'])], loaded.sect⟩, ['0']) := rfl
  rw [hset] at hexec
  cases hexec
  have hget : result plainDict oneFile
    ⟨some [(['n'], ['2', '2']), (['s', '/', 'n'], ['1'])], loaded.sect⟩ ['n'] = .ok ['1'] := rfl
  rw [hget] at h
  exact absurd (h rfl).1 (by decide)

end Libhp.Ini
