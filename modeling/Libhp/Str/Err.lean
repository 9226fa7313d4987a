import Libhp.Str.Printf

/-!
# The text of an error

`hp_err` and `hp_lerr` of `hp_err.c`. One array of 128 bytes is the format that the text is made
with and the place where the text is put.
-/
namespace Libhp.Err
open Libhp.Buf
open Libhp.Str (Fault)

/-- The two functions called `strerror_r`: GNU's returns the description, the other one puts it
into the buffer it is given and returns an `int`. Which one it is, is up to the macros that the
file is compiled with. -/
inductive StrerrorR where
  | gnu (text : Int → Chars)
  | xsi (text : Int → Chars) (rc : Int → Int)

def StrerrorR.text : StrerrorR → Int → Chars
  | .gnu text => text
  | .xsi text _ => text

theorem text_gnu (text : Int → Chars) : (StrerrorR.gnu text).text = text := rfl

/-- What `hp_err` passes on as the argument of the format. -/
def StrerrorR.arg : StrerrorR → Int → Arg
  | .gnu text, err => .str (text err)
  | .xsi _ rc, err => .int (rc err)

/-- `if(errstr[0] == '\0') strcpy(errstr, "%s");` -/
def ErrT.ready (b : ErrT) : ErrT :=
  if b.chars.head? = some nul then b.write ['%', 's', nul] (by decide) else b

/-- `errstr[0] = '\0'; strncpy(errstr, serr, hp_min(sdslen(serr), sizeof(hp_err_t) - 1));` -/
def ErrT.put (b : ErrT) (serr : Chars) : ErrT :=
  (b.write [nul] length_nul).write (ncopy serr (min serr.length 127))
    ((length_ncopy _ _).trans ((Nat.min_le_right _ _).trans (by decide)))

section
variable (p : Printf) (strerrorR : StrerrorR)

def hpErr (err : Int) (errstr : ErrT) : Except Fault ErrT :=
  (errstr.ready.print p [strerrorR.arg err]).map errstr.ready.put

/-- `static hp_err_t errstr = "%s";` -/
def lerrStatic : ErrT := ⟨'%' :: 's' :: List.replicate 126 nul, by simp⟩

/-- `hp_lerr`, on its static buffer. -/
def hpLerr (errno : Int) (errstr : ErrT) : Except Fault ErrT := hpErr p strerrorR errno errstr

/-- Every call returns the description of its code, cut to the buffer. -/
def LerrFollows : ErrT → List Int → Prop
  | _, [] => True
  | errstr, e :: es => ∃ errstr', hpLerr p strerrorR e errstr = .ok errstr' ∧
      cstr errstr'.chars = .ok ((strerrorR.text e).take 127) ∧ LerrFollows errstr' es

variable (pre post : Chars)

/-- Every call on a buffer returns the description of its code in the caller's format, and finds
no text of an earlier call as its format. -/
def ErrFollows : ErrT → List Int → Prop
  | _, [] => True
  | errstr, e :: es => ∃ errstr', hpErr p strerrorR e errstr = .ok errstr' ∧
      cstr errstr'.chars = .ok ((pre ++ strerrorR.text e ++ post).take 127) ∧
      (es ≠ [] → cstr errstr'.chars = .ok []) ∧ ErrFollows errstr' es

/-- The format in the buffer puts a string between `pre` and `post`. -/
def HasFormat (errstr : ErrT) : Prop :=
  ∃ f, cstr errstr.ready.chars = .ok f ∧ ∀ a, p.sdscatprintf f [.str a] = some (pre ++ a ++ post)

/-- Where the text ends there is a NUL. -/
def Room (errstr : ErrT) (text : Chars) : Prop :=
  text = [] ∨ errstr.ready.chars[min text.length 127]? = some nul

end

section
variable (strerror : Int → Chars) (pre post : Chars)

/-- Only the last text is not empty, and there is a NUL for it. -/
def TextsFit : ErrT → List Int → Prop
  | _, [] => True
  | errstr, [e] => Room errstr (pre ++ strerror e ++ post)
  | errstr, e :: es => pre ++ strerror e ++ post = [] ∧ TextsFit (errstr.ready.put []) es

/-- The first description that is not empty has more than one character, and those behind it are
the same up to the end of the buffer; if there are any, it is no format. -/
def DescriptionsFit (es : List Int) : Prop :=
  match (es.map strerror).dropWhile (· = []) with
  | [] => True
  | d :: rest => d.length ≠ 1 ∧ (∀ d' ∈ rest, d'.take 127 = d.take 127) ∧
      (rest ≠ [] → '%' ∉ d.take 127)

end

/-- GNU's function is used and the texts fit, or there is no call at all. -/
def ErrFits (pre post : Chars) : StrerrorR → ErrT → List Int → Prop
  | .gnu text, errstr, es => TextsFit text pre post errstr es
  | .xsi _ _, _, es => es = []

def LerrFits : StrerrorR → List Int → Prop
  | .gnu text, es => DescriptionsFit text es
  | .xsi _ _, es => es = []

theorem ready_nul {b : ErrT} (h : b.chars.head? = some nul) :
    b.ready.chars = '%' :: 's' :: nul :: b.chars.drop 3 := by
  rw [ErrT.ready, if_pos h]
  rfl

theorem ready_eq {b : ErrT} (h : b.chars.head? ≠ some nul) : b.ready = b := if_neg h

theorem put_nil (b : ErrT) : (b.put []).chars = nul :: b.chars.drop 1 := by
  simp [ErrT.put, ErrT.write, ncopy]

/-- A text that is not empty is written over the front of the buffer, without a NUL. -/
theorem put_chars (b : ErrT) {serr : Chars} (h : serr ≠ []) :
    (b.put serr).chars = serr.take 127 ++ b.chars.drop (min serr.length 127) := by
  have hpos := List.length_pos_iff.mpr h
  have hcopy : ncopy serr (min serr.length 127) = serr.take 127 := by
    rw [ncopy_long (Nat.min_le_left _ _), Nat.min_comm, ← List.take_take, List.take_length]
  have hlen : (serr.take 127).length = min serr.length 127 := by
    rw [List.length_take, Nat.min_comm]
  obtain ⟨n, hn⟩ : ∃ n, min serr.length 127 = n + 1 := ⟨min serr.length 127 - 1, by omega⟩
  show ncopy serr (min serr.length 127) ++
    (nul :: b.chars.drop 1).drop (ncopy serr (min serr.length 127)).length = _
  rw [hcopy, hlen, hn, List.drop_succ_cons, List.drop_drop, Nat.add_comm]

/-- A string in a buffer ends where the NUL is. -/
theorem cstr_eq_iff {s : Chars} (hs : nul ∉ s) (x : Char) (rest : Chars) :
    cstr (s ++ x :: rest) = .ok s ↔ x = nul := by
  constructor
  · intro h
    by_contra hx
    rw [cstr] at h
    split at h
    · have hall : ∀ c ∈ s ++ [x], decide (c ≠ nul) = true := by
        intro c hc
        rcases List.mem_append.mp hc with hc | hc
        · exact decide_eq_true fun heq => hs (heq ▸ hc)
        · exact decide_eq_true (List.mem_singleton.mp hc ▸ hx)
      rw [List.append_cons, List.takeWhile_append_of_pos hall, Except.ok.injEq,
        List.append_assoc] at h
      have hlen := congrArg List.length h
      simp at hlen
    · cases h
  · rintro rfl
    exact cstr_append hs rest

/-- The text of a call is in the buffer exactly if there is a NUL where it ends. -/
theorem cstr_put_iff (errstr : ErrT) {text : Chars} (h : nul ∉ text) :
    cstr (errstr.ready.put text).chars = .ok (text.take 127) ↔ Room errstr text := by
  by_cases hnil : text = []
  · subst hnil
    rw [put_nil]
    exact iff_of_true (cstr_append List.not_mem_nil _) (Or.inl rfl)
  · have hlt : min text.length 127 < errstr.ready.chars.length := by
      rw [errstr.ready.size]
      omega
    rw [put_chars _ hnil, List.drop_eq_getElem_cons hlt,
      cstr_eq_iff fun hmem => h (List.mem_of_mem_take hmem), Room,
      List.getElem?_eq_getElem hlt, Option.some.injEq]
    exact (or_iff_right hnil).symm

section
variable {p : Printf} {strerror : Int → Chars} {pre post : Chars} {errstr : ErrT}

theorem hpErr_eq (h : HasFormat p pre post errstr) (e : Int) :
    hpErr p (.gnu strerror) e errstr = .ok (errstr.ready.put (pre ++ strerror e ++ post)) := by
  obtain ⟨f, hf, hprint⟩ := h
  simp only [hpErr, ErrT.print, hf, StrerrorR.arg, hprint]
  rfl

/-- An `int` does not fit a format that puts a string somewhere. -/
theorem hpErr_xsi (h : HasFormat p pre post errstr) (text : Int → Chars) (rc : Int → Int)
    (e : Int) : hpErr p (.xsi text rc) e errstr = .error .read := by
  obtain ⟨f, hf, hprint⟩ := h
  have hnone : p.sdscatprintf f [.int (rc e)] = none := by
    apply p.typed f [] ['%']
    rw [hprint, hprint]
    simp
  simp only [hpErr, ErrT.print, hf, StrerrorR.arg, hnone]
  rfl

/-- An emptied buffer gets the format `"%s"`. -/
theorem hasFormat_empty (b : ErrT) : HasFormat p [] [] (b.put []) := by
  have hhead : (b.put []).chars.head? = some nul := by rw [put_nil]; rfl
  refine ⟨['%', 's'], ?_, fun a => ?_⟩
  · rw [ready_nul hhead]
    exact cstr_append (s := ['%', 's']) (by decide) _
  · rw [p.string_only, List.nil_append, List.append_nil]

/-- The text of each call stands for its code exactly if the texts before the last are empty and
there is a NUL behind the last. -/
theorem errFollows_iff (hnul : ∀ e, nul ∉ strerror e) (hpre : nul ∉ pre) (hpost : nul ∉ post)
    (es : List Int) : ∀ errstr, HasFormat p pre post errstr →
      (ErrFollows p (.gnu strerror) pre post errstr es ↔ TextsFit strerror pre post errstr es) := by
  have htext : ∀ e, nul ∉ pre ++ strerror e ++ post := by
    intro e
    simp [hnul e, hpre, hpost]
  induction es with
  | nil => exact fun _ _ => Iff.rfl
  | cons e es ih =>
    intro errstr hformat
    rw [ErrFollows, hpErr_eq hformat, text_gnu]
    have hput := cstr_put_iff errstr (htext e)
    cases es with
    | nil =>
      constructor
      · intro ⟨errstr', hcall, hstr, _, _⟩
        obtain rfl := Except.ok.inj hcall
        exact hput.mp hstr
      · exact fun hroom => ⟨_, rfl, hput.mpr hroom, by simp, trivial⟩
    | cons e' es =>
      constructor
      · intro ⟨errstr', hcall, hstr, hempty, hrest⟩
        obtain rfl := Except.ok.inj hcall
        have hnil : (pre ++ strerror e ++ post).take 127 = [] := by
          have hsame := hstr.symm.trans (hempty (List.cons_ne_nil _ _))
          exact Except.ok.inj hsame
        have htext' : pre ++ strerror e ++ post = [] :=
          (List.take_eq_nil_iff.mp hnil).resolve_left (by decide)
        rw [htext'] at hrest
        obtain ⟨hpre', -, hpost'⟩ : pre = [] ∧ strerror e = [] ∧ post = [] := by
          simpa using htext'
        refine ⟨htext', (ih _ ?_).mp hrest⟩
        rw [hpre', hpost']
        exact hasFormat_empty errstr.ready
      · intro ⟨htext', hrest⟩
        obtain ⟨hpre', -, hpost'⟩ : pre = [] ∧ strerror e = [] ∧ post = [] := by
          simpa using htext'
        have hstr := hput.mpr (Or.inl htext')
        rw [htext'] at hstr ⊢
        refine ⟨_, rfl, hstr, fun _ => hstr, (ih _ ?_).mpr hrest⟩
        rw [hpre', hpost']
        exact hasFormat_empty errstr.ready

/-- Once a text is in the buffer that is no format, every call returns it. -/
theorem lerrFollows_stuck {s : Chars} (hs : nul ∉ s) (hne : s ≠ []) (hlen : s.length ≤ 127)
    (hplain : '%' ∉ s) {rest : Chars} (hbuf : errstr.chars = s ++ nul :: rest) (es : List Int) :
    LerrFollows p (.gnu strerror) errstr es ↔ ∀ e ∈ es, (strerror e).take 127 = s := by
  have hhead : errstr.chars.head? ≠ some nul := by
    rw [hbuf, List.head?_append_of_ne_nil _ hne]
    exact fun h => hs (List.mem_of_head? h)
  have hput : (errstr.put s).chars = errstr.chars := by
    rw [put_chars _ hne, Nat.min_eq_left hlen, List.take_of_length_le hlen, hbuf, List.drop_left]
  have hcall : ∀ e, hpLerr p (.gnu strerror) e errstr = .ok (errstr.put s) := by
    intro e
    simp only [hpLerr, hpErr, ErrT.print, ready_eq hhead, hbuf, cstr_append hs rest,
      p.plain _ _ hplain]
    rfl
  have hsame : errstr.put s = errstr := by
    cases errstr
    exact ErrT.mk.injEq .. ▸ hput
  induction es with
  | nil => simp [LerrFollows]
  | cons e es ih =>
    rw [LerrFollows, hcall, hsame, text_gnu, List.forall_mem_cons]
    constructor
    · intro ⟨errstr', hcall', hstr, hrest⟩
      obtain rfl := Except.ok.inj hcall'
      rw [hbuf, cstr_append hs] at hstr
      exact ⟨(Except.ok.inj hstr).symm, ih.mp hrest⟩
    · intro ⟨htext, hrest⟩
      exact ⟨errstr, rfl, by rw [hbuf, cstr_append hs, htext], ih.mpr hrest⟩

/-- The static buffer as long as no text is in it. -/
theorem hasFormat_static (h : errstr.ready = lerrStatic) : HasFormat p [] [] errstr := by
  refine ⟨['%', 's'], ?_, fun a => ?_⟩
  · rw [h]
    exact cstr_append (s := ['%', 's']) (by decide) (List.replicate 125 nul)
  · rw [p.string_only, List.nil_append, List.append_nil]

theorem hpLerr_eq (h : errstr.ready = lerrStatic) (e : Int) :
    hpLerr p (.gnu strerror) e errstr = .ok (errstr.ready.put (strerror e)) := by
  have heq : hpErr p (.gnu strerror) e errstr = _ := hpErr_eq (hasFormat_static h) e
  rwa [List.nil_append, List.append_nil] at heq

theorem static_get {n : Nat} (h : n ≤ 127) :
    lerrStatic.chars[n]? = some nul ↔ n ≠ 0 ∧ n ≠ 1 := by
  match n with
  | 0 => simp [lerrStatic, nul]
  | 1 => simp [lerrStatic, nul]
  | n + 2 =>
    show (List.replicate 126 nul)[n]? = some nul ↔ _
    rw [List.getElem?_replicate, if_pos (by omega)]
    simp

theorem room_static (h : errstr.ready = lerrStatic) (d : Chars) :
    Room errstr d ↔ d.length ≠ 1 := by
  rw [Room, h, static_get (Nat.min_le_right _ _), ← List.length_eq_zero_iff]
  omega

/-- A first text of one character is returned with the `s` of the format behind it; the texts
behind a longer one are the same. -/
theorem lerrFollows_first (h : errstr.ready = lerrStatic) {e : Int} (hnul : nul ∉ strerror e)
    (hne : strerror e ≠ []) (es : List Int) (hplain : es ≠ [] → '%' ∉ (strerror e).take 127) :
    LerrFollows p (.gnu strerror) errstr (e :: es) ↔ (strerror e).length ≠ 1 ∧
      ∀ e' ∈ es, (strerror e').take 127 = (strerror e).take 127 := by
  have hstr := (cstr_put_iff errstr hnul).trans (room_static h (strerror e))
  have hstuck : (strerror e).length ≠ 1 → (LerrFollows p (.gnu strerror) (errstr.ready.put (strerror e)) es ↔
      ∀ e' ∈ es, (strerror e').take 127 = (strerror e).take 127) := by
    intro hlen
    by_cases hes : es = []
    · simp [hes, LerrFollows]
    have hpos := List.length_pos_iff.mpr hne
    have hlt : min (strerror e).length 127 < errstr.ready.chars.length := by
      rw [errstr.ready.size]
      omega
    have hget : errstr.ready.chars[min (strerror e).length 127] = nul := by
      have hroom := ((room_static h _).mpr hlen).resolve_left hne
      rwa [List.getElem?_eq_getElem hlt, Option.some.injEq] at hroom
    have hbuf : (errstr.ready.put (strerror e)).chars = (strerror e).take 127 ++
        nul :: errstr.ready.chars.drop (min (strerror e).length 127 + 1) := by
      rw [put_chars _ hne, List.drop_eq_getElem_cons hlt, hget]
    refine lerrFollows_stuck (fun hmem => hnul (List.mem_of_mem_take hmem)) ?_
      (List.length_take_le 127 _) (hplain hes) hbuf es
    exact fun hnil => hne ((List.take_eq_nil_iff.mp hnil).resolve_left (by decide))
  rw [LerrFollows, hpLerr_eq h, text_gnu]
  constructor
  · intro ⟨errstr', hcall', hstr', hrest⟩
    obtain rfl := Except.ok.inj hcall'
    have hlen := hstr.mp hstr'
    exact ⟨hlen, (hstuck hlen).mp hrest⟩
  · intro ⟨hlen, hsame⟩
    exact ⟨_, rfl, hstr.mpr hlen, (hstuck hlen).mpr hsame⟩

/-- An empty text leaves the buffer ready for the next one. -/
theorem lerrFollows_empty (h : errstr.ready = lerrStatic) {e : Int} (hnil : strerror e = [])
    (es : List Int) :
    (errstr.ready.put []).ready = lerrStatic ∧
      (LerrFollows p (.gnu strerror) errstr (e :: es) ↔
        LerrFollows p (.gnu strerror) (errstr.ready.put []) es) := by
  have hstr : cstr (errstr.ready.put []).chars = .ok ((strerror e).take 127) := by
    rw [hnil]
    exact (cstr_put_iff errstr List.not_mem_nil).mpr (Or.inl rfl)
  refine ⟨?_, ?_⟩
  · rw [h]
    rfl
  · rw [LerrFollows, hpLerr_eq h, text_gnu, hnil]
    rw [hnil] at hstr
    constructor
    · intro ⟨errstr', hcall', _, hrest⟩
      obtain rfl := Except.ok.inj hcall'
      exact hrest
    · exact fun hrest => ⟨_, rfl, hstr, hrest⟩

theorem descriptionsFit_cons (e : Int) (es : List Int) :
    DescriptionsFit strerror (e :: es) ↔
      if strerror e = [] then DescriptionsFit strerror es
      else (strerror e).length ≠ 1 ∧ (∀ e' ∈ es, (strerror e').take 127 = (strerror e).take 127) ∧
        (es ≠ [] → '%' ∉ (strerror e).take 127) := by
  unfold DescriptionsFit
  by_cases hnil : strerror e = []
  · rw [List.map_cons, List.dropWhile_cons_of_pos (by simpa using hnil), if_pos hnil]
  · rw [List.map_cons, List.dropWhile_cons_of_neg (by simpa using hnil), if_neg hnil]
    simp

/-- Calls on the static buffer that fit return the descriptions, and where no description has a
`%` in it only those do. -/
theorem lerrFollows_of_fits (hnul : ∀ e, nul ∉ strerror e) (es : List Int) :
    ∀ errstr, errstr.ready = lerrStatic →
      (DescriptionsFit strerror es → LerrFollows p (.gnu strerror) errstr es) ∧
      ((∀ e ∈ es, '%' ∉ strerror e) → LerrFollows p (.gnu strerror) errstr es → DescriptionsFit strerror es) := by
  induction es with
  | nil => exact fun _ _ => ⟨fun _ => trivial, fun _ _ => trivial⟩
  | cons e es ih =>
    intro errstr h
    rw [descriptionsFit_cons]
    by_cases hnil : strerror e = []
    · obtain ⟨hready, hiff⟩ := lerrFollows_empty (p := p) h hnil es
      obtain ⟨hfits, hfollows⟩ := ih _ hready
      rw [if_pos hnil, hiff]
      exact ⟨hfits, fun hplain => hfollows fun e' he' => hplain e' (List.mem_cons_of_mem e he')⟩
    · rw [if_neg hnil]
      constructor
      · intro ⟨hlen, hsame, hplain⟩
        exact (lerrFollows_first h (hnul e) hnil es hplain).mpr ⟨hlen, hsame⟩
      · intro hplain hfollows
        have hfirst : '%' ∉ (strerror e).take 127 := fun hmem =>
          hplain e List.mem_cons_self (List.mem_of_mem_take hmem)
        obtain ⟨hlen, hsame⟩ :=
          (lerrFollows_first h (hnul e) hnil es fun _ => hfirst).mp hfollows
        exact ⟨hlen, hsame, fun _ => hfirst⟩

theorem errFits_iff (strerrorR : StrerrorR) (hnul : ∀ e, nul ∉ strerrorR.text e)
    (hpre : nul ∉ pre) (hpost : nul ∉ post) (es : List Int) (hformat : HasFormat p pre post errstr) :
    ErrFollows p strerrorR pre post errstr es ↔ ErrFits pre post strerrorR errstr es := by
  cases strerrorR with
  | gnu text => exact errFollows_iff hnul hpre hpost es errstr hformat
  | xsi text rc =>
    cases es with
    | nil => exact iff_of_true trivial rfl
    | cons e es =>
      refine iff_of_false (fun ⟨errstr', hcall, _⟩ => ?_) (List.cons_ne_nil e es)
      rw [hpErr_xsi hformat] at hcall
      cases hcall

/-- Over every sequence of codes, whichever `strerror_r` it is: `hp_lerr` returns the description
of each of them if they fit, and only then where no description has a `%` in it; `hp_err` on one
buffer puts the description of each into the caller's format exactly if they fit. -/
theorem errors_follow (p : Printf) (strerrorR : StrerrorR)
    (hnul : ∀ e, nul ∉ strerrorR.text e) :
    (∀ es, (LerrFits strerrorR es → LerrFollows p strerrorR lerrStatic es) ∧
      ((∀ e ∈ es, '%' ∉ strerrorR.text e) → LerrFollows p strerrorR lerrStatic es →
        LerrFits strerrorR es)) ∧
    ∀ pre post errstr es, nul ∉ pre → nul ∉ post → HasFormat p pre post errstr →
      (ErrFollows p strerrorR pre post errstr es ↔ ErrFits pre post strerrorR errstr es) := by
  refine ⟨fun es => ?_, fun _ _ errstr es hpre hpost hformat =>
    errFits_iff strerrorR hnul hpre hpost es hformat⟩
  cases strerrorR with
  | gnu text => exact lerrFollows_of_fits hnul es lerrStatic rfl
  | xsi text rc =>
    refine ⟨fun hnil => hnil ▸ trivial, fun _ hfollows => ?_⟩
    cases es with
    | nil => rfl
    | cons e es =>
      obtain ⟨errstr', hcall, -⟩ := hfollows
      rw [hpLerr, hpErr_xsi (hasFormat_static rfl)] at hcall
      cases hcall

end

def texts (e : Int) : Chars := if e = 11 then ['b', 'u', 's', 'y'] else ['g', 'o', 'n', 'e']

theorem texts_nul (e : Int) : nul ∉ texts e := by
  unfold texts
  split <;> decide

theorem errors_follow_busy :
    LerrFollows basicPrintf (.gnu texts) lerrStatic [11, 11] ∧
      ErrFollows basicPrintf (.gnu texts) [] [] lerrStatic [2] := by
  obtain ⟨hlerr, herr⟩ := errors_follow basicPrintf (.gnu texts) texts_nul
  refine ⟨(hlerr [11, 11]).1 (by simp [LerrFits, DescriptionsFit, texts]), ?_⟩
  exact (herr [] [] lerrStatic [2] List.not_mem_nil List.not_mem_nil
    (hasFormat_static rfl)).mpr (Or.inr ((static_get (by decide)).mpr (by decide)))

/-- The second error gets the text of the first, which is the format of the second call. With the
other `strerror_r` the first call has nothing to print. -/
theorem text_stays :
    (¬ ∀ es, LerrFollows basicPrintf (.gnu texts) lerrStatic es) ∧
      hpLerr basicPrintf (.gnu texts) 2 (lerrStatic.put (texts 11)) =
        .ok (lerrStatic.put (texts 11)) ∧
      (¬ ∀ es, ErrFollows basicPrintf (.gnu texts) [] [] lerrStatic es) ∧
      hpLerr basicPrintf (.xsi texts fun _ => 0) 2 lerrStatic = .error .read := by
  have hstatic : lerrStatic.ready = lerrStatic := rfl
  have hcall : hpLerr basicPrintf (.gnu texts) 11 lerrStatic = .ok (lerrStatic.put (texts 11)) :=
    hpLerr_eq hstatic 11
  have hagain : hpLerr basicPrintf (.gnu texts) 2 (lerrStatic.put (texts 11)) =
    .ok (lerrStatic.put (texts 11)) := rfl
  have hstr : cstr (lerrStatic.put (texts 11)).chars = .ok ['b', 'u', 's', 'y'] := rfl
  refine ⟨fun h => ?_, hagain, fun h => ?_, rfl⟩
  · obtain ⟨b, hb, -, b', hb', htext, -⟩ := h [11, 2]
    obtain rfl := Except.ok.inj (hcall.symm.trans hb)
    obtain rfl := Except.ok.inj (hagain.symm.trans hb')
    rw [hstr] at htext
    exact absurd htext (by decide)
  · obtain ⟨b, hb, -, hempty, -⟩ := h [11, 2]
    obtain rfl := Except.ok.inj (hcall.symm.trans hb)
    have hnil := hempty (by decide)
    rw [hstr] at hnil
    exact absurd hnil (by decide)

end Libhp.Err
