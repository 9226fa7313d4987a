import Libhp.Str.Splice

/-!
# Which header is edited

`hp_http_modify_header` on whole HTTP messages. The name is searched for everywhere in the
message and not only at the starts of the header lines.
-/
namespace Libhp.Str
open CInt
open Text (crlf toLower toLower_eq_low)

/-- What may be a header name. -/
structure IsName (s : List Byte) : Prop where
  nonempty : s ≠ []
  token : ∀ b ∈ s, b ≠ 13 ∧ b ≠ 10 ∧ isSep b = false

/-- A header line `name: value`, with any number of blanks before the value. -/
structure Header where
  name : List Byte
  blanks : List Byte
  value : List Byte
  isName : IsName name
  isBlanks : ∀ b ∈ blanks, b = 32 ∨ b = 9
  inLine : ∀ b ∈ value, b ≠ 13 ∧ b ≠ 10
  starts : ∀ b ∈ value.head?, b ≠ 32 ∧ b ≠ 9

structure Message where
  start : List Byte
  headers : List Header
  body : List Byte
  inLine : ∀ b ∈ start, b ≠ 13 ∧ b ≠ 10

def Header.lineWith (x : Header) (value : List Byte) : List Byte :=
  x.name ++ (58 :: x.blanks ++ value ++ crlf)

def Header.line (x : Header) : List Byte := x.lineWith x.value

def lines (xs : List Header) : List Byte := xs.flatMap Header.line

def Message.bytes (m : Message) : List Byte :=
  m.start ++ crlf ++ lines m.headers ++ (crlf ++ m.body)

/-- The names are equal up to case. -/
def Header.named (x : Header) (hdr : List Byte) : Bool := x.name.map toLower = hdr.map toLower

/-- The header lines with this value in the first one of that name. -/
def linesWith (hdr value : List Byte) : List Header → List Byte
  | [] => []
  | x :: xs => if x.named hdr then x.lineWith value ++ lines xs else x.line ++ linesWith hdr value xs

/-- The message with this value in the first header of that name. -/
def Message.bytesWith (m : Message) (hdr value : List Byte) : List Byte :=
  m.start ++ crlf ++ linesWith hdr value m.headers ++ (crlf ++ m.body)

/-- The expected old value is the one that is there, if one is expected. -/
def agrees (value : List Byte) : Option CStr → Bool
  | none => true
  | some o => o.bytes.map toLower = value.map toLower

/-- What an edit of the message in `b` is to do: the first header of the name gets the new value
if it has the expected one, and nothing changes otherwise. -/
def Edits (m : Message) (b : Buffer) (hdr : CStr) (nvalue ovalue : Option CStr)
    (call : Except Fault Out) : Prop :=
  match m.headers.find? (Header.named · hdr.bytes) with
  | none => call = .ok ⟨1, b.mem, b.len⟩
  | some x =>
    if agrees x.value ovalue then
      ∃ out, call = .ok out ∧ out.rc = 0 ∧
        out.len = (m.bytesWith hdr.bytes (newBytes nvalue)).length ∧
        out.mem.take out.len = m.bytesWith hdr.bytes (newBytes nvalue)
    else call = .ok ⟨-1, b.mem, b.len⟩

/-- What stands before a header line. -/
def Message.head (m : Message) (pre : List Header) : List Byte := m.start ++ crlf ++ lines pre

theorem lines_append (xs ys : List Header) : lines (xs ++ ys) = lines xs ++ lines ys :=
  List.flatMap_append

theorem lines_cons (x : Header) (xs : List Header) : lines (x :: xs) = x.line ++ lines xs := rfl

theorem linesWith_append {hdr value : List Byte} {pre post : List Header} {x : Header}
    (hpre : ∀ a ∈ pre, a.named hdr = false) (hx : x.named hdr = true) :
    linesWith hdr value (pre ++ x :: post) = lines pre ++ x.lineWith value ++ lines post := by
  induction pre with
  | nil => simp [linesWith, hx, lines]
  | cons a pre ih =>
    have ha : a.named hdr = false := hpre a List.mem_cons_self
    rw [List.cons_append, linesWith, ha, ih fun y hy => hpre y (List.mem_cons_of_mem a hy),
      lines_cons]
    simp

/-- Before a header line there is an LF. -/
theorem Message.head_lf (m : Message) (pre : List Header) : ∃ t, m.head pre = t ++ [10] := by
  rcases List.eq_nil_or_concat pre with rfl | ⟨pre, x, rfl⟩
  · exact ⟨m.start ++ [13], by simp [Message.head, lines, crlf]⟩
  · refine ⟨m.start ++ crlf ++ lines pre ++ (x.name ++ (58 :: x.blanks ++ x.value ++ [13])), ?_⟩
    rw [List.concat_eq_append, Message.head, lines_append, lines_cons, Header.line, Header.lineWith]
    simp [lines, crlf]

section
variable {m : Message} {pre post : List Header} {x : Header}

theorem Message.bytes_split (hm : m.headers = pre ++ x :: post) :
    m.bytes = m.head pre ++ (x.name ++ ((58 :: x.blanks ++ x.value) ++
      13 :: 10 :: (lines post ++ (crlf ++ m.body)))) := by
  rw [Message.bytes, hm, lines_append, lines_cons, Message.head, Header.line, Header.lineWith]
  simp [crlf]

theorem Message.bytesWith_split (hm : m.headers = pre ++ x :: post) {hdr : List Byte}
    (hpre : ∀ a ∈ pre, a.named hdr = false) (hx : x.named hdr = true) (value : List Byte) :
    m.bytesWith hdr value = (m.head pre ++ x.name ++ 58 :: x.blanks) ++ value ++
      13 :: 10 :: (lines post ++ (crlf ++ m.body)) := by
  rw [Message.bytesWith, hm, linesWith_append hpre hx, Message.head, Header.lineWith]
  simp [crlf]

end

theorem Header.named_length {x : Header} {hdr : List Byte} (h : x.named hdr = true) :
    x.name.length = hdr.length := by
  have hlen := congrArg List.length (of_decide_eq_true h)
  rwa [List.length_map, List.length_map] at hlen

/-- The name stands at the start of its line. -/
theorem Header.named_hits {x : Header} {hdr : List Byte} (h : x.named hdr = true) (t : List Byte) :
    Hits (x.name ++ t) hdr := by
  rw [Hits, List.map_append, of_decide_eq_true h]
  exact List.prefix_append _ _

/-- A name stands in one line. -/
theorem Hits.noLf {p pat : List Byte} {k : Nat} (h : Hits p pat) (hpat : (10 : Byte) ∉ pat)
    (hk : k < pat.length) : p[k]? ≠ some 10 := by
  intro hp
  obtain ⟨t, ht⟩ := h
  have hat : (pat.map toLower)[k]? = (p.map toLower)[k]? := by
    rw [← ht, List.getElem?_append_left (by rwa [List.length_map])]
  rw [List.getElem?_map, List.getElem?_map, hp, List.getElem?_eq_getElem hk] at hat
  have hlf : pat[k] = 10 := (toLower_eq_low (by decide) _).mp (Option.some.inj hat)
  exact hpat (hlf ▸ List.getElem_mem hk)

/-- Where the edit is right: the name is not longer than the message, and the first place where
it stands (but for the very end) is the first header line of the name, with a value that does
not start with a colon and whose length an `int` holds. -/
structure FindsHeader (m : Message) (hdr : List Byte) : Prop where
  fits : hdr.length ≤ m.bytes.length
  first : ∀ i, i + hdr.length < m.bytes.length → Hits (m.bytes.drop i) hdr →
    (∀ k < i, ¬ Hits (m.bytes.drop k) hdr) →
    ∃ pre x post, m.headers = pre ++ x :: post ∧ (∀ a ∈ pre, a.named hdr = false) ∧
      x.named hdr = true ∧ i = (m.head pre).length ∧ x.value.head? ≠ some 58 ∧
      x.value.length ≤ INT_MAX

theorem afterScan_rc {b : Buffer} {view : List Byte} {nvalue ovalue : Option CStr}
    {ends : Except Fault (Option Nat × Option Nat)} {out : Out}
    (h : afterScan b view nvalue ovalue ends = .ok out) : out.rc ≠ 1 := by
  obtain e | ⟨_ | v, _ | vend⟩ := ends
  · cases h
  · cases h
    simp
  · cases h
    simp
  · cases h
    simp
  · obtain ⟨rfl, -⟩ | ⟨hzero, -⟩ := setValue_cases h
    · simp
    · omega

/-- Only a search that finds nothing is reported as such. -/
theorem not_found_of_rc {b : Buffer} {lim : Nat} {hdr : CStr} {nvalue ovalue : Option CStr}
    {out : Out} (h : hpHttpModifyHeader b lim hdr nvalue ovalue = .ok out) (hrc : out.rc = 1) :
    findHdr (toSize (toInt hdr.bytes.length)) hdr.bytes
      (toSize (b.len - toInt hdr.bytes.length)) 0 (b.mem.take lim) = .ok none := by
  rw [hpHttpModifyHeader] at h
  dsimp only at h
  cases hfind : findHdr (toSize (toInt hdr.bytes.length)) hdr.bytes
      (toSize (b.len - toInt hdr.bytes.length)) 0 (b.mem.take lim) with
  | error e =>
    rw [hfind] at h
    cases h
  | ok found =>
    cases found with
    | none => rfl
    | some i =>
      exfalso
      rw [hfind] at h
      dsimp only at h
      by_cases hp : (i : Int) + toInt hdr.bytes.length < 0
      · rw [if_pos hp] at h
        cases h
      · rw [if_neg hp] at h
        exact afterScan_rc h hrc

section
variable {b : Buffer} {hdr : CStr}

/-- A name that is longer than the message is never reported as missing. -/
theorem short_found (hlen : b.len < hdr.bytes.length) (hname : hdr.bytes.length ≤ INT_MAX)
    {lim : Nat} {nvalue ovalue : Option CStr} {out : Out}
    (h : hpHttpModifyHeader b lim hdr nvalue ovalue = .ok out) : out.rc ≠ 1 := by
  intro hrc
  have hshort := b.short
  have hnone := not_found_of_rc h hrc
  rw [toInt_length hname] at hnone
  rw [INT_MAX] at hname
  have hne : pattern (toSize (hdr.bytes.length : Int)) hdr.bytes ≠ [] := by
    rw [toSize_length (by omega), pattern_length]
    exact List.ne_nil_of_length_pos (by omega)
  have hhuge := toSize_neg (n := b.len - hdr.bytes.length) (by omega) (by omega)
  refine findHdr_ne_none 0 hne ?_ hnone
  rw [List.length_take]
  omega

/-- The search of a name that stands nowhere (but for the very end). -/
theorem missing_reported (hlen : hdr.bytes.length ≤ b.len) (hname : hdr.bytes.length ≤ INT_MAX)
    (hmiss : ∀ i, i + hdr.bytes.length < b.len → ¬ Hits (b.msg.drop i) hdr.bytes)
    (nvalue ovalue : Option CStr) :
    hpHttpModifyHeader b b.mem.length hdr nvalue ovalue = .ok ⟨1, b.mem, b.len⟩ := by
  have hfits := b.fits
  have hnone : findHdr hdr.bytes.length hdr.bytes (b.len - hdr.bytes.length) 0
      (b.mem.take b.mem.length) = .ok none := by
    refine findHdr_none 0 (fun k hk => ?_) ?_
    · rw [pattern_length, hits_view hfits (by omega)]
      exact hmiss k (by omega)
    · rw [pattern_length, List.length_take]
      omega
  rw [hpHttpModifyHeader]
  dsimp only
  rw [findHdr_name hlen hname, hnone]

def byteStr (c : Byte) (hc : c ≠ 0) : CStr where
  bytes := [c]
  nonzero := fun b hb => List.mem_singleton.mp hb ▸ hc
  short := by simp

/-- A place that is found before some LF: a new value of one byte is written before that LF. -/
theorem written_before {i q : Nat} (hi : i + hdr.bytes.length ≤ q) (hq : b.msg[q]? = some 10)
    (hits : Hits (b.msg.drop i) hdr.bytes) (hfirst : ∀ m < i, ¬ Hits (b.msg.drop m) hdr.bytes)
    (hname : hdr.bytes.length ≤ INT_MAX) :
    ∃ w ≤ q, ∀ c hc out,
      hpHttpModifyHeader b b.mem.length hdr (some (byteStr c hc)) none = .ok out → out.rc = 0 →
        (out.mem.take out.len)[w]? = some c := by
  have hfits := b.fits
  have hlt := (List.getElem?_eq_some_iff.mp hq).1
  rw [b.msg_length] at hlt
  have hlf : (b.mem.drop (i + hdr.bytes.length))[q - (i + hdr.bytes.length)]? = some 10 := by
    rw [Buffer.msg, List.getElem?_take_of_lt hlt] at hq
    rw [List.getElem?_drop, ← hq]
    congr 1
    omega
  obtain ⟨v', vend, hscan, hends⟩ := scan_lf hlf (i + hdr.bytes.length) (v := none) (by simp)
  have hcall := hpHttpModifyHeader_at (by omega) hits hfirst hname hfits
  rw [List.take_length, hscan] at hcall
  cases vend with
  | none =>
    refine ⟨q, Nat.le_refl q, fun c hc out hout hrc => ?_⟩
    rw [hcall, afterScan_open] at hout
    cases hout
    cases hrc
  | some e =>
    obtain ⟨w, rfl, hwe, he⟩ := hends e rfl
    refine ⟨w, by omega, fun c hc out hout hrc => ?_⟩
    rw [hcall, afterScan_closed] at hout
    obtain ⟨-, hsome⟩ | ⟨-, mem, nc, hnc, hmoved, hcopy⟩ := setValue_cases hout
    · cases hsome
    have hlen := moved_len (by omega) hmoved
    have hone : toInt ((newBytes (some (byteStr c hc))).length : Int) = 1 :=
      toInt_eq (n := 1) (by decide) (by decide)
    have hcount : toSize (toInt (byteStr c hc).bytes.length) = 1 :=
      (congrArg toSize hone).trans (toSize_eq (by decide) (by decide))
    have hold : toInt ((e : Int) - w) ≤ e - w := toInt_le (by omega)
    have hcopied := hcopy _ rfl
    rw [hcount, copyValue] at hcopied
    by_cases hwrite : (byteStr c hc).bytes.length < 1 ∨ mem.length < w + 1
    · rw [if_pos hwrite] at hcopied
      cases hcopied
    · rw [if_neg hwrite] at hcopied
      have htake : (mem.take w).length = w := List.length_take_of_le (by omega)
      rw [← Except.ok.inj hcopied, List.getElem?_take_of_lt (by omega), List.append_assoc,
        List.getElem?_append_right (by omega), htake, Nat.sub_self]
      rfl

end

/-- The check of the old value answers whether it is the expected one. -/
theorem sameValue_agrees {view value t : List Byte} (hview : view = value ++ t)
    (hlen : value.length ≤ INT_MAX) (ovalue : Option CStr) :
    sameValue view value.length ovalue = .ok (agrees value ovalue) := by
  rw [INT_MAX] at hlen
  cases ovalue with
  | none => rfl
  | some o =>
    have hsize : toSize (value.length : Int) = value.length := toSize_length (by omega)
    rw [sameValue, hsize]
    by_cases ho : o.bytes.length = value.length
    · have hpat := pattern_length o.bytes
      rw [if_pos ho, ← ho, strncasecmp_fits (by rw [hpat, hview, List.length_append]; omega), hpat]
      congr 1
      rw [agrees]
      apply decide_eq_decide.mpr
      have htake : (value.map toLower ++ t.map toLower).take (o.bytes.map toLower).length =
          value.map toLower := List.take_left' (by rw [List.length_map, List.length_map, ho])
      rw [Hits, hview, List.map_append, List.prefix_iff_eq_take, htake]
    · rw [if_neg ho]
      congr 1
      rw [agrees, eq_comm, decide_eq_false_iff_not]
      intro heq
      have := congrArg List.length heq
      rw [List.length_map, List.length_map] at this
      exact ho this

section
variable {m : Message} {b : Buffer} {hdr : CStr} {pre post : List Header} {x : Header}

theorem find_first (hm : m.headers = pre ++ x :: post) (hpre : ∀ a ∈ pre, a.named hdr.bytes = false)
    (hx : x.named hdr.bytes = true) : m.headers.find? (Header.named · hdr.bytes) = some x := by
  rw [hm, List.find?_append, List.find?_eq_none.mpr fun a ha => by simp [hpre a ha]]
  simp [hx]

/-- The line of a header that is found first. -/
def headerLine (hb : b.msg = m.bytes) (hm : m.headers = pre ++ x :: post)
    (hx : x.named hdr.bytes = true)
    (hfirst : ∀ k < (m.head pre).length, ¬ Hits (b.msg.drop k) hdr.bytes) : Line b hdr where
  i := (m.head pre).length
  text := 58 :: x.blanks ++ x.value
  rest := lines post ++ (crlf ++ m.body)
  hits := by
    rw [hb, Message.bytes_split hm, List.drop_left]
    exact Header.named_hits hx _
  first := hfirst
  noLf := by
    intro hlf
    rcases List.mem_append.mp hlf with hlf | hlf
    · rcases List.mem_cons.mp hlf with hlf | hlf
      · cases hlf
      · rcases x.isBlanks 10 hlf with h | h <;> cases h
    · exact (x.inLine 10 hlf).2 rfl
  behind := by
    rw [hb, Message.bytes_split hm, ← List.append_assoc, ← Header.named_length hx,
      List.drop_left' (List.length_append ..)]

/-- The code takes for the value what is behind the separators. -/
theorem headerLine_v (hb : b.msg = m.bytes) (hm : m.headers = pre ++ x :: post)
    (hx : x.named hdr.bytes = true)
    (hfirst : ∀ k < (m.head pre).length, ¬ Hits (b.msg.drop k) hdr.bytes) :
    (headerLine hb hm hx hfirst).v = (m.head pre ++ x.name ++ 58 :: x.blanks).length +
      (x.value.takeWhile isSep).length := by
  have hblanks : ∀ c ∈ 58 :: x.blanks, isSep c = true := by
    intro c hc
    rcases List.mem_cons.mp hc with rfl | hc
    · decide
    · rcases x.isBlanks c hc with rfl | rfl <;> decide
  have hlen := Header.named_length hx
  rw [Line.v, headerLine, List.takeWhile_append_of_pos hblanks]
  simp only [List.length_append, List.length_cons]
  omega

theorem headerLine_vend (hb : b.msg = m.bytes) (hm : m.headers = pre ++ x :: post)
    (hx : x.named hdr.bytes = true)
    (hfirst : ∀ k < (m.head pre).length, ¬ Hits (b.msg.drop k) hdr.bytes) :
    (headerLine hb hm hx hfirst).vend =
      (m.head pre ++ x.name ++ 58 :: x.blanks).length + x.value.length := by
  have hlen := Header.named_length hx
  rw [Line.vend, headerLine]
  simp only [List.length_append, List.length_cons]
  omega

theorem takeWhile_value (h : x.value.head? ≠ some 58) : x.value.takeWhile isSep = [] := by
  have hstarts := x.starts
  cases hvalue : x.value with
  | nil => rfl
  | cons c t =>
    rw [hvalue] at h hstarts
    have hc := hstarts c rfl
    have hcolon : c ≠ 58 := fun hc => h (congrArg some hc)
    rw [List.takeWhile_cons_of_neg]
    simp [isSep, hcolon, hc.1, hc.2]

/-- A header that is found first is edited as it should be, as far as an `int` holds the
lengths. -/
theorem edits_first (hb : b.msg = m.bytes) (hm : m.headers = pre ++ x :: post)
    (hpre : ∀ a ∈ pre, a.named hdr.bytes = false) (hx : x.named hdr.bytes = true)
    (hfirst : ∀ k < (m.head pre).length, ¬ Hits (b.msg.drop k) hdr.bytes)
    (hname : hdr.bytes.length ≤ INT_MAX) (hcolon : x.value.head? ≠ some 58)
    (hold : x.value.length ≤ INT_MAX) {nvalue : Option CStr}
    (hnew : (newBytes nvalue).length ≤ INT_MAX)
    (room : b.len + (newBytes nvalue).length ≤ b.mem.length) (ovalue : Option CStr) :
    Edits m b hdr nvalue ovalue (hpHttpModifyHeader b b.mem.length hdr nvalue ovalue) := by
  have hfits := b.fits
  have hlt := (headerLine hb hm hx hfirst).vend_lt
  have hcall := hpHttpModifyHeader_line (headerLine hb hm hx hfirst) hname hfits nvalue ovalue
  rw [headerLine_vend] at hlt
  rw [headerLine_v, headerLine_vend, takeWhile_value hcolon, List.length_nil, Nat.add_zero,
    List.take_length] at hcall
  have hsplit : b.msg = (m.head pre ++ x.name ++ 58 :: x.blanks) ++ (x.value ++
      13 :: 10 :: (lines post ++ (crlf ++ m.body))) := by
    rw [hb, Message.bytes_split hm]
    simp
  have hwith := Message.bytesWith_split hm hpre hx (newBytes nvalue)
  generalize m.head pre ++ x.name ++ 58 :: x.blanks = before at *
  generalize 13 :: 10 :: (lines post ++ (crlf ++ m.body)) = behind at *
  have hview : b.mem.drop before.length = x.value ++ (behind ++ b.mem.drop b.len) := by
    have hcut := List.take_append_drop b.len b.mem
    rw [← Buffer.msg, hsplit] at hcut
    rw [← List.append_assoc, ← @List.drop_left _ before
      (x.value ++ behind ++ b.mem.drop b.len), ← List.append_assoc, hcut]
  have hsame := sameValue_agrees hview hold ovalue
  have hnhdrvalue : toInt (((before.length + x.value.length : Nat) : Int) - before.length) =
      x.value.length := by
    rw [toInt_span (Nat.le_add_right ..), Nat.add_sub_cancel_left]
    rwa [Nat.add_sub_cancel_left]
  rw [Edits, find_first hm hpre hx, hcall]
  dsimp only
  by_cases hagrees : agrees x.value ovalue = true
  · rw [if_pos hagrees]
    rw [hagrees] at hsame
    have hvend : before.length ≤ before.length + x.value.length := Nat.le_add_right ..
    obtain ⟨out, hout, hrc, hlen, hmem⟩ := setValue_fits hvend (by omega) hfits
      (by rwa [Nat.add_sub_cancel_left]) hnew (by omega) (by rwa [Nat.add_sub_cancel_left])
    refine ⟨out, hout, hrc, ?_, ?_⟩
    · have htotal := congrArg List.length hsplit
      rw [b.msg_length] at htotal
      rw [hwith]
      simp only [List.length_append] at htotal ⊢
      omega
    · rw [hmem, hwith, hsplit, List.take_left, ← List.drop_drop, List.drop_left, List.drop_left]
  · rw [if_neg hagrees, setValue, hnhdrvalue, hsame, Bool.eq_false_iff.mpr hagrees]

/-- If the removal of its value is the right edit, nothing of the value counts as a separator, and
an `int` holds its length. -/
theorem value_left (hb : b.msg = m.bytes) (hm : m.headers = pre ++ x :: post)
    (hpre : ∀ a ∈ pre, a.named hdr.bytes = false) (hx : x.named hdr.bytes = true)
    (hfirst : ∀ k < (m.head pre).length, ¬ Hits (b.msg.drop k) hdr.bytes)
    (hname : hdr.bytes.length ≤ INT_MAX)
    (h : Edits m b hdr none none (hpHttpModifyHeader b b.mem.length hdr none none)) :
    x.value.head? ≠ some 58 ∧ x.value.length ≤ INT_MAX := by
  have hfits := b.fits
  have hlt := (headerLine hb hm hx hfirst).vend_lt
  have hcall := hpHttpModifyHeader_line (headerLine hb hm hx hfirst) hname hfits none none
  rw [headerLine_vend] at hlt
  rw [headerLine_v, headerLine_vend, List.take_length] at hcall
  rw [Edits, find_first hm hpre hx] at h
  dsimp only at h
  have hagrees : agrees x.value none = true := rfl
  rw [if_pos hagrees] at h
  obtain ⟨out, hout, -, hwith, -⟩ := h
  rw [hcall] at hout
  obtain ⟨-, hsome⟩ | ⟨-, mem, nc, hnc, hmoved, -⟩ := setValue_cases hout
  · cases hsome
  have hlen := moved_len (by omega) hmoved
  have htotal := congrArg List.length (Message.bytes_split hm)
  rw [← hb, b.msg_length] at htotal
  rw [Message.bytesWith_split hm hpre hx] at hwith
  have hnew : (newBytes none).length = 0 := rfl
  simp only [List.length_append, List.length_cons, hnew] at hlt htotal hwith hnc
  generalize hsep : (x.value.takeWhile isSep).length = sep at hnc
  have hsep_le := (List.takeWhile_prefix isSep (l := x.value)).length_le
  have hzero : toInt ((0 : Nat) : Int) = 0 := by decide
  generalize hspan : ((_ : Nat) : Int) - ((_ : Nat) : Int) = span at hnc
  have hle := toInt_le (n := span) (by omega)
  have hrange := toInt_range span
  have hall : sep = 0 ∧ span = x.value.length := by
    omega
  rw [INT_MAX]
  refine ⟨fun hcolon => ?_, by omega⟩
  obtain ⟨t, ht⟩ := List.head?_eq_some_iff.mp hcolon
  rw [ht, List.takeWhile_cons_of_pos (by decide), List.length_cons] at hsep
  omega

/-- If the name stands somewhere before its header line, some new value of one byte goes
there. -/
theorem wrong_place (hb : b.msg = m.bytes) (hm : m.headers = pre ++ x :: post)
    (hpre : ∀ a ∈ pre, a.named hdr.bytes = false) (hx : x.named hdr.bytes = true)
    (hdrOk : IsName hdr.bytes) (hname : hdr.bytes.length ≤ INT_MAX) {i : Nat}
    (hi : i < (m.head pre).length) (hits : Hits (b.msg.drop i) hdr.bytes)
    (hfirst : ∀ k < i, ¬ Hits (b.msg.drop k) hdr.bytes)
    (h : ∀ c hc, Edits m b hdr (some (byteStr c hc)) none
      (hpHttpModifyHeader b b.mem.length hdr (some (byteStr c hc)) none)) : False := by
  obtain ⟨t, ht⟩ := m.head_lf pre
  have hlen := congrArg List.length ht
  rw [List.length_append, List.length_singleton] at hlen
  have hlf : b.msg[t.length]? = some 10 := by
    rw [hb, Message.bytes_split hm, List.getElem?_append_left (by omega), ht]
    simp
  have hline : i + hdr.bytes.length ≤ t.length := by
    by_contra hin
    refine hits.noLf (k := t.length - i) (fun hmem => (hdrOk.token 10 hmem).2.1 rfl) (by omega) ?_
    rw [List.getElem?_drop, ← hlf]
    congr 1
    omega
  obtain ⟨w, hw, hwrites⟩ := written_before hline hlf hits hfirst hname
  have hkept : ∀ c, c ≠ 0 → (m.head pre)[w]? = some c := by
    intro c hc
    have hedit := h c hc
    rw [Edits, find_first hm hpre hx] at hedit
    dsimp only at hedit
    have hagrees : agrees x.value none = true := rfl
    rw [if_pos hagrees] at hedit
    obtain ⟨out, hout, hrc, -, hmem⟩ := hedit
    rw [← hwrites c hc out hout hrc, hmem, Message.bytesWith_split hm hpre hx, List.append_assoc,
      List.append_assoc, List.append_assoc, List.getElem?_append_left (by omega)]
  have hone := hkept 1 (by decide)
  have htwo := hkept 2 (by decide)
  rw [hone] at htwo
  cases htwo

/-- A header of the name is a place where the name stands. -/
theorem header_stands (hb : b.msg = m.bytes)
    (hfind : m.headers.find? (Header.named · hdr.bytes) = some x) :
    ∃ pre post, m.headers = pre ++ x :: post ∧ (∀ a ∈ pre, a.named hdr.bytes = false) ∧
      x.named hdr.bytes = true ∧ (m.head pre).length + hdr.bytes.length < b.len ∧
      Hits (b.msg.drop (m.head pre).length) hdr.bytes := by
  obtain ⟨hx, pre, post, hm, hpre⟩ := List.find?_eq_some_iff_append.mp hfind
  refine ⟨pre, post, hm, fun a ha => by simpa using hpre a ha, hx, ?_, ?_⟩
  · rw [← b.msg_length, hb, Message.bytes_split hm, ← Header.named_length hx]
    simp only [List.length_append, List.length_cons]
    omega
  · rw [hb, Message.bytes_split hm, List.drop_left]
    exact Header.named_hits hx _

/-- Where the name stands at the start of its header line the edit is the right one. -/
theorem edits_of_findsHeader (hb : b.msg = m.bytes) (hname : hdr.bytes.length ≤ INT_MAX)
    (h : FindsHeader m hdr.bytes) {nvalue : Option CStr}
    (hnew : (newBytes nvalue).length ≤ INT_MAX)
    (room : b.len + (newBytes nvalue).length ≤ b.mem.length) (ovalue : Option CStr) :
    Edits m b hdr nvalue ovalue (hpHttpModifyHeader b b.mem.length hdr nvalue ovalue) := by
  obtain ⟨hlen, hplace⟩ := h
  rw [← hb] at hplace hlen
  rw [b.msg_length] at hplace hlen
  rcases first_hit hdr.bytes b.msg (b.len - hdr.bytes.length) with ⟨i, hi, hits, hfirst⟩ | hmiss
  · obtain ⟨pre, x, post, hm, hpre, hx, rfl, hcolon, hold⟩ := hplace i (by omega) hits hfirst
    exact edits_first hb hm hpre hx hfirst hname hcolon hold hnew room ovalue
  · rw [Edits]
    cases hfind : m.headers.find? (Header.named · hdr.bytes) with
    | none => exact missing_reported hlen hname (fun i hi => hmiss i (by omega)) nvalue ovalue
    | some x =>
      obtain ⟨pre, post, -, -, -, hin, hhere⟩ := header_stands hb hfind
      exact absurd hhere (hmiss _ (by omega))

/-- If the removal of the value and all new values of one byte are the right edits, the name
stands at the start of its header line. -/
theorem findsHeader_of_edits (hb : b.msg = m.bytes) (hdrOk : IsName hdr.bytes)
    (hname : hdr.bytes.length ≤ INT_MAX)
    (hnone : Edits m b hdr none none (hpHttpModifyHeader b b.mem.length hdr none none))
    (hbyte : ∀ c hc, Edits m b hdr (some (byteStr c hc)) none
      (hpHttpModifyHeader b b.mem.length hdr (some (byteStr c hc)) none)) :
    FindsHeader m hdr.bytes := by
  have hedit := hnone
  rw [Edits] at hedit
  constructor
  · rw [← hb, b.msg_length]
    by_contra hshort
    cases hfind : m.headers.find? (Header.named · hdr.bytes) with
    | none =>
      rw [hfind] at hedit
      exact short_found (by omega) hname hedit rfl
    | some x =>
      obtain ⟨pre, post, -, -, -, hin, -⟩ := header_stands hb hfind
      omega
  · rw [← hb]
    intro i hi hits hfirst
    rw [b.msg_length] at hi
    cases hfind : m.headers.find? (Header.named · hdr.bytes) with
    | none =>
      rw [hfind] at hedit
      have hmiss := not_found_of_rc hedit rfl
      rw [findHdr_at hi hits hfirst hname b.fits] at hmiss
      cases hmiss
    | some x =>
      obtain ⟨pre, post, hm, hpre, hx, -, hhere⟩ := header_stands hb hfind
      rcases Nat.lt_trichotomy i (m.head pre).length with hlt | rfl | hgt
      · exact (wrong_place hb hm hpre hx hdrOk hname hlt hits hfirst hbyte).elim
      · exact ⟨pre, x, post, hm, hpre, hx, rfl, value_left hb hm hpre hx hfirst hname hnone⟩
      · exact absurd hhere (hfirst _ hgt)

/-- In a block with room for one more byte: for every new value that an `int` holds the length
of and that the block has room for, and for every expected old value, the edit is the right one,
exactly where the name first stands at the start of its header line. -/
theorem edits_iff (hb : b.msg = m.bytes) (spare : b.len < b.mem.length) (hdrOk : IsName hdr.bytes)
    (hname : hdr.bytes.length ≤ INT_MAX) :
    (∀ nvalue ovalue, (newBytes nvalue).length ≤ INT_MAX →
      b.len + (newBytes nvalue).length ≤ b.mem.length →
      Edits m b hdr nvalue ovalue (hpHttpModifyHeader b b.mem.length hdr nvalue ovalue)) ↔
      FindsHeader m hdr.bytes := by
  constructor
  · intro h
    apply findsHeader_of_edits hb hdrOk hname (h none none (by decide) spare.le)
    intro c hc
    have hone : (newBytes (some (byteStr c hc))).length = 1 := rfl
    exact h _ none (by rw [hone]; decide) (by omega)
  · intro h nvalue ovalue hnew room
    exact edits_of_findsHeader hb hname h hnew room ovalue

end

theorem hostName : IsName host.bytes := ⟨by simp [host], by simp [host, isSep]⟩

/-- `"Host: "` and a value of one byte -/
def hostHeader (c : Byte) (h : c ≠ 13 ∧ c ≠ 10 ∧ c ≠ 32 ∧ c ≠ 9) : Header where
  name := host.bytes
  blanks := [32]
  value := [c]
  isName := hostName
  isBlanks := by simp
  inLine := by simpa using ⟨h.1, h.2.1⟩
  starts := by simpa using h.2.2

/-- `"X-Host: a"` -/
def xHostHeader : Header where
  name := [88, 45, 72, 111, 115, 116]
  blanks := [32]
  value := [97]
  isName := ⟨by simp, by simp [isSep]⟩
  isBlanks := by simp
  inLine := by simp
  starts := by simp

/-- `"GET / HTTP/1.1"` -/
def getLine : List Byte := [71, 69, 84, 32, 47, 32, 72, 84, 84, 80, 47, 49, 46, 49]

/-- A request with the header `"Host: b"` behind the given ones. -/
def request (xs : List Header) : Message where
  start := getLine
  headers := xs ++ [hostHeader 98 (by decide)]
  body := []
  inLine := by simp [getLine]

/-- The message with one spare byte. -/
def inBlock (m : Message) (h : m.bytes.length < 1000) : Buffer where
  mem := m.bytes ++ [0]
  len := m.bytes.length
  fits := by simp
  short := by
    rw [List.length_append, List.length_singleton]
    omega

theorem inBlock_msg (m : Message) (h : m.bytes.length < 1000) : (inBlock m h).msg = m.bytes :=
  List.take_left

/-- The first place where `Host` stands is the header line, in which `b` becomes `c`. -/
theorem edits_iff_host :
    let b := inBlock (request []) (by decide)
    hpHttpModifyHeader b 28 host (some (byteStr 99 (by decide))) none =
        .ok ⟨0, b.mem.set 22 99, b.len⟩ ∧
      Edits (request []) b host (some (byteStr 99 (by decide))) none
        (hpHttpModifyHeader b 28 host (some (byteStr 99 (by decide))) none) := by
  refine ⟨by decide +kernel, (edits_iff (inBlock_msg (request []) (by decide)) (by decide) hostName
    (by decide)).mpr ⟨by decide, fun i hi hits hbefore => ?_⟩ _ _ (by decide) (by decide)⟩
  have hhere : ∀ j < 27, Hits ((request []).bytes.drop j) host.bytes → j = 16 := by decide
  obtain rfl := hhere i (Nat.lt_of_le_of_lt (Nat.le_add_right i _) hi) hits
  exact ⟨[], hostHeader 98 (by decide), [], rfl, fun a ha => absurd ha List.not_mem_nil,
    by decide, by decide, by decide, by decide⟩

/-- Before the header `"Host: b"` stands `"X-Host: a"`: its value is the one that is set. -/
theorem other_header_edited :
    let m := request [xHostHeader]
    let b := inBlock m (by decide)
    hpHttpModifyHeader b b.mem.length host (some (byteStr 99 (by decide))) none =
        .ok ⟨0, b.mem.set 24 99, b.len⟩ ∧
      ¬ Edits m b host (some (byteStr 99 (by decide))) none
        (hpHttpModifyHeader b b.mem.length host (some (byteStr 99 (by decide))) none) := by
  intro m b
  have hcall : hpHttpModifyHeader b b.mem.length host (some (byteStr 99 (by decide))) none =
      .ok ⟨0, b.mem.set 24 99, b.len⟩ := by decide +kernel
  refine ⟨hcall, fun hedit => ?_⟩
  rw [hcall] at hedit
  obtain ⟨out, hout, -, -, hmem⟩ := hedit
  cases hout
  revert hmem
  decide +kernel

end Libhp.Str
