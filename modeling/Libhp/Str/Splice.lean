import Libhp.Str.ReadBounds

/-!
# What the header edit leaves in the buffer

`hp_http_modify_header` where the line of the first occurrence of the name ends in CRLF: the
old value is cut out, what is behind it moves, and the new value is written in its place.
-/
namespace Libhp.Str
open CInt Memmove

/-- The first occurrence of the name, at `i`, with what follows it: the rest of the line and
what is behind the line. -/
structure Line (b : Buffer) (hdr : CStr) where
  i : Nat
  text : List Byte
  rest : List Byte
  hits : Hits (b.msg.drop i) hdr.bytes
  first : ∀ m < i, ¬ Hits (b.msg.drop m) hdr.bytes
  noLf : (10 : Byte) ∉ text
  behind : b.msg.drop (i + hdr.bytes.length) = text ++ 13 :: 10 :: rest

/-- Where the old value starts. -/
def Line.v {b : Buffer} {hdr : CStr} (line : Line b hdr) : Nat :=
  line.i + hdr.bytes.length + (line.text.takeWhile isSep).length

/-- Where the old value ends. -/
def Line.vend {b : Buffer} {hdr : CStr} (line : Line b hdr) : Nat :=
  line.i + hdr.bytes.length + line.text.length

theorem Line.v_le {b : Buffer} {hdr : CStr} (line : Line b hdr) : line.v ≤ line.vend :=
  Nat.add_le_add_left (List.takeWhile_prefix isSep).length_le _

theorem Line.vend_lt {b : Buffer} {hdr : CStr} (line : Line b hdr) : line.vend < b.len := by
  have hlen := congrArg List.length line.behind
  rw [List.length_drop, b.msg_length] at hlen
  simp only [List.length_append, List.length_cons] at hlen
  rw [Line.vend]
  omega

theorem hits_take {p pat : List Byte} {k : Nat} (h : pat.length ≤ k) :
    Hits (p.take k) pat ↔ Hits p pat := by
  rw [Hits, Hits, List.map_take, List.prefix_take_iff, List.length_map]
  exact and_iff_left h

/-- A place inside the message is the same whether more of the block may be read or not. -/
theorem hits_view {b : Buffer} {lim m : Nat} {pat : List Byte} (hlim : b.len ≤ lim)
    (hm : m + pat.length ≤ b.len) :
    Hits ((b.mem.take lim).drop m) pat ↔ Hits (b.msg.drop m) pat := by
  have hmsg : b.msg.drop m = ((b.mem.take lim).drop m).take (b.len - m) := by
    rw [Buffer.msg, ← List.drop_take, List.take_take, Nat.min_eq_left hlim]
  rw [hmsg, hits_take (by omega)]

/-- The search of a name that an `int` holds the length of and the message could hold. -/
theorem findHdr_name {b : Buffer} {hdr : CStr} (hlen : hdr.bytes.length ≤ b.len)
    (hname : hdr.bytes.length ≤ INT_MAX) (view : List Byte) :
    findHdr (toSize (toInt hdr.bytes.length)) hdr.bytes
        (toSize (b.len - toInt hdr.bytes.length)) 0 view =
      findHdr hdr.bytes.length hdr.bytes (b.len - hdr.bytes.length) 0 view := by
  have hshort := b.short
  have hfits := b.fits
  rw [toInt_length hname, toSize_length (by omega), toSize_sub hlen (by omega)]

/-- The search of the call, where the name is found. -/
theorem findHdr_at {b : Buffer} {hdr : CStr} {i : Nat} (hi : i + hdr.bytes.length < b.len)
    (hits : Hits (b.msg.drop i) hdr.bytes) (hfirst : ∀ m < i, ¬ Hits (b.msg.drop m) hdr.bytes)
    (hname : hdr.bytes.length ≤ INT_MAX) {lim : Nat} (hlim : b.len ≤ lim) :
    findHdr (toSize (toInt hdr.bytes.length)) hdr.bytes
      (toSize (b.len - toInt hdr.bytes.length)) 0 (b.mem.take lim) = .ok (some i) := by
  rw [findHdr_name (by omega) hname]
  have h := findHdr_found (n := hdr.bytes.length) (s := hdr.bytes) (j := i)
    (k := b.len - hdr.bytes.length) 0 (p := b.mem.take lim) (by omega)
  rw [pattern_length, Nat.zero_add] at h
  apply h ((hits_view hlim (by omega)).mpr hits)
  intro m hm hitsm
  exact hfirst m hm ((hits_view hlim (by omega)).mp hitsm)

/-- The call goes on behind the first place where the name is found. -/
theorem hpHttpModifyHeader_at {b : Buffer} {hdr : CStr} {i : Nat}
    (hi : i + hdr.bytes.length < b.len) (hits : Hits (b.msg.drop i) hdr.bytes)
    (hfirst : ∀ m < i, ¬ Hits (b.msg.drop m) hdr.bytes) (hname : hdr.bytes.length ≤ INT_MAX)
    {lim : Nat} (hlim : b.len ≤ lim) (nvalue ovalue : Option CStr) :
    hpHttpModifyHeader b lim hdr nvalue ovalue = afterScan b (b.mem.take lim) nvalue ovalue
      (scan ((b.mem.take lim).drop (i + hdr.bytes.length)) (i + hdr.bytes.length) none none) := by
  rw [hpHttpModifyHeader]
  dsimp only
  rw [findHdr_at hi hits hfirst hname hlim]
  dsimp only
  rw [toInt_length hname, if_neg (by omega),
    show ((i : Int) + hdr.bytes.length).toNat = i + hdr.bytes.length by omega]

/-- It comes to the value in that line. -/
theorem hpHttpModifyHeader_line {b : Buffer} {hdr : CStr} (line : Line b hdr)
    (hname : hdr.bytes.length ≤ INT_MAX) {lim : Nat} (hlim : b.len ≤ lim)
    (nvalue ovalue : Option CStr) :
    hpHttpModifyHeader b lim hdr nvalue ovalue =
      setValue b (b.mem.take lim) line.v line.vend nvalue ovalue := by
  have hend := line.vend_lt
  rw [Line.vend] at hend
  have hview : (b.mem.take lim).drop (line.i + hdr.bytes.length) =
      line.text ++ 13 :: 10 :: (line.rest ++ (b.mem.take lim).drop b.len) := by
    have hcut := List.take_append_drop (b.len - (line.i + hdr.bytes.length))
      ((b.mem.take lim).drop (line.i + hdr.bytes.length))
    rw [← List.drop_take, List.take_take, Nat.min_eq_left hlim, ← Buffer.msg, line.behind,
      List.drop_drop, show line.i + hdr.bytes.length + (b.len - (line.i + hdr.bytes.length)) =
        b.len by omega] at hcut
    rw [← hcut]
    simp
  rw [hpHttpModifyHeader_at (by omega) line.hits line.first hname hlim, hview, scan_line line.noLf]
  rfl

def newBytes : Option CStr → List Byte
  | none => []
  | some s => s.bytes

/-- The call goes through and does what it reports: a success leaves `value` in the place of the
bytes from `v` to `vend`, anything else leaves everything as it was. -/
def Spliced (b : Buffer) (v vend : Nat) (value : List Byte) (call : Except Fault Out) : Prop :=
  ∃ out, call = .ok out ∧
    (out.rc = 0 → out.len + (vend - v) = b.len + value.length ∧
      out.mem.take out.len = b.msg.take v ++ value ++ b.msg.drop vend) ∧
    (out.rc ≠ 0 → out.mem = b.mem ∧ out.len = b.len)

theorem toInt_span {v vend : Nat} (hv : v ≤ vend) (h : vend - v ≤ INT_MAX) :
    toInt ((vend : Int) - v) = (vend - v : Nat) := by
  rw [← Int.ofNat_sub hv]
  exact toInt_length h

theorem moveTail_ok {b : Buffer} {lim vend : Nat} {nc : Int} (hend : vend ≤ b.len)
    (hlim : b.len ≤ lim) (hlow : 0 ≤ vend + nc) (hfit : b.len + nc ≤ b.mem.length) :
    moveTail b lim vend nc =
      .ok (memmove b.mem (vend + nc).toNat vend (b.len - vend), (b.len + nc).toNat) := by
  have hshort := b.short
  have hfits := b.fits
  have hcount : toSize ((b.len : Int) - vend) = b.len - vend := toSize_sub hend (by omega)
  rw [moveTail, hcount, if_neg (by omega), if_neg (by omega), toSize_eq (by omega) (by omega)]

theorem copyValue_ok {mem value : List Byte} {v n : Nat} (hn : n ≤ value.length)
    (hfit : v + n ≤ mem.length) :
    copyValue mem v n value = .ok (mem.take v ++ value.take n ++ mem.drop (v + n)) := by
  rw [copyValue, if_neg (by omega)]

theorem nnvalue_eq (nvalue : Option CStr) :
    (nvalue.elim (0 : Int) fun s => (s.bytes.length : Int)) = (newBytes nvalue).length := by
  cases nvalue <;> rfl

/-- The tail is moved to where the new value ends, also if it is there already. -/
theorem tail_moved {b : Buffer} {lim v vend n : Nat} (hv : v ≤ vend) (hend : vend ≤ b.len)
    (hlim : b.len ≤ lim) (room : b.len + n ≤ b.mem.length + (vend - v)) :
    (if (n : Int) - (vend - v : Nat) ≠ 0 then moveTail b lim vend (n - (vend - v : Nat))
      else .ok (b.mem, b.len)) =
      .ok (memmove b.mem (v + n) vend (b.len - vend), v + n + (b.len - vend)) := by
  by_cases hnc : (n : Int) - (vend - v : Nat) = 0
  · have hback : v + n = vend := by omega
    rw [if_neg (by omega), hback, memmove_self, show vend + (b.len - vend) = b.len by omega]
  · have hto : ((vend : Int) + (n - (vend - v : Nat))).toNat = v + n := by omega
    have hlen : ((b.len : Int) + (n - (vend - v : Nat))).toNat = v + n + (b.len - vend) := by omega
    rw [if_pos hnc, moveTail_ok hend hlim (by omega) (by omega), hto, hlen]

/-- The end of the function on lengths that an `int` holds, after a check that went well. -/
theorem setValue_fits {b : Buffer} {view : List Byte} {v vend : Nat} {nvalue ovalue : Option CStr}
    (hv : v ≤ vend) (hend : vend ≤ b.len) (hview : b.len ≤ view.length)
    (hold : vend - v ≤ INT_MAX) (hnew : (newBytes nvalue).length ≤ INT_MAX)
    (room : b.len + (newBytes nvalue).length ≤ b.mem.length + (vend - v))
    (hsame : sameValue (view.drop v) (vend - v : Nat) ovalue = .ok true) :
    ∃ out, setValue b view v vend nvalue ovalue = .ok out ∧ out.rc = 0 ∧
      out.len + (vend - v) = b.len + (newBytes nvalue).length ∧
      out.mem.take out.len = b.msg.take v ++ newBytes nvalue ++ b.msg.drop vend := by
  have hfits := b.fits
  generalize hvalue : newBytes nvalue = value at hnew room
  have hnhdrvalue : toInt ((vend : Int) - v) = (vend - v : Nat) := toInt_span hv hold
  have hnnvalue : toInt (nvalue.elim (0 : Int) fun s => (s.bytes.length : Int)) = value.length := by
    rw [nnvalue_eq, hvalue, toInt_length hnew]
  have hmoved := tail_moved hv hend hview room
  rw [INT_MAX] at hold hnew
  generalize hzs : memmove b.mem (v + value.length) vend (b.len - vend) = moved at hmoved
  generalize hlen : v + value.length + (b.len - vend) = len at hmoved
  have hlength : moved.length = b.mem.length := by
    rw [← hzs]
    exact length_memmove (by omega) (by omega)
  refine ⟨⟨0, moved.take v ++ value ++ moved.drop (v + value.length), len⟩, ?_, rfl, ?_, ?_⟩
  · rw [setValue, hnhdrvalue, hsame]
    dsimp only
    rw [hnnvalue, if_neg (by omega), hmoved]
    cases nvalue with
    | none =>
      have hnil : value = [] := hvalue.symm
      simp [hnil]
    | some s =>
      have hbytes : s.bytes = value := hvalue
      dsimp only
      rw [hbytes, toSize_length (by omega), copyValue_ok (Nat.le_refl _) (by omega), List.take_length]
  · dsimp only
    omega
  · rw [Buffer.msg, List.take_take, Nat.min_eq_left (by omega), ← hlen]
    exact take_memmove_replace hv hend hfits (by omega) hzs.symm

/-- The end of the function does what it reports on lengths that an `int` holds. -/
theorem setValue_spliced {b : Buffer} {view : List Byte} {v vend : Nat}
    {nvalue : Option CStr} (hv : v ≤ vend) (hend : vend ≤ b.len) (hview : b.len ≤ view.length)
    (hold : vend - v ≤ INT_MAX) (hnew : (newBytes nvalue).length ≤ INT_MAX)
    (room : b.len + (newBytes nvalue).length ≤ b.mem.length + (vend - v)) (ovalue : Option CStr) :
    Spliced b v vend (newBytes nvalue) (setValue b view v vend nvalue ovalue) := by
  obtain ⟨same, hsame⟩ := sameValue_ok hv (Nat.le_trans hend hview) ovalue
  cases same with
  | false =>
    refine ⟨⟨-1, b.mem, b.len⟩, ?_, by simp, fun _ => ⟨rfl, rfl⟩⟩
    rw [setValue, hsame]
  | true =>
    rw [toInt_span hv hold] at hsame
    obtain ⟨out, hout, hrc, hlen, hmem⟩ := setValue_fits hv hend hview hold hnew room hsame
    exact ⟨out, hout, fun _ => ⟨hlen, hmem⟩, fun hne => absurd hrc hne⟩

/-- The ways in which the end of the function returns. -/
theorem setValue_cases {b : Buffer} {view : List Byte} {v vend : Nat} {nvalue ovalue : Option CStr}
    {out : Out} (h : setValue b view v vend nvalue ovalue = .ok out) :
    out = ⟨-1, b.mem, b.len⟩ ∧ ovalue.isSome ∨
      out.rc = 0 ∧ ∃ mem nc, nc = toInt (newBytes nvalue).length - toInt ((vend : Int) - v) ∧
        (if nc ≠ 0 then moveTail b view.length vend nc else .ok (b.mem, b.len)) =
          .ok (mem, out.len) ∧
        ∀ s, nvalue = some s → copyValue mem v (toSize (toInt s.bytes.length)) s.bytes = .ok out.mem := by
  rw [setValue] at h
  cases hsame : sameValue (view.drop v) (toInt ((vend : Int) - v)) ovalue with
  | error e =>
    rw [hsame] at h
    cases h
  | ok same =>
    rw [hsame] at h
    cases same with
    | false =>
      cases h
      refine .inl ⟨rfl, ?_⟩
      cases ovalue with
      | none => simp [sameValue] at hsame
      | some o => rfl
    | true =>
      dsimp only at h
      rw [nnvalue_eq] at h
      generalize hnc : toInt (newBytes nvalue).length - toInt ((vend : Int) - v) = nc at h ⊢
      by_cases hover : nc < -2 ^ 31 ∨ 2 ^ 31 ≤ nc
      · rw [if_pos hover] at h
        cases h
      · rw [if_neg hover] at h
        cases hmoved : (if nc ≠ 0 then moveTail b view.length vend nc else .ok (b.mem, b.len)) with
        | error e =>
          rw [hmoved] at h
          cases h
        | ok moved =>
          rw [hmoved] at h
          right
          cases nvalue with
          | none =>
            cases h
            exact ⟨rfl, moved.1, nc, rfl, hmoved, by simp⟩
          | some s =>
            dsimp only at h
            cases hcopy : copyValue moved.1 v (toSize (toInt (newBytes (some s)).length)) s.bytes with
            | error e =>
              rw [hcopy] at h
              cases h
            | ok mem =>
              rw [hcopy] at h
              cases h
              refine ⟨rfl, moved.1, nc, rfl, hmoved, fun s' hs => ?_⟩
              cases hs
              exact hcopy

/-- The length changes by what the code takes for the difference. -/
theorem moved_len {b : Buffer} {lim vend len : Nat} {mem : List Byte} {nc : Int}
    (hend : vend ≤ b.len)
    (h : (if nc ≠ 0 then moveTail b lim vend nc else .ok (b.mem, b.len)) = .ok (mem, len)) :
    (len : Int) = b.len + nc := by
  have hshort := b.short
  have hfits := b.fits
  by_cases hzero : nc = 0
  · rw [if_neg (by omega)] at h
    cases h
    omega
  · rw [if_pos hzero, moveTail] at h
    by_cases hread : lim < vend + toSize ((b.len : Int) - vend)
    · rw [if_pos hread] at h
      cases h
    · rw [if_neg hread] at h
      by_cases hwrite : (vend : Int) + nc < 0 ∨
          (b.mem.length : Int) < vend + nc + toSize ((b.len : Int) - vend)
      · rw [if_pos hwrite] at h
        cases h
      · rw [if_neg hwrite] at h
        cases h
        rw [toSize_eq (n := b.len - vend) (by omega) (by omega)] at hwrite
        rw [toSize_eq (by omega) (by omega)]
        omega

/-- A copy that goes through has a count that an `int` holds. -/
theorem copyValue_count {mem mem' : List Byte} {v : Nat} {s : CStr}
    (h : copyValue mem v (toSize (toInt s.bytes.length)) s.bytes = .ok mem') :
    0 ≤ toInt s.bytes.length := by
  by_contra hneg
  have hrange := toInt_range s.bytes.length
  have hhuge := toSize_neg (Int.not_le.mp hneg) (by omega)
  have hs := s.short
  rw [copyValue, if_pos (by omega)] at h
  cases h

/-- Of the new value only as many bytes count as its length has as an `int`. -/
theorem setValue_congr (b : Buffer) (view : List Byte) (v vend : Nat) {s s' : CStr}
    (ovalue : Option CStr) (hlen : s.bytes.length = s'.bytes.length)
    (htake : s.bytes.take (toSize (toInt s.bytes.length)) =
      s'.bytes.take (toSize (toInt s.bytes.length))) :
    setValue b view v vend (some s) ovalue = setValue b view v vend (some s') ovalue := by
  have hnnvalue : ((some s).elim 0 fun s => (s.bytes.length : Int)) =
      (some s').elim 0 fun s => (s.bytes.length : Int) := congrArg Nat.cast hlen
  rw [hlen] at htake
  have hcopy : ∀ mem, copyValue mem v (toSize (toInt s'.bytes.length)) s.bytes =
      copyValue mem v (toSize (toInt s'.bytes.length)) s'.bytes := by
    intro mem
    rw [copyValue, copyValue, htake, hlen]
  rw [setValue, setValue, hnnvalue, Option.elim_some]
  generalize toInt (s'.bytes.length : Int) = nnvalue at hcopy ⊢
  simp only [hcopy]

/-- The value of a given length that is `c` all over, but for its last byte. -/
def filled (c last : Byte) : Nat → List Byte
  | 0 => []
  | n + 1 => List.replicate n c ++ [last]

@[simp] theorem filled_length (c last : Byte) (n : Nat) : (filled c last n).length = n := by
  cases n <;> simp [filled]

def filledStr (c last : Byte) (n : Nat) (hc : c ≠ 0) (hlast : last ≠ 0) (hn : n < 2 ^ 63) : CStr where
  bytes := filled c last n
  nonzero := by
    cases n with
    | zero => simp [filled]
    | succ n =>
      intro b hb
      rw [filled, List.mem_append, List.mem_replicate, List.mem_singleton] at hb
      rcases hb with ⟨-, rfl⟩ | rfl
      · exact hc
      · exact hlast
  short := by rwa [filled_length]

/-- If every new value of one length is put in the place of the old one, an `int` holds both
lengths. -/
theorem lengths_fit {b : Buffer} {view : List Byte} {v vend n : Nat} (hv : v ≤ vend)
    (hend : vend ≤ b.len) (room : b.len + n ≤ b.mem.length + (vend - v))
    (h : ∀ nvalue, (newBytes nvalue).length = n →
      Spliced b v vend (newBytes nvalue) (setValue b view v vend nvalue none)) :
    vend - v ≤ INT_MAX ∧ n ≤ INT_MAX := by
  have hshort := b.short
  have hfits := b.fits
  have hn : n < 2 ^ 63 := by omega
  let one := filledStr 1 1 n (by decide) (by decide) hn
  let two := filledStr 1 2 n (by decide) (by decide) hn
  have hlength : (newBytes (some one)).length = n := filled_length 1 1 n
  obtain ⟨out, hout, hok, -⟩ := h (some one) hlength
  obtain ⟨-, hsome⟩ | ⟨hrc, mem, nc, hnc, hmoved, hcopy⟩ := setValue_cases hout
  · cases hsome
  have hpos := copyValue_count (hcopy one rfl)
  rw [show one.bytes.length = n from hlength] at hpos
  have hlen := moved_len hend hmoved
  obtain ⟨hout_len, hmem⟩ := hok hrc
  rw [hlength] at hnc hout_len
  have hnew := toInt_range n
  have hold := toInt_range ((vend : Int) - v)
  have hle : toInt n ≤ n := toInt_le (by omega)
  -- the two lengths are short by the same amount
  have hshift : toInt n - toInt ((vend : Int) - v) = n - (vend - v : Nat) := by omega
  by_cases hsame : toInt n = n
  · rw [INT_MAX]
    omega
  · -- the last byte of the value is not copied
    obtain ⟨k, rfl⟩ : ∃ k, n = k + 1 := ⟨n - 1, by omega⟩
    have htake : (filled 1 1 (k + 1)).take (toSize (toInt (k + 1 : Nat))) =
        (filled 1 2 (k + 1)).take (toSize (toInt (k + 1 : Nat))) := by
      rw [toSize_eq hpos (by omega), filled, filled, List.take_append_of_le_length,
        List.take_append_of_le_length] <;> rw [List.length_replicate] <;> omega
    have hcongr : setValue b view v vend (some one) none = setValue b view v vend (some two) none := by
      apply setValue_congr b view v vend none
      · exact (filled_length 1 1 (k + 1)).trans (filled_length 1 2 (k + 1)).symm
      · rw [show one.bytes.length = k + 1 from filled_length 1 1 (k + 1)]
        exact htake
    obtain ⟨out', hout', hok', -⟩ := h (some two) (filled_length 1 2 (k + 1))
    rw [← hcongr, hout] at hout'
    cases hout'
    obtain ⟨-, hmem'⟩ := hok' hrc
    rw [hmem, List.append_left_inj, List.append_right_inj] at hmem'
    have hlast : filled 1 1 (k + 1) = filled 1 2 (k + 1) := hmem'
    rw [filled, filled, List.append_right_inj] at hlast
    simp at hlast

/-- Where an `int` holds the length of the name: every new value of a length that the block has
room for goes in the place of the old one, whatever old value is expected, exactly if an `int`
holds the length of the old value and that of the new one. -/
theorem spliced_iff {b : Buffer} {hdr : CStr} (line : Line b hdr)
    (hname : hdr.bytes.length ≤ INT_MAX) {n : Nat}
    (room : b.len + n ≤ b.mem.length + (line.vend - line.v)) :
    (∀ nvalue ovalue, (newBytes nvalue).length = n →
      Spliced b line.v line.vend (newBytes nvalue)
        (hpHttpModifyHeader b b.mem.length hdr nvalue ovalue)) ↔
      line.vend - line.v ≤ INT_MAX ∧ n ≤ INT_MAX := by
  have hrun := hpHttpModifyHeader_line line hname b.fits
  rw [List.take_length] at hrun
  have hend := line.vend_lt
  constructor
  · intro h
    apply lengths_fit line.v_le (Nat.le_of_lt hend) room
    intro nvalue hn
    rw [← hrun]
    exact h nvalue none hn
  · intro ⟨hold, hnew⟩ nvalue ovalue rfl
    rw [hrun]
    exact setValue_spliced line.v_le (Nat.le_of_lt hend) b.fits hold hnew room ovalue

/-- `"Host: a\r\nX"` in a block of eleven bytes. -/
def shortMsg : Buffer :=
  ⟨[72, 111, 115, 116, 58, 32, 97, 13, 10, 88, 0], 10, by decide, by decide⟩

def shortLine : Line shortMsg host where
  i := 0
  text := [58, 32, 97]
  rest := [88]
  hits := by decide
  first := fun m hm => absurd hm (Nat.not_lt_zero m)
  noLf := by decide
  behind := rfl

def twoChars : CStr := ⟨[98, 99], by simp, by decide⟩

/-- The block has one byte more than the message, for the longer value. -/
theorem spliced_iff_short :
    hpHttpModifyHeader shortMsg 11 host (some twoChars) none =
        .ok ⟨0, [72, 111, 115, 116, 58, 32, 98, 99, 13, 10, 88], 11⟩ ∧
      Spliced shortMsg 6 7 [98, 99] (hpHttpModifyHeader shortMsg 11 host (some twoChars) none) :=
  ⟨by decide +kernel, (spliced_iff shortLine (by decide) (by decide)).mpr ⟨by decide, by decide⟩
    (some twoChars) none rfl⟩

/-- `"Host:"`, a value of `n` bytes and a CRLF. -/
def longMsg (n : Nat) (hn : n < 2 ^ 40) : Buffer where
  mem := [72, 111, 115, 116] ++ (58 :: List.replicate n 97 ++ [13, 10])
  len := n + 7
  fits := by simp
  short := by
    simp only [List.length_append, List.length_cons, List.length_replicate, List.length_nil]
    omega

def longLine (n : Nat) (hn : n < 2 ^ 40) : Line (longMsg n hn) host where
  i := 0
  text := 58 :: List.replicate n 97
  rest := []
  hits := by
    rw [List.drop_zero, Buffer.msg, hits_take (by simp [host, longMsg])]
    simp [host, longMsg]
  first := fun m hm => absurd hm (Nat.not_lt_zero m)
  noLf := by simp
  behind := by simp [Buffer.msg, longMsg, host]

theorem longLine_v (n : Nat) (hn : n < 2 ^ 40) : (longLine n hn).v = 5 := by
  have hsep : ∀ k, (List.replicate k (97 : Byte)).takeWhile isSep = [] := by
    intro k
    cases k <;> simp [List.replicate_succ, isSep]
  simp [Line.v, longLine, host, isSep, hsep]

theorem longLine_vend (n : Nat) (hn : n < 2 ^ 40) : (longLine n hn).vend = n + 5 := by
  simp only [Line.vend, longLine, host, List.length_cons, List.length_replicate, List.length_nil]
  omega

/-- A value whose length is 0 as an `int` is not removed. -/
theorem setValue_stays (b : Buffer) (view : List Byte) {v vend : Nat}
    (h : toInt ((vend : Int) - v) = 0) :
    setValue b view v vend none none = .ok ⟨0, b.mem, b.len⟩ := by
  have hzero : toInt ((none : Option CStr).elim 0 fun s => (s.bytes.length : Int)) = 0 := by decide
  rw [setValue, h, sameValue]
  dsimp only
  rw [hzero]
  simp

/-- An old value whose length is 0 as an `int`: the call that removes it reports success and
leaves it where it is. -/
theorem longMsg_stays {n : Nat} (hn : n < 2 ^ 40) (hpos : 0 < n) (hzero : toInt n = 0) :
    let b := longMsg n hn
    let line := longLine n hn
    let call := hpHttpModifyHeader b b.mem.length host none none
    call = .ok ⟨0, b.mem, b.len⟩ ∧ ¬ Spliced b line.v line.vend (newBytes none) call := by
  intro b line call
  have hv : line.v = 5 := longLine_v n hn
  have hvend : line.vend = n + 5 := longLine_vend n hn
  have hcall : call = .ok ⟨0, b.mem, b.len⟩ := by
    rw [show call = _ from hpHttpModifyHeader_line line (by decide) b.fits none none, hv, hvend]
    apply setValue_stays
    rwa [show ((n + 5 : Nat) : Int) - (5 : Nat) = n by omega]
  refine ⟨hcall, ?_⟩
  intro ⟨out, hout, hok, _⟩
  rw [hcall] at hout
  cases hout
  have hlen := (hok rfl).1
  rw [hv, hvend] at hlen
  have hnone : (newBytes none).length = 0 := rfl
  dsimp only at hlen
  omega

/-- So stays a value of `2 ^ 32` bytes. -/
theorem value_stays :
    let b := longMsg (2 ^ 32) (by decide)
    let line := longLine (2 ^ 32) (by decide)
    let call := hpHttpModifyHeader b b.mem.length host none none
    call = .ok ⟨0, b.mem, b.len⟩ ∧ ¬ Spliced b line.v line.vend (newBytes none) call :=
  longMsg_stays (by decide) (by decide) (by decide)

end Libhp.Str
