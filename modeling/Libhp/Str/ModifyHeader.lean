import Libhp.Lib.Text
import Libhp.Str.Mem

/-!
# Editing a header in place

`hp_http_modify_header` of `hp_str.c`. A pointer into the buffer is the list of the bytes from
it on, up to the last one that may be read; a byte that is not there is a fault, and so is a
write outside of the block. The lengths that the code keeps in an `int` are converted as C
converts them, and what it subtracts from a `size_t` wraps around.
-/
namespace Libhp.Str
open CInt
open Text (toLower toLower_eq_low)

/-- `buf` and `*len`: a block of memory, and how much of it is the message. -/
structure Buffer where
  mem : List Byte
  len : Nat
  fits : len ≤ mem.length
  short : mem.length < 2 ^ 63

/-- What a call leaves behind: its value, the block and `*len`. -/
structure Out where
  rc : Int
  mem : List Byte
  len : Nat
  deriving DecidableEq, Repr

/-- `strncasecmp(p, s, n) == 0` -/
def strncasecmp : Nat → List Byte → List Byte → Except Fault Bool
  | 0, _, _ => .ok true
  | _ + 1, [], _ => .error .read
  -- the NUL of `s`
  | _ + 1, a :: _, [] => .ok (a = 0)
  | n + 1, a :: p, b :: s => if toLower a = toLower b then strncasecmp n p s else .ok false

/-- The search: `k` rounds are left and `p` is `buf + i`. -/
def findHdr (n : Nat) (hdr : List Byte) : Nat → Nat → List Byte → Except Fault (Option Nat)
  | 0, _, _ => .ok none
  | k + 1, i, p =>
    match strncasecmp n p hdr with
    | .error e => .error e
    | .ok true => .ok (some i)
    | .ok false => findHdr n hdr k (i + 1) p.tail

/-- `*p == '\n'` at the byte behind a CR. -/
def lfBehind : List Byte → Except Fault Bool
  | [] => .error .read
  | b :: _ => .ok (b = 10)

/-- The characters between the name and the value. -/
def isSep (b : Byte) : Bool := b = 58 || b = 32 || b = 9

/-- The loop over the rest of the line, with `p` at offset `off`, for `v` and `vend`. -/
def scan : List Byte → Nat → Option Nat → Option Nat → Except Fault (Option Nat × Option Nat)
  | [], _, _, _ => .error .read
  | b :: p, off, v, vend =>
    if b = 10 then .ok (v, vend)
    else
      let v := if v.isNone && !isSep b then some off else v
      match (if vend.isNone && b = 13 then lfBehind p else .ok false) with
      | .error e => .error e
      | .ok crlf =>
        let vend := if crlf then some off else vend
        if v.isSome && vend.isSome then .ok (v, vend) else scan p (off + 1) v vend

/-- `strlen(ovalue) == nhdrvalue && strncasecmp(v, ovalue, nhdrvalue) == 0`, where `ovalue` is
given. -/
def sameValue (v : List Byte) (nhdrvalue : Int) : Option CStr → Except Fault Bool
  | none => .ok true
  | some ovalue =>
    if ovalue.bytes.length = toSize nhdrvalue then strncasecmp (toSize nhdrvalue) v ovalue.bytes
    else .ok false

/-- `memmove(vend + nc, vend, *len - (vend - buf)); *len += nc`, where `lim` bytes may be read. -/
def moveTail (b : Buffer) (lim vend : Nat) (nc : Int) : Except Fault (List Byte × Nat) :=
  let n := toSize (b.len - vend)
  if lim < vend + n then .error .read
  else if (vend : Int) + nc < 0 ∨ (b.mem.length : Int) < vend + nc + n then .error .write
  else .ok (Memmove.memmove b.mem (vend + nc).toNat vend n, toSize (b.len + nc))

/-- `memcpy(v, nvalue, nnvalue)` -/
def copyValue (mem : List Byte) (v n : Nat) (nvalue : List Byte) : Except Fault (List Byte) :=
  if nvalue.length < n ∨ mem.length < v + n then .error .write
  else .ok (mem.take v ++ nvalue.take n ++ mem.drop (v + n))

/-- The end of the function, from the check of the old value on. -/
def setValue (b : Buffer) (view : List Byte) (v vend : Nat) (nvalue ovalue : Option CStr) :
    Except Fault Out :=
  let nhdrvalue := toInt ((vend : Int) - v)
  match sameValue (view.drop v) nhdrvalue ovalue with
  | .error e => .error e
  | .ok false => .ok ⟨-1, b.mem, b.len⟩
  | .ok true =>
    let nnvalue := toInt (nvalue.elim 0 fun s => (s.bytes.length : Int))
    let nc := nnvalue - nhdrvalue
    if nc < -2 ^ 31 ∨ 2 ^ 31 ≤ nc then .error .overflow
    else
      match (if nc ≠ 0 then moveTail b view.length vend nc else .ok (b.mem, b.len)) with
      | .error e => .error e
      | .ok (mem, len) =>
        match nvalue with
        | none => .ok ⟨0, mem, len⟩
        | some s =>
          match copyValue mem v (toSize nnvalue) s.bytes with
          | .error e => .error e
          | .ok mem => .ok ⟨0, mem, len⟩

/-- What follows the loop over the line: a line without a value or an end is not edited. -/
def afterScan (b : Buffer) (view : List Byte) (nvalue ovalue : Option CStr) :
    Except Fault (Option Nat × Option Nat) → Except Fault Out
  | .error e => .error e
  | .ok (some v, some vend) => setValue b view v vend nvalue ovalue
  | .ok _ => .ok ⟨-1, b.mem, b.len⟩

/-- `hp_http_modify_header`, where the first `lim` bytes of the block may be read. -/
def hpHttpModifyHeader (b : Buffer) (lim : Nat) (hdr : CStr) (nvalue ovalue : Option CStr) :
    Except Fault Out :=
  let view := b.mem.take lim
  let nhdr := toInt hdr.bytes.length
  match findHdr (toSize nhdr) hdr.bytes (toSize (b.len - nhdr)) 0 view with
  | .error e => .error e
  | .ok none => .ok ⟨1, b.mem, b.len⟩
  | .ok (some i) =>
    let p := (i : Int) + nhdr
    if p < 0 then .error .read
    else afterScan b view nvalue ovalue (scan (view.drop p.toNat) p.toNat none none)

section
variable (b : Buffer) (view : List Byte) (nvalue ovalue : Option CStr)

@[simp] theorem afterScan_error (e : Fault) :
    afterScan b view nvalue ovalue (.error e) = .error e :=
  rfl

@[simp] theorem afterScan_open (v : Option Nat) :
    afterScan b view nvalue ovalue (.ok (v, none)) = .ok ⟨-1, b.mem, b.len⟩ := by
  cases v <;> rfl

@[simp] theorem afterScan_closed (v vend : Nat) :
    afterScan b view nvalue ovalue (.ok (some v, some vend)) = setValue b view v vend nvalue ovalue :=
  rfl

end

/-- What the bytes at a pointer have to be for `strncasecmp` with this count to answer 0. -/
def pattern (n : Nat) (s : List Byte) : List Byte := if n ≤ s.length then s.take n else s ++ [0]

@[simp] theorem pattern_zero (s : List Byte) : pattern 0 s = [] := by
  simp [pattern]

@[simp] theorem pattern_nil (n : Nat) : pattern (n + 1) [] = [0] := by
  simp [pattern]

@[simp] theorem pattern_cons (n : Nat) (b : Byte) (s : List Byte) :
    pattern (n + 1) (b :: s) = b :: pattern n s := by
  simp only [pattern, List.length_cons, Nat.add_le_add_iff_right]
  split <;> simp

theorem pattern_length (s : List Byte) : pattern s.length s = s := by
  rw [pattern, if_pos (Nat.le_refl _), List.take_length]

/-- `pat` stands at the start of `p`, up to the case of its letters. -/
def Hits (p pat : List Byte) : Prop := pat.map toLower <+: p.map toLower

instance (p pat : List Byte) : Decidable (Hits p pat) := inferInstanceAs (Decidable (_ <+: _))

@[simp] theorem hits_nil (p : List Byte) : Hits p [] := List.nil_prefix

@[simp] theorem hits_cons (a b : Byte) (p pat : List Byte) :
    Hits (a :: p) (b :: pat) ↔ toLower a = toLower b ∧ Hits p pat := by
  rw [Hits, List.map_cons, List.map_cons, List.cons_prefix_cons, eq_comm]
  rfl

@[simp] theorem not_hits_nil (b : Byte) (pat : List Byte) : ¬ Hits [] (b :: pat) := by
  simp [Hits]

theorem Hits.length_le {p pat : List Byte} (h : Hits p pat) : pat.length ≤ p.length := by
  simpa using List.IsPrefix.length_le h

theorem strncasecmp_hits {n : Nat} {p s : List Byte} (h : Hits p (pattern n s)) :
    strncasecmp n p s = .ok true := by
  induction s generalizing n p with
  | nil =>
    cases n with
    | zero => rfl
    | succ n =>
      cases p with
      | nil => simp at h
      | cons a p =>
        rw [pattern_nil, hits_cons, toLower_eq_low (by decide)] at h
        simp [strncasecmp, h.1]
  | cons b s ih =>
    cases n with
    | zero => rfl
    | succ n =>
      cases p with
      | nil => simp at h
      | cons a p =>
        rw [pattern_cons, hits_cons] at h
        rw [strncasecmp, if_pos h.1]
        exact ih h.2

/-- Where the pattern does not stand the answer is not 0, unless the bytes run out. -/
theorem strncasecmp_misses {n : Nat} {p s : List Byte} (h : ¬ Hits p (pattern n s)) :
    strncasecmp n p s = .ok false ∨
      strncasecmp n p s = .error .read ∧ p.length < (pattern n s).length := by
  induction s generalizing n p with
  | nil =>
    cases n with
    | zero => simp at h
    | succ n =>
      cases p with
      | nil => exact .inr ⟨rfl, by simp⟩
      | cons a p =>
        rw [pattern_nil, hits_cons, toLower_eq_low (by decide)] at h
        left
        simpa [strncasecmp] using h
  | cons b s ih =>
    cases n with
    | zero => simp at h
    | succ n =>
      cases p with
      | nil => exact .inr ⟨rfl, by simp⟩
      | cons a p =>
        rw [pattern_cons, hits_cons] at h
        rw [strncasecmp, pattern_cons]
        by_cases hab : toLower a = toLower b
        · rw [if_pos hab]
          rcases ih fun hits => h ⟨hab, hits⟩ with hfalse | ⟨herr, hlen⟩
          · exact .inl hfalse
          · exact .inr ⟨herr, by simpa using hlen⟩
        · rw [if_neg hab]
          exact .inl rfl

/-- With enough bytes to compare there is an answer. -/
theorem strncasecmp_fits {n : Nat} {p s : List Byte} (h : (pattern n s).length ≤ p.length) :
    strncasecmp n p s = .ok (decide (Hits p (pattern n s))) := by
  by_cases hits : Hits p (pattern n s)
  · rw [strncasecmp_hits hits, decide_eq_true hits]
  · rw [decide_eq_false hits]
    rcases strncasecmp_misses hits with hfalse | ⟨-, hlt⟩
    · exact hfalse
    · omega

section
variable {n : Nat} {s : List Byte}

/-- The first place where the pattern stands, if it is among those that are searched. -/
theorem findHdr_found {j k : Nat} (i : Nat) {p : List Byte} (hj : j < k)
    (hits : Hits (p.drop j) (pattern n s)) (hfirst : ∀ m < j, ¬ Hits (p.drop m) (pattern n s)) :
    findHdr n s k i p = .ok (some (i + j)) := by
  induction j generalizing i k p with
  | zero =>
    obtain ⟨k, rfl⟩ : ∃ k', k = k' + 1 := ⟨k - 1, by omega⟩
    rw [List.drop_zero] at hits
    rw [findHdr, strncasecmp_hits hits]
    rfl
  | succ j ih =>
    obtain ⟨k, rfl⟩ : ∃ k', k = k' + 1 := ⟨k - 1, by omega⟩
    have hmiss : ¬ Hits p (pattern n s) := hfirst 0 (Nat.succ_pos j)
    have hfits : (pattern n s).length ≤ p.length := by
      have hlen := hits.length_le
      rw [List.length_drop] at hlen
      omega
    rw [findHdr, strncasecmp_fits hfits, decide_eq_false hmiss]
    have hrest := ih (i + 1) (p := p.tail) (Nat.lt_of_succ_lt_succ hj) (by rwa [List.drop_tail])
      (fun m hm => by rw [List.drop_tail]; exact hfirst (m + 1) (by omega))
    rw [show i + (j + 1) = i + 1 + j by omega]
    exact hrest

theorem findHdr_none {k : Nat} (i : Nat) {p : List Byte}
    (hmiss : ∀ m < k, ¬ Hits (p.drop m) (pattern n s))
    (hfits : k + (pattern n s).length ≤ p.length + 1) : findHdr n s k i p = .ok none := by
  induction k generalizing i p with
  | zero => rfl
  | succ k ih =>
    have hhere : ¬ Hits p (pattern n s) := hmiss 0 (Nat.succ_pos k)
    have hlen : (pattern n s).length ≤ p.length := by omega
    rw [findHdr, strncasecmp_fits hlen, decide_eq_false hhere]
    refine ih (i + 1) (fun m hm => ?_) (by rw [List.length_tail]; omega)
    rw [List.drop_tail]
    exact hmiss (m + 1) (by omega)

/-- Without such a place a search that goes on behind the last byte reads there. -/
theorem findHdr_off {k : Nat} (i : Nat) {p : List Byte} (hne : pattern n s ≠ [])
    (hmiss : ∀ m, ¬ Hits (p.drop m) (pattern n s)) (hlong : p.length < k) :
    findHdr n s k i p = .error .read := by
  induction k generalizing i p with
  | zero => omega
  | succ k ih =>
    have hhere : ¬ Hits p (pattern n s) := hmiss 0
    rw [findHdr]
    rcases strncasecmp_misses hhere with hfalse | ⟨herr, -⟩
    · rw [hfalse]
      have hpos : p ≠ [] := by
        intro hnil
        have hlen := List.length_pos_of_ne_nil hne
        rw [strncasecmp.eq_def] at hfalse
        cases n with
        | zero => simp at hne
        | succ n => simp [hnil] at hfalse
      refine ih (i + 1) (fun m => ?_) ?_
      · rw [List.drop_tail]
        exact hmiss (m + 1)
      · have := List.length_pos_of_ne_nil hpos
        rw [List.length_tail]
        omega
    · rw [herr]

/-- The first place, or none at all. -/
theorem first_hit (pat p : List Byte) (k : Nat) :
    (∃ j < k, Hits (p.drop j) pat ∧ ∀ m < j, ¬ Hits (p.drop m) pat) ∨
      ∀ j < k, ¬ Hits (p.drop j) pat := by
  by_cases h : ∃ j, j < k ∧ Hits (p.drop j) pat
  · obtain ⟨hlt, hits⟩ := Nat.find_spec h
    refine .inl ⟨Nat.find h, hlt, hits, fun m hm hhit => ?_⟩
    exact Nat.find_min h hm ⟨by omega, hhit⟩
  · exact .inr fun j hj hits => h ⟨j, hj, hits⟩

/-- A search that goes on behind the last byte never ends in "not found". -/
theorem findHdr_ne_none {k : Nat} (i : Nat) {p : List Byte} (hne : pattern n s ≠ [])
    (hlong : p.length < k) : findHdr n s k i p ≠ .ok none := by
  rcases first_hit (pattern n s) p (p.length + 1) with ⟨j, hj, hits, hfirst⟩ | hmiss
  · rw [findHdr_found i (by omega) hits hfirst]
    simp
  · have hall : ∀ m, ¬ Hits (p.drop m) (pattern n s) := by
      intro m hits
      by_cases hm : m < p.length + 1
      · exact hmiss m hm hits
      · have hlen := hits.length_le
        have := List.length_pos_of_ne_nil hne
        rw [List.length_drop] at hlen
        omega
    rw [findHdr_off i hne hall hlong]
    simp

end

@[simp] theorem isSep_cr : isSep 13 = false := by decide

theorem lfBehind_cons {b : Byte} (h : b ≠ 10) (p : List Byte) : lfBehind (b :: p) = .ok false := by
  rw [lfBehind, decide_eq_false h]

/-- One round of the loop on a byte that ends no line. -/
theorem scan_step {b : Byte} {p : List Byte} (hb : b ≠ 10) (hcr : b = 13 → lfBehind p = .ok false)
    (off : Nat) (v : Option Nat) :
    scan (b :: p) off v none =
      scan p (off + 1) (if v.isNone && !isSep b then some off else v) none := by
  rw [scan, if_neg hb]
  dsimp only
  have hlook : (if Option.isNone (none : Option Nat) && b = 13 then lfBehind p
      else (.ok false : Except Fault Bool)) = .ok false := by
    by_cases h13 : b = 13
    · simp [h13, hcr h13]
    · simp [h13]
  rw [hlook]
  simp

theorem lfBehind_noLf {b : Byte} {t rest : List Byte} (h : (10 : Byte) ∉ t) (hb : b ≠ 10) :
    lfBehind (t ++ b :: rest) = .ok false := by
  cases t with
  | nil => exact lfBehind_cons hb rest
  | cons a t => exact lfBehind_cons (fun ha => h (ha ▸ List.mem_cons_self)) _

/-- A line that ends in CRLF: `v` is behind the separators and `vend` is the CR. -/
theorem scan_line {t : List Byte} (h : (10 : Byte) ∉ t) (rest : List Byte) (off : Nat)
    (v : Option Nat) :
    scan (t ++ 13 :: 10 :: rest) off v none =
      .ok (some (v.getD (off + (t.takeWhile isSep).length)), some (off + t.length)) := by
  induction t generalizing off v with
  | nil => cases v <;> simp [scan, lfBehind]
  | cons b t ih =>
    have hb : b ≠ 10 := fun hb => h (hb ▸ List.mem_cons_self)
    have ht : (10 : Byte) ∉ t := fun ht => h (List.mem_cons_of_mem b ht)
    rw [List.cons_append, scan_step hb fun _ => lfBehind_noLf ht (by decide), ih ht]
    have hlen : off + 1 + t.length = off + (b :: t).length := by
      rw [List.length_cons]
      omega
    rw [hlen]
    cases v with
    | some v => rfl
    | none =>
      cases hsep : isSep b with
      | true => simp [hsep, Nat.add_comm, Nat.add_left_comm]
      | false => simp [hsep]

/-- Without an LF the loop reads behind the last byte. -/
theorem scan_noLf {p : List Byte} (h : (10 : Byte) ∉ p) (off : Nat) (v : Option Nat) :
    scan p off v none = .error .read := by
  induction p generalizing off v with
  | nil => rfl
  | cons b p ih =>
    have hb : b ≠ 10 := fun hb => h (hb ▸ List.mem_cons_self)
    have hp : (10 : Byte) ∉ p := fun hp => h (List.mem_cons_of_mem b hp)
    cases p with
    | nil =>
      by_cases h13 : b = 13
      · simp [scan, h13, lfBehind]
      · simp [scan, hb, h13]
    | cons a p =>
      have ha : a ≠ 10 := fun ha => hp (ha ▸ List.mem_cons_self)
      rw [scan_step hb fun _ => lfBehind_cons ha p, ih hp]

/-- With an LF in it the loop stays before it, and finds an end of the value, if any, behind
the value's start. -/
theorem scan_lf {p : List Byte} {q : Nat} (h : p[q]? = some 10) (off : Nat) {v : Option Nat}
    (hv : ∀ x, v = some x → x ≤ off) :
    ∃ v' vend, scan p off v none = .ok (v', vend) ∧
      ∀ e, vend = some e → ∃ x, v' = some x ∧ x ≤ e ∧ e < off + q := by
  induction p generalizing q off v with
  | nil => simp at h
  | cons b p ih =>
    by_cases hb : b = 10
    · exact ⟨v, none, by rw [scan, if_pos hb], by simp⟩
    · obtain ⟨q, rfl⟩ : ∃ q', q = q' + 1 := by
        cases q with
        | zero => simp at h; exact absurd h hb
        | succ q => exact ⟨q, rfl⟩
      rw [List.getElem?_cons_succ] at h
      by_cases hcrlf : b = 13 ∧ lfBehind p = .ok true
      · obtain ⟨rfl, hlf⟩ := hcrlf
        cases v with
        | some x =>
          refine ⟨some x, some off, by simp [scan, hlf], fun e he => ?_⟩
          cases he
          exact ⟨x, rfl, hv x rfl, by omega⟩
        | none =>
          refine ⟨some off, some off, by simp [scan, hlf], fun e he => ?_⟩
          cases he
          exact ⟨off, rfl, Nat.le_refl _, by omega⟩
      · have hstep : b = 13 → lfBehind p = .ok false := by
          intro h13
          cases p with
          | nil => simp at h
          | cons a p =>
            by_cases ha : a = 10
            · exact absurd ⟨h13, by simp [lfBehind, ha]⟩ hcrlf
            · exact lfBehind_cons ha p
        have hv' : ∀ x, (if v.isNone && !isSep b then some off else v) = some x → x ≤ off + 1 := by
          intro x hx
          split at hx
          · cases hx
            exact Nat.le_succ off
          · exact Nat.le_succ_of_le (hv x hx)
        obtain ⟨v', vend, hrun, hend⟩ := ih h (off + 1) hv'
        refine ⟨v', vend, by rw [scan_step hb hstep, hrun], fun e he => ?_⟩
        obtain ⟨x, hx, hxe, hlt⟩ := hend e he
        exact ⟨x, hx, hxe, by omega⟩

/-- The comparison with the expected value stays inside the value. -/
theorem sameValue_ok {view : List Byte} {v vend : Nat} (hv : v ≤ vend) (hend : vend ≤ view.length)
    (ovalue : Option CStr) :
    ∃ same, sameValue (view.drop v) (toInt ((vend : Int) - v)) ovalue = .ok same := by
  cases ovalue with
  | none => exact ⟨true, rfl⟩
  | some o =>
    by_cases hlen : o.bytes.length = toSize (toInt ((vend : Int) - v))
    · refine ⟨decide (Hits (view.drop v) (pattern o.bytes.length o.bytes)), ?_⟩
      rw [sameValue, if_pos hlen, ← hlen]
      apply strncasecmp_fits
      have hshort := o.short
      have hrange := toInt_range ((vend : Int) - v)
      have hle : toInt ((vend : Int) - v) ≤ vend - v := toInt_le (by omega)
      have hpos : 0 ≤ toInt ((vend : Int) - v) := by
        by_contra hneg
        have := toSize_neg (Int.not_le.mp hneg) (by omega)
        omega
      rw [toSize_eq hpos (by omega)] at hlen
      rw [pattern_length, List.length_drop]
      omega
    · exact ⟨false, by rw [sameValue, if_neg hlen]⟩

end Libhp.Str
