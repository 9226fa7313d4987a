import Libhp.Str.ModifyHeader

/-!
# Which bytes the header edit reads

`hp_http_modify_header` on a block of which only `*len` bytes may be read. The bound of its
search comes from a subtraction that wraps around, and its loop over the line looks for an LF
that partial data may not have.
-/
namespace Libhp.Str
open CInt

def Buffer.msg (b : Buffer) : List Byte := b.mem.take b.len

@[simp] theorem Buffer.msg_length (b : Buffer) : b.msg.length = b.len := by
  rw [Buffer.msg, List.length_take]
  exact Nat.min_eq_left b.fits

/-- Where only the message is read. If the name is found (before the end that the subtraction
gives), the line behind it is not before the buffer, and it ends inside the message; if it is
not, the name is not longer than the message. `n` is the length of the name as an `int`. -/
structure ReadsInside (b : Buffer) (hdr : CStr) (n : Int) : Prop where
  found : ∀ i < toSize (b.len - n), Hits (b.msg.drop i) (pattern (toSize n) hdr.bytes) →
    (∀ m < i, ¬ Hits (b.msg.drop m) (pattern (toSize n) hdr.bytes)) →
    0 ≤ i + n ∧ (10 : Byte) ∈ b.msg.drop (i + n).toNat
  missing : (∀ i < toSize (b.len - n),
    ¬ Hits (b.msg.drop i) (pattern (toSize n) hdr.bytes)) → 0 ≤ n ∧ n ≤ b.len

/-- It is about the first occurrence, where there is one, -/
theorem readsInside_found {b : Buffer} {hdr : CStr} {n : Int} {i : Nat}
    (hi : i < toSize (b.len - n)) (hits : Hits (b.msg.drop i) (pattern (toSize n) hdr.bytes))
    (hfirst : ∀ m < i, ¬ Hits (b.msg.drop m) (pattern (toSize n) hdr.bytes)) :
    ReadsInside b hdr n ↔ 0 ≤ i + n ∧ (10 : Byte) ∈ b.msg.drop (i + n).toNat := by
  constructor
  · exact fun h => h.found i hi hits hfirst
  · refine fun h => ⟨fun j hj hitsj hfirstj => ?_, fun hmiss => absurd hits (hmiss i hi)⟩
    have hsame : j = i := by
      rcases Nat.lt_trichotomy j i with hlt | heq | hgt
      · exact absurd hitsj (hfirst j hlt)
      · exact heq
      · exact absurd hits (hfirstj i hgt)
    rwa [hsame]

/-- and about the two lengths, where there is none. -/
theorem readsInside_missing {b : Buffer} {hdr : CStr} {n : Int}
    (hmiss : ∀ i < toSize (b.len - n), ¬ Hits (b.msg.drop i) (pattern (toSize n) hdr.bytes)) :
    ReadsInside b hdr n ↔ 0 ≤ n ∧ n ≤ b.len :=
  ⟨fun h => h.missing hmiss, fun h => ⟨fun i hi hits _ => absurd hits (hmiss i hi), fun _ => h⟩⟩

/-- The search of a name that the message could hold stops before the end of the message. -/
theorem findHdr_inside {b : Buffer} {hdr : CStr} {n : Int} (hn : n = toInt hdr.bytes.length)
    (h0 : 0 ≤ n) (hlen : n ≤ b.len)
    (hmiss : ∀ i < toSize (b.len - n), ¬ Hits (b.msg.drop i) (pattern (toSize n) hdr.bytes)) :
    findHdr (toSize n) hdr.bytes (toSize (b.len - n)) 0 b.msg = .ok none := by
  have hshort := b.short
  have hfits := b.fits
  have hle : n ≤ hdr.bytes.length := hn ▸ toInt_le (by omega)
  have hsize : toSize n = n.toNat := toSize_eq h0 (by omega)
  have hbound : toSize (b.len - n) = (b.len - n).toNat := toSize_eq (by omega) (by omega)
  have hpat : (pattern (toSize n) hdr.bytes).length = n.toNat := by
    rw [hsize, pattern, if_pos (by omega), List.length_take]
    omega
  apply findHdr_none 0 hmiss
  rw [hpat, hbound, b.msg_length]
  omega

/-- The search of any other name goes on behind it. -/
theorem findHdr_outside {b : Buffer} {hdr : CStr} {n : Int} (hn : n = toInt hdr.bytes.length)
    (hout : ¬ (0 ≤ n ∧ n ≤ b.len))
    (hmiss : ∀ i < toSize (b.len - n), ¬ Hits (b.msg.drop i) (pattern (toSize n) hdr.bytes)) :
    findHdr (toSize n) hdr.bytes (toSize (b.len - n)) 0 b.msg = .error .read := by
  have hshort := b.short
  have hfits := b.fits
  have hrange := toInt_range (hdr.bytes.length : Int)
  rw [← hn] at hrange
  have hne : pattern (toSize n) hdr.bytes ≠ [] := by
    obtain ⟨k, hk⟩ : ∃ k, toSize n = k + 1 := by
      have hpos : 0 < toSize n := by
        by_cases h0 : 0 ≤ n
        · rw [toSize_eq h0 (by omega)]
          omega
        · have := toSize_neg (Int.not_le.mp h0) (by omega)
          omega
      exact ⟨toSize n - 1, by omega⟩
    rw [hk]
    cases hdr.bytes with
    | nil => simp
    | cons c s => simp
  have hlong : b.msg.length < toSize (b.len - n) := by
    rw [b.msg_length]
    by_cases h0 : 0 ≤ n
    · have := toSize_neg (n := b.len - n) (by omega) (by omega)
      omega
    · rw [toSize_eq (by omega) (by omega)]
      omega
  refine findHdr_off 0 hne (fun m hits => ?_) hlong
  by_cases hm : m < toSize (b.len - n)
  · exact hmiss m hm hits
  · have hlen := hits.length_le
    have := List.length_pos_of_ne_nil hne
    rw [List.length_drop] at hlen
    omega

/-- The tail ends where the message does. -/
theorem moveTail_inside (b : Buffer) {vend : Nat} (hend : vend ≤ b.len) (nc : Int) :
    moveTail b b.msg.length vend nc ≠ .error .read := by
  have hshort := b.short
  have hfits := b.fits
  rw [moveTail, b.msg_length, toSize_eq (by omega) (by omega), if_neg (by omega)]
  split <;> simp

theorem copyValue_ne_read (mem : List Byte) (v n : Nat) (nvalue : List Byte) :
    copyValue mem v n nvalue ≠ .error .read := by
  rw [copyValue]
  split <;> simp

/-- From the check of the old value on only the message is read. -/
theorem setValue_inside (b : Buffer) {v vend : Nat} (hv : v ≤ vend) (hend : vend ≤ b.len)
    (nvalue ovalue : Option CStr) : setValue b b.msg v vend nvalue ovalue ≠ .error .read := by
  obtain ⟨same, hsame⟩ := sameValue_ok hv (by rw [b.msg_length]; exact hend) ovalue
  rw [setValue, hsame]
  cases same with
  | false => simp
  | true =>
    dsimp only
    generalize toInt (nvalue.elim 0 fun s => (s.bytes.length : Int)) = nnvalue
    generalize nnvalue - toInt ((vend : Int) - v) = nc
    by_cases hover : nc < -2 ^ 31 ∨ 2 ^ 31 ≤ nc
    · rw [if_pos hover]
      simp
    · rw [if_neg hover]
      have hmove : (if nc ≠ 0 then moveTail b b.msg.length vend nc else .ok (b.mem, b.len)) ≠
          .error .read := by
        by_cases hnc : nc ≠ 0
        · rw [if_pos hnc]
          exact moveTail_inside b hend nc
        · rw [if_neg hnc]
          simp
      cases hmoved : (if nc ≠ 0 then moveTail b b.msg.length vend nc else .ok (b.mem, b.len)) with
      | error e =>
        rw [hmoved] at hmove
        simpa using hmove
      | ok moved =>
        cases nvalue with
        | none => simp
        | some s =>
          cases hcopy : copyValue moved.1 v (toSize nnvalue) s.bytes with
          | error e =>
            have hne := copyValue_ne_read moved.1 v (toSize nnvalue) s.bytes
            rw [hcopy] at hne
            simpa [hcopy] using hne
          | ok mem => simp [hcopy]

/-- Only bytes of the message are read exactly where `ReadsInside` says so. -/
theorem reads_inside_iff (b : Buffer) (hdr : CStr) (nvalue ovalue : Option CStr) :
    hpHttpModifyHeader b b.len hdr nvalue ovalue ≠ .error .read ↔
      ReadsInside b hdr (toInt hdr.bytes.length) := by
  unfold hpHttpModifyHeader
  rw [← Buffer.msg]
  generalize hn : toInt (hdr.bytes.length : Int) = n
  dsimp only
  rcases first_hit (pattern (toSize n) hdr.bytes) b.msg (toSize (b.len - n)) with
    ⟨i, hi, hits, hfirst⟩ | hmiss
  · rw [findHdr_found 0 hi hits hfirst, Nat.zero_add, readsInside_found hi hits hfirst]
    dsimp only
    by_cases hp : 0 ≤ i + n
    · rw [if_neg (by omega), and_iff_right hp]
      by_cases hlf : (10 : Byte) ∈ b.msg.drop (i + n).toNat
      · obtain ⟨q, hq⟩ := List.mem_iff_getElem?.mp hlf
        have hqlt := (List.getElem?_eq_some_iff.mp hq).1
        rw [List.length_drop, b.msg_length] at hqlt
        obtain ⟨v', vend, hrun, hend⟩ := scan_lf hq (i + n).toNat (v := none) (by simp)
        rw [hrun]
        refine iff_of_true ?_ hlf
        cases vend with
        | none => simp
        | some e =>
          obtain ⟨x, rfl, hxe, hlt⟩ := hend e rfl
          exact setValue_inside b hxe (by omega) nvalue ovalue
      · rw [scan_noLf hlf]
        exact iff_of_false (by simp) hlf
    · rw [if_pos (by omega)]
      exact iff_of_false (by simp) fun h => hp h.1
  · rw [readsInside_missing hmiss]
    by_cases hin : 0 ≤ n ∧ n ≤ b.len
    · rw [findHdr_inside hn.symm hin.1 hin.2 hmiss]
      exact iff_of_true (by simp) hin
    · rw [findHdr_outside hn.symm hin hmiss]
      exact iff_of_false (by simp) hin

/-- `"Host"` -/
def host : CStr := ⟨[72, 111, 115, 116], by simp, by decide⟩

/-- `"None"` is searched for behind the two bytes of the message, and the line `"Host: a"` is
followed behind its end. -/
theorem reads_behind :
    hpHttpModifyHeader ⟨[88, 88], 2, by decide, by decide⟩ 2
        ⟨[78, 111, 110, 101], by simp, by decide⟩ none none = .error .read ∧
      hpHttpModifyHeader ⟨[72, 111, 115, 116, 58, 32, 97], 7, by decide, by decide⟩ 7 host
        none none = .error .read := by
  decide +kernel

end Libhp.Str
