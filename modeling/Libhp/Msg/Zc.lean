import Libhp.Msg.Zd

/-!
# Deflating into a buffer

`hp_zc_buf` of `hp_z.c`, and back with `hp_zd_buf`. zlib decides what `deflate` returns and
writes; what its manual says of Z_FINISH is a named hypothesis.
-/
namespace Libhp.Msg
open CInt

/-- A call of `deflate`: what it returns and writes, and `strm.avail_in` after it. -/
structure Deflated where
  ret : ZRet
  out : List UInt8
  availIn : Nat

/-- What `deflateInit` says of a level, and the `k`-th call of `deflate` with Z_FINISH on a body,
each with room for `Z_CHUNK` bytes. -/
structure Deflater where
  deflateInit : Int → Bool
  deflate : Int → List UInt8 → Nat → Deflated
  room : ∀ level body k, (deflate level body k).out.length ≤ Z_CHUNK

section
variable (d : Deflater) (b : Build) (cap olen : Nat) (level : Int) (buf : List UInt8)

/-- The loop of `hp_zc_buf`, `cap` the bytes that `out` has. -/
def hpZcLoop : Nat → Nat → List UInt8 → Option ZEnd
  | 0, _, _ => none
  | fuel + 1, k, out =>
    let call := d.deflate level buf k
    if call.ret = .streamError ∧ b.ndebug = false then some .abort
    else if (olen : Int) - out.length < call.out.length then some (.done 1 out olen)
    else if cap < out.length + call.out.length then some .overflow
    else if call.out.length = Z_CHUNK then hpZcLoop fuel (k + 1) (out ++ call.out)
    -- assert(strm.avail_in == 0)
    else if call.availIn ≠ 0 ∧ b.ndebug = false then some .abort
    else if call.ret ≠ .streamEnd then some (.done (-1) (out ++ call.out) olen)
    else some (.done 0 (out ++ call.out) (BitVec.ofNat 32 (out ++ call.out).length).toInt)

/-- `hp_zc_buf`. Every round but the last one writes a chunk. -/
def hpZcBuf : Option ZEnd :=
  if buf.length > 0 ∧ olen > 0 then
    if d.deflateInit level then hpZcLoop d b cap olen level buf (olen + 1) 0 []
    else some (.done (-1) [] olen)
  else some (.done (-1) [] olen)

/-- `deflate` makes `z` of the body: it writes `z` chunk by chunk, and where it has room left it
has taken all its input and reports the end of the stream. -/
structure Deflater.Makes (z : List UInt8) : Prop where
  init : d.deflateInit level = true
  chunk : ∀ k, (d.deflate level buf k).out = (z.drop (k * Z_CHUNK)).take Z_CHUNK
  ret : ∀ k, k * Z_CHUNK ≤ z.length →
    (d.deflate level buf k).ret = .ok ∨ (d.deflate level buf k).ret = .streamEnd
  last : ∀ k, k * Z_CHUNK ≤ z.length → z.length < (k + 1) * Z_CHUNK →
    (d.deflate level buf k).ret = .streamEnd ∧ (d.deflate level buf k).availIn = 0

end

section
variable {d : Deflater} {b : Build} {olen : Nat} {level : Int} {buf z : List UInt8}

/-- The chunks before the first one that does not fit. -/
theorem whole_chunks {k : Nat} (hle : k * Z_CHUNK ≤ olen) (hlt : olen < (k + 1) * Z_CHUNK) :
    olen / Z_CHUNK * Z_CHUNK = k * Z_CHUNK := by
  rw [Nat.div_eq_of_lt_le hle hlt]

/-- The loop writes the stream, or the whole chunks of it that fit. -/
theorem hpZcLoop_makes (h : d.Makes level buf z) (hmax : (olen : Int) ≤ INT_MAX) {fuel k : Nat}
    (hz : k * Z_CHUNK ≤ z.length) (hk : k * Z_CHUNK ≤ olen) (hfuel : olen - k * Z_CHUNK < fuel) :
    hpZcLoop d b olen olen level buf fuel k (z.take (k * Z_CHUNK)) = some
      (if z.length ≤ olen then .done 0 z z.length
      else .done 1 (z.take (olen / Z_CHUNK * Z_CHUNK)) olen) := by
  induction fuel generalizing k with
  | zero => omega
  | succ fuel ih =>
    have hret := h.ret k hz
    have hpos := Z_CHUNK_pos
    have hsucc : (k + 1) * Z_CHUNK = k * Z_CHUNK + Z_CHUNK := Nat.succ_mul k Z_CHUNK
    have hout : (z.take (k * Z_CHUNK)).length = k * Z_CHUNK := by
      rw [List.length_take]
      omega
    have happend : z.take (k * Z_CHUNK) ++ (d.deflate level buf k).out =
        z.take ((k + 1) * Z_CHUNK) := by
      rw [h.chunk, hsucc, List.take_add]
    simp only [hpZcLoop]
    rw [if_neg (by rcases hret with hr | hr <;> simp [hr]), hout, happend]
    by_cases hfull : (k + 1) * Z_CHUNK ≤ z.length
    · have hchunk : (d.deflate level buf k).out.length = Z_CHUNK := by
        rw [h.chunk, List.length_take, List.length_drop]
        exact Nat.min_eq_left (by omega)
      rw [hchunk, if_pos rfl]
      by_cases hfits : (k + 1) * Z_CHUNK ≤ olen
      · rw [if_neg (by omega), if_neg (by omega)]
        exact ih hfull hfits (by omega)
      · rw [if_pos (by omega), if_neg (by omega), whole_chunks hk (by omega)]
    · have hchunk : (d.deflate level buf k).out.length = z.length - k * Z_CHUNK := by
        rw [h.chunk, List.length_take, List.length_drop]
        exact Nat.min_eq_right (by omega)
      have hwhole : z.take ((k + 1) * Z_CHUNK) = z := List.take_of_length_le (by omega)
      obtain ⟨hend, havail⟩ := h.last k hz (by omega)
      rw [hchunk, hwhole]
      by_cases hfits : z.length ≤ olen
      · have hint : (BitVec.ofNat 32 z.length).toInt = z.length := by
          unfold INT_MAX at hmax
          rw [BitVec.toInt_ofNat']
          apply Int.bmod_eq_of_le <;> omega
        rw [if_neg (by omega), if_neg (by omega), if_neg (by omega),
          if_neg (fun hassert => hassert.1 havail), if_neg (fun hne => hne hend), hint,
          if_pos hfits]
      · rw [if_pos (by omega), if_neg hfits, whole_chunks hk (by omega)]

end

/-- Where zlib keeps to its manual, `hp_zc_buf` writes the compressed body if that fits into
`*olen` bytes, and `hp_zd_buf` makes the body of it again wherever that fits. Else it says so
with 1, has written the whole chunks that fit, and leaves `*olen` as it was. -/
theorem zc_zd_round_trip (d : Deflater) (zl : Zlib) (b : Build) (level : Int)
    (body : List UInt8) (olen room : Nat) (hmax : (olen : Int) ≤ INT_MAX)
    (hroom : (room : Int) ≤ INT_MAX) (hmakes : d.Makes level body (zl.deflate body))
    (hinv : zl.Inverts body) :
    if body = [] ∨ olen = 0 then hpZcBuf d b olen olen level body = some (.done (-1) [] olen)
    else if (zl.deflate body).length ≤ olen then
      hpZcBuf d b olen olen level body =
        some (.done 0 (zl.deflate body) (zl.deflate body).length) ∧
      (body.length ≤ room →
        hpZdBuf zl b room room (zl.deflate body) = some (.done 0 body body.length))
    else hpZcBuf d b olen olen level body =
      some (.done 1 ((zl.deflate body).take (olen / Z_CHUNK * Z_CHUNK)) olen) := by
  unfold hpZcBuf
  by_cases hguard : body.length > 0 ∧ olen > 0
  · have hargs : ¬ (body = [] ∨ olen = 0) :=
      not_or.mpr ⟨List.length_pos_iff.mp hguard.1, Nat.pos_iff_ne_zero.mp hguard.2⟩
    have hloop := hpZcLoop_makes (b := b) (k := 0) hmakes hmax (by omega) (by omega)
      (show olen - 0 * Z_CHUNK < olen + 1 by omega)
    rw [Nat.zero_mul, List.take_zero] at hloop
    rw [if_neg hargs, if_pos hguard, if_pos hmakes.init, hloop]
    split
    · next hfits =>
      refine ⟨rfl, fun hle => ?_⟩
      unfold hpZdBuf
      rw [if_pos ⟨hinv.nonempty, by omega⟩]
      have hback := hpZdLoop_inverts (b := b) (k := 0) hinv hle (fun _ => hle) (by omega) (by omega)
        (show body.length - 0 * Z_CHUNK < room + 1 by omega)
      rwa [Nat.zero_mul, List.take_zero] at hback
    · rfl
  · have hargs : body = [] ∨ olen = 0 := by
      rcases not_and_or.mp hguard with hlen | holen
      · exact .inl (List.length_eq_zero_iff.mp (by omega))
      · exact .inr (by omega)
    rw [if_pos hargs, if_neg hguard]

/-- zlib's `deflate` where the stream is no longer than a chunk. -/
def deflaterOn (z : List UInt8) (hz : z.length < Z_CHUNK) : Deflater where
  deflateInit level := -1 ≤ level ∧ level ≤ 9
  deflate _ _ k := ⟨.streamEnd, if k = 0 then z else [], 0⟩
  room _ _ k := by
    by_cases hk : k = 0
    · simp only [hk, if_true]
      exact Nat.le_of_lt hz
    · simp only [hk, if_false]
      exact Nat.zero_le _

theorem deflaterOn_makes {z : List UInt8} (hz : z.length < Z_CHUNK) (buf : List UInt8) :
    (deflaterOn z hz).Makes 2 buf z where
  init := rfl
  chunk k := by
    cases k with
    | zero =>
      rw [Nat.zero_mul, List.drop_zero, List.take_of_length_le (Nat.le_of_lt hz)]
      rfl
    | succ k =>
      have hk : (k + 1) * Z_CHUNK = k * Z_CHUNK + Z_CHUNK := Nat.succ_mul k Z_CHUNK
      rw [List.drop_eq_nil_of_le (by omega), List.take_nil]
      show (if k + 1 = 0 then z else []) = []
      rw [if_neg (Nat.succ_ne_zero k)]
  ret _ _ := .inr rfl
  last _ _ _ := ⟨rfl, rfl⟩

/-- `hello` with 256 bytes for it both ways. -/
theorem zc_zd_round_trip_hello :
    hpZcBuf (deflaterOn helloZ (by decide)) ⟨false, 8, by decide⟩ 256 256 2 hello =
        some (.done 0 helloZ 13) ∧
      hpZdBuf (zlibOn hello helloZ) ⟨false, 8, by decide⟩ 256 256 helloZ =
        some (.done 0 hello 5) := by
  have hdone := zc_zd_round_trip (deflaterOn helloZ (by decide)) (zlibOn hello helloZ)
    ⟨false, 8, by decide⟩ 2 hello 256 256 (by decide) (by decide)
    (deflaterOn_makes (by decide) hello) (zlibOn_inverts (by decide) (by decide))
  rw [if_neg (by decide), if_pos (by decide)] at hdone
  exact ⟨hdone.1, hdone.2 (by decide)⟩

end Libhp.Msg
