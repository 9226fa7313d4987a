import Libhp.Msg.PmLength

/-!
# Compressed messages

`hp_zd_buf` of `hp_z.c` and `hp_pm_pack` in the build with `LIBHP_WITH_ZLIB`. zlib is a
parameter. The body goes to `msg->buf`, which has as many bytes as came over the wire, under
a limit that is the size of a pointer.
-/
namespace Libhp.Msg
open ByteOrder CInt

/-- This type of message is compressed by zlib. -/
def PMT_Z : BitVec 32 := 1#32 <<< 11

def Z_CHUNK : Nat := 131072

inductive ZRet where
  | ok
  | bufError
  | streamEnd
  | needDict
  | dataError
  | memError
  | streamError
  deriving DecidableEq, Repr

/-- zlib: the stream that `deflate` makes of a body, and what the `k`-th call of `inflate` on a
stream returns and writes, each call with room for `Z_CHUNK` bytes. -/
structure Zlib where
  deflate : List UInt8 → List UInt8
  inflate : List UInt8 → Nat → ZRet × List UInt8
  room : ∀ z k, (inflate z k).2.length ≤ Z_CHUNK

/-- With or without assertions, and `sizeof(msg->buf)`. -/
structure Build where
  ndebug : Bool
  sizeofPtr : Nat
  ptr_pos : 0 < sizeofPtr

/-- How a call ends: at an assertion, with bytes written outside `out`, or with what it
returns, `out` and `*olen`. -/
inductive ZEnd where
  | abort
  | overflow
  | done (rc : Int) (out : List UInt8) (olen : Int)
  deriving DecidableEq, Repr

section
variable (zl : Zlib) (b : Build)

/-- The loop of `hp_zd_buf`, `cap` the bytes that `out` has. -/
def hpZdLoop (cap olen : Nat) (z : List UInt8) : Nat → Nat → List UInt8 → Option ZEnd
  | 0, _, _ => none
  | fuel + 1, k, out =>
    let ret := (zl.inflate z k).1
    let chunk := (zl.inflate z k).2
    if ret = .streamError ∧ b.ndebug = false then some .abort
    else if ret = .needDict ∨ ret = .dataError ∨ ret = .memError then some (.done (-1) out olen)
    -- assert(*olen - offset >= have)
    else if (olen : Int) - out.length < chunk.length ∧ b.ndebug = false then some .abort
    else if cap < out.length + chunk.length then some .overflow
    else if chunk.length = Z_CHUNK then hpZdLoop cap olen z fuel (k + 1) (out ++ chunk)
    else if ret ≠ .streamEnd then some (.done (-1) (out ++ chunk) olen)
    else some (.done 0 (out ++ chunk) (BitVec.ofNat 32 (out ++ chunk).length).toInt)

/-- `hp_zd_buf`. Every round but the last one writes a chunk. -/
def hpZdBuf (cap olen : Nat) (z : List UInt8) : Option ZEnd :=
  if z.length > 0 ∧ olen > 0 then hpZdLoop zl b cap olen z (cap + 1) 0 []
  else some (.done (-1) [] olen)

/-- `hp_msg_new` on a size that is not negative. -/
def msgCap (nbuf : Nat) : Nat := if nbuf = 0 then 65516 else nbuf

inductive PmZEnd where
  | abort
  | overflow
  | done (res : PmRes)
  deriving DecidableEq, Repr

/-- A complete message, at the front of `buf`. -/
def pmBodyZ (e : Endian) (buf : List UInt8) : Option PmZEnd :=
  let msg := pmMessage e buf
  let bodylen := toSize (pmBodyLen e buf)
  let rest := buf.drop (PM_HEADER_LEN + bodylen)
  if msg.type &&& PMT_Z ≠ 0 then
    (hpZdBuf zl b (msgCap bodylen) b.sizeofPtr msg.buf).map fun
      | .abort => .abort
      | .overflow => .overflow
      | .done rc out olen =>
        if rc ≠ 0 then .done ⟨0, rest, none⟩
        else .done ⟨PM_HEADER_LEN + bodylen, rest,
          some { msg with type := msg.type &&& ~~~PMT_Z, buf := out, len := olen }⟩
  else some (.done ⟨PM_HEADER_LEN + bodylen, rest, some msg⟩)

/-- The loop of `hp_pm_pack`, as in the build without zlib but for the body. -/
def hpPmPackZLoop (e : Endian) (flags : Nat) : Nat → List UInt8 → Option PmZEnd
  | 0, _ => none
  | fuel + 1, buf =>
    if buf.length < PM_HEADER_LEN then some (.done ⟨0, buf, none⟩)
    else if ¬ pmMatch e buf then
      if flags &&& PMRW_NOSKIP ≠ 0 then some (.done ⟨-1, buf.drop 1, none⟩)
      else hpPmPackZLoop e flags fuel (buf.drop (pmSearch e buf (buf.length - 4 - 1) 1))
    else
      let bodylen := toSize (pmBodyLen e buf)
      if buf.length - PM_HEADER_LEN ≥ bodylen then
        if PM_HEADER_LEN + (bodylen : Int) > INT_MAX then none else pmBodyZ zl b e buf
      else some (.done ⟨0, buf, none⟩)

def hpPmPackZ (e : Endian) (flags : Nat) (buf : List UInt8) : Option PmZEnd :=
  hpPmPackZLoop zl b e flags (buf.length + 1) buf

/-- `msg` as it is sent with the body compressed. -/
def zSent (msg : HpMsg) (body : List UInt8) : HpMsg :=
  { msg with type := msg.type ||| PMT_Z, buf := zl.deflate body, len := (zl.deflate body).length }

/-- The message comes back with its body, and exactly its bytes are consumed. -/
def ZRoundTrip (e : Endian) (flags : Nat) (msg : HpMsg) (body rest : List UInt8) : Prop :=
  hpPmPackZ zl b e flags (hpMsgBytes e (zSent zl msg body) ++ rest) = some (.done
    ⟨PM_HEADER_LEN + (zl.deflate body).length, rest,
      some { msg with type := msg.type &&& ~~~PMT_Z, buf := body, len := body.length }⟩)

/-- `inflate` undoes `deflate` on `body`: it writes the body chunk by chunk, and reports the end
of the stream when all of it is out. A stream has a header at least. -/
structure Zlib.Inverts (body : List UInt8) : Prop where
  nonempty : 0 < (zl.deflate body).length
  chunk : ∀ k, (zl.inflate (zl.deflate body) k).2 = (body.drop (k * Z_CHUNK)).take Z_CHUNK
  ret : ∀ k, k * Z_CHUNK ≤ body.length →
    (zl.inflate (zl.deflate body) k).1 = .ok ∨ (zl.inflate (zl.deflate body) k).1 = .streamEnd
  last : ∀ k, k * Z_CHUNK ≤ body.length → body.length < (k + 1) * Z_CHUNK →
    (zl.inflate (zl.deflate body) k).1 = .streamEnd

end

section
variable {zl : Zlib} {b : Build} {e : Endian} {flags cap olen : Nat} {z body : List UInt8}

/-- Whatever zlib does, a call that comes back has kept within `out` and, with assertions,
within `*olen`. -/
theorem hpZdLoop_fits {fuel k : Nat} {out out' : List UInt8} {rc olen' : Int}
    (hcap : out.length ≤ cap) (hlen : b.ndebug = false → out.length ≤ olen)
    (h : hpZdLoop zl b cap olen z fuel k out = some (.done rc out' olen')) :
    out'.length ≤ cap ∧ (b.ndebug = false → out'.length ≤ olen) := by
  induction fuel generalizing k out with
  | zero => cases h
  | succ fuel ih =>
    simp only [hpZdLoop] at h
    split at h
    · cases h
    split at h
    · cases h
      exact ⟨hcap, hlen⟩
    split at h
    · cases h
    next hroom =>
    split at h
    · cases h
    next hfit =>
    have hcap' : (out ++ (zl.inflate z k).2).length ≤ cap := by
      rw [List.length_append]
      omega
    have hlen' : b.ndebug = false → (out ++ (zl.inflate z k).2).length ≤ olen := by
      intro hdebug
      have hle : ¬ ((olen : Int) - out.length < (zl.inflate z k).2.length) :=
        fun hlt => hroom ⟨hlt, hdebug⟩
      rw [List.length_append]
      omega
    split at h
    · exact ih hcap' hlen' h
    split at h
    · cases h
      exact ⟨hcap', hlen'⟩
    · cases h
      exact ⟨hcap', hlen'⟩

theorem Z_CHUNK_pos : 0 < Z_CHUNK := by decide

/-- When everything fits, the loop writes the body, chunk by chunk. -/
theorem hpZdLoop_inverts (hinv : zl.Inverts body) (hcap : body.length ≤ cap)
    (hlen : b.ndebug = false → body.length ≤ olen) (hmax : (body.length : Int) ≤ INT_MAX)
    {fuel k : Nat} (hk : k * Z_CHUNK ≤ body.length) (hfuel : body.length - k * Z_CHUNK < fuel) :
    hpZdLoop zl b cap olen (zl.deflate body) fuel k (body.take (k * Z_CHUNK)) =
      some (.done 0 body body.length) := by
  induction fuel generalizing k with
  | zero => omega
  | succ fuel ih =>
    have hret := hinv.ret k hk
    have hout : (body.take (k * Z_CHUNK)).length = k * Z_CHUNK := by
      rw [List.length_take]
      omega
    have hchunk : (zl.inflate (zl.deflate body) k).2.length =
        min Z_CHUNK (body.length - k * Z_CHUNK) := by
      rw [hinv.chunk, List.length_take, List.length_drop]
    have hpos := Z_CHUNK_pos
    have hsucc : (k + 1) * Z_CHUNK = k * Z_CHUNK + Z_CHUNK := Nat.succ_mul k Z_CHUNK
    have happend : body.take (k * Z_CHUNK) ++ (zl.inflate (zl.deflate body) k).2 =
        body.take ((k + 1) * Z_CHUNK) := by
      rw [hinv.chunk, hsucc, List.take_add]
    simp only [hpZdLoop]
    rw [if_neg (by rcases hret with h | h <;> simp [h]),
      if_neg (by rcases hret with h | h <;> simp [h]), hout, hchunk]
    rw [if_neg (fun h => by have := hlen h.2; omega), if_neg (by omega), happend]
    by_cases hfull : (k + 1) * Z_CHUNK ≤ body.length
    · rw [if_pos (by omega)]
      exact ih hfull (by omega)
    · have hlast := hinv.last k hk (by omega)
      rw [if_neg (by omega), if_neg (by simp [hlast]), List.take_of_length_le (by omega)]
      have hint : (BitVec.ofNat 32 body.length).toInt = body.length := by
        unfold INT_MAX at hmax
        rw [BitVec.toInt_ofNat']
        apply Int.bmod_eq_of_le <;> omega
      rw [hint]

theorem or_and_self (x y : BitVec 32) : (x ||| y) &&& y = y := by
  apply BitVec.eq_of_getLsbD_eq
  intro i hi
  simp only [BitVec.getLsbD_and, BitVec.getLsbD_or]
  cases x.getLsbD i <;> cases y.getLsbD i <;> rfl

theorem or_and_not (x y : BitVec 32) : (x ||| y) &&& ~~~y = x &&& ~~~y := by
  apply BitVec.eq_of_getLsbD_eq
  intro i hi
  simp [Bool.and_or_distrib_right, hi]

/-- A call on a compressed message: what it gives is decided by `hp_zd_buf`, with the room that
the wire size gives and the limit of a pointer's size. -/
theorem hpPmPackZ_sent {msg : HpMsg} (hvalid : (zSent zl msg body).Valid)
    (hne : 0 < (zl.deflate body).length) (rest : List UInt8) :
    hpPmPackZ zl b e flags (hpMsgBytes e (zSent zl msg body) ++ rest) =
      (hpZdBuf zl b (zl.deflate body).length b.sizeofPtr (zl.deflate body)).map fun
        | .abort => .abort
        | .overflow => .overflow
        | .done rc out olen =>
          if rc ≠ 0 then .done ⟨0, rest, none⟩
          else .done ⟨PM_HEADER_LEN + (zl.deflate body).length, rest,
            some { msg with type := msg.type &&& ~~~PMT_Z, buf := out, len := olen }⟩ := by
  have hfits : PM_HEADER_LEN + ((zl.deflate body).length : Int) ≤ INT_MAX := hvalid.fits
  have hmsg := pmMessage_bytes (e := e) hvalid rest
  have hmatch : pmMatch e (hpMsgBytes e (zSent zl msg body) ++ rest) = true := pmMatch_bytes rest
  have hsize : toSize (pmBodyLen e (hpMsgBytes e (zSent zl msg body) ++ rest)) =
      (zl.deflate body).length := toSize_bodyLen_bytes hvalid rest
  have hdrop : (hpMsgBytes e (zSent zl msg body) ++ rest).drop
      (PM_HEADER_LEN + (zl.deflate body).length) = rest := drop_hpMsgBytes hvalid rest
  have hlen : (hpMsgBytes e (zSent zl msg body) ++ rest).length =
      PM_HEADER_LEN + (zl.deflate body).length + rest.length := by
    rw [List.length_append, length_hpMsgBytes hvalid]
    rfl
  have hz : (zSent zl msg body).type &&& PMT_Z ≠ 0 := by
    show (msg.type ||| PMT_Z) &&& PMT_Z ≠ 0
    rw [or_and_self]
    decide
  have hcap : msgCap (zl.deflate body).length = (zl.deflate body).length :=
    if_neg (Nat.pos_iff_ne_zero.mp hne)
  unfold hpPmPackZ hpPmPackZLoop
  rw [if_neg (by omega), if_neg (by rw [hmatch]; decide)]
  simp only [hsize]
  rw [if_pos (by omega), if_neg (Int.not_lt.mpr hfits)]
  unfold pmBodyZ
  simp only [hmsg, hsize, hdrop, hcap]
  rw [if_pos hz]
  show Option.map _ (hpZdBuf zl b _ b.sizeofPtr (zl.deflate body)) = _
  congr 1
  funext r
  cases r with
  | abort => rfl
  | overflow => rfl
  | done rc out olen =>
    show (if rc ≠ 0 then _ else _) = if rc ≠ 0 then _ else _
    unfold zSent
    rw [or_and_not]

end

/-- A compressed message comes back exactly if compression has not made the body smaller and,
with assertions, the body has no more bytes than a pointer. -/
theorem z_round_trip (zl : Zlib) (b : Build) (e : Endian) (flags : Nat) (msg : HpMsg)
    (body rest : List UInt8) (hinv : zl.Inverts body) (hvalid : (zSent zl msg body).Valid) :
    ZRoundTrip zl b e flags msg body rest ↔
      body.length ≤ (zl.deflate body).length ∧
      (b.ndebug = false → body.length ≤ b.sizeofPtr) := by
  have hne := hinv.nonempty
  have hptr := b.ptr_pos
  unfold ZRoundTrip
  rw [hpPmPackZ_sent hvalid hne, Option.map_eq_some_iff]
  unfold hpZdBuf
  rw [if_pos ⟨hne, hptr⟩]
  constructor
  · intro ⟨r, hloop, hres⟩
    cases r with
    | abort => cases hres
    | overflow => cases hres
    | done rc out olen =>
      have hfits := hpZdLoop_fits (Nat.zero_le _) (fun _ => Nat.zero_le _) hloop
      by_cases hrc : rc ≠ 0
      · simp only [if_pos hrc] at hres
        have hmsg := congrArg PmRes.msg (PmZEnd.done.inj hres)
        cases hmsg
      · simp only [if_neg hrc] at hres
        cases hres
        exact hfits
  · intro ⟨hcap, hlen⟩
    have hfits : PM_HEADER_LEN + ((zl.deflate body).length : Int) ≤ INT_MAX := hvalid.fits
    have hmax : (body.length : Int) ≤ INT_MAX := by omega
    have hloop := hpZdLoop_inverts (k := 0) hinv hcap hlen hmax (by omega)
      (show body.length - 0 * Z_CHUNK < (zl.deflate body).length + 1 by omega)
    rw [Nat.zero_mul, List.take_zero] at hloop
    exact ⟨_, hloop, rfl⟩

/-- zlib on one body that is no longer than a chunk. -/
def zlibOn (body z : List UInt8) : Zlib where
  deflate x := if x = body then z else x
  inflate x k := if x = z ∧ k = 0 then (.streamEnd, body.take Z_CHUNK) else (.streamEnd, [])
  room x k := by
    split
    · exact List.length_take_le _ _
    · exact Nat.zero_le _

theorem zlibOn_inverts {body z : List UInt8} (hz : 0 < z.length) (hbody : body.length < Z_CHUNK) :
    (zlibOn body z).Inverts body := by
  have hdeflate : (zlibOn body z).deflate body = z := if_pos rfl
  have hend : ∀ k, ((zlibOn body z).inflate z k).1 = .streamEnd := by
    intro k
    unfold zlibOn
    dsimp only
    split <;> rfl
  refine ⟨?_, fun k => ?_, fun k _ => .inr ?_, fun k _ _ => ?_⟩
  · rw [hdeflate]
    exact hz
  · rw [hdeflate]
    unfold zlibOn
    dsimp only
    cases k with
    | zero => rw [if_pos ⟨rfl, rfl⟩, Nat.zero_mul, List.drop_zero]
    | succ k =>
      have hk : (k + 1) * Z_CHUNK = k * Z_CHUNK + Z_CHUNK := Nat.succ_mul k Z_CHUNK
      rw [if_neg (fun h => Nat.succ_ne_zero k h.2), List.drop_eq_nil_of_le (by omega),
        List.take_nil]
  · rw [hdeflate]
    exact hend k
  · rw [hdeflate]
    exact hend k

/-- `hello` and what zlib makes of it. -/
def hello : List UInt8 := [104, 101, 108, 108, 111]
def helloZ : List UInt8 := [120, 94, 203, 72, 205, 201, 201, 7, 0, 6, 44, 2, 21]

theorem z_round_trip_hello :
    ZRoundTrip (zlibOn hello helloZ) ⟨false, 8, by decide⟩ .little 0 emptyMsg hello [] :=
  (z_round_trip (zlibOn hello helloZ) ⟨false, 8, by decide⟩ .little 0 emptyMsg hello []
    (zlibOn_inverts (by decide) (by decide)) ⟨by decide, by decide, by decide⟩).mpr
    ⟨by decide, fun _ => by decide⟩

/-- The letter `a` 32 times, and what zlib makes of it. -/
def manyA : List UInt8 := List.replicate 32 97
def manyAZ : List UInt8 := [120, 94, 75, 76, 196, 15, 0, 200, 48, 12, 33]

/-- With assertions the call stops at one; without, it writes 32 bytes into 11. -/
theorem z_no_round_trip :
    ¬ (∀ (zl : Zlib) (b : Build) (e : Endian) (flags : Nat) (msg : HpMsg)
      (body rest : List UInt8), zl.Inverts body → (zSent zl msg body).Valid →
      ZRoundTrip zl b e flags msg body rest) ∧
    hpPmPackZ (zlibOn manyA manyAZ) ⟨false, 8, by decide⟩ .little 0
      (hpMsgBytes .little (zSent (zlibOn manyA manyAZ) emptyMsg manyA)) = some .abort ∧
    hpPmPackZ (zlibOn manyA manyAZ) ⟨true, 8, by decide⟩ .little 0
      (hpMsgBytes .little (zSent (zlibOn manyA manyAZ) emptyMsg manyA)) = some .overflow := by
  have hoverflow : hpPmPackZ (zlibOn manyA manyAZ) ⟨true, 8, by decide⟩ .little 0
      (hpMsgBytes .little (zSent (zlibOn manyA manyAZ) emptyMsg manyA)) = some .overflow := by
    decide +kernel
  refine ⟨fun hall => ?_, by decide +kernel, hoverflow⟩
  have hround := hall (zlibOn manyA manyAZ) ⟨true, 8, by decide⟩ .little 0 emptyMsg manyA []
    (zlibOn_inverts (by decide) (by decide)) ⟨by decide, by decide, by decide⟩
  unfold ZRoundTrip at hround
  rw [List.append_nil, hoverflow] at hround
  cases hround

end Libhp.Msg
