import Libhp.Lib.ByteOrder
import Libhp.Lib.CInt

/-!
# PMMSG

`hp_msg_header` and `hp_pm_pack` of `hp_msg.c`, in the build without
`LIBHP_WITH_ZLIB`, on a machine of either byte order. A message on the wire is magic,
id, type, session, body length and body. The magic is written in the order of the
machine, the other fields in network order.
-/
namespace Libhp.Msg
open ByteOrder CInt

def PM_MAGIC : BitVec 32 := 0x32603723#32
def PM_HEADER_LEN : Nat := 20
def PMRW_NOSKIP : Nat := 1

/-- `buf` holds the `len` bytes of the body. -/
structure HpMsg where
  id : BitVec 32
  type : BitVec 32
  sid : BitVec 32
  buf : List UInt8
  len : Int
  deriving DecidableEq, Repr

section
variable (e : Endian)

def hpMsgHeader (msg : HpMsg) : List UInt8 :=
  let ntype := htonl e msg.type
  let nid := htonl e msg.id
  let nsid := htonl e msg.sid
  let nlen := htonl e (BitVec.ofInt 32 msg.len)
  bytes e PM_MAGIC ++ bytes e nid ++ bytes e ntype ++ bytes e nsid ++ bytes e nlen

def pmId (hdr : List UInt8) : BitVec 32 := htonl e (read e (hdr.drop 4))
def pmType (hdr : List UInt8) : BitVec 32 := htonl e (read e (hdr.drop 8))
def pmSession (hdr : List UInt8) : BitVec 32 := htonl e (read e (hdr.drop 12))
def pmBodyLen (hdr : List UInt8) : Int := (htonl e (read e (hdr.drop 16))).toInt

/-- The message that `buf` begins with. -/
def pmMessage (buf : List UInt8) : HpMsg where
  id := pmId e buf
  type := pmType e buf
  sid := pmSession e buf
  buf := (buf.drop PM_HEADER_LEN).take (toSize (pmBodyLen e buf))
  len := toSize (pmBodyLen e buf)

/-- `memcmp(buf, &PM_MAGIC, sizeof(PM_MAGIC)) == 0`. -/
def pmMatch (buf : List UInt8) : Bool := buf.take 4 = bytes e PM_MAGIC

/-- `for(; n < *buflenp - sizeof(PM_MAGIC); ++n)` up to a match, with `k` places to go. -/
def pmSearch (buf : List UInt8) : Nat → Nat → Nat
  | 0, n => n
  | k + 1, n => if pmMatch e (buf.drop n) then n else pmSearch buf k (n + 1)

/-- What `hp_pm_pack` returns and leaves in `buf`, and the message. -/
structure PmRes where
  rc : Int
  buf : List UInt8
  msg : Option HpMsg
  deriving DecidableEq, Repr

/-- The loop of `hp_pm_pack`. `none`: `fuel` rounds did not end it, or the length of the
message overflows an `int`. -/
def hpPmPackLoop (flags : Nat) : Nat → List UInt8 → Option PmRes
  | 0, _ => none
  | fuel + 1, buf =>
    if buf.length < PM_HEADER_LEN then some ⟨0, buf, none⟩
    else if ¬ pmMatch e buf then
      if flags &&& PMRW_NOSKIP ≠ 0 then some ⟨-1, buf.drop 1, none⟩
      -- without a match the last four bytes stay
      else hpPmPackLoop flags fuel (buf.drop (pmSearch e buf (buf.length - 4 - 1) 1))
    else
      let bodylen := toSize (pmBodyLen e buf)
      if buf.length - PM_HEADER_LEN ≥ bodylen then
        if PM_HEADER_LEN + (bodylen : Int) > INT_MAX then none
        else
          let msg : HpMsg :=
            { id := pmId e buf, type := pmType e buf, sid := pmSession e buf, len := bodylen
              buf := (buf.drop PM_HEADER_LEN).take bodylen }
          some ⟨PM_HEADER_LEN + bodylen, buf.drop (PM_HEADER_LEN + bodylen), some msg⟩
      else some ⟨0, buf, none⟩

/-- `hp_pm_pack`. Every round but the last one drops a byte or more. -/
def hpPmPack (flags : Nat) (buf : List UInt8) : Option PmRes :=
  hpPmPackLoop e flags (buf.length + 1) buf

/-- Call `hp_pm_pack` until it returns no message. -/
def pmDrain (flags : Nat) : Nat → List UInt8 → Option (List HpMsg × List UInt8)
  | 0, _ => none
  | fuel + 1, buf =>
    (hpPmPack e flags buf).bind fun r =>
      match r.msg with
      | none => some ([], r.buf)
      | some msg => (pmDrain flags fuel r.buf).map fun (msgs, buf) => (msg :: msgs, buf)

/-- Append each chunk to the input buffer and take out what it completes. -/
def pmRun (flags : Nat) : List (List UInt8) → List UInt8 → Option (List HpMsg × List UInt8)
  | [], buf => some ([], buf)
  | chunk :: chunks, buf =>
    (pmDrain e flags ((buf ++ chunk).length + 1) (buf ++ chunk)).bind fun (msgs, buf) =>
      (pmRun flags chunks buf).map fun (msgs', buf) => (msgs ++ msgs', buf)

end

/-- What a sender may put into a message. -/
structure HpMsg.Valid (msg : HpMsg) : Prop where
  nonneg : 0 ≤ msg.len
  fits : PM_HEADER_LEN + msg.len ≤ INT_MAX
  body : msg.buf.length = msg.len.toNat

def hpMsgBytes (e : Endian) (msg : HpMsg) : List UInt8 := hpMsgHeader e msg ++ msg.buf

@[simp] theorem length_hpMsgHeader (e : Endian) (msg : HpMsg) :
    (hpMsgHeader e msg).length = 20 := by
  simp [hpMsgHeader]

section
variable {e : Endian} {msg : HpMsg}

theorem pmMatch_header (rest : List UInt8) : pmMatch e (hpMsgHeader e msg ++ rest) = true := by
  simp only [pmMatch, hpMsgHeader, List.append_assoc, decide_eq_true_eq]
  rw [List.take_append_of_le_length (by simp), List.take_of_length_le (by simp)]

theorem read_field {a : List UInt8} {n : Nat} (hn : a.length = n) (x : BitVec 32)
    (rest : List UInt8) : htonl e (read e ((a ++ (bytes e (htonl e x) ++ rest)).drop n)) = x := by
  rw [List.drop_left' hn, read_bytes, htonl_htonl]

theorem pm_fields (rest : List UInt8) :
    pmId e (hpMsgHeader e msg ++ rest) = msg.id ∧ pmType e (hpMsgHeader e msg ++ rest) = msg.type ∧
      pmSession e (hpMsgHeader e msg ++ rest) = msg.sid ∧
      pmBodyLen e (hpMsgHeader e msg ++ rest) = (BitVec.ofInt 32 msg.len).toInt := by
  let a := bytes e PM_MAGIC
  let b := a ++ bytes e (htonl e msg.id)
  let c := b ++ bytes e (htonl e msg.type)
  let d := c ++ bytes e (htonl e msg.sid)
  refine ⟨?_, ?_, ?_, ?_⟩
  · have hread := read_field (e := e) (show a.length = 4 by simp [a]) msg.id
      (bytes e (htonl e msg.type) ++ (bytes e (htonl e msg.sid) ++
        (bytes e (htonl e (BitVec.ofInt 32 msg.len)) ++ rest)))
    simpa only [pmId, hpMsgHeader, List.append_assoc] using hread
  · have hread := read_field (e := e) (show b.length = 8 by simp [b, a]) msg.type
      (bytes e (htonl e msg.sid) ++ (bytes e (htonl e (BitVec.ofInt 32 msg.len)) ++ rest))
    simpa only [pmType, hpMsgHeader, b, a, List.append_assoc] using hread
  · have hread := read_field (e := e) (show c.length = 12 by simp [c, b, a]) msg.sid
      (bytes e (htonl e (BitVec.ofInt 32 msg.len)) ++ rest)
    simpa only [pmSession, hpMsgHeader, c, b, a, List.append_assoc] using hread
  · have hread := read_field (e := e) (show d.length = 16 by simp [d, c, b, a])
      (BitVec.ofInt 32 msg.len) rest
    have hread := congrArg BitVec.toInt hread
    simpa only [pmBodyLen, hpMsgHeader, d, c, b, a, List.append_assoc] using hread

/-- The length that the unpacker works with is the sender's. -/
theorem toSize_bodyLen (h : msg.Valid) (rest : List UInt8) :
    toSize (pmBodyLen e (hpMsgHeader e msg ++ rest)) = msg.len.toNat := by
  have hnonneg := h.nonneg
  have hfits := h.fits
  rw [(pm_fields rest).2.2.2, toSize, BitVec.toInt_ofInt]
  unfold INT_MAX PM_HEADER_LEN at hfits
  have hsmall : msg.len.bmod (2 ^ 32) = msg.len := by
    apply Int.bmod_eq_of_le <;> omega
  rw [hsmall, Int.emod_eq_of_lt hnonneg (by omega)]

theorem length_hpMsgBytes (h : msg.Valid) :
    (hpMsgBytes e msg).length = PM_HEADER_LEN + msg.len.toNat := by
  rw [hpMsgBytes, List.length_append, length_hpMsgHeader, h.body, PM_HEADER_LEN]

theorem drop_hpMsgBytes (h : msg.Valid) (rest : List UInt8) :
    (hpMsgBytes e msg ++ rest).drop (PM_HEADER_LEN + msg.len.toNat) = rest :=
  List.drop_left' (length_hpMsgBytes h)

theorem pmMatch_bytes (rest : List UInt8) : pmMatch e (hpMsgBytes e msg ++ rest) = true := by
  rw [hpMsgBytes, List.append_assoc]
  exact pmMatch_header _

theorem toSize_bodyLen_bytes (h : msg.Valid) (rest : List UInt8) :
    toSize (pmBodyLen e (hpMsgBytes e msg ++ rest)) = msg.len.toNat := by
  rw [hpMsgBytes, List.append_assoc]
  exact toSize_bodyLen h _

/-- A message is read back from its bytes. -/
theorem pmMessage_bytes (h : msg.Valid) (rest : List UInt8) :
    pmMessage e (hpMsgBytes e msg ++ rest) = msg := by
  have hhdr : (hpMsgHeader e msg).length = PM_HEADER_LEN := length_hpMsgHeader e msg
  have hcast : ((msg.len.toNat : Nat) : Int) = msg.len := Int.toNat_of_nonneg h.nonneg
  rw [hpMsgBytes, List.append_assoc]
  obtain ⟨hid, htype, hsid, -⟩ := @pm_fields e msg (msg.buf ++ rest)
  unfold pmMessage
  rw [hid, htype, hsid, toSize_bodyLen h, List.drop_left' hhdr, List.take_left' h.body, hcast]

/-- A round on a buffer that begins with a header. -/
theorem hpPmPackLoop_header {flags : Nat} {buf : List UInt8} (hlen : PM_HEADER_LEN ≤ buf.length)
    (hmatch : pmMatch e buf = true) (fuel : Nat) :
    hpPmPackLoop e flags (fuel + 1) buf =
      if buf.length - PM_HEADER_LEN ≥ toSize (pmBodyLen e buf) then
        if PM_HEADER_LEN + (toSize (pmBodyLen e buf) : Int) > INT_MAX then none
        else some ⟨PM_HEADER_LEN + toSize (pmBodyLen e buf),
          buf.drop (PM_HEADER_LEN + toSize (pmBodyLen e buf)),
          some (pmMessage e buf)⟩
      else some ⟨0, buf, none⟩ := by
  have hhead : ¬ buf.length < PM_HEADER_LEN := Nat.not_lt.mpr hlen
  simp only [hpPmPackLoop, hhead, hmatch, ↓reduceIte, not_true_eq_false, pmMessage]

end
end Libhp.Msg
