import Libhp.Msg.PmStream

/-!
# The length field

`hp_pm_pack` on a buffer that begins with a header, for every length the header can say. The
length is read as an `int` and compared as a `size_t`, so a negative one asks for more bytes
than there can be.
-/
namespace Libhp.Msg
open ByteOrder CInt

section
variable (e : Endian) (flags : Nat)

/-- `n` calls on the same buffer: the messages they return and what is left. -/
def pmCalls : Nat → List UInt8 → Option (List HpMsg × List UInt8)
  | 0, buf => some ([], buf)
  | n + 1, buf =>
    (hpPmPack e flags buf).bind fun r =>
      (pmCalls n r.buf).map fun (msgs, buf) => (r.msg.toList ++ msgs, buf)

/-- A length that a header may say. -/
def LegalLen (len : Int) : Prop := 0 ≤ len ∧ PM_HEADER_LEN + len ≤ INT_MAX

/-- The message is returned, with its size, and exactly its bytes are consumed. -/
def PmReturned (buf : List UInt8) : Prop :=
  ∃ msg, hpPmPack e flags buf = some
    ⟨PM_HEADER_LEN + pmBodyLen e buf, buf.drop (PM_HEADER_LEN + pmBodyLen e buf).toNat, some msg⟩

/-- Nothing is consumed and no message is returned. -/
def PmWaits (buf : List UInt8) : Prop := hpPmPack e flags buf = some ⟨0, buf, none⟩

/-- What is asked for of a buffer that begins with a header. -/
structure LengthHandled (buf : List UInt8) : Prop where
  returned : PmReturned e flags buf ↔
    LegalLen (pmBodyLen e buf) ∧ PM_HEADER_LEN + pmBodyLen e buf ≤ buf.length
  waits : PmWaits e flags buf →
    0 ≤ pmBodyLen e buf ∧ (buf.length : Int) < PM_HEADER_LEN + pmBodyLen e buf
  later : ¬ LegalLen (pmBodyLen e buf) → ∀ msg : HpMsg, msg.Valid →
    ∃ n msgs rest, pmCalls e flags n (buf ++ hpMsgBytes e msg) = some (msgs, rest) ∧ msg ∈ msgs

end

section
variable {e : Endian} {flags : Nat} {buf : List UInt8}

theorem toSize_of_nonneg {len : Int} (h : 0 ≤ len) (hmax : len ≤ INT_MAX) :
    (toSize len : Int) = len := by
  unfold INT_MAX at hmax
  unfold toSize
  omega

theorem pmBodyLen_bounds (buf : List UInt8) :
    -2 ^ 31 ≤ pmBodyLen e buf ∧ pmBodyLen e buf ≤ INT_MAX := by
  have hlo := BitVec.le_toInt (htonl e (read e (buf.drop 16)))
  have hhi := BitVec.toInt_lt (x := htonl e (read e (buf.drop 16)))
  unfold pmBodyLen INT_MAX
  constructor
  · exact hlo
  · omega

/-- The length stands in the header: what comes after does not change it. -/
theorem pmBodyLen_append (hlen : PM_HEADER_LEN ≤ buf.length) (rest : List UInt8) :
    pmBodyLen e (buf ++ rest) = pmBodyLen e buf := by
  unfold PM_HEADER_LEN at hlen
  unfold pmBodyLen
  rw [List.drop_append_of_le_length (by omega), read_append _ (by rw [List.length_drop]; omega)]

/-- With a legal length and all of the body there, the message is returned. -/
theorem pmReturned_of_legal (hlen : PM_HEADER_LEN ≤ buf.length) (hmatch : pmMatch e buf = true)
    (hlegal : LegalLen (pmBodyLen e buf))
    (hall : PM_HEADER_LEN + pmBodyLen e buf ≤ buf.length) : PmReturned e flags buf := by
  obtain ⟨hnonneg, hfits⟩ := hlegal
  have hsize := toSize_of_nonneg hnonneg (pmBodyLen_bounds buf).2
  have hdrop : (PM_HEADER_LEN + pmBodyLen e buf).toNat =
      PM_HEADER_LEN + toSize (pmBodyLen e buf) := by omega
  refine ⟨pmMessage e buf, ?_⟩
  rw [hpPmPack, hpPmPackLoop_header hlen hmatch, if_pos (by omega), if_neg (by omega), hdrop, hsize]

/-- With a legal length and less than the body there, the call waits. -/
theorem pmWaits_of_legal (hlen : PM_HEADER_LEN ≤ buf.length) (hmatch : pmMatch e buf = true)
    (hlegal : LegalLen (pmBodyLen e buf))
    (hpart : (buf.length : Int) < PM_HEADER_LEN + pmBodyLen e buf) : PmWaits e flags buf := by
  have hsize := toSize_of_nonneg hlegal.1 (pmBodyLen_bounds buf).2
  unfold PmWaits
  rw [hpPmPack, hpPmPackLoop_header hlen hmatch, if_neg (by omega)]

/-- With any other length it waits, whatever is there, or the size of the message overflows. -/
theorem hpPmPack_illegal (flags : Nat) (hlen : PM_HEADER_LEN ≤ buf.length) (hmatch : pmMatch e buf = true)
    (hlegal : ¬ LegalLen (pmBodyLen e buf)) :
    PmWaits e flags buf ∨ hpPmPack e flags buf = none := by
  unfold PmWaits
  rw [hpPmPack, hpPmPackLoop_header hlen hmatch]
  by_cases hfull : buf.length - PM_HEADER_LEN ≥ toSize (pmBodyLen e buf)
  · have hover : PM_HEADER_LEN + (toSize (pmBodyLen e buf) : Int) > INT_MAX := by
      have hbounds := pmBodyLen_bounds (e := e) buf
      by_cases hneg : pmBodyLen e buf < 0
      · have hsize := toSize_of_neg hneg (le_trans (by decide) hbounds.1)
        unfold INT_MAX
        omega
      · have hsize := toSize_of_nonneg (by omega) hbounds.2
        unfold LegalLen at hlegal
        omega
    rw [if_pos hfull, if_pos hover]
    exact .inr rfl
  · rw [if_neg hfull]
    exact .inl rfl

/-- However often it is called then, it returns no message. -/
theorem pmCalls_illegal (hlen : PM_HEADER_LEN ≤ buf.length) (hmatch : pmMatch e buf = true)
    (hlegal : ¬ LegalLen (pmBodyLen e buf)) {n : Nat} {msgs : List HpMsg} {rest : List UInt8}
    (h : pmCalls e flags n buf = some (msgs, rest)) : msgs = [] ∧ rest = buf := by
  induction n generalizing msgs rest with
  | zero =>
    cases h
    exact ⟨rfl, rfl⟩
  | succ n ih =>
    unfold pmCalls at h
    rcases hpPmPack_illegal flags hlen hmatch hlegal with hwait | hnone
    · unfold PmWaits at hwait
      rw [hwait, Option.bind_some, Option.map_eq_some_iff] at h
      obtain ⟨⟨msgs', rest'⟩, hcalls, heq⟩ := h
      obtain ⟨rfl, rfl⟩ := ih hcalls
      cases heq
      exact ⟨rfl, rfl⟩
    · rw [hnone] at h
      cases h

/-- A negative length blocks the stream: whatever chunks come, they pile up. -/
theorem pmRun_negative (hlen : PM_HEADER_LEN ≤ buf.length) (hmatch : pmMatch e buf = true)
    (hneg : pmBodyLen e buf < 0) (chunks : List (List UInt8))
    (hmem : (buf ++ chunks.flatten).length < 2 ^ 63) :
    pmRun e flags chunks buf = some ([], buf ++ chunks.flatten) := by
  induction chunks generalizing buf with
  | nil => rw [List.flatten_nil, List.append_nil]; rfl
  | cons chunk chunks ih =>
    have hlen' : PM_HEADER_LEN ≤ (buf ++ chunk).length := by
      rw [List.length_append]
      omega
    have hmatch' : pmMatch e (buf ++ chunk) = true := by
      rw [pmMatch_append (by unfold PM_HEADER_LEN at hlen; omega), hmatch]
    have hlen_eq := pmBodyLen_append (e := e) hlen chunk
    rw [List.flatten_cons, ← List.append_assoc] at hmem ⊢
    have hsize := toSize_of_neg (hlen_eq ▸ hneg)
      (le_trans (by decide) (pmBodyLen_bounds (e := e) (buf ++ chunk)).1)
    have hwait : hpPmPack e flags (buf ++ chunk) = some ⟨0, buf ++ chunk, none⟩ := by
      have hmin := (pmBodyLen_bounds (e := e) (buf ++ chunk)).1
      have hshort : (buf ++ chunk).length ≤ (buf ++ chunk ++ chunks.flatten).length :=
        (List.prefix_append _ _).length_le
      rw [hpPmPack, hpPmPackLoop_header hlen' hmatch', if_neg (by omega)]
    unfold pmRun pmDrain
    rw [hwait, Option.bind_some, Option.bind_some]
    show Option.map _ (pmRun e flags chunks (buf ++ chunk)) = _
    rw [ih hlen' hmatch' (hlen_eq ▸ hneg) hmem]
    rfl

theorem PmWaits.not_returned (h : PmWaits e flags buf) : ¬ PmReturned e flags buf := by
  intro ⟨msg, hret⟩
  have hmsg := congrArg (Option.map PmRes.msg) (h.symm.trans hret)
  cases hmsg

end

/-- The smallest message. -/
def emptyMsg : HpMsg := ⟨0, 0, 0, [], 0⟩

theorem emptyMsg_valid : emptyMsg.Valid := ⟨by decide, by decide, rfl⟩

/-- The length of a header is handled as it should be exactly if it is legal. -/
theorem length_handled (e : Endian) (flags : Nat) (buf : List UInt8)
    (hlen : PM_HEADER_LEN ≤ buf.length) (hmatch : pmMatch e buf = true) :
    LengthHandled e flags buf ↔ LegalLen (pmBodyLen e buf) := by
  constructor
  · intro h
    by_contra hlegal
    obtain ⟨n, msgs, rest, hcalls, hmem⟩ := h.later hlegal emptyMsg emptyMsg_valid
    have hlen' : PM_HEADER_LEN ≤ (buf ++ hpMsgBytes e emptyMsg).length := by
      rw [List.length_append]
      omega
    have hmatch' : pmMatch e (buf ++ hpMsgBytes e emptyMsg) = true := by
      rw [pmMatch_append (by unfold PM_HEADER_LEN at hlen; omega), hmatch]
    have hnone := (pmCalls_illegal hlen' hmatch' (by rwa [pmBodyLen_append hlen]) hcalls).1
    rw [hnone] at hmem
    cases hmem
  · intro hlegal
    refine ⟨⟨fun hret => ⟨hlegal, ?_⟩, fun h => pmReturned_of_legal hlen hmatch hlegal h.2⟩,
      fun hwait => ⟨hlegal.1, ?_⟩, fun h => absurd hlegal h⟩
    · by_contra hpart
      have hwait : PmWaits e flags buf := pmWaits_of_legal hlen hmatch hlegal (by omega)
      exact hwait.not_returned hret
    · by_contra hall
      exact hwait.not_returned (pmReturned_of_legal hlen hmatch hlegal (by omega))

def negativeHeader : List UInt8 := hpMsgHeader .little { emptyMsg with len := -1 }

theorem length_handled_empty : LengthHandled .little 0 (hpMsgHeader .little emptyMsg) :=
  (length_handled .little 0 (hpMsgHeader .little emptyMsg) (by decide) (by decide)).mpr
    ⟨by decide, by decide⟩

/-- After a header with length -1 no message is ever returned. -/
theorem length_not_handled :
    ¬ (∀ (e : Endian) (flags : Nat) (buf : List UInt8), PM_HEADER_LEN ≤ buf.length →
      pmMatch e buf = true → LengthHandled e flags buf) ∧
    (∀ chunks : List (List UInt8), (negativeHeader ++ chunks.flatten).length < 2 ^ 63 →
      pmRun .little 0 chunks negativeHeader = some ([], negativeHeader ++ chunks.flatten)) := by
  have hlen : PM_HEADER_LEN ≤ negativeHeader.length := by decide
  have hmatch : pmMatch .little negativeHeader = true := by decide
  have hneg : pmBodyLen .little negativeHeader = -1 := by decide
  refine ⟨fun hall => ?_, fun chunks hmem => pmRun_negative hlen hmatch (by omega) chunks hmem⟩
  have hwait : PmWaits .little 0 negativeHeader := by
    show hpPmPack .little 0 negativeHeader = _
    decide
  have hnonneg := ((hall .little 0 negativeHeader hlen hmatch).waits hwait).1
  omega

end Libhp.Msg
