import Libhp.Io.RdStream
import Libhp.Lib.Backlog

/-!
# What `hp_rd_read` leaves behind

`hp_io_t_on_data` returns as soon as `on_dispatch` does, so a data call delivers one
message however many the last `read()` completed. The messages waiting in the buffer
are then the backlog of a server that takes one a turn, and a call drains exactly when
no last stretch of its chunks completes more messages than it has turns.
-/
namespace Libhp.Io
open Backlog

namespace FramedHdl
variable {σ M : Type} (H : FramedHdl σ M)

/-- Complete messages among the received bytes. -/
def completed (recv : List Byte) : Nat := (H.framing.messages recv).length

/-- Every complete message among the received bytes has been dispatched. -/
def Drained (recv : List Byte) (s : σ × List M) : Prop :=
  s.2 = (H.framing.messages recv).map H.decode

/-- The messages that each chunk completes. -/
def arrivals : List Byte → List (List Byte) → List Nat
  | _, [] => []
  | recv, c :: cs => (H.completed (recv ++ c) - H.completed recv) :: arrivals (recv ++ c) cs

/-- In the call that finds `recv` received, the last `i` chunks complete at most `i`
messages, or `i + 1` when EOF or an error ends the call. -/
def KeepsUp (recv : List Byte) (call : RdCall) : Prop :=
  ∀ cs ds, call.chunks = cs ++ ds →
    H.completed (recv ++ call.bytes) ≤
      H.completed (recv ++ cs.flatten) + ds.length + (if call.last.again then 0 else 1)

variable {H}

theorem completed_mono (recv chunk : List Byte) :
    H.completed recv ≤ H.completed (recv ++ chunk) :=
  (Framing.messages_prefix recv chunk).length_le

theorem sum_arrivals :
    ∀ (cs : List (List Byte)) (recv : List Byte),
      H.completed recv + (H.arrivals recv cs).sum = H.completed (recv ++ cs.flatten) := by
  intro cs
  induction cs with
  | nil => intro recv; simp [arrivals]
  | cons c cs ih =>
    intro recv
    have hc := ih (recv ++ c)
    have hle := completed_mono (H := H) recv c
    rw [arrivals, List.sum_cons, List.flatten_cons, ← List.append_assoc, ← hc]
    omega

theorem length_arrivals :
    ∀ (cs : List (List Byte)) (recv : List Byte), (H.arrivals recv cs).length = cs.length := by
  intro cs
  induction cs with
  | nil => intro recv; rfl
  | cons c cs ih => intro recv; rw [arrivals, List.length_cons, ih, List.length_cons]

theorem arrivals_append :
    ∀ (cs ds : List (List Byte)) (recv : List Byte),
      H.arrivals recv (cs ++ ds) = H.arrivals recv cs ++ H.arrivals (recv ++ cs.flatten) ds := by
  intro cs
  induction cs with
  | nil => intro ds recv; simp [arrivals]
  | cons c cs ih =>
    intro ds recv
    rw [List.cons_append, arrivals, ih, arrivals, List.cons_append, List.flatten_cons,
      List.append_assoc]

theorem suffix_arrivals {cs : List (List Byte)} {recv : List Byte} {ys : List Nat}
    (h : ys <:+ H.arrivals recv cs) :
    ∃ as ds, cs = as ++ ds ∧ ys = H.arrivals (recv ++ as.flatten) ds := by
  obtain ⟨xs, hxs⟩ := h
  refine ⟨cs.take xs.length, cs.drop xs.length, (List.take_append_drop _ _).symm, ?_⟩
  have hlen := congrArg List.length hxs
  rw [List.length_append, length_arrivals] at hlen
  have hsplit := arrivals_append (H := H) (cs.take xs.length) (cs.drop xs.length) recv
  rw [List.take_append_drop, ← hxs] at hsplit
  refine (List.append_inj hsplit ?_).2
  rw [length_arrivals, List.length_take]
  omega

/-- Keeping up, chunk by chunk, is what keeps the backlog of the arrivals below the turns
and data calls that are left. -/
theorem keepsUp_iff (recv : List Byte) (call : RdCall) :
    H.KeepsUp recv call ↔ backlog 0 (H.arrivals recv call.chunks) ≤
      (if call.last.again then 0 else 1) + 1 := by
  rw [backlog_zero_le_iff]
  constructor
  · intro hk ys hys
    obtain ⟨as, ds, hsplit, rfl⟩ := suffix_arrivals hys
    have hall := hk as ds hsplit
    have hsum := sum_arrivals (H := H) ds (recv ++ as.flatten)
    rw [RdCall.bytes, hsplit, List.flatten_append, ← List.append_assoc] at hall
    rw [length_arrivals]
    omega
  · intro hk cs ds hsplit
    have hall := hk (H.arrivals (recv ++ cs.flatten) ds)
      ⟨H.arrivals recv cs, by rw [hsplit, arrivals_append]⟩
    have hsum := sum_arrivals (H := H) ds (recv ++ cs.flatten)
    rw [length_arrivals] at hall
    rw [RdCall.bytes, hsplit, List.flatten_append, ← List.append_assoc]
    omega

/-- What waits plus what was dispatched is what was completed. -/
theorem Holds.completed_eq {recv : List Byte} {rd : HpRd} {s : σ × List M}
    (h : H.Holds recv rd s) : H.completed recv = s.2.length + H.pending rd := by
  obtain ⟨ms, hreads, hlog⟩ := h
  rw [hlog, List.length_map]
  exact hreads.length_messages

theorem Holds.drained_iff {recv : List Byte} {rd : HpRd} {s : σ × List M}
    (h : H.Holds recv rd s) : H.Drained recv s ↔ H.pending rd = 0 := by
  have hcount := h.completed_eq
  obtain ⟨ms, hreads, hlog⟩ := h
  constructor
  · intro hd
    have hlen := congrArg List.length hd
    rw [List.length_map] at hlen
    change s.2.length = H.completed recv at hlen
    omega
  · intro hp
    have hnil : H.framing.messages rd.iBuf = [] := List.eq_nil_of_length_eq_zero hp
    rw [Drained, hreads.messages_eq, hnil, List.append_nil]
    exact hlog

variable (readError : HpRd → Int → σ → HpRd × σ)

/-- The waiting messages after the turns of some chunks are the backlog of their arrivals. -/
theorem pending_rdTurns :
    ∀ (cs : List (List Byte)) {recv : List Byte} {rd : HpRd} {s : σ × List M} {rc : Int}
      {rd' : HpRd} {s' : σ × List M},
      H.Holds recv rd s → rdTurns (H.ops readError) H.data cs rd s = some (rc, rd', s') →
      H.pending rd' = backlog (H.pending rd) (H.arrivals recv cs) := by
  intro cs
  induction cs with
  | nil =>
    intro recv rd s rc rd' s' _ hturns
    cases hturns
    rfl
  | cons c cs ih =>
    intro recv rd s rc rd' s' h hturns
    obtain ⟨rc₁, rd₁, s₁, hturn, hrc, h₁, hpend, -⟩ := rdTurn_spec h
    rw [rdTurns, hturn] at hturns
    simp only [Option.bind_some, Int.not_lt.mpr hrc, ↓reduceIte] at hturns
    rw [ih (h₁.got c) hturns, arrivals, backlog]
    congr 1
    have hbefore := h₁.completed_eq
    have hafter := (h₁.got c).completed_eq
    have hle := completed_mono (H := H) recv c
    omega

/-- The last result of `read()` in a call: nothing more happens on "read again later", one
more data call on EOF or an error. -/
theorem rdLast_spec {recv : List Byte} {rd : HpRd} {s : σ × List M} (last : RdEnd)
    (h : H.Holds recv rd s) :
    ∃ rd' s', rdLast (H.ops readError) H.data last rd s = some (rd', s') ∧
      (H.Drained recv s' ↔ H.pending rd ≤ if last.again then 0 else 1) := by
  by_cases hagain : last.again
  · refine ⟨rd, s, by simp only [rdLast, hagain, ↓reduceIte], ?_⟩
    rw [h.drained_iff, if_pos hagain]
    omega
  · have herr : H.Holds recv { rd with err := if last.errno = 0 then EIO else last.errno } s := h
    obtain ⟨rc, rd', s', hdata, -, h', hpend, -⟩ := rdData_spec herr
    refine ⟨(readError rd' rd'.err s'.1).1, ((readError rd' rd'.err s'.1).2, s'.2), ?_, ?_⟩
    · simp only [rdLast, hagain, Bool.false_eq_true, ↓reduceIte, hdata, Option.map_some, ops]
    · have hd := h'.drained_iff
      change H.pending rd' = H.pending rd - 1 at hpend
      rw [if_neg hagain]
      change H.Drained recv s' ↔ _
      rw [hd, hpend]
      omega

/-- From a drained start, a call drains what it read exactly when it keeps up. -/
theorem hpRdRead_drains_iff {recv : List Byte} {rd : HpRd} {s : σ × List M} (call : RdCall)
    (h : H.Holds recv rd s) (hd : H.Drained recv s) :
    ∃ n rd' s', hpRdRead (H.ops readError) rd call s = some (n, rd', s') ∧
      (H.Drained (recv ++ call.bytes) s' ↔ H.KeepsUp recv call) := by
  obtain ⟨rd₁, s₁, rc, rd₂, s₂, hturns, h₁, -, h₂, hpend₂, -, hcall⟩ :=
    hpRdRead_spec readError call h
  obtain ⟨rd', s', hlast, hiff⟩ := rdLast_spec readError call.last h₂
  refine ⟨call.bytes.length, rd', s', by rw [hcall, hlast, Option.map_some], ?_⟩
  have hstart : H.pending rd = 0 := h.drained_iff.mp hd
  have hback := pending_rdTurns readError call.chunks h hturns
  rw [hstart] at hback
  rw [hiff, keepsUp_iff, hpend₂, hback]
  omega

/-- The state after the calls of a history, when it stands. -/
def DrainedAfter (H : FramedHdl σ M) (readError : HpRd → Int → σ → HpRd × σ) (bufrlen : Int)
    (s₀ : σ) (calls : List RdCall) : Prop :=
  ∃ rd s, rdRun (H.ops readError) calls (hpRdInit bufrlen) (s₀, []) = some (rd, s) ∧
    H.Drained (receivedBytes calls) s

/-- With everything dispatched before it, a call leaves nothing exactly when it keeps up. -/
theorem drainedAfter_concat_iff (bufrlen : Int) (s₀ : σ) {pre : List RdCall} {call : RdCall}
    (hagain : ∀ c ∈ pre, c.last.again = true) (hpre : H.DrainedAfter readError bufrlen s₀ pre) :
    H.DrainedAfter readError bufrlen s₀ (pre ++ [call]) ↔
      H.KeepsUp (receivedBytes pre) call := by
  obtain ⟨rd, s, hrun, hdrained⟩ := hpre
  obtain ⟨rd₁, s₁, hrun₁, h, -⟩ := rdRun_spec readError pre hagain (Holds.init (H := H) bufrlen s₀)
  obtain ⟨rfl, rfl⟩ : rd₁ = rd ∧ s₁ = s := by
    rw [hrun] at hrun₁
    cases hrun₁
    exact ⟨rfl, rfl⟩
  rw [List.nil_append] at h
  obtain ⟨n, rd', s', hcall, hiff⟩ := hpRdRead_drains_iff readError call h hdrained
  have hstep : rdRun (H.ops readError) (pre ++ [call]) (hpRdInit bufrlen) (s₀, []) =
      some (rd', s') := by
    simp only [rdRun_append, hrun, Option.bind_some, rdRun, hcall]
  rw [← hiff, DrainedAfter, hstep, receivedBytes_append, receivedBytes_cons, receivedBytes_nil,
    List.append_nil]
  constructor
  · rintro ⟨rd₂, s₂, heq, hd⟩
    cases heq
    exact hd
  · intro hd
    exact ⟨rd', s', rfl, hd⟩

end FramedHdl

section
variable {σ M : Type} (H : FramedHdl σ M) (readError : HpRd → Int → σ → HpRd × σ)

/-- A connection lives until EOF or an error: only its last call may end so. Every return of
`hp_rd_read`, and every call of `read_error`, finds each complete message dispatched exactly
when in every call, for every `i`, the last `i` chunks complete at most `i` messages, one
more being allowed to the call that EOF or an error ends. -/
theorem rd_drains_iff (bufrlen : Int) (s₀ : σ) (calls : List RdCall)
    (hlive : ∀ c ∈ calls.dropLast, c.last.again = true) :
    (∀ pre, pre <+: calls → H.DrainedAfter readError bufrlen s₀ pre) ↔
      ∀ pre call, pre ++ [call] <+: calls → H.KeepsUp (receivedBytes pre) call := by
  have hagain : ∀ {pre call}, pre ++ [call] <+: calls → ∀ c ∈ pre, c.last.again = true := by
    rintro pre call ⟨rest, rfl⟩ c hc
    apply hlive
    rw [List.append_assoc, List.dropLast_append_of_ne_nil (by simp)]
    exact List.mem_append_left _ hc
  constructor
  · intro hall pre call hpre
    have hbefore := hall pre ((List.prefix_append pre [call]).trans hpre)
    exact (FramedHdl.drainedAfter_concat_iff readError bufrlen s₀ (hagain hpre) hbefore).mp
      (hall _ hpre)
  · intro hkeeps pre
    induction pre using List.reverseRecOn with
    | nil =>
      intro _
      refine ⟨hpRdInit bufrlen, (s₀, []), rfl, ?_⟩
      rw [FramedHdl.Drained, receivedBytes_nil, Framing.messages_nil]
      rfl
    | append_singleton pre call ih =>
      intro hpre
      have hbefore := ih ((List.prefix_append pre [call]).trans hpre)
      exact (FramedHdl.drainedAfter_concat_iff readError bufrlen s₀ (hagain hpre) hbefore).mpr
        (hkeeps pre call hpre)

end

theorem byteHdl_completed (recv : List Byte) : byteHdl.completed recv = recv.length := by
  induction recv with
  | nil => exact congrArg List.length (Framing.messages_nil (F := byteFraming))
  | cons b bs ih =>
    have hmsgs : byteFraming.messages (b :: bs) = [b] :: byteFraming.messages bs :=
      Framing.messages_of_some (show byteFraming.frame (b :: bs) = some 1 from rfl)
    show (byteFraming.messages (b :: bs)).length = _
    rw [hmsgs, List.length_cons, List.length_cons]
    exact congrArg (· + 1) ih

/-- A call gets one message and is to read again later, the next one gets two messages in one
chunk and then EOF: the second of them is dispatched in the data call that EOF makes. -/
theorem rd_drains_iff_two :
    byteHdl.DrainedAfter rerrorNop 0 () [⟨[[1]], .fail EAGAIN⟩] ∧
      byteHdl.DrainedAfter rerrorNop 0 () [⟨[[1]], .fail EAGAIN⟩, ⟨[[2, 3]], .eof 0⟩] := by
  suffices h : ∀ pre, pre <+: [⟨[[1]], .fail EAGAIN⟩, ⟨[[2, 3]], .eof 0⟩] →
      byteHdl.DrainedAfter rerrorNop 0 () pre by
    exact ⟨h _ ⟨[_], rfl⟩, h _ List.prefix_rfl⟩
  apply (rd_drains_iff byteHdl rerrorNop 0 () _ (by decide)).mpr
  intro pre call hpre
  have hone : ∀ {recv chunk : List Byte} {last : RdEnd},
      chunk.length ≤ 1 + (if last.again then 0 else 1) →
      byteHdl.KeepsUp recv ⟨[chunk], last⟩ := by
    intro recv chunk last hlen cs ds hsplit
    simp only [byteHdl_completed, RdCall.bytes, List.length_append]
    cases cs with
    | nil =>
      obtain rfl : [chunk] = ds := hsplit
      simp only [List.flatten_cons, List.flatten_nil, List.append_nil, List.length_nil,
        List.length_singleton]
      omega
    | cons c cs =>
      obtain ⟨rfl, hrest⟩ := List.cons.inj hsplit
      obtain ⟨rfl, rfl⟩ := List.append_eq_nil_iff.mp hrest.symm
      omega
  cases pre with
  | nil =>
    obtain rfl := (List.cons_prefix_cons.mp hpre).1
    exact hone (by decide)
  | cons c pre =>
    obtain ⟨-, hpre⟩ := List.cons_prefix_cons.mp hpre
    cases pre with
    | nil =>
      obtain rfl := (List.cons_prefix_cons.mp hpre).1
      exact hone (by decide)
    | cons c' pre =>
      have hnil := List.prefix_nil.mp (List.cons_prefix_cons.mp hpre).2
      simp at hnil

/-- One `read()` completes two messages and the next one says "again": `hp_rd_read` returns
with the second message in its buffer; if EOF follows three, the last is lost. -/
theorem rd_leaves_message :
    ¬ byteHdl.DrainedAfter rerrorNop 0 () [⟨[[1, 2]], .fail EAGAIN⟩] ∧
      ¬ byteHdl.DrainedAfter rerrorNop 0 () [⟨[[1, 2, 3]], .eof 0⟩] := by
  have hmsgs : ∀ b bs, byteFraming.messages (b :: bs) = [b] :: byteFraming.messages bs :=
    fun b bs => Framing.messages_of_some (show byteFraming.frame (b :: bs) = some 1 from rfl)
  have hnil : byteFraming.messages [] = [] := Framing.messages_nil
  constructor
  · intro ⟨rd, s, hrun, hd⟩
    cases hrun
    change [[1]] = (byteFraming.messages [1, 2]).map id at hd
    rw [hmsgs, hmsgs, hnil] at hd
    cases hd
  · intro ⟨rd, s, hrun, hd⟩
    cases hrun
    change [[1], [2]] = (byteFraming.messages [1, 2, 3]).map id at hd
    rw [hmsgs, hmsgs, hmsgs, hnil] at hd
    cases hd

end Libhp.Io
