import Libhp.Io.Rd
import Libhp.Lib.Framing

/-!
# Messages come out once and in order

Handlers that follow a framing, and what a connection has done with the bytes it
received: the messages dispatched so far are a prefix of the stream's messages and
the buffer holds the received bytes behind them. One turn of the loop takes at most
one message; from that the invariant holds at every point of every history of
`hp_rd_read` calls.
-/
namespace Libhp.Io

/-- Handlers for which `on_parse` takes exactly the first complete message of the
buffer or nothing, and `on_dispatch` never asks to close. Both may keep any state. -/
structure FramedHdl (σ M : Type) where
  framing : Framing Byte
  decode : List Byte → M
  onParse : List Byte → σ → (Int × List Byte × M) × σ
  onDispatch : M → σ → Int × σ
  parse_some : ∀ {buf n} s, framing.frame buf = some n →
    0 < (onParse buf s).1.1 ∧ (onParse buf s).1.2 = (buf.drop n, decode (buf.take n))
  parse_none : ∀ {buf} s, framing.frame buf = none →
    (onParse buf s).1.1 = 0 ∧ (onParse buf s).1.2.1 = buf
  dispatch_nonneg : ∀ msg s, 0 ≤ (onDispatch msg s).1

/-- The calls of `hp_rd_read` on one connection, in order. -/
def rdRun {σ : Type} (ops : RdOps σ) : List RdCall → HpRd → σ → Option (HpRd × σ)
  | [], rd, s => some (rd, s)
  | call :: calls, rd, s => (hpRdRead ops rd call s).bind fun (_, rd, s) => rdRun ops calls rd s

theorem rdRun_append {σ : Type} (ops : RdOps σ) (a b : List RdCall) :
    ∀ (rd : HpRd) (s : σ),
      rdRun ops (a ++ b) rd s = (rdRun ops a rd s).bind fun (rd, s) => rdRun ops b rd s := by
  induction a with
  | nil => intro rd s; rfl
  | cons call a ih =>
    intro rd s
    rw [List.cons_append, rdRun, rdRun]
    cases hpRdRead ops rd call s with
    | none => rfl
    | some r => exact ih _ _

/-- The turns of the loop in which `read()` delivers `chunks`, up to the head of the
next one. A turn that breaks off has a negative result. -/
def rdTurns {σ : Type} (ops : RdOps σ) (data : List Byte → σ → Option (Int × List Byte × σ)) :
    List (List Byte) → HpRd → σ → Option (Int × HpRd × σ)
  | [], rd, s => some (0, rd, s)
  | chunk :: chunks, rd, s =>
    (rdTurn data rd s).bind fun (rc, rd, s) =>
      if rc < 0 then some (rc, rd, s)
      else rdTurns ops data chunks (rdGot rd chunk) (ops.note (.got chunk) s)

def receivedBytes (calls : List RdCall) : List Byte := calls.flatMap RdCall.bytes

@[simp] theorem receivedBytes_nil : receivedBytes [] = [] := rfl

@[simp] theorem receivedBytes_cons (call : RdCall) (calls : List RdCall) :
    receivedBytes (call :: calls) = call.bytes ++ receivedBytes calls := rfl

@[simp] theorem receivedBytes_append (a b : List RdCall) :
    receivedBytes (a ++ b) = receivedBytes a ++ receivedBytes b := List.flatMap_append

namespace FramedHdl
variable {σ M : Type} (H : FramedHdl σ M)

/-- The handlers as installed, with every dispatched message recorded. -/
def hdl : IoHdl (σ × List M) M :=
  { onParse := some fun buf s => ((H.onParse buf s.1).1, (H.onParse buf s.1).2, s.2)
    onDispatch := some fun msg s =>
      ((H.onDispatch msg s.1).1, (H.onDispatch msg s.1).2, s.2 ++ [msg]) }

def data : List Byte → σ × List M → Option (Int × List Byte × σ × List M) := hpIoTOnData H.hdl

def ops (readError : HpRd → Int → σ → HpRd × σ) : RdOps (σ × List M) :=
  { data := some H.data
    readError := some fun rd err s => ((readError rd err s.1).1, (readError rd err s.1).2, s.2)
    note := fun _ s => s }

/-- The connection received `recv`: it dispatched a prefix of the messages and holds the rest. -/
def Holds (recv : List Byte) (rd : HpRd) (s : σ × List M) : Prop :=
  ∃ ms, H.framing.Reads recv ms rd.iBuf ∧ s.2 = ms.map H.decode

/-- Complete messages waiting in the buffer. -/
def pending (rd : HpRd) : Nat := (H.framing.messages rd.iBuf).length

end FramedHdl

/-- The buffer never outgrows its allocation. -/
def HpRd.Fits (rd : HpRd) : Prop := rd.iBuf.length ≤ rd.I_BUF_MAX ∧ 0 < rd.I_BUF_MAX

theorem hpRdInit_fits (bufrlen : Int) : (hpRdInit bufrlen).Fits := by
  unfold HpRd.Fits hpRdInit
  refine ⟨Nat.zero_le _, ?_⟩
  by_cases h : bufrlen ≤ 0
  · simp only [h, ↓reduceIte]
    decide
  · simp only [h, ↓reduceIte]
    omega

theorem rdGrow_fits {rd : HpRd} (h : rd.Fits) : (rdGrow rd).Fits ∧ 0 < (rdGrow rd).request := by
  obtain ⟨hle, hpos⟩ := h
  unfold rdGrow HpRd.Fits HpRd.request
  by_cases hlt : rd.iBuf.length < rd.I_BUF_MAX
  · simp only [hlt, ↓reduceIte]
    omega
  · simp only [hlt, ↓reduceIte]
    omega

theorem rdGot_fits {rd : HpRd} (h : rd.Fits) {chunk : List Byte}
    (hc : chunk.length ≤ rd.request) : (rdGot rd chunk).Fits := by
  obtain ⟨hle, hpos⟩ := h
  unfold HpRd.request at hc
  refine ⟨?_, hpos⟩
  change (rd.iBuf ++ chunk).length ≤ rd.I_BUF_MAX
  rw [List.length_append]
  omega

@[simp] theorem rdGrow_iBuf (rd : HpRd) : (rdGrow rd).iBuf = rd.iBuf := by
  unfold rdGrow
  split <;> rfl

namespace FramedHdl
variable {σ M : Type} {H : FramedHdl σ M}

/-- One data call: it dispatches the first message of the buffer if that is complete. -/
theorem data_spec (buf : List Byte) (s : σ × List M) :
    ∃ rc buf' s', H.data buf s = some (rc, buf', s') ∧ 0 ≤ rc ∧
      ((H.framing.frame buf = none ∧ buf' = buf ∧ s'.2 = s.2) ∨
        ∃ n, H.framing.frame buf = some n ∧ buf' = buf.drop n ∧
          s'.2 = s.2 ++ [H.decode (buf.take n)]) := by
  by_cases hbuf : 0 < buf.length
  · cases hf : H.framing.frame buf with
    | none =>
      obtain ⟨hn, hrest⟩ := H.parse_none s.1 hf
      refine ⟨0, buf, ((H.onParse buf s.1).2, s.2), ?_, Int.le_refl 0, .inl ⟨rfl, rfl, rfl⟩⟩
      simp only [data, hpIoTOnData, hdl, onDataLoop, gt_iff_lt, hbuf, hn, hrest, Int.lt_irrefl,
        ↓reduceIte]
    | some n =>
      obtain ⟨hn, hrest⟩ := H.parse_some s.1 hf
      let answer := H.onDispatch (H.decode (buf.take n)) (H.onParse buf s.1).2
      refine ⟨answer.1, buf.drop n, (answer.2, s.2 ++ [H.decode (buf.take n)]), ?_,
        H.dispatch_nonneg _ _, .inr ⟨n, rfl, rfl, rfl⟩⟩
      simp only [data, hpIoTOnData, hdl, onDataLoop, gt_iff_lt, hbuf, hn, hrest, ↓reduceIte,
        Int.not_lt.mpr (Int.le_of_lt hn)]
      rfl
  · have hnil : buf = [] := List.eq_nil_of_length_eq_zero (by omega)
    subst hnil
    refine ⟨0, [], s, rfl, Int.le_refl 0, .inl ⟨?_, rfl, rfl⟩⟩
    exact Framing.messages_eq_nil_iff.mp Framing.messages_nil

/-- A data call of `hp_rd_read` moves one message from the waiting ones to the dispatched. -/
theorem rdData_spec {recv : List Byte} {rd : HpRd} {s : σ × List M} (h : H.Holds recv rd s) :
    ∃ rc rd' s', rdData H.data rd s = some (rc, rd', s') ∧ 0 ≤ rc ∧ H.Holds recv rd' s' ∧
      H.pending rd' = H.pending rd - 1 ∧ (rd.Fits → rd'.Fits) := by
  obtain ⟨ms, hreads, hlog⟩ := h
  obtain ⟨rc, buf', s', hdata, hrc, hcase⟩ := data_spec (H := H) rd.iBuf s
  have hcall : ∃ rc, rdData H.data rd s = some (rc, { rd with iBuf := buf' }, s') ∧ 0 ≤ rc := by
    by_cases hbuf : rd.iBuf.length > 0
    · exact ⟨rc, by simp only [rdData, hbuf, ↓reduceIte, hdata, Option.map_some], hrc⟩
    · have hnil : rd.iBuf = [] := List.eq_nil_of_length_eq_zero (by omega)
      rw [hnil] at hdata
      obtain ⟨-, rfl, rfl⟩ : (0 : Int) = rc ∧ ([] : List Byte) = buf' ∧ s = s' := by
        simpa [data, hpIoTOnData, hdl, onDataLoop] using hdata
      refine ⟨0, ?_, Int.le_refl 0⟩
      simp only [rdData, hbuf, ↓reduceIte]
      rw [← hnil]
  obtain ⟨rc, hcall, hrc⟩ := hcall
  refine ⟨rc, _, s', hcall, hrc, ?_⟩
  rcases hcase with ⟨hf, rfl, hlog'⟩ | ⟨n, hf, rfl, hlog'⟩
  · refine ⟨⟨ms, hreads, hlog'.trans hlog⟩, ?_, id⟩
    simp only [pending, Framing.messages_of_none hf, List.length_nil]
  · refine ⟨⟨_, hreads.next hf, ?_⟩, ?_, ?_⟩
    · rw [hlog', hlog, List.map_append, List.map_singleton]
    · simp only [pending, Framing.messages_of_some hf, List.length_cons, Nat.add_sub_cancel]
    · rintro ⟨hle, hpos⟩
      refine ⟨?_, hpos⟩
      rw [List.length_drop]
      exact Nat.le_trans (Nat.sub_le _ _) hle

/-- A turn of the loop: one message at most leaves the buffer, and `read()` gets room. -/
theorem rdTurn_spec {recv : List Byte} {rd : HpRd} {s : σ × List M} (h : H.Holds recv rd s) :
    ∃ rc rd' s', rdTurn H.data rd s = some (rc, rd', s') ∧ 0 ≤ rc ∧ H.Holds recv rd' s' ∧
      H.pending rd' = H.pending rd - 1 ∧ (rd.Fits → rd'.Fits ∧ 0 < rd'.request) := by
  obtain ⟨rc, rd', s', hdata, hrc, ⟨ms, hreads, hlog⟩, hpend, hfit⟩ := rdData_spec h
  refine ⟨rc, rdGrow rd', s', ?_, hrc, ⟨ms, ?_, hlog⟩, ?_, fun hf => rdGrow_fits (hfit hf)⟩
  · simp only [rdTurn, hdata, Option.map_some, Int.not_lt.mpr hrc, ↓reduceIte]
  · rwa [rdGrow_iBuf]
  · rwa [pending, rdGrow_iBuf]

theorem Holds.got {recv : List Byte} {rd : HpRd} {s : σ × List M} (h : H.Holds recv rd s)
    (chunk : List Byte) : H.Holds (recv ++ chunk) (rdGot rd chunk) s := by
  obtain ⟨ms, hreads, hlog⟩ := h
  exact ⟨ms, hreads.append chunk, hlog⟩

theorem Holds.init (bufrlen : Int) (s : σ) : H.Holds [] (hpRdInit bufrlen) (s, []) :=
  ⟨[], .start, rfl⟩

end FramedHdl

section
variable {σ : Type}

/-- `read()` delivers at least a byte and never more than it was offered. -/
def ChunksFit (ops : RdOps σ) (data : List Byte → σ → Option (Int × List Byte × σ)) :
    List (List Byte) → HpRd → σ → Prop
  | [], _, _ => True
  | chunk :: chunks, rd, s => ∀ rc rd' s', rdTurn data rd s = some (rc, rd', s') →
      0 < chunk.length ∧ chunk.length ≤ rd'.request ∧
        ChunksFit ops data chunks (rdGot rd' chunk) (ops.note (.got chunk) s')

def CallsFit (ops : RdOps σ) : List RdCall → HpRd → σ → Prop
  | [], _, _ => True
  | call :: calls, rd, s =>
    (∀ data, ops.data = some data → ChunksFit ops data call.chunks rd s) ∧
      ∀ n rd' s', hpRdRead ops rd call s = some (n, rd', s') → CallsFit ops calls rd' s'

/-- The loop after some chunks is the loop from where their turns have led. -/
theorem hpRdReadLoop_append {ops : RdOps σ}
    {data : List Byte → σ → Option (Int × List Byte × σ)} (last : RdEnd) (ds : List (List Byte))
    {rc : Int} {rd' : HpRd} {s' : σ} (hrc : 0 ≤ rc) :
    ∀ (cs : List (List Byte)) (rd : HpRd) (n : Nat) (s : σ),
      rdTurns ops data cs rd s = some (rc, rd', s') →
      hpRdReadLoop ops data last (cs ++ ds) rd n s =
        hpRdReadLoop ops data last ds rd' (n + cs.flatten.length) s' := by
  intro cs
  induction cs with
  | nil =>
    intro rd n s h
    simp only [rdTurns, Option.some.injEq, Prod.mk.injEq] at h
    obtain ⟨-, rfl, rfl⟩ := h
    rfl
  | cons c cs ih =>
    intro rd n s h
    simp only [rdTurns, Option.bind_eq_some_iff] at h
    obtain ⟨⟨rc₁, rd₁, s₁⟩, hturn, hrest⟩ := h
    by_cases hneg : rc₁ < 0
    · simp only [hneg, ↓reduceIte, Option.some.injEq, Prod.mk.injEq] at hrest
      omega
    · simp only [hneg, ↓reduceIte] at hrest
      rw [List.cons_append, hpRdReadLoop, hturn]
      simp only [Option.bind_some, hneg, ↓reduceIte]
      rw [ih _ _ _ hrest, List.flatten_cons, List.length_append, Nat.add_assoc]

end

namespace FramedHdl
variable {σ M : Type} {H : FramedHdl σ M} (readError : HpRd → Int → σ → HpRd × σ)

/-- The turns in which chunks arrive keep the reader's view of the stream. -/
theorem rdTurns_spec :
    ∀ (cs : List (List Byte)) {recv : List Byte} {rd : HpRd} {s : σ × List M},
      H.Holds recv rd s → ∃ rd' s', rdTurns (H.ops readError) H.data cs rd s = some (0, rd', s') ∧
        H.Holds (recv ++ cs.flatten) rd' s' ∧
        (rd.Fits → ChunksFit (H.ops readError) H.data cs rd s → rd'.Fits) := by
  intro cs
  induction cs with
  | nil =>
    intro recv rd s h
    exact ⟨rd, s, rfl, by rwa [List.flatten_nil, List.append_nil], fun hf _ => hf⟩
  | cons c cs ih =>
    intro recv rd s h
    obtain ⟨rc, rd₁, s₁, hturn, hrc, h₁, -, hfit₁⟩ := rdTurn_spec h
    obtain ⟨rd', s', hrest, h', hfit'⟩ := ih (h₁.got c)
    refine ⟨rd', s', ?_, ?_, ?_⟩
    · rw [rdTurns, hturn]
      simp only [Option.bind_some, Int.not_lt.mpr hrc, ↓reduceIte]
      exact hrest
    · rwa [List.flatten_cons, ← List.append_assoc]
    · intro hf hcf
      obtain ⟨-, hc, hcs⟩ := hcf rc rd₁ s₁ hturn
      exact hfit' (rdGot_fits (hfit₁ hf).1 hc) hcs

/-- A call of `hp_rd_read`: the turns of its chunks, one more turn, and what the last
result of `read()` makes of it. -/
theorem hpRdRead_spec {recv : List Byte} {rd : HpRd} {s : σ × List M} (call : RdCall)
    (h : H.Holds recv rd s) :
    ∃ rd₁ s₁ rc rd₂ s₂, rdTurns (H.ops readError) H.data call.chunks rd s = some (0, rd₁, s₁) ∧
      H.Holds (recv ++ call.bytes) rd₁ s₁ ∧
      rdTurn H.data rd₁ s₁ = some (rc, rd₂, s₂) ∧ H.Holds (recv ++ call.bytes) rd₂ s₂ ∧
      H.pending rd₂ = H.pending rd₁ - 1 ∧
      (rd.Fits → ChunksFit (H.ops readError) H.data call.chunks rd s → rd₂.Fits) ∧
      hpRdRead (H.ops readError) rd call s =
        (rdLast (H.ops readError) H.data call.last rd₂ s₂).map fun (rd, s) =>
          (call.bytes.length, rd, s) := by
  obtain ⟨rd₁, s₁, hturns, h₁, hfit₁⟩ := rdTurns_spec readError call.chunks h
  obtain ⟨rc, rd₂, s₂, hturn, hrc, h₂, hpend, hfit₂⟩ := rdTurn_spec h₁
  refine ⟨rd₁, s₁, rc, rd₂, s₂, hturns, h₁, hturn, h₂, hpend,
    fun hf hcf => (hfit₂ (hfit₁ hf hcf)).1, ?_⟩
  have hloop := hpRdReadLoop_append call.last [] (Int.le_refl 0)
    call.chunks rd 0 s hturns
  rw [List.append_nil, hpRdReadLoop, hturn] at hloop
  simp only [Option.bind_some, Int.not_lt.mpr hrc, ↓reduceIte, Nat.zero_add] at hloop
  exact hloop

/-- Calls that end with "read again later" keep the view, from one to the next. -/
theorem rdRun_spec :
    ∀ (calls : List RdCall) {recv : List Byte} {rd : HpRd} {s : σ × List M},
      (∀ c ∈ calls, c.last.again = true) → H.Holds recv rd s →
      ∃ rd' s', rdRun (H.ops readError) calls rd s = some (rd', s') ∧
        H.Holds (recv ++ receivedBytes calls) rd' s' ∧
        (rd.Fits → CallsFit (H.ops readError) calls rd s → rd'.Fits) := by
  intro calls
  induction calls with
  | nil =>
    intro recv rd s _ h
    exact ⟨rd, s, rfl, by rwa [receivedBytes_nil, List.append_nil], fun hf _ => hf⟩
  | cons call calls ih =>
    intro recv rd s hagain h
    obtain ⟨rd₁, s₁, rc, rd₂, s₂, -, -, -, h₂, -, hfit₂, hcall⟩ :=
      hpRdRead_spec readError call h
    simp only [rdLast, hagain call (by simp), ↓reduceIte, Option.map_some] at hcall
    obtain ⟨rd', s', hrest, h', hfit'⟩ := ih (fun c hc => hagain c (by simp [hc])) h₂
    refine ⟨rd', s', ?_, ?_, ?_⟩
    · rw [rdRun, hcall, Option.bind_some]
      exact hrest
    · rwa [receivedBytes_cons, ← List.append_assoc]
    · rintro hf ⟨hchunks, hcalls⟩
      exact hfit' (hfit₂ hf (hchunks _ rfl)) (hcalls _ _ _ hcall)

/-- `recv` arrived so far of a stream that may go on in any way: the messages dispatched
are the first `k` of the stream, and `i_buf` holds what was received behind them. -/
def InOrder (H : FramedHdl σ M) (recv : List Byte) (rd : HpRd) (s : σ × List M) : Prop :=
  ∃ k, k ≤ (H.framing.messages recv).length ∧
    (∀ later, s.2 = ((H.framing.messages (recv ++ later)).take k).map H.decode) ∧
    rd.iBuf = recv.drop ((H.framing.messages recv).take k).flatten.length

omit readError in
theorem Holds.inOrder {recv : List Byte} {rd : HpRd} {s : σ × List M} (h : H.Holds recv rd s) :
    H.InOrder recv rd s := by
  obtain ⟨ms, hreads, hlog⟩ := h
  refine ⟨ms.length, ?_, fun later => ?_, ?_⟩
  · rw [hreads.length_messages]
    exact Nat.le_add_right _ _
  · rw [hlog, ← hreads.take_messages later]
  · have hms := hreads.take_messages []
    rw [List.append_nil] at hms
    rw [← hms]
    exact hreads.rest_eq

end FramedHdl

/-- After any history of `hp_rd_read` calls that ended with "read again later" and any
chunks delivered in the call under way, the messages dispatched are the first ones of the
stream, in order and once each, and the buffer holds exactly the bytes behind them. This
is so at the head of the loop and again where `read()` is called next, which is always
offered some room (`I_BUF_MAX` is an unbounded number here; in C, below `INT_MAX / 2`). -/
theorem rd_dispatches_in_order {σ M : Type} (H : FramedHdl σ M)
    (readError : HpRd → Int → σ → HpRd × σ) (bufrlen : Int) (s₀ : σ) (calls : List RdCall)
    (chunks : List (List Byte)) (hagain : ∀ c ∈ calls, c.last.again = true)
    (hcalls : CallsFit (H.ops readError) calls (hpRdInit bufrlen) (s₀, []))
    (hchunks : ∀ rd s, rdRun (H.ops readError) calls (hpRdInit bufrlen) (s₀, []) = some (rd, s) →
      ChunksFit (H.ops readError) H.data chunks rd s) :
    ∃ rd₀ t₀ rd t rc rd' t',
      rdRun (H.ops readError) calls (hpRdInit bufrlen) (s₀, []) = some (rd₀, t₀) ∧
      rdTurns (H.ops readError) H.data chunks rd₀ t₀ = some (0, rd, t) ∧
      H.InOrder (receivedBytes calls ++ chunks.flatten) rd t ∧
      rd.iBuf.length ≤ rd.I_BUF_MAX ∧
      rdTurn H.data rd t = some (rc, rd', t') ∧
      H.InOrder (receivedBytes calls ++ chunks.flatten) rd' t' ∧
      rd'.iBuf.length ≤ rd'.I_BUF_MAX ∧ 0 < rd'.request := by
  obtain ⟨rd₀, t₀, hrun, h₀, hfit₀⟩ :=
    FramedHdl.rdRun_spec readError calls hagain (FramedHdl.Holds.init (H := H) bufrlen s₀)
  obtain ⟨rd, t, hturns, h, hfit⟩ := FramedHdl.rdTurns_spec readError chunks h₀
  obtain ⟨rc, rd', t', hturn, -, h', -, hfit'⟩ := FramedHdl.rdTurn_spec h
  rw [List.nil_append] at h h'
  have hrd := hfit (hfit₀ (hpRdInit_fits bufrlen) hcalls) (hchunks _ _ hrun)
  obtain ⟨hrd', hroom⟩ := hfit' hrd
  exact ⟨rd₀, t₀, rd, t, rc, rd', t', hrun, hturns, h.inOrder, hrd.1, hturn, h'.inOrder,
    hrd'.1, hroom⟩

/-- Messages of one byte each. -/
def byteFraming : Framing Byte where
  frame
    | [] => none
    | _ :: _ => some 1
  frame_pos {xs n} h := by
    cases xs with
    | nil => cases h
    | cons b bs => cases h; decide
  frame_le {xs n} h := by
    cases xs with
    | nil => cases h
    | cons b bs => cases h; simp
  frame_append {xs n} ys h := by
    cases xs with
    | nil => cases h
    | cons b bs => exact h

def byteHdl : FramedHdl Unit (List Byte) where
  framing := byteFraming
  decode := id
  onParse
    | [], s => ((0, [], []), s)
    | b :: bs, s => ((1, bs, [b]), s)
  onDispatch := fun _ s => (0, s)
  parse_some {buf n} s h := by
    cases buf with
    | nil => cases h
    | cons b bs => cases h; exact ⟨Int.one_pos, rfl⟩
  parse_none {buf} s h := by
    cases buf with
    | nil => exact ⟨rfl, rfl⟩
    | cons b bs => cases h
  dispatch_nonneg _ _ := Int.le_refl 0

def rerrorNop (rd : HpRd) (_ : Int) (s : Unit) : HpRd × Unit := (rd, s)

theorem rd_dispatches_in_order_bytes :
    ∃ rd₀ t₀ rd t rc rd' t',
      rdRun (byteHdl.ops rerrorNop) [⟨[[1, 2], [3]], .fail EAGAIN⟩] (hpRdInit 2) ((), []) =
        some (rd₀, t₀) ∧
      rdTurns (byteHdl.ops rerrorNop) byteHdl.data [[4]] rd₀ t₀ = some (0, rd, t) ∧
      byteHdl.InOrder [1, 2, 3, 4] rd t ∧
      rd.iBuf.length ≤ rd.I_BUF_MAX ∧
      rdTurn byteHdl.data rd t = some (rc, rd', t') ∧
      byteHdl.InOrder [1, 2, 3, 4] rd' t' ∧
      rd'.iBuf.length ≤ rd'.I_BUF_MAX ∧ 0 < rd'.request := by
  refine rd_dispatches_in_order byteHdl rerrorNop 2 () [⟨[[1, 2], [3]], .fail EAGAIN⟩] [[4]]
    (by decide) ?_ ?_
  · refine ⟨?_, fun _ _ _ _ => trivial⟩
    rintro data hdata
    cases hdata
    rintro rc rd s hturn
    cases hturn
    refine ⟨by decide, by decide, ?_⟩
    rintro rc rd s hturn
    cases hturn
    exact ⟨by decide, by decide, trivial⟩
  · rintro rd s hrun
    cases hrun
    rintro rc rd s hturn
    cases hturn
    exact ⟨by decide, by decide, trivial⟩

end Libhp.Io
