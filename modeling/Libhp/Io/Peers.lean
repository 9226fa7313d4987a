import Libhp.Io.RdStream
import Libhp.Io.WrStream
import Libhp.Lib.Run

/-!
# Two ends of a connection

A program on `hp_io` at each end of a TCP connection: `hp_io_write` fills the queue, the loop
empties it with `hp_wr_write` and reads with `hp_rd_read`, and `on_dispatch` answers with
`hp_io_write`. The kernels in between carry the bytes in order and cut them anywhere. A side
that fails is not closed here, so that every run of the code up to then is a run.
-/
namespace Libhp.Io

inductive Side where
  | client
  | server
  deriving DecidableEq, Repr

def Side.other : Side → Side
  | client => server
  | server => client

/-- The handlers of one end: `on_parse` takes the first complete message of the buffer or
nothing, `on_dispatch` answers a message with calls of `hp_io_write`. -/
structure App (M : Type) where
  framing : Framing Byte
  decode : List Byte → M
  onParse : List Byte → Int × List Byte × M
  onDispatch : M → List WrAdd
  parse_some : ∀ {buf n}, framing.frame buf = some n →
    0 < (onParse buf).1 ∧ (onParse buf).2 = (buf.drop n, decode (buf.take n))
  parse_none : ∀ {buf}, framing.frame buf = none → (onParse buf).1 = 0 ∧ (onParse buf).2.1 = buf

/-- Calls of `hp_io_write`, with what they have handed to the queue. -/
def hpIoWrites : List WrAdd → HpWr × List WrAdd → HpWr × List WrAdd
  | [], q => q
  | a :: as, (wr, adds) =>
    hpIoWrites as ((hpWrAdd wr a.buf a.free a.ptr a.fresh).2, adds ++ added [.add a])

/-- What a message is answered with. -/
def App.answer {M : Type} (app : App M) (msg : M) : List WrAdd :=
  added ((app.onDispatch msg).map .add)

def App.hdl {M : Type} (app : App M) : FramedHdl (HpWr × List WrAdd) M where
  framing := app.framing
  decode := app.decode
  onParse buf q := (app.onParse buf, q)
  onDispatch msg q := (0, hpIoWrites (app.onDispatch msg) q)
  parse_some _ h := app.parse_some h
  parse_none _ h := app.parse_none h
  dispatch_nonneg _ _ := Int.le_refl 0

/-- One end: its queue and what was handed to it, what its descriptor has taken, its read buffer,
how much of the other end's bytes it has read, and the messages dispatched. -/
structure Peer (M : Type) where
  wr : HpWr
  adds : List WrAdd
  world : WrWorld
  rd : HpRd
  taken : Nat
  got : List M

def peerInit (M : Type) (n bufrlen : Int) : Peer M :=
  ⟨hpWrInit n, [], ⟨0, []⟩, hpRdInit bufrlen, 0, []⟩

/-- What one end does next: the program writes, or its loop finds the socket writable (`k` says
what `writev` answers) or readable (`call` says what `read` answers). -/
inductive PeerAct where
  | add (a : WrAdd)
  | write (k : WrKernel) (onError : Bool)
  | read (call : RdCall)

section
variable {M : Type}

/-- `read_error` leaves the buffers alone. -/
def keepRd (rd : HpRd) (_ : Int) (q : HpWr × List WrAdd) : HpRd × (HpWr × List WrAdd) := (rd, q)

def App.ops (app : App M) : RdOps ((HpWr × List WrAdd) × List M) := app.hdl.ops keepRd

/-- A step of one end, `flying` the bytes that have yet to be read. -/
def peerStep (app : App M) (flying : List Byte) (p : Peer M) : PeerAct → Option (Peer M)
  | .add a =>
    let q := hpIoWrites [a] (p.wr, p.adds)
    some { p with wr := q.1, adds := q.2 }
  | .write k onError =>
    (hpWrWrite (k.ops onError) k.iovMax p.wr p.world).map fun (_, wr, world) =>
      { p with wr := wr, world := world }
  | .read call =>
    if call.bytes <+: flying then
      (hpRdRead app.ops p.rd call ((p.wr, p.adds), p.got)).map fun (_, rd, (wr, adds), got) =>
        { p with
          wr := wr, adds := adds, rd := rd, taken := p.taken + call.bytes.length, got := got }
    else none

/-- The bytes that the other end's descriptor has taken, and `i` has not read. -/
def wire (s : Side → Peer M) (i : Side) : List Byte :=
  (accepted (s i.other).world.log).drop (s i).taken

def connStep (app : Side → App M) (s : Side → Peer M) (x : Side × PeerAct) :
    Option (Side → Peer M) :=
  (peerStep (app x.1) (wire s x.1) (s x.1) x.2).map (Function.update s x.1)

/-- `sent` was given to the other end's descriptor, and this end has read `taken` bytes of it. -/
structure PeerInv (app : App M) (sent : List Byte) (p : Peer M) : Prop where
  queue : WrInv p.adds p.wr p.world.log
  le : p.taken ≤ sent.length
  holds : app.hdl.Holds (sent.take p.taken) p.rd ((p.wr, p.adds), p.got)

theorem hpIoWrites_adds (as : List WrAdd) (q : HpWr × List WrAdd) :
    (hpIoWrites as q).2 = q.2 ++ added (as.map .add) := by
  induction as generalizing q with
  | nil => exact (List.append_nil _).symm
  | cons a as ih =>
    rw [hpIoWrites, ih, List.append_assoc, ← added_append]
    rfl

theorem hpIoWrites_inv (as : List WrAdd) {q : HpWr × List WrAdd} {log : List WrEv}
    (h : WrInv q.2 q.1 log) : WrInv (hpIoWrites as q).2 (hpIoWrites as q).1 log := by
  induction as generalizing q with
  | nil => exact h
  | cons a as ih =>
    apply ih
    by_cases ht : a.taken = true
    · simpa [added, ht] using hpWrAdd_inv h a ht
    · have hnull : a.buf.addr = 0 := by simpa [WrAdd.taken] using ht
      simpa [added, ht, hpWrAdd, hnull] using h

/-- What the handlers keep, a call of `hp_rd_read` keeps. -/
theorem FramedHdl.hpRdRead_keeps {σ : Type} (H : FramedHdl σ M)
    (readError : HpRd → Int → σ → HpRd × σ) {I : σ × List M → Prop}
    (hparse : ∀ buf s, I s → I ((H.onParse buf s.1).2, s.2))
    (hdispatch : ∀ msg s, I s → I ((H.onDispatch msg s.1).2, s.2 ++ [msg]))
    (herror : ∀ rd err s, I s → I ((readError rd err s.1).2, s.2))
    {rd rd' : HpRd} {call : RdCall} {s s' : σ × List M} {n : Nat}
    (hrun : hpRdRead (H.ops readError) rd call s = some (n, rd', s')) (hs : I s) : I s' := by
  have hdata : ∀ rd s rc rd' s', rdData H.data rd s = some (rc, rd', s') → I s → I s' := by
    intro rd s rc rd' s' h hs
    unfold rdData at h
    split at h
    · obtain ⟨⟨rc₁, buf, s₁⟩, hcall, heq⟩ := Option.map_eq_some_iff.mp h
      cases heq
      have hafter := hpIoTOnData_rule (h := H.hdl) (I := I) (N := I)
        (fun parse hp buf s hs => by cases hp; exact (ite_self _).mpr (hparse buf s hs))
        (fun f hf msg s hs => by cases hf; exact (ite_self _).mpr (hdispatch msg s hs)) hcall hs
      exact (ite_self _).mp hafter
    · cases h
      exact hs
  have hturn : ∀ rd s rc rd' s', I s → rdTurn H.data rd s = some (rc, rd', s') → I s' := by
    intro rd s rc rd' s' hs h
    obtain ⟨⟨rc₁, rd₁, s₁⟩, hcall, heq⟩ := Option.map_eq_some_iff.mp h
    have hs₁ := hdata _ _ _ _ _ hcall hs
    simp only at heq
    split at heq <;> cases heq <;> exact hs₁
  have hlast : ∀ rd s rd' s', I s →
      rdLast (H.ops readError) H.data call.last rd s = some (rd', s') → I s' := by
    intro rd s rd' s' hs h
    unfold rdLast at h
    split at h
    · cases h
      exact hs
    · obtain ⟨⟨rc₁, rd₁, s₁⟩, hcall, heq⟩ := Option.map_eq_some_iff.mp h
      have hs₁ := hdata _ _ _ _ _ hcall hs
      cases heq
      exact herror rd₁ _ s₁ hs₁
  have hend := @hpRdReadLoop_rule _ (H.ops readError) H.data call.last (fun _ => I) (fun _ => I)
    (fun _ => I) (fun _ => I)
    (fun rd s rc rd' s' hs h => (ite_self _).mpr (hturn rd s rc rd' s' hs h))
    (fun _ _ _ hs => hs) hlast call.chunks rd 0 s _ _ _ hrun hs
  exact hend.elim id id

/-- A call of `hp_rd_read` comes back, however it ends, and has taken messages off the stream. -/
theorem hpRdRead_holds {app : App M} {recv : List Byte} {rd : HpRd}
    {s : (HpWr × List WrAdd) × List M} (call : RdCall) (h : app.hdl.Holds recv rd s) :
    ∃ rd' s', hpRdRead app.ops rd call s = some (call.bytes.length, rd', s') ∧
      app.hdl.Holds (recv ++ call.bytes) rd' s' := by
  obtain ⟨rd₁, s₁, rc, rd₂, s₂, -, -, -, h₂, -, -, hcall⟩ :=
    FramedHdl.hpRdRead_spec keepRd call h
  unfold App.ops
  rw [hcall]
  by_cases hagain : call.last.again = true
  · refine ⟨rd₂, s₂, ?_, h₂⟩
    simp only [rdLast, hagain, if_true, Option.map_some]
  · have h₃ : app.hdl.Holds (recv ++ call.bytes)
        { rd₂ with err := if call.last.errno = 0 then EIO else call.last.errno } s₂ := h₂
    obtain ⟨rc', rd₄, s₄, hdata, -, h₄, -⟩ := FramedHdl.rdData_spec h₃
    refine ⟨rd₄, s₄, ?_, h₄⟩
    simp only [rdLast, hagain, Bool.false_eq_true, if_false]
    show ((rdData app.hdl.data _ s₂).map _).map _ = _
    rw [hdata]
    rfl

/-- `hp_wr_write` only adds to what the descriptor has taken. -/
theorem hpWrWrite_grows {k : WrKernel} {onError : Bool} {adds : List WrAdd} {wr wr' : HpWr}
    {world world' : WrWorld} {w : Nat} (h : WrInv adds wr world.log)
    (hrun : hpWrWrite (k.ops onError) k.iovMax wr world = some (w, wr', world')) :
    WrInv adds wr' world'.log ∧ accepted world.log <+: accepted world'.log := by
  obtain ⟨w₁, wr₁, world₁, hrun₁, h₁, hlen⟩ := hpWrWrite_inv k onError h
  rw [hrun] at hrun₁
  cases hrun₁
  have hbefore : accepted world.log <+: streamOf adds := ⟨pending wr, h.stream⟩
  have hafter : accepted world'.log <+: streamOf adds := ⟨pending wr', h₁.stream⟩
  exact ⟨h₁, List.prefix_of_prefix_length_le hbefore hafter (by omega)⟩

/-- The other end's descriptor may take more. -/
theorem PeerInv.more {app : App M} {sent sent' : List Byte} {p : Peer M}
    (h : PeerInv app sent p) (hmore : sent <+: sent') : PeerInv app sent' p := by
  obtain ⟨later, rfl⟩ := hmore
  refine ⟨h.queue, ?_, ?_⟩
  · rw [List.length_append]
    exact Nat.le_add_right_of_le h.le
  · rw [List.take_append_of_le_length h.le]
    exact h.holds

/-- What the queue and the ledger are does not matter to what was read. -/
theorem Holds_congr {app : App M} {recv : List Byte} {rd : HpRd} {q q' : HpWr × List WrAdd}
    {got : List M} (h : app.hdl.Holds recv rd (q, got)) : app.hdl.Holds recv rd (q', got) := h

theorem peerStep_inv {app : App M} {sent : List Byte} {p p' : Peer M} {act : PeerAct}
    (h : PeerInv app sent p) (hstep : peerStep app (sent.drop p.taken) p act = some p') :
    PeerInv app sent p' ∧ accepted p.world.log <+: accepted p'.world.log := by
  cases act with
  | add a =>
    cases hstep
    exact ⟨⟨hpIoWrites_inv [a] (q := (p.wr, p.adds)) h.queue, h.le, Holds_congr h.holds⟩,
      List.prefix_rfl⟩
  | write k onError =>
    obtain ⟨⟨w, wr, world⟩, hrun, heq⟩ := Option.map_eq_some_iff.mp hstep
    cases heq
    obtain ⟨hqueue, hgrows⟩ := hpWrWrite_grows h.queue hrun
    exact ⟨⟨hqueue, h.le, Holds_congr h.holds⟩, hgrows⟩
  | read call =>
    simp only [peerStep] at hstep
    split at hstep
    · next hflying =>
      obtain ⟨⟨n, rd, ⟨wr, adds⟩, got⟩, hrun, heq⟩ := Option.map_eq_some_iff.mp hstep
      cases heq
      have hqueue : WrInv adds wr p.world.log :=
        FramedHdl.hpRdRead_keeps app.hdl keepRd
          (I := fun s => WrInv s.1.2 s.1.1 p.world.log) (fun _ _ hs => hs)
          (fun msg s hs => hpIoWrites_inv (app.onDispatch msg) hs) (fun _ _ _ hs => hs) hrun h.queue
      obtain ⟨rd₁, s₁, hrun₁, hholds⟩ := hpRdRead_holds call h.holds
      rw [hrun] at hrun₁
      cases hrun₁
      have hrecv : sent.take p.taken ++ call.bytes = sent.take (p.taken + call.bytes.length) := by
        rw [List.take_add, ← List.prefix_iff_eq_take.mp hflying]
      refine ⟨⟨hqueue, ?_, hrecv ▸ hholds⟩, List.prefix_rfl⟩
      have hlen := hflying.length_le
      rw [List.length_drop] at hlen
      have hle := h.le
      show p.taken + call.bytes.length ≤ sent.length
      omega
    · cases hstep

/-- Both ends. -/
def ConnInv (app : Side → App M) (s : Side → Peer M) : Prop :=
  ∀ i, PeerInv (app i) (accepted (s i.other).world.log) (s i)

theorem ConnInv.step {app : Side → App M} {s s' : Side → Peer M} {x : Side × PeerAct}
    (h : ConnInv app s) (hstep : connStep app s x = some s') : ConnInv app s' := by
  obtain ⟨i, act⟩ := x
  obtain ⟨p, hpeer, rfl⟩ := Option.map_eq_some_iff.mp hstep
  obtain ⟨hp, hgrows⟩ := peerStep_inv (h i) hpeer
  have hother : i.other ≠ i := by cases i <;> decide
  have hback : i.other.other = i := by cases i <;> rfl
  intro j
  by_cases hj : j = i
  · subst hj
    rw [Function.update_self, Function.update_of_ne hother]
    exact hp
  · obtain rfl : j = i.other := by cases i <;> cases j <;> first | rfl | exact absurd rfl hj
    rw [hback, Function.update_self, Function.update_of_ne hother]
    have hbefore := h i.other
    rw [hback] at hbefore
    exact hbefore.more hgrows

/-- The server's queue has what the server answers. -/
def Answers (app : Side → App M) (s : Side → Peer M) : Prop :=
  (s .server).adds = (s .server).got.flatMap (app .server).answer

/-- The program at the server writes in `on_dispatch` only. -/
def ServerAnswers (_ : Side → Peer M) (x : Side × PeerAct) : Prop := ∀ a, x ≠ (.server, .add a)

theorem Answers.step {app : Side → App M} {s s' : Side → Peer M} {x : Side × PeerAct}
    (h : Answers app s) (hstep : connStep app s x = some s') (hok : ServerAnswers s x) :
    Answers app s' := by
  obtain ⟨i, act⟩ := x
  obtain ⟨p, hpeer, rfl⟩ := Option.map_eq_some_iff.mp hstep
  unfold Answers
  cases i with
  | client =>
    rw [Function.update_of_ne (show Side.server ≠ .client by decide)]
    exact h
  | server =>
    rw [Function.update_self]
    cases act with
    | add a => exact absurd rfl (hok a)
    | write k onError =>
      obtain ⟨⟨w, wr, world⟩, -, heq⟩ := Option.map_eq_some_iff.mp hpeer
      cases heq
      exact h
    | read call =>
      simp only [peerStep] at hpeer
      split at hpeer
      · obtain ⟨⟨n, rd, ⟨wr, adds⟩, got⟩, hrun, heq⟩ := Option.map_eq_some_iff.mp hpeer
        cases heq
        refine FramedHdl.hpRdRead_keeps (app .server).hdl keepRd
          (I := fun s => s.1.2 = s.2.flatMap (app .server).answer) (fun _ _ hs => hs)
          (fun msg s hs => ?_) (fun _ _ _ hs => hs) hrun h
        show (hpIoWrites ((app .server).onDispatch msg) s.1).2 = _
        rw [hpIoWrites_adds, hs, List.flatMap_append, List.flatMap_singleton]
        rfl
      · cases hpeer

/-- A new connection, with the sizes that each end asks for. -/
def connInit (M : Type) (n bufrlen : Side → Int) (i : Side) : Peer M := peerInit M (n i) (bufrlen i)

theorem connInit_inv (app : Side → App M) (n bufrlen : Side → Int) :
    ConnInv app (connInit M n bufrlen) := by
  intro i
  exact ⟨wrInv_init (n i), Nat.zero_le _, FramedHdl.Holds.init _ _⟩

theorem ConnInv.run {app : Side → App M} {ok : (Side → Peer M) → Side × PeerAct → Prop}
    {n bufrlen : Side → Int} {s : Side → Peer M}
    (h : Run.Along (connStep app) ok (connInit M n bufrlen) s) : ConnInv app s :=
  h.invariant (connInit_inv app n bufrlen) fun _ _ _ hs hstep _ => hs.step hstep

/-- What an end has handed to `hp_io_write` is, in this order, in the messages that the other end
has dispatched, in its buffer, on the way, and in the queue. -/
theorem ConnInv.split {app : Side → App M} {s : Side → Peer M} (h : ConnInv app s) (i : Side) :
    ∃ ms, (app i).framing.Reads (streamOf (s i.other).adds) ms
        ((s i).rd.iBuf ++ (wire s i ++ pending (s i.other).wr)) ∧
      (s i).got = ms.map (app i).decode := by
  obtain ⟨ms, hreads, hgot⟩ := (h i).holds
  have hback : i.other.other = i := by cases i <;> rfl
  have hqueue := (h i.other).queue.stream
  refine ⟨ms, ?_, hgot⟩
  have hstream : streamOf (s i.other).adds =
      (accepted (s i.other).world.log).take (s i).taken ++
        (wire s i ++ pending (s i.other).wr) := by
    rw [wire, ← List.append_assoc, List.take_append_drop, hqueue]
  rw [hstream]
  exact hreads.append _

/-- Messages of a byte each. The server sends the next two bytes back, in two buffers. -/
def countApp : Side → App (List Byte) := fun i =>
  { framing := byteFraming
    decode := id
    onParse := fun buf => match buf with
      | [] => (0, [], [])
      | b :: bs => (1, bs, [b])
    onDispatch := fun msg => match i, msg with
      | .server, b :: _ =>
        [⟨⟨1, [b + 1], 1, by simp⟩, .copy, 0, 1, by decide⟩,
          ⟨⟨1, [b + 2], 1, by simp⟩, .copy, 0, 1, by decide⟩]
      | _, _ => []
    parse_some := fun {buf n} h => by
      cases buf with
      | nil => cases h
      | cons b bs => cases h; exact ⟨Int.one_pos, rfl⟩
    parse_none := fun {buf} h => by
      cases buf with
      | nil => exact ⟨rfl, rfl⟩
      | cons b bs => cases h }

/-- A kernel that takes at most `n + 1` bytes at a time. -/
def kernelTaking (n : Nat) : WrKernel where
  answer _ req := ⟨min (n + 1) req, 0⟩
  ret_le _ _ := by simp only; omega
  fails _ _ _ h := by simp only at h; omega
  sysconf := 2
  IOV_MAX := 2
  iov_pos := by decide

theorem byteFraming_whole (bs : List Byte) : byteFraming.Whole bs := by
  unfold Framing.Whole
  induction bs with
  | nil => rw [Framing.messages_nil]; rfl
  | cons b bs ih =>
    rw [Framing.messages_of_some (n := 1) rfl]
    exact congrArg (b :: ·) ih

/-- Two requests, the second one cut off from the first by the kernel. -/
def countActs : List (Side × PeerAct) :=
  [(.client, .add ⟨⟨1, [10, 20], 2, by decide⟩, .null, 0, 1, by decide⟩),
    (.client, .write (kernelTaking 0) true), (.server, .read ⟨[[10]], .fail EAGAIN⟩),
    (.client, .write (kernelTaking 0) true), (.server, .write (kernelTaking 4) true),
    (.client, .read ⟨[[11], [12]], .fail EAGAIN⟩), (.server, .read ⟨[[20]], .fail EAGAIN⟩)]

/-- In every run, at both ends: the messages dispatched are the first ones of what the other end
has handed to `hp_io_write`, once each and in order, and every other byte is, in order, in the
read buffer, on the way or in the other end's queue. -/
theorem conn_delivers (app : Side → App M) (n bufrlen : Side → Int) (s : Side → Peer M)
    (h : Run.Along (connStep app) (fun _ _ => True) (connInit M n bufrlen) s) (i : Side) :
    ∃ ms, ms <+: (app i).framing.messages (streamOf (s i.other).adds) ∧
      (s i).got = ms.map (app i).decode ∧
      streamOf (s i.other).adds =
        ms.flatten ++ ((s i).rd.iBuf ++ (wire s i ++ pending (s i.other).wr)) := by
  obtain ⟨ms, hreads, hgot⟩ := (ConnInv.run h).split i
  exact ⟨ms, ⟨_, hreads.messages_eq.symm⟩, hgot, hreads.flatten_append⟩

/-- The client has got both replies to its first request. -/
theorem conn_delivers_count : ∃ s : Side → Peer (List Byte), (s .client).got = [[11], [12]] ∧
    ∃ ms, ms <+: (countApp .client).framing.messages (streamOf (s .server).adds) ∧
      (s .client).got = ms.map (countApp .client).decode ∧
      streamOf (s .server).adds =
        ms.flatten ++ ((s .client).rd.iBuf ++ (wire s .client ++ pending (s .server).wr)) := by
  obtain ⟨s, hrun, hgot⟩ : ∃ s, Run.Along (connStep countApp) (fun _ _ => True)
      (connInit (List Byte) (fun _ => 8) (fun _ => 16)) s ∧ (s .client).got = [[11], [12]] :=
    Run.along_any (fun _ _ => true) countActs (fun _ _ _ => trivial) _ (by decide +kernel)
  exact ⟨s, hgot, conn_delivers countApp _ _ s hrun .client⟩

/-- The messages that the client has asked with. -/
def requests (app : Side → App M) (s : Side → Peer M) : List M :=
  ((app .server).framing.messages (streamOf (s .client).adds)).map (app .server).decode

/-- The messages that the client should get for one of them. -/
def replies (app : Side → App M) (msg : M) : List M :=
  ((app .client).framing.messages (streamOf ((app .server).answer msg))).map (app .client).decode

/-- Nothing is in a queue, on the way or in a read buffer. -/
def Quiet (s : Side → Peer M) : Prop :=
  ∀ i, (s i).rd.iBuf = [] ∧ wire s i = [] ∧ pending (s i).wr = []

theorem ConnInv.got_prefix {app : Side → App M} {s : Side → Peer M} (h : ConnInv app s)
    (i : Side) :
    (s i).got <+:
      ((app i).framing.messages (streamOf (s i.other).adds)).map (app i).decode := by
  obtain ⟨ms, hreads, hgot⟩ := h.split i
  rw [hgot, hreads.messages_eq, List.map_append]
  exact List.prefix_append _ _

theorem ConnInv.got_quiet {app : Side → App M} {s : Side → Peer M} (h : ConnInv app s)
    (hquiet : Quiet s) (i : Side) :
    (s i).got =
      ((app i).framing.messages (streamOf (s i.other).adds)).map (app i).decode := by
  obtain ⟨ms, hreads, hgot⟩ := h.split i
  rw [(hquiet i).1, (hquiet i).2.1, (hquiet i.other).2.2] at hreads
  rw [hgot, hreads.messages_eq, List.nil_append, List.nil_append, Framing.messages_nil,
    List.append_nil]

theorem replies_messages {app : Side → App M}
    (hwhole : ∀ msg, (app .client).framing.Whole (streamOf ((app .server).answer msg)))
    (msgs : List M) :
    ((app .client).framing.messages (streamOf (msgs.flatMap (app .server).answer))).map
      (app .client).decode = msgs.flatMap (replies app) := by
  have hstream : streamOf (msgs.flatMap (app .server).answer) =
      msgs.flatMap fun msg => streamOf ((app .server).answer msg) := List.flatMap_assoc
  rw [hstream, Framing.messages_flatMap hwhole, List.map_flatMap]
  rfl

/-- Where the server writes whole messages, and only to answer, the client is answered in order:
in every run, the messages dispatched at the client are the first replies to the first of its
requests, and all replies to all requests once nothing is left in between. -/
theorem conn_answers (app : Side → App M) (n bufrlen : Side → Int) (s : Side → Peer M)
    (hwhole : ∀ msg, (app .client).framing.Whole (streamOf ((app .server).answer msg)))
    (h : Run.Along (connStep app) ServerAnswers (connInit M n bufrlen) s) :
    (s .server).got <+: requests app s ∧
      (s .client).got <+: (s .server).got.flatMap (replies app) ∧
      (Quiet s → (s .client).got = (requests app s).flatMap (replies app)) := by
  have hinv := ConnInv.run h
  have hanswers : (s .server).adds = (s .server).got.flatMap (app .server).answer :=
    h.invariant (I := Answers app) rfl fun _ _ _ hs hstep hok => hs.step hstep hok
  have hclient : ((app .client).framing.messages (streamOf (s .server).adds)).map
      (app .client).decode = (s .server).got.flatMap (replies app) := by
    rw [hanswers, replies_messages hwhole]
  refine ⟨hinv.got_prefix .server, ?_, fun hquiet => ?_⟩
  · rw [← hclient]
    exact hinv.got_prefix .client
  · have hall := hinv.got_quiet hquiet .server
    rw [hinv.got_quiet hquiet .client]
    show ((app .client).framing.messages (streamOf (s .server).adds)).map (app .client).decode = _
    rw [hclient, hall]
    rfl

/-- The program of the test, in which only the client writes on its own. -/
def clientOnly (_ : Side → Peer (List Byte)) : Side × PeerAct → Bool
  | (.server, .add _) => false
  | _ => true

theorem conn_answers_count : ∃ s : Side → Peer (List Byte),
    ((s .client).got = [[11], [12]] ∧ (s .server).got = [[10], [20]]) ∧
    (s .server).got <+: requests countApp s ∧
      (s .client).got <+: (s .server).got.flatMap (replies countApp) ∧
      (Quiet s → (s .client).got = (requests countApp s).flatMap (replies countApp)) := by
  obtain ⟨s, hrun, hgot⟩ : ∃ s, Run.Along (connStep countApp) ServerAnswers
      (connInit (List Byte) (fun _ => 8) (fun _ => 16)) s ∧
        ((s .client).got = [[11], [12]] ∧ (s .server).got = [[10], [20]]) := by
    refine Run.along_any clientOnly countActs (fun s x hx a heq => ?_) _ (by decide +kernel)
    rw [heq] at hx
    cases hx
  exact ⟨s, hgot, conn_answers countApp _ _ s (fun _ => byteFraming_whole _) hrun⟩

end

end Libhp.Io
