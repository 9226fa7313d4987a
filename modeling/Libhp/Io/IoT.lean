import Libhp.Io.Rd
import Libhp.Ev.Epoll

/-!
# Connections

`hp_io_t` of `hp_io_t.cpp`, over any registry. Everything outside the library is in
`IoEnv`: each time the code asks the kernel or a handler something, the answer is
the one of the current tick. A handler's answer comes with the library calls it
makes. `log` records what the library does with each connection.
-/
namespace Libhp.Io
open Libhp.Ev (HpPolld EPOLLIN EPOLLOUT EPOLLERR)

def EPOLLET : Nat := 2 ^ 31

/-- The callbacks `hp_io_add` registers. -/
inductive IoFn where
  | onAccept
  | ioCb
  deriving DecidableEq, Repr, Inhabited

/-- Which members of `hp_iohdl` are set. -/
structure HpIohdl where
  onNew : Bool
  onParse : Bool
  onDispatch : Bool
  onLoop : Bool
  deriving DecidableEq, Repr

structure HpIoT where
  fd : Int
  iohdl : HpIohdl
  rd : HpRd
  wr : HpWr
  deriving Repr

/-- A library call made by a handler or by the program itself. -/
inductive IoAct where
  | add (fd : Int) (iohdl : HpIohdl)
  | write (io : Ptr) (buf : WrBuf) (free : HpFree) (ptr fresh : Ptr)
  | rm (id : Int)

inductive Handler where
  | parse
  | dispatch
  | loop
  deriving DecidableEq, Repr

/-- The text that `on_delete` gets. -/
inductive ErrStr where
  | epollErr
  | pollErr
  | eof
  | strerror (err : Int)
  deriving DecidableEq, Repr

inductive IoEv where
  /-- The event loop calls a registered callback. -/
  | call (io : Ptr)
  /-- The library reads or writes a field of the `hp_io_t`. -/
  | access (io : Ptr)
  | read (io : Ptr) (r : RdRes)
  | write (io : Ptr) (r : SysRes)
  | answer (io : Ptr) (h : Handler) (rc : Int)
  | rm (io : Ptr) (fd : Int)
  | close (io : Ptr) (fd : Int)
  /-- `on_delete`, after which the `hp_io_t` may be gone. -/
  | delete (io : Ptr) (err : Int) (errstr : ErrStr)
  /-- The mask that decides whether the write half of `io_cb` runs. -/
  | test (io : Ptr) (events : Nat)
  deriving DecidableEq, Repr

def IoEv.deletes (p : Ptr) : IoEv → Bool
  | delete q _ _ => q = p
  | _ => false

/-- `on_delete` has been called for the connection. -/
def Deleted (p : Ptr) (log : List IoEv) : Prop := ∃ e ∈ log, e.deletes p = true

instance (p : Ptr) (log : List IoEv) : Decidable (Deleted p log) :=
  inferInstanceAs (Decidable (∃ e ∈ log, e.deletes p = true))

@[simp] theorem not_deleted_nil (p : Ptr) : ¬ Deleted p [] := fun ⟨_, h, _⟩ => absurd h (by simp)

@[simp] theorem deleted_cons {p : Ptr} {e : IoEv} {log : List IoEv} :
    Deleted p (e :: log) ↔ e.deletes p = true ∨ Deleted p log := List.exists_mem_cons_iff ..

@[simp] theorem deleted_append {p : Ptr} {a b : List IoEv} :
    Deleted p (a ++ b) ↔ Deleted p a ∨ Deleted p b := by
  simp only [Deleted, List.mem_append, or_and_right, exists_or]

/-- What `on_parse` returns and leaves in the buffer, and the calls it makes. -/
structure ParseAns where
  n : Int
  rest : List Byte
  acts : List IoAct

structure CbAns where
  rc : Int
  acts : List IoAct

/-- A connection that `accept` returns, and what `on_new` does with it. -/
structure AcceptRes where
  confd : Int
  nodelay : Bool
  acts : List IoAct

structure IoEnv where
  read : Nat → RdCall
  writev : Nat → SysRes
  parse : Nat → ParseAns
  dispatch : Nat → CbAns
  loop : Nat → CbAns
  delete : Nat → List IoAct
  accept : Nat → List AcceptRes
  ctl : Nat → SysRes
  /-- What an uninitialised variable holds. -/
  uninit : Nat → Int
  iovMax : Nat

/-- A registry: `epoll_ctl` answers `ctl` if it is called; `none` is a failed assertion. -/
structure RegOps (R : Type) where
  add : SysRes → R → Int → Nat → HpPolld IoFn Bool → Ptr → Option (Int × R)
  rm : SysRes → R → Int → R

structure IoWorld (R : Type) where
  reg : R
  ios : Ptr → Option HpIoT
  /-- Addresses from here on have not been handed out. -/
  next : Ptr
  tick : Nat
  aborted : Bool
  log : List IoEv

namespace IoWorld
variable {R : Type}

def note (w : IoWorld R) (e : IoEv) : IoWorld R := { w with log := w.log ++ [e] }

def step (w : IoWorld R) : IoWorld R := { w with tick := w.tick + 1 }

def setIo (w : IoWorld R) (p : Ptr) (io : HpIoT) : IoWorld R :=
  { w with ios := fun q => if q = p then some io else w.ios q }

/-- A new `hp_io_t` at the next address. -/
def addIo (w : IoWorld R) (io : HpIoT) : IoWorld R :=
  { w.setIo w.next io with next := w.next + 1 }

def setRd (w : IoWorld R) (p : Ptr) (rd : HpRd) : IoWorld R :=
  match w.ios p with
  | some io => w.setIo p { io with rd := rd }
  | none => w

def setWr (w : IoWorld R) (p : Ptr) (wr : HpWr) : IoWorld R :=
  match w.ios p with
  | some io => w.setIo p { io with wr := wr }
  | none => w

end IoWorld

section
variable {R : Type} (ops : RegOps R) (env : IoEnv)

def hpIoRegister (w : IoWorld R) (fd : Int) (events : Nat) (cb : HpPolld IoFn Bool) : IoWorld R :=
  match ops.add (env.ctl w.tick) w.reg fd events cb cb.arg with
  | some (_, reg) => { w with reg := reg, tick := w.tick + 1 }
  | none => { w with aborted := true }

-- a listening socket uses neither rd nor wr
def newIo (fd : Int) (iohdl : HpIohdl) : HpIoT :=
  { fd := fd, iohdl := iohdl, rd := hpRdInit (1024 * 8), wr := hpWrInit 8 }

/-- `hp_io_add` of a new `hp_io_t`. Its address also serves for the block that the registry
may need, which is not in the same memory. -/
def hpIoAdd (w : IoWorld R) (fd : Int) (iohdl : HpIohdl) : IoWorld R :=
  if ¬ (iohdl.onNew ∨ iohdl.onParse) then w
  else if fd < 0 then w
  else if iohdl.onNew then
    hpIoRegister ops env (w.addIo (newIo fd iohdl)) fd EPOLLIN
      { fn := .onAccept, arg := w.next, onLoop := iohdl.onLoop }
  else
    hpIoRegister ops env (w.addIo (newIo fd iohdl)) fd (EPOLLIN + EPOLLOUT + EPOLLET)
      { fn := .ioCb, arg := w.next, onLoop := iohdl.onLoop }

/-- `hp_io_write`; nobody writes to a connection after its `on_delete`. -/
def hpIoWrite (w : IoWorld R) (io : Ptr) (buf : WrBuf) (free : HpFree) (ptr fresh : Ptr) :
    IoWorld R :=
  if Deleted io w.log then w
  else
    match w.ios io with
    | some c => w.setWr io (hpWrAdd c.wr buf free ptr fresh).2
    | none => w

def hpIoRm (w : IoWorld R) (id : Int) : IoWorld R :=
  { w with reg := ops.rm (env.ctl w.tick) w.reg id, tick := w.tick + 1 }

def doAct (w : IoWorld R) : IoAct → IoWorld R
  | .add fd iohdl => hpIoAdd ops env w fd iohdl
  | .write io buf free ptr fresh => hpIoWrite w io buf free ptr fresh
  | .rm id => hpIoRm ops env w id

def doActs (w : IoWorld R) (acts : List IoAct) : IoWorld R := acts.foldl (doAct ops env) w

/-- The free callbacks of queued items; what they do is not modelled. -/
def wrFree (wr : HpWr) : HpWr :=
  (hpWrUninit (σ := Unit) ⟨fun _ s => (⟨0, 0⟩, s), fun _ _ s => s, none, id⟩ wr ()).1

/-- `hp_io_t_on_error`: leave the event set, close, release the queues, `on_delete`. -/
def hpIoTOnError (p : Ptr) (err : Int) (errstr : ErrStr) (w : IoWorld R) : IoWorld R :=
  match w.ios p with
  | none => w
  | some io =>
    let w := w.note (.access p)
    let w := hpIoRm ops env w io.fd
    let w := (w.note (.rm p io.fd)).note (.close p io.fd)
    let w := w.setWr p (wrFree io.wr)
    let w := w.note (.delete p err errstr)
    doActs ops env w.step (env.delete w.tick)

def hdlOf (p : Ptr) (iohdl : HpIohdl) : IoHdl (IoWorld R) Unit :=
  { onParse :=
      if iohdl.onParse then
        some fun _ w =>
          let a := env.parse w.tick
          ((a.n, a.rest, ()), doActs ops env (w.step.note (.answer p .parse a.n)) a.acts)
      else none
    onDispatch :=
      if iohdl.onDispatch then
        some fun _ w =>
          let a := env.dispatch w.tick
          (a.rc, doActs ops env (w.step.note (.answer p .dispatch a.rc)) a.acts)
      else none }

def rdOps (p : Ptr) (iohdl : HpIohdl) : RdOps (IoWorld R) :=
  { data := some (hpIoTOnData (hdlOf ops env p iohdl))
    readError := some fun rd err w =>
      (rd, hpIoTOnError ops env p err (if err = 0 then .eof else .strerror err) w)
    note := fun r w => w.note (.read p r) }

def wrOps (p : Ptr) : WrOps (IoWorld R) :=
  { writev := fun _ w => (env.writev w.tick, w.step.note (.write p (env.writev w.tick)))
    free := fun _ _ w => w
    writeError := some fun wr err w =>
      let w := hpIoTOnError ops env p err (.strerror err) (w.setWr p wr)
      ((w.ios p).elim wr fun io => io.wr, w)
    touch := fun w => w.note (.access p) }

/-- `hp_rd_read(&io->rd, hp_io_fd(io), io)`. -/
def ioRead (p : Ptr) (w : IoWorld R) : Option (IoWorld R) :=
  (w.ios p).bind fun io =>
    (hpRdRead (rdOps ops env p io.iohdl) io.rd (env.read w.tick) (w.step.note (.access p))).map
      fun (_, rd, w) => w.setRd p rd

/-- `hp_wr_write(&io->wr, hp_io_fd(io), io)`. -/
def ioWrite (p : Ptr) (w : IoWorld R) : Option (IoWorld R) :=
  (w.ios p).bind fun io =>
    (hpWrWrite (wrOps ops env p) env.iovMax io.wr (w.note (.access p))).map
      fun (_, wr, w) => w.setWr p wr

def rdErr (w : IoWorld R) (p : Ptr) : Int := (w.ios p).elim 0 fun io => io.rd.err

/-- The write half of `io_cb`, under the mask it is asked for. -/
def ioWriteHalf (p : Ptr) (events : Nat) (w : IoWorld R) : Option (IoWorld R) :=
  let w := w.note (.test p events)
  if events &&& EPOLLOUT ≠ 0 then ioWrite ops env p w else some w

/-- `hp_io_t_internal_io_cb` of the epoll build. -/
def ioCbEpoll (p : Ptr) (events : Nat) (w : IoWorld R) : Option (IoWorld R) :=
  if events &&& EPOLLERR ≠ 0 then some (hpIoTOnError ops env p EPOLLERR .epollErr w)
  else
    let read :=
      if events &&& EPOLLIN ≠ 0 then
        (ioRead ops env p w).map fun w => (rdErr w p, w.note (.access p))
      -- rc is never set on this path
      else some (env.uninit w.tick, w.step)
    read.bind fun (rc, w) => if rc ≠ 0 then some w else ioWriteHalf ops env p events w

/-- `hp_io_t_internal_io_cb` of the poll build, without the stores to `pfd->revents`. The
slot `pfd` points to is read anew for the write half, when a removal may have moved
another connection into it. -/
def ioCbPoll (p : Ptr) (revents : R → Nat) (w : IoWorld R) : Option (IoWorld R) :=
  if revents w.reg &&& EPOLLERR ≠ 0 then some (hpIoTOnError ops env p EPOLLERR .pollErr w)
  else
    (if revents w.reg &&& EPOLLIN ≠ 0 then ioRead ops env p w else some w).bind fun w =>
      ioWriteHalf ops env p (revents w.reg) w

/-- The loop of `hp_io_t_internal_on_accept`. A socket that cannot be set up, or that
`on_new` does not take, is closed again. -/
def acceptLoop (p : Ptr) : List AcceptRes → IoWorld R → IoWorld R
  | [], w => w.note (.access p)
  | a :: as, w =>
    let w := w.note (.access p)
    acceptLoop p as (if a.nodelay then doActs ops env w a.acts else w)

def onAccept (p : Ptr) (w : IoWorld R) : IoWorld R :=
  acceptLoop ops env p (env.accept w.tick) w.step

/-- `hp_io_t_internal_on_loop`. -/
def onLoop (p : Ptr) (w : IoWorld R) : IoWorld R :=
  let w := w.note (.access p)
  match w.ios p with
  | none => w
  | some io =>
    if io.iohdl.onLoop then
      let a := env.loop w.tick
      doActs ops env (w.step.note (.answer p .loop a.rc)) a.acts
    else w

end
end Libhp.Io
