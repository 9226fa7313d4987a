import Libhp.Lib.CInt
import Libhp.Lib.Run
import Libhp.Lib.Search

/-!
# `hp_iocp`

The user thread with its table of items, the select thread with its table of sockets, the
messages queued to each, and the overlapped operations in between. A step is what one
thread does up to where it next looks at what the others share; which thread goes next,
what the user's callbacks do and what the sockets answer is left open. `none` is a step
that is not possible, or whose behaviour is not defined: an assertion fails, or memory
that was freed is used.
-/
namespace Libhp.Iocp
open CInt

def invalidSocket : Nat := 2 ^ 64 - 1

/-- A callback of an item: not set, the user's, or the `hp_iocp_def_` one of the library. -/
inductive Cb where
  | null
  | user
  | dflt
  deriving DecidableEq, Repr

def Cb.given (b : Bool) : Cb := if b then .user else .null

/-- What `hp_iocp_rm` makes of a callback. -/
def Cb.reset : Cb → Cb
  | .null => .null
  | _ => .dflt

/-- The poll flags: POLLIN, POLLOUT, POLLERR, POLLHUP and POLLNVAL. -/
structure Flags where
  pin : Bool
  pout : Bool
  perr : Bool
  phup : Bool
  pnval : Bool
  deriving DecidableEq, Repr

def Flags.zero : Flags := ⟨false, false, false, false, false⟩
def Flags.reads : Flags := { Flags.zero with pin := true }
def Flags.writes (pout : Bool) : Flags := { Flags.zero with pout := pout }
def Flags.inout : Flags := { Flags.zero with pin := true, pout := true }
def Flags.err : Flags := { Flags.zero with perr := true }

/-- The number that the flags are, with the values of winsock2.h. -/
def Flags.value (f : Flags) : Int :=
  (if f.pin then 768 else 0) + (if f.pout then 16 else 0) + (if f.perr then 1 else 0) +
    (if f.phup then 2 else 0) + if f.pnval then 4 else 0

/-- `flags & (POLLERR | POLLHUP)` -/
def Flags.failed (f : Flags) : Bool := f.perr || f.phup

/-- `hp_iocp_ol`, numbered in the order of allocation; `buf` is what is left to write, as much
of it as the length in the WSABUF says. -/
structure Ol where
  no : Nat
  id : Int
  ptr : Nat
  free : Bool
  buf : List UInt8
  deriving DecidableEq, Repr

def hpIocpOlNewi (no : Nat) (id : Int) : Ol := ⟨no, id, 0, false, []⟩

/-- What the free callback is given: `ptr`, or the data if that is NULL. -/
def toFree (data ptr : Nat) : Nat := if ptr = 0 then data else ptr

/-- The `len` of a WSABUF has 32 bits; the `size_t` that is stored there loses the others. -/
def wsabufLen (ndata : Nat) : Nat := ndata % 2 ^ 32

def hpIocpOlNewo (no : Nat) (id : Int) (data : Nat) (bytes : List UInt8) (freecb : Bool)
    (ptr : Nat) : Ol :=
  ⟨no, id, toFree data ptr, freecb, bytes.take (wsabufLen bytes.length)⟩

/-- `ol_read`: there is nothing to free. -/
def Ol.read (ol : Ol) : Bool := ol.ptr = 0

/-- What the free callback of the record is called with, if there is one. -/
def Ol.buffers (ol : Ol) : List Nat := if ol.free then [ol.ptr] else []

structure Item where
  id : Int
  fd : Nat
  onAccept : Cb
  onData : Cb
  onError : Cb
  onLoop : Cb
  err : Int
  obuf : List Ol
  deriving DecidableEq, Repr

/-- `hp_iocp_item_is_removed` -/
def Item.isRemoved (item : Item) : Bool := item.onAccept = .dflt || item.onData = .dflt

structure Polld where
  id : Int
  fd : Nat
  flags : Flags
  deriving DecidableEq, Repr

/-- WM_ADD and WM_RM -/
inductive PollMsg where
  | add (id : Int) (fd : Nat)
  | rm (id : Int) (flags : Flags)
  deriving DecidableEq, Repr

/-- WM_FD and WM_IO -/
inductive UserMsg where
  | fd (id : Int) (flags : Flags)
  | io (ol : Ol) (nbuf : Nat) (err : Int)
  deriving DecidableEq, Repr

/-- Where `hp_iocp_run` is: in its message loop, or at an item of the pass after it. -/
inductive RunPc where
  | msgs
  | pass (i : Nat)
  deriving DecidableEq, Repr

/-- A call of `hp_iocp_item_on_error` for the item at `i`, entered or in the callback of
the item, and the record its caller deletes afterwards. -/
structure Failing where
  i : Nat
  ol : Option Ol
  called : Bool
  deriving DecidableEq, Repr

/-- Where the select thread is: in its message loop, at `select`, or at an entry of the
table with the sets that `select` left. -/
inductive PollPc where
  | msgs
  | select
  | scan (i : Nat) (rfds wfds exceptfds : List Nat)
  deriving DecidableEq, Repr

/-- What has happened on the socket of an id: the bytes that `hp_iocp_write` accepted, those
that were sent, and whether a send has failed. -/
structure Sock where
  written : List UInt8
  wire : List UInt8
  dead : Bool
  deriving DecidableEq, Repr

def Sock.fresh : Sock := ⟨[], [], false⟩

/-- `hp_iocp` with both threads. `sends` and `recvs` are submitted to the system, `done`
is completed but not yet posted. The last fields record what was allocated and freed:
records by number, and the buffers of the user that have a free callback. -/
structure HpIocp where
  items : List Item
  ioid : Int
  maxfd : Nat
  pc : RunPc
  failing : Option Failing
  userQ : List UserMsg
  pds : List Polld
  ppc : PollPc
  pollQ : List PollMsg
  sends : List Ol
  recvs : List Ol
  done : List (Ol × Nat)
  sock : Int → Sock
  next : Nat
  deleted : List Nat
  given : List Nat
  released : List Nat

def hpIocpInit (maxfd : Nat) : HpIocp where
  items := []
  ioid := 0
  maxfd := if maxfd = 0 then 65535 else maxfd
  pc := .msgs
  failing := none
  userQ := []
  pds := []
  ppc := .msgs
  pollQ := []
  sends := []
  recvs := []
  done := []
  sock := fun _ => .fresh
  next := 0
  deleted := []
  given := []
  released := []

def HpIocp.setItem (s : HpIocp) (i : Nat) (item : Item) : HpIocp :=
  { s with items := s.items.set i item }

def HpIocp.postPoll (s : HpIocp) (m : PollMsg) : HpIocp := { s with pollQ := s.pollQ ++ [m] }

def HpIocp.fail (s : HpIocp) (i : Nat) (ol : Option Ol) : HpIocp :=
  { s with failing := some ⟨i, ol, false⟩ }

/-- `hp_iocp_ol_del` -/
def hpIocpOlDel (s : HpIocp) (ol : Ol) : HpIocp :=
  { s with
    deleted := s.deleted ++ [ol.no]
    released := s.released ++ ol.buffers }

/-- `hp_iocp_item_find` -/
def HpIocp.itemFind (s : HpIocp) (id : Int) : Option (Nat × Item) :=
  (Search.bsearch (fun item => compare id item.id) s.items).bind fun i =>
    (s.items[i]?).map fun item => (i, item)

/-- The item at `i` is in its error callback, with its buffers freed. -/
def HpIocp.isFreed (s : HpIocp) (i : Nat) : Bool := s.failing.any fun f => f.called && f.i = i

/-- The user's code can run: between the steps of `hp_iocp_run` and in callbacks, among
which the error callback of an item has to be set. -/
def HpIocp.userRuns (s : HpIocp) : Bool :=
  match s.failing with
  | none => true
  | some f => f.called && (s.items[f.i]?).any fun item => item.onError = .user

/-- The id for a new item. -/
def HpIocp.nextId (s : HpIocp) : Int := if s.ioid = INT_MAX - 1 then 0 else s.ioid

/-- `hp_iocp_add`; `bound` is what CreateIoCompletionPort answers. -/
def hpIocpAdd (s : HpIocp) (fd : Nat) (onAccept onData onError onLoop bound : Bool) :
    Option (HpIocp × Int) :=
  if fd = invalidSocket ∨ !(onData || onAccept) then some (s, -1)
  else
    match (s.items.findIdx? fun item => item.fd = fd).bind
        (fun i => (s.items[i]?).map fun item => (i, item)) with
    | some (i, item) =>
      -- the room in the input buffer is looked at
      if s.isFreed i then none
      else
        some (s.setItem i { item with
          onAccept := .given onAccept
          onData := .given onData
          onError := .given onError
          onLoop := .given onLoop }, item.id)
    | none =>
      if s.items.length = s.maxfd then some (s, -2)
      else if !bound then some ({ s with ioid := s.nextId }, -3)
      else
        some ({ s with
          items := s.items ++
            [⟨s.nextId, fd, .given onAccept, .given onData, .given onError, .given onLoop, 0, []⟩]
          ioid := s.nextId + 1
          pollQ := if onAccept then s.pollQ else s.pollQ ++ [.add s.nextId fd]
          sock := Function.update s.sock s.nextId .fresh }, s.nextId)

/-- `hp_iocp_rm` -/
def hpIocpRm (s : HpIocp) (id : Int) : HpIocp × Int :=
  if id < 0 then (s, -1)
  else
    match s.itemFind id with
    | none => (s, -2)
    | some (i, item) =>
      (s.setItem i { item with
        onAccept := item.onAccept.reset
        onData := item.onData.reset
        onError := item.onError.reset
        onLoop := item.onLoop.reset }, 0)

/-- The free callback runs when the write is refused. -/
def HpIocp.refuse (s : HpIocp) (freecb : Bool) (ptr : Nat) : HpIocp :=
  let buffers := if freecb then [ptr] else []
  { s with given := s.given ++ buffers, released := s.released ++ buffers }

/-- The record of a write of `bytes` is queued. -/
def HpIocp.queueWrite (s : HpIocp) (i : Nat) (item : Item) (bytes : List UInt8) (ol : Ol) :
    HpIocp :=
  { s.setItem i { item with obuf := item.obuf ++ [ol] } with
    pollQ := s.pollQ ++ [.rm item.id .inout]
    next := s.next + 1
    given := s.given ++ ol.buffers
    sock := Function.update s.sock item.id
      { s.sock item.id with written := (s.sock item.id).written ++ bytes } }

/-- `hp_iocp_write` of the bytes at `data` -/
def hpIocpWrite (s : HpIocp) (id : Int) (data : Nat) (bytes : List UInt8) (freecb : Bool)
    (ptr : Nat) : Option (HpIocp × Int) :=
  if data = 0 ∨ bytes = [] then some (s.refuse freecb (toFree data ptr), -1)
  else
    match s.itemFind id with
    | none => some (s.refuse freecb (toFree data ptr), -2)
    | some (i, item) =>
      if item.isRemoved then some (s.refuse freecb (toFree data ptr), -2)
      else if s.isFreed i then none
      else some (s.queueWrite i item bytes (hpIocpOlNewo s.next id data bytes freecb ptr), 0)

/-- `hp_iocp_do_write`; `err` is the error of WSASend. The flag is the return value. -/
def hpIocpDoWrite (s : HpIocp) (i : Nat) (item : Item) (err : Option Int) : Option (HpIocp × Bool) :=
  match item.obuf with
  | [] => some (s, false)
  | ol :: obuf =>
    if ol.no ∈ s.deleted then none
    else
      match err with
      | some e => some (hpIocpOlDel (s.setItem i { item with obuf := obuf, err := e }) ol, true)
      | none =>
        some ({ s.setItem i { item with obuf := obuf, err := 0 } with
          sends := s.sends ++ [ol] }, false)

/-- WM_FD in `hp_iocp_handle_msg` -/
def handleFd (s : HpIocp) (id : Int) (flags : Flags) (err : Option Int) : Option HpIocp :=
  match s.itemFind id with
  | none => some s
  | some (i, item) =>
    if flags.failed then some ((s.setItem i { item with err := flags.value }).fail i none)
    else if flags.pout then
      (hpIocpDoWrite s i item err).map fun (s', failed) =>
        if failed ∨ (s'.items[i]?).any (fun item' => item'.err ≠ 0) then s'.fail i none else s'
    else if item.err ≠ 0 then some (s.fail i none)
    else some s

/-- A send has written less than its buffer: the rest is queued again, and the record goes
the way of every record that was handled. -/
def HpIocp.recommit (s : HpIocp) (i : Nat) (item : Item) (ol : Ol) (nbuf : Nat) : HpIocp :=
  hpIocpOlDel
    ((s.setItem i
        { item with obuf := item.obuf ++ [{ ol with buf := ol.buf.drop nbuf }] }).postPoll
      (.rm item.id .inout)) ol

/-- WM_IO in `hp_iocp_handle_msg`; `drop` says that the user's `on_data` returns less than 0. -/
def handleIo (s : HpIocp) (ol : Ol) (nbuf : Nat) (err : Int) (drop : Bool) : Option HpIocp :=
  match s.itemFind ol.id with
  | none => some (hpIocpOlDel s ol)
  | some (i, item) =>
    if nbuf = 0 then some ((s.setItem i { item with err := err }).fail i (some ol))
    else if ol.read then
      match item.onData with
      | .null => none
      | .user => if drop then some (s.fail i (some ol)) else some (hpIocpOlDel s ol)
      | .dflt => some (s.fail i (some ol))
    else if ol.buf.length < nbuf then none
    else if nbuf = ol.buf.length then some (hpIocpOlDel s ol)
    else some (s.recommit i item ol nbuf)

/-- `hp_iocp_handle_msg` for the first message -/
def hpIocpHandleMsg (s : HpIocp) (err : Option Int) (drop : Bool) : Option HpIocp :=
  match s.pc, s.failing, s.userQ with
  | .msgs, none, .fd id flags :: q => handleFd { s with userQ := q } id flags err
  | .msgs, none, .io ol nbuf e :: q => handleIo { s with userQ := q } ol nbuf e drop
  | _, _, _ => none

/-- `hp_iocp_item_on_error` up to the callback -/
def hpIocpItemOnError (s : HpIocp) : Option HpIocp :=
  match s.failing with
  | some ⟨i, ol, false⟩ =>
    (s.items[i]?).map fun item =>
      { (s.setItem i { item with obuf := [] }).postPoll (.rm item.id .zero) with
        failing := some ⟨i, ol, true⟩ }
  | _ => none

/-- The rest of `hp_iocp_item_on_error`, and what its caller does next. -/
def onErrorReturn (s : HpIocp) : Option HpIocp :=
  match s.failing with
  | some ⟨i, ol, true⟩ =>
    let pc := match s.pc with
      | .msgs => .msgs
      | .pass j => .pass (if i + 1 < s.items.length then j else j + 1)
    let s' := { s with items := s.items.eraseIdx i, failing := none, pc := pc }
    some (ol.elim s' (hpIocpOlDel s'))
  | _ => none

/-- The message queue of `hp_iocp_run` is empty. -/
def runMsgsEnd (s : HpIocp) : Option HpIocp :=
  match s.pc, s.failing, s.userQ with
  | .msgs, none, [] => some { s with pc := .pass 0 }
  | _, _, _ => none

/-- The item whose turn it is in the pass of `hp_iocp_run`; `neg` says that the user's
`on_loop` returns less than 0. -/
def runPass (s : HpIocp) (neg : Bool) : Option HpIocp :=
  match s.pc, s.failing with
  | .pass i, none =>
    match s.items[i]? with
    | none => some { s with pc := .msgs }
    | some item =>
      if item.onLoop = .dflt ∨ item.onLoop = .user ∧ neg then some (s.fail i none)
      else some { s with pc := .pass (i + 1) }
  | _, _ => none

/-- One message of `hp_iocp_select_threadfn`. -/
def pollHandle (maxfd : Nat) (pds : List Polld) : PollMsg → Option (List Polld)
  | .add id fd =>
    match Search.bsearch (fun pd => compare id pd.id) pds with
    | some _ => none
    | none => if maxfd ≤ pds.length then none else some (pds ++ [⟨id, fd, .reads⟩])
  | .rm id flags =>
    match Search.bsearch (fun pd => compare id pd.id) pds with
    | none => none
    | some i =>
      if flags = .zero then some (pds.eraseIdx i)
      else (pds[i]?).map fun pd => pds.set i { pd with flags := flags }

def pollMsg (s : HpIocp) : Option HpIocp :=
  match s.ppc, s.pollQ with
  | .msgs, m :: q => (pollHandle s.maxfd s.pds m).map fun pds => { s with pds := pds, pollQ := q }
  | _, _ => none

def pollMsgsEnd (s : HpIocp) : Option HpIocp :=
  match s.ppc, s.pollQ with
  | .msgs, [] => some { s with ppc := .select }
  | _, _ => none

/-- The sets that `select` leaves are parts of those it is given. -/
def selectReady (pds : List Polld) (rfds wfds exceptfds : List Nat) : Bool :=
  (rfds.all fun fd => pds.any fun pd => pd.fd = fd && pd.flags.pin) &&
    (wfds.all fun fd => pds.any fun pd => pd.fd = fd && pd.flags.pout) &&
    exceptfds.all fun fd => pds.any fun pd => pd.fd = fd

def pollSelect (s : HpIocp) (rfds wfds exceptfds : List Nat) : Option HpIocp :=
  match s.ppc with
  | .select =>
    if selectReady s.pds rfds wfds exceptfds then
      some { s with ppc := .scan 0 rfds wfds exceptfds }
    else none
  | _ => none

/-- The entry of the scan loop whose turn it is; `readErr` says that WSARecv fails. -/
def pollScan (s : HpIocp) (readErr : Bool) : Option HpIocp :=
  match s.ppc with
  | .scan i rfds wfds exceptfds =>
    match s.pds[i]? with
    | none => some { s with ppc := .msgs }
    | some pd =>
      let s' := { s with ppc := .scan (i + 1) rfds wfds exceptfds }
      if ¬ (pd.fd ∈ rfds ∨ pd.fd ∈ wfds ∨ pd.fd ∈ exceptfds) then some s'
      else
        let pds := if pd.fd ∈ wfds
          then s.pds.set i { pd with flags := { pd.flags with pout := false } } else s.pds
        let flags : Flags := if pd.fd ∈ exceptfds then .err else .writes (pd.fd ∈ wfds)
        if pd.fd ∉ exceptfds ∧ pd.fd ∈ rfds then
          let ol := hpIocpOlNewi s.next pd.id
          if readErr then
            some { hpIocpOlDel s' ol with
              pds := pds, next := s.next + 1, userQ := s.userQ ++ [.fd pd.id .err] }
          else
            some { s' with
              pds := pds, next := s.next + 1, recvs := s.recvs ++ [ol]
              userQ := s.userQ ++ [.fd pd.id flags] }
        else some { s' with pds := pds, userQ := s.userQ ++ [.fd pd.id flags] }
  | _ => none

/-- The oldest send on the socket of `id` is completed with `nbuf` bytes sent. It has failed
when that is 0 and there was something to send; nothing is sent on the socket after that. -/
def sendDone (s : HpIocp) (id : Int) (nbuf : Nat) : Option HpIocp :=
  match s.sends.find? fun ol => ol.id = id with
  | none => none
  | some ol =>
    if ol.buf.length < nbuf ∨ (0 < nbuf ∧ (s.sock id).dead) then none
    else
      some { s with
        sends := s.sends.eraseP fun ol => ol.id = id
        done := s.done ++ [(ol, nbuf)]
        sock := Function.update s.sock id
          { s.sock id with
            wire := (s.sock id).wire ++ ol.buf.take nbuf
            dead := (s.sock id).dead || (nbuf = 0 && ol.buf ≠ []) } }

/-- A read is completed with `nbuf` bytes. -/
def recvDone (s : HpIocp) (k nbuf : Nat) : Option HpIocp :=
  (s.recvs[k]?).map fun ol =>
    { s with recvs := s.recvs.eraseIdx k, done := s.done ++ [(ol, nbuf)] }

/-- `hp_iocp_threadfn` posts a completion; the threads may overtake each other. -/
def postIo (s : HpIocp) (k : Nat) (err : Int) : Option HpIocp :=
  (s.done[k]?).map fun (ol, nbuf) =>
    { s with done := s.done.eraseIdx k, userQ := s.userQ ++ [.io ol nbuf err] }

inductive Act where
  | add (fd : Nat) (onAccept onData onError onLoop bound : Bool)
  | rm (id : Int)
  | write (id : Int) (data : Nat) (bytes : List UInt8) (freecb : Bool) (ptr : Nat)
  | handle (err : Option Int) (drop : Bool)
  | itemOnError
  | onErrorReturn
  | msgsEnd
  | pass (neg : Bool)
  | pollMsg
  | pollMsgsEnd
  | select (rfds wfds exceptfds : List Nat)
  | scan (readErr : Bool)
  | sendDone (id : Int) (nbuf : Nat)
  | recvDone (k nbuf : Nat)
  | postIo (k : Nat) (err : Int)
  deriving DecidableEq, Repr

def step (s : HpIocp) : Act → Option HpIocp
  | .add fd onAccept onData onError onLoop bound =>
    if s.userRuns then (hpIocpAdd s fd onAccept onData onError onLoop bound).map Prod.fst
    else none
  | .rm id => if s.userRuns then some (hpIocpRm s id).1 else none
  | .write id data bytes freecb ptr =>
    if s.userRuns then (hpIocpWrite s id data bytes freecb ptr).map Prod.fst else none
  | .handle err drop => hpIocpHandleMsg s err drop
  | .itemOnError => hpIocpItemOnError s
  | .onErrorReturn => onErrorReturn s
  | .msgsEnd => runMsgsEnd s
  | .pass neg => runPass s neg
  | .pollMsg => pollMsg s
  | .pollMsgsEnd => pollMsgsEnd s
  | .select rfds wfds exceptfds => pollSelect s rfds wfds exceptfds
  | .scan readErr => pollScan s readErr
  | .sendDone id nbuf => sendDone s id nbuf
  | .recvDone k nbuf => recvDone s k nbuf
  | .postIo k err => postIo s k err

end Libhp.Iocp
