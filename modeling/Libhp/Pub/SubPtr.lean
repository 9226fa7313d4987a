import Libhp.Pub.KlistDrain
import Libhp.Pub.SubLife

/-!
# The subscriber with its lists in memory

The code of `Sub` again, one level lower: the records a subscriber waits for are no list
but `list_head` nodes, one in each `hp_sub_async_t` and one in the `hp_sub_t`, which
`list_add_tail`, `list_del` and the loop of `hp_subc_free` link.
-/
namespace Libhp.Pub.Ptr

open Libhp.Klist

/-- `&ps->async_list` and `&async->node` -/
inductive NodeAddr where
  | asyncList (q : Addr)
  | node (as : Addr)
deriving DecidableEq

structure Client where
  /-- `sid` and whether `cb` is set -/
  subs : Addr → Option (Text × Bool)
  asyncs : Addr → Option HpSubAsync
  heap : Heap NodeAddr
  next : Addr
  freed : List Addr
  pending : List Sent
  subc : Addr → List SubCmd
  calls : List (Addr × CbCall)
  stack : List Frame
  fault : Bool

/-- `hp_subc_arg` has set up each subscriber: `INIT_LIST_HEAD` of its list. -/
def clientStart (subs : Addr → Option (Text × Bool)) : Client where
  subs
  asyncs _ := none
  heap
    | .asyncList q => (subs q).map fun _ => ⟨some (.asyncList q), some (.asyncList q)⟩
    | .node _ => none
  next := 0
  freed := []
  pending := []
  subc _ := []
  calls := []
  stack := []
  fault := false

def Client.setAsync (c : Client) (p : Addr) (a : Option HpSubAsync) : Client :=
  { c with asyncs := fun r => if r = p then a else c.asyncs r }

def Client.crash (c : Client) : Client := { c with fault := true }

/-- `calloc` and `list_add_tail` of a record for the subscriber at `q`. -/
def Client.newAsync (c : Client) (q : Addr) : Client :=
  let zeroed := Function.update c.heap (.node c.next) (some ⟨none, none⟩)
  match listAddTail zeroed (some (.node c.next)) (some (.asyncList q)) with
  | none => c.crash
  | some heap => { c.setAsync c.next (some ⟨some q⟩) with heap, next := c.next + 1 }

def Client.send (c : Client) (cmd : Cmd) (fn : CFn) (ok : Bool) : Client :=
  if ok then { c with pending := c.pending ++ [⟨cmd, fn⟩] } else c

def Client.callCb (c : Client) (q : Addr) (call : CbCall) (frame : Frame) : Client :=
  { c with calls := c.calls ++ [(q, call)], stack := frame :: c.stack }

/-- `free` of a record -/
def Client.free (c : Client) (as : Addr) : Client :=
  { c.setAsync as none with
    heap := Function.update c.heap (.node as) none
    freed := c.freed ++ [as] }

/-- The label `ret` of the reply callbacks: `list_del` and `free`. -/
def Client.finish (c : Client) (as : Addr) : Client :=
  match c.asyncs as with
  | none => c.crash
  | some a =>
    match a.s with
    | none => c.free as
    | some _ =>
      match listDel c.heap (some (.node as)) with
      | none => c.crash
      | some heap => { c with heap }.free as

/-- The body of the loop of `hp_subc_free`, which takes the record from the node. -/
def detach (pos : NodeAddr) (c : Client) : Option Client :=
  match pos with
  | .asyncList _ => none
  | .node as =>
    (c.asyncs as).bind fun _ =>
      (listDel c.heap (some (.node as))).map fun heap => { c.setAsync as (some ⟨none⟩) with heap }

/-- `hp_subc_free`. The loop comes at most to each record that was made. -/
def hpSubcFree (c : Client) (q : Addr) : Client :=
  match listForEachSafe Client.heap detach (.asyncList q) (c.next + 1) c with
  | .done c =>
    { c with
      subs := fun r => if r = q then none else c.subs r
      heap := Function.update c.heap (.asyncList q) none }
  | _ => c.crash

/-- The delivery loop of `hp_sub_all_cb`, up to the next call of `cb`. -/
def Client.deliver (as : Addr) : List (Text × Message) → Client → Client
  | [], c => c.finish as
  | d :: rest, c =>
    match (c.asyncs as).bind fun a => a.s with
    | none => c.crash
    | some q =>
      match c.subs q with
      | none => c.crash
      | some h =>
        if h.2 then c.callCb q (.message d.1 d.2) (.deliver as rest) else c.deliver as rest

def hpSubAllCb (c : Client) (as : Addr) (reply : Option Reply) : Client :=
  match c.asyncs as with
  | none => c.crash
  | some a =>
    if a.s = none then c.finish as
    else
      match reply with
      | some (.msgs found) => c.deliver as (sortc found)
      | _ => c.finish as

/-- `hp_sub_dosub`; the flag tells whether it waits for the user's `cb`. -/
def hpSubDosub (c : Client) (q : Addr) (cb : Bool) (topics : List Text) (ok : Bool)
    (frame : Frame) : Client × Bool :=
  if ok then
    ({ c with subc := fun r => if r = q then c.subc q ++ [.subscribe topics] else c.subc r }, false)
  else if cb then (c.callCb q .error frame, true)
  else (c, false)

def hpSubSessionCb (c : Client) (as : Addr) (reply : Option Reply) (ok : Bool) : Client :=
  match c.asyncs as with
  | none => c.crash
  | some a =>
    match a.s with
    | none => c.finish as
    | some q =>
      match c.subs q with
      | none => c.crash
      | some h =>
        match reply with
        | none | some .error => if h.2 then c.callCb q .error (.session as) else c.finish as
        | some (.keys topics) =>
          if topics = [] then c.finish as
          else
            match hpSubDosub c q h.2 topics ok (.session as) with
            | (c, true) => c
            | (c, false) => c.finish as
        | _ => c.finish as

def hpSubAll (c : Client) (q : Addr) (sid : Text) (ok : Bool) : Client :=
  (c.newAsync q).send (.evalSub sid) (.hpSubAllCb c.next) ok

def msgCb (c : Client) (q : Addr) (h : Text × Bool) (reply : Option Push) (ok : Bool) : Client :=
  match reply with
  | none => c
  | some (.unsubscribe count) =>
    if h.2 ∧ count = 0 then c.callCb q .unsubscribed (.unsubscribed q) else c
  | some push => if push.queries then hpSubAll c q h.1 ok else c

def hpSub (c : Client) (q : Addr) (h : Text × Bool) (topics : List Text) (ok okSub : Bool) :
    Client :=
  if topics ≠ [] then
    (hpSubDosub (c.send (.evalSup topics h.1) .other ok) q h.2 topics okSub .dosub).1
  else (c.newAsync q).send (.hkeys h.1) (.hpSubSessionCb c.next) ok

def Client.resume (c : Client) : Frame → Client
  | .deliver as rest => c.deliver as rest
  | .session as => c.finish as
  | .dosub => c
  | .unsubscribed _ => c
  | .disconnect q => hpSubcFree c q

def subStep (c : Client) : SubAct → Option Client
  | .hpSub q topics ok okSub => (c.subs q).map fun h => hpSub c q h topics ok okSub
  | .hpUnsub q ok =>
    (c.subs q).map fun _ =>
      if ok then
        { c with subc := fun r => if r = q then c.subc q ++ [.unsubscribe] else c.subc r }
      else c
  | .command cmd ok => some (c.send cmd .other ok)
  | .teardown q connected =>
    if .disconnect q ∈ c.stack ∨ .unsubscribed q ∈ c.stack then none
    else
      (c.subs q).map fun h =>
        if connected ∧ h.2 then c.callCb q .error (.disconnect q) else hpSubcFree c q
  | .ret =>
    match c.stack with
    | [] => none
    | frame :: stack => some ({ c with stack }.resume frame)
  | .reply r okSub =>
    match c.stack, c.pending with
    | [], sent :: pending =>
      let c := { c with pending }
      match sent.fn with
      | .other => some c
      | .hpSubAllCb as => some (hpSubAllCb c as r)
      | .hpSubSessionCb as => some (hpSubSessionCb c as r okSub)
    | _, _ => none
  | .push q p ok =>
    match c.stack with
    | [] => (c.subs q).map fun h => msgCb c q h p ok
    | _ => none

/-- The state of the level above, with these lists. -/
def Client.abs (c : Client) (lists : Addr → List Addr) : Pub.Client where
  subs q := (c.subs q).map fun h => ⟨h.1, h.2, lists q⟩
  asyncs := c.asyncs
  next := c.next
  freed := c.freed
  pending := c.pending
  subc := c.subc
  calls := c.calls
  stack := c.stack
  fault := c.fault

def Client.heads (c : Client) (lists : Addr → List Addr) : Klist.Lists NodeAddr
  | .asyncList q => (c.subs q).map fun _ => (lists q).map .node
  | .node _ => none

/-- The nodes of the live records and subscribers. -/
def Client.Mapped (c : Client) : NodeAddr → Prop
  | .asyncList q => (c.subs q).isSome
  | .node p => (c.asyncs p).isSome

/-- Memory has the lists of the state above. -/
def Refines (c : Client) (a : Pub.Client) : Prop :=
  ∃ lists, a = c.abs lists ∧ Holds c.Mapped c.heap (c.heads lists)

end Libhp.Pub.Ptr
