import Libhp.Pub.Redis
import Mathlib.Data.Char
import Mathlib.Data.List.Lex

/-!
# The subscriber of `hp_pub.c`

`hp_sub_t`, its pending commands and their callbacks, on a command connection `c` that
any number of subscribers share, each with a connection `subc` of its own. Code of the
user runs between events and inside the user's `cb`, where it may call the library
again: the stack holds the library code that waits for a `cb` to return. Whether a
`redisAsyncCommand` succeeds is part of the action.
-/
namespace Libhp.Pub

abbrev Addr := Nat

structure HpSub where
  sid : Text
  /-- whether `cb` is set -/
  cb : Bool
  asyncList : List Addr

structure HpSubAsync where
  s : Option Addr

/-- The callback of a command on `c`, with its `privdata`. -/
inductive CFn where
  | other
  | hpSubAllCb (as : Addr)
  | hpSubSessionCb (as : Addr)

structure Sent where
  cmd : Cmd
  fn : CFn

inductive SubCmd where
  | subscribe (topics : List Text)
  | unsubscribe

/-- What the server pushes on a `subc`. -/
inductive Push where
  | subscribe (topic : Text) (count : Nat)
  | unsubscribe (count : Nat)
  | message (topic : Text) (id : Nat)

/-- A call of the user's `cb`. -/
inductive CbCall where
  | message (topic : Text) (m : Message)
  | error
  | unsubscribed
deriving DecidableEq

/-- Library code that waits for the user's `cb`. -/
inductive Frame where
  /-- the loop of `hp_sub_all_cb`, with the messages that are left -/
  | deliver (as : Addr) (rest : List (Text × Message))
  /-- `hp_sub_session_cb`, which has reported an error -/
  | session (as : Addr)
  /-- `hp_sub_dosub` called by `hp_sub` -/
  | dosub
  /-- `msg_cb` on the `subc` of `q` -/
  | unsubscribed (q : Addr)
  /-- `disconnectCallback` on the `subc` of `q` -/
  | disconnect (q : Addr)
deriving DecidableEq

structure Client where
  subs : Addr → Option HpSub
  asyncs : Addr → Option HpSubAsync
  /-- the next address `calloc` returns for an `hp_sub_async_t` -/
  next : Addr
  freed : List Addr
  /-- the commands on `c` whose callback has not been called -/
  pending : List Sent
  subc : Addr → List SubCmd
  calls : List (Addr × CbCall)
  stack : List Frame
  /-- memory was used that is NULL or freed -/
  fault : Bool

def clientStart (subs : Addr → Option (Text × Bool)) : Client where
  subs q := (subs q).map fun h => ⟨h.1, h.2, []⟩
  asyncs _ := none
  next := 0
  freed := []
  pending := []
  subc _ := []
  calls := []
  stack := []
  fault := false

def Client.setSub (c : Client) (q : Addr) (h : Option HpSub) : Client :=
  { c with subs := fun r => if r = q then h else c.subs r }

def Client.setAsync (c : Client) (p : Addr) (a : Option HpSubAsync) : Client :=
  { c with asyncs := fun r => if r = p then a else c.asyncs r }

def Client.crash (c : Client) : Client := { c with fault := true }

/-- `calloc` and `list_add_tail` of a record for the subscriber at `q`. -/
def Client.newAsync (c : Client) (q : Addr) (h : HpSub) : Client :=
  { (c.setAsync c.next (some ⟨some q⟩)).setSub q
      (some { h with asyncList := h.asyncList ++ [c.next] }) with next := c.next + 1 }

def Client.send (c : Client) (cmd : Cmd) (fn : CFn) (ok : Bool) : Client :=
  if ok then { c with pending := c.pending ++ [⟨cmd, fn⟩] } else c

/-- The user's `cb` is called; `frame` is what follows when it returns. -/
def Client.callCb (c : Client) (q : Addr) (call : CbCall) (frame : Frame) : Client :=
  { c with calls := c.calls ++ [(q, call)], stack := frame :: c.stack }

/-- The label `ret` of the reply callbacks: `list_del` and `free`. -/
def Client.finish (c : Client) (as : Addr) : Client :=
  match c.asyncs as with
  | none => c.crash
  | some a =>
    let done (c : Client) := { c.setAsync as none with freed := c.freed ++ [as] }
    match a.s with
    | none => done c
    | some q =>
      match c.subs q with
      | none => c.crash
      | some h => done (c.setSub q (some { h with asyncList := h.asyncList.erase as }))

/-- `hp_subc_free` -/
def hpSubcFree (c : Client) (q : Addr) : Client :=
  match c.subs q with
  | none => c.crash
  | some h =>
    if h.asyncList.all fun p => (c.asyncs p).isSome then
      { c.setSub q none with
        asyncs := fun p => if p ∈ h.asyncList then (c.asyncs p).map fun _ => ⟨none⟩ else c.asyncs p }
    else c.crash

/-- `sdscmp` of the ids as texts. -/
def midLe (d e : Text × Message) : Prop := Nat.toDigits 10 d.2.2 ≤ Nat.toDigits 10 e.2.2

instance : DecidableRel midLe := fun d e =>
  inferInstanceAs (Decidable (Nat.toDigits 10 d.2.2 ≤ Nat.toDigits 10 e.2.2))

/-- The messages of a reply of `sub.lua`, in the order in which `cb` gets them. -/
def sortc (found : List (Text × List Message)) : List (Text × Message) :=
  (found.flatMap fun e => e.2.map fun m => (e.1, m)).insertionSort midLe

/-- The delivery loop of `hp_sub_all_cb`, up to the next call of `cb`. -/
def Client.deliver (as : Addr) : List (Text × Message) → Client → Client
  | [], c => c.finish as
  | d :: rest, c =>
    match (c.asyncs as).bind fun a => a.s with
    | none => c.crash
    | some q =>
      match c.subs q with
      | none => c.crash
      | some h =>
        if h.cb then c.callCb q (.message d.1 d.2) (.deliver as rest) else c.deliver as rest

def hpSubAllCb (c : Client) (as : Addr) (reply : Option Reply) : Client :=
  match c.asyncs as with
  | none => c.crash
  | some a =>
    if a.s = none then c.finish as
    else
      match reply with
      | some (.msgs found) => c.deliver as (sortc found)
      | _ => c.finish as

/-- `hp_sub_dosub`; the flag tells whether it waits for the user's `cb`. -/
def hpSubDosub (c : Client) (q : Addr) (h : HpSub) (topics : List Text) (ok : Bool)
    (frame : Frame) : Client × Bool :=
  if ok then
    ({ c with subc := fun r => if r = q then c.subc q ++ [.subscribe topics] else c.subc r }, false)
  else if h.cb then (c.callCb q .error frame, true)
  else (c, false)

def hpSubSessionCb (c : Client) (as : Addr) (reply : Option Reply) (ok : Bool) : Client :=
  match c.asyncs as with
  | none => c.crash
  | some a =>
    match a.s with
    | none => c.finish as
    | some q =>
      match c.subs q with
      | none => c.crash
      | some h =>
        match reply with
        | none | some .error => if h.cb then c.callCb q .error (.session as) else c.finish as
        | some (.keys topics) =>
          if topics = [] then c.finish as
          else
            match hpSubDosub c q h topics ok (.session as) with
            | (c, true) => c
            | (c, false) => c.finish as
        | _ => c.finish as

def hpSubAll (c : Client) (q : Addr) (h : HpSub) (ok : Bool) : Client :=
  (c.newAsync q h).send (.evalSub h.sid) (.hpSubAllCb c.next) ok

/-- A push makes `msg_cb` query the messages: the first subscription, and every message. -/
def Push.queries : Push → Bool
  | .subscribe _ count => count = 1
  | .unsubscribe _ => false
  | .message _ _ => true

def msgCb (c : Client) (q : Addr) (h : HpSub) (reply : Option Push) (ok : Bool) : Client :=
  match reply with
  | none => c
  | some (.unsubscribe count) =>
    if h.cb ∧ count = 0 then c.callCb q .unsubscribed (.unsubscribed q) else c
  | some push => if push.queries then hpSubAll c q h ok else c

/-- `hp_sub`. The flags are the outcomes of the command on `c` and of `SUBSCRIBE`. -/
def hpSub (c : Client) (q : Addr) (h : HpSub) (topics : List Text) (ok okSub : Bool) : Client :=
  if topics ≠ [] then
    (hpSubDosub (c.send (.evalSup topics h.sid) .other ok) q h topics okSub .dosub).1
  else (c.newAsync q h).send (.hkeys h.sid) (.hpSubSessionCb c.next) ok

/-- What follows when the user's `cb` returns. -/
def Client.resume (c : Client) : Frame → Client
  | .deliver as rest => c.deliver as rest
  | .session as => c.finish as
  | .dosub => c
  | .unsubscribed _ => c
  | .disconnect q => hpSubcFree c q

inductive SubAct where
  | hpSub (q : Addr) (topics : List Text) (ok okSub : Bool)
  | hpUnsub (q : Addr) (ok : Bool)
  /-- a command of the user's own on `c` -/
  | command (cmd : Cmd) (ok : Bool)
  /-- `redisAsyncFree` of a `subc`, or the loss of its connection -/
  | teardown (q : Addr) (connected : Bool)
  /-- the user's `cb` returns -/
  | ret
  /-- the next reply on `c`, NULL for a lost connection -/
  | reply (r : Option Reply) (okSub : Bool)
  | push (q : Addr) (p : Option Push) (ok : Bool)

/-- The call of the user's or the event of the loop; `none` where it cannot happen. -/
def subStep (c : Client) : SubAct → Option Client
  | .hpSub q topics ok okSub => (c.subs q).map fun h => hpSub c q h topics ok okSub
  | .hpUnsub q ok =>
    (c.subs q).map fun _ =>
      if ok then
        { c with subc := fun r => if r = q then c.subc q ++ [.unsubscribe] else c.subc r }
      else c
  | .command cmd ok => some (c.send cmd .other ok)
  -- a connection that is being freed, or is in its own callback, is not freed again
  | .teardown q connected =>
    if .disconnect q ∈ c.stack ∨ .unsubscribed q ∈ c.stack then none
    else
      (c.subs q).map fun h =>
        if connected ∧ h.cb then c.callCb q .error (.disconnect q) else hpSubcFree c q
  | .ret =>
    match c.stack with
    | [] => none
    | frame :: stack => some ({ c with stack }.resume frame)
  | .reply r okSub =>
    match c.stack, c.pending with
    | [], sent :: pending =>
      let c := { c with pending }
      match sent.fn with
      | .other => some c
      | .hpSubAllCb as => some (hpSubAllCb c as r)
      | .hpSubSessionCb as => some (hpSubSessionCb c as r okSub)
    | _, _ => none
  | .push q p ok =>
    match c.stack with
    | [] => (c.subs q).map fun h => msgCb c q h p ok
    | _ => none

/-- The callback of the next reply. -/
def Client.replyCb (c : Client) (sent : Sent) (r : Option Reply) (okSub : Bool) : Client :=
  match sent.fn with
  | .other => c
  | .hpSubAllCb as => hpSubAllCb c as r
  | .hpSubSessionCb as => hpSubSessionCb c as r okSub

theorem subStep_reply {c c' : Client} {r : Option Reply} {okSub : Bool}
    (h : subStep c (.reply r okSub) = some c') :
    c.stack = [] ∧ ∃ sent pending, c.pending = sent :: pending ∧
      c' = Client.replyCb { c with pending := pending } sent r okSub := by
  simp only [subStep] at h
  split at h
  · next sent pending hstack hpending =>
    refine ⟨hstack, sent, pending, hpending, ?_⟩
    unfold Client.replyCb
    cases hfn : sent.fn with
    | _ =>
      simp only [hfn] at h
      cases h
      rfl
  · cases h

end Libhp.Pub
