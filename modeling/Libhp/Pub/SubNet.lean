import Libhp.Pub.SubLife

/-!
# A subscriber on the network

One subscriber with its two connections, the Redis server, and others that publish. A
command waits on its connection until the server executes it, its reply until the client
is given it; each connection keeps its order, and nothing else is ordered. Commands
succeed and the subscriber stays.
-/
namespace Libhp.Pub

/-- The address of the one subscriber. -/
def ps : Addr := 0

structure SubNet where
  db : Db
  client : Client
  /-- the channels the server has for `subc` -/
  chans : List Text
  /-- the replies to the first commands of `client.pending` -/
  answered : List Reply
  pushed : List Push
  /-- the connections of the publishers -/
  pubs : List (List Cmd)
  /-- how many calls of `cb` had been made when `SUBSCRIBE` was last executed for a topic -/
  since : Text → Nat

def subNetStart (db : Db) (sid : Text) (n : Nat) : SubNet where
  db
  client := clientStart fun q => if q = ps then some (sid, true) else none
  chans := []
  answered := []
  pushed := []
  pubs := List.replicate n []
  since _ := 0

/-- `SUBSCRIBE`: the channels afterwards, and a confirmation for each topic with the
number of channels at that point. -/
def subscribeAll (chans : List Text) : List Text → List Text × List Push
  | [] => (chans, [])
  | t :: topics =>
    let chans := if t ∈ chans then chans else chans ++ [t]
    let (after, confirmed) := subscribeAll chans topics
    (after, .subscribe t chans.length :: confirmed)

/-- What a command of a publisher pushes. -/
def notify (chans : List Text) : Cmd → List Push
  | .publish topic id => if topic ∈ chans then [.message topic id] else []
  | _ => []

/-- The next command on `c`. -/
def SubNet.serveC (w : SubNet) : Option SubNet :=
  (w.client.pending[w.answered.length]?).map fun sent =>
    let (db, r) := exec w.db sent.cmd
    { w with db, answered := w.answered ++ [r] }

/-- The next command on `subc`. -/
def SubNet.serveSub (w : SubNet) : Option SubNet :=
  match w.client.subc ps with
  | .subscribe topics :: rest =>
    let (chans, confirmed) := subscribeAll w.chans topics
    some { w with
      client := { w.client with subc := fun q => if q = ps then rest else w.client.subc q }
      chans
      pushed := w.pushed ++ confirmed
      since := fun t => if t ∈ topics then w.client.calls.length else w.since t }
  | _ => none

def SubNet.servePub (w : SubNet) (i : Nat) : Option SubNet :=
  match w.pubs[i]? with
  | some (cmd :: rest) =>
    some { w with
      db := (exec w.db cmd).1
      pushed := w.pushed ++ notify w.chans cmd
      pubs := w.pubs.set i rest }
  | _ => none

def SubNet.act (w : SubNet) (a : SubAct) : Option SubNet :=
  (subStep w.client a).map fun client => { w with client }

inductive SubNetAct where
  | hpSub (topics : List Text)
  /-- the user sets the topic's field to the id of a message given to `cb` -/
  | ack (topic : Text) (m : Message)
  | ret
  | pub (i : Nat) (tv : Timeval) (topic msg : Text) (len : Int)
  | serveC
  | serveSub
  | servePub (i : Nat)
  | reply
  | push

/-- The message was given to the subscriber's `cb`. -/
def Client.Given (c : Client) (n : Nat) (topic : Text) (m : Message) : Prop :=
  (ps, .message topic m) ∈ c.calls.drop n

instance (c : Client) (n : Nat) (topic : Text) (m : Message) : Decidable (c.Given n topic m) :=
  inferInstanceAs (Decidable (_ ∈ _))

def subNetStep (sid : Text) (w : SubNet) : SubNetAct → Option SubNet
  | .hpSub topics => w.act (.hpSub ps topics true true)
  | .ack topic m =>
    if w.client.Given 0 topic m then w.act (.command (.hset sid topic m.2) true) else none
  | .ret => w.act .ret
  | .pub i tv topic msg len =>
    (w.pubs[i]?).map fun q => { w with pubs := w.pubs.set i (q ++ hpPub tv topic msg len) }
  | .serveC => w.serveC
  | .serveSub => w.serveSub
  | .servePub i => w.servePub i
  | .reply =>
    match w.answered with
    | [] => none
    | r :: answered => { w with answered }.act (.reply (some r) true)
  | .push =>
    match w.pushed with
    | [] => none
    | p :: pushed => { w with pushed }.act (.push ps (some p) true)

/-- No command, reply or push is in flight, and no callback is running. -/
structure SubNet.Quiet (w : SubNet) : Prop where
  pending : w.client.pending = []
  answered : w.answered = []
  subc : w.client.subc ps = []
  stack : w.client.stack = []
  pushed : w.pushed = []
  pubs : ∀ q ∈ w.pubs, q = []

/-- Every stored message of a subscribed topic of the session, above the acknowledged
id, was given to `cb` since the topic was last subscribed. -/
def SubNet.Delivered (sid : Text) (w : SubNet) : Prop :=
  ∀ t v m, w.db.field sid t = some v → t ∈ w.chans → w.db.Stored t m → v < m.2 →
    w.client.Given (w.since t) t m

/-- Ids are distinct and increase in the order of publication. -/
def InOrder (w : SubNet) : SubNetAct → Prop
  | .servePub i =>
    match w.pubs[i]? with
    | some (.zadd topic id _ :: _) => ∀ z ∈ w.db.zset topic, ∀ m ∈ z.ranked, m.2 < id
    | _ => True
  | _ => True

/-- The first topic of a `SUBSCRIBE` becomes the only channel or is it already, and no
acknowledgement goes back over a message that was not given to `cb` since its topic was
last subscribed. -/
def Wakes (w : SubNet) : SubNetAct → Prop
  | .serveSub =>
    match w.client.subc ps with
    | .subscribe (t :: _) :: _ => w.chans = [] ∨ w.chans = [t]
    | _ => True
  | .serveC =>
    match w.client.pending[w.answered.length]? with
    | some ⟨.hset sid t a, _⟩ => ∀ z ∈ w.db.zset t, ∀ m ∈ z.ranked, a < m.2 →
        (∃ v ∈ w.db.field sid t, v < m.2) ∨ w.client.Given (w.since t) t m
    | _ => True
  | _ => True

instance (w : SubNet) (a : SubNetAct) : Decidable (InOrder w a) := by
  unfold InOrder
  split
  · split <;> infer_instance
  · infer_instance

instance (w : SubNet) (a : SubNetAct) : Decidable (Wakes w a) := by
  unfold Wakes
  split
  · split <;> infer_instance
  · split <;> infer_instance
  · infer_instance

end Libhp.Pub
