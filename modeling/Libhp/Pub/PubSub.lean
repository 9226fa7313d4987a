import Libhp.Lib.Run
import Libhp.Pub.Redis

/-!
# Publishers and sessions

Any number of connections to one Redis server: publishers that call `hp_pub`, each with
a clock of its own, and subscribers that run the scripts and acknowledge what they were
given. The server takes the next command of any connection. Beside the system's own
state a run records what the scripts have returned and what they still have to return.
-/
namespace Libhp.Pub

/-- A message of a topic, for one session. -/
structure Item where
  sid : Text
  topic : Text
  msg : Message
deriving DecidableEq

structure PubSub where
  db : Db
  conns : List (List Cmd)
  /-- returned by `sub.lua` -/
  told : List Item
  /-- published since the topic entered the session, and not returned yet -/
  due : List Item

def pubSubStart (db : Db) (n : Nat) : PubSub := ⟨db, List.replicate n [], [], []⟩

/-- The sessions that hold a topic. -/
def Db.sessionsOf (db : Db) (topic : Text) : List Text :=
  db.entries.filterMap fun e =>
    match e.2 with
    | .hash h => if topic ∈ h then some e.1 else none
    | .zset _ => none

/-- The message a command publishes, for each session that holds its topic. -/
def published (db : Db) : Cmd → List Item
  | .zadd topic id msg => (db.sessionsOf topic).map fun sid => ⟨sid, topic, (msg, id)⟩
  | _ => []

def returned : Cmd → Reply → List Item
  | .evalSub sid, .msgs found => found.flatMap fun e => e.2.map fun m => ⟨sid, e.1, m⟩
  | _, _ => []

/-- The server executes a command. A topic that leaves its session is no longer due. -/
def PubSub.exec (s : PubSub) (cmd : Cmd) : PubSub :=
  let (db, reply) := Pub.exec s.db cmd
  let given := returned cmd reply
  { s with
    db
    told := s.told ++ given
    due := (s.due ++ published s.db cmd).filter fun d =>
      d ∉ given ∧ (db.field d.sid d.topic).isSome }

def PubSub.send (s : PubSub) (i : Nat) (cmds : List Cmd) : Option PubSub :=
  (s.conns[i]?).map fun q => { s with conns := s.conns.set i (q ++ cmds) }

inductive PubSubAct where
  | pub (i : Nat) (tv : Timeval) (topic msg : Text) (len : Int)
  | sup (i : Nat) (topics : List Text) (sid : Text)
  | sub (i : Nat) (sid : Text)
  | ack (i : Nat) (d : Item)
  | serve (i : Nat)

def pubSubStep (s : PubSub) : PubSubAct → Option PubSub
  | .pub i tv topic msg len => s.send i (hpPub tv topic msg len)
  | .sup i topics sid => s.send i [.evalSup topics sid]
  | .sub i sid => s.send i [.evalSub sid]
  -- only what was returned is acknowledged
  | .ack i d => if d ∈ s.told then s.send i [.hset d.sid d.topic d.msg.2] else none
  | .serve i =>
    match s.conns[i]? with
    | some (cmd :: rest) => some (PubSub.exec { s with conns := s.conns.set i rest } cmd)
    | _ => none

/-- The next `sub.lua` of the item's session returns it. -/
def PubSub.Returns (s : PubSub) (d : Item) : Prop :=
  ∃ found, subLua d.sid s.db = some found ∧ ∃ e ∈ found, e.1 = d.topic ∧ d.msg ∈ e.2

/-- `ZADD` stores a message above all that its sessions have acknowledged or may yet
acknowledge, and displaces none that is due. -/
structure FreshAdd (s : PubSub) (topic : Text) (id : Nat) (msg : Text) : Prop where
  stored : s.db.sessionsOf topic ≠ [] → (s.db.zset topic).isSome
  above : ∀ sid ∈ s.db.sessionsOf topic, ∀ v ∈ s.db.field sid topic, v < id
  later : ∀ sid ∈ s.db.sessionsOf topic,
    ∀ e ∈ s.told, e.sid = sid → e.topic = topic → e.msg.2 < id
  displaces : ∀ d ∈ s.due, d.topic = topic → d.msg.1 = msg → d.msg.2 = id

/-- Every message the server stores in this step is fresh. -/
def Fresh (s : PubSub) : PubSubAct → Prop
  | .serve i =>
    match s.conns[i]? with
    | some (.zadd topic id msg :: _) => FreshAdd s topic id msg
    | _ => True
  | _ => True

instance (s : PubSub) (topic : Text) (id : Nat) (msg : Text) :
    Decidable (FreshAdd s topic id msg) :=
  decidable_of_iff
    ((s.db.sessionsOf topic ≠ [] → (s.db.zset topic).isSome) ∧
      (∀ sid ∈ s.db.sessionsOf topic, ∀ v ∈ s.db.field sid topic, v < id) ∧
      (∀ sid ∈ s.db.sessionsOf topic,
        ∀ e ∈ s.told, e.sid = sid → e.topic = topic → e.msg.2 < id) ∧
      ∀ d ∈ s.due, d.topic = topic → d.msg.1 = msg → d.msg.2 = id)
    ⟨fun ⟨stored, above, later, displaces⟩ => ⟨stored, above, later, displaces⟩,
      fun h => ⟨h.stored, h.above, h.later, h.displaces⟩⟩

instance (s : PubSub) (a : PubSubAct) : Decidable (Fresh s a) := by
  unfold Fresh
  split
  · split <;> infer_instance
  · infer_instance

instance (s : PubSub) (d : Item) : Decidable (s.Returns d) :=
  decidable_of_iff (∃ found ∈ subLua d.sid s.db, ∃ e ∈ found, e.1 = d.topic ∧ d.msg ∈ e.2) Iff.rfl

theorem Db.mem_sessionsOf {db : Db} {sid topic : Text} :
    sid ∈ db.sessionsOf topic ↔ ∃ v, db.field sid topic = some v := by
  simp only [sessionsOf, List.mem_filterMap]
  constructor
  · rintro ⟨e, he, hmatch⟩
    obtain ⟨key, value⟩ := e
    have hlookup : db.lookup key = some value := AList.mem_lookup_iff.mpr he
    cases value with
    | zset z => cases hmatch
    | hash h =>
      simp only at hmatch
      split at hmatch
      · next hmem =>
        cases hmatch
        obtain ⟨v, hv⟩ := Option.isSome_iff_exists.mp (AList.lookup_isSome.mpr hmem)
        exact ⟨v, by simp only [field, hash, hlookup, Option.bind_some, hv]⟩
      · cases hmatch
  · rintro ⟨v, hv⟩
    obtain ⟨h, hh, hlookup⟩ := Option.bind_eq_some_iff.mp hv
    unfold hash at hh
    split at hh
    · cases hh
      cases hlookup
    · next fields hkey =>
      cases hh
      refine ⟨⟨sid, .hash h⟩, AList.mem_lookup_iff.mp hkey, ?_⟩
      have hmem : topic ∈ h := AList.lookup_isSome.mp (by rw [hlookup]; rfl)
      simp only [if_pos hmem]
    · cases hh

/-- What every run keeps: a due message is stored, above what its session holds and
above all that the session was given of its topic. -/
structure PubSub.Inv (s : PubSub) : Prop where
  stored : ∀ d ∈ s.due, s.db.Stored d.topic d.msg
  above : ∀ d ∈ s.due, ∃ v, s.db.field d.sid d.topic = some v ∧ v < d.msg.2
  later : ∀ d ∈ s.due, ∀ e ∈ s.told, e.sid = d.sid → e.topic = d.topic → e.msg.2 < d.msg.2
  asked : ∀ q ∈ s.conns, ∀ sid topic id, .hset sid topic id ∈ q →
    ∃ e ∈ s.told, e.sid = sid ∧ e.topic = topic ∧ e.msg.2 = id

theorem pubSubStart_inv (db : Db) (n : Nat) : (pubSubStart db n).Inv where
  stored d hd := by cases hd
  above d hd := by cases hd
  later d hd := by cases hd
  asked q hq sid topic id hmem := by
    rw [List.eq_of_mem_replicate hq] at hmem
    cases hmem

theorem PubSub.Inv.returns {s : PubSub} (h : s.Inv) {d : Item} (hd : d ∈ s.due) : s.Returns d := by
  obtain ⟨v, hv, hlt⟩ := h.above d hd
  exact mem_subLua.mpr ⟨v, hv, h.stored d hd, hlt⟩

/-- Sending changes the queues only. -/
theorem PubSub.Inv.send {s s' : PubSub} (h : s.Inv) {i : Nat} {cmds : List Cmd}
    (hsend : s.send i cmds = some s') (hcmds : ∀ sid topic id, .hset sid topic id ∈ cmds →
      ∃ e ∈ s.told, e.sid = sid ∧ e.topic = topic ∧ e.msg.2 = id) : s'.Inv := by
  obtain ⟨q, hq, rfl⟩ := Option.map_eq_some_iff.mp hsend
  refine ⟨h.stored, h.above, h.later, fun q' hq' sid topic id hmem => ?_⟩
  rcases List.mem_or_eq_of_mem_set hq' with hold | rfl
  · exact h.asked q' hold sid topic id hmem
  · rcases List.mem_append.mp hmem with hin | hin
    · exact h.asked q (List.mem_of_getElem? hq) sid topic id hin
    · exact hcmds sid topic id hin

theorem mem_published {db : Db} {cmd : Cmd} {d : Item} (h : d ∈ published db cmd) :
    cmd = .zadd d.topic d.msg.2 d.msg.1 ∧ d.sid ∈ db.sessionsOf d.topic := by
  cases cmd with
  | zadd topic id msg =>
    obtain ⟨sid, hsid, rfl⟩ := List.mem_map.mp h
    exact ⟨rfl, hsid⟩
  | _ => cases h

theorem mem_returned {sid : Text} {db : Db} {d : Item} :
    d ∈ returned (.evalSub sid) (Pub.exec db (.evalSub sid)).2 ↔
      d.sid = sid ∧ ∃ found, subLua sid db = some found ∧ ∃ e ∈ found, e.1 = d.topic ∧ d.msg ∈ e.2 := by
  simp only [Pub.exec]
  constructor
  · intro h
    split at h
    · cases h
    · next found hfound =>
      obtain ⟨e, he, hmem⟩ := List.mem_flatMap.mp h
      obtain ⟨m, hm, rfl⟩ := List.mem_map.mp hmem
      exact ⟨rfl, found, hfound, e, he, rfl, hm⟩
  · rintro ⟨hsid, found, hfound, e, he, htopic, hm⟩
    rw [hfound]
    refine List.mem_flatMap.mpr ⟨e, he, List.mem_map.mpr ⟨d.msg, hm, ?_⟩⟩
    rw [htopic, ← hsid]

theorem not_sub_of_returned {cmd : Cmd} {reply : Reply} {d : Item} (h : d ∈ returned cmd reply) :
    ∃ sid, cmd = .evalSub sid := by
  cases cmd with
  | evalSub sid => exact ⟨sid, rfl⟩
  | _ => cases h

/-- What is due after a command was due before or is what it published. -/
theorem PubSub.mem_exec_due {s : PubSub} {cmd : Cmd} {d : Item} (h : d ∈ (s.exec cmd).due) :
    (d ∈ s.due ∨ d ∈ published s.db cmd) ∧
      d ∉ returned cmd (Pub.exec s.db cmd).2 ∧
      ∃ v, (Pub.exec s.db cmd).1.field d.sid d.topic = some v := by
  obtain ⟨hmem, hcond⟩ := List.mem_filter.mp h
  obtain ⟨hnot, hfield⟩ := of_decide_eq_true hcond
  exact ⟨List.mem_append.mp hmem, hnot, Option.isSome_iff_exists.mp hfield⟩

/-- A fresh `ZADD` stores its message, and keeps what is due. -/
theorem FreshAdd.stored_after {s : PubSub} {topic msg : Text} {id : Nat}
    (h : FreshAdd s topic id msg) (hinv : s.Inv) {d : Item}
    (hd : d ∈ s.due ∨ d ∈ published s.db (.zadd topic id msg)) :
    (Pub.exec s.db (.zadd topic id msg)).1.Stored d.topic d.msg := by
  simp only [Pub.exec]
  split
  · next hfail =>
    rcases hd with hold | hnew
    · exact hinv.stored d hold
    · obtain ⟨hcmd, hsid⟩ := mem_published hnew
      cases hcmd
      have hsome := h.stored (List.ne_nil_of_mem hsid)
      rw [Db.zadd, Option.map_eq_none_iff] at hfail
      rw [hfail] at hsome
      cases hsome
  · next hadd =>
    rw [(Db.zadd_spec hadd).2]
    split
    · next hsame =>
      rcases hd with hold | hnew
      · exact h.displaces d hold hsame.1 hsame.2
      · obtain ⟨hcmd, -⟩ := mem_published hnew
        cases hcmd
        rfl
    · next hother =>
      rcases hd with hold | hnew
      · exact hinv.stored d hold
      · obtain ⟨hcmd, -⟩ := mem_published hnew
        cases hcmd
        exact absurd ⟨rfl, rfl⟩ hother

theorem PubSub.Inv.exec {s : PubSub} (h : s.Inv) {cmd : Cmd}
    (hfresh : ∀ topic id msg, cmd = .zadd topic id msg → FreshAdd s topic id msg)
    (hasked : ∀ sid topic id, cmd = .hset sid topic id →
      ∃ e ∈ s.told, e.sid = sid ∧ e.topic = topic ∧ e.msg.2 = id) : (s.exec cmd).Inv where
  stored d hd := by
    obtain ⟨hdue, -, -⟩ := PubSub.mem_exec_due hd
    by_cases hadd : ∃ topic id msg, cmd = .zadd topic id msg
    · obtain ⟨topic, id, msg, rfl⟩ := hadd
      exact (hfresh topic id msg rfl).stored_after h hdue
    · have hkeep : ∀ topic id msg, cmd ≠ .zadd topic id msg := fun topic id msg heq =>
        hadd ⟨topic, id, msg, heq⟩
      apply (exec_stored hkeep d.topic d.msg).mpr
      rcases hdue with hold | hnew
      · exact h.stored d hold
      · exact absurd (mem_published hnew).1 (hkeep _ _ _)
  above d hd := by
    obtain ⟨hdue, -, v, hv⟩ := PubSub.mem_exec_due hd
    refine ⟨v, hv, ?_⟩
    rcases hdue with hold | hnew
    · obtain ⟨v', hv', hlt⟩ := h.above d hold
      rcases exec_field hv with (hkept | ⟨hnone, -⟩) | hset
      · rw [hkept] at hv'
        cases hv'
        exact hlt
      · rw [hnone] at hv'
        cases hv'
      -- an acknowledgement is of something the session was given
      · obtain ⟨e, he, hsid, htopic, rfl⟩ := hasked _ _ _ hset
        exact h.later d hold e he hsid htopic
    · obtain ⟨rfl, hsid⟩ := mem_published hnew
      rcases exec_field hv with (hkept | ⟨hnone, -⟩) | hset
      · exact (hfresh _ _ _ rfl).above d.sid hsid v hkept
      · obtain ⟨v', hv'⟩ := Db.mem_sessionsOf.mp hsid
        rw [hnone] at hv'
        cases hv'
      · cases hset
  later d hd e he hsid htopic := by
    obtain ⟨hdue, hnot, -⟩ := PubSub.mem_exec_due hd
    rcases List.mem_append.mp he with hold | hgiven
    · rcases hdue with hdue | hnew
      · exact h.later d hdue e hold hsid htopic
      · obtain ⟨rfl, hmem⟩ := mem_published hnew
        exact (hfresh _ _ _ rfl).later d.sid hmem e hold hsid htopic
    -- the session has just been given all that was due to it
    · obtain ⟨sid, rfl⟩ := not_sub_of_returned hgiven
      obtain ⟨rfl, -⟩ := mem_returned.mp hgiven
      rcases hdue with hdue | hnew
      · exact absurd (mem_returned.mpr ⟨hsid.symm, hsid ▸ h.returns hdue⟩) hnot
      · cases hnew
  asked q hq sid topic id hmem := by
    obtain ⟨e, he, hrest⟩ := h.asked q hq sid topic id hmem
    exact ⟨e, List.mem_append_left _ he, hrest⟩

theorem pubSubStep_inv {s s' : PubSub} {a : PubSubAct} (h : s.Inv)
    (hstep : pubSubStep s a = some s') (hok : Fresh s a) : s'.Inv := by
  cases a with
  | pub i tv topic msg len =>
    apply h.send hstep
    intro sid t id hmem
    simp only [hpPub, List.mem_cons, reduceCtorEq, List.not_mem_nil, or_self] at hmem
  | sup i topics sid =>
    apply h.send hstep
    intro sid' t id hmem
    simp only [List.mem_cons, reduceCtorEq, List.not_mem_nil, or_self] at hmem
  | sub i sid =>
    apply h.send hstep
    intro sid' t id hmem
    simp only [List.mem_cons, reduceCtorEq, List.not_mem_nil, or_self] at hmem
  | ack i d =>
    simp only [pubSubStep] at hstep
    split at hstep
    · next hd =>
      apply h.send hstep
      intro sid t id hmem
      cases List.mem_singleton.mp hmem
      exact ⟨d, hd, rfl, rfl, rfl⟩
    · cases hstep
  | serve i =>
    simp only [pubSubStep] at hstep
    split at hstep
    · next cmd rest hq =>
      cases hstep
      have hmem : cmd :: rest ∈ s.conns := List.mem_of_getElem? hq
      have hpop : PubSub.Inv { s with conns := s.conns.set i rest } := by
        refine ⟨h.stored, h.above, h.later, fun q hq' sid topic id hin => ?_⟩
        rcases List.mem_or_eq_of_mem_set hq' with hold | rfl
        · exact h.asked q hold sid topic id hin
        · exact h.asked _ hmem sid topic id (List.mem_cons_of_mem _ hin)
      refine hpop.exec (fun topic id msg heq => ?_) (fun sid topic id heq => ?_)
      · subst heq
        simp only [Fresh, hq] at hok
        exact ⟨hok.stored, hok.above, hok.later, hok.displaces⟩
      · exact h.asked _ hmem sid topic id (heq ▸ List.mem_cons_self)
    · cases hstep

/-- As long as every stored message is fresh, no published message is lost: what a
session is still due is in the result of its next `sub.lua`. -/
theorem published_not_lost {db : Db} {n : Nat} {s : PubSub}
    (hrun : Run.Along pubSubStep Fresh (pubSubStart db n) s) : ∀ d ∈ s.due, s.Returns d := by
  have hinv := hrun.invariant (I := PubSub.Inv) (pubSubStart_inv db n)
    fun s a s' h hstep hok => pubSubStep_inv h hstep hok
  exact fun d hd => hinv.returns hd

/-- A session is created, given a message, acknowledges it, and is due the next one. -/
theorem published_not_lost_second :
    ∃ s, Run.Along pubSubStep Fresh (pubSubStart ∅ 2) s ∧ s.due ≠ [] ∧ ∀ d ∈ s.due, s.Returns d := by
  obtain ⟨s, hrun, hdue⟩ : ∃ s, Run.Along pubSubStep Fresh (pubSubStart ∅ 2) s ∧ s.due ≠ [] :=
    Run.along_any (fun (s : PubSub) (a : PubSubAct) => decide (Fresh s a))
    [.sup 1 [[116]] [115], .serve 1,
      .pub 0 ⟨1600000000, 500000⟩ [116] [97] 1, .serve 0, .serve 0,
      .sub 1 [115], .serve 1, .ack 1 ⟨[115], [116], ([97], 1600000000500)⟩, .serve 1,
      .pub 0 ⟨1600000000, 501000⟩ [116] [98] 1, .serve 0]
    (fun _ _ h => of_decide_eq_true h) (fun s => s.due ≠ []) (by decide +kernel)
  exact ⟨s, hrun, hdue, published_not_lost hrun⟩

/-- Two publishers in one millisecond: the second message has the id that has just been
acknowledged. -/
theorem published_lost : ¬ ∀ (db : Db) (n : Nat) (s : PubSub),
    Run.Along pubSubStep (fun _ _ => True) (pubSubStart db n) s → ∀ d ∈ s.due, s.Returns d := by
  intro hall
  obtain ⟨s, hrun, d, hd, hlost⟩ : ∃ s, Run.Along pubSubStep (fun _ _ => True) (pubSubStart ∅ 3) s ∧
      ∃ d ∈ s.due, ¬ s.Returns d :=
    Run.along_any (fun (_ : PubSub) (_ : PubSubAct) => true)
    [.sup 2 [[116]] [115], .serve 2,
      .pub 0 ⟨1600000000, 500100⟩ [116] [97] 1, .serve 0, .serve 0,
      .sub 2 [115], .serve 2, .ack 2 ⟨[115], [116], ([97], 1600000000500)⟩, .serve 2,
      .pub 1 ⟨1600000000, 500900⟩ [116] [98] 1, .serve 1, .serve 1]
    (fun _ _ _ => trivial) (fun s => ∃ d ∈ s.due, ¬ s.Returns d) (by decide +kernel)
  exact hlost (hall ∅ 3 s hrun d hd)

end Libhp.Pub
