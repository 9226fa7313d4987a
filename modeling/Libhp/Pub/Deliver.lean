import Libhp.Lib.Run
import Libhp.Pub.SubNet

/-!
# What a subscriber is given

A message that is stored, above the acknowledged id and not given to `cb` yet is on its
way: in a reply or in the delivery loop, or a query is still to be executed that will
find it. Every step keeps this as long as each `SUBSCRIBE` brings a query with it.
-/
namespace Libhp.Pub

/-- A command the subscriber sends on `c`. -/
structure Sent.Asked (sid : Text) (sent : Sent) : Prop where
  noAdd : ∀ topic id msg, sent.cmd ≠ .zadd topic id msg
  query : ∀ s, sent.cmd = .evalSub s → s = sid ∧ ∃ as, sent.fn = .hpSubAllCb as

/-- The subscriber is live and every record points to it. -/
structure Client.Bound (c : Client) (sid : Text) : Prop where
  profile : c.profile ps = some (sid, true)
  owner : ∀ p, (c.asyncs p).isSome → c.owner p = some ps

structure Client.Alive (sid : Text) (c : Client) : Prop where
  inv : SubInv c
  bound : c.Bound sid
  notClosing : ∀ q, .disconnect q ∉ c.stack
  pending : ∀ sent ∈ c.pending, sent.Asked sid
  subc : ∀ cmd ∈ c.subc ps, ∃ t topics, cmd = .subscribe (t :: topics)

/-- The message waits in a delivery loop. -/
def Client.Left (c : Client) (t : Text) (m : Message) : Prop :=
  ∃ as rest, .deliver as rest ∈ c.stack ∧ (t, m) ∈ rest

/-- What the client's code does with the messages it holds and those it is handed: each
is given to `cb` or waits in a delivery loop. -/
structure Effect (sid : Text) (c c' : Client) (handed : List (Text × Message)) : Prop where
  bound : c'.Bound sid
  notClosing : ∀ q, .disconnect q ∈ c'.stack → .disconnect q ∈ c.stack
  subc : ∀ cmd ∈ c'.subc ps, cmd ∈ c.subc ps ∨ ∃ t topics, cmd = .subscribe (t :: topics)
  calls : ∃ ext, c'.calls = c.calls ++ ext ∧ ∀ t m, c.Left t m ∨ (t, m) ∈ handed →
    c'.Left t m ∨ (ps, .message t m) ∈ ext

section
variable {sid : Text} {c c' : Client} {p : Addr}

/-- Nothing happens to the messages. -/
theorem Effect.still (hb : c'.Bound sid) (hstack : c'.stack = c.stack)
    (hcalls : c'.calls = c.calls)
    (hsubc : ∀ cmd ∈ c'.subc ps, cmd ∈ c.subc ps ∨ ∃ t topics, cmd = .subscribe (t :: topics)) :
    Effect sid c c' [] where
  bound := hb
  notClosing q hq := hstack ▸ hq
  subc := hsubc
  calls := by
    refine ⟨[], by rw [hcalls, List.append_nil], fun t m h => .inl ?_⟩
    rcases h with ⟨as, rest, hin, hm⟩ | hm
    · exact ⟨as, rest, hstack ▸ hin, hm⟩
    · cases hm

theorem Client.Bound.finish (hb : c.Bound sid) (hf : Finished c p c') : c'.Bound sid where
  profile := (hf.profile ps).trans hb.profile
  owner r hr := by
    rw [hf.asyncs] at hr
    rw [hf.owner]
    split at hr
    · cases hr
    · next hne =>
      rw [if_neg hne]
      exact hb.owner r hr

theorem Finished.effect (hf : Finished c p c') (hb : c.Bound sid) : Effect sid c c' [] :=
  .still (hb.finish hf) hf.stack hf.calls fun _ hcmd => .inl (hf.subc ▸ hcmd)

/-- The bound subscriber of a record. -/
theorem Client.Bound.sub {held : List Addr} (hb : c.Bound sid) (ho : Owned c held) (hp : p ∈ held) :
    ∃ a h, c.asyncs p = some a ∧ a.s = some ps ∧ c.subs ps = some h ∧ h.sid = sid ∧ h.cb = true := by
  obtain ⟨a, ha⟩ := Option.isSome_iff_exists.mp ((ho.accounts.alloc p).mpr hp)
  have howner := hb.owner p (by rw [ha]; rfl)
  rw [Client.owner, ha, Option.bind_some] at howner
  obtain ⟨h, hsub, hsame⟩ := Option.map_eq_some_iff.mp hb.profile
  obtain ⟨hsid, hcb⟩ := Prod.mk.inj hsame
  exact ⟨a, h, ha, howner, hsub, hsid, hcb⟩

/-- The delivery loop, with the messages it is handed. -/
theorem deliver_effect (rest : List (Text × Message)) (ho : Owned c (p :: c.held))
    (hb : c.Bound sid) :
    Effect sid c (c.deliver p rest) rest ∧ (c.deliver p rest).pending = c.pending := by
  cases rest with
  | nil =>
    obtain ⟨-, hf⟩ := finish_spec ho
    exact ⟨hf.effect hb, hf.pending⟩
  | cons d rest =>
    obtain ⟨a, h, ha, hs, hsub, -, hcb⟩ := hb.sub ho List.mem_cons_self
    have heq : c.deliver p (d :: rest) = c.callCb ps (.message d.1 d.2) (.deliver p rest) := by
      simp only [Client.deliver, ha, Option.bind_some, hs, hsub, hcb, if_true]
    rw [heq]
    refine ⟨⟨⟨hb.profile, hb.owner⟩, fun q hq => ?_, fun cmd hcmd => .inl hcmd,
      [(ps, .message d.1 d.2)], rfl, fun t m hm => ?_⟩, rfl⟩
    · rcases List.mem_cons.mp hq with hframe | hq
      · cases hframe
      · exact hq
    · rcases hm with ⟨as, rest', hin, hm⟩ | hm
      · exact .inl ⟨as, rest', List.mem_cons_of_mem _ hin, hm⟩
      · rcases List.mem_cons.mp hm with rfl | hm
        · exact .inr (List.mem_singleton_self _)
        · exact .inl ⟨p, rest, List.mem_cons_self, hm⟩

theorem allCb_effect {r : Reply} (ho : Owned c (p :: c.held)) (hb : c.Bound sid) :
    ∃ handed, Effect sid c (hpSubAllCb c p (some r)) handed ∧
      (hpSubAllCb c p (some r)).pending = c.pending ∧
      ∀ found, r = .msgs found → handed = sortc found := by
  obtain ⟨a, h, ha, hs, -⟩ := hb.sub ho List.mem_cons_self
  obtain ⟨-, hf⟩ := finish_spec ho
  simp only [hpSubAllCb, ha, hs, reduceCtorEq, if_false]
  cases r with
  | msgs found =>
    obtain ⟨heffect, hpending⟩ := deliver_effect (sortc found) ho hb
    exact ⟨sortc found, heffect, hpending, fun found' heq => by cases heq; rfl⟩
  | _ => exact ⟨[], hf.effect hb, hf.pending, fun found' heq => by cases heq⟩

/-- A `cb` that is told of an error. -/
theorem report_effect (hb : c.Bound sid) (call : CbCall) {frame : Frame}
    (hclose : frame.closing = none) : Effect sid c (c.callCb ps call frame) [] where
  bound := ⟨hb.profile, hb.owner⟩
  notClosing q hq := by
    rcases List.mem_cons.mp hq with heq | hq
    · rw [← heq] at hclose
      cases hclose
    · exact hq
  subc cmd hcmd := .inl hcmd
  calls := by
    refine ⟨[(ps, call)], rfl, fun t m hm => .inl ?_⟩
    rcases hm with ⟨as, rest, hin, hm⟩ | hm
    · exact ⟨as, rest, List.mem_cons_of_mem _ hin, hm⟩
    · cases hm

theorem sessionCb_effect {r : Reply} (ho : Owned c (p :: c.held)) (hb : c.Bound sid) :
    Effect sid c (hpSubSessionCb c p (some r) true) [] ∧
      (hpSubSessionCb c p (some r) true).pending = c.pending := by
  obtain ⟨a, h, ha, hs, hsub, -, hcb⟩ := hb.sub ho List.mem_cons_self
  obtain ⟨-, hf⟩ := finish_spec ho
  simp only [hpSubSessionCb, ha, hs, hsub]
  cases r with
  | error =>
    simp only [hcb, if_true]
    exact ⟨report_effect hb _ rfl, rfl⟩
  | keys topics =>
    simp only
    split
    · exact ⟨hf.effect hb, hf.pending⟩
    · next hne =>
      obtain ⟨t, topics, rfl⟩ := List.exists_cons_of_ne_nil hne
      simp only [hpSubDosub, if_true]
      generalize hsent : ({ c with
        subc := fun r => if r = ps then c.subc ps ++ [.subscribe (t :: topics)] else c.subc r } :
          Client) = c₁
      have ho₁ : Owned c₁ (p :: c.held) := hsent ▸ ho.frame rfl rfl rfl rfl rfl
      have hb₁ : c₁.Bound sid := hsent ▸ ⟨hb.profile, hb.owner⟩
      obtain ⟨-, hf'⟩ := finish_spec ho₁
      subst hsent
      refine ⟨.still (hb₁.finish hf') hf'.stack hf'.calls fun cmd hcmd => ?_, hf'.pending⟩
      rw [hf'.subc] at hcmd
      rcases List.mem_append.mp hcmd with hold | hnew
      · exact .inl hold
      · exact .inr ⟨t, topics, List.mem_singleton.mp hnew⟩
  | _ => exact ⟨hf.effect hb, hf.pending⟩

theorem Client.Bound.newAsync {h : HpSub} (hb : c.Bound sid) (hsub : c.subs ps = some h) :
    (c.newAsync ps h).Bound sid where
  profile := by
    have hprofile := hb.profile
    simp only [Client.profile, hsub, Option.map_some] at hprofile
    simp only [Client.profile, newAsync_subs, if_true, Option.map_some, hprofile]
  owner r hr := by
    rw [newAsync_owner]
    split
    · rfl
    · next hne =>
      apply hb.owner r
      simpa [Client.newAsync, Client.setSub, Client.setAsync, hne] using hr

/-- A record is made for a command that succeeds. -/
theorem newAsync_effect {h : HpSub} (hb : c.Bound sid) (hsub : c.subs ps = some h) (cmd : Cmd)
    (fn : CFn) : Effect sid c ((c.newAsync ps h).send cmd fn true) [] ∧
      ((c.newAsync ps h).send cmd fn true).pending = c.pending ++ [⟨cmd, fn⟩] := by
  have hb' := hb.newAsync hsub
  exact ⟨.still ⟨hb'.profile, hb'.owner⟩ rfl rfl fun _ hcmd => .inl hcmd, rfl⟩

theorem Client.Bound.sid_eq {h : HpSub} (hb : c.Bound sid) (hsub : c.subs ps = some h) :
    h.sid = sid := by
  have hprofile := hb.profile
  simp only [Client.profile, hsub, Option.map_some, Option.some.injEq, Prod.mk.injEq] at hprofile
  exact hprofile.1

theorem hpSub_effect {h : HpSub} (hb : c.Bound sid) (hsub : c.subs ps = some h)
    (topics : List Text) :
    Effect sid c (hpSub c ps h topics true true) [] ∧
      ∃ sent, (hpSub c ps h topics true true).pending = c.pending ++ [sent] ∧ sent.Asked sid := by
  unfold hpSub
  split
  · next hne =>
    obtain ⟨t, topics, rfl⟩ := List.exists_cons_of_ne_nil hne
    refine ⟨.still ⟨hb.profile, hb.owner⟩ rfl rfl fun cmd hcmd => ?_, _, rfl,
      ⟨fun _ _ _ heq => (by cases heq), fun _ heq => by cases heq⟩⟩
    rcases List.mem_append.mp hcmd with hold | hnew
    · exact .inl hold
    · exact .inr ⟨t, topics, List.mem_singleton.mp hnew⟩
  · obtain ⟨heffect, hpending⟩ := newAsync_effect hb hsub (.hkeys h.sid) (.hpSubSessionCb c.next)
    exact ⟨heffect, _, hpending, ⟨fun _ _ _ heq => (by cases heq), fun _ heq => by cases heq⟩⟩

theorem msgCb_effect {h : HpSub} (hb : c.Bound sid) (hsub : c.subs ps = some h) (push : Push) :
    Effect sid c (msgCb c ps h (some push) true) [] ∧
      ∃ more, (msgCb c ps h (some push) true).pending = c.pending ++ more ∧
        (∀ sent ∈ more, sent.Asked sid) ∧
        (push.queries = true → ∃ sent ∈ more, sent.cmd = .evalSub sid) := by
  have hstay : Effect sid c c [] := .still hb rfl rfl fun _ hcmd => .inl hcmd
  have hquery : Effect sid c (hpSubAll c ps h true) [] ∧
      ∃ more, (hpSubAll c ps h true).pending = c.pending ++ more ∧
        (∀ sent ∈ more, sent.Asked sid) ∧ ∃ sent ∈ more, sent.cmd = .evalSub sid := by
    obtain ⟨heffect, hpending⟩ := newAsync_effect hb hsub (.evalSub h.sid) (.hpSubAllCb c.next)
    refine ⟨heffect, _, hpending, fun sent hin => ?_, _, List.mem_singleton_self _, ?_⟩
    · rw [List.mem_singleton.mp hin]
      exact ⟨fun _ _ _ heq => (by cases heq),
        fun s heq => by cases heq; exact ⟨hb.sid_eq hsub, c.next, rfl⟩⟩
    · exact congrArg Cmd.evalSub (hb.sid_eq hsub)
  have hask : ∀ push : Push, Effect sid c (if push.queries then hpSubAll c ps h true else c) [] ∧
      ∃ more, (if push.queries then hpSubAll c ps h true else c).pending = c.pending ++ more ∧
        (∀ sent ∈ more, sent.Asked sid) ∧
        (push.queries = true → ∃ sent ∈ more, sent.cmd = .evalSub sid) := by
    intro push
    split
    · obtain ⟨heffect, more, hpending, hasked, hfound⟩ := hquery
      exact ⟨heffect, more, hpending, hasked, fun _ => hfound⟩
    · next hno =>
      exact ⟨hstay, [], (List.append_nil _).symm, fun sent hin => absurd hin List.not_mem_nil,
        fun hyes => absurd hyes hno⟩
  cases push with
  | subscribe t count => exact hask (.subscribe t count)
  | message t id => exact hask (.message t id)
  | unsubscribe count =>
    simp only [msgCb]
    split
    · exact ⟨report_effect hb _ rfl, [], (List.append_nil _).symm,
        fun sent hin => absurd hin List.not_mem_nil, fun hyes => by cases hyes⟩
    · exact ⟨hstay, [], (List.append_nil _).symm, fun sent hin => absurd hin List.not_mem_nil,
        fun hyes => by cases hyes⟩

/-- The user's `cb` returns: the messages of the frame on top are handed on. -/
theorem resume_effect {frame : Frame} {stack : List Frame} (ha : c.Alive sid)
    (hstack : c.stack = frame :: stack) :
    Effect sid c (Client.resume { c with stack := stack } frame) [] ∧
      (Client.resume { c with stack := stack } frame).pending = c.pending := by
  have hin : frame ∈ c.stack := hstack ▸ List.mem_cons_self
  have hb : Client.Bound { c with stack := stack } sid := ⟨ha.bound.profile, ha.bound.owner⟩
  have hown := ha.inv.owned_tail hstack
  -- what the frame holds is handed to the code that follows it
  have hconv : ∀ {c' handed}, Effect sid { c with stack := stack } c' handed →
      (∀ as rest, frame = .deliver as rest → handed = rest) → Effect sid c c' [] := by
    intro c' handed he hhanded
    refine ⟨he.bound, fun q hq => hstack ▸ List.mem_cons_of_mem _ (he.notClosing q hq), he.subc, ?_⟩
    obtain ⟨ext, hcalls, hgiven⟩ := he.calls
    refine ⟨ext, hcalls, fun t m hm => hgiven t m ?_⟩
    rcases hm with ⟨as, rest, hframe, hm⟩ | hm
    · rw [hstack] at hframe
      rcases List.mem_cons.mp hframe with heq | hframe
      · exact .inr (hhanded as rest heq.symm ▸ hm)
      · exact .inl ⟨as, rest, hframe, hm⟩
    · cases hm
  cases frame with
  | deliver p rest =>
    obtain ⟨heffect, hpending⟩ := deliver_effect rest hown hb
    exact ⟨hconv heffect fun as rest' heq => (by cases heq; rfl), hpending⟩
  | session p =>
    obtain ⟨-, hf⟩ := finish_spec hown
    exact ⟨hconv (hf.effect hb) fun as rest' heq => (by cases heq), hf.pending⟩
  | dosub =>
    exact ⟨hconv (.still hb rfl rfl fun _ hcmd => .inl hcmd) fun as rest' heq => (by cases heq), rfl⟩
  | unsubscribed q =>
    exact ⟨hconv (.still hb rfl rfl fun _ hcmd => .inl hcmd) fun as rest' heq => (by cases heq), rfl⟩
  | disconnect q => exact absurd hin (ha.notClosing q)

end

/-- What a step of the client leaves: it is alive, its effect is known, and what it sends
is what a subscriber sends. -/
theorem Client.Alive.next {sid : Text} {c c' : Client} {a : SubAct} {handed : List (Text × Message)}
    (ha : c.Alive sid) (hstep : subStep c a = some c') (hok : SubOk c a)
    (he : Effect sid c c' handed)
    (hpending : ∀ sent ∈ c'.pending, sent ∈ c.pending ∨ sent.Asked sid) : c'.Alive sid where
  inv := subStep_inv ha.inv hstep hok
  bound := he.bound
  notClosing q hq := ha.notClosing q (he.notClosing q hq)
  pending sent hin := (hpending sent hin).elim (ha.pending sent) id
  subc cmd hin := (he.subc cmd hin).elim (ha.subc cmd) id

/-- The queue of a publisher: each `ZADD` has its `PUBLISH` behind it. -/
def Paired : List Cmd → Prop
  | [] => True
  | .zadd topic _ _ :: q => (∃ id, .publish topic id ∈ q) ∧ Paired q
  | .publish _ _ :: q => Paired q
  | _ :: _ => False

theorem Paired.append_hpPub {q : List Cmd} (h : Paired q) (tv : Timeval) (topic msg : Text)
    (len : Int) : Paired (q ++ hpPub tv topic msg len) := by
  induction q with
  | nil => exact ⟨⟨_, List.mem_singleton_self _⟩, trivial⟩
  | cons cmd q ih =>
    cases cmd with
    | zadd t id m =>
      obtain ⟨⟨id', hin⟩, hrest⟩ := h
      exact ⟨⟨id', List.mem_append_left _ hin⟩, ih hrest⟩
    | publish t id => exact ih h
    | _ => exact h

theorem Paired.tail {cmd : Cmd} {q : List Cmd} (h : Paired (cmd :: q)) : Paired q := by
  cases cmd with
  | zadd t id m => exact h.2
  | publish t id => exact h
  | _ => exact absurd h id

/-- A publisher's command leaves the sessions alone, and every topic but its own. -/
theorem Paired.untouched {cmd : Cmd} {q : List Cmd} (h : Paired (cmd :: q)) {db : Db}
    {sid t : Text} {v : Nat} {m : Message} (hadd : ∀ id msg, cmd ≠ .zadd t id msg)
    (hv : (exec db cmd).1.field sid t = some v) (hm : (exec db cmd).1.Stored t m) :
    db.field sid t = some v ∧ db.Stored t m := by
  cases cmd with
  | zadd t' id msg =>
    simp only [exec] at hv hm
    split at hv
    · next hfail =>
      rw [hfail] at hm
      exact ⟨hv, hm⟩
    · next hdone =>
      rw [hdone] at hm
      obtain ⟨hfield, hstored⟩ := Db.zadd_spec hdone
      rw [hfield] at hv
      simp only [hstored] at hm
      split at hm
      · next hsame => exact absurd (by rw [hsame.1]) (hadd id msg)
      · exact ⟨hv, hm⟩
  | publish t' id => exact ⟨hv, hm⟩
  | _ => exact absurd h id

/-- The message is in a reply on the way, or in a delivery loop. -/
def SubNet.Flying (w : SubNet) (t : Text) (m : Message) : Prop :=
  w.client.Left t m ∨ ∃ x ∈ w.client.pending.zip w.answered,
    ∃ as found, x.1.fn = .hpSubAllCb as ∧ x.2 = .msgs found ∧ (t, m) ∈ sortc found

/-- A query is still to be executed. -/
def SubNet.Coming (sid : Text) (w : SubNet) (t : Text) : Prop :=
  (∃ sent ∈ w.client.pending.drop w.answered.length, sent.cmd = .evalSub sid) ∨
    (∃ p ∈ w.pushed, p.queries = true) ∨ ∃ q ∈ w.pubs, ∃ id, .publish t id ∈ q

structure NetInv (sid : Text) (w : SubNet) : Prop where
  alive : w.client.Alive sid
  answered : w.answered.length ≤ w.client.pending.length
  since : ∀ t, w.since t ≤ w.client.calls.length
  paired : ∀ q ∈ w.pubs, Paired q
  main : ∀ t v m, w.db.field sid t = some v → t ∈ w.chans → w.db.Stored t m → v < m.2 →
    w.client.Given (w.since t) t m ∨ w.Flying t m ∨ w.Coming sid t

section
variable {sid : Text} {w w' : SubNet} {c : Client}

theorem mem_zip {α β : Type} {l : List α} {k : List β} {x : α × β} :
    x ∈ l.zip k ↔ ∃ i : Nat, l[i]? = some x.1 ∧ k[i]? = some x.2 := by
  rw [List.mem_iff_getElem?]
  exact exists_congr fun i => List.getElem?_zip_eq_some

/-- Pairs stay when the lists get longer. -/
theorem mem_zip_of_prefix {α β : Type} {l l' : List α} {k k' : List β} {x : α × β}
    (h : x ∈ l.zip k) (hl' : l <+: l') (hk' : k <+: k') : x ∈ l'.zip k' := by
  obtain ⟨_, rfl⟩ := hl'
  obtain ⟨_, rfl⟩ := hk'
  obtain ⟨i, hl, hk⟩ := mem_zip.mp h
  have hil := (List.getElem?_eq_some_iff.mp hl).1
  have hik := (List.getElem?_eq_some_iff.mp hk).1
  refine mem_zip.mpr ⟨i, ?_, ?_⟩
  · rw [List.getElem?_append_left hil, hl]
  · rw [List.getElem?_append_left hik, hk]

theorem mem_zip_new {α β : Type} {l : List α} {k : List β} {a : α} {r : β}
    (h : l[k.length]? = some a) : (a, r) ∈ l.zip (k ++ [r]) :=
  mem_zip.mpr ⟨k.length, h, List.getElem?_concat_length⟩

theorem Client.Given.mono {c c' : Client} {n : Nat} {t : Text} {m : Message}
    {ext : List (Addr × CbCall)} (hcalls : c'.calls = c.calls ++ ext) (h : c.Given n t m) :
    c'.Given n t m := by
  unfold Client.Given at h ⊢
  rw [hcalls, List.drop_append]
  exact List.mem_append_left _ h

theorem Client.Given.new {c c' : Client} {n : Nat} {t : Text} {m : Message}
    {ext : List (Addr × CbCall)} (hcalls : c'.calls = c.calls ++ ext) (hn : n ≤ c.calls.length)
    (h : (ps, .message t m) ∈ ext) : c'.Given n t m := by
  unfold Client.Given
  rw [hcalls, List.drop_append, Nat.sub_eq_zero_of_le hn, List.drop_zero]
  exact List.mem_append_right _ h

/-- The client takes a step of its own and sends more. -/
theorem NetInv.client {more : List Sent} (hi : NetInv sid w) (ha : c.Alive sid)
    (he : Effect sid w.client c []) (hpending : c.pending = w.client.pending ++ more) :
    NetInv sid { w with client := c } := by
  obtain ⟨ext, hcalls, hgiven⟩ := he.calls
  refine ⟨ha, ?_, fun t => ?_, hi.paired, fun t v m hv ht hm hlt => ?_⟩
  · exact hi.answered.trans (by rw [hpending, List.length_append]; exact Nat.le_add_right _ _)
  · exact (hi.since t).trans (by rw [hcalls, List.length_append]; exact Nat.le_add_right _ _)
  · rcases hi.main t v m hv ht hm hlt with hgot | (hleft | ⟨x, hx, hrest⟩) | hcoming
    · exact .inl (hgot.mono hcalls)
    · rcases hgiven t m (.inl hleft) with hleft | hnew
      · exact .inr (.inl (.inl hleft))
      · exact .inl (Client.Given.new hcalls (hi.since t) hnew)
    · have hmore : w.client.pending <+: c.pending := hpending ▸ List.prefix_append _ _
      have hx' := mem_zip_of_prefix hx hmore List.prefix_rfl
      exact .inr (.inl (.inr ⟨x, hx', hrest⟩))
    · refine .inr (.inr ?_)
      rcases hcoming with ⟨sent, hin, hcmd⟩ | hpush
      · refine .inl ⟨sent, ?_, hcmd⟩
        rw [hpending, List.drop_append]
        exact List.mem_append_left _ hin
      · exact .inr hpush

/-- The client is given a reply: the messages in it are handed to its callback. -/
theorem NetInv.reply {r : Reply} {answered : List Reply} (hi : NetInv sid w)
    (hanswered : w.answered = r :: answered)
    (hstep : subStep w.client (.reply (some r) true) = some c) :
    NetInv sid { w with client := c, answered := answered } := by
  have ha := hi.alive
  obtain ⟨-, ⟨cmd, fn⟩, pending, hpending, hc⟩ := subStep_reply hstep
  -- the callback gets the messages, if it is the one of a query
  have hc : ∃ handed, Effect sid w.client c handed ∧ c.pending = pending ∧
      ∀ as found, fn = .hpSubAllCb as → r = .msgs found → handed = sortc found := by
    have hb : Client.Bound { w.client with pending := pending } sid :=
      ⟨ha.bound.profile, ha.bound.owner⟩
    have hlift : ∀ {c' handed}, Effect sid { w.client with pending := pending } c' handed →
        Effect sid w.client c' handed := fun he => ⟨he.bound, he.notClosing, he.subc, he.calls⟩
    cases fn with
    | other =>
      subst hc
      exact ⟨[], hlift (.still hb rfl rfl fun _ hcmd => .inl hcmd), rfl,
        fun as found heq => by cases heq⟩
    | hpSubAllCb p =>
      subst hc
      obtain ⟨ho, -⟩ := ha.inv.taken hpending rfl
      obtain ⟨handed, he, hsame, hfound⟩ := allCb_effect (r := r) ho hb
      exact ⟨handed, hlift he, hsame, fun _ found _ heq => hfound found heq⟩
    | hpSubSessionCb p =>
      subst hc
      obtain ⟨ho, -⟩ := ha.inv.taken hpending rfl
      obtain ⟨he, hsame⟩ := sessionCb_effect (r := r) ho hb
      exact ⟨[], hlift he, hsame, fun as found heq => by cases heq⟩
  obtain ⟨handed, he, hsame, hhanded⟩ := hc
  obtain ⟨ext, hcalls, hgiven⟩ := he.calls
  have hgive : ∀ t m, w.client.Left t m ∨ (t, m) ∈ handed → c.Given (w.since t) t m ∨ c.Left t m := by
    intro t m hm
    rcases hgiven t m hm with hleft | hnew
    · exact .inr hleft
    · exact .inl (Client.Given.new hcalls (hi.since t) hnew)
  refine ⟨ha.next hstep trivial he fun sent hin => .inl ?_, ?_, fun t => ?_, hi.paired,
    fun t v m hv ht hm hlt => ?_⟩
  · rw [hpending]
    exact List.mem_cons_of_mem _ (hsame ▸ hin)
  · have := hi.answered
    rw [hpending, hanswered] at this
    rw [hsame]
    exact Nat.le_of_succ_le_succ this
  · exact (hi.since t).trans (by rw [hcalls, List.length_append]; exact Nat.le_add_right _ _)
  · rcases hi.main t v m hv ht hm hlt with hgot | (hleft | ⟨x, hx, as, found, hfn, hr, hm⟩) | hcoming
    · exact .inl (hgot.mono hcalls)
    · exact (hgive t m (.inl hleft)).imp id fun hleft => .inl (.inl hleft)
    · rw [hpending, hanswered, List.zip_cons_cons] at hx
      rcases List.mem_cons.mp hx with rfl | hx
      · refine (hgive t m (.inr ?_)).imp id fun hleft => .inl (.inl hleft)
        rw [hhanded as found hfn hr]
        exact hm
      · exact .inr (.inl (.inr ⟨x, by rw [hsame]; exact hx, as, found, hfn, hr, hm⟩))
    · refine .inr (.inr (hcoming.imp_left fun ⟨sent, hin, hcmd⟩ => ⟨sent, ?_, hcmd⟩))
      rw [hpending, hanswered, List.length_cons, List.drop_succ_cons] at hin
      rw [hsame]
      exact hin

/-- The client is given a push, which may make it send a query. -/
theorem NetInv.push {push : Push} {pushed : List Push} (hi : NetInv sid w)
    (hpushed : w.pushed = push :: pushed)
    (hstep : subStep w.client (.push ps (some push) true) = some c) :
    NetInv sid { w with client := c, pushed := pushed } := by
  have hc : Effect sid w.client c [] ∧ ∃ more, c.pending = w.client.pending ++ more ∧
      (∀ sent ∈ more, sent.Asked sid) ∧
      (push.queries = true → ∃ sent ∈ more, sent.cmd = .evalSub sid) := by
    simp only [subStep] at hstep
    split at hstep
    · obtain ⟨h, hsub, rfl⟩ := Option.map_eq_some_iff.mp hstep
      exact msgCb_effect hi.alive.bound hsub push
    · cases hstep
  obtain ⟨he, more, hpending, hasked, hquery⟩ := hc
  have hnext := hi.client (hi.alive.next hstep (fun _ => rfl) he fun sent hin => by
    rw [hpending] at hin
    exact (List.mem_append.mp hin).imp_right (hasked sent)) he hpending
  refine ⟨hnext.alive, hnext.answered, hnext.since, hnext.paired, fun t v m hv ht hm hlt => ?_⟩
  rcases hnext.main t v m hv ht hm hlt with hgot | hflying | hcoming
  · exact .inl hgot
  · exact .inr (.inl hflying)
  · refine .inr (.inr ?_)
    rcases hcoming with hsent | ⟨p, hp, hqueries⟩ | hpub
    · exact .inl hsent
    · rw [hpushed] at hp
      rcases List.mem_cons.mp hp with rfl | hp
      · obtain ⟨sent, hin, hcmd⟩ := hquery hqueries
        refine .inl ⟨sent, ?_, hcmd⟩
        simp only [hpending, List.drop_append, Nat.sub_eq_zero_of_le hi.answered, List.drop_zero]
        exact List.mem_append_right _ hin
      · exact .inr (.inl ⟨p, hp, hqueries⟩)
    · exact .inr (.inr hpub)

theorem mem_sortc {found : List (Text × List Message)} {t : Text} {m : Message} :
    (t, m) ∈ sortc found ↔ ∃ e ∈ found, e.1 = t ∧ m ∈ e.2 := by
  simp only [sortc, List.mem_insertionSort, List.mem_flatMap, List.mem_map, Prod.mk.injEq]
  constructor
  · intro ⟨e, he, m', hm, ht, heq⟩
    exact ⟨e, he, ht, heq ▸ hm⟩
  · intro ⟨e, he, ht, hm⟩
    exact ⟨e, he, m, hm, ht, rfl⟩

/-- A query that is executed puts every message it is for into its reply. -/
theorem SubNet.flying_of_query {sent : Sent} {t : Text} {v : Nat} {m : Message}
    (hsent : w.client.pending[w.answered.length]? = some sent) (hcmd : sent.cmd = .evalSub sid)
    (hasked : sent.Asked sid) (hv : w.db.field sid t = some v) (hm : w.db.Stored t m)
    (hlt : v < m.2) :
    ∃ x ∈ w.client.pending.zip (w.answered ++ [(exec w.db sent.cmd).2]),
      ∃ as found, x.1.fn = .hpSubAllCb as ∧ x.2 = .msgs found ∧ (t, m) ∈ sortc found := by
  obtain ⟨-, as, hfn⟩ := hasked.query sid hcmd
  obtain ⟨found, hfound, hin⟩ := mem_subLua.mpr ⟨v, hv, hm, hlt⟩
  refine ⟨_, mem_zip_new hsent, as, found, hfn, ?_, mem_sortc.mpr hin⟩
  rw [hcmd]
  simp only [exec, hfound]

/-- The server executes the next command on `c`. -/
theorem NetInv.serveC (hi : NetInv sid w) (hstep : w.serveC = some w') (hok : Wakes w .serveC) :
    NetInv sid w' := by
  obtain ⟨sent, hsent, rfl⟩ := Option.map_eq_some_iff.mp hstep
  obtain ⟨hlt, hget⟩ := List.getElem?_eq_some_iff.mp hsent
  have hasked := hi.alive.pending sent (List.mem_of_getElem? hsent)
  have hdrop : w.client.pending.drop w.answered.length =
      sent :: w.client.pending.drop (w.answered.length + 1) := by
    rw [← hget]
    exact List.drop_eq_getElem_cons hlt
  refine ⟨hi.alive, ?_, hi.since, hi.paired, fun t v m hv ht hm hlt => ?_⟩
  · simp only [List.length_append, List.length_singleton]
    exact hlt
  have hm' : w.db.Stored t m := (exec_stored hasked.noAdd t m).mp hm
  -- either the message was above what the session held, or an acknowledgement went back
  have hbefore : (∃ v₀, w.db.field sid t = some v₀ ∧ v₀ < m.2) ∨
      w.client.Given (w.since t) t m := by
    rcases exec_field hv with (hkept | ⟨-, htop⟩) | hset
    · exact .inl ⟨v, hkept, hlt⟩
    · exact absurd (htop m hm') (Nat.not_le_of_lt hlt)
    · obtain ⟨cmd, fn⟩ := sent
      simp only at hset
      subst hset
      simp only [Wakes, hsent] at hok
      obtain ⟨z, hz, hlookup⟩ := hm'
      exact hok z hz m (ZSet.mem_ranked.mpr hlookup) hlt
  rcases hbefore with ⟨v₀, hv₀, hlt₀⟩ | hgot
  · rcases hi.main t v₀ m hv₀ ht hm' hlt₀ with hgot | (hleft | ⟨x, hx, hrest⟩) | hcoming
    · exact .inl hgot
    · exact .inr (.inl (.inl hleft))
    · exact .inr (.inl (.inr ⟨x,
        mem_zip_of_prefix hx List.prefix_rfl (List.prefix_append _ _), hrest⟩))
    · rcases hcoming with ⟨sent', hin, hcmd⟩ | hrest
      · rw [hdrop] at hin
        rcases List.mem_cons.mp hin with rfl | hin
        · exact .inr (.inl (.inr (SubNet.flying_of_query hsent hcmd hasked hv₀ hm' hlt₀)))
        · refine .inr (.inr (.inl ⟨sent', ?_, hcmd⟩))
          simp only [List.length_append, List.length_singleton]
          exact hin
      · exact .inr (.inr (.inr hrest))
  · exact .inl hgot

theorem subscribeAll_first {chans : List Text} {t : Text} (topics : List Text)
    (h : chans = [] ∨ chans = [t]) :
    ∃ push ∈ (subscribeAll chans (t :: topics)).2, push.queries = true := by
  refine ⟨_, List.mem_cons_self, ?_⟩
  rcases h with rfl | rfl
  · simp [Push.queries]
  · simp [Push.queries]

/-- The server executes a `SUBSCRIBE`: its first confirmation will make the client ask. -/
theorem NetInv.serveSub (hi : NetInv sid w) (hstep : w.serveSub = some w')
    (hok : Wakes w .serveSub) : NetInv sid w' := by
  unfold SubNet.serveSub at hstep
  split at hstep
  · next topics rest hsubc =>
    cases hstep
    obtain ⟨t₀, topics', heq⟩ := hi.alive.subc _ (hsubc ▸ List.mem_cons_self)
    cases heq
    simp only [Wakes, hsubc] at hok
    obtain ⟨push, hpush, hqueries⟩ := subscribeAll_first topics' hok
    have hinv : SubInv { w.client with
        subc := fun q => if q = ps then rest else w.client.subc q } := hi.alive.inv.subc _
    refine ⟨⟨hinv, ⟨hi.alive.bound.profile, hi.alive.bound.owner⟩, hi.alive.notClosing, hi.alive.pending,
      fun cmd hcmd => hi.alive.subc cmd (hsubc ▸ List.mem_cons_of_mem _ hcmd)⟩, hi.answered,
      fun t => ?_, hi.paired, fun t v m hv ht hm hlt => ?_⟩
    · simp only
      split
      · exact Nat.le_refl _
      · exact hi.since t
    · exact .inr (.inr (.inr (.inl ⟨push, List.mem_append_right _ hpush, hqueries⟩)))
  · cases hstep

/-- Someone calls `hp_pub`. -/
theorem NetInv.pub {i : Nat} {q : List Cmd} (hi : NetInv sid w) (hq : w.pubs[i]? = some q)
    (tv : Timeval) (topic msg : Text) (len : Int) :
    NetInv sid { w with pubs := w.pubs.set i (q ++ hpPub tv topic msg len) } := by
  have hmem : q ∈ w.pubs := List.mem_of_getElem? hq
  refine ⟨hi.alive, hi.answered, hi.since, fun q' hq' => ?_, fun t v m hv ht hm hlt => ?_⟩
  · rcases List.mem_or_eq_of_mem_set hq' with hold | rfl
    · exact hi.paired q' hold
    · exact (hi.paired q hmem).append_hpPub tv topic msg len
  · refine (hi.main t v m hv ht hm hlt).imp id (Or.imp id fun hcoming => ?_)
    refine hcoming.imp id (Or.imp id fun ⟨q', hq', id', hpub⟩ => ?_)
    obtain ⟨j, hj⟩ := List.mem_iff_getElem?.mp hq'
    by_cases hij : i = j
    · subst hij
      rw [hq] at hj
      cases hj
      exact ⟨_, List.mem_set (List.getElem?_eq_some_iff.mp hq).1 _, id', List.mem_append_left _ hpub⟩
    · refine ⟨q', List.mem_iff_getElem?.mpr ⟨j, ?_⟩, id', hpub⟩
      rw [List.getElem?_set_ne hij]
      exact hj

/-- What is still to be pushed or published stays, but for the command that was executed. -/
theorem SubNet.Coming.served {db : Db} {i : Nat} {cmd : Cmd} {rest : List Cmd} {t : Text}
    (hq : w.pubs[i]? = some (cmd :: rest)) (ht : t ∈ w.chans)
    (h : w.Coming sid t) :
    SubNet.Coming sid { w with
      db := db, pushed := w.pushed ++ notify w.chans cmd, pubs := w.pubs.set i rest } t := by
  rcases h with hsent | ⟨p, hp, hqueries⟩ | ⟨q, hmem, id, hpub⟩
  · exact .inl hsent
  · exact .inr (.inl ⟨p, List.mem_append_left _ hp, hqueries⟩)
  · obtain ⟨j, hj⟩ := List.mem_iff_getElem?.mp hmem
    by_cases hij : i = j
    · subst hij
      rw [hq] at hj
      cases hj
      rcases List.mem_cons.mp hpub with rfl | hpub
      · refine .inr (.inl ⟨.message t id, List.mem_append_right _ ?_, rfl⟩)
        rw [notify, if_pos ht]
        exact List.mem_singleton_self _
      · exact .inr (.inr ⟨rest, List.mem_set (List.getElem?_eq_some_iff.mp hq).1 _, id, hpub⟩)
    · refine .inr (.inr ⟨q, List.mem_iff_getElem?.mpr ⟨j, ?_⟩, id, hpub⟩)
      simp only [List.getElem?_set_ne hij]
      exact hj

/-- The server executes the next command of a publisher. -/
theorem NetInv.servePub {i : Nat} (hi : NetInv sid w) (hstep : w.servePub i = some w') :
    NetInv sid w' := by
  unfold SubNet.servePub at hstep
  split at hstep
  · next cmd rest hq =>
    cases hstep
    have hpaired := hi.paired _ (List.mem_of_getElem? hq)
    refine ⟨hi.alive, hi.answered, hi.since, fun q hmem => ?_, fun t v m hv ht hm hlt => ?_⟩
    · rcases List.mem_or_eq_of_mem_set hmem with hold | rfl
      · exact hi.paired q hold
      · exact hpaired.tail
    · by_cases hadd : ∃ id msg, cmd = .zadd t id msg
      -- the `PUBLISH` of a message that has just been stored is next
      · obtain ⟨id, msg, rfl⟩ := hadd
        obtain ⟨⟨id', hin⟩, -⟩ := hpaired
        exact .inr (.inr (.inr (.inr
          ⟨rest, List.mem_set (List.getElem?_eq_some_iff.mp hq).1 _, id', hin⟩)))
      · obtain ⟨hv₀, hm₀⟩ := hpaired.untouched (fun id msg heq => hadd ⟨id, msg, heq⟩) hv hm
        exact (hi.main t v m hv₀ ht hm₀ hlt).imp id (Or.imp id fun hcoming => hcoming.served hq ht)
  · cases hstep

end

theorem subNetStart_inv (db : Db) (sid : Text) (n : Nat) : NetInv sid (subNetStart db sid n) where
  alive :=
    { inv := clientStart_inv _
      bound := ⟨rfl, fun p hp => by cases hp⟩
      notClosing := fun q hq => by cases hq
      pending := fun sent hin => by cases hin
      subc := fun cmd hin => by cases hin }
  answered := Nat.le_refl _
  since t := Nat.le_refl _
  paired q hq := by
    rw [List.eq_of_mem_replicate hq]
    trivial
  main t v m hv ht := by cases ht

theorem NetInv.act {sid : Text} {w w' : SubNet} {a : SubAct} (hi : NetInv sid w)
    (hstep : w.act a = some w') (hok : SubOk w.client a)
    (heffect : ∀ c, subStep w.client a = some c → Effect sid w.client c [] ∧
      ∃ more, c.pending = w.client.pending ++ more ∧ ∀ sent ∈ more, sent.Asked sid) :
    NetInv sid w' := by
  obtain ⟨c, hc, rfl⟩ := Option.map_eq_some_iff.mp hstep
  obtain ⟨he, more, hpending, hasked⟩ := heffect c hc
  refine hi.client (hi.alive.next hc hok he fun sent hin => ?_) he hpending
  rw [hpending] at hin
  exact (List.mem_append.mp hin).imp_right (hasked sent)

theorem subNetStep_inv {sid : Text} {w w' : SubNet} {a : SubNetAct} (hi : NetInv sid w)
    (hstep : subNetStep sid w a = some w') (hok : Wakes w a) : NetInv sid w' := by
  cases a with
  | hpSub topics =>
    refine hi.act hstep (fun _ => rfl) fun c hc => ?_
    obtain ⟨h, hsub, rfl⟩ := Option.map_eq_some_iff.mp hc
    obtain ⟨he, sent, hpending, hasked⟩ := hpSub_effect hi.alive.bound hsub topics
    exact ⟨he, [sent], hpending, fun sent' hin => List.mem_singleton.mp hin ▸ hasked⟩
  | ack topic m =>
    simp only [subNetStep] at hstep
    split at hstep
    · apply hi.act hstep trivial
      intro c hc
      cases hc
      refine ⟨.still ⟨hi.alive.bound.profile, hi.alive.bound.owner⟩ rfl rfl fun _ h => .inl h,
        [⟨.hset sid topic m.2, .other⟩], rfl, fun sent hin => ?_⟩
      rw [List.mem_singleton.mp hin]
      exact ⟨fun _ _ _ heq => (by cases heq), fun _ heq => by cases heq⟩
    · cases hstep
  | ret =>
    apply hi.act hstep trivial
    intro c hc
    simp only [subStep] at hc
    split at hc
    · cases hc
    · next frame stack hstack =>
      cases hc
      obtain ⟨he, hpending⟩ := resume_effect hi.alive hstack
      exact ⟨he, [], hpending.trans (List.append_nil _).symm, fun sent hin => by cases hin⟩
  | pub i tv topic msg len =>
    obtain ⟨q, hq, rfl⟩ := Option.map_eq_some_iff.mp hstep
    exact hi.pub hq tv topic msg len
  | serveC => exact hi.serveC hstep hok
  | serveSub => exact hi.serveSub hstep hok
  | servePub i => exact hi.servePub hstep
  | reply =>
    simp only [subNetStep] at hstep
    split at hstep
    · cases hstep
    · next r answered hanswered =>
      obtain ⟨c, hc, rfl⟩ := Option.map_eq_some_iff.mp hstep
      exact hi.reply hanswered hc
  | push =>
    simp only [subNetStep] at hstep
    split at hstep
    · cases hstep
    · next p pushed hpushed =>
      obtain ⟨c, hc, rfl⟩ := Option.map_eq_some_iff.mp hstep
      exact hi.push hpushed hc

theorem NetInv.delivered {sid : Text} {w : SubNet} (hi : NetInv sid w) (hq : w.Quiet) :
    w.Delivered sid := by
  intro t v m hv ht hm hlt
  rcases hi.main t v m hv ht hm hlt with hgot | (⟨as, rest, hin, -⟩ | ⟨x, hx, -⟩) | hcoming
  · exact hgot
  · rw [hq.stack] at hin
    cases hin
  · rw [hq.pending] at hx
    cases hx
  · rcases hcoming with ⟨sent, hin, -⟩ | ⟨p, hp, -⟩ | ⟨q, hmem, id, hin⟩
    · rw [hq.pending, List.drop_nil] at hin
      cases hin
    · rw [hq.pushed] at hp
      cases hp
    · rw [hq.pubs q hmem] at hin
      cases hin

/-- When nothing is in flight, the subscriber was given every unacknowledged message of
its subscribed topics, as long as every `SUBSCRIBE` brings a query. -/
theorem quiet_delivered {db : Db} {sid : Text} {n : Nat} {w : SubNet}
    (hrun : Run.Along (subNetStep sid) Wakes (subNetStart db sid n) w) (hq : w.Quiet) :
    w.Delivered sid :=
  (hrun.invariant (I := NetInv sid) (subNetStart_inv db sid n) fun _ _ _ hi hstep hok =>
    subNetStep_inv hi hstep hok).delivered hq

def SubNet.quietTest (w : SubNet) : Bool :=
  w.client.pending.isEmpty && w.answered.isEmpty && (w.client.subc ps).isEmpty &&
    w.client.stack.isEmpty && w.pushed.isEmpty && w.pubs.all List.isEmpty

theorem SubNet.quiet_of_quietTest {w : SubNet} (h : w.quietTest = true) : w.Quiet := by
  simp only [quietTest, Bool.and_eq_true, List.isEmpty_iff, List.all_eq_true] at h
  obtain ⟨⟨⟨⟨⟨hpending, hanswered⟩, hsubc⟩, hstack⟩, hpushed⟩, hpubs⟩ := h
  exact ⟨hpending, hanswered, hsubc, hstack, hpushed, hpubs⟩

/-- A message is published between the session's update and `SUBSCRIBE`. -/
theorem quiet_delivered_one : ∃ w : SubNet,
    Run.Along (subNetStep [115]) Wakes (subNetStart ∅ [115] 1) w ∧ w.Quiet ∧
      w.client.calls ≠ [] ∧ w.Delivered [115] := by
  obtain ⟨w, hrun, hquiet, hcalls⟩ : ∃ w,
      Run.Along (subNetStep [115]) Wakes (subNetStart ∅ [115] 1) w ∧
        w.quietTest = true ∧ w.client.calls ≠ [] :=
    Run.along_any (fun (w : SubNet) (a : SubNetAct) => decide (Wakes w a))
      [.hpSub [[116]], .serveC, .pub 0 ⟨1600000000, 500000⟩ [116] [97] 1, .servePub 0, .servePub 0,
        .serveSub, .reply, .push, .serveC, .reply, .ret]
      (fun _ _ h => of_decide_eq_true h)
      (fun w => w.quietTest = true ∧ w.client.calls ≠ []) (by decide +kernel)
  have hquiet := SubNet.quiet_of_quietTest hquiet
  exact ⟨w, hrun, hquiet, hcalls, quiet_delivered hrun hquiet⟩

/-- A second topic is subscribed, and a message is published to it before the server
executes `SUBSCRIBE`, which it confirms with the count 2. -/
theorem quiet_not_delivered : ¬ ∀ (db : Db) (sid : Text) (n : Nat) (w : SubNet),
    Run.Along (subNetStep sid) InOrder (subNetStart db sid n) w → w.Quiet → w.Delivered sid := by
  intro hall
  obtain ⟨w, hrun, hquiet, hfield, hchan, hstored, hlost⟩ : ∃ w,
      Run.Along (subNetStep [115]) InOrder (subNetStart ∅ [115] 1) w ∧ w.quietTest = true ∧
        w.db.field [115] [117] = some 0 ∧ [117] ∈ w.chans ∧
        ((w.db.zset [117]).bind fun z => z.lookup [97]) = some 1600000000500 ∧
        ¬ w.client.Given (w.since [117]) [117] ([97], 1600000000500) :=
    Run.along_any (fun (w : SubNet) (a : SubNetAct) => decide (InOrder w a))
      [.hpSub [[116]], .serveC, .reply, .serveSub, .push, .serveC, .reply,
        .hpSub [[117]], .serveC, .reply,
        .pub 0 ⟨1600000000, 500000⟩ [117] [97] 1, .servePub 0, .servePub 0, .serveSub, .push]
      (fun _ _ h => of_decide_eq_true h)
      (fun w => w.quietTest = true ∧ w.db.field [115] [117] = some 0 ∧ [117] ∈ w.chans ∧
        ((w.db.zset [117]).bind fun z => z.lookup [97]) = some 1600000000500 ∧
        ¬ w.client.Given (w.since [117]) [117] ([97], 1600000000500)) (by decide +kernel)
  obtain ⟨z, hz, hlookup⟩ := Option.bind_eq_some_iff.mp hstored
  exact hlost (hall ∅ [115] 1 w hrun (SubNet.quiet_of_quietTest hquiet) [117] 0 ([97], 1600000000500)
    hfield hchan ⟨z, hz, hlookup⟩ (by decide))

end Libhp.Pub
