import Libhp.Lib.Run
import Libhp.Pub.Sub

/-!
# The life of a pending command

Who owns an `hp_sub_async_t`: a callback that hiredis still has to call, or library code
on the stack that is inside such a callback. The records a subscriber lists are the ones
that point to it, and freeing a subscriber detaches them.
-/
namespace Libhp.Pub

def CFn.as : CFn → Option Addr
  | .other => none
  | .hpSubAllCb as | .hpSubSessionCb as => some as

def Frame.as : Frame → Option Addr
  | .deliver as _ | .session as => some as
  | _ => none

/-- The records that are pending: their callback is to be called or has not returned. -/
def Client.held (c : Client) : List Addr :=
  c.pending.filterMap (fun sent => sent.fn.as) ++ c.stack.filterMap Frame.as

def Client.owner (c : Client) (p : Addr) : Option Addr := (c.asyncs p).bind fun a => a.s

/-- A subscriber but for its list. -/
def Client.profile (c : Client) (q : Addr) : Option (Text × Bool) :=
  (c.subs q).map fun h => (h.sid, h.cb)

theorem Client.isSome_profile (c : Client) (q : Addr) : (c.profile q).isSome = (c.subs q).isSome :=
  Option.isSome_map

/-- Every record that was allocated is pending or has been freed, and not both. -/
structure Accounts (c : Client) (held : List Addr) : Prop where
  alloc : ∀ p, (c.asyncs p).isSome ↔ p ∈ held
  parts : ∀ p, p < c.next ↔ p ∈ held ∨ p ∈ c.freed
  once : (held ++ c.freed).Nodup

/-- A record is in the list of a subscriber iff it points to it, and the subscriber a
record points to is live. -/
structure Linked (c : Client) : Prop where
  nodup : ∀ q h, c.subs q = some h → h.asyncList.Nodup
  listed : ∀ q h, c.subs q = some h → ∀ p, p ∈ h.asyncList ↔ c.owner p = some q
  live : ∀ p q, c.owner p = some q → (c.subs q).isSome

structure Owned (c : Client) (held : List Addr) : Prop where
  sound : c.fault = false
  accounts : Accounts c held
  linked : Linked c

theorem clientStart_owned (subs : Addr → Option (Text × Bool)) : Owned (clientStart subs) [] where
  sound := rfl
  accounts := by
    refine ⟨fun p => ?_, fun p => ?_, List.nodup_nil⟩
    · exact iff_of_false Bool.false_ne_true List.not_mem_nil
    · exact iff_of_false (Nat.not_lt_zero p) (by simp [clientStart])
  linked := by
    refine ⟨fun q h hq => ?_, fun q h hq p => ?_, fun p q hq => by cases hq⟩
    · obtain ⟨_, _, rfl⟩ := Option.map_eq_some_iff.mp hq
      exact List.nodup_nil
    · obtain ⟨_, _, rfl⟩ := Option.map_eq_some_iff.mp hq
      exact iff_of_false List.not_mem_nil (by simp [Client.owner, clientStart])

section
variable {c : Client} {held : List Addr} {p q : Addr} {h : HpSub}

/-- The memory is all that ownership depends on. -/
theorem Owned.frame {c' : Client} (ho : Owned c held) (hsubs : c'.subs = c.subs)
    (hasyncs : c'.asyncs = c.asyncs) (hnext : c'.next = c.next) (hfreed : c'.freed = c.freed)
    (hfault : c'.fault = c.fault) : Owned c' held := by
  obtain ⟨subs, asyncs, next, freed, pending, subc, calls, stack, fault⟩ := c'
  subst hsubs hasyncs hnext hfreed hfault
  exact ⟨ho.sound, ⟨ho.accounts.alloc, ho.accounts.parts, ho.accounts.once⟩,
    ⟨ho.linked.nodup, ho.linked.listed, ho.linked.live⟩⟩

theorem Owned.perm {held' : List Addr} (ho : Owned c held) (hperm : held.Perm held') :
    Owned c held' where
  sound := ho.sound
  accounts :=
    ⟨fun p => (ho.accounts.alloc p).trans hperm.mem_iff,
      fun p => (ho.accounts.parts p).trans (or_congr_left hperm.mem_iff),
      (hperm.append_right _).nodup ho.accounts.once⟩
  linked := ho.linked

theorem Owned.fresh (ho : Owned c held) : c.asyncs c.next = none := by
  by_contra hne
  have hsome := Option.isSome_iff_ne_none.mpr hne
  have hlt := (ho.accounts.parts c.next).mpr (.inl ((ho.accounts.alloc c.next).mp hsome))
  exact Nat.lt_irrefl _ hlt

theorem newAsync_owner (c : Client) (q : Addr) (h : HpSub) (p : Addr) :
    (c.newAsync q h).owner p = if p = c.next then some q else c.owner p := by
  by_cases hp : p = c.next
  · simp [Client.owner, Client.newAsync, Client.setSub, Client.setAsync, hp]
  · simp [Client.owner, Client.newAsync, Client.setSub, Client.setAsync, hp]

theorem newAsync_subs (c : Client) (q : Addr) (h : HpSub) (r : Addr) :
    (c.newAsync q h).subs r =
      if r = q then some { h with asyncList := h.asyncList ++ [c.next] } else c.subs r := rfl

theorem Owned.newAsync (ho : Owned c held) (hq : c.subs q = some h) :
    Owned (c.newAsync q h) (c.next :: held) := by
  have hunowned : c.owner c.next = none := by rw [Client.owner, ho.fresh]; rfl
  have hunlisted : ∀ r sub, c.subs r = some sub → c.next ∉ sub.asyncList := by
    intro r sub hr hin
    rw [(ho.linked.listed r sub hr c.next).mp hin] at hunowned
    cases hunowned
  have hnot : c.next ∉ held ++ c.freed := fun hin =>
    Nat.lt_irrefl _ ((ho.accounts.parts c.next).mpr (List.mem_append.mp hin))
  refine ⟨ho.sound, ⟨fun p => ?_, fun p => ?_, List.nodup_cons.mpr ⟨hnot, ho.accounts.once⟩⟩, ?_⟩
  · rw [List.mem_cons, ← ho.accounts.alloc p]
    by_cases hp : p = c.next
    · simp [Client.newAsync, Client.setSub, Client.setAsync, hp]
    · simp [Client.newAsync, Client.setSub, Client.setAsync, hp]
  · have hparts := ho.accounts.parts p
    change p < c.next + 1 ↔ p ∈ c.next :: held ∨ p ∈ c.freed
    rw [List.mem_cons, or_assoc, ← hparts]
    exact Nat.lt_succ_iff_lt_or_eq.trans or_comm
  · refine ⟨fun r sub hr => ?_, fun r sub hr p => ?_, fun p r hp => ?_⟩
    · rw [newAsync_subs] at hr
      split at hr
      · cases hr
        refine List.nodup_append.mpr ⟨ho.linked.nodup q h hq, List.nodup_singleton _, ?_⟩
        intro a ha b hb heq
        rw [List.mem_singleton.mp hb] at heq
        exact hunlisted q h hq (heq ▸ ha)
      · exact ho.linked.nodup r sub hr
    · rw [newAsync_owner]
      rw [newAsync_subs] at hr
      split at hr
      · next heq =>
        subst heq
        cases hr
        rw [List.mem_append, List.mem_singleton, ho.linked.listed r h hq p]
        by_cases hp : p = c.next
        · simp [hp]
        · simp [hp]
      · next hne =>
        by_cases hp : p = c.next
        · subst hp
          rw [if_pos rfl]
          exact iff_of_false (hunlisted r sub hr) (fun heq => hne (Option.some.inj heq).symm)
        · rw [if_neg hp]
          exact ho.linked.listed r sub hr p
    · rw [newAsync_owner] at hp
      rw [newAsync_subs]
      split
      · rfl
      · next hne =>
        split at hp
        · cases hp
          exact absurd rfl hne
        · exact ho.linked.live p r hp

/-- The record is gone, whatever else happens to the lists. -/
theorem Accounts.free {c' : Client} (ha : Accounts c (p :: held))
    (hasyncs : ∀ r, c'.asyncs r = if r = p then none else c.asyncs r) (hnext : c'.next = c.next)
    (hfreed : c'.freed = c.freed ++ [p]) : Accounts c' held := by
  have hnodup := List.nodup_cons.mp ha.once
  refine ⟨fun r => ?_, fun r => ?_, ?_⟩
  · rw [hasyncs]
    split
    · next heq =>
      subst heq
      exact iff_of_false Bool.false_ne_true fun hin => hnodup.1 (List.mem_append_left _ hin)
    · next hne =>
      rw [ha.alloc r, List.mem_cons]
      exact or_iff_right hne
  · rw [hnext, hfreed, ha.parts r, List.mem_cons, List.mem_append, List.mem_singleton]
    exact ⟨fun hin => by rcases hin with (h | h) | h <;> simp [h],
      fun hin => by rcases hin with h | h | h <;> simp [h]⟩
  · rw [hfreed, ← List.append_assoc]
    exact (List.perm_append_singleton p (held ++ c.freed)).symm.nodup ha.once

theorem Linked.unlink {c' : Client} (hl : Linked c)
    (howner : ∀ r, c'.owner r = if r = p then none else c.owner r)
    (hsubs : ∀ r sub', c'.subs r = some sub' → ∃ sub, c.subs r = some sub ∧
      (sub'.asyncList = sub.asyncList.erase p ∨ sub' = sub ∧ c.owner p ≠ some r))
    (hlive : ∀ r, (c.subs r).isSome → (c'.subs r).isSome) : Linked c' := by
  refine ⟨fun r sub' hr => ?_, fun r sub' hr x => ?_, fun x r hx => ?_⟩
  · obtain ⟨sub, hsub, hlist | ⟨rfl, -⟩⟩ := hsubs r sub' hr
    · rw [hlist]
      exact (hl.nodup r sub hsub).erase p
    · exact hl.nodup r sub' hsub
  · obtain ⟨sub, hsub, hlist | ⟨rfl, hne⟩⟩ := hsubs r sub' hr
    · rw [hlist, (hl.nodup r sub hsub).mem_erase_iff, hl.listed r sub hsub x, howner]
      split
      · next heq => simp [heq]
      · next hx => exact and_iff_right hx
    · rw [hl.listed r sub' hsub x, howner]
      split
      · next heq => exact iff_of_false (heq ▸ hne) (by simp)
      · rfl
  · rw [howner] at hx
    split at hx
    · cases hx
    · exact hlive r (hl.live x r hx)

theorem Client.finish_cases (ho : Owned c (p :: held)) :
    ∃ subs, c.finish p =
        { c.setAsync p none with freed := c.freed ++ [p], subs := subs } ∧
      (∀ r sub', subs r = some sub' → ∃ sub, c.subs r = some sub ∧
        (sub'.asyncList = sub.asyncList.erase p ∨ sub' = sub ∧ c.owner p ≠ some r)) ∧
      ∀ r, ((subs r).map fun h => (h.sid, h.cb)) = c.profile r := by
  obtain ⟨a, ha⟩ := Option.isSome_iff_exists.mp ((ho.accounts.alloc p).mpr List.mem_cons_self)
  cases hs : a.s with
  | none =>
    refine ⟨c.subs, ?_, fun r sub hr => ⟨sub, hr, .inr ⟨rfl, ?_⟩⟩, fun r => rfl⟩
    · simp only [Client.finish, ha, hs, Client.setAsync]
    · simp [Client.owner, ha, hs]
  | some q =>
    have howner : c.owner p = some q := by rw [Client.owner, ha, Option.bind_some, hs]
    obtain ⟨sub, hsub⟩ := Option.isSome_iff_exists.mp (ho.linked.live p q howner)
    refine ⟨fun r => if r = q then some { sub with asyncList := sub.asyncList.erase p }
      else c.subs r, ?_, fun r sub' hr => ?_, fun r => ?_⟩
    · simp only [Client.finish, ha, hs, hsub, Client.setAsync, Client.setSub]
    · simp only at hr
      split at hr
      · next heq =>
        subst heq
        cases hr
        exact ⟨sub, hsub, .inl rfl⟩
      · next hne =>
        refine ⟨sub', hr, .inr ⟨rfl, fun heq => ?_⟩⟩
        rw [howner] at heq
        exact hne (Option.some.inj heq).symm
    · simp only [Client.profile]
      split
      · next heq => rw [heq, hsub]; rfl
      · rfl

/-- What `finish` leaves of the state. -/
structure Finished (c : Client) (p : Addr) (c' : Client) : Prop where
  asyncs : ∀ r, c'.asyncs r = if r = p then none else c.asyncs r
  profile : ∀ r, c'.profile r = c.profile r
  pending : c'.pending = c.pending
  subc : c'.subc = c.subc
  calls : c'.calls = c.calls
  stack : c'.stack = c.stack

theorem Finished.owner {c' : Client} (hf : Finished c p c') (r : Addr) :
    c'.owner r = if r = p then none else c.owner r := by
  rw [Client.owner, hf.asyncs]
  split <;> rfl

theorem Finished.live {c' : Client} (hf : Finished c p c') (r : Addr) :
    (c'.subs r).isSome = (c.subs r).isSome := by
  rw [← c'.isSome_profile, hf.profile, c.isSome_profile]

theorem finish_spec (ho : Owned c (p :: held)) :
    Owned (c.finish p) held ∧ Finished c p (c.finish p) := by
  obtain ⟨subs, heq, hsubs, hprofile⟩ := c.finish_cases ho
  have hf : Finished c p (c.finish p) := by
    rw [heq]
    exact ⟨fun _ => rfl, hprofile, rfl, rfl, rfl, rfl⟩
  refine ⟨⟨?_, ?_, ?_⟩, hf⟩
  · rw [heq]
    exact ho.sound
  · rw [heq]
    exact ho.accounts.free (fun _ => rfl) rfl rfl
  · exact ho.linked.unlink hf.owner (by rw [heq]; exact hsubs) fun r hr => (hf.live r).trans hr

/-- No record of the list is gone, and all of them are detached. -/
theorem Owned.hpSubcFree_eq (ho : Owned c held) (hq : c.subs q = some h) :
    hpSubcFree c q = { c.setSub q none with
      asyncs := fun p => if p ∈ h.asyncList then (c.asyncs p).map fun _ => ⟨none⟩ else c.asyncs p } := by
  have hall : (h.asyncList.all fun p => (c.asyncs p).isSome) = true := by
    apply List.all_eq_true.mpr
    intro p hp
    have hown := (ho.linked.listed q h hq p).mp hp
    obtain ⟨a, ha, -⟩ := Option.bind_eq_some_iff.mp hown
    rw [ha]
    rfl
  simp only [hpSubcFree, hq, if_pos hall]

/-- A subscriber goes, and nothing points to it any more. -/
theorem Linked.drop {c' : Client} (hl : Linked c)
    (howner : ∀ r, c'.owner r = if c.owner r = some q then none else c.owner r)
    (hsubs : ∀ r, c'.subs r = if r = q then none else c.subs r) : Linked c' := by
  refine ⟨fun r sub hr => ?_, fun r sub hr x => ?_, fun x r hx => ?_⟩
  · rw [hsubs] at hr
    split at hr
    · cases hr
    · exact hl.nodup r sub hr
  · rw [hsubs] at hr
    split at hr
    · cases hr
    · next hne =>
      rw [hl.listed r sub hr x, howner]
      split
      · next hx => simp [hx, Ne.symm hne]
      · rfl
  · rw [howner] at hx
    rw [hsubs]
    split at hx
    · cases hx
    · next hne =>
      split
      · next hr => exact absurd (hr ▸ hx) hne
      · exact hl.live x r hx

theorem hpSubcFree_spec (ho : Owned c held) (hq : c.subs q = some h) :
    Owned (hpSubcFree c q) held ∧
      (∀ r, (hpSubcFree c q).owner r = if c.owner r = some q then none else c.owner r) ∧
      (∀ r, ((hpSubcFree c q).subs r).isSome = (decide (r ≠ q) && (c.subs r).isSome)) ∧
      (hpSubcFree c q).stack = c.stack ∧ (hpSubcFree c q).pending = c.pending := by
  have heq := ho.hpSubcFree_eq hq
  have howner : ∀ r, (hpSubcFree c q).owner r = if c.owner r = some q then none else c.owner r := by
    intro r
    rw [heq]
    by_cases hr : c.owner r = some q
    · rw [if_pos hr]
      simp only [Client.owner, if_pos ((ho.linked.listed q h hq r).mpr hr)]
      cases c.asyncs r <;> rfl
    · rw [if_neg hr]
      simp only [Client.owner, if_neg fun hin => hr ((ho.linked.listed q h hq r).mp hin)]
  have hsubs : ∀ r, (hpSubcFree c q).subs r = if r = q then none else c.subs r := by
    intro r
    rw [heq]
    rfl
  have hasyncs : ∀ r, ((hpSubcFree c q).asyncs r).isSome = (c.asyncs r).isSome := by
    intro r
    rw [heq]
    simp only
    split
    · exact Option.isSome_map
    · rfl
  refine ⟨⟨?_, ⟨fun r => ?_, ?_, ?_⟩, ho.linked.drop howner hsubs⟩, howner, fun r => ?_, ?_, ?_⟩
  · rw [heq]
    exact ho.sound
  · rw [hasyncs]
    exact ho.accounts.alloc r
  · rw [heq]
    exact ho.accounts.parts
  · rw [heq]
    exact ho.accounts.once
  · rw [hsubs]
    split
    · next hr => simp [hr]
    · next hr => simp [hr]
  · rw [heq]
    rfl
  · rw [heq]
    rfl

end

/-- The subscriber whose `subc` is being freed. -/
def Frame.closing : Frame → Option Addr
  | .disconnect q => some q
  | _ => none

/-- The record of a delivery that has messages left. -/
def Frame.left : Frame → Option Addr
  | .deliver as (_ :: _) => some as
  | _ => none

/-- What the waiting code relies on: a delivery with messages left still has its
subscriber, and a subscriber that is being freed is live, once, and not one of those. -/
structure Waiting (c : Client) : Prop where
  deliver : ∀ as d rest, .deliver as (d :: rest) ∈ c.stack → (c.owner as).isSome
  disconnect : ∀ q, .disconnect q ∈ c.stack → (c.subs q).isSome
  once : (c.stack.filterMap Frame.closing).Nodup
  apart : ∀ q as d rest, .disconnect q ∈ c.stack → .deliver as (d :: rest) ∈ c.stack →
    c.owner as ≠ some q

structure SubInv (c : Client) : Prop where
  owned : Owned c c.held
  waiting : Waiting c

section
variable {c : Client} {p q : Addr} {h : HpSub}

theorem mem_held_of_stack {frame : Frame} (hf : frame ∈ c.stack) (has : frame.as = some p) :
    p ∈ c.held :=
  List.mem_append_right _ (List.mem_filterMap.mpr ⟨frame, hf, has⟩)

theorem mem_closing {stack : List Frame} :
    q ∈ stack.filterMap Frame.closing ↔ .disconnect q ∈ stack := by
  rw [List.mem_filterMap]
  constructor
  · intro ⟨frame, hf, hq⟩
    cases frame <;> cases hq
    exact hf
  · intro hin
    exact ⟨_, hin, rfl⟩

/-- The waiting code does not notice what leaves its records and subscribers alone. -/
theorem Waiting.frame {c' : Client} (hw : Waiting c) (hstack : c'.stack = c.stack)
    (howner : ∀ as d rest, .deliver as (d :: rest) ∈ c.stack → c'.owner as = c.owner as)
    (hsubs : ∀ q, .disconnect q ∈ c.stack → (c'.subs q).isSome = (c.subs q).isSome) : Waiting c' := by
  refine ⟨fun as d rest hin => ?_, fun q hin => ?_, ?_, fun q as d rest hq hin => ?_⟩
  · rw [hstack] at hin
    rw [howner as d rest hin]
    exact hw.deliver as d rest hin
  · rw [hstack] at hin
    rw [hsubs q hin]
    exact hw.disconnect q hin
  · rw [hstack]
    exact hw.once
  · rw [hstack] at hq hin
    rw [howner as d rest hin]
    exact hw.apart q as d rest hq hin

theorem Waiting.tail {frame : Frame} {stack : List Frame} (hw : Waiting c)
    (hstack : c.stack = frame :: stack) : Waiting { c with stack := stack } where
  deliver as d rest hin := hw.deliver as d rest (hstack ▸ List.mem_cons_of_mem _ hin)
  disconnect q hin := hw.disconnect q (hstack ▸ List.mem_cons_of_mem _ hin)
  once := by
    have honce := hw.once
    rw [hstack] at honce
    exact honce.sublist ((List.sublist_cons_self _ _).filterMap _)
  apart q as d rest hq hin :=
    hw.apart q as d rest (hstack ▸ List.mem_cons_of_mem _ hq) (hstack ▸ List.mem_cons_of_mem _ hin)

/-- A `cb` called by code that is neither a delivery nor a teardown. -/
theorem Waiting.push (hw : Waiting c) {frame : Frame} (call : CbCall)
    (hdeliver : ∀ as d rest, frame ≠ .deliver as (d :: rest)) (hclose : frame.closing = none) :
    Waiting (c.callCb q call frame) where
  deliver as d rest hin := by
    rcases List.mem_cons.mp hin with heq | hin
    · exact absurd heq.symm (hdeliver as d rest)
    · exact hw.deliver as d rest hin
  disconnect r hin := by
    rcases List.mem_cons.mp hin with heq | hin
    · rw [← heq] at hclose
      cases hclose
    · exact hw.disconnect r hin
  once := by
    change ((frame :: c.stack).filterMap Frame.closing).Nodup
    rw [List.filterMap_cons_none hclose]
    exact hw.once
  apart r as d rest hr hin := by
    rcases List.mem_cons.mp hr with heq | hr
    · rw [← heq] at hclose
      cases hclose
    rcases List.mem_cons.mp hin with heq | hin
    · exact absurd heq.symm (hdeliver as d rest)
    · exact hw.apart r as d rest hr hin

theorem Owned.push {frame : Frame} (ho : Owned c (frame.as.toList ++ c.held)) (call : CbCall) :
    Owned (c.callCb q call frame) (c.callCb q call frame).held := by
  have hheld : (c.callCb q call frame).held =
      c.pending.filterMap (fun sent => sent.fn.as) ++
        (frame.as.toList ++ c.stack.filterMap Frame.as) := by
    simp only [Client.held, Client.callCb, List.filterMap_cons]
    cases frame.as <;> rfl
  rw [hheld]
  refine (ho.perm ?_).frame rfl rfl rfl rfl rfl
  rw [Client.held, ← List.append_assoc, ← List.append_assoc]
  exact List.perm_append_comm.append_right _

theorem SubInv.finish (ho : Owned c (p :: c.held)) (hw : Waiting c) : SubInv (c.finish p) := by
  obtain ⟨hown, hf⟩ := finish_spec ho
  have hnot : p ∉ c.held := fun hin =>
    (List.nodup_cons.mp ho.accounts.once).1 (List.mem_append_left _ hin)
  refine ⟨?_, hw.frame hf.stack (fun as d rest hin => ?_) (fun q _ => hf.live q)⟩
  · rw [Client.held, hf.stack, hf.pending]
    exact hown
  · rw [hf.owner, if_neg fun (heq : as = p) => hnot (heq ▸ mem_held_of_stack hin rfl)]

/-- The delivery loop, up to the next `cb` or its end. With messages left the record
has its subscriber, which is not being freed. -/
theorem SubInv.deliver {rest : List (Text × Message)} (ho : Owned c (p :: c.held)) (hw : Waiting c)
    (hp : rest ≠ [] → (c.owner p).isSome)
    (hapart : rest ≠ [] → ∀ q, .disconnect q ∈ c.stack → c.owner p ≠ some q) :
    SubInv (c.deliver p rest) := by
  induction rest with
  | nil => exact SubInv.finish ho hw
  | cons d rest ih =>
    obtain ⟨q, hq⟩ := Option.isSome_iff_exists.mp (hp (List.cons_ne_nil _ _))
    obtain ⟨h, hsub⟩ := Option.isSome_iff_exists.mp (ho.linked.live p q hq)
    have hbind : ((c.asyncs p).bind fun a => a.s) = some q := hq
    simp only [Client.deliver, hbind, hsub]
    split
    · refine ⟨Owned.push ho _, ?_⟩
      refine ⟨fun as e rest' hin => ?_, fun r hin => ?_, ?_, fun r as e rest' hr hin => ?_⟩
      · rcases List.mem_cons.mp hin with heq | hin
        · cases heq
          exact hp (List.cons_ne_nil _ _)
        · exact hw.deliver as e rest' hin
      · rcases List.mem_cons.mp hin with heq | hin
        · cases heq
        · exact hw.disconnect r hin
      · exact hw.once
      · rcases List.mem_cons.mp hr with heq | hclose
        · cases heq
        rcases List.mem_cons.mp hin with heq | hin
        · cases heq
          exact hapart (List.cons_ne_nil _ _) r hclose
        · exact hw.apart r as e rest' hclose hin
    · exact ih (fun _ => hp (List.cons_ne_nil _ _)) (fun _ => hapart (List.cons_ne_nil _ _))

/-- A subscriber is freed that no delivery with messages left belongs to. -/
theorem SubInv.free (hi : SubInv c) (hq : (c.subs q).isSome) (hclose : .disconnect q ∉ c.stack)
    (hrest : ∀ as d rest, .deliver as (d :: rest) ∈ c.stack → c.owner as ≠ some q) :
    SubInv (hpSubcFree c q) := by
  obtain ⟨h, hsub⟩ := Option.isSome_iff_exists.mp hq
  obtain ⟨hown, howner, hlive, hstack, hpending⟩ := hpSubcFree_spec hi.owned hsub
  refine ⟨?_, hi.waiting.frame hstack (fun as d rest hin => ?_) (fun r hin => ?_)⟩
  · rw [Client.held, hstack, hpending]
    exact hown
  · rw [howner, if_neg (hrest as d rest hin)]
  · have hne : r ≠ q := fun heq => hclose (heq ▸ hin)
    rw [hlive, decide_eq_true hne, Bool.true_and]

/-- A record is made and its command is sent. -/
theorem SubInv.newAsync (hi : SubInv c) (hsub : c.subs q = some h) (cmd : Cmd) {fn : CFn}
    (hfn : fn.as = some c.next) : SubInv ((c.newAsync q h).send cmd fn true) := by
  have hown := hi.owned.newAsync hsub
  refine ⟨?_, ?_⟩
  · have hheld : ((c.newAsync q h).send cmd fn true).held =
        c.pending.filterMap (fun sent => sent.fn.as) ++
          c.next :: c.stack.filterMap Frame.as := by
      simp only [Client.held, Client.send, if_true, Client.newAsync, Client.setSub, Client.setAsync,
        List.filterMap_append, List.filterMap_cons, List.filterMap_nil, hfn, List.append_assoc,
        List.singleton_append]
    rw [hheld]
    exact (hown.perm List.perm_middle.symm).frame rfl rfl rfl rfl rfl
  · refine hi.waiting.frame rfl (fun as d rest hin => ?_) (fun r hin => ?_)
    · have hlt : as < c.next :=
        (hi.owned.accounts.parts as).mpr (.inl (mem_held_of_stack hin rfl))
      change (c.newAsync q h).owner as = c.owner as
      rw [newAsync_owner, if_neg (Nat.ne_of_lt hlt)]
    · change ((c.newAsync q h).subs r).isSome = (c.subs r).isSome
      rw [newAsync_subs]
      split
      · next heq => rw [heq, hsub]; rfl
      · rfl

end

/-- The two things that go wrong are left out: a command with a record fails, or a `cb`
frees its subscriber when more messages of the same reply are to be delivered to it. -/
def SubOk (c : Client) : SubAct → Prop
  | .hpSub _ topics ok _ => topics = [] → ok = true
  | .push _ (some p) ok => p.queries = true → ok = true
  | .teardown q _ => ∀ frame ∈ c.stack, ∀ as ∈ frame.left, c.owner as ≠ some q
  | _ => True

instance (c : Client) (a : SubAct) : Decidable (SubOk c a) := by
  unfold SubOk
  split <;> infer_instance

section
variable {c c' : Client}

/-- The command on `c` needs no record, or its outcome does not matter. -/
theorem SubInv.send_other (hi : SubInv c) (cmd : Cmd) (ok : Bool) :
    SubInv (c.send cmd .other ok) := by
  unfold Client.send
  split
  · refine ⟨?_, hi.waiting.frame rfl (fun _ _ _ _ => rfl) (fun _ _ => rfl)⟩
    have hheld : Client.held { c with pending := c.pending ++ [⟨cmd, .other⟩] } = c.held := by
      simp only [Client.held, List.filterMap_append, List.filterMap_cons, CFn.as,
        List.filterMap_nil, List.append_nil]
    rw [hheld]
    exact hi.owned.frame rfl rfl rfl rfl rfl
  · exact hi

/-- Nothing but the outgoing data of a `subc` changes. -/
theorem SubInv.subc (hi : SubInv c) (subc : Addr → List SubCmd) : SubInv { c with subc := subc } :=
  ⟨hi.owned.frame rfl rfl rfl rfl rfl, hi.waiting.frame rfl (fun _ _ _ _ => rfl) (fun _ _ => rfl)⟩

theorem SubInv.hpSub (hi : SubInv c) {q : Addr} {h : HpSub} (hsub : c.subs q = some h)
    {topics : List Text} {ok okSub : Bool} (hok : topics = [] → ok = true) :
    SubInv (hpSub c q h topics ok okSub) := by
  unfold Libhp.Pub.hpSub
  split
  · have hsend := hi.send_other (.evalSup topics h.sid) ok
    unfold hpSubDosub
    split
    · exact hsend.subc _
    · split
      · exact ⟨Owned.push hsend.owned _, hsend.waiting.push _ (fun _ _ _ heq => by cases heq) rfl⟩
      · exact hsend
  · next htopics =>
    rw [hok (not_not.mp htopics)]
    exact hi.newAsync hsub _ rfl

theorem SubInv.msgCb (hi : SubInv c) {q : Addr} {h : HpSub} (hsub : c.subs q = some h)
    {p : Option Push} {ok : Bool} (hok : ∀ push ∈ p, push.queries = true → ok = true) :
    SubInv (msgCb c q h p ok) := by
  unfold Libhp.Pub.msgCb
  split
  · exact hi
  · split
    · exact ⟨Owned.push hi.owned _, hi.waiting.push _ (fun _ _ _ heq => by cases heq) rfl⟩
    · exact hi
  · split
    · next hquery =>
      rw [hok _ rfl hquery]
      exact hi.newAsync hsub _ rfl
    · exact hi

/-- A reply is taken off the queue, and its callback holds the record. -/
theorem SubInv.taken {fn : CFn} {cmd : Cmd} {pending : List Sent} {p : Addr} (hi : SubInv c)
    (hpending : c.pending = ⟨cmd, fn⟩ :: pending) (hfn : fn.as = some p) :
    Owned { c with pending := pending } (p :: Client.held { c with pending := pending }) ∧
      Waiting { c with pending := pending } := by
  refine ⟨?_, hi.waiting.frame rfl (fun _ _ _ _ => rfl) (fun _ _ => rfl)⟩
  have hheld : c.held = p :: Client.held { c with pending := pending } := by
    simp only [Client.held, hpending, List.filterMap_cons, hfn, List.cons_append]
  exact (hheld ▸ hi.owned).frame rfl rfl rfl rfl rfl

theorem SubInv.allCb {p : Addr} (ho : Owned c (p :: c.held)) (hw : Waiting c)
    (hstack : c.stack = []) (r : Option Reply) : SubInv (hpSubAllCb c p r) := by
  obtain ⟨a, ha⟩ := Option.isSome_iff_exists.mp ((ho.accounts.alloc p).mpr List.mem_cons_self)
  simp only [hpSubAllCb, ha]
  split
  · exact SubInv.finish ho hw
  · next hs =>
    split
    · refine SubInv.deliver ho hw (fun _ => ?_) (fun _ q hin => ?_)
      · rw [Client.owner, ha, Option.bind_some]
        exact Option.isSome_iff_ne_none.mpr hs
      · rw [hstack] at hin
        cases hin
    · exact SubInv.finish ho hw

theorem SubInv.sessionCb {p : Addr} (ho : Owned c (p :: c.held)) (hw : Waiting c)
    (r : Option Reply) (ok : Bool) : SubInv (hpSubSessionCb c p r ok) := by
  obtain ⟨a, ha⟩ := Option.isSome_iff_exists.mp ((ho.accounts.alloc p).mpr List.mem_cons_self)
  have hfinish := SubInv.finish ho hw
  have hreport : ∀ q, SubInv (c.callCb q .error (.session p)) := fun q =>
    ⟨Owned.push ho _, hw.push _ (fun _ _ _ heq => by cases heq) rfl⟩
  simp only [hpSubSessionCb, ha]
  split
  · exact hfinish
  · next q hs =>
    have howner : c.owner p = some q := by rw [Client.owner, ha, Option.bind_some, hs]
    obtain ⟨h, hsub⟩ := Option.isSome_iff_exists.mp (ho.linked.live p q howner)
    simp only [hsub]
    split
    · split
      · exact hreport q
      · exact hfinish
    · split
      · exact hreport q
      · exact hfinish
    · split
      · exact hfinish
      · cases ok with
        | true =>
          exact SubInv.finish (ho.frame rfl rfl rfl rfl rfl)
            (hw.frame rfl (fun _ _ _ _ => rfl) (fun _ _ => rfl))
        | false =>
          cases hcb : h.cb with
          | true =>
            simp only [hpSubDosub, hcb, Bool.false_eq_true, if_false, if_true]
            exact hreport q
          | false =>
            simp only [hpSubDosub, hcb, Bool.false_eq_true, if_false]
            exact hfinish
    · exact hfinish

/-- The frame on top is taken off, and its code holds the record. -/
theorem SubInv.owned_tail {frame : Frame} {stack : List Frame} (hi : SubInv c)
    (hstack : c.stack = frame :: stack) :
    Owned { c with stack := stack }
      (frame.as.toList ++ Client.held { c with stack := stack }) := by
  have hheld : c.held.Perm (frame.as.toList ++ Client.held { c with stack := stack }) := by
    simp only [Client.held, hstack, List.filterMap_cons]
    cases frame.as with
    | none => exact List.Perm.refl _
    | some p => exact List.perm_middle
  exact (hi.owned.perm hheld).frame rfl rfl rfl rfl rfl

theorem SubInv.resume {frame : Frame} {stack : List Frame} (hi : SubInv c)
    (hstack : c.stack = frame :: stack) : SubInv (Client.resume { c with stack := stack } frame) := by
  have htail := hi.waiting.tail hstack
  have hown := hi.owned_tail hstack
  have hin : frame ∈ c.stack := hstack ▸ List.mem_cons_self
  cases frame with
  | deliver p rest =>
    refine SubInv.deliver hown htail (fun hne => ?_) (fun hne q hq => ?_)
    · obtain ⟨d, rest, rfl⟩ := List.exists_cons_of_ne_nil hne
      exact hi.waiting.deliver p d rest hin
    · obtain ⟨d, rest, rfl⟩ := List.exists_cons_of_ne_nil hne
      exact hi.waiting.apart q p d rest (hstack ▸ List.mem_cons_of_mem _ hq) hin
  | session p => exact SubInv.finish hown htail
  | dosub => exact ⟨hown, htail⟩
  | unsubscribed q => exact ⟨hown, htail⟩
  | disconnect q =>
    refine SubInv.free ⟨hown, htail⟩ (hi.waiting.disconnect q hin) (fun hq => ?_)
      (fun as d rest hd => ?_)
    · have honce := hi.waiting.once
      rw [hstack] at honce
      exact (List.nodup_cons.mp honce).1 (mem_closing.mpr hq)
    · exact hi.waiting.apart q as d rest hin (hstack ▸ List.mem_cons_of_mem _ hd)

theorem SubInv.teardown (hi : SubInv c) {q : Addr} {h : HpSub} {connected : Bool}
    (hsub : c.subs q = some h) (hclose : .disconnect q ∉ c.stack)
    (hrest : ∀ as d rest, .deliver as (d :: rest) ∈ c.stack → c.owner as ≠ some q) :
    SubInv (if connected ∧ h.cb then c.callCb q .error (.disconnect q) else hpSubcFree c q) := by
  have hlive : (c.subs q).isSome := by rw [hsub]; rfl
  split
  · refine ⟨Owned.push hi.owned _, ?_⟩
    refine ⟨fun as d rest hin => ?_, fun r hin => ?_, ?_, fun r as d rest hr hin => ?_⟩
    · rcases List.mem_cons.mp hin with heq | hin
      · cases heq
      · exact hi.waiting.deliver as d rest hin
    · rcases List.mem_cons.mp hin with heq | hin
      · cases heq
        exact hlive
      · exact hi.waiting.disconnect r hin
    · exact List.nodup_cons.mpr ⟨fun hin => hclose (mem_closing.mp hin), hi.waiting.once⟩
    · rcases List.mem_cons.mp hin with heq | hin
      · cases heq
      rcases List.mem_cons.mp hr with heq | hr
      · cases heq
        exact hrest as d rest hin
      · exact hi.waiting.apart r as d rest hr hin
  · exact hi.free hlive hclose hrest

theorem subStep_inv {a : SubAct} (hi : SubInv c) (hstep : subStep c a = some c') (hok : SubOk c a) :
    SubInv c' := by
  cases a with
  | hpSub q topics ok okSub =>
    obtain ⟨h, hsub, rfl⟩ := Option.map_eq_some_iff.mp hstep
    exact hi.hpSub hsub hok
  | hpUnsub q ok =>
    obtain ⟨h, -, rfl⟩ := Option.map_eq_some_iff.mp hstep
    split
    · exact hi.subc _
    · exact hi
  | command cmd ok =>
    cases hstep
    exact hi.send_other cmd ok
  | teardown q connected =>
    simp only [subStep] at hstep
    split at hstep
    · cases hstep
    · next hfree =>
      obtain ⟨h, hsub, rfl⟩ := Option.map_eq_some_iff.mp hstep
      exact hi.teardown hsub (fun hin => hfree (.inl hin))
        fun as d rest hin => hok _ hin as rfl
  | ret =>
    simp only [subStep] at hstep
    split at hstep
    · cases hstep
    · next frame stack hstack =>
      cases hstep
      exact hi.resume hstack
  | reply r okSub =>
    simp only [subStep] at hstep
    split at hstep
    · next sent pending hstack hpending =>
      obtain ⟨cmd, fn⟩ := sent
      cases fn with
      | other =>
        cases hstep
        refine ⟨?_, hi.waiting.frame rfl (fun _ _ _ _ => rfl) (fun _ _ => rfl)⟩
        have hheld : c.held = Client.held { c with pending := pending } := by
          simp only [Client.held, hpending, List.filterMap_cons, CFn.as]
        exact (hheld ▸ hi.owned).frame rfl rfl rfl rfl rfl
      | hpSubAllCb p =>
        cases hstep
        obtain ⟨ho, hw⟩ := hi.taken hpending rfl
        exact SubInv.allCb ho hw hstack r
      | hpSubSessionCb p =>
        cases hstep
        obtain ⟨ho, hw⟩ := hi.taken hpending rfl
        exact SubInv.sessionCb ho hw r okSub
    · cases hstep
  | push q p ok =>
    simp only [subStep] at hstep
    split at hstep
    · obtain ⟨h, hsub, rfl⟩ := Option.map_eq_some_iff.mp hstep
      apply hi.msgCb hsub
      intro push hpush hquery
      rw [Option.mem_def.mp hpush] at hok
      exact hok hquery
    · cases hstep

end

/-- What is claimed of a state: a pending record is in the list of a subscriber iff it
points to it, and it points to a live one or to none; each record that is no longer
pending has been freed once, and no other; nothing freed or NULL has been used. -/
structure Client.Tracked (c : Client) : Prop where
  linked : ∀ p ∈ c.held, ∃ a, c.asyncs p = some a ∧
    (∀ q, a.s = some q → (c.subs q).isSome) ∧
    ∀ q h, c.subs q = some h → (p ∈ h.asyncList ↔ a.s = some q)
  freed : ∀ p < c.next, c.freed.count p = if p ∈ c.held then 0 else 1
  sound : c.fault = false

theorem clientStart_inv (subs : Addr → Option (Text × Bool)) : SubInv (clientStart subs) where
  owned := clientStart_owned subs
  waiting :=
    ⟨fun _ _ _ hin => absurd hin List.not_mem_nil, fun _ hin => absurd hin List.not_mem_nil,
      List.nodup_nil, fun _ _ _ _ hin => absurd hin List.not_mem_nil⟩

theorem SubInv.tracked {c : Client} (hi : SubInv c) : c.Tracked where
  linked p hp := by
    obtain ⟨a, ha⟩ := Option.isSome_iff_exists.mp ((hi.owned.accounts.alloc p).mpr hp)
    have howner : c.owner p = a.s := by rw [Client.owner, ha, Option.bind_some]
    refine ⟨a, ha, fun q hq => hi.owned.linked.live p q (howner.trans hq), fun q h hsub => ?_⟩
    rw [hi.owned.linked.listed q h hsub p, howner]
  freed p hp := by
    obtain ⟨-, hfreed, hdisj⟩ := List.nodup_append.mp hi.owned.accounts.once
    split
    · next hheld => exact List.count_eq_zero_of_not_mem fun hin => hdisj p hheld p hin rfl
    · next hheld =>
      have hin := ((hi.owned.accounts.parts p).mp hp).resolve_left hheld
      exact List.count_eq_one_of_mem hfreed hin
  sound := hi.owned.sound

/-- Every record keeps its owner to the end, in every run that stays clear of a failed
command and of a teardown inside an unfinished delivery. -/
theorem records_tracked {subs : Addr → Option (Text × Bool)} {c : Client}
    (hrun : Run.Along subStep SubOk (clientStart subs) c) : c.Tracked :=
  (hrun.invariant (I := SubInv) (clientStart_inv subs) fun _ _ _ hi hstep hok =>
    subStep_inv hi hstep hok).tracked

/-- Two subscribers share `c`; one is torn down while its `HKEYS` is on the way. -/
theorem records_tracked_teardown :
    ∃ c, Run.Along subStep SubOk (clientStart fun _ => some ([], true)) c ∧
      c.held ≠ [] ∧ c.freed ≠ [] ∧ c.Tracked := by
  obtain ⟨c, hrun, hheld, hfreed⟩ : ∃ c,
      Run.Along subStep SubOk (clientStart fun _ => some ([], true)) c ∧
        c.held ≠ [] ∧ c.freed ≠ [] :=
    Run.along_any (fun (c : Client) (a : SubAct) => decide (SubOk c a))
      [.hpSub 0 [] true true, .hpSub 1 [] true true, .teardown 0 true, .ret, .reply none true]
      (fun _ _ h => of_decide_eq_true h) (fun c => c.held ≠ [] ∧ c.freed ≠ []) (by decide +kernel)
  exact ⟨c, hrun, hheld, hfreed, records_tracked hrun⟩

/-- A reply has two messages for the subscriber, whose `cb` frees it at the first. -/
theorem records_not_tracked : ¬ ∀ (subs : Addr → Option (Text × Bool)) (c : Client),
    Run.Along subStep (fun _ _ => True) (clientStart subs) c → c.Tracked := by
  intro hall
  obtain ⟨c, hrun, hfault⟩ : ∃ c,
      Run.Along subStep (fun _ _ => True) (clientStart fun _ => some ([], true)) c ∧
        c.fault = true :=
    Run.along_any (fun (_ : Client) (_ : SubAct) => true)
      [.push 0 (some (.subscribe [116] 1)) true,
        .reply (some (.msgs [([116], [([97], 1), ([98], 2)])])) true,
        .teardown 0 false, .ret]
      (fun _ _ _ => trivial) (fun c => c.fault = true) (by decide +kernel)
  have hsound := (hall _ c hrun).sound
  rw [hfault] at hsound
  cases hsound

end Libhp.Pub
