import Libhp.Pub.SubPtr

/-!
# The lists in memory are the lists

A run of the code that links nodes is a run of the code that has lists, and no node is
read or written that is NULL or freed.
-/
namespace Libhp.Pub.Ptr

open Libhp.Klist

section
variable {c : Client} {a : Pub.Client} {lists : Addr → List Addr} {p q : Addr}
variable {held : List Addr}

theorem heads_update (hq : (c.subs q).isSome) (xs : List Addr) :
    put (c.heads lists) (.asyncList q) (xs.map .node) =
      c.heads (Function.update lists q xs) := by
  obtain ⟨h, hq⟩ := Option.isSome_iff_exists.mp hq
  funext x
  cases x with
  | node p => rw [put, Function.update_of_ne (by simp)]; rfl
  | asyncList r =>
    by_cases hr : r = q
    · subst hr
      rw [put, Function.update_self, Client.heads, hq, Function.update_self, Option.map_some]
    · rw [put, Function.update_of_ne (by simpa using hr), Client.heads, Client.heads,
        Function.update_of_ne hr]

theorem heads_free (hout : ∀ r, (c.subs r).isSome → p ∉ lists r) :
    Ring.Free (c.heads lists) (.node p) := by
  intro k ys hk hin
  cases k with
  | node r => cases hk
  | asyncList r =>
    obtain ⟨h, hr, rfl⟩ := Option.map_eq_some_iff.mp hk
    have hin' : p ∈ lists r := by simpa using hin
    exact hout r (by rw [hr]; rfl) hin'

theorem abs_subs (hq : (c.subs q).isSome) (xs : List Addr) :
    (fun r => if r = q then (c.subs q).map (fun h => ⟨h.1, h.2, xs⟩) else (c.abs lists).subs r) =
      (c.abs (Function.update lists q xs)).subs := by
  funext r
  by_cases hr : r = q
  · subst hr
    simp only [if_true, Client.abs, Function.update_self]
  · simp only [if_neg hr, Client.abs, Function.update_of_ne hr]

theorem listed_iff (hl : Linked (c.abs lists)) (hq : (c.subs q).isSome) (p : Addr) :
    p ∈ lists q ↔ (c.abs lists).owner p = some q := by
  obtain ⟨h, hq⟩ := Option.isSome_iff_exists.mp hq
  exact hl.listed q ⟨h.1, h.2, lists q⟩ (by simp only [Client.abs, hq, Option.map_some]) p

theorem alloc_of_listed {h : HpSub} (hl : Linked a) (hq : a.subs q = some h)
    (hp : p ∈ h.asyncList) : (a.asyncs p).isSome := by
  obtain ⟨x, hx, -⟩ := Option.bind_eq_some_iff.mp ((hl.listed q h hq p).mp hp)
  rw [hx]
  rfl

theorem length_le_next {h : HpSub} (ho : Owned a held) (hq : a.subs q = some h) :
    h.asyncList.length ≤ a.next := by
  refine ((ho.linked.nodup q h hq).subperm fun p hp => ?_).length_le.trans_eq List.length_range
  have hheld := (ho.accounts.alloc p).mp (alloc_of_listed ho.linked hq hp)
  exact List.mem_range.mpr ((ho.accounts.parts p).mpr (.inl hheld))

theorem clientStart_refines (subs : Addr → Option (Text × Bool)) :
    Refines (clientStart subs) (Pub.clientStart subs) := by
  refine ⟨fun _ => [], rfl, ⟨fun x hx => ?_, ⟨fun k xs hk => ?_, fun k xs l ys x hk hl hx hx' => ?_⟩⟩⟩
  · cases x with
    | node p => cases hx
    | asyncList q => exact Option.isSome_map.trans hx
  · cases k with
    | node p => cases hk
    | asyncList q =>
      obtain ⟨h, hq, rfl⟩ := Option.map_eq_some_iff.mp hk
      have hq' : subs q = some h := hq
      refine Ring.IsRing.singleton ?_ ?_
      · simp only [Heap.next, clientStart, hq', Option.map_some, Option.bind_some]
      · simp only [Heap.prev, clientStart, hq', Option.map_some, Option.bind_some]
  · cases k with
    | node p => cases hk
    | asyncList q =>
      cases l with
      | node p => cases hl
      | asyncList r =>
        obtain ⟨h, -, rfl⟩ := Option.map_eq_some_iff.mp hk
        obtain ⟨h', -, rfl⟩ := Option.map_eq_some_iff.mp hl
        rw [List.map_nil, List.mem_singleton] at hx hx'
        exact hx.symm.trans hx'

theorem newAsync_refines (hm : Holds c.Mapped c.heap (c.heads lists))
    (ho : Owned (c.abs lists) held) {h : Text × Bool} (hq : c.subs q = some h) :
    Refines (c.newAsync q) ((c.abs lists).newAsync q ⟨h.1, h.2, lists q⟩) := by
  have hqs : (c.subs q).isSome := by rw [hq]; rfl
  have hfresh : ∀ r, (c.subs r).isSome → c.next ∉ lists r := by
    intro r hr hin
    have howner := (listed_iff ho.linked hr c.next).mp hin
    rw [Pub.Client.owner, show (c.abs lists).asyncs c.next = none from ho.fresh] at howner
    cases howner
  have hfree : Ring.Free (c.heads lists) (.node c.next) := heads_free hfresh
  have hhead : c.heads lists (.asyncList q) = some ((lists q).map .node) := by
    simp only [Client.heads, hq, Option.map_some]
  have hzero : Holds (fun x => x = .node c.next ∨ c.Mapped x)
      (Function.update c.heap (.node c.next) (some ⟨none, none⟩)) (c.heads lists) :=
    hm.store hfree (fun x hx hne => hx.resolve_left hne) fun _ => rfl
  obtain ⟨heap, hadd, hm'⟩ := hzero.addTail (hzero.mapped _ (.inl rfl)) hfree hhead
  rw [← List.map_singleton, ← List.map_append, heads_update hqs] at hm'
  have hnew : c.newAsync q =
      { c.setAsync c.next (some ⟨some q⟩) with heap, next := c.next + 1 } := by
    simp only [Client.newAsync, hadd]
  refine ⟨Function.update lists q (lists q ++ [c.next]), ?_, ?_⟩
  · rw [hnew]
    have hsubs := @abs_subs c lists q hqs (lists q ++ [c.next])
    rw [hq, Option.map_some] at hsubs
    simp only [Pub.Client.newAsync, Pub.Client.setSub, Pub.Client.setAsync, Client.abs,
      Client.setAsync] at hsubs ⊢
    rw [hsubs]
    rfl
  · rw [hnew]
    refine ⟨fun x hx => hm'.mapped x ?_, hm'.rings⟩
    cases x with
    | asyncList r => exact .inr hx
    | node r =>
      by_cases hr : r = c.next
      · exact .inl (congrArg _ hr)
      · refine .inr ?_
        simpa only [Client.Mapped, Client.setAsync, if_neg hr] using hx

/-- `free` of a record whose node is in no list. -/
theorem free_holds (hm : Holds c.Mapped c.heap (c.heads lists))
    (hfree : Ring.Free (c.heads lists) (.node p)) :
    Holds (c.free p).Mapped (c.free p).heap ((c.free p).heads lists) := by
  refine hm.store hfree (fun x hx hne => ?_) fun hx => ?_
  · cases x with
    | asyncList q => exact hx
    | node r =>
      have hr : r ≠ p := fun heq => hne (congrArg _ heq)
      simpa only [Client.Mapped, Client.free, Client.setAsync, if_neg hr] using hx
  · simp [Client.Mapped, Client.free, Client.setAsync] at hx

theorem finish_refines (hr : Refines c a) (hl : Linked a) (hok : (a.finish p).fault = false) :
    Refines (c.finish p) (a.finish p) := by
  obtain ⟨lists, rfl, hm⟩ := hr
  cases has : c.asyncs p with
  | none =>
    have has' : (c.abs lists).asyncs p = none := has
    rw [Pub.Client.finish, has'] at hok
    cases hok
  | some x =>
    have has' : (c.abs lists).asyncs p = some x := has
    have howner : (c.abs lists).owner p = x.s := by rw [Pub.Client.owner, has', Option.bind_some]
    cases hs : x.s with
    | none =>
      have hfree : Ring.Free (c.heads lists) (.node p) := heads_free fun r hr hin => by
        rw [listed_iff hl hr, howner, hs] at hin
        cases hin
      have hnew : c.finish p = c.free p := by simp only [Client.finish, has, hs]
      refine ⟨lists, ?_, by rw [hnew]; exact free_holds hm hfree⟩
      simp only [Pub.Client.finish, has', hs, hnew]
      rfl
    | some q =>
      have hlive : ((c.abs lists).subs q).isSome := hl.live p q (howner.trans hs)
      obtain ⟨h, hq⟩ := Option.isSome_iff_exists.mp (Option.isSome_map.symm.trans hlive)
      have hqs : (c.subs q).isSome := by rw [hq]; rfl
      have hq' : (c.abs lists).subs q = some ⟨h.1, h.2, lists q⟩ := by
        simp only [Client.abs, hq, Option.map_some]
      have hin : p ∈ lists q := (listed_iff hl hqs p).mpr (howner.trans hs)
      obtain ⟨ys, zs, hys, hsplit, herase⟩ := List.exists_erase_eq hin
      have hhead : c.heads lists (.asyncList q) =
          some (ys.map .node ++ [.node p] ++ zs.map .node) := by
        simp [Client.heads, hq, hsplit]
      obtain ⟨heap, hdel, hm', hfree⟩ := hm.del hhead
      rw [← List.map_append, heads_update hqs] at hm' hfree
      have hnew : c.finish p = { c with heap }.free p := by
        simp only [Client.finish, has, hs, hdel]
      refine ⟨Function.update lists q (ys ++ zs), ?_, ?_⟩
      · have hsubs := @abs_subs c lists q hqs (ys ++ zs)
        rw [hq, Option.map_some] at hsubs
        simp only [Pub.Client.finish, has', hs, hq', hnew, Pub.Client.setSub, Pub.Client.setAsync,
          herase, Client.free, Client.setAsync]
        rw [hsubs]
        rfl
      · rw [hnew]
        exact free_holds (c := { c with heap }) hm' hfree

/-- Where the loop of `hp_subc_free` is: the records of `todo` are still listed. -/
def Detaching (c : Client) (lists : Addr → List Addr) (q : Addr) (xs : List NodeAddr)
    (s : Client) : Prop :=
  ∃ gone todo, lists q = gone ++ todo ∧ xs = todo.map .node ∧
    s = { c with
      asyncs := fun p => if p ∈ gone then (c.asyncs p).map fun _ => ⟨none⟩ else c.asyncs p
      heap := s.heap } ∧
    Holds c.Mapped s.heap (c.heads (Function.update lists q todo))

theorem Detaching.ring {lists : Addr → List Addr} {xs : List NodeAddr} {s : Client}
    (hd : Detaching c lists q xs s) (hq : (c.subs q).isSome) :
    Ring.IsRing s.heap.next s.heap.prev (.asyncList q) xs := by
  obtain ⟨h, hq⟩ := Option.isSome_iff_exists.mp hq
  obtain ⟨gone, todo, -, rfl, -, hm⟩ := hd
  apply hm.rings.ring _ _
  simp only [Client.heads, hq, Option.map_some, Function.update_self]

/-- The loop deletes a node and detaches its record. -/
theorem Detaching.detach {x : NodeAddr} {xs : List NodeAddr} {s : Client}
    (hd : Detaching c lists q (x :: xs) s) (hq : (c.subs q).isSome) (hnodup : (lists q).Nodup)
    (hlive : ∀ p ∈ lists q, (c.asyncs p).isSome) :
    ∃ s', Ptr.detach x s = some s' ∧ Detaching c lists q xs s' := by
  obtain ⟨h, hqh⟩ := Option.isSome_iff_exists.mp hq
  obtain ⟨gone, todo, hsplit, hxs, hs, hm⟩ := hd
  obtain ⟨p, todo, rfl, rfl, rfl⟩ := List.map_eq_cons_iff.mp hxs.symm
  have hp : p ∉ gone := fun hin =>
    (List.nodup_append.mp (hsplit ▸ hnodup)).2.2 p hin p List.mem_cons_self rfl
  obtain ⟨r, hr⟩ := Option.isSome_iff_exists.mp
    (hlive p (hsplit ▸ List.mem_append_right _ List.mem_cons_self))
  have hsp : s.asyncs p = some r := by rw [hs]; simp only [if_neg hp, hr]
  have hhead : c.heads (Function.update lists q (p :: todo)) (.asyncList q) =
      some ([] ++ [.node p] ++ todo.map .node) := by
    simp only [Client.heads, hqh, Option.map_some, Function.update_self, List.map_cons,
      List.nil_append, List.singleton_append]
  obtain ⟨heap, hdel, hm', -⟩ := hm.del hhead
  rw [List.nil_append, heads_update hq, Function.update_idem] at hm'
  refine ⟨{ s.setAsync p (some ⟨none⟩) with heap }, ?_, gone ++ [p], todo, ?_, rfl, ?_, hm'⟩
  · simp only [Ptr.detach, hsp, Option.bind_some, hdel, Option.map_some]
  · rw [hsplit, List.append_assoc, List.singleton_append]
  · rw [hs]
    have hasyncs : (fun r => if r = p then some ⟨none⟩
        else if r ∈ gone then (c.asyncs r).map fun _ => (⟨none⟩ : HpSubAsync) else c.asyncs r) =
        fun r => if r ∈ gone ++ [p] then (c.asyncs r).map fun _ => ⟨none⟩ else c.asyncs r := by
      funext x
      by_cases hx : x = p
      · subst hx
        simp [hr]
      · simp [hx]
    simp only [Client.setAsync, hasyncs]

theorem hpSubcFree_refines (hr : Refines c a) (ho : Owned a held) (hq : (a.subs q).isSome) :
    Refines (hpSubcFree c q) (Pub.hpSubcFree a q) := by
  obtain ⟨lists, rfl, hm⟩ := hr
  obtain ⟨h, hq⟩ := Option.isSome_iff_exists.mp (Option.isSome_map.symm.trans hq)
  have hqs : (c.subs q).isSome := by rw [hq]; rfl
  have hq' : (c.abs lists).subs q = some ⟨h.1, h.2, lists q⟩ := by
    simp only [Client.abs, hq, Option.map_some]
  have hnodup : (lists q).Nodup := ho.linked.nodup q _ hq'
  have hlive : ∀ p ∈ lists q, (c.asyncs p).isSome := fun p hp => alloc_of_listed ho.linked hq' hp
  have hlen : (lists q).length < c.next + 1 := Nat.lt_succ_of_le (length_le_next ho hq')
  have hstart : Detaching c lists q ((lists q).map .node) c := by
    refine ⟨[], lists q, rfl, rfl, ?_, by rwa [Function.update_eq_self]⟩
    simp
  have hfuel : ((lists q).map NodeAddr.node).length < c.next + 1 := by rwa [List.length_map]
  obtain ⟨s, hdone, gone, todo, hsplit, hnil, hs, hms⟩ :=
    listForEachSafe_drain (P := Detaching c lists q) (fun xs s hd => hd.ring hqs)
      (fun x xs s hd => hd.detach hqs hnodup hlive) hstart hfuel
  have htodo : todo = [] := List.map_eq_nil_iff.mp hnil.symm
  subst htodo
  rw [List.append_nil] at hsplit
  have hsubs : (fun r => if r = q then none else (c.abs lists).subs r) =
      fun r => (if r = q then none else c.subs r).map fun h => (⟨h.1, h.2, lists r⟩ : HpSub) := by
    funext r
    by_cases hr : r = q
    · rw [if_pos hr, if_pos hr, Option.map_none]
    · rw [if_neg hr, if_neg hr]
      rfl
  refine ⟨lists, ?_, ?_⟩
  · rw [ho.hpSubcFree_eq hq', hpSubcFree, hdone, hs, ← hsplit]
    simp only [Pub.Client.setSub, hsubs]
    rfl
  · obtain ⟨hforget, hfree⟩ := hms.forget (n := .asyncList q) fun k ys hk hin => by
      cases k with
      | node p => cases hk
      | asyncList r =>
        obtain ⟨_, -, rfl⟩ := Option.map_eq_some_iff.mp hk
        obtain ⟨_, -, heq⟩ := List.mem_map.mp hin
        cases heq
    have hheads : forget (c.heads (Function.update lists q [])) (.asyncList q) =
        (hpSubcFree c q).heads lists := by
      rw [hpSubcFree, hdone, hs]
      funext k
      cases k with
      | node p => exact Function.update_of_ne (by simp) _ _
      | asyncList r =>
        by_cases hr : r = q
        · subst hr
          simp only [forget, Function.update_self, Client.heads, if_true, Option.map_none]
        · rw [forget, Function.update_of_ne (by simpa using hr)]
          simp only [Client.heads, if_neg hr, Function.update_of_ne hr]
    rw [hheads] at hforget hfree
    have hheap : (hpSubcFree c q).heap = Function.update s.heap (.asyncList q) none := by
      rw [hpSubcFree, hdone]
    rw [hheap]
    refine hforget.store hfree (fun x hx hne => ?_) fun hx => ?_
    · rw [hpSubcFree, hdone, hs] at hx
      cases x with
      | asyncList r =>
        have hr : r ≠ q := fun heq => hne (congrArg _ heq)
        simpa only [Client.Mapped, if_neg hr] using hx
      | node p =>
        simp only [Client.Mapped] at hx ⊢
        split at hx
        · exact Option.isSome_map.symm.trans hx
        · exact hx
    · rw [hpSubcFree, hdone] at hx
      simp [Client.Mapped] at hx

theorem callCb_refines (hr : Refines c a) (q : Addr) (call : CbCall) (frame : Frame) :
    Refines (c.callCb q call frame) (a.callCb q call frame) := by
  obtain ⟨lists, rfl, hm⟩ := hr
  exact ⟨lists, rfl, hm⟩

theorem send_refines (hr : Refines c a) (cmd : Cmd) (fn : CFn) (ok : Bool) :
    Refines (c.send cmd fn ok) (a.send cmd fn ok) := by
  obtain ⟨lists, rfl, hm⟩ := hr
  cases ok with
  | false => exact ⟨lists, rfl, hm⟩
  | true => exact ⟨lists, rfl, hm⟩

/-- A subscriber is live on both levels, with the same `sid` and `cb`. -/
theorem Refines.sub {h : Text × Bool} (hr : Refines c a) (hq : c.subs q = some h) :
    ∃ xs, a.subs q = some ⟨h.1, h.2, xs⟩ := by
  obtain ⟨lists, rfl, hm⟩ := hr
  exact ⟨lists q, by simp only [Client.abs, hq, Option.map_some]⟩

theorem Refines.sub_none (hr : Refines c a) (hq : c.subs q = none) : a.subs q = none := by
  obtain ⟨lists, rfl, hm⟩ := hr
  simp only [Client.abs, hq, Option.map_none]

theorem Refines.asyncs (hr : Refines c a) : a.asyncs = c.asyncs := by
  obtain ⟨lists, rfl, hm⟩ := hr
  rfl

theorem Refines.next (hr : Refines c a) : a.next = c.next := by
  obtain ⟨lists, rfl, hm⟩ := hr
  rfl

theorem Refines.newAsync (hr : Refines c a) (ho : Owned a held) {h : HpSub}
    (hq : a.subs q = some h) : Refines (c.newAsync q) (a.newAsync q h) := by
  obtain ⟨lists, rfl, hm⟩ := hr
  obtain ⟨h', hq', rfl⟩ := Option.map_eq_some_iff.mp hq
  exact newAsync_refines hm ho hq'

theorem deliver_refines {rest : List (Text × Message)} (hr : Refines c a) (hl : Linked a)
    (hok : (a.deliver p rest).fault = false) : Refines (c.deliver p rest) (a.deliver p rest) := by
  induction rest with
  | nil => exact finish_refines hr hl hok
  | cons d rest ih =>
    simp only [Pub.Client.deliver, Client.deliver, hr.asyncs] at hok ⊢
    cases hs : (c.asyncs p).bind fun x => x.s with
    | none =>
      simp only [hs] at hok
      cases hok
    | some q =>
      cases hq : c.subs q with
      | none =>
        simp only [hs, hr.sub_none hq] at hok
        cases hok
      | some h =>
        obtain ⟨xs, hq'⟩ := hr.sub hq
        simp only [hs, hq, hq'] at hok ⊢
        split
        · exact callCb_refines hr q _ _
        · next hcb =>
          rw [if_neg hcb] at hok
          exact ih hok

theorem hpSubAllCb_refines (hr : Refines c a) (hl : Linked a) (r : Option Reply)
    (hok : (Pub.hpSubAllCb a p r).fault = false) :
    Refines (hpSubAllCb c p r) (Pub.hpSubAllCb a p r) := by
  simp only [Pub.hpSubAllCb, hpSubAllCb, hr.asyncs] at hok ⊢
  cases hs : c.asyncs p with
  | none =>
    simp only [hs] at hok
    cases hok
  | some x =>
    simp only [hs] at hok ⊢
    split
    · next hnone =>
      rw [if_pos hnone] at hok
      exact finish_refines hr hl hok
    · next hsome =>
      rw [if_neg hsome] at hok
      cases r with
      | none => exact finish_refines hr hl hok
      | some reply =>
        cases reply with
        | msgs found => exact deliver_refines hr hl hok
        | _ => exact finish_refines hr hl hok

theorem hpSubDosub_refines {h : Text × Bool} {xs : List Addr} (hr : Refines c a)
    (topics : List Text) (ok : Bool) (frame : Frame) :
    Refines (hpSubDosub c q h.2 topics ok frame).1
        (Pub.hpSubDosub a q ⟨h.1, h.2, xs⟩ topics ok frame).1 ∧
      (hpSubDosub c q h.2 topics ok frame).2 =
        (Pub.hpSubDosub a q ⟨h.1, h.2, xs⟩ topics ok frame).2 := by
  cases ok with
  | true =>
    obtain ⟨lists, rfl, hm⟩ := hr
    exact ⟨⟨lists, rfl, hm⟩, rfl⟩
  | false =>
    cases hcb : h.2 with
    | true => exact ⟨callCb_refines hr q _ _, rfl⟩
    | false => exact ⟨hr, rfl⟩

theorem msgCb_refines {h : Text × Bool} {xs : List Addr} (hr : Refines c a) (ho : Owned a held)
    (hq : a.subs q = some ⟨h.1, h.2, xs⟩) (r : Option Push) (ok : Bool) :
    Refines (msgCb c q h r ok) (Pub.msgCb a q ⟨h.1, h.2, xs⟩ r ok) := by
  cases r with
  | none => exact hr
  | some push =>
    have hall : Refines (if push.queries then hpSubAll c q h.1 ok else c)
        (if push.queries then Pub.hpSubAll a q ⟨h.1, h.2, xs⟩ ok else a) := by
      split
      · simp only [hpSubAll, Pub.hpSubAll, hr.next]
        exact send_refines (hr.newAsync ho hq) _ _ _
      · exact hr
    cases push with
    | subscribe topic count => exact hall
    | message topic id => exact hall
    | unsubscribe count =>
      simp only [msgCb, Pub.msgCb]
      split
      · exact callCb_refines hr q _ _
      · exact hr

theorem hpSub_refines {h : Text × Bool} {xs : List Addr} (hr : Refines c a) (ho : Owned a held)
    (hq : a.subs q = some ⟨h.1, h.2, xs⟩) (topics : List Text) (ok okSub : Bool) :
    Refines (hpSub c q h topics ok okSub) (Pub.hpSub a q ⟨h.1, h.2, xs⟩ topics ok okSub) := by
  simp only [hpSub, Pub.hpSub]
  split
  · exact (hpSubDosub_refines (send_refines hr _ _ _) topics okSub .dosub).1
  · rw [hr.next]
    exact send_refines (hr.newAsync ho hq) _ _ _

theorem hpSubSessionCb_refines (hr : Refines c a) (hl : Linked a) (r : Option Reply) (ok : Bool)
    (hok : (Pub.hpSubSessionCb a p r ok).fault = false) :
    Refines (hpSubSessionCb c p r ok) (Pub.hpSubSessionCb a p r ok) := by
  simp only [Pub.hpSubSessionCb, hpSubSessionCb, hr.asyncs] at hok ⊢
  cases hs : c.asyncs p with
  | none =>
    simp only [hs] at hok
    cases hok
  | some x =>
    cases hxs : x.s with
    | none =>
      simp only [hs, hxs] at hok ⊢
      exact finish_refines hr hl hok
    | some q =>
      cases hq : c.subs q with
      | none =>
        simp only [hs, hxs, hr.sub_none hq] at hok
        cases hok
      | some h =>
        obtain ⟨xs, hq'⟩ := hr.sub hq
        simp only [hs, hxs, hq, hq'] at hok ⊢
        -- an error is reported where there is a `cb`
        have herror : (if h.2 then a.callCb q .error (.session p) else a.finish p).fault = false →
            Refines (if h.2 then c.callCb q .error (.session p) else c.finish p)
              (if h.2 then a.callCb q .error (.session p) else a.finish p) := by
          intro hok
          split
          · exact callCb_refines hr q _ _
          · next hcb =>
            rw [if_neg hcb] at hok
            exact finish_refines hr hl hok
        cases r with
        | none => exact herror hok
        | some reply =>
          cases reply with
          | error => exact herror hok
          | keys topics =>
            simp only at hok ⊢
            split
            · next hnil =>
              rw [if_pos hnil] at hok
              exact finish_refines hr hl hok
            · next hsome =>
              rw [if_neg hsome] at hok
              cases ok with
              | true =>
                obtain ⟨lists, rfl, hm⟩ := hr
                exact finish_refines ⟨lists, rfl, hm⟩ ⟨hl.nodup, hl.listed, hl.live⟩ hok
              | false =>
                simp only [hpSubDosub, Pub.hpSubDosub, Bool.false_eq_true, if_false] at hok ⊢
                cases hcb : h.2 with
                | true => exact callCb_refines hr q _ _
                | false =>
                  simp only [hcb, Bool.false_eq_true, if_false] at hok ⊢
                  exact finish_refines hr hl hok
          | _ => exact finish_refines hr hl hok

theorem resume_refines {frame : Frame} (hr : Refines c a) (ho : Owned a held)
    (hclose : ∀ q, frame = .disconnect q → (a.subs q).isSome)
    (hok : (a.resume frame).fault = false) : Refines (c.resume frame) (a.resume frame) := by
  cases frame with
  | deliver p rest => exact deliver_refines hr ho.linked hok
  | session p => exact finish_refines hr ho.linked hok
  | dosub => exact hr
  | unsubscribed q => exact hr
  | disconnect q => exact hpSubcFree_refines hr ho (hclose q rfl)

/-- What leaves out the two defects of the level above. -/
def SubOk (c : Client) (act : SubAct) : Prop := Pub.SubOk (c.abs fun _ => []) act

theorem subOk_abs {act : SubAct} : SubOk c act ↔ Pub.SubOk (c.abs lists) act := by
  cases act <;> exact Iff.rfl

/-- A step is one of the level above. -/
theorem subStep_refines {act : SubAct} {c' : Client} (hr : Refines c a) (hi : SubInv a)
    (hstep : subStep c act = some c') (hok : Pub.SubOk a act) :
    ∃ a', Pub.subStep a act = some a' ∧ Refines c' a' := by
  have hfault : ∀ a', Pub.subStep a act = some a' → a'.fault = false := fun a' ha =>
    (subStep_inv hi ha hok).owned.sound
  cases act with
  | hpSub q topics ok okSub =>
    obtain ⟨h, hq, rfl⟩ := Option.map_eq_some_iff.mp hstep
    obtain ⟨xs, hq'⟩ := hr.sub hq
    exact ⟨_, by rw [Pub.subStep, hq', Option.map_some], hpSub_refines hr hi.owned hq' _ _ _⟩
  | hpUnsub q ok =>
    obtain ⟨h, hq, rfl⟩ := Option.map_eq_some_iff.mp hstep
    obtain ⟨xs, hq'⟩ := hr.sub hq
    refine ⟨_, by rw [Pub.subStep, hq', Option.map_some], ?_⟩
    obtain ⟨lists, rfl, hm⟩ := hr
    cases ok with
    | true => exact ⟨lists, rfl, hm⟩
    | false => exact ⟨lists, rfl, hm⟩
  | command cmd ok =>
    cases hstep
    exact ⟨_, rfl, send_refines hr cmd .other ok⟩
  | teardown q connected =>
    have hstack : a.stack = c.stack := by
      obtain ⟨lists, rfl, hm⟩ := hr
      rfl
    simp only [subStep] at hstep
    simp only [Pub.subStep, hstack] at hfault ⊢
    split at hstep
    · cases hstep
    · next hfree =>
      obtain ⟨h, hq, rfl⟩ := Option.map_eq_some_iff.mp hstep
      obtain ⟨xs, hq'⟩ := hr.sub hq
      rw [if_neg hfree, hq', Option.map_some]
      refine ⟨_, rfl, ?_⟩
      split
      · exact callCb_refines hr q _ _
      · exact hpSubcFree_refines hr hi.owned (by rw [hq']; rfl)
  | ret =>
    obtain ⟨lists, rfl, hm⟩ := hr
    simp only [subStep] at hstep
    cases hstack : c.stack with
    | nil =>
      simp only [hstack] at hstep
      cases hstep
    | cons frame stack =>
      simp only [hstack] at hstep
      cases hstep
      have hstack' : (c.abs lists).stack = frame :: stack := hstack
      have hstep' : Pub.subStep (c.abs lists) .ret =
          some (Pub.Client.resume { c.abs lists with stack } frame) := by
        simp only [Pub.subStep, hstack']
      refine ⟨_, hstep', resume_refines ⟨lists, rfl, hm⟩
        (hi.owned.frame rfl rfl rfl rfl rfl) (fun q hq => ?_) (hfault _ hstep')⟩
      exact hi.waiting.disconnect q (hq ▸ hstack' ▸ List.mem_cons_self)
  | reply r okSub =>
    obtain ⟨lists, rfl, hm⟩ := hr
    simp only [subStep] at hstep
    split at hstep
    · next sent pending hstack hpending =>
      have hstack' : (c.abs lists).stack = [] := hstack
      have hpending' : (c.abs lists).pending = sent :: pending := hpending
      have hr' : Refines { c with pending } { c.abs lists with pending } := ⟨lists, rfl, hm⟩
      have ho' : Owned { c.abs lists with pending } (c.abs lists).held :=
        hi.owned.frame rfl rfl rfl rfl rfl
      have hl' : Linked { c.abs lists with pending } := ho'.linked
      cases hfn : sent.fn with
      | other =>
        simp only [hfn] at hstep
        cases hstep
        exact ⟨{ c.abs lists with pending }, by simp only [Pub.subStep, hstack', hpending', hfn], hr'⟩
      | hpSubAllCb p =>
        simp only [hfn] at hstep
        cases hstep
        have hstep' : Pub.subStep (c.abs lists) (.reply r okSub) =
            some (Pub.hpSubAllCb { c.abs lists with pending } p r) := by
          simp only [Pub.subStep, hstack', hpending', hfn]
        exact ⟨_, hstep', hpSubAllCb_refines hr' hl' r (hfault _ hstep')⟩
      | hpSubSessionCb p =>
        simp only [hfn] at hstep
        cases hstep
        have hstep' : Pub.subStep (c.abs lists) (.reply r okSub) =
            some (Pub.hpSubSessionCb { c.abs lists with pending } p r okSub) := by
          simp only [Pub.subStep, hstack', hpending', hfn]
        exact ⟨_, hstep', hpSubSessionCb_refines hr' hl' r okSub (hfault _ hstep')⟩
    · cases hstep
  | push q r ok =>
    have hstack : a.stack = c.stack := by
      obtain ⟨lists, rfl, hm⟩ := hr
      rfl
    simp only [subStep] at hstep
    split at hstep
    · next hnil =>
      obtain ⟨h, hq, rfl⟩ := Option.map_eq_some_iff.mp hstep
      obtain ⟨xs, hq'⟩ := hr.sub hq
      refine ⟨_, ?_, msgCb_refines hr hi.owned hq' r ok⟩
      simp only [Pub.subStep, hstack, hnil, hq', Option.map_some]
    · cases hstep

instance (c : Client) (act : SubAct) : Decidable (SubOk c act) :=
  inferInstanceAs (Decidable (Pub.SubOk (c.abs fun _ => []) act))

/-- A run of this level is a run of the one above, and the loops over a subscriber's nodes
come to the records that are listed there. -/
theorem run_refines {subs : Addr → Option (Text × Bool)} {c : Client}
    (hrun : Run.Along subStep SubOk (clientStart subs) c) :
    c.fault = false ∧ ∃ a, Run.Along Pub.subStep Pub.SubOk (Pub.clientStart subs) a ∧
      Refines c a ∧ ∀ q h, a.subs q = some h →
        listForEach c.heap (.asyncList q) (c.next + 1) = .done (h.asyncList.map .node) := by
  have hmatch : ∃ a, Run.Along Pub.subStep Pub.SubOk (Pub.clientStart subs) a ∧
      SubInv a ∧ Refines c a := by
    refine hrun.invariant (I := fun c => ∃ a, Run.Along Pub.subStep Pub.SubOk
      (Pub.clientStart subs) a ∧ SubInv a ∧ Refines c a)
      ⟨_, Relation.ReflTransGen.refl, clientStart_inv subs, clientStart_refines subs⟩ ?_
    intro s act s' hs hstep hok
    obtain ⟨a, hrun, hi, hr⟩ := hs
    have hok' : Pub.SubOk a act := by
      obtain ⟨lists, rfl, -⟩ := hr
      exact subOk_abs.mp hok
    obtain ⟨a', hstep', hr'⟩ := subStep_refines hr hi hstep hok'
    exact ⟨a', hrun.tail ⟨act, hstep', hok'⟩, subStep_inv hi hstep' hok', hr'⟩
  obtain ⟨a, hrun', hi, hr⟩ := hmatch
  obtain ⟨lists, rfl, hm⟩ := hr
  refine ⟨hi.owned.sound, c.abs lists, hrun', ⟨lists, rfl, hm⟩, fun q h hq => ?_⟩
  obtain ⟨h', hq', rfl⟩ := Option.map_eq_some_iff.mp hq
  have hlen : (lists q).length ≤ c.next := length_le_next hi.owned hq
  have hhead : (c.heads lists) (.asyncList q) = some ((lists q).map .node) := by
    simp only [Client.heads, hq', Option.map_some]
  exact (hm.reads hhead (by rw [List.length_map]; exact Nat.lt_succ_of_le hlen)).1

end

/-- Three records for two subscribers, one of which is torn down before the replies. -/
theorem run_refines_teardown :
    ∃ c, Run.Along subStep SubOk (clientStart fun _ => some ([], true)) c ∧ c.freed ≠ [] ∧
      c.fault = false ∧ ∃ a, Run.Along Pub.subStep Pub.SubOk
        (Pub.clientStart fun _ => some ([], true)) a ∧ Refines c a := by
  obtain ⟨c, hrun, hfreed⟩ : ∃ c,
      Run.Along subStep SubOk (clientStart fun _ => some ([], true)) c ∧ c.freed ≠ [] :=
    Run.along_any (fun (c : Client) (act : SubAct) => decide (SubOk c act))
      [.hpSub 0 [] true true, .hpSub 1 [] true true, .hpSub 0 [] true true, .teardown 0 true,
        .ret, .reply none true]
      (fun _ _ h => of_decide_eq_true h) (fun c => c.freed ≠ []) (by decide +kernel)
  obtain ⟨hsound, a, hrun', hr, -⟩ := run_refines hrun
  exact ⟨c, hrun, hfreed, hsound, a, hrun', hr⟩

end Libhp.Pub.Ptr
