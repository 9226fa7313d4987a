import Libhp.Iocp.PollTable

/-!
# The sockets of the select thread

The sets of `select` are sets of sockets, and the scan after it asks for each entry whether
its socket is in them. No socket has two entries: the items have different sockets, and the
select thread is told that one is gone before it is told of another on the same socket.
-/
namespace Libhp.Iocp

/-- The id and the socket to watch for an item: none if it listens. -/
def Item.socket (item : Item) : Option (Int × Nat) :=
  if item.onAccept = .null then some (item.id, item.fd) else none

/-- What the select thread should watch. -/
def HpIocp.sockets (s : HpIocp) : List (Int × Nat) := s.registered.filterMap Item.socket

def Polld.socket (pd : Polld) : Int × Nat := (pd.id, pd.fd)

/-- What a message does to the watched sockets; one that is watched cannot be added. -/
def socketApply (socks : List (Int × Nat)) : PollMsg → Option (List (Int × Nat))
  | .add id fd => if ∀ p ∈ socks, p.2 ≠ fd then some (socks ++ [(id, fd)]) else none
  | .rm id flags => some (if flags = .zero then socks.filter fun p => p.1 ≠ id else socks)

/-- Different sockets in both tables, and between them. -/
structure HpIocp.Apart (s : HpIocp) : Prop where
  items : (s.items.map Item.fd).Nodup
  pds : (s.pds.map Polld.fd).Nodup
  inStep : Replica.InStep socketApply (s.pds.map Polld.socket) s.pollQ s.sockets

section
variable {s s' : HpIocp} {a : Act}

/-- Where keys are different, the element at a place is the one with its key. -/
theorem eraseIdx_eq_filter {α : Type} {key : α → Int} {xs : List α} {i : Nat} {x : α}
    (hnodup : (xs.map key).Nodup) (hx : xs[i]? = some x) :
    xs.eraseIdx i = xs.filter fun y => key y ≠ key x := by
  induction xs generalizing i with
  | nil => cases hx
  | cons y ys ih =>
    obtain ⟨hnot, hrest⟩ := List.nodup_cons.mp hnodup
    cases i with
    | zero =>
      obtain rfl : y = x := Option.some.inj hx
      have hall : ∀ z ∈ ys, decide (key z ≠ key y) = true := fun z hz =>
        decide_eq_true (fun heq => hnot (heq ▸ List.mem_map_of_mem hz))
      rw [List.eraseIdx_zero, List.tail_cons, List.filter_cons_of_neg (by simp),
        List.filter_eq_self.mpr hall]
    | succ i =>
      have hin : ys[i]? = some x := hx
      have hne : decide (key y ≠ key x) = true :=
        decide_eq_true (fun heq => hnot (heq ▸ List.mem_map_of_mem (List.mem_of_getElem? hin)))
      rw [List.eraseIdx_cons_succ, ih hrest hin, List.filter_cons, if_pos hne]

/-- What is registered depends on the items and on which of them fails. -/
theorem HpIocp.registered_map {β : Type} (f : Item → β) (hitems : s'.items.map f = s.items.map f)
    (hfailing : s'.failing = s.failing ∨
      s.failing = none ∧ ∃ i ol, s'.failing = some ⟨i, ol, false⟩) :
    s'.registered.map f = s.registered.map f := by
  unfold HpIocp.registered
  rcases hfailing with hsame | ⟨hcalm, i, ol, hfail⟩
  · rw [hsame]
    split
    · rw [← List.eraseIdx_map, ← List.eraseIdx_map, hitems]
    · exact hitems
  · rw [hcalm, hfail]
    exact hitems

theorem HpIocp.sockets_congr (hitems : s'.items.map Item.socket = s.items.map Item.socket)
    (hfailing : s'.failing = s.failing ∨
      s.failing = none ∧ ∃ i ol, s'.failing = some ⟨i, ol, false⟩) : s'.sockets = s.sockets := by
  have hall : ∀ xs : List Item, xs.filterMap Item.socket = (xs.map Item.socket).filterMap id := by
    intro xs
    rw [List.filterMap_map]
    rfl
  unfold HpIocp.sockets
  rw [hall, hall, HpIocp.registered_map Item.socket hitems hfailing]

theorem socket_congr {x y : Item} (hid : y.id = x.id) (hfd : y.fd = x.fd)
    (hkind : y.onAccept = .null ↔ x.onAccept = .null) : y.socket = x.socket := by
  unfold Item.socket
  simp only [hkind, hid, hfd]

/-- What is watched is the socket of an item. -/
theorem HpIocp.mem_sockets {p : Int × Nat} (hp : p ∈ s.sockets) : ∃ x ∈ s.items, x.fd = p.2 := by
  obtain ⟨x, hx, hsock⟩ := List.mem_filterMap.mp hp
  unfold Item.socket at hsock
  split at hsock
  · cases hsock
    exact ⟨x, s.registered_sublist.subset hx, rfl⟩
  · cases hsock

theorem scanned_sockets {β : Type} (f : Polld → β) (hf : ∀ pd flags, f { pd with flags } = f pd)
    {i : Nat} {r w e : List Nat} {pd : Polld} (hs : s.Scans i r w e pd) :
    (s.scanned i w pd).map f = s.pds.map f := by
  unfold HpIocp.scanned
  split
  · exact Slots.map_set_same hs.get (hf pd _)
  · rfl

theorem HpIocp.Apart.items_step (h : s.Apart) (hstep : Step s a s') :
    (s'.items.map Item.fd).Nodup := by
  have hset : ∀ {i : Nat} {x y : Item}, s.items[i]? = some x → y.fd = x.fd →
      ((s.items.set i y).map Item.fd).Nodup := fun hx heq => by
    rw [Slots.map_set_same hx heq]
    exact h.items
  cases hstep with
  | addAgain _ hitem => exact hset hitem rfl
  | @addNew fd a d e l b hmake =>
    rw [List.map_append]
    refine List.nodup_append.mpr ⟨h.items, List.nodup_singleton _, fun x hx y hy heq => ?_⟩
    obtain ⟨item, hin, rfl⟩ := List.mem_map.mp hx
    rw [List.mem_singleton.mp hy] at heq
    exact hmake.2.2.1 item hin heq
  | rm hitem => exact hset hitem.get rfl
  | written hitem => exact hset hitem.get rfl
  | fdErr hm hitem => exact hset hitem.get rfl
  | fdSent hm hitem => exact hset hitem.get rfl
  | fdSendFailed hm hitem => exact hset hitem.get rfl
  | ioFailed hm hitem => exact hset hitem.get rfl
  | ioPart hm hitem => exact hset hitem.get rfl
  | onError _ hitem => exact hset hitem rfl
  | onErrorReturn =>
    rw [onReturn_items]
    exact h.items.sublist ((List.eraseIdx_sublist _ _).map _)
  | _ => exact h.items

/-- The select thread does to its table what the message does to the sockets. -/
theorem HpIocp.Apart.pollMsg {m : PollMsg} {q : List PollMsg} {pds : List Polld} (h : s.Apart)
    (hsorted : (s.pds.map Polld.id).Pairwise (· < ·)) (hq : s.pollQ = m :: q)
    (hpds : pollHandle s.maxfd s.pds m = some pds) :
    (pds.map Polld.fd).Nodup ∧ Replica.InStep socketApply (pds.map Polld.socket) q s.sockets := by
  have hinStep := h.inStep
  rw [hq] at hinStep
  obtain ⟨socks, happly, hrest⟩ := hinStep.take
  cases pollHandle_cases hpds with
  | @add id fd hnew =>
    simp only [socketApply] at happly
    split at happly
    · next hfree =>
      cases happly
      refine ⟨?_, by rwa [List.map_append]⟩
      rw [List.map_append]
      refine List.nodup_append.mpr ⟨h.pds, List.nodup_singleton _, fun x hx y hy heq => ?_⟩
      obtain ⟨pd, hin, rfl⟩ := List.mem_map.mp hx
      rw [List.mem_singleton.mp hy] at heq
      exact hfree pd.socket (List.mem_map_of_mem hin) heq
    · cases happly
  | @remove i pd hpd =>
    cases happly
    refine ⟨h.pds.sublist ((List.eraseIdx_sublist _ _).map _), ?_⟩
    have hfilter : (s.pds.eraseIdx i).map Polld.socket =
        (s.pds.map Polld.socket).filter fun p => p.1 ≠ pd.id := by
      rw [eraseIdx_eq_filter hsorted.nodup hpd, List.filter_map]
      rfl
    rw [hfilter]
    simpa using hrest
  | @watch i pd flags hpd hflags =>
    simp only [socketApply, if_neg hflags] at happly
    cases happly
    have hfds : (s.pds.set i { pd with flags }).map Polld.fd = s.pds.map Polld.fd :=
      Slots.map_set_same hpd rfl
    have hsocks : (s.pds.set i { pd with flags }).map Polld.socket = s.pds.map Polld.socket :=
      Slots.map_set_same hpd rfl
    rw [hfds, hsocks]
    exact ⟨h.pds, hrest⟩

/-- A step that posts nothing and changes no socket. -/
theorem HpIocp.Apart.same (h : s.Apart)
    (hitems : s'.items.map Item.socket = s.items.map Item.socket)
    (hfailing : s'.failing = s.failing ∨
      s.failing = none ∧ ∃ i ol, s'.failing = some ⟨i, ol, false⟩)
    (hpds : s'.pds.map Polld.socket = s.pds.map Polld.socket) (hq : s'.pollQ = s.pollQ) :
    Replica.InStep socketApply (s'.pds.map Polld.socket) s'.pollQ s'.sockets := by
  rw [hpds, hq, HpIocp.sockets_congr hitems hfailing]
  exact h.inStep

/-- A request to write says nothing of the sockets. -/
theorem HpIocp.Apart.request (h : s.Apart) {id : Int}
    (hitems : s'.items.map Item.socket = s.items.map Item.socket)
    (hfailing : s'.failing = s.failing) (hpds : s'.pds = s.pds)
    (hq : s'.pollQ = s.pollQ ++ [.rm id .inout]) :
    Replica.InStep socketApply (s'.pds.map Polld.socket) s'.pollQ s'.sockets := by
  rw [hpds, hq, HpIocp.sockets_congr hitems (.inl hfailing)]
  apply h.inStep.post
  rw [socketApply, if_neg (by decide)]

theorem HpIocp.Apart.inStep_step (h : s.Apart) (ht : s.Told) (hstep : Step s a s')
    (hok : KeepsTable s a) :
    Replica.InStep socketApply (s'.pds.map Polld.socket) s'.pollQ s'.sockets := by
  obtain ⟨-, -, hkind⟩ := hok
  cases hstep with
  | @addAgain fd a d e l b i item hgiven hitem hfd hfree =>
    have hsame := hkind hgiven item (List.mem_of_getElem? hitem) hfd
    refine h.same (Slots.map_set_same hitem (socket_congr rfl rfl ?_)) (.inl rfl) rfl rfl
    rw [hsame]
    exact given_eq_null a
  | @addNew fd a d e l b hmake =>
    have hreg : ∀ x : Item, ({ s with items := s.items ++ [x] } : HpIocp).sockets =
        s.sockets ++ x.socket.toList := fun x => by
      unfold HpIocp.sockets HpIocp.registered
      dsimp only
      split
      · next i ol hf =>
        rw [List.eraseIdx_append_of_lt_length (ht.inRange _ hf), List.filterMap_append]
        cases hx : x.socket <;> simp [hx]
      · rw [List.filterMap_append]
        cases hx : x.socket <;> simp [hx]
    show Replica.InStep socketApply (s.pds.map Polld.socket)
      (if a then s.pollQ else s.pollQ ++ [.add s.nextId fd])
      ({ s with items := s.items ++
        [⟨s.nextId, fd, .given a, .given d, .given e, .given l, 0, []⟩] } : HpIocp).sockets
    rw [hreg]
    cases a with
    | true => simpa [Item.socket, Cb.given] using h.inStep
    | false =>
      apply h.inStep.post
      have hfree : ∀ p ∈ s.sockets, p.2 ≠ fd := fun p hp => by
        obtain ⟨x, hx, hfd⟩ := HpIocp.mem_sockets hp
        exact hfd ▸ hmake.2.2.1 x hx
      rw [socketApply, if_pos hfree]
      rfl
  | rm hitem =>
    exact h.same (Slots.map_set_same hitem.get (socket_congr rfl rfl (reset_eq_null _))) (.inl rfl)
      rfl rfl
  | written hitem => exact h.request (Slots.map_set_same hitem.get rfl) rfl rfl rfl
  | fdErr hm hitem =>
    exact h.same (Slots.map_set_same hitem.get rfl) (.inr ⟨hm.calm, _, _, rfl⟩) rfl rfl
  | fdSent hm hitem => exact h.same (Slots.map_set_same hitem.get rfl) (.inl rfl) rfl rfl
  | fdSendFailed hm hitem =>
    exact h.same (Slots.map_set_same hitem.get rfl) (.inr ⟨hm.calm, _, _, rfl⟩) rfl rfl
  | fdStale hm => exact h.same rfl (.inr ⟨hm.calm, _, _, rfl⟩) rfl rfl
  | ioFailed hm hitem =>
    exact h.same (Slots.map_set_same hitem.get rfl) (.inr ⟨hm.calm, _, _, rfl⟩) rfl rfl
  | ioDropped hm => exact h.same rfl (.inr ⟨hm.calm, _, _, rfl⟩) rfl rfl
  | ioPart hm hitem => exact h.request (Slots.map_set_same hitem.get rfl) rfl rfl rfl
  | @onError i ol item hf hitem =>
    have hbefore : s.sockets = s.items.filterMap Item.socket := by
      unfold HpIocp.sockets HpIocp.registered
      rw [hf]
    apply h.inStep.post
    rw [socketApply, if_pos rfl, hbefore]
    unfold HpIocp.sockets HpIocp.registered
    dsimp only [HpIocp.setItem, HpIocp.postPoll]
    rw [List.eraseIdx_set_eq, eraseIdx_eq_filter ht.ids.sorted.nodup hitem, List.filterMap_filter,
      List.filter_filterMap]
    congr 2
    funext x
    unfold Item.socket
    by_cases hx : x.id = item.id <;> by_cases hnull : x.onAccept = .null <;> simp [hx, hnull]
  | @onErrorReturn i ol pc hf =>
    have hsame : s.sockets = (s.items.eraseIdx i).filterMap Item.socket := by
      unfold HpIocp.sockets HpIocp.registered
      rw [hf]
    rw [onReturn_pds, onReturn_pollQ]
    unfold HpIocp.sockets
    rw [HpIocp.registered_calm (onReturn_failing ol), onReturn_items, ← hsame]
    exact h.inStep
  | loopFailed hcalm => exact h.same rfl (.inr ⟨hcalm, _, _, rfl⟩) rfl rfl
  | pollMsg hq hpds => exact (h.pollMsg ht.sorted hq hpds).2
  | scanReadFailed hs => exact h.same rfl (.inl rfl) (scanned_sockets _ (fun _ _ => rfl) hs) rfl
  | scanRead hs => exact h.same rfl (.inl rfl) (scanned_sockets _ (fun _ _ => rfl) hs) rfl
  | scanPost hs => exact h.same rfl (.inl rfl) (scanned_sockets _ (fun _ _ => rfl) hs) rfl
  | _ => exact h.same rfl (.inl rfl) rfl rfl

theorem HpIocp.Apart.pds_step (h : s.Apart) (ht : s.Told) (hstep : Step s a s') :
    (s'.pds.map Polld.fd).Nodup := by
  have hsame : ∀ {pds : List Polld}, pds.map Polld.fd = s.pds.map Polld.fd →
      (pds.map Polld.fd).Nodup := fun heq => by
    rw [heq]
    exact h.pds
  cases hstep with
  | pollMsg hq hpds => exact (h.pollMsg ht.sorted hq hpds).1
  | scanReadFailed hs => exact hsame (scanned_sockets _ (fun _ _ => rfl) hs)
  | scanRead hs => exact hsame (scanned_sockets _ (fun _ _ => rfl) hs)
  | scanPost hs => exact hsame (scanned_sockets _ (fun _ _ => rfl) hs)
  | @onErrorReturn i ol pc hf => cases ol <;> exact h.pds
  | _ => exact h.pds

theorem HpIocp.Apart.step (h : s.Apart) (ht : s.Told) (hstep : Step s a s')
    (hok : KeepsTable s a) : s'.Apart where
  items := h.items_step hstep
  pds := h.pds_step ht hstep
  inStep := h.inStep_step ht hstep hok

theorem hpIocpInit_apart (maxfd : Nat) : (hpIocpInit maxfd).Apart where
  items := List.nodup_nil
  pds := List.nodup_nil
  inStep := Replica.InStep.start

end

end Libhp.Iocp
