import Libhp.Iocp.Ids
import Libhp.Lib.Replica

/-!
# The table of the select thread

The user thread tells the select thread by WM_ADD and WM_RM which ids to watch. The select
thread is a replica of the list of ids the user thread has in mind, as long as it is told
of every item it is asked about.
-/
namespace Libhp.Iocp

/-- What a message does to the list of watched ids; an id is added above all others, and a
message about an id that is not watched makes no sense. -/
def tableApply (maxfd : Nat) (ids : List Int) : PollMsg → Option (List Int)
  | .add id _ => if (∀ x ∈ ids, x < id) ∧ ids.length < maxfd then some (ids ++ [id]) else none
  | .rm id flags =>
    if id ∈ ids then some (if flags = .zero then ids.erase id else ids) else none

/-- The id to watch for an item: none if it listens. -/
def Item.watch (item : Item) : Option Int := if item.onAccept = .null then some item.id else none

/-- The items but the one that is in its error callback. -/
def HpIocp.registered (s : HpIocp) : List Item :=
  match s.failing with
  | some ⟨i, _, true⟩ => s.items.eraseIdx i
  | _ => s.items

/-- The ids of the registered items that do not listen. -/
def HpIocp.watched (s : HpIocp) : List Int := s.registered.filterMap Item.watch

/-- WM_RM is posted for items that do not listen: they are the ones that are written to,
that have a rest to send, and that fail. -/
def RmWatched (s : HpIocp) : Act → Prop
  | .write id data bytes _ _ =>
    data ≠ 0 ∧ bytes ≠ [] →
      ∀ p ∈ s.itemFind id, p.2.isRemoved = false → p.2.onAccept = .null
  | .handle _ _ =>
    match s.userQ with
    | .io ol nbuf _ :: _ =>
      ol.read = false → 0 < nbuf ∧ nbuf < ol.buf.length →
        ∀ p ∈ s.itemFind ol.id, p.2.onAccept = .null
    | _ => True
  | .itemOnError => ∀ f ∈ s.failing, ∀ item ∈ s.items[f.i]?, item.onAccept = .null
  | _ => True

/-- An item that is added again listens if and only if it did before. -/
def KeepsKind (s : HpIocp) : Act → Prop
  | .add fd onAccept onData _ _ _ =>
    (onData || onAccept) = true →
      ∀ item ∈ s.items, item.fd = fd → (item.onAccept = .null ↔ onAccept = false)
  | _ => True

def decRmWatched (s : HpIocp) (err : Option Int) (drop : Bool) :
    (q : List UserMsg) → Decidable (RmWatched { s with userQ := q } (.handle err drop))
  | .io .. :: _ => inferInstanceAs (Decidable (_ → _ → _))
  | .fd .. :: _ | [] => isTrue trivial

instance (s : HpIocp) : (a : Act) → Decidable (RmWatched s a)
  | .write .. => inferInstanceAs (Decidable (_ → ∀ p ∈ s.itemFind _, _ → _))
  | .handle err drop => decRmWatched s err drop s.userQ
  | .itemOnError => inferInstanceAs (Decidable (∀ f ∈ s.failing, ∀ item ∈ s.items[f.i]?, _))
  | .add .. | .rm .. | .onErrorReturn | .msgsEnd | .pass .. | .pollMsg | .pollMsgsEnd
  | .select .. | .scan .. | .sendDone .. | .recvDone .. | .postIo .. =>
    isTrue trivial

instance (s : HpIocp) : (a : Act) → Decidable (KeepsKind s a)
  | .add .. => inferInstanceAs (Decidable (_ → ∀ item ∈ s.items, _ → _))
  | .rm .. | .write .. | .handle .. | .itemOnError | .onErrorReturn | .msgsEnd | .pass ..
  | .pollMsg | .pollMsgsEnd | .select .. | .scan .. | .sendDone .. | .recvDone .. | .postIo .. =>
    isTrue trivial

def KeepsTable (s : HpIocp) (a : Act) : Prop := FreshIds s a ∧ RmWatched s a ∧ KeepsKind s a

instance (s : HpIocp) (a : Act) : Decidable (KeepsTable s a) :=
  inferInstanceAs (Decidable (_ ∧ _))

section
variable {maxfd : Nat} {ids ids' : List Int} {pds : List Polld} {m : PollMsg}

/-- The lists the messages lead to are sorted and not too long. -/
theorem tableApply_sorted (h : tableApply maxfd ids m = some ids') (hs : ids.Pairwise (· < ·))
    (hlen : ids.length ≤ maxfd) : ids'.Pairwise (· < ·) ∧ ids'.length ≤ maxfd := by
  cases m with
  | add id fd =>
    simp only [tableApply] at h
    split at h
    · next hok =>
      cases h
      refine ⟨List.pairwise_append.mpr ⟨hs, List.pairwise_singleton _ _, fun x hx y hy => ?_⟩, ?_⟩
      · rw [List.mem_singleton.mp hy]
        exact hok.1 x hx
      · rw [List.length_append]
        exact hok.2
    · cases h
  | rm id flags =>
    simp only [tableApply] at h
    split at h
    · cases h
      split
      · exact ⟨hs.sublist List.erase_sublist, List.length_erase_le.trans hlen⟩
      · exact ⟨hs, hlen⟩
    · cases h

/-- The code does to its sorted table what the message does to the ids. -/
theorem pollHandle_refines (hs : (pds.map Polld.id).Pairwise (· < ·))
    (h : tableApply maxfd (pds.map Polld.id) m = some ids') :
    ∃ pds', pollHandle maxfd pds m = some pds' ∧ pds'.map Polld.id = ids' := by
  have hsorted : pds.Pairwise fun x y => x.id < y.id := List.pairwise_map.mp hs
  cases m with
  | add id fd =>
    simp only [tableApply] at h
    split at h
    · next hok =>
      cases h
      have hnone : Search.bsearch (fun pd : Polld => compare id pd.id) pds = none := by
        apply Option.eq_none_iff_forall_ne_some.mpr
        intro i hi
        obtain ⟨pd, hpd, hcmp⟩ := Search.bsearch_sound hi
        have hlt := hok.1 pd.id (List.mem_map_of_mem (List.mem_of_getElem? hpd))
        exact hlt.ne' (compare_eq_iff_eq.mp hcmp)
      have hroom : ¬ maxfd ≤ pds.length := by
        have hlen := hok.2
        rw [List.length_map] at hlen
        exact Nat.not_le_of_lt hlen
      refine ⟨pds ++ [⟨id, fd, .reads⟩], ?_, by rw [List.map_append]; rfl⟩
      simp only [pollHandle, hnone]
      exact if_neg hroom
    · cases h
  | rm id flags =>
    simp only [tableApply] at h
    split at h
    · next hin =>
      cases h
      obtain ⟨i, hi⟩ := List.mem_iff_getElem?.mp hin
      rw [List.getElem?_map] at hi
      obtain ⟨pd, hpd, rfl⟩ := Option.map_eq_some_iff.mp hi
      have hfind := Search.bsearch_eq_some Polld.id hsorted hpd rfl
      simp only [pollHandle, hfind]
      split
      · refine ⟨_, rfl, ?_⟩
        have hlt : i < (pds.map Polld.id).length := by
          rw [List.length_map]
          exact (List.getElem?_eq_some_iff.mp hpd).1
        have hget : (pds.map Polld.id)[i] = pd.id := by
          have := List.getElem?_eq_getElem hlt
          rw [List.getElem?_map, hpd] at this
          exact (Option.some.inj this).symm
        rw [← List.eraseIdx_map, ← hget]
        exact (List.Nodup.erase_getElem hs.nodup i hlt).symm
      · rw [hpd]
        exact ⟨_, rfl, Slots.map_set_same hpd rfl⟩
    · cases h

end

/-- The select thread catches up with the user thread, message by message. -/
structure HpIocp.Told (s : HpIocp) : Prop where
  ids : s.Ids
  room : s.items.length ≤ s.maxfd
  inRange : ∀ f, s.failing = some f → f.i < s.items.length
  sorted : (s.pds.map Polld.id).Pairwise (· < ·)
  fits : s.pds.length ≤ s.maxfd
  inStep : Replica.InStep (tableApply s.maxfd) (s.pds.map Polld.id) s.pollQ s.watched

section
variable {s s' : HpIocp} {a : Act}

theorem HpIocp.registered_calm (hcalm : s.failing = none) : s.registered = s.items := by
  unfold HpIocp.registered
  rw [hcalm]

/-- Which ids are watched depends on the ids and kinds of the items. -/
theorem HpIocp.watched_congr (hitems : s'.items.map Item.watch = s.items.map Item.watch)
    (hfailing : s'.failing = s.failing ∨
      s.failing = none ∧ ∃ i ol, s'.failing = some ⟨i, ol, false⟩) : s'.watched = s.watched := by
  have hall : ∀ xs : List Item, xs.filterMap Item.watch = (xs.map Item.watch).filterMap id := by
    intro xs
    rw [List.filterMap_map]
    rfl
  unfold HpIocp.watched HpIocp.registered
  rcases hfailing with hsame | ⟨hcalm, i, ol, hfail⟩
  · rw [hsame]
    split
    · rw [hall, hall, ← List.eraseIdx_map, ← List.eraseIdx_map, hitems]
    · rw [hall, hall, hitems]
  · rw [hcalm, hfail, hall, hall, hitems]

theorem HpIocp.registered_sublist (s : HpIocp) : s.registered.Sublist s.items := by
  unfold HpIocp.registered
  split
  · exact List.eraseIdx_sublist _ _
  · exact List.Sublist.refl _

theorem watched_sublist_ids (items : List Item) :
    (items.filterMap Item.watch).Sublist (items.map Item.id) := by
  induction items with
  | nil => exact List.Sublist.slnil
  | cons x rest ih =>
    rw [List.map_cons, List.filterMap_cons]
    unfold Item.watch at ih ⊢
    split
    · exact ih.cons _
    · next id hid =>
      split at hid
      · cases hid
        exact ih.cons_cons _
      · cases hid

theorem HpIocp.watched_sublist (s : HpIocp) : s.watched.Sublist (s.items.map Item.id) :=
  (s.registered_sublist.filterMap Item.watch).trans (watched_sublist_ids s.items)

/-- An item that does not listen is watched unless it is in its error callback. -/
theorem HpIocp.mem_watched {i : Nat} {item : Item} (hitem : s.items[i]? = some item)
    (hfree : s.isFreed i = false) (hkind : item.onAccept = .null) : item.id ∈ s.watched := by
  refine List.mem_filterMap.mpr ⟨item, ?_, if_pos hkind⟩
  unfold HpIocp.registered
  split
  · next j ol hf =>
    refine List.mem_eraseIdx_iff_getElem?.mpr ⟨i, fun heq => ?_, hitem⟩
    subst heq
    exact absurd (isFreed_iff.mpr ⟨ol, hf⟩) (Bool.eq_false_iff.mp hfree)
  · exact List.mem_of_getElem? hitem

/-- Taking an item out takes its id out. -/
theorem filterMap_eraseIdx {items : List Item} {i : Nat} {item : Item}
    (hnodup : (items.map Item.id).Nodup) (hitem : items[i]? = some item)
    (hkind : item.onAccept = .null) :
    (items.eraseIdx i).filterMap Item.watch = (items.filterMap Item.watch).erase item.id := by
  induction items generalizing i with
  | nil => cases hitem
  | cons x rest ih =>
    obtain ⟨hnot, hrest⟩ := List.nodup_cons.mp hnodup
    cases i with
    | zero =>
      cases hitem
      rw [List.eraseIdx_zero, List.tail_cons, List.filterMap_cons]
      have hwatch : item.watch = some item.id := if_pos hkind
      rw [hwatch]
      exact (List.erase_cons_head ..).symm
    | succ i =>
      rw [List.eraseIdx_cons_succ, List.filterMap_cons, List.filterMap_cons]
      have hin : rest[i]? = some item := hitem
      have hih := ih hrest hin
      cases hwatch : x.watch with
      | none => exact hih
      | some id =>
        have hid : id = x.id := by
          unfold Item.watch at hwatch
          split at hwatch
          · exact (Option.some.inj hwatch).symm
          · cases hwatch
        have hne : id ≠ item.id := fun heq => by
          rw [← hid, heq] at hnot
          exact hnot (List.mem_map_of_mem (List.mem_of_getElem? hin))
        dsimp only
        rw [List.erase_cons_tail (by simpa using hne), hih]

theorem maxfd_step (hstep : Step s a s') : s'.maxfd = s.maxfd := by
  cases hstep with
  | onErrorReturn => rw [onReturn_maxfd]
  | _ => rfl

theorem HpIocp.Told.room_step (h : s.Told) (hstep : Step s a s') :
    s'.items.length ≤ s'.maxfd := by
  rw [maxfd_step hstep]
  have hroom := h.room
  rcases hstep.items_cases with heq | ⟨i, x, y, -, -, -, heq⟩ |
    ⟨fd, x, d, e, l, b, _, -, hmake, -, heq⟩ | ⟨f, -, -, heq⟩ <;> rw [heq]
  · exact hroom
  · rw [List.length_set]
    exact hroom
  · have hfree := hmake.2.2.2
    rw [List.length_append, List.length_singleton]
    omega
  · exact (List.eraseIdx_sublist _ _).length_le.trans hroom

theorem HpIocp.Told.inRange_step (h : s.Told) (hstep : Step s a s') :
    ∀ f, s'.failing = some f → f.i < s'.items.length := by
  intro f hf
  have hold : s.failing = some f → f.i < s.items.length := h.inRange f
  have hget : ∀ {i : Nat} {x : Item}, s.items[i]? = some x → i < s.items.length :=
    fun hx => (List.getElem?_eq_some_iff.mp hx).1
  have hset : ∀ {j i : Nat} {y : Item}, j < s.items.length → j < (s.items.set i y).length :=
    fun hlt => by rwa [List.length_set]
  cases hstep with
  | addAgain => exact hset (hold hf)
  | addNew =>
    rw [List.length_append]
    exact Nat.lt_add_right _ (hold hf)
  | rm => exact hset (hold hf)
  | written => exact hset (hold hf)
  | fdErr hm hitem =>
    cases hf
    exact hset (hget hitem.get)
  | fdSent => exact hset (hold hf)
  | fdSendFailed hm hitem =>
    cases hf
    exact hset (hget hitem.get)
  | fdStale hm hitem =>
    cases hf
    exact hget hitem.get
  | ioFailed hm hitem =>
    cases hf
    exact hset (hget hitem.get)
  | ioDropped hm hitem =>
    cases hf
    exact hget hitem.get
  | ioPart => exact hset (hold hf)
  | onError _ hitem =>
    cases hf
    exact hset (hget hitem)
  | onErrorReturn =>
    rw [onReturn_failing] at hf
    cases hf
  | loopFailed _ hitem =>
    cases hf
    exact hget hitem
  | _ => exact hold hf

theorem reset_eq_null (c : Cb) : c.reset = .null ↔ c = .null := by cases c <;> decide

theorem given_eq_null (b : Bool) : Cb.given b = .null ↔ b = false := by cases b <;> decide

theorem watch_congr {x y : Item} (hid : y.id = x.id)
    (hkind : y.onAccept = .null ↔ x.onAccept = .null) : y.watch = x.watch := by
  unfold Item.watch
  simp only [hkind, hid]

theorem scanned_ids {i : Nat} {r w e : List Nat} {pd : Polld} (hs : s.Scans i r w e pd) :
    (s.scanned i w pd).map Polld.id = s.pds.map Polld.id := by
  unfold HpIocp.scanned
  split
  · exact Slots.map_set_same hs.get rfl
  · rfl

/-- The two tables before a step that posts nothing and changes no kind. -/
theorem HpIocp.Told.same (h : s.Told) (hmax : s'.maxfd = s.maxfd)
    (hitems : s'.items.map Item.watch = s.items.map Item.watch)
    (hfailing : s'.failing = s.failing ∨
      s.failing = none ∧ ∃ i ol, s'.failing = some ⟨i, ol, false⟩)
    (hpds : s'.pds.map Polld.id = s.pds.map Polld.id) (hq : s'.pollQ = s.pollQ) :
    Replica.InStep (tableApply s'.maxfd) (s'.pds.map Polld.id) s'.pollQ s'.watched := by
  rw [hmax, hpds, hq, HpIocp.watched_congr hitems hfailing]
  exact h.inStep

/-- A request for a watched id changes nothing. -/
theorem tableApply_request {maxfd : Nat} {ids : List Int} {id : Int} (hin : id ∈ ids) :
    tableApply maxfd ids (.rm id .inout) = some ids := by
  simp only [tableApply, if_pos hin]
  rw [if_neg (by decide)]

/-- The first message is handled: its assertion holds. -/
theorem HpIocp.Told.pollMsg {m : PollMsg} {q : List PollMsg} (h : s.Told)
    (hq : s.pollQ = m :: q) :
    ∃ pds, pollHandle s.maxfd s.pds m = some pds ∧
      (pds.map Polld.id).Pairwise (· < ·) ∧ pds.length ≤ s.maxfd ∧
        Replica.InStep (tableApply s.maxfd) (pds.map Polld.id) q s.watched := by
  have hinStep := h.inStep
  rw [hq] at hinStep
  obtain ⟨ids, happly, hrest⟩ := hinStep.take
  obtain ⟨pds, hhandle, rfl⟩ := pollHandle_refines h.sorted happly
  have hfits : (s.pds.map Polld.id).length ≤ s.maxfd := by
    rw [List.length_map]
    exact h.fits
  obtain ⟨hsorted, hlen⟩ := tableApply_sorted happly h.sorted hfits
  rw [List.length_map] at hlen
  exact ⟨pds, hhandle, hsorted, hlen, hrest⟩

theorem HpIocp.Told.inStep_step (h : s.Told) (hstep : Step s a s') (hok : KeepsTable s a) :
    Replica.InStep (tableApply s'.maxfd) (s'.pds.map Polld.id) s'.pollQ s'.watched := by
  obtain ⟨hfresh, hrm, hkind⟩ := hok
  cases hstep with
  | @addAgain fd a d e l b i item hgiven hitem hfd hfree =>
    have hsame := hkind hgiven item (List.mem_of_getElem? hitem) hfd
    refine h.same rfl (Slots.map_set_same hitem (watch_congr rfl ?_)) (.inl rfl) rfl rfl
    rw [hsame]
    exact given_eq_null a
  | @addNew fd a d e l b hmake =>
    have habove := h.ids.nextId_above (hfresh hmake)
    have hreg : ∀ x : Item, ({ s with items := s.items ++ [x] } : HpIocp).registered =
        s.registered ++ [x] := fun x => by
      unfold HpIocp.registered
      dsimp only
      split
      · next i ol hf => exact List.eraseIdx_append_of_lt_length (h.inRange _ hf) _
      · rfl
    have hwatched : ∀ x : Item, ({ s with items := s.items ++ [x] } : HpIocp).watched =
        s.watched ++ x.watch.toList := fun x => by
      unfold HpIocp.watched
      rw [hreg, List.filterMap_append]
      cases hx : x.watch <;> simp [hx]
    show Replica.InStep (tableApply s.maxfd) (s.pds.map Polld.id)
      (if a then s.pollQ else s.pollQ ++ [.add s.nextId fd])
      ({ s with items := s.items ++
        [⟨s.nextId, fd, .given a, .given d, .given e, .given l, 0, []⟩] } : HpIocp).watched
    rw [hwatched]
    cases a with
    | true => simpa [Item.watch, Cb.given] using h.inStep
    | false =>
      have hlen := s.watched_sublist.length_le
      have hroom := h.room
      have hfull := hmake.2.2.2
      rw [List.length_map] at hlen
      have hok : (∀ x ∈ s.watched, x < s.nextId) ∧ s.watched.length < s.maxfd :=
        ⟨fun x hx => habove x (s.watched_sublist.subset hx), by omega⟩
      exact h.inStep.post (if_pos hok)
  | rm hitem =>
    exact h.same rfl (Slots.map_set_same hitem.get (watch_congr rfl (reset_eq_null _))) (.inl rfl)
      rfl rfl
  | @written id data bytes freecb ptr i item hitem hlive hfree hdata =>
    have hnull := hrm hdata _ hitem.find hlive
    have hin := HpIocp.mem_watched hitem.get hfree hnull
    have hpost := h.inStep.post (tableApply_request hin)
    have hsame : (s.queueWrite i item bytes (hpIocpOlNewo s.next id data bytes freecb ptr)).watched =
        s.watched := HpIocp.watched_congr (Slots.map_set_same hitem.get rfl) (.inl rfl)
    rw [hsame]
    exact hpost
  | fdErr hm hitem =>
    exact h.same rfl (Slots.map_set_same hitem.get rfl) (.inr ⟨hm.calm, _, _, rfl⟩) rfl rfl
  | fdSent hm hitem => exact h.same rfl (Slots.map_set_same hitem.get rfl) (.inl rfl) rfl rfl
  | fdSendFailed hm hitem =>
    exact h.same rfl (Slots.map_set_same hitem.get rfl) (.inr ⟨hm.calm, _, _, rfl⟩) rfl rfl
  | fdStale hm => exact h.same rfl rfl (.inr ⟨hm.calm, _, _, rfl⟩) rfl rfl
  | ioFailed hm hitem =>
    exact h.same rfl (Slots.map_set_same hitem.get rfl) (.inr ⟨hm.calm, _, _, rfl⟩) rfl rfl
  | ioDropped hm => exact h.same rfl rfl (.inr ⟨hm.calm, _, _, rfl⟩) rfl rfl
  | @ioPart ol nbuf e q err drop i item hm hitem hwrite hpos hpart =>
    unfold RmWatched at hrm
    rw [hm.queue] at hrm
    have hnull := hrm hwrite ⟨hpos, hpart⟩ _ hitem.find
    have hin := HpIocp.mem_watched hitem.get (Bool.eq_false_iff.mpr (not_isFreed hm.calm)) hnull
    rw [hitem.id_eq] at hin
    have hpost := h.inStep.post (tableApply_request hin)
    have hsame : (({ s with userQ := q } : HpIocp).recommit i item ol nbuf).watched = s.watched :=
      HpIocp.watched_congr (Slots.map_set_same hitem.get rfl) (.inl rfl)
    rw [hsame]
    rwa [← hitem.id_eq] at hpost
  | @onError i ol item hf hitem =>
    have hnull : item.onAccept = .null := hrm _ hf item hitem
    have hidle : s.isFreed i = false := by
      unfold HpIocp.isFreed
      rw [hf]
      rfl
    have hbefore : s.watched = s.items.filterMap Item.watch := by
      unfold HpIocp.watched HpIocp.registered
      rw [hf]
    have hin := HpIocp.mem_watched hitem hidle hnull
    apply h.inStep.post
    simp only [tableApply, if_pos hin, if_true]
    rw [hbefore, ← filterMap_eraseIdx h.ids.sorted.nodup hitem hnull]
    unfold HpIocp.watched HpIocp.registered
    dsimp only [HpIocp.setItem, HpIocp.postPoll]
    rw [List.eraseIdx_set_eq]
  | @onErrorReturn i ol pc hf =>
    have hsame : s.watched = (s.items.eraseIdx i).filterMap Item.watch := by
      unfold HpIocp.watched HpIocp.registered
      rw [hf]
    rw [onReturn_maxfd, onReturn_pds, onReturn_pollQ]
    unfold HpIocp.watched
    rw [HpIocp.registered_calm (onReturn_failing ol), onReturn_items, ← hsame]
    exact h.inStep
  | loopFailed hcalm => exact h.same rfl rfl (.inr ⟨hcalm, _, _, rfl⟩) rfl rfl
  | pollMsg hq hpds =>
    obtain ⟨pds, hhandle, -, -, hrest⟩ := h.pollMsg hq
    rw [hpds] at hhandle
    cases hhandle
    exact hrest
  | scanReadFailed hs => exact h.same rfl rfl (.inl rfl) (scanned_ids hs) rfl
  | scanRead hs => exact h.same rfl rfl (.inl rfl) (scanned_ids hs) rfl
  | scanPost hs => exact h.same rfl rfl (.inl rfl) (scanned_ids hs) rfl
  | _ => exact h.same rfl rfl (.inl rfl) rfl rfl

theorem HpIocp.Told.pds_step (h : s.Told) (hstep : Step s a s') :
    (s'.pds.map Polld.id).Pairwise (· < ·) ∧ s'.pds.length ≤ s'.maxfd := by
  have hlen : ∀ {pds : List Polld}, pds.map Polld.id = s.pds.map Polld.id →
      (pds.map Polld.id).Pairwise (· < ·) ∧ pds.length ≤ s.maxfd := by
    intro pds heq
    have hlength := congrArg List.length heq
    rw [List.length_map, List.length_map] at hlength
    rw [heq, hlength]
    exact ⟨h.sorted, h.fits⟩
  cases hstep with
  | pollMsg hq hpds =>
    obtain ⟨pds, hhandle, hsorted, hfits, -⟩ := h.pollMsg hq
    rw [hpds] at hhandle
    cases hhandle
    exact ⟨hsorted, hfits⟩
  | scanReadFailed hs => exact hlen (scanned_ids hs)
  | scanRead hs => exact hlen (scanned_ids hs)
  | scanPost hs => exact hlen (scanned_ids hs)
  | @onErrorReturn i ol pc hf => cases ol <;> exact ⟨h.sorted, h.fits⟩
  | _ => exact ⟨h.sorted, h.fits⟩

theorem HpIocp.Told.step (h : s.Told) (hstep : Step s a s') (hok : KeepsTable s a) : s'.Told where
  ids := h.ids.step hstep hok.1
  room := h.room_step hstep
  inRange := h.inRange_step hstep
  sorted := (h.pds_step hstep).1
  fits := (h.pds_step hstep).2
  inStep := h.inStep_step hstep hok

theorem hpIocpInit_told (maxfd : Nat) : (hpIocpInit maxfd).Told where
  ids := hpIocpInit_ids maxfd
  room := Nat.zero_le _
  inRange := fun _ hf => by cases hf
  sorted := List.Pairwise.nil
  fits := Nat.zero_le _
  inStep := Replica.InStep.start

/-- What holds of the select thread's table: the assertion for the first message holds, the
table is sorted and fits, and without messages under way it has the ids of the registered
items that do not listen. -/
structure HpIocp.TableOk (s : HpIocp) : Prop where
  added : ∀ id fd q, s.pollQ = .add id fd :: q → ∀ pd ∈ s.pds, pd.id ≠ id
  asked : ∀ id flags q, s.pollQ = .rm id flags :: q → ∃ pd ∈ s.pds, pd.id = id
  handled : ∀ m q, s.pollQ = m :: q → (pollHandle s.maxfd s.pds m).isSome
  sorted : s.pds.Pairwise fun x y => x.id < y.id
  fits : s.pds.length ≤ s.maxfd
  settled : s.pollQ = [] → s.pds.map Polld.id = s.registered.filterMap Item.watch

theorem HpIocp.Told.tableOk (h : s.Told) : s.TableOk where
  added id fd q hq pd hpd heq := by
    have hinStep := h.inStep
    rw [hq] at hinStep
    obtain ⟨ids, happly, -⟩ := hinStep.take
    simp only [tableApply] at happly
    split at happly
    · next hok => exact (hok.1 pd.id (List.mem_map_of_mem hpd)).ne heq
    · cases happly
  asked id flags q hq := by
    have hinStep := h.inStep
    rw [hq] at hinStep
    obtain ⟨ids, happly, -⟩ := hinStep.take
    simp only [tableApply] at happly
    split at happly
    · next hin => exact List.mem_map.mp hin
    · cases happly
  handled m q hq := by
    obtain ⟨pds, hhandle, -⟩ := h.pollMsg hq
    rw [hhandle]
    rfl
  sorted := List.pairwise_map.mp h.sorted
  fits := h.fits
  settled hq := by
    have hinStep := h.inStep
    rw [hq] at hinStep
    exact hinStep.agree

end

/-- The two threads agree on what is watched, as long as the select thread is only told of
items that do not listen and no item changes its kind. -/
theorem tables_agree (maxfd : Nat) (s : HpIocp)
    (h : Run.Along step KeepsTable (hpIocpInit maxfd) s) : s.TableOk :=
  HpIocp.Told.tableOk <| h.invariant (hpIocpInit_told maxfd)
    fun _ _ _ hs hstep hok => hs.step (step_cases hstep) hok

/-- A listening item and two others, one of which fails. -/
theorem tables_agree_three : ∃ s, (Run.Along step KeepsTable (hpIocpInit 0) s ∧
    s.pds.map Polld.id = [2]) ∧ s.TableOk := by
  obtain ⟨s, hrun, hids⟩ : ∃ s, Run.Along step KeepsTable (hpIocpInit 0) s ∧
      s.pds.map Polld.id = [2] :=
    Run.along_any (fun (s : HpIocp) (a : Act) => decide (KeepsTable s a))
      [.add 5 true false true false true, .add 6 false true true true true,
        .add 7 false true true false true, .msgsEnd, .pass false, .pass true, .itemOnError,
        .onErrorReturn, .pollMsg, .pollMsg, .pollMsg]
      (fun _ _ h => of_decide_eq_true h) (fun s => s.pds.map Polld.id = [2]) (by decide +kernel)
  exact ⟨s, ⟨hrun, hids⟩, tables_agree 0 s hrun⟩

/-- A listening item fails. The select thread was never told of it, and its assertion for
the message it gets does not hold. -/
theorem tables_disagree : ∃ s, Run.Along step (fun _ _ => True) (hpIocpInit 0) s ∧
    s.pollQ = [.rm 0 .zero] ∧ s.pds = [] ∧ pollHandle s.maxfd s.pds (.rm 0 .zero) = none :=
  Run.along_any (fun _ _ => true)
    [.add 5 true false true true true, .msgsEnd, .pass true, .itemOnError]
    (fun _ _ _ => trivial) _ (by decide +kernel)

end Libhp.Iocp
