import Libhp.Iocp.Ids

/-!
# Order of writes

For every id, what was accepted is what was sent, what is submitted and what is queued, in
this order. A send that completes in part breaks it: the rest goes to the end of the queue.
-/
namespace Libhp.Iocp
open CInt

def flat (ols : List Ol) : List UInt8 := ols.flatMap Ol.buf

/-- What is submitted on the socket of `id` and not completed. -/
def onWay (id : Int) (sends : List Ol) : List UInt8 := flat (sends.filter fun ol => ol.id = id)

/-- `hp_iocp_item_on_error` is not called for the item at `i`. -/
def HpIocp.LiveAt (s : HpIocp) (i : Nat) : Prop := ∀ f, s.failing = some f → f.i ≠ i

/-- The items that `hp_iocp_item_on_error` is not called for. -/
def HpIocp.live (s : HpIocp) : List Item :=
  match s.failing with
  | none => s.items
  | some f => s.items.eraseIdx f.i

/-- A send is completed with all of its buffer or with an error, unless nothing can follow
it any more: its item is gone or going, and no other send of the id is under way. -/
def WholeSends (s : HpIocp) : Act → Prop
  | .sendDone id nbuf =>
    ∀ ol ∈ s.sends.find? (fun ol => ol.id = id),
      nbuf = 0 ∨ nbuf = ol.buf.length ∨
        (∀ item ∈ s.live, item.id ≠ id) ∧
          ∀ ol' ∈ s.sends.eraseP (fun ol => ol.id = id), ol'.id ≠ id
  | _ => True

instance (s : HpIocp) : (a : Act) → Decidable (WholeSends s a)
  | .sendDone .. => inferInstanceAs (Decidable (∀ ol ∈ s.sends.find? _, _ ∨ _ ∨ _ ∧ _))
  | .add .. | .rm .. | .write .. | .handle .. | .itemOnError | .onErrorReturn | .msgsEnd | .pass ..
  | .pollMsg | .pollMsgsEnd | .select .. | .scan .. | .recvDone .. | .postIo .. =>
    isTrue trivial

/-- What is written fits the length of a WSABUF. -/
def FitsLen : Act → Prop
  | .write _ _ bytes _ _ => bytes.length < 2 ^ 32
  | _ => True

instance : (a : Act) → Decidable (FitsLen a)
  | .write _ _ bytes _ _ => inferInstanceAs (Decidable (bytes.length < _))
  | .add .. | .rm .. | .handle .. | .itemOnError | .onErrorReturn | .msgsEnd | .pass .. | .pollMsg
  | .pollMsgsEnd | .select .. | .scan .. | .sendDone .. | .recvDone .. | .postIo .. =>
    isTrue trivial

/-- No send is completed in part, no write is cut short, and ids are not mixed up. -/
def KeepsOrder (s : HpIocp) (a : Act) : Prop := FreshIds s a ∧ WholeSends s a ∧ FitsLen a

instance (s : HpIocp) (a : Act) : Decidable (KeepsOrder s a) :=
  inferInstanceAs (Decidable (_ ∧ _))

def UserMsg.io? : UserMsg → Option (Ol × Nat)
  | .fd _ _ => none
  | .io ol nbuf _ => some (ol, nbuf)

/-- The completions that the user thread has not handled. -/
def HpIocp.completed (s : HpIocp) : List (Ol × Nat) := s.done ++ s.userQ.filterMap UserMsg.io?

/-- What follows the bytes sent: what is submitted, on a socket that still sends. -/
def Sock.next (sock : Sock) (id : Int) (sends : List Ol) : List UInt8 :=
  if sock.dead then [] else onWay id sends

/-- All that was accepted for the item is sent, submitted or queued. -/
def Sock.Full (sock : Sock) (sends : List Ol) (item : Item) : Prop :=
  sock.dead = false → sock.written = sock.wire ++ onWay item.id sends ++ flat item.obuf

structure HpIocp.InOrder (s : HpIocp) : Prop where
  ids : s.Ids
  mine : s.Mine
  sendsBelow : ∀ ol ∈ s.sends, ol.id < s.ioid
  reads : ∀ ol ∈ s.recvs, ol.read = true
  whole : ∀ p ∈ s.completed, p.1.read = false → p.2 = 0 ∨ p.2 = p.1.buf.length ∨
    p.1.id < s.ioid ∧ s.Leaving (fun _ => True) p.1.id
  sent : ∀ id, (s.sock id).wire ++ (s.sock id).next id s.sends <+: (s.sock id).written
  all : ∀ i item, s.items[i]? = some item → s.LiveAt i → (s.sock item.id).Full s.sends item

section
variable {s s' : HpIocp} {a : Act} {id : Int} {sends : List Ol} {ol : Ol}

/-- The record of a write that fits has all of its bytes. -/
theorem hpIocpOlNewo_buf {no data ptr : Nat} {bytes : List UInt8} {freecb : Bool}
    (hlen : bytes.length < 2 ^ 32) : (hpIocpOlNewo no id data bytes freecb ptr).buf = bytes := by
  show bytes.take (bytes.length % 2 ^ 32) = bytes
  rw [Nat.mod_eq_of_lt hlen, List.take_length]

/-- A send that has not failed and has sent nothing had nothing to send. -/
theorem buf_of_not_failed {nbuf : Nat} (h : (nbuf = 0 && ol.buf ≠ []) = false) (hzero : nbuf = 0) :
    ol.buf = [] := by
  simpa [hzero] using h

theorem onWay_append (h : ol.id = id) : onWay id (sends ++ [ol]) = onWay id sends ++ ol.buf := by
  unfold onWay flat
  rw [List.filter_append, List.flatMap_append, List.filter_cons_of_pos (by simpa using h)]
  simp

theorem onWay_append_ne (h : ol.id ≠ id) : onWay id (sends ++ [ol]) = onWay id sends := by
  unfold onWay
  rw [List.filter_append, List.filter_cons_of_neg (by simpa using h), List.filter_nil,
    List.append_nil]

/-- The oldest send on a socket comes first. -/
theorem onWay_find (h : sends.find? (fun ol => ol.id = id) = some ol) :
    onWay id sends = ol.buf ++ onWay id (sends.eraseP fun ol => ol.id = id) := by
  induction sends with
  | nil => cases h
  | cons o rest ih =>
    by_cases ho : o.id = id
    · rw [List.find?_cons_of_pos (by simpa using ho)] at h
      cases h
      rw [List.eraseP_cons_of_pos (by simpa using ho)]
      unfold onWay flat
      rw [List.filter_cons_of_pos (by simpa using ho), List.flatMap_cons]
    · rw [List.find?_cons_of_neg (by simpa using ho)] at h
      rw [List.eraseP_cons_of_neg (by simpa using ho)]
      unfold onWay at ih ⊢
      rw [List.filter_cons_of_neg (by simpa using ho), List.filter_cons_of_neg (by simpa using ho)]
      exact ih h

theorem onWay_eraseP_ne {id' : Int} (h : id' ≠ id) :
    onWay id' (sends.eraseP fun ol => ol.id = id) = onWay id' sends := by
  induction sends with
  | nil => rfl
  | cons o rest ih =>
    by_cases ho : o.id = id
    · rw [List.eraseP_cons_of_pos (by simpa using ho)]
      unfold onWay
      rw [List.filter_cons_of_neg (by simpa using ho ▸ h.symm)]
    · rw [List.eraseP_cons_of_neg (by simpa using ho)]
      unfold onWay flat at ih ⊢
      rw [List.filter_cons, List.filter_cons]
      split
      · rw [List.flatMap_cons, List.flatMap_cons, ih]
      · exact ih

theorem onWay_none (h : ∀ ol ∈ sends, ol.id ≠ id) : onWay id sends = [] := by
  unfold onWay
  rw [List.filter_eq_nil_iff.mpr fun ol hin => by simpa using h ol hin]
  rfl

/-- Without a live item of the id, every item of the id is leaving. -/
theorem HpIocp.leaving_of_live (h : ∀ item ∈ s.live, item.id ≠ id) :
    s.Leaving (fun _ => True) id := by
  intro i hi
  rw [List.getElem?_map] at hi
  obtain ⟨item, hitem, rfl⟩ := Option.map_eq_some_iff.mp hi
  unfold HpIocp.live at h
  cases hf : s.failing with
  | none =>
    rw [hf] at h
    exact absurd rfl (h item (List.mem_of_getElem? hitem))
  | some f =>
    rw [hf] at h
    refine ⟨f.ol, f.called, ?_, trivial⟩
    by_contra hne
    have hother : i ≠ f.i := fun heq => hne (by rw [heq])
    have hin := List.mem_eraseIdx_iff_getElem?.mpr ⟨i, hother, hitem⟩
    exact h item hin rfl

theorem HpIocp.liveAt_of_calm (hcalm : s.failing = none) (i : Nat) : s.LiveAt i := by
  intro f hf
  rw [hcalm] at hf
  cases hf

theorem HpIocp.LiveAt.mem {i : Nat} {item : Item} (h : s.LiveAt i)
    (hitem : s.items[i]? = some item) : item ∈ s.live := by
  unfold HpIocp.live
  split
  · exact List.mem_of_getElem? hitem
  · next f hf => exact List.mem_eraseIdx_iff_getElem?.mpr ⟨i, (h f hf).symm, hitem⟩

theorem HpIocp.InOrder.onWay_new (h : s.InOrder) (hidle : s.ioid = INT_MAX - 1 → s.Idle) :
    onWay s.nextId s.sends = [] := by
  apply onWay_none
  intro ol hin heq
  by_cases hend : s.ioid = INT_MAX - 1
  · rw [(hidle hend).2.2.2.2.1] at hin
    cases hin
  · exact absurd heq (HpIocp.lt_nextId (h.sendsBelow ol hin) hend).ne

/-- What is sent and submitted stays the beginning of what was accepted. -/
theorem HpIocp.InOrder.sent_step (h : s.InOrder) (hstep : Step s a s') (hok : KeepsOrder s a) :
    ∀ id, (s'.sock id).wire ++ (s'.sock id).next id s'.sends <+: (s'.sock id).written := by
  cases hstep with
  | addNew hmake =>
    intro id
    dsimp only
    by_cases hid : id = s.nextId
    · subst hid
      rw [Function.update_self]
      unfold Sock.next
      rw [h.onWay_new (hok.1 hmake)]
      exact List.nil_prefix
    · rw [Function.update_of_ne hid]
      exact h.sent id
  | @written id' data bytes freecb ptr i item hitem hlive hfree hdata =>
    intro id
    dsimp only [HpIocp.queueWrite, HpIocp.setItem]
    by_cases hid : id = item.id
    · subst hid
      rw [Function.update_self]
      exact (h.sent item.id).trans (List.prefix_append _ _)
    · rw [Function.update_of_ne hid]
      exact h.sent id
  | @fdSent id' flags q drop i item ol obuf hm hitem hout hobuf halive =>
    intro id
    have hol : ol.id = item.id :=
      h.mine item (List.mem_of_getElem? hitem.get) ol (hobuf ▸ List.mem_cons_self)
    show (s.sock id).wire ++ (s.sock id).next id (s.sends ++ [ol]) <+: (s.sock id).written
    by_cases hid : id = item.id
    · subst hid
      have hsent := h.sent item.id
      unfold Sock.next at hsent ⊢
      split
      · next hdead => rwa [if_pos hdead] at hsent
      · next hdead =>
        have hfull := h.all i item hitem.get (HpIocp.liveAt_of_calm hm.calm i)
          (Bool.eq_false_iff.mpr hdead)
        rw [onWay_append hol, hfull, hobuf, ← List.append_assoc]
        unfold flat
        rw [List.flatMap_cons, ← List.append_assoc]
        exact List.prefix_append _ _
    · unfold Sock.next
      rw [onWay_append_ne fun heq => hid (heq.symm.trans hol)]
      exact h.sent id
  | @sendDone id' nbuf ol hfind hlen hdead =>
    intro id
    dsimp only
    by_cases hid : id = id'
    · subst hid
      rw [Function.update_self]
      have hsent := h.sent id
      have hway := onWay_find hfind
      unfold Sock.next at hsent ⊢
      by_cases hafter : ((s.sock id).dead || (nbuf = 0 && ol.buf ≠ [])) = true
      · have hzero : nbuf = 0 := by
          rcases Bool.or_eq_true_iff.mp hafter with hbefore | hfailed
          · exact hdead hbefore
          · exact of_decide_eq_true (Bool.and_eq_true_iff.mp hfailed).1
        rw [hzero, List.take_zero, List.append_nil]
        rw [hzero] at hafter
        rw [if_pos hafter, List.append_nil]
        exact (List.prefix_append _ _).trans hsent
      · obtain ⟨halive, hfine⟩ := Bool.or_eq_false_iff.mp (Bool.eq_false_iff.mpr hafter)
        rw [if_neg hafter]
        rw [if_neg (Bool.eq_false_iff.mp halive), hway] at hsent
        refine List.IsPrefix.trans ?_ hsent
        rw [List.append_assoc]
        rcases hok.2.1 ol hfind with hzero | hfull | ⟨-, hlast⟩
        · rw [buf_of_not_failed hfine hzero, List.take_nil]
        · rw [hfull, List.take_length]
        · rw [onWay_none hlast, List.append_nil, List.append_nil]
          exact (List.prefix_append_right_inj _).mpr (List.take_prefix _ _)
    · rw [Function.update_of_ne hid]
      unfold Sock.next
      rw [onWay_eraseP_ne hid]
      exact h.sent id
  | onErrorReturn hf =>
    rw [onReturn_sock, onReturn_sends]
    exact h.sent
  | _ => exact h.sent

/-- The accounts of the items that are not failing. -/
def AllFull (items : List Item) (live : Nat → Prop) (sock : Int → Sock) (sends : List Ol) : Prop :=
  ∀ i item, items[i]? = some item → live i → (sock item.id).Full sends item

/-- One item changes, and the others are as they were. -/
theorem AllFull.set {items : List Item} {live live' : Nat → Prop} {sock sock' : Int → Sock}
    {sends sends' : List Ol} {i : Nat} {y : Item} (h : AllFull items live sock sends)
    (hlive : ∀ j, j ≠ i → live' j → live j)
    (hothers : ∀ j item, j ≠ i → items[j]? = some item → (sock item.id).Full sends item →
      (sock' item.id).Full sends' item)
    (hy : live' i → (sock' y.id).Full sends' y) : AllFull (items.set i y) live' sock' sends' := by
  intro j item hj hl
  rw [List.getElem?_set] at hj
  split at hj
  · next heq =>
    subst heq
    split at hj
    · cases hj
      exact hy hl
    · cases hj
  · next hne =>
    have hne' : j ≠ i := fun heq => hne heq.symm
    exact hothers j item hne' hj (h j item hj (hlive j hne' hl))

theorem HpIocp.InOrder.all_step (h : s.InOrder) (hstep : Step s a s') (hok : KeepsOrder s a) :
    AllFull s'.items s'.LiveAt s'.sock s'.sends := by
  have hall : AllFull s.items s.LiveAt s.sock s.sends := h.all
  have hcalmAt : s.failing = none → ∀ j, s.LiveAt j := HpIocp.liveAt_of_calm
  -- what happens to an item that is failing from now on does not matter
  have hfails : ∀ {i : Nat} {y : Item} {ol : Option Ol} {t : HpIocp}, s.failing = none →
      t.failing = some ⟨i, ol, false⟩ → AllFull (s.items.set i y) t.LiveAt s.sock s.sends := by
    intro i y ol t hcalm hfail
    refine hall.set (fun j _ _ => hcalmAt hcalm j) (fun _ _ _ _ hfull => hfull) fun hl => ?_
    exact absurd rfl (hl _ hfail)
  have hfails' : ∀ {i : Nat} {ol : Option Ol}, s.failing = none →
      AllFull s.items (s.fail i ol).LiveAt s.sock s.sends :=
    fun hcalm j item hj _ => hall j item hj (hcalmAt hcalm j)
  cases hstep with
  | @addAgain fd a d e l b i item hgiven hitem hfd hfree =>
    exact hall.set (fun _ _ hl => hl) (fun _ _ _ _ hfull => hfull) fun hl => hall i item hitem hl
  | @addNew fd a d e l b hmake =>
    have habove := h.ids.nextId_above (hok.1 hmake)
    intro j item hj hl
    by_cases hlen : j < s.items.length
    · rw [List.getElem?_append_left hlen] at hj
      have hlt := habove item.id (List.mem_map_of_mem (List.mem_of_getElem? hj))
      dsimp only
      rw [Function.update_of_ne hlt.ne]
      exact hall j item hj hl
    · rw [List.getElem?_append_right (Nat.le_of_not_lt hlen)] at hj
      have hnew := List.mem_singleton.mp (List.mem_of_getElem? hj)
      subst hnew
      dsimp only
      rw [Function.update_self]
      intro _
      rw [h.onWay_new (hok.1 hmake)]
      rfl
  | @rm id i item hitem =>
    exact hall.set (fun _ _ hl => hl) (fun _ _ _ _ hfull => hfull) fun hl =>
      hall i item hitem.get hl
  | @written id data bytes freecb ptr i item hitem hlive hfree hdata =>
    refine hall.set (fun _ _ hl => hl) (fun j other hne hj hfull => ?_) fun hl => ?_
    · dsimp only [HpIocp.queueWrite]
      rw [Function.update_of_ne fun heq => hne (h.ids.unique hj hitem.get heq)]
      exact hfull
    · dsimp only [HpIocp.queueWrite, HpIocp.setItem]
      rw [Function.update_self]
      intro hdead
      have hfull := hall i item hitem.get hl hdead
      dsimp only
      rw [hfull]
      unfold flat
      rw [List.flatMap_append, ← List.append_assoc, List.flatMap_singleton,
        hpIocpOlNewo_buf hok.2.2]
  | fdErr hm hitem => exact hfails hm.calm rfl
  | @fdSent id flags q drop i item ol obuf hm hitem hout hobuf halive =>
    have hol : ol.id = item.id :=
      h.mine item (List.mem_of_getElem? hitem.get) ol (hobuf ▸ List.mem_cons_self)
    refine hall.set (fun _ _ hl => hl) (fun j other hne hj hfull hdead => ?_) fun hl hdead => ?_
    · rw [onWay_append_ne fun heq => hne (h.ids.unique hj hitem.get (heq.symm.trans hol))]
      exact hfull hdead
    · have hfull := hall i item hitem.get hl hdead
      rw [hobuf] at hfull
      show (s.sock item.id).written =
        (s.sock item.id).wire ++ onWay item.id (s.sends ++ [ol]) ++ flat obuf
      unfold flat at hfull ⊢
      rw [List.flatMap_cons] at hfull
      rw [onWay_append hol, hfull]
      simp only [List.append_assoc]
  | fdSendFailed hm hitem => exact hfails hm.calm rfl
  | fdStale hm => exact hfails' hm.calm
  | ioFailed hm hitem => exact hfails hm.calm rfl
  | ioDropped hm => exact hfails' hm.calm
  | @ioPart ol nbuf e q err drop i item hm hitem hwrite hpos hpart =>
    -- a part is only sent of what leaves, and nothing leaves now
    have hin : (ol, nbuf) ∈ s.completed := by
      refine List.mem_append_right _ (List.mem_filterMap.mpr ⟨.io ol nbuf e, ?_, rfl⟩)
      rw [hm.queue]
      exact List.mem_cons_self
    rcases h.whole _ hin hwrite with hzero | hfull | ⟨-, hleaving⟩
    · exact absurd hzero hpos.ne'
    · exact absurd hfull hpart.ne
    · obtain ⟨ol', c, hf, -⟩ := hleaving i (by
        rw [List.getElem?_map, hitem.get, Option.map_some, hitem.id_eq])
      rw [hm.calm] at hf
      cases hf
  | loopFailed hcalm => exact hfails' hcalm
  | @onError i ol item hf hitem =>
    refine hall.set (fun j hne hl f hf' => ?_) (fun _ _ _ _ hfull => hfull) fun hl => ?_
    · rw [hf] at hf'
      cases hf'
      exact hne.symm
    · exact absurd rfl (hl _ rfl)
  | @onErrorReturn i ol pc hf =>
    have hlive : ∀ j, j ≠ i → s.LiveAt j := fun j hne f hf' => by
      rw [hf] at hf'
      cases hf'
      exact hne.symm
    rw [onReturn_items, onReturn_sock, onReturn_sends]
    intro j item hj _
    rw [List.getElem?_eraseIdx] at hj
    split at hj
    · next hlt => exact hall j item hj (hlive j hlt.ne)
    · next hge => exact hall (j + 1) item hj (hlive _ (by omega))
  | @sendDone id nbuf ol hfind hlen hdead =>
    intro j item hj hl
    by_cases hid : item.id = id
    · subst hid
      dsimp only
      rw [Function.update_self]
      intro halive
      dsimp only at halive
      obtain ⟨hd, hn⟩ := Bool.or_eq_false_iff.mp halive
      have hfull := hall j item hj hl hd
      rw [onWay_find hfind] at hfull
      rcases hok.2.1 ol hfind with hzero | hwhole | ⟨hnone, -⟩
      · rw [buf_of_not_failed hn hzero] at hfull ⊢
        dsimp only
        rw [hfull, List.take_nil, List.nil_append, List.append_nil]
      · dsimp only
        rw [hwhole, List.take_length, hfull]
        simp only [List.append_assoc]
      · exact absurd rfl (hnone item (HpIocp.LiveAt.mem hl hj))
    · dsimp only
      rw [Function.update_of_ne hid]
      intro hd
      rw [onWay_eraseP_ne hid]
      exact hall j item hj hl hd
  | _ => exact hall

theorem HpIocp.InOrder.sendsBelow_step (h : s.InOrder) (hstep : Step s a s')
    (hok : FreshIds s a) : ∀ ol ∈ s'.sends, ol.id < s'.ioid := by
  intro ol hin
  have hold : ol ∈ s.sends → ol.id < s'.ioid := fun hin' =>
    (h.sendsBelow ol hin').trans_le
      (ioid_le hstep hok fun hidle => List.ne_nil_of_mem hin' hidle.2.2.2.2.1)
  cases hstep with
  | fdSent hm hitem hout hobuf =>
    rcases List.mem_append.mp hin with hsent | hnew
    · exact hold hsent
    · have hmem := List.mem_of_getElem? hitem.get
      rw [List.mem_singleton.mp hnew, h.mine _ hmem _ (hobuf ▸ List.mem_cons_self)]
      exact h.ids.below _ (List.mem_map_of_mem hmem)
  | sendDone hfind => exact hold ((List.eraseP_sublist).subset hin)
  | onErrorReturn hf =>
    rw [onReturn_sends] at hin
    exact hold hin
  | _ => exact hold hin

theorem HpIocp.InOrder.reads_step (h : s.InOrder) (hstep : Step s a s') :
    ∀ ol ∈ s'.recvs, ol.read = true := by
  intro ol hin
  cases hstep with
  | scanRead hs =>
    rcases List.mem_append.mp hin with hold | hnew
    · exact h.reads ol hold
    · rw [List.mem_singleton.mp hnew]
      rfl
  | recvDone hk => exact h.reads ol ((List.eraseIdx_sublist _ _).subset hin)
  | @onErrorReturn i ol' pc hf =>
    cases ol' with
    | none => exact h.reads ol hin
    | some o => exact h.reads ol hin
  | _ => exact h.reads ol hin

/-- The completions that a step adds. -/
theorem completed_cases {p : Ol × Nat} (hstep : Step s a s') (hin : p ∈ s'.completed) :
    p ∈ s.completed ∨ p.1 ∈ s.recvs ∨
      ∃ id, a = .sendDone id p.2 ∧ s.sends.find? (fun ol => ol.id = id) = some p.1 := by
  rcases List.mem_append.mp hin with hdone | hq
  · cases hstep with
    | @onErrorReturn i ol pc hf =>
      cases ol with
      | none => exact .inl (List.mem_append_left _ hdone)
      | some o => exact .inl (List.mem_append_left _ hdone)
    | @sendDone id nbuf ol hfind =>
      rcases List.mem_append.mp hdone with hold | hnew
      · exact .inl (List.mem_append_left _ hold)
      · cases List.mem_singleton.mp hnew
        exact .inr (.inr ⟨id, rfl, hfind⟩)
    | @recvDone k nbuf ol hk =>
      rcases List.mem_append.mp hdone with hold | hnew
      · exact .inl (List.mem_append_left _ hold)
      · cases List.mem_singleton.mp hnew
        exact .inr (.inl (List.mem_of_getElem? hk))
    | postIo hk =>
      exact .inl (List.mem_append_left _ ((List.eraseIdx_sublist _ _).subset hdone))
    | _ => exact .inl (List.mem_append_left _ hdone)
  · obtain ⟨m, hm, hp⟩ := List.mem_filterMap.mp hq
    rcases userQ_cases hstep hm with hold | ⟨id, flags, rfl, -⟩ | ⟨ol, nbuf, err, rfl, hdone⟩
    · exact .inl (List.mem_append_right _ (List.mem_filterMap.mpr ⟨m, hold, hp⟩))
    · cases hp
    · cases hp
      exact .inl (List.mem_append_left _ hdone)

theorem HpIocp.InOrder.whole_step (h : s.InOrder) (hstep : Step s a s') (hok : KeepsOrder s a) :
    ∀ p ∈ s'.completed, p.1.read = false → p.2 = 0 ∨ p.2 = p.1.buf.length ∨
      p.1.id < s'.ioid ∧ s'.Leaving (fun _ => True) p.1.id := by
  intro p hin hwrite
  have hstays : ∀ {id : Int}, ¬ s.Idle → id < s.ioid → s.Leaving (fun _ => True) id →
      id < s'.ioid ∧ s'.Leaving (fun _ => True) id := fun hbusy hlt hleaving =>
    ⟨hlt.trans_le (ioid_le hstep hok.1 hbusy),
      hleaving.step (fun _ => trivial) hlt hstep hok.1 hbusy⟩
  rcases completed_cases hstep hin with hold | hread | ⟨id, rfl, hfind⟩
  · rcases h.whole p hold hwrite with hzero | hfull | ⟨hlt, hleaving⟩
    · exact .inl hzero
    · exact .inr (.inl hfull)
    · refine .inr (.inr (hstays (fun hidle => ?_) hlt hleaving))
      unfold HpIocp.completed at hold
      rw [hidle.2.2.2.1, hidle.2.2.2.2.2.2] at hold
      cases hold
  · rw [h.reads p.1 hread] at hwrite
    cases hwrite
  · have hsend := List.mem_of_find?_eq_some hfind
    have hid : p.1.id = id := by simpa using List.find?_some hfind
    rcases hok.2.1 p.1 hfind with hzero | hfull | ⟨hnone, -⟩
    · exact .inl hzero
    · exact .inr (.inl hfull)
    · refine .inr (.inr (hstays (fun hidle => ?_) (h.sendsBelow p.1 hsend) ?_))
      · exact List.ne_nil_of_mem hsend hidle.2.2.2.2.1
      · rw [hid]
        exact HpIocp.leaving_of_live hnone

theorem HpIocp.InOrder.step (h : s.InOrder) (hstep : Step s a s') (hok : KeepsOrder s a) :
    s'.InOrder where
  ids := h.ids.step hstep hok.1
  mine := h.mine.step hstep
  sendsBelow := h.sendsBelow_step hstep hok.1
  reads := h.reads_step hstep
  whole := h.whole_step hstep hok
  sent := h.sent_step hstep hok
  all := h.all_step hstep hok

theorem hpIocpInit_inOrder (maxfd : Nat) : (hpIocpInit maxfd).InOrder where
  ids := hpIocpInit_ids maxfd
  mine := fun _ hin => absurd hin List.not_mem_nil
  sendsBelow := fun _ hin => absurd hin List.not_mem_nil
  reads := fun _ hin => absurd hin List.not_mem_nil
  whole := fun _ hin => absurd hin List.not_mem_nil
  sent := fun _ => List.nil_prefix
  all := fun _ _ hitem => absurd hitem (by simp [hpIocpInit])

end

/-- As long as no send is completed in part, what goes out on a socket is a prefix of what
was accepted for it. -/
theorem wire_in_order (maxfd : Nat) (s : HpIocp)
    (h : Run.Along step KeepsOrder (hpIocpInit maxfd) s) (id : Int) :
    (s.sock id).wire <+: (s.sock id).written := by
  have hinv : s.InOrder := h.invariant (hpIocpInit_inOrder maxfd)
    fun s a s' hs hstep hok => hs.step (step_cases hstep) hok
  exact (List.prefix_append _ _).trans (hinv.sent id)

/-- Two writes, both of which are sent. -/
theorem wire_in_order_two : ∃ s, (Run.Along step KeepsOrder (hpIocpInit 0) s ∧
    (s.sock 0).wire = [1, 2, 3]) ∧ (s.sock 0).wire <+: (s.sock 0).written := by
  obtain ⟨s, hrun, hsent⟩ : ∃ s, Run.Along step KeepsOrder (hpIocpInit 0) s ∧
      (s.sock 0).wire = [1, 2, 3] :=
    Run.along_any (fun (s : HpIocp) (a : Act) => decide (KeepsOrder s a))
      [.add 5 false true true false true, .pollMsg, .write 0 1000 [1, 2] true 0, .pollMsg,
        .pollMsgsEnd, .select [] [5] [], .scan false, .scan false, .handle none false,
        .write 0 2000 [3] true 0, .pollMsg, .pollMsgsEnd, .select [] [5] [], .scan false,
        .handle none false, .sendDone 0 2, .sendDone 0 1]
      (fun _ _ h => of_decide_eq_true h) (fun s => (s.sock 0).wire = [1, 2, 3])
      (by decide +kernel)
  exact ⟨s, ⟨hrun, hsent⟩, wire_in_order 0 s hrun 0⟩

/-- The first buffer is sent in part while the second is queued. What is left of the first
goes behind the second. -/
theorem wire_not_in_order : ∃ s, Run.Along step (fun _ _ => True) (hpIocpInit 0) s ∧
    (s.sock 0).written = [1, 2, 3] ∧ (s.sock 0).wire = [1, 3] ∧
      ¬ (s.sock 0).wire <+: (s.sock 0).written :=
  Run.along_any (fun _ _ => true)
    [.add 5 false true true false true, .pollMsg, .write 0 1000 [1, 2] true 0, .pollMsg,
      .pollMsgsEnd, .select [] [5] [], .scan false, .scan false, .handle none false,
      .write 0 2000 [3] true 0, .sendDone 0 1, .postIo 0 0, .handle none false, .pollMsg,
      .pollMsg, .pollMsgsEnd, .select [] [5] [], .scan false, .handle none false,
      .sendDone 0 1]
    (fun _ _ _ => trivial) _ (by decide +kernel)

end Libhp.Iocp
