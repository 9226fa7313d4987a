import Libhp.Iocp.Ids
import Libhp.Lib.Ledger

/-!
# Who owns an overlapped record

A record is queued at an item, submitted, completed, queued to the user thread, or being
handled there; otherwise it has been deleted. A step moves records between these places,
makes a new one or deletes one.
-/
namespace Libhp.Iocp

def UserMsg.ol? : UserMsg → Option Ol
  | .fd _ _ => none
  | .io ol _ _ => some ol

def queued (items : List Item) : List Ol := items.flatMap Item.obuf

/-- The records that are submitted, completed or being handled. -/
def HpIocp.underWay (s : HpIocp) : List Ol :=
  s.sends ++ s.recvs ++ s.done.map Prod.fst ++ s.userQ.filterMap UserMsg.ol? ++
    (s.failing.bind Failing.ol).toList

/-- The records that something holds. -/
def HpIocp.held (s : HpIocp) : List Ol := queued s.items ++ s.underWay

/-- A send of an item that is there is handled with its whole buffer sent, or with an error. -/
def HandlesWhole (s : HpIocp) : Act → Prop
  | .handle _ _ =>
    match s.userQ with
    | .io ol nbuf _ :: _ =>
      (s.itemFind ol.id).isSome → ol.read = false → 0 < nbuf → ol.buf.length ≤ nbuf
    | _ => True
  | _ => True

/-- `hp_iocp_item_on_error` is only called for items that have no buffer queued. -/
def FailsEmpty (s : HpIocp) : Act → Prop
  | .itemOnError => ∀ f ∈ s.failing, ∀ item ∈ s.items[f.i]?, item.obuf = []
  | _ => True

def decHandlesWhole (s : HpIocp) (err : Option Int) (drop : Bool) :
    (q : List UserMsg) → Decidable (HandlesWhole { s with userQ := q } (.handle err drop))
  | .io .. :: _ => inferInstanceAs (Decidable (_ → _ → _ → _))
  | .fd .. :: _ | [] => isTrue trivial

instance (s : HpIocp) : (a : Act) → Decidable (HandlesWhole s a)
  | .handle err drop => decHandlesWhole s err drop s.userQ
  | .add .. | .rm .. | .write .. | .itemOnError | .onErrorReturn | .msgsEnd | .pass ..
  | .pollMsg | .pollMsgsEnd | .select .. | .scan .. | .sendDone .. | .recvDone .. | .postIo .. =>
    isTrue trivial

instance (s : HpIocp) (a : Act) : Decidable (FailsEmpty s a) := by
  unfold FailsEmpty
  split <;> infer_instance

def KeepsOwners (s : HpIocp) (a : Act) : Prop := HandlesWhole s a ∧ FailsEmpty s a

instance (s : HpIocp) (a : Act) : Decidable (KeepsOwners s a) :=
  inferInstanceAs (Decidable (_ ∧ _))

/-- How often a record is held. -/
def HpIocp.holds (s : HpIocp) (ol : Ol) : Nat :=
  (queued s.items).count ol + s.sends.count ol + s.recvs.count ol +
    (s.done.map Prod.fst).count ol + (s.userQ.filterMap UserMsg.ol?).count ol +
      ((s.failing.bind Failing.ol).toList).count ol

/-- The records that a step makes and deletes, and the buffers of writes it refuses. -/
structure Trade (s s' : HpIocp) (made gone : List Ol) (refused : List Nat) : Prop where
  holds : ∀ ol, s'.holds ol + gone.count ol = s.holds ol + made.count ol
  deleted : s'.deleted = s.deleted ++ gone.map Ol.no
  released : s'.released = s.released ++ (gone.flatMap Ol.buffers ++ refused)
  given : s'.given = s.given ++ (made.flatMap Ol.buffers ++ refused)
  numbered : made.map Ol.no = [] ∧ s'.next = s.next ∨
    made.map Ol.no = [s.next] ∧ s'.next = s.next + 1

section
variable {s s' : HpIocp} {a : Act} {i : Nat} {x y : Item}

theorem HpIocp.count_held (s : HpIocp) (ol : Ol) : s.held.count ol = s.holds ol := by
  unfold HpIocp.held HpIocp.underWay HpIocp.holds
  simp only [List.count_append]
  omega

theorem count_queued_erase {items : List Item} (hx : items[i]? = some x) (ol : Ol) :
    (queued items).count ol = (queued (items.eraseIdx i)).count ol + x.obuf.count ol := by
  have hperm := ((Slots.perm_eraseIdx hx).flatMap_right Item.obuf).count_eq ol
  rw [List.flatMap_cons, List.count_append] at hperm
  unfold queued
  omega

theorem count_queued_set {items : List Item} (hx : items[i]? = some x) (ol : Ol) :
    (queued (items.set i y)).count ol + x.obuf.count ol =
      (queued items).count ol + y.obuf.count ol := by
  have hperm := ((Slots.perm_set (y := y) hx).flatMap_right Item.obuf).count_eq ol
  have hold := count_queued_erase hx ol
  rw [List.flatMap_cons, List.count_append] at hperm
  unfold queued at hold ⊢
  omega

/-- Records change places. -/
theorem Trade.still (hholds : ∀ ol, s'.holds ol = s.holds ol) (hdeleted : s'.deleted = s.deleted)
    (hreleased : s'.released = s.released) (hgiven : s'.given = s.given)
    (hnext : s'.next = s.next) : Trade s s' [] [] [] where
  holds := hholds
  deleted := by rw [hdeleted, List.map_nil, List.append_nil]
  released := by rw [hreleased, List.flatMap_nil, List.append_nil, List.append_nil]
  given := by rw [hgiven, List.flatMap_nil, List.append_nil, List.append_nil]
  numbered := .inl ⟨rfl, hnext⟩

/-- A record is deleted. -/
theorem Trade.delete (ol : Ol) (hholds : ∀ o, s'.holds o + [ol].count o = s.holds o)
    (hdeleted : s'.deleted = s.deleted ++ [ol.no])
    (hreleased : s'.released = s.released ++ ol.buffers) (hgiven : s'.given = s.given)
    (hnext : s'.next = s.next) : Trade s s' [] [ol] [] where
  holds := hholds
  deleted := hdeleted
  released := by rw [hreleased, List.flatMap_singleton, List.append_nil]
  given := by rw [hgiven, List.flatMap_nil, List.append_nil, List.append_nil]
  numbered := .inl ⟨rfl, hnext⟩

/-- An item is replaced without a change of its buffers. -/
theorem queued_set_same {items : List Item} (hx : items[i]? = some x) (hy : y.obuf = x.obuf) :
    queued (items.set i y) = queued items := by
  unfold queued
  rw [List.flatMap_def, List.flatMap_def, Slots.map_set_same hx hy]

theorem Trade.set (hx : s.items[i]? = some x) (hy : y.obuf = x.obuf) :
    Trade s (s.setItem i y) [] [] [] := by
  refine Trade.still (fun ol => ?_) rfl rfl rfl rfl
  unfold HpIocp.holds HpIocp.setItem
  rw [queued_set_same hx hy]

/-- An item loses its first buffer, which goes elsewhere. -/
theorem count_head {items : List Item} {ol : Ol} {obuf : List Ol} (hx : items[i]? = some x)
    (hobuf : x.obuf = ol :: obuf) (hy : y.obuf = obuf) (o : Ol) :
    (queued (items.set i y)).count o + [ol].count o = (queued items).count o := by
  have hcount := count_queued_set (y := y) hx o
  rw [hobuf, hy, List.count_cons] at hcount
  rw [List.count_singleton]
  omega

theorem queued_erase_empty {items : List Item} (hempty : ∀ x ∈ items[i]?, x.obuf = []) (o : Ol) :
    (queued (items.eraseIdx i)).count o = (queued items).count o := by
  cases hx : items[i]? with
  | none => rw [List.eraseIdx_of_length_le (List.getElem?_eq_none_iff.mp hx)]
  | some x =>
    have hcount := count_queued_erase hx o
    rw [hempty x hx, List.count_nil] at hcount
    exact hcount.symm

theorem HpIocp.Takes.fd {id : Int} {flags : Flags} {q : List UserMsg}
    (hm : s.Takes (.fd id flags) q) :
    s.userQ.filterMap UserMsg.ol? = q.filterMap UserMsg.ol? := by rw [hm.queue]; rfl

theorem HpIocp.Takes.io {ol : Ol} {nbuf : Nat} {e : Int} {q : List UserMsg}
    (hm : s.Takes (.io ol nbuf e) q) :
    s.userQ.filterMap UserMsg.ol? = ol :: q.filterMap UserMsg.ol? := by rw [hm.queue]; rfl

theorem ols_fd (id : Int) (flags : Flags) : [UserMsg.fd id flags].filterMap UserMsg.ol? = [] := rfl

/-- What every step does to the records. -/
theorem trade_cases (hcleared : s.Cleared) (hstep : Step s a s') (hok : KeepsOwners s a) :
    ∃ made gone refused, Trade s s' made gone refused := by
  cases hstep with
  | addRefused => exact ⟨_, _, _, Trade.still (fun _ => rfl) rfl rfl rfl rfl⟩
  | addUnbound hmake => exact ⟨_, _, _, Trade.still (fun _ => rfl) rfl rfl rfl rfl⟩
  | addAgain hgiven hitem => exact ⟨_, _, _, Trade.set hitem rfl⟩
  | addNew hmake =>
    refine ⟨_, _, _, Trade.still (fun ol => ?_) rfl rfl rfl rfl⟩
    simp [HpIocp.holds, queued]
  | rmUnknown => exact ⟨_, _, _, Trade.still (fun _ => rfl) rfl rfl rfl rfl⟩
  | rm hitem => exact ⟨_, _, _, Trade.set hitem.get rfl⟩
  | @refused id data bytes freecb ptr =>
    exact ⟨[], [], _, fun _ => rfl, (List.append_nil _).symm, rfl, rfl, .inl ⟨rfl, rfl⟩⟩
  | @written id data bytes freecb ptr i item hitem hlive hfree hdata =>
    generalize hol : hpIocpOlNewo s.next id data bytes freecb ptr = ol
    have hno : ol.no = s.next := by rw [← hol]; rfl
    refine ⟨[ol], [], [], fun o => ?_, (List.append_nil _).symm, (List.append_nil _).symm, ?_,
      .inr ⟨congrArg (fun n => [n]) hno, rfl⟩⟩
    · have hcount := count_queued_set (y := { item with obuf := item.obuf ++ [ol] }) hitem.get o
      simp only [List.count_append] at hcount
      simp only [HpIocp.holds, HpIocp.queueWrite, HpIocp.setItem, List.count_nil]
      omega
    · show s.given ++ ol.buffers = s.given ++ ([ol].flatMap Ol.buffers ++ [])
      rw [List.flatMap_singleton, List.append_nil]
  | fdUnknown hm =>
    refine ⟨_, _, _, Trade.still (fun o => ?_) rfl rfl rfl rfl⟩
    simp only [HpIocp.holds, hm.fd]
  | @fdErr id flags q err drop i item hm hitem herr =>
    refine ⟨_, _, _, Trade.still (fun o => ?_) rfl rfl rfl rfl⟩
    have hsame := queued_set_same (y := { item with err := flags.value }) hitem.get rfl
    simp only [HpIocp.holds, HpIocp.fail, HpIocp.setItem, hm.fd, hm.calm, hsame, Option.bind_none,
      Option.bind_some]
  | @fdSent id flags q drop i item ol obuf hm hitem hout hobuf halive =>
    refine ⟨_, _, _, Trade.still (fun o => ?_) rfl rfl rfl rfl⟩
    have hcount := count_head (y := { item with obuf := obuf, err := 0 }) hitem.get hobuf rfl o
    simp only [HpIocp.holds, HpIocp.setItem, hm.fd, List.count_append]
    omega
  | @fdSendFailed id flags q e drop i item ol obuf hm hitem hobuf halive =>
    refine ⟨_, _, _, Trade.delete ol (fun o => ?_) rfl rfl rfl rfl⟩
    have hcount := count_head (y := { item with obuf := obuf, err := e }) hitem.get hobuf rfl o
    simp only [HpIocp.holds, HpIocp.fail, hpIocpOlDel, HpIocp.setItem, hm.fd, hm.calm,
      Option.bind_none, Option.bind_some]
    omega
  | fdStale hm =>
    refine ⟨_, _, _, Trade.still (fun o => ?_) rfl rfl rfl rfl⟩
    simp only [HpIocp.holds, HpIocp.fail, hm.fd, hm.calm, Option.bind_none, Option.bind_some]
  | fdIdle hm =>
    refine ⟨_, _, _, Trade.still (fun o => ?_) rfl rfl rfl rfl⟩
    simp only [HpIocp.holds, hm.fd]
  | @ioUnknown ol nbuf e q err drop hm hnone =>
    refine ⟨_, _, _, Trade.delete ol (fun o => ?_) rfl rfl rfl rfl⟩
    simp only [HpIocp.holds, hpIocpOlDel, hm.io, List.count_cons, List.count_nil]
    omega
  | @ioFailed ol e q err drop i item hm hitem =>
    refine ⟨_, _, _, Trade.still (fun o => ?_) rfl rfl rfl rfl⟩
    have hsame := queued_set_same (y := { item with err := e }) hitem.get rfl
    simp only [HpIocp.holds, HpIocp.fail, HpIocp.setItem, hm.io, hm.calm, hsame, Option.bind_none,
      Option.bind_some, Option.toList_some, Option.toList_none, List.count_cons, List.count_nil]
    omega
  | @ioDropped ol nbuf e q err drop i item hm hitem hread =>
    refine ⟨_, _, _, Trade.still (fun o => ?_) rfl rfl rfl rfl⟩
    simp only [HpIocp.holds, HpIocp.fail, hm.io, hm.calm, Option.bind_none, Option.bind_some,
      Option.toList_some, Option.toList_none, List.count_cons, List.count_nil]
    omega
  | @ioDone ol nbuf e q err drop i item hm hitem hfull =>
    refine ⟨_, _, _, Trade.delete ol (fun o => ?_) rfl rfl rfl rfl⟩
    simp only [HpIocp.holds, hpIocpOlDel, hm.io, List.count_cons, List.count_nil]
    omega
  | @ioPart ol nbuf e q err drop i item hm hitem hwrite hpos hpart =>
    -- the condition leaves this step out
    have hwhole := hok.1
    unfold HandlesWhole at hwhole
    rw [hm.queue] at hwhole
    have hle := hwhole (by rw [hitem.find]; rfl) hwrite hpos
    exact absurd hpart (Nat.not_lt_of_le hle)
  | @onError i ol item hf hitem =>
    have hempty : item.obuf = [] := hok.2 _ hf item hitem
    refine ⟨_, _, _, Trade.still (fun o => ?_) rfl rfl rfl rfl⟩
    have hsame := queued_set_same (y := { item with obuf := [] }) hitem hempty.symm
    simp only [HpIocp.holds, HpIocp.postPoll, HpIocp.setItem, hf, hsame, Option.bind_some]
  | @onErrorReturn i ol pc hf =>
    have hqueued := queued_erase_empty fun x hx => hcleared i x (isFreed_iff.mpr ⟨ol, hf⟩) hx
    cases ol with
    | none =>
      refine ⟨_, _, _, Trade.still (fun o => ?_) rfl rfl rfl rfl⟩
      simp only [HpIocp.holds, Option.elim_none, hf, hqueued, Option.bind_some, Option.bind_none]
    | some ol =>
      refine ⟨_, _, _, Trade.delete ol (fun o => ?_) rfl rfl rfl rfl⟩
      simp only [HpIocp.holds, Option.elim_some, hpIocpOlDel, hf, hqueued, Option.bind_some,
        Option.bind_none, Option.toList_some, Option.toList_none, List.count_nil]
      omega
  | turn hcalm => exact ⟨_, _, _, Trade.still (fun _ => rfl) rfl rfl rfl rfl⟩
  | loopFailed hcalm =>
    refine ⟨_, _, _, Trade.still (fun o => ?_) rfl rfl rfl rfl⟩
    simp only [HpIocp.holds, HpIocp.fail, hcalm, Option.bind_none, Option.bind_some]
  | pollMsg hq hpds => exact ⟨_, _, _, Trade.still (fun _ => rfl) rfl rfl rfl rfl⟩
  | pollTurn => exact ⟨_, _, _, Trade.still (fun _ => rfl) rfl rfl rfl rfl⟩
  | @scanReadFailed i r w e pd hs hread hfine =>
    refine ⟨[hpIocpOlNewi s.next pd.id], [hpIocpOlNewi s.next pd.id], [], fun o => ?_, rfl, rfl,
      (List.append_nil _).symm, .inr ⟨rfl, rfl⟩⟩
    simp only [HpIocp.holds, hpIocpOlDel, List.filterMap_append, ols_fd, List.append_nil]
  | @scanRead i r w e pd hs hfine =>
    refine ⟨[hpIocpOlNewi s.next pd.id], [], [], fun o => ?_, (List.append_nil _).symm,
      (List.append_nil _).symm, (List.append_nil _).symm, .inr ⟨rfl, rfl⟩⟩
    simp only [HpIocp.holds, List.filterMap_append, ols_fd, List.append_nil, List.count_append,
      List.count_nil]
    omega
  | scanPost hs =>
    refine ⟨_, _, _, Trade.still (fun o => ?_) rfl rfl rfl rfl⟩
    simp only [HpIocp.holds, List.filterMap_append, ols_fd, List.append_nil]
  | @sendDone id nbuf ol hfind hlen hdead =>
    refine ⟨_, _, _, Trade.still (fun o => ?_) rfl rfl rfl rfl⟩
    have hcount := (Slots.perm_eraseP hfind).count_eq o
    simp only [HpIocp.holds, List.map_append, List.map_cons, List.map_nil, List.count_append,
      List.count_cons, List.count_nil] at hcount ⊢
    omega
  | @recvDone k nbuf ol hk =>
    refine ⟨_, _, _, Trade.still (fun o => ?_) rfl rfl rfl rfl⟩
    have hcount := (Slots.perm_eraseIdx hk).count_eq o
    simp only [HpIocp.holds, List.map_append, List.map_cons, List.map_nil, List.count_append,
      List.count_cons, List.count_nil] at hcount ⊢
    omega
  | @postIo k err ol nbuf hk =>
    refine ⟨_, _, _, Trade.still (fun o => ?_) rfl rfl rfl rfl⟩
    have hcount := ((Slots.perm_eraseIdx hk).map Prod.fst).count_eq o
    simp only [HpIocp.holds, List.filterMap_append, List.filterMap_cons, List.filterMap_nil,
      UserMsg.ol?, List.map_cons, List.count_append, List.count_cons, List.count_nil] at hcount ⊢
    omega

/-- Every record made is held or deleted, and that once; the buffers given are those that were
released and those of the records held. -/
structure HpIocp.Accounts (s : HpIocp) : Prop where
  mine : s.Mine
  cleared : s.Cleared
  records : Ledger.Balanced (s.held.map Ol.no) s.deleted s.next
  buffers : (s.released ++ s.held.flatMap Ol.buffers).Perm s.given

theorem Trade.held {made gone : List Ol} {refused : List Nat} (h : Trade s s' made gone refused) :
    (s'.held ++ gone).Perm (s.held ++ made) :=
  List.perm_iff_count.mpr fun ol => by
    rw [List.count_append, List.count_append, HpIocp.count_held, HpIocp.count_held]
    exact h.holds ol

theorem HpIocp.Accounts.step (h : s.Accounts) (hstep : Step s a s') (hok : KeepsOwners s a) :
    s'.Accounts := by
  obtain ⟨made, gone, refused, htrade⟩ := trade_cases h.cleared hstep hok
  refine ⟨h.mine.step hstep, h.cleared.step hstep, ?_, ?_⟩
  · have hperm : (s'.held.map Ol.no ++ s'.deleted).Perm
        ((s.held.map Ol.no ++ s.deleted) ++ made.map Ol.no) := by
      apply List.perm_iff_count.mpr
      intro k
      have hcount := (htrade.held.map Ol.no).count_eq k
      rw [htrade.deleted]
      simp only [List.map_append, List.count_append] at hcount ⊢
      omega
    rcases htrade.numbered with ⟨hnone, hnext⟩ | ⟨hone, hnext⟩
    · rw [hnone, List.append_nil] at hperm
      rw [hnext]
      exact h.records.perm hperm
    · rw [hone] at hperm
      rw [hnext]
      exact h.records.make hperm
  · apply List.perm_iff_count.mpr
    intro k
    have hcount := (htrade.held.flatMap_right Ol.buffers).count_eq k
    have hold := h.buffers.count_eq k
    rw [htrade.released, htrade.given]
    simp only [List.flatMap_append, List.count_append] at hcount hold ⊢
    omega

theorem hpIocpInit_accounts (maxfd : Nat) : (hpIocpInit maxfd).Accounts where
  mine := fun _ hin => absurd hin List.not_mem_nil
  cleared := HpIocp.cleared_of_calm fun _ => not_isFreed rfl
  records := Ledger.Balanced.nil
  buffers := List.Perm.refl []

/-- The item of the id is there, or an operation for it is not handled. -/
def HpIocp.Outstanding (s : HpIocp) (id : Int) : Prop :=
  (∃ item ∈ s.items, item.id = id) ∨ ∃ ol ∈ s.underWay, ol.id = id

/-- What holds of the records and of the users' buffers: nothing is released twice, nor
while it is queued or submitted; what is not released is held on behalf of an id that is
outstanding; and a buffer is given as often as it is released or held. -/
structure HpIocp.Owned (s : HpIocp) : Prop where
  once : s.deleted.Nodup
  queued : ∀ item ∈ s.items, ∀ ol ∈ item.obuf, ol.no ∉ s.deleted
  submitted : ∀ ol ∈ s.sends, ol.no ∉ s.deleted
  kept : ∀ k, k < s.next → k ∈ s.deleted ∨ ∃ ol ∈ s.held, ol.no = k
  settled : ∀ ol ∈ s.held, s.Outstanding ol.id
  buffers : ∀ ptr, s.given.count ptr =
    s.released.count ptr + (s.held.flatMap Ol.buffers).count ptr

theorem HpIocp.Accounts.owned (h : s.Accounts) : s.Owned where
  once := h.records.once
  queued item hin ol hol := by
    refine h.records.apart (List.mem_map_of_mem ?_)
    exact List.mem_append_left _ (List.mem_flatMap.mpr ⟨item, hin, hol⟩)
  submitted ol hol := by
    refine h.records.apart (List.mem_map_of_mem ?_)
    apply List.mem_append_right _
    unfold HpIocp.underWay
    simp only [List.mem_append]
    exact .inl (.inl (.inl (.inl hol)))
  kept k hk := by
    rcases h.records.complete hk with hheld | hgone
    · exact .inr (List.mem_map.mp hheld)
    · exact .inl hgone
  settled ol hol := by
    rcases List.mem_append.mp hol with hqueued | hway
    · obtain ⟨item, hin, hmem⟩ := List.mem_flatMap.mp hqueued
      exact .inl ⟨item, hin, (h.mine item hin ol hmem).symm⟩
    · exact .inr ⟨ol, hway, rfl⟩
  buffers ptr := by
    rw [← h.buffers.count_eq ptr, List.count_append]

end

/-- Records and buffers are released once and in time while sends are handled whole and
items fail with nothing queued. -/
theorem released_once (maxfd : Nat) (s : HpIocp)
    (h : Run.Along step KeepsOwners (hpIocpInit maxfd) s) : s.Owned :=
  HpIocp.Accounts.owned <| h.invariant (hpIocpInit_accounts maxfd)
    fun _ _ _ hs hstep hok => hs.step (step_cases hstep) hok

/-- A write that is sent, and an item that is removed after it. -/
theorem released_once_removed : ∃ s, (Run.Along step KeepsOwners (hpIocpInit 0) s ∧
    s.items = [] ∧ s.deleted = [0] ∧ s.released = [1000]) ∧ s.Owned := by
  obtain ⟨s, hrun, hend⟩ : ∃ s, Run.Along step KeepsOwners (hpIocpInit 0) s ∧
      s.items = [] ∧ s.deleted = [0] ∧ s.released = [1000] :=
    Run.along_any (fun (s : HpIocp) (a : Act) => decide (KeepsOwners s a))
      [.add 5 false true true true true, .pollMsg, .write 0 1000 [1, 2] true 0, .pollMsg,
        .pollMsgsEnd, .select [] [5] [], .scan false, .scan false, .handle none false,
        .sendDone 0 2, .postIo 0 0, .handle none false, .msgsEnd, .pass true, .itemOnError,
        .onErrorReturn]
      (fun _ _ h => of_decide_eq_true h)
      (fun s => s.items = [] ∧ s.deleted = [0] ∧ s.released = [1000]) (by decide +kernel)
  exact ⟨s, ⟨hrun, hend⟩, released_once 0 s hrun⟩

/-- A send that is handled with a part of its buffer sent is queued again and deleted, and
its buffer released. What is queued at an item that fails is never released. -/
theorem released_while_queued_or_never :
    (∃ s, Run.Along step (fun _ _ => True) (hpIocpInit 0) s ∧
      ∃ item ∈ s.items, ∃ ol ∈ item.obuf, ol.no ∈ s.deleted ∧ ol.ptr ∈ s.released) ∧
      ∃ s, Run.Along step (fun _ _ => True) (hpIocpInit 0) s ∧
        s.items = [] ∧ s.underWay = [] ∧ s.next = 1 ∧ s.deleted = [] ∧ s.released = [] := by
  constructor
  · exact Run.along_any (fun _ _ => true)
      [.add 5 false true true false true, .pollMsg, .write 0 1000 [1, 2] true 0, .pollMsg,
        .pollMsgsEnd, .select [] [5] [], .scan false, .scan false, .handle none false,
        .sendDone 0 1, .postIo 0 0, .handle none false]
      (fun _ _ _ => trivial) _ (by decide +kernel)
  · exact Run.along_any (fun _ _ => true)
      [.add 5 false true true true true, .write 0 1000 [1, 2] true 0, .msgsEnd, .pass true,
        .itemOnError, .onErrorReturn]
      (fun _ _ _ => trivial) _ (by decide +kernel)

end Libhp.Iocp
