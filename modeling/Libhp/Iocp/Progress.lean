import Libhp.Iocp.Ids

/-!
# Progress of writes

A queued buffer is sent when POLLOUT comes round: `hp_iocp_write` asks for it, the select
thread watches for it, reports it, and the report sends one buffer. The buffers of an item
are compared with the requests that are under way for it.
-/
namespace Libhp.Iocp

def PollMsg.drives (id : Int) (m : PollMsg) : Bool := m = .rm id .inout

def Polld.drives (id : Int) (pd : Polld) : Bool := pd.id = id && pd.flags.pout

def UserMsg.drives (id : Int) : UserMsg → Bool
  | .fd id' flags => id' = id && flags.pout
  | .io _ _ _ => false

/-- The requests to send for `id` that are under way. -/
def requests (id : Int) (pollQ : List PollMsg) (pds : List Polld) (userQ : List UserMsg) : Nat :=
  pollQ.countP (PollMsg.drives id) + pds.countP (Polld.drives id) +
    userQ.countP (UserMsg.drives id)

/-- There are no more buffers queued than requests to send them. -/
def Served (items : List Item) (pollQ : List PollMsg) (pds : List Polld)
    (userQ : List UserMsg) : Prop :=
  ∀ item ∈ items, item.obuf.length ≤ requests item.id pollQ pds userQ

/-- Something will still drive the writes of `id`: a request is queued to the select thread,
its entry is watched for POLLOUT, or a report of POLLOUT is queued to the user thread. -/
def HpIocp.Driven (s : HpIocp) (id : Int) : Prop :=
  .rm id .inout ∈ s.pollQ ∨ (∃ pd ∈ s.pds, pd.id = id ∧ pd.flags.pout) ∨
    ∃ flags, .fd id flags ∈ s.userQ ∧ flags.pout

/-- The select thread does not take a request while the entry is still watched for an
earlier one. -/
def Unmerged (s : HpIocp) : Act → Prop
  | .pollMsg =>
    match s.pollQ with
    | .rm id flags :: _ => flags = .inout → ∀ pd ∈ s.pds, pd.id = id → pd.flags.pout = false
    | _ => True
  | _ => True

/-- POLLOUT and an error, be it of the read that follows, are not reported for one entry in
one round. -/
def NotBoth (s : HpIocp) : Act → Prop
  | .scan readErr =>
    match s.ppc with
    | .scan i rfds wfds exceptfds =>
      ∀ pd ∈ s.pds[i]?, pd.fd ∈ wfds →
        pd.fd ∉ exceptfds ∧ (pd.fd ∈ rfds → readErr = false)
    | _ => True
  | _ => True

instance (s : HpIocp) (a : Act) : Decidable (Unmerged s a) := by
  unfold Unmerged
  split
  · split <;> infer_instance
  · infer_instance

def decNotBoth (s : HpIocp) (readErr : Bool) :
    (ppc : PollPc) → Decidable (NotBoth { s with ppc } (.scan readErr))
  | .scan .. => inferInstanceAs (Decidable (∀ pd ∈ s.pds[_]?, _ → _ ∧ (_ → _)))
  | .msgs | .select => isTrue trivial

instance (s : HpIocp) : (a : Act) → Decidable (NotBoth s a)
  | .scan readErr => decNotBoth s readErr s.ppc
  | .add .. | .rm .. | .write .. | .handle .. | .itemOnError | .onErrorReturn | .msgsEnd | .pass ..
  | .pollMsg | .pollMsgsEnd | .select .. | .sendDone .. | .recvDone .. | .postIo .. =>
    isTrue trivial

/-- Requests are neither merged nor lost. -/
def KeepsRequests (s : HpIocp) (a : Act) : Prop := FreshIds s a ∧ Unmerged s a ∧ NotBoth s a

instance (s : HpIocp) (a : Act) : Decidable (KeepsRequests s a) :=
  inferInstanceAs (Decidable (_ ∧ _))

structure HpIocp.Progress (s : HpIocp) : Prop where
  ids : s.Ids
  served : Served s.items s.pollQ s.pds s.userQ
  cleared : s.Cleared
  posted : ∀ id flags, .rm id flags ∈ s.pollQ → id < s.ioid ∧ (flags = .inout ∨ s.Leaving (· = true) id)
  plain : ∀ id flags, .fd id flags ∈ s.userQ → flags.failed → flags.pout = false

section
variable {s s' : HpIocp} {a : Act}

theorem NotBoth.of_scans {readErr : Bool} {i : Nat} {r w e : List Nat} {pd : Polld}
    (h : NotBoth s (.scan readErr)) (hs : s.Scans i r w e pd) :
    pd.fd ∈ w → pd.fd ∉ e ∧ (pd.fd ∈ r → readErr = false) := by
  unfold NotBoth at h
  rw [hs.pc] at h
  exact h pd hs.get

theorem UserMsg.drives_fd {id id' : Int} {flags : Flags} :
    (UserMsg.fd id' flags).drives id = true ↔ id' = id ∧ flags.pout = true := by
  simp [UserMsg.drives]

theorem Polld.drives_iff {id : Int} {pd : Polld} :
    pd.drives id = true ↔ pd.id = id ∧ pd.flags.pout = true := by
  simp [Polld.drives]

theorem HpIocp.driven_iff {id : Int} :
    0 < requests id s.pollQ s.pds s.userQ ↔ s.Driven id := by
  have hpoll : 0 < s.pollQ.countP (PollMsg.drives id) ↔ .rm id .inout ∈ s.pollQ := by
    rw [List.countP_pos_iff]
    exact ⟨fun ⟨m, hm, hd⟩ => (of_decide_eq_true hd : m = .rm id .inout) ▸ hm,
      fun hm => ⟨_, hm, decide_eq_true rfl⟩⟩
  have hpds : 0 < s.pds.countP (Polld.drives id) ↔ ∃ pd ∈ s.pds, pd.id = id ∧ pd.flags.pout := by
    rw [List.countP_pos_iff]
    exact exists_congr fun pd => and_congr_right fun _ => Polld.drives_iff
  have huser : 0 < s.userQ.countP (UserMsg.drives id) ↔
      ∃ flags, .fd id flags ∈ s.userQ ∧ flags.pout := by
    rw [List.countP_pos_iff]
    constructor
    · intro ⟨m, hm, hd⟩
      cases m with
      | fd id' flags =>
        obtain ⟨rfl, hout⟩ := UserMsg.drives_fd.mp hd
        exact ⟨flags, hm, hout⟩
      | io ol nbuf err => cases hd
    · intro ⟨flags, hm, hout⟩
      exact ⟨_, hm, UserMsg.drives_fd.mpr ⟨rfl, hout⟩⟩
  unfold HpIocp.Driven requests
  rw [← hpoll, ← hpds, ← huser]
  omega

instance (s : HpIocp) (id : Int) : Decidable (s.Driven id) := decidable_of_iff _ HpIocp.driven_iff

end

section
variable {items : List Item} {pollQ : List PollMsg} {pds : List Polld} {userQ : List UserMsg}

theorem requests_postPoll (id : Int) (m : PollMsg) :
    requests id (pollQ ++ [m]) pds userQ =
      requests id pollQ pds userQ + if m.drives id then 1 else 0 := by
  unfold requests
  rw [List.countP_append, List.countP_singleton]
  omega

theorem requests_postUser (id : Int) (m : UserMsg) :
    requests id pollQ pds (userQ ++ [m]) =
      requests id pollQ pds userQ + if m.drives id then 1 else 0 := by
  unfold requests
  rw [List.countP_append, List.countP_singleton]
  omega

theorem requests_takeUser (id : Int) (m : UserMsg) :
    requests id pollQ pds (m :: userQ) =
      requests id pollQ pds userQ + if m.drives id then 1 else 0 := by
  unfold requests
  rw [List.countP_cons]
  omega

theorem Served.postPoll (h : Served items pollQ pds userQ) (m : PollMsg) :
    Served items (pollQ ++ [m]) pds userQ := fun item hin =>
  (h item hin).trans (by rw [requests_postPoll]; exact Nat.le_add_right _ _)

theorem Served.postUser (h : Served items pollQ pds userQ) (m : UserMsg) :
    Served items pollQ pds (userQ ++ [m]) := fun item hin =>
  (h item hin).trans (by rw [requests_postUser]; exact Nat.le_add_right _ _)

/-- A message is taken that sends nothing where something is queued. -/
theorem Served.take {m : UserMsg} (h : Served items pollQ pds (m :: userQ))
    (hidle : ∀ item ∈ items, m.drives item.id → item.obuf = []) :
    Served items pollQ pds userQ := by
  intro item hin
  have hold := h item hin
  rw [requests_takeUser] at hold
  split at hold
  · next hd =>
    rw [hidle item hin hd]
    exact Nat.zero_le _
  · exact hold

/-- An item is replaced by one that has no more to send. -/
theorem Served.set {i : Nat} {x y : Item} (h : Served items pollQ pds userQ)
    (hx : items[i]? = some x) (hid : y.id = x.id) (hle : y.obuf.length ≤ x.obuf.length) :
    Served (items.set i y) pollQ pds userQ := by
  intro item hin
  rcases Slots.mem_set hin with hold | rfl
  · exact h item hold
  · rw [hid]
    exact hle.trans (h x (List.mem_of_getElem? hx))

/-- A buffer is queued, and a request with it. -/
theorem Served.queue {i : Nat} {x y : Item} (h : Served items pollQ pds userQ)
    (hx : items[i]? = some x) (hid : y.id = x.id) (hlen : y.obuf.length = x.obuf.length + 1) :
    Served (items.set i y) (pollQ ++ [.rm x.id .inout]) pds userQ := by
  intro item hin
  rcases Slots.mem_set hin with hold | rfl
  · exact h.postPoll _ item hold
  · have hdrives : PollMsg.drives x.id (.rm x.id .inout) = true := decide_eq_true rfl
    rw [requests_postPoll, hid, hdrives, hlen, if_pos rfl]
    exact Nat.succ_le_succ (h x (List.mem_of_getElem? hx))

/-- A report is taken, and a buffer is sent for it. -/
theorem Served.send {i : Nat} {id : Int} {flags : Flags} {x y : Item}
    (h : Served items pollQ pds (.fd id flags :: userQ)) (hid : x.id = id)
    (hx : items[i]? = some x) (hy : y.id = x.id) (hlen : x.obuf.length = y.obuf.length + 1)
    (hothers : ∀ z ∈ items.set i y, z = y ∨ z ∈ items ∧ z.id ≠ x.id) :
    Served (items.set i y) pollQ pds userQ := by
  intro z hz
  rcases hothers z hz with rfl | ⟨hold, hne⟩
  · have hbefore := h x (List.mem_of_getElem? hx)
    rw [requests_takeUser, hlen] at hbefore
    rw [hy]
    split at hbefore <;> omega
  · have hbefore := h z hold
    rwa [requests_takeUser, if_neg fun hd => hne ((UserMsg.drives_fd.mp hd).1.symm.trans hid.symm)]
      at hbefore

/-- Clearing a reported POLLOUT is made up for by the report. -/
theorem Served.scan {s : HpIocp} {i : Nat} {r w e : List Nat} {pd : Polld} {m : UserMsg}
    (h : Served items pollQ s.pds userQ) (hs : s.Scans i r w e pd)
    (hm : pd.fd ∈ w → m.drives pd.id) :
    Served items pollQ (s.scanned i w pd) (userQ ++ [m]) := by
  unfold HpIocp.scanned
  split
  · next hw =>
    intro item hin
    apply (h item hin).trans
    rw [requests_postUser]
    unfold requests
    have hset := Slots.countP_set (y := { pd with flags := { pd.flags with pout := false } })
      (Polld.drives item.id) hs.get
    have hoff : Polld.drives item.id { pd with flags := { pd.flags with pout := false } } = false :=
      Bool.and_false _
    rw [hoff, if_neg Bool.false_ne_true] at hset
    by_cases hid : pd.id = item.id
    · have hpaid := hm hw
      rw [hid] at hpaid
      rw [if_pos hpaid]
      split at hset <;> omega
    · rw [if_neg fun hd => hid (Polld.drives_iff.mp hd).1] at hset
      omega
  · exact h.postUser m

/-- The select thread turns a request into a watch for POLLOUT. -/
theorem Served.pollMsg {m : PollMsg} {pds' : List Polld}
    (h : Served items (m :: pollQ) pds userQ) (hstep : PollStep pds m pds')
    (hposted : ∀ id flags, m = .rm id flags →
      flags = .inout ∨ ∀ item ∈ items, item.id = id → item.obuf = [])
    (hunmerged : ∀ id, m = .rm id .inout → ∀ pd ∈ pds, pd.id = id → pd.flags.pout = false) :
    Served items pollQ pds' userQ := by
  intro item hin
  have hold := h item hin
  unfold requests at hold ⊢
  rw [List.countP_cons] at hold
  cases hstep with
  | @add id fd hnew =>
    have hm : PollMsg.drives item.id (.add id fd) = false := decide_eq_false PollMsg.noConfusion
    rw [List.countP_append]
    rw [hm, if_neg Bool.false_ne_true] at hold
    omega
  | @remove i pd hpd =>
    have hm : PollMsg.drives item.id (.rm pd.id .zero) = false :=
      decide_eq_false fun heq => absurd (PollMsg.rm.inj heq).2 (by decide)
    rw [hm, if_neg Bool.false_ne_true] at hold
    have hcount := Slots.countP_eraseIdx (Polld.drives item.id) hpd
    by_cases hid : item.id = pd.id
    · rcases hposted _ _ rfl with heq | hgone
      · exact absurd heq (by decide)
      · rw [hgone item hin hid]
        exact Nat.zero_le _
    · rw [if_neg fun hd => hid (Polld.drives_iff.mp hd).1.symm] at hcount
      omega
  | @watch i pd flags hpd hflags =>
    have hcount := Slots.countP_set (y := { pd with flags := flags }) (Polld.drives item.id) hpd
    by_cases hid : item.id = pd.id
    · rcases hposted _ _ rfl with rfl | hgone
      · -- the entry was not watched, and now it is
        have hm : PollMsg.drives item.id (.rm pd.id .inout) = true := by
          rw [hid]
          exact decide_eq_true rfl
        have hoff := hunmerged _ rfl pd (List.mem_of_getElem? hpd) rfl
        have hbefore : pd.drives item.id = false := by
          unfold Polld.drives
          rw [hoff, Bool.and_false]
        have hafter : Polld.drives item.id { pd with flags := .inout } = true :=
          Polld.drives_iff.mpr ⟨hid.symm, rfl⟩
        rw [hm, if_pos rfl] at hold
        rw [hbefore, hafter, if_pos rfl, if_neg Bool.false_ne_true] at hcount
        omega
      · rw [hgone item hin hid]
        exact Nat.zero_le _
    · have hm : PollMsg.drives item.id (.rm pd.id flags) = false :=
        decide_eq_false fun heq => hid (PollMsg.rm.inj heq).1.symm
      have hother : ∀ pd' : Polld, pd'.id = pd.id → pd'.drives item.id = false :=
        fun pd' heq => Bool.eq_false_iff.mpr fun hd =>
          hid ((Polld.drives_iff.mp hd).1.symm.trans heq)
      rw [hm, if_neg Bool.false_ne_true] at hold
      rw [hother pd rfl, if_neg Bool.false_ne_true, hother { pd with flags := flags } rfl] at hcount
      exact hold.trans (by omega)

end

section
variable {s s' : HpIocp} {a : Act}

/-- The requests to the select thread that a step adds. -/
theorem posted_cases {id : Int} {flags : Flags} (hstep : Step s a s')
    (hm : PollMsg.rm id flags ∈ s'.pollQ) :
    .rm id flags ∈ s.pollQ ∨ (flags = .inout ∧ id ∈ s'.items.map Item.id) ∨
      ∃ i, s'.isFreed i ∧ (s'.items.map Item.id)[i]? = some id := by
  have hnow : ∀ {i : Nat} {x y : Item}, s.items[i]? = some x → y.id = x.id →
      ((s.items.set i y).map Item.id)[i]? = some x.id := by
    intro i x y hx heq
    rw [Slots.map_set_same hx heq, List.getElem?_map, hx]
    rfl
  cases hstep with
  | @addNew fd a d e l b hmake =>
    have hm' : PollMsg.rm id flags ∈ if a then s.pollQ else s.pollQ ++ [.add s.nextId fd] := hm
    split at hm'
    · exact .inl hm'
    · rcases List.mem_append.mp hm' with hold | hnew
      · exact .inl hold
      · exact absurd (List.mem_singleton.mp hnew) (by simp)
  | written hitem =>
    rcases List.mem_append.mp hm with hold | hnew
    · exact .inl hold
    · cases List.mem_singleton.mp hnew
      exact .inr (.inl ⟨rfl, List.mem_of_getElem? (hnow hitem.get rfl)⟩)
  | ioPart hmsg hitem =>
    rcases List.mem_append.mp hm with hold | hnew
    · exact .inl hold
    · cases List.mem_singleton.mp hnew
      exact .inr (.inl ⟨rfl, List.mem_of_getElem? (hnow hitem.get rfl)⟩)
  | @onError i ol item hf hitem =>
    rcases List.mem_append.mp hm with hold | hnew
    · exact .inl hold
    · cases List.mem_singleton.mp hnew
      exact .inr (.inr ⟨i, isFreed_iff.mpr ⟨ol, rfl⟩, hnow hitem rfl⟩)
  | onErrorReturn hf =>
    rw [onReturn_pollQ] at hm
    exact .inl hm
  | pollMsg hq hpds =>
    refine .inl ?_
    rw [hq]
    exact List.mem_cons_of_mem _ hm
  | _ => exact .inl hm

theorem HpIocp.Progress.posted_step (h : s.Progress) (hstep : Step s a s') (hok : FreshIds s a) :
    ∀ id flags, .rm id flags ∈ s'.pollQ → id < s'.ioid ∧ (flags = .inout ∨ s'.Leaving (· = true) id) := by
  intro id flags hm
  have hids := h.ids.step hstep hok
  rcases posted_cases hstep hm with hold | ⟨rfl, hin⟩ | ⟨i, hfreed, hget⟩
  · obtain ⟨hlt, hgone⟩ := h.posted id flags hold
    have hbusy : ¬ s.Idle := fun hidle => List.ne_nil_of_mem hold hidle.2.2.1
    exact ⟨hlt.trans_le (ioid_le hstep hok hbusy),
      hgone.imp_right fun hg => hg.step (fun _ => rfl) hlt hstep hok hbusy⟩
  · exact ⟨hids.below id hin, .inl rfl⟩
  · refine ⟨hids.below id (List.mem_of_getElem? hget), .inr fun j hj => ?_⟩
    have hsame : j = i := Search.index_unique (fun k : Int => k) hids.sorted hj hget rfl
    obtain ⟨ol, hf⟩ := isFreed_iff.mp hfreed
    exact ⟨ol, true, hsame ▸ hf, rfl⟩

/-- The reports that a step adds. -/
theorem reports_cases {id : Int} {flags : Flags} (hstep : Step s a s')
    (hm : UserMsg.fd id flags ∈ s'.userQ) :
    .fd id flags ∈ s.userQ ∨ flags = .err ∨ flags.failed = false := by
  rcases userQ_cases hstep hm with hold | ⟨id', flags', heq, hflags⟩ | ⟨ol, nbuf, err, heq, -⟩
  · exact .inl hold
  · cases heq
    exact .inr hflags
  · cases heq

/-- A step leaves enough requests for the buffers that are queued. -/
theorem HpIocp.Progress.served_step (h : s.Progress) (hstep : Step s a s')
    (hok : KeepsRequests s a) : Served s'.items s'.pollQ s'.pds s'.userQ := by
  obtain ⟨hfresh, hunmerged, hboth⟩ := hok
  have hserved := h.served
  have htake : ∀ {m : UserMsg} {q : List UserMsg}, s.Takes m q →
      Served s.items s.pollQ s.pds (m :: q) := fun hm => by
    rw [← hm.queue]
    exact hserved
  have hempty : ∀ {id : Int} {flags : Flags} {i : Nat} {x : Item}, s.At id i x →
      (flags.pout → x.obuf = []) →
      ∀ item ∈ s.items, (UserMsg.fd id flags).drives item.id → item.obuf = [] := by
    intro id flags i x hx hidle item hin hd
    obtain ⟨hid, hout⟩ := UserMsg.drives_fd.mp hd
    obtain ⟨j, hj⟩ := List.mem_iff_getElem?.mp hin
    have hsame := h.ids.unique hj hx.get (hid.symm.trans hx.id_eq.symm)
    rw [hsame, hx.get] at hj
    cases hj
    exact hidle hout
  cases hstep with
  | addAgain hgiven hitem => exact hserved.set hitem rfl (Nat.le_refl _)
  | @addNew fd a d e l b hmake =>
    have hnew : Served (s.items ++ [⟨s.nextId, fd, .given a, .given d, .given e, .given l, 0, []⟩])
        s.pollQ s.pds s.userQ := by
      intro item hin
      rcases List.mem_append.mp hin with hold | hlast
      · exact hserved item hold
      · rw [List.mem_singleton.mp hlast]
        exact Nat.zero_le _
    show Served _ (if a then s.pollQ else s.pollQ ++ [.add s.nextId fd]) s.pds s.userQ
    split
    · exact hnew
    · exact hnew.postPoll _
  | rm hitem => exact hserved.set hitem.get rfl (Nat.le_refl _)
  | written hitem => exact hserved.queue hitem.get rfl (by rw [List.length_append]; rfl)
  | fdUnknown hm hnone =>
    exact (htake hm).take fun item hin hd =>
      absurd (UserMsg.drives_fd.mp hd).1.symm (h.ids.missing hnone item hin)
  | @fdErr id flags q err drop i item hm hitem herr =>
    have hplain := h.plain id flags (hm.queue ▸ List.mem_cons_self) herr
    have hrest : Served s.items s.pollQ s.pds q := (htake hm).take fun item hin hd => by
      have hout := (UserMsg.drives_fd.mp hd).2
      rw [hplain] at hout
      cases hout
    exact hrest.set hitem.get rfl (Nat.le_refl _)
  | fdSent hm hitem hout hobuf =>
    exact (htake hm).send hitem.id_eq hitem.get rfl (by rw [hobuf]; rfl)
      fun z hz => h.ids.mem_set hitem.get hz
  | fdSendFailed hm hitem hobuf =>
    exact (htake hm).send hitem.id_eq hitem.get rfl (by rw [hobuf]; rfl)
      fun z hz => h.ids.mem_set hitem.get hz
  | fdStale hm hitem hidle => exact (htake hm).take (hempty hitem hidle)
  | fdIdle hm hitem hidle => exact (htake hm).take (hempty hitem hidle)
  | ioUnknown hm hnone => exact (htake hm).take fun item hin hd => absurd hd Bool.false_ne_true
  | ioFailed hm hitem =>
    have hrest := (htake hm).take fun item hin hd => absurd hd Bool.false_ne_true
    exact hrest.set hitem.get rfl (Nat.le_refl _)
  | ioDropped hm => exact (htake hm).take fun item hin hd => absurd hd Bool.false_ne_true
  | ioDone hm => exact (htake hm).take fun item hin hd => absurd hd Bool.false_ne_true
  | ioPart hm hitem =>
    have hrest := (htake hm).take fun item hin hd => absurd hd Bool.false_ne_true
    exact hrest.queue hitem.get rfl (by rw [List.length_append]; rfl)
  | @onError i ol item hf hitem =>
    have hset := hserved.set (y := { item with obuf := [] }) hitem rfl (Nat.zero_le _)
    exact hset.postPoll _
  | onErrorReturn hf =>
    rw [onReturn_items, onReturn_pollQ, onReturn_pds, onReturn_userQ]
    exact fun item hin => hserved item ((List.eraseIdx_sublist _ _).subset hin)
  | @pollMsg m q pds hq hpds =>
    rw [hq] at hserved
    refine hserved.pollMsg (pollHandle_cases hpds) (fun id flags hm => ?_) (fun id hm => ?_)
    · subst hm
      apply (h.posted id flags (hq ▸ List.mem_cons_self)).2.imp_right
      intro hgone item hin hid
      obtain ⟨i, hi⟩ := List.mem_iff_getElem?.mp hin
      obtain ⟨ol, c, hf, rfl⟩ := hgone i (by rw [List.getElem?_map, hi, Option.map_some, hid])
      exact h.cleared i item (isFreed_iff.mpr ⟨ol, hf⟩) hi
    · subst hm
      unfold Unmerged at hunmerged
      rw [hq] at hunmerged
      exact hunmerged rfl
  | @scanReadFailed i r w e pd hs hread hfine =>
    apply hserved.scan hs
    intro hw
    exact absurd ((hboth.of_scans hs hw).2 hread) (by decide)
  | @scanRead i r w e pd hs hfine =>
    refine hserved.scan hs fun hw => UserMsg.drives_fd.mpr ⟨rfl, decide_eq_true hw⟩
  | @scanPost i r w e pd readErr hs =>
    refine hserved.scan hs fun hw => UserMsg.drives_fd.mpr ⟨rfl, ?_⟩
    rw [if_neg (hboth.of_scans hs hw).1]
    exact decide_eq_true hw
  | postIo hk => exact hserved.postUser _
  | _ => exact hserved

theorem HpIocp.Progress.step (h : s.Progress) (hstep : Step s a s') (hok : KeepsRequests s a) :
    s'.Progress where
  ids := h.ids.step hstep hok.1
  served := h.served_step hstep hok
  cleared := h.cleared.step hstep
  posted := h.posted_step hstep hok.1
  plain := by
    intro id flags hm herr
    rcases reports_cases hstep hm with hold | rfl | hplain
    · exact h.plain id flags hold herr
    · rfl
    · rw [hplain] at herr
      cases herr

theorem hpIocpInit_progress (maxfd : Nat) : (hpIocpInit maxfd).Progress where
  ids := hpIocpInit_ids maxfd
  served := fun _ hin => absurd hin List.not_mem_nil
  cleared := HpIocp.cleared_of_calm fun _ => not_isFreed rfl
  posted := fun _ _ hm => absurd hm List.not_mem_nil
  plain := fun _ _ hm => absurd hm List.not_mem_nil

end

/-- While requests are neither merged nor lost, every item with something to send is driven. -/
theorem unsent_driven (maxfd : Nat) (s : HpIocp)
    (h : Run.Along step KeepsRequests (hpIocpInit maxfd) s) :
    ∀ item ∈ s.items, item.obuf ≠ [] → s.Driven item.id := by
  have hprogress : s.Progress := h.invariant (hpIocpInit_progress maxfd)
    fun s a s' hs hstep hok => hs.step (step_cases hstep) hok
  intro item hin hobuf
  have hlen := List.length_pos_of_ne_nil hobuf
  exact HpIocp.driven_iff.mp (hlen.trans_le (hprogress.served item hin))

/-- Two writes, each of which is sent for a request of its own. -/
theorem unsent_driven_two : ∃ s, (Run.Along step KeepsRequests (hpIocpInit 0) s ∧
    ∃ item ∈ s.items, item.obuf ≠ [] ∧ item.id = 0) ∧
      ∀ item ∈ s.items, item.obuf ≠ [] → s.Driven item.id := by
  obtain ⟨s, hrun, hqueued⟩ : ∃ s, Run.Along step KeepsRequests (hpIocpInit 0) s ∧
      ∃ item ∈ s.items, item.obuf ≠ [] ∧ item.id = 0 :=
    Run.along_any (fun (s : HpIocp) (a : Act) => decide (KeepsRequests s a))
      [.add 5 false true true false true, .pollMsg, .write 0 1000 [1] true 0, .pollMsg,
        .pollMsgsEnd, .select [] [5] [], .scan false, .write 0 2000 [2] true 0]
      (fun _ _ h => of_decide_eq_true h)
      (fun s => ∃ item ∈ s.items, item.obuf ≠ [] ∧ item.id = 0) (by decide +kernel)
  exact ⟨s, ⟨hrun, hqueued⟩, unsent_driven 0 s hrun⟩

/-- The requests of two writes are taken in one round. One buffer is sent for them, and the
other stays where it is, with every queue empty and the socket in order. -/
theorem unsent_not_driven : ∃ s, Run.Along step (fun _ _ => True) (hpIocpInit 0) s ∧
    (∃ item ∈ s.items, item.obuf ≠ [] ∧ ¬ s.Driven item.id ∧ (s.sock item.id).dead = false) ∧
      s.failing = none ∧ s.pollQ = [] ∧ s.userQ = [] ∧ s.sends = [] ∧ s.done = [] :=
  Run.along_any (fun _ _ => true)
    [.add 5 false true true false true, .pollMsg, .write 0 1000 [1] true 0,
      .write 0 2000 [2] true 0, .pollMsg, .pollMsg, .pollMsgsEnd, .select [] [5] [],
      .scan false, .scan false, .handle none false, .sendDone 0 1, .postIo 0 0,
      .handle none false]
    (fun _ _ _ => trivial) _ (by decide +kernel)

end Libhp.Iocp
