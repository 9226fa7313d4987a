import Libhp.Iocp.Iocp

/-!
# What a step of `hp_iocp` can do

One constructor for each way a step can go, with the facts that the code has checked on
that way. Every invariant is derived from these.
-/
namespace Libhp.Iocp

/-- The message loop of the user thread takes `m`. -/
structure HpIocp.Takes (s : HpIocp) (m : UserMsg) (q : List UserMsg) : Prop where
  queue : s.userQ = m :: q
  calm : s.failing = none

/-- The item at `i`, as the lookup by `id` finds it. -/
structure HpIocp.At (s : HpIocp) (id : Int) (i : Nat) (item : Item) : Prop where
  find : s.itemFind id = some (i, item)
  get : s.items[i]? = some item
  id_eq : item.id = id

/-- The select thread is at the entry `pd` of its table. -/
structure HpIocp.Scans (s : HpIocp) (i : Nat) (rfds wfds exceptfds : List Nat) (pd : Polld) :
    Prop where
  pc : s.ppc = .scan i rfds wfds exceptfds
  get : s.pds[i]? = some pd

/-- The table after the entry's turn: POLLOUT is cleared when it was reported. -/
def HpIocp.scanned (s : HpIocp) (i : Nat) (wfds : List Nat) (pd : Polld) : List Polld :=
  if pd.fd ∈ wfds then s.pds.set i { pd with flags := { pd.flags with pout := false } } else s.pds

/-- What the select thread makes of its table at a message. -/
inductive PollStep (pds : List Polld) : PollMsg → List Polld → Prop
  | add {id fd} (hnew : Search.bsearch (fun pd : Polld => compare id pd.id) pds = none) :
    PollStep pds (.add id fd) (pds ++ [⟨id, fd, .reads⟩])
  | remove {i pd} (hpd : pds[i]? = some pd) : PollStep pds (.rm pd.id .zero) (pds.eraseIdx i)
  | watch {i pd flags} (hpd : pds[i]? = some pd) (hflags : flags ≠ .zero) :
    PollStep pds (.rm pd.id flags) (pds.set i { pd with flags := flags })

/-- `hp_iocp_add` comes to making a new item. -/
def HpIocp.Makes (s : HpIocp) (fd : Nat) (onAccept onData : Bool) : Prop :=
  fd ≠ invalidSocket ∧ (onData || onAccept) = true ∧ (∀ item ∈ s.items, item.fd ≠ fd) ∧
    s.items.length ≠ s.maxfd

instance (s : HpIocp) (fd : Nat) (onAccept onData : Bool) : Decidable (s.Makes fd onAccept onData) :=
  inferInstanceAs (Decidable (_ ∧ _))

inductive Step (s : HpIocp) : Act → HpIocp → Prop
  | addRefused {fd a d e l b} : Step s (.add fd a d e l b) s
  | addUnbound {fd a d e l b} (hmake : s.Makes fd a d) :
    Step s (.add fd a d e l b) { s with ioid := s.nextId }
  | addAgain {fd a d e l b i item} (hgiven : (d || a) = true) (hitem : s.items[i]? = some item)
    (hfd : item.fd = fd) (hfree : s.isFreed i = false) :
    Step s (.add fd a d e l b) (s.setItem i { item with
      onAccept := .given a, onData := .given d, onError := .given e, onLoop := .given l })
  | addNew {fd a d e l b} (hmake : s.Makes fd a d) :
    Step s (.add fd a d e l b) { s with
      items := s.items ++ [⟨s.nextId, fd, .given a, .given d, .given e, .given l, 0, []⟩]
      ioid := s.nextId + 1
      pollQ := if a then s.pollQ else s.pollQ ++ [.add s.nextId fd]
      sock := Function.update s.sock s.nextId .fresh }
  | rmUnknown {id} : Step s (.rm id) s
  | rm {id i item} (hitem : s.At id i item) :
    Step s (.rm id) (s.setItem i { item with
      onAccept := item.onAccept.reset, onData := item.onData.reset
      onError := item.onError.reset, onLoop := item.onLoop.reset })
  | refused {id data bytes freecb ptr} :
    Step s (.write id data bytes freecb ptr) (s.refuse freecb (toFree data ptr))
  | written {id data bytes freecb ptr i item} (hitem : s.At id i item)
    (hlive : item.isRemoved = false) (hfree : s.isFreed i = false)
    (hdata : data ≠ 0 ∧ bytes ≠ []) :
    Step s (.write id data bytes freecb ptr)
      (s.queueWrite i item bytes (hpIocpOlNewo s.next id data bytes freecb ptr))
  | fdUnknown {id flags q err drop} (hm : s.Takes (.fd id flags) q) (hnone : s.itemFind id = none) :
    Step s (.handle err drop) { s with userQ := q }
  | fdErr {id flags q err drop i item} (hm : s.Takes (.fd id flags) q) (hitem : s.At id i item)
    (herr : flags.failed) :
    Step s (.handle err drop)
      ((({ s with userQ := q } : HpIocp).setItem i { item with err := flags.value }).fail i none)
  | fdSent {id flags q drop i item ol obuf} (hm : s.Takes (.fd id flags) q)
    (hitem : s.At id i item) (hout : flags.pout) (hobuf : item.obuf = ol :: obuf)
    (halive : ol.no ∉ s.deleted) :
    Step s (.handle none drop)
      { ({ s with userQ := q } : HpIocp).setItem i { item with obuf := obuf, err := 0 } with
        sends := s.sends ++ [ol] }
  | fdSendFailed {id flags q e drop i item ol obuf} (hm : s.Takes (.fd id flags) q)
    (hitem : s.At id i item) (hobuf : item.obuf = ol :: obuf) (halive : ol.no ∉ s.deleted) :
    Step s (.handle (some e) drop)
      ((hpIocpOlDel (({ s with userQ := q } : HpIocp).setItem i
        { item with obuf := obuf, err := e }) ol).fail i none)
  | fdStale {id flags q err drop i item} (hm : s.Takes (.fd id flags) q) (hitem : s.At id i item)
    (hidle : flags.pout → item.obuf = []) :
    Step s (.handle err drop) (({ s with userQ := q } : HpIocp).fail i none)
  | fdIdle {id flags q err drop i item} (hm : s.Takes (.fd id flags) q) (hitem : s.At id i item)
    (hidle : flags.pout → item.obuf = []) :
    Step s (.handle err drop) { s with userQ := q }
  | ioUnknown {ol nbuf e q err drop} (hm : s.Takes (.io ol nbuf e) q)
    (hnone : s.itemFind ol.id = none) :
    Step s (.handle err drop) (hpIocpOlDel { s with userQ := q } ol)
  | ioFailed {ol e q err drop i item} (hm : s.Takes (.io ol 0 e) q) (hitem : s.At ol.id i item) :
    Step s (.handle err drop)
      ((({ s with userQ := q } : HpIocp).setItem i { item with err := e }).fail i (some ol))
  | ioDropped {ol nbuf e q err drop i item} (hm : s.Takes (.io ol nbuf e) q)
    (hitem : s.At ol.id i item) (hread : ol.read) :
    Step s (.handle err drop) (({ s with userQ := q } : HpIocp).fail i (some ol))
  | ioDone {ol nbuf e q err drop i item} (hm : s.Takes (.io ol nbuf e) q)
    (hitem : s.At ol.id i item) (hfull : ol.read = false → nbuf = ol.buf.length) :
    Step s (.handle err drop) (hpIocpOlDel { s with userQ := q } ol)
  | ioPart {ol nbuf e q err drop i item} (hm : s.Takes (.io ol nbuf e) q)
    (hitem : s.At ol.id i item) (hwrite : ol.read = false) (hpos : 0 < nbuf)
    (hpart : nbuf < ol.buf.length) :
    Step s (.handle err drop) (({ s with userQ := q } : HpIocp).recommit i item ol nbuf)
  | onError {i ol item} (hf : s.failing = some ⟨i, ol, false⟩) (hitem : s.items[i]? = some item) :
    Step s .itemOnError
      { (s.setItem i { item with obuf := [] }).postPoll (.rm item.id .zero) with
        failing := some ⟨i, ol, true⟩ }
  | onErrorReturn {i ol pc} (hf : s.failing = some ⟨i, ol, true⟩) :
    Step s .onErrorReturn
      (ol.elim { s with items := s.items.eraseIdx i, failing := none, pc := pc }
        (hpIocpOlDel { s with items := s.items.eraseIdx i, failing := none, pc := pc }))
  | turn {a pc} (hcalm : s.failing = none) : Step s a { s with pc := pc }
  | loopFailed {neg i item} (hcalm : s.failing = none) (hitem : s.items[i]? = some item) :
    Step s (.pass neg) (s.fail i none)
  | pollMsg {m q pds} (hq : s.pollQ = m :: q) (hpds : pollHandle s.maxfd s.pds m = some pds) :
    Step s .pollMsg { s with pds := pds, pollQ := q }
  | pollTurn {a ppc} : Step s a { s with ppc := ppc }
  | scanReadFailed {i r w e pd} (hs : s.Scans i r w e pd) (hread : pd.fd ∈ r)
    (hfine : pd.fd ∉ e) :
    Step s (.scan true)
      { hpIocpOlDel { s with ppc := .scan (i + 1) r w e } (hpIocpOlNewi s.next pd.id) with
        pds := s.scanned i w pd, next := s.next + 1, userQ := s.userQ ++ [.fd pd.id .err] }
  | scanRead {i r w e pd} (hs : s.Scans i r w e pd) (hfine : pd.fd ∉ e) :
    Step s (.scan false)
      { s with
        ppc := .scan (i + 1) r w e, pds := s.scanned i w pd, next := s.next + 1
        recvs := s.recvs ++ [hpIocpOlNewi s.next pd.id]
        userQ := s.userQ ++ [.fd pd.id (.writes (pd.fd ∈ w))] }
  | scanPost {i r w e pd readErr} (hs : s.Scans i r w e pd) :
    Step s (.scan readErr)
      { s with
        ppc := .scan (i + 1) r w e, pds := s.scanned i w pd
        userQ := s.userQ ++
          [.fd pd.id (if pd.fd ∈ e then .err else .writes (pd.fd ∈ w))] }
  | sendDone {id nbuf ol} (hfind : s.sends.find? (fun ol => ol.id = id) = some ol)
    (hlen : nbuf ≤ ol.buf.length) (hdead : (s.sock id).dead → nbuf = 0) :
    Step s (.sendDone id nbuf)
      { s with
        sends := s.sends.eraseP fun ol => ol.id = id
        done := s.done ++ [(ol, nbuf)]
        sock := Function.update s.sock id
          { s.sock id with
            wire := (s.sock id).wire ++ ol.buf.take nbuf
            dead := (s.sock id).dead || (nbuf = 0 && ol.buf ≠ []) } }
  | recvDone {k nbuf ol} (hk : s.recvs[k]? = some ol) :
    Step s (.recvDone k nbuf)
      { s with recvs := s.recvs.eraseIdx k, done := s.done ++ [(ol, nbuf)] }
  | postIo {k err ol nbuf} (hk : s.done[k]? = some (ol, nbuf)) :
    Step s (.postIo k err)
      { s with done := s.done.eraseIdx k, userQ := s.userQ ++ [.io ol nbuf err] }

section
variable {s s' : HpIocp}

theorem pollHandle_cases {maxfd : Nat} {pds pds' : List Polld} {m : PollMsg}
    (h : pollHandle maxfd pds m = some pds') : PollStep pds m pds' := by
  cases m with
  | add id fd =>
    simp only [pollHandle] at h
    split at h
    · cases h
    · next hnew =>
      split at h
      · cases h
      · cases h
        exact .add hnew
  | rm id flags =>
    simp only [pollHandle] at h
    split at h
    · cases h
    · next i hfind =>
      obtain ⟨pd, hpd, hcmp⟩ := Search.bsearch_sound hfind
      have hid : id = pd.id := compare_eq_iff_eq.mp hcmp
      subst hid
      split at h
      · next hzero =>
        cases h
        subst hzero
        exact .remove hpd
      · next hflags =>
        rw [hpd] at h
        cases h
        exact .watch hpd hflags

theorem HpIocp.itemFind_at {id : Int} {i : Nat} {item : Item}
    (h : s.itemFind id = some (i, item)) : s.At id i item := by
  obtain ⟨j, hj, hmap⟩ := Option.bind_eq_some_iff.mp h
  obtain ⟨x, hx, heq⟩ := Option.map_eq_some_iff.mp hmap
  cases heq
  obtain ⟨y, hy, hcmp⟩ := Search.bsearch_sound hj
  rw [hx] at hy
  cases hy
  exact ⟨h, hx, (compare_eq_iff_eq.mp hcmp).symm⟩

/-- On a sorted table the lookup finds the item. -/
theorem HpIocp.itemFind_of_sorted {i : Nat} {item : Item} (h : s.items[i]? = some item)
    (hsorted : s.items.Pairwise fun x y => x.id < y.id) :
    s.itemFind item.id = some (i, item) := by
  unfold HpIocp.itemFind
  rw [Search.bsearch_eq_some Item.id hsorted h rfl, Option.bind_some, h]
  rfl

/-- The ways out of `hp_iocp_add`, each with what it has checked by then. -/
theorem hpIocpAdd_cases {fd : Nat} {a d e l b : Bool} {r : HpIocp × Int}
    (h : hpIocpAdd s fd a d e l b = some r) :
    (¬ s.Makes fd a d ∧ r.1 = s) ∨
    (s.Makes fd a d ∧ b = false ∧ r.1 = { s with ioid := s.nextId }) ∨
    (∃ i item, (d || a) = true ∧ s.items[i]? = some item ∧ item.fd = fd ∧ s.isFreed i = false ∧
      r.1 = s.setItem i { item with
        onAccept := .given a, onData := .given d, onError := .given e, onLoop := .given l }) ∨
    s.Makes fd a d ∧ b = true ∧ r.1 = { s with
      items := s.items ++ [⟨s.nextId, fd, .given a, .given d, .given e, .given l, 0, []⟩]
      ioid := s.nextId + 1
      pollQ := if a then s.pollQ else s.pollQ ++ [.add s.nextId fd]
      sock := Function.update s.sock s.nextId .fresh } := by
  unfold hpIocpAdd at h
  split at h
  · next hargs =>
    cases h
    refine .inl ⟨?_, rfl⟩
    intro ⟨hfd, hcall, _⟩
    rw [hcall] at hargs
    rcases hargs with hbad | hnone
    · exact hfd hbad
    · cases hnone
  · next hargs =>
    obtain ⟨hfd, hcall⟩ := not_or.mp hargs
    have hgiven : (d || a) = true := by
      simpa only [Bool.not_eq_true', Bool.not_eq_false] using hcall
    split at h
    · next i item hfind =>
      obtain ⟨j, hj, hmap⟩ := Option.bind_eq_some_iff.mp hfind
      obtain ⟨x, hx, heq⟩ := Option.map_eq_some_iff.mp hmap
      cases heq
      obtain ⟨hlt, hsame, -⟩ := List.findIdx?_eq_some_iff_getElem.mp hj
      split at h
      · cases h
      · next hfree =>
        cases h
        refine .inr (.inr (.inl ⟨i, item, hgiven, hx, ?_, Bool.eq_false_iff.mpr hfree, rfl⟩))
        rw [List.getElem?_eq_getElem hlt] at hx
        cases hx
        exact of_decide_eq_true hsame
    · next hfind =>
      have hold : ∀ item ∈ s.items, item.fd ≠ fd := by
        intro item hin heq
        cases hidx : s.items.findIdx? fun item => item.fd = fd with
        | none =>
          have := List.findIdx?_eq_none_iff.mp hidx item hin
          exact absurd heq (of_decide_eq_false this)
        | some i =>
          obtain ⟨hlt, -, -⟩ := List.findIdx?_eq_some_iff_getElem.mp hidx
          rw [hidx, Option.bind_some, List.getElem?_eq_getElem hlt] at hfind
          cases hfind
      split at h
      · next hlen =>
        cases h
        exact .inl ⟨fun hmake => hmake.2.2.2 hlen, rfl⟩
      · next hlen =>
        have hmake : s.Makes fd a d := ⟨hfd, hgiven, hold, hlen⟩
        split at h
        · next hunbound =>
          cases h
          exact .inr (.inl ⟨hmake, by simpa using hunbound, rfl⟩)
        · next hbound =>
          cases h
          exact .inr (.inr (.inr ⟨hmake, by simpa using hbound, rfl⟩))

theorem hpIocpAdd_step {fd : Nat} {a d e l b : Bool} {r : HpIocp × Int}
    (h : hpIocpAdd s fd a d e l b = some r) : Step s (.add fd a d e l b) r.1 := by
  rcases hpIocpAdd_cases h with ⟨-, heq⟩ | ⟨hmake, -, heq⟩ |
    ⟨i, item, hgiven, hitem, hfd, hfree, heq⟩ | ⟨hmake, -, heq⟩ <;> rw [heq]
  · exact .addRefused
  · exact .addUnbound hmake
  · exact .addAgain hgiven hitem hfd hfree
  · exact .addNew hmake

theorem hpIocpRm_step (id : Int) : Step s (.rm id) (hpIocpRm s id).1 := by
  unfold hpIocpRm
  split
  · exact .rmUnknown
  · split
    · exact .rmUnknown
    · next i item hfind => exact .rm (HpIocp.itemFind_at hfind)

theorem hpIocpWrite_step {id : Int} {data ptr : Nat} {bytes : List UInt8} {freecb : Bool}
    {r : HpIocp × Int} (h : hpIocpWrite s id data bytes freecb ptr = some r) :
    Step s (.write id data bytes freecb ptr) r.1 := by
  unfold hpIocpWrite at h
  split at h
  · cases h
    exact .refused
  · next hargs =>
    split at h
    · cases h
      exact .refused
    · next i item hfind =>
      split at h
      · cases h
        exact .refused
      · next hlive =>
        split at h
        · cases h
        · next hfree =>
          cases h
          exact .written (HpIocp.itemFind_at hfind) (Bool.eq_false_iff.mpr hlive)
            (Bool.eq_false_iff.mpr hfree) (not_or.mp hargs)

theorem handleFd_step {id : Int} {flags : Flags} {q : List UserMsg} {err : Option Int}
    {drop : Bool} (hm : s.Takes (.fd id flags) q)
    (h : handleFd { s with userQ := q } id flags err = some s') :
    Step s (.handle err drop) s' := by
  unfold handleFd at h
  split at h
  · next hnone =>
    cases h
    exact .fdUnknown hm hnone
  · next i item hfind =>
    have hitem : s.At id i item :=
      ⟨hfind, (HpIocp.itemFind_at hfind).get, (HpIocp.itemFind_at hfind).id_eq⟩
    split at h
    · next herr =>
      cases h
      exact .fdErr hm hitem herr
    · split at h
      · next hout =>
        obtain ⟨⟨t, failed⟩, hwrite, hres⟩ := Option.map_eq_some_iff.mp h
        unfold hpIocpDoWrite at hwrite
        split at hwrite
        · next hnil =>
          cases hwrite
          dsimp only at hres
          split at hres
          · subst hres
            exact .fdStale hm hitem (fun _ => hnil)
          · subst hres
            exact .fdIdle hm hitem (fun _ => hnil)
        · next ol obuf hobuf =>
          split at hwrite
          · cases hwrite
          · next halive =>
            split at hwrite
            · cases hwrite
              dsimp only at hres
              rw [if_pos (.inl rfl)] at hres
              subst hres
              exact .fdSendFailed hm hitem hobuf halive
            · cases hwrite
              have hlt := (List.getElem?_eq_some_iff.mp hitem.get).1
              dsimp only at hres
              split at hres
              · next herr => simp [HpIocp.setItem, List.getElem?_set_self hlt] at herr
              · subst hres
                exact .fdSent hm hitem hout hobuf halive
      · next hout =>
        split at h
        · cases h
          exact .fdStale hm hitem (fun h' => absurd h' hout)
        · cases h
          exact .fdIdle hm hitem (fun h' => absurd h' hout)

theorem handleIo_step {ol : Ol} {nbuf : Nat} {e : Int} {q : List UserMsg} {err : Option Int}
    {drop : Bool} (hm : s.Takes (.io ol nbuf e) q)
    (h : handleIo { s with userQ := q } ol nbuf e drop = some s') :
    Step s (.handle err drop) s' := by
  unfold handleIo at h
  split at h
  · next hnone =>
    cases h
    exact .ioUnknown hm hnone
  · next i item hfind =>
    have hitem : s.At ol.id i item :=
      ⟨hfind, (HpIocp.itemFind_at hfind).get, (HpIocp.itemFind_at hfind).id_eq⟩
    split at h
    · next hzero =>
      subst hzero
      cases h
      exact .ioFailed hm hitem
    · next hpos =>
      split at h
      · next hread =>
        have hfull : ol.read = false → nbuf = ol.buf.length := fun hf => by
          rw [hread] at hf
          cases hf
        split at h
        · cases h
        · split at h
          · cases h
            exact .ioDropped hm hitem hread
          · cases h
            exact .ioDone hm hitem hfull
        · cases h
          exact .ioDropped hm hitem hread
      · next hread =>
        split at h
        · cases h
        · next hle =>
          split at h
          · next hfull =>
            cases h
            exact .ioDone hm hitem (fun _ => hfull)
          · next hpart =>
            cases h
            exact .ioPart hm hitem (Bool.eq_false_iff.mpr hread) (Nat.pos_of_ne_zero hpos)
              (by omega)

theorem hpIocpHandleMsg_step {err : Option Int} {drop : Bool}
    (h : hpIocpHandleMsg s err drop = some s') : Step s (.handle err drop) s' := by
  unfold hpIocpHandleMsg at h
  split at h
  · next hcalm hq => exact handleFd_step ⟨hq, hcalm⟩ h
  · next hcalm hq => exact handleIo_step ⟨hq, hcalm⟩ h
  · cases h

theorem onErrorReturn_step (h : onErrorReturn s = some s') : Step s .onErrorReturn s' := by
  unfold onErrorReturn at h
  split at h
  · next hf =>
    cases h
    exact .onErrorReturn hf
  · cases h

theorem runPass_step {neg : Bool} (h : runPass s neg = some s') : Step s (.pass neg) s' := by
  unfold runPass at h
  split at h
  · next hcalm =>
    split at h
    · cases h
      exact .turn hcalm
    · next item hitem =>
      split at h
      · cases h
        exact .loopFailed hcalm hitem
      · cases h
        exact .turn hcalm
  · cases h

theorem pollScan_step {readErr : Bool} (h : pollScan s readErr = some s') :
    Step s (.scan readErr) s' := by
  unfold pollScan at h
  split at h
  · next hpc =>
    split at h
    · cases h
      exact .pollTurn
    · next pd hpd =>
      dsimp only at h
      split at h
      · cases h
        exact .pollTurn
      · split at h
        · next hread =>
          split at h
          · next herr =>
            cases h
            subst herr
            exact .scanReadFailed ⟨hpc, hpd⟩ hread.2 hread.1
          · next herr =>
            cases h
            rw [if_neg hread.1, Bool.eq_false_iff.mpr herr]
            exact .scanRead ⟨hpc, hpd⟩ hread.1
        · cases h
          exact .scanPost ⟨hpc, hpd⟩
  · cases h

theorem sendDone_step {id : Int} {nbuf : Nat} (h : sendDone s id nbuf = some s') :
    Step s (.sendDone id nbuf) s' := by
  unfold sendDone at h
  split at h
  · cases h
  · next ol hfind =>
    split at h
    · cases h
    · next hok =>
      cases h
      obtain ⟨hlen, hdead⟩ := not_or.mp hok
      refine .sendDone hfind (Nat.le_of_not_lt hlen) (fun hd => ?_)
      by_contra hne
      exact hdead ⟨Nat.pos_of_ne_zero hne, hd⟩

theorem step_cases {a : Act} (h : step s a = some s') : Step s a s' := by
  cases a with
  | add fd a d e l b =>
    simp only [step] at h
    split at h
    · obtain ⟨r, hr, rfl⟩ := Option.map_eq_some_iff.mp h
      exact hpIocpAdd_step hr
    · cases h
  | rm id =>
    simp only [step] at h
    split at h
    · cases h
      exact hpIocpRm_step id
    · cases h
  | write id data bytes freecb ptr =>
    simp only [step] at h
    split at h
    · obtain ⟨r, hr, rfl⟩ := Option.map_eq_some_iff.mp h
      exact hpIocpWrite_step hr
    · cases h
  | handle err drop => exact hpIocpHandleMsg_step h
  | itemOnError =>
    simp only [step, hpIocpItemOnError] at h
    split at h
    · next hf =>
      obtain ⟨item, hitem, rfl⟩ := Option.map_eq_some_iff.mp h
      exact .onError hf hitem
    · cases h
  | onErrorReturn => exact onErrorReturn_step h
  | msgsEnd =>
    simp only [step, runMsgsEnd] at h
    split at h
    · next hcalm _ =>
      cases h
      exact .turn hcalm
    · cases h
  | pass neg => exact runPass_step h
  | pollMsg =>
    simp only [step, Iocp.pollMsg] at h
    split at h
    · next hq =>
      obtain ⟨pds, hpds, rfl⟩ := Option.map_eq_some_iff.mp h
      exact .pollMsg hq hpds
    · cases h
  | pollMsgsEnd =>
    simp only [step, Iocp.pollMsgsEnd] at h
    split at h
    · cases h
      exact .pollTurn
    · cases h
  | select r w e =>
    simp only [step, pollSelect] at h
    split at h
    · split at h
      · cases h
        exact .pollTurn
      · cases h
    · cases h
  | scan readErr => exact pollScan_step h
  | sendDone id nbuf => exact sendDone_step h
  | recvDone k nbuf =>
    obtain ⟨ol, hk, rfl⟩ := Option.map_eq_some_iff.mp h
    exact .recvDone hk
  | postIo k err =>
    obtain ⟨⟨ol, nbuf⟩, hk, rfl⟩ := Option.map_eq_some_iff.mp h
    exact .postIo hk

end

end Libhp.Iocp
