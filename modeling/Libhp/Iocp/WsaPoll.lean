import Libhp.Iocp.Sockets

/-!
# The build with WSAPoll

`hp_iocp_poll_threadfn`, which the build with LIBHP_WITH_WSAPOLL starts in the place of
`hp_iocp_select_threadfn`. The rest of `hp_iocp` is the same in both builds.
-/
namespace Libhp.Iocp

/-- Where the poll thread is: in its message loop, at `WSAPoll`, or at an entry of the table
with the `revents` that `WSAPoll` stored. -/
inductive WsaPc where
  | msgs
  | poll
  | scan (i : Nat) (revents : List Flags)
  deriving DecidableEq, Repr

/-- `hp_iocp` of this build. `fds` and `pds` are filled, moved and shortened together: they are
one table, with `events` for the flags. The place of the select thread stays where it was. -/
structure HpIocpWsa where
  iocp : HpIocp
  wpc : WsaPc

def hpIocpWsaInit (maxfd : Nat) : HpIocpWsa := ⟨hpIocpInit maxfd, .msgs⟩

/-- One message of `hp_iocp_poll_threadfn`. -/
def wsaHandle (maxfd : Nat) (fds : List Polld) : PollMsg → Option (List Polld)
  | .add id fd =>
    match Search.bsearch (fun pd => compare id pd.id) fds with
    | some _ => none
    | none => if maxfd ≤ fds.length then none else some (fds ++ [⟨id, fd, .reads⟩])
  | .rm id events =>
    match Search.bsearch (fun pd => compare id pd.id) fds with
    | none => none
    | some i =>
      let fds' := fds.modify i fun pd => { pd with flags := events }
      if events = .zero then some (fds'.eraseIdx i) else some fds'

def wsaMsg (s : HpIocpWsa) : Option HpIocpWsa :=
  match s.wpc, s.iocp.pollQ with
  | .msgs, m :: q =>
    (wsaHandle s.iocp.maxfd s.iocp.pds m).map fun pds =>
      { s with iocp := { s.iocp with pds := pds, pollQ := q } }
  | _, _ => none

def wsaMsgsEnd (s : HpIocpWsa) : Option HpIocpWsa :=
  match s.wpc, s.iocp.pollQ with
  | .msgs, [] => some { s with wpc := .poll }
  | _, _ => none

/-- `WSAPoll` reports what was asked for, and errors, hang-ups and bad sockets. -/
def wsaReady (fds : List Polld) (revents : List Flags) : Bool :=
  revents.length = fds.length &&
    (fds.zip revents).all fun (pd, rev) =>
      (!rev.pin || pd.flags.pin) && (!rev.pout || pd.flags.pout)

def wsaPoll (s : HpIocpWsa) (revents : List Flags) : Option HpIocpWsa :=
  match s.wpc with
  | .poll => if wsaReady s.iocp.pds revents then some { s with wpc := .scan 0 revents } else none
  | _ => none

/-- `fds[i].revents` -/
def reported (revents : List Flags) (i : Nat) : Flags := (revents[i]?).getD .zero

/-- The entry of the scan loop whose turn it is; `readErr` says that WSARecv fails. -/
def wsaScan (s : HpIocpWsa) (readErr : Bool) : Option HpIocpWsa :=
  match s.wpc with
  | .scan i revents =>
    match s.iocp.pds[i]? with
    | none => some { s with wpc := .msgs }
    | some pd =>
      let rev := reported revents i
      let wpc := WsaPc.scan (i + 1) revents
      if rev = .zero then some { s with wpc := wpc }
      else
        let pds := if rev.pout
          then s.iocp.pds.set i { pd with flags := { pd.flags with pout := false } }
          else s.iocp.pds
        if rev.pin then
          let ol := hpIocpOlNewi s.iocp.next pd.id
          if readErr then
            some ⟨{ hpIocpOlDel s.iocp ol with
              pds := pds, next := s.iocp.next + 1, userQ := s.iocp.userQ ++ [.fd pd.id .err] }, wpc⟩
          else
            some ⟨{ s.iocp with
              pds := pds, next := s.iocp.next + 1, recvs := s.iocp.recvs ++ [ol]
              userQ := s.iocp.userQ ++ [.fd pd.id rev] }, wpc⟩
        else some ⟨{ s.iocp with pds := pds, userQ := s.iocp.userQ ++ [.fd pd.id rev] }, wpc⟩
  | _ => none

/-- A step of the select thread. -/
def Act.polls : Act → Bool
  | .pollMsg | .pollMsgsEnd | .select .. | .scan .. => true
  | _ => false

/-- What the user thread, the system and the IOCP threads do is as in the other build. -/
inductive WsaAct where
  | other (a : Act)
  | pollMsg
  | pollMsgsEnd
  | poll (revents : List Flags)
  | scan (readErr : Bool)
  deriving DecidableEq, Repr

def wsaStep (s : HpIocpWsa) : WsaAct → Option HpIocpWsa
  | .other a => if a.polls then none else (step s.iocp a).map fun t => { s with iocp := t }
  | .pollMsg => wsaMsg s
  | .pollMsgsEnd => wsaMsgsEnd s
  | .poll revents => wsaPoll s revents
  | .scan readErr => wsaScan s readErr

/-- What `select` can tell of a socket: that it has failed, or else whether it can be read and
written. -/
def Flags.told (rev : Flags) : Prop :=
  rev = .err ∨ rev.perr = false ∧ rev.phup = false ∧ rev.pnval = false

instance (rev : Flags) : Decidable rev.told := inferInstanceAs (Decidable (_ ∨ _))

/-- The user thread keeps to what the poll thread's table needs, POLLERR is reported alone, and
POLLHUP and POLLNVAL are not. -/
def WsaOk (s : HpIocpWsa) : WsaAct → Prop
  | .other a => KeepsTable s.iocp a
  | .poll revents => ∀ rev ∈ revents, rev.told
  | _ => True

instance (s : HpIocpWsa) : (a : WsaAct) → Decidable (WsaOk s a)
  | .other a => inferInstanceAs (Decidable (KeepsTable s.iocp a))
  | .poll revents => inferInstanceAs (Decidable (∀ rev ∈ revents, rev.told))
  | .pollMsg | .pollMsgsEnd | .scan _ => isTrue trivial

/-- Two messages that the user thread treats alike: of one that reports no error it looks at
POLLOUT only. -/
inductive SameMsg : UserMsg → UserMsg → Prop
  | fd {id f g} (h : f = g ∨ f.failed = false ∧ g.failed = false ∧ f.pout = g.pout) :
    SameMsg (.fd id f) (.fd id g)
  | io {ol nbuf err} : SameMsg (.io ol nbuf err) (.io ol nbuf err)

/-- The state of the other build with these messages to the user thread. -/
def HpIocp.view (s : HpIocp) (q : List UserMsg) (ppc : PollPc) : HpIocp :=
  { s with userQ := q, ppc := ppc }

section
variable {s s' : HpIocp} {q : List UserMsg} {ppc : PollPc} {a : Act}

@[simp] theorem view_items : (s.view q ppc).items = s.items := rfl
@[simp] theorem view_pc : (s.view q ppc).pc = s.pc := rfl
@[simp] theorem view_failing : (s.view q ppc).failing = s.failing := rfl
@[simp] theorem view_sends : (s.view q ppc).sends = s.sends := rfl
@[simp] theorem view_recvs : (s.view q ppc).recvs = s.recvs := rfl
@[simp] theorem view_done : (s.view q ppc).done = s.done := rfl
@[simp] theorem view_itemFind (id : Int) : (s.view q ppc).itemFind id = s.itemFind id := rfl

/-- A test that is the same in both states. -/
theorem ite_view {α β : Type} {c d : Prop} [Decidable c] [Decidable d] {f : β → α}
    {x y : Option α} {x' y' : Option β} (hcd : c ↔ d) (hx : x = x'.map f) (hy : y = y'.map f) :
    (if c then x else y) = (if d then x' else y').map f := by
  by_cases hd : d
  · rw [if_pos (hcd.mpr hd), if_pos hd, hx]
  · rw [if_neg (fun hc => hd (hcd.mp hc)), if_neg hd, hy]

theorem hpIocpAdd_view (fd : Nat) (a d e l b : Bool) :
    hpIocpAdd (s.view q ppc) fd a d e l b =
      (hpIocpAdd s fd a d e l b).map fun r => (r.1.view q ppc, r.2) := by
  unfold hpIocpAdd
  refine ite_view Iff.rfl rfl ?_
  rw [view_items]
  split
  · exact ite_view Iff.rfl rfl rfl
  · exact ite_view Iff.rfl rfl (ite_view Iff.rfl rfl rfl)

theorem hpIocpRm_view (id : Int) :
    (hpIocpRm (s.view q ppc) id).1 = (hpIocpRm s id).1.view q ppc := by
  unfold hpIocpRm
  rw [view_itemFind]
  split
  · rfl
  · split <;> rfl

theorem hpIocpWrite_view (id : Int) (data : Nat) (bytes : List UInt8) (freecb : Bool) (ptr : Nat) :
    hpIocpWrite (s.view q ppc) id data bytes freecb ptr =
      (hpIocpWrite s id data bytes freecb ptr).map fun r => (r.1.view q ppc, r.2) := by
  unfold hpIocpWrite
  refine ite_view Iff.rfl rfl ?_
  rw [view_itemFind]
  split
  · rfl
  · exact ite_view Iff.rfl rfl (ite_view Iff.rfl rfl rfl)

theorem hpIocpItemOnError_view :
    hpIocpItemOnError (s.view q ppc) = (hpIocpItemOnError s).map (·.view q ppc) := by
  unfold hpIocpItemOnError
  rw [view_failing]
  split
  · rw [Option.map_map]
    rfl
  · rfl

theorem onErrorReturn_view :
    onErrorReturn (s.view q ppc) = (onErrorReturn s).map (·.view q ppc) := by
  unfold onErrorReturn
  rw [view_failing]
  split
  · next i ol _ => cases ol <;> rfl
  · rfl

theorem runPass_view (neg : Bool) :
    runPass (s.view q ppc) neg = (runPass s neg).map (·.view q ppc) := by
  unfold runPass
  rw [view_failing, view_pc]
  split
  · rw [view_items]
    split
    · rfl
    · exact ite_view Iff.rfl rfl rfl
  · rfl

theorem sendDone_view (id : Int) (nbuf : Nat) :
    sendDone (s.view q ppc) id nbuf = (sendDone s id nbuf).map (·.view q ppc) := by
  unfold sendDone
  rw [view_sends]
  split
  · rfl
  · exact ite_view Iff.rfl rfl rfl

theorem recvDone_view (k nbuf : Nat) :
    recvDone (s.view q ppc) k nbuf = (recvDone s k nbuf).map (·.view q ppc) := by
  unfold recvDone
  rw [view_recvs, Option.map_map]
  rfl

theorem hpIocpDoWrite_view (i : Nat) (item : Item) (err : Option Int) :
    hpIocpDoWrite (s.view q ppc) i item err =
      (hpIocpDoWrite s i item err).map fun r => (r.1.view q ppc, r.2) := by
  unfold hpIocpDoWrite
  split
  · rfl
  · refine ite_view Iff.rfl rfl ?_
    split <;> rfl

/-- WM_FD with flags that the user thread treats alike. -/
theorem handleFd_view {f g : Flags}
    (h : f = g ∨ f.failed = false ∧ g.failed = false ∧ f.pout = g.pout) (id : Int)
    (err : Option Int) :
    handleFd (s.view q ppc) id g err = (handleFd s id f err).map (·.view q ppc) := by
  unfold handleFd
  rw [view_itemFind]
  split
  · rfl
  · next i item _ =>
    by_cases hfailed : f.failed = true
    · obtain rfl | ⟨hfine, -⟩ := h
      · rw [if_pos hfailed, if_pos hfailed]
        rfl
      · exact absurd hfailed (Bool.eq_false_iff.mp hfine)
    · obtain ⟨hfine, hpout⟩ : g.failed = false ∧ f.pout = g.pout := by
        rcases h with rfl | ⟨-, hfine, hpout⟩
        · exact ⟨Bool.eq_false_iff.mpr hfailed, rfl⟩
        · exact ⟨hfine, hpout⟩
      rw [if_neg hfailed, if_neg (Bool.eq_false_iff.mp hfine)]
      refine ite_view (by rw [hpout]) ?_ (ite_view Iff.rfl rfl rfl)
      rw [hpIocpDoWrite_view, Option.map_map, Option.map_map]
      congr 1
      funext r
      simp only [Function.comp_apply]
      by_cases hfail : r.2 = true ∨ (r.1.items[i]?).any (fun item' => item'.err ≠ 0) = true
      · apply (if_pos hfail).trans
        rw [if_pos hfail]
        rfl
      · apply (if_neg hfail).trans
        rw [if_neg hfail]

theorem handleIo_view (ol : Ol) (nbuf : Nat) (err : Int) (drop : Bool) :
    handleIo (s.view q ppc) ol nbuf err drop =
      (handleIo s ol nbuf err drop).map (·.view q ppc) := by
  unfold handleIo
  rw [view_itemFind]
  split
  · rfl
  · refine ite_view Iff.rfl rfl (ite_view Iff.rfl ?_ ?_)
    · split
      · rfl
      · exact ite_view Iff.rfl rfl rfl
      · rfl
    · exact ite_view Iff.rfl rfl (ite_view Iff.rfl rfl rfl)

theorem hpIocpHandleMsg_fd {id : Int} {f : Flags} {err : Option Int} {drop : Bool}
    (hpc : s.pc = .msgs) (hcalm : s.failing = none) (hqueue : s.userQ = .fd id f :: q) :
    hpIocpHandleMsg s err drop = handleFd { s with userQ := q } id f err := by
  simp only [hpIocpHandleMsg, hpc, hcalm, hqueue]

theorem hpIocpHandleMsg_io {ol : Ol} {nbuf : Nat} {e : Int} {err : Option Int} {drop : Bool}
    (hpc : s.pc = .msgs) (hcalm : s.failing = none) (hqueue : s.userQ = .io ol nbuf e :: q) :
    hpIocpHandleMsg s err drop = handleIo { s with userQ := q } ol nbuf e drop := by
  simp only [hpIocpHandleMsg, hpc, hcalm, hqueue]

/-- What does the same in front of other messages leaves the messages alone. -/
theorem view_kept {o : Option HpIocp} (hview : o = o.map fun t => t.view q ppc)
    (h : o = some s') : s'.userQ = q := by
  rw [h, Option.map_some] at hview
  have hsame : s' = s'.view q ppc := Option.some.inj hview
  rw [hsame]
  rfl

theorem other_pds (ha : a.polls = false) (hstep : step s a = some s') : s'.pds = s.pds := by
  cases step_cases hstep with
  | pollMsg | scanReadFailed | scanRead | scanPost => cases ha
  | onErrorReturn => rw [onReturn_pds]
  | _ => rfl

/-- What the other threads do in one build, they do in the other. -/
theorem other_view (ha : a.polls = false) (hq : List.Forall₂ SameMsg s.userQ q)
    (hstep : step s a = some s') :
    ∃ q', step (s.view q ppc) a = some (s'.view q' ppc) ∧ List.Forall₂ SameMsg s'.userQ q' := by
  -- a step that does not look at the messages to the user thread
  have hquiet : (∀ q ppc, step (s.view q ppc) a = (step s a).map fun t => t.view q ppc) →
      ∃ q', step (s.view q ppc) a = some (s'.view q' ppc) ∧
        List.Forall₂ SameMsg s'.userQ q' := fun hview =>
    ⟨q, by rw [hview, hstep]; rfl, (view_kept (hview s.userQ s.ppc) hstep).symm ▸ hq⟩
  cases a with
  | add fd x d e l b =>
    apply hquiet
    intro q ppc
    refine ite_view Iff.rfl ?_ rfl
    rw [hpIocpAdd_view, Option.map_map, Option.map_map]
    rfl
  | rm id =>
    apply hquiet
    intro q ppc
    refine ite_view Iff.rfl ?_ rfl
    rw [hpIocpRm_view]
    rfl
  | write id data bytes freecb ptr =>
    apply hquiet
    intro q ppc
    refine ite_view Iff.rfl ?_ rfl
    rw [hpIocpWrite_view, Option.map_map, Option.map_map]
    rfl
  | itemOnError => exact hquiet fun q ppc => hpIocpItemOnError_view
  | onErrorReturn => exact hquiet fun q ppc => onErrorReturn_view
  | pass neg => exact hquiet fun q ppc => runPass_view neg
  | sendDone id nbuf => exact hquiet fun q ppc => sendDone_view id nbuf
  | recvDone k nbuf => exact hquiet fun q ppc => recvDone_view k nbuf
  | msgsEnd =>
    simp only [step, runMsgsEnd] at hstep
    split at hstep
    · next hpc hcalm hnil =>
      cases hstep
      rw [hnil] at hq
      cases hq
      exact ⟨[], by simp only [step, runMsgsEnd, view_pc, view_failing, hpc, hcalm]; rfl,
        by rw [hnil]; exact .nil⟩
    · cases hstep
  | handle err drop =>
    simp only [step, hpIocpHandleMsg] at hstep
    split at hstep
    · next id f rest hpc hcalm hqueue =>
      rw [hqueue] at hq
      cases hq with
      | @cons _ _ _ q' hm hrest =>
        cases hm with
        | @fd _ _ g hsame =>
          refine ⟨q', ?_, ?_⟩
          · simp only [step, hpIocpHandleMsg_fd (s := s.view (.fd id g :: q') ppc) hpc hcalm rfl]
            have hview := @handleFd_view { s with userQ := rest } q' ppc f g hsame id err
            rwa [hstep] at hview
          · have hkeep :=
              @handleFd_view { s with userQ := rest } rest s.ppc f f (.inl rfl) id err
            rw [view_kept hkeep hstep]
            exact hrest
    · next ol nbuf e rest hpc hcalm hqueue =>
      rw [hqueue] at hq
      cases hq with
      | @cons _ _ _ q' hm hrest =>
        cases hm with
        | io =>
          refine ⟨q', ?_, ?_⟩
          · simp only [step,
              hpIocpHandleMsg_io (s := s.view (.io ol nbuf e :: q') ppc) hpc hcalm rfl]
            have hview := @handleIo_view { s with userQ := rest } q' ppc ol nbuf e drop
            rwa [hstep] at hview
          · have hkeep := @handleIo_view { s with userQ := rest } rest s.ppc ol nbuf e drop
            rw [view_kept hkeep hstep]
            exact hrest
    · cases hstep
  | postIo k err =>
    simp only [step, postIo] at hstep
    obtain ⟨⟨ol, nbuf⟩, hk, hs'⟩ := Option.map_eq_some_iff.mp hstep
    subst hs'
    refine ⟨q ++ [.io ol nbuf err], by simp only [step, postIo, view_done, hk]; rfl, ?_⟩
    exact List.rel_append hq (.cons .io .nil)
  | pollMsg | pollMsgsEnd | select | scan => cases ha

end

end Libhp.Iocp
