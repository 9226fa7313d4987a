import Libhp.Iocp.WsaPoll

/-!
# The builds with WSAPoll and with select agree

Every run of the build with WSAPoll is a run of the build with select, but for POLLIN in the
messages to the user thread, which does not look at it.
-/
namespace Libhp.Iocp

/-- The messages are handled in the same way. -/
theorem wsaHandle_eq (maxfd : Nat) (fds : List Polld) (m : PollMsg) :
    wsaHandle maxfd fds m = pollHandle maxfd fds m := by
  cases m with
  | add id fd => rfl
  | rm id events =>
    cases hfind : Search.bsearch (fun pd : Polld => compare id pd.id) fds with
    | none => simp only [wsaHandle, pollHandle, hfind]
    | some i =>
      obtain ⟨pd, hpd, -⟩ := Search.bsearch_sound hfind
      have hset : (fds.modify i fun pd => { pd with flags := events }) =
          fds.set i { pd with flags := events } := by
        rw [List.modify_eq_set_getElem?, hpd]
        rfl
      simp only [wsaHandle, pollHandle, hfind]
      rw [List.eraseIdx_modify_of_eq, hset, hpd]
      rfl

/-- The sockets for which WSAPoll has reported a flag. -/
def socketsWith (flag : Flags → Bool) (fds : List Polld) (revents : List Flags) : List Nat :=
  ((fds.zip revents).filter fun p => flag p.2).map fun p => p.1.fd

/-- The sets that `select` left say of the entries from `i` on what `revents` says. -/
structure SameReports (fds : List Polld) (i : Nat) (revents : List Flags)
    (rfds wfds exceptfds : List Nat) : Prop where
  pin : ∀ k pd, i ≤ k → fds[k]? = some pd → (pd.fd ∈ rfds ↔ (reported revents k).pin = true)
  pout : ∀ k pd, i ≤ k → fds[k]? = some pd → (pd.fd ∈ wfds ↔ (reported revents k).pout = true)
  perr : ∀ k pd, i ≤ k → fds[k]? = some pd → (pd.fd ∈ exceptfds ↔ (reported revents k).perr = true)
  told : ∀ k, (reported revents k).told

/-- The two threads are at the same place. -/
inductive SamePc (fds : List Polld) : WsaPc → PollPc → Prop
  | msgs : SamePc fds .msgs .msgs
  | poll : SamePc fds .poll .select
  | scan {i revents rfds wfds exceptfds} (h : SameReports fds i revents rfds wfds exceptfds) :
    SamePc fds (.scan i revents) (.scan i rfds wfds exceptfds)

/-- The state of this build is one of the other build, but for what does not matter there. -/
def Sim (s : HpIocpWsa) (t : HpIocp) : Prop :=
  ∃ q ppc, t = s.iocp.view q ppc ∧ List.Forall₂ SameMsg s.iocp.userQ q ∧
    SamePc s.iocp.pds s.wpc ppc

section
variable {fds : List Polld} {revents : List Flags}

theorem mem_socketsWith (flag : Flags → Bool) (hnodup : (fds.map Polld.fd).Nodup) {k : Nat}
    {pd : Polld} {rev : Flags} (hpd : fds[k]? = some pd) (hrev : revents[k]? = some rev) :
    pd.fd ∈ socketsWith flag fds revents ↔ flag rev = true := by
  constructor
  · intro hin
    obtain ⟨p, hp, hfd⟩ := List.mem_map.mp hin
    obtain ⟨hzip, hflag⟩ := List.mem_filter.mp hp
    obtain ⟨j, hj⟩ := List.mem_iff_getElem?.mp hzip
    obtain ⟨hj₁, hj₂⟩ := List.getElem?_zip_eq_some.mp hj
    have hlt : k < (fds.map Polld.fd).length := by
      rw [List.length_map]
      exact (List.getElem?_eq_some_iff.mp hpd).1
    have hsame : (fds.map Polld.fd)[k]? = (fds.map Polld.fd)[j]? := by
      rw [List.getElem?_map, List.getElem?_map, hpd, hj₁, Option.map_some, Option.map_some, hfd]
    obtain rfl : k = j := (List.getElem?_inj hlt hnodup).mp hsame
    rw [hrev] at hj₂
    rwa [Option.some.inj hj₂]
  · intro hflag
    have hzip : (pd, rev) ∈ fds.zip revents :=
      List.mem_of_getElem? (List.getElem?_zip_eq_some.mpr ⟨hpd, hrev⟩)
    exact List.mem_map.mpr ⟨(pd, rev), List.mem_filter.mpr ⟨hzip, hflag⟩, rfl⟩

/-- What `WSAPoll` reports, `select` can report. -/
theorem select_of_poll (hready : wsaReady fds revents = true) (hnodup : (fds.map Polld.fd).Nodup)
    (htold : ∀ rev ∈ revents, rev.told) :
    ∃ rfds wfds exceptfds, selectReady fds rfds wfds exceptfds = true ∧
      SameReports fds 0 revents rfds wfds exceptfds := by
  unfold wsaReady at hready
  obtain ⟨hlen, hasked⟩ := Bool.and_eq_true_iff.mp hready
  have hlen := of_decide_eq_true hlen
  have hmem : ∀ (flag : Flags → Bool) k pd, fds[k]? = some pd →
      (pd.fd ∈ socketsWith flag fds revents ↔ flag (reported revents k) = true) := by
    intro flag k pd hpd
    have hlt : k < revents.length := hlen ▸ (List.getElem?_eq_some_iff.mp hpd).1
    have hrev : revents[k]? = some (reported revents k) := by
      rw [reported, List.getElem?_eq_getElem hlt]
      rfl
    exact mem_socketsWith flag hnodup hpd hrev
  have hgiven : ∀ (flag : Flags → Bool), ∀ fd ∈ socketsWith flag fds revents,
      ∃ p ∈ fds.zip revents, flag p.2 = true ∧ p.1 ∈ fds ∧ p.1.fd = fd := by
    intro flag fd hfd
    obtain ⟨p, hp, hpfd⟩ := List.mem_map.mp hfd
    obtain ⟨hzip, hflag⟩ := List.mem_filter.mp hp
    exact ⟨p, hzip, hflag, (List.of_mem_zip hzip).1, hpfd⟩
  have hask := List.all_eq_true.mp hasked
  refine ⟨socketsWith Flags.pin fds revents, socketsWith Flags.pout fds revents,
    socketsWith Flags.perr fds revents, ?_, fun k pd _ => hmem _ k pd, fun k pd _ => hmem _ k pd,
    fun k pd _ => hmem _ k pd, fun k => ?_⟩
  · unfold selectReady
    refine Bool.and_eq_true_iff.mpr ⟨Bool.and_eq_true_iff.mpr ⟨?_, ?_⟩, ?_⟩
    · apply List.all_eq_true.mpr
      intro fd hfd
      obtain ⟨p, hzip, hflag, hin, rfl⟩ := hgiven _ fd hfd
      have hp := hask p hzip
      exact List.any_eq_true.mpr ⟨p.1, hin, by simp_all⟩
    · apply List.all_eq_true.mpr
      intro fd hfd
      obtain ⟨p, hzip, hflag, hin, rfl⟩ := hgiven _ fd hfd
      have hp := hask p hzip
      exact List.any_eq_true.mpr ⟨p.1, hin, by simp_all⟩
    · apply List.all_eq_true.mpr
      intro fd hfd
      obtain ⟨p, -, -, hin, rfl⟩ := hgiven _ fd hfd
      exact List.any_eq_true.mpr ⟨p.1, hin, by simp⟩
  · rw [reported]
    cases hrev : revents[k]? with
    | none => exact .inr ⟨rfl, rfl, rfl⟩
    | some rev => exact htold rev (List.mem_of_getElem? hrev)

/-- The entry whose turn it was is left behind. -/
theorem SameReports.next {i : Nat} {rfds wfds exceptfds : List Nat} {fds' : List Polld}
    (h : SameReports fds i revents rfds wfds exceptfds)
    (hsame : ∀ k, i + 1 ≤ k → fds'[k]? = fds[k]?) :
    SameReports fds' (i + 1) revents rfds wfds exceptfds where
  pin k pd hk hpd := h.pin k pd (Nat.le_of_succ_le hk) (hsame k hk ▸ hpd)
  pout k pd hk hpd := h.pout k pd (Nat.le_of_succ_le hk) (hsame k hk ▸ hpd)
  perr k pd hk hpd := h.perr k pd (Nat.le_of_succ_le hk) (hsame k hk ▸ hpd)
  told := h.told

end

section
variable {t : HpIocp} {i : Nat} {r w e : List Nat} {pd : Polld}

theorem scanned_behind {k : Nat} (hk : i + 1 ≤ k) : (t.scanned i w pd)[k]? = t.pds[k]? := by
  unfold HpIocp.scanned
  split
  · exact List.getElem?_set_ne (by omega)
  · rfl

theorem pollScan_skip (hs : t.Scans i r w e pd) (hr : pd.fd ∉ r) (hw : pd.fd ∉ w) (he : pd.fd ∉ e)
    (readErr : Bool) : pollScan t readErr = some { t with ppc := .scan (i + 1) r w e } := by
  have hnone : ¬ (pd.fd ∈ r ∨ pd.fd ∈ w ∨ pd.fd ∈ e) := by simp [hr, hw, he]
  simp only [pollScan, hs.pc, hs.get, if_pos hnone]

theorem pollScan_read (hs : t.Scans i r w e pd) (hr : pd.fd ∈ r) (he : pd.fd ∉ e) (readErr : Bool) :
    pollScan t readErr = some
      (if readErr then
        { hpIocpOlDel { t with ppc := .scan (i + 1) r w e } (hpIocpOlNewi t.next pd.id) with
          pds := t.scanned i w pd, next := t.next + 1, userQ := t.userQ ++ [.fd pd.id .err] }
      else
        { t with
          ppc := .scan (i + 1) r w e, pds := t.scanned i w pd, next := t.next + 1
          recvs := t.recvs ++ [hpIocpOlNewi t.next pd.id]
          userQ := t.userQ ++ [.fd pd.id (.writes (pd.fd ∈ w))] }) := by
  have hany : ¬ ¬ (pd.fd ∈ r ∨ pd.fd ∈ w ∨ pd.fd ∈ e) := fun h => h (.inl hr)
  simp only [pollScan, hs.pc, hs.get, if_neg hany, if_pos (And.intro he hr), if_neg he]
  cases readErr <;> rfl

theorem pollScan_post (hs : t.Scans i r w e pd) (hr : pd.fd ∉ r ∨ pd.fd ∈ e)
    (hany : pd.fd ∈ w ∨ pd.fd ∈ e) (readErr : Bool) :
    pollScan t readErr = some { t with
      ppc := .scan (i + 1) r w e, pds := t.scanned i w pd
      userQ := t.userQ ++
        [.fd pd.id (if pd.fd ∈ e then .err else .writes (pd.fd ∈ w))] } := by
  have hsome : ¬ ¬ (pd.fd ∈ r ∨ pd.fd ∈ w ∨ pd.fd ∈ e) := fun h => h (.inr hany)
  have hread : ¬ (pd.fd ∉ e ∧ pd.fd ∈ r) := fun h => hr.elim (· h.2) h.1
  simp only [pollScan, hs.pc, hs.get, if_neg hsome, if_neg hread]
  rfl

end

section
variable {s s' : HpIocpWsa} {q : List UserMsg} {ppc : PollPc}

/-- What is reported of a socket that has not failed. -/
theorem Flags.told.fine {rev : Flags} (h : rev.told) (hperr : rev.perr = false) :
    rev = ⟨rev.pin, rev.pout, false, false, false⟩ ∧ rev.failed = false := by
  rcases h with rfl | ⟨-, hhup, hnval⟩
  · cases hperr
  · obtain ⟨pin, pout, perr, phup, pnval⟩ := rev
    cases hperr
    cases hhup
    cases hnval
    exact ⟨rfl, rfl⟩

theorem Flags.told.failed {rev : Flags} (h : rev.told) (hperr : rev.perr = true) : rev = .err :=
  h.resolve_right fun hfine => Bool.eq_false_iff.mp hfine.1 hperr

/-- An entry of the table is asked about. -/
theorem wsaScan_sim {readErr : Bool} (hq : List.Forall₂ SameMsg s.iocp.userQ q)
    (hpc : SamePc s.iocp.pds s.wpc ppc) (hstep : wsaScan s readErr = some s') :
    ∃ t', pollScan (s.iocp.view q ppc) readErr = some t' ∧ Sim s' t' := by
  unfold wsaScan at hstep
  split at hstep
  · next i revents hwpc =>
    rw [hwpc] at hpc
    cases hpc with
    | @scan _ _ r w e hrep =>
      cases hpd : s.iocp.pds[i]? with
      | none =>
        simp only [hpd] at hstep
        cases hstep
        refine ⟨s.iocp.view q .msgs, ?_, q, .msgs, rfl, hq, .msgs⟩
        simp only [pollScan, HpIocp.view, hpd]
      | some pd =>
        simp only [hpd] at hstep
        have hs : (s.iocp.view q (.scan i r w e)).Scans i r w e pd := ⟨rfl, hpd⟩
        have hpin := hrep.pin i pd (Nat.le_refl i) hpd
        have hpout := hrep.pout i pd (Nat.le_refl i) hpd
        have hperr := hrep.perr i pd (Nat.le_refl i) hpd
        have htold := hrep.told i
        have hnext : SamePc (s.iocp.scanned i w pd) (.scan (i + 1) revents) (.scan (i + 1) r w e) :=
          .scan (hrep.next fun k hk => scanned_behind hk)
        have hpds : (if (reported revents i).pout then
            s.iocp.pds.set i { pd with flags := { pd.flags with pout := false } }
            else s.iocp.pds) = s.iocp.scanned i w pd := by
          unfold HpIocp.scanned
          simp only [hpout]
        have hpost : ∀ {f g : Flags}, (f = g ∨ f.failed = false ∧ g.failed = false ∧
            f.pout = g.pout) →
            List.Forall₂ SameMsg (s.iocp.userQ ++ [.fd pd.id f]) (q ++ [.fd pd.id g]) :=
          fun hsame => List.rel_append hq (.cons (.fd hsame) .nil)
        have hwrites : (reported revents i).pout = (Flags.writes (pd.fd ∈ w)).pout :=
          Bool.eq_iff_iff.mpr (hpout.symm.trans decide_eq_true_iff.symm)
        rw [hpds] at hstep
        split at hstep
        · next hzero =>
          cases hstep
          rw [hzero] at hpin hpout hperr
          exact ⟨_, pollScan_skip hs (by simp [hpin, Flags.zero]) (by simp [hpout, Flags.zero])
            (by simp [hperr, Flags.zero]) readErr, q, _, rfl, hq, .scan (hrep.next fun _ _ => rfl)⟩
        · next hzero =>
          split at hstep
          · next hread =>
            have hnerr : (reported revents i).perr = false := by
              rw [Bool.eq_false_iff]
              intro h
              rw [htold.failed h] at hread
              cases hread
            have he : pd.fd ∉ e := fun h => Bool.eq_false_iff.mp hnerr (hperr.mp h)
            refine ⟨_, pollScan_read hs (hpin.mpr hread) he readErr, ?_⟩
            cases readErr with
            | true =>
              cases hstep
              exact ⟨_, _, rfl, hpost (.inl rfl), hnext⟩
            | false =>
              cases hstep
              exact ⟨_, _, rfl, hpost (.inr ⟨(htold.fine hnerr).2, rfl, hwrites⟩), hnext⟩
          · next hread =>
            cases hstep
            have hr : pd.fd ∉ r := fun h => hread (hpin.mp h)
            by_cases herr : (reported revents i).perr = true
            · refine ⟨_, pollScan_post hs (.inl hr) (.inr (hperr.mpr herr)) readErr, _, _, rfl,
                hpost (.inl ?_), hnext⟩
              rw [if_pos (hperr.mpr herr)]
              exact htold.failed herr
            · have hnerr := Bool.eq_false_iff.mpr herr
              have he : pd.fd ∉ e := fun h => herr (hperr.mp h)
              have hw : pd.fd ∈ w := by
                rw [hpout]
                by_contra hnout
                apply hzero
                rw [(htold.fine hnerr).1, Bool.eq_false_iff.mpr hread, Bool.eq_false_iff.mpr hnout]
                rfl
              refine ⟨_, pollScan_post hs (.inl hr) (.inl hw) readErr, _, _, rfl,
                hpost (.inr ?_), hnext⟩
              rw [if_neg he]
              exact ⟨(htold.fine hnerr).2, rfl, hwrites⟩
  · cases hstep

theorem rmWatched_view {s : HpIocp} {a : Act} (hq : List.Forall₂ SameMsg s.userQ q)
    (h : RmWatched s a) : RmWatched (s.view q ppc) a := by
  cases a with
  | handle err drop =>
    simp only [RmWatched, HpIocp.view] at h ⊢
    cases hqueue : s.userQ with
    | nil =>
      rw [hqueue] at hq
      cases hq
      trivial
    | cons m rest =>
      rw [hqueue] at hq h
      cases hq with
      | cons hm _ =>
        cases hm with
        | fd => trivial
        | io => exact h
  | _ => exact h

theorem keepsTable_view {s : HpIocp} {a : Act} (hq : List.Forall₂ SameMsg s.userQ q)
    (h : KeepsTable s a) : KeepsTable (s.view q ppc) a := by
  obtain ⟨hfresh, hrm, hkind⟩ := h
  refine ⟨?_, rmWatched_view hq hrm, ?_⟩
  · cases a with
    | add =>
      intro hmake hend
      obtain ⟨hitems, hpds, hpollQ, huserQ, hrest⟩ := hfresh hmake hend
      rw [huserQ] at hq
      exact ⟨hitems, hpds, hpollQ, List.forall₂_nil_left_iff.mp hq, hrest⟩
    | _ => trivial
  · cases a <;> exact hkind

/-- A step of this build is one of the other build. -/
theorem wsaStep_sim {t : HpIocp} {a : WsaAct} (h : Sim s t) (hsock : (t.pds.map Polld.fd).Nodup)
    (hstep : wsaStep s a = some s') (hok : WsaOk s a) :
    ∃ b t', step t b = some t' ∧ KeepsTable t b ∧ Sim s' t' := by
  obtain ⟨q, ppc, rfl, hq, hpc⟩ := h
  cases a with
  | other a =>
    simp only [wsaStep] at hstep
    split at hstep
    · cases hstep
    · next hpolls =>
      obtain ⟨iocp, hiocp, hs'⟩ := Option.map_eq_some_iff.mp hstep
      subst hs'
      have hother := Bool.eq_false_iff.mpr hpolls
      obtain ⟨q', hview, hq'⟩ := @other_view _ _ _ ppc _ hother hq hiocp
      refine ⟨a, _, hview, keepsTable_view hq hok, q', ppc, rfl, hq', ?_⟩
      rwa [other_pds hother hiocp]
  | pollMsg =>
    simp only [wsaStep, wsaMsg] at hstep
    split at hstep
    · next m rest hwpc hqueue =>
      obtain ⟨pds, hpds, hs'⟩ := Option.map_eq_some_iff.mp hstep
      subst hs'
      rw [hwpc] at hpc
      cases hpc
      rw [wsaHandle_eq] at hpds
      refine ⟨.pollMsg, { s.iocp.view q .msgs with pds := pds, pollQ := rest }, ?_,
        ⟨trivial, trivial, trivial⟩, q, .msgs, rfl, hq, hwpc ▸ .msgs⟩
      simp only [step, Iocp.pollMsg, HpIocp.view, hqueue, hpds]
      rfl
    · cases hstep
  | pollMsgsEnd =>
    simp only [wsaStep, wsaMsgsEnd] at hstep
    split at hstep
    · next hwpc hqueue =>
      cases hstep
      rw [hwpc] at hpc
      cases hpc
      refine ⟨.pollMsgsEnd, s.iocp.view q .select, ?_, ⟨trivial, trivial, trivial⟩, q, .select, rfl,
        hq, .poll⟩
      simp only [step, Iocp.pollMsgsEnd, HpIocp.view, hqueue]
    · cases hstep
  | poll revents =>
    simp only [wsaStep, wsaPoll] at hstep
    split at hstep
    · next hwpc =>
      split at hstep
      · next hready =>
        cases hstep
        rw [hwpc] at hpc
        cases hpc
        obtain ⟨r, w, e, hselect, hrep⟩ := select_of_poll hready hsock hok
        refine ⟨.select r w e, s.iocp.view q (.scan 0 r w e), ?_, ⟨trivial, trivial, trivial⟩, q, _,
          rfl, hq, .scan hrep⟩
        simp only [step, pollSelect, HpIocp.view, hselect, if_true]
      · cases hstep
    · cases hstep
  | scan readErr =>
    obtain ⟨t', hscan, hsim⟩ := wsaScan_sim hq hpc hstep
    exact ⟨.scan readErr, t', hscan, ⟨trivial, trivial, trivial⟩, hsim⟩

end

end Libhp.Iocp
