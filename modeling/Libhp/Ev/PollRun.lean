import Libhp.Ev.Loop
import Libhp.Ev.Poll

/-!
# The poll event loop

`hp_poll_run` of `hp_poll.c` over the connections of `hp_io_t.cpp`, one callback a
step. A callback works on the slot of `fds` that it was called for, by its index, also
after removals have moved another connection there.
-/
namespace Libhp.Ev
open Libhp.Io

def pollOps : RegOps (HpPoll IoFn Bool) where
  add _ po fd events cb _ := some (hpPollAdd po fd events cb)
  rm _ po fd := (hpPollRm po fd).2

inductive PollAns where
  | fail (errno : Int)
  | timeout
  | ready (revents : Nat → Nat)

/-- Where `hp_poll_run` is; `nfds` is the number of fds when `poll` returned. -/
inductive PollPc where
  | idle
  | wait
  | dispatch (nfds : Nat)
  | onLoop (i : Nat)

structure PollRun where
  pc : PollPc
  once : Bool
  w : IoWorld (HpPoll IoFn Bool)

/-- `hp_io_init`. -/
def pollStart (maxfd : Int) : PollRun := ⟨.idle, false, initWorld (hpPollInit maxfd)⟩

section
variable {F L : Type}

/-- `fds[index].revents`. -/
def HpPoll.revents (po : HpPoll F L) (index : Nat) : Nat :=
  po.fds[index]?.elim 0 Pollfd.revents

/-- `fds[index].revents = events`. -/
def HpPoll.setRevents (po : HpPoll F L) (index events : Nat) : HpPoll F L :=
  { po with fds := po.fds.modify index fun pfd => { pfd with revents := events } }

/-- `poll(fds + 1, nfds, timeout)` fills in `revents`. -/
def HpPoll.fill (po : HpPoll F L) (revents : Nat → Nat) : HpPoll F L :=
  { po with fds := po.fds.mapIdx fun i pfd =>
      if 1 ≤ i ∧ i ≤ po.nfds then { pfd with revents := revents i } else pfd }

def getNextToRun (po : HpPoll F L) (nfds : Nat) : Option Nat :=
  ((List.range nfds).map (· + 1)).find? fun i => po.revents i ≠ 0

end

section
variable (env : RunEnv PollAns)

/-- `for(; !runed; )`. -/
def PollRun.loopHead (s : PollRun) : PollRun := { s with pc := if s.once then .idle else .wait }

/-- `pd->fn(pfd, pd->arg)` with the stores to `pfd->revents`; its result is not used. -/
def pollCall (index : Nat) (d : HpPolld IoFn Bool) (w : IoWorld (HpPoll IoFn Bool)) :
    Option (IoWorld (HpPoll IoFn Bool)) :=
  let w := w.note (.call d.arg)
  match d.fn with
  | .onAccept =>
    some (onAccept pollOps env.toIoEnv d.arg { w with reg := w.reg.setRevents index 0 })
  | .ioCb =>
    (ioCbPoll pollOps env.toIoEnv d.arg (fun po => po.revents index) w).map fun w =>
      { w with reg := w.reg.setRevents index 0 }

/-- `pd[-i].on_loop(pd[-i].arg)`, if it is set; its result is not used. -/
def pollOnLoop (d : HpPolld IoFn Bool) (w : IoWorld (HpPoll IoFn Bool)) :
    IoWorld (HpPoll IoFn Bool) :=
  if d.onLoop then onLoop pollOps env.toIoEnv d.arg (w.note (.call d.arg)) else w

/-- One step. -/
def pollStep (s : PollRun) : Option PollRun :=
  if s.w.aborted then none
  else
    match s.pc with
    | .idle =>
      match env.user s.w.tick with
      | .acts as => some { s with w := doActs pollOps env.toIoEnv s.w.step as }
      | .run mode => some { pc := .wait, once := mode ≠ 0, w := s.w.step }
    | .wait =>
      match env.wait s.w.tick with
      | .fail errno =>
        if errno = EINTR ∨ errno = EAGAIN then some { s with w := s.w.step }.loopHead
        else some { s with pc := .idle, w := s.w.step }
      | .timeout => some { s with w := s.w.step }.loopHead
      | .ready revents =>
        some { s with pc := .dispatch s.w.reg.nfds
                      w := { s.w.step with reg := s.w.reg.fill revents } }
    | .dispatch nfds =>
      match getNextToRun s.w.reg (min nfds s.w.reg.nfds) with
      | some index =>
        (s.w.reg.pd index).bind fun d => (pollCall env index d s.w).map fun w => { s with w := w }
      | none => some { s with pc := .onLoop 1 }
    | .onLoop i =>
      if i ≤ s.w.reg.nfds then
        (s.w.reg.pd i).map fun d => { s with pc := .onLoop (i + 1), w := pollOnLoop env d s.w }
      else some s.loopHead

end

section
variable {F L : Type} {po : HpPoll F L} {max : Nat} {m : OrdMap Int (HpPolld F L)}

/-- Changing `revents` does not change what the registry stands for. -/
theorem represents_of_fds (h : po.Represents max m) {fds : List Pollfd}
    (hfds : fds.map Pollfd.fd = po.fds.map Pollfd.fd) :
    HpPoll.Represents { po with fds := fds } max m := by
  refine ⟨h.maxFd, ?_, h.polld_len, h.size_eq, h.len_le, ?_⟩
  · have hlen := congrArg List.length hfds
    rw [List.length_map, List.length_map] at hlen
    exact hlen.trans h.fds_len
  · intro i hi
    obtain ⟨hfd, hpd⟩ := h.entry i hi
    refine ⟨?_, hpd⟩
    rw [← hfd, ← List.getElem?_map, ← List.getElem?_map, hfds]

theorem setRevents_represents (h : po.Represents max m) (index events : Nat) :
    (po.setRevents index events).Represents max m := by
  apply represents_of_fds h
  apply List.ext_getElem?
  intro i
  rw [List.getElem?_map, List.getElem?_map, List.getElem?_modify]
  cases po.fds[i]? with
  | none => rfl
  | some pfd =>
    simp only [Option.map_some]
    split <;> rfl

theorem fill_represents (h : po.Represents max m) (revents : Nat → Nat) :
    (po.fill revents).Represents max m := by
  apply represents_of_fds h
  apply List.ext_getElem?
  intro i
  rw [List.getElem?_map, List.getElem?_map, List.getElem?_mapIdx]
  cases po.fds[i]? with
  | none => rfl
  | some pfd =>
    simp only [Option.map_some]
    split <;> rfl

theorem getNextToRun_some {nfds index : Nat} (h : getNextToRun po nfds = some index) :
    0 < index ∧ index ≤ nfds := by
  have hmem := List.mem_of_find?_eq_some h
  obtain ⟨i, hi, rfl⟩ := List.mem_map.mp hmem
  exact ⟨Nat.succ_pos i, List.mem_range.mp hi⟩

/-- What the record of a registered slot is. -/
theorem HpPoll.Represents.of_pd (h : po.Represents max m) {index : Nat} {d : HpPolld F L}
    (hpos : 0 < index) (hle : index ≤ po.nfds) (hd : po.pd index = some d) :
    ∃ e ∈ m.entries, e.2 = d := by
  obtain ⟨i, rfl⟩ : ∃ i, index = i + 1 := ⟨index - 1, by omega⟩
  have hpd := (h.entry i hle).2
  rw [hd] at hpd
  obtain ⟨e, he, heq⟩ := Option.map_eq_some_iff.mp hpd.symm
  exact ⟨e, List.mem_of_getElem? he, heq⟩

end

theorem pollAdd_entries {po : HpPoll IoFn Bool} {max : Nat} {m : OrdMap Int (HpPolld IoFn Bool)}
    (h : po.Represents max m) (fd : Int) (events : Nat) (cb : HpPolld IoFn Bool) :
    ∃ m', (hpPollAdd po fd events cb).2.Represents max m' ∧
      ∀ e ∈ m'.entries, e ∈ m.entries ∨ e = (fd, cb) := by
  by_cases hneg : fd < 0
  · rw [hpPollAdd, if_pos hneg]
    exact ⟨m, h, fun e he => .inl he⟩
  · have hspec := hpPollAdd_spec h (Int.not_lt.mp hneg) events cb
    split_ifs at hspec
    · rw [hspec]
      exact ⟨m, h, fun e he => .inl he⟩
    · exact ⟨m.set fd cb, hspec.2, fun e he => OrdMap.mem_set he⟩

def pollLaws : RegLaws pollOps where
  Rep _ po m := ∃ max, po.Represents max m
  mono h := h
  add := by
    rintro n po m c fd events cb rc po' ⟨max, h⟩ hrun
    have hpo : (hpPollAdd po fd events cb).2 = po' := congrArg Prod.snd (Option.some.inj hrun)
    subst hpo
    obtain ⟨m', hrep, hsub⟩ := pollAdd_entries h fd events cb
    exact ⟨m', ⟨max, hrep⟩, hsub⟩
  rm := by
    rintro n po m - fd ⟨max, h⟩
    exact ⟨max, (hpPollRm_spec h fd).2⟩

def PollInv (s : PollRun) : Prop := ∃ m, WInv pollLaws s.w m

section
variable {env : RunEnv PollAns} {s s' : PollRun} {m : OrdMap Int (HpPolld IoFn Bool)}
  {w w' : IoWorld (HpPoll IoFn Bool)}

theorem setReg (h : WInv pollLaws w m) {po : HpPoll IoFn Bool}
    (hpo : ∀ max, w.reg.Represents max m → po.Represents max m) :
    WInv pollLaws { w with reg := po } m := by
  obtain ⟨max, hrep⟩ := h.rep
  exact ⟨⟨max, hpo max hrep⟩, h.entry, h.known, h.deleted⟩

theorem pollCall_spec {index : Nat} {d : HpPolld IoFn Bool} (h : WInv pollLaws w m)
    (hpos : 0 < index) (hle : index ≤ w.reg.nfds) (hd : w.reg.pd index = some d)
    (hrun : pollCall env index d w = some w') :
    (∃ m', WInv pollLaws w' m') ∧ StepOut pollLate w w' := by
  obtain ⟨max, hrep⟩ := h.rep
  obtain ⟨e, he, rfl⟩ := hrep.of_pd hpos hle hd
  apply call_spec h he rfl
  rintro w₁ h₁ rfl hsome
  unfold pollCall at hrun
  dsimp only at hrun
  split at hrun
  · cases hrun
    have hclear : WInv pollLaws { w.note (.call e.2.arg) with reg := w.reg.setRevents index 0 } m :=
      setReg h₁ fun max hrep => setRevents_represents hrep index 0
    obtain ⟨seg, hmove, hcalm⟩ : ∃ seg, Moves pollLaws e.2.arg _ seg _ ∧ Calm e.2.arg seg :=
      onAccept_spec hclear e.2.arg
    exact ⟨seg, ⟨hmove.inv, hmove.same, hmove.log⟩, .calm hcalm⟩
  · obtain ⟨w₂, hcb, rfl⟩ := Option.map_eq_some_iff.mp hrun
    obtain ⟨seg, hmove, hout⟩ := ioCbPoll_spec h₁ hsome hcb
    obtain ⟨m₂, h₂⟩ := hmove.inv
    have hclear : WInv pollLaws { w₂ with reg := w₂.reg.setRevents index 0 } m₂ :=
      setReg h₂ fun max hrep => setRevents_represents hrep index 0
    exact ⟨seg, ⟨⟨m₂, hclear⟩, hmove.same, hmove.log⟩, hout⟩

theorem pollOnLoop_spec {index : Nat} {d : HpPolld IoFn Bool} (h : WInv pollLaws w m)
    (hpos : 0 < index) (hle : index ≤ w.reg.nfds) (hd : w.reg.pd index = some d) :
    (∃ m', WInv pollLaws (pollOnLoop env d w) m') ∧ StepOut pollLate w (pollOnLoop env d w) := by
  unfold pollOnLoop
  split
  · obtain ⟨max, hrep⟩ := h.rep
    obtain ⟨e, he, rfl⟩ := hrep.of_pd hpos hle hd
    apply call_spec h he rfl
    rintro w₁ h₁ rfl -
    exact onLoop_spec pollLate h₁ e.2.arg
  · exact stay_quiet h

/-- The loop over all fds starts at 1. -/
def PollPc.fits : PollPc → Prop
  | onLoop i => 0 < i
  | _ => True

theorem loopHead_fits (s : PollRun) : s.loopHead.pc.fits := by
  simp only [PollRun.loopHead]
  split <;> trivial

theorem pollStep_spec (h : PollInv s) (hfits : s.pc.fits) (hstep : pollStep env s = some s') :
    (PollInv s' ∧ s'.pc.fits) ∧ StepOut pollLate s.w s'.w := by
  obtain ⟨m, h⟩ := h
  have hmk : ∀ {s' : PollRun}, s'.pc.fits →
      (∃ m', WInv pollLaws s'.w m') ∧ StepOut pollLate s.w s'.w →
      (PollInv s' ∧ s'.pc.fits) ∧ StepOut pollLate s.w s'.w := fun hf hs => ⟨⟨hs.1, hf⟩, hs.2⟩
  unfold pollStep at hstep
  split at hstep
  · cases hstep
  · split at hstep
    · next hpc =>
      split at hstep
      · cases hstep
        exact hmk hfits (acts_quiet h _)
      · cases hstep
        exact hmk trivial (step_quiet h)
    · split at hstep
      · split at hstep
        · cases hstep
          exact hmk (loopHead_fits _) (step_quiet h)
        · cases hstep
          exact hmk trivial (step_quiet h)
      · cases hstep
        exact hmk (loopHead_fits _) (step_quiet h)
      · next revents hwait =>
        cases hstep
        have hfill : WInv pollLaws { s.w.step with reg := s.w.reg.fill revents } m :=
          setReg h.step fun max hrep => fill_represents hrep revents
        exact hmk trivial ⟨⟨m, hfill⟩, .quiet rfl⟩
    · split at hstep
      · next index hnext =>
        obtain ⟨d, hd, hmap⟩ := Option.bind_eq_some_iff.mp hstep
        obtain ⟨w', hcall, heq⟩ := Option.map_eq_some_iff.mp hmap
        cases heq
        obtain ⟨hpos, hle⟩ := getNextToRun_some hnext
        exact hmk hfits
          (pollCall_spec h hpos (Nat.le_trans hle (Nat.min_le_right _ _)) hd hcall)
      · cases hstep
        exact hmk Nat.one_pos (stay_quiet h)
    · next i hpc =>
      rw [hpc] at hfits
      split at hstep
      · next hi =>
        obtain ⟨d, hd, heq⟩ := Option.map_eq_some_iff.mp hstep
        cases heq
        exact hmk (Nat.succ_pos i) (pollOnLoop_spec h hfits hi hd)
      · cases hstep
        exact hmk (loopHead_fits _) (stay_quiet h)

theorem pollStart_inv (maxfd : Int) : PollInv (pollStart maxfd) :=
  ⟨OrdMap.empty, initWorld_inv ⟨_, hpPollInit_rep maxfd⟩⟩

end
end Libhp.Ev
