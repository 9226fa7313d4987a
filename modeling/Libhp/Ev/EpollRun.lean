import Libhp.Ev.Loop

/-!
# The epoll event loop

`hp_epoll_run` of `hp_epoll.c` over the connections of `hp_io_t.cpp`, one callback a
step. `epoll_wait` may report any registered pointers. A pointer of the batch may be
stale when its turn comes; what a freed `hp_epolld` holds is not defined, and no step
is taken from there.
-/
namespace Libhp.Ev
open Libhp.Io

def epollOps : RegOps (HpEpoll IoFn Bool) where
  add c epo fd events cb hint :=
    (hpEpollAdd (fun _ _ _ (k : Unit) => (c, k)) epo fd events cb hint ()).map fun (rc, epo, _) =>
      (rc, epo)
  rm c epo fd := (hpEpollRm (fun _ _ _ (k : Unit) => (c, k)) epo fd ()).2.1

inductive EpollAns where
  | fail (errno : Int)
  | ready (evs : List EpollEvent)

/-- Where `hp_epoll_run` is. -/
inductive EpollPc where
  | idle
  | drive (i : Nat)
  | wait
  | batch (evs : List EpollEvent)
  | onLoop (i : Nat)

structure EpollRun where
  pc : EpollPc
  once : Bool
  w : IoWorld (HpEpoll IoFn Bool)

/-- `hp_io_init`. -/
def epollStart (maxfd : Int) : EpollRun := ⟨.idle, false, initWorld (hpEpollInit maxfd)⟩

section
variable (env : RunEnv EpollAns)

/-- `for(; !runed; )`. -/
def EpollRun.loopHead (s : EpollRun) : EpollRun :=
  { s with pc := if s.once then .idle else .drive 0 }

/-- `ed->fn(ev, ed->arg)`; its result is not used. -/
def epollCall (d : HpEpolld IoFn Bool) (events : Nat) (w : IoWorld (HpEpoll IoFn Bool)) :
    Option (IoWorld (HpEpoll IoFn Bool)) :=
  let w := w.note (.call d.arg)
  match d.fn with
  | .onAccept => some (onAccept epollOps env.toIoEnv d.arg w)
  | .ioCb => ioCbEpoll epollOps env.toIoEnv d.arg events w

/-- `ed->on_loop(ed->arg)`, if it is set; its result is not used. -/
def epollOnLoop (d : HpEpolld IoFn Bool) (w : IoWorld (HpEpoll IoFn Bool)) :
    IoWorld (HpEpoll IoFn Bool) :=
  if d.onLoop then onLoop epollOps env.toIoEnv d.arg (w.note (.call d.arg)) else w

/-- One step. A failed assertion stops the process. -/
def epollStep (s : EpollRun) : Option EpollRun :=
  if s.w.aborted then none
  else
    match s.pc with
    | .idle =>
      match env.user s.w.tick with
      | .acts as => some { s with w := doActs epollOps env.toIoEnv s.w.step as }
      | .run mode => some { pc := .drive 0, once := mode ≠ 0, w := s.w.step }
    | .drive i =>
      if i < s.w.reg.evLen then
        (s.w.reg.heap (s.w.reg.ed.getD i 0)).bind fun d =>
          (epollCall env d (EPOLLIN + EPOLLOUT) s.w).map fun w => { s with pc := .drive (i + 1), w := w }
      else some { s with pc := .wait }
    | .wait =>
      match env.wait s.w.tick with
      | .fail errno =>
        if errno = EINTR ∨ errno = EAGAIN then some { s with w := s.w.step }.loopHead
        else some { s with pc := .idle, w := s.w.step }
      | .ready evs =>
        if ∀ ev ∈ evs, ev.ptr ∈ s.w.reg.live then some { s with pc := .batch evs, w := s.w.step }
        else none
    | .batch [] => some { s with pc := .onLoop 0 }
    | .batch (ev :: evs) =>
      (s.w.reg.heap ev.ptr).bind fun d =>
        (epollCall env d ev.events s.w).map fun w => { s with pc := .batch evs, w := w }
    | .onLoop i =>
      if i < s.w.reg.evLen then
        (s.w.reg.heap (s.w.reg.ed.getD i 0)).map fun d =>
          { s with pc := .onLoop (i + 1), w := epollOnLoop env d s.w }
      else some s.loopHead

end

/-- What the registry keeps while the events `batch` are still to be worked off. -/
structure EpollRep (batch : List EpollEvent) (n : Ptr) (epo : HpEpoll IoFn Bool)
    (m : OrdMap Int (HpPolld IoFn Bool)) : Prop where
  pos : 0 < n
  rep : ∃ max, epo.Represents max m
  below : ∀ q ∈ epo.live, q < n
  /-- A pointer of the batch is registered or its block has been freed. -/
  batch : ∀ ev ∈ batch, ev.ptr < n ∧ (epo.heap ev.ptr = none ∨ ev.ptr ∈ epo.live)

section
variable {batch : List EpollEvent} {n : Ptr} {epo epo' : HpEpoll IoFn Bool}
  {m : OrdMap Int (HpPolld IoFn Bool)}

theorem EpollRep.mono (h : EpollRep batch n epo m) : EpollRep batch (n + 1) epo m :=
  ⟨Nat.succ_pos n, h.rep, fun q hq => Nat.lt_succ_of_lt (h.below q hq),
    fun ev hev => ⟨Nat.lt_succ_of_lt (h.batch ev hev).1, (h.batch ev hev).2⟩⟩

theorem EpollRep.add {c : SysRes} {fd : Int} {events : Nat} {cb : HpPolld IoFn Bool} {rc : Int}
    (h : EpollRep batch n epo m) (hrun : epollOps.add c epo fd events cb n = some (rc, epo')) :
    ∃ m', EpollRep batch (n + 1) epo' m' ∧ ∀ e ∈ m'.entries, e ∈ m.entries ∨ e = (fd, cb) := by
  obtain ⟨max, hrep⟩ := h.rep
  obtain ⟨⟨rc, epo₁, k⟩, hadd, heq⟩ := Option.map_eq_some_iff.mp hrun
  cases heq
  have hfresh : n ∉ epo.live := fun hn => Nat.lt_irrefl n (h.below n hn)
  have hptr : mallocPtr epo.live n = n := by
    rw [mallocPtr, if_neg]
    rintro (h0 | hmem)
    · exact Nat.ne_of_gt h.pos h0
    · exact hfresh hmem
  -- storing at n frees nothing and touches no pointer of the batch
  have hheap : ∀ ev ∈ batch, setHeap epo.heap n (some { cb with fd := fd }) ev.ptr =
      epo.heap ev.ptr := by
    intro ev hev
    simp only [setHeap, Nat.ne_of_lt (h.batch ev hev).1, ↓reduceIte]
  rcases hpEpollAdd_cases hrep hadd with rfl | ⟨i, hi, rfl⟩ | rfl | ⟨hi, hroom, rfl⟩
  · exact ⟨m, h.mono, fun e he => .inl he⟩
  · refine ⟨m.set fd cb, ⟨Nat.succ_pos n, ⟨max, hpEpollAdd_known hrep hi cb⟩,
      h.mono.below, ?_⟩, fun e he => OrdMap.mem_set he⟩
    intro ev hev
    refine ⟨(h.mono.batch ev hev).1, ?_⟩
    obtain ⟨hlt, -⟩ := OrdMap.index_some hi
    have hlive : epo.ed.getD i 0 ∈ epo.live := List.mem_of_getElem? (hrep.heap_at hlt).2
    by_cases hev' : ev.ptr = epo.ed.getD i 0
    · exact .inr (by rw [hev']; exact hlive)
    · simp only [HpEpoll.store, setHeap, hev', ↓reduceIte]
      exact (h.batch ev hev).2
  · rw [hptr]
    refine ⟨m, ⟨Nat.succ_pos n, ⟨max, store_fresh hrep hfresh fd cb⟩, h.mono.below, ?_⟩,
      fun e he => .inl he⟩
    intro ev hev
    refine ⟨(h.mono.batch ev hev).1, ?_⟩
    change setHeap epo.heap n _ ev.ptr = none ∨ ev.ptr ∈ epo.live
    rw [hheap ev hev]
    exact (h.batch ev hev).2
  · rw [hptr]
    have hlive : ((epo.store n fd cb).push n).live = epo.live ++ [n] :=
      live_push (by rw [← hrep.slots] at hroom; exact hroom) n
    refine ⟨m.set fd cb, ⟨Nat.succ_pos n, ⟨max, hpEpollAdd_new hrep hi hroom cb hfresh⟩, ?_, ?_⟩,
      fun e he => OrdMap.mem_set he⟩
    · intro q hq
      rw [hlive] at hq
      rcases List.mem_append.mp hq with hq | hq
      · exact h.mono.below q hq
      · rw [List.mem_singleton.mp hq]
        exact Nat.lt_succ_self n
    · intro ev hev
      refine ⟨(h.mono.batch ev hev).1, ?_⟩
      rw [hlive]
      change setHeap epo.heap n _ ev.ptr = none ∨ _
      rw [hheap ev hev]
      exact (h.batch ev hev).2.imp_right fun hl => List.mem_append_left _ hl

theorem EpollRep.rm (h : EpollRep batch n epo m) (c : SysRes) (fd : Int) :
    EpollRep batch n (epollOps.rm c epo fd) (m.erase fd) := by
  obtain ⟨max, hrep⟩ := h.rep
  have hrep' : (epollOps.rm c epo fd).Represents max (m.erase fd) :=
    (hpEpollRm_spec (fun _ _ _ (k : Unit) => (c, k)) hrep fd ()).2
  cases hi : m.index fd with
  | none =>
    have hsame : epollOps.rm c epo fd = epo := by
      simp only [epollOps, hpEpollRm, findByFd_eq hrep, hi]
    rw [hsame] at hrep' ⊢
    exact ⟨h.pos, ⟨max, hrep'⟩, h.below, h.batch⟩
  | some i =>
    have hrm : epollOps.rm c epo fd = epo.removeAt i := by
      simp only [epollOps, hpEpollRm, findByFd_eq hrep, hi]
    rw [hrm] at hrep' ⊢
    obtain ⟨hlt, -⟩ := OrdMap.index_some hi
    have hil : i < epo.evLen := by rw [hrep.size_eq]; exact hlt
    have hlive : (epo.removeAt i).live = epo.live.eraseIdx i :=
      live_removeAt (by rw [hrep.slots]; exact hrep.len_le) hil
    obtain ⟨hilt, hip⟩ := List.getElem?_eq_some_iff.mp (hrep.heap_at hlt).2
    refine ⟨h.pos, ⟨max, hrep'⟩, ?_, ?_⟩
    · intro q hq
      rw [hlive] at hq
      exact h.below q (List.mem_of_mem_eraseIdx hq)
    · intro ev hev
      refine ⟨(h.batch ev hev).1, ?_⟩
      rw [hlive]
      change setHeap epo.heap _ none ev.ptr = none ∨ _
      by_cases hev' : ev.ptr = epo.ed.getD i 0
      · exact .inl (by simp only [setHeap, hev', ↓reduceIte])
      · simp only [setHeap, hev', ↓reduceIte]
        apply (h.batch ev hev).2.imp_right
        intro hl
        rw [← hrep.nodup.erase_getElem i hilt, hip]
        exact (List.mem_erase_of_ne hev').mpr hl

end

def epollLaws (batch : List EpollEvent) : RegLaws epollOps where
  Rep := EpollRep batch
  mono := EpollRep.mono
  add := EpollRep.add
  rm := fun c fd h => EpollRep.rm h c fd

def EpollPc.evs : EpollPc → List EpollEvent
  | batch evs => evs
  | _ => []

/-- The invariant of the loop: the registry and the connections agree, and so do the
events that are still to be worked off. -/
def EpollInv (s : EpollRun) : Prop := ∃ m, WInv (epollLaws s.pc.evs) s.w m

section
variable {env : RunEnv EpollAns} {s s' : EpollRun} {evs evs' : List EpollEvent}
  {m : OrdMap Int (HpPolld IoFn Bool)} {w w' : IoWorld (HpEpoll IoFn Bool)}

theorem rebatch (h : WInv (epollLaws evs) w m)
    (hevs : ∀ ev ∈ evs', ev ∈ evs ∨ ev.ptr ∈ w.reg.live) : WInv (epollLaws evs') w m := by
  refine ⟨⟨h.rep.pos, h.rep.rep, h.rep.below, ?_⟩, h.entry, h.known, h.deleted⟩
  intro ev hev
  rcases hevs ev hev with hold | hlive
  · exact h.rep.batch ev hold
  · exact ⟨h.rep.below _ hlive, .inr hlive⟩

theorem epollCall_spec {p : Ptr} {d : HpEpolld IoFn Bool} {events : Nat}
    (h : WInv (epollLaws evs) w m) (hp : p ∈ w.reg.live) (hd : w.reg.heap p = some d)
    (hrun : epollCall env d events w = some w') :
    (∃ m', WInv (epollLaws evs) w' m') ∧ StepOut epollLate w w' := by
  obtain ⟨max, hrep⟩ := h.rep.rep
  obtain ⟨e, he, hblock⟩ := hrep.of_live hp
  rw [hd] at hblock
  cases hblock
  apply call_spec h he rfl
  rintro w₁ h₁ rfl hsome
  unfold epollCall at hrun
  dsimp only at hrun
  split at hrun
  · cases hrun
    obtain ⟨seg, hmove, hcalm⟩ : ∃ seg, Moves (epollLaws evs) e.2.arg _ seg _ ∧ Calm e.2.arg seg :=
      onAccept_spec h₁ e.2.arg
    exact ⟨seg, hmove, .calm hcalm⟩
  · exact ioCbEpoll_spec h₁ hsome hrun

theorem epollOnLoop_spec {p : Ptr} {d : HpEpolld IoFn Bool} (h : WInv (epollLaws evs) w m)
    (hp : p ∈ w.reg.live) (hd : w.reg.heap p = some d) :
    (∃ m', WInv (epollLaws evs) (epollOnLoop env d w) m') ∧
      StepOut epollLate w (epollOnLoop env d w) := by
  unfold epollOnLoop
  split
  · obtain ⟨max, hrep⟩ := h.rep.rep
    obtain ⟨e, he, hblock⟩ := hrep.of_live hp
    rw [hd] at hblock
    cases hblock
    apply call_spec h he rfl
    rintro w₁ h₁ rfl -
    exact onLoop_spec epollLate h₁ e.2.arg
  · exact stay_quiet h

theorem live_getD (h : WInv (epollLaws evs) w m) {i : Nat} (hi : i < w.reg.evLen) :
    w.reg.ed.getD i 0 ∈ w.reg.live := by
  obtain ⟨max, hrep⟩ := h.rep.rep
  have hlt : i < m.entries.length := by rw [hrep.size_eq] at hi; exact hi
  exact List.mem_of_getElem? (hrep.heap_at hlt).2

theorem loopHead_evs (s : EpollRun) : s.loopHead.pc.evs = [] := by
  simp only [EpollRun.loopHead]
  split <;> rfl

theorem epollStep_spec (h : EpollInv s) (hstep : epollStep env s = some s') :
    EpollInv s' ∧ StepOut epollLate s.w s'.w := by
  obtain ⟨m, h⟩ := h
  have hnil : WInv (epollLaws []) s.w m := rebatch h (by simp)
  unfold epollStep at hstep
  split at hstep
  · cases hstep
  · split at hstep
    · split at hstep
      · cases hstep
        exact acts_quiet h _
      · cases hstep
        exact step_quiet hnil
    · next i hpc =>
      split at hstep
      · next hi =>
        obtain ⟨d, hd, hmap⟩ := Option.bind_eq_some_iff.mp hstep
        obtain ⟨w', hcall, heq⟩ := Option.map_eq_some_iff.mp hmap
        cases heq
        exact epollCall_spec hnil (live_getD hnil hi) hd hcall
      · cases hstep
        exact stay_quiet hnil
    · split at hstep
      · split at hstep
        · cases hstep
          rw [EpollInv, loopHead_evs]
          exact step_quiet hnil
        · cases hstep
          exact step_quiet hnil
      · split at hstep
        · next evs hwait hlive =>
          cases hstep
          exact step_quiet (rebatch h fun ev hev => .inr (hlive ev hev))
        · cases hstep
    · cases hstep
      exact stay_quiet hnil
    · next ev evs hpc =>
      obtain ⟨d, hd, hmap⟩ := Option.bind_eq_some_iff.mp hstep
      obtain ⟨w', hcall, heq⟩ := Option.map_eq_some_iff.mp hmap
      cases heq
      rw [hpc] at h
      have hlive : ev.ptr ∈ s.w.reg.live := by
        rcases (h.rep.batch ev (List.mem_cons_self ..)).2 with hnone | hlive
        · rw [hnone] at hd
          cases hd
        · exact hlive
      exact epollCall_spec (rebatch h fun e he => .inl (List.mem_cons_of_mem ev he)) hlive hd hcall
    · next i hpc =>
      split at hstep
      · next hi =>
        obtain ⟨d, hd, heq⟩ := Option.map_eq_some_iff.mp hstep
        cases heq
        exact epollOnLoop_spec hnil (live_getD hnil hi) hd
      · cases hstep
        rw [EpollInv, loopHead_evs]
        exact stay_quiet hnil

theorem epollStart_inv (maxfd : Int) : EpollInv (epollStart maxfd) := by
  refine ⟨OrdMap.empty, initWorld_inv ⟨Nat.one_pos, ⟨_, hpEpollInit_rep maxfd⟩, ?_, ?_⟩⟩
  · intro q hq
    simp [HpEpoll.live, hpEpollInit] at hq
  · intro ev hev
    cases hev

end
end Libhp.Ev
