import Libhp.Ev.Callback

/-!
# The passes over the registered entries

The loops of `hp_epoll_run` and `hp_poll_run` that go over the registered entries by
index: the manual `EPOLLIN | EPOLLOUT` pass of epoll and the `on_loop` pass of both. A
callback that removes an entry shifts those behind it, and the index goes up all the
same. An entry is served where `if(fn) fn(.., arg)` is executed for it.
-/
namespace Libhp.Ev
open Libhp.Io (Ptr)

/-- What the `on_loop` callbacks of `hp_poll_run` see and change. -/
structure PollSt (F L σ : Type) where
  po : HpPoll F L
  s : σ

/-- The two passes of `hp_epoll_run`. -/
inductive Pass where
  | drive
  | onLoop
  deriving DecidableEq, Repr

section
variable {F L κ σ S : Type}

/-- What is called for an entry; the event of the first pass is made up. -/
def Pass.body (pass : Pass) (h : Handlers F L S σ) (p : Ptr) (d : HpEpolld F L) :
    Option (Body F L S σ) :=
  match pass with
  | .drive => (h.fn d.fn).map fun f => f ⟨EPOLLIN + EPOLLOUT, p⟩
  | .onLoop => h.onLoop d.onLoop

/-- The body of the loop at `i`. A pointer to no block fails the assertion. -/
def epollVisit (ctl : EpollCtl κ) (h : Handlers F L (LoopSt F L κ σ) σ) (pass : Pass) (i : Nat)
    (st : LoopSt F L κ σ) : Option (Sweep.Turn Int × LoopSt F L κ σ) :=
  let p := st.epo.ed.getD i 0
  (st.epo.heap p).bind fun d =>
    let done := callBody (pass.body h p d) d.arg st st.s
    (st.perform ctl done).map fun st' =>
      (⟨d.fd, st.epo.fds.take (i + 1), removedFds done.1⟩, st')

/-- `for(i = 0; i < epo->ev_len; ++i)`. -/
def epollPass (ctl : EpollCtl κ) (h : Handlers F L (LoopSt F L κ σ) σ) (pass : Pass)
    (st : LoopSt F L κ σ) : Option (List (Sweep.Turn Int) × LoopSt F L κ σ) :=
  Sweep.loop (fun st => st.epo.evLen) (epollVisit ctl h pass) st.epo.maxEvLen 0 st

/-- The body of the loop at `i + 1`, where the entry is `fds[i + 1]` and `pd[-(i + 1)]`. -/
def pollVisit (h : Handlers F L (PollSt F L σ) σ) (i : Nat) (st : PollSt F L σ) :
    Option (Sweep.Turn Int × PollSt F L σ) :=
  (st.po.pd (i + 1)).map fun d =>
    let done := callBody (h.onLoop d.onLoop) d.arg st st.s
    (⟨(st.po.fds.getD (i + 1) default).fd, st.po.regFds.take (i + 1), removedFds done.1⟩,
      ⟨(pollRun done.1 st.po).2, done.2⟩)

/-- `for (i = 1; i <= po->nfds; ++i)`. -/
def pollPass (h : Handlers F L (PollSt F L σ) σ) (st : PollSt F L σ) :
    Option (List (Sweep.Turn Int) × PollSt F L σ) :=
  Sweep.loop (fun st => st.po.nfds) (pollVisit h) st.po.maxFd 0 st

def LoopSt.Shows (max : Nat) (st : LoopSt F L κ σ) (keys : List Int) : Prop :=
  ∃ m, st.epo.Represents max m ∧ keys = m.keys

def PollSt.Shows (max : Nat) (st : PollSt F L σ) (keys : List Int) : Prop :=
  ∃ m, st.po.Represents max m ∧ keys = m.keys

theorem epollPass_sweeps (ctl : EpollCtl κ) (h : Handlers F L (LoopSt F L κ σ) σ) (pass : Pass)
    (max : Nat) :
    Sweep.Sweeps (fun st => st.epo.evLen) (epollVisit ctl h pass) (LoopSt.Shows max) := by
  constructor
  · rintro st keys ⟨m, hrep, rfl⟩
    exact hrep.size_eq.trans m.length_keys.symm
  · rintro st keys i t st' ⟨m, hrep, rfl⟩ hi hvisit
    rw [OrdMap.length_keys] at hi
    obtain ⟨hblock, -⟩ := hrep.heap_at hi
    simp only [epollVisit, hblock, Option.bind_some] at hvisit
    obtain ⟨st₁, hperform, heq⟩ := Option.map_eq_some_iff.mp hvisit
    cases heq
    obtain ⟨⟨outs, epo', k'⟩, hrun, heq⟩ := Option.map_eq_some_iff.mp hperform
    cases heq
    obtain ⟨m', hrep', hchanged⟩ := epollRun_changed hrep hrun
    refine ⟨?_, ?_, m'.keys, hchanged, m', hrep', rfl⟩
    · rw [OrdMap.keys, List.getElem?_map, List.getElem?_eq_getElem hi]
      rfl
    · rw [hrep.fds_eq]

theorem pollPass_sweeps (h : Handlers F L (PollSt F L σ) σ) (max : Nat) :
    Sweep.Sweeps (fun st => st.po.nfds) (pollVisit h) (PollSt.Shows max) := by
  constructor
  · rintro st keys ⟨m, hrep, rfl⟩
    exact hrep.size_eq.trans m.length_keys.symm
  · rintro st keys i t st' ⟨m, hrep, rfl⟩ hi hvisit
    rw [OrdMap.length_keys] at hi
    have hin : i < st.po.nfds := by rw [hrep.size_eq]; exact hi
    obtain ⟨d, hpd, heq⟩ := Option.map_eq_some_iff.mp hvisit
    cases heq
    obtain ⟨m', hrep', hchanged⟩ := pollRun_changed hrep
    refine ⟨?_, ?_, m'.keys, hchanged, m', hrep', rfl⟩
    · have hfd := (hrep.entry i hin).1
      have hlen : i + 1 < st.po.fds.length := by
        have hle := hrep.len_le
        have hlen := hrep.fds_len
        omega
      rw [OrdMap.keys, List.getElem?_map, ← hfd, List.getElem?_eq_getElem hlen,
        List.getD_eq_getElem?_getD, List.getElem?_eq_getElem hlen]
      rfl
    · rw [hrep.regFds_eq]

/-- The pass ends: `ev_len` never exceeds its bound, and each turn raises the index. -/
theorem epollPass_total {ctl : EpollCtl κ} (hctl : AddsFresh ctl)
    (h : Handlers F L (LoopSt F L κ σ) σ) (pass : Pass) {st : LoopSt F L κ σ} {max : Nat}
    {m : OrdMap Int (HpPolld F L)} (hrep : st.epo.Represents max m) :
    (epollPass ctl h pass st).isSome = true := by
  refine Sweep.loop_total (epollPass_sweeps ctl h pass max) max ?_ ?_ ⟨m, hrep, rfl⟩ ?_
  · rintro st keys ⟨m, hrep, rfl⟩
    rw [OrdMap.length_keys, ← hrep.size_eq]
    exact hrep.len_le
  · rintro st keys i ⟨m, hrep, rfl⟩ hi
    rw [OrdMap.length_keys] at hi
    obtain ⟨hblock, -⟩ := hrep.heap_at hi
    simp only [epollVisit, hblock, Option.bind_some, LoopSt.perform, Option.isSome_map]
    exact epollRun_total hctl _ st.epo st.k
  · rw [hrep.maxEvLen]
    omega

theorem pollPass_total (h : Handlers F L (PollSt F L σ) σ) {st : PollSt F L σ} {max : Nat}
    {m : OrdMap Int (HpPolld F L)} (hrep : st.po.Represents max m) :
    (pollPass h st).isSome = true := by
  refine Sweep.loop_total (pollPass_sweeps h max) max ?_ ?_ ⟨m, hrep, rfl⟩ ?_
  · rintro st keys ⟨m, hrep, rfl⟩
    rw [OrdMap.length_keys, ← hrep.size_eq]
    exact hrep.len_le
  · rintro st keys i ⟨m, hrep, rfl⟩ hi
    rw [OrdMap.length_keys] at hi
    have hin : i < st.po.nfds := by rw [hrep.size_eq]; exact hi
    have hpd := (hrep.entry i hin).2
    rw [List.getElem?_eq_getElem hi] at hpd
    simp only [pollVisit, hpd, Option.map_some, Option.isSome_some]
  · rw [hrep.maxFd]
    omega

/-- In each of the three passes every entry that is registered when the pass starts, and not
removed before its turn, is served exactly once if and only if no callback of the pass
removes its own entry, or one in front of it, while such an entry waits behind it. The passes
end, on epoll unless the assertion of `hp_epoll_add` fails. -/
theorem entries_served_once (max : Nat) (ctl : EpollCtl κ)
    (h : Handlers F L (LoopSt F L κ σ) σ) (h' : Handlers F L (PollSt F L σ) σ)
    (st : LoopSt F L κ σ) (pst : PollSt F L σ) (m m' : OrdMap Int (HpPolld F L))
    (hrep : st.epo.Represents max m) (hrep' : pst.po.Represents max m') :
    (∀ pass ts st', epollPass ctl h pass st = some (ts, st') →
      (Sweep.Once st.epo.fds ts ↔ Sweep.InPlace (.start st.epo.fds) ts)) ∧
    (AddsFresh ctl → ∀ pass, (epollPass ctl h pass st).isSome = true) ∧
    ∃ ts pst', pollPass h' pst = some (ts, pst') ∧
      (Sweep.Once pst.po.regFds ts ↔ Sweep.InPlace (.start pst.po.regFds) ts) := by
  refine ⟨?_, fun hctl pass => epollPass_total hctl h pass hrep, ?_⟩
  · intro pass ts st' hpass
    obtain ⟨hturns, -⟩ :=
      Sweep.loop_turns (epollPass_sweeps ctl h pass max) ⟨m, hrep, rfl⟩ hpass
    rw [hrep.fds_eq]
    exact Sweep.once_iff hturns m.nodup
  · obtain ⟨⟨ts, pst'⟩, hpass⟩ := Option.isSome_iff_exists.mp (pollPass_total h' hrep')
    obtain ⟨hturns, -⟩ := Sweep.loop_turns (pollPass_sweeps h' max) ⟨m', hrep', rfl⟩ hpass
    refine ⟨ts, pst', hpass, ?_⟩
    rw [hrep'.regFds_eq]
    exact Sweep.once_iff hturns m'.nodup

def fiveSevenPoll (xs : List Int) : PollSt (List Int) (List Int) Unit :=
  ⟨(pollRun (fiveSeven xs) (hpPollInit 4)).2, ()⟩

theorem fiveSevenPoll_represents (xs : List Int) :
    ∃ m, (fiveSevenPoll xs).po.Represents 4 m :=
  ⟨_, (pollRun_refines (fiveSeven xs) (hpPollInit_represents (by decide : (0 : Int) < 4))).2⟩

/-- Fd 5 removes fd 7 before its turn: nothing is skipped. -/
theorem entries_served_once_removed :
    (∃ ts st', epollPass accepts (removers _) .drive (fiveSevenEpoll [7]) = some (ts, st') ∧
      Sweep.Once (fiveSevenEpoll [7]).epo.fds ts) ∧
    ∃ ts pst', pollPass (removers _) (fiveSevenPoll [7]) = some (ts, pst') ∧
      Sweep.Once (fiveSevenPoll [7]).po.regFds ts := by
  obtain ⟨m, hrep⟩ := fiveSevenEpoll_represents [7]
  obtain ⟨m', hrep'⟩ := fiveSevenPoll_represents [7]
  obtain ⟨hepoll, htotal, ts', pst', hpoll, hiff⟩ :=
    entries_served_once 4 accepts (removers _) (removers _) _ _ m m' hrep hrep'
  obtain ⟨⟨ts, st'⟩, hpass⟩ := Option.isSome_iff_exists.mp (htotal accepts_fresh .drive)
  constructor
  · have hts : (epollPass accepts (removers _) .drive (fiveSevenEpoll [7])).map Prod.fst =
        some [⟨5, [5], [7]⟩] := by decide
    rw [hpass] at hts
    cases hts
    exact ⟨_, st', hpass, (hepoll .drive _ st' hpass).mpr (by decide)⟩
  · have hts : (pollPass (removers _) (fiveSevenPoll [7])).map Prod.fst =
        some [⟨5, [5], [7]⟩] := by decide
    rw [hpoll] at hts
    cases hts
    exact ⟨_, pst', hpoll, hiff.mpr (by decide)⟩

/-- Fd 5 removes itself, and fd 7 is skipped, in each of the three passes. -/
theorem entry_skipped :
    (∀ pass, ∃ ts, (epollPass accepts (removers _) pass (fiveSevenEpoll [5])).map Prod.fst =
      some ts ∧ ¬ Sweep.Once (fiveSevenEpoll [5]).epo.fds ts) ∧
    ∃ ts, (pollPass (removers _) (fiveSevenPoll [5])).map Prod.fst = some ts ∧
      ¬ Sweep.Once (fiveSevenPoll [5]).po.regFds ts := by
  constructor
  · intro pass
    refine ⟨[⟨5, [5], [5]⟩], ?_, by decide⟩
    cases pass <;> decide
  · exact ⟨[⟨5, [5], [5]⟩], by decide, by decide⟩

end
end Libhp.Ev
