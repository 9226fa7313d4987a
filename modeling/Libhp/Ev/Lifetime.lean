import Libhp.Ev.EpollRun
import Libhp.Ev.PollRun

/-!
# The life of a connection

Over every run of either event loop: whether a connection is used after its
`on_delete`, and whether a negative answer of a handler closes it. Neither holds of
all runs; each holds of the runs whose steps stay clear of the code that goes wrong.
-/
namespace Libhp.Ev
open Libhp.Io

section
variable {F L : Type}

/-- The connections in the event set. -/
def HpEpoll.args (epo : HpEpoll F L) : List Ptr :=
  epo.live.filterMap fun q => (epo.heap q).map fun d => d.arg

def HpPoll.args (po : HpPoll F L) : List Ptr :=
  (List.range po.nfds).filterMap fun i => (po.pd (i + 1)).map fun d => d.arg

end

theorem epoll_deleted_gone {s : EpollRun} (h : EpollInv s) {p : Ptr} (hp : Deleted p s.w.log) :
    p ∉ s.w.reg.args := by
  obtain ⟨m, h⟩ := h
  obtain ⟨max, hrep⟩ := h.rep.rep
  intro hmem
  obtain ⟨q, hq, hmap⟩ := List.mem_filterMap.mp hmem
  obtain ⟨e, he, hblock⟩ := hrep.of_live hq
  rw [hblock] at hmap
  cases hmap
  obtain ⟨io, -, -, hdel⟩ := h.entry e he
  exact hdel hp

theorem poll_deleted_gone {s : PollRun} (h : PollInv s) {p : Ptr} (hp : Deleted p s.w.log) :
    p ∉ s.w.reg.args := by
  obtain ⟨m, h⟩ := h
  obtain ⟨max, hrep⟩ := h.rep
  intro hmem
  obtain ⟨i, hi, hmap⟩ := List.mem_filterMap.mp hmem
  obtain ⟨d, hd, rfl⟩ := Option.map_eq_some_iff.mp hmap
  obtain ⟨e, he, rfl⟩ := hrep.of_pd (Nat.succ_pos i) (List.mem_range.mp hi) hd
  obtain ⟨io, -, -, hdel⟩ := h.entry e he
  exact hdel hp

section
variable {ok : EpollRun → EpollRun → Prop} {okp : PollRun → PollRun → Prop}

/-- A property of the log that every step keeps. -/
theorem epoll_run {env : RunEnv EpollAns} {maxfd : Int} {P : List IoEv → Prop} (hnil : P [])
    (hkeep : ∀ s s', ok s s' → StepOut epollLate s.w s'.w → P s.w.log → P s'.w.log)
    {s : EpollRun} (hrun : Run.Via (epollStep env) ok (epollStart maxfd) s) :
    EpollInv s ∧ P s.w.log := by
  refine hrun.invariant (I := fun s => EpollInv s ∧ P s.w.log) ⟨epollStart_inv maxfd, hnil⟩ ?_
  intro s s' h hstep hok
  obtain ⟨hinv, hout⟩ := epollStep_spec h.1 hstep
  exact ⟨hinv, hkeep s s' hok hout h.2⟩

theorem poll_run {env : RunEnv PollAns} {maxfd : Int} {P : List IoEv → Prop} (hnil : P [])
    (hkeep : ∀ s s', okp s s' → StepOut pollLate s.w s'.w → P s.w.log → P s'.w.log)
    {s : PollRun} (hrun : Run.Via (pollStep env) okp (pollStart maxfd) s) :
    PollInv s ∧ P s.w.log := by
  have hall : (PollInv s ∧ s.pc.fits) ∧ P s.w.log := by
    refine hrun.invariant (I := fun s => (PollInv s ∧ s.pc.fits) ∧ P s.w.log)
      ⟨⟨pollStart_inv maxfd, trivial⟩, hnil⟩ ?_
    intro s s' h hstep hok
    obtain ⟨hinv, hout⟩ := pollStep_spec h.1.1 h.1.2 hstep
    exact ⟨hinv, hkeep s s' hok hout h.2⟩
  exact ⟨hall.1.1, hall.2⟩

end

theorem late_whole : (∀ p seg, epollLate p seg → ReadEnded p seg ∨ WriteBroke p seg) ∧
    ∀ p seg, pollLate p seg → ReadEnded p seg ∨ WriteBroke p seg :=
  ⟨fun _ _ h => h, fun _ _ h => h.imp_left And.left⟩

/-- The outside of a program that registers one connection, with fd 5 and no `on_dispatch`,
and then runs the loop. -/
def oneConn {A : Type} (read : RdCall) (parse : Nat → ParseAns) (wait : A) : RunEnv A where
  read _ := read
  writev _ := ⟨0, 0⟩
  parse := parse
  dispatch _ := ⟨0, []⟩
  loop _ := ⟨0, []⟩
  delete _ := []
  accept _ := []
  ctl _ := ⟨0, 0⟩
  uninit _ := 0
  iovMax := 1024
  user t := if t = 0 then .acts [.add 5 ⟨false, true, false, false⟩] else .run 1
  wait _ := wait

def idleConn {A : Type} (wait : A) : RunEnv A :=
  oneConn ⟨[], .fail EAGAIN⟩ (fun _ => ⟨0, [], []⟩) wait

def peerCloses {A : Type} (wait : A) : RunEnv A :=
  oneConn ⟨[], .eof 0⟩ (fun _ => ⟨0, [], []⟩) wait

/-- The peer sends a byte that `on_parse` refuses. -/
def refusedByte {A : Type} (wait : A) : RunEnv A :=
  oneConn ⟨[[7]], .fail EAGAIN⟩ (fun _ => ⟨-1, [], []⟩) wait

/-- The peer sends a byte and closes; `on_parse` refuses only what is left at the end. -/
def refusedAtEnd {A : Type} (first : Nat) (wait : A) : RunEnv A :=
  oneConn ⟨[[7]], .eof 0⟩ (fun t => if t = first then ⟨0, [7], []⟩ else ⟨-1, [], []⟩) wait

/-- No use after `on_delete`, in every run in which no callback goes on with a connection after
`hp_io_t_on_error`: with epoll, when `read()` never ends the stream and no `writev` fails for
good; with poll, when no `writev` fails for good and the slot of a connection whose `read()`
ended the stream does not say `POLLOUT` afterwards. -/
theorem no_use_after_delete (maxfd : Int) :
    (∀ (env : RunEnv EpollAns) (s : EpollRun),
      Run.Via (epollStep env) (fun s s' => NotLate epollLate s.w s'.w) (epollStart maxfd) s →
        NoUse s.w.log) ∧
    ∀ (env : RunEnv PollAns) (s : PollRun),
      Run.Via (pollStep env) (fun s s' => NotLate pollLate s.w s'.w) (pollStart maxfd) s →
        NoUse s.w.log := by
  constructor
  · intro env s hrun
    exact (epoll_run NoUse.nil (fun s s' hok hout => hout.noUse hok) hrun).2
  · intro env s hrun
    exact (poll_run NoUse.nil (fun s s' hok hout => hout.noUse hok) hrun).2

/-- An error event for an idle connection. -/
theorem no_use_after_delete_error :
    (∃ s, Run.Via (epollStep (idleConn (.ready [⟨EPOLLERR, 1⟩])))
      (fun s s' => NotLate epollLate s.w s'.w) (epollStart 2) s ∧
      Deleted 1 s.w.log ∧ NoUse s.w.log) ∧
    ∃ s, Run.Via (pollStep (idleConn (.ready fun _ => EPOLLERR)))
      (fun s s' => NotLate pollLate s.w s'.w) (pollStart 2) s ∧
      Deleted 1 s.w.log ∧ NoUse s.w.log := by
  constructor
  · have hrun : ∃ s, Run.Via (epollStep (idleConn (.ready [⟨EPOLLERR, 1⟩])))
        (fun s s' => NotLate epollLate s.w s'.w) (epollStart 2) s ∧ Deleted 1 s.w.log :=
      Run.via_any (fun (s s' : EpollRun) => wholeTest s.w s'.w) 6
        (fun _ _ h => notLate_of_wholeTest late_whole.1 h) _ (by decide +kernel)
    obtain ⟨s, hrun, hdel⟩ := hrun
    exact ⟨s, hrun, hdel, (no_use_after_delete 2).1 _ s hrun⟩
  · have hrun : ∃ s, Run.Via (pollStep (idleConn (.ready fun _ => EPOLLERR)))
        (fun s s' => NotLate pollLate s.w s'.w) (pollStart 2) s ∧ Deleted 1 s.w.log :=
      Run.via_any (fun (s s' : PollRun) => wholeTest s.w s'.w) 4
        (fun _ _ h => notLate_of_wholeTest late_whole.2 h) _ (by decide +kernel)
    obtain ⟨s, hrun, hdel⟩ := hrun
    exact ⟨s, hrun, hdel, (no_use_after_delete 2).2 _ s hrun⟩

/-- The peer closes the connection. With epoll the end of the input is enough; with poll the
slot also says `POLLOUT`. -/
theorem used_after_delete :
    (∃ s, Run.Via (epollStep (peerCloses (.ready []))) (fun _ _ => True) (epollStart 2) s ∧
      ¬ NoUse s.w.log) ∧
    ∃ s, Run.Via (pollStep (peerCloses (.ready fun _ => EPOLLIN + EPOLLOUT))) (fun _ _ => True)
      (pollStart 2) s ∧ ¬ NoUse s.w.log := by
  have hused : ∀ {log}, log.getLast? = some (.access 1) → Deleted 1 log → ¬ NoUse log := by
    intro log hlast hdel hno
    obtain ⟨log, rfl⟩ : ∃ l, log = l ++ [.access 1] := List.getLast?_eq_some_iff.mp hlast
    obtain ⟨e, he, hdel⟩ : Deleted 1 log := by simpa [IoEv.deletes] using hdel
    have huse := (List.pairwise_append.mp hno).2.2 e he _ (List.mem_singleton.mpr rfl) 1 hdel
    simp [IoEv.uses] at huse
  constructor
  · have hrun : ∃ s, Run.Via (epollStep (peerCloses (.ready []))) (fun _ _ => True)
        (epollStart 2) s ∧ s.w.log.getLast? = some (.access 1) ∧ Deleted 1 s.w.log :=
      Run.via_any (fun _ _ => true) 3 (fun _ _ _ => trivial) _ (by decide +kernel)
    obtain ⟨s, hrun, hlast, hdel⟩ := hrun
    exact ⟨s, hrun, hused hlast hdel⟩
  · have hrun : ∃ s, Run.Via (pollStep (peerCloses (.ready fun _ => EPOLLIN + EPOLLOUT)))
        (fun _ _ => True) (pollStart 2) s ∧ s.w.log.getLast? = some (.access 1) ∧
        Deleted 1 s.w.log :=
      Run.via_any (fun _ _ => true) 4 (fun _ _ _ => trivial) _ (by decide +kernel)
    obtain ⟨s, hrun, hlast, hdel⟩ := hrun
    exact ⟨s, hrun, hused hlast hdel⟩

/-- A negative answer closes the connection, in every run in which such answers come only in
the data call after the end of the input or before a `writev` that fails for good; and a
connection that has been deleted is out of the event set. -/
theorem negative_answer_closes (maxfd : Int) :
    (∀ (env : RunEnv EpollAns) (s : EpollRun),
      Run.Via (epollStep env) (fun s s' => AllHeard s.w s'.w) (epollStart maxfd) s →
        Closes s.w.log ∧ ∀ p, Deleted p s.w.log → p ∉ s.w.reg.args) ∧
    ∀ (env : RunEnv PollAns) (s : PollRun),
      Run.Via (pollStep env) (fun s s' => AllHeard s.w s'.w) (pollStart maxfd) s →
        Closes s.w.log ∧ ∀ p, Deleted p s.w.log → p ∉ s.w.reg.args := by
  constructor
  · intro env s hrun
    obtain ⟨hinv, hcloses⟩ :=
      epoll_run Closes.nil (fun s s' hok hout => hout.closes hok) hrun
    exact ⟨hcloses, fun p hp => epoll_deleted_gone hinv hp⟩
  · intro env s hrun
    obtain ⟨hinv, hcloses⟩ := poll_run Closes.nil (fun s s' hok hout => hout.closes hok) hrun
    exact ⟨hcloses, fun p hp => poll_deleted_gone hinv hp⟩

/-- A negative answer of `on_parse` when the peer has already closed. -/
theorem negative_answer_closes_at_end :
    (∃ s, Run.Via (epollStep (refusedAtEnd 4 (.ready []))) (fun s s' => AllHeard s.w s'.w)
      (epollStart 2) s ∧ .answer 1 .parse (-1) ∈ s.w.log ∧ Closes s.w.log) ∧
    ∃ s, Run.Via (pollStep (refusedAtEnd 5 (.ready fun _ => EPOLLIN)))
      (fun s s' => AllHeard s.w s'.w) (pollStart 2) s ∧
      .answer 1 .parse (-1) ∈ s.w.log ∧ Closes s.w.log := by
  constructor
  · have hrun : ∃ s, Run.Via (epollStep (refusedAtEnd 4 (.ready [])))
        (fun s s' => AllHeard s.w s'.w) (epollStart 2) s ∧ .answer 1 .parse (-1) ∈ s.w.log :=
      Run.via_any (fun (s s' : EpollRun) => heardTest s.w s'.w) 3 (fun _ _ h => allHeard_of_heardTest h) _
        (by decide +kernel)
    obtain ⟨s, hrun, hans⟩ := hrun
    exact ⟨s, hrun, hans, ((negative_answer_closes 2).1 _ s hrun).1⟩
  · have hrun : ∃ s, Run.Via (pollStep (refusedAtEnd 5 (.ready fun _ => EPOLLIN)))
        (fun s s' => AllHeard s.w s'.w) (pollStart 2) s ∧ .answer 1 .parse (-1) ∈ s.w.log :=
      Run.via_any (fun (s s' : PollRun) => heardTest s.w s'.w) 4 (fun _ _ h => allHeard_of_heardTest h) _
        (by decide +kernel)
    obtain ⟨s, hrun, hans⟩ := hrun
    exact ⟨s, hrun, hans, ((negative_answer_closes 2).2 _ s hrun).1⟩

/-- `on_parse` refuses a byte; the loop makes another callback for the connection, which is
never deleted. -/
theorem negative_answer_dropped :
    (∃ s, Run.Via (epollStep (refusedByte (.ready [⟨EPOLLIN, 1⟩]))) (fun _ _ => True)
      (epollStart 2) s ∧ .call 1 ∈ s.w.log.dropWhile (· ≠ .answer 1 .parse (-1)) ∧
      ¬ Closes s.w.log) ∧
    ∃ s, Run.Via (pollStep (refusedByte (.ready fun _ => EPOLLIN))) (fun _ _ => True)
      (pollStart 2) s ∧ .call 1 ∈ s.w.log.dropWhile (· ≠ .answer 1 .parse (-1)) ∧
      ¬ Closes s.w.log := by
  have hopen : ∀ {log : List IoEv}, .answer 1 .parse (-1) ∈ log → ¬ Deleted 1 log →
      ¬ Closes log := by
    intro log hans hdel hcloses
    obtain ⟨pre, post, rfl⟩ := List.append_of_mem hans
    obtain ⟨mid, fd, err, errstr, rest, rfl, -⟩ :=
      hcloses pre 1 .parse (-1) post rfl (by decide)
    exact hdel (by simp [IoEv.deletes])
  constructor
  · have hrun : ∃ s, Run.Via (epollStep (refusedByte (.ready [⟨EPOLLIN, 1⟩]))) (fun _ _ => True)
        (epollStart 2) s ∧ .call 1 ∈ s.w.log.dropWhile (· ≠ .answer 1 .parse (-1)) ∧
        .answer 1 .parse (-1) ∈ s.w.log ∧ ¬ Deleted 1 s.w.log :=
      Run.via_any (fun _ _ => true) 6 (fun _ _ _ => trivial) _ (by decide +kernel)
    obtain ⟨s, hrun, hcall, hans, hdel⟩ := hrun
    exact ⟨s, hrun, hcall, hopen hans hdel⟩
  · have hrun : ∃ s, Run.Via (pollStep (refusedByte (.ready fun _ => EPOLLIN)))
        (fun _ _ => True) (pollStart 2) s ∧
        .call 1 ∈ s.w.log.dropWhile (· ≠ .answer 1 .parse (-1)) ∧
        .answer 1 .parse (-1) ∈ s.w.log ∧ ¬ Deleted 1 s.w.log :=
      Run.via_any (fun _ _ => true) 10 (fun _ _ _ => trivial) _ (by decide +kernel)
    obtain ⟨s, hrun, hcall, hans, hdel⟩ := hrun
    exact ⟨s, hrun, hcall, hopen hans hdel⟩

end Libhp.Ev
