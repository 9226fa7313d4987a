import Libhp.Ev.AddAtomic
import Libhp.Ev.Callback
import Libhp.Io.IoT

/-!
# Timers of the event loop

`hp_timerfd_init`, `hp_timerfd_init2` and `hp_timerfd_uninit` of `hp_timerfd.c` over the epoll
registry. A failing `hp_timerfd_init` keeps what it has done so far, and `hp_timerfd_init2` does
not say to `hp_timerfd_uninit` where it has registered the timer.
-/
namespace Libhp.Ev
open Libhp.Io (Ptr SysRes EPOLLET)

structure HpTimerfd (H : Type) where
  efds : Ptr
  fd : Int
  n : Nat
  handle : H
  arg : Ptr
  deriving DecidableEq

structure Timespec where
  tvSec : Int
  tvNsec : Nat
  deriving DecidableEq

structure Itimerspec where
  itInterval : Timespec
  itValue : Timespec
  deriving DecidableEq

/-- The answers of `timerfd_create`, `clock_gettime` and `timerfd_settime`. -/
structure TimerCalls where
  create : Int
  clock : Option Timespec
  settime : Int → Itimerspec → Int

/-- The registry that `efds` points to, the kernel behind it, and the open fds, the last one
first. -/
structure TimerSt (F L κ : Type) where
  epo : HpEpoll F L
  kernel : κ
  opened : List Int

/-- The value that the timer is set to; `none` if the clock cannot be read. -/
def newValue (clock : Option Timespec) (interval : Int) : Option Itimerspec :=
  if interval ≤ 0 then some ⟨⟨0, 0⟩, ⟨0, 0⟩⟩
  else clock.map fun now =>
    ⟨⟨interval / 1000, interval.toNat * 1000000 % 1000000000⟩, now⟩

section
variable {F L H κ : Type} (ctl : EpollCtl κ) (sys : TimerCalls)
  -- `hp_timerfd_handle_tfd`, and the `on_loop` that is none
  (handleTfd : F) (noLoop : L)

/-- `hp_timerfd_reset`, for the timer at `self`. -/
def hpTimerfdReset (self : Ptr) (timerfd : HpTimerfd H) (interval : Int) : Int :=
  if self = 0 then -1
  else
    match newValue sys.clock interval with
    | none => -1
    | some value => if sys.settime timerfd.fd value = -1 then -1 else 0

/-- What the timer at `self` is registered with. -/
def timerEntry (self : Ptr) : HpPolld F L := ⟨handleTfd, self, noLoop⟩

/-- `hp_epoll_add` with the timer at `self`. -/
def timerAdd (self : Ptr) (fd : Int) (hint : Ptr) (st : TimerSt F L κ) :
    Option (Int × TimerSt F L κ) :=
  (hpEpollAdd ctl st.epo fd (EPOLLIN + EPOLLET) (timerEntry handleTfd noLoop self) hint
    st.kernel).map fun (rc, epo, kernel) => (rc, { st with epo := epo, kernel := kernel })

/-- What both inits do when `hp_epoll_add` has returned `rc`. -/
def timerArm (self : Ptr) (timerfd : HpTimerfd H) (interval : Int) :
    Int × TimerSt F L κ → Int × HpTimerfd H × TimerSt F L κ
  | (rc, st) =>
    if rc ≠ 0 then (-3, timerfd, st)
    else if hpTimerfdReset sys self timerfd interval ≠ 0 then (-1, timerfd, st)
    else (0, timerfd, st)

/-- `hp_timerfd_init`; `none` is the failed assertion of `hp_epoll_add`. -/
def hpTimerfdInit (self : Ptr) (timerfd : HpTimerfd H) (efds : Ptr) (handle : H) (interval : Int)
    (arg : Ptr) (hint : Ptr) (st : TimerSt F L κ) :
    Option (Int × HpTimerfd H × TimerSt F L κ) :=
  if self = 0 ∨ efds = 0 then some (-1, timerfd, st)
  else
    let fd := sys.create
    if fd = -1 then some (-1, timerfd, st)
    else
      let st := { st with opened := fd :: st.opened }
      let timerfd := { efds := efds, fd := fd, n := 0, handle := handle, arg := arg }
      (timerAdd ctl handleTfd noLoop self fd hint st).map (timerArm sys self timerfd interval)

def hpTimerfdInit2 (self : Ptr) (timerfd : HpTimerfd H) (efds : Ptr) (fd : Int) (handle : H)
    (interval : Int) (arg : Ptr) (hint : Ptr) (st : TimerSt F L κ) :
    Option (Int × HpTimerfd H × TimerSt F L κ) :=
  if self = 0 then some (-1, timerfd, st)
  else
    -- `efds` stays 0 here
    let timerfd := { efds := 0, fd := fd, n := 0, handle := handle, arg := arg }
    (if efds ≠ 0 then timerAdd ctl handleTfd noLoop self fd hint st else some (0, st)).map
      (timerArm sys self timerfd interval)

/-- `hp_timerfd_uninit`; `none` if its assertion fails. -/
def hpTimerfdUninit (self : Ptr) (timerfd : HpTimerfd H) (st : TimerSt F L κ) :
    Option (TimerSt F L κ) :=
  if self = 0 then some st
  else if timerfd.efds ≠ 0 then
    let (rc, epo, kernel) := hpEpollRm ctl st.epo timerfd.fd st.kernel
    if rc = 0 then some ⟨epo, kernel, st.opened.erase timerfd.fd⟩ else none
  else some st

/-- The registered records, in order. -/
def HpEpoll.records (epo : HpEpoll F L) : List (HpEpolld F L) := epo.live.filterMap epo.heap

/-- An operation of other code, on other fds and with other args. -/
def RegOp.Apart (fd : Int) (self : Ptr) : RegOp F L → Prop
  | .add fd' _ cb _ => fd' ≠ fd ∧ cb.arg ≠ self
  | .rm fd' => fd' ≠ fd
  | _ => True

/-- In every later state of the registry the timer's fd has no entry but the timer's own, and
`hp_timerfd_uninit` removes that and nothing else. No entry is left with the timer as its arg if
none was there before the timer, which was initialized in `st`. -/
def Undoes (self : Ptr) (timerfd : HpTimerfd H) (st st₁ : TimerSt F L κ) : Prop :=
  ∀ ops : List (RegOp F L), (∀ op ∈ ops, op.Apart timerfd.fd self) →
    ∀ outs epo₂ kernel₂, epollRun ctl ops st₁.epo st₁.kernel = some (outs, epo₂, kernel₂) →
      (∀ d ∈ epo₂.records, d.fd = timerfd.fd →
        d = { timerEntry handleTfd noLoop self with fd := timerfd.fd }) ∧
      ∃ st₃, hpTimerfdUninit ctl self timerfd ⟨epo₂, kernel₂, st₁.opened⟩ = some st₃ ∧
        st₃.epo.records = epo₂.records.filter (fun d => d.fd ≠ timerfd.fd) ∧
        ((∀ d ∈ st.epo.records, d.arg ≠ self) → ∀ d ∈ st₃.epo.records, d.arg ≠ self)

/-- The call returns. If it fails, the registry and the open fds are as they were; if it succeeds
on an fd that was not registered, `hp_timerfd_uninit` undoes it. -/
def Balanced (self : Ptr) (st : TimerSt F L κ)
    (run : TimerSt F L κ → Option (Int × HpTimerfd H × TimerSt F L κ)) : Prop :=
  ∃ rc timerfd st₁, run st = some (rc, timerfd, st₁) ∧
    (rc ≠ 0 → st₁.epo.records = st.epo.records ∧ st₁.opened = st.opened) ∧
    (rc = 0 → (∀ d ∈ st.epo.records, d.fd ≠ timerfd.fd) →
      Undoes ctl handleTfd noLoop self timerfd st st₁)

/-- The timer can be set. -/
def Arms (fd : Int) (interval : Int) : Prop :=
  ∃ value, newValue sys.clock interval = some value ∧ sys.settime fd value ≠ -1

/-- What `epoll_ctl` answers to the registration of `fd`, if it comes to that. -/
def timerCtl (fd : Int) (hint : Ptr) (st : TimerSt F L κ) : Option SysRes :=
  addCtl ctl st.epo fd (EPOLLIN + EPOLLET) hint st.kernel

/-- When `hp_timerfd_init` is balanced: nothing is created, or nothing fails. -/
def InitFits (self efds : Ptr) (interval : Int) (hint : Ptr) (st : TimerSt F L κ) : Prop :=
  self = 0 ∨ efds = 0 ∨ sys.create = -1 ∨
    (∃ r, timerCtl ctl sys.create hint st = some r ∧ r.ret = 0) ∧ Arms sys sys.create interval

/-- When `hp_timerfd_init2` is balanced: nothing is registered, or `fd` was registered and either
nothing fails or the entry does not change. -/
def Init2Fits (self efds : Ptr) (fd interval : Int) (hint : Ptr) (st : TimerSt F L κ) : Prop :=
  self = 0 ∨ efds = 0 ∨ ∀ r, timerCtl ctl fd hint st = some r →
    if ∃ d ∈ st.epo.records, d.fd = fd then
      (r.ret = 0 ∧ Arms sys fd interval) ∨
        SameEntry st.epo fd (timerEntry handleTfd noLoop self : HpPolld F L)
    else r.ret ≠ 0 ∧ r.errno ≠ EEXIST

end

section
variable {F L κ : Type} {ctl : EpollCtl κ} {epo : HpEpoll F L} {max : Nat}
  {m : OrdMap Int (HpPolld F L)}

theorem HpEpoll.Represents.records_eq (h : epo.Represents max m) :
    epo.records = m.entries.map fun e => { e.2 with fd := e.1 } := by
  have hmap := congrArg (List.filterMap id) h.blocks
  rw [List.filterMap_map, List.filterMap_map] at hmap
  apply hmap.trans
  rw [← List.filterMap_eq_map]
  rfl

/-- A fact about all records is one about all entries. -/
theorem HpEpoll.Represents.forall_records (h : epo.Represents max m)
    {P : HpEpolld F L → Prop} :
    (∀ d ∈ epo.records, P d) ↔ ∀ e ∈ m.entries, P { e.2 with fd := e.1 } := by
  rw [h.records_eq]
  exact List.forall_mem_map

theorem HpEpoll.Represents.known_iff (h : epo.Represents max m) {fd : Int} :
    (∃ d ∈ epo.records, d.fd = fd) ↔ ∃ i, m.index fd = some i := by
  rw [h.records_eq]
  constructor
  · intro ⟨d, hd, hfd⟩
    obtain ⟨e, he, rfl⟩ := List.mem_map.mp hd
    obtain ⟨i, hi⟩ := List.mem_iff_getElem?.mp he
    exact ⟨i, hfd ▸ OrdMap.index_entry hi⟩
  · intro ⟨i, hi⟩
    obtain ⟨hlt, hkey⟩ := OrdMap.index_some hi
    exact ⟨_, List.mem_map_of_mem (List.getElem_mem hlt), hkey⟩

/-- What `hp_epoll_add` does, by the answer of `epoll_ctl`. -/
theorem hpEpollAdd_answer (ctl : EpollCtl κ) (h : epo.Represents max m) (fd : Int) (events : Nat)
    (cb : HpPolld F L) (hint : Ptr) (k : κ) :
    (addCtl ctl epo fd events hint k = none ∧
      ∃ rc, rc ≠ 0 ∧ hpEpollAdd ctl epo fd events cb hint k = some (rc, epo, k)) ∨
    (∃ r k' i, addCtl ctl epo fd events hint k = some r ∧ m.index fd = some i ∧
      hpEpollAdd ctl epo fd events cb hint k =
        some (if r.ret = 0 then 0 else -3, epo.store (epo.ed.getD i 0) fd cb, k')) ∨
    ∃ r k', addCtl ctl epo fd events hint k = some r ∧ m.index fd = none ∧ epo.evLen < max ∧
      hpEpollAdd ctl epo fd events cb hint k =
        if r.ret = 0 then
          some (0, (epo.store (mallocPtr epo.live hint) fd cb).push (mallocPtr epo.live hint), k')
        else if r.errno ≠ EEXIST then
          some (-2, epo.store (mallocPtr epo.live hint) fd cb, k')
        else none := by
  unfold addCtl hpEpollAdd
  rw [findByFd_eq h]
  by_cases hfd : fd < 0
  · simp only [if_pos hfd]
    exact Or.inl ⟨trivial, -1, by decide, rfl⟩
  simp only [if_neg hfd]
  cases hi : m.index fd with
  | some i => exact Or.inr (Or.inl ⟨_, _, i, rfl, rfl, rfl⟩)
  | none =>
    by_cases hfull : epo.evLen ≥ epo.maxEvLen
    · simp only [if_pos hfull]
      exact Or.inl ⟨trivial, -2, by decide, rfl⟩
    · simp only [if_neg hfull]
      rw [h.maxEvLen] at hfull
      exact Or.inr (Or.inr ⟨_, _, rfl, trivial, Nat.not_le.mp hfull, rfl⟩)

/-- Removing an fd leaves the records of the others. -/
theorem records_erase (h : epo.Represents max m) {fd : Int} {epo' : HpEpoll F L}
    (h' : epo'.Represents max (m.erase fd)) :
    epo'.records = epo.records.filter fun d => d.fd ≠ fd := by
  rw [h'.records_eq, h.records_eq, OrdMap.entries_erase, List.filter_map]
  rfl

/-- An operation on another fd leaves the entries of `fd`, and brings no entry with this arg. -/
theorem epollOp_apart {fd : Int} {self : Ptr} {op : RegOp F L} (happart : op.Apart fd self)
    (h : epo.Represents max m) {epo' : HpEpoll F L} {k k' : κ} {out : RegOut}
    (hop : epollOp ctl op epo k = some (out, epo', k')) :
    ∃ m', epo'.Represents max m' ∧ (∀ e, e.1 = fd → (e ∈ m'.entries ↔ e ∈ m.entries)) ∧
      ∀ e ∈ m'.entries, e.2.arg = self → e ∈ m.entries := by
  cases op with
  | add fd' events cb hint =>
    obtain ⟨hfd, harg⟩ := happart
    have hset : (∀ e, e.1 = fd → (e ∈ (m.set fd' cb).entries ↔ e ∈ m.entries)) ∧
        ∀ e ∈ (m.set fd' cb).entries, e.2.arg = self → e ∈ m.entries := by
      refine ⟨fun e he => OrdMap.mem_set_of_ne cb (he ▸ hfd.symm), fun e he hself => ?_⟩
      refine (OrdMap.mem_set he).resolve_right fun hcb => harg ?_
      rw [← hself, hcb]
    obtain ⟨⟨rc, epo₁, k₁⟩, hadd, heq⟩ := Option.map_eq_some_iff.mp hop
    cases heq
    rcases hpEpollAdd_cases h hadd with rfl | ⟨i, hi, rfl⟩ | rfl | ⟨hi, hroom, rfl⟩
    · exact ⟨m, h, fun _ _ => Iff.rfl, fun _ he _ => he⟩
    · exact ⟨_, hpEpollAdd_known h hi cb, hset⟩
    · exact ⟨m, store_fresh h (mallocPtr_fresh _ _) fd' cb, fun _ _ => Iff.rfl, fun _ he _ => he⟩
    · exact ⟨_, hpEpollAdd_new h hi hroom cb (mallocPtr_fresh _ _), hset⟩
  | rm fd' =>
    cases hop
    refine ⟨_, (hpEpollRm_spec ctl h fd' k).2, fun e he => ?_, fun e he _ => ?_⟩
    · rw [OrdMap.entries_erase, List.mem_filter]
      exact and_iff_left (decide_eq_true (he ▸ happart.symm))
    · exact (OrdMap.mem_erase he).1
  | find key onCmp =>
    cases hop
    exact ⟨m, h, fun _ _ => Iff.rfl, fun _ he _ => he⟩
  | size =>
    cases hop
    exact ⟨m, h, fun _ _ => Iff.rfl, fun _ he _ => he⟩

/-- So do any operations of other code. -/
theorem epollRun_apart {fd : Int} {self : Ptr} {ops : List (RegOp F L)}
    (hops : ∀ op ∈ ops, op.Apart fd self) (h : epo.Represents max m) {epo' : HpEpoll F L}
    {k k' : κ} {outs : List RegOut} (hrun : epollRun ctl ops epo k = some (outs, epo', k')) :
    ∃ m', epo'.Represents max m' ∧ (∀ e, e.1 = fd → (e ∈ m'.entries ↔ e ∈ m.entries)) ∧
      ∀ e ∈ m'.entries, e.2.arg = self → e ∈ m.entries := by
  induction ops generalizing epo m k outs with
  | nil =>
    cases hrun
    exact ⟨m, h, fun _ _ => Iff.rfl, fun _ he _ => he⟩
  | cons op ops ih =>
    obtain ⟨⟨out, epo₁, k₁⟩, hop, hrest⟩ := Option.bind_eq_some_iff.mp hrun
    obtain ⟨⟨outs', epo₂, k₂⟩, hrun', heq⟩ := Option.map_eq_some_iff.mp hrest
    cases heq
    obtain ⟨m₁, h₁, hfd₁, harg₁⟩ := epollOp_apart (hops op List.mem_cons_self) h hop
    obtain ⟨m', h', hfd', harg'⟩ :=
      ih (fun op hmem => hops op (List.mem_cons_of_mem _ hmem)) h₁ hrun'
    exact ⟨m', h', fun e he => (hfd' e he).trans (hfd₁ e he),
      fun e he hself => harg₁ e (harg' e he hself) hself⟩

end

section
variable {F L H κ : Type} {ctl : EpollCtl κ} {sys : TimerCalls} {handleTfd : F} {noLoop : L}
  {self : Ptr} {timerfd : HpTimerfd H} {st st₁ : TimerSt F L κ} {max : Nat}
  {m : OrdMap Int (HpPolld F L)}

/-- A timer that has its entry and knows its registry is undone. -/
theorem undoes_registered (hself : self ≠ 0) (hefds : timerfd.efds ≠ 0)
    (h : st.epo.Represents max m)
    (h₁ : st₁.epo.Represents max (m.set timerfd.fd (timerEntry handleTfd noLoop self))) :
    Undoes ctl handleTfd noLoop self timerfd st st₁ := by
  intro ops hops outs epo₂ kernel₂ hrun
  obtain ⟨m₂, h₂, hfd, harg⟩ := epollRun_apart hops h₁ hrun
  have hmine := OrdMap.mem_set_self m timerfd.fd (timerEntry handleTfd noLoop self)
  obtain ⟨hrc, hrm⟩ := hpEpollRm_spec ctl h₂ timerfd.fd kernel₂
  refine ⟨h₂.forall_records.mpr fun e he hkey => ?_, ?_⟩
  · have heq := OrdMap.entry_unique ((hfd e hkey).mp he) hmine hkey
    rw [heq]
  · have hknown : m₂.index timerfd.fd ≠ none := fun hnone =>
      OrdMap.index_none hnone (List.mem_map_of_mem ((hfd _ rfl).mpr hmine))
    rw [if_neg hknown] at hrc
    refine ⟨⟨(hpEpollRm ctl epo₂ timerfd.fd kernel₂).2.1,
      (hpEpollRm ctl epo₂ timerfd.fd kernel₂).2.2, st₁.opened.erase timerfd.fd⟩, ?_, records_erase h₂ hrm,
      fun hfree => hrm.forall_records.mpr fun e he hmine => ?_⟩
    · simp only [hpTimerfdUninit, if_neg hself, if_pos hefds, hrc, ↓reduceIte]
    · obtain ⟨he₂, hne⟩ := OrdMap.mem_erase he
      have hold := (OrdMap.mem_set_of_ne _ hne).mp (harg e he₂ hmine)
      exact h.forall_records.mp hfree e hold hmine

/-- Without a registry there is nothing to undo. -/
theorem undoes_apart (hefds : timerfd.efds = 0) (h : st.epo.Represents max m)
    (hfree : ∀ d ∈ st.epo.records, d.fd ≠ timerfd.fd) (hsame : st₁.epo = st.epo) :
    Undoes ctl handleTfd noLoop self timerfd st st₁ := by
  intro ops hops outs epo₂ kernel₂ hrun
  rw [hsame] at hrun
  obtain ⟨m₂, h₂, hfd, harg⟩ := epollRun_apart hops h hrun
  have hfree₂ : ∀ d ∈ epo₂.records, d.fd ≠ timerfd.fd :=
    h₂.forall_records.mpr fun e he hkey => h.forall_records.mp hfree e ((hfd e hkey).mp he) hkey
  refine ⟨fun d hd hkey => absurd hkey (hfree₂ d hd), ⟨epo₂, kernel₂, st₁.opened⟩, ?_, ?_, ?_⟩
  · unfold hpTimerfdUninit
    rw [if_neg (not_not_intro hefds), ite_self]
  · exact (List.filter_eq_self.mpr fun d hd => decide_eq_true (hfree₂ d hd)).symm
  · intro hnone
    refine h₂.forall_records.mpr fun e he hmine => ?_
    exact h.forall_records.mp hnone e (harg e he hmine) hmine

/-- A timer that does not know its registry leaves its entry there. -/
theorem not_undoes (hefds : timerfd.efds = 0) {d : HpEpolld F L} (hd : d ∈ st₁.epo.records)
    (hfd : d.fd = timerfd.fd) : ¬ Undoes ctl handleTfd noLoop self timerfd st st₁ := by
  intro h
  obtain ⟨-, st₃, huninit, hrecords, -⟩ := h [] (by simp) [] st₁.epo st₁.kernel rfl
  unfold hpTimerfdUninit at huninit
  rw [if_neg (not_not_intro hefds), ite_self] at huninit
  cases huninit
  rw [hrecords, List.mem_filter] at hd
  exact absurd hfd (of_decide_eq_true hd.2)

theorem hpTimerfdReset_iff (hself : self ≠ 0) (interval : Int) :
    hpTimerfdReset sys self timerfd interval = 0 ↔ Arms sys timerfd.fd interval := by
  unfold hpTimerfdReset Arms
  rw [if_neg hself]
  cases newValue sys.clock interval with
  | none => simp
  | some value =>
    by_cases hset : sys.settime timerfd.fd value = -1
    · simp [hset]
    · simp [hset]

/-- An init that returns is balanced by what it returns. -/
theorem balanced_of_run {run : TimerSt F L κ → Option (Int × HpTimerfd H × TimerSt F L κ)}
    {rc : Int} (hrun : run st = some (rc, timerfd, st₁)) :
    Balanced ctl handleTfd noLoop self st run ↔
      (rc ≠ 0 → st₁.epo.records = st.epo.records ∧ st₁.opened = st.opened) ∧
      (rc = 0 → (∀ d ∈ st.epo.records, d.fd ≠ timerfd.fd) →
        Undoes ctl handleTfd noLoop self timerfd st st₁) := by
  constructor
  · intro ⟨rc', timerfd', st', hrun', hfail, hok⟩
    rw [hrun] at hrun'
    cases hrun'
    exact ⟨hfail, hok⟩
  · intro ⟨hfail, hok⟩
    exact ⟨rc, timerfd, st₁, hrun, hfail, hok⟩

/-- An init that leaves everything as it is and fails. -/
theorem balanced_of_fail {run : TimerSt F L κ → Option (Int × HpTimerfd H × TimerSt F L κ)}
    {rc : Int} (hrc : rc ≠ 0) (hrun : run st = some (rc, timerfd, st)) :
    Balanced ctl handleTfd noLoop self st run :=
  (balanced_of_run hrun).mpr ⟨fun _ => ⟨rfl, rfl⟩, fun h => absurd h hrc⟩

/-- An init that does not return. -/
theorem not_balanced {run : TimerSt F L κ → Option (Int × HpTimerfd H × TimerSt F L κ)}
    (hrun : run st = none) : ¬ Balanced ctl handleTfd noLoop self st run := by
  intro ⟨rc, timerfd', st', hrun', _⟩
  rw [hrun] at hrun'
  cases hrun'

/-- What the registration of a timer does, by the answer of `epoll_ctl`: it fails and changes no
entry, or the entry of a known fd is changed, or a new one is added or not. -/
theorem timerAdd_answer (ctl : EpollCtl κ) (handleTfd : F) (noLoop : L) (self : Ptr)
    (h : st.epo.Represents max m) (fd : Int) (hint : Ptr) :
    (timerCtl ctl fd hint st = none ∧ ∃ rc, rc ≠ 0 ∧
      timerAdd ctl handleTfd noLoop self fd hint st = some (rc, st)) ∨
    ∃ r, timerCtl ctl fd hint st = some r ∧
      (((∃ i, m.index fd = some i) ∧ ∃ st₁, st₁.opened = st.opened ∧
        st₁.epo.Represents max (m.set fd (timerEntry handleTfd noLoop self)) ∧
        timerAdd ctl handleTfd noLoop self fd hint st =
          some (if r.ret = 0 then 0 else -3, st₁)) ∨
      m.index fd = none ∧
        if r.ret = 0 then ∃ st₁, st₁.opened = st.opened ∧
          st₁.epo.Represents max (m.set fd (timerEntry handleTfd noLoop self)) ∧
          timerAdd ctl handleTfd noLoop self fd hint st = some (0, st₁)
        else if r.errno ≠ EEXIST then ∃ st₁, st₁.opened = st.opened ∧
          st₁.epo.Represents max m ∧
          timerAdd ctl handleTfd noLoop self fd hint st = some (-2, st₁)
        else timerAdd ctl handleTfd noLoop self fd hint st = none) := by
  unfold timerAdd timerCtl
  rcases hpEpollAdd_answer ctl h fd (EPOLLIN + EPOLLET)
    (timerEntry handleTfd noLoop self) hint st.kernel with
    ⟨hctl, rc, hrc, hadd⟩ | ⟨r, kernel, i, hctl, hi, hadd⟩ | ⟨r, kernel, hctl, hi, hroom, hadd⟩
  · exact Or.inl ⟨hctl, rc, hrc, by rw [hadd]; rfl⟩
  · refine Or.inr ⟨r, hctl, Or.inl ⟨⟨i, hi⟩, ?_⟩⟩
    exact ⟨⟨_, kernel, st.opened⟩, rfl, hpEpollAdd_known h hi _, by rw [hadd]; rfl⟩
  · refine Or.inr ⟨r, hctl, Or.inr ⟨hi, ?_⟩⟩
    rw [hadd]
    split
    · exact ⟨⟨_, kernel, st.opened⟩, rfl,
        hpEpollAdd_new h hi hroom _ (mallocPtr_fresh _ _), rfl⟩
    · split
      · exact ⟨⟨_, kernel, st.opened⟩, rfl, store_fresh h (mallocPtr_fresh _ _) fd _, rfl⟩
      · rfl

theorem timerArm_refused {rc : Int} (hrc : rc ≠ 0) (interval : Int) :
    timerArm sys self timerfd interval (rc, st) = (-3, timerfd, st) := if_pos hrc

theorem timerArm_armed (hself : self ≠ 0) {interval : Int}
    (harms : Arms sys timerfd.fd interval) :
    timerArm sys self timerfd interval (0, st) = (0, timerfd, st) := by
  have hreset := (hpTimerfdReset_iff hself interval).mpr harms
  simp only [timerArm, hreset, ne_eq, not_true_eq_false, ↓reduceIte]

theorem timerArm_unarmed (hself : self ≠ 0) {interval : Int}
    (harms : ¬ Arms sys timerfd.fd interval) :
    timerArm sys self timerfd interval (0, st) = (-1, timerfd, st) := by
  have hreset := mt (hpTimerfdReset_iff hself interval).mp harms
  simp only [timerArm, hreset, ne_eq, not_true_eq_false, not_false_eq_true, ↓reduceIte]

/-- The registration goes through exactly if `epoll_ctl` says so. -/
theorem timerAdd_outcome (ctl : EpollCtl κ) (handleTfd : F) (noLoop : L) (self : Ptr)
    (h : st.epo.Represents max m) (fd : Int) (hint : Ptr) :
    ((∃ r, timerCtl ctl fd hint st = some r ∧ r.ret = 0) ∧ ∃ st₁, st₁.opened = st.opened ∧
      st₁.epo.Represents max (m.set fd (timerEntry handleTfd noLoop self)) ∧
      timerAdd ctl handleTfd noLoop self fd hint st = some (0, st₁)) ∨
    (¬ ∃ r, timerCtl ctl fd hint st = some r ∧ r.ret = 0) ∧
      (timerAdd ctl handleTfd noLoop self fd hint st = none ∨ ∃ rc st₁, rc ≠ 0 ∧
        st₁.opened = st.opened ∧
        timerAdd ctl handleTfd noLoop self fd hint st = some (rc, st₁)) := by
  rcases timerAdd_answer ctl handleTfd noLoop self h fd hint with
    ⟨hctl, rc, hrc, hadd⟩ | ⟨r, hctl, hadd⟩
  · refine Or.inr ⟨?_, Or.inr ⟨rc, st, hrc, rfl, hadd⟩⟩
    intro ⟨r, hr, _⟩
    rw [hctl] at hr
    cases hr
  by_cases hret : r.ret = 0
  · refine Or.inl ⟨⟨r, hctl, hret⟩, ?_⟩
    simp only [hret, ↓reduceIte] at hadd
    rcases hadd with ⟨-, hadd⟩ | ⟨-, hadd⟩
    · exact hadd
    · exact hadd
  · refine Or.inr ⟨?_, ?_⟩
    · intro ⟨r', hr', hret'⟩
      rw [hctl] at hr'
      cases hr'
      exact hret hret'
    · simp only [hret, ↓reduceIte] at hadd
      rcases hadd with ⟨-, st₁, hopened, -, hadd⟩ | ⟨-, hadd⟩
      · exact Or.inr ⟨-3, st₁, by decide, hopened, hadd⟩
      · split at hadd
        · obtain ⟨st₁, hopened, -, hadd⟩ := hadd
          exact Or.inr ⟨-2, st₁, by decide, hopened, hadd⟩
        · exact Or.inl hadd

/-- `hp_timerfd_init` is balanced exactly if nothing is created or nothing fails. -/
theorem hpTimerfdInit_balanced (h : st.epo.Represents max m) (old : HpTimerfd H) (efds : Ptr)
    (handle : H) (interval : Int) (arg hint : Ptr) :
    Balanced ctl handleTfd noLoop self st
      (hpTimerfdInit ctl sys handleTfd noLoop self old efds handle interval arg hint) ↔
      InitFits ctl sys self efds interval hint st := by
  by_cases hguard : self = 0 ∨ efds = 0
  · have hrun : hpTimerfdInit ctl sys handleTfd noLoop self old efds handle interval arg hint st =
        some (-1, old, st) := by rw [hpTimerfdInit, if_pos hguard]
    exact iff_of_true (balanced_of_fail (by decide) hrun) (hguard.imp id Or.inl)
  by_cases hcreate : sys.create = -1
  · have hrun : hpTimerfdInit ctl sys handleTfd noLoop self old efds handle interval arg hint st =
        some (-1, old, st) := by rw [hpTimerfdInit, if_neg hguard, if_pos hcreate]
    exact iff_of_true (balanced_of_fail (by decide) hrun) (Or.inr (Or.inr (Or.inl hcreate)))
  obtain ⟨hself, hefds⟩ := not_or.mp hguard
  have hfits : InitFits ctl sys self efds interval hint st ↔
      (∃ r, timerCtl ctl sys.create hint st = some r ∧ r.ret = 0) ∧
        Arms sys sys.create interval := by
    simp only [InitFits, hself, hefds, hcreate, false_or]
  let created : TimerSt F L κ := { st with opened := sys.create :: st.opened }
  let timerfd : HpTimerfd H := ⟨efds, sys.create, 0, handle, arg⟩
  have hrun : hpTimerfdInit ctl sys handleTfd noLoop self old efds handle interval arg hint st =
      (timerAdd ctl handleTfd noLoop self sys.create hint created).map
        (timerArm sys self timerfd interval) := by
    rw [hpTimerfdInit, if_neg hguard, if_neg hcreate]
  -- a failure from here on leaves the fd open
  have hleak : ∀ {rc st₁}, rc ≠ 0 → st₁.opened = created.opened →
      hpTimerfdInit ctl sys handleTfd noLoop self old efds handle interval arg hint st =
        some (rc, timerfd, st₁) →
      ¬ Balanced ctl handleTfd noLoop self st
        (hpTimerfdInit ctl sys handleTfd noLoop self old efds handle interval arg hint) := by
    intro rc st₁ hrc hopened hrun' hbal
    obtain ⟨hfail, -⟩ := (balanced_of_run hrun').mp hbal
    exact List.cons_ne_self _ _ (hopened.symm.trans (hfail hrc).2)
  have hcreated : created.epo.Represents max m := h
  rw [hfits]
  rcases timerAdd_outcome ctl handleTfd noLoop self hcreated sys.create hint with
    ⟨hctl, st₁, hopened, h₁, hadd⟩ | ⟨hctl, hadd | ⟨rc, st₁, hrc, hopened, hadd⟩⟩
  · rw [hadd, Option.map_some] at hrun
    by_cases harms : Arms sys sys.create interval
    · rw [timerArm_armed hself harms] at hrun
      refine iff_of_true ((balanced_of_run hrun).mpr ⟨fun hne => absurd rfl hne, ?_⟩) ⟨hctl, harms⟩
      exact fun _ _ => undoes_registered hself hefds h h₁
    · rw [timerArm_unarmed hself harms] at hrun
      exact iff_of_false (hleak (by decide) hopened hrun) fun hfit => harms hfit.2
  · rw [hadd, Option.map_none] at hrun
    exact iff_of_false (not_balanced hrun) fun hfit => hctl hfit.1
  · rw [hadd, Option.map_some, timerArm_refused hrc] at hrun
    exact iff_of_false (hleak (by decide) hopened hrun) fun hfit => hctl hfit.1

/-- The timer's entry is there already exactly if setting it changes no record. -/
theorem sameEntry_iff (h : st.epo.Represents max m) (fd : Int) (cb : HpPolld F L) :
    SameEntry st.epo fd cb ↔ (fd, cb) ∈ m.entries := by
  unfold SameEntry
  rw [findByFd_eq h]
  constructor
  · intro ⟨i, hi, hheap⟩
    obtain ⟨hlt, hkey⟩ := OrdMap.index_some hi
    rw [(h.heap_at hlt).1] at hheap
    have hval := congrArg HpEpolld.toHpPolld (Option.some.inj hheap)
    have heq : m.entries[i] = (fd, cb) := Prod.ext hkey hval
    rw [← heq]
    exact List.getElem_mem hlt
  · intro hmem
    obtain ⟨i, hi⟩ := List.mem_iff_getElem?.mp hmem
    obtain ⟨hlt, heq⟩ := List.getElem?_eq_some_iff.mp hi
    refine ⟨i, OrdMap.index_entry hi, ?_⟩
    rw [(h.heap_at hlt).1, heq]

theorem records_set_iff (h : st.epo.Represents max m) {fd : Int} {cb : HpPolld F L}
    (h₁ : st₁.epo.Represents max (m.set fd cb)) :
    st₁.epo.records = st.epo.records ↔ SameEntry st.epo fd cb := by
  rw [sameEntry_iff h]
  constructor
  · intro hsame
    have hmem : ({ cb with fd := fd } : HpEpolld F L) ∈ st₁.epo.records := by
      rw [h₁.records_eq]
      exact List.mem_map_of_mem (OrdMap.mem_set_self m fd cb)
    rw [hsame, h.records_eq] at hmem
    obtain ⟨e, he, heq⟩ := List.mem_map.mp hmem
    have hkey : e = (fd, cb) :=
      Prod.ext (congrArg HpEpolld.fd heq) (congrArg HpEpolld.toHpPolld heq)
    rwa [← hkey]
  · intro hmem
    rw [OrdMap.set_self hmem] at h₁
    rw [h₁.records_eq, h.records_eq]

/-- An init that has set an entry and then fails is balanced exactly if the entry was there. -/
theorem balanced_set_iff {run : TimerSt F L κ → Option (Int × HpTimerfd H × TimerSt F L κ)}
    (h : st.epo.Represents max m) {fd : Int} {cb : HpPolld F L} (hopened : st₁.opened = st.opened)
    (h₁ : st₁.epo.Represents max (m.set fd cb)) {rc : Int} (hrc : rc ≠ 0)
    (hrun : run st = some (rc, timerfd, st₁)) :
    Balanced ctl handleTfd noLoop self st run ↔ SameEntry st.epo fd cb := by
  rw [balanced_of_run hrun, ← records_set_iff h h₁]
  exact ⟨fun hbal => (hbal.1 hrc).1, fun hrecords =>
    ⟨fun _ => ⟨hrecords, hopened⟩, fun hok => absurd hok hrc⟩⟩

/-- `hp_timerfd_init2` with a registered fd. -/
theorem init2_known {run : TimerSt F L κ → Option (Int × HpTimerfd H × TimerSt F L κ)}
    (hself : self ≠ 0) (h : st.epo.Represents max m)
    (hregistered : ∃ d ∈ st.epo.records, d.fd = timerfd.fd) (hopened : st₁.opened = st.opened)
    (h₁ : st₁.epo.Represents max (m.set timerfd.fd (timerEntry handleTfd noLoop self)))
    (interval : Int) (r : SysRes)
    (hrun : run st = some (timerArm sys self timerfd interval
      (if r.ret = 0 then 0 else -3, st₁))) :
    Balanced ctl handleTfd noLoop self st run ↔ (r.ret = 0 ∧ Arms sys timerfd.fd interval) ∨
      SameEntry st.epo timerfd.fd (timerEntry handleTfd noLoop self) := by
  by_cases hret : r.ret = 0
  · rw [if_pos hret] at hrun
    by_cases harms : Arms sys timerfd.fd interval
    · rw [timerArm_armed hself harms] at hrun
      refine iff_of_true ((balanced_of_run hrun).mpr ⟨fun hne => absurd rfl hne, ?_⟩)
        (Or.inl ⟨hret, harms⟩)
      intro _ hfree
      obtain ⟨d, hd, hfd⟩ := hregistered
      exact absurd hfd (hfree d hd)
    · rw [timerArm_unarmed hself harms] at hrun
      rw [balanced_set_iff h hopened h₁ (by decide) hrun, or_iff_right fun hfit => harms hfit.2]
  · rw [if_neg hret, timerArm_refused (by decide)] at hrun
    rw [balanced_set_iff h hopened h₁ (by decide) hrun, or_iff_right fun hfit => hret hfit.1]

/-- `hp_timerfd_init2` with a new fd that is registered: the entry stays, whether the timer can be
set or not. -/
theorem init2_added {run : TimerSt F L κ → Option (Int × HpTimerfd H × TimerSt F L κ)}
    (hself : self ≠ 0) (hefds : timerfd.efds = 0)
    (hfree : ∀ d ∈ st.epo.records, d.fd ≠ timerfd.fd)
    (h₁ : st₁.epo.Represents max (m.set timerfd.fd (timerEntry handleTfd noLoop self)))
    (interval : Int) (hrun : run st = some (timerArm sys self timerfd interval (0, st₁))) :
    ¬ Balanced ctl handleTfd noLoop self st run := by
  intro hbal
  have hmine : ({ timerEntry handleTfd noLoop self with fd := timerfd.fd } : HpEpolld F L) ∈
      st₁.epo.records := by
    rw [h₁.records_eq]
    exact List.mem_map_of_mem (OrdMap.mem_set_self m timerfd.fd _)
  by_cases harms : Arms sys timerfd.fd interval
  · rw [timerArm_armed hself harms] at hrun
    obtain ⟨-, hok⟩ := (balanced_of_run hrun).mp hbal
    exact not_undoes hefds hmine rfl (hok rfl hfree)
  · rw [timerArm_unarmed hself harms] at hrun
    obtain ⟨hfail, -⟩ := (balanced_of_run hrun).mp hbal
    obtain ⟨hrecords, -⟩ := hfail (by decide)
    rw [hrecords] at hmine
    exact hfree _ hmine rfl

/-- `hp_timerfd_init2` is balanced exactly if nothing is registered, or the fd was registered and
nothing fails or changes. -/
theorem hpTimerfdInit2_balanced (h : st.epo.Represents max m) (old : HpTimerfd H) (efds : Ptr)
    (fd : Int) (handle : H) (interval : Int) (arg hint : Ptr) :
    Balanced ctl handleTfd noLoop self st
      (hpTimerfdInit2 ctl sys handleTfd noLoop self old efds fd handle interval arg hint) ↔
      Init2Fits ctl sys handleTfd noLoop self efds fd interval hint st := by
  by_cases hself : self = 0
  · have hrun : hpTimerfdInit2 ctl sys handleTfd noLoop self old efds fd handle interval arg hint
        st = some (-1, old, st) := by rw [hpTimerfdInit2, if_pos hself]
    exact iff_of_true (balanced_of_fail (by decide) hrun) (Or.inl hself)
  let timerfd : HpTimerfd H := ⟨0, fd, 0, handle, arg⟩
  by_cases hefds : efds = 0
  · have hrun : hpTimerfdInit2 ctl sys handleTfd noLoop self old efds fd handle interval arg hint
        st = some (timerArm sys self timerfd interval (0, st)) := by
      rw [hpTimerfdInit2, if_neg hself, if_neg (not_not_intro hefds)]
      rfl
    refine iff_of_true ?_ (Or.inr (Or.inl hefds))
    by_cases harms : Arms sys fd interval
    · rw [timerArm_armed hself harms] at hrun
      refine (balanced_of_run hrun).mpr ⟨fun hne => absurd rfl hne, fun _ hfree => ?_⟩
      exact undoes_apart rfl h hfree rfl
    · rw [timerArm_unarmed hself harms] at hrun
      exact balanced_of_fail (by decide) hrun
  have hrun : hpTimerfdInit2 ctl sys handleTfd noLoop self old efds fd handle interval arg hint
      st = (timerAdd ctl handleTfd noLoop self fd hint st).map
        (timerArm sys self timerfd interval) := by
    rw [hpTimerfdInit2, if_neg hself, if_pos hefds]
  simp only [Init2Fits, hself, hefds, false_or]
  rcases timerAdd_answer ctl handleTfd noLoop self h fd hint with
    ⟨hctl, rc, hrc, hadd⟩ | ⟨r, hctl, ⟨hknown, st₁, hopened, h₁, hadd⟩ | ⟨hnew, hadd⟩⟩
  · rw [hadd, Option.map_some, timerArm_refused hrc] at hrun
    apply iff_of_true (balanced_of_fail (by decide) hrun)
    intro r hr
    rw [hctl] at hr
    cases hr
  · have hregistered := h.known_iff.mpr hknown
    simp only [hctl, Option.some.injEq, forall_eq', if_pos hregistered]
    rw [hadd, Option.map_some] at hrun
    exact init2_known hself h hregistered hopened h₁ interval r hrun
  · have hfree : ¬ ∃ d ∈ st.epo.records, d.fd = fd := by
      rw [h.known_iff]
      intro ⟨i, hi⟩
      rw [hnew] at hi
      cases hi
    simp only [hctl, Option.some.injEq, forall_eq', if_neg hfree]
    by_cases hret : r.ret = 0
    · rw [if_pos hret] at hadd
      obtain ⟨st₁, -, h₁, hadd⟩ := hadd
      rw [hadd, Option.map_some] at hrun
      have hothers : ∀ d ∈ st.epo.records, d.fd ≠ timerfd.fd := fun d hd hfd => hfree ⟨d, hd, hfd⟩
      exact iff_of_false (init2_added hself rfl hothers h₁ interval hrun) fun hfit => hfit.1 hret
    rw [if_neg hret] at hadd
    by_cases herrno : r.errno ≠ EEXIST
    · rw [if_pos herrno] at hadd
      obtain ⟨st₁, hopened, h₁, hadd⟩ := hadd
      rw [hadd, Option.map_some, timerArm_refused (by decide)] at hrun
      have hrecords : st₁.epo.records = st.epo.records := by rw [h₁.records_eq, h.records_eq]
      refine iff_of_true ((balanced_of_run hrun).mpr ⟨fun _ => ⟨hrecords, hopened⟩, ?_⟩)
        ⟨hret, herrno⟩
      exact fun hok => by cases hok
    · rw [if_neg herrno] at hadd
      rw [hadd, Option.map_none] at hrun
      exact iff_of_false (not_balanced hrun) fun hfit => herrno hfit.2

/-- Either init is balanced exactly if its steps fit. -/
theorem timerfd_balanced_iff (ctl : EpollCtl κ) (sys : TimerCalls) (handleTfd : F) (noLoop : L)
    (self : Ptr) (st : TimerSt F L κ) (h : st.epo.Represents max m) (old : HpTimerfd H)
    (efds : Ptr) (fd : Int) (handle : H) (interval : Int) (arg hint : Ptr) :
    (Balanced ctl handleTfd noLoop self st
      (hpTimerfdInit ctl sys handleTfd noLoop self old efds handle interval arg hint) ↔
      InitFits ctl sys self efds interval hint st) ∧
    (Balanced ctl handleTfd noLoop self st
      (hpTimerfdInit2 ctl sys handleTfd noLoop self old efds fd handle interval arg hint) ↔
      Init2Fits ctl sys handleTfd noLoop self efds fd interval hint st) :=
  ⟨hpTimerfdInit_balanced h old efds handle interval arg hint,
    hpTimerfdInit2_balanced h old efds fd handle interval arg hint⟩

end

/-- `timerfd_create` gives 7, and `timerfd_settime` answers `set`. -/
def timerCalls (set : Int) : TimerCalls := ⟨7, some ⟨0, 0⟩, fun _ _ => set⟩

/-- Memory that is not a timer yet. -/
def noTimer : HpTimerfd Unit := ⟨0, 0, 0, (), 0⟩

def noneRegistered : TimerSt Nat Nat Unit := ⟨hpEpollInit 2, (), []⟩

/-- With nothing registered `hp_timerfd_init` is balanced, and `hp_timerfd_init2` is not. -/
theorem timerfd_balanced_empty :
    Balanced accepts 1 0 3 noneRegistered
      (hpTimerfdInit accepts (timerCalls 0) 1 0 3 noTimer 4 () 1000 0 0) ∧
    ¬ Balanced accepts 1 0 3 noneRegistered
      (hpTimerfdInit2 accepts (timerCalls 0) 1 0 3 noTimer 4 5 () 1000 0 0) := by
  obtain ⟨hinit, hinit2⟩ := timerfd_balanced_iff accepts (timerCalls 0) 1 0 3 noneRegistered
    (hpEpollInit_represents (by decide)) noTimer 4 5 () 1000 0 0
  refine ⟨hinit.mpr (.inr (.inr (.inr ⟨⟨_, rfl, rfl⟩, _, rfl, by decide⟩))), fun hbal => ?_⟩
  rcases hinit2.mp hbal with h | h | h
  · cases h
  · cases h
  · have hnew := h ⟨0, 0⟩ rfl
    rw [if_neg (by decide)] at hnew
    exact hnew.1 rfl

/-- When the timer cannot be set, `hp_timerfd_init` fails and leaves the entry and the open fd.
After a successful `hp_timerfd_init2` the entry is still there behind `hp_timerfd_uninit`. -/
theorem timer_stays :
    ¬ (∀ (sys : TimerCalls) (st : TimerSt Nat Nat Unit),
        (∃ m, st.epo.Represents 2 m) →
        Balanced accepts 1 0 3 st (hpTimerfdInit accepts sys 1 0 3 noTimer 4 () 1000 0 0)) ∧
    ¬ (∀ (sys : TimerCalls) (st : TimerSt Nat Nat Unit),
        (∃ m, st.epo.Represents 2 m) →
        Balanced accepts 1 0 3 st (hpTimerfdInit2 accepts sys 1 0 3 noTimer 4 5 () 1000 0 0)) ∧
    (hpTimerfdInit accepts (timerCalls (-1)) 1 0 3 noTimer 4 () 1000 0 0 noneRegistered).map
      (fun x => (x.1, x.2.2.epo.records, x.2.2.opened)) = some (-1, [⟨⟨1, 3, 0⟩, 7⟩], [7]) ∧
    (hpTimerfdInit2 accepts (timerCalls 0) 1 0 3 noTimer 4 5 () 1000 0 0 noneRegistered).bind
      (fun x => (hpTimerfdUninit accepts 3 x.2.1 x.2.2).map fun st => (x.1, st.epo.records)) =
        some (0, [⟨⟨1, 3, 0⟩, 5⟩]) := by
  have hrep : noneRegistered.epo.Represents 2 OrdMap.empty := hpEpollInit_represents (by decide)
  refine ⟨fun hall => ?_, fun hall => ?_, by decide, by decide⟩
  · have hbal := hall (timerCalls (-1)) noneRegistered ⟨_, hrep⟩
    rcases (hpTimerfdInit_balanced hrep noTimer 4 () 1000 0 0).mp hbal with
      h | h | h | ⟨-, value, -, hset⟩
    · cases h
    · cases h
    · cases h
    · exact hset rfl
  · have hbal := hall (timerCalls 0) noneRegistered ⟨_, hrep⟩
    rcases (hpTimerfdInit2_balanced hrep noTimer 4 5 () 1000 0 0).mp hbal with h | h | h
    · cases h
    · cases h
    · have hnew := h ⟨0, 0⟩ rfl
      rw [if_neg (by decide)] at hnew
      exact hnew.1 rfl

end Libhp.Ev
