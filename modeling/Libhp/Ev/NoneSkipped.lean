import Libhp.Ev.PollSlots
import Libhp.Lib.Marks

/-!
# No ready connection is passed over

A dispatch phase of `hp_poll_run` calls back one ready connection after the other.
`hp_io_t_internal_io_cb` ends by clearing `revents` in the slot it was called for. When a
connection was removed meanwhile, another one may have moved there, and loses its event; the
one called back may have moved, too, and is called again. That it moves down ends the phase.
-/
namespace Libhp.Ev
open Libhp.Io

deriving instance DecidableEq for PollPc

section
variable {F L : Type}

/-- The connection that is ready in a slot, if it is not `p`. -/
def HpPoll.other (po : HpPoll F L) (index : Nat) (p : Ptr) : Option Ptr :=
  if index ≤ po.nfds ∧ po.revents index ≠ 0 then
    ((po.pd index).map fun d => d.arg).filter fun q => q ≠ p
  else none

end

section
variable (env : RunEnv PollAns)

/-- The other connection that is ready in the slot when `io_cb` clears its `revents`. -/
def robbed (index : Nat) (d : HpPolld IoFn Bool) (w : IoWorld (HpPoll IoFn Bool)) : Option Ptr :=
  match d.fn with
  | .onAccept => none
  | .ioCb =>
    (ioCbPoll pollOps env.toIoEnv d.arg (fun po => po.revents index) (w.note (.call d.arg))).bind
      fun w => w.reg.other index d.arg

/-- The callbacks of one dispatch phase: the connection each is for, and the one it robs. -/
def dispatchPhase : Nat → PollRun → Option (List (Ptr × Option Ptr) × PollRun)
  | 0, _ => none
  | fuel + 1, s =>
    match s.pc with
    | .dispatch nfds =>
      match getNextToRun s.w.reg (min nfds s.w.reg.nfds) with
      | some index =>
        (s.w.reg.pd index).bind fun d => (pollStep env s).bind fun s' =>
          (dispatchPhase fuel s').map fun (calls, t) => ((d.arg, robbed env index d s.w) :: calls, t)
      | none => some ([], s)
    | _ => none

/-- The next callback of the phase: the connection it is for, the one it robs, and what it
leaves behind. -/
def nextCall (nfds : Nat) (w : IoWorld (HpPoll IoFn Bool)) :
    Option (Ptr × Option Ptr × IoWorld (HpPoll IoFn Bool)) :=
  (getNextToRun w.reg (min nfds w.reg.nfds)).bind fun index =>
    (w.reg.pd index).bind fun d =>
      (pollCall env index d w).map fun w' => (d.arg, robbed env index d w, w')

abbrev PollCall := Marks.Call (S := IoWorld (HpPoll IoFn Bool)) (fun w => w.reg.readyArgs)
  (fun w q => q ∈ w.reg.args) (fun w q => q < w.next) fun w q => w.reg.slot q

abbrev PollRound (nfds : Nat) := Marks.Round (S := IoWorld (HpPoll IoFn Bool))
  (fun w => w.reg.readyArgs) (fun w q => q ∈ w.reg.args) (fun w q => q < w.next)
  (fun w q => w.reg.slot q) (nextCall env nfds)

/-- No callback clears the event of another connection, unless that one has been called already
or is removed later in the phase. -/
abbrev NoneRobbed (nfds : Nat) := Marks.Spared (S := IoWorld (HpPoll IoFn Bool))
  (fun w => w.reg.readyArgs) (fun w q => q ∈ w.reg.args) (nextCall env nfds) []

def PollPc.dispatching : PollPc → Prop
  | dispatch _ => True
  | _ => False

/-- The callbacks of the phase return. -/
def CallbacksReturn (s : PollRun) : Prop :=
  ∀ t, Run.Via (pollStep env) (fun t _ => t.pc.dispatching) s t → t.pc.dispatching →
    (pollStep env t).isSome

end

/-- `hp_poll_run` looks at the first `n` slots only. -/
def ReadyBelow (n : Nat) (po : HpPoll IoFn Bool) : Prop :=
  ∀ i pfd d, po.At i pfd d → pfd.revents ≠ 0 → i < n

section
variable {m m' : OrdMap Int (HpPolld IoFn Bool)} {w w' : IoWorld (HpPoll IoFn Bool)} {p q : Ptr}
  {n k : Nat} {pfd : Pollfd} {d : HpPolld IoFn Bool}

theorem mem_ready (h : WInv pollLaws w m) :
    q ∈ w.reg.readyArgs ↔ ∃ i pfd d, w.reg.At i pfd d ∧ d.arg = q ∧ pfd.revents ≠ 0 := by
  obtain ⟨max, hrep⟩ := h.rep
  exact mem_readyArgs hrep

theorem mem_here (h : WInv pollLaws w m) :
    q ∈ w.reg.args ↔ ∃ i pfd d, w.reg.At i pfd d ∧ d.arg = q := by
  obtain ⟨max, hrep⟩ := h.rep
  exact mem_args hrep

theorem other_some (h : WInv pollLaws w m) :
    w.reg.other (k + 1) p = some q ↔
      q ≠ p ∧ ∃ pfd d, w.reg.At k pfd d ∧ d.arg = q ∧ pfd.revents ≠ 0 := by
  obtain ⟨max, hrep⟩ := h.rep
  rw [HpPoll.other]
  constructor
  · intro hother
    split at hother
    · next hslot =>
      obtain ⟨pfd, d, hat⟩ := exists_at hrep (i := k) (Nat.lt_of_succ_le hslot.1)
      rw [hat.pd, Option.map_some, Option.filter_eq_some_iff] at hother
      obtain ⟨harg, hne⟩ := hother
      have hready := hslot.2
      rw [HpPoll.revents, hat.fds] at hready
      exact ⟨of_decide_eq_true hne, pfd, d, hat, Option.some.inj harg, hready⟩
    · cases hother
  · rintro ⟨hne, pfd, d, hat, rfl, hready⟩
    have hrev : w.reg.revents (k + 1) ≠ 0 := by
      rw [HpPoll.revents, hat.fds]
      exact hready
    rw [if_pos ⟨hat.lt, hrev⟩, hat.pd, Option.map_some, Option.filter_eq_some_iff]
    exact ⟨rfl, decide_eq_true hne⟩

theorem Since.ready (h : WInv pollLaws w m) (h' : WInv pollLaws w' m')
    (hs : Since w.next w.reg w'.next w'.reg) (hq : q ∈ w'.reg.readyArgs) :
    q ∈ w.reg.readyArgs := by
  obtain ⟨i, pfd, d, hat, rfl, hready⟩ := (mem_ready h').mp hq
  rcases hs.origin i pfd d hat with ⟨j, -, hold⟩ | ⟨-, hquiet⟩
  · exact (mem_ready h).mpr ⟨j, pfd, d, hold, rfl, hready⟩
  · exact absurd hquiet hready

theorem Since.stays (h : WInv pollLaws w m) (h' : WInv pollLaws w' m')
    (hs : Since w.next w.reg w'.next w'.reg) (hq : q ∈ w.reg.readyArgs) (hend : q ∈ w'.reg.args) :
    q ∈ w'.reg.readyArgs := by
  obtain ⟨i, pfd, d, hat, rfl, hready⟩ := (mem_ready h).mp hq
  obtain ⟨j, pfd', d', hat', harg⟩ := (mem_here h').mp hend
  obtain ⟨rfl, -⟩ := same_slot h hs hat hat' harg
  exact (mem_ready h').mpr ⟨j, pfd', d', hat', harg, hready⟩

theorem Since.back (h : WInv pollLaws w m) (h' : WInv pollLaws w' m')
    (hs : Since w.next w.reg w'.next w'.reg) (hq : q < w.next) (hend : q ∈ w'.reg.args) :
    q ∈ w.reg.args := by
  obtain ⟨j, pfd, d, hat, rfl⟩ := (mem_here h').mp hend
  rcases hs.origin j pfd d hat with ⟨i, -, hold⟩ | ⟨hnew, -⟩
  · exact (mem_here h).mpr ⟨i, pfd, d, hold, rfl⟩
  · exact absurd hq (Nat.not_lt.mpr hnew)

theorem Since.below (hs : Since w.next w.reg w'.next w'.reg) (h : ReadyBelow n w.reg) :
    ReadyBelow n w'.reg := by
  intro i pfd d hat hready
  rcases hs.origin i pfd d hat with ⟨j, hij, hold⟩ | ⟨-, hquiet⟩
  · exact Nat.lt_of_le_of_lt hij (h j pfd d hold hready)
  · exact absurd hquiet hready

theorem Since.down (h : WInv pollLaws w m) (h' : WInv pollLaws w' m')
    (hs : Since w.next w.reg w'.next w'.reg) (hq : q ∈ w'.reg.readyArgs) :
    w'.reg.slot q ≤ w.reg.slot q := by
  obtain ⟨i, pfd, d, hat, rfl, hready⟩ := (mem_ready h').mp hq
  rcases hs.origin i pfd d hat with ⟨j, hij, hold⟩ | ⟨-, hquiet⟩
  · rw [slot_eq h' hat, slot_eq h hold]
    exact hij
  · exact absurd hquiet hready

/-- `pfd->revents = 0`. -/
def IoWorld.clear (w : IoWorld (HpPoll IoFn Bool)) (k : Nat) : IoWorld (HpPoll IoFn Bool) :=
  { w with reg := w.reg.setRevents (k + 1) 0 }

theorem clear_inv (h : WInv pollLaws w m) (k : Nat) : WInv pollLaws (IoWorld.clear w k) m :=
  setReg h fun _ hrep => setRevents_represents hrep (k + 1) 0

theorem at_of_clear {i : Nat} (hat : (IoWorld.clear w k).reg.At i pfd d)
    (hready : pfd.revents ≠ 0) : i ≠ k ∧ w.reg.At i pfd d := by
  obtain ⟨pfd₀, hold, heq⟩ := at_setRevents hat
  by_cases hik : i = k
  · rw [if_pos hik] at heq
    rw [heq] at hready
    exact absurd rfl hready
  · rw [if_neg hik] at heq
    exact ⟨hik, heq ▸ hold⟩

/-- Clearing a slot takes the event of the connection in it, and no other. -/
theorem mem_ready_clear (h : WInv pollLaws w m) :
    q ∈ (IoWorld.clear w k).reg.readyArgs ↔
      q ∈ w.reg.readyArgs ∧ ∀ pfd d, w.reg.At k pfd d → d.arg ≠ q := by
  rw [mem_ready h, mem_ready (clear_inv h k)]
  constructor
  · rintro ⟨i, pfd, d, hat, rfl, hready⟩
    obtain ⟨hik, hold⟩ := at_of_clear hat hready
    refine ⟨⟨i, pfd, d, hold, rfl, hready⟩, ?_⟩
    intro pfd' d' hat' harg
    exact hik (slot_unique h hold hat' harg.symm)
  · rintro ⟨⟨i, pfd, d, hat, rfl, hready⟩, hother⟩
    have hik : i ≠ k := fun hik => hother pfd d (hik ▸ hat) rfl
    exact ⟨i, pfd, d, at_setRevents_of_ne hat hik, rfl, hready⟩

theorem clear_below (h : ReadyBelow n w.reg) (k : Nat) :
    ReadyBelow n (IoWorld.clear w k).reg := by
  intro i pfd d hat hready
  exact h i pfd d (at_of_clear hat hready).2 hready

end

section
variable {env : RunEnv PollAns} {m : OrdMap Int (HpPolld IoFn Bool)}
  {w w' : IoWorld (HpPoll IoFn Bool)} {n k : Nat} {pfd : Pollfd} {d : HpPolld IoFn Bool}

/-- `on_accept` clears its own slot before it does anything else. -/
theorem onAccept_call (h : WInv pollLaws w m) (hat : w.reg.At k pfd d) (hready : pfd.revents ≠ 0)
    (hn : ReadyBelow n w.reg)
    (hrun : onAccept pollOps env.toIoEnv d.arg (IoWorld.clear (w.note (.call d.arg)) k) = w') :
    PollCall w d.arg none w' ∧ (∃ m', WInv pollLaws w' m') ∧ ReadyBelow n w'.reg := by
  have hnote : WInv pollLaws (w.note (.call d.arg)) m := h.note fun _ => rfl
  have hclear := clear_inv hnote k
  obtain ⟨⟨m', h'⟩, hs⟩ := onAccept_since env.toIoEnv hclear d.arg
  rw [hrun] at h' hs
  refine ⟨⟨?_, ?_, ?_, ?_, ?_, ?_, ?_, ?_⟩, ⟨m', h'⟩, hs.below (clear_below hn k)⟩
  · exact (mem_ready h).mpr ⟨k, pfd, d, hat, rfl, hready⟩
  · intro q hq
    exact ((mem_ready_clear hnote).mp (hs.ready hclear h' hq)).1
  · intro q hq hend hne _
    refine hs.stays hclear h' ((mem_ready_clear hnote).mpr ⟨hq, ?_⟩) hend
    intro pfd' d' hat' harg
    obtain ⟨-, rfl⟩ := hat.unique hat'
    exact hne harg.symm
  · intro q hq
    cases hq
  · intro q hq
    exact Nat.lt_of_lt_of_le hq hs.le
  · intro q hq hend
    have hold : q ∈ (IoWorld.clear (w.note (.call d.arg)) k).reg.args := hs.back hclear h' hq hend
    exact hold
  · intro q hq
    have hle := hs.down hclear h' hq
    exact hle
  · intro hown
    exact absurd rfl (((mem_ready_clear hnote).mp (hs.ready hclear h' hown)).2 pfd d hat)

/-- `io_cb` clears the slot that was its own, whoever is there by then. -/
theorem ioCb_call (h : WInv pollLaws w m) (hat : w.reg.At k pfd d) (hready : pfd.revents ≠ 0)
    (hn : ReadyBelow n w.reg) {w₁ : IoWorld (HpPoll IoFn Bool)}
    (hrun : ioCbPoll pollOps env.toIoEnv d.arg (fun po => po.revents (k + 1))
      (w.note (.call d.arg)) = some w₁) :
    PollCall w d.arg (w₁.reg.other (k + 1) d.arg) (IoWorld.clear w₁ k) ∧
      (∃ m', WInv pollLaws (IoWorld.clear w₁ k) m') ∧ ReadyBelow n (IoWorld.clear w₁ k).reg := by
  have hnote : WInv pollLaws (w.note (.call d.arg)) m := h.note fun _ => rfl
  have hsome : (w.note (.call d.arg)).ios d.arg ≠ none := by
    obtain ⟨max, hrep⟩ := h.rep
    obtain ⟨io, hio, -, -⟩ := h.entry _ (hat.entry hrep)
    show w.ios d.arg ≠ none
    rw [hio]
    exact Option.some_ne_none io
  obtain ⟨⟨m₁, h₁⟩, hs⟩ := ioCbPoll_since hnote hsome hrun
  refine ⟨⟨?_, ?_, ?_, ?_, ?_, ?_, ?_, ?_⟩, ⟨m₁, clear_inv h₁ k⟩, clear_below (hs.below hn) k⟩
  · exact (mem_ready h).mpr ⟨k, pfd, d, hat, rfl, hready⟩
  · intro q hq
    exact hs.ready h h₁ ((mem_ready_clear h₁).mp hq).1
  · intro q hq hend hne hrob
    have hstill : q ∈ w₁.reg.readyArgs := hs.stays h h₁ hq hend
    refine (mem_ready_clear h₁).mpr ⟨hstill, ?_⟩
    -- otherwise it is the one that is ready in the slot
    intro pfd' d' hat' harg
    obtain ⟨i, pfd₁, d₁, hat₁, harg₁, hready₁⟩ := (mem_ready h₁).mp hstill
    have hik := slot_unique h₁ hat₁ hat' (harg₁.trans harg.symm)
    subst hik
    exact hrob ((other_some h₁).mpr ⟨hne, pfd₁, d₁, hat₁, harg₁, hready₁⟩)
  · intro q hrob
    obtain ⟨hne, pfd', d', hat', harg, hready'⟩ := (other_some h₁).mp hrob
    have hold : q ∈ w.reg.readyArgs :=
      hs.ready h h₁ ((mem_ready h₁).mpr ⟨k, pfd', d', hat', harg, hready'⟩)
    exact ⟨hne, hold, fun hq => ((mem_ready_clear h₁).mp hq).2 pfd' d' hat' harg⟩
  · intro q hq
    exact Nat.lt_of_lt_of_le hq hs.le
  · intro q hq hend
    exact hs.back h h₁ hq hend
  · intro q hq
    have hle := hs.down h h₁ ((mem_ready_clear h₁).mp hq).1
    exact hle
  · intro hown
    -- its event is in the slot it has moved to
    obtain ⟨i, pfd', d', hat', harg, hready'⟩ := (mem_ready (clear_inv h₁ k)).mp hown
    obtain ⟨hik, hold⟩ := at_of_clear hat' hready'
    obtain ⟨-, hle⟩ := same_slot h hs hat hold harg
    have hslot : (IoWorld.clear w₁ k).reg.slot d.arg = i := harg ▸ slot_eq (clear_inv h₁ k) hat'
    rw [hslot, slot_eq h hat]
    exact Nat.lt_of_le_of_ne hle hik

/-- One callback of the dispatch phase. -/
theorem pollCall_call (h : WInv pollLaws w m) (hat : w.reg.At k pfd d) (hready : pfd.revents ≠ 0)
    (hn : ReadyBelow n w.reg) (hrun : pollCall env (k + 1) d w = some w') :
    PollCall w d.arg (robbed env (k + 1) d w) w' ∧ (∃ m', WInv pollLaws w' m') ∧
      ReadyBelow n w'.reg := by
  unfold pollCall at hrun
  unfold robbed
  cases hfn : d.fn with
  | onAccept =>
    rw [hfn] at hrun
    exact onAccept_call h hat hready hn (Option.some.inj hrun)
  | ioCb =>
    rw [hfn] at hrun
    obtain ⟨w₁, hcb, rfl⟩ := Option.map_eq_some_iff.mp hrun
    dsimp only
    rw [hcb, Option.bind_some]
    exact ioCb_call h hat hready hn hcb

/-- What `get_next_to_run` finds is a slot that is ready. -/
theorem next_at (h : WInv pollLaws w m) {index : Nat}
    (hnext : getNextToRun w.reg (min n w.reg.nfds) = some index) :
    ∃ k pfd d, index = k + 1 ∧ w.reg.At k pfd d ∧ pfd.revents ≠ 0 := by
  obtain ⟨max, hrep⟩ := h.rep
  obtain ⟨hpos, hle⟩ := getNextToRun_some hnext
  obtain ⟨k, rfl⟩ : ∃ k, index = k + 1 := ⟨index - 1, by omega⟩
  obtain ⟨pfd, d, hat⟩ := exists_at hrep (i := k) (by omega)
  have hready := List.find?_some hnext
  rw [decide_eq_true_eq, HpPoll.revents, hat.fds] at hready
  exact ⟨k, pfd, d, rfl, hat, hready⟩

/-- If it finds none, nothing is ready. -/
theorem next_none (h : WInv pollLaws w m) (hn : ReadyBelow n w.reg)
    (hnext : getNextToRun w.reg (min n w.reg.nfds) = none) : w.reg.readyArgs = [] := by
  apply List.eq_nil_iff_forall_not_mem.mpr
  intro q hq
  obtain ⟨i, pfd, d, hat, -, hready⟩ := (mem_ready h).mp hq
  have hlt := hn i pfd d hat hready
  have hnone := List.find?_eq_none.mp hnext (i + 1)
    (List.mem_map.mpr ⟨i, List.mem_range.mpr (Nat.lt_min.mpr ⟨hlt, hat.lt⟩), rfl⟩)
  rw [decide_eq_true_eq, not_not, HpPoll.revents, hat.fds] at hnone
  exact hready hnone

/-- A step of the phase is a callback. -/
theorem pollStep_call {s t : PollRun} {index : Nat} (hpc : s.pc = .dispatch n)
    (hnext : getNextToRun s.w.reg (min n s.w.reg.nfds) = some index)
    (hd : s.w.reg.pd index = some d) (hstep : pollStep env s = some t) :
    ∃ w', pollCall env index d s.w = some w' ∧ { s with w := w' } = t := by
  unfold pollStep at hstep
  split at hstep
  · cases hstep
  · simp only [hpc, hnext, hd, Option.bind_some] at hstep
    obtain ⟨w', hcall, heq⟩ := Option.map_eq_some_iff.mp hstep
    exact ⟨w', hcall, by rw [← heq, hpc]⟩

theorem dispatchPhase_round {fuel : Nat} {s s' : PollRun} {calls : List (Ptr × Option Ptr)}
    (h : PollInv s) (hpc : s.pc = .dispatch n) (hn : ReadyBelow n s.w.reg)
    (hrun : dispatchPhase env fuel s = some (calls, s')) : PollRound env n s.w calls s'.w := by
  induction fuel generalizing s calls with
  | zero => cases hrun
  | succ fuel ih =>
    obtain ⟨m, h⟩ := h
    simp only [dispatchPhase, hpc] at hrun
    split at hrun
    · next index hnext =>
      obtain ⟨d, hd, hrest⟩ := Option.bind_eq_some_iff.mp hrun
      obtain ⟨t, hstep, hmap⟩ := Option.bind_eq_some_iff.mp hrest
      obtain ⟨⟨calls', t'⟩, hphase, heq⟩ := Option.map_eq_some_iff.mp hmap
      cases heq
      obtain ⟨w', hcall, rfl⟩ := pollStep_call hpc hnext hd hstep
      have hone : nextCall env n s.w = some (d.arg, robbed env index d s.w, w') := by
        rw [nextCall, hnext, Option.bind_some, hd, Option.bind_some, hcall]
        rfl
      obtain ⟨k, pfd, d', rfl, hat, hready⟩ := next_at h hnext
      obtain rfl : d' = d := Option.some.inj (hat.pd.symm.trans hd)
      obtain ⟨hcalled, hinv, hn'⟩ := pollCall_call h hat hready hn hcall
      have hinv' : PollInv { s with w := w' } := hinv
      exact .call hone hcalled (ih hinv' hpc hn' hphase)
    · next hnext =>
      cases hrun
      refine .done ?_ (next_none h hn hnext)
      rw [nextCall, hnext, Option.bind_none]

theorem CallbacksReturn.step {s t : PollRun} (hret : CallbacksReturn env s)
    (hpc : s.pc = .dispatch n) (hstep : pollStep env s = some t) : CallbacksReturn env t := by
  have hdisp : s.pc.dispatching := by
    rw [hpc]
    trivial
  intro u hvia hu
  exact hret u (Relation.ReflTransGen.head ⟨hstep, hdisp⟩ hvia) hu

/-- The phase ends if its callbacks return: each of them leaves less to do. -/
theorem dispatchPhase_ends {s : PollRun} (h : PollInv s) (hpc : s.pc = .dispatch n)
    (hn : ReadyBelow n s.w.reg) (hret : CallbacksReturn env s) :
    ∃ fuel, (dispatchPhase env fuel s).isSome := by
  generalize hw : Marks.weight (fun w : IoWorld (HpPoll IoFn Bool) => w.reg.readyArgs)
    (fun w q => w.reg.slot q) s.w = weight
  induction weight using Nat.strong_induction_on generalizing s with
  | h weight ih =>
    obtain ⟨m, h⟩ := h
    cases hnext : getNextToRun s.w.reg (min n s.w.reg.nfds) with
    | none =>
      refine ⟨1, ?_⟩
      simp only [dispatchPhase, hpc, hnext]
      rfl
    | some index =>
      obtain ⟨k, pfd, d, rfl, hat, hready⟩ := next_at h hnext
      have hgo : (pollStep env s).isSome := hret s Relation.ReflTransGen.refl (by rw [hpc]; trivial)
      obtain ⟨t, hstep⟩ := Option.isSome_iff_exists.mp hgo
      have hret' := hret.step hpc hstep
      obtain ⟨w', hcall, rfl⟩ := pollStep_call hpc hnext hat.pd hstep
      obtain ⟨hcalled, hinv, hn'⟩ := pollCall_call h hat hready hn hcall
      have hinv' : PollInv { s with w := w' } := hinv
      have hless := hcalled.lighter
      rw [hw] at hless
      obtain ⟨fuel, hrest⟩ := ih _ hless hinv' hpc hn' hret' rfl
      refine ⟨fuel + 1, ?_⟩
      simp only [dispatchPhase, hpc, hnext, hat.pd, hstep, Option.bind_some, Option.isSome_map]
      exact hpc ▸ hrest

/-- A phase that has been computed shows that the callbacks return. -/
theorem dispatchPhase_return {fuel : Nat} {s s' : PollRun} {calls : List (Ptr × Option Ptr)}
    (hrun : dispatchPhase env fuel s = some (calls, s')) (hfine : s'.w.aborted = false) :
    CallbacksReturn env s := by
  induction fuel generalizing s calls with
  | zero => cases hrun
  | succ fuel ih =>
    intro t hvia hdisp
    have hpc : ∃ n, s.pc = .dispatch n := by
      unfold dispatchPhase at hrun
      split at hrun
      · next n hpc => exact ⟨n, hpc⟩
      · cases hrun
    obtain ⟨n, hpc⟩ := hpc
    simp only [dispatchPhase, hpc] at hrun
    split at hrun
    · next index hnext =>
      obtain ⟨d, -, hrest⟩ := Option.bind_eq_some_iff.mp hrun
      obtain ⟨u, hstep, hmap⟩ := Option.bind_eq_some_iff.mp hrest
      obtain ⟨⟨calls', u'⟩, hphase, heq⟩ := Option.map_eq_some_iff.mp hmap
      cases heq
      rcases Relation.ReflTransGen.cases_head hvia with rfl | ⟨v, ⟨hstep', -⟩, hvia'⟩
      · rw [hstep]
        rfl
      · cases hstep.symm.trans hstep'
        exact ih hphase t hvia' hdisp
    · next hnext =>
      cases hrun
      have hlast : pollStep env s' = some { s' with pc := .onLoop 1 } := by
        simp only [pollStep, hfine, Bool.false_eq_true, ↓reduceIte, hpc, hnext]
      rcases Relation.ReflTransGen.cases_head hvia with rfl | ⟨v, ⟨hstep', -⟩, hvia'⟩
      · rw [hlast]
        rfl
      · -- the phase is over
        cases hlast.symm.trans hstep'
        rcases Relation.ReflTransGen.cases_head hvia' with rfl | ⟨x, ⟨-, hout⟩, -⟩
        · exact hdisp.elim
        · exact hout.elim

end

/-- A dispatch phase ends if its callbacks return. When it has, every connection that `poll`
reported ready and that is still registered has been called, if and only if no `io_cb` clears
the event of another connection that has not been called and stays registered. -/
theorem none_skipped (env : RunEnv PollAns) (s : PollRun) (h : PollInv s)
    (hpc : s.pc = .dispatch s.w.reg.nfds) :
    (CallbacksReturn env s → ∃ fuel, (dispatchPhase env fuel s).isSome) ∧
      ∀ fuel calls s', dispatchPhase env fuel s = some (calls, s') →
        ((∀ q ∈ s.w.reg.readyArgs, q ∈ s'.w.reg.args → q ∈ calls.map Prod.fst) ↔
          NoneRobbed env s.w.reg.nfds s.w) := by
  have hbelow : ReadyBelow s.w.reg.nfds s.w.reg := fun i pfd d hat _ => hat.lt
  refine ⟨dispatchPhase_ends h hpc hbelow, fun fuel calls s' hrun => ?_⟩
  have hround := dispatchPhase_round h hpc hbelow hrun
  have hknown : ∀ q ∈ s.w.reg.readyArgs, q < s.w.next := by
    intro q hq
    obtain ⟨m, h⟩ := h
    obtain ⟨i, pfd, d, hat, rfl, -⟩ := (mem_ready h).mp hq
    exact arg_lt h hat
  refine Iff.trans ?_ (hround.spared_iff hknown []).symm
  constructor
  · exact fun hall q hq hend => .inr (hall q hq hend)
  · exact fun hall q hq hend => (hall q hq hend).resolve_left List.not_mem_nil

/-- Connections with the fds 5 and 7; `poll` says that both have input. -/
def twoConns (read : RdCall) : RunEnv PollAns :=
  { oneConn read (fun _ => ⟨0, [], []⟩) (.ready fun _ => EPOLLIN) with
    user := fun t =>
      if t = 0 then .acts [.add 5 ⟨false, true, false, false⟩, .add 7 ⟨false, true, false, false⟩]
      else .run 1 }

/-- Both read until `EAGAIN`. -/
theorem none_skipped_again :
    ∃ s, Run.Via (pollStep (twoConns ⟨[], .fail EAGAIN⟩)) (fun _ _ => True) (pollStart 2) s ∧
      s.pc = .dispatch s.w.reg.nfds ∧ s.w.reg.readyArgs = [1, 2] ∧
      CallbacksReturn (twoConns ⟨[], .fail EAGAIN⟩) s ∧
      NoneRobbed (twoConns ⟨[], .fail EAGAIN⟩) s.w.reg.nfds s.w := by
  have hrun : ∃ s, Run.Via (pollStep (twoConns ⟨[], .fail EAGAIN⟩)) (fun _ _ => True)
      (pollStart 2) s ∧ s.pc = .dispatch s.w.reg.nfds ∧ s.w.reg.readyArgs = [1, 2] ∧
      (dispatchPhase (twoConns ⟨[], .fail EAGAIN⟩) 3 s).map (fun r => (r.1, r.2.w.aborted)) =
        some ([(1, none), (2, none)], false) :=
    Run.via_any (fun _ _ => true) 3 (fun _ _ _ => trivial) _ (by decide +kernel)
  obtain ⟨s, hvia, hpc, hready, hphase⟩ := hrun
  obtain ⟨⟨calls, s'⟩, hphase, heq⟩ := Option.map_eq_some_iff.mp hphase
  obtain ⟨rfl, hfine⟩ := Prod.mk.inj heq
  have hinv : PollInv s := (poll_run (P := fun _ => True) trivial (fun _ _ _ _ _ => trivial) hvia).1
  refine ⟨s, hvia, hpc, hready, dispatchPhase_return hphase hfine, ?_⟩
  apply ((none_skipped _ s hinv hpc).2 _ _ _ hphase).mp
  intro q hq _
  rw [hready] at hq
  exact hq

/-- The first one reads the end of the input and is removed. The second one moves to its slot,
loses its event and is not called. -/
theorem ready_skipped :
    ∃ s s' calls, Run.Via (pollStep (twoConns ⟨[], .eof 0⟩)) (fun _ _ => True) (pollStart 2) s ∧
      s.pc = .dispatch s.w.reg.nfds ∧
      dispatchPhase (twoConns ⟨[], .eof 0⟩) 3 s = some (calls, s') ∧
      ¬ ∀ q ∈ s.w.reg.readyArgs, q ∈ s'.w.reg.args → q ∈ calls.map Prod.fst := by
  have hrun : ∃ s, Run.Via (pollStep (twoConns ⟨[], .eof 0⟩)) (fun _ _ => True)
      (pollStart 2) s ∧ s.pc = .dispatch s.w.reg.nfds ∧ 2 ∈ s.w.reg.readyArgs ∧
      (dispatchPhase (twoConns ⟨[], .eof 0⟩) 3 s).map (fun r => (r.1, r.2.w.reg.args)) =
        some ([(1, some 2)], [2]) :=
    Run.via_any (fun _ _ => true) 3 (fun _ _ _ => trivial) _ (by decide +kernel)
  obtain ⟨s, hvia, hpc, hready, hphase⟩ := hrun
  obtain ⟨⟨calls, s'⟩, hphase, heq⟩ := Option.map_eq_some_iff.mp hphase
  obtain ⟨rfl, hargs⟩ := Prod.mk.inj heq
  refine ⟨s, s', _, hvia, hpc, hphase, ?_⟩
  intro hall
  have hcalled := hall 2 hready (by rw [show s'.w.reg.args = [2] from hargs]; simp)
  simp at hcalled

end Libhp.Ev
