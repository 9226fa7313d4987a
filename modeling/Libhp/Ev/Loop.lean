import Libhp.Io.IoTLog
import Libhp.Lib.Run

/-!
# One step of an event loop

What the two event loops share. Between two runs the program may make library calls;
inside a run the loop makes one callback after the other and drops what they return.
A step of a loop is quiet, or it is one callback for a registered connection.
-/
namespace Libhp.Ev
open Libhp.Io

/-- What the program does when no run is under way. -/
inductive UserOp where
  | acts (as : List IoAct)
  | run (mode : Int)

/-- The outside of an event loop that waits for answers in `A`. -/
structure RunEnv (A : Type) extends IoEnv where
  user : Nat → UserOp
  wait : Nat → A

def initWorld {R : Type} (reg : R) : IoWorld R :=
  { reg := reg, ios := fun _ => none, next := 1, tick := 0, aborted := false, log := [] }

section
variable {R : Type} {ops : RegOps R} {env : IoEnv} {L : RegLaws ops}
  {m : OrdMap Int (HpPolld IoFn Bool)} {w w' : IoWorld R} {late : Ptr → List IoEv → Prop}

/-- What one step of an event loop adds to the log. -/
inductive StepOut (late : Ptr → List IoEv → Prop) (w w' : IoWorld R) : Prop
  | quiet (h : w'.log = w.log)
  | call (p : Ptr) (seg : List IoEv) (hlog : w'.log = w.log ++ .call p :: seg)
      (hfresh : ¬ Deleted p w.log) (h : CbOut late p seg)

/-- In this step the library does not go on with a connection it has deleted. -/
def NotLate (late : Ptr → List IoEv → Prop) (w w' : IoWorld R) : Prop :=
  ∀ p seg, w'.log = w.log ++ .call p :: seg → ¬ late p seg

/-- In this step every negative answer comes where the library ends the connection. -/
def AllHeard (w w' : IoWorld R) : Prop := ∀ seg, w'.log = w.log ++ seg → Heard seg

/-- A test for both backends: no `read()` ended the stream, and no `writev` failed for good. -/
def wholeTest (w w' : IoWorld R) : Bool :=
  match w'.log.drop w.log.length with
  | .call p :: seg => decide (¬ (ReadEnded p seg ∨ WriteBroke p seg))
  | _ => true

theorem notLate_of_wholeTest (hlate : ∀ p seg, late p seg → ReadEnded p seg ∨ WriteBroke p seg)
    (h : wholeTest w w' = true) : NotLate late w w' := by
  intro p seg hlog hl
  rw [wholeTest, hlog, List.drop_left] at h
  exact of_decide_eq_true h (hlate p seg hl)

def heardTest (w w' : IoWorld R) : Bool := heardFrom [] (w'.log.drop w.log.length)

theorem allHeard_of_heardTest (h : heardTest w w' = true) : AllHeard w w' := by
  intro seg hlog
  rw [heardTest, hlog, List.drop_left] at h
  intro pre p hd rc post hseg hrc
  simpa using heard_of_heardFrom h pre p hd rc post hseg hrc

theorem StepOut.noUse (h : StepOut late w w') (hok : NotLate late w w') (hlog : NoUse w.log) :
    NoUse w'.log := by
  cases h with
  | quiet heq => rwa [heq]
  | call p seg heq hfresh hcb =>
    rw [heq]
    exact hlog.append (hcb.noUse (hok p seg heq)) (hcb.fresh hfresh)

theorem StepOut.closes (h : StepOut late w w') (hok : AllHeard w w') (hlog : Closes w.log) :
    Closes w'.log := by
  cases h with
  | quiet heq => rwa [heq]
  | call p seg heq hfresh hcb =>
    rw [heq]
    exact hlog.append (hcb.closes (hok _ heq)) (hcb.fresh hfresh)

theorem initWorld_inv {reg : R} (hrep : L.Rep 1 reg OrdMap.empty) :
    WInv L (initWorld reg) OrdMap.empty :=
  ⟨hrep, fun _ h => absurd h List.not_mem_nil, fun _ h => absurd rfl h,
    fun p h => absurd h (not_deleted_nil p)⟩

/-- A callback that the loop makes for a registered connection. -/
theorem call_spec {e : Int × HpPolld IoFn Bool} (h : WInv L w m) (he : e ∈ m.entries)
    {p : Ptr} (hp : e.2.arg = p)
    (hcb : ∀ w₁, WInv L w₁ m → w₁ = w.note (.call p) → w₁.ios p ≠ none →
      ∃ seg, Moves L p w₁ seg w' ∧ CbOut late p seg) :
    (∃ m, WInv L w' m) ∧ StepOut late w w' := by
  obtain ⟨io, hio, -, hdel⟩ := h.entry e he
  rw [hp] at hio hdel
  have hnote : WInv L (w.note (.call p)) m := h.note fun _ => rfl
  have hsome : (w.note (.call p)).ios p ≠ none := by
    change w.ios p ≠ none
    rw [hio]
    exact Option.some_ne_none io
  obtain ⟨seg, hmove, hout⟩ := hcb _ hnote rfl hsome
  refine ⟨hmove.inv, .call p seg ?_ hdel hout⟩
  rw [hmove.log]
  simp only [IoWorld.note, List.append_assoc, List.singleton_append]

theorem acts_quiet (h : WInv L w m) (as : List IoAct) :
    (∃ m', WInv L (doActs ops env w.step as) m') ∧
      StepOut late w (doActs ops env w.step as) := by
  obtain ⟨hinv, hframe⟩ : _ ∧ ActFrame w.step (doActs ops env w.step as) := doActs_spec as h.step
  exact ⟨hinv, .quiet hframe.log⟩

theorem step_quiet (h : WInv L w m) : (∃ m', WInv L w.step m') ∧ StepOut late w w.step :=
  ⟨⟨m, h.step⟩, .quiet rfl⟩

theorem stay_quiet (h : WInv L w m) : (∃ m', WInv L w m') ∧ StepOut late w w :=
  ⟨⟨m, h⟩, .quiet rfl⟩

end
end Libhp.Ev
