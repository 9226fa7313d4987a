import Libhp.Io.IoTCb

/-!
# The address a registry is told

`hp_io_add` registers every callback under the address it has just handed out. So a registry
that refuses any other address serves the library just as well, and what it guarantees can
rely on the addresses being new.
-/
namespace Libhp.Io

section
variable {R : Type}

/-- The registry that takes a callback only under the address it is told. -/
def RegOps.fresh (ops : RegOps R) : RegOps R :=
  { ops with add := fun c r fd events cb p =>
      if cb.arg = p then ops.add c r fd events cb p else none }

variable {ops : RegOps R} {env : IoEnv}

theorem hpIoAdd_fresh : hpIoAdd ops.fresh env = hpIoAdd ops env := by
  funext w fd iohdl
  simp only [hpIoAdd, hpIoRegister, RegOps.fresh, ↓reduceIte]

theorem doActs_fresh : doActs ops.fresh env = doActs ops env := by
  have hact : doAct ops.fresh env = doAct ops env := by
    funext w a
    cases a with
    | add fd iohdl => rw [doAct, doAct, hpIoAdd_fresh]
    | write io buf free ptr fresh => rfl
    | rm id => rfl
  funext w acts
  rw [doActs, doActs, hact]

theorem hpIoTOnError_fresh : hpIoTOnError ops.fresh env = hpIoTOnError ops env := by
  funext p err errstr w
  simp only [hpIoTOnError, doActs_fresh]
  rfl

theorem ioRead_fresh : ioRead ops.fresh env = ioRead ops env := by
  funext p w
  simp only [ioRead, rdOps, hdlOf, hpIoTOnError_fresh, doActs_fresh]

theorem ioWriteHalf_fresh : ioWriteHalf ops.fresh env = ioWriteHalf ops env := by
  funext p events w
  simp only [ioWriteHalf, ioWrite, wrOps, hpIoTOnError_fresh]

theorem ioCbPoll_fresh (p : Ptr) (revents : R → Nat) (w : IoWorld R) :
    ioCbPoll ops.fresh env p revents w = ioCbPoll ops env p revents w := by
  simp only [ioCbPoll, hpIoTOnError_fresh, ioRead_fresh, ioWriteHalf_fresh]

theorem onAccept_fresh (p : Ptr) (w : IoWorld R) :
    onAccept ops.fresh env p w = onAccept ops env p w := by
  have hloop : ∀ as w, acceptLoop ops.fresh env p as w = acceptLoop ops env p as w := by
    intro as
    induction as with
    | nil =>
      intro w
      rfl
    | cons a as ih =>
      intro w
      simp only [acceptLoop, doActs_fresh, ih]
  exact hloop _ _

end
end Libhp.Io
