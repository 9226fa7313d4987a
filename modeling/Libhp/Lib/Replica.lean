import Mathlib.Tactic

/-!
# Replicas

One party keeps a state and posts what it does to it; another applies the messages in the
order of posting. `apply` is partial: where it is not defined, the second party cannot
make sense of a message. The two are in step when the messages under way lead from the
state of the second to the state of the first.
-/
namespace Replica

section
variable {S M : Type} {apply : S → M → Option S} {view view' master master' : S} {queue : List M}
  {m : M}

def InStep (apply : S → M → Option S) (view : S) (queue : List M) (master : S) : Prop :=
  queue.foldlM apply view = some master

theorem InStep.start : InStep apply master [] master := rfl

/-- The first party acts and posts. -/
theorem InStep.post (h : InStep apply view queue master) (hm : apply master m = some master') :
    InStep apply view (queue ++ [m]) master' := by
  unfold InStep at h ⊢
  rw [List.foldlM_append, h]
  show (some master >>= fun s => List.foldlM apply s [m]) = some master'
  rw [Option.bind_eq_bind, Option.bind_some, List.foldlM_cons, hm]
  rfl

/-- The next message makes sense. -/
theorem InStep.take (h : InStep apply view (m :: queue) master) :
    ∃ view', apply view m = some view' ∧ InStep apply view' queue master := by
  unfold InStep at h
  rw [List.foldlM_cons] at h
  exact Option.bind_eq_some_iff.mp h

/-- Without messages under way, the two states agree. -/
theorem InStep.agree (h : InStep apply view [] master) : view = master := Option.some.inj h

end

end Replica
