import Libhp.Ev.Registry
import Libhp.Lib.Sweep

/-!
# Callbacks that change the event set

What a callback of an event loop does to the registry it is called from: any sequence of
`hp_epoll_add`, `hp_epoll_rm` and searches, in any order, for its own fd or for others.
The operations may depend on the whole state, also on what earlier ones of them returned.
-/
namespace Libhp.Ev
open Libhp.Io (Ptr)

/-- What the callbacks of a loop see and change: the registry, the kernel, their own data. -/
structure LoopSt (F L κ σ : Type) where
  epo : HpEpoll F L
  k : κ
  s : σ

/-- The body of a callback, for its argument: the operations it makes, and its data after. -/
abbrev Body (F L S σ : Type) := Ptr → S → List (RegOp F L) × σ

/-- The functions behind the pointers `fn` and `on_loop`; `none` is the null pointer. -/
structure Handlers (F L S σ : Type) where
  fn : F → Option (EpollEvent → Body F L S σ)
  onLoop : L → Option (Body F L S σ)

section
variable {F L κ σ S : Type}

/-- `if(body) body(arg)`. -/
def callBody (body : Option (Body F L S σ)) (arg : Ptr) (st : S) (s : σ) :
    List (RegOp F L) × σ :=
  body.elim ([], s) fun f => f arg st

/-- The operations of a callback, made on the registry. -/
def LoopSt.perform (ctl : EpollCtl κ) (st : LoopSt F L κ σ) (done : List (RegOp F L) × σ) :
    Option (LoopSt F L κ σ) :=
  (epollRun ctl done.1 st.epo st.k).map fun (_, epo, k) => ⟨epo, k, done.2⟩

/-- The argument, if the operation is a removal. -/
def RegOp.removes : RegOp F L → Option Int
  | .rm fd => some fd
  | _ => none

def removedFds (ops : List (RegOp F L)) : List Int := ops.filterMap RegOp.removes

/-- The block that the operation frees, if it frees one. -/
def epollFrees (op : RegOp F L) (epo : HpEpoll F L) : List Ptr :=
  match op with
  | .rm fd => (epollFindByFd epo fd).toList.map fun index => epo.ed.getD index 0
  | _ => []

/-- The blocks freed by a sequence of operations, as far as it gets. -/
def epollFreed (ctl : EpollCtl κ) : List (RegOp F L) → HpEpoll F L → κ → List Ptr
  | [], _, _ => []
  | op :: ops, epo, k =>
    epollFrees op epo ++ (epollOp ctl op epo k).elim [] fun (_, epo, k) => epollFreed ctl ops epo k

/-- The registered fds, in order. -/
def HpEpoll.fds (epo : HpEpoll F L) : List Int :=
  epo.live.filterMap fun p => (epo.heap p).map HpEpolld.fd

def HpPoll.regFds (po : HpPoll F L) : List Int := ((po.fds.drop 1).take po.nfds).map Pollfd.fd

theorem HpEpoll.Represents.fds_eq {epo : HpEpoll F L} {max : Nat}
    {m : OrdMap Int (HpPolld F L)} (h : epo.Represents max m) : epo.fds = m.keys := by
  have hmap := congrArg (List.filterMap fun d => Option.map HpEpolld.fd d) h.blocks
  rw [List.filterMap_map, List.filterMap_map] at hmap
  apply hmap.trans
  rw [OrdMap.keys, ← List.filterMap_eq_map]
  rfl

theorem HpPoll.Represents.regFds_eq {po : HpPoll F L} {max : Nat}
    {m : OrdMap Int (HpPolld F L)} (h : po.Represents max m) : po.regFds = m.keys := by
  apply List.ext_getElem?
  intro i
  rw [HpPoll.regFds, List.getElem?_map, List.getElem?_take]
  by_cases hi : i < po.nfds
  · rw [if_pos hi, List.getElem?_drop, Nat.add_comm, OrdMap.keys, List.getElem?_map]
    exact (h.entry i hi).1
  · rw [if_neg hi, List.getElem?_eq_none (l := m.keys)]
    · rfl
    · rw [OrdMap.length_keys, ← h.size_eq]
      exact Nat.not_lt.mp hi

/-- What one operation may do to the fds, with any answers of `epoll_ctl`. -/
theorem epollOp_cases {ctl : EpollCtl κ} {op : RegOp F L} {epo epo' : HpEpoll F L} {max : Nat}
    {m : OrdMap Int (HpPolld F L)} {k k' : κ} {out : RegOut} (h : epo.Represents max m)
    (hop : epollOp ctl op epo k = some (out, epo', k')) :
    ∃ m', epo'.Represents max m' ∧
      ((op.removes = none ∧ (m'.keys = m.keys ∨ ∃ fd, m'.keys = m.keys ++ [fd])) ∨
        ∃ fd, op = .rm fd ∧ m'.keys = m.keys.erase fd) := by
  cases op with
  | add fd events cb hint =>
    obtain ⟨⟨rc, epo₁, k₁⟩, hadd, heq⟩ := Option.map_eq_some_iff.mp hop
    cases heq
    rcases hpEpollAdd_cases h hadd with rfl | ⟨i, hi, rfl⟩ | rfl | ⟨hi, hroom, rfl⟩
    · exact ⟨m, h, .inl ⟨rfl, .inl rfl⟩⟩
    · exact ⟨_, hpEpollAdd_known h hi cb, .inl ⟨rfl, .inl (OrdMap.keys_set_some hi cb)⟩⟩
    · exact ⟨m, store_fresh h (mallocPtr_fresh _ _) fd cb, .inl ⟨rfl, .inl rfl⟩⟩
    · exact ⟨_, hpEpollAdd_new h hi hroom cb (mallocPtr_fresh _ _),
        .inl ⟨rfl, .inr ⟨fd, OrdMap.keys_set_none hi cb⟩⟩⟩
  | rm fd =>
    cases hop
    exact ⟨_, (hpEpollRm_spec ctl h fd k).2, .inr ⟨fd, rfl, OrdMap.keys_erase m fd⟩⟩
  | find key onCmp =>
    cases hop
    exact ⟨m, h, .inl ⟨rfl, .inl rfl⟩⟩
  | size =>
    cases hop
    exact ⟨m, h, .inl ⟨rfl, .inl rfl⟩⟩

theorem pollOp_cases (op : RegOp F L) {po : HpPoll F L} {max : Nat}
    {m : OrdMap Int (HpPolld F L)} (h : po.Represents max m) :
    ∃ m', (pollOp op po).2.Represents max m' ∧
      ((op.removes = none ∧ (m'.keys = m.keys ∨ ∃ fd, m'.keys = m.keys ++ [fd])) ∨
        ∃ fd, op = .rm fd ∧ m'.keys = m.keys.erase fd) := by
  refine ⟨(mapOp max op m).2, (pollOp_refines h op).2, ?_⟩
  cases op with
  | add fd events cb hint =>
    refine .inl ⟨rfl, ?_⟩
    by_cases hfull : fd < 0 ∨ (m.index fd = none ∧ max ≤ m.size)
    · simp only [mapOp, hfull, ↓reduceIte, true_or]
    · simp only [mapOp, hfull, ↓reduceIte]
      cases hi : m.index fd with
      | some i => exact .inl (OrdMap.keys_set_some hi cb)
      | none => exact .inr ⟨fd, OrdMap.keys_set_none hi cb⟩
  | rm fd => exact .inr ⟨fd, rfl, OrdMap.keys_erase m fd⟩
  | find key onCmp => exact .inl ⟨rfl, .inl rfl⟩
  | size => exact .inl ⟨rfl, .inl rfl⟩

/-- The first operation of a sequence, and then the rest. -/
theorem changed_cons {keys keys₁ keys' : List Int} {op : RegOp F L} {ops : List (RegOp F L)}
    (hnodup : keys.Nodup)
    (hop : (op.removes = none ∧ (keys₁ = keys ∨ ∃ fd, keys₁ = keys ++ [fd])) ∨
      ∃ fd, op = .rm fd ∧ keys₁ = keys.erase fd)
    (h : Sweep.Changed keys₁ (removedFds ops) keys') :
    Sweep.Changed keys (removedFds (op :: ops)) keys' := by
  rcases hop with ⟨hrem, hkeys⟩ | ⟨fd, rfl, rfl⟩
  · rw [removedFds, List.filterMap_cons_none hrem]
    rcases hkeys with rfl | ⟨fd, rfl⟩
    · exact h
    · exact h.of_concat
  · exact h.of_erase hnodup

theorem epollRun_changed {ctl : EpollCtl κ} {ops : List (RegOp F L)} {epo epo' : HpEpoll F L}
    {max : Nat} {m : OrdMap Int (HpPolld F L)} {k k' : κ} {outs : List RegOut}
    (h : epo.Represents max m) (hrun : epollRun ctl ops epo k = some (outs, epo', k')) :
    ∃ m', epo'.Represents max m' ∧ Sweep.Changed m.keys (removedFds ops) m'.keys := by
  induction ops generalizing epo m k outs with
  | nil =>
    cases hrun
    exact ⟨m, h, .refl m.nodup⟩
  | cons op ops ih =>
    obtain ⟨⟨out, epo₁, k₁⟩, hop, hrest⟩ := Option.bind_eq_some_iff.mp hrun
    obtain ⟨⟨outs', epo₂, k₂⟩, hops, heq⟩ := Option.map_eq_some_iff.mp hrest
    cases heq
    obtain ⟨m₁, h₁, hcase⟩ := epollOp_cases h hop
    obtain ⟨m', h', hchanged⟩ := ih h₁ hops
    exact ⟨m', h', changed_cons m.nodup hcase hchanged⟩

/-- `EPOLL_CTL_ADD` does not find an fd in the kernel that the registry does not have. -/
def AddsFresh (ctl : EpollCtl κ) : Prop :=
  ∀ fd ev k, (ctl .add fd ev k).1.ret = 0 ∨ (ctl .add fd ev k).1.errno ≠ EEXIST

/-- An `epoll_ctl` that always succeeds. -/
def accepts : EpollCtl Unit := fun _ _ _ k => (⟨0, 0⟩, k)

theorem accepts_ok (op : CtlOp) (fd : Int) (ev : EpollEvent) (k : Unit) :
    (accepts op fd ev k).1.ret = 0 := rfl

theorem accepts_fresh : AddsFresh accepts := fun fd ev k => .inl (accepts_ok .add fd ev k)

theorem hpEpollAdd_total {ctl : EpollCtl κ} (hctl : AddsFresh ctl) (epo : HpEpoll F L) (fd : Int)
    (events : Nat) (cb : HpPolld F L) (hint : Ptr) (k : κ) :
    (hpEpollAdd ctl epo fd events cb hint k).isSome = true := by
  unfold hpEpollAdd
  split
  · rfl
  · split
    · split
      · rfl
      · rcases hctl fd ⟨events, mallocPtr epo.live hint⟩ k with hret | herrno
        · simp only [hret, ↓reduceIte, Option.isSome_some]
        · simp only [herrno, ne_eq, not_false_eq_true, ↓reduceIte]
          split <;> rfl
    · rfl

/-- Only the assertion of `hp_epoll_add` stops a callback. -/
theorem epollRun_total {ctl : EpollCtl κ} (hctl : AddsFresh ctl) (ops : List (RegOp F L))
    (epo : HpEpoll F L) (k : κ) : (epollRun ctl ops epo k).isSome = true := by
  induction ops generalizing epo k with
  | nil => rfl
  | cons op ops ih =>
    have hop : (epollOp ctl op epo k).isSome = true := by
      cases op with
      | add fd events cb hint =>
        rw [epollOp, Option.isSome_map]
        exact hpEpollAdd_total hctl epo fd events cb hint k
      | _ => rfl
    obtain ⟨⟨out, epo', k'⟩, hop⟩ := Option.isSome_iff_exists.mp hop
    simp only [epollRun, hop, Option.bind_some, Option.isSome_map]
    exact ih epo' k'

theorem pollRun_changed {ops : List (RegOp F L)} {po : HpPoll F L} {max : Nat}
    {m : OrdMap Int (HpPolld F L)} (h : po.Represents max m) :
    ∃ m', (pollRun ops po).2.Represents max m' ∧
      Sweep.Changed m.keys (removedFds ops) m'.keys := by
  induction ops generalizing po m with
  | nil => exact ⟨m, h, .refl m.nodup⟩
  | cons op ops ih =>
    obtain ⟨m₁, h₁, hcase⟩ := pollOp_cases op h
    obtain ⟨m', h', hchanged⟩ := ih h₁
    exact ⟨m', h', changed_cons m.nodup hcase hchanged⟩

/-- Fd 5, whose functions remove the fds in `xs`, and fd 7, whose functions
remove nothing, are added. -/
def fiveSeven (xs : List Int) : List (RegOp (List Int) (List Int)) :=
  [.add 5 1 ⟨xs, 1, xs⟩ 0, .add 7 1 ⟨[], 2, []⟩ 0]

def fiveSevenEpoll (xs : List Int) : LoopSt (List Int) (List Int) Unit Unit :=
  ⟨((epollRun accepts (fiveSeven xs) (hpEpollInit 4) ()).elim
    (hpEpollInit 4) fun out => out.2.1), (), ()⟩

/-- Functions given by the fds that they remove. -/
def removers (S : Type) : Handlers (List Int) (List Int) S Unit where
  fn xs := some fun _ _ _ => (xs.map .rm, ())
  onLoop xs := some fun _ _ => (xs.map .rm, ())

theorem fiveSevenEpoll_represents (xs : List Int) :
    ∃ m, (fiveSevenEpoll xs).epo.Represents 4 m := by
  obtain ⟨epo, k, hrun, hrep⟩ := epollRun_refines accepts_ok (fiveSeven xs) ()
    (hpEpollInit_represents (by decide : (0 : Int) < 4))
  refine ⟨(mapRun 4 (fiveSeven xs) OrdMap.empty).2, ?_⟩
  rw [fiveSevenEpoll, hrun]
  exact hrep

end
end Libhp.Ev
