import Libhp.Ev.Epoll

/-!
# When an add fails

What `hp_epoll_add` leaves behind when `epoll_ctl` refuses: the entry of a known fd has been
rewritten before the call, and the block for a new one is not freed. The registry is as it was
exactly if no call is refused, or the refused one changed nothing of its entry.
-/
namespace Libhp.Ev
open Libhp.Io (Ptr SysRes)

section
variable {F L κ : Type} (ctl : EpollCtl κ) (epo : HpEpoll F L) (fd : Int) (events : Nat)
  (cb : HpPolld F L) (hint : Ptr) (k : κ)

/-- What the first `epoll_ctl` of `hp_epoll_add` answers, if it comes to one. -/
def addCtl : Option SysRes :=
  if fd < 0 then none
  else
    match epollFindByFd epo fd with
    | none =>
      if epo.evLen ≥ epo.maxEvLen then none
      else some (ctl .add fd ⟨events, mallocPtr epo.live hint⟩ k).1
    | some index => some (ctl .mod fd ⟨events, epo.ed.getD index 0⟩ k).1

/-- The call returns. If it returns an error, the registry and its blocks are as they were, and
if `epoll_ctl` refuses, it does return an error. -/
def AddAtomic : Prop :=
  ∃ rc epo' k', hpEpollAdd ctl epo fd events cb hint k = some (rc, epo', k') ∧
    (rc ≠ 0 → epo' = epo) ∧
    ∀ r, addCtl ctl epo fd events hint k = some r → r.ret ≠ 0 → rc ≠ 0

/-- The fd is registered, with just this fn, on_loop and arg. -/
def SameEntry : Prop :=
  ∃ i, epollFindByFd epo fd = some i ∧ epo.heap (epo.ed.getD i 0) = some { cb with fd := fd }

end

section
variable {F L κ : Type} {ctl : EpollCtl κ} {epo : HpEpoll F L} {fd : Int} {events : Nat}
  {cb : HpPolld F L} {hint : Ptr} {k : κ}

/-- Filling a block changes nothing exactly if it held just that. -/
theorem store_eq_iff {p : Ptr} :
    epo.store p fd cb = epo ↔ epo.heap p = some { cb with fd := fd } := by
  constructor
  · intro h
    have hp := congrFun (congrArg HpEpoll.heap h) p
    rw [← hp]
    exact if_pos rfl
  · intro h
    have hheap : setHeap epo.heap p (some { cb with fd := fd }) = epo.heap := by
      funext q
      unfold setHeap
      split
      · next hq => rw [hq, h]
      · rfl
    unfold HpEpoll.store
    rw [hheap]

theorem addAtomic_invalid (hfd : fd < 0) : AddAtomic ctl epo fd events cb hint k := by
  refine ⟨-1, epo, k, if_pos hfd, fun _ => rfl, ?_⟩
  intro r hr
  unfold addCtl at hr
  rw [if_pos hfd] at hr
  cases hr

/-- A known fd: what counts is the answer to MOD and what the entry was before. -/
theorem addAtomic_known (hfd : ¬ fd < 0) {i : Nat} (hi : epollFindByFd epo fd = some i) :
    AddAtomic ctl epo fd events cb hint k ↔
      ((ctl .mod fd ⟨events, epo.ed.getD i 0⟩ k).1.ret ≠ 0 →
        epo.heap (epo.ed.getD i 0) = some { cb with fd := fd }) := by
  let r := ctl .mod fd ⟨events, epo.ed.getD i 0⟩ k
  have hrun : hpEpollAdd ctl epo fd events cb hint k =
      some (if r.1.ret = 0 then 0 else -3, epo.store (epo.ed.getD i 0) fd cb, r.2) := by
    simp only [hpEpollAdd, hfd, ↓reduceIte, hi]
    rfl
  have hctl : addCtl ctl epo fd events hint k = some r.1 := by
    simp only [addCtl, hfd, ↓reduceIte, hi]
    rfl
  constructor
  · rintro ⟨rc, epo', k', hrun', hsame, hrc⟩ hret
    rw [hrun] at hrun'
    obtain ⟨-, hepo⟩ := Prod.mk.inj (Option.some.inj hrun')
    obtain ⟨rfl, -⟩ := Prod.mk.inj hepo
    exact store_eq_iff.mp (hsame (hrc r.1 hctl hret))
  · intro h
    refine ⟨_, _, _, hrun, fun hrc => ?_, ?_⟩
    · apply store_eq_iff.mpr
      apply h
      intro hret
      exact hrc (if_pos hret)
    · intro r' hr' hret
      rw [hctl] at hr'
      cases hr'
      rw [if_neg hret]
      decide

theorem addAtomic_full (hfd : ¬ fd < 0) (hi : epollFindByFd epo fd = none)
    (hfull : epo.evLen ≥ epo.maxEvLen) : AddAtomic ctl epo fd events cb hint k := by
  refine ⟨-2, epo, k, ?_, fun _ => rfl, ?_⟩
  · simp only [hpEpollAdd, hfd, ↓reduceIte, hi, hfull]
  · intro r hr
    simp only [addCtl, hfd, ↓reduceIte, hi, hfull] at hr
    cases hr

/-- A new fd: ADD must not be refused. -/
theorem addAtomic_new (hfd : ¬ fd < 0) (hi : epollFindByFd epo fd = none)
    (hroom : ¬ epo.evLen ≥ epo.maxEvLen) (hfree : epo.heap (mallocPtr epo.live hint) = none) :
    AddAtomic ctl epo fd events cb hint k ↔
      (ctl .add fd ⟨events, mallocPtr epo.live hint⟩ k).1.ret = 0 := by
  let p := mallocPtr epo.live hint
  let r := ctl .add fd ⟨events, p⟩ k
  have hrun : hpEpollAdd ctl epo fd events cb hint k =
      if r.1.ret = 0 then some (0, (epo.store p fd cb).push p, r.2)
      else if r.1.errno ≠ EEXIST then some (-2, epo.store p fd cb, r.2)
      else none := by
    simp only [hpEpollAdd, hfd, ↓reduceIte, hi, hroom]
    rfl
  have hctl : addCtl ctl epo fd events hint k = some r.1 := by
    simp only [addCtl, hfd, ↓reduceIte, hi, hroom]
    rfl
  constructor
  · rintro ⟨rc, epo', k', hrun', hsame, hrc⟩
    by_contra hret
    have hepo := hsame (hrc r.1 hctl hret)
    rw [hrun, if_neg hret] at hrun'
    split at hrun'
    · obtain ⟨-, hepo'⟩ := Prod.mk.inj (Option.some.inj hrun')
      obtain ⟨rfl, -⟩ := Prod.mk.inj hepo'
      -- the block is still there
      rw [store_eq_iff, hfree] at hepo
      cases hepo
    · cases hrun'
  · intro hret
    rw [if_pos hret] at hrun
    refine ⟨0, _, _, hrun, fun h => absurd rfl h, ?_⟩
    intro r' hr' hret'
    rw [hctl] at hr'
    cases hr'
    exact absurd hret hret'

/-- An add is atomic exactly if `epoll_ctl` is not refused, or what is refused is the change of
an entry to what it was. `malloc` gives a block that is not in use. -/
theorem add_atomic {F L κ : Type} (ctl : EpollCtl κ) (epo : HpEpoll F L) (fd : Int)
    (events : Nat) (cb : HpPolld F L) (hint : Ptr) (k : κ)
    (hfree : epo.heap (mallocPtr epo.live hint) = none) :
    AddAtomic ctl epo fd events cb hint k ↔
      ∀ r, addCtl ctl epo fd events hint k = some r → r.ret ≠ 0 → SameEntry epo fd cb := by
  unfold addCtl SameEntry
  by_cases hfd : fd < 0
  · simp only [if_pos hfd]
    exact iff_of_true (addAtomic_invalid hfd) fun r hr => by cases hr
  simp only [if_neg hfd]
  cases hi : epollFindByFd epo fd with
  | some i =>
    rw [addAtomic_known hfd hi]
    constructor
    · intro h r hr hret
      cases hr
      exact ⟨i, rfl, h hret⟩
    · intro h hret
      obtain ⟨j, hj, hheap⟩ := h _ rfl hret
      cases hj
      exact hheap
  | none =>
    by_cases hfull : epo.evLen ≥ epo.maxEvLen
    · simp only [if_pos hfull]
      exact iff_of_true (addAtomic_full hfd hi hfull) fun r hr => by cases hr
    · simp only [if_neg hfull]
      rw [addAtomic_new hfd hi hfull hfree]
      constructor
      · intro hret r hr hne
        cases hr
        exact absurd hret hne
      · intro h
        by_contra hret
        obtain ⟨j, hj, -⟩ := h _ rfl hret
        cases hj

/-- The kernel takes a new fd. -/
theorem add_atomic_new :
    AddAtomic (fun _ _ _ k => (⟨0, 0⟩, k)) (hpEpollInit 2 : HpEpoll Nat Nat) 5 1 ⟨1, 1, 1⟩ 0 () := by
  refine (add_atomic (fun _ _ _ k => (⟨0, 0⟩, k)) (hpEpollInit 2) 5 1 ⟨1, 1, 1⟩ 0 () rfl).mpr ?_
  intro r hr hret
  obtain rfl : (⟨0, 0⟩ : SysRes) = r := Option.some.inj hr
  exact absurd rfl hret

end

/-- fd 5 registered with fn 1. -/
def fiveAdded : HpEpoll Nat Nat := ((hpEpollInit 2).store 1 5 ⟨1, 1, 1⟩).push 1

def EPERM : Int := 1

/-- A refused MOD leaves the new fn with the old registration, a refused ADD leaves a block
behind, and the errno of a file that the kernel knows already is a failed assertion. -/
theorem add_not_atomic :
    ¬ (∀ (ctl : EpollCtl Unit) (epo : HpEpoll Nat Nat) (fd : Int) (events : Nat)
      (cb : HpPolld Nat Nat) (hint : Ptr), epo.heap (mallocPtr epo.live hint) = none →
      AddAtomic ctl epo fd events cb hint ()) ∧
    (hpEpollAdd (fun _ _ _ k => (⟨-1, EPERM⟩, k)) fiveAdded 5 1 ⟨2, 2, 2⟩ 0 ()).map
      (fun x => (x.1, x.2.1.heap 1)) = some (-3, some ⟨⟨2, 2, 2⟩, 5⟩) ∧
    (hpEpollAdd (fun _ _ _ k => (⟨-1, EPERM⟩, k)) fiveAdded 7 1 ⟨2, 2, 2⟩ 0 ()).map
      (fun x => (x.1, x.2.1.live, x.2.1.heap 2)) = some (-2, [1], some ⟨⟨2, 2, 2⟩, 7⟩) ∧
    (hpEpollAdd (fun _ _ _ k => (⟨-1, EEXIST⟩, k)) fiveAdded 7 1 ⟨2, 2, 2⟩ 0 ()).isNone := by
  refine ⟨fun hall => ?_, by decide, by decide, by decide⟩
  have hatomic := hall (fun _ _ _ k => (⟨-1, EPERM⟩, k)) fiveAdded 5 1 ⟨2, 2, 2⟩ 0 (by decide)
  have hfound : epollFindByFd fiveAdded 5 = some 0 := by decide
  have hsame := (addAtomic_known (by decide) hfound).mp hatomic (by decide)
  revert hsame
  decide

end Libhp.Ev
