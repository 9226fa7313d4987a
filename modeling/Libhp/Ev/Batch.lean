import Libhp.Ev.Callback

/-!
# One batch of epoll events

`for (i = 0; i < n; ++i)` of `hp_epoll_run`: the events hold pointers to the `hp_epolld`
blocks of the time of `epoll_wait`, and `hp_epoll_rm` frees such a block. The loop is
modelled by what it leaves behind, one slot for each pointer that it follows.
-/
namespace Libhp.Ev
open Libhp.Io (Ptr)

/-- A pointer that the loop follows, and what the callback called through it does. -/
structure Slot where
  ptr : Ptr
  /-- the fd that `epoll_wait` reported by this pointer -/
  fd : Int
  freed : List Ptr
  removed : List Int
  deriving DecidableEq, Repr

section
variable {F L κ σ : Type}

/-- The fd of a block. -/
def HpEpoll.fdAt (epo : HpEpoll F L) (p : Ptr) : Int := (epo.heap p).elim 0 HpEpolld.fd

/-- The slots of the loop over `evs`; `fd` tells what the pointers of the batch were reported
for. From a freed block there is no telling how it goes on. -/
def batchLoop (ctl : EpollCtl κ) (h : Handlers F L (LoopSt F L κ σ) σ) (fd : Ptr → Int) :
    List EpollEvent → LoopSt F L κ σ → List Slot
  | [], _ => []
  | ev :: evs, st =>
    if ev.ptr = 0 then batchLoop ctl h fd evs st
    else
      match st.epo.heap ev.ptr with
      | none => [⟨ev.ptr, fd ev.ptr, [], []⟩]
      | some d =>
        let done := callBody ((h.fn d.fn).map fun f => f ev) d.arg st st.s
        ⟨ev.ptr, fd ev.ptr, epollFreed ctl done.1 st.epo st.k, removedFds done.1⟩ ::
          (st.perform ctl done).elim [] fun st => batchLoop ctl h fd evs st

/-- No pointer is followed after a callback of the batch has freed its block. -/
def NoStale (slots : List Slot) : Prop := slots.Pairwise fun a b => b.ptr ∉ a.freed

/-- No callback removes an fd whose event the loop comes to later. -/
def Spares (slots : List Slot) : Prop := slots.Pairwise fun a b => b.fd ∉ a.removed

instance (slots : List Slot) : Decidable (NoStale slots) :=
  inferInstanceAs (Decidable (slots.Pairwise _))

instance (slots : List Slot) : Decidable (Spares slots) :=
  inferInstanceAs (Decidable (slots.Pairwise _))

/-- `p` points to the registered block of `fd`. -/
structure HpEpoll.Holds (epo : HpEpoll F L) (p : Ptr) (fd : Int) : Prop where
  live : p ∈ epo.live
  block : ∃ d, epo.heap p = some d ∧ d.fd = fd

section
variable {ctl : EpollCtl κ} {epo epo' : HpEpoll F L} {max : Nat} {m : OrdMap Int (HpPolld F L)}
  {p : Ptr} {fd : Int}

/-- The block of an fd is the one that a search for the fd finds. -/
theorem HpEpoll.Holds.found (h : epo.Holds p fd) (hrep : epo.Represents max m) :
    ∃ i, m.index fd = some i ∧ epo.ed.getD i 0 = p := by
  obtain ⟨d, hd, rfl⟩ := h.block
  obtain ⟨j, hj⟩ := List.getElem?_of_mem h.live
  have hblock := congrArg (fun l => l[j]?) hrep.blocks
  simp only [List.getElem?_map, hj, Option.map_some, hd] at hblock
  obtain ⟨e, he, heq⟩ := Option.map_eq_some_iff.mp hblock.symm
  have hkey : e.1 = d.fd := congrArg HpEpolld.fd (Option.some.inj heq)
  have hlt := (List.getElem?_eq_some_iff.mp he).1
  refine ⟨j, hkey ▸ OrdMap.index_entry he, ?_⟩
  exact Option.some.inj ((hrep.heap_at hlt).2.symm.trans hj)

/-- Filling a fresh block, or the block of an fd again, leaves the others. -/
theorem HpEpoll.Holds.store (h : epo.Holds p fd) {q : Ptr} {fd' : Int} {cb : HpPolld F L}
    (hq : q = p → fd' = fd) : (epo.store q fd' cb).Holds p fd := by
  refine ⟨h.live, ?_⟩
  obtain ⟨d, hd, hfd⟩ := h.block
  by_cases hqp : p = q
  · exact ⟨_, if_pos hqp, hq hqp.symm⟩
  · exact ⟨d, (if_neg hqp).trans hd, hfd⟩

/-- Removing another fd leaves a block alone. -/
theorem HpEpoll.Holds.removeAt (h : epo.Holds p fd) (hrep : epo.Represents max m) {i : Nat}
    (hi : i < epo.evLen) (hne : epo.ed.getD i 0 ≠ p) : (epo.removeAt i).Holds p fd := by
  constructor
  · rw [live_removeAt (by rw [hrep.slots]; exact hrep.len_le) hi]
    obtain ⟨j, hj⟩ := List.getElem?_of_mem h.live
    have hget : epo.live[i]? = some (epo.ed.getD i 0) :=
      (hrep.heap_at (by rw [← OrdMap.size, ← hrep.size_eq]; exact hi)).2
    refine List.mem_eraseIdx_iff_getElem?.mpr ⟨j, ?_, hj⟩
    rintro rfl
    exact hne (Option.some.inj (hget.symm.trans hj))
  · obtain ⟨d, hd, hfd⟩ := h.block
    exact ⟨d, (if_neg (Ne.symm hne)).trans hd, hfd⟩

/-- An operation frees the block of `fd` exactly if it removes `fd`; any other leaves it. -/
theorem HpEpoll.Holds.op {op : RegOp F L} {k k' : κ} {out : RegOut} (h : epo.Holds p fd)
    (hrep : epo.Represents max m) (hop : epollOp ctl op epo k = some (out, epo', k')) :
    (p ∈ epollFrees op epo ↔ op.removes = some fd) ∧
      (op.removes ≠ some fd → epo'.Holds p fd) := by
  obtain ⟨i, hi, hp⟩ := h.found hrep
  cases op with
  | add fd' events cb hint =>
    refine ⟨by simp [epollFrees, RegOp.removes], fun _ => ?_⟩
    obtain ⟨⟨rc, epo₁, k₁⟩, hadd, heq⟩ := Option.map_eq_some_iff.mp hop
    cases heq
    have hfresh : ∀ q, q ∉ epo.live → q = p → fd' = fd := fun q hq hqp => absurd h.live (hqp ▸ hq)
    rcases hpEpollAdd_cases hrep hadd with rfl | ⟨j, hj, rfl⟩ | rfl | ⟨-, hroom, rfl⟩
    · exact h
    · apply h.store
      intro hjp
      obtain ⟨hjlt, hjkey⟩ := OrdMap.index_some hj
      obtain ⟨d, hd, hfd⟩ := h.block
      have hblock := (hrep.heap_at hjlt).1
      rw [hjp, hd] at hblock
      rw [← hfd, Option.some.inj hblock]
      exact hjkey.symm
    · exact h.store (hfresh _ (mallocPtr_fresh _ _))
    · have hstored : (epo.store (mallocPtr epo.live hint) fd' cb).Holds p fd :=
        h.store (hfresh _ (mallocPtr_fresh _ _))
      refine ⟨?_, hstored.block⟩
      rw [live_push (by rw [← hrep.slots] at hroom; exact hroom)]
      exact List.mem_append_left _ hstored.live
  | rm fd' =>
    cases hop
    by_cases hfd : fd' = fd
    · subst hfd
      refine ⟨?_, fun hne => absurd rfl hne⟩
      simp only [epollFrees, RegOp.removes, findByFd_eq hrep, hi, Option.toList_some,
        List.map_cons, List.map_nil, hp, List.mem_singleton]
    · have hother : RegOp.removes (.rm fd' : RegOp F L) ≠ some fd := by
        simpa [RegOp.removes] using hfd
      cases hj : m.index fd' with
      | none =>
        simp only [epollFrees, findByFd_eq hrep, hj, Option.toList_none, List.map_nil,
          List.not_mem_nil, hother, true_and]
        exact fun _ => h
      | some j =>
        obtain ⟨hjlt, hjkey⟩ := OrdMap.index_some hj
        have hne : epo.ed.getD j 0 ≠ p := by
          intro hjp
          obtain ⟨d, hd, rfl⟩ := h.block
          have hblock := (hrep.heap_at hjlt).1
          rw [hjp, hd] at hblock
          exact hfd (hjkey.symm.trans (congrArg HpEpolld.fd (Option.some.inj hblock)).symm)
        have hin : j < epo.evLen := by rw [hrep.size_eq]; exact hjlt
        simp only [epollFrees, findByFd_eq hrep, hj, Option.toList_some, List.map_cons,
          List.map_nil, List.mem_singleton, Ne.symm hne, hother, true_and]
        exact fun _ => h.removeAt hrep hin hne
  | find key onCmp =>
    cases hop
    exact ⟨by simp [epollFrees, RegOp.removes], fun _ => h⟩
  | size =>
    cases hop
    exact ⟨by simp [epollFrees, RegOp.removes], fun _ => h⟩

/-- The same for all that a callback does. -/
theorem HpEpoll.Holds.run {ops : List (RegOp F L)} {k k' : κ} {outs : List RegOut}
    (h : epo.Holds p fd) (hrep : epo.Represents max m)
    (hrun : epollRun ctl ops epo k = some (outs, epo', k')) :
    (p ∈ epollFreed ctl ops epo k ↔ fd ∈ removedFds ops) ∧
      (fd ∉ removedFds ops → epo'.Holds p fd) := by
  induction ops generalizing epo m k outs with
  | nil =>
    cases hrun
    exact ⟨by simp [epollFreed, removedFds], fun _ => h⟩
  | cons op ops ih =>
    obtain ⟨⟨out, epo₁, k₁⟩, hop, hrest⟩ := Option.bind_eq_some_iff.mp hrun
    obtain ⟨⟨outs', epo₂, k₂⟩, hops, heq⟩ := Option.map_eq_some_iff.mp hrest
    cases heq
    obtain ⟨hfrees, hkeeps⟩ := h.op hrep hop
    have hmem : fd ∈ removedFds (op :: ops) ↔ op.removes = some fd ∨ fd ∈ removedFds ops := by
      simp [removedFds, List.mem_filterMap]
    have hfreed : p ∈ epollFreed ctl (op :: ops) epo k ↔
        p ∈ epollFrees op epo ∨ p ∈ epollFreed ctl ops epo₁ k₁ := by
      simp [epollFreed, hop]
    rw [hmem, hfreed, hfrees]
    by_cases hrem : op.removes = some fd
    · exact ⟨by simp [hrem], fun hno => absurd (.inl hrem) hno⟩
    · obtain ⟨m₁, hrep₁, -⟩ := epollOp_cases hrep hop
      obtain ⟨hiff, hrest'⟩ := ih (hkeeps hrem) hrep₁ hops
      exact ⟨or_congr_right hiff, fun hno => hrest' fun hin => hno (.inr hin)⟩

end

section
variable {ctl : EpollCtl κ} {h : Handlers F L (LoopSt F L κ σ) σ} {fd : Ptr → Int}

theorem mem_batchLoop {evs : List EpollEvent} {st : LoopSt F L κ σ} {b : Slot}
    (hb : b ∈ batchLoop ctl h fd evs st) : ∃ ev ∈ evs, b.ptr = ev.ptr ∧ b.fd = fd ev.ptr := by
  induction evs generalizing st with
  | nil => cases hb
  | cons ev evs ih =>
    have hlater : ∀ {st}, b ∈ batchLoop ctl h fd evs st →
        ∃ ev' ∈ ev :: evs, b.ptr = ev'.ptr ∧ b.fd = fd ev'.ptr := by
      intro st hin
      obtain ⟨ev', hev', hsame⟩ := ih hin
      exact ⟨ev', List.mem_cons_of_mem _ hev', hsame⟩
    unfold batchLoop at hb
    split at hb
    · exact hlater hb
    · split at hb
      · cases List.mem_singleton.mp hb
        exact ⟨ev, List.mem_cons_self, rfl, rfl⟩
      · rcases List.mem_cons.mp hb with rfl | hb
        · exact ⟨ev, List.mem_cons_self, rfl, rfl⟩
        · cases hst : st.perform ctl _ with
          | none =>
            rw [hst] at hb
            cases hb
          | some st' =>
            rw [hst] at hb
            exact hlater hb

/-- One slot in front of others: what it spares decides about them. -/
theorem noStale_cons_iff {a : Slot} {rest : List Slot}
    (hsame : ∀ b ∈ rest, (b.ptr ∈ a.freed ↔ b.fd ∈ a.removed))
    (hrest : (∀ b ∈ rest, b.fd ∉ a.removed) → (NoStale rest ↔ Spares rest)) :
    NoStale (a :: rest) ↔ Spares (a :: rest) := by
  have hhead : (∀ b ∈ rest, b.ptr ∉ a.freed) ↔ ∀ b ∈ rest, b.fd ∉ a.removed :=
    forall₂_congr fun b hb => not_congr (hsame b hb)
  rw [NoStale, Spares, List.pairwise_cons, List.pairwise_cons, hhead]
  exact and_congr_right hrest

/-- While the blocks of the slots to come are registered, a block is freed when its fd is
removed. The induction goes over the events; what has been spared is still registered. -/
theorem batchLoop_iff {max : Nat} {m : OrdMap Int (HpPolld F L)} {evs : List EpollEvent}
    {st : LoopSt F L κ σ} (hrep : st.epo.Represents max m)
    (hholds : ∀ b ∈ batchLoop ctl h fd evs st, st.epo.Holds b.ptr b.fd) :
    NoStale (batchLoop ctl h fd evs st) ↔ Spares (batchLoop ctl h fd evs st) := by
  induction evs generalizing st m with
  | nil => exact ⟨fun _ => .nil, fun _ => .nil⟩
  | cons ev evs ih =>
    by_cases hnull : ev.ptr = 0
    · simp only [batchLoop, hnull, ↓reduceIte] at hholds ⊢
      exact ih hrep hholds
    · cases hheap : st.epo.heap ev.ptr with
      | none =>
        simp only [batchLoop, hnull, ↓reduceIte, hheap]
        exact ⟨fun _ => List.pairwise_singleton .., fun _ => List.pairwise_singleton ..⟩
      | some d =>
        simp only [batchLoop, hnull, ↓reduceIte, hheap] at hholds ⊢
        generalize callBody _ d.arg st st.s = done at hholds ⊢
        cases hperform : st.perform ctl done with
        | none => exact ⟨fun _ => List.pairwise_singleton .., fun _ => List.pairwise_singleton ..⟩
        | some st' =>
          rw [hperform] at hholds
          obtain ⟨⟨outs, epo', k'⟩, hrun, heq⟩ := Option.map_eq_some_iff.mp hperform
          cases heq
          obtain ⟨m', hrep', -⟩ := epollRun_changed hrep hrun
          refine noStale_cons_iff (fun b hb => ?_) fun hspared => ih hrep' fun b hb => ?_
          · exact ((hholds b (List.mem_cons_of_mem _ hb)).run hrep hrun).1
          · exact ((hholds b (List.mem_cons_of_mem _ hb)).run hrep hrun).2 (hspared b hb)

/-- For every batch of pointers that are registered when `epoll_wait` returns, and any
callbacks: no pointer is followed after its block has been freed by a callback of the batch
if and only if no callback removes an fd whose event comes later. -/
theorem batch_not_stale (max : Nat) (ctl : EpollCtl κ) (h : Handlers F L (LoopSt F L κ σ) σ)
    (st : LoopSt F L κ σ) (m : OrdMap Int (HpPolld F L)) (hrep : st.epo.Represents max m)
    (evs : List EpollEvent) (hevs : ∀ ev ∈ evs, ev.ptr ∈ st.epo.live) :
    NoStale (batchLoop ctl h st.epo.fdAt evs st) ↔
      Spares (batchLoop ctl h st.epo.fdAt evs st) := by
  apply batchLoop_iff hrep
  intro b hb
  obtain ⟨ev, hev, hptr, hfd⟩ := mem_batchLoop hb
  rw [hptr, hfd]
  obtain ⟨e, -, hblock⟩ := hrep.of_live (hevs ev hev)
  exact ⟨hevs ev hev, _, hblock, by rw [HpEpoll.fdAt, hblock]; rfl⟩

/-- A callback that removes its own fd harms no other. -/
theorem batch_not_stale_own :
    NoStale (batchLoop accepts (removers _) (fiveSevenEpoll [5]).epo.fdAt [⟨1, 1⟩, ⟨1, 2⟩]
      (fiveSevenEpoll [5])) := by
  obtain ⟨m, hrep⟩ := fiveSevenEpoll_represents [5]
  exact (batch_not_stale 4 accepts (removers _) _ m hrep [⟨1, 1⟩, ⟨1, 2⟩] (by decide)).mpr
    (by decide)

/-- The callback of fd 5 removes fd 7, and the loop goes on to the freed block of fd 7. -/
theorem batch_stale :
    (∃ m, (fiveSevenEpoll [7]).epo.Represents 4 m) ∧
    (∀ ev ∈ ([⟨1, 1⟩, ⟨1, 2⟩] : List EpollEvent), ev.ptr ∈ (fiveSevenEpoll [7]).epo.live) ∧
    ¬ NoStale (batchLoop accepts (removers _) (fiveSevenEpoll [7]).epo.fdAt [⟨1, 1⟩, ⟨1, 2⟩]
      (fiveSevenEpoll [7])) :=
  ⟨fiveSevenEpoll_represents [7], by decide, by decide⟩

end
end
end Libhp.Ev
