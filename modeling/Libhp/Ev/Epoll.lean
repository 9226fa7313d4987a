import Libhp.Io.Wr
import Libhp.Lib.Memmove
import Libhp.Lib.OrdMap

/-!
# The epoll registry

`hp_epoll_add`, `hp_epoll_rm` and `hp_epoll_find` of `hp_epoll.c`. `ed` is the whole
array of pointers, `heap` the `hp_epolld` blocks behind them. The answers of
`epoll_ctl` come from a parameter. `Represents` says which ordered map from fd to
callbacks the registry stands for.
-/
namespace Libhp.Ev
open Libhp.Io (Ptr SysRes)
open Memmove

def EEXIST : Int := 17
def EPOLLIN : Nat := 1
def EPOLLOUT : Nat := 4
def EPOLLERR : Nat := 8

/-- What an fd is registered with; `hp_polld` of the poll backend. -/
structure HpPolld (F L : Type) where
  fn : F
  arg : Ptr
  onLoop : L
  deriving DecidableEq, Repr, Inhabited

structure HpEpolld (F L : Type) extends HpPolld F L where
  fd : Int
  deriving DecidableEq, Repr

structure HpEpoll (F L : Type) where
  ed : List Ptr
  evLen : Nat
  maxEvLen : Nat
  heap : Ptr → Option (HpEpolld F L)

inductive CtlOp where
  | add
  | mod
  | del
  deriving DecidableEq, Repr

structure EpollEvent where
  events : Nat
  ptr : Ptr
  deriving DecidableEq, Repr

/-- `epoll_ctl` over the state of the kernel. -/
abbrev EpollCtl (κ : Type) := CtlOp → Int → EpollEvent → κ → SysRes × κ

section
variable {F L κ : Type}

def hpEpollInit (maxEvLen : Int) : HpEpoll F L :=
  let maxEvLen := if maxEvLen ≤ 0 then 65535 else maxEvLen.toNat
  { ed := List.replicate maxEvLen 0, evLen := 0, maxEvLen := maxEvLen, heap := fun _ => none }

/-- `ed[0..ev_len)`. -/
def HpEpoll.live (epo : HpEpoll F L) : List Ptr := epo.ed.take epo.evLen

/-- `hp_lfind` over `ed[0..ev_len)`: the index of the first pointer to a record that passes. -/
def epollLfind (epo : HpEpoll F L) (test : HpEpolld F L → Bool) : Option Nat :=
  epo.live.findIdx? fun p => (epo.heap p).any test

def epollFindByFd (epo : HpEpoll F L) (fd : Int) : Option Nat := epollLfind epo fun d => d.fd = fd

/-- The test of a search: `on_cmp(key, arg)` if there is one, else equality. -/
def doFind (key : Ptr) (onCmp : Option (Ptr → Ptr → Int)) (arg : Ptr) : Bool :=
  match onCmp with
  | some cmp => cmp key arg ≠ 0
  | none => key = arg

def hpEpollFind (epo : HpEpoll F L) (key : Ptr) (onCmp : Option (Ptr → Ptr → Int)) : Ptr :=
  match epollLfind epo fun d => doFind key onCmp d.arg with
  | some index => (epo.heap (epo.ed.getD index 0)).elim 0 fun d => d.arg
  | none => 0

def setHeap (heap : Ptr → Option (HpEpolld F L)) (p : Ptr) (d : Option (HpEpolld F L)) :
    Ptr → Option (HpEpolld F L) :=
  fun q => if q = p then d else heap q

/-- `malloc`: any address that is not in use; `hint` chooses it. -/
def mallocPtr (used : List Ptr) (hint : Ptr) : Ptr :=
  if hint = 0 ∨ hint ∈ used then used.foldr max 0 + 1 else hint

theorem mallocPtr_fresh (used : List Ptr) (hint : Ptr) : mallocPtr used hint ∉ used := by
  unfold mallocPtr
  split_ifs with h
  · intro hmem
    have hle : ∀ l : List Ptr, ∀ p ∈ l, p ≤ l.foldr max 0 := by
      intro l
      induction l with
      | nil => intro p hp; cases hp
      | cons q l ih =>
        intro p hp
        rcases List.mem_cons.mp hp with rfl | hp
        · exact Nat.le_max_left _ _
        · exact Nat.le_trans (ih p hp) (Nat.le_max_right _ _)
    exact Nat.not_succ_le_self _ (hle used _ hmem)
  · exact fun hmem => h (.inr hmem)

/-- Fill the block at `p`. -/
def HpEpoll.store (epo : HpEpoll F L) (p : Ptr) (fd : Int) (cb : HpPolld F L) : HpEpoll F L :=
  { epo with heap := setHeap epo.heap p (some { cb with fd := fd }) }

/-- `ed[ev_len++] = p`. -/
def HpEpoll.push (epo : HpEpoll F L) (p : Ptr) : HpEpoll F L :=
  { epo with ed := epo.ed.set epo.evLen p, evLen := epo.evLen + 1 }

/-- Free the block of `ed[index]` and close the gap. -/
def HpEpoll.removeAt (epo : HpEpoll F L) (index : Nat) : HpEpoll F L :=
  { epo with
    heap := setHeap epo.heap (epo.ed.getD index 0) none
    ed := if index + 1 < epo.evLen then
        memmove epo.ed index (index + 1) (epo.evLen - (index + 1)) else epo.ed
    evLen := epo.evLen - 1 }

/-- `hp_epoll_add`; `none` is the failed assertion behind `EEXIST`. -/
def hpEpollAdd (ctl : EpollCtl κ) (epo : HpEpoll F L) (fd : Int) (events : Nat)
    (cb : HpPolld F L) (hint : Ptr) (k : κ) : Option (Int × HpEpoll F L × κ) :=
  if fd < 0 then some (-1, epo, k)
  else
    match epollFindByFd epo fd with
    | none =>
      if epo.evLen ≥ epo.maxEvLen then some (-2, epo, k)
      else
        let p := mallocPtr epo.live hint
        let epo := epo.store p fd cb
        let (r, k) := ctl .add fd ⟨events, p⟩ k
        if r.ret = 0 then some (0, epo.push p, k)
        -- the new block is not freed on this exit
        else if r.errno ≠ EEXIST then some (-2, epo, k)
        else none
    | some index =>
      let p := epo.ed.getD index 0
      let (r, k) := ctl .mod fd ⟨events, p⟩ k
      some (if r.ret = 0 then 0 else -3, epo.store p fd cb, k)

def hpEpollRm (ctl : EpollCtl κ) (epo : HpEpoll F L) (fd : Int) (k : κ) :
    Int × HpEpoll F L × κ :=
  match epollFindByFd epo fd with
  | none => (-2, epo, (ctl .del fd ⟨EPOLLIN + EPOLLOUT, 0⟩ k).2)
  | some index =>
    (0, epo.removeAt index, (ctl .del fd ⟨EPOLLIN + EPOLLOUT, epo.ed.getD index 0⟩ k).2)

/-- The registry holds exactly the entries of `m`, in order, each in a block of its own. -/
structure HpEpoll.Represents (epo : HpEpoll F L) (max : Nat) (m : OrdMap Int (HpPolld F L)) :
    Prop where
  maxEvLen : epo.maxEvLen = max
  slots : epo.ed.length = max
  len_le : epo.evLen ≤ max
  nodup : epo.live.Nodup
  blocks : epo.live.map epo.heap = m.entries.map fun e => some { e.2 with fd := e.1 }

namespace HpEpoll.Represents
variable {epo : HpEpoll F L} {max : Nat} {m : OrdMap Int (HpPolld F L)}

theorem length_live (h : epo.Represents max m) : epo.live.length = epo.evLen := by
  rw [HpEpoll.live, List.length_take, h.slots]
  exact Nat.min_eq_left h.len_le

theorem size_eq (h : epo.Represents max m) : epo.evLen = m.size := by
  have hlen := congrArg List.length h.blocks
  rw [List.length_map, List.length_map, h.length_live] at hlen
  exact hlen

/-- Searching the pointers is searching the entries. -/
theorem lfind_eq (h : epo.Represents max m) (test : HpEpolld F L → Bool) :
    epollLfind epo test = m.entries.findIdx? fun e => test { e.2 with fd := e.1 } := by
  have hmap := congrArg (List.findIdx? fun d => d.any test) h.blocks
  rw [List.findIdx?_map, List.findIdx?_map] at hmap
  exact hmap

theorem heap_at (h : epo.Represents max m) {i : Nat} (hi : i < m.entries.length) :
    epo.heap (epo.ed.getD i 0) = some { (m.entries[i]).2 with fd := (m.entries[i]).1 } ∧
      epo.live[i]? = some (epo.ed.getD i 0) := by
  have hlt : i < epo.evLen := by rw [h.size_eq]; exact hi
  have hslot : i < epo.ed.length := by rw [h.slots]; exact Nat.lt_of_lt_of_le hlt h.len_le
  have hlive : epo.live[i]? = some (epo.ed.getD i 0) := by
    rw [HpEpoll.live, List.getElem?_take_of_lt hlt, List.getD_eq_getElem?_getD,
      List.getElem?_eq_getElem hslot]
    rfl
  have hblock := congrArg (fun l => l[i]?) h.blocks
  simp only [List.getElem?_map, hlive, List.getElem?_eq_getElem hi, Option.map_some,
    Option.some.injEq] at hblock
  exact ⟨hblock, hlive⟩

/-- What a registered pointer points to. -/
theorem of_live (h : epo.Represents max m) {p : Ptr} (hp : p ∈ epo.live) :
    ∃ e ∈ m.entries, epo.heap p = some { e.2 with fd := e.1 } := by
  have hmem : epo.heap p ∈ epo.live.map epo.heap := List.mem_map_of_mem hp
  rw [h.blocks] at hmem
  obtain ⟨e, he, heq⟩ := List.mem_map.mp hmem
  exact ⟨e, he, heq.symm⟩

end HpEpoll.Represents

theorem setHeap_map_of_not_mem {heap : Ptr → Option (HpEpolld F L)} {p : Ptr}
    (d : Option (HpEpolld F L)) {l : List Ptr} (hp : p ∉ l) :
    l.map (setHeap heap p d) = l.map heap := by
  apply List.map_congr_left
  intro q hq
  have hne : q ≠ p := fun he => hp (he ▸ hq)
  simp only [setHeap, hne, ↓reduceIte]

theorem hpEpollInit_rep (max : Int) : (hpEpollInit max : HpEpoll F L).Represents
    (if max ≤ 0 then 65535 else max.toNat) OrdMap.empty := by
  constructor
  · rfl
  · exact List.length_replicate ..
  · exact Nat.zero_le _
  · exact List.nodup_nil
  · rfl

theorem hpEpollInit_represents {max : Int} (hmax : 0 < max) :
    (hpEpollInit max : HpEpoll F L).Represents max.toNat OrdMap.empty := by
  have hrep := hpEpollInit_rep (F := F) (L := L) max
  rwa [if_neg (Int.not_le.mpr hmax)] at hrep

theorem findByFd_eq {epo : HpEpoll F L} {max : Nat} {m : OrdMap Int (HpPolld F L)}
    (h : epo.Represents max m) (fd : Int) : epollFindByFd epo fd = m.index fd :=
  h.lfind_eq _

/-- Registering a known fd rewrites its block. -/
theorem hpEpollAdd_known {epo : HpEpoll F L} {max : Nat}
    {m : OrdMap Int (HpPolld F L)} (h : epo.Represents max m) {fd : Int} {i : Nat}
    (hi : m.index fd = some i) (cb : HpPolld F L) :
    (epo.store (epo.ed.getD i 0) fd cb).Represents max (m.set fd cb) := by
  obtain ⟨hlt, hkey⟩ := OrdMap.index_some hi
  obtain ⟨hblock, hlive⟩ := h.heap_at hlt
  refine ⟨h.maxEvLen, h.slots, h.len_le, h.nodup, ?_⟩
  rw [OrdMap.entries_set_some hi, List.map_set, ← h.blocks]
  apply List.ext_getElem?
  intro j
  rw [List.getElem?_map, List.getElem?_set, List.length_map]
  by_cases hij : i = j
  · subst hij
    have hlen := (List.getElem?_eq_some_iff.mp hlive).1
    change Option.map _ epo.live[i]? = _
    rw [hlive, if_pos rfl, if_pos hlen]
    simp only [HpEpoll.store, setHeap, Option.map_some, ↓reduceIte]
  · rw [if_neg hij, List.getElem?_map]
    change Option.map _ epo.live[j]? = _
    cases hj : epo.live[j]? with
    | none => rfl
    | some q =>
      have hne : q ≠ epo.ed.getD i 0 := by
        intro he
        obtain ⟨hjl, hjq⟩ := List.getElem?_eq_some_iff.mp hj
        obtain ⟨hil, hiq⟩ := List.getElem?_eq_some_iff.mp hlive
        exact hij ((h.nodup.getElem_inj_iff).mp (hiq.trans (he.symm.trans hjq.symm)))
      simp only [HpEpoll.store, setHeap, Option.map_some, hne, ↓reduceIte]

theorem live_push {epo : HpEpoll F L} (hroom : epo.evLen < epo.ed.length) (p : Ptr) :
    (epo.push p).live = epo.live ++ [p] := by
  simp only [HpEpoll.live, HpEpoll.push]
  rw [List.take_add_one, List.take_set_of_le (Nat.le_refl _), List.getElem?_set, if_pos rfl,
    if_pos hroom]
  rfl

/-- Registering a new fd takes a fresh block and the next slot. -/
theorem hpEpollAdd_new {epo : HpEpoll F L} {max : Nat} {m : OrdMap Int (HpPolld F L)}
    (h : epo.Represents max m) {fd : Int} (hi : m.index fd = none) (hroom : epo.evLen < max)
    (cb : HpPolld F L) {p : Ptr} (hp : p ∉ epo.live) :
    ((epo.store p fd cb).push p).Represents max (m.set fd cb) := by
  have hlive : (epo.ed.set epo.evLen p).take (epo.evLen + 1) = epo.live ++ [p] :=
    live_push (by rw [h.slots]; exact hroom) p
  refine ⟨h.maxEvLen, ?_, hroom, ?_, ?_⟩
  · change (epo.ed.set epo.evLen p).length = max
    rw [List.length_set]
    exact h.slots
  · change ((epo.ed.set epo.evLen p).take (epo.evLen + 1)).Nodup
    rw [hlive, List.nodup_append]
    refine ⟨h.nodup, List.nodup_singleton p, ?_⟩
    intro a ha b hb hab
    have hbp : b = p := List.mem_singleton.mp hb
    subst hab hbp
    exact hp ha
  · change ((epo.ed.set epo.evLen p).take (epo.evLen + 1)).map (setHeap epo.heap p _) = _
    rw [hlive, List.map_append, setHeap_map_of_not_mem _ hp, h.blocks,
      OrdMap.entries_set_none hi, List.map_append]
    simp [setHeap]

theorem live_removeAt {epo : HpEpoll F L} (hlen : epo.evLen ≤ epo.ed.length) {i : Nat}
    (hi : i < epo.evLen) : (epo.removeAt i).live = epo.live.eraseIdx i := by
  change List.take (epo.evLen - 1) (if _ then _ else _) = _
  by_cases hlast : i + 1 < epo.evLen
  · rw [if_pos hlast]
    exact take_memmove_erase hlen hi
  · rw [if_neg hlast, HpEpoll.live, List.eraseIdx_eq_take_drop_succ, List.take_take,
      List.drop_eq_nil_of_le (by rw [List.length_take]; omega), List.append_nil]
    congr 1
    omega

/-- Removing an fd frees its block and closes the gap. -/
theorem hpEpollRm_known {epo : HpEpoll F L} {max : Nat} {m : OrdMap Int (HpPolld F L)}
    (h : epo.Represents max m) {fd : Int} {i : Nat} (hi : m.index fd = some i) :
    (epo.removeAt i).Represents max (m.erase fd) := by
  obtain ⟨hlt, hkey⟩ := OrdMap.index_some hi
  obtain ⟨hblock, hlive⟩ := h.heap_at hlt
  have hil : i < epo.evLen := by rw [h.size_eq]; exact hlt
  have hle : epo.evLen ≤ epo.ed.length := by rw [h.slots]; exact h.len_le
  have hview : (epo.removeAt i).live = epo.live.eraseIdx i := live_removeAt hle hil
  have hgone : epo.ed.getD i 0 ∉ epo.live.eraseIdx i := by
    obtain ⟨hilt, hip⟩ := List.getElem?_eq_some_iff.mp hlive
    rw [← hip, ← h.nodup.erase_getElem i hilt]
    exact fun hmem => (List.Nodup.mem_erase_iff h.nodup).mp hmem |>.1 rfl
  refine ⟨h.maxEvLen, ?_, ?_, ?_, ?_⟩
  · change List.length (if _ then _ else _) = _
    split_ifs
    · rw [length_memmove (by omega) (by omega)]
      exact h.slots
    · exact h.slots
  · exact Nat.le_trans (Nat.sub_le _ _) h.len_le
  · rw [hview]
    exact h.nodup.sublist (List.eraseIdx_sublist _ _)
  · change (epo.removeAt i).live.map (setHeap epo.heap _ none) = _
    rw [hview, setHeap_map_of_not_mem _ hgone, OrdMap.entries_erase_some hi,
      ← List.eraseIdx_map, ← List.eraseIdx_map, h.blocks]

/-- A block outside the registry can be filled freely. -/
theorem store_fresh {epo : HpEpoll F L} {max : Nat} {m : OrdMap Int (HpPolld F L)}
    (h : epo.Represents max m) {p : Ptr} (hp : p ∉ epo.live) (fd : Int) (cb : HpPolld F L) :
    (epo.store p fd cb).Represents max m := by
  refine ⟨h.maxEvLen, h.slots, h.len_le, h.nodup, ?_⟩
  change epo.live.map (setHeap epo.heap p _) = _
  rw [setHeap_map_of_not_mem _ hp]
  exact h.blocks

/-- All that `hp_epoll_add` can do to the registry, whatever `epoll_ctl` says. -/
theorem hpEpollAdd_cases {ctl : EpollCtl κ} {epo epo' : HpEpoll F L} {max : Nat}
    {m : OrdMap Int (HpPolld F L)} (h : epo.Represents max m) {fd : Int} {events : Nat}
    {cb : HpPolld F L} {hint : Ptr} {k k' : κ} {rc : Int}
    (hrun : hpEpollAdd ctl epo fd events cb hint k = some (rc, epo', k')) :
    epo' = epo ∨ (∃ i, m.index fd = some i ∧ epo' = epo.store (epo.ed.getD i 0) fd cb) ∨
      epo' = epo.store (mallocPtr epo.live hint) fd cb ∨
      (m.index fd = none ∧ epo.evLen < max ∧
        epo' = (epo.store (mallocPtr epo.live hint) fd cb).push (mallocPtr epo.live hint)) := by
  unfold hpEpollAdd at hrun
  rw [findByFd_eq h] at hrun
  split at hrun
  · cases hrun
    exact .inl rfl
  · split at hrun
    · next hi =>
      split at hrun
      · cases hrun
        exact .inl rfl
      · next hroom =>
        dsimp only at hrun
        split at hrun
        · cases hrun
          rw [h.maxEvLen] at hroom
          exact .inr (.inr (.inr ⟨hi, Nat.not_le.mp hroom, rfl⟩))
        · split at hrun
          · cases hrun
            exact .inr (.inr (.inl rfl))
          · cases hrun
    · next i hi =>
      cases hrun
      exact .inr (.inl ⟨i, hi, rfl⟩)

/-- `hp_epoll_add` when `epoll_ctl` succeeds: it fails only for lack of room. -/
theorem hpEpollAdd_spec {ctl : EpollCtl κ} (hctl : ∀ op fd ev k, (ctl op fd ev k).1.ret = 0)
    {epo : HpEpoll F L} {max : Nat} {m : OrdMap Int (HpPolld F L)} (h : epo.Represents max m)
    {fd : Int} (hfd : 0 ≤ fd) (events : Nat) (cb : HpPolld F L) (hint : Ptr) (k : κ) :
    ∃ rc epo' k', hpEpollAdd ctl epo fd events cb hint k = some (rc, epo', k') ∧
      if m.index fd = none ∧ max ≤ m.size then rc = -2 ∧ epo' = epo
      else rc = 0 ∧ epo'.Represents max (m.set fd cb) := by
  have hneg : ¬ fd < 0 := by omega
  cases hi : m.index fd with
  | some i =>
    refine ⟨0, epo.store (epo.ed.getD i 0) fd cb,
      (ctl .mod fd ⟨events, epo.ed.getD i 0⟩ k).2, ?_, ?_⟩
    · simp only [hpEpollAdd, hneg, ↓reduceIte, findByFd_eq h, hi, hctl]
    · rw [if_neg (by simp)]
      exact ⟨rfl, hpEpollAdd_known h hi cb⟩
  | none =>
    by_cases hfull : epo.evLen ≥ epo.maxEvLen
    · refine ⟨-2, epo, k, ?_, ?_⟩
      · simp only [hpEpollAdd, hneg, ↓reduceIte, findByFd_eq h, hi, hfull]
      · rw [if_pos ⟨rfl, by rw [← h.size_eq, ← h.maxEvLen]; exact hfull⟩]
        exact ⟨rfl, rfl⟩
    · have hroom : epo.evLen < max := by rw [← h.maxEvLen]; omega
      let p := mallocPtr epo.live hint
      refine ⟨0, (epo.store p fd cb).push p, (ctl .add fd ⟨events, p⟩ k).2, ?_, ?_⟩
      · simp only [hpEpollAdd, hneg, ↓reduceIte, findByFd_eq h, hi, hfull, hctl]
        rfl
      · rw [if_neg (by rw [← h.size_eq]; omega)]
        exact ⟨rfl, hpEpollAdd_new h hi hroom cb (mallocPtr_fresh _ _)⟩

/-- `hp_epoll_rm`, whatever `epoll_ctl` says. -/
theorem hpEpollRm_spec (ctl : EpollCtl κ) {epo : HpEpoll F L} {max : Nat}
    {m : OrdMap Int (HpPolld F L)} (h : epo.Represents max m) (fd : Int) (k : κ) :
    ((hpEpollRm ctl epo fd k).1 = if m.index fd = none then -2 else 0) ∧
      (hpEpollRm ctl epo fd k).2.1.Represents max (m.erase fd) := by
  cases hi : m.index fd with
  | none =>
    simp only [hpEpollRm, findByFd_eq h, hi, ↓reduceIte, true_and]
    rw [OrdMap.erase_none hi]
    exact h
  | some i =>
    simp only [hpEpollRm, findByFd_eq h, hi, reduceCtorEq, ↓reduceIte, true_and]
    exact hpEpollRm_known h hi

/-- `hp_epoll_find` returns the `arg` of the first match. -/
theorem hpEpollFind_spec {epo : HpEpoll F L} {max : Nat} {m : OrdMap Int (HpPolld F L)}
    (h : epo.Represents max m) (key : Ptr) (onCmp : Option (Ptr → Ptr → Int)) :
    hpEpollFind epo key onCmp =
      (m.findVal fun d => doFind key onCmp d.arg).elim 0 fun d => d.arg := by
  rw [hpEpollFind, h.lfind_eq, OrdMap.findVal, List.find?_eq_bind_findIdx?_getElem?]
  cases hi : m.entries.findIdx? fun e => doFind key onCmp e.2.arg with
  | none => rfl
  | some i =>
    obtain ⟨hlt, -, -⟩ := List.findIdx?_eq_some_iff_getElem.mp hi
    simp only [(h.heap_at hlt).1, Option.elim_some, Option.bind_some,
      List.getElem?_eq_getElem hlt, Option.map_some]

end
end Libhp.Ev
