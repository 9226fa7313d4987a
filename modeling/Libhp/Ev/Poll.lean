import Libhp.Ev.Epoll

/-!
# The poll registry

`hp_poll_add`, `hp_poll_rm` and `hp_poll_find` of `hp_poll.c`. One block holds the
`hp_polld` records and behind them the `pollfd` array that `fds` points to, so
`pd[-i]` is the `i`-th record from the end of the first part.
-/
namespace Libhp.Ev
open Libhp.Io (Ptr)
open Memmove

structure Pollfd where
  fd : Int
  events : Nat
  revents : Nat
  deriving DecidableEq, Repr, Inhabited

structure HpPoll (F L : Type) where
  polld : List (HpPolld F L)
  fds : List Pollfd
  nfds : Nat
  maxFd : Nat
  deriving Repr

section
variable {F L : Type}

def hpPollInit [Inhabited F] [Inhabited L] (maxFd : Int) : HpPoll F L :=
  let maxFd := if maxFd ≤ 0 then 65535 else maxFd.toNat + 1
  { polld := List.replicate maxFd default, fds := List.replicate maxFd default, nfds := 0,
    maxFd := maxFd - 1 }

/-- The slot of `pd[-i]`. -/
def HpPoll.pdSlot (po : HpPoll F L) (i : Nat) : Nat := po.maxFd + 1 - i

def HpPoll.pd (po : HpPoll F L) (i : Nat) : Option (HpPolld F L) := po.polld[po.pdSlot i]?

/-- The index in `fds` at which `lfind` over `fds[1..nfds]` stops. -/
def pollFindByFd (po : HpPoll F L) (fd : Int) : Option Nat :=
  (((po.fds.drop 1).take po.nfds).findIdx? fun pfd => pfd.fd = fd).map (· + 1)

/-- Move the records and the `pollfd`s behind `index` over it. -/
def HpPoll.closeGap (po : HpPoll F L) (index : Nat) : HpPoll F L :=
  if index < po.nfds then
    let pdstart := po.pdSlot po.nfds
    { po with
      polld := memmove po.polld (pdstart + 1) pdstart (po.nfds - index)
      fds := memmove po.fds index (index + 1) (po.nfds - index) }
  else po

def hpPollRmAt (po : HpPoll F L) (index : Nat) : Int × HpPoll F L :=
  if ¬ (1 ≤ index ∧ index ≤ po.nfds) then (-1, po)
  else (0, { po.closeGap index with nfds := po.nfds - 1 })

/-- Fill `fds[index]` and `pd[-index]`. -/
def HpPoll.store (po : HpPoll F L) (index : Nat) (fd : Int) (events : Nat) (cb : HpPolld F L) :
    HpPoll F L :=
  { po with fds := po.fds.set index ⟨fd, events, 0⟩
            polld := po.polld.set (po.pdSlot index) cb }

def hpPollAdd (po : HpPoll F L) (fd : Int) (events : Nat) (cb : HpPolld F L) :
    Int × HpPoll F L :=
  if fd < 0 then (-1, po)
  else
    match pollFindByFd po fd with
    | some index =>
      (0, po.store index fd events cb)
    | none =>
      if po.nfds ≥ po.maxFd then (-2, po)
      else (0, { po.store (po.nfds + 1) fd events cb with nfds := po.nfds + 1 })

def hpPollRm (po : HpPoll F L) (fd : Int) : Int × HpPoll F L :=
  match pollFindByFd po fd with
  | some index => (0, (hpPollRmAt po index).2)
  | none => (-1, po)

def hpPollFind (po : HpPoll F L) (key : Ptr) (cb : Option (Ptr → Ptr → Int)) : Ptr :=
  match ((List.range po.nfds).map (· + 1)).find? fun i =>
      (po.pd i).any fun d => doFind key cb d.arg with
  | some i => (po.pd i).elim 0 fun d => d.arg
  | none => 0

/-- `fds[i + 1]` and `pd[-(i + 1)]` together are the `i`-th entry of `m`. -/
structure HpPoll.Represents (po : HpPoll F L) (max : Nat) (m : OrdMap Int (HpPolld F L)) :
    Prop where
  maxFd : po.maxFd = max
  fds_len : po.fds.length = max + 1
  polld_len : po.polld.length = max + 1
  size_eq : po.nfds = m.size
  len_le : po.nfds ≤ max
  entry : ∀ i, i < po.nfds → po.fds[i + 1]?.map Pollfd.fd = m.entries[i]?.map Prod.fst ∧
    po.pd (i + 1) = m.entries[i]?.map Prod.snd

theorem hpPollInit_rep [Inhabited F] [Inhabited L] (max : Int) :
    (hpPollInit max : HpPoll F L).Represents ((if max ≤ 0 then 65535 else max.toNat + 1) - 1)
      OrdMap.empty := by
  have hpos : 0 < if max ≤ 0 then 65535 else max.toNat + 1 := by split_ifs <;> omega
  constructor
  · rfl
  · simp only [hpPollInit, List.length_replicate]
    omega
  · simp only [hpPollInit, List.length_replicate]
    omega
  · rfl
  · exact Nat.zero_le _
  · intro i hi
    exact absurd hi (Nat.not_lt_zero i)

theorem hpPollInit_represents [Inhabited F] [Inhabited L] {max : Int} (hmax : 0 < max) :
    (hpPollInit max : HpPoll F L).Represents max.toNat OrdMap.empty := by
  have hrep := hpPollInit_rep (F := F) (L := L) max
  rwa [if_neg (Int.not_le.mpr hmax)] at hrep

theorem pollFindByFd_eq {po : HpPoll F L} {max : Nat} {m : OrdMap Int (HpPolld F L)}
    (h : po.Represents max m) (fd : Int) :
    pollFindByFd po fd = (m.index fd).map (· + 1) := by
  have hfds : ((po.fds.drop 1).take po.nfds).map Pollfd.fd = m.entries.map Prod.fst := by
    apply List.ext_getElem?
    intro i
    rw [List.getElem?_map, List.getElem?_map, List.getElem?_take]
    by_cases hi : i < po.nfds
    · rw [if_pos hi, List.getElem?_drop, Nat.add_comm]
      exact (h.entry i hi).1
    · rw [if_neg hi, List.getElem?_eq_none (l := m.entries) (by rw [h.size_eq] at hi; exact Nat.not_lt.mp hi)]
      rfl
  have hmap := congrArg (List.findIdx? fun k => decide (k = fd)) hfds
  rw [List.findIdx?_map, List.findIdx?_map] at hmap
  exact congrArg (Option.map (· + 1)) hmap

section
variable {po : HpPoll F L} {max : Nat} {m : OrdMap Int (HpPolld F L)}

theorem pd_eq {po : HpPoll F L} (hmax : po.maxFd = max) (i : Nat) :
    po.pd i = po.polld[max + 1 - i]? := by
  rw [HpPoll.pd, HpPoll.pdSlot, hmax]

/-- A store at `index` changes that entry only. -/
theorem store_entry (h : po.Represents max m) {index : Nat} (hpos : 0 < index)
    (hle : index ≤ max) (fd : Int) (events : Nat) (cb : HpPolld F L) {i : Nat} (hi : i < max) :
    (po.store index fd events cb).fds[i + 1]?.map Pollfd.fd =
        (if i + 1 = index then some fd else po.fds[i + 1]?.map Pollfd.fd) ∧
      (po.store index fd events cb).pd (i + 1) =
        (if i + 1 = index then some cb else po.pd (i + 1)) := by
  constructor
  · simp only [HpPoll.store, List.getElem?_set]
    by_cases he : i + 1 = index
    · subst he
      simp only [↓reduceIte, h.fds_len, Nat.add_lt_add_right hi 1, Option.map_some]
    · simp only [he, Ne.symm he, ↓reduceIte]
  · have hmax : (po.store index fd events cb).maxFd = max := h.maxFd
    rw [pd_eq hmax, pd_eq h.maxFd]
    simp only [HpPoll.store, HpPoll.pdSlot, h.maxFd, List.getElem?_set]
    by_cases he : i + 1 = index
    · subst he
      simp only [↓reduceIte, h.polld_len, show max + 1 - (i + 1) < max + 1 by omega]
    · simp only [he, show ¬ max + 1 - index = max + 1 - (i + 1) by omega, ↓reduceIte]

/-- Behind the gap each entry is the next one of before; `pd[-i]` moves with `fds[i]`. -/
theorem closeGap_entry (h : po.Represents max m) {i j : Nat} (hi : i < po.nfds)
    (hj : j < po.nfds - 1) :
    (po.closeGap (i + 1)).fds[j + 1]? = (if j < i then po.fds[j + 1]? else po.fds[j + 2]?) ∧
      (po.closeGap (i + 1)).pd (j + 1) = (if j < i then po.pd (j + 1) else po.pd (j + 2)) := by
  have hle := h.len_le
  have hfl := h.fds_len
  have hpl := h.polld_len
  by_cases hlast : i + 1 < po.nfds
  · have hmax : (po.closeGap (i + 1)).maxFd = max := by
      simp only [HpPoll.closeGap, hlast, ↓reduceIte, h.maxFd]
    rw [pd_eq hmax, pd_eq h.maxFd, pd_eq h.maxFd]
    simp only [HpPoll.closeGap, HpPoll.pdSlot, h.maxFd, hlast, ↓reduceIte]
    rw [getElem?_memmove (by omega) (by omega), getElem?_memmove (by omega) (by omega)]
    by_cases hji : j < i
    · simp only [hji, ↓reduceIte]
      exact ⟨if_neg (by omega), if_neg (by omega)⟩
    · simp only [hji, ↓reduceIte]
      rw [if_pos (by omega), if_pos (by omega)]
      constructor
      · congr 1
        omega
      · congr 1
        omega
  · simp only [HpPoll.closeGap, hlast, ↓reduceIte, show j < i by omega, and_self]

theorem closeGap_len (h : po.Represents max m) (i : Nat) :
    (po.closeGap (i + 1)).maxFd = max ∧ (po.closeGap (i + 1)).fds.length = max + 1 ∧
      (po.closeGap (i + 1)).polld.length = max + 1 := by
  have hle := h.len_le
  have hfl := h.fds_len
  have hpl := h.polld_len
  unfold HpPoll.closeGap
  split_ifs with hlast
  · simp only [HpPoll.pdSlot, h.maxFd, true_and]
    rw [length_memmove (by omega) (by omega), length_memmove (by omega) (by omega)]
    exact ⟨hfl, hpl⟩
  · exact ⟨h.maxFd, hfl, hpl⟩

theorem hpPollAdd_known (h : po.Represents max m) {fd : Int} {i : Nat}
    (hi : m.index fd = some i) (events : Nat) (cb : HpPolld F L) :
    (po.store (i + 1) fd events cb).Represents max (m.set fd cb) := by
  obtain ⟨hlt, hkey⟩ := OrdMap.index_some hi
  have hin : i < po.nfds := by rw [h.size_eq]; exact hlt
  have hmax := h.len_le
  refine ⟨h.maxFd, ?_, ?_, ?_, h.len_le, ?_⟩
  · exact (List.length_set ..).trans h.fds_len
  · exact (List.length_set ..).trans h.polld_len
  · rw [OrdMap.size, OrdMap.entries_set_some hi, List.length_set]
    exact h.size_eq
  · intro j hj
    change j < po.nfds at hj
    obtain ⟨hfd, hpd⟩ := store_entry h (Nat.succ_pos i) (by omega) fd events cb
      (show j < max by omega)
    rw [hfd, hpd, OrdMap.entries_set_some hi]
    by_cases hij : i = j
    · subst hij
      rw [if_pos rfl, if_pos rfl, List.getElem?_set_self hlt]
      exact ⟨rfl, rfl⟩
    · rw [if_neg (by omega), if_neg (by omega), List.getElem?_set_ne hij]
      exact h.entry j hj

theorem hpPollAdd_new (h : po.Represents max m) {fd : Int} (hi : m.index fd = none)
    (hroom : po.nfds < max) (events : Nat) (cb : HpPolld F L) :
    HpPoll.Represents { po.store (po.nfds + 1) fd events cb with nfds := po.nfds + 1 } max
      (m.set fd cb) := by
  refine ⟨h.maxFd, ?_, ?_, ?_, hroom, ?_⟩
  · exact (List.length_set ..).trans h.fds_len
  · exact (List.length_set ..).trans h.polld_len
  · rw [OrdMap.size, OrdMap.entries_set_none hi, List.length_append]
    exact congrArg (· + 1) h.size_eq
  · intro j hj
    change j < po.nfds + 1 at hj
    obtain ⟨hfd, hpd⟩ := store_entry h (Nat.succ_pos po.nfds) hroom fd events cb
      (show j < max by omega)
    change (po.store (po.nfds + 1) fd events cb).fds[j + 1]?.map Pollfd.fd = _ ∧
      (po.store (po.nfds + 1) fd events cb).pd (j + 1) = _
    have hsize : po.nfds = m.entries.length := h.size_eq
    rw [hfd, hpd, OrdMap.entries_set_none hi]
    by_cases hlast : j = po.nfds
    · subst hlast
      rw [if_pos rfl, if_pos rfl, hsize, List.getElem?_concat_length]
      exact ⟨rfl, rfl⟩
    · rw [if_neg (by omega), if_neg (by omega), List.getElem?_append_left (by omega)]
      exact h.entry j (by omega)

theorem hpPollRmAt_known (h : po.Represents max m) {fd : Int} {i : Nat}
    (hi : m.index fd = some i) : (hpPollRmAt po (i + 1)).2.Represents max (m.erase fd) := by
  obtain ⟨hlt, hkey⟩ := OrdMap.index_some hi
  have hin : i < po.nfds := by rw [h.size_eq]; exact hlt
  obtain ⟨hmax, hfds, hpolld⟩ := closeGap_len h i
  have hrm : hpPollRmAt po (i + 1) = (0, { po.closeGap (i + 1) with nfds := po.nfds - 1 }) := by
    rw [hpPollRmAt, if_neg (by omega)]
  rw [hrm]
  refine ⟨hmax, hfds, hpolld, ?_, Nat.le_trans (Nat.sub_le _ _) h.len_le, ?_⟩
  · rw [OrdMap.size, OrdMap.entries_erase_some hi, List.length_eraseIdx_of_lt hlt]
    exact congrArg (· - 1) h.size_eq
  · intro j hj
    change j < po.nfds - 1 at hj
    obtain ⟨hfd, hpd⟩ := closeGap_entry h hin hj
    change (po.closeGap (i + 1)).fds[j + 1]?.map Pollfd.fd = _ ∧
      (po.closeGap (i + 1)).pd (j + 1) = _
    rw [hfd, hpd, OrdMap.entries_erase_some hi, List.getElem?_eraseIdx]
    by_cases hji : j < i
    · rw [if_pos hji, if_pos hji, if_pos hji]
      exact h.entry j (by omega)
    · rw [if_neg hji, if_neg hji, if_neg hji]
      exact h.entry (j + 1) (by omega)

/-- `hp_poll_add` fails only for lack of room. -/
theorem hpPollAdd_spec (h : po.Represents max m) {fd : Int} (hfd : 0 ≤ fd) (events : Nat)
    (cb : HpPolld F L) :
    if m.index fd = none ∧ max ≤ m.size then hpPollAdd po fd events cb = (-2, po)
    else (hpPollAdd po fd events cb).1 = 0 ∧
      (hpPollAdd po fd events cb).2.Represents max (m.set fd cb) := by
  have hneg : ¬ fd < 0 := by omega
  have hmax := h.maxFd
  have hsize := h.size_eq
  cases hi : m.index fd with
  | some i =>
    rw [if_neg (by simp)]
    simp only [hpPollAdd, hneg, ↓reduceIte, pollFindByFd_eq h, hi, Option.map_some, true_and]
    exact hpPollAdd_known h hi events cb
  | none =>
    by_cases hfull : po.nfds ≥ po.maxFd
    · rw [if_pos ⟨rfl, by omega⟩]
      simp only [hpPollAdd, hneg, ↓reduceIte, pollFindByFd_eq h, hi, Option.map_none, hfull]
    · rw [if_neg (by omega)]
      simp only [hpPollAdd, hneg, ↓reduceIte, pollFindByFd_eq h, hi, Option.map_none, hfull,
        true_and]
      exact hpPollAdd_new h hi (by omega) events cb

theorem hpPollRm_spec (h : po.Represents max m) (fd : Int) :
    ((hpPollRm po fd).1 = if m.index fd = none then -1 else 0) ∧
      (hpPollRm po fd).2.Represents max (m.erase fd) := by
  cases hi : m.index fd with
  | none =>
    simp only [hpPollRm, pollFindByFd_eq h, hi, Option.map_none, ↓reduceIte, true_and]
    rw [OrdMap.erase_none hi]
    exact h
  | some i =>
    simp only [hpPollRm, pollFindByFd_eq h, hi, Option.map_some, reduceCtorEq, ↓reduceIte,
      true_and]
    exact hpPollRmAt_known h hi

/-- `hp_poll_find` returns the `arg` of the first match. -/
theorem hpPollFind_spec (h : po.Represents max m) (key : Ptr)
    (cb : Option (Ptr → Ptr → Int)) :
    hpPollFind po key cb = (m.findVal fun d => doFind key cb d.arg).elim 0 fun d => d.arg := by
  have hpds : ((List.range po.nfds).map (· + 1)).map po.pd = m.entries.map fun e => some e.2 := by
    apply List.ext_getElem?
    intro i
    rw [List.getElem?_map, List.getElem?_map, List.getElem?_map]
    by_cases hi : i < po.nfds
    · rw [List.getElem?_range hi]
      have hlt : i < m.entries.length := by rw [h.size_eq] at hi; exact hi
      have hpd := (h.entry i hi).2
      rw [List.getElem?_eq_getElem hlt] at hpd ⊢
      exact congrArg some hpd
    · have hge : m.entries.length ≤ i := by rw [h.size_eq] at hi; exact Nat.not_lt.mp hi
      rw [List.getElem?_eq_none (by rwa [List.length_range, ← Nat.not_lt]),
        List.getElem?_eq_none hge]
      rfl
  have hmap := congrArg (List.find? fun d => d.any fun d => doFind key cb d.arg) hpds
  rw [List.find?_map (f := po.pd), List.find?_map (l := m.entries)] at hmap
  rw [hpPollFind, OrdMap.findVal]
  change Option.map po.pd (List.find? (fun i => (po.pd i).any fun d => doFind key cb d.arg) _) =
    Option.map _ (List.find? (fun e => doFind key cb e.2.arg) m.entries) at hmap
  cases hf : List.find? (fun i => (po.pd i).any fun d => doFind key cb d.arg)
      ((List.range po.nfds).map (· + 1)) with
  | none =>
    rw [hf, Option.map_none, eq_comm, Option.map_eq_none_iff] at hmap
    rw [hmap]
    rfl
  | some i =>
    rw [hf, Option.map_some, eq_comm, Option.map_eq_some_iff] at hmap
    obtain ⟨e, he, hpd⟩ := hmap
    rw [he]
    change (po.pd i).elim 0 _ = _
    rw [← hpd]
    rfl

end

end
end Libhp.Ev
