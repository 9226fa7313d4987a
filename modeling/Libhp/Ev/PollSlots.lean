import Libhp.Ev.Lifetime
import Libhp.Ev.PollLive
import Libhp.Io.Fresh

/-!
# Slots of the poll registry

A slot is a `pollfd` with its `hp_polld`. Adding and removing move slots down and fill new
ones that are not ready; a slot that survives is not changed. So whatever a callback does, a
connection that is still there afterwards is ready if and only if it was.
-/
namespace Libhp.Ev
open Libhp.Io

section
variable {F L : Type}

/-- `fds[i + 1]` and `pd[-(i + 1)]`, in use. -/
structure HpPoll.At (po : HpPoll F L) (i : Nat) (pfd : Pollfd) (d : HpPolld F L) : Prop where
  lt : i < po.nfds
  fds : po.fds[i + 1]? = some pfd
  pd : po.pd (i + 1) = some d

/-- The connections that `poll` reported ready and that have not been dealt with. -/
def HpPoll.readyArgs (po : HpPoll F L) : List Ptr :=
  ((List.range po.nfds).filter fun i => po.revents (i + 1) ≠ 0).filterMap fun i =>
    (po.pd (i + 1)).map fun d => d.arg

/-- The slot of a connection, counted from 0. -/
def HpPoll.slot (po : HpPoll F L) (q : Ptr) : Nat :=
  ((List.range po.nfds).find? fun i => ((po.pd (i + 1)).map fun d => d.arg) = some q).getD 0

/-- A later registry: what was not there at the address `n₀` and `po₀` is new and not ready. -/
structure Since (n₀ : Ptr) (po₀ : HpPoll F L) (n : Ptr) (po : HpPoll F L) : Prop where
  le : n₀ ≤ n
  origin : ∀ i pfd d, po.At i pfd d →
    (∃ j, i ≤ j ∧ po₀.At j pfd d) ∨ (n₀ ≤ d.arg ∧ pfd.revents = 0)

variable {po po' po₀ : HpPoll F L} {max n n₀ i j : Nat} {m : OrdMap Int (HpPolld F L)}
  {pfd pfd' : Pollfd} {d d' : HpPolld F L}

namespace HpPoll.At

theorem unique (h : po.At i pfd d) (h' : po.At i pfd' d') : pfd' = pfd ∧ d' = d :=
  ⟨Option.some.inj (h'.fds.symm.trans h.fds), Option.some.inj (h'.pd.symm.trans h.pd)⟩

theorem live (h : po.At i pfd d) : po.live[i]? = some pfd := by
  rw [getElem?_live po h.lt, h.fds]

theorem entry (h : po.At i pfd d) (hrep : po.Represents max m) : (pfd.fd, d) ∈ m.entries := by
  obtain ⟨hfd, hpd⟩ := hrep.entry i h.lt
  rw [h.fds, Option.map_some] at hfd
  rw [h.pd] at hpd
  obtain ⟨e, he, hkey⟩ := Option.map_eq_some_iff.mp hfd.symm
  rw [he, Option.map_some] at hpd
  have heq : e = (pfd.fd, d) := Prod.ext hkey (Option.some.inj hpd).symm
  exact heq ▸ List.mem_of_getElem? he

/-- No two slots have one fd. -/
theorem eq_of_fd (h : po.At i pfd d) (h' : po.At j pfd' d') (hrep : po.Represents max m)
    (hfd : pfd.fd = pfd'.fd) : i = j := by
  have hi := h.live
  have hj := h'.live
  have hlt : i < (po.live.map Pollfd.fd).length := by
    rw [List.length_map, length_live hrep]
    exact h.lt
  apply (List.getElem?_inj hlt (live_nodup hrep)).mp
  rw [List.getElem?_map, List.getElem?_map, hi, hj]
  exact congrArg some hfd

end HpPoll.At

theorem exists_at (hrep : po.Represents max m) (hi : i < po.nfds) : ∃ pfd d, po.At i pfd d := by
  have hlen : i + 1 < po.fds.length := by
    have hle := hrep.len_le
    rw [hrep.fds_len]
    omega
  have hentry : i < m.entries.length := by
    rw [← show po.nfds = m.entries.length from hrep.size_eq]
    exact hi
  have hpd := (hrep.entry i hi).2
  rw [List.getElem?_eq_getElem hentry] at hpd
  exact ⟨_, _, hi, List.getElem?_eq_getElem hlen, hpd⟩

theorem mem_args (hrep : po.Represents max m) {q : Ptr} :
    q ∈ po.args ↔ ∃ i pfd d, po.At i pfd d ∧ d.arg = q := by
  rw [HpPoll.args, List.mem_filterMap]
  constructor
  · intro ⟨i, hi, hmap⟩
    obtain ⟨pfd, d, hat⟩ := exists_at hrep (List.mem_range.mp hi)
    rw [hat.pd] at hmap
    exact ⟨i, pfd, d, hat, Option.some.inj hmap⟩
  · rintro ⟨i, pfd, d, hat, rfl⟩
    refine ⟨i, List.mem_range.mpr hat.lt, ?_⟩
    rw [hat.pd]
    rfl

theorem mem_readyArgs (hrep : po.Represents max m) {q : Ptr} :
    q ∈ po.readyArgs ↔ ∃ i pfd d, po.At i pfd d ∧ d.arg = q ∧ pfd.revents ≠ 0 := by
  rw [HpPoll.readyArgs, List.mem_filterMap]
  constructor
  · intro ⟨i, hi, hmap⟩
    obtain ⟨hlt, hready⟩ := List.mem_filter.mp hi
    obtain ⟨pfd, d, hat⟩ := exists_at hrep (List.mem_range.mp hlt)
    rw [hat.pd] at hmap
    rw [decide_eq_true_eq, HpPoll.revents, hat.fds] at hready
    exact ⟨i, pfd, d, hat, Option.some.inj hmap, hready⟩
  · rintro ⟨i, pfd, d, hat, rfl, hready⟩
    refine ⟨i, List.mem_filter.mpr ⟨List.mem_range.mpr hat.lt, ?_⟩, ?_⟩
    · rw [decide_eq_true_eq, HpPoll.revents, hat.fds]
      exact hready
    · rw [hat.pd]
      rfl

theorem at_setRevents {k events : Nat} (h : (po.setRevents (k + 1) events).At i pfd d) :
    ∃ pfd₀, po.At i pfd₀ d ∧ pfd = if i = k then { pfd₀ with revents := events } else pfd₀ := by
  have hfds := h.fds
  rw [HpPoll.setRevents, List.getElem?_modify] at hfds
  obtain ⟨pfd₀, hpfd, heq⟩ := Option.map_eq_some_iff.mp hfds
  refine ⟨pfd₀, ⟨h.lt, hpfd, h.pd⟩, ?_⟩
  rw [← heq]
  simp only [Nat.add_right_cancel_iff, eq_comm]

theorem at_setRevents_of_ne {k events : Nat} (h : po.At i pfd d) (hi : i ≠ k) :
    (po.setRevents (k + 1) events).At i pfd d := by
  refine ⟨h.lt, ?_, h.pd⟩
  rw [HpPoll.setRevents, List.getElem?_modify, h.fds]
  simp only [Nat.add_right_cancel_iff, Ne.symm hi, ↓reduceIte]
  rfl

/-- A removal moves slots down. -/
theorem at_rm (hrep : po.Represents max m) {fd : Int} (h : (hpPollRm po fd).2.At i pfd d) :
    ∃ j, i ≤ j ∧ po.At j pfd d := by
  revert h
  unfold hpPollRm
  rw [pollFindByFd_eq hrep]
  cases hi : m.index fd with
  | none => exact fun h => ⟨i, Nat.le_refl i, h⟩
  | some k =>
    obtain ⟨hlt, -⟩ := OrdMap.index_some hi
    have hk : k < po.nfds := by
      rw [show po.nfds = m.entries.length from hrep.size_eq]
      exact hlt
    have hrm : (hpPollRmAt po (k + 1)).2 = { po.closeGap (k + 1) with nfds := po.nfds - 1 } := by
      rw [hpPollRmAt, if_neg (by omega)]
    simp only [Option.map_some, hrm]
    intro h
    have hil : i < po.nfds - 1 := h.lt
    obtain ⟨hfds, hpd⟩ := closeGap_entry hrep hk hil
    have hfds' := hfds.symm.trans h.fds
    have hpd' := hpd.symm.trans h.pd
    by_cases hik : i < k
    · rw [if_pos hik] at hfds' hpd'
      exact ⟨i, Nat.le_refl i, by omega, hfds', hpd'⟩
    · rw [if_neg hik] at hfds' hpd'
      exact ⟨i + 1, Nat.le_succ i, by omega, hfds', hpd'⟩

theorem at_store {k : Nat} {fd : Int} {events : Nat} {cb : HpPolld F L}
    (hrep : po.Represents max m) (hk : k + 1 ≤ max) (hi : i < max)
    (hfds : (po.store (k + 1) fd events cb).fds[i + 1]? = some pfd)
    (hpd : (po.store (k + 1) fd events cb).pd (i + 1) = some d) :
    (i ≠ k ∧ po.fds[i + 1]? = some pfd ∧ po.pd (i + 1) = some d) ∨ (pfd.revents = 0 ∧ d = cb) := by
  obtain ⟨-, hpd'⟩ := store_entry hrep (Nat.succ_pos k) hk fd events cb hi
  rw [hpd'] at hpd
  rw [HpPoll.store, List.getElem?_set] at hfds
  by_cases hik : i = k
  · subst hik
    rw [if_pos rfl, if_pos (by rw [hrep.fds_len]; omega)] at hfds
    rw [if_pos rfl] at hpd
    cases hfds
    cases hpd
    exact .inr ⟨rfl, rfl⟩
  · rw [if_neg (by omega)] at hfds hpd
    exact .inl ⟨hik, hfds, hpd⟩

/-- An addition keeps a slot or fills it anew, not ready. -/
theorem at_add (hrep : po.Represents max m) {fd : Int} {events : Nat} {cb : HpPolld F L}
    (h : (hpPollAdd po fd events cb).2.At i pfd d) :
    po.At i pfd d ∨ (pfd.revents = 0 ∧ d = cb) := by
  revert h
  have hle := hrep.len_le
  unfold hpPollAdd
  split
  · exact .inl
  · rw [pollFindByFd_eq hrep]
    cases hi : m.index fd with
    | some k =>
      obtain ⟨hlt, -⟩ := OrdMap.index_some hi
      have hk : k < po.nfds := by
        rw [show po.nfds = m.entries.length from hrep.size_eq]
        exact hlt
      intro h
      have hil : i < po.nfds := h.lt
      apply (at_store hrep (by omega) (by omega) h.fds h.pd).imp_left
      intro ⟨_, hfds, hpd⟩
      exact ⟨hil, hfds, hpd⟩
    | none =>
      simp only [Option.map_none]
      split
      · exact .inl
      · next hroom =>
        rw [hrep.maxFd, Nat.not_le] at hroom
        intro h
        have hil : i < po.nfds + 1 := h.lt
        apply (at_store hrep hroom (by omega) h.fds h.pd).imp_left
        intro ⟨hne, hfds, hpd⟩
        exact ⟨by omega, hfds, hpd⟩

namespace Since

theorem refl (n : Ptr) (po : HpPoll F L) : Since n po n po :=
  ⟨Nat.le_refl n, fun i _ _ h => .inl ⟨i, Nat.le_refl i, h⟩⟩

theorem rm (h : Since n₀ po₀ n po) (hrep : po.Represents max m) (fd : Int) :
    Since n₀ po₀ n (hpPollRm po fd).2 := by
  refine ⟨h.le, ?_⟩
  intro i pfd d hat
  obtain ⟨j, hij, hold⟩ := at_rm hrep hat
  apply (h.origin j pfd d hold).imp_left
  intro ⟨k, hjk, hk⟩
  exact ⟨k, Nat.le_trans hij hjk, hk⟩

theorem add (h : Since n₀ po₀ n po) (hrep : po.Represents max m) (fd : Int) (events : Nat)
    {cb : HpPolld F L} (hcb : cb.arg = n) : Since n₀ po₀ (n + 1) (hpPollAdd po fd events cb).2 := by
  refine ⟨Nat.le_succ_of_le h.le, ?_⟩
  intro i pfd d hat
  rcases at_add hrep hat with hold | ⟨hquiet, rfl⟩
  · exact h.origin i pfd d hold
  · exact .inr ⟨hcb ▸ h.le, hquiet⟩

end Since

end

/-- The registry since a given moment. -/
def sinceLaws (n₀ : Ptr) (po₀ : HpPoll IoFn Bool) : RegLaws pollOps.fresh where
  Rep n po m := (∃ max, po.Represents max m) ∧ Since n₀ po₀ n po
  mono h := ⟨h.1, Nat.le_succ_of_le h.2.le, h.2.origin⟩
  add := by
    rintro n po m c fd events cb rc po' ⟨⟨max, hrep⟩, hsince⟩ hrun
    simp only [RegOps.fresh] at hrun
    split at hrun
    · next harg =>
      obtain ⟨m', hrep', hsub⟩ := pollLaws.add ⟨max, hrep⟩ hrun
      have hpo : (hpPollAdd po fd events cb).2 = po' := congrArg Prod.snd (Option.some.inj hrun)
      exact ⟨m', ⟨hrep', hpo ▸ hsince.add hrep fd events harg⟩, hsub⟩
    · cases hrun
  rm := by
    rintro n po m c fd ⟨⟨max, hrep⟩, hsince⟩
    exact ⟨pollLaws.rm (n := n) c fd ⟨max, hrep⟩, hsince.rm hrep fd⟩

section
variable {env : IoEnv} {m : OrdMap Int (HpPolld IoFn Bool)} {w w' : IoWorld (HpPoll IoFn Bool)}
  {p q : Ptr}

theorem toSince (h : WInv pollLaws w m) : WInv (sinceLaws w.next w.reg) w m :=
  ⟨⟨h.rep, Since.refl _ _⟩, h.entry, h.known, h.deleted⟩

theorem ofSince {n₀ : Ptr} {po₀ : HpPoll IoFn Bool} (h : WInv (sinceLaws n₀ po₀) w m) :
    WInv pollLaws w m ∧ Since n₀ po₀ w.next w.reg :=
  ⟨⟨h.rep.1, h.entry, h.known, h.deleted⟩, h.rep.2⟩

theorem ioCbPoll_since {revents : HpPoll IoFn Bool → Nat} (h : WInv pollLaws w m)
    (hp : w.ios p ≠ none) (hrun : ioCbPoll pollOps env p revents w = some w') :
    (∃ m', WInv pollLaws w' m') ∧ Since w.next w.reg w'.next w'.reg := by
  rw [← ioCbPoll_fresh] at hrun
  obtain ⟨seg, hmove, -⟩ := ioCbPoll_spec (toSince h) hp hrun
  obtain ⟨m', h'⟩ := hmove.inv
  exact ⟨⟨m', (ofSince h').1⟩, (ofSince h').2⟩

theorem onAccept_since (env : IoEnv) (h : WInv pollLaws w m) (p : Ptr) :
    (∃ m', WInv pollLaws (onAccept pollOps env p w) m') ∧
      Since w.next w.reg (onAccept pollOps env p w).next (onAccept pollOps env p w).reg := by
  rw [← onAccept_fresh]
  obtain ⟨seg, hmove, -⟩ :
      ∃ seg, Moves (sinceLaws w.next w.reg) p w seg (onAccept pollOps.fresh env p w) ∧ Calm p seg :=
    onAccept_spec (toSince h) p
  obtain ⟨m', h'⟩ := hmove.inv
  exact ⟨⟨m', (ofSince h').1⟩, (ofSince h').2⟩

variable {po₀ : HpPoll IoFn Bool} {i j : Nat} {pfd pfd' : Pollfd} {d d' : HpPolld IoFn Bool}

theorem arg_lt (h : WInv pollLaws w m) (hat : w.reg.At i pfd d) : d.arg < w.next := by
  obtain ⟨max, hrep⟩ := h.rep
  obtain ⟨io, hio, -, -⟩ := h.entry _ (hat.entry hrep)
  apply h.known
  rw [hio]
  exact Option.some_ne_none io

/-- A connection has one slot. -/
theorem slot_unique (h : WInv pollLaws w m) (hat : w.reg.At i pfd d) (hat' : w.reg.At j pfd' d')
    (harg : d.arg = d'.arg) : i = j := by
  obtain ⟨max, hrep⟩ := h.rep
  obtain ⟨io, hio, hfd, -⟩ := h.entry _ (hat.entry hrep)
  obtain ⟨io', hio', hfd', -⟩ := h.entry _ (hat'.entry hrep)
  apply hat.eq_of_fd hat' hrep
  have hsame : some io = some io' := by
    rw [← hio, ← hio']
    exact congrArg w.ios harg
  cases hsame
  exact hfd.symm.trans hfd'

theorem slot_eq (h : WInv pollLaws w m) (hat : w.reg.At i pfd d) : w.reg.slot d.arg = i := by
  have hpd := hat.pd
  have hfind : ((List.range w.reg.nfds).find? fun j =>
      ((w.reg.pd (j + 1)).map fun d => d.arg) = some d.arg) = some i := by
    apply List.find?_range_eq_some.mpr
    refine ⟨?_, List.mem_range.mpr hat.lt, ?_⟩
    · rw [hpd]
      exact decide_eq_true rfl
    · intro j hj
      obtain ⟨max, hrep⟩ := h.rep
      obtain ⟨pfd', d', hat'⟩ := exists_at hrep (Nat.lt_trans hj hat.lt)
      rw [hat'.pd]
      simp only [Option.map_some, Option.some.injEq, Bool.not_eq_true', decide_eq_false_iff_not]
      exact fun harg => hj.ne (slot_unique h hat' hat harg)
  rw [HpPoll.slot, hfind, Option.getD_some]

/-- A connection that was there and still is has kept its `pollfd`. -/
theorem same_slot (h : WInv pollLaws w m) (hsince : Since w.next w.reg w'.next w'.reg)
    (hat : w.reg.At i pfd d) (hat' : w'.reg.At j pfd' d') (harg : d'.arg = d.arg) :
    pfd' = pfd ∧ j ≤ i := by
  rcases hsince.origin j pfd' d' hat' with ⟨k, hjk, hk⟩ | ⟨hnew, -⟩
  · have hik := slot_unique h hat hk harg.symm
    subst hik
    exact ⟨(hat.unique hk).1, hjk⟩
  · exact absurd (harg ▸ hnew) (Nat.not_le.mpr (arg_lt h hat))

end
end Libhp.Ev
