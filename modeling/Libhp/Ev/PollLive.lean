import Libhp.Ev.Callback
import Libhp.Ev.PollRun

/-!
# The pollfds in use

`fds[1..nfds]` as a list, and what the operations of `hp_poll.c` do to it: a removal takes one
`pollfd` out, a store to `revents` changes one, and `get_next_to_run` finds the first that is
ready.
-/
namespace Libhp.Ev
open Libhp.Io (Ptr)

section
variable {F L : Type}

/-- `fds[1..nfds]`. -/
def HpPoll.live (po : HpPoll F L) : List Pollfd := (po.fds.drop 1).take po.nfds

def Pollfd.ready (pfd : Pollfd) : Bool := pfd.revents ≠ 0

/-- The fds of a list of `pollfd`s that are ready. -/
def readyFds (pfds : List Pollfd) : List Int := (pfds.filter Pollfd.ready).map Pollfd.fd

variable {po : HpPoll F L} {max : Nat} {m : OrdMap Int (HpPolld F L)}

theorem getElem?_live (po : HpPoll F L) {i : Nat} (hi : i < po.nfds) :
    po.live[i]? = po.fds[i + 1]? := by
  rw [HpPoll.live, List.getElem?_take_of_lt hi, List.getElem?_drop, Nat.add_comm]

theorem length_live (h : po.Represents max m) : po.live.length = po.nfds := by
  have hle := h.len_le
  rw [HpPoll.live, List.length_take, List.length_drop, h.fds_len]
  omega

theorem live_keys (h : po.Represents max m) : po.live.map Pollfd.fd = m.keys := h.regFds_eq

theorem live_nodup (h : po.Represents max m) : (po.live.map Pollfd.fd).Nodup := by
  rw [live_keys h]
  exact m.nodup

theorem readyFds_nodup (h : po.Represents max m) : (readyFds po.live).Nodup :=
  (live_nodup h).sublist (List.filter_sublist.map Pollfd.fd)

/-- Searching an fd is searching the list. -/
theorem pollFindByFd_live (po : HpPoll F L) (fd : Int) :
    pollFindByFd po fd = (po.live.findIdx? fun pfd => pfd.fd = fd).map (· + 1) := rfl

/-- The scan stops at the first `pollfd` that is ready. -/
theorem getNextToRun_live (h : po.Represents max m) {nfds : Nat} (hn : po.nfds ≤ nfds) :
    getNextToRun po (min nfds po.nfds) = (po.live.findIdx? Pollfd.ready).map (· + 1) := by
  have hrange : (List.range po.nfds).map (fun i => po.revents (i + 1)) =
      po.live.map Pollfd.revents := by
    apply List.ext_getElem?
    intro i
    rw [List.getElem?_map, List.getElem?_map]
    by_cases hi : i < po.nfds
    · have hlt : i + 1 < po.fds.length := by
        have hle := h.len_le
        rw [h.fds_len]
        omega
      rw [List.getElem?_range hi, getElem?_live po hi, List.getElem?_eq_getElem hlt]
      simp only [Option.map_some, HpPoll.revents, List.getElem?_eq_getElem hlt, Option.elim_some]
    · rw [List.getElem?_eq_none (by rwa [List.length_range, ← Nat.not_lt]),
        List.getElem?_eq_none (by rwa [length_live h, ← Nat.not_lt])]
      rfl
  have hidx := congrArg (List.findIdx? fun r => decide (r ≠ 0)) hrange
  rw [List.findIdx?_map, List.findIdx?_map] at hidx
  have hfind : (List.range po.nfds).find? (fun i => decide (po.revents (i + 1) ≠ 0)) =
      (List.range po.nfds).findIdx? fun i => decide (po.revents (i + 1) ≠ 0) := by
    rw [List.find?_eq_bind_findIdx?_getElem?]
    cases hf : (List.range po.nfds).findIdx? fun i => decide (po.revents (i + 1) ≠ 0) with
    | none => rfl
    | some i =>
      obtain ⟨hlt, -⟩ := List.findIdx?_eq_some_iff_getElem.mp hf
      rw [List.length_range] at hlt
      rw [Option.bind_some, List.getElem?_range hlt]
  rw [getNextToRun, Nat.min_eq_right hn, List.find?_map]
  exact congrArg (Option.map (· + 1)) (hfind.trans hidx)

/-- With keys that differ, erasing the first match is filtering. -/
theorem eraseP_eq_filter {α κ : Type} [DecidableEq κ] (key : α → κ) (k : κ) {l : List α}
    (h : (l.map key).Nodup) : l.eraseP (fun x => key x = k) = l.filter fun x => key x ≠ k := by
  induction l with
  | nil => rfl
  | cons x l ih =>
    rw [List.map_cons, List.nodup_cons] at h
    by_cases hx : key x = k
    · have hall : l.filter (fun x => key x ≠ k) = l := by
        rw [List.filter_eq_self]
        intro y hy
        have hne : key y ≠ k := fun he => h.1 (hx ▸ he ▸ List.mem_map_of_mem hy)
        simpa using hne
      rw [List.eraseP_cons_of_pos (by simpa using hx), List.filter_cons_of_neg (by simpa using hx),
        hall]
    · rw [List.eraseP_cons_of_neg (by simpa using hx), List.filter_cons_of_pos (by simpa using hx),
        ih h.2]

/-- Closing a gap takes one `pollfd` out. -/
theorem live_rmAt (h : po.Represents max m) {i : Nat} (hi : i < po.nfds) :
    (hpPollRmAt po (i + 1)).2.live = po.live.eraseIdx i := by
  have hrm : hpPollRmAt po (i + 1) = (0, { po.closeGap (i + 1) with nfds := po.nfds - 1 }) := by
    rw [hpPollRmAt, if_neg (by omega)]
  rw [hrm]
  apply List.ext_getElem?
  intro j
  rw [List.getElem?_eraseIdx]
  by_cases hj : j < po.nfds - 1
  · have hat := (closeGap_entry h hi hj).1
    rw [getElem?_live _ hj, getElem?_live po (by omega), getElem?_live po (by omega)]
    exact hat
  · have hlen : List.length (HpPoll.live { po.closeGap (i + 1) with nfds := po.nfds - 1 }) ≤ j := by
      rw [HpPoll.live, List.length_take]
      show min (po.nfds - 1) _ ≤ j
      omega
    have hold := length_live h
    rw [List.getElem?_eq_none hlen]
    split
    · omega
    · rw [List.getElem?_eq_none (by omega)]

/-- A removal takes out the `pollfd` of the fd, if there is one. -/
theorem live_rm (h : po.Represents max m) (fd : Int) :
    (hpPollRm po fd).2.live = po.live.filter fun pfd => pfd.fd ≠ fd := by
  rw [← eraseP_eq_filter Pollfd.fd fd (live_nodup h), List.eraseP_eq_eraseIdx]
  unfold hpPollRm
  rw [pollFindByFd_live]
  cases hf : po.live.findIdx? fun pfd => decide (pfd.fd = fd) with
  | none => rfl
  | some i =>
    obtain ⟨hlt, -⟩ := List.findIdx?_eq_some_iff_getElem.mp hf
    exact live_rmAt h (by rwa [← length_live h])

theorem live_setRevents (po : HpPoll F L) (i events : Nat) :
    (po.setRevents (i + 1) events).live =
      po.live.modify i fun pfd => { pfd with revents := events } := by
  apply List.ext_getElem?
  intro j
  rw [List.getElem?_modify]
  by_cases hj : j < po.nfds
  · rw [getElem?_live po hj, getElem?_live (po.setRevents (i + 1) events) hj]
    show (po.fds.modify (i + 1) _)[j + 1]? = _
    rw [List.getElem?_modify]
    simp only [Nat.add_right_cancel_iff]
  · have hlen : po.live.length ≤ j := by
      rw [HpPoll.live, List.length_take]
      omega
    have hlen' : (po.setRevents (i + 1) events).live.length ≤ j := by
      rw [HpPoll.live, List.length_take]
      show min po.nfds _ ≤ j
      omega
    rw [List.getElem?_eq_none hlen, List.getElem?_eq_none hlen']
    rfl

/-- The place of an fd is where the search finds it. -/
theorem findIdx_of_getElem {α κ : Type} [DecidableEq κ] (key : α → κ) {l : List α}
    (h : (l.map key).Nodup) {i : Nat} {x : α} (hi : l[i]? = some x) :
    (l.findIdx? fun y => key y = key x) = some i := by
  obtain ⟨hlt, heq⟩ := List.getElem?_eq_some_iff.mp hi
  rw [List.findIdx?_eq_some_iff_getElem]
  refine ⟨hlt, by simp [heq], ?_⟩
  intro j hj
  rw [Bool.not_eq_true, decide_eq_false_iff_not]
  intro hkey
  refine absurd ?_ (Nat.ne_of_lt hj)
  apply (List.getElem?_inj (by rw [List.length_map]; omega) h).mp
  rw [List.getElem?_map, List.getElem?_map, hi, List.getElem?_eq_getElem (by omega)]
  exact congrArg some hkey

end
end Libhp.Ev
