import Libhp.Ev.Pass
import Libhp.Ev.PollLive

/-!
# The dispatch phase of `hp_poll_run`

The loop looks from the start for the first `pollfd` with `revents`, and calls its fn if there
is one. A callback that keeps to `hp_poll.h` clears its own `revents` or removes its own fd; it
may remove others. An entry without a fn that comes to its turn is never cleared.
-/
namespace Libhp.Ev
open Libhp.Io (Ptr)

/-- What a callback does to the registry: `pfd->revents = 0`, or `hp_poll_rm`. -/
inductive CbOp where
  | clear
  | rm (fd : Int)
  deriving DecidableEq, Repr

def CbOp.removes : CbOp → Option Int
  | .rm fd => some fd
  | .clear => none

def goneFds (ops : List CbOp) : List Int := ops.filterMap CbOp.removes

/-- The functions behind the pointers `fn`, for the `pollfd` and the argument that they are
called with; `none` is the null pointer. -/
structure PollFns (F L σ : Type) where
  fn : F → Option (Pollfd → Ptr → PollSt F L σ → List CbOp × σ)

/-- A call of a fn: the fd it was for and those it removed. -/
structure PollCalled where
  fd : Int
  removed : List Int
  deriving DecidableEq, Repr

section
variable {F L σ : Type}

/-- `pfd` is the slot `index`, whatever stands there. -/
def HpPoll.cbOp (index : Nat) (po : HpPoll F L) : CbOp → HpPoll F L
  | .clear => po.setRevents index 0
  | .rm fd => (hpPollRm po fd).2

def HpPoll.cbOps (index : Nat) (po : HpPoll F L) (ops : List CbOp) : HpPoll F L :=
  ops.foldl (HpPoll.cbOp index) po

variable (h : PollFns F L σ)

/-- `pd->fn(pfd, pd->arg)`: the call and the state after it. -/
def callFn (index : Nat) (body : Pollfd → Ptr → PollSt F L σ → List CbOp × σ) (d : HpPolld F L)
    (st : PollSt F L σ) : PollCalled × PollSt F L σ :=
  let pfd := st.po.fds.getD index default
  let done := body pfd d.arg st
  (⟨pfd.fd, goneFds done.1⟩, ⟨st.po.cbOps index done.1, done.2⟩)

/-- The loop; `none` means that `fuel` rounds did not end it. -/
def pollDispatch (nfds : Nat) : Nat → PollSt F L σ → Option (List PollCalled × PollSt F L σ)
  | 0, _ => none
  | fuel + 1, st =>
    match getNextToRun st.po (min nfds st.po.nfds) with
    | none => some ([], st)
    | some index =>
      (st.po.pd index).bind fun d =>
        match h.fn d.fn with
        | none => pollDispatch nfds fuel st
        | some body =>
          (pollDispatch nfds fuel (callFn index body d st).2).map fun (calls, st') =>
            ((callFn index body d st).1 :: calls, st')

/-- `pfd->revents` is the callback's own until it removes its own fd or one before it. -/
def ClearsOwn (fd : Int) (before : List Int) : List CbOp → Prop
  | [] => True
  | .clear :: ops => ClearsOwn fd before ops
  | .rm x :: ops => if x = fd ∨ x ∈ before then .clear ∉ ops else ClearsOwn fd before ops

/-- The contract of `hp_poll_cb_t`. -/
structure Obeys (fd : Int) (before : List Int) (ops : List CbOp) : Prop where
  own : ClearsOwn fd before ops
  done : .clear ∈ ops ∨ .rm fd ∈ ops

/-- Every callback keeps to it wherever it is called. -/
def Contract : Prop :=
  ∀ (st : PollSt F L σ) (i : Nat) (pfd : Pollfd) (d : HpPolld F L) body,
    st.po.live[i]? = some pfd → st.po.pd (i + 1) = some d → h.fn d.fn = some body →
      Obeys pfd.fd ((st.po.live.take i).map Pollfd.fd) (body pfd d.arg st).1

/-- The fds in `ready` are called in order and each at most once; one with a fn that is not
called was removed by a call for an fd before it. -/
structure Dispatched (hasFn : Int → Prop) (ready : List Int) (calls : List PollCalled) : Prop where
  order : (calls.map PollCalled.fd).Sublist ready
  all : ∀ fd ∈ ready, hasFn fd → fd ∈ calls.map PollCalled.fd ∨
    ∃ c ∈ calls, fd ∈ c.removed ∧ [c.fd, fd].Sublist ready

/-- The fd is registered with a fn. -/
def HasFn (st : PollSt F L σ) (fd : Int) : Prop :=
  ∃ i pfd d, st.po.live[i]? = some pfd ∧ pfd.fd = fd ∧ st.po.pd (i + 1) = some d ∧
    (h.fn d.fn).isSome = true

/-- The phase ends, with every call that is due. -/
def DispatchOk (st : PollSt F L σ) : Prop :=
  ∃ fuel calls st', pollDispatch h st.po.nfds fuel st = some (calls, st') ∧
    Dispatched (HasFn h st) (readyFds st.po.live) calls

/-- The turns of the ready fds one after the other, without those that a callback before them
removes: each of them has a fn. -/
inductive AllHaveFn : List Int → PollSt F L σ → Prop
  | done (st : PollSt F L σ) : AllHaveFn [] st
  | turn {st : PollSt F L σ} {fd : Int} {rest : List Int} {index : Nat} {d : HpPolld F L}
      {body : Pollfd → Ptr → PollSt F L σ → List CbOp × σ} :
      pollFindByFd st.po fd = some index → st.po.pd index = some d → h.fn d.fn = some body →
      AllHaveFn (rest.filter (· ∉ (callFn index body d st).1.removed)) (callFn index body d st).2 →
      AllHaveFn (fd :: rest) st

end

/-- An operation on the list of `pollfd`s, where `fd` is the callback's own. -/
def ownOp (fd : Int) (pfds : List Pollfd) : CbOp → List Pollfd
  | .clear => pfds.map fun pfd => if pfd.fd = fd then { pfd with revents := 0 } else pfd
  | .rm x => pfds.filter fun pfd => pfd.fd ≠ x

/-- The fd that is not ready after the operation. -/
def CbOp.quiets (fd : Int) : CbOp → Int
  | .clear => fd
  | .rm x => x

section
variable {F L σ : Type} {max : Nat} {m : OrdMap Int (HpPolld F L)} {po : HpPoll F L}

theorem modify_eq_map {α κ : Type} [DecidableEq κ] (key : α → κ) (f : α → α) {l : List α}
    (h : (l.map key).Nodup) {i : Nat} {x : α} (hi : l[i]? = some x) :
    l.modify i f = l.map fun y => if key y = key x then f y else y := by
  apply List.ext_getElem?
  intro j
  rw [List.getElem?_modify, List.getElem?_map]
  cases hj : l[j]? with
  | none => rfl
  | some y =>
    show some (if i = j then f y else y) = some (if key y = key x then f y else y)
    by_cases hij : i = j
    · subst hij
      obtain rfl := Option.some.inj (hi.symm.trans hj)
      rw [if_pos rfl, if_pos rfl]
    · rw [if_neg hij, if_neg]
      · intro hkey
        apply hij
        have hlt := (List.getElem?_eq_some_iff.mp hi).1
        apply (List.getElem?_inj (by rw [List.length_map]; exact hlt) h).mp
        rw [List.getElem?_map, List.getElem?_map, hi, hj]
        exact congrArg some hkey.symm

/-- The callback's own `pollfd` stands in slot `i`, and behind nothing but `before`. -/
structure OwnAt (fd : Int) (before : List Int) (i : Nat) (pfds : List Pollfd) : Prop where
  own : ∃ pfd, pfds[i]? = some pfd ∧ pfd.fd = fd
  before : ∀ pfd ∈ pfds.take i, pfd.fd ∈ before

theorem OwnAt.clear {fd : Int} {before : List Int} {i : Nat} {pfds : List Pollfd}
    (h : OwnAt fd before i pfds) : OwnAt fd before i (ownOp fd pfds .clear) := by
  obtain ⟨pfd, hi, hfd⟩ := h.own
  refine ⟨⟨{ pfd with revents := 0 }, ?_, hfd⟩, ?_⟩
  · rw [ownOp, List.getElem?_map, hi, Option.map_some, if_pos hfd]
  · intro x hx
    rw [ownOp, ← List.map_take] at hx
    obtain ⟨y, hy, rfl⟩ := List.mem_map.mp hx
    have hbefore := h.before y hy
    split
    · exact hbefore
    · exact hbefore

/-- Removing an fd behind it leaves it where it is. -/
theorem OwnAt.rm {fd x : Int} {before : List Int} {i : Nat} {pfds : List Pollfd}
    (h : OwnAt fd before i pfds) (hx : ¬ (x = fd ∨ x ∈ before)) :
    OwnAt fd before i (ownOp fd pfds (.rm x)) := by
  obtain ⟨pfd, hi, hfd⟩ := h.own
  obtain ⟨hlt, heq⟩ := List.getElem?_eq_some_iff.mp hi
  have htake : (pfds.take i).filter (fun pfd => pfd.fd ≠ x) = pfds.take i := by
    rw [List.filter_eq_self]
    intro y hy
    have hne : y.fd ≠ x := fun he => hx (.inr (he ▸ h.before y hy))
    simpa using hne
  have hsplit : pfds = pfds.take i ++ pfd :: pfds.drop (i + 1) := by
    rw [← heq, List.getElem_cons_drop, List.take_append_drop]
  have hlen : (pfds.take i).length = i := by
    rw [List.length_take]
    omega
  have hkeep : ownOp fd pfds (.rm x) =
      pfds.take i ++ pfd :: (pfds.drop (i + 1)).filter fun pfd => pfd.fd ≠ x := by
    have hne : pfd.fd ≠ x := fun he => hx (.inl (he.symm.trans hfd))
    conv_lhs => rw [hsplit]
    rw [ownOp, List.filter_append, htake, List.filter_cons_of_pos (by simpa using hne)]
  rw [hkeep]
  refine ⟨⟨pfd, ?_, hfd⟩, ?_⟩
  · rw [List.getElem?_append_right (by omega), hlen, Nat.sub_self]
    rfl
  · rw [List.take_left' hlen]
    exact h.before

/-- One operation of a callback, and what it is on the list. -/
theorem cbOp_live (h : po.Represents max m) {fd : Int} {before : List Int} {i : Nat} {op : CbOp}
    (hown : OwnAt fd before i po.live ∨ op ≠ .clear) :
    (∃ m', (po.cbOp (i + 1) op).Represents max m') ∧
      (po.cbOp (i + 1) op).live = ownOp fd po.live op := by
  cases op with
  | clear =>
    obtain ⟨pfd, hi, rfl⟩ := (hown.resolve_right fun hne => hne rfl).own
    refine ⟨⟨m, setRevents_represents h _ _⟩, ?_⟩
    exact (live_setRevents po i 0).trans (modify_eq_map Pollfd.fd _ (live_nodup h) hi)
  | rm x => exact ⟨⟨_, (hpPollRm_spec h x).2⟩, live_rm h x⟩

theorem clearsOwn_of_not_mem {fd : Int} {before : List Int} {ops : List CbOp}
    (h : .clear ∉ ops) : ClearsOwn fd before ops := by
  induction ops with
  | nil => trivial
  | cons op ops ih =>
    have hrest : .clear ∉ ops := fun hin => h (List.mem_cons_of_mem op hin)
    cases op with
    | clear => exact absurd List.mem_cons_self h
    | rm x =>
      rw [ClearsOwn]
      split
      · exact hrest
      · exact ih hrest

/-- All operations of a callback that clears its own `revents` only. -/
theorem cbOps_live (h : po.Represents max m) {fd : Int} {before : List Int} {i : Nat}
    {ops : List CbOp} (hclears : ClearsOwn fd before ops)
    (hown : OwnAt fd before i po.live ∨ .clear ∉ ops) :
    (∃ m', (po.cbOps (i + 1) ops).Represents max m') ∧
      (po.cbOps (i + 1) ops).live = ops.foldl (ownOp fd) po.live := by
  induction ops generalizing po m with
  | nil => exact ⟨⟨m, h⟩, rfl⟩
  | cons op ops ih =>
    have hop : OwnAt fd before i po.live ∨ op ≠ .clear :=
      hown.imp_right fun hmem he => hmem (he ▸ List.mem_cons_self)
    obtain ⟨⟨m', h'⟩, hlive⟩ := cbOp_live h hop
    have hnext : OwnAt fd before i (po.cbOp (i + 1) op).live ∨ .clear ∉ ops := by
      rw [hlive]
      rcases hown with hown | hmem
      · cases op with
        | clear => exact .inl hown.clear
        | rm x =>
          by_cases hx : x = fd ∨ x ∈ before
          · right
            rw [ClearsOwn, if_pos hx] at hclears
            exact hclears
          · exact .inl (hown.rm hx)
      · exact .inr fun hin => hmem (List.mem_cons_of_mem op hin)
    have hrest : ClearsOwn fd before ops := by
      cases op with
      | clear => exact hclears
      | rm x =>
        rw [ClearsOwn] at hclears
        split at hclears
        · exact clearsOwn_of_not_mem hclears
        · exact hclears
    rw [List.foldl_cons, ← hlive]
    exact ih h' hrest hnext

theorem length_ownOps (fd : Int) (ops : List CbOp) (pfds : List Pollfd) :
    (ops.foldl (ownOp fd) pfds).length ≤ pfds.length := by
  induction ops generalizing pfds with
  | nil => exact le_rfl
  | cons op ops ih =>
    apply (ih _).trans
    cases op with
    | clear => exact (List.length_map _).le
    | rm x => exact List.length_filter_le _ _

theorem readyFds_ownOp (fd : Int) (op : CbOp) (pfds : List Pollfd) :
    readyFds (ownOp fd pfds op) = (readyFds pfds).filter fun x => x ≠ op.quiets fd := by
  unfold readyFds
  rw [List.filter_map, List.filter_filter]
  cases op with
  | clear =>
    rw [ownOp, List.filter_map, List.map_map]
    have hfd : Pollfd.fd ∘ (fun pfd => if pfd.fd = fd then { pfd with revents := 0 } else pfd) =
        Pollfd.fd := by
      funext pfd
      dsimp only [Function.comp_apply]
      split <;> rfl
    rw [hfd]
    congr 2
    funext pfd
    show Pollfd.ready (if pfd.fd = fd then { pfd with revents := 0 } else pfd) =
      (decide (pfd.fd ≠ fd) && pfd.ready)
    by_cases hpfd : pfd.fd = fd
    · simp [hpfd, Pollfd.ready]
    · simp [hpfd]
  | rm x =>
    rw [ownOp, List.filter_filter]
    congr 2
    funext pfd
    exact Bool.and_comm _ _

/-- Together they take out of the ready fds those that they quiet. -/
theorem readyFds_ownOps (fd : Int) (ops : List CbOp) (pfds : List Pollfd) :
    readyFds (ops.foldl (ownOp fd) pfds) =
      (readyFds pfds).filter fun x => x ∉ ops.map (CbOp.quiets fd) := by
  induction ops generalizing pfds with
  | nil =>
    rw [List.filter_eq_self.mpr]
    · rfl
    · intro x _
      simp
  | cons op ops ih =>
    rw [List.foldl_cons, ih, readyFds_ownOp, List.filter_filter]
    congr 1
    funext x
    simp [Bool.and_comm]

/-- A callback that keeps to the contract: its own fd is not ready any more, nor are those that
it removed. -/
theorem readyFds_obeys {fd : Int} {before : List Int} {ops : List CbOp}
    (hobeys : Obeys fd before ops) {pfds : List Pollfd} {rest : List Int}
    (hready : readyFds pfds = fd :: rest) (hnodup : (fd :: rest).Nodup) :
    readyFds (ops.foldl (ownOp fd) pfds) = rest.filter (· ∉ goneFds ops) := by
  have hown : fd ∈ ops.map (CbOp.quiets fd) := by
    rcases hobeys.done with hmem | hmem
    · exact List.mem_map.mpr ⟨.clear, hmem, rfl⟩
    · exact List.mem_map.mpr ⟨.rm fd, hmem, rfl⟩
  rw [readyFds_ownOps, hready, List.filter_cons_of_neg (by simpa using hown)]
  apply List.filter_congr
  intro x hx
  have hne : x ≠ fd := fun he => (List.nodup_cons.mp hnodup).1 (he ▸ hx)
  have hiff : x ∈ ops.map (CbOp.quiets fd) ↔ x ∈ goneFds ops := by
    constructor
    · intro hmem
      obtain ⟨op, hop, rfl⟩ := List.mem_map.mp hmem
      cases op with
      | clear => exact absurd rfl hne
      | rm y => exact List.mem_filterMap.mpr ⟨.rm y, hop, rfl⟩
    · intro hmem
      obtain ⟨op, hop, hrem⟩ := List.mem_filterMap.mp hmem
      cases op with
      | clear => cases hrem
      | rm y => exact List.mem_map.mpr ⟨.rm y, hop, Option.some.inj hrem⟩
  simp only [hiff]

theorem filter_of_findIdx {α : Type} {p : α → Bool} {l : List α} {i : Nat}
    (h : l.findIdx? p = some i) :
    ∃ x, l[i]? = some x ∧ l.filter p = x :: (l.drop (i + 1)).filter p := by
  induction l generalizing i with
  | nil => cases h
  | cons x l ih =>
    rw [List.findIdx?_cons] at h
    by_cases hx : p x = true
    · rw [if_pos hx] at h
      cases h
      exact ⟨x, rfl, List.filter_cons_of_pos hx⟩
    · rw [if_neg hx, Option.map_eq_some_iff] at h
      obtain ⟨j, hj, rfl⟩ := h
      obtain ⟨y, hy, hfilter⟩ := ih hj
      exact ⟨y, hy, (List.filter_cons_of_neg hx).trans hfilter⟩

variable {h : PollFns F L σ} {st : PollSt F L σ} {nfds : Nat}

/-- Where the loop is when `fd` is the first that is ready: at the entry of `fd`. -/
structure AtTurn (st : PollSt F L σ) (nfds : Nat) (fd : Int) (i : Nat) (pfd : Pollfd)
    (d : HpPolld F L) : Prop where
  next : getNextToRun st.po (min nfds st.po.nfds) = some (i + 1)
  slot : st.po.live[i]? = some pfd
  fd_eq : pfd.fd = fd
  found : pollFindByFd st.po fd = some (i + 1)
  pd : st.po.pd (i + 1) = some d

theorem atTurn (hrep : st.po.Represents max m) (hn : st.po.nfds ≤ nfds) {fd : Int}
    {rest : List Int} (hready : readyFds st.po.live = fd :: rest) :
    ∃ i pfd d, AtTurn st nfds fd i pfd d := by
  have hnext := getNextToRun_live hrep hn
  cases hidx : st.po.live.findIdx? Pollfd.ready with
  | none =>
    have hnone : st.po.live.filter Pollfd.ready = [] := by
      rw [List.filter_eq_nil_iff]
      intro pfd hpfd hr
      rw [List.findIdx?_eq_none_iff] at hidx
      rw [hidx pfd hpfd] at hr
      cases hr
    rw [readyFds, hnone] at hready
    cases hready
  | some i =>
    obtain ⟨pfd, hslot, hfilter⟩ := filter_of_findIdx hidx
    rw [readyFds, hfilter, List.map_cons] at hready
    obtain ⟨rfl, -⟩ := List.cons.inj hready
    have hi : i < st.po.nfds := by
      rw [← length_live hrep]
      exact (List.getElem?_eq_some_iff.mp hslot).1
    have hlt : i < m.entries.length := by
      rw [hrep.size_eq] at hi
      exact hi
    have hpd := (hrep.entry i hi).2
    rw [List.getElem?_eq_getElem hlt] at hpd
    refine ⟨i, pfd, _, ?_, hslot, rfl, ?_, hpd⟩
    · rw [hnext, hidx]
      rfl
    · rw [pollFindByFd_live, findIdx_of_getElem Pollfd.fd (live_nodup hrep) hslot]
      rfl

theorem dispatch_idle (hrep : st.po.Represents max m) (hn : st.po.nfds ≤ nfds)
    (hready : readyFds st.po.live = []) (fuel : Nat) :
    pollDispatch h nfds (fuel + 1) st = some ([], st) := by
  have hnone : st.po.live.findIdx? Pollfd.ready = none := by
    rw [List.findIdx?_eq_none_iff]
    rw [readyFds, List.map_eq_nil_iff, List.filter_eq_nil_iff] at hready
    intro pfd hpfd
    exact Bool.eq_false_iff.mpr (hready pfd hpfd)
  rw [pollDispatch, getNextToRun_live hrep hn, hnone]
  rfl

/-- One call: the ready fds that remain. -/
theorem callFn_ready (hc : Contract h) (hrep : st.po.Represents max m) {fd : Int}
    {rest : List Int} (hready : readyFds st.po.live = fd :: rest) {i : Nat} {pfd : Pollfd}
    {d : HpPolld F L} (hat : AtTurn st nfds fd i pfd d) {body}
    (hbody : h.fn d.fn = some body) :
    (callFn (i + 1) body d st).1.fd = fd ∧
      (∃ m', (callFn (i + 1) body d st).2.po.Represents max m') ∧
      (callFn (i + 1) body d st).2.po.nfds ≤ st.po.nfds ∧
      readyFds (callFn (i + 1) body d st).2.po.live =
        rest.filter (· ∉ (callFn (i + 1) body d st).1.removed) := by
  have hslot := hat.slot
  have hi : i < st.po.nfds := by
    rw [← length_live hrep]
    exact (List.getElem?_eq_some_iff.mp hslot).1
  have hpfd : st.po.fds.getD (i + 1) default = pfd := by
    rw [getElem?_live st.po hi] at hslot
    rw [List.getD_eq_getElem?_getD, hslot]
    rfl
  have hnodup : (fd :: rest).Nodup := hready ▸ readyFds_nodup hrep
  have hobeys := hc st i pfd d body hslot hat.pd hbody
  rw [hat.fd_eq] at hobeys
  have hown : OwnAt fd ((st.po.live.take i).map Pollfd.fd) i st.po.live :=
    ⟨⟨pfd, hslot, hat.fd_eq⟩, fun x hx => List.mem_map_of_mem hx⟩
  unfold callFn
  dsimp only
  rw [hpfd]
  obtain ⟨⟨m', hrep'⟩, hlive⟩ := cbOps_live hrep hobeys.own (.inl hown)
  refine ⟨hat.fd_eq, ⟨m', hrep'⟩, ?_, ?_⟩
  · rw [← length_live hrep', ← length_live hrep, hlive]
    exact length_ownOps _ _ _
  · rw [hlive]
    exact readyFds_obeys hobeys hready hnodup

theorem dispatch_call {fd : Int} {i : Nat} {pfd : Pollfd} {d : HpPolld F L}
    (hat : AtTurn st nfds fd i pfd d) (fuel : Nat) :
    pollDispatch h nfds (fuel + 1) st =
      match h.fn d.fn with
      | none => pollDispatch h nfds fuel st
      | some body =>
        (pollDispatch h nfds fuel (callFn (i + 1) body d st).2).map fun (calls, st') =>
          ((callFn (i + 1) body d st).1 :: calls, st') := by
  rw [pollDispatch, hat.next]
  dsimp only
  rw [hat.pd, Option.bind_some]

/-- If each turn has its fn, the loop ends, and every call is made in its turn. -/
theorem dispatch_of_allHaveFn (hc : Contract h) (hasFn : Int → Prop) {ready : List Int}
    (hall : AllHaveFn h ready st) (hrep : st.po.Represents max m) (hn : st.po.nfds ≤ nfds)
    (hready : readyFds st.po.live = ready) :
    ∃ fuel calls st', pollDispatch h nfds fuel st = some (calls, st') ∧
      Dispatched hasFn ready calls := by
  induction hall generalizing m with
  | done st =>
    exact ⟨1, [], st, dispatch_idle hrep hn hready 0,
      ⟨List.Sublist.refl [], fun fd hfd => absurd hfd List.not_mem_nil⟩⟩
  | @turn st fd rest index d body hfound hpd hbody _ ih =>
    obtain ⟨i, pfd, d', hat⟩ := atTurn hrep hn hready
    obtain rfl : i + 1 = index := Option.some.inj (hat.found.symm.trans hfound)
    obtain rfl : d' = d := Option.some.inj (hat.pd.symm.trans hpd)
    obtain ⟨hfd, ⟨m', hrep'⟩, hn', hready'⟩ := callFn_ready hc hrep hready hat hbody
    obtain ⟨fuel, calls, st', hrun, hdis⟩ := ih hrep' (hn'.trans hn) hready'
    refine ⟨fuel + 1, (callFn (i + 1) body d' st).1 :: calls, st', ?_, ?_, ?_⟩
    · rw [dispatch_call hat, hbody]
      dsimp only
      rw [hrun]
      rfl
    · rw [List.map_cons, hfd]
      exact (hdis.order.trans List.filter_sublist).cons_cons fd
    · intro x hx hfn
      rcases List.mem_cons.mp hx with rfl | hx
      · exact .inl (List.mem_map.mpr ⟨_, List.mem_cons_self, hfd⟩)
      by_cases hgone : x ∈ (callFn (i + 1) body d' st).1.removed
      · refine .inr ⟨_, List.mem_cons_self, hgone, ?_⟩
        rw [hfd]
        exact (List.singleton_sublist.mpr hx).cons_cons fd
      · rcases hdis.all x (List.mem_filter.mpr ⟨hx, by simpa using hgone⟩) hfn with hcall | hcall
        · exact .inl (List.mem_cons_of_mem _ hcall)
        · obtain ⟨c, hmem, hrem, hsub⟩ := hcall
          exact .inr ⟨c, List.mem_cons_of_mem _ hmem, hrem,
            (hsub.trans List.filter_sublist).cons fd⟩

/-- If the loop ends, each turn has its fn: at one that has not, it goes round in place. -/
theorem allHaveFn_of_ends (hc : Contract h) {fuel : Nat} {r : List PollCalled × PollSt F L σ}
    (hrep : st.po.Represents max m) (hn : st.po.nfds ≤ nfds)
    (hrun : pollDispatch h nfds fuel st = some r) : AllHaveFn h (readyFds st.po.live) st := by
  induction fuel generalizing st m r with
  | zero => cases hrun
  | succ fuel ih =>
    cases hready : readyFds st.po.live with
    | nil => exact .done st
    | cons fd rest =>
      obtain ⟨i, pfd, d, hat⟩ := atTurn hrep hn hready
      rw [dispatch_call hat] at hrun
      cases hbody : h.fn d.fn with
      | none =>
        rw [hbody] at hrun
        rw [← hready]
        exact ih hrep hn hrun
      | some body =>
        rw [hbody] at hrun
        obtain ⟨⟨calls, st'⟩, hrest, -⟩ := Option.map_eq_some_iff.mp hrun
        obtain ⟨-, ⟨m', hrep'⟩, hn', hready'⟩ := callFn_ready hc hrep hready hat hbody
        refine .turn hat.found hat.pd hbody ?_
        rw [← hready']
        exact ih hrep' (hn'.trans hn) hrest

end

/-- With callbacks that keep to the contract, the dispatch phase ends with every call made in
its turn exactly if, of the fds that are ready, those that come to their turn all have a fn. -/
theorem dispatch_ok {F L σ : Type} (h : PollFns F L σ) (st : PollSt F L σ) (max : Nat)
    (m : OrdMap Int (HpPolld F L)) (hrep : st.po.Represents max m) (hc : Contract h) :
    DispatchOk h st ↔ AllHaveFn h (readyFds st.po.live) st := by
  constructor
  · intro ⟨fuel, calls, st', hrun, _⟩
    exact allHaveFn_of_ends hc hrep le_rfl hrun
  · intro hall
    exact dispatch_of_allHaveFn hc _ hall hrep le_rfl rfl

/-- A null fn and one that clears its `revents`. -/
def clearing : PollFns Bool Unit Unit where
  fn f := if f then some fun _ _ _ => ([.clear], ()) else none

theorem clearing_contract : Contract clearing := by
  intro st i pfd d body _ _ hbody
  unfold clearing at hbody
  dsimp only at hbody
  split at hbody
  · cases hbody
    exact ⟨trivial, .inl List.mem_cons_self⟩
  · cases hbody

/-- fd 5, with a fn or without, and fd 7, with one, are both ready. -/
def twoReady (f : Bool) : PollSt Bool Unit Unit :=
  ⟨((pollRun [.add 5 1 ⟨f, 1, ()⟩ 0, .add 7 1 ⟨true, 2, ()⟩ 0] (hpPollInit 2)).2).fill fun _ => 1, ()⟩

theorem twoReady_represents (f : Bool) : ∃ m, (twoReady f).po.Represents 2 m :=
  ⟨_, fill_represents (pollRun_refines [.add 5 1 ⟨f, 1, ()⟩ 0, .add 7 1 ⟨true, 2, ()⟩ 0]
    (hpPollInit_represents (by decide : (0 : Int) < 2))).2 _⟩

theorem dispatch_ok_two : DispatchOk clearing (twoReady true) := by
  obtain ⟨m, hrep⟩ := twoReady_represents true
  apply (dispatch_ok clearing (twoReady true) 2 m hrep clearing_contract).mpr
  exact .turn rfl rfl rfl (.turn rfl rfl rfl (.done _))

/-- Ready and without a fn: the loop goes round for ever, and the fd behind is never served. -/
theorem dispatch_not_ok :
    ¬ (∀ (h : PollFns Bool Unit Unit) (st : PollSt Bool Unit Unit) (max : Nat)
      (m : OrdMap Int (HpPolld Bool Unit)), st.po.Represents max m → Contract h →
      DispatchOk h st) ∧
    ∀ fuel, pollDispatch clearing 2 fuel (twoReady false) = none := by
  have hstuck : ∀ fuel, pollDispatch clearing 2 fuel (twoReady false) = none := by
    intro fuel
    induction fuel with
    | zero => rfl
    | succ fuel ih =>
      have hnext : getNextToRun (twoReady false).po (min 2 (twoReady false).po.nfds) = some 1 := by
        decide
      have hpd : (twoReady false).po.pd 1 = some ⟨false, 1, ()⟩ := by decide
      rw [pollDispatch, hnext]
      dsimp only
      rw [hpd]
      exact ih
  refine ⟨fun hall => ?_, hstuck⟩
  obtain ⟨m, hrep⟩ := twoReady_represents false
  obtain ⟨fuel, calls, st', hrun, -⟩ := hall clearing (twoReady false) 2 m hrep clearing_contract
  have hnone := hstuck fuel
  rw [show 2 = (twoReady false).po.nfds from rfl, hrun] at hnone
  cases hnone

end Libhp.Ev
