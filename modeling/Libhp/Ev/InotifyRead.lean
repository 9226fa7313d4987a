import Libhp.Ev.Inotify
import Libhp.Io.Uio
import Libhp.Lib.ByteOrder

/-!
# The events of watched files

`hp_inotify_iread_event` of `hp_inotify.c` reads until there is nothing more, and walks over the
records of each read. An interrupted read leaves it in a loop that does not read again.
-/
namespace Libhp.Ev
open ByteOrder
open Libhp.Io (EINTR EAGAIN)

/-- `struct inotify_event`, the name padded. -/
structure IEvent where
  wd : BitVec 32
  mask : BitVec 32
  cookie : BitVec 32
  name : List UInt8
  short : name.length < 2 ^ 32

def EWOULDBLOCK : Int := EAGAIN

def IN_MODIFY : BitVec 32 := 2

/-- The record of an event in the buffer. -/
def IEvent.encode (e : Endian) (ev : IEvent) : List UInt8 :=
  bytes e ev.wd ++ bytes e ev.mask ++ bytes e ev.cookie ++
    bytes e (BitVec.ofNat 32 ev.name.length) ++ ev.name

/-- What `read` returns: some bytes, or -1 with `errno`. -/
inductive Read where
  | data (buf : List UInt8)
  | fail (errno : Int)

/-- How the function ends: it returns, an assertion fails, it loops forever, or the walk leaves the
bytes read; `starved` if no result of `read` is left. -/
inductive Outcome where
  | returned
  | aborts
  | spins
  | overruns
  | starved
  deriving DecidableEq

/-- The table, the number of events handled and the calls made, each with the number of its event
and the place of its entry. -/
structure IState (K : Type) where
  dl : HpInotify K
  handled : Nat
  calls : List (Nat × Nat)

section
variable {K F : Type} (M : InotifyKernel K F)
  -- whether the path of the `i`-th entry can be accessed at the `k`-th event
  (access : Nat → Nat → Bool)

/-- The loop over the entries for event `k`, from place `i` on. -/
def entLoop (k : Nat) (wd mask : BitVec 32) : Nat → List Ient → K → List Ient × K × List (Nat × Nat)
  | _, [], kernel => ([], kernel, [])
  | i, ent :: rest, kernel =>
    let (ent, kernel, call) :=
      if wd.toInt = ent.wd then
        if !access k i then ({ ent with wd := 0 }, M.rmWatch kernel ent.wd, [])
        else if mask &&& IN_MODIFY ≠ 0 then (ent, kernel, [(k, i)])
        else (ent, kernel, [])
      else (ent, kernel, [])
    let (rest, kernel, calls) := entLoop k wd mask (i + 1) rest kernel
    (ent :: rest, kernel, call ++ calls)

def handleEvent (wd mask : BitVec 32) (st : IState K) : IState K :=
  let (ients, kernel, calls) := entLoop M access st.handled wd mask 0 st.dl.ients st.dl.kernel
  ⟨⟨ients, kernel⟩, st.handled + 1, st.calls ++ calls⟩

/-- The loop over the records of one read. -/
def walk (e : Endian) (buf : List UInt8) (st : IState K) : Option (IState K) :=
  if buf = [] then some st
  else if _h : buf.length < 16 then none
  else
    let len := (read e (buf.drop 12)).toNat
    walk e (buf.drop (16 + len)) (handleEvent M access (read e buf) (read e (buf.drop 4)) st)
termination_by buf.length
decreasing_by
  rw [List.length_drop]
  omega

/-- The loop over the reads. -/
def ireadLoop (e : Endian) : List Read → IState K → Outcome × IState K
  | [], st => (.starved, st)
  | .fail errno :: _, st =>
    -- `while (len == -1 && errno == EINTR);`
    if errno = EINTR then (.spins, st)
    else if errno = EAGAIN ∨ errno = EWOULDBLOCK then (.returned, st)
    else (.aborts, st)
  | .data buf :: rest, st =>
    if buf = [] then (.aborts, st)
    else
      match walk M access e buf st with
      | none => (.overruns, st)
      | some st => ireadLoop e rest st

/-- `hp_inotify_iread_event` -/
def hpInotifyIreadEvent (e : Endian) (reads : List Read) (dl : HpInotify K) : Outcome × IState K :=
  ireadLoop M access e reads ⟨dl, 0, []⟩

end

/-- A result of `read` before the last: whole events, or an interruption. -/
inductive Got where
  | events (evs : List IEvent)
  | interrupted

def Got.read (e : Endian) : Got → Read
  | .events evs => .data (evs.flatMap (IEvent.encode e))
  | .interrupted => .fail EINTR

def Got.evs : Got → List IEvent
  | .events evs => evs
  | .interrupted => []

section
variable (access : Nat → Nat → Bool) (evs : List IEvent)

/-- The watch `wd` of entry `i` has been given up before event `k`. -/
def dropped (wd i k : Nat) : Bool :=
  (List.range k).any fun j => evs[j]?.any fun ev =>
    decide (ev.wd.toInt = (wd : Int)) && !access j i

/-- The descriptor of an entry at event `k`. -/
def wdAt (wd i k : Nat) : Nat := if dropped access evs wd i k then 0 else wd

/-- Event `k` is a modification of the file that entry `i` watches, and its path is there. -/
def Due (ients : List Ient) (k i : Nat) : Prop :=
  ∃ ev ent, evs[k]? = some ev ∧ ients[i]? = some ent ∧ ev.mask &&& IN_MODIFY ≠ 0 ∧
    ev.wd.toInt = wdAt access evs ent.wd i k ∧ access k i = true

end

/-- In the order of the events, and of the entries for one event; nothing twice. -/
def InOrder (calls : List (Nat × Nat)) : Prop :=
  calls.Pairwise fun c d => c.1 < d.1 ∨ c.1 = d.1 ∧ c.2 < d.2

/-- The function returns, and the calls are those that are due, once each and in order. -/
def Delivers {K F : Type} (M : InotifyKernel K F) (access : Nat → Nat → Bool) (e : Endian)
    (dl : HpInotify K) (got : List Got) (last : Int) : Prop :=
  (hpInotifyIreadEvent M access e (got.map (Got.read e) ++ [.fail last]) dl).1 = .returned ∧
    InOrder (hpInotifyIreadEvent M access e (got.map (Got.read e) ++ [.fail last]) dl).2.calls ∧
    ∀ k i, (k, i) ∈
        (hpInotifyIreadEvent M access e (got.map (Got.read e) ++ [.fail last]) dl).2.calls ↔
      Due access (got.flatMap Got.evs) dl.ients k i

/-- No read is interrupted or empty, and the last fails with `EAGAIN`. -/
def Uninterrupted (got : List Got) (last : Int) : Prop :=
  (∀ g ∈ got, g.evs ≠ []) ∧ (last = EAGAIN ∨ last = EWOULDBLOCK)

section
variable {K F : Type} {M : InotifyKernel K F} {access : Nat → Nat → Bool}

/-- An entry after an event. -/
def Ient.after (access : Nat → Nat → Bool) (k : Nat) (wd : BitVec 32) (i : Nat) (ent : Ient) :
    Ient :=
  if wd.toInt = ent.wd ∧ access k i = false then { ent with wd := 0 } else ent

/-- Whether the `fn` of an entry is called for an event. -/
def Ient.hit (access : Nat → Nat → Bool) (k : Nat) (wd mask : BitVec 32) (i : Nat) (ent : Ient) :
    Bool :=
  decide (wd.toInt = ent.wd) && access k i && decide (mask &&& IN_MODIFY ≠ 0)

theorem entLoop_cons (M : InotifyKernel K F) (access : Nat → Nat → Bool) (k : Nat)
    (wd mask : BitVec 32) (i : Nat) (ent : Ient) (rest : List Ient) (kernel : K) : ∃ kernel',
      entLoop M access k wd mask i (ent :: rest) kernel =
        (ent.after access k wd i :: (entLoop M access k wd mask (i + 1) rest kernel').1,
          (entLoop M access k wd mask (i + 1) rest kernel').2.1,
          (if ent.hit access k wd mask i then [(k, i)] else []) ++
            (entLoop M access k wd mask (i + 1) rest kernel').2.2) := by
  rw [entLoop]
  unfold Ient.after Ient.hit
  by_cases hwd : wd.toInt = ent.wd
  · cases haccess : access k i with
    | false => exact ⟨M.rmWatch kernel ent.wd, by simp [hwd]⟩
    | true =>
      by_cases hmask : mask &&& IN_MODIFY = 0#32
      · exact ⟨kernel, by simp [hwd, hmask]⟩
      · exact ⟨kernel, by simp [hwd, hmask]⟩
  · exact ⟨kernel, by simp [hwd]⟩

/-- The entries and the calls after the loop over the entries. -/
theorem entLoop_spec (M : InotifyKernel K F) (access : Nat → Nat → Bool) (k : Nat)
    (wd mask : BitVec 32) (ients : List Ient) : ∀ (i : Nat) (kernel : K),
    (∀ j, (entLoop M access k wd mask i ients kernel).1[j]? =
      ients[j]?.map (Ient.after access k wd (i + j))) ∧
    InOrder (entLoop M access k wd mask i ients kernel).2.2 ∧
    ∀ c, c ∈ (entLoop M access k wd mask i ients kernel).2.2 ↔
      c.1 = k ∧ ∃ j ent, c.2 = i + j ∧ ients[j]? = some ent ∧ ent.hit access k wd mask c.2 := by
  induction ients with
  | nil => exact fun i kernel => ⟨by simp [entLoop], List.Pairwise.nil, by simp [entLoop]⟩
  | cons ent rest ih =>
    intro i kernel
    obtain ⟨kernel', hcons⟩ := entLoop_cons M access k wd mask i ent rest kernel
    obtain ⟨hents, horder, hcalls⟩ := ih (i + 1) kernel'
    rw [hcons]
    refine ⟨fun j => ?_, ?_, fun c => ?_⟩
    · cases j with
      | zero => simp
      | succ j =>
        rw [List.getElem?_cons_succ, List.getElem?_cons_succ, hents j, Nat.add_assoc,
          Nat.add_comm 1]
    · refine List.pairwise_append.mpr ⟨?_, horder, fun c hc d hd => ?_⟩
      · split <;> simp
      · obtain ⟨hk, j, -, hj, -⟩ := (hcalls d).mp hd
        split at hc
        · rw [List.mem_singleton.mp hc]
          exact Or.inr ⟨hk.symm, by show i < d.2; omega⟩
        · cases hc
    · rw [List.mem_append, hcalls]
      constructor
      · rintro (hc | ⟨hk, j, ent', hj, hget, hhit⟩)
        · split at hc
          · next hhit =>
            rw [List.mem_singleton.mp hc]
            exact ⟨rfl, 0, ent, rfl, rfl, hhit⟩
          · cases hc
        · exact ⟨hk, j + 1, ent', by omega, hget, hhit⟩
      · intro ⟨hk, j, ent', hj, hget, hhit⟩
        cases j with
        | zero =>
          obtain rfl := Option.some.inj hget
          have hc : c = (k, i) := Prod.ext hk hj
          rw [hc] at hhit ⊢
          left
          rw [if_pos hhit]
          exact List.mem_singleton_self _
        | succ j => exact Or.inr ⟨hk, j, ent', by omega, hget, hhit⟩

def IState.event (M : InotifyKernel K F) (access : Nat → Nat → Bool) (st : IState K) (ev : IEvent) :
    IState K := handleEvent M access ev.wd ev.mask st

theorem flatMap_encode_ne_nil (e : Endian) (ev : IEvent) (evs : List IEvent) :
    (ev :: evs).flatMap (IEvent.encode e) ≠ [] := by
  intro hnil
  have hlen := congrArg List.length hnil
  simp [IEvent.encode] at hlen

/-- The walk comes to each of the events. -/
theorem walk_encode (e : Endian) (evs : List IEvent) : ∀ st : IState K,
    walk M access e (evs.flatMap (IEvent.encode e)) st =
      some (evs.foldl (IState.event M access) st) := by
  induction evs with
  | nil =>
    intro st
    rw [List.flatMap_nil, walk, if_pos rfl]
    rfl
  | cons ev evs ih =>
    intro st
    have hlen : (BitVec.ofNat 32 ev.name.length).toNat = ev.name.length := by
      rw [BitVec.toNat_ofNat, Nat.mod_eq_of_lt ev.short]
    have hbuf : (ev :: evs).flatMap (IEvent.encode e) = bytes e ev.wd ++ (bytes e ev.mask ++
        (bytes e ev.cookie ++ (bytes e (BitVec.ofNat 32 ev.name.length) ++ (ev.name ++
          evs.flatMap (IEvent.encode e))))) := by
      simp [IEvent.encode]
    have hmask : ((ev :: evs).flatMap (IEvent.encode e)).drop 4 = bytes e ev.mask ++
        (bytes e ev.cookie ++ (bytes e (BitVec.ofNat 32 ev.name.length) ++ (ev.name ++
          evs.flatMap (IEvent.encode e)))) := by
      rw [hbuf]
      exact List.drop_left' (length_bytes e ev.wd)
    have hname : ((ev :: evs).flatMap (IEvent.encode e)).drop 12 =
        bytes e (BitVec.ofNat 32 ev.name.length) ++ (ev.name ++
          evs.flatMap (IEvent.encode e)) := by
      rw [show 12 = 4 + 8 from rfl, ← List.drop_drop, hmask, ← List.append_assoc]
      exact List.drop_left' (by simp)
    have hrest : ((ev :: evs).flatMap (IEvent.encode e)).drop (16 + ev.name.length) =
        evs.flatMap (IEvent.encode e) := by
      rw [show 16 + ev.name.length = 12 + (4 + ev.name.length) by omega, ← List.drop_drop, hname,
        ← List.append_assoc]
      exact List.drop_left' (by simp)
    have hlong : 16 ≤ ((ev :: evs).flatMap (IEvent.encode e)).length := by
      rw [hbuf]
      simp only [List.length_append, length_bytes]
      omega
    rw [walk, if_neg (flatMap_encode_ne_nil e ev evs), dif_neg (by omega), hname, read_bytes, hlen]
    show walk M access e (((ev :: evs).flatMap (IEvent.encode e)).drop (16 + ev.name.length)) _ = _
    rw [hrest, hmask, read_bytes, hbuf, read_bytes, ih]
    rfl

/-- The function returns exactly if no read is interrupted or empty and the last fails with
`EAGAIN`. -/
theorem ireadLoop_returned (e : Endian) (got : List Got) (last : Int) : ∀ st : IState K,
    (ireadLoop M access e (got.map (Got.read e) ++ [.fail last]) st).1 = .returned ↔
      Uninterrupted got last := by
  induction got with
  | nil =>
    intro st
    rw [List.map_nil, List.nil_append, ireadLoop, Uninterrupted]
    by_cases hintr : last = EINTR
    · rw [if_pos hintr, hintr]
      exact iff_of_false (fun h => by cases h) fun h => absurd h.2 (by decide)
    · rw [if_neg hintr]
      split
      · next hagain => exact iff_of_true rfl ⟨by simp, hagain⟩
      · next hagain => exact iff_of_false (fun h => by cases h) fun h => hagain h.2
  | cons g got ih =>
    intro st
    rw [List.map_cons, List.cons_append]
    cases g with
    | interrupted =>
      rw [Got.read, ireadLoop, if_pos rfl]
      exact iff_of_false (fun h => by cases h) fun h => h.1 _ List.mem_cons_self rfl
    | events evs =>
      cases evs with
      | nil =>
        rw [Got.read, ireadLoop, List.flatMap_nil, if_pos rfl]
        exact iff_of_false (fun h => by cases h) fun h => h.1 _ List.mem_cons_self rfl
      | cons ev evs =>
        rw [Got.read, ireadLoop, if_neg (flatMap_encode_ne_nil e ev evs), walk_encode]
        simp only [ih, Uninterrupted, List.forall_mem_cons]
        exact and_congr_left' (and_iff_right (List.cons_ne_nil ev evs)).symm

/-- The state in which it returns. -/
theorem ireadLoop_state (e : Endian) {got : List Got} {last : Int} (h : Uninterrupted got last) :
    ∀ st : IState K, (ireadLoop M access e (got.map (Got.read e) ++ [.fail last]) st).2 =
      (got.flatMap Got.evs).foldl (IState.event M access) st := by
  induction got with
  | nil =>
    intro st
    rw [List.map_nil, List.nil_append, ireadLoop]
    split
    · rfl
    · split <;> rfl
  | cons g got ih =>
    intro st
    have hrest : Uninterrupted got last := ⟨fun g hg => h.1 g (List.mem_cons_of_mem _ hg), h.2⟩
    rw [List.map_cons, List.cons_append]
    cases g with
    | interrupted => exact absurd rfl (h.1 _ List.mem_cons_self)
    | events evs =>
      cases evs with
      | nil => exact absurd rfl (h.1 _ List.mem_cons_self)
      | cons ev evs =>
        rw [Got.read, ireadLoop, if_neg (flatMap_encode_ne_nil e ev evs), walk_encode]
        simp only [ih hrest]
        rw [List.flatMap_cons, List.foldl_append]
        rfl

section
variable {ients : List Ient} {evs : List IEvent} {st : IState K}

theorem dropped_append (ev : IEvent) (wd i : Nat) {k : Nat} (hk : k ≤ evs.length) :
    dropped access (evs ++ [ev]) wd i k = dropped access evs wd i k := by
  unfold dropped
  apply Bool.eq_iff_iff.mpr
  rw [List.any_eq_true, List.any_eq_true]
  apply exists_congr
  intro j
  apply and_congr_right
  intro hj
  rw [List.getElem?_append_left (Nat.lt_of_lt_of_le (List.mem_range.mp hj) hk)]

theorem wdAt_append (ev : IEvent) (wd i : Nat) {k : Nat} (hk : k ≤ evs.length) :
    wdAt access (evs ++ [ev]) wd i k = wdAt access evs wd i k := by
  rw [wdAt, wdAt, dropped_append ev wd i hk]

/-- The descriptor after one event more. -/
theorem wdAt_succ (ev : IEvent) (wd i : Nat) :
    wdAt access (evs ++ [ev]) wd i (evs.length + 1) =
      if ev.wd.toInt = wdAt access evs wd i evs.length ∧ access evs.length i = false then 0
      else wdAt access evs wd i evs.length := by
  have hdropped : dropped access (evs ++ [ev]) wd i (evs.length + 1) =
      (dropped access evs wd i evs.length ||
        (decide (ev.wd.toInt = (wd : Int)) && !access evs.length i)) := by
    rw [← dropped_append ev wd i (Nat.le_refl _)]
    simp [dropped, List.range_succ]
  unfold wdAt
  rw [hdropped]
  cases dropped access evs wd i evs.length with
  | true => simp
  | false => simp

/-- What is due is due at one of the events. -/
theorem Due.lt {k i : Nat} (h : Due access evs ients k i) : k < evs.length := by
  obtain ⟨ev, ent, hev, -⟩ := h
  exact (List.getElem?_eq_some_iff.mp hev).1

/-- An event and an entry that are due stay so with one event more. -/
theorem due_append (ev : IEvent) {k i : Nat} (hk : k < evs.length) :
    Due access (evs ++ [ev]) ients k i ↔ Due access evs ients k i := by
  unfold Due
  simp only [List.getElem?_append_left hk, wdAt_append ev _ i hk.le]

/-- What is due at the last event. -/
theorem due_last (ev : IEvent) (i : Nat) :
    Due access (evs ++ [ev]) ients evs.length i ↔ ∃ ent, ients[i]? = some ent ∧
      ({ ent with wd := wdAt access evs ent.wd i evs.length } : Ient).hit access evs.length
        ev.wd ev.mask i := by
  unfold Due Ient.hit
  simp only [List.getElem?_concat_length, wdAt_append ev _ i (Nat.le_refl _), Bool.and_eq_true,
    decide_eq_true_eq]
  constructor
  · intro ⟨_, ent, hev, hent, hmask, hwd, haccess⟩
    obtain rfl := Option.some.inj hev
    exact ⟨ent, hent, ⟨hwd, haccess⟩, hmask⟩
  · intro ⟨ent, hent, ⟨hwd, haccess⟩, hmask⟩
    exact ⟨ev, ent, rfl, hent, hmask, hwd, haccess⟩

/-- The state after `evs`. -/
structure Handled (access : Nat → Nat → Bool) (ients : List Ient) (evs : List IEvent)
    (st : IState K) : Prop where
  handled : st.handled = evs.length
  ients_at : ∀ i, st.dl.ients[i]? =
    ients[i]?.map fun ent : Ient => { ent with wd := wdAt access evs ent.wd i evs.length }
  inOrder : InOrder st.calls
  past : ∀ c ∈ st.calls, c.1 < evs.length
  due : ∀ k i, (k, i) ∈ st.calls ↔ Due access evs ients k i

theorem Handled.nil (dl : HpInotify K) : Handled access dl.ients [] ⟨dl, 0, []⟩ := by
  refine ⟨rfl, fun i => ?_, List.Pairwise.nil, fun c hc => absurd hc List.not_mem_nil, ?_⟩
  · have hwd : ∀ wd : Nat, wdAt access [] wd i ([] : List IEvent).length = wd := fun wd => rfl
    simp only [hwd]
    exact Option.map_id'.symm
  · exact fun k i => iff_of_false List.not_mem_nil fun hdue => absurd hdue.lt (Nat.not_lt_zero k)

/-- An event is handled. -/
theorem Handled.event (h : Handled access ients evs st) (ev : IEvent) :
    Handled access ients (evs ++ [ev]) (st.event M access ev) := by
  obtain ⟨hents, horder, hcalls⟩ :=
    entLoop_spec M access evs.length ev.wd ev.mask st.dl.ients 0 st.dl.kernel
  have hst : st.event M access ev =
      ⟨⟨(entLoop M access evs.length ev.wd ev.mask 0 st.dl.ients st.dl.kernel).1,
        (entLoop M access evs.length ev.wd ev.mask 0 st.dl.ients st.dl.kernel).2.1⟩,
        evs.length + 1,
        st.calls ++
          (entLoop M access evs.length ev.wd ev.mask 0 st.dl.ients st.dl.kernel).2.2⟩ := by
    rw [← h.handled]
    rfl
  rw [hst]
  refine ⟨by simp, fun i => ?_, ?_, ?_, ?_⟩
  · rw [hents, Nat.zero_add, h.ients_at, Option.map_map, List.length_append, List.length_singleton]
    congr 1
    funext ent
    rw [wdAt_succ]
    unfold Ient.after
    simp only [Function.comp_apply]
    split <;> rfl
  · refine List.pairwise_append.mpr ⟨h.inOrder, horder, fun c hc d hd => Or.inl ?_⟩
    rw [((hcalls d).mp hd).1]
    exact h.past c hc
  · intro c hc
    rw [List.length_append, List.length_singleton]
    rcases List.mem_append.mp hc with hc | hc
    · exact Nat.lt_succ_of_lt (h.past c hc)
    · rw [((hcalls c).mp hc).1]
      exact Nat.lt_succ_self _
  · intro k i
    rw [List.mem_append, h.due, hcalls]
    rcases Nat.lt_trichotomy k evs.length with hk | rfl | hk
    · rw [due_append ev hk]
      exact or_iff_left fun hc => absurd hc.1 hk.ne
    · rw [due_last]
      rw [or_iff_right fun hdue => absurd hdue.lt (Nat.lt_irrefl _)]
      constructor
      · intro ⟨_, j, ent, hj, hget, hhit⟩
        obtain rfl : i = j := by omega
        rw [h.ients_at] at hget
        obtain ⟨ent', hent', rfl⟩ := Option.map_eq_some_iff.mp hget
        exact ⟨ent', hent', hhit⟩
      · intro ⟨ent, hent, hhit⟩
        refine ⟨rfl, i, _, (Nat.zero_add i).symm, ?_, hhit⟩
        rw [h.ients_at, hent]
        rfl
    · refine iff_of_false (fun h => ?_) fun hdue => ?_
      · rcases h with hdue | ⟨hk', -⟩
        · exact absurd hdue.lt hk.not_gt
        · exact absurd hk' hk.ne'
      · have hlt := hdue.lt
        rw [List.length_append, List.length_singleton] at hlt
        exact absurd hk (Nat.not_lt.mpr (Nat.le_of_lt_succ hlt))

theorem Handled.run (dl : HpInotify K) (evs : List IEvent) :
    Handled access dl.ients evs (evs.foldl (IState.event M access) ⟨dl, 0, []⟩) := by
  induction evs using List.reverseRecOn with
  | nil => exact Handled.nil dl
  | append_singleton evs ev ih =>
    rw [List.foldl_append]
    exact ih.event ev

end

/-- The function returns with the calls that are due made, once each and in order, exactly if no
read is interrupted or empty and the last one fails with `EAGAIN`. -/
theorem delivers_iff (M : InotifyKernel K F) (access : Nat → Nat → Bool) (e : Endian)
    (dl : HpInotify K) (got : List Got) (last : Int) :
    Delivers M access e dl got last ↔ Uninterrupted got last := by
  unfold Delivers hpInotifyIreadEvent
  rw [ireadLoop_returned]
  apply and_iff_left_of_imp
  intro h
  rw [ireadLoop_state e h]
  exact ⟨(Handled.run dl _).inOrder, (Handled.run dl _).due⟩

end

/-- A modification of the file with descriptor 1. -/
def modified : IEvent := ⟨1, IN_MODIFY, 0, [], by decide⟩

def oneWatched : HpInotify (List Nat) := ⟨[⟨1, ['a'], none, 7, 0⟩], [0]⟩

/-- After an interrupted read the function loops forever, and the event that the next read would
give is not handled. An error other than `EAGAIN` fails an assertion. -/
theorem interrupted_spins :
    ¬ (∀ (dl : HpInotify (List Nat)) (got : List Got) (last : Int),
        (∀ evs, Got.events evs ∈ got → evs ≠ []) →
        Delivers plainKernel (fun _ _ => true) .little dl got last) ∧
      (hpInotifyIreadEvent plainKernel (fun _ _ => true) .little
        ([.interrupted, .events [modified]].map (Got.read .little) ++ [.fail EAGAIN])
        oneWatched).1 = .spins ∧
      (hpInotifyIreadEvent plainKernel (fun _ _ => true) .little
        ([.interrupted, .events [modified]].map (Got.read .little) ++ [.fail EAGAIN])
        oneWatched).2.calls = [] ∧
      (hpInotifyIreadEvent plainKernel (fun _ _ => true) .little [.fail 5] oneWatched).1 =
        .aborts := by
  refine ⟨fun hall => ?_, rfl, rfl, rfl⟩
  have hmem : ∀ evs, Got.events evs ∈ [.interrupted, .events [modified]] → evs ≠ [] := by
    rintro evs (_ | ⟨_, _ | ⟨_, h⟩⟩)
    · exact List.cons_ne_nil modified []
    · cases h
  obtain ⟨hreturned, -⟩ := hall oneWatched [.interrupted, .events [modified]] EAGAIN hmem
  cases hreturned

end Libhp.Ev
