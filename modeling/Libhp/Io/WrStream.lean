import Mathlib.Data.List.Forall2
import Libhp.Io.Wr

/-!
# The write queue as a byte stream

Runs of `hp_wr_add` and `hp_wr_write` against an arbitrary kernel. The trace
records what the descriptor takes and which free callbacks run, in order; the
ledger lists what the caller handed over. One invariant relates the two and is
preserved by every round of every call.
-/
namespace Libhp.Io

inductive WrEv where
  | accept (bs : List Byte)
  | free (f : FreeFn) (p : Ptr)
  | error (err : Int)
  deriving DecidableEq, Repr

/-- Everything the descriptor has taken. -/
def accepted : List WrEv → List Byte
  | [] => []
  | .accept bs :: log => bs ++ accepted log
  | _ :: log => accepted log

/-- The free callbacks that have run, each with its argument. -/
def freed : List WrEv → List (FreeFn × Ptr)
  | [] => []
  | .free f p :: log => (f, p) :: freed log
  | _ :: log => freed log

@[simp] theorem accepted_append (a b : List WrEv) :
    accepted (a ++ b) = accepted a ++ accepted b := by
  induction a with
  | nil => rfl
  | cons e a ih => cases e <;> simp [accepted, ih]

@[simp] theorem freed_append (a b : List WrEv) : freed (a ++ b) = freed a ++ freed b := by
  induction a with
  | nil => rfl
  | cons e a ih => cases e <;> simp [freed, ih]

/-- A kernel: the answer to its `t`-th `writev`, asked for `req` bytes, is a count up
to `req` or -1 with `errno` set; `sysconf` may give any IOV_MAX or none. -/
structure WrKernel where
  answer : Nat → Nat → SysRes
  ret_le : ∀ t req, (answer t req).ret ≤ req
  fails : ∀ t req, 0 < req → (answer t req).ret ≤ 0 →
    (answer t req).ret = -1 ∧ (answer t req).errno ≠ 0
  sysconf : Int
  IOV_MAX : Nat
  iov_pos : 0 < IOV_MAX

structure WrWorld where
  calls : Nat
  log : List WrEv
  deriving DecidableEq, Repr

namespace WrKernel

def writev (k : WrKernel) (vec : List Iovec) (s : WrWorld) : SysRes × WrWorld :=
  let r := k.answer s.calls (iovecTotalBytes vec)
  (r, { calls := s.calls + 1, log := s.log ++ [.accept ((described vec).take r.ret.toNat)] })

/-- `write_error`, where it is set, is a callback that leaves the queue alone. -/
def ops (k : WrKernel) (onError : Bool) : WrOps WrWorld where
  writev := k.writev
  free f p s := { s with log := s.log ++ [.free f p] }
  writeError :=
    if onError then some fun wr err s => (wr, { s with log := s.log ++ [.error err] }) else none
  touch := id

def iovMax (k : WrKernel) : Nat := iovMaxOf k.IOV_MAX k.sysconf

theorem iovMax_pos (k : WrKernel) : 0 < k.iovMax := by
  have h := k.iov_pos
  unfold iovMax iovMaxOf
  split <;> omega

theorem writev_ok (k : WrKernel) : WritevOk k.writev fun s => accepted s.log := by
  constructor
  · exact fun vec s => k.ret_le _ _
  · intro vec s
    simp [writev, accepted]
  · exact fun vec s => k.fails _ _

end WrKernel

/-- One call of `hp_wr_add`; `fresh` is the block that copy mode allocates. -/
structure WrAdd where
  buf : WrBuf
  free : HpFree
  ptr : Ptr
  fresh : Ptr
  fresh_ne : fresh ≠ 0

namespace WrAdd

/-- NULL buffers are refused. -/
def taken (a : WrAdd) : Bool := a.buf.addr != 0

/-- The callback the caller is owed, with the pointer it is to be given. -/
def owed (a : WrAdd) : Option (FreeFn × Ptr) :=
  match a.free with
  | .null => none
  | .cb f => some (.user f, if a.ptr = 0 then a.buf.addr else a.ptr)
  | .copy => some (.libc, a.fresh)

def item (a : WrAdd) : HpUioItem := wrItem a.buf a.free a.ptr a.fresh

end WrAdd

inductive WrOp where
  | add (a : WrAdd)
  | write

/-- The buffers that `ops` adds, in call order. -/
def added : List WrOp → List WrAdd
  | [] => []
  | .add a :: ops => if a.taken then a :: added ops else added ops
  | .write :: ops => added ops

def streamOf (adds : List WrAdd) : List Byte := adds.flatMap (·.buf.bytes)

/-- One call on the queue; the first component is what `hp_wr_write` returns. -/
def wrOp (k : WrKernel) (onError : Bool) : WrOp → HpWr × WrWorld → Option (Nat × HpWr × WrWorld)
  | .add a, (wr, s) => some (0, (hpWrAdd wr a.buf a.free a.ptr a.fresh).2, s)
  | .write, (wr, s) => hpWrWrite (k.ops onError) k.iovMax wr s

def wrRun (k : WrKernel) (onError : Bool) : List WrOp → HpWr × WrWorld → Option (HpWr × WrWorld)
  | [], st => some st
  | op :: ops, st =>
    match wrOp k onError op st with
    | none => none
    | some (_, st) => wrRun k onError ops st

def pending (wr : HpWr) : List Byte := described (wr.queue.map (·.vec))

def HpUioItem.owed (item : HpUioItem) : Option (FreeFn × Ptr) :=
  match item.free with
  | some f => if item.ptr = 0 then none else some (f, item.ptr)
  | none => none

theorem WrAdd.item_owed (a : WrAdd) (h : a.taken = true) : a.item.owed = a.owed := by
  have haddr : a.buf.addr ≠ 0 := by simpa [WrAdd.taken] using h
  cases hf : a.free with
  | null => simp [WrAdd.item, WrAdd.owed, HpUioItem.owed, wrItem, hf]
  | copy => simp [WrAdd.item, WrAdd.owed, HpUioItem.owed, wrItem, hf, a.fresh_ne]
  | cb f =>
    by_cases hp : a.ptr = 0
    · simp [WrAdd.item, WrAdd.owed, HpUioItem.owed, wrItem, hf, hp, haddr]
    · simp [WrAdd.item, WrAdd.owed, HpUioItem.owed, wrItem, hf, hp]

/-- At every moment of the trace the callbacks that have run are those of the buffers
of some front of the ledger, all of whose bytes the descriptor had taken by then. -/
def FreesLate (adds : List WrAdd) (log : List WrEv) : Prop :=
  ∀ pre, pre <+: log → ∃ front, front <+: adds ∧ freed pre = front.filterMap WrAdd.owed ∧
    (streamOf front).length ≤ (accepted pre).length

/-- A queue item against the ledger entry it came from. -/
def Matches (a : WrAdd) (item : HpUioItem) : Prop :=
  item.owed = a.owed ∧ item.vec.bytes.length ≤ a.buf.bytes.length

/-- The ledger invariant: the entries `done` are complete and released, the queue holds
the entries `todo`, and no byte is lost in between. -/
structure WrInv (adds : List WrAdd) (wr : HpWr) (log : List WrEv) : Prop where
  ok : wr.Ok
  split : ∃ done todo, adds = done ++ todo ∧ freed log = done.filterMap WrAdd.owed ∧
    List.Forall₂ Matches todo wr.queue
  stream : accepted log ++ pending wr = streamOf adds
  count : wr.oBytes = (accepted log).length
  late : FreesLate adds log

@[simp] theorem streamOf_append (a b : List WrAdd) :
    streamOf (a ++ b) = streamOf a ++ streamOf b := List.flatMap_append

theorem freesLate_nil (adds : List WrAdd) : FreesLate adds [] := by
  intro pre hp
  rw [List.prefix_nil.mp hp]
  exact ⟨[], List.nil_prefix, rfl, Nat.zero_le _⟩

theorem freesLate_concat {adds : List WrAdd} {log : List WrEv} {e : WrEv}
    (h : FreesLate adds log)
    (he : ∃ front, front <+: adds ∧ freed (log ++ [e]) = front.filterMap WrAdd.owed ∧
      (streamOf front).length ≤ (accepted (log ++ [e])).length) :
    FreesLate adds (log ++ [e]) := by
  intro pre hp
  rcases List.prefix_concat_iff.mp hp with rfl | hp
  · exact he
  · exact h pre hp

theorem freesLate_accept {adds : List WrAdd} {log : List WrEv} (h : FreesLate adds log)
    (bs : List Byte) : FreesLate adds (log ++ [.accept bs]) := by
  obtain ⟨front, hf, hfreed, hlen⟩ := h log List.prefix_rfl
  refine freesLate_concat h ⟨front, hf, by simp [freed, hfreed], ?_⟩
  rw [accepted_append, List.length_append]
  omega

theorem freesLate_error {adds : List WrAdd} {log : List WrEv} (h : FreesLate adds log)
    (err : Int) : FreesLate adds (log ++ [.error err]) := by
  obtain ⟨front, hf, hfreed, hlen⟩ := h log List.prefix_rfl
  exact freesLate_concat h ⟨front, hf, by simp [freed, hfreed], by simp [accepted, hlen]⟩

theorem freesLate_grow {adds : List WrAdd} {log : List WrEv} (h : FreesLate adds log)
    (a : WrAdd) : FreesLate (adds ++ [a]) log := by
  intro pre hp
  obtain ⟨front, hf, hrest⟩ := h pre hp
  exact ⟨front, hf.trans (List.prefix_append _ _), hrest⟩

/-- The trace of free callbacks run one after the other. -/
def freeEvs (xs : List (FreeFn × Ptr)) : List WrEv := xs.map fun x => .free x.1 x.2

@[simp] theorem freed_freeEvs (xs : List (FreeFn × Ptr)) : freed (freeEvs xs) = xs := by
  induction xs with
  | nil => rfl
  | cons x xs ih => simpa [freeEvs, freed] using ih

@[simp] theorem accepted_freeEvs (xs : List (FreeFn × Ptr)) : accepted (freeEvs xs) = [] := by
  induction xs with
  | nil => rfl
  | cons x xs ih => simpa [freeEvs, accepted] using ih

/-- Entries whose bytes are all accepted may be released one after the other. -/
theorem freesLate_releases {adds : List WrAdd} :
    ∀ (now done : List WrAdd) (log : List WrEv), FreesLate adds log →
      freed log = done.filterMap WrAdd.owed → done ++ now <+: adds →
      (streamOf (done ++ now)).length ≤ (accepted log).length →
      FreesLate adds (log ++ freeEvs (now.filterMap WrAdd.owed)) := by
  intro now
  induction now with
  | nil => intro done log h _ _ _; simpa [freeEvs] using h
  | cons a now ih =>
    intro done log h hfreed hfront hlen
    have hassoc : done ++ [a] ++ now = done ++ a :: now := by simp
    cases ho : a.owed with
    | none =>
      rw [List.filterMap_cons_none ho]
      exact ih (done ++ [a]) log h (by simp [hfreed, ho]) (hassoc ▸ hfront) (hassoc ▸ hlen)
    | some x =>
      have hnow : freed (log ++ [.free x.1 x.2]) = (done ++ [a]).filterMap WrAdd.owed := by
        simp [freed, hfreed, ho]
      have hstep : FreesLate adds (log ++ [.free x.1 x.2]) := by
        refine freesLate_concat h ⟨done ++ [a], ?_, hnow, ?_⟩
        · exact (List.prefix_append _ now).trans (hassoc ▸ hfront)
        · rw [← hassoc, streamOf_append, List.length_append] at hlen
          simp only [accepted_append, accepted, List.append_nil]
          omega
      have hall := ih (done ++ [a]) (log ++ [.free x.1 x.2]) hstep hnow (hassoc ▸ hfront)
        (by rw [hassoc]; simpa [accepted] using hlen)
      rw [List.filterMap_cons_some ho]
      simpa [freeEvs] using hall

theorem freeItems_log (k : WrKernel) (onError : Bool) (items : List HpUioItem) (s : WrWorld) :
    (freeItems (k.ops onError) items s).log =
      s.log ++ freeEvs (items.filterMap HpUioItem.owed) := by
  induction items generalizing s with
  | nil => simp [freeItems, freeEvs]
  | cons item items ih =>
    rw [freeItems, ih]
    cases hf : item.free with
    | none => simp [freeItem, HpUioItem.owed, hf]
    | some f =>
      by_cases hp : item.ptr = 0
      · simp [freeItem, HpUioItem.owed, hf, hp]
      · simp [freeItem, HpUioItem.owed, hf, hp, WrKernel.ops, freeEvs]

theorem matches_owed {todo : List WrAdd} {items : List HpUioItem}
    (h : List.Forall₂ Matches todo items) :
    items.filterMap HpUioItem.owed = todo.filterMap WrAdd.owed := by
  induction h with
  | nil => rfl
  | cons hm _ ih => rw [List.filterMap_cons, List.filterMap_cons, hm.1, ih]

theorem matches_length {todo : List WrAdd} {items : List HpUioItem}
    (h : List.Forall₂ Matches todo items) :
    (described (items.map (·.vec))).length ≤ (streamOf todo).length := by
  induction h with
  | nil => simp [streamOf]
  | cons hm _ ih =>
    have h := hm.2
    simp only [streamOf, List.flatMap_cons, List.length_append, List.map_cons, described_cons]
    simp only [streamOf] at ih
    omega

/-- Deleting the first `n` items establishes the invariant, given that what the other
items describe is all that the descriptor has not taken. -/
theorem hpEtioDelN_inv (k : WrKernel) (onError : Bool) {adds done todo : List WrAdd} {wr : HpWr}
    {s : WrWorld} (hok : wr.Ok) (hadds : adds = done ++ todo)
    (hfreed : freed s.log = done.filterMap WrAdd.owed) (hm : List.Forall₂ Matches todo wr.queue)
    {n : Nat} (hn : n ≤ wr.oItemsLen)
    (hstream : accepted s.log ++ described ((wr.queue.drop n).map (·.vec)) = streamOf adds)
    (hcount : wr.oBytes = (accepted s.log).length) (hlate : FreesLate adds s.log) :
    WrInv adds (hpEtioDelN (k.ops onError) wr n s).1 (hpEtioDelN (k.ops onError) wr n s).2.log := by
  have hq := hpEtioDelN_queue (k.ops onError) hok hn s
  have htake := List.forall₂_take n hm
  have hdrop := List.forall₂_drop n hm
  have hitems : wr.oItems.take n = wr.queue.take n := by
    rw [HpWr.queue, List.take_take, Nat.min_eq_left hn]
  have hlog : (hpEtioDelN (k.ops onError) wr n s).2.log =
      s.log ++ freeEvs ((todo.take n).filterMap WrAdd.owed) := by
    rw [← matches_owed htake, ← hitems]
    exact freeItems_log k onError _ s
  have hsplit : adds = done ++ todo.take n ++ todo.drop n := by
    rw [List.append_assoc, List.take_append_drop, hadds]
  have hout : (streamOf (done ++ todo.take n)).length ≤ (accepted s.log).length := by
    have hlen := congrArg List.length hstream
    have hrest := matches_length hdrop
    rw [hsplit, streamOf_append, List.length_append, List.length_append] at hlen
    omega
  rw [hlog]
  constructor
  · exact hpEtioDelN_ok _ hok hn s
  · refine ⟨done ++ todo.take n, todo.drop n, hsplit, ?_, hq ▸ hdrop⟩
    rw [freed_append, freed_freeEvs, hfreed, List.filterMap_append]
  · rw [accepted_append, accepted_freeEvs, List.append_nil, pending, hq]
    exact hstream
  · rw [accepted_append, accepted_freeEvs, List.append_nil]
    exact hcount
  · exact freesLate_releases _ done s.log hlate hfreed (hsplit ▸ List.prefix_append _ _) hout

/-- Storing the trimmed vector: from item `n` on, the queue describes what
`hp_uio_write` left undone and what it was not given. -/
theorem setVec_drop {wr : HpWr} {u : UioRes} {m : Nat} (hm : m ≤ wr.queue.length)
    (hn : u.n < m) (hlen : u.n < u.vec.length)
    (htail : u.vec.drop (u.n + 1) = ((wr.queue.take m).map (·.vec)).drop (u.n + 1)) :
    ((setVec wr u.n (u.vec.getD u.n ⟨[], 0⟩)).queue.drop u.n).map (·.vec) =
      u.vec.drop u.n ++ (wr.queue.drop m).map (·.vec) := by
  have hq : u.n < wr.queue.length := by omega
  obtain ⟨d, rfl⟩ : ∃ d, m = u.n + 1 + d := ⟨m - (u.n + 1), by omega⟩
  have hrest : wr.queue.drop (u.n + 1) =
      (wr.queue.take (u.n + 1 + d)).drop (u.n + 1) ++ wr.queue.drop (u.n + 1 + d) := by
    have h := List.take_append_drop d (wr.queue.drop (u.n + 1))
    rw [List.drop_drop] at h
    rw [List.drop_take, Nat.add_sub_cancel_left, h]
  rw [setVec_queue, List.drop_modify_of_ge _ _ _ _ (Nat.le_refl _), Nat.sub_self,
    List.drop_eq_getElem_cons hq, List.modify_zero_cons, List.map_cons,
    List.drop_eq_getElem_cons hlen, htail, hrest, List.map_append, List.map_drop,
    List.getD_eq_getElem?_getD, List.getElem?_eq_getElem hlen, Option.getD_some,
    List.cons_append]

theorem setVec_matches {wr : HpWr} {todo : List WrAdd} (h : List.Forall₂ Matches todo wr.queue)
    (hfit : ∀ item ∈ wr.queue, item.vec.Fits) {n : Nat} {v : Iovec} (hv : v.Fits)
    (hlen : v.iovLen ≤ lenAt (wr.queue.map (·.vec)) n) :
    List.Forall₂ Matches todo (setVec wr n v).queue := by
  rw [setVec_queue]
  generalize wr.queue = items at h hfit hlen
  induction h generalizing n with
  | nil => simp
  | @cons a item todo items hm hrest ih =>
    cases n with
    | zero =>
      refine .cons ⟨hm.1, ?_⟩ hrest
      have hle := hm.2
      rw [Iovec.bytes_length (hfit item (by simp))] at hle
      rw [Iovec.bytes_length hv]
      exact Nat.le_trans hlen hle
    | succ n => exact .cons hm (ih (fun i hi => hfit i (by simp [hi])) hlen)

/-- After the book-keeping the array matches the ledger again, and from item `n` on it
describes exactly the bytes that were not moved. -/
theorem storeBack_spec {wr : HpWr} (hok : wr.Ok) {todo : List WrAdd}
    (hm : List.Forall₂ Matches todo wr.queue) {m : Nat} (hmle : m ≤ wr.oItemsLen)
    {accepted : WrWorld → List Byte} {s s' : WrWorld} {u : UioRes}
    (hd : UioDone accepted ((wr.queue.take m).map (·.vec)) s u s') :
    (storeBack wr m u).Ok ∧ List.Forall₂ Matches todo (storeBack wr m u).queue ∧
      u.n ≤ m ∧ (storeBack wr m u).oItemsLen = wr.oItemsLen ∧
      (storeBack wr m u).oBytes = wr.oBytes + u.nwrite ∧
      ((storeBack wr m u).queue.drop u.n).map (·.vec) =
        u.vec.drop u.n ++ (wr.queue.drop m).map (·.vec) := by
  have hql := hok.queue_length
  have hlen : u.vec.length = m := by
    rw [hd.len, List.length_map, List.length_take, hql, Nat.min_eq_left hmle]
  have hok' : ({ wr with oBytes := wr.oBytes + u.nwrite } : HpWr).Ok :=
    ⟨hok.slots, hok.init, hok.pow, hok.len, hok.vecs⟩
  by_cases hn : u.n < m
  · have hmem : u.vec.getD u.n ⟨[], 0⟩ ∈ u.vec := by
      rw [List.getD_eq_getElem?_getD, List.getElem?_eq_getElem (by omega)]
      exact List.getElem_mem _
    have hshort : (u.vec.getD u.n ⟨[], 0⟩).iovLen ≤ lenAt (wr.queue.map (·.vec)) u.n := by
      have h := hd.short u.n
      simp only [lenAt, List.getElem?_map, List.getElem?_take_of_lt hn] at h ⊢
      rw [List.getElem?_eq_getElem (show u.n < u.vec.length by omega)] at h
      rw [List.getD_eq_getElem?_getD, List.getElem?_eq_getElem (show u.n < u.vec.length by omega)]
      exact h
    rw [show storeBack wr m u = setVec { wr with oBytes := wr.oBytes + u.nwrite } u.n
      (u.vec.getD u.n ⟨[], 0⟩) from if_pos hn]
    refine ⟨setVec_ok hok' _ (hd.fits _ hmem), ?_, Nat.le_of_lt hn, rfl, rfl, ?_⟩
    · exact setVec_matches (show List.Forall₂ Matches todo (HpWr.queue { wr with
        oBytes := wr.oBytes + u.nwrite }) from hm) hok.vecs (hd.fits _ hmem) hshort
    · exact setVec_drop (show m ≤ (HpWr.queue { wr with
        oBytes := wr.oBytes + u.nwrite }).length from Nat.le_trans hmle (Nat.le_of_eq hql.symm))
        hn (by omega) hd.tail
  · have hz : u.err = 0 := by
      by_contra hne
      have h := hd.part hne
      rw [← hd.len, hlen] at h
      exact hn h
    have hnm : u.n = m := by
      have h := hd.whole hz
      rw [h, ← hd.len, hlen]
    rw [show storeBack wr m u = { wr with oBytes := wr.oBytes + u.nwrite } from if_neg hn]
    refine ⟨hok', hm, Nat.le_of_eq hnm, rfl, rfl, ?_⟩
    rw [List.drop_eq_nil_of_le (show u.vec.length ≤ u.n by omega), List.nil_append, hnm]
    rfl

theorem WrInv.setErr {adds : List WrAdd} {wr : HpWr} {log : List WrEv} (h : WrInv adds wr log)
    (err : Int) : WrInv adds { wr with err := err } log :=
  ⟨⟨h.ok.slots, h.ok.init, h.ok.pow, h.ok.len, h.ok.vecs⟩, h.split, h.stream, h.count, h.late⟩

theorem WrInv.error {adds : List WrAdd} {wr : HpWr} {log : List WrEv} (h : WrInv adds wr log)
    (err : Int) : WrInv adds wr (log ++ [.error err]) := by
  obtain ⟨done, todo, hadds, hfreed, hm⟩ := h.split
  constructor
  · exact h.ok
  · exact ⟨done, todo, hadds, by simp [freed, hfreed], hm⟩
  · simpa [accepted] using h.stream
  · simpa [accepted] using h.count
  · exact freesLate_error h.late err

/-- One round of the loop of `hp_wr_write` on a non-empty queue: the invariant, the
bytes it moved, and whether it goes on. -/
theorem hpWrWriteLoop_round (k : WrKernel) (onError : Bool) {adds : List WrAdd} {wr : HpWr}
    {s : WrWorld} (h : WrInv adds wr s.log) (hne : wr.oItemsLen ≠ 0) (fuel oBytes : Nat) :
    ∃ wr' s' w, WrInv adds wr' s'.log ∧
      (accepted s'.log).length = (accepted s.log).length + w ∧
      (hpWrWriteLoop (k.ops onError) k.iovMax (fuel + 1) wr oBytes s =
          some (oBytes + w, wr', s') ∨
        (wr'.oItemsLen < wr.oItemsLen ∧
          hpWrWriteLoop (k.ops onError) k.iovMax (fuel + 1) wr oBytes s =
            hpWrWriteLoop (k.ops onError) k.iovMax fuel wr' (oBytes + w) s')) := by
  obtain ⟨done, todo, hadds, hfreed, hm⟩ := h.split
  have hql := h.ok.queue_length
  have hmax := k.iovMax_pos
  set m := min k.iovMax wr.oItemsLen with hmdef
  have hmle : m ≤ wr.oItemsLen := Nat.min_le_right _ _
  have hmpos : 0 < m := by omega
  have hvec : (wr.oItems.take m).map (·.vec) = (wr.queue.take m).map (·.vec) := by
    rw [HpWr.queue, List.take_take, Nat.min_eq_left hmle]
  have hfit : ∀ v ∈ (wr.queue.take m).map (·.vec), v.Fits := by
    intro v hv
    obtain ⟨item, hi, rfl⟩ := List.mem_map.mp hv
    exact h.ok.vecs item (List.mem_of_mem_take hi)
  have hwhole : described ((wr.queue.take m).map (·.vec)) ++
      described ((wr.queue.drop m).map (·.vec)) = pending wr := by
    rw [← described_append, ← List.map_append, List.take_append_drop, pending]
  simp only [hpWrWriteLoop, if_neg hne, ← hmdef, hvec]
  by_cases hW : iovecTotalBytes ((wr.queue.take m).map (·.vec)) = 0
  · -- only empty items: nothing to write, they are just deleted
    have hnil : described ((wr.queue.take m).map (·.vec)) = [] := by
      rw [← List.length_eq_zero_iff, described_length hfit, hW]
    have hinv := hpEtioDelN_inv k onError h.ok hadds hfreed hm hmle
      (by rw [← h.stream, ← hwhole, hnil, List.nil_append]) h.count h.late
    have hacc : accepted (hpEtioDelN (k.ops onError) wr m s).2.log = accepted s.log := by
      rw [hpEtioDelN, freeItems_log, accepted_append, accepted_freeEvs, List.append_nil]
    refine ⟨_, _, 0, hinv, by rw [hacc, Nat.add_zero], .inr ⟨?_, ?_⟩⟩
    · simp only [hpEtioDelN]; omega
    · rw [if_pos hW, Nat.add_zero]
  · rw [if_neg hW]
    obtain ⟨u, s₁, hrun, hd⟩ := hpUioWrite_spec k.writev_ok hfit (Nat.pos_of_ne_zero hW) s
    obtain ⟨bs, hacc, hbs, hall⟩ := hd.took
    obtain ⟨hok', hm', hle, hlen', hcnt', hdrop⟩ := storeBack_spec h.ok hm hmle hd
    have hquiet : FreesLate adds s₁.log ∧ freed s₁.log = done.filterMap WrAdd.owed := by
      refine hpUioWriteLoop_preserves
        (P := fun s => FreesLate adds s.log ∧ freed s.log = done.filterMap WrAdd.owed)
        ?_ hrun ⟨h.late, hfreed⟩
      rintro vec s ⟨hl, hf⟩
      exact ⟨freesLate_accept hl _, by simp [WrKernel.writev, freed, hf]⟩
    have hinv := hpEtioDelN_inv k onError hok' hadds hquiet.2 hm' (s := s₁) (n := u.n)
      (by omega)
      (by rw [hacc, hdrop, described_append, List.append_assoc, ← List.append_assoc bs, hall,
            hwhole, h.stream])
      (by rw [hcnt', hacc, List.length_append, hbs, h.count]) hquiet.1
    have hacc' : (accepted (hpEtioDelN (k.ops onError) (storeBack wr m u) u.n s₁).2.log).length =
        (accepted s.log).length + u.nwrite := by
      rw [hpEtioDelN, freeItems_log, accepted_append, accepted_freeEvs, List.append_nil, hacc,
        List.length_append, hbs]
    rw [show (k.ops onError).writev = k.writev from rfl, hrun]
    dsimp only
    rcases hdel : hpEtioDelN (k.ops onError) (storeBack wr m u) u.n s₁ with ⟨wr', s'⟩
    rw [hdel] at hinv hacc'
    dsimp only at hinv hacc' ⊢
    by_cases he : u.err = 0
    · -- everything asked for is out: the items are gone and the loop goes on
      rw [if_pos he]
      refine ⟨wr', s', u.nwrite, hinv, hacc', .inr ⟨?_, rfl⟩⟩
      have hn : u.n = m := by
        rw [hd.whole he, List.length_map, List.length_take, hql, Nat.min_eq_left hmle]
      have hl : wr'.oItemsLen = (storeBack wr m u).oItemsLen - u.n :=
        (congrArg (fun x => x.1.oItemsLen) hdel).symm
      omega
    · rw [if_neg he]
      by_cases ha : u.err = EAGAIN
      · rw [if_pos ha]
        exact ⟨wr', s', u.nwrite, hinv, hacc', .inl rfl⟩
      · rw [if_neg ha]
        cases onError with
        | false =>
          exact ⟨{ wr' with err := u.err }, s', u.nwrite, hinv.setErr _, hacc', .inl rfl⟩
        | true =>
          refine ⟨{ wr' with err := u.err }, { s' with log := s'.log ++ [.error u.err] },
            u.nwrite, (hinv.error _).setErr _, ?_, .inl rfl⟩
          rw [accepted_append, List.length_append, hacc']
          rfl

/-- Rounds are bounded by the items queued: the loop ends with the invariant. -/
theorem hpWrWriteLoop_inv (k : WrKernel) (onError : Bool) {adds : List WrAdd} :
    ∀ (fuel : Nat) (wr : HpWr) (s : WrWorld) (oBytes : Nat), WrInv adds wr s.log →
      wr.oItemsLen < fuel →
      ∃ wr' s' w, hpWrWriteLoop (k.ops onError) k.iovMax fuel wr oBytes s =
          some (oBytes + w, wr', s') ∧ WrInv adds wr' s'.log ∧
        (accepted s'.log).length = (accepted s.log).length + w := by
  intro fuel
  induction fuel with
  | zero => intro wr s oBytes _ hlt; omega
  | succ fuel ih =>
    intro wr s oBytes h hlt
    by_cases hz : wr.oItemsLen = 0
    · exact ⟨wr, s, 0, by simp only [hpWrWriteLoop, if_pos hz, Nat.add_zero], h, rfl⟩
    · obtain ⟨wr₁, s₁, w, h₁, hw, hret | ⟨hless, hgo⟩⟩ :=
        hpWrWriteLoop_round k onError h hz fuel oBytes
      · exact ⟨wr₁, s₁, w, hret, h₁, hw⟩
      · obtain ⟨wr₂, s₂, w₂, hrun, h₂, hw₂⟩ := ih wr₁ s₁ (oBytes + w) h₁ (by omega)
        exact ⟨wr₂, s₂, w + w₂, by rw [hgo, hrun, Nat.add_assoc], h₂, by omega⟩

theorem hpWrWrite_inv (k : WrKernel) (onError : Bool) {adds : List WrAdd} {wr : HpWr}
    {s : WrWorld} (h : WrInv adds wr s.log) :
    ∃ w wr' s', hpWrWrite (k.ops onError) k.iovMax wr s = some (w, wr', s') ∧
      WrInv adds wr' s'.log ∧ (accepted s'.log).length = (accepted s.log).length + w := by
  by_cases hz : wr.oItemsLen = 0
  · exact ⟨0, wr, s, if_pos hz, h, rfl⟩
  · obtain ⟨wr', s', w, hrun, h', hw⟩ :=
      hpWrWriteLoop_inv k onError (wr.oItemsLen + 1) wr s 0 h (Nat.lt_succ_self _)
    rw [Nat.zero_add] at hrun
    exact ⟨w, wr', s', by rw [hpWrWrite, if_neg hz, hrun], h', hw⟩

theorem hpWrAdd_inv {adds : List WrAdd} {wr : HpWr} {log : List WrEv} (h : WrInv adds wr log)
    (a : WrAdd) (ht : a.taken = true) :
    WrInv (adds ++ [a]) (hpWrAdd wr a.buf a.free a.ptr a.fresh).2 log := by
  obtain ⟨done, todo, hadds, hfreed, hm⟩ := h.split
  obtain ⟨hok, hq, ho⟩ := hpWrAdd_spec h.ok a.buf a.free a.ptr a.fresh
    (by simpa [WrAdd.taken] using ht)
  have hitem : Matches a (wrItem a.buf a.free a.ptr a.fresh) :=
    ⟨a.item_owed ht, Nat.le_of_eq (by rw [wrItem_bytes])⟩
  constructor
  · exact hok
  · refine ⟨done, todo ++ [a], by rw [hadds, List.append_assoc], hfreed, ?_⟩
    rw [hq]
    exact List.rel_append hm (.cons hitem .nil)
  · have hnew : pending (hpWrAdd wr a.buf a.free a.ptr a.fresh).2 = pending wr ++ a.buf.bytes := by
      rw [pending, hq, List.map_append, described_append]
      simp [pending, wrItem_bytes]
    rw [hnew, ← List.append_assoc, h.stream, streamOf_append]
    simp [streamOf]
  · exact ho.trans h.count
  · exact freesLate_grow h.late a

theorem wrOp_inv (k : WrKernel) (onError : Bool) {adds : List WrAdd} {wr : HpWr} {s : WrWorld}
    (h : WrInv adds wr s.log) (op : WrOp) :
    ∃ w wr' s', wrOp k onError op (wr, s) = some (w, wr', s') ∧
      WrInv (adds ++ added [op]) wr' s'.log := by
  cases op with
  | write =>
    obtain ⟨w, wr', s', hrun, h', _⟩ := hpWrWrite_inv k onError h
    exact ⟨w, wr', s', hrun, by simpa [added] using h'⟩
  | add a =>
    refine ⟨0, _, s, rfl, ?_⟩
    cases ht : a.taken with
    | true => simpa [added, ht] using hpWrAdd_inv h a ht
    | false =>
      have hz : a.buf.addr = 0 := by simpa [WrAdd.taken] using ht
      simpa [added, ht, hpWrAdd, hz] using h

theorem added_append (a b : List WrOp) : added (a ++ b) = added a ++ added b := by
  induction a with
  | nil => rfl
  | cons op a ih =>
    cases op with
    | write => simpa [added] using ih
    | add x => by_cases ht : x.taken <;> simp [added, ht, ih]

theorem wrRun_inv (k : WrKernel) (onError : Bool) :
    ∀ (ops : List WrOp) (adds : List WrAdd) (wr : HpWr) (s : WrWorld), WrInv adds wr s.log →
      ∃ wr' s', wrRun k onError ops (wr, s) = some (wr', s') ∧
        WrInv (adds ++ added ops) wr' s'.log := by
  intro ops
  induction ops with
  | nil => intro adds wr s h; exact ⟨wr, s, rfl, by simpa [added] using h⟩
  | cons op ops ih =>
    intro adds wr s h
    obtain ⟨w, wr₁, s₁, hop, h₁⟩ := wrOp_inv k onError h op
    obtain ⟨wr₂, s₂, hrun, h₂⟩ := ih _ wr₁ s₁ h₁
    refine ⟨wr₂, s₂, by rw [wrRun, hop]; exact hrun, ?_⟩
    rwa [List.append_assoc, ← added_append, List.singleton_append] at h₂

theorem wrInv_init (n : Int) : WrInv [] (hpWrInit n) [] := by
  constructor
  · exact hpWrInit_ok n
  · exact ⟨[], [], rfl, rfl, by simp⟩
  · simp [pending, accepted, streamOf]
  · rfl
  · exact freesLate_nil []

/-- Whatever is queued or done, the callbacks run and still owed are those of the ledger. -/
theorem WrInv.once {adds : List WrAdd} {wr : HpWr} {log : List WrEv} (h : WrInv adds wr log) :
    freed log ++ wr.queue.filterMap HpUioItem.owed = adds.filterMap WrAdd.owed := by
  obtain ⟨done, todo, hadds, hfreed, hm⟩ := h.split
  rw [hfreed, matches_owed hm, hadds, List.filterMap_append]

theorem hpWrClear_freed (k : WrKernel) (onError : Bool) (wr : HpWr) (s : WrWorld) :
    freed (hpWrClear (k.ops onError) wr s).2.log =
      freed s.log ++ wr.queue.filterMap HpUioItem.owed := by
  rw [hpWrClear, hpEtioDelN, freeItems_log, freed_append, freed_freeEvs, HpWr.queue]

/-- Every run of `hp_wr_add` and `hp_wr_write` returns. What the descriptor has taken,
followed by what the queue describes, is what was added; `o_bytes` and the next
`hp_wr_write` count the bytes taken; each callback has run once, after its bytes
were taken, or is still owed, and `hp_wr_clear` and `hp_wr_uninit` run those. -/
theorem wr_queue_stream (k : WrKernel) (onError : Bool) (n : Int) (ops : List WrOp) :
    ∃ wr s, wrRun k onError ops (hpWrInit n, ⟨0, []⟩) = some (wr, s) ∧
      accepted s.log ++ pending wr = streamOf (added ops) ∧
      wr.oBytes = (accepted s.log).length ∧
      (∃ w wr' s', wrOp k onError .write (wr, s) = some (w, wr', s') ∧
        (accepted s'.log).length = (accepted s.log).length + w) ∧
      freed s.log ++ wr.queue.filterMap HpUioItem.owed = (added ops).filterMap WrAdd.owed ∧
      FreesLate (added ops) s.log ∧
      freed (hpWrClear (k.ops onError) wr s).2.log = (added ops).filterMap WrAdd.owed ∧
      freed (hpWrUninit (k.ops onError) wr s).2.log = (added ops).filterMap WrAdd.owed := by
  obtain ⟨wr, s, hrun, h⟩ := wrRun_inv k onError ops [] _ ⟨0, []⟩ (wrInv_init n)
  rw [List.nil_append] at h
  obtain ⟨w, wr', s', hw, _, hcount⟩ := hpWrWrite_inv k onError h
  have hclear := (hpWrClear_freed k onError wr s).trans h.once
  exact ⟨wr, s, hrun, h.stream, h.count, ⟨w, wr', s', hw, hcount⟩, h.once, h.late, hclear, hclear⟩

end Libhp.Io
