import Libhp.Lib.Cells
import Libhp.Net.ReadA

/-!
# Scattered reads

`before_readv`, `do_readv` and `readv_a` of `hp_net.c`, over a memory of bytes. `readv` answers as
`read` does, and stores what it gives in the cells of the vectors, one vector after the other.
-/
namespace Libhp.Net
open Libhp.Io (Byte EINTR EAGAIN)
open Cells

structure Iovec where
  iovBase : Nat
  iovLen : Nat
  deriving DecidableEq

def Iovec.cells (v : Iovec) : List Nat := List.range' v.iovBase v.iovLen

/-- The cells of a vector of buffers, in the order in which `readv` fills them. -/
def cells (vec : List Iovec) : List Nat := vec.flatMap Iovec.cells

/-- Buffers of which no two have a byte in common. -/
structure Buffers where
  vec : List Iovec
  apart : (cells vec).Nodup

/-- The loop of `before_readv` over `vec[i..count)`; `r` is its running sum. The second component
is the index it stops at, if it stops. -/
def beforeReadvLoop (nread : Nat) : Nat → Nat → List Iovec → List Iovec × Option Nat
  | _, _, [] => ([], none)
  | r, i, v :: vec =>
    let r := r + v.iovLen
    if nread < r then
      let left := r - nread
      (⟨v.iovBase + v.iovLen - left, left⟩ :: vec, some i)
    else
      let (vec, n) := beforeReadvLoop nread r (i + 1) vec
      (v :: vec, n)

/-- `before_readv` -/
def beforeReadv (vec : List Iovec) (nread vecN : Nat) : List Iovec × Nat :=
  let (rest, n) := beforeReadvLoop nread 0 vecN (vec.drop vecN)
  (vec.take vecN ++ rest, n.getD vecN)

/-- A call of `readv`: the cells it is asked to fill, and its answer. -/
structure ReadvCall where
  asked : List Nat
  res : ReadRes
  deriving DecidableEq

/-- What `do_readv` and `readv_a` work on: the vectors, the index of the first that is not full, the
bytes read so far, the memory and the calls made. -/
structure Scatter where
  vec : List Iovec
  n : Nat
  nread : Nat
  mem : Nat → Byte
  calls : List ReadvCall

namespace Scatter

def start (vec : List Iovec) (mem : Nat → Byte) : Scatter := ⟨vec, 0, 0, mem, []⟩

def asked (s : Scatter) : List Nat := cells (s.vec.drop s.n)

/-- The answer of the `readv` that is called now. -/
def answer (r : Reader) (s : Scatter) : ReadRes := r.read s.calls.length s.asked.length

def took (s : Scatter) (res : ReadRes) : Scatter :=
  { s with
    nread := s.nread + res.bytes.length
    mem := store s.mem s.asked res.bytes
    calls := s.calls ++ [⟨s.asked, res⟩] }

def advance (s : Scatter) (nread : Nat) : Scatter :=
  { s with vec := (beforeReadv s.vec nread s.n).1, n := (beforeReadv s.vec nread s.n).2 }

end Scatter

/-- A failure after which `do_readv` calls `readv` again. -/
def Again (errno : Int) : Prop := errno = EINTR ∨ errno = EAGAIN

instance (errno : Int) : Decidable (Again errno) := by
  unfold Again
  infer_instance

def ReadRes.hard : ReadRes → Bool
  | .got _ => false
  | .fail errno => !decide (Again errno)

section
variable (r : Reader) (bytes : Nat)

/-- The loop of `do_readv`, with what it returns if `fuel` rounds are enough for it. -/
def doReadvLoop : Nat → Scatter → Option Int × Scatter
  | 0, s => (none, s)
  | fuel + 1, s =>
    let res := s.answer r
    let s := s.took res
    match res with
    | .fail errno => if Again errno then doReadvLoop fuel s else (some (-1), s)
    | .got [] => (some s.nread, s)
    | .got (c :: cs) =>
      if s.nread = bytes then (some s.nread, s)
      else doReadvLoop fuel (s.advance (c :: cs).length)

/-- `do_readv` -/
def doReadv (fuel : Nat) (vec : List Iovec) (mem : Nat → Byte) : Option Int × Scatter :=
  doReadvLoop r bytes fuel (.start vec mem)

/-- The loop of `readv_a`, with what it returns and `*err`. -/
def readvALoop : Nat → Scatter → Option (Nat × Int) × Scatter
  | 0, s => (none, s)
  | fuel + 1, s =>
    let res := s.answer r
    let s := s.took res
    match res with
    | .fail errno => (some (s.nread, readErr errno), s)
    | .got [] => (some (s.nread, -1), s)
    | .got (c :: cs) =>
      if s.nread = bytes then (some (s.nread, 0), { s with n := s.vec.length })
      else readvALoop fuel (s.advance (c :: cs).length)

/-- `readv_a`. Every round but the last one reads something, so `bytes` rounds are enough. -/
def readvA (vec : List Iovec) (mem : Nat → Byte) : Option (Nat × Int) × Scatter :=
  readvALoop r bytes bytes (.start vec mem)

end

/-- The stream that the calls have received. -/
def stream (calls : List ReadvCall) : List Byte := calls.flatMap fun c => c.res.bytes

def failed (calls : List ReadvCall) : Bool := calls.any fun c => c.res.hard

/-- Every call gets the next answer of `readv`, and is asked to fill the cells behind what was
received before it, of which there are some. The buffers begin with the stream received, and nothing
else is changed. -/
structure ReadvLaw (r : Reader) (bufs : Buffers) (mem : Nat → Byte) (s : Scatter) : Prop where
  answered : ∀ front c back, s.calls = front ++ c :: back →
    c.res = r.read front.length c.asked.length
  asked : ∀ front c back, s.calls = front ++ c :: back →
    c.asked = (cells bufs.vec).drop (stream front).length ∧ c.asked ≠ []
  stored : (cells bufs.vec).map s.mem =
    stream s.calls ++ ((cells bufs.vec).drop (stream s.calls).length).map mem
  frame : ∀ a, a ∉ cells bufs.vec → s.mem a = mem a

/-- From some call on `readv` is only interrupted or has nothing. -/
def Starved (r : Reader) : Prop :=
  ∃ k size, ∀ j ≥ k, ∃ errno, r.read j size = .fail errno ∧ Again errno

/-- An answer after which `do_readv` goes on. -/
def ReadRes.Goes (res : ReadRes) : Prop := res.bytes ≠ [] ∨ ∃ errno, res = .fail errno ∧ Again errno

/-- The answer that ends `do_readv`, and what it returns: all bytes are there, or it is the end of
the file, or an error. -/
inductive DoReadvEnd (bytes : Nat) (calls : List ReadvCall) : ReadRes → Int → Prop
  | full {bs : List Byte} (h : (stream calls).length = bytes) : DoReadvEnd bytes calls (.got bs) bytes
  | eof : DoReadvEnd bytes calls (.got []) (stream calls).length
  | error {errno : Int} (h : ¬ Again errno) : DoReadvEnd bytes calls (.fail errno) (-1)

/-- The answer that ends `readv_a`, what it returns and `*err`. -/
inductive ReadvAEnd (bytes : Nat) (calls : List ReadvCall) : ReadRes → Nat → Int → Prop
  | full {bs : List Byte} (h : (stream calls).length = bytes) : ReadvAEnd bytes calls (.got bs) bytes 0
  | eof : ReadvAEnd bytes calls (.got []) (stream calls).length (-1)
  | error {errno : Int} : ReadvAEnd bytes calls (.fail errno) (stream calls).length (readErr errno)

/-- `do_readv` keeps to the law however long it runs, and calls `readv` in every round. It goes on
until all bytes are there, the end of the file or an error, returns the number of bytes stored, or
-1 after an error, and it returns unless it waits for ever. -/
structure DoReadvLaw (r : Reader) (bytes : Nat) (bufs : Buffers) (mem : Nat → Byte) : Prop where
  law : ∀ fuel, ReadvLaw r bufs mem (doReadv r bytes fuel bufs.vec mem).2
  runs : ∀ fuel, (doReadv r bytes fuel bufs.vec mem).1 = none →
    (doReadv r bytes fuel bufs.vec mem).2.calls.length = fuel
  ends : ∀ fuel ret, (doReadv r bytes fuel bufs.vec mem).1 = some ret →
    ∃ front c, (doReadv r bytes fuel bufs.vec mem).2.calls = front ++ [c] ∧
      (∀ d ∈ front, d.res.Goes) ∧
      DoReadvEnd bytes (doReadv r bytes fuel bufs.vec mem).2.calls c.res ret
  ret : ∀ fuel ret, (doReadv r bytes fuel bufs.vec mem).1 = some ret →
    ret = if failed (doReadv r bytes fuel bufs.vec mem).2.calls then -1
      else ((stream (doReadv r bytes fuel bufs.vec mem).2.calls).length : Int)
  returns : (∃ fuel ret, (doReadv r bytes fuel bufs.vec mem).1 = some ret) ∨ Starved r

/-- `readv_a` keeps to the law, goes on until all bytes are there, the end of the file or a failure,
and returns the number of bytes stored; `*err` is 0 exactly if these are all. -/
structure ReadvALaw (r : Reader) (bytes : Nat) (bufs : Buffers) (mem : Nat → Byte) : Prop where
  law : ReadvLaw r bufs mem (readvA r bytes bufs.vec mem).2
  returns : ∃ ret err, (readvA r bytes bufs.vec mem).1 = some (ret, err) ∧
    ret = (stream (readvA r bytes bufs.vec mem).2.calls).length ∧ (err = 0 ↔ ret = bytes) ∧
    ∃ front c, (readvA r bytes bufs.vec mem).2.calls = front ++ [c] ∧
      (∀ d ∈ front, d.res.bytes ≠ []) ∧
      ReadvAEnd bytes (readvA r bytes bufs.vec mem).2.calls c.res ret err

/-- What holds of the memory and of the calls made so far. -/
structure Held (r : Reader) (bufs : Buffers) (mem : Nat → Byte) (s : Scatter) : Prop where
  count : s.nread = (stream s.calls).length
  room : s.nread ≤ (cells bufs.vec).length
  stored : s.mem = store mem (cells bufs.vec) (stream s.calls)
  answered : ∀ front c back, s.calls = front ++ c :: back →
    c.res = r.read front.length c.asked.length
  asked : ∀ front c back, s.calls = front ++ c :: back →
    c.asked = (cells bufs.vec).drop (stream front).length ∧ c.asked ≠ []

/-- The loops' invariant: the vectors describe the cells behind what was read, there are some, and
every answer so far was one after which the loop goes on. -/
structure Filling (r : Reader) (bufs : Buffers) (mem : Nat → Byte) (goes : ReadRes → Prop)
    (s : Scatter) : Prop extends Held r bufs mem s where
  rest : s.asked = (cells bufs.vec).drop s.nread
  more : s.nread < (cells bufs.vec).length
  going : ∀ c ∈ s.calls, goes c.res

section
variable {bufs : Buffers} {mem : Nat → Byte} {s : Scatter} {r : Reader} {goes : ReadRes → Prop}

theorem cells_cons (v : Iovec) (vec : List Iovec) : cells (v :: vec) = v.cells ++ cells vec :=
  List.flatMap_cons

theorem Iovec.length_cells (v : Iovec) : v.cells.length = v.iovLen := List.length_range'

theorem stream_append (calls : List ReadvCall) (c : ReadvCall) :
    stream (calls ++ [c]) = stream calls ++ c.res.bytes := by
  simp [stream]

theorem failed_append (calls : List ReadvCall) (c : ReadvCall) :
    failed (calls ++ [c]) = (failed calls || c.res.hard) := by
  simp [failed]

/-- While `nread` lies below the rest of the bytes the loop stops, inside the vector with the first
byte that is not read. -/
theorem beforeReadvLoop_spec (nread : Nat) (vec : List Iovec) (r i : Nat) (hr : r ≤ nread)
    (hlt : nread < r + (cells vec).length) :
    ∃ k, (beforeReadvLoop nread r i vec).2 = some (i + k) ∧
      cells ((beforeReadvLoop nread r i vec).1.drop k) = (cells vec).drop (nread - r) := by
  induction vec generalizing r i with
  | nil =>
    rw [show cells [] = [] from rfl, List.length_nil] at hlt
    omega
  | cons v vec ih =>
    have hv := v.length_cells
    rw [cells_cons, List.length_append, hv] at hlt
    rw [cells_cons]
    by_cases hstop : nread < r + v.iovLen
    · refine ⟨0, by simp only [beforeReadvLoop, hstop, ↓reduceIte, Nat.add_zero], ?_⟩
      simp only [beforeReadvLoop, hstop, ↓reduceIte, List.drop_zero, cells_cons]
      rw [List.drop_append_of_le_length (by omega)]
      congr 1
      show List.range' (v.iovBase + v.iovLen - (r + v.iovLen - nread)) (r + v.iovLen - nread) =
        (List.range' v.iovBase v.iovLen).drop (nread - r)
      rw [List.drop_range']
      congr 1 <;> omega
    · obtain ⟨k, hidx, hcells⟩ := ih (r + v.iovLen) (i + 1) (by omega) (by omega)
      refine ⟨k + 1, ?_, ?_⟩
      · simp only [beforeReadvLoop, hstop, ↓reduceIte, hidx]
        congr 1
        omega
      · have hpast : v.cells.drop (nread - r) = [] := List.drop_of_length_le (by omega)
        simp only [beforeReadvLoop, hstop, ↓reduceIte, List.drop_succ_cons, hcells]
        rw [List.drop_append, hpast, List.nil_append, hv]
        congr 1
        omega

/-- `before_readv` moves past exactly the bytes read. -/
theorem beforeReadv_cells {vec : List Iovec} {nread n : Nat}
    (hlt : nread < (cells (vec.drop n)).length) :
    cells ((beforeReadv vec nread n).1.drop (beforeReadv vec nread n).2) =
      (cells (vec.drop n)).drop nread := by
  have hn : n ≤ vec.length := by
    by_contra hn
    rw [List.drop_of_length_le (by omega)] at hlt
    exact absurd hlt (Nat.not_lt_zero _)
  obtain ⟨k, hidx, hcells⟩ := beforeReadvLoop_spec nread (vec.drop n) 0 n (Nat.zero_le _) (by omega)
  have htake : (vec.take n).length = n := List.length_take_of_le hn
  simp only [beforeReadv, hidx, Option.getD_some]
  rw [List.drop_append, List.drop_of_length_le (by omega), List.nil_append, htake,
    Nat.add_sub_cancel_left, hcells, Nat.sub_zero]

theorem Held.law (h : Held r bufs mem s) : ReadvLaw r bufs mem s := by
  have hroom := h.room
  rw [h.count] at hroom
  refine ⟨h.answered, h.asked, ?_, ?_⟩
  · rw [h.stored]
    exact map_store mem bufs.apart hroom
  · intro a ha
    rw [h.stored]
    exact store_of_notMem mem _ ha

theorem Scatter.answer_fits {res : ReadRes} (h : s.answer r = res) :
    res.bytes.length ≤ s.asked.length :=
  h ▸ r.fits _ _

theorem Filling.length_asked (h : Filling r bufs mem goes s) :
    s.asked.length = (cells bufs.vec).length - s.nread := by
  rw [h.rest, List.length_drop]

theorem Filling.took (h : Filling r bufs mem goes s) {res : ReadRes} (hres : s.answer r = res) :
    Held r bufs mem (s.took res) := by
  have hmore := h.more
  have hasked := h.length_asked
  have hfits := Scatter.answer_fits hres
  -- every call but the new one was there before
  have hcalls : ∀ {front c back}, (s.took res).calls = front ++ c :: back →
      (front = s.calls ∧ c = ⟨s.asked, res⟩) ∨ ∃ back', s.calls = front ++ c :: back' := by
    intro front c back hsplit
    rcases List.eq_nil_or_concat back with rfl | ⟨back, d, rfl⟩
    · obtain ⟨rfl, hc⟩ := List.append_inj' hsplit rfl
      exact .inl ⟨rfl, (List.singleton_inj.mp hc).symm⟩
    · rw [List.concat_eq_append, ← List.cons_append, ← List.append_assoc] at hsplit
      exact .inr ⟨back, (List.append_inj' hsplit rfl).1⟩
  refine ⟨?_, ?_, ?_, ?_, ?_⟩
  · show s.nread + _ = (stream (s.calls ++ [_])).length
    rw [stream_append, List.length_append, ← h.count]
  · show s.nread + _ ≤ _
    omega
  · show store s.mem s.asked _ = store mem _ (stream (s.calls ++ [_]))
    rw [stream_append, store_append, ← h.stored, ← h.count, ← h.rest]
  · intro front c back hsplit
    rcases hcalls hsplit with ⟨rfl, rfl⟩ | ⟨back', hold⟩
    · exact hres.symm
    · exact h.answered front c back' hold
  · intro front c back hsplit
    rcases hcalls hsplit with ⟨rfl, rfl⟩ | ⟨back', hold⟩
    · refine ⟨h.count ▸ h.rest, fun hnil => ?_⟩
      have hzero : s.asked.length = 0 := congrArg List.length hnil
      omega
    · exact h.asked front c back' hold

theorem Filling.going_took (h : Filling r bufs mem goes s) {res : ReadRes} (hgoes : goes res) :
    ∀ c ∈ (s.took res).calls, goes c.res := by
  intro c hc
  rcases List.mem_append.mp hc with hc | hc
  · exact h.going c hc
  · rw [List.mem_singleton.mp hc]
    exact hgoes

/-- A call after which `do_readv` calls again. -/
theorem Filling.again (h : Filling r bufs mem goes s) {errno : Int}
    (hres : s.answer r = .fail errno) (hgoes : goes (.fail errno)) :
    Filling r bufs mem goes (s.took (.fail errno)) :=
  { h.took hres with rest := h.rest, more := h.more, going := h.going_took hgoes }

/-- A call that leaves some cells unfilled. -/
theorem Filling.advance (h : Filling r bufs mem goes s) {c : Byte} {cs : List Byte}
    (hres : s.answer r = .got (c :: cs)) (hgoes : goes (.got (c :: cs)))
    (hne : s.nread + (c :: cs).length ≠ (cells bufs.vec).length) :
    Filling r bufs mem goes ((s.took (.got (c :: cs))).advance (c :: cs).length) := by
  have hfits : (c :: cs).length ≤ s.asked.length := Scatter.answer_fits hres
  have hheld := h.took hres
  have hmore := h.more
  have hasked := h.length_asked
  refine { count := hheld.count, room := hheld.room, stored := hheld.stored
           answered := hheld.answered, asked := hheld.asked
           rest := ?_, more := ?_, going := h.going_took hgoes }
  · show cells ((beforeReadv s.vec _ s.n).1.drop (beforeReadv s.vec _ s.n).2) =
      (cells bufs.vec).drop (s.nread + (c :: cs).length)
    rw [beforeReadv_cells, ← List.drop_drop, ← h.rest]
    · rfl
    · show (c :: cs).length < s.asked.length
      omega
  · show s.nread + (c :: cs).length < _
    omega

/-- What holds when the loop of `do_readv` has returned or is still running, `k` calls having been
made before it. -/
structure DoReadvDone (r : Reader) (bufs : Buffers) (mem : Nat → Byte) (k : Nat)
    (done : Option Int × Scatter) : Prop where
  held : Held r bufs mem done.2
  runs : done.1 = none → done.2.calls.length = k
  ends : ∀ ret, done.1 = some ret → ∃ front c, done.2.calls = front ++ [c] ∧
    (∀ d ∈ front, d.res.Goes) ∧ DoReadvEnd (cells bufs.vec).length done.2.calls c.res ret

section
variable {fuel : Nat} {errno : Int} {c : Byte} {cs : List Byte} {bytes : Nat}

theorem doReadvLoop_fail (h : s.answer r = .fail errno) :
    doReadvLoop r bytes (fuel + 1) s =
      if Again errno then doReadvLoop r bytes fuel (s.took (.fail errno))
      else (some (-1), s.took (.fail errno)) := by
  simp only [doReadvLoop, h]

theorem doReadvLoop_eof (h : s.answer r = .got []) :
    doReadvLoop r bytes (fuel + 1) s =
      (some ((s.took (.got [])).nread : Int), s.took (.got [])) := by
  simp only [doReadvLoop, h]

theorem doReadvLoop_got (h : s.answer r = .got (c :: cs)) :
    doReadvLoop r bytes (fuel + 1) s =
      if s.nread + (c :: cs).length = bytes then
        (some ((s.took (.got (c :: cs))).nread : Int), s.took (.got (c :: cs)))
      else doReadvLoop r bytes fuel ((s.took (.got (c :: cs))).advance (c :: cs).length) := by
  simp only [doReadvLoop, h]
  rfl

end

theorem Scatter.length_took (s : Scatter) (res : ReadRes) :
    (s.took res).calls.length = s.calls.length + 1 :=
  List.length_append

/-- A return after the call that gets `res`. -/
theorem Filling.returned (h : Filling r bufs mem ReadRes.Goes s) {res : ReadRes} {ret : Int}
    {k : Nat} (hres : s.answer r = res)
    (hend : DoReadvEnd (cells bufs.vec).length (s.took res).calls res ret) :
    DoReadvDone r bufs mem k (some ret, s.took res) where
  held := h.took hres
  runs hnone := by cases hnone
  ends ret' hret := by
    obtain rfl := Option.some.inj hret
    exact ⟨s.calls, _, rfl, h.going, hend⟩

/-- However long the loop of `do_readv` runs. -/
theorem doReadvLoop_done (h : Filling r bufs mem ReadRes.Goes s) (fuel : Nat) :
    DoReadvDone r bufs mem (s.calls.length + fuel)
      (doReadvLoop r (cells bufs.vec).length fuel s) := by
  induction fuel generalizing s with
  | zero => exact ⟨h.toHeld, fun _ => rfl, fun ret hret => by cases hret⟩
  | succ fuel ih =>
    have hnext : ∀ res, s.calls.length + (fuel + 1) = (s.took res).calls.length + fuel := by
      intro res
      rw [Scatter.length_took]
      omega
    rcases hres : s.answer r with bs | errno
    · cases bs with
      | nil =>
        rw [doReadvLoop_eof hres]
        apply h.returned hres
        rw [(h.took hres).count]
        exact .eof
      | cons c cs =>
        rw [doReadvLoop_got hres]
        split
        · next hfull =>
          apply h.returned hres
          rw [show (s.took (.got (c :: cs))).nread = (cells bufs.vec).length from hfull]
          exact .full ((h.took hres).count.symm.trans hfull)
        · next hne =>
          rw [hnext (.got (c :: cs))]
          exact ih (h.advance hres (.inl (List.cons_ne_nil c cs)) hne)
    · rw [doReadvLoop_fail hres]
      split
      · next hagain =>
        rw [hnext (.fail errno)]
        exact ih (h.again hres (.inr ⟨errno, rfl, hagain⟩))
      · next hagain => exact h.returned hres (.error hagain)

theorem ReadRes.Goes.soft {res : ReadRes} (h : res.Goes) : res.hard = false := by
  rcases h with hgot | ⟨errno, rfl, hagain⟩
  · cases res with
    | got bs => rfl
    | fail errno => exact absurd rfl hgot
  · simp [ReadRes.hard, hagain]

/-- What is returned, from how the loop has ended. -/
theorem DoReadvEnd.ret {front : List ReadvCall} {c : ReadvCall} {bytes : Nat} {ret : Int}
    (h : DoReadvEnd bytes (front ++ [c]) c.res ret) (hgoes : ∀ d ∈ front, d.res.Goes) :
    ret = if failed (front ++ [c]) then -1 else ((stream (front ++ [c])).length : Int) := by
  have hsoft : failed front = false :=
    List.any_eq_false.mpr fun d hd => by rw [(hgoes d hd).soft]; exact Bool.false_ne_true
  rw [failed_append, hsoft, Bool.false_or]
  obtain ⟨asked, res⟩ := c
  cases h with
  | full hbytes => exact congrArg Int.ofNat hbytes.symm
  | eof => rfl
  | error hhard => simp [ReadRes.hard, hhard]

/-- A call that is not made again ends the loop or fills some cells. -/
theorem Filling.moves (h : Filling r bufs mem ReadRes.Goes s)
    (hother : ∀ errno, s.answer r = .fail errno → ¬ Again errno) :
    (∃ ret, (doReadvLoop r (cells bufs.vec).length 1 s).1 = some ret) ∨
      ∃ s', Filling r bufs mem ReadRes.Goes s' ∧ s.nread < s'.nread ∧ ∀ fuel,
        doReadvLoop r (cells bufs.vec).length (fuel + 1) s =
          doReadvLoop r (cells bufs.vec).length fuel s' := by
  rcases hres : s.answer r with bs | errno
  · cases bs with
    | nil => exact .inl ⟨_, congrArg Prod.fst (doReadvLoop_eof hres)⟩
    | cons c cs =>
      by_cases hfull : s.nread + (c :: cs).length = (cells bufs.vec).length
      · exact .inl ⟨_, congrArg Prod.fst ((doReadvLoop_got hres).trans (if_pos hfull))⟩
      · refine .inr ⟨_, h.advance hres (.inl (List.cons_ne_nil c cs)) hfull, ?_, fun fuel => ?_⟩
        · show s.nread < s.nread + (c :: cs).length
          rw [List.length_cons]
          omega
        · exact (doReadvLoop_got hres).trans (if_neg hfull)
  · exact .inl ⟨_, congrArg Prod.fst ((doReadvLoop_fail hres).trans (if_neg (hother errno hres)))⟩

/-- It returns if some `readv` to come is not made again. -/
theorem doReadvLoop_returns (h : Filling r bufs mem ReadRes.Goes s) :
    (∃ fuel ret, (doReadvLoop r (cells bufs.vec).length fuel s).1 = some ret) ∨ Starved r := by
  -- by the number of cells that are left, and then by the number of calls until that one
  obtain ⟨left, hleft⟩ : ∃ left, left = (cells bufs.vec).length - s.nread := ⟨_, rfl⟩
  induction left using Nat.strong_induction_on generalizing s with
  | _ left ihleft =>
    have hmoves : ∀ s, Filling r bufs mem ReadRes.Goes s → left = (cells bufs.vec).length - s.nread →
        (∀ errno, s.answer r = .fail errno → ¬ Again errno) →
        (∃ fuel ret, (doReadvLoop r (cells bufs.vec).length fuel s).1 = some ret) ∨ Starved r := by
      intro s h hleft hother
      rcases h.moves hother with hret | ⟨s', h', hlt, hstep⟩
      · exact .inl ⟨1, hret⟩
      · have hmore := h.more
        rcases ihleft _ (by omega) h' rfl with ⟨fuel, hret⟩ | hstarved
        · refine .inl ⟨fuel + 1, ?_⟩
          rw [hstep]
          exact hret
        · exact .inr hstarved
    by_cases hstarved :
        ∀ j ≥ s.calls.length, ∃ errno, r.read j s.asked.length = .fail errno ∧ Again errno
    · exact .inr ⟨_, _, hstarved⟩
    · push Not at hstarved
      obtain ⟨j, hj, hother⟩ := hstarved
      obtain ⟨wait, rfl⟩ := Nat.exists_eq_add_of_le hj
      clear hj
      induction wait generalizing s with
      | zero => exact hmoves s h hleft hother
      | succ wait ihwait =>
        by_cases hnow : ∃ errno, s.answer r = .fail errno ∧ Again errno
        · obtain ⟨errno, hres, hagain⟩ := hnow
          have hnext : (s.took (.fail errno)).calls.length + wait =
              s.calls.length + (wait + 1) := by
            rw [Scatter.length_took]
            omega
          rcases ihwait (h.again hres (.inr ⟨errno, rfl, hagain⟩)) hleft (hnext ▸ hother) with ⟨fuel, hret⟩ | hstarved
          · refine .inl ⟨fuel + 1, ?_⟩
            rw [doReadvLoop_fail hres, if_pos hagain]
            exact hret
          · exact .inr hstarved
        · exact hmoves s h hleft fun errno hres hagain => hnow ⟨errno, hres, hagain⟩

/-- What holds when `readv_a` has returned. -/
structure ReadvADone (r : Reader) (bufs : Buffers) (mem : Nat → Byte) (ret : Nat) (err : Int)
    (s : Scatter) : Prop where
  held : Held r bufs mem s
  ends : ∃ front c, s.calls = front ++ [c] ∧ (∀ d ∈ front, d.res.bytes ≠ []) ∧
    ReadvAEnd (cells bufs.vec).length s.calls c.res ret err
  count : ret = (stream s.calls).length
  all : err = 0 ↔ ret = (cells bufs.vec).length

/-- `readv_a` returns, and has stored what it says. -/
theorem readvALoop_done (h : Filling r bufs mem (fun res => res.bytes ≠ []) s) {fuel : Nat}
    (hfuel : (cells bufs.vec).length ≤ s.nread + fuel) :
    ∃ ret err, (readvALoop r (cells bufs.vec).length fuel s).1 = some (ret, err) ∧
      ReadvADone r bufs mem ret err (readvALoop r (cells bufs.vec).length fuel s).2 := by
  have hmore := h.more
  induction fuel generalizing s with
  | zero => omega
  | succ fuel ih =>
    simp only [readvALoop]
    cases hres : s.answer r with
    | fail errno =>
      have hheld := h.took hres
      have herr : readErr errno ≠ 0 := (readErr_pos hres).ne'
      refine ⟨_, _, rfl, hheld, ⟨s.calls, _, rfl, h.going, ?_⟩, hheld.count, iff_of_false herr ?_⟩
      · rw [hheld.count]
        exact .error
      · show s.nread + 0 ≠ _
        omega
    | got bs =>
      have hheld := h.took hres
      cases bs with
      | nil =>
        refine ⟨_, _, rfl, hheld, ⟨s.calls, _, rfl, h.going, ?_⟩, hheld.count,
          iff_of_false (by decide) ?_⟩
        · rw [hheld.count]
          exact .eof
        · show s.nread + 0 ≠ _
          omega
      | cons c cs =>
        dsimp only
        split
        · next hfull =>
          refine ⟨_, _, rfl, ⟨hheld.count, hheld.room, hheld.stored, hheld.answered, hheld.asked⟩,
            ⟨s.calls, _, rfl, h.going, ?_⟩, hheld.count, iff_of_true rfl hfull⟩
          rw [hfull]
          exact .full (hheld.count.symm.trans hfull)
        · next hne =>
          have hnext := h.advance hres (List.cons_ne_nil c cs) hne
          refine ih hnext ?_ hnext.more
          show _ ≤ s.nread + (c :: cs).length + fuel
          rw [List.length_cons]
          omega

theorem length_cells (vec : List Iovec) : (cells vec).length = (vec.map Iovec.iovLen).sum := by
  induction vec with
  | nil => rfl
  | cons v vec ih =>
    rw [cells_cons, List.length_append, v.length_cells, ih, List.map_cons, List.sum_cons]

theorem filling_start (r : Reader) (bufs : Buffers) (mem : Nat → Byte) (goes : ReadRes → Prop)
    (hpos : 0 < (cells bufs.vec).length) :
    Filling r bufs mem goes (.start bufs.vec mem) where
  count := rfl
  room := Nat.zero_le _
  stored := (store_nil mem _).symm
  answered front c back hsplit := by cases front <;> cases hsplit
  asked front c back hsplit := by cases front <;> cases hsplit
  rest := rfl
  more := hpos
  going c hc := absurd hc List.not_mem_nil

end

/-- `do_readv` and `readv_a` with `bytes` the bytes of all the buffers. -/
theorem readv_law (r : Reader) (bufs : Buffers) (mem : Nat → Byte) {bytes : Nat}
    (hbytes : bytes = (bufs.vec.map Iovec.iovLen).sum) (hpos : 0 < bytes) :
    DoReadvLaw r bytes bufs mem ∧ ReadvALaw r bytes bufs mem := by
  obtain rfl : bytes = (cells bufs.vec).length := hbytes.trans (length_cells bufs.vec).symm
  have hstart := filling_start r bufs mem ReadRes.Goes hpos
  have hdone := doReadvLoop_done hstart
  constructor
  · refine ⟨fun fuel => (hdone fuel).held.law, fun fuel hnone => ?_, fun fuel => (hdone fuel).ends,
      fun fuel ret hret => ?_, doReadvLoop_returns hstart⟩
    · exact ((hdone fuel).runs hnone).trans (Nat.zero_add fuel)
    · obtain ⟨front, c, hcalls, hgoes, hend⟩ := (hdone fuel).ends ret hret
      rw [hcalls] at hend
      rw [doReadv, hcalls]
      exact hend.ret hgoes
  · obtain ⟨ret, err, hret, hread⟩ := readvALoop_done
      (filling_start r bufs mem (fun res => res.bytes ≠ []) hpos) (Nat.le_add_left _ _)
    exact ⟨hread.held.law, ret, err, hret, hread.count, hread.all, hread.ends⟩

/-- Three buffers, one of them empty and one behind the other, and a peer that has sent three
bytes: `do_readv` waits for the rest, `readv_a` returns with the three. -/
theorem readv_law_connected :
    (DoReadvLaw (connected [7, 8, 9]) 5 ⟨[⟨12, 2⟩, ⟨40, 0⟩, ⟨9, 3⟩], by decide⟩ (fun _ => 0) ∧
      ReadvALaw (connected [7, 8, 9]) 5 ⟨[⟨12, 2⟩, ⟨40, 0⟩, ⟨9, 3⟩], by decide⟩ (fun _ => 0)) ∧
    stream (readvA (connected [7, 8, 9]) 5 [⟨12, 2⟩, ⟨40, 0⟩, ⟨9, 3⟩] fun _ => 0).2.calls =
      [7, 8, 9] :=
  ⟨readv_law _ _ _ rfl (by decide), by decide⟩

end Libhp.Net
