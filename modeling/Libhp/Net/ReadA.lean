import Libhp.Io.Uio
import Libhp.Lib.Memmove

/-!
# Reading into a buffer

`read_a` of `hp_net.c`, the version for POSIX. It reads until `bytes` bytes are there, and asks for
the room that is left in the buffer, also when there is none.
-/
namespace Libhp.Net
open Libhp.Io (Byte EINTR EAGAIN)
open Memmove

/-- What `read` answers: bytes, none at the end of the file, or -1 with `errno`. -/
inductive ReadRes where
  | got (bytes : List Byte)
  | fail (errno : Int)
  deriving DecidableEq

def ReadRes.bytes : ReadRes → List Byte
  | .got bytes => bytes
  | .fail _ => []

/-- The answers of `read`, by the number of the call and the size asked for, of which it gives no
more. -/
structure Reader where
  read : Nat → Nat → ReadRes
  fits : ∀ k n, (read k n).bytes.length ≤ n
  errno_pos : ∀ k n errno, read k n = .fail errno → 0 < errno

/-- What `*err` is set to when `read` fails. -/
def readErr (errno : Int) : Int := if errno = EINTR ∨ errno = EAGAIN then EAGAIN else errno

/-- A call of `read`: where in the buffer it is to store, how much, and its answer. -/
structure ReadCall where
  offset : Nat
  size : Nat
  res : ReadRes
  deriving DecidableEq

/-- What `read_a` returns, `*err` if it is set, the buffer and the calls made. -/
structure ReadDone where
  nread : Nat
  err : Option Int
  buf : List Byte
  calls : List ReadCall
  deriving DecidableEq

section
variable (r : Reader) (bytes : Nat)

/-- The loop of `read_a`. Every round but the last one stores something. -/
def readLoop (k nread : Nat) (buf : List Byte) (calls : List ReadCall) : ReadDone :=
  match h : r.read k (buf.length - nread) with
  | .fail errno =>
    ⟨nread, some (readErr errno), buf, calls ++ [⟨nread, buf.length - nread, .fail errno⟩]⟩
  | .got [] => ⟨nread, some (-1), buf, calls ++ [⟨nread, buf.length - nread, .got []⟩]⟩
  | .got (c :: cs) =>
    let calls := calls ++ [⟨nread, buf.length - nread, .got (c :: cs)⟩]
    if nread + (c :: cs).length = bytes then
      ⟨nread + (c :: cs).length, some 0, overwrite buf nread (c :: cs), calls⟩
    else readLoop (k + 1) (nread + (c :: cs).length) (overwrite buf nread (c :: cs)) calls
termination_by buf.length - nread
decreasing_by
  have hfits := r.fits k (buf.length - nread)
  rw [h] at hfits
  simp only [ReadRes.bytes, List.length_cons] at hfits
  rw [length_overwrite (by rw [List.length_cons]; omega), List.length_cons]
  omega

/-- `read_a` -/
def readA (fd : Int) (buf : List Byte) : ReadDone :=
  if fd < 0 ∨ buf = [] then ⟨0, none, buf, []⟩ else readLoop r bytes 0 0 buf []

/-- The answers fill a buffer of `len` bytes without `bytes` being met, and the one to the read of
size 0 that follows is 0. -/
inductive FillsUp (len : Nat) : Nat → Nat → Prop
  | full {k : Nat} (h : r.read k 0 = .got []) : FillsUp len k len
  | more {k nread : Nat} {c : Byte} {cs : List Byte} (h : r.read k (len - nread) = .got (c :: cs))
    (hbytes : nread + (c :: cs).length ≠ bytes)
    (hrest : FillsUp len (k + 1) (nread + (c :: cs).length)) : FillsUp len k nread

end

/-- What the calls have stored. -/
def received (calls : List ReadCall) : List Byte := calls.flatMap fun c => c.res.bytes

/-- No call is asked to store beyond the buffer, what is returned is the number of bytes stored,
which are at the front of the buffer, and the end of the file is only reported when a call with
some room has found it. -/
structure ReadLaw (buf : List Byte) (done : ReadDone) : Prop where
  inside : ∀ c ∈ done.calls, c.offset + c.size ≤ buf.length
  count : done.nread = (received done.calls).length
  stored : done.buf = received done.calls ++ buf.drop done.nread
  eof : done.err = some (-1) → ∃ c ∈ done.calls, 0 < c.size ∧ c.res = .got []

section
variable {r : Reader} {bytes : Nat}

/-- The loop's invariant: what was received stands at the front, and no call has found the end. -/
structure Reading (buf₀ : List Byte) (nread : Nat) (buf : List Byte) (calls : List ReadCall) :
    Prop where
  inside : ∀ c ∈ calls, c.offset + c.size ≤ buf₀.length
  count : nread = (received calls).length
  room : nread ≤ buf₀.length
  stored : buf = received calls ++ buf₀.drop nread
  going : ∀ c ∈ calls, c.res ≠ .got []

theorem received_append (calls : List ReadCall) (c : ReadCall) :
    received (calls ++ [c]) = received calls ++ c.res.bytes := by
  simp [received]

theorem Reading.length {buf₀ buf : List Byte} {nread : Nat} {calls : List ReadCall}
    (h : Reading buf₀ nread buf calls) : buf.length = buf₀.length := by
  have hroom := h.room
  have hcount := h.count
  rw [h.stored, List.length_append, List.length_drop]
  omega

/-- One more call keeps within the buffer. -/
theorem Reading.inside_next {buf₀ buf : List Byte} {nread : Nat} {calls : List ReadCall}
    (h : Reading buf₀ nread buf calls) (res : ReadRes) :
    ∀ c ∈ calls ++ [⟨nread, buf.length - nread, res⟩], c.offset + c.size ≤ buf₀.length := by
  have hroom := h.room
  have hlen := h.length
  intro c hc
  rcases List.mem_append.mp hc with hc | hc
  · exact h.inside c hc
  · rw [List.mem_singleton.mp hc]
    show nread + (buf.length - nread) ≤ buf₀.length
    omega

/-- A call that gives something. -/
theorem Reading.next {buf₀ buf : List Byte} {nread : Nat} {calls : List ReadCall}
    (h : Reading buf₀ nread buf calls) {k : Nat} {c : Byte} {cs : List Byte}
    (hread : r.read k (buf.length - nread) = .got (c :: cs)) :
    Reading buf₀ (nread + (c :: cs).length) (overwrite buf nread (c :: cs))
      (calls ++ [⟨nread, buf.length - nread, .got (c :: cs)⟩]) := by
  have hfits := r.fits k (buf.length - nread)
  rw [hread] at hfits
  have hroom := h.room
  have hlen := h.length
  have hcount := h.count
  simp only [ReadRes.bytes] at hfits
  refine ⟨h.inside_next _, ?_, by omega, ?_, ?_⟩
  · rw [received_append, List.length_append, ← hcount]
    rfl
  · rw [received_append, overwrite, h.stored, List.take_left' hcount.symm, ← List.drop_drop,
      List.drop_left' hcount.symm, List.drop_drop]
    rfl
  · intro d hd
    rcases List.mem_append.mp hd with hd | hd
    · exact h.going d hd
    · rw [List.mem_singleton.mp hd]
      exact fun heq => by cases heq

/-- A last call that gives nothing. -/
theorem Reading.law {buf₀ buf : List Byte} {nread : Nat} {calls : List ReadCall}
    (h : Reading buf₀ nread buf calls) {res : ReadRes} (hres : res.bytes = []) {err : Option Int}
    (heof : err = some (-1) → 0 < buf.length - nread ∧ res = .got []) :
    ReadLaw buf₀ ⟨nread, err, buf, calls ++ [⟨nread, buf.length - nread, res⟩]⟩ := by
  have hreceived : received (calls ++ [⟨nread, buf.length - nread, res⟩]) = received calls := by
    rw [received_append, hres, List.append_nil]
  refine ⟨h.inside_next res, ?_, ?_, ?_⟩
  · rw [hreceived]
    exact h.count
  · rw [hreceived]
    exact h.stored
  · intro herr
    exact ⟨_, List.mem_append.mpr (.inr (List.mem_singleton.mpr rfl)), heof herr⟩

theorem readErr_pos (h : r.read k n = .fail errno) : 0 < readErr errno := by
  have hpos := r.errno_pos k n errno h
  unfold readErr EAGAIN
  split <;> omega

theorem readErr_ne (h : r.read k n = .fail errno) : some (readErr errno) ≠ some (-1) := by
  have hpos := readErr_pos h
  intro heq
  have hneg := Option.some.inj heq
  omega

theorem not_fillsUp_of_fail {len k nread : Nat} {errno : Int}
    (h : r.read k (len - nread) = .fail errno) : ¬ FillsUp r bytes len k nread := by
  intro hfills
  cases hfills with
  | full hread =>
    rw [Nat.sub_self, hread] at h
    cases h
  | more hread _ _ =>
    rw [hread] at h
    cases h

theorem fillsUp_iff_of_nil {len k nread : Nat} (hroom : nread ≤ len)
    (h : r.read k (len - nread) = .got []) : FillsUp r bytes len k nread ↔ len - nread = 0 := by
  constructor
  · intro hfills
    cases hfills with
    | full _ => exact Nat.sub_self _
    | more hread _ _ =>
      rw [hread] at h
      cases h
  · intro hfull
    obtain rfl : nread = len := by omega
    rw [hfull] at h
    exact .full h

theorem fillsUp_iff_of_cons {len k nread : Nat} {c : Byte} {cs : List Byte}
    (h : r.read k (len - nread) = .got (c :: cs)) :
    FillsUp r bytes len k nread ↔
      nread + (c :: cs).length ≠ bytes ∧
        FillsUp r bytes len (k + 1) (nread + (c :: cs).length) := by
  constructor
  · intro hfills
    cases hfills with
    | full hread =>
      rw [Nat.sub_self, hread] at h
      cases h
    | more hread hbytes hrest =>
      rw [hread] at h
      obtain ⟨rfl, rfl⟩ : _ ∧ _ := by simpa using h
      exact ⟨hbytes, hrest⟩
  · intro ⟨hbytes, hrest⟩
    exact .more h hbytes hrest

/-- From a state of the loop on, the law holds exactly if the answers do not fill the buffer. -/
theorem readLoop_law_iff {buf₀ : List Byte} (k nread : Nat) (buf : List Byte)
    (calls : List ReadCall) (h : Reading buf₀ nread buf calls) :
    ReadLaw buf₀ (readLoop r bytes k nread buf calls) ↔
      ¬ FillsUp r bytes buf₀.length k nread := by
  fun_induction readLoop r bytes k nread buf calls with
  | case1 k nread buf calls errno hread =>
    have hnothing : (ReadRes.fail errno).bytes = [] := rfl
    have hlaw := h.law hnothing (fun herr => absurd herr (readErr_ne hread))
    rw [h.length] at hread
    exact iff_of_true hlaw (not_fillsUp_of_fail hread)
  | case2 k nread buf calls hread =>
    have hlen := h.length
    rw [hlen] at hread
    rw [fillsUp_iff_of_nil h.room hread]
    constructor
    · intro hlaw hfull
      -- no call with some room has found the end
      obtain ⟨c, hc, hsize, hres⟩ := hlaw.eof rfl
      rcases List.mem_append.mp hc with hc | hc
      · exact h.going c hc hres
      · rw [List.mem_singleton.mp hc] at hsize
        simp only [] at hsize
        omega
    · intro hfull
      exact h.law rfl fun _ => ⟨by omega, rfl⟩
  | case3 k nread buf calls c cs hread calls' hbytes =>
    have hnext := h.next hread
    rw [h.length] at hread
    rw [fillsUp_iff_of_cons hread]
    refine iff_of_true ⟨hnext.inside, hnext.count, hnext.stored, fun herr => by cases herr⟩ ?_
    intro ⟨hne, _⟩
    exact hne hbytes
  | case4 k nread buf calls c cs hread calls' hbytes ih =>
    have hnext := h.next hread
    rw [h.length] at hread
    rw [fillsUp_iff_of_cons hread, ih hnext]
    constructor
    · intro hrest hfills
      exact hrest hfills.2
    · intro hfills hrest
      exact hfills ⟨hbytes, hrest⟩

/-- `read_a` keeps to the law exactly if nothing is read or the answers do not fill the buffer:
after that it asks for no byte, gets none and takes this for the end of the file. -/
theorem readA_law_iff (r : Reader) (bytes : Nat) (fd : Int) (buf : List Byte) :
    ReadLaw buf (readA r bytes fd buf) ↔
      fd < 0 ∨ buf = [] ∨ ¬ FillsUp r bytes buf.length 0 0 := by
  unfold readA
  split
  · next hguard =>
    refine iff_of_true ⟨fun c hc => (by cases hc), rfl, rfl, fun herr => (by cases herr)⟩ ?_
    rcases hguard with hfd | hbuf
    · exact .inl hfd
    · exact .inr (.inl hbuf)
  · next hguard =>
    have hstart : Reading buf 0 buf [] :=
      ⟨fun c hc => (by cases hc), rfl, Nat.zero_le _, rfl, fun c hc => (by cases hc)⟩
    rw [readLoop_law_iff 0 0 buf [] hstart]
    constructor
    · intro hfills
      exact .inr (.inr hfills)
    · intro hcases
      rcases hcases with hfd | hbuf | hfills
      · exact absurd (.inl hfd) hguard
      · exact absurd (.inr hbuf) hguard
      · exact hfills

end

/-- A peer that has sent `sent` and is still connected. A read of size 0 returns 0, whatever
there is to read. -/
def connected (sent : List Byte) : Reader where
  read k n := if n = 0 then .got [] else if k = 0 then .got (sent.take n) else .fail EAGAIN
  fits k n := by
    split
    · exact Nat.zero_le _
    · split
      · exact List.length_take_le _ _
      · exact Nat.zero_le _
  errno_pos k n errno h := by
    split at h
    · cases h
    · split at h
      · cases h
      · cases h
        decide

/-- Five bytes are wanted, and two of them are there and fill the buffer. -/
theorem readA_full_buffer :
    (readA (connected [7, 8, 9]) 5 3 [0, 0]).err = some (-1) ∧
      ¬ ReadLaw [0, 0] (readA (connected [7, 8, 9]) 5 3 [0, 0]) := by
  have hdone : readA (connected [7, 8, 9]) 5 3 [0, 0] =
      ⟨2, some (-1), [7, 8], [⟨0, 2, .got [7, 8]⟩, ⟨2, 0, .got []⟩]⟩ := by
    rw [readA, if_neg (by decide), readLoop]
    show readLoop (connected [7, 8, 9]) 5 1 2 [7, 8] [⟨0, 2, .got [7, 8]⟩] = _
    rw [readLoop]
    rfl
  rw [hdone]
  refine ⟨rfl, ?_⟩
  intro hlaw
  have heof := hlaw.eof rfl
  revert heof
  decide

end Libhp.Net
