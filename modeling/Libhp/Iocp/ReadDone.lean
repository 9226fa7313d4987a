import Libhp.Lib.CInt

/-!
# What a read adds to the input buffer

The read branch of WM_IO in `hp_iocp_handle_msg`. Bytes that `on_data` has left wait in
`ibuf`, of fixed capacity; with bytes waiting, `on_data` is called until there is room for
the new ones. Running out of fuel is `none` and stands for a loop that goes on.
-/
namespace Libhp.Iocp
open CInt

/-- `on_data`: at the `t`-th call with a buffer, what it returns and how many bytes it
leaves at the front. -/
structure OnData where
  call : Nat → List UInt8 → Int × Nat
  left_le : ∀ t buf, (call t buf).2 ≤ buf.length

/-- `item->ibuf`, which has room for `cap` bytes. -/
structure IBuf where
  bytes : List UInt8
  cap : Nat
  fits : bytes.length ≤ cap

/-- How the branch ends: it writes past the end of `ibuf`, or the cast to `int` of what was
consumed is wrong, or it is done with what `on_data` returned last, the bytes in `ibuf`, and
the number of bytes that were consumed. -/
inductive ReadEnd where
  | overflow
  | badLen
  | done (rc : Int) (bytes : List UInt8) (eaten : Nat)
  deriving DecidableEq, Repr

section
variable (p : OnData)

def OnData.rc (t : Nat) (buf : List UInt8) : Int := (p.call t buf).1

def OnData.eaten (t : Nat) (buf : List UInt8) : Nat := buf.length - (p.call t buf).2

/-- The bytes that are left, moved to the front. -/
def OnData.left (t : Nat) (buf : List UInt8) : List UInt8 := buf.drop (p.eaten t buf)

/-- The loop that makes room, and the memcpy and the call after it. -/
def roomLoop (cap : Nat) (new : List UInt8) :
    Nat → Nat → List UInt8 → Int → Nat → Option ReadEnd
  | 0, _, _, _, _ => none
  | fuel + 1, t, ibuf, rc, eaten =>
    if cap - ibuf.length < new.length then
      -- sdsIncrLen(-(int)...)
      if INT_MAX < p.eaten t ibuf then some .badLen
      else if p.rc t ibuf < 0 then
        some (.done (p.rc t ibuf) (p.left t ibuf) (eaten + p.eaten t ibuf))
      else
        roomLoop cap new fuel (t + 1) (p.left t ibuf) (p.rc t ibuf) (eaten + p.eaten t ibuf)
    else if rc < 0 then some (.done rc ibuf eaten)
    else if INT_MAX < p.eaten t (ibuf ++ new) then some .badLen
    else
      some (.done (p.rc t (ibuf ++ new)) (p.left t (ibuf ++ new))
        (eaten + p.eaten t (ibuf ++ new)))

/-- The branch for a read of the bytes `new`. -/
def readDone (fuel : Nat) (ib : IBuf) (new : List UInt8) : Option ReadEnd :=
  if ib.bytes.length > 0 then roomLoop p ib.cap new fuel 0 ib.bytes 0 0
  else if p.rc 0 new ≥ 0 ∧ (p.left 0 new).length > 0 then
    if ib.cap < (p.left 0 new).length then some .overflow
    else some (.done (p.rc 0 new) (p.left 0 new) (p.eaten 0 new))
  else some (.done (p.rc 0 new) ib.bytes (p.eaten 0 new))

/-- The branch ends within `ibuf`, and leaves there what was not consumed. -/
def Reassembled (ib : IBuf) (new : List UInt8) : Prop :=
  ∃ fuel rc bytes eaten, readDone p fuel ib new = some (.done rc bytes eaten) ∧
    bytes.length ≤ ib.cap ∧ bytes = (ib.bytes ++ new).drop eaten

/-- What is in `ibuf` after `n` calls of `on_data`. -/
def OnData.rest (buf : List UInt8) : Nat → List UInt8
  | 0 => buf
  | n + 1 => p.left n (rest buf n)

/-- What the first `n` calls have consumed. -/
def OnData.total (buf : List UInt8) : Nat → Nat
  | 0 => 0
  | n + 1 => total buf n + p.eaten n (p.rest buf n)

/-- After `n` calls there is room and not before, and no call consumes more than an `int`
can say. -/
structure RoomAfter (cap : Nat) (buf new : List UInt8) (n : Nat) : Prop where
  early : ∀ k < n, cap < (p.rest buf k).length + new.length
  small : ∀ k < n, p.eaten k (p.rest buf k) ≤ INT_MAX
  room : (p.rest buf n).length + new.length ≤ cap
  last : p.eaten n (p.rest buf n ++ new) ≤ INT_MAX

end

section
variable {p : OnData} {buf new : List UInt8}

theorem OnData.length_left (t : Nat) (buf : List UInt8) :
    (p.left t buf).length = (p.call t buf).2 := by
  have hle := p.left_le t buf
  unfold OnData.left OnData.eaten
  rw [List.length_drop]
  omega

theorem OnData.rest_succ (buf : List UInt8) (n : Nat) :
    p.rest buf (n + 1) = p.left n (p.rest buf n) := rfl

theorem OnData.total_succ (buf : List UInt8) (n : Nat) :
    p.total buf (n + 1) = p.total buf n + p.eaten n (p.rest buf n) := rfl

/-- What is left is what has not been consumed. -/
theorem OnData.rest_eq (buf : List UInt8) (n : Nat) : p.rest buf n = buf.drop (p.total buf n) := by
  induction n with
  | zero => rfl
  | succ n ih =>
    rw [OnData.rest_succ, OnData.total_succ]
    unfold OnData.left
    rw [← List.drop_drop, ← ih]

theorem OnData.total_le (buf : List UInt8) (n : Nat) : p.total buf n ≤ buf.length := by
  induction n with
  | zero => exact Nat.zero_le _
  | succ n ih =>
    have hrest : (p.rest buf n).length = buf.length - p.total buf n := by
      rw [OnData.rest_eq, List.length_drop]
    have heaten : p.eaten n (p.rest buf n) ≤ (p.rest buf n).length := Nat.sub_le _ _
    rw [OnData.total_succ]
    omega

/-- Enough fuel: the loop makes its calls and then comes to the last one. -/
theorem roomLoop_done {cap n : Nat} (hrc : ∀ t b, 0 ≤ p.rc t b) (hnew : 0 < new.length)
    (h : RoomAfter p cap buf new n) (t : Nat) (ht : t ≤ n) (rc : Int) (hrc0 : 0 ≤ rc) :
    ∃ rc', roomLoop p cap new (n - t + 1) t (p.rest buf t) rc (p.total buf t) =
      some (.done rc' (p.left n (p.rest buf n ++ new))
        (p.total buf n + p.eaten n (p.rest buf n ++ new))) := by
  induction hd : n - t generalizing t rc with
  | zero =>
    obtain rfl : t = n := by omega
    have hroom := h.room
    unfold roomLoop
    rw [if_neg (by omega), if_neg (by omega), if_neg (by have := h.last; omega)]
    exact ⟨_, rfl⟩
  | succ d ih =>
    have hearly := h.early t (by omega)
    have hsmall := h.small t (by omega)
    have hrc' := hrc t (p.rest buf t)
    unfold roomLoop
    rw [if_pos (by omega), if_neg (by omega), if_neg (by omega)]
    exact ih (t + 1) (by omega) _ hrc' (by omega)

/-- If the loop ends well, there was room after some number of calls. -/
theorem roomAfter_of_done {cap fuel : Nat} (hrc : ∀ t b, 0 ≤ p.rc t b)
    {t : Nat} (hearly : ∀ k < t, cap < (p.rest buf k).length + new.length)
    (hsmall : ∀ k < t, p.eaten k (p.rest buf k) ≤ INT_MAX) {rc rc' : Int} (hrc0 : 0 ≤ rc)
    {e eaten : Nat} {bytes : List UInt8} (hcap : (p.rest buf t).length ≤ cap)
    (h : roomLoop p cap new fuel t (p.rest buf t) rc e = some (.done rc' bytes eaten)) :
    ∃ n, RoomAfter p cap buf new n := by
  induction fuel generalizing t rc e with
  | zero => cases h
  | succ fuel ih =>
    unfold roomLoop at h
    by_cases hroom : cap - (p.rest buf t).length < new.length
    · rw [if_pos hroom] at h
      by_cases hbad : INT_MAX < p.eaten t (p.rest buf t)
      · rw [if_pos hbad] at h
        cases h
      · rw [if_neg hbad, if_neg (by have := hrc t (p.rest buf t); omega)] at h
        refine ih (t := t + 1) (fun k hk => ?_) (fun k hk => ?_) (hrc t _) ?_ h
        · rcases Nat.lt_succ_iff_lt_or_eq.mp hk with hk | rfl
          · exact hearly k hk
          · omega
        · rcases Nat.lt_succ_iff_lt_or_eq.mp hk with hk | rfl
          · exact hsmall k hk
          · omega
        · show (p.left t (p.rest buf t)).length ≤ cap
          unfold OnData.left
          rw [List.length_drop]
          omega
    · rw [if_neg hroom, if_neg (by omega)] at h
      by_cases hbad : INT_MAX < p.eaten t (p.rest buf t ++ new)
      · rw [if_pos hbad] at h
        cases h
      · exact ⟨t, hearly, hsmall, by omega, by omega⟩

/-- With bytes waiting, the branch ends well exactly if some number of calls makes room. -/
theorem reassembled_waiting {ib : IBuf} (hrc : ∀ t b, 0 ≤ p.rc t b) (hnew : 0 < new.length)
    (hib : 0 < ib.bytes.length) :
    Reassembled p ib new ↔ ∃ n, RoomAfter p ib.cap ib.bytes new n := by
  unfold Reassembled readDone
  simp only [if_pos hib]
  constructor
  · intro ⟨fuel, rc, bytes, eaten, hrun, _, _⟩
    exact roomAfter_of_done (t := 0) hrc (by simp) (by simp) le_rfl ib.fits hrun
  · intro ⟨n, h⟩
    obtain ⟨rc, hrun⟩ := roomLoop_done hrc hnew h 0 (Nat.zero_le n) 0 le_rfl
    have htotal := OnData.total_le (p := p) ib.bytes n
    have hleft := p.left_le n (p.rest ib.bytes n ++ new)
    refine ⟨_, _, _, _, hrun, ?_, ?_⟩
    · rw [OnData.length_left]
      rw [List.length_append] at hleft
      exact hleft.trans h.room
    · unfold OnData.left
      rw [← List.drop_drop, OnData.rest_eq, List.drop_append_of_le_length htotal]

/-- With nothing waiting, it does exactly if what is left fits. -/
theorem reassembled_empty {ib : IBuf} (hrc : ∀ t b, 0 ≤ p.rc t b) (hib : ib.bytes = []) :
    Reassembled p ib new ↔ (p.left 0 new).length ≤ ib.cap := by
  have hzero : ¬ ib.bytes.length > 0 := by rw [hib]; decide
  unfold Reassembled readDone
  simp only [if_neg hzero]
  by_cases hleft : (p.left 0 new).length > 0
  · simp only [if_pos (show p.rc 0 new ≥ 0 ∧ _ from ⟨hrc 0 new, hleft⟩)]
    by_cases hfit : ib.cap < (p.left 0 new).length
    · simp only [if_pos hfit]
      constructor
      · intro ⟨fuel, rc, bytes, eaten, hrun, _, _⟩
        cases hrun
      · intro hle
        omega
    · simp only [if_neg hfit]
      refine iff_of_true ⟨0, _, _, _, rfl, Nat.le_of_not_lt hfit, ?_⟩ (Nat.le_of_not_lt hfit)
      rw [hib]
      rfl
  · simp only [if_neg (show ¬ (p.rc 0 new ≥ 0 ∧ _) from fun h => hleft h.2)]
    have hnil : p.left 0 new = [] := List.length_eq_zero_iff.mp (by omega)
    refine iff_of_true ⟨0, _, _, _, rfl, ib.fits, ?_⟩ (by omega)
    rw [hib]
    exact hnil.symm

/-- A read is reassembled exactly in these cases. With nothing waiting, what `on_data` leaves
of the new bytes fits in `ibuf`. With bytes waiting, `on_data` consumes enough of them, called
again and again, to make room for the new ones. -/
theorem read_reassembled (p : OnData) (ib : IBuf) (new : List UInt8)
    (hrc : ∀ t b, 0 ≤ p.rc t b) (hnew : 0 < new.length) :
    Reassembled p ib new ↔
      (ib.bytes = [] → (p.left 0 new).length ≤ ib.cap) ∧
      (ib.bytes ≠ [] → ∃ n, RoomAfter p ib.cap ib.bytes new n) := by
  by_cases hib : ib.bytes = []
  · rw [reassembled_empty hrc hib]
    exact ⟨fun h => ⟨fun _ => h, fun hne => absurd hib hne⟩, fun h => h.1 hib⟩
  · rw [reassembled_waiting hrc hnew (List.length_pos_iff.mpr hib)]
    exact ⟨fun h => ⟨fun he => absurd he hib, fun _ => h⟩, fun h => h.2 hib⟩

end

/-- A parser that waits for four bytes and then takes them. -/
def fourBytes : OnData where
  call _ buf := (0, if 4 ≤ buf.length then buf.length - 4 else buf.length)
  left_le t buf := by dsimp only; split <;> omega

/-- The second half of four bytes fits behind the first. -/
theorem read_reassembled_four : Reassembled fourBytes ⟨[1, 2], 4, by decide⟩ [3, 4] := by
  refine (read_reassembled fourBytes ⟨[1, 2], 4, by decide⟩ [3, 4] (fun _ _ => le_rfl)
    (by decide)).mpr ⟨fun h => absurd h (by decide), fun _ => ⟨0, ?_⟩⟩
  exact ⟨fun k hk => absurd hk (Nat.not_lt_zero k), fun k hk => absurd hk (Nat.not_lt_zero k),
    by decide, by decide⟩

/-- A parser that consumes nothing leaves the loop as it is. -/
theorem roomLoop_stuck {cap : Nat} {buf new : List UInt8} (hfull : cap - buf.length < new.length)
    (hfour : buf.length < 4) (fuel t : Nat) (rc : Int) (e : Nat) :
    roomLoop fourBytes cap new fuel t buf rc e = none := by
  have heaten : ∀ t, fourBytes.eaten t buf = 0 := fun t => by
    show buf.length - (if 4 ≤ buf.length then _ else _) = 0
    rw [if_neg (by omega), Nat.sub_self]
  have hleft : ∀ t, fourBytes.left t buf = buf := fun t => by
    unfold OnData.left
    rw [heaten, List.drop_zero]
  have hrc : ∀ t, ¬ fourBytes.rc t buf < 0 := fun t => show ¬ (0 : Int) < 0 by decide
  induction fuel generalizing t rc e with
  | zero => rfl
  | succ fuel ih =>
    unfold roomLoop
    rw [if_pos hfull, heaten, hleft, if_neg (by decide), if_neg (hrc t)]
    exact ih _ _ _

/-- A message of four bytes, three of which wait in a buffer for four, while a read brings
two: the handler never ends. With nothing waiting, a read of three bytes overflows a buffer
for two. -/
theorem read_not_reassembled :
    ¬ (∀ (p : OnData) (ib : IBuf) (new : List UInt8), (∀ t b, 0 ≤ p.rc t b) → 0 < new.length →
      Reassembled p ib new) ∧
    (∀ fuel, readDone fourBytes fuel ⟨[1, 2, 3], 4, by decide⟩ [4, 5] = none) ∧
    (∀ fuel, readDone fourBytes fuel ⟨[], 2, by decide⟩ [1, 2, 3] = some .overflow) := by
  have hnone : ∀ fuel, readDone fourBytes fuel ⟨[1, 2, 3], 4, by decide⟩ [4, 5] = none :=
    fun fuel => roomLoop_stuck (by decide) (by decide) fuel 0 0 0
  refine ⟨fun hall => ?_, hnone, fun fuel => rfl⟩
  obtain ⟨fuel, rc, bytes, eaten, hrun, -, -⟩ :=
    hall fourBytes ⟨[1, 2, 3], 4, by decide⟩ [4, 5] (fun _ _ => le_rfl) (by decide)
  rw [hnone fuel] at hrun
  cases hrun

end Libhp.Iocp
