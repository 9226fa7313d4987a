import Libhp.Io.WrStream

/-!
# The build without writev

`hp_wr_do_write` of `hp_io.c` and the part of `hp_wr_write` that is compiled without
`HAVE_SYS_UIO_H`: the items are written one by one. Everything around it (the batches, the
deletion of what is done, the error path) is the same code in both builds.
-/
namespace Libhp.Io

/-- `iov_base += w`, `iov_len -= w`. -/
def Iovec.advance (v : Iovec) (w : Nat) : Iovec :=
  { iovBase := v.iovBase.drop w, iovLen := v.iovLen - w }

structure WriteRes where
  nwrite : Nat
  err : Int
  vec : Iovec
  deriving DecidableEq, Repr

/-- Where the loop over the items stands: what it has changed, `n` and `err`. -/
structure ItemsRes where
  wr : HpWr
  oBytes : Nat
  n : Nat
  err : Int

section
variable {σ : Type} (write : Iovec → σ → SysRes × σ) (ops : WrOps σ)

/-- The loop of `hp_wr_do_write`. `none` means that `fuel` rounds did not end it. -/
def hpWrDoWriteLoop : Nat → Nat → Iovec → σ → Option (WriteRes × σ)
  | 0, _, _, _ => none
  | fuel + 1, nwrite, vec, s =>
    let (w, s) := write vec s
    if w.ret ≤ 0 then some (⟨nwrite, uioErr w, vec⟩, s)
    else
      let nwrite := nwrite + w.ret.toNat
      if w.ret.toNat = vec.iovLen then some (⟨nwrite, 0, vec⟩, s)
      else hpWrDoWriteLoop fuel nwrite (vec.advance w.ret.toNat) s

/-- Every round but the last moves at least one byte. -/
def hpWrDoWrite (vec : Iovec) (s : σ) : Option (WriteRes × σ) :=
  hpWrDoWriteLoop write (vec.iovLen + 1) 0 vec s

/-- `for(i = 0; i < vec_len; ++i)`, with `left` items to go. -/
def hpWrItemsLoop : Nat → Nat → ItemsRes → σ → Option (ItemsRes × σ)
  | 0, _, r, s => some (r, s)
  | left + 1, i, r, s =>
    let item := r.wr.oItems.getD i default
    (hpWrDoWrite write item.vec s).bind fun (d, s) =>
      let wr := { r.wr with oBytes := r.wr.oBytes + d.nwrite }
      let oBytes := r.oBytes + d.nwrite
      if d.nwrite < item.vec.iovLen then some (⟨setVec wr i d.vec, oBytes, r.n, d.err⟩, s)
      else hpWrItemsLoop left (i + 1) ⟨wr, oBytes, r.n + 1, d.err⟩ s

/-- The loop of `hp_wr_write`; `none` means that `fuel` rounds did not end it. -/
def hpWrWritePlainLoop (iovMax : Nat) : Nat → HpWr → Nat → σ → Option (Nat × HpWr × σ)
  | 0, _, _, _ => none
  | fuel + 1, wr, oBytes, s =>
    if wr.oItemsLen = 0 then some (oBytes, wr, s)
    else
      (hpWrItemsLoop write (min iovMax wr.oItemsLen) 0 ⟨wr, oBytes, 0, 0⟩ s).bind fun (r, s) =>
        let (wr, s) := hpEtioDelN ops r.wr r.n s
        if r.err = 0 then hpWrWritePlainLoop iovMax fuel wr r.oBytes s
        else if r.err = EAGAIN then some (r.oBytes, wr, s)
        else
          let (wr, s) := match ops.writeError with
            | some f => f wr r.err s
            | none => (wr, s)
          some (r.oBytes, { wr with err := r.err }, ops.touch s)

/-- `hp_wr_write` without `HAVE_SYS_UIO_H`. -/
def hpWrWritePlain (iovMax : Nat) (wr : HpWr) (s : σ) : Option (Nat × HpWr × σ) :=
  if wr.oItemsLen = 0 then some (0, wr, s)
  else hpWrWritePlainLoop write ops iovMax (wr.oItemsLen + 1) wr 0 s

end

/-- A descriptor that takes the next `left` bytes. `errno` is the thread's, `freed` lists the
free callbacks that have run, and `failed` tells whether `wr->err` was set. -/
structure WrFd where
  left : Nat
  out : List Byte
  errno : Int
  turn : Nat
  freed : List (FreeFn × Ptr)
  failed : Bool

def WrFd.start (left : Nat) (errno : Int) : WrFd := ⟨left, [], errno, 0, [], false⟩

/-- In what portions the descriptor takes its bytes, what the free callbacks do to `errno`, and
the `write_error` callback. -/
structure FdEnv where
  portion : Nat → Nat
  onFree : FreeFn → Ptr → Int → Int
  writeError : Option (HpWr → Int → WrFd → HpWr × WrFd)

namespace FdEnv

/-- A request to write the `len` bytes `bs`: some of them are taken while there is room, then
the answer is `EAGAIN`. A request for no bytes answers 0; only a failure sets `errno`. -/
def accept (env : FdEnv) (len : Nat) (bs : List Byte) (s : WrFd) : SysRes × WrFd :=
  if len = 0 then (⟨0, s.errno⟩, s)
  else if s.left = 0 then (⟨-1, EAGAIN⟩, { s with errno := EAGAIN })
  else
    let k := max 1 (min (env.portion s.turn) (min len s.left))
    (⟨k, s.errno⟩, { s with left := s.left - k, out := s.out ++ bs.take k, turn := s.turn + 1 })

def write (env : FdEnv) (v : Iovec) (s : WrFd) : SysRes × WrFd :=
  env.accept v.iovLen v.bytes s

def ops (env : FdEnv) : WrOps WrFd where
  writev vec s := env.accept (iovecTotalBytes vec) (described vec) s
  free f p s := { s with freed := s.freed ++ [(f, p)], errno := env.onFree f p s.errno }
  writeError := env.writeError
  touch s := { s with failed := true }

end FdEnv

/-- From `s` to `s'` the descriptor took `bs`, and nothing was freed or reported. -/
structure Took (s : WrFd) (bs : List Byte) (s' : WrFd) : Prop where
  left : s.left = s'.left + bs.length
  out : s'.out = s.out ++ bs
  freed : s'.freed = s.freed
  failed : s'.failed = s.failed

theorem Took.refl (s : WrFd) : Took s [] s := ⟨rfl, (List.append_nil _).symm, rfl, rfl⟩

theorem Took.trans {s s' s'' : WrFd} {a b : List Byte} (h : Took s a s') (h' : Took s' b s'') :
    Took s (a ++ b) s'' := by
  refine ⟨?_, ?_, h'.freed.trans h.freed, h'.failed.trans h.failed⟩
  · rw [h.left, h'.left, List.length_append]
    omega
  · rw [h'.out, h.out, List.append_assoc]

theorem advance_fits {v : Iovec} (hfit : v.Fits) (w : Nat) : (v.advance w).Fits := by
  show v.iovLen - w ≤ (v.iovBase.drop w).length
  rw [List.length_drop]
  exact Nat.sub_le_sub_right hfit w

theorem advance_bytes (v : Iovec) (w : Nat) : (v.advance w).bytes = v.bytes.drop w := by
  rw [Iovec.bytes, Iovec.bytes, List.drop_take]
  rfl

section
variable {env : FdEnv} {len : Nat} {bs : List Byte} {s : WrFd}

theorem accept_none : env.accept 0 bs s = (⟨0, s.errno⟩, s) := by
  rw [FdEnv.accept, if_pos rfl]

theorem accept_full (hlen : 0 < len) (hfull : s.left = 0) :
    env.accept len bs s = (⟨-1, EAGAIN⟩, { s with errno := EAGAIN }) := by
  rw [FdEnv.accept, if_neg (by omega), if_pos hfull]

/-- While there is room a request takes at least one byte. -/
theorem accept_some (env : FdEnv) (hlen : 0 < len) (hroom : 0 < s.left) (hbs : bs.length = len) :
    ∃ (k : Nat) (s' : WrFd), env.accept len bs s = (⟨k, s.errno⟩, s') ∧ 0 < k ∧ k ≤ len ∧
      s.left = s'.left + k ∧ Took s (bs.take k) s' ∧ s'.errno = s.errno := by
  have hk : 0 < max 1 (min (env.portion s.turn) (min len s.left)) := by omega
  have hle : max 1 (min (env.portion s.turn) (min len s.left)) ≤ min len s.left := by omega
  let k := max 1 (min (env.portion s.turn) (min len s.left))
  have hacc : env.accept len bs s = (⟨k, s.errno⟩,
      { s with left := s.left - k, out := s.out ++ bs.take k, turn := s.turn + 1 }) := by
    rw [FdEnv.accept, if_neg (by omega), if_neg (by omega)]
  have hroom' : s.left = s.left - k + k := by omega
  refine ⟨k, _, hacc, hk, by omega, hroom', ⟨?_, rfl, rfl, rfl⟩, rfl⟩
  rw [List.length_take, hbs]
  show s.left = s.left - k + min k len
  omega

/-- `hp_wr_do_write` on such a descriptor: the whole item, or what there is room for. -/
theorem hpWrDoWriteLoop_fd (env : FdEnv) : ∀ (fuel nwrite : Nat) (v : Iovec) (s : WrFd), v.Fits →
    0 < v.iovLen → v.iovLen < fuel →
    if v.iovLen ≤ s.left then
      ∃ d s', hpWrDoWriteLoop env.write fuel nwrite v s = some (d, s') ∧
        d.nwrite = nwrite + v.iovLen ∧ d.err = 0 ∧ Took s v.bytes s' ∧ s'.errno = s.errno
    else
      ∃ d s', hpWrDoWriteLoop env.write fuel nwrite v s = some (d, s') ∧
        d.nwrite = nwrite + s.left ∧ d.err = EAGAIN ∧ d.vec = v.advance s.left ∧
        Took s (v.bytes.take s.left) s' := by
  intro fuel
  induction fuel with
  | zero =>
    intro nwrite v s hfit hpos hfuel
    omega
  | succ fuel ih =>
    intro nwrite v s hfit hpos hfuel
    have hlen := Iovec.bytes_length hfit
    rw [hpWrDoWriteLoop, FdEnv.write]
    by_cases hfull : s.left = 0
    · rw [if_neg (show ¬ v.iovLen ≤ s.left by omega), accept_full hpos hfull]
      refine ⟨_, _, rfl, ?_, rfl, ?_, ?_⟩
      · rw [hfull, Nat.add_zero]
      · simp only [hfull, Iovec.advance, List.drop_zero, Nat.sub_zero]
      · rw [hfull, List.take_zero]
        exact ⟨by rw [hfull]; rfl, (List.append_nil _).symm, rfl, rfl⟩
    · obtain ⟨k, s₁, hacc, hkpos, hklen, hroom, htook, herrno⟩ :=
        accept_some env hpos (Nat.pos_of_ne_zero hfull) hlen
      rw [hacc]
      dsimp only
      rw [if_neg (show ¬ (k : Int) ≤ 0 by omega), Int.toNat_natCast]
      by_cases hwhole : k = v.iovLen
      · rw [if_pos hwhole, if_pos (show v.iovLen ≤ s.left by omega)]
        have hall : v.bytes.take k = v.bytes := List.take_of_length_le (by omega)
        exact ⟨_, _, rfl, by rw [hwhole], rfl, hall ▸ htook, herrno⟩
      · rw [if_neg hwhole]
        have hrest := ih (nwrite + k) (v.advance k) s₁ (advance_fits hfit k)
          (show 0 < v.iovLen - k by omega) (show v.iovLen - k < fuel by omega)
        rw [show (v.advance k).iovLen = v.iovLen - k from rfl, advance_bytes] at hrest
        by_cases hall : v.iovLen ≤ s.left
        · rw [if_pos hall]
          rw [if_pos (by omega)] at hrest
          obtain ⟨d, s', hrun, hn, herr, htook', herrno'⟩ := hrest
          refine ⟨d, s', hrun, by omega, herr, ?_, herrno'.trans herrno⟩
          rw [← List.take_append_drop k v.bytes]
          exact htook.trans htook'
        · rw [if_neg hall]
          rw [if_neg (by omega)] at hrest
          obtain ⟨d, s', hrun, hn, herr, hvec, htook'⟩ := hrest
          refine ⟨d, s', hrun, by omega, herr, ?_, ?_⟩
          · rw [hvec, hroom]
            simp only [Iovec.advance, List.drop_drop, Nat.add_comm k, Nat.sub_sub]
          · have hsplit : v.bytes.take s.left =
                v.bytes.take k ++ (v.bytes.drop k).take s₁.left := by
              rw [hroom, Nat.add_comm, List.take_add]
            rw [hsplit]
            exact htook.trans htook'

end
end Libhp.Io
