import Libhp.Io.Uio

/-!
# The write queue

`hp_wr` of `hp_io.c`, in the `HAVE_SYS_UIO_H` build. `o_items` is the whole
allocated array, so capacity, `realloc` and `memmove` act on its slots and the
queue is its first `o_items_len` entries. System calls, free callbacks and the
error callback are parameters over an arbitrary outer state.
-/
namespace Libhp.Io

/-- The address of a block; 0 is NULL. -/
abbrev Ptr := Nat

/-- A function that an item may be released with: C's `free` or one of the caller's. -/
inductive FreeFn where
  | libc
  | user (id : Nat)
  deriving DecidableEq, Repr

/-- The `hp_free_t` argument of `hp_wr_add`: 0, a callback, or `(void *)-1`. -/
inductive HpFree where
  | null
  | cb (id : Nat)
  | copy
  deriving DecidableEq, Repr

structure HpUioItem where
  ptr : Ptr
  free : Option FreeFn
  vec : Iovec
  deriving DecidableEq, Repr

-- Slots that were never written hold an arbitrary item; no result depends on it.
instance : Inhabited HpUioItem := ⟨⟨0, none, ⟨[], 0⟩⟩⟩

structure HpWr where
  oItems : List HpUioItem
  O_ITEMS_INIT_LEN : Nat
  oItemsLen : Nat
  O_ITEMS_LEN : Nat
  oBytes : Nat
  err : Int
  deriving Repr

def reallocItems (items : List HpUioItem) (n : Nat) : List HpUioItem :=
  items.take n ++ List.replicate (n - items.length) default

/-- `o_items[0..o_items_len)`, the items still to be written. -/
def HpWr.queue (wr : HpWr) : List HpUioItem := wr.oItems.take wr.oItemsLen

def hpWrInit (n : Int) : HpWr :=
  let n := if n ≤ 0 then 8 else n.toNat
  { oItems := List.replicate n default, O_ITEMS_INIT_LEN := n, oItemsLen := 0,
    O_ITEMS_LEN := n, oBytes := 0, err := 0 }

def hpEtoReserve (wr : HpWr) (n : Nat) : HpWr :=
  { wr with O_ITEMS_LEN := n, oItems := reallocItems wr.oItems n }

/-- A buffer as `hp_wr_add` receives it: an address, the memory there, and a length
that the caller vouches for. -/
structure WrBuf where
  addr : Ptr
  mem : List Byte
  len : Nat
  fits : len ≤ mem.length

def WrBuf.bytes (b : WrBuf) : List Byte := b.mem.take b.len

/-- The item `hp_wr_add` builds; `fresh` is the block `malloc` returns in copy mode. -/
def wrItem (b : WrBuf) (free : HpFree) (ptr fresh : Ptr) : HpUioItem :=
  match free with
  | .copy => { ptr := fresh, free := some .libc, vec := ⟨b.bytes, b.len⟩ }
  | .cb f => { ptr := if ptr = 0 then b.addr else ptr, free := some (.user f), vec := ⟨b.mem, b.len⟩ }
  | .null => { ptr := if ptr = 0 then b.addr else ptr, free := none, vec := ⟨b.mem, b.len⟩ }

def wrGrow (wr : HpWr) : HpWr :=
  if wr.O_ITEMS_LEN - wr.oItemsLen ≤ 3 then hpEtoReserve wr (wr.O_ITEMS_LEN * 2)
  else if wr.O_ITEMS_LEN > wr.O_ITEMS_INIT_LEN ∧ wr.oItemsLen + 2 < wr.O_ITEMS_LEN / 2 then
    hpEtoReserve wr (wr.O_ITEMS_LEN / 2)
  else wr

def hpWrAdd (wr : HpWr) (b : WrBuf) (free : HpFree) (ptr fresh : Ptr) : Int × HpWr :=
  if b.addr = 0 then (-1, wr)
  else
    let wr := wrGrow wr
    (0, { wr with oItems := wr.oItems.set wr.oItemsLen (wrItem b free ptr fresh)
                  oItemsLen := wr.oItemsLen + 1 })

/-- What the write path needs from outside: the kernel, the free callbacks, the
`write_error` callback (which may change the `hp_wr` it is given), and `touch`,
run where `hp_wr_write` dereferences `wr` after `write_error` has returned. -/
structure WrOps (σ : Type) where
  writev : List Iovec → σ → SysRes × σ
  free : FreeFn → Ptr → σ → σ
  writeError : Option (HpWr → Int → σ → HpWr × σ)
  touch : σ → σ

section
variable {σ : Type} (ops : WrOps σ)

def freeItem (item : HpUioItem) (s : σ) : σ :=
  match item.free with
  | some f => if item.ptr = 0 then s else ops.free f item.ptr s
  | none => s

def freeItems : List HpUioItem → σ → σ
  | [], s => s
  | item :: items, s => freeItems items (freeItem ops item s)

-- memmove(o_items, o_items + n, sizeof(hp_uio_item) * (o_items_len - n))
def moveItems (wr : HpWr) (n : Nat) : List HpUioItem :=
  (wr.oItems.drop n).take (wr.oItemsLen - n) ++ wr.oItems.drop (wr.oItemsLen - n)

def hpEtioDelN (wr : HpWr) (n : Nat) (s : σ) : HpWr × σ :=
  ({ wr with oItems := moveItems wr n, oItemsLen := wr.oItemsLen - n },
    freeItems ops (wr.oItems.take n) s)

def hpWrClear (wr : HpWr) (s : σ) : HpWr × σ := hpEtioDelN ops wr wr.oItemsLen s

def hpWrUninit (wr : HpWr) (s : σ) : HpWr × σ :=
  let (wr, s) := hpWrClear ops wr s
  ({ wr with oItems := [] }, s)

def setVec (wr : HpWr) (n : Nat) (v : Iovec) : HpWr :=
  { wr with oItems := wr.oItems.modify n fun item => { item with vec := v } }

/-- Book what `hp_uio_write` did: count its bytes and copy the trimmed vector back. -/
def storeBack (wr : HpWr) (vecLen : Nat) (u : UioRes) : HpWr :=
  let wr := { wr with oBytes := wr.oBytes + u.nwrite }
  if u.n < vecLen then setVec wr u.n (u.vec.getD u.n ⟨[], 0⟩) else wr

/-- The loop of `hp_wr_write`; `none` means that `fuel` rounds did not end it. -/
def hpWrWriteLoop (iovMax : Nat) : Nat → HpWr → Nat → σ → Option (Nat × HpWr × σ)
  | 0, _, _, _ => none
  | fuel + 1, wr, oBytes, s =>
    if wr.oItemsLen = 0 then some (oBytes, wr, s)
    else
      let vecLen := min iovMax wr.oItemsLen
      let vec := (wr.oItems.take vecLen).map (·.vec)
      let W := iovecTotalBytes vec
      if W = 0 then
        let (wr, s) := hpEtioDelN ops wr vecLen s
        hpWrWriteLoop iovMax fuel wr oBytes s
      else
        match hpUioWrite ops.writev vec W s with
        | none => none
        | some (u, s) =>
          let oBytes := oBytes + u.nwrite
          let (wr, s) := hpEtioDelN ops (storeBack wr vecLen u) u.n s
          if u.err = 0 then hpWrWriteLoop iovMax fuel wr oBytes s
          else if u.err = EAGAIN then some (oBytes, wr, s)
          else
            let (wr, s) := match ops.writeError with
              | some f => f wr u.err s
              | none => (wr, s)
            some (oBytes, { wr with err := u.err }, ops.touch s)

def iovMaxOf (IOV_MAX : Nat) (sysconf : Int) : Nat :=
  if sysconf ≤ 0 then IOV_MAX else sysconf.toNat

/-- `hp_wr_write`. A round that goes on removes at least one item, so
`o_items_len + 1` rounds are enough. -/
def hpWrWrite (iovMax : Nat) (wr : HpWr) (s : σ) : Option (Nat × HpWr × σ) :=
  if wr.oItemsLen = 0 then some (0, wr, s)
  else hpWrWriteLoop ops iovMax (wr.oItemsLen + 1) wr 0 s

end

/-- What `hp_wr_write` leaves behind: `I` while `writev` goes well, and what the error path
makes of `H` after a `writev` that failed for good. -/
theorem hpWrWrite_rule {σ : Type} {ops : WrOps σ} {I H : σ → Prop} {E : HpWr → σ → Prop}
    (hI : ∀ vec s, I s → (ops.writev vec s).1.hard = false → I (ops.writev vec s).2)
    (hH : ∀ vec s, I s → (ops.writev vec s).1.hard = true → H (ops.writev vec s).2)
    (hIf : ∀ f p s, I s → I (ops.free f p s)) (hHf : ∀ f p s, H s → H (ops.free f p s))
    (hE : ∀ wr err s, H s →
      let r := match ops.writeError with
        | some f => f wr err s
        | none => (wr, s)
      E { r.1 with err := err } (ops.touch r.2))
    {iovMax : Nat} {wr : HpWr} {s : σ} {n : Nat} {wr' : HpWr} {s' : σ}
    (h : hpWrWrite ops iovMax wr s = some (n, wr', s')) (hs : I s) : I s' ∨ E wr' s' := by
  have hitems : ∀ {P : σ → Prop}, (∀ f p s, P s → P (ops.free f p s)) →
      ∀ (items : List HpUioItem) (s : σ), P s → P (freeItems ops items s) := by
    intro P hP items
    induction items with
    | nil => intro s hs; exact hs
    | cons item items ih =>
      intro s hs
      apply ih
      unfold freeItem
      split
      · split
        · exact hs
        · exact hP _ _ _ hs
      · exact hs
  have hloop : ∀ (fuel : Nat) (wr : HpWr) (o : Nat) (s : σ),
      hpWrWriteLoop ops iovMax fuel wr o s = some (n, wr', s') → I s → I s' ∨ E wr' s' := by
    intro fuel
    induction fuel with
    | zero => intro wr o s h _; cases h
    | succ fuel ih =>
      intro wr o s h hs
      simp only [hpWrWriteLoop] at h
      split at h
      · cases h
        exact .inl hs
      · split at h
        · exact ih _ _ _ h (hitems hIf _ _ hs)
        · split at h
          · cases h
          · next u s₁ hu =>
            have hend := hpUioWriteLoop_rule hI hH hu hs
            split at h
            · next herr =>
              rw [if_pos (.inl herr)] at hend
              exact ih _ _ _ h (hitems hIf _ _ hend)
            · split at h
              · next herr =>
                rw [if_pos (.inr herr)] at hend
                cases h
                exact .inl (hitems hIf _ _ hend)
              · next h0 hag =>
                rw [if_neg (by tauto)] at hend
                cases h
                exact .inr (hE _ _ _ (hitems hHf _ _ hend))
  unfold hpWrWrite at h
  split at h
  · cases h
    exact .inl hs
  · exact hloop _ _ _ _ h hs

/-- The array has `O_ITEMS_LEN` slots, the capacity is the initial one doubled some
number of times, and the queue lies inside it. -/
structure HpWr.Ok (wr : HpWr) : Prop where
  slots : wr.oItems.length = wr.O_ITEMS_LEN
  init : 0 < wr.O_ITEMS_INIT_LEN
  pow : ∃ k, wr.O_ITEMS_LEN = wr.O_ITEMS_INIT_LEN * 2 ^ k
  len : wr.oItemsLen ≤ wr.O_ITEMS_LEN
  vecs : ∀ item ∈ wr.queue, item.vec.Fits

namespace HpWr.Ok

theorem cap {wr : HpWr} (h : wr.Ok) : 0 < wr.O_ITEMS_LEN := by
  obtain ⟨k, hk⟩ := h.pow
  rw [hk]
  exact Nat.mul_pos h.init (Nat.two_pow_pos k)

theorem queue_length {wr : HpWr} (h : wr.Ok) : wr.queue.length = wr.oItemsLen := by
  simp only [HpWr.queue, List.length_take]
  exact Nat.min_eq_left (h.slots ▸ h.len)

/-- A capacity above the initial one is even, and its half is a capacity again. -/
theorem half {wr : HpWr} (h : wr.Ok) (hgt : wr.O_ITEMS_INIT_LEN < wr.O_ITEMS_LEN) :
    ∃ k, wr.O_ITEMS_LEN / 2 = wr.O_ITEMS_INIT_LEN * 2 ^ k := by
  obtain ⟨k, hk⟩ := h.pow
  cases k with
  | zero => simp at hk; omega
  | succ k => exact ⟨k, by rw [hk, Nat.pow_succ, ← Nat.mul_assoc, Nat.mul_div_cancel _ (by decide)]⟩

end HpWr.Ok

theorem hpWrInit_ok (n : Int) : (hpWrInit n).Ok := by
  have hpos : 0 < if n ≤ 0 then 8 else n.toNat := by split <;> omega
  constructor
  · simp [hpWrInit]
  · exact hpos
  · exact ⟨0, by simp [hpWrInit]⟩
  · exact Nat.zero_le _
  · simp [hpWrInit, HpWr.queue]

@[simp] theorem hpWrInit_queue (n : Int) : (hpWrInit n).queue = [] := by
  simp [hpWrInit, HpWr.queue]

theorem reallocItems_length (items : List HpUioItem) (n : Nat) :
    (reallocItems items n).length = n := by
  simp only [reallocItems, List.length_append, List.length_take, List.length_replicate]
  omega

/-- `realloc` keeps every slot that is in both arrays. -/
theorem reallocItems_take {items : List HpUioItem} {n k : Nat} (hk : k ≤ n)
    (hl : k ≤ items.length) : (reallocItems items n).take k = items.take k := by
  rw [reallocItems, List.take_append_of_le_length (by simp only [List.length_take]; omega),
    List.take_take, Nat.min_eq_left hk]

theorem hpEtoReserve_queue {wr : HpWr} (h : wr.Ok) {n : Nat} (hn : wr.oItemsLen ≤ n) :
    (hpEtoReserve wr n).queue = wr.queue :=
  reallocItems_take hn (h.slots ▸ h.len)

theorem hpEtoReserve_ok {wr : HpWr} (h : wr.Ok) {n : Nat} (hn : wr.oItemsLen ≤ n)
    (hp : ∃ k, n = wr.O_ITEMS_INIT_LEN * 2 ^ k) : (hpEtoReserve wr n).Ok := by
  constructor
  · exact reallocItems_length _ _
  · exact h.init
  · exact hp
  · exact hn
  · rw [hpEtoReserve_queue h hn]; exact h.vecs

/-- The capacity that `hp_wr_add` chooses holds the queue and one more item. -/
theorem wrGrow_spec {wr : HpWr} (h : wr.Ok) :
    (wrGrow wr).Ok ∧ (wrGrow wr).queue = wr.queue ∧
      (wrGrow wr).oItemsLen = wr.oItemsLen ∧ (wrGrow wr).oBytes = wr.oBytes ∧
      wr.oItemsLen < (wrGrow wr).O_ITEMS_LEN := by
  have hcap := h.cap
  have hlen := h.len
  unfold wrGrow
  split
  · have hdouble : ∃ k, wr.O_ITEMS_LEN * 2 = wr.O_ITEMS_INIT_LEN * 2 ^ k := by
      obtain ⟨k, hk⟩ := h.pow
      exact ⟨k + 1, by rw [hk, Nat.pow_succ, Nat.mul_assoc]⟩
    exact ⟨hpEtoReserve_ok h (by omega) hdouble, hpEtoReserve_queue h (by omega), rfl, rfl,
      by simp only [hpEtoReserve]; omega⟩
  · split
    · rename_i hhalf
      exact ⟨hpEtoReserve_ok h (by omega) (h.half hhalf.1), hpEtoReserve_queue h (by omega), rfl,
        rfl, by simp only [hpEtoReserve]; omega⟩
    · exact ⟨h, rfl, rfl, rfl, by omega⟩

theorem wrItem_fits (b : WrBuf) (free : HpFree) (ptr fresh : Ptr) :
    (wrItem b free ptr fresh).vec.Fits := by
  cases free with
  | null => exact b.fits
  | cb f => exact b.fits
  | copy =>
    simp only [wrItem, Iovec.Fits, WrBuf.bytes, List.length_take]
    exact Nat.le_of_eq (Nat.min_eq_left b.fits).symm

/-- Whatever the mode, the item describes the caller's `len` bytes. -/
theorem wrItem_bytes (b : WrBuf) (free : HpFree) (ptr fresh : Ptr) :
    (wrItem b free ptr fresh).vec.bytes = b.bytes := by
  cases free with
  | null => rfl
  | cb f => rfl
  | copy => simp [wrItem, Iovec.bytes, WrBuf.bytes, List.take_take]

theorem hpWrAdd_spec {wr : HpWr} (h : wr.Ok) (b : WrBuf) (free : HpFree) (ptr fresh : Ptr)
    (hb : b.addr ≠ 0) :
    (hpWrAdd wr b free ptr fresh).2.Ok ∧
      (hpWrAdd wr b free ptr fresh).2.queue = wr.queue ++ [wrItem b free ptr fresh] ∧
      (hpWrAdd wr b free ptr fresh).2.oBytes = wr.oBytes := by
  obtain ⟨hok, hq, hl, ho, hroom⟩ := wrGrow_spec h
  have hlt : (wrGrow wr).oItemsLen < (wrGrow wr).oItems.length := by rw [hok.slots, hl]; exact hroom
  have hqueue : (hpWrAdd wr b free ptr fresh).2.queue =
      wr.queue ++ [wrItem b free ptr fresh] := by
    simp only [hpWrAdd, if_neg hb, HpWr.queue]
    rw [List.take_succ_eq_append_getElem (by simpa using hlt), List.getElem_set_self,
      List.take_set_of_le (Nat.le_refl _)]
    exact congrArg (· ++ [wrItem b free ptr fresh]) hq
  refine ⟨?_, hqueue, by simp only [hpWrAdd, if_neg hb]; exact ho⟩
  constructor
  · simp only [hpWrAdd, if_neg hb, List.length_set]; exact hok.slots
  · simp only [hpWrAdd, if_neg hb]; exact hok.init
  · simp only [hpWrAdd, if_neg hb]; exact hok.pow
  · simp only [hpWrAdd, if_neg hb]; omega
  · intro item hi
    rw [hqueue] at hi
    rcases List.mem_append.mp hi with hi | hi
    · exact h.vecs item hi
    · rw [List.mem_singleton.mp hi]; exact wrItem_fits b free ptr fresh

theorem moveItems_length {wr : HpWr} (h : wr.Ok) {n : Nat} (hn : n ≤ wr.oItemsLen) :
    (moveItems wr n).length = wr.oItems.length := by
  have hle := h.slots ▸ h.len
  simp only [moveItems, List.length_append, List.length_take, List.length_drop]
  omega

/-- `hp_etio_del_n` shifts the queue by exactly `n` items. -/
theorem hpEtioDelN_queue {σ : Type} (ops : WrOps σ) {wr : HpWr} (h : wr.Ok) {n : Nat}
    (hn : n ≤ wr.oItemsLen) (s : σ) : (hpEtioDelN ops wr n s).1.queue = wr.queue.drop n := by
  have hle := h.slots ▸ h.len
  simp only [hpEtioDelN, HpWr.queue, moveItems]
  rw [List.take_append_of_le_length (by simp only [List.length_take, List.length_drop]; omega),
    List.take_take, Nat.min_self, List.drop_take]

theorem hpEtioDelN_ok {σ : Type} (ops : WrOps σ) {wr : HpWr} (h : wr.Ok) {n : Nat}
    (hn : n ≤ wr.oItemsLen) (s : σ) : (hpEtioDelN ops wr n s).1.Ok := by
  constructor
  · exact (moveItems_length h hn).trans h.slots
  · exact h.init
  · exact h.pow
  · exact Nat.le_trans (Nat.sub_le _ _) h.len
  · intro item hi
    rw [hpEtioDelN_queue ops h hn] at hi
    exact h.vecs item (List.mem_of_mem_drop hi)

theorem setVec_queue (wr : HpWr) (n : Nat) (v : Iovec) :
    (setVec wr n v).queue = wr.queue.modify n fun item => { item with vec := v } := by
  simp only [setVec, HpWr.queue]
  rw [List.take_modify]

theorem setVec_ok {wr : HpWr} (h : wr.Ok) (n : Nat) {v : Iovec} (hv : v.Fits) :
    (setVec wr n v).Ok := by
  constructor
  · simp only [setVec, List.length_modify]; exact h.slots
  · exact h.init
  · exact h.pow
  · exact h.len
  · intro item hi
    rw [setVec_queue] at hi
    obtain ⟨i, hi, rfl⟩ := List.getElem_of_mem hi
    rw [List.getElem_modify]
    split
    · exact hv
    · exact h.vecs _ (List.getElem_mem _)

end Libhp.Io
