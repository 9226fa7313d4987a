import Libhp.Io.WrPlain

/-!
# One batch in both builds

What a batch of items becomes on a descriptor with room for so many bytes: written one by one
with `write`, or in one go with `writev`. Either all of it goes out, or the last byte that does
falls in front of or into the first item that there is no room for.
-/
namespace Libhp.Io

def itemsLen (items : List HpUioItem) : Nat := iovecTotalBytes (items.map (·.vec))

def itemsBytes (items : List HpUioItem) : List Byte := described (items.map (·.vec))

/-- The free callbacks that deleting the items runs. -/
def callsOf (items : List HpUioItem) : List (FreeFn × Ptr) := items.filterMap HpUioItem.owed

/-- The first item that does not fit into `k` bytes. -/
def stopAt : Nat → List HpUioItem → Nat
  | _, [] => 0
  | k, item :: items =>
    if k < item.vec.iovLen then 0 else stopAt (k - item.vec.iovLen) items + 1

def endsEmpty (items : List HpUioItem) : Bool :=
  items.getLast?.any fun item => item.vec.iovLen = 0

/-- `errno` after some free callbacks. -/
def errnoAfter (onFree : FreeFn → Ptr → Int → Int) (e : Int) (calls : List (FreeFn × Ptr)) : Int :=
  calls.foldl (fun e c => onFree c.1 c.2 e) e

/-- `err` after the last of the items: a `write` of nothing counts as a failure. -/
def lastErr (e : Int) (items : List HpUioItem) (err : Int) : Int :=
  items.foldl (fun _ item => if item.vec.iovLen = 0 then uioErr ⟨0, e⟩ else 0) err

section
variable {items : List HpUioItem} {item : HpUioItem} {k n : Nat}

@[simp] theorem itemsLen_cons : itemsLen (item :: items) = item.vec.iovLen + itemsLen items := rfl

@[simp] theorem itemsBytes_cons :
    itemsBytes (item :: items) = item.vec.bytes ++ itemsBytes items := rfl

theorem itemsBytes_append (a b : List HpUioItem) :
    itemsBytes (a ++ b) = itemsBytes a ++ itemsBytes b := by
  rw [itemsBytes, List.map_append, described_append]
  rfl

theorem itemsBytes_length (h : ∀ item ∈ items, item.vec.Fits) :
    (itemsBytes items).length = itemsLen items := by
  apply described_length
  intro v hv
  obtain ⟨item, hitem, rfl⟩ := List.mem_map.mp hv
  exact h item hitem

theorem stopAt_lt (h : k < itemsLen items) : stopAt k items < items.length := by
  induction items generalizing k with
  | nil => cases h
  | cons item items ih =>
    rw [itemsLen_cons] at h
    rw [stopAt, List.length_cons]
    split
    · omega
    · have hrest := ih (show k - item.vec.iovLen < itemsLen items by omega)
      omega

theorem stopAt_le (k : Nat) (items : List HpUioItem) : stopAt k items ≤ items.length := by
  induction items generalizing k with
  | nil => exact Nat.le_refl 0
  | cons item items ih =>
    rw [stopAt, List.length_cons]
    split
    · omega
    · exact Nat.succ_le_succ (ih _)

/-- It is the item in which the running total passes `k`. -/
theorem stopAt_eq (hn : n < items.length) (hle : itemsLen (items.take n) ≤ k)
    (hlt : k < itemsLen (items.take (n + 1))) : stopAt k items = n := by
  induction items generalizing k n with
  | nil => cases hn
  | cons item items ih =>
    rw [List.take_succ_cons, itemsLen_cons] at hlt
    rw [stopAt]
    cases n with
    | zero =>
      rw [List.take_zero, show itemsLen [] = 0 from rfl, Nat.add_zero] at hlt
      rw [if_pos hlt]
    | succ n =>
      rw [List.take_succ_cons, itemsLen_cons] at hle
      rw [if_neg (by omega), ih (by simpa using hn) (by omega) (by omega)]

/-- With no room left the items before it are the empty ones. -/
theorem take_stopAt_zero (items : List HpUioItem) :
    items.take (stopAt 0 items) = items.takeWhile fun item => item.vec.iovLen = 0 := by
  induction items with
  | nil => rfl
  | cons item items ih =>
    rw [stopAt]
    by_cases hz : item.vec.iovLen = 0
    · rw [if_neg (by omega), hz, Nat.sub_zero, List.take_succ_cons, ih,
        List.takeWhile_cons_of_pos (by simpa using hz)]
    · rw [if_pos (by omega), List.take_zero, List.takeWhile_cons_of_neg (by simpa using hz)]

theorem lastErr_eq (e err : Int) (h : items ≠ []) :
    lastErr e items err = if endsEmpty items then uioErr ⟨0, e⟩ else 0 := by
  obtain ⟨front, last, rfl⟩ : ∃ front last, items = front ++ [last] :=
    ⟨_, _, (List.dropLast_append_getLast h).symm⟩
  rw [lastErr, List.foldl_append, endsEmpty, List.getLast?_concat]
  simp only [List.foldl_cons, List.foldl_nil, Option.any_some, decide_eq_true_eq]

end

/-- The stale `errno` behind a `write` of nothing is an error unless it is 0. -/
theorem uioErr_empty (e : Int) : (uioErr ⟨0, e⟩ = 0 ↔ e = 0) ∧ uioErr ⟨0, e⟩ ≠ EAGAIN := by
  simp only [uioErr, SysRes.again, EINTR, EAGAIN, EIO]
  split_ifs <;> omega

theorem setBytes_ok {wr : HpWr} (h : wr.Ok) (n : Nat) : ({ wr with oBytes := n } : HpWr).Ok :=
  ⟨h.slots, h.init, h.pow, h.len, h.vecs⟩

theorem freeItems_fd (env : FdEnv) (items : List HpUioItem) (s : WrFd) :
    freeItems env.ops items s =
      { s with freed := s.freed ++ callsOf items
               errno := errnoAfter env.onFree s.errno (callsOf items) } := by
  induction items generalizing s with
  | nil => simp [freeItems, callsOf, errnoAfter]
  | cons item items ih =>
    rw [freeItems, ih]
    cases hf : item.free with
    | none => simp [freeItem, callsOf, HpUioItem.owed, hf]
    | some f =>
      by_cases hp : item.ptr = 0
      · simp [freeItem, callsOf, HpUioItem.owed, hf, hp]
      · simp [freeItem, callsOf, HpUioItem.owed, hf, hp, FdEnv.ops, errnoAfter]

/-- `hp_wr_do_write` of an item that there is room for. -/
theorem hpWrDoWrite_done (env : FdEnv) {v : Iovec} (hfit : v.Fits) {s : WrFd} (h : v.iovLen ≤ s.left) :
    ∃ d s', hpWrDoWrite env.write v s = some (d, s') ∧ d.nwrite = v.iovLen ∧
      d.err = (if v.iovLen = 0 then uioErr ⟨0, s.errno⟩ else 0) ∧ Took s v.bytes s' ∧
      s'.errno = s.errno := by
  by_cases hz : v.iovLen = 0
  · have hbytes : v.bytes = [] := by rw [Iovec.bytes, hz, List.take_zero]
    rw [hpWrDoWrite, hpWrDoWriteLoop, FdEnv.write, hz, accept_none, if_pos rfl, hbytes]
    exact ⟨_, _, rfl, rfl, rfl, Took.refl s, rfl⟩
  · have hrun := hpWrDoWriteLoop_fd env (v.iovLen + 1) 0 v s hfit (Nat.pos_of_ne_zero hz)
      (Nat.lt_succ_self _)
    rw [if_pos h] at hrun
    obtain ⟨d, s', hrun, hn, herr, htook, herrno⟩ := hrun
    exact ⟨d, s', hrun, by omega, by rw [if_neg hz, herr], htook, herrno⟩

theorem hpWrDoWrite_stop (env : FdEnv) {v : Iovec} (hfit : v.Fits) {s : WrFd} (h : s.left < v.iovLen) :
    ∃ d s', hpWrDoWrite env.write v s = some (d, s') ∧ d.nwrite = s.left ∧ d.err = EAGAIN ∧
      d.vec = v.advance s.left ∧ Took s (v.bytes.take s.left) s' := by
  have hrun := hpWrDoWriteLoop_fd env (v.iovLen + 1) 0 v s hfit (by omega) (Nat.lt_succ_self _)
  rw [if_neg (by omega)] at hrun
  obtain ⟨d, s', hrun, hn, herr, hvec, htook⟩ := hrun
  exact ⟨d, s', hrun, by omega, herr, hvec, htook⟩

/-- What the loop over the items finds at its index. -/
theorem front_cons {α : Type} {a : α} {as l : List α} {i : Nat} (h : a :: as <+: l.drop i) :
    l[i]? = some a ∧ as <+: l.drop (i + 1) := by
  obtain ⟨post, hpost⟩ := h
  constructor
  · rw [← List.head?_drop, ← hpost]
    rfl
  · refine ⟨post, ?_⟩
    rw [← List.drop_drop, ← hpost]
    rfl

/-- There is room for all the items. -/
theorem hpWrItemsLoop_done (env : FdEnv) (items : List HpUioItem) : ∀ (i : Nat) (r : ItemsRes) (s : WrFd),
    items <+: r.wr.oItems.drop i → (∀ item ∈ items, item.vec.Fits) → itemsLen items ≤ s.left →
    ∃ oBytes s', hpWrItemsLoop env.write items.length i r s =
        some (⟨{ r.wr with oBytes := oBytes }, r.oBytes + itemsLen items, r.n + items.length,
          lastErr s.errno items r.err⟩, s') ∧
      Took s (itemsBytes items) s' ∧ s'.errno = s.errno := by
  induction items with
  | nil =>
    intro i r s _ _ _
    exact ⟨r.wr.oBytes, s, rfl, Took.refl s, rfl⟩
  | cons item items ih =>
    intro i r s hpre hfit hroom
    obtain ⟨hitem, hrest⟩ := front_cons hpre
    rw [itemsLen_cons] at hroom
    obtain ⟨d, s₁, hdo, hn, herr, htook, herrno⟩ :=
      hpWrDoWrite_done env (hfit item (List.mem_cons_self ..)) (s := s) (by omega)
    have hleft : s.left = s₁.left + item.vec.iovLen := by
      rw [htook.left, Iovec.bytes_length (hfit item (List.mem_cons_self ..))]
    obtain ⟨oBytes, s', hloop, htook', herrno'⟩ :=
      ih (i + 1) ⟨{ r.wr with oBytes := r.wr.oBytes + d.nwrite }, r.oBytes + d.nwrite, r.n + 1,
        d.err⟩ s₁ hrest (fun x hx => hfit x (List.mem_cons_of_mem _ hx)) (by omega)
    refine ⟨oBytes, s', ?_, htook.trans htook', herrno'.trans herrno⟩
    rw [List.length_cons, hpWrItemsLoop, List.getD_eq_getElem?_getD, hitem, Option.getD_some, hdo,
      Option.bind_some]
    show (if d.nwrite < item.vec.iovLen then _ else _) = _
    rw [if_neg (by omega), hloop]
    simp only [hn, herr, herrno, itemsLen_cons, lastErr, List.foldl_cons, Nat.add_assoc,
      Nat.add_comm 1]

/-- There is no room for all the items. -/
theorem hpWrItemsLoop_stop (env : FdEnv) (items : List HpUioItem) : ∀ (i : Nat) (r : ItemsRes) (s : WrFd),
    items <+: r.wr.oItems.drop i → (∀ item ∈ items, item.vec.Fits) → s.left < itemsLen items →
    ∃ oBytes v s', hpWrItemsLoop env.write items.length i r s =
        some (⟨setVec { r.wr with oBytes := oBytes } (i + stopAt s.left items) v,
          r.oBytes + s.left, r.n + stopAt s.left items, EAGAIN⟩, s') ∧
      v.Fits ∧
      v.bytes ++ itemsBytes (items.drop (stopAt s.left items + 1)) =
        (itemsBytes items).drop s.left ∧
      Took s ((itemsBytes items).take s.left) s' := by
  induction items with
  | nil =>
    intro i r s _ _ hroom
    cases hroom
  | cons item items ih =>
    intro i r s hpre hfit hroom
    obtain ⟨hitem, hrest⟩ := front_cons hpre
    have hfit₁ := hfit item (List.mem_cons_self ..)
    have hlen := Iovec.bytes_length hfit₁
    rw [itemsLen_cons] at hroom
    rw [List.length_cons, hpWrItemsLoop, List.getD_eq_getElem?_getD, hitem, Option.getD_some,
      stopAt]
    by_cases hstop : s.left < item.vec.iovLen
    · obtain ⟨d, s', hdo, hn, herr, hvec, htook⟩ := hpWrDoWrite_stop env hfit₁ hstop
      refine ⟨r.wr.oBytes + d.nwrite, item.vec.advance s.left, s', ?_, ?_, ?_, ?_⟩
      · rw [hdo, Option.bind_some]
        show (if d.nwrite < item.vec.iovLen then _ else _) = _
        rw [if_pos (by omega), if_pos hstop, hvec, herr, hn]
        rfl
      · exact advance_fits hfit₁ s.left
      · rw [if_pos hstop, advance_bytes, itemsBytes_cons, List.drop_append_of_le_length (by omega)]
        rfl
      · rwa [itemsBytes_cons, List.take_append_of_le_length (by omega)]
    · obtain ⟨d, s₁, hdo, hn, herr, htook, -⟩ :=
        hpWrDoWrite_done env hfit₁ (s := s) (by omega)
      have hleft : s.left = s₁.left + item.vec.iovLen := by
        rw [htook.left, hlen]
      have hleft₁ : s.left - item.vec.iovLen = s₁.left := by omega
      have hall : item.vec.bytes.take s.left = item.vec.bytes := List.take_of_length_le (by omega)
      have hnone : item.vec.bytes.drop s.left = [] := List.drop_of_length_le (by omega)
      obtain ⟨oBytes, v, s', hloop, hv, hbytes, htook'⟩ :=
        ih (i + 1) ⟨{ r.wr with oBytes := r.wr.oBytes + d.nwrite }, r.oBytes + d.nwrite, r.n + 1,
          d.err⟩ s₁ hrest (fun x hx => hfit x (List.mem_cons_of_mem _ hx)) (by omega)
      refine ⟨oBytes, v, s', ?_, hv, ?_, ?_⟩
      · rw [hdo, Option.bind_some]
        show (if d.nwrite < item.vec.iovLen then _ else _) = _
        rw [if_neg (by omega), if_neg hstop, hloop, hleft₁, hn]
        simp only [Nat.add_assoc, Nat.add_comm 1, Nat.add_comm item.vec.iovLen, ← hleft]
      · rw [if_neg hstop, hleft₁, List.drop_succ_cons, hbytes, itemsBytes_cons, List.drop_append,
          hnone, List.nil_append, hlen, hleft₁]
      · rw [itemsBytes_cons, List.take_append, hall, hlen, hleft₁]
        exact htook.trans htook'

/-- `before_writev` stops in a vector that is not empty. -/
theorem beforeWritevLoop_stop (nwrite : Nat) : ∀ (vec : List Iovec) (r i : Nat), r ≤ nwrite →
    nwrite < r + iovecTotalBytes vec →
    ∃ j, (beforeWritevLoop nwrite r i vec).2 = some (i + j) ∧
      0 < lenAt (beforeWritevLoop nwrite r i vec).1 j := by
  intro vec
  induction vec with
  | nil =>
    intro r i _ h
    rw [iovecTotalBytes] at h
    omega
  | cons v vec ih =>
    intro r i hr hlt
    rw [iovecTotalBytes] at hlt
    by_cases hstop : nwrite < r + v.iovLen
    · refine ⟨0, ?_⟩
      simp only [beforeWritevLoop, hstop, ↓reduceIte, Nat.add_zero, true_and]
      show 0 < r + v.iovLen - nwrite
      omega
    · obtain ⟨j, hn, hpos⟩ := ih (r + v.iovLen) (i + 1) (by omega) (by omega)
      refine ⟨j + 1, ?_⟩
      simp only [beforeWritevLoop, hstop, ↓reduceIte]
      exact ⟨by rw [hn]; congr 1; omega, hpos⟩

theorem beforeWritev_stop {vec : List Iovec} {nwrite n : Nat} (hn : n ≤ vec.length)
    (hlt : nwrite < iovecTotalBytes (vec.drop n)) :
    0 < lenAt (beforeWritev vec nwrite n).1 (beforeWritev vec nwrite n).2 := by
  obtain ⟨j, hidx, hpos⟩ :=
    beforeWritevLoop_stop nwrite (vec.drop n) 0 n (Nat.zero_le _) (by omega)
  have htake : (vec.take n).length = n := List.length_take_of_le hn
  simp only [beforeWritev, hidx, Option.getD_some, lenAt]
  rw [List.getElem?_append_right (by omega), htake, Nat.add_sub_cancel_left]
  exact hpos

/-- The bytes that `hp_uio_write` moves are those there is room for, and it ends with `EAGAIN`
or with all of them. If it has moved any, it stops in a vector that is not empty. -/
theorem hpUioWriteLoop_fd (env : FdEnv) (bytes : Nat) : ∀ (fuel nwrite n : Nat) (vec : List Iovec)
    (s s' : WrFd) (u : UioRes), hpUioWriteLoop env.ops.writev bytes fuel nwrite n vec s = some (u, s') →
    (∀ v ∈ vec, v.Fits) → n ≤ vec.length → iovecTotalBytes (vec.drop n) + nwrite = bytes →
    nwrite < bytes →
    s'.left + u.nwrite = s.left + nwrite ∧ s'.freed = s.freed ∧ s'.failed = s.failed ∧
      (u.err = 0 ∧ u.nwrite = bytes ∨ u.err = EAGAIN ∧ s'.left = 0 ∧ u.nwrite < bytes) ∧
      (u.nwrite = nwrite ∧ u.n = n ∧ u.vec = vec ∨ nwrite < u.nwrite) ∧
      (nwrite < u.nwrite → u.nwrite < bytes → 0 < lenAt u.vec u.n) := by
  intro fuel
  induction fuel with
  | zero =>
    intro nwrite n vec s s' u hrun
    cases hrun
  | succ fuel ih =>
    intro nwrite n vec s s' u hrun hfit hn htot hlt
    have hfit' : ∀ v ∈ vec.drop n, v.Fits := fun v hv => hfit v (List.mem_of_mem_drop hv)
    have hlen := described_length hfit'
    have hpos : 0 < iovecTotalBytes (vec.drop n) := by omega
    rw [hpUioWriteLoop, FdEnv.ops] at hrun
    dsimp only at hrun
    by_cases hfull : s.left = 0
    · rw [accept_full hpos hfull] at hrun
      cases hrun
      exact ⟨rfl, rfl, rfl, .inr ⟨rfl, hfull, hlt⟩, .inl ⟨rfl, rfl, rfl⟩,
        fun h => absurd h (Nat.lt_irrefl _)⟩
    · obtain ⟨k, s₁, hacc, hkpos, hkle, hroom, htook, -⟩ :=
        accept_some env hpos (Nat.pos_of_ne_zero hfull) hlen
      rw [hacc] at hrun
      dsimp only at hrun
      rw [if_neg (show ¬ (k : Int) ≤ 0 by omega), Int.toNat_natCast] at hrun
      by_cases hwhole : nwrite + k = bytes
      · rw [if_pos hwhole] at hrun
        cases hrun
        exact ⟨by dsimp only; omega, htook.freed, htook.failed, .inl ⟨rfl, hwhole⟩,
          .inr (by dsimp only; omega), fun _ h => by dsimp only at h; omega⟩
      · rw [if_neg hwhole] at hrun
        obtain ⟨hge, hn', hlen', hfits', htail, hbytes⟩ :=
          beforeWritev_spec hfit hn (show k < iovecTotalBytes (vec.drop n) by omega)
        have hstop := beforeWritev_stop hn (show k < iovecTotalBytes (vec.drop n) by omega)
        have htot' : iovecTotalBytes ((beforeWritev vec k n).1.drop (beforeWritev vec k n).2) =
            iovecTotalBytes (vec.drop n) - k := by
          have h := congrArg List.length hbytes
          rwa [List.length_drop, hlen,
            described_length fun v hv => hfits' v (List.mem_of_mem_drop hv)] at h
        obtain ⟨hleft, hfreed, hfailed, hend, hmoved, hlast⟩ :=
          ih _ _ _ _ _ _ hrun hfits' (by omega) (by omega) (by omega)
        refine ⟨by omega, hfreed.trans htook.freed, hfailed.trans htook.failed, hend,
          .inr ?_, ?_⟩
        · rcases hmoved with ⟨heq, -, -⟩ | hmore <;> omega
        · intro _ hpart
          rcases hmoved with ⟨-, hun, huv⟩ | hmore
          · rw [hun, huv]
            exact hstop
          · exact hlast hmore hpart

theorem writev_ok (env : FdEnv) : WritevOk env.ops.writev WrFd.out := by
  have hcases : ∀ (vec : List Iovec) (s : WrFd),
      env.ops.writev vec s = env.accept (iovecTotalBytes vec) (described vec) s := fun _ _ => rfl
  constructor
  · intro vec s
    rw [hcases, FdEnv.accept]
    split_ifs
    · exact Int.natCast_nonneg _
    · show (-1 : Int) ≤ _
      omega
    · dsimp only
      omega
  · intro vec s
    rw [hcases, FdEnv.accept]
    split_ifs
    · simp
    · simp
    · dsimp only
      rw [Int.toNat_natCast]
  · intro vec s hpos hret
    rw [hcases, FdEnv.accept] at hret ⊢
    rw [if_neg (by omega)] at hret ⊢
    split_ifs at hret ⊢ with hfull
    · exact ⟨rfl, show EAGAIN ≠ 0 by decide⟩
    · dsimp only at hret
      omega

theorem total_drop (vec : List Iovec) (n : Nat) :
    iovecTotalBytes (vec.drop n) = lenAt vec n + iovecTotalBytes (vec.drop (n + 1)) := by
  by_cases hn : n < vec.length
  · rw [List.drop_eq_getElem_cons hn, iovecTotalBytes, lenAt, List.getElem?_eq_getElem hn]
    rfl
  · rw [List.drop_eq_nil_of_le (by omega), List.drop_eq_nil_of_le (by omega), lenAt,
      List.getElem?_eq_none (by omega)]
    rfl

theorem itemsLen_take_drop (items : List HpUioItem) (n : Nat) :
    itemsLen (items.take n) + itemsLen (items.drop n) = itemsLen items := by
  induction items generalizing n with
  | nil => simp [itemsLen, iovecTotalBytes]
  | cons item items ih =>
    cases n with
    | zero => simp [itemsLen, iovecTotalBytes]
    | succ n =>
      rw [List.take_succ_cons, List.drop_succ_cons, itemsLen_cons, itemsLen_cons, ← ih n]
      omega

/-- Where the vectors stop that still describe what is behind the first `k` bytes. -/
theorem stopAt_of_rest {items : List HpUioItem} {vec : List Iovec} {n k : Nat}
    (hn : n < items.length) (hstop : 0 < lenAt vec n)
    (hshort : lenAt vec n ≤ lenAt (items.map (·.vec)) n)
    (htail : vec.drop (n + 1) = (items.map (·.vec)).drop (n + 1))
    (hrest : iovecTotalBytes (vec.drop n) + k = itemsLen items) : stopAt k items = n := by
  have hmap : ∀ j, iovecTotalBytes ((items.map (·.vec)).drop j) = itemsLen (items.drop j) := by
    intro j
    rw [itemsLen, List.map_drop]
  have hat := total_drop (items.map (·.vec)) n
  have hto := itemsLen_take_drop items n
  have hto' := itemsLen_take_drop items (n + 1)
  rw [hmap, hmap] at hat
  rw [total_drop, htail, hmap] at hrest
  exact stopAt_eq hn (by omega) (by omega)

/-- `hp_uio_write` of some items on a descriptor. -/
theorem hpUioWrite_fd (env : FdEnv) {items : List HpUioItem} (hfit : ∀ item ∈ items, item.vec.Fits)
    (hpos : 0 < itemsLen items) (s : WrFd) :
    ∃ u s', hpUioWrite env.ops.writev (items.map (·.vec)) (itemsLen items) s = some (u, s') ∧
      UioDone WrFd.out (items.map (·.vec)) s u s' ∧
      Took s ((itemsBytes items).take s.left) s' ∧ u.nwrite = min (itemsLen items) s.left ∧
      if itemsLen items ≤ s.left then u.err = 0
      else u.err = EAGAIN ∧ u.n = if s.left = 0 then 0 else stopAt s.left items := by
  have hfit' : ∀ v ∈ items.map (·.vec), v.Fits := by
    intro v hv
    obtain ⟨item, hitem, rfl⟩ := List.mem_map.mp hv
    exact hfit item hitem
  have hlen := itemsBytes_length hfit
  obtain ⟨u, s', hrun, hdone⟩ := hpUioWrite_spec (writev_ok env) hfit' hpos s
  obtain ⟨hleft, hfreed, hfailed, hend, hmoved, hlast⟩ :=
    hpUioWriteLoop_fd env _ _ 0 0 _ s s' u hrun hfit' (Nat.zero_le _) rfl hpos
  obtain ⟨bs, hout, hbs, hall⟩ := hdone.took
  have hnwrite : u.nwrite = min (itemsLen items) s.left := by
    have hle : u.nwrite ≤ itemsLen items := by
      rcases hend with ⟨-, h⟩ | ⟨-, -, h⟩
      · exact Nat.le_of_eq h
      · exact Nat.le_of_lt h
    rcases hend with ⟨-, h⟩ | ⟨-, h, -⟩
    · show u.nwrite = min (iovecTotalBytes _) s.left
      omega
    · omega
  have htaken : bs = (itemsBytes items).take s.left := by
    have hcut := congrArg (List.take bs.length) hall
    rw [List.take_left] at hcut
    rw [hcut, hbs, hnwrite]
    apply List.take_eq_take_iff.mpr
    show min (min (itemsLen items) s.left) (itemsBytes items).length =
      min s.left (itemsBytes items).length
    omega
  have htook : Took s ((itemsBytes items).take s.left) s' := by
    refine ⟨?_, htaken ▸ hout, hfreed, hfailed⟩
    rw [← htaken, hbs]
    omega
  refine ⟨u, s', hrun, hdone, htook, hnwrite, ?_⟩
  split
  · next hroom =>
    rcases hend with ⟨herr, -⟩ | ⟨-, -, h⟩
    · exact herr
    · have hle : itemsLen items ≤ u.nwrite := by omega
      exact absurd hle (Nat.not_le.mpr h)
  · next hroom =>
    rcases hend with ⟨-, h⟩ | ⟨herr, -, hpart⟩
    · have heq : u.nwrite = itemsLen items := h
      omega
    · refine ⟨herr, ?_⟩
      by_cases hfull : s.left = 0
      · rw [if_pos hfull]
        rcases hmoved with ⟨-, hn, -⟩ | hmore
        · exact hn
        · omega
      · rw [if_neg hfull]
        have hn : u.n < items.length := by
          have h := hdone.part (by rw [herr]; decide)
          rwa [List.length_map] at h
        have hstop : 0 < lenAt u.vec u.n := hlast (by omega) hpart
        -- what is left to write lies in vector `n` and behind it
        have hrest : iovecTotalBytes (u.vec.drop u.n) = itemsLen items - s.left := by
          have h := congrArg List.length hall
          rw [List.length_append, hbs, described_length fun v hv =>
            hdone.fits v (List.mem_of_mem_drop hv)] at h
          have hlen' : (described (items.map (·.vec))).length = itemsLen items := hlen
          omega
        exact (stopAt_of_rest hn hstop (hdone.short u.n) hdone.tail (by omega)).symm

end Libhp.Io
