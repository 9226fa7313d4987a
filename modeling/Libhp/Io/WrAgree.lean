import Libhp.Io.WrBatch

/-!
# Whether the two builds agree

`hp_wr_write` with `writev` and without, on the same queue and on descriptors with room for the
same number of bytes. Both make the same batches and take the same bytes. They part on empty
items: a `write` of nothing makes the plain build look at a stale `errno`, and on a full
descriptor it frees the empty items that `writev` leaves in the queue.
-/
namespace Libhp.Io

/-- A round that disposes of its whole batch. -/
structure Passed (iovMax : Nat) (wr : HpWr) (s : WrFd) (wr' : HpWr) (s' : WrFd) : Prop where
  ok : wr'.Ok
  queue : wr'.queue = wr.queue.drop iovMax
  left : s'.left = s.left - itemsLen (wr.queue.take iovMax)
  out : s'.out = s.out ++ itemsBytes (wr.queue.take iovMax)
  freed : s'.freed = s.freed ++ callsOf (wr.queue.take iovMax)
  failed : s'.failed = s.failed

/-- A round that ends the call, with all the room used and `n` items deleted. -/
structure Stopped (n : Nat) (wr : HpWr) (s : WrFd) (wr' : HpWr) (s' : WrFd) : Prop where
  rest : pending wr' = (pending wr).drop s.left
  out : s'.out = s.out ++ (pending wr).take s.left
  freed : s'.freed = s.freed ++ callsOf (wr.queue.take n)
  failed : s'.failed = s.failed

section
variable {wr : HpWr} {iovMax : Nat}

theorem batch_items (wr : HpWr) (iovMax : Nat) :
    wr.oItems.take (min iovMax wr.oItemsLen) = wr.queue.take iovMax := by
  rw [HpWr.queue, List.take_take]

theorem batch_length (h : wr.Ok) (iovMax : Nat) :
    (wr.queue.take iovMax).length = min iovMax wr.oItemsLen := by
  rw [List.length_take, h.queue_length]

theorem batch_drop (h : wr.Ok) :
    wr.queue.drop (min iovMax wr.oItemsLen) = wr.queue.drop iovMax := by
  rw [← h.queue_length]
  by_cases hle : iovMax ≤ wr.queue.length
  · rw [Nat.min_eq_left hle]
  · rw [Nat.min_eq_right (by omega), List.drop_length, List.drop_eq_nil_of_le (by omega)]

theorem batch_fits (h : wr.Ok) (iovMax : Nat) : ∀ item ∈ wr.queue.take iovMax, item.vec.Fits :=
  fun item hitem => h.vecs item (List.mem_of_mem_take hitem)

theorem pending_split (wr : HpWr) (iovMax : Nat) :
    pending wr = itemsBytes (wr.queue.take iovMax) ++ itemsBytes (wr.queue.drop iovMax) := by
  rw [← itemsBytes_append, List.take_append_drop]
  rfl

/-- Deleting the whole batch. -/
theorem delete_passed (env : FdEnv) (h : wr.Ok) (oBytes : Nat) {s s₁ : WrFd}
    (htook : Took s (itemsBytes (wr.queue.take iovMax)) s₁) :
    let r := hpEtioDelN env.ops { wr with oBytes := oBytes } (min iovMax wr.oItemsLen) s₁
    Passed iovMax wr s r.1 r.2 ∧
      r.2.errno = errnoAfter env.onFree s₁.errno (callsOf (wr.queue.take iovMax)) := by
  have hok := setBytes_ok h oBytes
  have hle : min iovMax wr.oItemsLen ≤ wr.oItemsLen := Nat.min_le_right _ _
  have hqueue := hpEtioDelN_queue env.ops hok hle s₁
  have hlen := itemsBytes_length (batch_fits h iovMax)
  have hleft := htook.left
  dsimp only
  refine ⟨⟨hpEtioDelN_ok env.ops hok hle s₁, hqueue.trans (batch_drop h), ?_, ?_, ?_, ?_⟩, ?_⟩
  · rw [hpEtioDelN, freeItems_fd]
    dsimp only
    omega
  · rw [hpEtioDelN, freeItems_fd]
    exact htook.out
  · rw [hpEtioDelN, freeItems_fd, batch_items]
    show s₁.freed ++ _ = _
    rw [htook.freed]
  · rw [hpEtioDelN, freeItems_fd]
    exact htook.failed
  · rw [hpEtioDelN, freeItems_fd, batch_items]

/-- Deleting what comes before the item that the round stopped in. That item, cut short, and the
rest of the batch describe what there was no room for. -/
theorem delete_stopped (env : FdEnv) (h : wr.Ok) (oBytes : Nat) {n : Nat} {v : Iovec} {s s₁ : WrFd}
    (hroom : s.left < itemsLen (wr.queue.take iovMax)) (hn : n < min iovMax wr.oItemsLen)
    (hv : v.Fits)
    (hback : v.bytes ++ itemsBytes ((wr.queue.take iovMax).drop (n + 1)) =
      (itemsBytes (wr.queue.take iovMax)).drop s.left)
    (htook : Took s ((itemsBytes (wr.queue.take iovMax)).take s.left) s₁) :
    let r := hpEtioDelN env.ops (setVec { wr with oBytes := oBytes } n v) n s₁
    Stopped n wr s r.1 r.2 := by
  have hlen := itemsBytes_length (batch_fits h iovMax)
  have hrest : v.bytes ++ itemsBytes (wr.queue.drop (n + 1)) = (pending wr).drop s.left := by
    have hsplit : wr.queue.drop (n + 1) =
        (wr.queue.take iovMax).drop (n + 1) ++ wr.queue.drop iovMax := by
      rw [← List.drop_append_of_le_length (by rw [batch_length h]; omega), List.take_append_drop]
    rw [hsplit, itemsBytes_append, ← List.append_assoc, hback, pending_split wr iovMax,
      List.drop_append_of_le_length (by omega)]
  have htook' : Took s ((pending wr).take s.left) s₁ := by
    rw [pending_split wr iovMax, List.take_append_of_le_length (by omega)]
    exact htook
  have hlt' : n < wr.oItemsLen := by omega
  have hok := setVec_ok (setBytes_ok h oBytes) n hv
  have hqueue := hpEtioDelN_queue env.ops hok (Nat.le_of_lt hlt') s₁
  have hlt : n < wr.queue.length := by rw [h.queue_length]; exact hlt'
  have hitems : (setVec { wr with oBytes := oBytes } n v).oItems.take n = wr.queue.take n := by
    show (wr.oItems.modify n _).take n = _
    rw [List.take_modify, List.modify_eq_self (by rw [List.length_take]; omega), HpWr.queue,
      List.take_take, Nat.min_eq_left (Nat.le_of_lt hlt')]
  dsimp only
  refine ⟨?_, ?_, ?_, ?_⟩
  · rw [pending, hqueue, setVec_queue, List.drop_modify_of_ge _ _ _ _ (Nat.le_refl _), Nat.sub_self]
    show described (List.map _ ((wr.queue.drop n).modify 0 _)) = _
    rw [List.drop_eq_getElem_cons hlt, List.modify_zero_cons, List.map_cons, described_cons]
    exact hrest
  · rw [hpEtioDelN, freeItems_fd]
    exact htook'.out
  · rw [hpEtioDelN, freeItems_fd, hitems]
    show s₁.freed ++ _ = _
    rw [htook'.freed]
  · rw [hpEtioDelN, freeItems_fd]
    exact htook'.failed

theorem uio_passed (env : FdEnv) (h : wr.Ok) (hne : wr.oItemsLen ≠ 0) (fuel o : Nat) {s : WrFd}
    (hroom : itemsLen (wr.queue.take iovMax) ≤ s.left) :
    ∃ wr' s', Passed iovMax wr s wr' s' ∧
      hpWrWriteLoop env.ops iovMax (fuel + 1) wr o s =
        hpWrWriteLoop env.ops iovMax fuel wr' (o + itemsLen (wr.queue.take iovMax)) s' := by
  have hfit := batch_fits h iovMax
  have hlen := itemsBytes_length hfit
  have hsum : iovecTotalBytes ((wr.queue.take iovMax).map (·.vec)) =
    itemsLen (wr.queue.take iovMax) := rfl
  simp only [hpWrWriteLoop, if_neg hne, batch_items]
  by_cases hW : itemsLen (wr.queue.take iovMax) = 0
  · -- only empty items: nothing to write
    have hnil : itemsBytes (wr.queue.take iovMax) = [] :=
      List.length_eq_zero_iff.mp (hlen.trans hW)
    have hnone : Took s (itemsBytes (wr.queue.take iovMax)) s := by
      rw [hnil]
      exact Took.refl s
    have hpass := (delete_passed env h wr.oBytes hnone).1
    refine ⟨_, _, hpass, ?_⟩
    rw [hW, Nat.add_zero]
    exact if_pos hW
  · obtain ⟨u, s₁, hrun, hdone, htook, hnwrite, hend⟩ :=
      hpUioWrite_fd env hfit (Nat.pos_of_ne_zero hW) s
    rw [if_pos hroom] at hend
    rw [List.take_of_length_le (by omega)] at htook
    have hn : u.n = min iovMax wr.oItemsLen := by
      rw [hdone.whole hend, List.length_map, batch_length h _]
    have hstore : storeBack wr (min iovMax wr.oItemsLen) u =
        { wr with oBytes := wr.oBytes + u.nwrite } := if_neg (by omega)
    have hpass := (delete_passed env h (wr.oBytes + u.nwrite) htook).1
    refine ⟨_, _, hpass, ?_⟩
    rw [hsum, if_neg hW, hrun]
    dsimp only
    rw [if_pos hend, hstore, hn, hnwrite, Nat.min_eq_left hroom]

theorem uio_stopped (env : FdEnv) (h : wr.Ok) (hne : wr.oItemsLen ≠ 0) (fuel o : Nat) {s : WrFd}
    (hroom : s.left < itemsLen (wr.queue.take iovMax)) :
    ∃ wr' s',
      Stopped (if s.left = 0 then 0 else stopAt s.left (wr.queue.take iovMax)) wr s wr' s' ∧
      hpWrWriteLoop env.ops iovMax (fuel + 1) wr o s = some (o + s.left, wr', s') := by
  have hfit := batch_fits h iovMax
  have hsum : iovecTotalBytes ((wr.queue.take iovMax).map (·.vec)) =
    itemsLen (wr.queue.take iovMax) := rfl
  obtain ⟨u, s₁, hrun, hdone, htook, hnwrite, hend⟩ := hpUioWrite_fd env hfit (by omega) s
  rw [if_neg (by omega)] at hend
  obtain ⟨herr, hn⟩ := hend
  have hne0 : u.err ≠ 0 := by
    rw [herr]
    decide
  have hlt : u.n < min iovMax wr.oItemsLen := by
    have hpart := hdone.part hne0
    rwa [List.length_map, batch_length h _] at hpart
  have hlt' : u.n < u.vec.length := by
    rw [hdone.len, List.length_map, batch_length h _]
    exact hlt
  have hstore : storeBack wr (min iovMax wr.oItemsLen) u =
      setVec { wr with oBytes := wr.oBytes + u.nwrite } u.n (u.vec.getD u.n ⟨[], 0⟩) := if_pos hlt
  have hget : u.vec.getD u.n ⟨[], 0⟩ = u.vec[u.n] := by
    rw [List.getD_eq_getElem?_getD, List.getElem?_eq_getElem hlt', Option.getD_some]
  have hv : (u.vec.getD u.n ⟨[], 0⟩).Fits := by
    rw [hget]
    exact hdone.fits _ (List.getElem_mem _)
  -- the vector it stopped in and those behind it hold what is left of the batch
  have hback : (u.vec.getD u.n ⟨[], 0⟩).bytes ++
      itemsBytes ((wr.queue.take iovMax).drop (u.n + 1)) =
        (itemsBytes (wr.queue.take iovMax)).drop s.left := by
    obtain ⟨bs, -, hbs, hall⟩ := hdone.took
    rw [List.drop_eq_getElem_cons hlt', described_cons, hdone.tail, ← List.map_drop, ← hget] at hall
    rw [show itemsBytes (wr.queue.take iovMax) = _ from hall.symm]
    have hcut : bs.length = s.left := by omega
    rw [← hcut, List.drop_left]
    rfl
  have hstop := delete_stopped env h (wr.oBytes + u.nwrite) hroom hlt hv hback htook
  rw [← hn]
  refine ⟨_, _, hstop, ?_⟩
  simp only [hpWrWriteLoop, if_neg hne, batch_items]
  rw [hsum, if_neg (by omega), hrun]
  dsimp only
  rw [if_neg hne0, if_pos herr, hstore, hnwrite, Nat.min_eq_right (Nat.le_of_lt hroom)]

theorem batch_front (wr : HpWr) (iovMax : Nat) : wr.queue.take iovMax <+: wr.oItems.drop 0 := by
  rw [List.drop_zero, HpWr.queue, List.take_take]
  exact List.take_prefix _ _

theorem plain_passed (env : FdEnv) (h : wr.Ok) (hmax : 0 < iovMax) (hne : wr.oItemsLen ≠ 0)
    (fuel o : Nat) {s : WrFd} (hroom : itemsLen (wr.queue.take iovMax) ≤ s.left) :
    ∃ wr' s', Passed iovMax wr s wr' s' ∧
      s'.errno = errnoAfter env.onFree s.errno (callsOf (wr.queue.take iovMax)) ∧
      if endsEmpty (wr.queue.take iovMax) ∧ s.errno ≠ 0 then
        ∃ r, hpWrWritePlainLoop env.write env.ops iovMax (fuel + 1) wr o s = some r ∧
          r.2.2.failed = true
      else
        hpWrWritePlainLoop env.write env.ops iovMax (fuel + 1) wr o s =
          hpWrWritePlainLoop env.write env.ops iovMax fuel wr'
            (o + itemsLen (wr.queue.take iovMax)) s' := by
  have hlen := batch_length h iovMax
  obtain ⟨oBytes, s₁, hrun, htook, herrno⟩ :=
    hpWrItemsLoop_done env (wr.queue.take iovMax) 0 ⟨wr, o, 0, 0⟩ s (batch_front wr iovMax)
      (batch_fits h iovMax) hroom
  obtain ⟨hpass, herrno'⟩ := delete_passed env h oBytes htook
  rw [herrno] at herrno'
  refine ⟨_, _, hpass, herrno', ?_⟩
  have hempty : wr.queue.take iovMax ≠ [] := by
    intro hnil
    rw [hnil, List.length_nil] at hlen
    omega
  obtain ⟨hzero, hagain⟩ := uioErr_empty s.errno
  rw [hpWrWritePlainLoop, if_neg hne, ← hlen, hrun, Option.bind_some, lastErr_eq _ _ hempty, hlen]
  dsimp only
  rw [Nat.zero_add]
  split
  · next hstale =>
    have hbad : ¬ uioErr ⟨0, s.errno⟩ = 0 := fun h => hstale.2 (hzero.mp h)
    rw [if_pos hstale.1, if_neg hbad, if_neg hagain]
    exact ⟨_, rfl, rfl⟩
  · next hfine =>
    have herr : (if endsEmpty (wr.queue.take iovMax) = true then uioErr ⟨0, s.errno⟩ else 0) = 0 := by
      split
      · next hend =>
        apply hzero.mpr
        by_contra hstale
        exact hfine ⟨hend, hstale⟩
      · rfl
    rw [if_pos herr]

theorem plain_stopped (env : FdEnv) (h : wr.Ok) (hne : wr.oItemsLen ≠ 0) (fuel o : Nat) {s : WrFd}
    (hroom : s.left < itemsLen (wr.queue.take iovMax)) :
    ∃ wr' s', Stopped (stopAt s.left (wr.queue.take iovMax)) wr s wr' s' ∧
      hpWrWritePlainLoop env.write env.ops iovMax (fuel + 1) wr o s =
        some (o + s.left, wr', s') := by
  have hlen := batch_length h iovMax
  have hlt := stopAt_lt hroom
  obtain ⟨oBytes, v, s₁, hrun, hv, hback, htook⟩ :=
    hpWrItemsLoop_stop env (wr.queue.take iovMax) 0 ⟨wr, o, 0, 0⟩ s (batch_front wr iovMax)
      (batch_fits h iovMax) hroom
  have hstop := delete_stopped env h oBytes hroom (hlen ▸ hlt) hv hback htook
  refine ⟨_, _, hstop, ?_⟩
  rw [hpWrWritePlainLoop, if_neg hne, ← hlen, hrun, Option.bind_some]
  dsimp only
  rw [if_neg (by decide), if_pos rfl, Nat.zero_add]

end

/-- Both calls deliver, leave, free and count the same, and neither reports an error. -/
structure SameOutcome (r r' : Nat × HpWr × WrFd) : Prop where
  count : r.1 = r'.1
  out : r.2.2.out = r'.2.2.out
  rest : pending r.2.1 = pending r'.2.1
  freed : r.2.2.freed = r'.2.2.freed
  fine : r.2.2.failed = false ∧ r'.2.2.failed = false

/-- With room for `k` bytes and the given `errno`: no batch that goes through ends with an empty
item while `errno` is not 0, and if the room ends with a batch, freeing the empty items at the
front of the next one, unless that is all empty, runs no callback. -/
def PathsAgree (iovMax : Nat) (onFree : FreeFn → Ptr → Int → Int) (items : List HpUioItem)
    (k : Nat) (errno : Int) : Prop :=
  if _h : items = [] ∨ iovMax = 0 then True
  else if itemsLen (items.take iovMax) ≤ k then
    (endsEmpty (items.take iovMax) → errno = 0) ∧
      PathsAgree iovMax onFree (items.drop iovMax) (k - itemsLen (items.take iovMax))
        (errnoAfter onFree errno (callsOf (items.take iovMax)))
  else k = 0 → callsOf ((items.take iovMax).takeWhile fun item => item.vec.iovLen = 0) = []
termination_by items.length
decreasing_by
  rw [not_or] at _h
  have hpos := List.length_pos_iff.mpr _h.1
  rw [List.length_drop]
  omega

/-- The two builds at the start of a round. -/
structure Abreast (wr wr' : HpWr) (s t : WrFd) : Prop where
  ok : wr.Ok
  ok' : wr'.Ok
  queue : wr'.queue = wr.queue
  left : t.left = s.left
  out : t.out = s.out
  freed : t.freed = s.freed
  fine : s.failed = false ∧ t.failed = false

section
variable {wr wr' : HpWr} {s t : WrFd} {iovMax : Nat}

theorem Abreast.len (h : Abreast wr wr' s t) : wr'.oItemsLen = wr.oItemsLen := by
  rw [← h.ok.queue_length, ← h.ok'.queue_length, h.queue]

theorem Abreast.next (h : Abreast wr wr' s t) {wr₁ wr₁' : HpWr} {s₁ t₁ : WrFd}
    (hu : Passed iovMax wr s wr₁ s₁) (hp : Passed iovMax wr' t wr₁' t₁) :
    Abreast wr₁ wr₁' s₁ t₁ := by
  refine ⟨hu.ok, hp.ok, ?_, ?_, ?_, ?_, hu.failed.trans h.fine.1, hp.failed.trans h.fine.2⟩
  · rw [hu.queue, hp.queue, h.queue]
  · rw [hu.left, hp.left, h.queue, h.left]
  · rw [hu.out, hp.out, h.queue, h.out]
  · rw [hu.freed, hp.freed, h.queue, h.freed]

/-- When both stop they differ in the items freed at most. -/
theorem Abreast.stop_iff (h : Abreast wr wr' s t) {wr₁ wr₁' : HpWr} {s₁ t₁ : WrFd} {o : Nat}
    (hu : Stopped (if s.left = 0 then 0 else stopAt s.left (wr.queue.take iovMax)) wr s wr₁ s₁)
    (hp : Stopped (stopAt t.left (wr'.queue.take iovMax)) wr' t wr₁' t₁) :
    SameOutcome (o + s.left, wr₁, s₁) (o + t.left, wr₁', t₁) ↔
      (s.left = 0 →
        callsOf ((wr.queue.take iovMax).takeWhile fun item => item.vec.iovLen = 0) = []) := by
  have hpend : pending wr' = pending wr := by rw [pending, h.queue, pending]
  have hfreed : s₁.freed = t₁.freed ↔ (s.left = 0 →
      callsOf ((wr.queue.take iovMax).takeWhile fun item => item.vec.iovLen = 0) = []) := by
    rw [hu.freed, hp.freed, h.freed, h.left, h.queue, List.append_cancel_left_eq]
    by_cases hfull : s.left = 0
    · have hin : stopAt 0 (wr.queue.take iovMax) ≤ iovMax := by
        have hle := stopAt_le 0 (wr.queue.take iovMax)
        rw [List.length_take] at hle
        omega
      have hfront : wr.queue.take (stopAt 0 (wr.queue.take iovMax)) =
          (wr.queue.take iovMax).takeWhile fun item => item.vec.iovLen = 0 := by
        rw [← take_stopAt_zero, List.take_take, Nat.min_eq_left hin]
      rw [if_pos hfull, hfull, List.take_zero, hfront]
      show [] = _ ↔ _
      constructor
      · exact fun heq _ => heq.symm
      · exact fun heq => (heq rfl).symm
    · rw [if_neg hfull]
      exact ⟨fun _ h0 => absurd h0 hfull, fun _ => rfl⟩
  rw [← hfreed]
  constructor
  · exact fun hsame => hsame.freed
  · intro heq
    refine ⟨?_, ?_, ?_, heq, hu.failed.trans h.fine.1, hp.failed.trans h.fine.2⟩
    · rw [h.left]
    · show s₁.out = t₁.out
      rw [hu.out, hp.out, h.out, h.left, hpend]
    · show pending wr₁ = pending wr₁'
      rw [hu.rest, hp.rest, h.left, hpend]

theorem loops_agree (env env' : FdEnv) (hmax : 0 < iovMax) (fuel o : Nat) :
    ∀ {wr wr' : HpWr} {s t : WrFd}, Abreast wr wr' s t → wr.oItemsLen < fuel →
      ∃ r r', hpWrWriteLoop env.ops iovMax fuel wr o s = some r ∧
        hpWrWritePlainLoop env'.write env'.ops iovMax fuel wr' o t = some r' ∧
        (SameOutcome r r' ↔ PathsAgree iovMax env'.onFree wr.queue s.left t.errno) := by
  induction fuel generalizing o with
  | zero =>
    intro wr wr' s t _ hlt
    cases hlt
  | succ fuel ih =>
    intro wr wr' s t h hlt
    rw [PathsAgree]
    by_cases hz : wr.oItemsLen = 0
    · have hnil : wr.queue = [] := List.length_eq_zero_iff.mp (h.ok.queue_length.trans hz)
      have hpend : pending wr = pending wr' := by rw [pending, pending, h.queue]
      refine ⟨(o, wr, s), (o, wr', t), ?_, ?_, ?_⟩
      · rw [hpWrWriteLoop, if_pos hz]
      · rw [hpWrWritePlainLoop, if_pos (h.len.trans hz)]
      · rw [dif_pos (.inl hnil)]
        exact iff_of_true ⟨rfl, h.out.symm, hpend, h.freed.symm, h.fine⟩ trivial
    · have hsome : ¬ (wr.queue = [] ∨ iovMax = 0) := by
        have hlen := h.ok.queue_length
        rintro (hnil | hnone)
        · rw [hnil, List.length_nil] at hlen
          omega
        · omega
      have hz' : wr'.oItemsLen ≠ 0 := by rw [h.len]; exact hz
      rw [dif_neg hsome]
      by_cases hroom : itemsLen (wr.queue.take iovMax) ≤ s.left
      · have hroom' : itemsLen (wr'.queue.take iovMax) ≤ t.left := by rw [h.queue, h.left]; exact hroom
        obtain ⟨wr₁, s₁, hu, hrunu⟩ := uio_passed env h.ok hz fuel o hroom
        obtain ⟨wr₁', t₁, hp, herrno, hrunp⟩ := plain_passed env' h.ok' hmax hz' fuel o hroom'
        have hnext := h.next hu hp
        have hless : wr₁.oItemsLen < fuel := by
          have hlen := hu.ok.queue_length
          rw [hu.queue, List.length_drop, h.ok.queue_length] at hlen
          omega
        obtain ⟨r, r', hr, hr', hiff⟩ :=
          ih (o + itemsLen (wr.queue.take iovMax)) hnext hless
        rw [h.queue] at hrunp herrno
        rw [if_pos hroom]
        by_cases hstale : endsEmpty (wr.queue.take iovMax) ∧ t.errno ≠ 0
        · -- the plain build takes the stale `errno` for an error
          rw [if_pos hstale] at hrunp
          obtain ⟨r₂, hr₂, hbad⟩ := hrunp
          refine ⟨r, r₂, hrunu.trans hr, hr₂, iff_of_false ?_ ?_⟩
          · intro hsame
            rw [hsame.fine.2] at hbad
            cases hbad
          · exact fun hagree => hstale.2 (hagree.1 hstale.1)
        · rw [if_neg hstale] at hrunp
          refine ⟨r, r', hrunu.trans hr, hrunp.trans hr', ?_⟩
          rw [hiff, hu.queue, hu.left, herrno]
          exact ⟨fun hrest => ⟨fun hend => not_not.mp fun hne => hstale ⟨hend, hne⟩, hrest⟩,
            fun hagree => hagree.2⟩
      · have hroom' : t.left < itemsLen (wr'.queue.take iovMax) := by
          rw [h.queue, h.left]
          exact Nat.lt_of_not_le hroom
        obtain ⟨wr₁, s₁, hu, hrunu⟩ := uio_stopped env h.ok hz fuel o (Nat.lt_of_not_le hroom)
        obtain ⟨wr₁', t₁, hp, hrunp⟩ := plain_stopped env' h.ok' hz' fuel o hroom'
        rw [if_neg hroom]
        exact ⟨_, _, hrunu, hrunp, h.stop_iff hu hp⟩

end

/-- On descriptors that take the next `k` bytes in any portions, both builds of `hp_wr_write`
return, and they do the same without an error if and only if no empty item gets in the way: none
ends a batch that goes through while `errno` is stale, and none with a free callback is at the
front of the batch, not all empty, that finds the descriptor full. -/
theorem builds_agree (iovMax : Nat) (hmax : 0 < iovMax) (wr : HpWr) (h : wr.Ok) (k : Nat)
    (errno errno' : Int) (env env' : FdEnv) :
    ∃ r r', hpWrWrite env.ops iovMax wr (.start k errno) = some r ∧
      hpWrWritePlain env'.write env'.ops iovMax wr (.start k errno') = some r' ∧
      (SameOutcome r r' ↔ PathsAgree iovMax env'.onFree wr.queue k errno') := by
  have hstart : Abreast wr wr (.start k errno) (.start k errno') :=
    ⟨h, h, rfl, rfl, rfl, rfl, rfl, rfl⟩
  obtain ⟨r, r', hr, hr', hiff⟩ :=
    loops_agree env env' hmax (wr.oItemsLen + 1) 0 hstart (Nat.lt_succ_self _)
  by_cases hz : wr.oItemsLen = 0
  · refine ⟨r, r', ?_, ?_, hiff⟩
    · rw [hpWrWriteLoop, if_pos hz] at hr
      rw [hpWrWrite, if_pos hz, hr]
    · rw [hpWrWritePlainLoop, if_pos hz] at hr'
      rw [hpWrWritePlain, if_pos hz, hr']
  · refine ⟨r, r', ?_, ?_, hiff⟩
    · rw [hpWrWrite, if_neg hz, hr]
    · rw [hpWrWritePlain, if_neg hz, hr']

/-- `hp_wr_add` of some buffers, each with a free callback. -/
def queueOf (bufs : List (List Byte)) : HpWr :=
  bufs.foldl (fun wr mem => (hpWrAdd wr ⟨1, mem, mem.length, Nat.le_refl _⟩ (.cb 1) 0 0).2)
    (hpWrInit 8)

theorem queueOf_ok (bufs : List (List Byte)) : (queueOf bufs).Ok := by
  have hall : ∀ (bufs : List (List Byte)) (wr : HpWr), wr.Ok →
      (bufs.foldl (fun wr mem =>
        (hpWrAdd wr ⟨1, mem, mem.length, Nat.le_refl _⟩ (.cb 1) 0 0).2) wr).Ok := by
    intro bufs
    induction bufs with
    | nil => exact fun wr h => h
    | cons mem bufs ih =>
      intro wr h
      exact ih _ (hpWrAdd_spec h _ (.cb 1) 0 0 Nat.one_ne_zero).1
  exact hall bufs _ (hpWrInit_ok 8)

/-- A descriptor that takes one byte at a time. -/
def byteWise : FdEnv := ⟨fun _ => 1, fun _ _ e => e, none⟩

/-- An empty item between two others; there is room for the first and a part of the last. -/
theorem builds_agree_partly :
    ∃ r r', hpWrWrite byteWise.ops 1024 (queueOf [[1, 2], [], [3, 4, 5]]) (.start 4 0) = some r ∧
      hpWrWritePlain byteWise.write byteWise.ops 1024 (queueOf [[1, 2], [], [3, 4, 5]])
        (.start 4 EAGAIN) = some r' ∧
      SameOutcome r r' := by
  obtain ⟨r, r', hr, hr', hiff⟩ :=
    builds_agree 1024 (by decide) (queueOf [[1, 2], [], [3, 4, 5]]) (queueOf_ok _) 4 0 EAGAIN
      byteWise byteWise
  refine ⟨r, r', hr, hr', hiff.mpr ?_⟩
  rw [PathsAgree, dif_neg (by decide), if_neg (by decide)]
  exact fun hfull => absurd hfull (by decide)

/-- The last item is empty, and `errno` is still `EAGAIN` from an earlier call: the plain build
reports an error after all is written. -/
theorem builds_differ :
    ∃ r r', hpWrWrite byteWise.ops 1024 (queueOf [[1, 2], []]) (.start 2 EAGAIN) = some r ∧
      hpWrWritePlain byteWise.write byteWise.ops 1024 (queueOf [[1, 2], []])
        (.start 2 EAGAIN) = some r' ∧
      ¬ SameOutcome r r' := by
  have huio : (hpWrWrite byteWise.ops 1024 (queueOf [[1, 2], []]) (.start 2 EAGAIN)).isSome := by
    decide +kernel
  have hplain : (hpWrWritePlain byteWise.write byteWise.ops 1024 (queueOf [[1, 2], []])
      (.start 2 EAGAIN)).map (fun r => r.2.2.failed) = some true := by
    decide +kernel
  obtain ⟨r, hr⟩ := Option.isSome_iff_exists.mp huio
  obtain ⟨r', hr', hfailed⟩ := Option.map_eq_some_iff.mp hplain
  refine ⟨r, r', hr, hr', ?_⟩
  intro hsame
  rw [hsame.fine.2] at hfailed
  cases hfailed

end Libhp.Io
