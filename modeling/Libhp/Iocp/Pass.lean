import Libhp.Iocp.Iocp
import Libhp.Lib.Memmove

/-!
# The pass over the items

The loop of `hp_iocp_run` that calls `on_accept` and `on_loop` of every item, and erases an item
while it goes over the table. The callbacks may do anything to the items but add and remove some;
what they can change is the queue of an item that they write to.
-/
namespace Libhp.Iocp
open Memmove

/-- An item without its queue. -/
def Item.bare (item : Item) : Item := { item with obuf := [] }

/-- What the pass does, in the order in which it does it: calls of the callbacks, with what
`on_loop` returns and `on_error` is given, and the message WM_RM. -/
inductive PassEvent where
  | accept (id : Int)
  | loop (id ret : Int)
  | rm (id : Int)
  | error (id err : Int)
  deriving DecidableEq, Repr

/-- The user's callbacks: what `on_loop` of an item returns after these events, and what the
callback called last makes of the items. -/
structure Callbacks where
  ret : List PassEvent → Int → Int
  effect : List PassEvent → List Item → List Item
  keeps : ∀ log items, (effect log items).map Item.bare = items.map Item.bare

structure PassSt where
  items : List Item
  log : List PassEvent

section
variable (cb : Callbacks)

def PassSt.call (s : PassSt) (e : PassEvent) : PassSt where
  items := cb.effect (s.log ++ [e]) s.items
  log := s.log ++ [e]

/-- `hp_iocp_item_on_error` for the item at `i` -/
def passOnError (s : PassSt) (i : Nat) (item : Item) : PassSt × Nat :=
  let s := { items := s.items.modify i Item.bare, log := s.log ++ [.rm item.id] : PassSt }
  let s := if item.onError = .null then s else s.call cb (.error item.id item.err)
  let n := s.items.length
  if i + 1 < n then
    ({ s with items := (memmove s.items i (i + 1) (n - (i + 1))).take (n - 1) }, 1)
  else ({ s with items := s.items.take (n - 1) }, 0)

/-- What `on_loop` of the item returns. -/
def loopRet (log : List PassEvent) (item : Item) : Int :=
  if item.onLoop = .dflt then -1 else cb.ret log item.id

/-- One turn of the loop, and the index of the next one. -/
def passItem (s : PassSt) (i : Nat) (item : Item) : PassSt × Nat :=
  let s := if item.onAccept = .null then s else s.call cb (.accept item.id)
  if item.onLoop = .null then (s, i + 1)
  else
    let ret := loopRet cb s.log item
    let s := s.call cb (.loop item.id ret)
    if ret < 0 then
      let (s, rc) := passOnError cb s i item
      -- `--i` and `++i`
      (s, i + 1 - rc)
    else (s, i + 1)

end

/-- What becomes of an item: what its `on_loop` has returned, if it has one. -/
structure Visit where
  item : Item
  ret : Option Int

def Visit.gone (v : Visit) : Bool := v.ret.any (· < 0)

/-- `on_accept` is called if it is set. -/
def Item.accepts (item : Item) : List PassEvent :=
  if item.onAccept = .null then [] else [.accept item.id]

def Item.errors (item : Item) : List PassEvent :=
  if item.onError = .null then [] else [.error item.id item.err]

/-- All that the pass does with an item: `on_accept` and `on_loop` once, and `on_error` once and
only after `on_loop` has returned less than 0. -/
def Visit.events (v : Visit) : List PassEvent :=
  v.item.accepts ++ match v.ret with
    | none => []
    | some ret => .loop v.item.id ret :: if ret < 0 then .rm v.item.id :: v.item.errors else []

/-- What `on_loop` of an item returns when its turn comes. -/
def Callbacks.answer (cb : Callbacks) (log : List PassEvent) (item : Item) : Option Int :=
  if item.onLoop = .null then none else some (loopRet cb (log ++ item.accepts) item)

/-- The pass has visited every item once and in order, has called for each what its visit says,
and has kept those whose `on_loop` has not returned less than 0. -/
structure PassLaw (cb : Callbacks) (items : List Item) (done : PassSt) (visits : List Visit) :
    Prop where
  all : visits.map Visit.item = items.map Item.bare
  answers : ∀ front v back, visits = front ++ v :: back →
    v.ret = cb.answer (front.flatMap Visit.events) v.item
  log : done.log = visits.flatMap Visit.events
  kept : done.items.map Item.bare = (visits.filter fun v => !v.gone).map Visit.item

section
variable {cb : Callbacks} {s : PassSt} {i : Nat} {item : Item}

theorem length_of_bare {xs ys : List Item} (h : xs.map Item.bare = ys.map Item.bare) :
    xs.length = ys.length := by
  have hlen := congrArg List.length h
  rwa [List.length_map, List.length_map] at hlen

theorem Visit.events_gone {ret : Int} (hneg : ret < 0) :
    (⟨item, some ret⟩ : Visit).events =
      item.accepts ++ .loop item.id ret :: .rm item.id :: item.errors :=
  congrArg (fun es => item.accepts ++ .loop item.id ret :: es) (if_pos hneg)

theorem Visit.events_kept {ret : Int} (hpos : ¬ ret < 0) :
    (⟨item, some ret⟩ : Visit).events = item.accepts ++ [.loop item.id ret] :=
  congrArg (fun es => item.accepts ++ .loop item.id ret :: es) (if_neg hpos)

theorem call_bare (e : PassEvent) :
    (s.call cb e).items.map Item.bare = s.items.map Item.bare :=
  cb.keeps _ _

/-- A callback that is called if it is set. -/
theorem call_if_set {c : Cb} (e : PassEvent) :
    (if c = .null then s else s.call cb e).log = s.log ++ (if c = .null then [] else [e]) ∧
      (if c = .null then s else s.call cb e).items.map Item.bare = s.items.map Item.bare := by
  split
  · exact ⟨(List.append_nil _).symm, rfl⟩
  · exact ⟨rfl, call_bare e⟩

theorem map_modify_bare (items : List Item) (i : Nat) :
    (items.modify i Item.bare).map Item.bare = items.map Item.bare := by
  apply List.ext_getElem?
  intro j
  rw [List.getElem?_map, List.getElem?_map, List.getElem?_modify]
  cases items[j]? with
  | none => rfl
  | some item =>
    show some (Item.bare (if i = j then item.bare else item)) = some item.bare
    split <;> rfl

/-- The item is erased, and the return value says whether another one has moved to its place. -/
theorem passOnError_spec (hi : i < s.items.length) :
    (passOnError cb s i item).1.log = s.log ++ .rm item.id :: item.errors ∧
      (passOnError cb s i item).1.items.map Item.bare = (s.items.map Item.bare).eraseIdx i ∧
      (passOnError cb s i item).2 = if i + 1 < s.items.length then 1 else 0 := by
  obtain ⟨hlog, hbare⟩ := @call_if_set cb ⟨s.items.modify i Item.bare, s.log ++ [.rm item.id]⟩
    item.onError (.error item.id item.err)
  rw [map_modify_bare] at hbare
  unfold passOnError
  dsimp only at hlog hbare ⊢
  generalize (if item.onError = .null then _ else _ : PassSt) = t at hlog hbare ⊢
  have hlen : t.items.length = s.items.length := length_of_bare hbare
  have herase := take_memmove_erase (Nat.le_refl t.items.length) (hlen ▸ hi)
  rw [List.take_length] at herase
  have hlog' : t.log = s.log ++ .rm item.id :: item.errors := by
    rw [hlog, List.append_assoc]
    rfl
  rw [hlen] at herase ⊢
  split
  · refine ⟨hlog', ?_, rfl⟩
    rw [herase, ← List.eraseIdx_map, hbare]
  · next hlast =>
    refine ⟨hlog', ?_, rfl⟩
    -- nothing has to move
    have hnone : s.items.length - (i + 1) = 0 := by omega
    rw [hnone, memmove, List.take_zero, List.append_nil, Nat.add_zero,
      List.take_append_drop] at herase
    rw [herase, ← List.eraseIdx_map, hbare]

/-- What one turn does to the items and to the log, and where the next one is. -/
theorem passItem_spec (hitem : s.items[i]? = some item) {v : Visit}
    (hv : v = ⟨item.bare, cb.answer s.log item.bare⟩) :
    (passItem cb s i item).1.log = s.log ++ v.events ∧
      (passItem cb s i item).1.items.map Item.bare =
        (if v.gone then (s.items.map Item.bare).eraseIdx i else s.items.map Item.bare) ∧
      (passItem cb s i item).2 =
        if v.gone ∧ i + 1 < s.items.length then i else i + 1 := by
  have hi : i < s.items.length := (List.getElem?_eq_some_iff.mp hitem).1
  obtain ⟨hlog, hbare⟩ := @call_if_set cb s item.onAccept (.accept item.id)
  unfold passItem
  dsimp only
  generalize (if item.onAccept = .null then s else _ : PassSt) = t at hlog hbare ⊢
  have hlen : t.items.length = s.items.length := length_of_bare hbare
  change t.log = s.log ++ item.accepts at hlog
  by_cases hloop : item.onLoop = .null
  · have hret : v = ⟨item.bare, none⟩ := hv.trans (congrArg (Visit.mk item.bare) (if_pos hloop))
    rw [if_pos hloop, hret]
    refine ⟨?_, hbare, rfl⟩
    rw [hlog]
    exact congrArg (s.log ++ ·) (List.append_nil _).symm
  · have hret : v = ⟨item.bare, some (loopRet cb t.log item)⟩ := by
      rw [hv, hlog]
      exact congrArg (Visit.mk item.bare) (if_neg hloop)
    rw [if_neg hloop, hret]
    have hbare' := (@call_bare cb t (.loop item.id (loopRet cb t.log item))).trans hbare
    have hlen' : (t.call cb (.loop item.id (loopRet cb t.log item))).items.length =
        s.items.length := length_of_bare hbare'
    by_cases hneg : loopRet cb t.log item < 0
    · obtain ⟨herrlog, herrbare, hrc⟩ :=
        @passOnError_spec cb _ _ item (Nat.lt_of_lt_of_eq hi hlen'.symm)
      have hgone : (⟨item.bare, some (loopRet cb t.log item)⟩ : Visit).gone = true :=
        decide_eq_true hneg
      rw [if_pos hneg, if_pos hgone, Visit.events_gone hneg]
      refine ⟨?_, herrbare.trans (congrArg (List.eraseIdx · i) hbare'), ?_⟩
      · rw [herrlog]
        show t.log ++ [_] ++ _ = _
        rw [hlog, List.append_assoc, List.append_assoc]
        rfl
      · rw [hrc, hlen']
        by_cases hmore : i + 1 < s.items.length
        · rw [if_pos hmore, if_pos ⟨hgone, hmore⟩, Nat.add_sub_cancel]
        · rw [if_neg hmore, if_neg fun h => hmore h.2, Nat.sub_zero]
    · have hgone : (⟨item.bare, some (loopRet cb t.log item)⟩ : Visit).gone = false :=
        decide_eq_false hneg
      rw [if_neg hneg, hgone, Visit.events_kept hneg]
      refine ⟨?_, hbare', rfl⟩
      show t.log ++ [_] = _
      rw [hlog, List.append_assoc]
      rfl

/-- Fewer items are left to visit. -/
theorem passItem_fewer (hitem : s.items[i]? = some item) :
    (passItem cb s i item).1.items.length - (passItem cb s i item).2 < s.items.length - i := by
  obtain ⟨_, hbare, hnext⟩ := @passItem_spec cb s i item hitem _ rfl
  have hlen := congrArg List.length hbare
  have hi := (List.getElem?_eq_some_iff.mp hitem).1
  rw [hnext]
  split at hlen
  · rw [List.length_map, List.length_eraseIdx_of_lt (by simpa using hi), List.length_map] at hlen
    split <;> omega
  · next hgone =>
    rw [List.length_map, List.length_map] at hlen
    rw [if_neg fun h => hgone h.1]
    omega

/-- The next turn finds what was behind the item, and what is before its index is kept. -/
theorem turn_split {α : Type} {xs : List α} {x : α} {i : Nat} (hx : xs[i]? = some x) (gone : Bool) :
    (if gone then xs.eraseIdx i else xs).drop (if gone ∧ i + 1 < xs.length then i else i + 1) =
        xs.drop (i + 1) ∧
      (if gone then xs.eraseIdx i else xs).take (if gone ∧ i + 1 < xs.length then i else i + 1) =
        xs.take i ++ if gone then [] else [x] := by
  obtain ⟨hi, hget⟩ := List.getElem?_eq_some_iff.mp hx
  have htake : (xs.take i).length = i := List.length_take_of_le (Nat.le_of_lt hi)
  cases gone with
  | false =>
    simp only [Bool.false_eq_true, false_and, ↓reduceIte]
    exact ⟨trivial, by rw [List.take_succ_eq_append_getElem hi, hget]⟩
  | true =>
    simp only [true_and, ↓reduceIte, List.eraseIdx_eq_take_drop_succ, List.append_nil]
    split
    · exact ⟨List.drop_left' htake, List.take_left' htake⟩
    · next hlast =>
      have hrest : xs.drop (i + 1) = [] := List.drop_of_length_le (by omega)
      rw [hrest, List.append_nil]
      exact ⟨List.drop_of_length_le (by omega), List.take_of_length_le (by omega)⟩

end

section
variable (cb : Callbacks)

/-- The loop -/
def passLoop (s : PassSt) (i : Nat) : PassSt :=
  if h : i < s.items.length then
    passLoop (passItem cb s i s.items[i]).1 (passItem cb s i s.items[i]).2
  else s
termination_by s.items.length - i
decreasing_by exact passItem_fewer (List.getElem?_eq_getElem h)

/-- The pass of `hp_iocp_run` -/
def hpIocpRunPass (items : List Item) : PassSt := passLoop cb ⟨items, []⟩ 0

end

section
variable {cb : Callbacks}

/-- From a turn on. -/
theorem passLoop_law (s : PassSt) (i : Nat) : ∃ visits : List Visit,
    visits.map Visit.item = (s.items.map Item.bare).drop i ∧
    (∀ front v back, visits = front ++ v :: back →
      v.ret = cb.answer (s.log ++ front.flatMap Visit.events) v.item) ∧
    (passLoop cb s i).log = s.log ++ visits.flatMap Visit.events ∧
    (passLoop cb s i).items.map Item.bare = (s.items.map Item.bare).take i ++
      (visits.filter fun v => !v.gone).map Visit.item := by
  fun_induction passLoop cb s i with
  | case1 s i h ih =>
    have hitem := List.getElem?_eq_getElem h
    obtain ⟨v, hv⟩ : ∃ v : Visit, v = ⟨s.items[i].bare, cb.answer s.log s.items[i].bare⟩ := ⟨_, rfl⟩
    obtain ⟨hlog, hbare, hnext⟩ := passItem_spec hitem hv
    obtain ⟨visits, hall, hanswers, hlog', hkept⟩ := ih
    have hx : (s.items.map Item.bare)[i]? = some v.item := by
      rw [List.getElem?_map, hitem, hv]
      rfl
    have hi := (List.getElem?_eq_some_iff.mp hx).1
    obtain ⟨hdrop, htake⟩ := turn_split hx v.gone
    rw [List.length_map, ← hnext, ← hbare] at hdrop htake
    rw [hdrop] at hall
    rw [htake] at hkept
    refine ⟨v :: visits, ?_, ?_, ?_, ?_⟩
    · rw [List.map_cons, hall, List.drop_eq_getElem_cons hi, (List.getElem?_eq_some_iff.mp hx).2]
    · intro front u back hsplit
      cases front with
      | nil =>
        obtain ⟨rfl, -⟩ := List.cons.inj hsplit
        show v.ret = cb.answer (s.log ++ []) v.item
        rw [List.append_nil, hv]
      | cons w front =>
        obtain ⟨rfl, hrest⟩ := List.cons.inj hsplit
        rw [hanswers front u back hrest, hlog, List.flatMap_cons, List.append_assoc]
    · rw [hlog', hlog, List.flatMap_cons, List.append_assoc]
    · rw [hkept, List.append_assoc]
      congr 1
      cases hgone : v.gone with
      | true => simp [hgone]
      | false => simp [hgone]
  | case2 s i hend =>
    have hlen : (s.items.map Item.bare).length ≤ i := by
      rw [List.length_map]
      omega
    refine ⟨[], (List.drop_of_length_le hlen).symm, ?_, (List.append_nil _).symm, ?_⟩
    · intro front v back hsplit
      cases front <;> cases hsplit
    · exact ((List.append_nil _).trans (List.take_of_length_le hlen)).symm

theorem Visit.gone_iff {item : Item} {log : List PassEvent} {v : Visit}
    (hv : v = ⟨item.bare, cb.answer log item.bare⟩) :
    v.gone = true ↔ item.onLoop = .dflt ∨ item.onLoop = .user ∧ v.gone = true := by
  cases hloop : item.onLoop with
  | null =>
    have hnone : v.ret = none := hv ▸ if_pos hloop
    simp [Visit.gone, hnone]
  | user => simp
  | dflt =>
    have hnot : ¬ item.bare.onLoop = .null := fun h => by
      rw [show item.bare.onLoop = .dflt from hloop] at h
      cases h
    have hret : v.ret = some (-1) := by
      rw [hv]
      exact (if_neg hnot).trans (congrArg some (if_pos hloop))
    simp [Visit.gone, hret]

/-- The steps of a turn. -/
theorem pass_turn {s : HpIocp} {i : Nat} {item : Item} {log : List PassEvent} {v : Visit}
    (hpc : s.pc = .pass i) (hcalm : s.failing = none) (hitem : s.items[i]? = some item)
    (hv : v = ⟨item.bare, cb.answer log item.bare⟩) :
    ∃ s', Run.Along step (fun _ _ => True) s s' ∧ s'.failing = none ∧
      s'.items.map Item.bare =
        (if v.gone then (s.items.map Item.bare).eraseIdx i else s.items.map Item.bare) ∧
      s'.pc = .pass (if v.gone ∧ i + 1 < s.items.length then i else i + 1) := by
  have hpass : step s (.pass v.gone) =
      some (if v.gone then s.fail i none else { s with pc := .pass (i + 1) }) := by
    simp only [step, runPass, hpc, hcalm, hitem, ← Visit.gone_iff hv]
    split <;> rfl
  by_cases hgone : v.gone = true
  · rw [if_pos hgone] at hpass ⊢
    have herror : step (s.fail i none) .itemOnError =
        some { (s.setItem i { item with obuf := [] }).postPoll (.rm item.id .zero) with
          failing := some ⟨i, none, true⟩ } := by
      simp only [step, hpIocpItemOnError, HpIocp.fail, hitem]
      rfl
    obtain ⟨t, ht⟩ : ∃ t : HpIocp, t =
        { (s.setItem i { item with obuf := [] }).postPoll (.rm item.id .zero) with
          failing := some ⟨i, none, true⟩ } := ⟨_, rfl⟩
    have hitems : t.items = s.items.set i { item with obuf := [] } := ht ▸ rfl
    have hreturn : step t .onErrorReturn =
        some { t with
          items := t.items.eraseIdx i
          failing := none
          pc := .pass (if i + 1 < t.items.length then i else i + 1) } := by
      have hfailing : t.failing = some ⟨i, none, true⟩ := ht ▸ rfl
      have hpc' : t.pc = .pass i := ht ▸ hpc
      simp only [step, onErrorReturn, hfailing, hpc']
      rfl
    rw [← ht] at herror
    refine ⟨{ t with
      items := t.items.eraseIdx i
      failing := none
      pc := .pass (if i + 1 < t.items.length then i else i + 1) }, ?_, rfl, ?_, ?_⟩
    · refine Relation.ReflTransGen.head ⟨_, hpass, trivial⟩ ?_
      refine Relation.ReflTransGen.head ⟨_, herror, trivial⟩ ?_
      exact Relation.ReflTransGen.single ⟨_, hreturn, trivial⟩
    · show (t.items.eraseIdx i).map Item.bare = _
      rw [hitems, List.eraseIdx_set_eq, List.eraseIdx_map]
    · show RunPc.pass (if i + 1 < t.items.length then i else i + 1) = _
      rw [hitems, List.length_set]
      simp only [hgone, true_and]
  · rw [if_neg hgone] at hpass ⊢
    exact ⟨_, Relation.ReflTransGen.single ⟨_, hpass, trivial⟩, hcalm, rfl,
      congrArg RunPc.pass (if_neg fun h => hgone h.1).symm⟩

/-- The steps from a turn on do to the items what the loop does, but for what the callbacks
write. -/
theorem pass_along (ps : PassSt) (i : Nat) {s : HpIocp} (hpc : s.pc = .pass i)
    (hcalm : s.failing = none) (hsame : s.items.map Item.bare = ps.items.map Item.bare) :
    ∃ s', Run.Along step (fun _ _ => True) s s' ∧ s'.pc = .msgs ∧ s'.failing = none ∧
      s'.items.map Item.bare = (passLoop cb ps i).items.map Item.bare := by
  have hlen := length_of_bare hsame
  fun_induction passLoop cb ps i generalizing s with
  | case1 ps i h ih =>
    have hps := List.getElem?_eq_getElem h
    have hi : i < s.items.length := hlen ▸ h
    have hitem := List.getElem?_eq_getElem hi
    have hbare : s.items[i].bare = ps.items[i].bare := by
      have hget := congrArg (·[i]?) hsame
      simp only [List.getElem?_map, hitem, hps, Option.map_some] at hget
      exact Option.some.inj hget
    obtain ⟨v, hv⟩ : ∃ v : Visit, v = ⟨ps.items[i].bare, cb.answer ps.log ps.items[i].bare⟩ :=
      ⟨_, rfl⟩
    obtain ⟨t, hrun, hcalm', hitems, hpc'⟩ := pass_turn hpc hcalm hitem (hbare ▸ hv)
    obtain ⟨_, hps', hnext⟩ := passItem_spec hps hv
    rw [hlen, ← hnext] at hpc'
    have hsame' : t.items.map Item.bare = (passItem cb ps i ps.items[i]).1.items.map Item.bare := by
      rw [hitems, hps', hsame]
    obtain ⟨s', hrest, hend⟩ := ih hpc' hcalm' hsame' (length_of_bare hsame')
    exact ⟨s', hrun.trans hrest, hend⟩
  | case2 ps i hend =>
    have hnone : s.items[i]? = none := List.getElem?_eq_none_iff.mpr (by omega)
    have hstep : step s (.pass false) = some { s with pc := .msgs } := by
      simp only [step, runPass, hpc, hcalm, hnone]
    exact ⟨_, Relation.ReflTransGen.single ⟨_, hstep, trivial⟩, rfl, hcalm, hsame⟩

end

/-- The pass of the model with both threads does to its items what the pass here does. -/
theorem hpIocpRunPass_along (cb : Callbacks) {s : HpIocp} (hpc : s.pc = .pass 0)
    (hcalm : s.failing = none) :
    ∃ s', Run.Along step (fun _ _ => True) s s' ∧ s'.pc = .msgs ∧ s'.failing = none ∧
      s'.items.map Item.bare = (hpIocpRunPass cb s.items).items.map Item.bare :=
  pass_along ⟨s.items, []⟩ 0 hpc hcalm rfl

/-- The pass visits every item once and in order, and removes exactly those whose `on_loop` returns
less than 0. -/
theorem hpIocpRunPass_law (cb : Callbacks) (items : List Item) :
    ∃ visits, PassLaw cb items (hpIocpRunPass cb items) visits := by
  obtain ⟨visits, hall, hanswers, hlog, hkept⟩ := @passLoop_law cb ⟨items, []⟩ 0
  exact ⟨visits, hall, hanswers, hlog, hkept⟩

/-- `on_loop` of the items 1, 2 and 4 returns -1, and every callback writes a byte to the item 3. -/
def endsThree : Callbacks where
  ret _ id := if id = 1 ∨ id = 2 ∨ id = 4 then -1 else 0
  effect log := List.map fun item =>
    if item.id = 3 then
      { item with obuf := item.obuf ++ [hpIocpOlNewo log.length 3 8 [1] false 0] }
    else item
  keeps log items := by
    rw [List.map_map]
    apply List.map_congr_left
    intro item _
    rw [Function.comp_apply]
    split <;> rfl

/-- An item of the pass below; the one with id 2 has no `on_error`. -/
def passItemOf (id : Int) : Item :=
  ⟨id, 5 + id.toNat, .null, .user, if id = 2 then .null else .user, .user, 0, []⟩

/-- Two neighbours and the last of five items are removed. -/
theorem hpIocpRunPass_law_ends :
    ((hpIocpRunPass endsThree ([0, 1, 2, 3, 4].map passItemOf)).items.map Item.id = [0, 3] ∧
      (hpIocpRunPass endsThree ([0, 1, 2, 3, 4].map passItemOf)).log =
        [.loop 0 0, .loop 1 (-1), .rm 1, .error 1 0, .loop 2 (-1), .rm 2, .loop 3 0,
          .loop 4 (-1), .rm 4, .error 4 0]) ∧
      ∃ visits, PassLaw endsThree ([0, 1, 2, 3, 4].map passItemOf)
        (hpIocpRunPass endsThree ([0, 1, 2, 3, 4].map passItemOf)) visits :=
  ⟨by decide +kernel, hpIocpRunPass_law endsThree _⟩

end Libhp.Iocp
