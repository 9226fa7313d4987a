import Libhp.Iocp.Lookup

/-!
# Looking an item up by its arg

`hp_iocp_find` of `hp_iocp.c`. `hp_iocp_rm` only marks an item, which stays in the table until the
loop erases it, and the search with `on_cmp` stops at the first item that matches, marked or not.
-/
namespace Libhp.Iocp

/-- `hp_iocp` with the `arg` of each item. -/
structure Table where
  iocp : HpIocp
  args : List Nat

/-- The arguments `key` and `on_cmp` of `hp_iocp_find`: the two, a pointer to an id, or nothing. -/
inductive FindKey where
  | cmp (key : Nat) (onCmp : Nat → Nat → Bool)
  | byId (id : Int)
  | null

namespace Table

def init (maxfd : Nat) : Table := ⟨hpIocpInit maxfd, []⟩

def entries (t : Table) : List (Item × Nat) := t.iocp.items.zip t.args

/-- What `hp_iocp_add` makes of the args. -/
def addArgs (t : Table) (fd : Nat) (onAccept onData bound : Bool) (arg : Nat) : List Nat :=
  if fd = invalidSocket ∨ !(onData || onAccept) then t.args
  else
    match t.iocp.items.findIdx? fun item => item.fd = fd with
    | some i => t.args.set i arg
    | none => if t.iocp.items.length = t.iocp.maxfd ∨ !bound then t.args else t.args ++ [arg]

/-- What a step makes of the args; `arg` is given to `hp_iocp_add`. -/
def stepArgs (t : Table) (arg : Nat) : Act → List Nat
  | .add fd onAccept onData _ _ bound => t.addArgs fd onAccept onData bound arg
  | .onErrorReturn => t.iocp.failing.elim t.args fun f => t.args.eraseIdx f.i
  | _ => t.args

def step (t : Table) (a : Act × Nat) : Option Table :=
  (Iocp.step t.iocp a.1).map fun s => ⟨s, t.stepArgs a.2 a.1⟩

/-- The search of `hp_iocp_find`, by `hp_lfind` or by the id. -/
def findItem (t : Table) : FindKey → Option (Item × Nat)
  | .cmp key onCmp => t.entries.find? fun e => onCmp key e.2
  | .byId id => (t.iocp.itemFind id).bind fun p => t.entries[p.1]?
  | .null => none

end Table

/-- `hp_iocp_find` -/
def hpIocpFind (t : Table) (key : FindKey) : Nat :=
  match t.findItem key with
  | some (item, arg) => if item.isRemoved then 0 else arg
  | none => 0

def FindKey.Matches : FindKey → Item × Nat → Prop
  | .cmp key onCmp, e => onCmp key e.2 = true
  | .byId id, e => e.1.id = id
  | .null, _ => False

/-- An item that matches and is not marked. -/
def Table.Live (t : Table) (key : FindKey) (e : Item × Nat) : Prop :=
  e ∈ t.entries ∧ e.1.isRemoved = false ∧ key.Matches e

/-- `hp_iocp_find` returns the arg of an item that matches and is not marked, if there is one,
and 0 else. -/
structure FindLaw (t : Table) (key : FindKey) : Prop where
  found : (∃ e, t.Live key e) → ∃ e, t.Live key e ∧ hpIocpFind t key = e.2
  none : (¬ ∃ e, t.Live key e) → hpIocpFind t key = 0

/-- There are items that match and are not marked, with args other than 0, but the first item that
matches is marked. -/
def Table.Hidden (t : Table) (key : FindKey) : Prop :=
  (∃ e, t.Live key e) ∧ (∀ e, t.Live key e → e.2 ≠ 0) ∧
    ∃ front e back, Slots.First key.Matches t.entries front e back ∧ e.1.isRemoved = true

/-- No step makes an item without `on_accept` and `on_data`. -/
def HpIocp.Called (s : HpIocp) : Prop :=
  ∀ item ∈ s.items, item.onAccept ≠ .null ∨ item.onData ≠ .null

/-- What every run keeps. -/
structure Table.Kept (t : Table) : Prop where
  args : t.args.length = t.iocp.items.length
  called : t.iocp.Called

/-- What the search finds is the first entry that matches. -/
def Table.FindsFirst (t : Table) (key : FindKey) : Prop :=
  (∃ front e back, t.findItem key = some e ∧ Slots.First key.Matches t.entries front e back) ∨
    t.findItem key = none ∧ ∀ e ∈ t.entries, ¬ key.Matches e

section
variable {s s' : HpIocp} {a : Act} {t t' : Table} {key : FindKey}

theorem HpIocp.Called.step (h : s.Called) (hstep : Step s a s') : s'.Called := by
  unfold HpIocp.Called
  rcases hstep.items_cases with heq | ⟨i, x, y, hx, -, hcalled, heq⟩ |
    ⟨_, _, _, _, _, _, y, -, -, hcalled, heq⟩ | ⟨f, -, -, heq⟩ <;> rw [heq]
  · exact h
  · intro item hin
    rcases Slots.mem_set hin with hold | rfl
    · exact h item hold
    · exact hcalled (h x (List.mem_of_getElem? hx))
  · intro item hin
    rcases List.mem_append.mp hin with hold | hnew
    · exact h item hold
    · exact List.mem_singleton.mp hnew ▸ hcalled
  · exact fun item hin => h item ((List.eraseIdx_sublist _ _).subset hin)

/-- Only `hp_iocp_add` and the end of `hp_iocp_item_on_error` change the number of items. -/
theorem length_items_step (hstep : step s a = some s')
    (hadd : ∀ fd x d e l b, a ≠ .add fd x d e l b) (hreturn : a ≠ .onErrorReturn) :
    s'.items.length = s.items.length := by
  rcases (step_cases hstep).items_cases with heq | ⟨i, x, y, -, -, -, heq⟩ |
    ⟨fd, x, d, e, l, b, _, ha, -, -, -⟩ | ⟨_, ha, -, -⟩
  · rw [heq]
  · rw [heq, List.length_set]
  · exact absurd ha (hadd fd x d e l b)
  · exact absurd ha hreturn

theorem onErrorReturn_items (hstep : step s .onErrorReturn = some s') :
    ∃ f, s.failing = some f ∧ s'.items = s.items.eraseIdx f.i := by
  simp only [step, onErrorReturn] at hstep
  split at hstep
  · next i ol hf =>
    cases hstep
    refine ⟨_, hf, ?_⟩
    cases ol <;> rfl
  · cases hstep

/-- `hp_iocp_add` puts an arg at the end only with a new item. -/
theorem length_addArgs_old {fd arg : Nat} {x d b : Bool}
    (hold : ¬ (t.iocp.Makes fd x d ∧ b = true)) :
    (t.addArgs fd x d b arg).length = t.args.length := by
  unfold Table.addArgs
  split
  · rfl
  next hargs =>
  split
  · exact List.length_set
  next hnone =>
  split
  · rfl
  next hroom =>
  exfalso
  obtain ⟨hfd, hcall⟩ := not_or.mp hargs
  obtain ⟨hlen, hbound⟩ := not_or.mp hroom
  have hnew : ∀ item ∈ t.iocp.items, item.fd ≠ fd := by
    intro item hin heq
    exact absurd heq (of_decide_eq_false (List.findIdx?_eq_none_iff.mp hnone item hin))
  have hgiven : (d || x) = true := by
    simpa only [Bool.not_eq_true', Bool.not_eq_false] using hcall
  exact hold ⟨⟨hfd, hgiven, hnew, hlen⟩, by simpa using hbound⟩

theorem addArgs_new {fd arg : Nat} {x d b : Bool} (hmake : t.iocp.Makes fd x d)
    (hbound : b = true) : t.addArgs fd x d b arg = t.args ++ [arg] := by
  obtain ⟨hfd, hcall, hnew, hlen⟩ := hmake
  have hnone : (t.iocp.items.findIdx? fun item => item.fd = fd) = none :=
    List.findIdx?_eq_none_iff.mpr fun item hin => decide_eq_false (hnew item hin)
  unfold Table.addArgs
  rw [if_neg (by simp [hfd, hcall]), hnone]
  exact if_neg (by simp [hlen, hbound])

theorem length_addArgs (h : t.args.length = t.iocp.items.length) {fd arg : Nat}
    {x d e l b : Bool} {r : HpIocp × Int} (hadd : hpIocpAdd t.iocp fd x d e l b = some r) :
    (t.addArgs fd x d b arg).length = r.1.items.length := by
  rcases hpIocpAdd_cases hadd with ⟨hno, heq⟩ | ⟨_, hunbound, heq⟩ |
    ⟨i, item, _, hitem, hfd, _, heq⟩ | ⟨hmake, hbound, heq⟩ <;> rw [heq]
  · rw [length_addArgs_old fun hnew => hno hnew.1, h]
  · rw [length_addArgs_old fun hnew => by simp [hunbound] at hnew, h]
  · have hold : ¬ (t.iocp.Makes fd x d ∧ b = true) :=
      fun hnew => hnew.1.2.2.1 item (List.mem_of_getElem? hitem) hfd
    rw [length_addArgs_old hold, h]
    exact List.length_set.symm
  · rw [addArgs_new hmake hbound, List.length_append, List.length_append, h]
    rfl

theorem Table.Kept.step (h : t.Kept) {act : Act × Nat} (hstep : t.step act = some t') :
    t'.Kept := by
  obtain ⟨a, arg⟩ := act
  obtain ⟨s', hs, rfl⟩ := Option.map_eq_some_iff.mp hstep
  refine ⟨?_, h.called.step (step_cases hs)⟩
  show (t.stepArgs arg a).length = s'.items.length
  by_cases hadd : ∃ fd x d e l b, a = .add fd x d e l b
  · obtain ⟨fd, x, d, e, l, b, rfl⟩ := hadd
    simp only [Iocp.step] at hs
    split at hs
    · obtain ⟨r, hr, rfl⟩ := Option.map_eq_some_iff.mp hs
      exact length_addArgs h.args hr
    · cases hs
  · have hother : ∀ fd x d e l b, a ≠ .add fd x d e l b :=
      fun fd x d e l b heq => hadd ⟨fd, x, d, e, l, b, heq⟩
    by_cases hreturn : a = .onErrorReturn
    · obtain rfl := hreturn
      obtain ⟨f, hf, hitems⟩ := onErrorReturn_items hs
      rw [hitems, Table.stepArgs, hf]
      show (t.args.eraseIdx f.i).length = _
      rw [List.length_eraseIdx, List.length_eraseIdx, h.args]
    · have hkeep : t.stepArgs arg a = t.args := by
        cases a with
        | add => exact absurd rfl (hother _ _ _ _ _ _)
        | onErrorReturn => exact absurd rfl hreturn
        | _ => rfl
      rw [hkeep, h.args, length_items_step hs hother hreturn]

theorem Table.entries_get {i : Nat} {e : Item × Nat} (hget : t.entries[i]? = some e) :
    t.iocp.items[i]? = some e.1 :=
  (List.getElem?_zip_eq_some.mp hget).1

/-- No two items of a sorted table have the id. -/
theorem first_id (hsorted : t.iocp.Sorted) {i : Nat} {e : Item × Nat} {id : Int}
    (hget : t.entries[i]? = some e) (hid : e.1.id = id) :
    ∃ front back, Slots.First (FindKey.byId id).Matches t.entries front e back := by
  obtain ⟨hi, heq⟩ := List.getElem?_eq_some_iff.mp hget
  refine ⟨t.entries.take i, t.entries.drop (i + 1), ?_, hid, ?_⟩
  · rw [← heq, ← List.drop_eq_getElem_cons hi, List.take_append_drop]
  · intro x hx hmatch
    obtain ⟨j, hj⟩ := List.mem_iff_getElem?.mp hx
    have hlt : j < i := by
      by_contra hge
      rw [List.getElem?_take_eq_none (Nat.le_of_not_lt hge)] at hj
      cases hj
    rw [List.getElem?_take_of_lt hlt] at hj
    have hij := Search.index_unique Item.id (List.pairwise_map.mp hsorted)
      (Table.entries_get hj) (Table.entries_get hget) (Eq.trans hmatch hid.symm)
    omega

theorem Table.Kept.get_at (h : t.Kept) {id : Int} {i : Nat} {item : Item}
    (hfind : t.iocp.itemFind id = some (i, item)) :
    ∃ arg, t.entries[i]? = some (item, arg) ∧ item.id = id := by
  have hat := HpIocp.itemFind_at hfind
  have hi : i < t.args.length := h.args ▸ (List.getElem?_eq_some_iff.mp hat.get).1
  exact ⟨_, List.getElem?_zip_eq_some.mpr ⟨hat.get, List.getElem?_eq_getElem hi⟩, hat.id_eq⟩

theorem findsFirst_cmp (t : Table) (key : Nat) (onCmp : Nat → Nat → Bool) :
    t.FindsFirst (.cmp key onCmp) := by
  cases hfind : t.entries.find? fun e => onCmp key e.2 with
  | none =>
    refine .inr ⟨hfind, fun e he hmatch => ?_⟩
    exact List.find?_eq_none.mp hfind e he hmatch
  | some e =>
    obtain ⟨hmatch, front, back, hsplit, hbefore⟩ := List.find?_eq_some_iff_append.mp hfind
    refine .inl ⟨front, e, back, hfind, hsplit, hmatch, fun x hx hmatch' => ?_⟩
    have hnot := hbefore x hx
    rw [show onCmp key x.2 = true from hmatch'] at hnot
    cases hnot

theorem Table.Kept.findsFirst_id (h : t.Kept) (hsorted : t.iocp.Sorted) (id : Int) :
    t.FindsFirst (.byId id) := by
  cases hfind : t.iocp.itemFind id with
  | none =>
    refine .inr ⟨by rw [Table.findItem, hfind]; rfl, fun e he hmatch => ?_⟩
    have hsome := (hsorted.itemFind_iff id).mpr ⟨e.1, (List.of_mem_zip he).1, hmatch⟩
    rw [hfind] at hsome
    cases hsome
  | some p =>
    obtain ⟨arg, hget, hid⟩ := h.get_at hfind
    obtain ⟨front, back, hfirst⟩ := first_id hsorted hget hid
    exact .inl ⟨front, _, back, by rw [Table.findItem, hfind]; exact hget, hfirst⟩

/-- The law holds exactly if no marked item hides the ones that are not. -/
theorem Table.FindsFirst.findLaw_iff (h : t.FindsFirst key) : FindLaw t key ↔ ¬ t.Hidden key := by
  rcases h with ⟨front, e, back, hfind, hfirst⟩ | ⟨hnone, hno⟩
  · have hret : hpIocpFind t key = if e.1.isRemoved then 0 else e.2 := by
      rw [hpIocpFind, hfind]
    cases hremoved : e.1.isRemoved with
    | false =>
      have hlive : t.Live key e := ⟨hfirst.mem, hremoved, hfirst.here⟩
      rw [hremoved] at hret
      refine iff_of_true ⟨fun _ => ⟨e, hlive, hret⟩, fun hnot => absurd ⟨e, hlive⟩ hnot⟩ ?_
      intro ⟨_, _, front', e', back', hfirst', hremoved'⟩
      obtain ⟨_, rfl, _⟩ := hfirst.unique hfirst'
      rw [hremoved] at hremoved'
      cases hremoved'
    | true =>
      rw [hremoved] at hret
      constructor
      · intro hlaw ⟨hex, hne, _⟩
        obtain ⟨x, hx, hfound⟩ := hlaw.found hex
        exact hne x hx (hfound.symm.trans hret)
      · intro hnot
        refine ⟨fun hex => ?_, fun _ => hret⟩
        by_contra hmiss
        exact hnot ⟨hex, fun x hx hzero => hmiss ⟨x, hx, hret.trans hzero.symm⟩,
          front, e, back, hfirst, hremoved⟩
  · have hret : hpIocpFind t key = 0 := by rw [hpIocpFind, hnone]
    have hlive : ¬ ∃ e, t.Live key e := fun ⟨e, he, _, hmatch⟩ => hno e he hmatch
    exact iff_of_true ⟨fun hex => absurd hex hlive, fun _ => hret⟩ fun hhidden => hlive hhidden.1

/-- In a sorted table an id is looked up rightly. -/
theorem not_hidden_id (hsorted : t.iocp.Sorted) (id : Int) : ¬ t.Hidden (.byId id) := by
  intro ⟨⟨x, hx, hlive, hid⟩, _, front, e, back, hfirst, hremoved⟩
  obtain ⟨i, hi⟩ := List.mem_iff_getElem?.mp hx
  obtain ⟨front', back', hfirst'⟩ := first_id hsorted hi hid
  obtain ⟨_, rfl, _⟩ := hfirst.unique hfirst'
  rw [hlive] at hremoved
  cases hremoved

theorem Table.Kept.findItem_matches (h : t.Kept) {e : Item × Nat}
    (hfind : t.findItem key = some e) : e ∈ t.entries ∧ key.Matches e := by
  cases key with
  | cmp key onCmp =>
    have hmatch := List.find?_some (p := fun e : Item × Nat => onCmp key e.2) hfind
    exact ⟨List.mem_of_find?_eq_some hfind, hmatch⟩
  | byId id =>
    obtain ⟨⟨i, item⟩, hitem, hget⟩ := Option.bind_eq_some_iff.mp hfind
    obtain ⟨arg, hget', hid⟩ := h.get_at hitem
    obtain rfl := Option.some.inj (hget.symm.trans hget')
    exact ⟨List.mem_of_getElem? hget, hid⟩
  | null => cases hfind

/-- A marked item is not returned. -/
theorem Table.Kept.find_live (h : t.Kept) (hret : hpIocpFind t key ≠ 0) :
    ∃ e, t.Live key e ∧ hpIocpFind t key = e.2 := by
  cases hfind : t.findItem key with
  | none => exact absurd (by rw [hpIocpFind, hfind]) hret
  | some e =>
    obtain ⟨hmem, hmatch⟩ := h.findItem_matches hfind
    have hfound : hpIocpFind t key = if e.1.isRemoved then 0 else e.2 := by
      rw [hpIocpFind, hfind]
    cases hremoved : e.1.isRemoved with
    | false =>
      rw [hremoved] at hfound
      exact ⟨e, ⟨hmem, hremoved, hmatch⟩, hfound⟩
    | true =>
      rw [hremoved] at hfound
      exact absurd hfound hret

/-- `hp_iocp_rm` marks the item that it finds. -/
theorem Table.Kept.rm_marks (h : t.Kept) {id : Int} (hid : 0 ≤ id) {i : Nat} {item : Item}
    (hfind : t.iocp.itemFind id = some (i, item)) :
    ∃ item', (hpIocpRm t.iocp id).1.items[i]? = some item' ∧ item'.id = id ∧
      item'.isRemoved = true := by
  have hat := HpIocp.itemFind_at hfind
  have hi := (List.getElem?_eq_some_iff.mp hat.get).1
  unfold hpIocpRm
  rw [if_neg (by omega), hfind]
  refine ⟨_, List.getElem?_set_self hi, hat.id_eq, ?_⟩
  rcases h.called item (List.mem_of_getElem? hat.get) with haccept | hdata
  · simp [Item.isRemoved, Cb.reset_ne haccept]
  · simp [Item.isRemoved, Cb.reset_ne hdata]

theorem Table.kept_init (maxfd : Nat) : (Table.init maxfd).Kept :=
  ⟨rfl, fun _ h => absurd h List.not_mem_nil⟩

end

/-- In every state of every run a search with `on_cmp` keeps to the law exactly if no marked item
hides those that are not marked, and a marked item is not returned. A search by id keeps to the law
as long as each id given is the highest, and `hp_iocp_rm` marks the item with the id. -/
theorem find_law_iff (maxfd : Nat) (t : Table)
    (h : Run.Along Table.step (fun _ _ => True) (Table.init maxfd) t) :
    (∀ key onCmp, FindLaw t (.cmp key onCmp) ↔ ¬ t.Hidden (.cmp key onCmp)) ∧
      (∀ key, hpIocpFind t key ≠ 0 → ∃ e, t.Live key e ∧ hpIocpFind t key = e.2) ∧
      (Run.Along Table.step (fun t act => BelowNext t.iocp act.1) (Table.init maxfd) t →
        ∀ id, FindLaw t (.byId id)) ∧
      ∀ id ≥ 0, ∀ i item, t.iocp.itemFind id = some (i, item) →
        ∃ item', (hpIocpRm t.iocp id).1.items[i]? = some item' ∧ item'.id = id ∧
          item'.isRemoved = true := by
  have hkept : t.Kept := h.invariant (Table.kept_init maxfd) fun _ _ _ ht hstep _ => ht.step hstep
  refine ⟨fun key onCmp => (findsFirst_cmp t key onCmp).findLaw_iff,
    fun _ hret => hkept.find_live hret, fun hrun id => ?_,
    fun _ hid _ _ hfind => hkept.rm_marks hid hfind⟩
  have hsorted : t.iocp.Sorted := by
    refine hrun.invariant (I := fun t => t.iocp.Sorted) List.Pairwise.nil ?_
    intro u act u' hu hstep hok
    obtain ⟨s', hs, rfl⟩ := Option.map_eq_some_iff.mp hstep
    exact (sorted_step_iff hu hs).mpr hok
  exact (hkept.findsFirst_id hsorted id).findLaw_iff.mpr (not_hidden_id hsorted id)

/-- Two items, the first of which is removed. -/
def addRmAdd : List (Act × Nat) :=
  [(.add 5 false true false false true, 7), (.rm 0, 0), (.add 6 false true false false true, 8)]

theorem addRmAdd_reached (P : Table → Prop) [DecidablePred P]
    (h : (Run.follow Table.step (fun _ _ => true) addRmAdd (Table.init 4)).any
      (fun t => decide (P t)) = true) :
    ∃ t, Run.Along Table.step (fun _ _ => True) (Table.init 4) t ∧ P t :=
  Run.along_any _ addRmAdd (fun _ _ _ => trivial) P h

/-- The second item is found. -/
theorem find_law_two : ∃ t,
    Run.Along Table.step (fun _ _ => True) (Table.init 4) t ∧ t.args = [7, 8] ∧
      FindLaw t (.cmp 8 (· = ·)) := by
  obtain ⟨t, hrun, hargs, hlive⟩ := addRmAdd_reached
    (fun t => t.args = [7, 8] ∧ ∀ e ∈ t.entries, e.2 = 8 → e.1.isRemoved = false)
    (by decide +kernel)
  refine ⟨t, hrun, hargs, ((find_law_iff 4 t hrun).1 _ _).mpr ?_⟩
  rintro ⟨-, -, front, e, back, hfirst, hremoved⟩
  have height : e.2 = 8 := (of_decide_eq_true hfirst.here).symm
  rw [hlive e hfirst.mem height] at hremoved
  cases hremoved

/-- Both items match, the second is not marked, and nothing is found. -/
theorem find_hidden : ∃ t, Run.Along Table.step (fun _ _ => True) (Table.init 4) t ∧
    hpIocpFind t (.cmp 1 fun _ _ => true) = 0 ∧
    (∃ e, t.Live (.cmp 1 fun _ _ => true) e) ∧ ¬ FindLaw t (.cmp 1 fun _ _ => true) := by
  obtain ⟨t, hrun, hfind, ⟨e, he, hlive⟩, hargs⟩ := addRmAdd_reached
    (fun t => hpIocpFind t (.cmp 1 fun _ _ => true) = 0 ∧
      (∃ e ∈ t.entries, e.1.isRemoved = false) ∧ ∀ e ∈ t.entries, e.2 ≠ 0) (by decide +kernel)
  have hex : ∃ e, t.Live (.cmp 1 fun _ _ => true) e := ⟨e, he, hlive, rfl⟩
  refine ⟨t, hrun, hfind, hex, fun hlaw => ?_⟩
  obtain ⟨x, hx, hfound⟩ := hlaw.found hex
  exact hargs x hx.1 (hfound.symm.trans hfind)

end Libhp.Iocp
