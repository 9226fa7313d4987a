import Libhp.Iocp.Ids

/-!
# Looking an item up by its id

`bsearch` finds an item exactly if it is there as long as the table is sorted. New items
are put at its end, so that it stays sorted exactly as long as each id given lies above the
ids in use; after the counter has started again at 0 it does not while older items are left.
-/
namespace Libhp.Iocp
open CInt

def HpIocp.Sorted (s : HpIocp) : Prop := (s.items.map Item.id).Pairwise (· < ·)

/-- An item that is made gets an id above those of the items that are there. -/
def BelowNext (s : HpIocp) : Act → Prop
  | .add fd onAccept onData _ _ bound =>
    s.Makes fd onAccept onData → bound = true → ∀ item ∈ s.items, item.id < s.nextId
  | _ => True

instance (s : HpIocp) : (a : Act) → Decidable (BelowNext s a)
  | .add .. => inferInstanceAs (Decidable (_ → _ → _))
  | .rm .. | .write .. | .handle .. | .itemOnError | .onErrorReturn | .msgsEnd | .pass ..
  | .pollMsg | .pollMsgsEnd | .select .. | .scan .. | .sendDone .. | .recvDone .. | .postIo .. =>
    isTrue trivial

section
variable {s s' : HpIocp} {a : Act}

/-- `hp_iocp_add` makes an item exactly if it comes to making one and the socket is bound. -/
theorem hpIocpAdd_ids {fd : Nat} {a d e l b : Bool} {r : HpIocp × Int}
    (h : hpIocpAdd s fd a d e l b = some r) :
    r.1.items.map Item.id =
      s.items.map Item.id ++ if s.Makes fd a d ∧ b = true then [s.nextId] else [] := by
  rcases hpIocpAdd_cases h with ⟨hno, heq⟩ | ⟨-, hunbound, heq⟩ |
    ⟨i, item, -, hitem, hfd, -, heq⟩ | ⟨hmake, hbound, heq⟩ <;> rw [heq]
  · rw [if_neg (fun hm => hno hm.1), List.append_nil]
  · rw [hunbound, if_neg (fun hm => Bool.false_ne_true hm.2), List.append_nil]
  · have hold : ¬ s.Makes fd a d := fun hm =>
      hm.2.2.1 item (List.mem_of_getElem? hitem) hfd
    rw [if_neg (fun hm => hold hm.1), List.append_nil]
    exact Slots.map_set_same hitem rfl
  · have hnew : s.Makes fd a d ∧ b = true := ⟨hmake, hbound⟩
    rw [if_pos hnew]
    exact List.map_append

/-- The ids that an action adds, and those it leaves. -/
theorem step_ids (hstep : step s a = some s') :
    (∃ fd x d e l b, a = .add fd x d e l b ∧ s'.items.map Item.id =
      s.items.map Item.id ++ if s.Makes fd x d ∧ b = true then [s.nextId] else []) ∨
    ((∀ fd x d e l b, a ≠ .add fd x d e l b) ∧
      (s'.items.map Item.id).Sublist (s.items.map Item.id)) := by
  by_cases hadd : ∃ fd x d e l b, a = .add fd x d e l b
  · obtain ⟨fd, x, d, e, l, b, rfl⟩ := hadd
    refine Or.inl ⟨fd, x, d, e, l, b, rfl, ?_⟩
    unfold step at hstep
    simp only at hstep
    split at hstep
    · obtain ⟨r, hr, rfl⟩ := Option.map_eq_some_iff.mp hstep
      exact hpIocpAdd_ids hr
    · cases hstep
  · have hother : ∀ fd x d e l b, a ≠ .add fd x d e l b :=
      fun fd x d e l b h => hadd ⟨fd, x, d, e, l, b, h⟩
    refine Or.inr ⟨hother, ?_⟩
    rcases (step_cases hstep).items_cases with heq | ⟨i, x, y, hx, hid, -, heq⟩ |
      ⟨fd, x, d, e, l, b, _, ha, -, -, -⟩ | ⟨f, -, -, heq⟩
    · rw [heq]
    · rw [heq, Slots.map_set_same hx hid]
    · exact absurd ha (hother fd x d e l b)
    · rw [heq]
      exact (List.eraseIdx_sublist _ _).map Item.id

/-- A sorted table stays sorted at a step exactly if the id that is given is the highest. -/
theorem sorted_step_iff (h : s.Sorted) (hstep : step s a = some s') :
    s'.Sorted ↔ BelowNext s a := by
  unfold HpIocp.Sorted
  rcases step_ids hstep with ⟨fd, x, d, e, l, b, rfl, hids⟩ | ⟨hother, hsub⟩
  · rw [hids]
    unfold BelowNext
    by_cases hnew : s.Makes fd x d ∧ b = true
    · rw [if_pos hnew, List.pairwise_append]
      constructor
      · rintro ⟨-, -, hall⟩ - - item hitem
        exact hall _ (List.mem_map_of_mem hitem) _ (List.mem_singleton_self _)
      · intro hbelow
        refine ⟨h, List.pairwise_singleton _ _, fun id hid id' hid' => ?_⟩
        obtain ⟨item, hitem, rfl⟩ := List.mem_map.mp hid
        rw [List.mem_singleton.mp hid']
        exact hbelow hnew.1 hnew.2 item hitem
    · rw [if_neg hnew, List.append_nil]
      exact iff_of_true h fun hmake hb => absurd ⟨hmake, hb⟩ hnew
  · apply iff_of_true (List.Pairwise.sublist hsub h)
    unfold BelowNext
    split
    · exact absurd rfl (hother _ _ _ _ _ _)
    · trivial

/-- On a sorted table the lookup finds an item exactly if there is one with the id. -/
theorem HpIocp.Sorted.itemFind_iff (h : s.Sorted) (id : Int) :
    (s.itemFind id).isSome = true ↔ ∃ item ∈ s.items, item.id = id := by
  constructor
  · intro hsome
    obtain ⟨⟨i, item⟩, hfind⟩ := Option.isSome_iff_exists.mp hsome
    have hat := HpIocp.itemFind_at hfind
    exact ⟨item, List.mem_of_getElem? hat.get, hat.id_eq⟩
  · rintro ⟨item, hitem, rfl⟩
    obtain ⟨i, hi⟩ := List.mem_iff_getElem?.mp hitem
    rw [HpIocp.itemFind_of_sorted hi (List.pairwise_map.mp h)]
    rfl

/-- In every state of a run in which each id given is the highest, the table is sorted and
lookups find what is there; and it stays so at the next step exactly under that condition. -/
theorem items_sorted (maxfd : Nat) (s : HpIocp)
    (h : Run.Along step BelowNext (hpIocpInit maxfd) s) :
    s.Sorted ∧ (∀ id, (s.itemFind id).isSome = true ↔ ∃ item ∈ s.items, item.id = id) ∧
      ∀ a s', step s a = some s' → (s'.Sorted ↔ BelowNext s a) := by
  have hsorted : s.Sorted := h.invariant List.Pairwise.nil
    fun _ _ _ hs hstep hok => (sorted_step_iff hs hstep).mpr hok
  exact ⟨hsorted, hsorted.itemFind_iff, fun a s' hstep => sorted_step_iff hsorted hstep⟩

theorem items_sorted_two : ∃ s, Run.Along step BelowNext (hpIocpInit 4) s ∧
    s.items.map Item.id = [1, 2] ∧ s.Sorted := by
  have hex : ∃ s, Run.Along step BelowNext (hpIocpInit 4) s ∧ s.items.map Item.id = [1, 2] :=
    Run.along_any (fun s a => decide (BelowNext s a))
      [.add 5 false true false true true, .add 6 false true false false true, .msgsEnd,
        .pass true, .itemOnError, .onErrorReturn, .pass false, .pass false,
        .add 5 false true false false true]
      (fun _ _ h => of_decide_eq_true h) (fun s => s.items.map Item.id = [1, 2])
      (by decide +kernel)
  obtain ⟨s, hrun, hids⟩ := hex
  exact ⟨s, hrun, hids, (items_sorted 4 s hrun).1⟩

/-- The state between two rounds: one item, and the user thread waits for messages. -/
structure HpIocp.Round (s : HpIocp) (k : Int) : Prop where
  items : s.items = [⟨0, 1, .user, .null, .null, .null, 0, []⟩]
  ioid : s.ioid = k
  maxfd : s.maxfd = 2
  pc : s.pc = .msgs
  failing : s.failing = none
  userQ : s.userQ = []

/-- A second item is added, and its `on_loop` removes it. -/
def addRemove : List Act :=
  [.add 2 false true false true true, .msgsEnd, .pass false, .pass true, .itemOnError,
    .onErrorReturn, .pass false]

theorem HpIocp.Round.next {k : Int} (h : s.Round k) (hk : k < INT_MAX - 1) :
    ∃ s', Run.Along step (fun _ _ => True) s s' ∧ s'.Round (k + 1) := by
  obtain ⟨items, ioid, maxfd, pc, failing, userQ, pds, ppc, pollQ, sends, recvs, done, sock, nxt,
    deleted, given, released⟩ := s
  obtain ⟨rfl, rfl, rfl, rfl, rfl, rfl⟩ := h
  have hnext : ioid ≠ INT_MAX - 1 := hk.ne
  have hrun : Run.follow step (fun _ _ => true) addRemove
      ⟨[⟨0, 1, .user, .null, .null, .null, 0, []⟩], ioid, 2, .msgs, none, [], pds, ppc, pollQ,
        sends, recvs, done, sock, nxt, deleted, given, released⟩ =
      some ⟨[⟨0, 1, .user, .null, .null, .null, 0, []⟩], ioid + 1, 2, .msgs, none, [], pds, ppc,
        pollQ ++ [.add ioid 2, .rm ioid .zero], sends, recvs, done,
        Function.update sock ioid .fresh, nxt, deleted, given, released⟩ := by
    simp [Run.follow, addRemove, step, hpIocpAdd, HpIocp.userRuns, HpIocp.nextId, hnext,
      invalidSocket, runMsgsEnd, runPass, Cb.given, HpIocp.fail, hpIocpItemOnError,
      HpIocp.setItem, HpIocp.postPoll, onErrorReturn]
  exact ⟨_, Run.along_follow (fun _ _ _ => trivial) hrun, rfl, rfl, rfl, rfl, rfl, rfl⟩

/-- The counter reaches every value up to its last while the first item is there. -/
theorem round_reached (k : Nat) (hk : (k : Int) + 1 ≤ INT_MAX - 1) :
    ∃ s, Run.Along step (fun _ _ => True) (hpIocpInit 2) s ∧ s.Round (k + 1) := by
  induction k with
  | zero =>
    refine ⟨_, Relation.ReflTransGen.single ⟨.add 1 true false false false true, rfl, trivial⟩, ?_⟩
    exact ⟨rfl, rfl, rfl, rfl, rfl, rfl⟩
  | succ k ih =>
    push_cast at hk ⊢
    obtain ⟨s, hrun, hround⟩ := ih (by omega)
    obtain ⟨s', hnext, hround'⟩ := hround.next (by omega)
    exact ⟨s', hrun.trans hnext, hround'⟩

/-- The last id has been given: the next one is 0. -/
theorem HpIocp.Round.restart (h : s.Round (INT_MAX - 1)) :
    ∃ s', step s (.add 2 false true false false true) = some s' ∧
      s'.items.map Item.id = [0, 0] := by
  obtain ⟨items, ioid, maxfd, pc, failing, userQ, pds, ppc, pollQ, sends, recvs, done, sock, nxt,
    deleted, given, released⟩ := s
  obtain ⟨rfl, rfl, rfl, rfl, rfl, rfl⟩ := h
  have hstep : (step ⟨[⟨0, 1, .user, .null, .null, .null, 0, []⟩], INT_MAX - 1, 2, .msgs, none, [],
      pds, ppc, pollQ, sends, recvs, done, sock, nxt, deleted, given, released⟩
      (.add 2 false true false false true)).map (fun s' => s'.items.map Item.id) =
        some [0, 0] := by
    simp [step, hpIocpAdd, HpIocp.userRuns, HpIocp.nextId, invalidSocket]
  exact Option.map_eq_some_iff.mp hstep

/-- The first item is still there when the counter starts again: two items have the id 0. -/
theorem items_not_sorted : ∃ s, Run.Along step (fun _ _ => True) (hpIocpInit 2) s ∧
    s.items.map Item.id = [0, 0] ∧ ¬ s.Sorted := by
  obtain ⟨s, hrun, hround⟩ := round_reached 2147483645 (by decide)
  obtain ⟨s', hstep, hids⟩ := HpIocp.Round.restart hround
  refine ⟨s', hrun.tail ⟨_, hstep, trivial⟩, hids, fun hsorted => ?_⟩
  unfold HpIocp.Sorted at hsorted
  rw [hids] at hsorted
  exact absurd hsorted (by decide)

end
end Libhp.Iocp
