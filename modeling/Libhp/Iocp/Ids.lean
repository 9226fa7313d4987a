import Libhp.Iocp.Steps
import Libhp.Lib.Slots

/-!
# The ids of the items

The table of items is sorted by id, so that a lookup finds what is there, as long as the
ids start again at 0 only when nothing with an earlier id is left.
-/
namespace Libhp.Iocp
open CInt

/-- No item, no entry, no message and no operation is left. -/
def HpIocp.Idle (s : HpIocp) : Prop :=
  s.items = [] ∧ s.pds = [] ∧ s.pollQ = [] ∧ s.userQ = [] ∧ s.sends = [] ∧ s.recvs = [] ∧
    s.done = []

instance (s : HpIocp) : Decidable s.Idle := inferInstanceAs (Decidable (_ ∧ _))

/-- The ids start again only when nothing with an earlier one is left. -/
def FreshIds (s : HpIocp) : Act → Prop
  | .add fd onAccept onData _ _ _ => s.Makes fd onAccept onData → s.ioid = INT_MAX - 1 → s.Idle
  | _ => True

instance (s : HpIocp) (a : Act) : Decidable (FreshIds s a) := by
  cases a <;> unfold FreshIds <;> infer_instance

structure HpIocp.Ids (s : HpIocp) : Prop where
  sorted : (s.items.map Item.id).Pairwise (· < ·)
  below : ∀ id ∈ s.items.map Item.id, id < s.ioid

section
variable {s s' : HpIocp} {a : Act} {i j : Nat} {x y : Item}

/-- What lies below the counter lies below the id of a new item. -/
theorem HpIocp.lt_nextId {id : Int} (h : id < s.ioid) (hend : s.ioid ≠ INT_MAX - 1) :
    id < s.nextId := by
  unfold HpIocp.nextId
  rwa [if_neg hend]

theorem HpIocp.Ids.frame (h : s.Ids) (hids : s'.items.map Item.id = s.items.map Item.id)
    (hioid : s'.ioid = s.ioid) : s'.Ids := by
  refine ⟨?_, ?_⟩
  · rw [hids]
    exact h.sorted
  · rw [hids, hioid]
    exact h.below

theorem HpIocp.Ids.set (h : s.Ids) (hx : s.items[i]? = some x) (hy : y.id = x.id) :
    (s.setItem i y).Ids :=
  h.frame (Slots.map_set_same hx hy) rfl

theorem HpIocp.Ids.unique (h : s.Ids) (hx : s.items[i]? = some x) (hy : s.items[j]? = some y)
    (heq : x.id = y.id) : i = j :=
  Search.index_unique Item.id (List.pairwise_map.mp h.sorted) hx hy heq

theorem HpIocp.Ids.found (h : s.Ids) (hx : s.items[i]? = some x) :
    s.itemFind x.id = some (i, x) :=
  HpIocp.itemFind_of_sorted hx (List.pairwise_map.mp h.sorted)

theorem HpIocp.Ids.missing (h : s.Ids) {id : Int} (hnone : s.itemFind id = none) :
    ∀ item ∈ s.items, item.id ≠ id := by
  intro item hin heq
  obtain ⟨i, hi⟩ := List.mem_iff_getElem?.mp hin
  have hfound := h.found hi
  rw [heq, hnone] at hfound
  cases hfound

/-- The items but one have other ids than that one. -/
theorem HpIocp.Ids.erase_ne (h : s.Ids) (hx : s.items[i]? = some x) :
    ∀ y ∈ s.items.eraseIdx i, y.id ≠ x.id := by
  intro y hy heq
  obtain ⟨j, hj⟩ := List.mem_iff_getElem?.mp hy
  rw [List.getElem?_eraseIdx] at hj
  split at hj
  · exact absurd (h.unique hj hx heq) (by omega)
  · exact absurd (h.unique hj hx heq) (by omega)

/-- What replaces an item is the only one with its id. -/
theorem HpIocp.Ids.mem_set (h : s.Ids) (hx : s.items[i]? = some x) {z : Item}
    (hz : z ∈ s.items.set i y) : z = y ∨ z ∈ s.items ∧ z.id ≠ x.id := by
  rcases List.mem_cons.mp ((Slots.perm_set hx).mem_iff.mp hz) with rfl | hrest
  · exact .inl rfl
  · exact .inr ⟨(List.eraseIdx_sublist _ _).subset hrest, h.erase_ne hx z hrest⟩

theorem HpIocp.Ids.nextId_above (h : s.Ids) (hidle : s.ioid = INT_MAX - 1 → s.Idle) :
    ∀ id ∈ s.items.map Item.id, id < s.nextId := by
  intro id hid
  apply HpIocp.lt_nextId (h.below id hid)
  intro hend
  rw [(hidle hend).1] at hid
  cases hid

@[simp] theorem onReturn_items (ol : Option Ol) :
    (ol.elim s (hpIocpOlDel s)).items = s.items := by cases ol <;> rfl
@[simp] theorem onReturn_ioid (ol : Option Ol) :
    (ol.elim s (hpIocpOlDel s)).ioid = s.ioid := by cases ol <;> rfl
@[simp] theorem onReturn_maxfd (ol : Option Ol) :
    (ol.elim s (hpIocpOlDel s)).maxfd = s.maxfd := by cases ol <;> rfl
@[simp] theorem onReturn_failing (ol : Option Ol) :
    (ol.elim s (hpIocpOlDel s)).failing = s.failing := by cases ol <;> rfl
@[simp] theorem onReturn_pollQ (ol : Option Ol) :
    (ol.elim s (hpIocpOlDel s)).pollQ = s.pollQ := by cases ol <;> rfl
@[simp] theorem onReturn_pds (ol : Option Ol) :
    (ol.elim s (hpIocpOlDel s)).pds = s.pds := by cases ol <;> rfl
@[simp] theorem onReturn_userQ (ol : Option Ol) :
    (ol.elim s (hpIocpOlDel s)).userQ = s.userQ := by cases ol <;> rfl
@[simp] theorem onReturn_sends (ol : Option Ol) :
    (ol.elim s (hpIocpOlDel s)).sends = s.sends := by cases ol <;> rfl
@[simp] theorem onReturn_sock (ol : Option Ol) :
    (ol.elim s (hpIocpOlDel s)).sock = s.sock := by cases ol <;> rfl

theorem called_given {a d : Bool} (h : (d || a) = true) :
    Cb.given a ≠ .null ∨ Cb.given d ≠ .null := by
  cases a <;> cases d <;> simp_all [Cb.given]

theorem Cb.reset_ne {c : Cb} (h : c ≠ .null) : c.reset = .dflt := by
  cases c with
  | null => exact absurd rfl h
  | user => rfl
  | dflt => rfl

/-- What a step makes of the items: one of them is changed, one is put at the end, or the one that
fails is erased. The ids stay, and so does having a callback. -/
theorem Step.items_cases (h : Step s a s') :
    s'.items = s.items ∨
    (∃ i x y, s.items[i]? = some x ∧ y.id = x.id ∧
      (x.onAccept ≠ .null ∨ x.onData ≠ .null → y.onAccept ≠ .null ∨ y.onData ≠ .null) ∧
      s'.items = s.items.set i y) ∨
    (∃ fd x d e l b item, a = .add fd x d e l b ∧ s.Makes fd x d ∧
      (item.onAccept ≠ .null ∨ item.onData ≠ .null) ∧ s'.items = s.items ++ [item]) ∨
    ∃ f, a = .onErrorReturn ∧ s.failing = some f ∧ s'.items = s.items.eraseIdx f.i := by
  have hset : ∀ {i : Nat} {x : Item} (y : Item), s.items[i]? = some x → y.id = x.id →
      (x.onAccept ≠ .null ∨ x.onData ≠ .null → y.onAccept ≠ .null ∨ y.onData ≠ .null) →
      ∃ j x z, s.items[j]? = some x ∧ z.id = x.id ∧
        (x.onAccept ≠ .null ∨ x.onData ≠ .null → z.onAccept ≠ .null ∨ z.onData ≠ .null) ∧
        s.items.set i y = s.items.set j z :=
    fun y hx hid hcalled => ⟨_, _, y, hx, hid, hcalled, rfl⟩
  cases h with
  | addAgain hgiven hitem => exact .inr (.inl (hset _ hitem rfl fun _ => called_given hgiven))
  | addNew hmake =>
    exact .inr (.inr (.inl ⟨_, _, _, _, _, _, _, rfl, hmake, called_given hmake.2.1, rfl⟩))
  | rm hitem =>
    refine .inr (.inl (hset _ hitem.get rfl fun hx => ?_))
    rcases hx with haccept | hdata
    · exact .inl fun hnull => by simp [Cb.reset_ne haccept] at hnull
    · exact .inr fun hnull => by simp [Cb.reset_ne hdata] at hnull
  | written hitem => exact .inr (.inl (hset _ hitem.get rfl id))
  | fdErr hm hitem => exact .inr (.inl (hset _ hitem.get rfl id))
  | fdSent hm hitem => exact .inr (.inl (hset _ hitem.get rfl id))
  | fdSendFailed hm hitem => exact .inr (.inl (hset _ hitem.get rfl id))
  | ioFailed hm hitem => exact .inr (.inl (hset _ hitem.get rfl id))
  | ioPart hm hitem => exact .inr (.inl (hset _ hitem.get rfl id))
  | onError hf hitem => exact .inr (.inl (hset _ hitem rfl id))
  | onErrorReturn hf => exact .inr (.inr (.inr ⟨_, rfl, hf, onReturn_items _⟩))
  | _ => exact .inl rfl

/-- The messages for the user thread that a step adds: a report of the select thread, or a
completion that is posted. -/
theorem userQ_cases {m : UserMsg} (hstep : Step s a s') (hm : m ∈ s'.userQ) :
    m ∈ s.userQ ∨ (∃ id flags, m = .fd id flags ∧ (flags = .err ∨ flags.failed = false)) ∨
      ∃ ol nbuf err, m = .io ol nbuf err ∧ (ol, nbuf) ∈ s.done := by
  have htake : ∀ {m₀ : UserMsg} {q : List UserMsg}, s.Takes m₀ q → m ∈ q → m ∈ s.userQ :=
    fun hq hin => hq.queue ▸ List.mem_cons_of_mem _ hin
  have hreport : ∀ {id : Int} {flags : Flags}, (flags = .err ∨ flags.failed = false) →
      m ∈ s.userQ ++ [.fd id flags] → m ∈ s.userQ ∨
        ∃ id flags, m = UserMsg.fd id flags ∧ (flags = .err ∨ flags.failed = false) := by
    intro id flags hflags hin
    rcases List.mem_append.mp hin with hold | hnew
    · exact .inl hold
    · exact .inr ⟨id, flags, List.mem_singleton.mp hnew, hflags⟩
  cases hstep with
  | onErrorReturn hf =>
    rw [onReturn_userQ] at hm
    exact .inl hm
  | fdUnknown hq => exact .inl (htake hq hm)
  | fdErr hq => exact .inl (htake hq hm)
  | fdSent hq => exact .inl (htake hq hm)
  | fdSendFailed hq => exact .inl (htake hq hm)
  | fdStale hq => exact .inl (htake hq hm)
  | fdIdle hq => exact .inl (htake hq hm)
  | ioUnknown hq => exact .inl (htake hq hm)
  | ioFailed hq => exact .inl (htake hq hm)
  | ioDropped hq => exact .inl (htake hq hm)
  | ioDone hq => exact .inl (htake hq hm)
  | ioPart hq => exact .inl (htake hq hm)
  | scanReadFailed hs => exact (hreport (.inl rfl) hm).imp_right .inl
  | scanRead hs => exact (hreport (.inr rfl) hm).imp_right .inl
  | scanPost hs =>
    refine (hreport ?_ hm).imp_right .inl
    split
    · exact .inl rfl
    · exact .inr rfl
  | @postIo k err ol nbuf hk =>
    rcases List.mem_append.mp hm with hold | hnew
    · exact .inl hold
    · exact .inr (.inr ⟨ol, nbuf, err, List.mem_singleton.mp hnew, List.mem_of_getElem? hk⟩)
  | _ => exact .inl hm

theorem HpIocp.Ids.step (h : s.Ids) (hstep : Step s a s') (hok : FreshIds s a) :
    s'.Ids := by
  cases hstep with
  | addUnbound hmake =>
    refine ⟨h.sorted, h.nextId_above (hok hmake)⟩
  | addAgain hgiven hitem => exact h.set hitem rfl
  | @addNew fd a d e l b hmake =>
    have habove := h.nextId_above (hok hmake)
    refine ⟨?_, ?_⟩
    · rw [List.map_append]
      refine List.pairwise_append.mpr ⟨h.sorted, List.pairwise_singleton _ _, ?_⟩
      intro x hx y hy
      rw [List.mem_singleton.mp hy]
      exact habove x hx
    · intro id hid
      rw [List.map_append] at hid
      rcases List.mem_append.mp hid with hold | hnew
      · exact (habove id hold).trans (Int.lt_succ _)
      · rw [List.mem_singleton.mp hnew]
        exact Int.lt_succ _
  | rm hitem => exact h.set hitem.get rfl
  | written hitem => exact h.frame (Slots.map_set_same hitem.get rfl) rfl
  | fdErr hm hitem => exact h.frame (Slots.map_set_same hitem.get rfl) rfl
  | fdSent hm hitem => exact h.frame (Slots.map_set_same hitem.get rfl) rfl
  | fdSendFailed hm hitem => exact h.frame (Slots.map_set_same hitem.get rfl) rfl
  | ioFailed hm hitem => exact h.frame (Slots.map_set_same hitem.get rfl) rfl
  | ioPart hm hitem => exact h.frame (Slots.map_set_same hitem.get rfl) rfl
  | onError hf hitem => exact h.frame (Slots.map_set_same hitem rfl) rfl
  | @onErrorReturn i ol pc hf =>
    have hsub := (List.eraseIdx_sublist s.items i).map Item.id
    refine ⟨?_, ?_⟩
    · rw [onReturn_items]
      exact h.sorted.sublist hsub
    · rw [onReturn_items, onReturn_ioid]
      exact fun id hid => h.below id (hsub.subset hid)
  | _ => exact ⟨h.sorted, h.below⟩

theorem isFreed_iff {i : Nat} :
    s.isFreed i = true ↔ ∃ ol, s.failing = some ⟨i, ol, true⟩ := by
  unfold HpIocp.isFreed
  cases hf : s.failing with
  | none => exact iff_of_false Bool.false_ne_true (fun ⟨_, h⟩ => by cases h)
  | some f =>
    obtain ⟨j, ol, called⟩ := f
    simp [and_comm]

theorem not_isFreed (hcalm : s.failing = none) {i : Nat} : ¬ s.isFreed i = true := fun hf => by
  obtain ⟨ol, hfail⟩ := isFreed_iff.mp hf
  rw [hcalm] at hfail
  cases hfail

/-- Every item with the id is the one that `hp_iocp_item_on_error` is called for, where `P`
says how far that call is. -/
def HpIocp.Leaving (s : HpIocp) (P : Bool → Prop) (id : Int) : Prop :=
  ∀ i, (s.items.map Item.id)[i]? = some id → ∃ ol c, s.failing = some ⟨i, ol, c⟩ ∧ P c

theorem HpIocp.Leaving.frame {P : Bool → Prop} {id : Int} (h : s.Leaving P id)
    (hids : s'.items.map Item.id = s.items.map Item.id) (hfailing : s'.failing = s.failing) :
    s'.Leaving P id := by
  intro i hi
  rw [hids] at hi
  rw [hfailing]
  exact h i hi

/-- Without a call, no item has the id. -/
theorem HpIocp.Leaving.calm {P : Bool → Prop} {id : Int} (h : s.Leaving P id)
    (hcalm : s.failing = none) (hids : s'.items.map Item.id = s.items.map Item.id) :
    s'.Leaving P id := by
  intro i hi
  rw [hids] at hi
  obtain ⟨ol, c, hf, -⟩ := h i hi
  rw [hcalm] at hf
  cases hf

/-- No item with the id comes back. -/
theorem HpIocp.Leaving.step {P : Bool → Prop} {id : Int} (h : s.Leaving P id)
    (hP : P false → P true) (hlt : id < s.ioid) (hstep : Step s a s') (hok : FreshIds s a)
    (hbusy : ¬ s.Idle) : s'.Leaving P id := by
  cases hstep with
  | addAgain hgiven hitem => exact h.frame (Slots.map_set_same hitem rfl) rfl
  | @addNew fd a d e l b hmake =>
    have hend : s.ioid ≠ INT_MAX - 1 := fun hend => hbusy (hok hmake hend)
    intro i hi
    rw [List.map_append] at hi
    by_cases hlen : i < (s.items.map Item.id).length
    · rw [List.getElem?_append_left hlen] at hi
      exact h i hi
    · rw [List.getElem?_append_right (Nat.le_of_not_lt hlen)] at hi
      have hnew : id = s.nextId := List.mem_singleton.mp (List.mem_of_getElem? hi)
      exact absurd hnew (HpIocp.lt_nextId hlt hend).ne
  | rm hitem => exact h.frame (Slots.map_set_same hitem.get rfl) rfl
  | written hitem => exact h.frame (Slots.map_set_same hitem.get rfl) rfl
  | fdErr hm hitem => exact h.calm hm.calm (Slots.map_set_same hitem.get rfl)
  | fdSent hm hitem => exact h.frame (Slots.map_set_same hitem.get rfl) rfl
  | fdSendFailed hm hitem => exact h.calm hm.calm (Slots.map_set_same hitem.get rfl)
  | fdStale hm => exact h.calm hm.calm rfl
  | ioFailed hm hitem => exact h.calm hm.calm (Slots.map_set_same hitem.get rfl)
  | ioDropped hm => exact h.calm hm.calm rfl
  | ioPart hm hitem => exact h.frame (Slots.map_set_same hitem.get rfl) rfl
  | loopFailed hcalm => exact h.calm hcalm rfl
  | @onError i ol item hf hitem =>
    intro j hj
    have hmap := Slots.map_set_same (f := Item.id) (y := { item with obuf := [] }) hitem rfl
    obtain ⟨ol', c, hfail, hp⟩ := h j (hmap ▸ hj)
    rw [hf] at hfail
    cases hfail
    exact ⟨ol, true, rfl, hP hp⟩
  | @onErrorReturn i ol pc hf =>
    intro j hj
    rw [onReturn_items, ← List.eraseIdx_map] at hj
    -- an item with the id was the one that is removed
    have hgone : ∀ k, (s.items.map Item.id)[k]? = some id → k = i := fun k hk => by
      obtain ⟨ol', c, hfail, -⟩ := h k hk
      rw [hf] at hfail
      cases hfail
      rfl
    rw [List.getElem?_eraseIdx] at hj
    split at hj
    · exact absurd (hgone j hj) (by omega)
    · exact absurd (hgone _ hj) (by omega)
  | _ => exact h

/-- The counter only grows while anything is left of earlier items. -/
theorem ioid_le (hstep : Step s a s') (hok : FreshIds s a) (hbusy : ¬ s.Idle) :
    s.ioid ≤ s'.ioid := by
  have hnext : ∀ {fd : Nat} {x y : Bool}, s.Makes fd x y →
      (s.Makes fd x y → s.ioid = INT_MAX - 1 → s.Idle) → s.nextId = s.ioid :=
    fun hmake hidle => if_neg fun hend => hbusy (hidle hmake hend)
  cases hstep with
  | addUnbound hmake => exact (hnext hmake hok).ge
  | addNew hmake =>
    have heq := hnext hmake hok
    show s.ioid ≤ s.nextId + 1
    omega
  | onErrorReturn hf => rw [onReturn_ioid]
  | _ => exact Int.le_refl _

/-- An item in its error callback has no buffers. -/
def HpIocp.Cleared (s : HpIocp) : Prop :=
  ∀ i item, s.isFreed i → s.items[i]? = some item → item.obuf = []

theorem HpIocp.cleared_of_calm (h : ∀ i, ¬ s.isFreed i = true) : s.Cleared :=
  fun i _ hf => absurd hf (h i)

theorem not_isFreed_fail {i : Nat} {ol : Option Ol} (j : Nat) : ¬ (s.fail i ol).isFreed j = true :=
  fun hf => by
    obtain ⟨ol', hfail⟩ := isFreed_iff.mp hf
    cases hfail

theorem HpIocp.Cleared.set {j : Nat} {x y : Item} (h : s.Cleared) (hx : s.items[j]? = some x)
    (hy : s.isFreed j → x.obuf = [] → y.obuf = []) : (s.setItem j y).Cleared := by
  intro i item hf hi
  have hi' : (s.items.set j y)[i]? = some item := hi
  have hold : s.isFreed i = true := hf
  rw [List.getElem?_set] at hi'
  split at hi'
  · next heq =>
    subst heq
    split at hi'
    · cases hi'
      exact hy hold (h j x hold hx)
    · cases hi'
  · exact h i item hold hi'

theorem HpIocp.Cleared.step (h : s.Cleared) (hstep : Step s a s') : s'.Cleared := by
  cases hstep with
  | addAgain hgiven hitem hfd hfree =>
    exact h.set hitem fun hf => absurd hf (Bool.eq_false_iff.mp hfree)
  | addNew hmake =>
    intro i item hf hi
    by_cases hlen : i < s.items.length
    · rw [List.getElem?_append_left hlen] at hi
      exact h i item hf hi
    · rw [List.getElem?_append_right (Nat.le_of_not_lt hlen)] at hi
      rw [List.mem_singleton.mp (List.mem_of_getElem? hi)]
  | rm hitem => exact h.set hitem.get fun _ hx => hx
  | written hitem hlive hfree =>
    exact h.set hitem.get fun hf => absurd hf (Bool.eq_false_iff.mp hfree)
  | fdErr hm hitem => exact HpIocp.cleared_of_calm not_isFreed_fail
  | fdSent hm hitem => exact HpIocp.cleared_of_calm fun i => not_isFreed hm.calm
  | fdSendFailed hm hitem => exact HpIocp.cleared_of_calm not_isFreed_fail
  | fdStale hm => exact HpIocp.cleared_of_calm not_isFreed_fail
  | ioFailed hm hitem => exact HpIocp.cleared_of_calm not_isFreed_fail
  | ioDropped hm => exact HpIocp.cleared_of_calm not_isFreed_fail
  | ioPart hm hitem => exact HpIocp.cleared_of_calm fun i => not_isFreed hm.calm
  | loopFailed hcalm => exact HpIocp.cleared_of_calm not_isFreed_fail
  | @onError i ol item hf hitem =>
    intro j item' hj hget
    obtain ⟨ol', hfail⟩ := isFreed_iff.mp hj
    cases hfail
    have hget' : (s.items.set i { item with obuf := [] })[i]? = some item' := hget
    rw [List.getElem?_set_self (List.getElem?_eq_some_iff.mp hitem).1] at hget'
    cases hget'
    rfl
  | onErrorReturn hf =>
    refine HpIocp.cleared_of_calm fun i => not_isFreed ?_
    rw [onReturn_failing]
  | _ => exact h

/-- The records an item has queued are its own. -/
def HpIocp.Mine (s : HpIocp) : Prop := ∀ item ∈ s.items, ∀ ol ∈ item.obuf, ol.id = item.id

theorem HpIocp.Mine.step (h : s.Mine) (hstep : Step s a s') : s'.Mine := by
  have hset : ∀ {i : Nat} {x y : Item}, s.items[i]? = some x → (∀ ol ∈ y.obuf, ol.id = y.id) →
      ∀ item ∈ s.items.set i y, ∀ ol ∈ item.obuf, ol.id = item.id := by
    intro i x y hx hy item hin
    rcases Slots.mem_set hin with hold | rfl
    · exact h item hold
    · exact hy
  have hget : ∀ {i : Nat} {x : Item}, s.items[i]? = some x → ∀ ol ∈ x.obuf, ol.id = x.id :=
    fun hx => h _ (List.mem_of_getElem? hx)
  cases hstep with
  | addAgain hgiven hitem => exact hset hitem fun ol hol => hget hitem ol hol
  | addNew hmake =>
    intro item hin ol hol
    rcases List.mem_append.mp hin with hold | hnew
    · exact h item hold ol hol
    · rw [List.mem_singleton.mp hnew] at hol
      cases hol
  | rm hitem => exact hset hitem.get fun ol hol => hget hitem.get ol hol
  | @written id data bytes freecb ptr i item hitem =>
    apply hset hitem.get
    intro ol hol
    rcases List.mem_append.mp hol with hold | hnew
    · exact hget hitem.get ol hold
    · rw [List.mem_singleton.mp hnew]
      exact hitem.id_eq.symm
  | fdErr hm hitem => exact hset hitem.get fun ol hol => hget hitem.get ol hol
  | fdSent hm hitem hout hobuf =>
    exact hset hitem.get fun ol hol => hget hitem.get ol (hobuf ▸ List.mem_cons_of_mem _ hol)
  | fdSendFailed hm hitem hobuf =>
    exact hset hitem.get fun ol hol => hget hitem.get ol (hobuf ▸ List.mem_cons_of_mem _ hol)
  | ioFailed hm hitem => exact hset hitem.get fun ol hol => hget hitem.get ol hol
  | ioPart hm hitem =>
    apply hset hitem.get
    intro ol hol
    rcases List.mem_append.mp hol with hold | hnew
    · exact hget hitem.get ol hold
    · rw [List.mem_singleton.mp hnew]
      exact hitem.id_eq.symm
  | onError hf hitem => exact hset hitem fun ol hol => absurd hol List.not_mem_nil
  | onErrorReturn hf =>
    unfold HpIocp.Mine
    rw [onReturn_items]
    exact fun item hin => h item ((List.eraseIdx_sublist _ _).subset hin)
  | _ => exact h

theorem hpIocpInit_ids (maxfd : Nat) : (hpIocpInit maxfd).Ids :=
  ⟨List.Pairwise.nil, fun _ h => absurd h List.not_mem_nil⟩

end

end Libhp.Iocp
