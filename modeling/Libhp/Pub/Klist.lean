import Libhp.Lib.Ring

/-!
# The list of `klist.h`

The functions on `struct list_head`, over any type of addresses. NULL is `none`, and a
function that reads or writes through NULL, or through an address where there is no node,
has no result.
-/
namespace Libhp.Klist

open Ring

structure ListHead (α : Type) where
  next : Option α
  prev : Option α
deriving DecidableEq

/-- The nodes in memory. -/
abbrev Heap (α : Type) := α → Option (ListHead α)

section
variable {α : Type} [DecidableEq α]

def Heap.load (m : Heap α) (p : Option α) : Option (ListHead α) := p.bind m

def Heap.setNext (m : Heap α) (p v : Option α) : Option (Heap α) :=
  p.bind fun a => (m a).map fun n => Function.update m a (some { n with next := v })

def Heap.setPrev (m : Heap α) (p v : Option α) : Option (Heap α) :=
  p.bind fun a => (m a).map fun n => Function.update m a (some { n with prev := v })

/-- `INIT_LIST_HEAD` -/
def initListHead (m : Heap α) (p : Option α) : Option (Heap α) := do
  let m ← m.setNext p p
  m.setPrev p p

/-- `__list_add` -/
def listInsert (m : Heap α) (n prev next : Option α) : Option (Heap α) := do
  let m ← m.setPrev next n
  let m ← m.setNext n next
  let m ← m.setPrev n prev
  m.setNext prev n

def klistAdd (m : Heap α) (n head : Option α) : Option (Heap α) := do
  let h ← m.load head
  listInsert m n head h.next

def listAddTail (m : Heap α) (n head : Option α) : Option (Heap α) := do
  let h ← m.load head
  listInsert m n h.prev head

/-- `__list_del` -/
def listUnlink (m : Heap α) (prev next : Option α) : Option (Heap α) := do
  let m ← m.setPrev next prev
  m.setNext prev next

def listDel (m : Heap α) (entry : Option α) : Option (Heap α) := do
  let e ← m.load entry
  let m ← listUnlink m e.prev e.next
  let m ← m.setNext entry none
  m.setPrev entry none

def listDelInit (m : Heap α) (entry : Option α) : Option (Heap α) := do
  let e ← m.load entry
  let m ← listUnlink m e.prev e.next
  initListHead m entry

def listMove (m : Heap α) (list head : Option α) : Option (Heap α) := do
  let l ← m.load list
  let m ← listUnlink m l.prev l.next
  klistAdd m list head

def listMoveTail (m : Heap α) (list head : Option α) : Option (Heap α) := do
  let l ← m.load list
  let m ← listUnlink m l.prev l.next
  listAddTail m list head

def listEmpty (m : Heap α) (head : Option α) : Option Bool :=
  (m.load head).map fun h => decide (h.next = head)

/-- `__list_splice` -/
def listJoin (m : Heap α) (list head : Option α) : Option (Heap α) := do
  let l ← m.load list
  let h ← m.load head
  let m ← m.setPrev l.next head
  let m ← m.setNext head l.next
  let m ← m.setNext l.prev h.next
  m.setPrev h.next l.prev

def listSplice (m : Heap α) (list head : Option α) : Option (Heap α) := do
  let empty ← listEmpty m list
  if empty then some m else listJoin m list head

def listSpliceInit (m : Heap α) (list head : Option α) : Option (Heap α) := do
  let empty ← listEmpty m list
  if empty then some m
  else
    let m ← listJoin m list head
    initListHead m list

/-- How a loop ends; `more` is one that is not over when the fuel is. -/
inductive Walk (σ : Type) where
  | done (s : σ)
  | crash
  | more

/-- The loop of `list_for_each` and `list_for_each_prev`, from the comparison on: the nodes
it comes to. -/
def walk (link : ListHead α → Option α) (m : Heap α) (head : α) :
    Nat → Option α → List α → Walk (List α)
  | 0, _, _ => .more
  | fuel + 1, pos, seen =>
    if pos = some head then .done seen
    else
      match pos with
      | none => .crash
      | some p =>
        match m p with
        | none => .crash
        | some n => walk link m head fuel (link n) (seen ++ [p])

def listForEach (m : Heap α) (head : α) (fuel : Nat) : Walk (List α) :=
  match m head with
  | none => .crash
  | some h => walk ListHead.next m head fuel h.next []

def listForEachPrev (m : Heap α) (head : α) (fuel : Nat) : Walk (List α) :=
  match m head with
  | none => .crash
  | some h => walk ListHead.prev m head fuel h.prev []

/-- `list_for_each_safe`, from the comparison on: the body may change the memory, and
`n` was read before it ran. -/
def forEachSafe {σ : Type} (mem : σ → Heap α) (body : α → σ → Option σ) (head : α) :
    Nat → Option α → Option α → σ → Walk σ
  | 0, _, _, _ => .more
  | fuel + 1, pos, n, s =>
    if pos = some head then .done s
    else
      match pos.bind fun p => body p s with
      | none => .crash
      | some s =>
        match (mem s).load n with
        | none => .crash
        | some next => forEachSafe mem body head fuel n next.next s

def listForEachSafe {σ : Type} (mem : σ → Heap α) (body : α → σ → Option σ) (head : α)
    (fuel : Nat) (s : σ) : Walk σ :=
  match mem s head with
  | none => .crash
  | some h =>
    match (mem s).load h.next with
    | none => .crash
    | some first => forEachSafe mem body head fuel h.next first.next s

def Heap.next (m : Heap α) (a : α) : Option α := (m a).bind fun n => n.next

def Heap.prev (m : Heap α) (a : α) : Option α := (m a).bind fun n => n.prev

/-- The same nodes, with these links. -/
structure Relinked (m m' : Heap α) (next prev : α → Option α) : Prop where
  mapped : ∀ x, (m' x).isSome = (m x).isSome
  next : ∀ x, m'.next x = next x
  prev : ∀ x, m'.prev x = prev x

variable {m m' : Heap α} {a b n : α} {v : Option α} {next prev next' prev' : α → Option α}

/-- A write after others. -/
theorem Relinked.setNext (hm : Relinked m m' next prev) (ha : (m a).isSome) :
    ∃ m'', m'.setNext (some a) v = some m'' ∧ Relinked m m'' (Function.update next a v) prev := by
  obtain ⟨c, hc⟩ := Option.isSome_iff_exists.mp ((hm.mapped a).trans ha)
  refine ⟨_, by rw [Heap.setNext, Option.bind_some, hc, Option.map_some], fun x => ?_, fun x => ?_,
    fun x => ?_⟩
  · by_cases hx : x = a
    · subst hx
      rw [Function.update_self, ha, Option.isSome_some]
    · rw [Function.update_of_ne hx, hm.mapped]
  · by_cases hx : x = a
    · subst hx
      rw [Heap.next, Function.update_self, Function.update_self, Option.bind_some]
    · rw [Heap.next, Function.update_of_ne hx, Function.update_of_ne hx]
      exact hm.next x
  · rw [← hm.prev x, Heap.prev, Heap.prev]
    by_cases hx : x = a
    · subst hx
      rw [Function.update_self, hc, Option.bind_some, Option.bind_some]
    · rw [Function.update_of_ne hx]

theorem Relinked.setPrev (hm : Relinked m m' next prev) (ha : (m a).isSome) :
    ∃ m'', m'.setPrev (some a) v = some m'' ∧ Relinked m m'' next (Function.update prev a v) := by
  obtain ⟨c, hc⟩ := Option.isSome_iff_exists.mp ((hm.mapped a).trans ha)
  refine ⟨_, by rw [Heap.setPrev, Option.bind_some, hc, Option.map_some], fun x => ?_, fun x => ?_,
    fun x => ?_⟩
  · by_cases hx : x = a
    · subst hx
      rw [Function.update_self, ha, Option.isSome_some]
    · rw [Function.update_of_ne hx, hm.mapped]
  · rw [← hm.next x, Heap.next, Heap.next]
    by_cases hx : x = a
    · subst hx
      rw [Function.update_self, hc, Option.bind_some, Option.bind_some]
    · rw [Function.update_of_ne hx]
  · by_cases hx : x = a
    · subst hx
      rw [Heap.prev, Function.update_self, Function.update_self, Option.bind_some]
    · rw [Heap.prev, Function.update_of_ne hx, Function.update_of_ne hx]
      exact hm.prev x

omit [DecidableEq α]

theorem Relinked.refl (m : Heap α) : Relinked m m m.next m.prev :=
  ⟨fun _ => rfl, fun _ => rfl, fun _ => rfl⟩

theorem Heap.isSome_of_next (hnext : (m.next a).isSome) : (m a).isSome :=
  Option.isSome_of_isSome_bind hnext

theorem Heap.load_eq (ha : (m a).isSome) :
    m.load (some a) = some ⟨m.next a, m.prev a⟩ := by
  obtain ⟨c, hc⟩ := Option.isSome_iff_exists.mp ha
  rw [Heap.load, Option.bind_some, hc, Heap.next, Heap.prev, hc, Option.bind_some, Option.bind_some]

end

section
variable {α : Type} [DecidableEq α] {m : Heap α} {a b n : α}

theorem initListHead_spec (hn : (m n).isSome) : ∃ m', initListHead m (some n) = some m' ∧
    Relinked m m' (Function.update m.next n (some n)) (Function.update m.prev n (some n)) := by
  obtain ⟨m₁, h₁, r₁⟩ := (Relinked.refl m).setNext (v := some n) hn
  obtain ⟨m₂, h₂, r₂⟩ := r₁.setPrev (v := some n) hn
  exact ⟨m₂, by simp [initListHead, h₁, h₂], r₂⟩

theorem listInsert_spec (hn : (m n).isSome) (ha : (m a).isSome) (hb : (m b).isSome) :
    ∃ m', listInsert m (some n) (some a) (some b) = some m' ∧
      Relinked m m' (Function.update (Function.update m.next n (some b)) a (some n))
        (Function.update (Function.update m.prev b (some n)) n (some a)) := by
  obtain ⟨m₁, h₁, r₁⟩ := (Relinked.refl m).setPrev (v := some n) hb
  obtain ⟨m₂, h₂, r₂⟩ := r₁.setNext (v := some b) hn
  obtain ⟨m₃, h₃, r₃⟩ := r₂.setPrev (v := some a) hn
  obtain ⟨m₄, h₄, r₄⟩ := r₃.setNext (v := some n) ha
  exact ⟨m₄, by simp [listInsert, h₁, h₂, h₃, h₄], r₄⟩

theorem listUnlink_spec (ha : (m a).isSome) (hb : (m b).isSome) :
    ∃ m', listUnlink m (some a) (some b) = some m' ∧
      Relinked m m' (Function.update m.next a (some b)) (Function.update m.prev b (some a)) := by
  obtain ⟨m₁, h₁, r₁⟩ := (Relinked.refl m).setPrev (v := some a) hb
  obtain ⟨m₂, h₂, r₂⟩ := r₁.setNext (v := some b) ha
  exact ⟨m₂, by simp [listUnlink, h₁, h₂], r₂⟩

end

end Libhp.Klist
