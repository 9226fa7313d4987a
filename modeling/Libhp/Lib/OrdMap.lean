import Mathlib.Tactic

/-!
# Ordered finite maps

A finite map that remembers the order in which its keys first came. Setting a key
that is present keeps its place; erasing one closes the gap. The list of entries
never has a key twice, and carries the proof.
-/

structure OrdMap (κ β : Type*) where
  entries : List (κ × β)
  nodup : (entries.map Prod.fst).Nodup

namespace OrdMap
variable {κ β : Type*}

@[ext] theorem ext {m m' : OrdMap κ β} (h : m.entries = m'.entries) : m = m' := by
  cases m
  cases m'
  cases h
  rfl

def empty : OrdMap κ β := ⟨[], List.nodup_nil⟩

def size (m : OrdMap κ β) : Nat := m.entries.length

/-- The value of the first entry, in order, that satisfies `p`. -/
def findVal (m : OrdMap κ β) (p : β → Bool) : Option β :=
  (m.entries.find? fun e => p e.2).map Prod.snd

theorem nodup_eraseIdx (m : OrdMap κ β) (i : Nat) :
    ((m.entries.eraseIdx i).map Prod.fst).Nodup :=
  m.nodup.sublist ((List.eraseIdx_sublist m.entries i).map Prod.fst)

variable [DecidableEq κ]

/-- The place of a key. -/
def index (m : OrdMap κ β) (k : κ) : Option Nat := m.entries.findIdx? fun e => e.1 = k

theorem index_some {m : OrdMap κ β} {k : κ} {i : Nat} (h : m.index k = some i) :
    ∃ hi : i < m.entries.length, (m.entries[i]).1 = k := by
  obtain ⟨hi, hkey, -⟩ := List.findIdx?_eq_some_iff_getElem.mp h
  exact ⟨hi, of_decide_eq_true hkey⟩

theorem index_none {m : OrdMap κ β} {k : κ} (h : m.index k = none) :
    k ∉ m.entries.map Prod.fst := by
  intro hk
  obtain ⟨e, he, rfl⟩ := List.mem_map.mp hk
  have hne := List.findIdx?_eq_none_iff.mp h e he
  exact absurd rfl (of_decide_eq_false hne)

theorem nodup_set (m : OrdMap κ β) {k : κ} {i : Nat} (h : m.index k = some i) (v : β) :
    ((m.entries.set i (k, v)).map Prod.fst).Nodup := by
  obtain ⟨hi, hkey⟩ := index_some h
  have hlen : i < (m.entries.map Prod.fst).length := by rwa [List.length_map]
  have hsame : (m.entries.map Prod.fst)[i] = k := by rwa [List.getElem_map]
  rw [List.map_set]
  change ((m.entries.map Prod.fst).set i k).Nodup
  rw [← hsame, List.set_getElem_self]
  exact m.nodup

theorem nodup_concat (m : OrdMap κ β) {k : κ} (h : m.index k = none) (v : β) :
    ((m.entries ++ [(k, v)]).map Prod.fst).Nodup := by
  rw [List.map_append, List.map_singleton]
  refine List.nodup_append.mpr ⟨m.nodup, List.nodup_singleton k, ?_⟩
  intro a ha b hb hab
  have hbk : b = k := List.mem_singleton.mp hb
  subst hab hbk
  exact index_none h ha

/-- Replace the value of a key in place, or put a new key behind the others. -/
def set (m : OrdMap κ β) (k : κ) (v : β) : OrdMap κ β :=
  match h : m.index k with
  | some i => ⟨m.entries.set i (k, v), m.nodup_set h v⟩
  | none => ⟨m.entries ++ [(k, v)], m.nodup_concat h v⟩

def erase (m : OrdMap κ β) (k : κ) : OrdMap κ β :=
  match m.index k with
  | some i => ⟨m.entries.eraseIdx i, m.nodup_eraseIdx i⟩
  | none => m

theorem entries_set_some {m : OrdMap κ β} {k : κ} {i : Nat} (h : m.index k = some i) (v : β) :
    (m.set k v).entries = m.entries.set i (k, v) := by
  unfold set
  split
  · next j hj => rw [h] at hj; cases hj; rfl
  · next hj => rw [h] at hj; cases hj

theorem entries_set_none {m : OrdMap κ β} {k : κ} (h : m.index k = none) (v : β) :
    (m.set k v).entries = m.entries ++ [(k, v)] := by
  unfold set
  split
  · next j hj => rw [h] at hj; cases hj
  · rfl

theorem entries_erase_some {m : OrdMap κ β} {k : κ} {i : Nat} (h : m.index k = some i) :
    (m.erase k).entries = m.entries.eraseIdx i := by
  simp only [erase, h]

theorem erase_none {m : OrdMap κ β} {k : κ} (h : m.index k = none) : m.erase k = m := by
  simp only [erase, h]

theorem mem_set {m : OrdMap κ β} {k : κ} {v : β} {e : κ × β} (h : e ∈ (m.set k v).entries) :
    e ∈ m.entries ∨ e = (k, v) := by
  cases hi : m.index k with
  | some i =>
    rw [entries_set_some hi] at h
    exact List.mem_or_eq_of_mem_set h
  | none =>
    rw [entries_set_none hi] at h
    rcases List.mem_append.mp h with h | h
    · exact .inl h
    · exact .inr (List.mem_singleton.mp h)

/-- Erasing a key leaves entries of other keys only. -/
theorem mem_erase {m : OrdMap κ β} {k : κ} {e : κ × β} (h : e ∈ (m.erase k).entries) :
    e ∈ m.entries ∧ e.1 ≠ k := by
  cases hi : m.index k with
  | none =>
    rw [erase_none hi] at h
    exact ⟨h, fun he => index_none hi (he ▸ List.mem_map_of_mem h)⟩
  | some i =>
    obtain ⟨hlt, hkey⟩ := index_some hi
    rw [entries_erase_some hi] at h
    refine ⟨List.mem_of_mem_eraseIdx h, ?_⟩
    intro he
    have hlen : i < (m.entries.map Prod.fst).length := by rwa [List.length_map]
    have hgone : k ∉ (m.entries.map Prod.fst).eraseIdx i := by
      rw [← hkey, ← List.getElem_map Prod.fst (h := hlen), ← m.nodup.erase_getElem i hlen]
      exact fun hmem => (m.nodup.mem_erase_iff.mp hmem).1 rfl
    apply hgone
    rw [← he, List.eraseIdx_map]
    exact List.mem_map_of_mem h

def keys (m : OrdMap κ β) : List κ := m.entries.map Prod.fst

omit [DecidableEq κ] in
theorem length_keys (m : OrdMap κ β) : m.keys.length = m.size := List.length_map ..

theorem keys_set_some {m : OrdMap κ β} {k : κ} {i : Nat} (h : m.index k = some i) (v : β) :
    (m.set k v).keys = m.keys := by
  obtain ⟨hi, hkey⟩ := index_some h
  have hlen : i < (m.entries.map Prod.fst).length := by rwa [List.length_map]
  have hsame : (m.entries.map Prod.fst)[i] = k := by rwa [List.getElem_map]
  rw [keys, entries_set_some h, List.map_set]
  change (m.entries.map Prod.fst).set i k = _
  rw [← hsame, List.set_getElem_self]
  rfl

theorem keys_set_none {m : OrdMap κ β} {k : κ} (h : m.index k = none) (v : β) :
    (m.set k v).keys = m.keys ++ [k] := by
  rw [keys, entries_set_none h, List.map_append]
  rfl

theorem keys_erase (m : OrdMap κ β) (k : κ) : (m.erase k).keys = m.keys.erase k := by
  cases h : m.index k with
  | none =>
    rw [erase_none h]
    exact (List.erase_of_not_mem (index_none h)).symm
  | some i =>
    obtain ⟨hi, hkey⟩ := index_some h
    have hlen : i < (m.entries.map Prod.fst).length := by rwa [List.length_map]
    rw [keys, entries_erase_some h, ← List.eraseIdx_map, ← m.nodup.erase_getElem i hlen,
      List.getElem_map, hkey]
    rfl

/-- An entry is at the place of its key. -/
theorem index_entry {m : OrdMap κ β} {i : Nat} {e : κ × β} (h : m.entries[i]? = some e) :
    m.index e.1 = some i := by
  obtain ⟨hi, rfl⟩ := List.getElem?_eq_some_iff.mp h
  refine List.findIdx?_eq_some_iff_getElem.mpr ⟨hi, by simp, ?_⟩
  intro j hj hsame
  have hjl : j < (m.entries.map Prod.fst).length := by rw [List.length_map]; omega
  have hil : i < (m.entries.map Prod.fst).length := by rwa [List.length_map]
  have heq : (m.entries.map Prod.fst)[j] = (m.entries.map Prod.fst)[i] := by
    rw [List.getElem_map, List.getElem_map]
    exact of_decide_eq_true hsame
  have hji := m.nodup.getElem_inj_iff.mp heq
  omega

theorem entries_erase (m : OrdMap κ β) (k : κ) :
    (m.erase k).entries = m.entries.filter fun e => e.1 ≠ k := by
  cases h : m.index k with
  | none =>
    rw [erase_none h]
    symm
    apply List.filter_eq_self.mpr
    intro e he
    exact decide_eq_true fun hk => index_none h (hk ▸ List.mem_map_of_mem he)
  | some i =>
    obtain ⟨hi, hkey⟩ := index_some h
    have hothers : ∀ e ∈ m.entries.eraseIdx i, e.1 ≠ k := by
      intro e he
      exact (mem_erase (by rw [entries_erase_some h]; exact he)).2
    rw [entries_erase_some h]
    conv_rhs => rw [← List.take_append_drop i m.entries, List.drop_eq_getElem_cons hi]
    rw [List.eraseIdx_eq_take_drop_succ] at hothers ⊢
    rw [List.filter_append, List.filter_cons_of_neg (by simp [hkey])]
    congr 1
    · symm
      apply List.filter_eq_self.mpr
      intro e he
      exact decide_eq_true (hothers e (List.mem_append_left _ he))
    · symm
      apply List.filter_eq_self.mpr
      intro e he
      exact decide_eq_true (hothers e (List.mem_append_right _ he))

/-- Setting a key leaves the entries of other keys. -/
theorem mem_set_of_ne {m : OrdMap κ β} {k : κ} {e : κ × β} (v : β) (hne : e.1 ≠ k) :
    e ∈ (m.set k v).entries ↔ e ∈ m.entries := by
  refine ⟨fun h => (mem_set h).resolve_right fun he => hne (congrArg Prod.fst he), fun h => ?_⟩
  cases hi : m.index k with
  | none =>
    rw [entries_set_none hi]
    exact List.mem_append_left _ h
  | some i =>
    obtain ⟨hlt, hkey⟩ := index_some hi
    obtain ⟨j, hj⟩ := List.mem_iff_getElem?.mp h
    rw [entries_set_some hi]
    refine List.mem_iff_getElem?.mpr ⟨j, ?_⟩
    rw [List.getElem?_set_ne, hj]
    rintro rfl
    rw [List.getElem?_eq_getElem hlt] at hj
    exact hne (by rw [← Option.some.inj hj, hkey])

theorem mem_set_self (m : OrdMap κ β) (k : κ) (v : β) : (k, v) ∈ (m.set k v).entries := by
  cases hi : m.index k with
  | none =>
    rw [entries_set_none hi]
    exact List.mem_append_right _ (List.mem_singleton_self _)
  | some i =>
    rw [entries_set_some hi]
    exact List.mem_set (index_some hi).1 _

/-- Setting a key to what it is. -/
theorem set_self {m : OrdMap κ β} {k : κ} {v : β} (h : (k, v) ∈ m.entries) : m.set k v = m := by
  obtain ⟨i, hi⟩ := List.mem_iff_getElem?.mp h
  obtain ⟨hlt, heq⟩ := List.getElem?_eq_some_iff.mp hi
  apply ext
  rw [entries_set_some (index_entry hi), ← heq, List.set_getElem_self]

omit [DecidableEq κ] in
/-- A key has one entry. -/
theorem entry_unique {m : OrdMap κ β} {e f : κ × β} (he : e ∈ m.entries) (hf : f ∈ m.entries)
    (hkey : e.1 = f.1) : e = f := List.inj_on_of_nodup_map m.nodup he hf hkey

end OrdMap
