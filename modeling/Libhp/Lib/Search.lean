import Mathlib.Tactic

/-!
# Binary search

`bsearch` of the C library on a list: the comparison is given the element and says on
which side of it the key lies. What is found compares equal, whatever the list; on a list
in the order of the comparison nothing is missed.
-/
namespace Search

section
variable {α : Type} {f : α → Ordering} {xs : List α}

/-- Search in the window from `l` up to `u`, with fuel for its length. -/
def bsearchIn (f : α → Ordering) (xs : List α) : Nat → Nat → Nat → Option Nat
  | 0, _, _ => none
  | fuel + 1, l, u =>
    if u ≤ l then none
    else
      match xs[(l + u) / 2]? with
      | none => none
      | some x =>
        match f x with
        | .lt => bsearchIn f xs fuel l ((l + u) / 2)
        | .gt => bsearchIn f xs fuel ((l + u) / 2 + 1) u
        | .eq => some ((l + u) / 2)

/-- The index of an element that compares equal. -/
def bsearch (f : α → Ordering) (xs : List α) : Option Nat :=
  bsearchIn f xs xs.length 0 xs.length

theorem bsearchIn_sound {fuel l u i : Nat} (h : bsearchIn f xs fuel l u = some i) :
    ∃ x, xs[i]? = some x ∧ f x = .eq := by
  induction fuel generalizing l u with
  | zero => cases h
  | succ fuel ih =>
    unfold bsearchIn at h
    split at h
    · cases h
    · split at h
      · cases h
      · next x hx =>
        split at h
        · exact ih h
        · exact ih h
        · next heq =>
          cases h
          exact ⟨x, hx, heq⟩

/-- The search never lies. -/
theorem bsearch_sound {i : Nat} (h : bsearch f xs = some i) : ∃ x, xs[i]? = some x ∧ f x = .eq :=
  bsearchIn_sound h

/-- `xs` is in the order of the comparison: first what the key lies above, then what it
equals, then what it lies below. -/
def Ordered (f : α → Ordering) (xs : List α) : Prop :=
  xs.Pairwise fun x y => (f x = .lt → f y = .lt) ∧ (f y = .gt → f x = .gt)

theorem Ordered.get {i j : Nat} {x y : α} (h : Ordered f xs) (hij : i < j)
    (hx : xs[i]? = some x) (hy : xs[j]? = some y) :
    (f x = .lt → f y = .lt) ∧ (f y = .gt → f x = .gt) := by
  obtain ⟨hi, rfl⟩ := List.getElem?_eq_some_iff.mp hx
  obtain ⟨hj, rfl⟩ := List.getElem?_eq_some_iff.mp hy
  exact List.pairwise_iff_getElem.mp h i j hi hj hij

theorem bsearchIn_complete {fuel l u k : Nat} {y : α} (ho : Ordered f xs) (hl : l ≤ k)
    (hu : k < u) (hfuel : u - l ≤ fuel) (hlen : u ≤ xs.length) (hy : xs[k]? = some y)
    (heq : f y = .eq) : (bsearchIn f xs fuel l u).isSome := by
  induction fuel generalizing l u with
  | zero => omega
  | succ fuel ih =>
    have hmid : (l + u) / 2 < xs.length := by omega
    unfold bsearchIn
    obtain ⟨x, hx⟩ : ∃ x, xs[(l + u) / 2]? = some x := ⟨_, List.getElem?_eq_getElem hmid⟩
    rw [if_neg (by omega), hx]
    dsimp only
    -- the half without the key is the one the comparison leaves
    split
    · next hlt =>
      have hk : k < (l + u) / 2 := by
        by_contra hge
        rcases Nat.lt_or_eq_of_le (Nat.le_of_not_lt hge) with hgt | hsame
        · have := (ho.get hgt hx hy).1 hlt
          rw [heq] at this
          cases this
        · rw [hsame, hy] at hx
          cases hx
          rw [heq] at hlt
          cases hlt
      exact ih hl hk (by omega) (by omega)
    · next hgt =>
      have hk : (l + u) / 2 < k := by
        by_contra hge
        rcases Nat.lt_or_eq_of_le (Nat.le_of_not_lt hge) with hlt | hsame
        · have := (ho.get hlt hy hx).2 hgt
          rw [heq] at this
          cases this
        · rw [← hsame, hy] at hx
          cases hx
          rw [heq] at hgt
          cases hgt
      exact ih hk hu (by omega) hlen
    · rfl

/-- On an ordered list the search misses nothing. -/
theorem bsearch_complete {k : Nat} {y : α} (ho : Ordered f xs) (hy : xs[k]? = some y)
    (heq : f y = .eq) : (bsearch f xs).isSome := by
  have hk := (List.getElem?_eq_some_iff.mp hy).1
  exact bsearchIn_complete ho (Nat.zero_le k) hk (by omega) (Nat.le_refl _) hy heq

end

section
variable {α K : Type} [LinearOrder K] (key : α → K) {xs : List α} {k : K}

/-- Strictly increasing keys are in order for any key that is looked up. -/
theorem ordered_of_sorted (h : xs.Pairwise fun x y => key x < key y) (k : K) :
    Ordered (fun x => compare k (key x)) xs :=
  h.imp fun hlt =>
    ⟨fun hx => compare_lt_iff_lt.mpr ((compare_lt_iff_lt.mp hx).trans hlt),
      fun hy => compare_gt_iff_gt.mpr (hlt.trans (compare_gt_iff_gt.mp hy))⟩

/-- Keys that increase strictly occur once. -/
theorem index_unique {i j : Nat} {x y : α} (h : xs.Pairwise fun x y => key x < key y)
    (hx : xs[i]? = some x) (hy : xs[j]? = some y) (heq : key x = key y) : i = j := by
  obtain ⟨hi, rfl⟩ := List.getElem?_eq_some_iff.mp hx
  obtain ⟨hj, rfl⟩ := List.getElem?_eq_some_iff.mp hy
  rcases Nat.lt_trichotomy i j with hlt | hsame | hlt
  · exact absurd heq (List.pairwise_iff_getElem.mp h i j hi hj hlt).ne
  · exact hsame
  · exact absurd heq (List.pairwise_iff_getElem.mp h j i hj hi hlt).ne'

/-- Looking a key up in a sorted list finds its one index. -/
theorem bsearch_eq_some {i : Nat} {x : α} (h : xs.Pairwise fun x y => key x < key y)
    (hx : xs[i]? = some x) (heq : key x = k) :
    bsearch (fun x => compare k (key x)) xs = some i := by
  obtain ⟨j, hj⟩ := Option.isSome_iff_exists.mp
    (bsearch_complete (ordered_of_sorted key h k) hx (compare_eq_iff_eq.mpr heq.symm))
  obtain ⟨y, hy, hcmp⟩ := bsearch_sound hj
  rw [hj, index_unique key h hx hy (heq.trans (compare_eq_iff_eq.mp hcmp))]

end

end Search
