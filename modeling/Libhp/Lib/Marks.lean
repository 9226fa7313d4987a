import Mathlib.Tactic

/-!
# Serving what is marked

A round calls one marked member after the other, until no member is marked. A call may let
members go, and it may take the mark off one other member by mistake. Nobody is passed over
exactly if such a member was called before, or is let go later. Members have places and only
move down; a member that is still marked after its own call has moved, so that a round ends.
-/
namespace Marks

section
variable {S Q : Type} (marked : S → List Q) (here known : S → Q → Prop) (place : S → Q → Nat)

/-- A call for `p` that takes the mark off `r`, too. -/
structure Call (s : S) (p : Q) (r : Option Q) (s' : S) : Prop where
  own : p ∈ marked s
  old : ∀ q ∈ marked s', q ∈ marked s
  keep : ∀ q ∈ marked s, here s' q → q ≠ p → r ≠ some q → q ∈ marked s'
  lost : ∀ q, r = some q → q ≠ p ∧ q ∈ marked s ∧ q ∉ marked s'
  remember : ∀ q, known s q → known s' q
  back : ∀ q, known s q → here s' q → here s q
  down : ∀ q ∈ marked s', place s' q ≤ place s q
  moved : p ∈ marked s' → place s' p < place s p

/-- What is left to do. -/
def weight [DecidableEq Q] (s : S) : Nat := ∑ q ∈ (marked s).toFinset, (place s q + 1)

variable (next : S → Option (Q × Option Q × S))

/-- A whole round, with the member each call is for and the one that loses its mark. -/
inductive Round : S → List (Q × Option Q) → S → Prop
  | done {s : S} (hnext : next s = none) (h : marked s = []) : Round s [] s
  | call {s t s' : S} {p : Q} {r : Option Q} {cs : List (Q × Option Q)}
      (hnext : next s = some (p, r, t)) (h : Call marked here known place s p r t)
      (hrest : Round t cs s') : Round s ((p, r) :: cs) s'

/-- The member leaves in the calls from here on. -/
inductive LetGo (q : Q) : S → Prop
  | gone {s : S} (h : ¬ here s q) : LetGo q s
  | later {s t : S} {p : Q} {r : Option Q} (hnext : next s = some (p, r, t)) (h : LetGo q t) :
      LetGo q s

/-- No call from here on takes the mark off another member, unless that one is among those
called so far or leaves later. -/
inductive Spared : List Q → S → Prop
  | done {called : List Q} {s : S} (h : marked s = []) : Spared called s
  | call {called : List Q} {s t : S} {p : Q} {r : Option Q} (hnext : next s = some (p, r, t))
      (hlost : ∀ q, r = some q → q ∈ called ∨ LetGo here next q t)
      (hrest : Spared (p :: called) t) : Spared called s

variable {marked here known place next} {s s' : S} {p q : Q} {r : Option Q}
  {cs : List (Q × Option Q)}

/-- A call leaves less to do. -/
theorem Call.lighter [DecidableEq Q] (h : Call marked here known place s p r s') :
    weight marked place s' < weight marked place s := by
  have hsub : (marked s').toFinset ⊆ (marked s).toFinset := by
    intro q hq
    rw [List.mem_toFinset] at hq ⊢
    exact h.old q hq
  have hdown : ∀ q ∈ (marked s').toFinset, place s' q + 1 ≤ place s q + 1 := by
    intro q hq
    exact Nat.succ_le_succ (h.down q (List.mem_toFinset.mp hq))
  have hown : p ∈ (marked s).toFinset := List.mem_toFinset.mpr h.own
  by_cases hp : p ∈ (marked s').toFinset
  · have hless : place s' p + 1 < place s p + 1 :=
      Nat.succ_lt_succ (h.moved (List.mem_toFinset.mp hp))
    calc weight marked place s'
      _ < ∑ q ∈ (marked s').toFinset, (place s q + 1) := Finset.sum_lt_sum hdown ⟨p, hp, hless⟩
      _ ≤ weight marked place s := Finset.sum_le_sum_of_subset hsub
  · have herase : (marked s').toFinset ⊆ (marked s).toFinset.erase p := by
      intro q hq
      exact Finset.mem_erase.mpr ⟨fun heq => hp (heq ▸ hq), hsub hq⟩
    calc weight marked place s'
      _ ≤ ∑ q ∈ (marked s').toFinset, (place s q + 1) := Finset.sum_le_sum hdown
      _ ≤ ∑ q ∈ (marked s).toFinset.erase p, (place s q + 1) := Finset.sum_le_sum_of_subset herase
      _ < ∑ q ∈ (marked s).toFinset.erase p, (place s q + 1) + (place s p + 1) :=
        Nat.lt_add_of_pos_right (Nat.succ_pos _)
      _ = weight marked place s := Finset.sum_erase_add _ _ hown

namespace Round

/-- Who is there at the end was there at the start. -/
theorem back (h : Round marked here known place next s cs s') (hq : known s q)
    (hend : here s' q) : here s q := by
  induction h with
  | done _ _ => exact hend
  | call _ hcall _ ih => exact hcall.back q hq (ih (hcall.remember q hq) hend)

/-- Who is called was marked at the start. -/
theorem called_marked (h : Round marked here known place next s cs s')
    (hq : q ∈ cs.map Prod.fst) : q ∈ marked s := by
  induction h with
  | done _ _ => cases hq
  | call _ hcall _ ih =>
    rcases List.mem_cons.mp hq with rfl | hq
    · exact hcall.own
    · exact hcall.old q (ih hq)

/-- Who leaves is not there at the end, and the other way round. -/
theorem letGo_iff (h : Round marked here known place next s cs s') (hq : known s q) :
    LetGo here next q s ↔ ¬ here s' q := by
  constructor
  · intro hgo
    induction hgo generalizing cs with
    | gone hgone => exact fun hend => hgone (h.back hq hend)
    | later hnext _ ih =>
      cases h with
      | done hnone _ => cases hnone.symm.trans hnext
      | call hnext' hcall hrest =>
        cases hnext'.symm.trans hnext
        exact ih hrest (hcall.remember q hq)
  · intro hend
    induction h with
    | done _ _ => exact .gone hend
    | call hnext hcall _ ih => exact .later hnext (ih (hcall.remember q hq) hend)

/-- Every marked member that stays is called now or was called before, if and only if no call
takes the mark off a member by mistake that it should not be taken off. -/
theorem spared_iff (h : Round marked here known place next s cs s')
    (hknown : ∀ q ∈ marked s, known s q) (called : List Q) :
    Spared marked here next called s ↔
      ∀ q ∈ marked s, here s' q → q ∈ called ∨ q ∈ cs.map Prod.fst := by
  induction h generalizing called with
  | @done s _ hnone =>
    apply iff_of_true (.done hnone)
    intro q hq
    rw [hnone] at hq
    cases hq
  | @call s t s' p r cs hnext hcall hrest ih =>
    have hknown' : ∀ q ∈ marked t, known t q := fun q hq =>
      hcall.remember q (hknown q (hcall.old q hq))
    constructor
    · intro hspared q hq hend
      cases hspared with
      | done hnone =>
        rw [hnone] at hq
        cases hq
      | call hnext' hlost hrest' =>
        cases hnext'.symm.trans hnext
        have hqt := hcall.remember q (hknown q hq)
        by_cases hown : q = p
        · exact .inr (hown ▸ List.mem_cons_self)
        · by_cases hr : r = some q
          · apply (hlost q hr).imp_right
            intro hgo
            exact absurd hend ((hrest.letGo_iff hqt).mp hgo)
          · have hstill := hcall.keep q hq (hrest.back hqt hend) hown hr
            rcases (ih hknown' (p :: called)).mp hrest' q hstill hend with hbefore | hlater
            · exact .inl ((List.mem_cons.mp hbefore).resolve_left hown)
            · exact .inr (List.mem_cons_of_mem _ hlater)
    · intro hall
      refine .call hnext (fun q hr => ?_) ((ih hknown' (p :: called)).mpr fun q hq hend => ?_)
      · obtain ⟨hne, hq, hunmarked⟩ := hcall.lost q hr
        by_cases hend : here s' q
        · apply (hall q hq hend).imp_right
          intro hlater
          have hmem := (List.mem_cons.mp hlater).resolve_left hne
          exact absurd (hrest.called_marked hmem) hunmarked
        · exact .inr ((hrest.letGo_iff (hcall.remember q (hknown q hq))).mpr hend)
      · rcases hall q (hcall.old q hq) hend with hbefore | hnow
        · exact .inl (List.mem_cons_of_mem _ hbefore)
        · rcases List.mem_cons.mp hnow with hown | hlater
          · exact .inl (hown ▸ List.mem_cons_self)
          · exact .inr hlater

end Round

end

end Marks
