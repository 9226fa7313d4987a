import Mathlib.Data.List.Chain
import Mathlib.Tactic

/-!
# Rings

Circular doubly linked chains over any type of nodes: a head and the nodes that follow
it, in order, with two partial functions for the links. A family of rings has no node in
common. The rules say what a change of the links near one place does to a ring and to
the family it is in.
-/
namespace Ring

section
variable {α : Type} {next prev next' prev' : α → Option α} {a b h : α}
variable {xs ys zs as bs ms : List α}

/-- Each of the two points to the other. -/
def Joined (next prev : α → Option α) (a b : α) : Prop := next a = some b ∧ prev b = some a

def Chain (next prev : α → Option α) (xs : List α) : Prop := xs.IsChain (Joined next prev)

/-- A chain depends on where all but its last lead, and all but its first lead back. -/
theorem Chain.congr (hc : Chain next prev xs) (hnext : ∀ x ∈ xs.dropLast, next' x = next x)
    (hprev : ∀ x ∈ xs.tail, prev' x = prev x) : Chain next' prev' xs := by
  induction xs with
  | nil => exact List.isChain_nil
  | cons x xs ih =>
    cases xs with
    | nil => exact List.isChain_singleton x
    | cons y ys =>
      obtain ⟨⟨hxy, hyx⟩, hrest⟩ := List.isChain_cons_cons.mp hc
      refine List.isChain_cons_cons.mpr ⟨⟨?_, ?_⟩, ih hrest (fun z hz => ?_) (fun z hz => ?_)⟩
      · rw [hnext x (by simp), hxy]
      · rw [hprev y (by simp), hyx]
      · exact hnext z (by simpa using .inr hz)
      · exact hprev z (by simpa using .inr hz)

/-- Two chains and one between them. -/
theorem Chain.bridge (hl : Chain next prev (as ++ [a])) (hm : Chain next prev (a :: ms ++ [b]))
    (hr : Chain next prev (b :: bs)) : Chain next prev (as ++ a :: (ms ++ b :: bs)) := by
  refine List.isChain_split.mpr ⟨hl, ?_⟩
  rw [← List.cons_append]
  exact List.isChain_split.mpr ⟨hm, hr⟩

/-- The node before a place of a ring. -/
theorem mem_before (zs : List α) (hys : h :: ys = as ++ [a]) : a ∈ h :: (ys ++ zs) := by
  rw [← List.cons_append, hys]
  simp

/-- The node after a place of a ring. -/
theorem mem_after (ys : List α) (hzs : zs ++ [h] = b :: bs) : b ∈ h :: (ys ++ zs) := by
  have hin : b ∈ zs ++ [h] := hzs ▸ List.mem_cons_self
  rcases List.mem_append.mp hin with hin | hin
  · exact List.mem_cons_of_mem _ (List.mem_append_right _ hin)
  · exact List.mem_cons.mpr (.inl (List.mem_singleton.mp hin))

/-- `h` and the nodes behind it, the last of which leads back to `h`. -/
structure IsRing (next prev : α → Option α) (h : α) (xs : List α) : Prop where
  nodup : (h :: xs).Nodup
  chain : Chain next prev (h :: xs ++ [h])

theorem IsRing.congr (hr : IsRing next prev h xs)
    (hsame : ∀ x ∈ h :: xs, next' x = next x ∧ prev' x = prev x) : IsRing next' prev' h xs := by
  refine ⟨hr.nodup, hr.chain.congr (fun x hx => ?_) (fun x hx => ?_)⟩
  · rw [List.dropLast_concat] at hx
    exact (hsame x hx).1
  · have hx' : x ∈ xs ++ [h] := hx
    rw [List.mem_append, List.mem_singleton] at hx'
    exact (hsame x (List.mem_cons.mpr hx'.symm)).2

theorem IsRing.singleton (hnext : next h = some h) (hprev : prev h = some h) :
    IsRing next prev h [] :=
  ⟨List.nodup_singleton h, List.isChain_pair.mpr ⟨hnext, hprev⟩⟩

/-- The nodes between two neighbours are exchanged: `a` and `b` are where the old part of
the ring ends and goes on, and only they lead elsewhere than before. -/
theorem IsRing.replace (os : List α) (hr : IsRing next prev h (ys ++ os ++ zs))
    (hys : h :: ys = as ++ [a]) (hzs : zs ++ [h] = b :: bs)
    (hnodup : (h :: (ys ++ ms ++ zs)).Nodup)
    (hnext : ∀ x ∈ h :: (ys ++ zs), x ≠ a → next' x = next x)
    (hprev : ∀ x ∈ h :: (ys ++ zs), x ≠ b → prev' x = prev x)
    (hmid : Chain next' prev' (a :: ms ++ [b])) : IsRing next' prev' h (ys ++ ms ++ zs) := by
  have hchain : h :: (ys ++ os ++ zs) ++ [h] = (as ++ [a]) ++ (os ++ b :: bs) := by
    rw [← hys, ← hzs]
    simp
  have hold := hr.chain
  rw [hchain] at hold
  have hleft : Chain next prev (as ++ [a]) := List.IsChain.left_of_append hold
  have hright : Chain next prev (b :: bs) :=
    List.IsChain.right_of_append (List.IsChain.right_of_append hold)
  have hkept : (h :: (ys ++ zs)).Nodup :=
    hr.nodup.sublist ((List.append_sublist_append_right zs).mpr
      (List.sublist_append_left ys os) |>.cons_cons h)
  have hcyc : (ys ++ (zs ++ [h])).Nodup := by
    rw [← List.append_assoc]
    exact (List.perm_append_singleton h (ys ++ zs)).symm.nodup hkept
  have hsplit : ((as ++ [a]) ++ zs).Nodup := by rw [← hys]; exact hkept
  refine ⟨hnodup, ?_⟩
  have hnew : h :: (ys ++ ms ++ zs) ++ [h] = as ++ a :: (ms ++ b :: bs) := by
    have hgoal : h :: (ys ++ ms ++ zs) ++ [h] = (h :: ys) ++ ms ++ (zs ++ [h]) := by simp
    rw [hgoal, hys, hzs]
    simp
  rw [hnew]
  refine Chain.bridge (hleft.congr (fun x hx => ?_) (fun x hx => ?_)) hmid
    (hright.congr (fun x hx => ?_) (fun x hx => ?_))
  · rw [List.dropLast_concat] at hx
    have hin : x ∈ h :: ys := hys ▸ List.mem_append_left _ hx
    refine hnext x (List.mem_cons.mpr ((List.mem_cons.mp hin).imp_right
      (List.mem_append_left _))) fun heq => ?_
    have hdisj := (List.nodup_append.mp (List.nodup_append.mp hsplit).1).2.2
    exact hdisj x hx a (List.mem_singleton_self a) heq
  · rw [← hys, List.tail_cons] at hx
    apply hprev x (List.mem_cons_of_mem _ (List.mem_append_left _ hx))
    intro heq
    have hdisj := (List.nodup_append.mp hcyc).2.2
    exact hdisj x hx b (hzs ▸ List.mem_cons_self) heq
  · rw [← hzs, List.dropLast_concat] at hx
    apply hnext x (List.mem_cons_of_mem _ (List.mem_append_right _ hx))
    intro heq
    have hdisj := (List.nodup_append.mp hsplit).2.2
    exact hdisj a (List.mem_append_right _ (List.mem_singleton_self a)) x hx heq.symm
  · have hx' : x ∈ bs := hx
    have hin : x ∈ zs ++ [h] := hzs ▸ List.mem_cons_of_mem _ hx'
    have hb := (List.nodup_append.mp hcyc).2.1
    rw [hzs] at hb
    refine hprev x ?_ fun heq => (List.nodup_cons.mp hb).1 (heq ▸ hx')
    rcases List.mem_append.mp hin with hin | hin
    · exact List.mem_cons_of_mem _ (List.mem_append_right _ hin)
    · exact List.mem_cons.mpr (.inl (List.mem_singleton.mp hin))

theorem exists_before (h : α) (ys : List α) : ∃ as a, h :: ys = as ++ [a] :=
  ⟨_, _, (List.dropLast_append_getLast (List.cons_ne_nil h ys)).symm⟩

theorem exists_after (zs : List α) (h : α) : ∃ b bs, zs ++ [h] = b :: bs :=
  List.exists_cons_of_ne_nil (by simp)

/-- Where a ring is entered, and where it is left to go back to its head. -/
theorem IsRing.ends (hr : IsRing next prev h xs) (hys : h :: xs = as ++ [a])
    (hzs : xs ++ [h] = b :: bs) : next h = some b ∧ prev h = some a := by
  have hchain := hr.chain
  constructor
  · rw [Chain, List.cons_append, hzs] at hchain
    exact (List.isChain_cons_cons.mp hchain).1.1
  · rw [Chain, hys, List.append_assoc, List.singleton_append] at hchain
    exact (List.isChain_pair.mp (List.isChain_split.mp hchain).2).2

theorem IsRing.ends_nil (hr : IsRing next prev h []) : next h = some h ∧ prev h = some h :=
  hr.ends (List.nil_append [h]).symm rfl

/-- The neighbours of a node of a ring. -/
theorem IsRing.neighbours {n : α} (hr : IsRing next prev h (ys ++ [n] ++ zs))
    (hys : h :: ys = as ++ [a]) (hzs : zs ++ [h] = b :: bs) :
    next n = some b ∧ prev n = some a := by
  have hchain : Chain next prev (as ++ a :: [n] ++ b :: bs) := by
    have heq : as ++ a :: [n] ++ b :: bs = h :: (ys ++ [n] ++ zs) ++ [h] := by
      rw [← hzs, List.append_cons as a [n], ← hys]
      simp
    rw [heq]
    exact hr.chain
  rw [Chain, List.append_assoc] at hchain
  have hmid := (List.isChain_split.mp hchain).2
  obtain ⟨hback, hrest⟩ := List.isChain_cons_cons.mp hmid
  exact ⟨(List.isChain_cons_cons.mp hrest).1.1, hback.2⟩

/-- Every node of a ring leads somewhere. -/
theorem IsRing.isSome {x : α} (hr : IsRing next prev h xs) (hx : x ∈ h :: xs) :
    (next x).isSome := by
  obtain ⟨ys, zs, heq⟩ := List.append_of_mem hx
  obtain ⟨b, bs, hzs⟩ := exists_after zs h
  have hchain := hr.chain
  rw [Chain, heq, List.append_assoc, List.cons_append, hzs] at hchain
  rw [(List.isChain_cons_cons.mp (List.isChain_split.mp hchain).2).1.1]
  rfl

end

section
variable {α : Type} {next prev next' prev' : α → Option α}
variable {lists : α → Option (List α)} {h n : α} {xs xs' : List α}

/-- The rings of the heads that have one; no node is in two of them. -/
structure Rings (next prev : α → Option α) (lists : α → Option (List α)) : Prop where
  ring : ∀ h xs, lists h = some xs → IsRing next prev h xs
  apart : ∀ h xs k ys x, lists h = some xs → lists k = some ys →
    x ∈ h :: xs → x ∈ k :: ys → h = k

/-- The node is neither a head nor in a list. -/
def Free (lists : α → Option (List α)) (n : α) : Prop := ∀ k ys, lists k = some ys → n ∉ k :: ys

theorem Rings.empty : Rings next prev (fun _ => none) :=
  ⟨fun _ _ heq => (Option.some_ne_none _ heq.symm).elim,
    fun _ _ _ _ _ heq => (Option.some_ne_none _ heq.symm).elim⟩

/-- Only nodes that are in no ring change. -/
theorem Rings.congr (hr : Rings next prev lists)
    (hsame : ∀ x, ¬ Free lists x → next' x = next x ∧ prev' x = prev x) :
    Rings next' prev' lists :=
  ⟨fun k ys hk => (hr.ring k ys hk).congr fun x hx =>
      hsame x fun hfree => hfree k ys hk hx, hr.apart⟩

variable [DecidableEq α]

/-- The ring at `h` is a new one, and the others do not notice. -/
theorem Rings.set (hr : Rings next prev lists) (hring : IsRing next' prev' h xs')
    (hout : ∀ k ys, lists k = some ys → k ≠ h → ∀ x ∈ k :: ys,
      x ∉ h :: xs' ∧ next' x = next x ∧ prev' x = prev x) :
    Rings next' prev' (Function.update lists h (some xs')) := by
  refine ⟨fun k ys hk => ?_, fun k ys l zs x hk hl hx hx' => ?_⟩
  · by_cases heq : k = h
    · subst heq
      rw [Function.update_self] at hk
      cases hk
      exact hring
    · rw [Function.update_of_ne heq] at hk
      exact (hr.ring k ys hk).congr fun x hx => (hout k ys hk heq x hx).2
  · by_cases hkh : k = h
    · by_cases hlh : l = h
      · exact hkh.trans hlh.symm
      · subst hkh
        rw [Function.update_self] at hk
        cases hk
        rw [Function.update_of_ne hlh] at hl
        exact absurd hx (hout l zs hl hlh x hx').1
    · rw [Function.update_of_ne hkh] at hk
      by_cases hlh : l = h
      · subst hlh
        rw [Function.update_self] at hl
        cases hl
        exact absurd hx' (hout k ys hk hkh x hx).1
      · rw [Function.update_of_ne hlh] at hl
        exact hr.apart k ys l zs x hk hl hx hx'

/-- A head is forgotten, and its nodes with it. -/
theorem Rings.drop (hr : Rings next prev lists) (h : α) :
    Rings next prev (Function.update lists h none) := by
  have hold : ∀ k ys, Function.update lists h none k = some ys → lists k = some ys := by
    intro k ys hk
    by_cases heq : k = h
    · subst heq
      rw [Function.update_self] at hk
      cases hk
    · rwa [Function.update_of_ne heq] at hk
  exact ⟨fun k ys hk => hr.ring k ys (hold k ys hk),
    fun k ys l zs x hk hl => hr.apart k ys l zs x (hold k ys hk) (hold l zs hl)⟩

end

section
variable {α : Type} [DecidableEq α] {next prev next' prev' : α → Option α}
variable {lists : α → Option (List α)} {a b h l n : α} {xs ys zs as bs : List α}

/-- A node that was in no ring is now alone. -/
theorem Rings.init (hr : Rings next prev lists) (hfree : Free lists n)
    (hnext : ∀ x, next' x = if x = n then some n else next x)
    (hprev : ∀ x, prev' x = if x = n then some n else prev x) :
    Rings next' prev' (Function.update lists n (some [])) := by
  refine hr.set (IsRing.singleton (by rw [hnext, if_pos rfl]) (by rw [hprev, if_pos rfl]))
    fun k ys hk _ x hx => ?_
  have hne : x ≠ n := fun heq => hfree k ys hk (heq ▸ hx)
  refine ⟨fun hin => hne (List.mem_singleton.mp hin), ?_, ?_⟩
  · rw [hnext, if_neg hne]
  · rw [hprev, if_neg hne]

/-- A node goes between two neighbours. -/
theorem Rings.insert (hr : Rings next prev lists) (hh : lists h = some (ys ++ zs))
    (hfree : Free lists n) (hys : h :: ys = as ++ [a]) (hzs : zs ++ [h] = b :: bs)
    (hnext : ∀ x, next' x = if x = a then some n else if x = n then some b else next x)
    (hprev : ∀ x, prev' x = if x = b then some n else if x = n then some a else prev x) :
    Rings next' prev' (Function.update lists h (some (ys ++ [n] ++ zs))) := by
  have hold := hr.ring h _ hh
  have hn : n ∉ h :: (ys ++ zs) := hfree h _ hh
  have hnode : ∀ x ∈ h :: (ys ++ zs), x ≠ n := fun x hx heq => hn (heq ▸ hx)
  have ha : a ∈ h :: (ys ++ zs) := mem_before zs hys
  have hb : b ∈ h :: (ys ++ zs) := mem_after ys hzs
  have hring : IsRing next' prev' h (ys ++ [n] ++ zs) := by
    refine IsRing.replace [] (by rwa [List.append_nil]) hys hzs ?_ (fun x hx hxa => ?_)
      (fun x hx hxb => ?_) ?_
    · have hperm : (n :: h :: (ys ++ zs)).Perm (h :: (ys ++ [n] ++ zs)) := by
        rw [List.append_assoc, List.singleton_append]
        exact (List.Perm.swap h n _).trans (List.perm_middle.symm.cons h)
      exact hperm.nodup (List.nodup_cons.mpr ⟨hn, hold.nodup⟩)
    · rw [hnext, if_neg hxa, if_neg (hnode x hx)]
    · rw [hprev, if_neg hxb, if_neg (hnode x hx)]
    · refine List.isChain_cons_cons.mpr ⟨⟨?_, ?_⟩, List.isChain_pair.mpr ⟨?_, ?_⟩⟩
      · rw [hnext, if_pos rfl]
      · rw [hprev, if_neg (hnode b hb).symm, if_pos rfl]
      · rw [hnext, if_neg (hnode a ha).symm, if_pos rfl]
      · rw [hprev, if_pos rfl]
  apply hr.set hring
  intro k us hk hne x hx
  have hxn : x ≠ n := fun heq => hfree k us hk (heq ▸ hx)
  have hxh : x ∉ h :: (ys ++ zs) := fun hin => hne (hr.apart k us h _ x hk hh hx hin)
  refine ⟨fun hin => ?_, ?_, ?_⟩
  · have hin' : x = n ∨ x ∈ h :: (ys ++ zs) := by
      simp only [List.mem_cons, List.mem_append, List.not_mem_nil, or_false] at hin ⊢
      tauto
    exact hin'.elim hxn hxh
  · rw [hnext, if_neg (ne_of_mem_of_not_mem ha hxh).symm, if_neg hxn]
  · rw [hprev, if_neg (ne_of_mem_of_not_mem hb hxh).symm, if_neg hxn]

/-- A node is passed over by its neighbours; its own links do not matter. -/
theorem Rings.erase (hr : Rings next prev lists) (hh : lists h = some (ys ++ [n] ++ zs))
    (hys : h :: ys = as ++ [a]) (hzs : zs ++ [h] = b :: bs)
    (hnext : ∀ x, x ≠ n → next' x = if x = a then some b else next x)
    (hprev : ∀ x, x ≠ n → prev' x = if x = b then some a else prev x) :
    Rings next' prev' (Function.update lists h (some (ys ++ zs))) ∧
      Free (Function.update lists h (some (ys ++ zs))) n := by
  have hold := hr.ring h _ hh
  have hperm : (h :: (ys ++ [n] ++ zs)).Perm (n :: h :: (ys ++ zs)) := by
    rw [List.append_assoc, List.singleton_append]
    exact (List.perm_middle.cons h).trans (List.Perm.swap n h _)
  obtain ⟨hn, hnodup⟩ := List.nodup_cons.mp (hperm.nodup hold.nodup)
  have hnode : ∀ x ∈ h :: (ys ++ zs), x ≠ n := fun x hx heq => hn (heq ▸ hx)
  have ha : a ∈ h :: (ys ++ zs) := mem_before zs hys
  have hb : b ∈ h :: (ys ++ zs) := mem_after ys hzs
  have hring : IsRing next' prev' h (ys ++ [] ++ zs) := by
    refine IsRing.replace [n] hold hys hzs (by rwa [List.append_nil]) (fun x hx hxa => ?_)
      (fun x hx hxb => ?_) ?_
    · rw [hnext x (hnode x hx), if_neg hxa]
    · rw [hprev x (hnode x hx), if_neg hxb]
    · refine List.isChain_pair.mpr ⟨?_, ?_⟩
      · rw [hnext a (hnode a ha), if_pos rfl]
      · rw [hprev b (hnode b hb), if_pos rfl]
  rw [List.append_nil] at hring
  have hin : ∀ x ∈ h :: (ys ++ zs), x ∈ h :: (ys ++ [n] ++ zs) := fun x hx =>
    hperm.mem_iff.mpr (List.mem_cons_of_mem n hx)
  have hmem : n ∈ h :: (ys ++ [n] ++ zs) := hperm.mem_iff.mpr List.mem_cons_self
  refine ⟨hr.set hring fun k us hk hne x hx => ?_, fun k us hk hx => ?_⟩
  · have hxh : x ∉ h :: (ys ++ [n] ++ zs) := fun hxin => hne (hr.apart k us h _ x hk hh hx hxin)
    have hxn : x ≠ n := fun heq => hxh (heq ▸ hmem)
    have hout : x ∉ h :: (ys ++ zs) := fun hxin => hxh (hin x hxin)
    refine ⟨hout, ?_, ?_⟩
    · rw [hnext x hxn, if_neg (ne_of_mem_of_not_mem ha hout).symm]
    · rw [hprev x hxn, if_neg (ne_of_mem_of_not_mem hb hout).symm]
  · by_cases heq : k = h
    · subst heq
      rw [Function.update_self] at hk
      cases hk
      exact hn hx
    · rw [Function.update_of_ne heq] at hk
      exact heq (hr.apart k us h _ n hk hh hx hmem)

/-- The nodes of the ring at `l` go behind `h`, and `l` is no head any more. -/
theorem Rings.splice (hr : Rings next prev lists) (hh : lists h = some zs) (hl : lists l = some xs)
    (hne : l ≠ h) (hfirst : xs = a :: as) (hlast : xs = bs ++ [b]) {c : α} {cs : List α}
    (hzs : zs ++ [h] = c :: cs)
    (hnext : ∀ x, x ≠ l → next' x = if x = b then some c else if x = h then some a else next x)
    (hprev : ∀ x, x ≠ l → prev' x = if x = c then some b else if x = a then some h else prev x) :
    Rings next' prev' (Function.update (Function.update lists l none) h (some (xs ++ zs))) ∧
      Free (Function.update (Function.update lists l none) h (some (xs ++ zs))) l := by
  have hringh := hr.ring h _ hh
  have hringl := hr.ring l _ hl
  have hdisj : ∀ x ∈ l :: xs, x ∉ h :: zs := fun x hx hx' => hne (hr.apart l xs h zs x hl hh hx hx')
  have hnotl : ∀ x ∈ xs, x ≠ l := fun x hx heq => (List.nodup_cons.mp hringl.nodup).1 (heq ▸ hx)
  have ha : a ∈ xs := hfirst ▸ List.mem_cons_self
  have hb : b ∈ xs := hlast ▸ List.mem_append_right _ (List.mem_singleton_self b)
  have hc : c ∈ h :: zs := mem_after [] hzs
  have hxs : ∀ x ∈ xs, x ∉ h :: zs := fun x hx => hdisj x (List.mem_cons_of_mem _ hx)
  have hzl : ∀ x ∈ h :: zs, x ≠ l := fun x hx heq => hdisj l List.mem_cons_self (heq ▸ hx)
  have hzsxs : ∀ x ∈ h :: zs, x ∉ xs := fun x hx hin => hxs x hin hx
  have hinner : Chain next prev xs :=
    (List.IsChain.left_of_append (List.IsChain.tail hringl.chain) : List.IsChain _ xs)
  have hnodup := (List.nodup_cons.mp hringl.nodup).2
  have hmid : Chain next' prev' (h :: xs ++ [c]) := by
    have hxs' : Chain next' prev' xs := by
      refine hinner.congr (fun x hx => ?_) (fun x hx => ?_)
      · have hin := List.mem_of_mem_dropLast hx
        rw [hnext x (hnotl x hin), if_neg,
          if_neg (ne_of_mem_of_not_mem List.mem_cons_self (hxs x hin)).symm]
        rintro rfl
        rw [hlast, List.dropLast_concat] at hx
        rw [hlast] at hnodup
        exact (List.nodup_append.mp hnodup).2.2 x hx x (List.mem_singleton_self x) rfl
      · have hin := List.mem_of_mem_tail hx
        rw [hprev x (hnotl x hin), if_neg (ne_of_mem_of_not_mem hc (hxs x hin)).symm, if_neg]
        rintro rfl
        rw [hfirst, List.tail_cons] at hx
        rw [hfirst] at hnodup
        exact (List.nodup_cons.mp hnodup).1 hx
    rw [Chain, List.cons_append]
    refine List.isChain_cons.mpr ⟨fun y hy => ?_, List.isChain_append.mpr
      ⟨hxs', List.isChain_singleton c, fun y hy z hz => ?_⟩⟩
    · rw [hfirst, List.cons_append, List.head?_cons, Option.mem_some_iff] at hy
      subst hy
      refine ⟨?_, ?_⟩
      · rw [hnext h hne.symm, if_neg (ne_of_mem_of_not_mem hb (hzsxs h List.mem_cons_self)).symm,
          if_pos rfl]
      · rw [hprev a (hnotl a ha), if_neg (ne_of_mem_of_not_mem hc (hxs a ha)).symm, if_pos rfl]
    · rw [hlast, List.getLast?_concat, Option.mem_some_iff] at hy
      rw [List.head?_cons, Option.mem_some_iff] at hz
      subst hy hz
      refine ⟨?_, ?_⟩
      · rw [hnext b (hnotl b hb), if_pos rfl]
      · rw [hprev c (hzl c hc), if_pos rfl]
  have hring : IsRing next' prev' h ([] ++ xs ++ zs) := by
    refine IsRing.replace [] (by simpa using hringh) (List.nil_append [h]).symm hzs ?_
      (fun x hx hxa => ?_) (fun x hx hxc => ?_) hmid
    · have hall : (xs ++ h :: zs).Nodup :=
        List.nodup_append.mpr ⟨hnodup, hringh.nodup, fun x hx y hy heq => hxs x hx (heq ▸ hy)⟩
      exact List.perm_middle.nodup hall
    · rw [List.nil_append] at hx
      rw [hnext x (hzl x hx), if_neg (ne_of_mem_of_not_mem hb (hzsxs x hx)).symm, if_neg hxa]
    · rw [List.nil_append] at hx
      rw [hprev x (hzl x hx), if_neg hxc, if_neg (ne_of_mem_of_not_mem ha (hzsxs x hx)).symm]
  rw [List.nil_append] at hring
  have hkept : ∀ k us, Function.update lists l none k = some us → k ≠ l ∧ lists k = some us := by
    intro k us hk
    by_cases heq : k = l
    · subst heq
      rw [Function.update_self] at hk
      cases hk
    · rw [Function.update_of_ne heq] at hk
      exact ⟨heq, hk⟩
  have hafter : ∀ x, x ∈ h :: (xs ++ zs) → x ∈ xs ∨ x ∈ h :: zs := by
    intro x hx
    simp only [List.mem_cons, List.mem_append] at hx ⊢
    tauto
  refine ⟨(hr.drop l).set hring fun k us hk hkh x hx => ?_, fun k us hk hin => ?_⟩
  · obtain ⟨hkl, hk⟩ := hkept k us hk
    have hxh : x ∉ h :: zs := fun hin => hkh (hr.apart k us h zs x hk hh hx hin)
    have hxl : x ∉ l :: xs := fun hin => hkl (hr.apart k us l xs x hk hl hx hin)
    have hxl' : x ≠ l := fun heq => hxl (heq ▸ List.mem_cons_self)
    have hxx : x ∉ xs := fun hin => hxl (List.mem_cons_of_mem _ hin)
    refine ⟨fun hin => (hafter x hin).elim hxx hxh, ?_, ?_⟩
    · rw [hnext x hxl', if_neg (ne_of_mem_of_not_mem hb hxx).symm,
        if_neg (ne_of_mem_of_not_mem List.mem_cons_self hxh).symm]
    · rw [hprev x hxl', if_neg (ne_of_mem_of_not_mem hc hxh).symm,
        if_neg (ne_of_mem_of_not_mem ha hxx).symm]
  · by_cases heq : k = h
    · subst heq
      rw [Function.update_self] at hk
      cases hk
      rcases hafter l hin with hin | hin
      · exact hnotl l hin rfl
      · exact hzl l hin rfl
    · rw [Function.update_of_ne heq] at hk
      obtain ⟨hkl, hk⟩ := hkept k us hk
      exact hkl (hr.apart k us l xs l hk hl hin List.mem_cons_self)

end

end Ring
