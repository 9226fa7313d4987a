import Libhp.Pub.KlistRun

/-!
# Deleting while iterating

`list_for_each_safe` whose body deletes the node it is at: on a list it comes to every
node and ends. On a list to which a node was added twice it does not: that is the crash
the header warns of, or nodes that are never come to.
-/
namespace Libhp.Klist

open Ring

section
variable {α σ : Type} [DecidableEq α] {mem : σ → Heap α} {body : α → σ → Option σ} {h : α}

/-- A body that deletes the node it is at comes to each node once. -/
theorem forEachSafe_drain {P : List α → σ → Prop}
    (hring : ∀ xs s, P xs s → IsRing (mem s).next (mem s).prev h xs)
    (hbody : ∀ x xs s, P (x :: xs) s → ∃ s', body x s = some s' ∧ P xs s') {xs : List α} {s : σ}
    {fuel : Nat} (hs : P xs s) (hfuel : xs.length < fuel) :
    ∃ s', forEachSafe mem body h fuel ((mem s).next h) (((mem s).next h).bind (mem s).next) s =
      .done s' ∧ P [] s' := by
  induction xs generalizing s fuel with
  | nil =>
    cases fuel with
    | zero => cases hfuel
    | succ fuel =>
      obtain ⟨hnext, -⟩ := (hring [] s hs).ends_nil
      exact ⟨s, by simp only [forEachSafe, hnext, if_true], hs⟩
  | cons x xs ih =>
    cases fuel with
    | zero => cases hfuel
    | succ fuel =>
      have hr := hring _ s hs
      obtain ⟨as, a, ha⟩ := exists_before h (x :: xs)
      obtain ⟨b, bs, hb⟩ := exists_after xs h
      obtain ⟨hnext, -⟩ := hr.ends ha (List.cons_append)
      obtain ⟨hnext', -⟩ := IsRing.neighbours hr (List.nil_append [h]).symm hb
      have hxh : some x ≠ some h := fun heq =>
        (List.nodup_cons.mp hr.nodup).1 (Option.some.inj heq ▸ List.mem_cons_self)
      obtain ⟨s', hbody, hs'⟩ := hbody x xs s hs
      have hr' := hring xs s' hs'
      obtain ⟨as', a', ha'⟩ := exists_before h xs
      have hhead := (hr'.ends ha' hb).1
      have hsome : (mem s' b).isSome :=
        Heap.isSome_of_next (hr'.isSome (mem_after [] hb))
      have hrec := ih hs' (Nat.lt_of_succ_lt_succ hfuel)
      rw [hhead, Option.bind_some] at hrec
      simp only [forEachSafe, hnext, if_neg hxh, Option.bind_some, hbody, hnext',
        Heap.load_eq hsome]
      exact hrec

theorem listForEachSafe_eq {s : σ} {fuel : Nat} {a : α} (hh : (mem s h).isSome)
    (hnext : (mem s).next h = some a) (ha : (mem s a).isSome) :
    listForEachSafe mem body h fuel s =
      forEachSafe mem body h fuel (some a) ((mem s).next a) s := by
  obtain ⟨c, hc⟩ := Option.isSome_iff_exists.mp hh
  have hca : c.next = some a := by rw [← hnext, Heap.next, hc, Option.bind_some]
  simp only [listForEachSafe, hc, hca, Heap.load_eq ha]

theorem listForEachSafe_drain {P : List α → σ → Prop}
    (hring : ∀ xs s, P xs s → IsRing (mem s).next (mem s).prev h xs)
    (hbody : ∀ x xs s, P (x :: xs) s → ∃ s', body x s = some s' ∧ P xs s') {xs : List α} {s : σ}
    {fuel : Nat} (hs : P xs s) (hfuel : xs.length < fuel) :
    ∃ s', listForEachSafe mem body h fuel s = .done s' ∧ P [] s' := by
  have hr := hring xs s hs
  obtain ⟨as, a, ha⟩ := exists_before h xs
  obtain ⟨b, bs, hb⟩ := exists_after xs h
  have hnext := (hr.ends ha hb).1
  have hsome : ∀ x ∈ h :: xs, (mem s x).isSome := fun x hx => Heap.isSome_of_next (hr.isSome hx)
  rw [listForEachSafe_eq (hsome h List.mem_cons_self) hnext (hsome b (mem_after [] hb))]
  have hdrain := forEachSafe_drain hring hbody hs hfuel
  rwa [hnext, Option.bind_some] at hdrain

end

section
variable {α : Type} [DecidableEq α] {m m' : Heap α} {a b h n : α} {xs ys zs : List α}

/-- The body of a loop that deletes: the nodes it has come to are recorded. -/
def deleteAt (p : α) (s : Heap α × List α) : Option (Heap α × List α) :=
  (listDel s.1 (some p)).map fun m => (m, s.2 ++ [p])

theorem listDel_spec (hn : (m n).isSome) (hprev : m.prev n = some a) (hnext : m.next n = some b)
    (ha : (m a).isSome) (hb : (m b).isSome) : ∃ m', listDel m (some n) = some m' ∧
      Relinked m m' (Function.update (Function.update m.next a (some b)) n none)
        (Function.update (Function.update m.prev b (some a)) n none) := by
  obtain ⟨m₁, h₁, r₁⟩ := (Relinked.refl m).setPrev (v := some a) hb
  obtain ⟨m₂, h₂, r₂⟩ := r₁.setNext (v := some b) ha
  obtain ⟨m₃, h₃, r₃⟩ := r₂.setNext (v := none) hn
  obtain ⟨m₄, h₄, r₄⟩ := r₃.setPrev (v := none) hn
  exact ⟨m₄, by simp [listDel, listUnlink, Heap.load_eq hn, hprev, hnext, h₁, h₂, h₃, h₄], r₄⟩

/-- A way from `h` that comes to the nodes of `ys` and then to `n`, whatever is behind it. -/
structure Leads (m : Heap α) (h : α) (ys : List α) (n : α) : Prop where
  nodup : (h :: ys).Nodup
  out : n ∉ h :: ys
  mapped : (m n).isSome
  chain : Chain m.next m.prev (h :: ys)
  last : ∀ a ∈ (h :: ys).getLast?, m.next a = some n

omit [DecidableEq α] in
theorem Leads.isSome (hl : Leads m h ys n) {x : α} (hx : x ∈ h :: ys) : (m x).isSome := by
  apply Heap.isSome_of_next
  obtain ⟨us, vs, heq⟩ := List.append_of_mem hx
  cases vs with
  | nil =>
    rw [hl.last x (by rw [heq]; exact Option.mem_def.mpr List.getLast?_concat)]
    rfl
  | cons v vs =>
    have hchain := hl.chain
    rw [Chain, heq] at hchain
    rw [(List.isChain_cons_cons.mp (List.isChain_split.mp hchain).2).1.1]
    rfl

/-- The first node goes. -/
theorem Leads.del {y : α} (hl : Leads m h (y :: ys) n) : ∃ b m', m.next h = some y ∧
    m.next y = some b ∧ (m b).isSome ∧ listDel m (some y) = some m' ∧ m'.next h = some b ∧
    Leads m' h ys n ∧ (∀ x, (m' x).isSome = (m x).isSome) ∧
    (∀ x, x ∉ h :: y :: ys → m'.next x = m.next x) ∧
    m'.prev n = if ys = [] then some h else m.prev n := by
  obtain ⟨⟨hhy, hyh⟩, hrest⟩ := List.isChain_cons_cons.mp hl.chain
  have hnodup := List.nodup_cons.mp hl.nodup
  have hnodup' := List.nodup_cons.mp hnodup.2
  have hhy' : h ≠ y := fun heq => hnodup.1 (heq ▸ List.mem_cons_self)
  have hny : n ≠ y := fun heq => hl.out (heq ▸ List.mem_cons_of_mem _ List.mem_cons_self)
  have hhs := hl.isSome List.mem_cons_self
  have hys := hl.isSome (List.mem_cons_of_mem _ List.mem_cons_self)
  cases ys with
  | nil =>
    have hyn : m.next y = some n := hl.last y (by simp)
    obtain ⟨m', heq, hr⟩ := listDel_spec hys hyh hyn hhs hl.mapped
    have hnext : m'.next h = some n := by
      rw [hr.next, Function.update_of_ne hhy', Function.update_self]
    refine ⟨n, m', hhy, hyn, hl.mapped, heq, hnext, ⟨List.nodup_singleton h, ?_, ?_,
      List.isChain_singleton h, fun a ha => ?_⟩, hr.mapped, fun x hx => ?_, ?_⟩
    · exact fun hin => hl.out (List.mem_cons.mpr (.inl (List.mem_singleton.mp hin)))
    · exact (hr.mapped n).trans hl.mapped
    · have hah : h = a := by simpa using ha
      rw [← hah, hnext]
    · simp only [List.mem_cons, List.not_mem_nil, or_false, not_or] at hx
      rw [hr.next, Function.update_of_ne hx.2, Function.update_of_ne hx.1]
    · rw [hr.prev, Function.update_of_ne hny, Function.update_self, if_pos rfl]
  | cons b ys =>
    obtain ⟨⟨hyb, -⟩, hrest'⟩ := List.isChain_cons_cons.mp hrest
    have hbs := hl.isSome (x := b) (by simp)
    obtain ⟨m', heq, hr⟩ := listDel_spec hys hyh hyb hhs hbs
    have hkeep : ∀ x, x ∉ [h, y] → m'.next x = m.next x := by
      intro x hx
      simp only [List.mem_cons, List.not_mem_nil, or_false, not_or] at hx
      rw [hr.next, Function.update_of_ne hx.2, Function.update_of_ne hx.1]
    have hin : ∀ x ∈ b :: ys, x ∉ [h, y] := by
      intro x hx hx'
      rcases List.mem_cons.mp hx' with rfl | hx'
      · exact hnodup.1 (List.mem_cons_of_mem _ hx)
      · exact hnodup'.1 (List.mem_singleton.mp hx' ▸ hx)
    have hby : b ≠ y := fun heq => hnodup'.1 (heq ▸ List.mem_cons_self)
    have hnext : m'.next h = some b := by
      rw [hr.next, Function.update_of_ne hhy', Function.update_self]
    refine ⟨b, m', hhy, hyb, hbs, heq, hnext, ⟨?_, ?_, ?_, ?_, fun a ha => ?_⟩, hr.mapped,
      fun x hx => ?_, ?_⟩
    · exact List.nodup_cons.mpr ⟨fun hx => hnodup.1 (List.mem_cons_of_mem _ hx), hnodup'.2⟩
    · intro hx
      rcases List.mem_cons.mp hx with hx | hx
      · exact hl.out (hx ▸ List.mem_cons_self)
      · exact hl.out (List.mem_cons_of_mem _ (List.mem_cons_of_mem _ hx))
    · exact (hr.mapped n).trans hl.mapped
    · refine List.isChain_cons_cons.mpr ⟨⟨hnext, ?_⟩, Chain.congr hrest' (fun x hx => ?_)
        fun x hx => ?_⟩
      · rw [hr.prev, Function.update_of_ne hby, Function.update_self]
      · exact hkeep x (hin x (List.mem_of_mem_dropLast hx))
      · have hxb : x ≠ b := fun heq => (List.nodup_cons.mp hnodup'.2).1 (heq ▸ hx)
        have hxy : x ≠ y := fun heq => hnodup'.1 (heq ▸ List.mem_cons_of_mem _ hx)
        rw [hr.prev, Function.update_of_ne hxy, Function.update_of_ne hxb]
    · have ha' : a ∈ (b :: ys).getLast? := by simpa using ha
      rw [hkeep a (hin a (List.mem_of_getLast? ha')), hl.last a (by simpa using ha)]
    · exact hkeep x fun hx' => hx (by
        simp only [List.mem_cons, List.not_mem_nil, or_false] at hx' ⊢
        tauto)
    · have hnb : n ≠ b := fun heq => hl.out (by rw [heq]; simp)
      rw [hr.prev, Function.update_of_ne hny, Function.update_of_ne hnb, if_neg (by simp)]

/-- The loop deletes the nodes before `n`, and gets there. -/
theorem Leads.drain (hl : Leads m h ys n) (fuel : Nat) (seen : List α) :
    ∃ m', forEachSafe Prod.fst deleteAt h (fuel + ys.length) (m.next h)
        ((m.next h).bind m.next) (m, seen) =
      forEachSafe Prod.fst deleteAt h fuel (some n) (m.next n) (m', seen ++ ys) ∧
      (∀ x, (m' x).isSome = (m x).isSome) ∧ m'.next n = m.next n ∧
      m'.prev n = if ys = [] then m.prev n else some h := by
  induction ys generalizing m seen with
  | nil =>
    have hnext : m.next h = some n := hl.last h (by simp)
    refine ⟨m, ?_, fun _ => rfl, rfl, by rw [if_pos rfl]⟩
    rw [hnext, Option.bind_some, List.append_nil, List.length_nil, Nat.add_zero]
  | cons y ys ih =>
    obtain ⟨b, m₁, hnext, hyb, hb, hdel, hnext', hl', hmapped, hkeep, hprev⟩ := hl.del
    obtain ⟨m', hloop, hmapped', hkeep', hprev'⟩ := ih hl' (seen ++ [y])
    have hyh : some y ≠ some h := fun heq =>
      (List.nodup_cons.mp hl.nodup).1 (Option.some.inj heq ▸ List.mem_cons_self)
    have hn : m₁.next n = m.next n := hkeep n hl.out
    refine ⟨m', ?_, fun x => (hmapped' x).trans (hmapped x), hkeep'.trans hn, ?_⟩
    · rw [hnext', Option.bind_some, hn, List.append_assoc, List.singleton_append] at hloop
      rw [← hloop, List.length_cons, ← Nat.add_assoc]
      simp only [forEachSafe, hnext, if_neg hyh, Option.bind_some, deleteAt, hdel, Option.map_some,
        hyb, Heap.load_eq ((hmapped b).trans hb)]
    · rw [hprev', if_neg (List.cons_ne_nil y ys)]
      split
      · next hnil => rw [hprev, if_pos hnil]
      · rfl

theorem Leads.listForEachSafe_eq (hl : Leads m h ys n) {fuel : Nat} :
    listForEachSafe Prod.fst deleteAt h fuel (m, []) =
      forEachSafe Prod.fst deleteAt h fuel (m.next h) ((m.next h).bind m.next) (m, []) := by
  have hstart : ∃ y, m.next h = some y ∧ (m y).isSome := by
    cases ys with
    | nil => exact ⟨n, hl.last h (by simp), hl.mapped⟩
    | cons y ys =>
      obtain ⟨b, m', hnext, -⟩ := hl.del
      exact ⟨y, hnext, hl.isSome (by simp)⟩
  obtain ⟨y, hnext, hy⟩ := hstart
  rw [@Klist.listForEachSafe_eq _ _ _ Prod.fst _ _ (m, []) _ _ (hl.isSome List.mem_cons_self)
    hnext hy, hnext, Option.bind_some]

/-- A second `list_add_tail` leads from the nodes before the node to the node, as the first
did; behind it comes the head, or the node itself if it was the last. -/
theorem Holds.readd {mapped : α → Prop} {L : Lists α} (hm : Holds mapped m L)
    (hh : L h = some (ys ++ [n] ++ zs)) :
    ∃ m' a, listAddTail m (some n) (some h) = some m' ∧ Leads m' h ys n ∧ (m' a).isSome ∧
      m'.prev n = some a ∧ m'.next n = if zs = [] then some n else some h := by
  obtain ⟨us, a, hus⟩ := exists_before n zs
  obtain ⟨as, c, has⟩ := exists_before h ys
  have hring := hm.rings.ring h _ hh
  have hall : h :: (ys ++ [n] ++ zs) = (h :: ys) ++ us ++ [a] := by
    rw [List.append_assoc (h :: ys), ← hus]
    simp
  obtain ⟨b, bs, hb⟩ := exists_after (ys ++ [n] ++ zs) h
  have hprev := (hring.ends hall hb).2
  have hnodup : ((h :: ys) ++ n :: zs).Nodup := by
    have hn := hring.nodup
    rwa [List.append_assoc, ← List.cons_append] at hn
  obtain ⟨hfront, hback, hdisj⟩ := List.nodup_append.mp hnodup
  have hna : ∀ x ∈ n :: zs, x ∉ h :: ys := fun x hx hx' => hdisj x hx' x hx rfl
  have hn : n ∉ h :: ys := hna n List.mem_cons_self
  have ha : a ∉ h :: ys := hna a (hus ▸ List.mem_append_right _ (List.mem_singleton_self a))
  have hmem : ∀ x ∈ (h :: ys) ++ n :: zs, (m x).isSome := fun x hx =>
    hm.isSome hh (by simpa using hx)
  have hhs := hmem h (by simp)
  have hns := hmem n (by simp)
  have has' := hmem a (List.mem_append_right _ (hus ▸ by simp))
  obtain ⟨m', heq, hr⟩ := listInsert_spec (a := a) (b := h) hns has' hhs
  have hnext : ∀ x ∈ h :: ys, m'.next x = m.next x := fun x hx => by
    rw [hr.next, Function.update_of_ne (ne_of_mem_of_not_mem hx ha),
      Function.update_of_ne (ne_of_mem_of_not_mem hx hn)]
  have hchain : Chain m.next m.prev ((h :: ys) ++ n :: (zs ++ [h])) := by
    have hlist : (h :: ys) ++ n :: (zs ++ [h]) = h :: (ys ++ [n] ++ zs) ++ [h] := by simp
    rw [hlist]
    exact hring.chain
  have hleads : Leads m' h ys n := by
    refine ⟨hfront, hn, (hr.mapped n).trans hns, Chain.congr (List.IsChain.left_of_append hchain)
      (fun x hx => hnext x (List.mem_of_mem_dropLast hx)) (fun x hx => ?_), fun x hx => ?_⟩
    · have hxh : x ≠ h := fun heq => (List.nodup_cons.mp hfront).1 (heq ▸ hx)
      rw [hr.prev, Function.update_of_ne (ne_of_mem_of_not_mem (List.mem_cons_of_mem _ hx) hn),
        Function.update_of_ne hxh]
    · have hxc : x = c := by
        rw [has, List.getLast?_concat, Option.mem_some_iff] at hx
        exact hx.symm
      rw [hnext x (List.mem_of_getLast? hx), hxc]
      rw [has, Chain, List.append_assoc, List.singleton_append] at hchain
      exact (List.isChain_cons_cons.mp (List.isChain_split.mp hchain).2).1.1
  refine ⟨m', a, ?_, hleads, (hr.mapped a).trans has', ?_, ?_⟩
  · rw [listAddTail, Heap.load_eq hhs, hprev]
    exact heq
  · rw [hr.prev, Function.update_self]
  · rw [hr.next]
    split
    · next hzs =>
      subst hzs
      have hlast : [n].getLast? = some a := by rw [hus, List.getLast?_concat]
      have hna : a = n := (Option.some.inj hlast).symm
      rw [hna, Function.update_self]
    · next hzs =>
      have hne : n ≠ a := by
        rintro rfl
        cases us with
        | nil => exact hzs (List.cons.inj hus).2
        | cons u us =>
          have hin : n ∈ zs := (List.cons.inj hus).2 ▸ List.mem_append_right _ (by simp)
          exact (List.nodup_cons.mp hback).1 hin
      rw [Function.update_of_ne hne, Function.update_self]

/-- `list_add_tail` of a node that is in the list already: the loop that deletes crashes if
the node was the last, and otherwise ends without having come to the nodes behind it. -/
theorem readd_drain {mapped : α → Prop} {L : Lists α} (hm : Holds mapped m L)
    (hh : L h = some (ys ++ [n] ++ zs)) {fuel : Nat} (hfuel : ys.length + 2 ≤ fuel) :
    ∃ m', listAddTail m (some n) (some h) = some m' ∧
      (zs = [] → listForEachSafe Prod.fst deleteAt h fuel (m', []) = .crash) ∧
      (zs ≠ [] → ∃ m'', listForEachSafe Prod.fst deleteAt h fuel (m', []) =
        .done (m'', ys ++ [n])) := by
  obtain ⟨m₁, a, hadd, hleads, ha, hprev, hnext⟩ := hm.readd hh
  obtain ⟨k, rfl⟩ := Nat.exists_eq_add_of_le' hfuel
  obtain ⟨m₂, hloop, hmapped, hnext₂, hprev₂⟩ := hleads.drain (k + 2) []
  rw [← hleads.listForEachSafe_eq, List.nil_append, Nat.add_assoc, Nat.add_comm 2] at hloop
  have hnh : some n ≠ some h := fun heq => hleads.out (Option.some.inj heq ▸ List.mem_cons_self)
  have hn₂ : (m₂ n).isSome := (hmapped n).trans hleads.mapped
  have hh₂ : (m₂ h).isSome := (hmapped h).trans (hleads.isSome List.mem_cons_self)
  -- the node that is deleted is linked back to the head, or to the last node if it is the first
  obtain ⟨p, hp, hps⟩ : ∃ p, m₂.prev n = some p ∧ (m₂ p).isSome := by
    rw [hprev₂]
    split
    · exact ⟨a, hprev, (hmapped a).trans ha⟩
    · exact ⟨h, rfl, hh₂⟩
  refine ⟨m₁, hadd, fun hzs => ?_, fun hzs => ?_⟩
  · rw [hloop]
    rw [if_pos hzs] at hnext
    obtain ⟨m₃, hdel, r₃⟩ := listDel_spec hn₂ hp (hnext₂.trans hnext) hps hn₂
    have hn₃ : m₃.load (some n) = some ⟨none, none⟩ := by
      rw [Heap.load_eq ((r₃.mapped n).trans hn₂), r₃.next, r₃.prev, Function.update_self,
        Function.update_self]
    have hagain : listDel m₃ (some n) = none := by
      simp [listDel, hn₃, listUnlink, Heap.setPrev]
    simp only [forEachSafe, if_neg hnh, Option.bind_some, deleteAt, hdel, Option.map_some, hnext,
      hn₃, hagain, Option.map_none]
  · rw [if_neg hzs] at hnext
    obtain ⟨m₃, hdel, r₃⟩ := listDel_spec hn₂ hp (hnext₂.trans hnext) hps hh₂
    refine ⟨m₃, ?_⟩
    rw [hloop]
    simp only [forEachSafe, if_neg hnh, Option.bind_some, deleteAt, hdel, Option.map_some, hnext,
      Heap.load_eq ((r₃.mapped h).trans hh₂), if_true]

end

/-- The second of two nodes is added again. -/
theorem readd_drain_two : ∃ m m' : Heap Nat, listAddTail m (some 2) (some 0) = some m' ∧
    listForEachSafe Prod.fst deleteAt 0 3 (m', []) = .crash := by
  obtain ⟨L, hrun, hL⟩ := run_two
  obtain ⟨m, -, hm⟩ := hrun.exec (m := fun _ => some ⟨none, none⟩) ⟨fun _ _ => rfl, Ring.Rings.empty⟩
  obtain ⟨m', hadd, hcrash, -⟩ := readd_drain hm hL (show [1].length + 2 ≤ 3 by decide)
  exact ⟨m, m', hadd, hcrash rfl⟩

end Libhp.Klist
