import Libhp.Pub.Klist

/-!
# Runs of list operations

What `klist.h` is for: heads with lists of nodes, no node in two of them. The operations
as changes of these lists, and that memory follows them through any run of operations
which adds only nodes that are in no list and deletes only nodes that are in one.
-/
namespace Libhp.Klist

open Ring

/-- The nodes behind each head. -/
abbrev Lists (α : Type) := α → Option (List α)

inductive Op (α : Type) where
  | init (n : α)
  | add (n h : α)
  | addTail (n h : α)
  | del (n : α)
  | delInit (n : α)
  | move (n h : α)
  | moveTail (n h : α)
  | splice (l h : α)
  | spliceInit (l h : α)

section
variable {α : Type} [DecidableEq α]

/-- The call of the function. -/
def Heap.exec (m : Heap α) : Op α → Option (Heap α)
  | .init n => initListHead m (some n)
  | .add n h => klistAdd m (some n) (some h)
  | .addTail n h => listAddTail m (some n) (some h)
  | .del n => listDel m (some n)
  | .delInit n => listDelInit m (some n)
  | .move n h => listMove m (some n) (some h)
  | .moveTail n h => listMoveTail m (some n) (some h)
  | .splice l h => listSplice m (some l) (some h)
  | .spliceInit l h => listSpliceInit m (some l) (some h)

def put (L : Lists α) (h : α) (xs : List α) : Lists α := Function.update L h (some xs)

def forget (L : Lists α) (h : α) : Lists α := Function.update L h none

omit [DecidableEq α] in
/-- The node is behind no head; it may be a head. -/
def Unlisted (L : Lists α) (n : α) : Prop := ∀ k ys, L k = some ys → n ∉ ys

/-- What an operation is for. A head that is added to a list, or spliced, is a head no more. -/
inductive Does (mapped : α → Prop) : Op α → Lists α → Lists α → Prop where
  | init {L n} : mapped n → Unlisted L n → Does mapped (.init n) L (put (forget L n) n [])
  | add {L n h xs} : mapped n → Unlisted L n → n ≠ h → L h = some xs →
      Does mapped (.add n h) L (put (forget L n) h (n :: xs))
  | addTail {L n h xs} : mapped n → Unlisted L n → n ≠ h → L h = some xs →
      Does mapped (.addTail n h) L (put (forget L n) h (xs ++ [n]))
  | del {L n h ys zs} : L h = some (ys ++ [n] ++ zs) → Does mapped (.del n) L (put L h (ys ++ zs))
  | delAlone {L n} : L n = some [] → Does mapped (.del n) L (forget L n)
  | delInit {L n h ys zs} : L h = some (ys ++ [n] ++ zs) →
      Does mapped (.delInit n) L (put (put L h (ys ++ zs)) n [])
  | delInitAlone {L n} : L n = some [] → Does mapped (.delInit n) L L
  | move {L n k ys zs h xs} : L k = some (ys ++ [n] ++ zs) → put L k (ys ++ zs) h = some xs →
      Does mapped (.move n h) L (put (put L k (ys ++ zs)) h (n :: xs))
  | moveTail {L n k ys zs h xs} : L k = some (ys ++ [n] ++ zs) → put L k (ys ++ zs) h = some xs →
      Does mapped (.moveTail n h) L (put (put L k (ys ++ zs)) h (xs ++ [n]))
  | splice {L l h xs zs} : L l = some xs → L h = some zs → l ≠ h → xs ≠ [] →
      Does mapped (.splice l h) L (put (forget L l) h (xs ++ zs))
  | spliceNone {L l h} : L l = some [] → Does mapped (.splice l h) L L
  | spliceInit {L l h xs zs} : L l = some xs → L h = some zs → l ≠ h → xs ≠ [] →
      Does mapped (.spliceInit l h) L (put (put (forget L l) h (xs ++ zs)) l [])
  | spliceInitNone {L l h} : L l = some [] → Does mapped (.spliceInit l h) L L

/-- Memory has the lists. -/
structure Holds (mapped : α → Prop) (m : Heap α) (L : Lists α) : Prop where
  mapped : ∀ x, mapped x → (m x).isSome
  rings : Rings m.next m.prev L

variable {mapped : α → Prop} {m m' : Heap α} {L : Lists α} {a b h n : α}
variable {xs ys zs as bs : List α} {v w : Option α}

omit [DecidableEq α] in
theorem Holds.isSome (hm : Holds mapped m L) (hh : L h = some xs) (hn : n ∈ h :: xs) :
    (m n).isSome :=
  Heap.isSome_of_next ((hm.rings.ring h xs hh).isSome hn)

omit [DecidableEq α] in
theorem Holds.relinked {next prev : α → Option α} {L' : Lists α} (hm : Holds mapped m L)
    (hr : Relinked m m' next prev) (hrings : Rings m'.next m'.prev L') : Holds mapped m' L' :=
  ⟨fun x hx => (hr.mapped x).trans (hm.mapped x hx), hrings⟩

theorem Holds.free_links (hm : Holds mapped m L) (hfree : Free L n)
    (hr : Relinked m m' (Function.update m.next n v) (Function.update m.prev n w)) :
    Holds mapped m' L := by
  refine hm.relinked hr (hm.rings.congr fun x hx => ?_)
  have hne : x ≠ n := fun heq => hx (heq ▸ hfree)
  rw [hr.next, hr.prev, Function.update_of_ne hne, Function.update_of_ne hne]
  exact ⟨rfl, rfl⟩

/-- A node that is no element of a list is free once it is not taken for a head. -/
theorem Holds.forget (hm : Holds mapped m L) (hn : Unlisted L n) :
    Holds mapped m (forget L n) ∧ Free (Klist.forget L n) n := by
  refine ⟨⟨hm.mapped, hm.rings.drop n⟩, fun k ys hk hin => ?_⟩
  by_cases hkn : k = n
  · subst hkn
    rw [Klist.forget, Function.update_self] at hk
    cases hk
  · rw [Klist.forget, Function.update_of_ne hkn] at hk
    rcases List.mem_cons.mp hin with heq | hin
    · exact hkn heq.symm
    · exact hn k ys hk hin

theorem Holds.init (hm : Holds mapped m L) (hn : (m n).isSome) (hfree : Free L n) :
    ∃ m', initListHead m (some n) = some m' ∧ Holds mapped m' (put L n []) := by
  obtain ⟨m', heq, hr⟩ := initListHead_spec hn
  refine ⟨m', heq, hm.relinked hr (hm.rings.init hfree (fun x => ?_) fun x => ?_)⟩
  · rw [hr.next, Function.update_apply]
  · rw [hr.prev, Function.update_apply]

theorem Holds.insert (hm : Holds mapped m L) (hn : (m n).isSome) (hh : L h = some (ys ++ zs))
    (hfree : Free L n) (hys : h :: ys = as ++ [a]) (hzs : zs ++ [h] = b :: bs) :
    ∃ m', listInsert m (some n) (some a) (some b) = some m' ∧
      Holds mapped m' (put L h (ys ++ [n] ++ zs)) := by
  have ha := hm.isSome hh (mem_before zs hys)
  have hb := hm.isSome hh (mem_after ys hzs)
  have hbn : b ≠ n := ne_of_mem_of_not_mem (mem_after ys hzs) (hfree h _ hh)
  obtain ⟨m', heq, hr⟩ := listInsert_spec hn ha hb
  refine ⟨m', heq, hm.relinked hr (hm.rings.insert hh hfree hys hzs (fun x => ?_) fun x => ?_)⟩
  · rw [hr.next, Function.update_apply, Function.update_apply]
  · rw [hr.prev, Function.update_comm hbn, Function.update_apply, Function.update_apply]

theorem Holds.add (hm : Holds mapped m L) (hn : (m n).isSome) (hfree : Free L n)
    (hh : L h = some xs) : ∃ m', klistAdd m (some n) (some h) = some m' ∧
      Holds mapped m' (put L h (n :: xs)) := by
  obtain ⟨b, bs, hb⟩ := exists_after xs h
  obtain ⟨as, a, ha⟩ := exists_before h xs
  obtain ⟨m', heq, hm'⟩ := hm.insert hn hh hfree (List.nil_append [h]).symm hb
  refine ⟨m', ?_, hm'⟩
  rw [klistAdd, Heap.load_eq (hm.isSome hh List.mem_cons_self),
    ((hm.rings.ring h xs hh).ends ha hb).1]
  exact heq

theorem Holds.addTail (hm : Holds mapped m L) (hn : (m n).isSome) (hfree : Free L n)
    (hh : L h = some xs) : ∃ m', listAddTail m (some n) (some h) = some m' ∧
      Holds mapped m' (put L h (xs ++ [n])) := by
  obtain ⟨b, bs, hb⟩ := exists_after xs h
  obtain ⟨as, a, ha⟩ := exists_before h xs
  have hxs : L h = some (xs ++ []) := by rwa [List.append_nil]
  obtain ⟨m', heq, hm'⟩ := hm.insert hn hxs hfree ha rfl
  refine ⟨m', ?_, by rwa [List.append_nil] at hm'⟩
  rw [listAddTail, Heap.load_eq (hm.isSome hh List.mem_cons_self),
    ((hm.rings.ring h xs hh).ends ha hb).2]
  exact heq

/-- `__list_del` with the links of a node that is in a list. -/
theorem Holds.unlink (hm : Holds mapped m L) (hh : L h = some (ys ++ [n] ++ zs)) :
    ∃ e m', m.load (some n) = some e ∧ listUnlink m e.prev e.next = some m' ∧
      Holds mapped m' (put L h (ys ++ zs)) ∧ Free (put L h (ys ++ zs)) n ∧ (m' n).isSome := by
  obtain ⟨as, a, hys⟩ := exists_before h ys
  obtain ⟨b, bs, hzs⟩ := exists_after zs h
  have hring := hm.rings.ring h _ hh
  obtain ⟨hnext, hprev⟩ := hring.neighbours hys hzs
  have hn : (m n).isSome := hm.isSome hh (by simp)
  have hkept : ∀ x ∈ h :: (ys ++ zs), x ∈ h :: (ys ++ [n] ++ zs) := by
    intro x hx
    simp only [List.mem_cons, List.mem_append] at hx ⊢
    tauto
  have ha := hm.isSome hh (hkept a (mem_before zs hys))
  have hb := hm.isSome hh (hkept b (mem_after ys hzs))
  obtain ⟨m', heq, hr⟩ := listUnlink_spec ha hb
  refine ⟨_, m', Heap.load_eq hn, by rw [hnext, hprev]; exact heq, ?_⟩
  have hnext' : ∀ x, m'.next x = if x = a then some b else m.next x := fun x => by
    rw [hr.next, Function.update_apply]
  have hprev' : ∀ x, m'.prev x = if x = b then some a else m.prev x := fun x => by
    rw [hr.prev, Function.update_apply]
  obtain ⟨hrings, hfree⟩ := hm.rings.erase hh hys hzs (fun x _ => hnext' x) fun x _ => hprev' x
  exact ⟨hm.relinked hr hrings, hfree, (hr.mapped n).trans hn⟩

omit [DecidableEq α] in
theorem update_same [DecidableEq α] {f : α → Option α} (hf : f n = v) : Function.update f n v = f :=
  Function.update_eq_iff.mpr ⟨hf.symm, fun _ _ => rfl⟩

/-- `__list_del` with the links of a head that has no nodes changes nothing. -/
theorem Holds.unlink_alone (hm : Holds mapped m L) (hn : L n = some []) :
    ∃ e m', m.load (some n) = some e ∧ listUnlink m e.prev e.next = some m' ∧
      Holds mapped m' L ∧ (m' n).isSome := by
  have hsome : (m n).isSome := hm.isSome hn List.mem_cons_self
  obtain ⟨hnext, hprev⟩ := (hm.rings.ring n [] hn).ends_nil
  obtain ⟨m', heq, hr⟩ := listUnlink_spec hsome hsome
  refine ⟨_, m', Heap.load_eq hsome, by rw [hnext, hprev]; exact heq, ?_, (hr.mapped n).trans hsome⟩
  refine hm.relinked hr (hm.rings.congr fun x _ => ?_)
  rw [hr.next, hr.prev, update_same hnext, update_same hprev]
  exact ⟨rfl, rfl⟩

/-- `list_del` sets the links of a node that is now free to NULL. -/
theorem Holds.clear (hm : Holds mapped m L) (hn : (m n).isSome) (hfree : Free L n) :
    ∃ m₁ m₂, m.setNext (some n) none = some m₁ ∧ m₁.setPrev (some n) none = some m₂ ∧
      Holds mapped m₂ L := by
  obtain ⟨m₁, h₁, r₁⟩ := (Relinked.refl m).setNext (v := none) hn
  obtain ⟨m₂, h₂, r₂⟩ := r₁.setPrev (v := none) hn
  exact ⟨m₁, m₂, h₁, h₂, hm.free_links hfree r₂⟩

theorem Holds.del (hm : Holds mapped m L) (hh : L h = some (ys ++ [n] ++ zs)) :
    ∃ m', listDel m (some n) = some m' ∧ Holds mapped m' (put L h (ys ++ zs)) ∧
      Free (put L h (ys ++ zs)) n := by
  obtain ⟨e, m₁, hload, h₁, hm₁, hfree, hn⟩ := hm.unlink hh
  obtain ⟨m₂, m₃, h₂, h₃, hm₃⟩ := hm₁.clear hn hfree
  exact ⟨m₃, by simp [listDel, hload, h₁, h₂, h₃], hm₃, hfree⟩

/-- A node that is in no list is made, changed or freed. -/
theorem Holds.store {mapped' : α → Prop} {c : Option (ListHead α)} (hm : Holds mapped m L)
    (hfree : Free L n) (hkeep : ∀ x, mapped' x → x ≠ n → mapped x) (hn : mapped' n → c.isSome) :
    Holds mapped' (Function.update m n c) L := by
  refine ⟨fun x hx => ?_, hm.rings.congr fun x hx => ?_⟩
  · by_cases hxn : x = n
    · subst hxn
      rw [Function.update_self]
      exact hn hx
    · rw [Function.update_of_ne hxn]
      exact hm.mapped x (hkeep x hx hxn)
  · have hxn : x ≠ n := fun heq => hx (heq ▸ hfree)
    rw [Heap.next, Heap.prev, Function.update_of_ne hxn]
    exact ⟨rfl, rfl⟩

/-- `__list_splice` of a list that is not empty. -/
theorem Holds.join {l : α} (hm : Holds mapped m L) (hl : L l = some xs) (hh : L h = some zs)
    (hne : l ≠ h) (hxs : xs ≠ []) : ∃ m', listJoin m (some l) (some h) = some m' ∧
      Holds mapped m' (put (Klist.forget L l) h (xs ++ zs)) ∧
      Free (put (Klist.forget L l) h (xs ++ zs)) l ∧ (m' l).isSome := by
  obtain ⟨a, as, hfirst⟩ := List.exists_cons_of_ne_nil hxs
  obtain ⟨bs, b, hlast⟩ : ∃ bs b, xs = bs ++ [b] :=
    ⟨_, _, (List.dropLast_append_getLast hxs).symm⟩
  obtain ⟨c, cs, hzs⟩ := exists_after zs h
  obtain ⟨ds, d, hd⟩ := exists_before h zs
  have hbefore : l :: xs = (l :: bs) ++ [b] := by rw [hlast, List.cons_append]
  have hafter : xs ++ [l] = a :: (as ++ [l]) := by rw [hfirst, List.cons_append]
  obtain ⟨hlnext, hlprev⟩ := (hm.rings.ring l xs hl).ends hbefore hafter
  obtain ⟨hhnext, -⟩ := (hm.rings.ring h zs hh).ends hd hzs
  have hain : a ∈ xs := hfirst ▸ List.mem_cons_self
  have hbin : b ∈ xs := hlast ▸ List.mem_append_right _ (List.mem_singleton_self b)
  have hcin : c ∈ h :: zs := mem_after [] hzs
  have hls : (m l).isSome := hm.isSome hl List.mem_cons_self
  have hhs : (m h).isSome := hm.isSome hh List.mem_cons_self
  have has : (m a).isSome := hm.isSome hl (List.mem_cons_of_mem _ hain)
  have hbs : (m b).isSome := hm.isSome hl (List.mem_cons_of_mem _ hbin)
  have hcs : (m c).isSome := hm.isSome hh hcin
  have hapart : ∀ x ∈ xs, x ∉ h :: zs := fun x hx hx' =>
    hne (hm.rings.apart l xs h zs x hl hh (List.mem_cons_of_mem _ hx) hx')
  obtain ⟨m₁, h₁, r₁⟩ := (Relinked.refl m).setPrev (v := some h) has
  obtain ⟨m₂, h₂, r₂⟩ := r₁.setNext (v := some a) hhs
  obtain ⟨m₃, h₃, r₃⟩ := r₂.setNext (v := some c) hbs
  obtain ⟨m₄, h₄, r₄⟩ := r₃.setPrev (v := some b) hcs
  have hnext₄ : ∀ x, m₄.next x = if x = b then some c else if x = h then some a else m.next x :=
    fun x => by rw [r₄.next, Function.update_apply, Function.update_apply]
  have hprev₄ : ∀ x, m₄.prev x = if x = c then some b else if x = a then some h else m.prev x :=
    fun x => by rw [r₄.prev, Function.update_apply, Function.update_apply]
  obtain ⟨hrings, hfree⟩ := hm.rings.splice hh hl hne hfirst hlast hzs (fun x _ => hnext₄ x)
    fun x _ => hprev₄ x
  refine ⟨m₄, ?_, hm.relinked r₄ hrings, hfree, (r₄.mapped l).trans hls⟩
  simp [listJoin, Heap.load_eq hls, Heap.load_eq hhs, hlnext, hlprev, hhnext, h₁, h₂, h₃, h₄]

theorem Holds.empty (hm : Holds mapped m L) (hh : L h = some xs) :
    listEmpty m (some h) = some (decide (xs = [])) := by
  obtain ⟨b, bs, hb⟩ := exists_after xs h
  obtain ⟨as, a, ha⟩ := exists_before h xs
  have hring := hm.rings.ring h xs hh
  rw [listEmpty, Heap.load_eq (hm.isSome hh List.mem_cons_self), (hring.ends ha hb).1,
    Option.map_some, Option.some.injEq, decide_eq_decide]
  cases xs with
  | nil => exact iff_of_true (congrArg some (List.cons.inj hb).1.symm) rfl
  | cons x xs =>
    refine iff_of_false (fun heq => ?_) (List.cons_ne_nil x xs)
    have hxb : x = b := (List.cons.inj hb).1
    rw [← hxb, Option.some.injEq] at heq
    exact (List.nodup_cons.mp hring.nodup).1 (heq ▸ List.mem_cons_self)

/-- An operation that is in order can be called, and memory has the lists it is for. -/
theorem Does.exec {op : Op α} {L' : Lists α} (hm : Holds mapped m L) (hdoes : Does mapped op L L') :
    ∃ m', m.exec op = some m' ∧ Holds mapped m' L' := by
  cases hdoes with
  | init hn hun =>
    obtain ⟨hm', hfree⟩ := hm.forget hun
    exact hm'.init (hm.mapped _ hn) hfree
  | add hn hun hne hh =>
    obtain ⟨hm', hfree⟩ := hm.forget hun
    exact hm'.add (hm.mapped _ hn) hfree ((Function.update_of_ne hne.symm _ _).trans hh)
  | addTail hn hun hne hh =>
    obtain ⟨hm', hfree⟩ := hm.forget hun
    exact hm'.addTail (hm.mapped _ hn) hfree ((Function.update_of_ne hne.symm _ _).trans hh)
  | del hh =>
    obtain ⟨m₁, h₁, hm₁, -⟩ := hm.del hh
    exact ⟨m₁, h₁, hm₁⟩
  | delAlone hn =>
    obtain ⟨e, m₁, hload, h₁, hm₁, hsome⟩ := hm.unlink_alone hn
    obtain ⟨hm₁, hfree⟩ := hm₁.forget (n := _) fun k ys hk hin => by
      have heq := hm.rings.apart k ys _ [] _ hk hn (List.mem_cons_of_mem _ hin) List.mem_cons_self
      subst heq
      rw [hn] at hk
      cases hk
      cases hin
    obtain ⟨m₂, m₃, h₂, h₃, hm₃⟩ := hm₁.clear hsome hfree
    exact ⟨m₃, by simp [Heap.exec, listDel, hload, h₁, h₂, h₃], hm₃⟩
  | delInit hh =>
    obtain ⟨e, m₁, hload, h₁, hm₁, hfree, hsome⟩ := hm.unlink hh
    obtain ⟨m₂, h₂, hm₂⟩ := hm₁.init hsome hfree
    exact ⟨m₂, by simp [Heap.exec, listDelInit, hload, h₁, h₂], hm₂⟩
  | delInitAlone hn =>
    obtain ⟨e, m₁, hload, h₁, hm₁, hsome⟩ := hm.unlink_alone hn
    obtain ⟨hnext, hprev⟩ := (hm₁.rings.ring _ _ hn).ends_nil
    obtain ⟨m₂, h₂, r₂⟩ := initListHead_spec hsome
    refine ⟨m₂, by simp [Heap.exec, listDelInit, hload, h₁, h₂], hm₁.relinked r₂ ?_⟩
    apply hm₁.rings.congr
    intro x _
    rw [r₂.next, r₂.prev, update_same hnext, update_same hprev]
    exact ⟨rfl, rfl⟩
  | move hk hh =>
    obtain ⟨e, m₁, hload, h₁, hm₁, hfree, hsome⟩ := hm.unlink hk
    obtain ⟨m₂, h₂, hm₂⟩ := hm₁.add hsome hfree hh
    exact ⟨m₂, by simp [Heap.exec, listMove, hload, h₁, h₂], hm₂⟩
  | moveTail hk hh =>
    obtain ⟨e, m₁, hload, h₁, hm₁, hfree, hsome⟩ := hm.unlink hk
    obtain ⟨m₂, h₂, hm₂⟩ := hm₁.addTail hsome hfree hh
    exact ⟨m₂, by simp [Heap.exec, listMoveTail, hload, h₁, h₂], hm₂⟩
  | splice hl hh hne hxs =>
    obtain ⟨m₁, h₁, hm₁, -, -⟩ := hm.join hl hh hne hxs
    refine ⟨m₁, ?_, hm₁⟩
    simp [Heap.exec, listSplice, hm.empty hl, decide_eq_false hxs, h₁]
  | spliceNone hl => exact ⟨m, by simp [Heap.exec, listSplice, hm.empty hl], hm⟩
  | spliceInit hl hh hne hxs =>
    obtain ⟨m₁, h₁, hm₁, hfree, hsome⟩ := hm.join hl hh hne hxs
    obtain ⟨m₂, h₂, hm₂⟩ := hm₁.init hsome hfree
    refine ⟨m₂, ?_, hm₂⟩
    simp [Heap.exec, listSpliceInit, hm.empty hl, decide_eq_false hxs, h₁, h₂]
  | spliceInitNone hl => exact ⟨m, by simp [Heap.exec, listSpliceInit, hm.empty hl], hm⟩

/-- One operation after the other. -/
inductive Run (mapped : α → Prop) : List (Op α) → Lists α → Lists α → Prop where
  | nil (K) : Run mapped [] K K
  | cons {op ops K₁ K₂ K₃} : Does mapped op K₁ K₂ → Run mapped ops K₂ K₃ →
      Run mapped (op :: ops) K₁ K₃

theorem Run.exec {ops : List (Op α)} {L' : Lists α} (hrun : Run mapped ops L L')
    (hm : Holds mapped m L) :
    ∃ m', ops.foldlM Heap.exec m = some m' ∧ Holds mapped m' L' := by
  induction hrun generalizing m with
  | nil => exact ⟨m, rfl, hm⟩
  | cons hdoes _ ih =>
    obtain ⟨m₁, h₁, hm₁⟩ := hdoes.exec hm
    obtain ⟨m₂, h₂, hm₂⟩ := ih hm₁
    exact ⟨m₂, by rw [List.foldlM_cons, h₁]; exact h₂, hm₂⟩

/-- Following a link from `a` comes to the nodes of a chain that ends at the head. -/
theorem walk_chain {link : ListHead α → Option α} {back : α → Option α} {fuel : Nat}
    (hc : Chain (fun x => (m x).bind link) back (a :: xs ++ [h])) (hh : h ∉ xs)
    (hfuel : xs.length < fuel) (seen : List α) :
    walk link m h fuel ((m a).bind link) seen = .done (seen ++ xs) := by
  induction xs generalizing a seen fuel with
  | nil =>
    cases fuel with
    | zero => cases hfuel
    | succ fuel =>
      have hnext : (m a).bind link = some h := (List.isChain_pair.mp hc).1
      simp only [walk, hnext, if_true, List.append_nil]
  | cons x xs ih =>
    cases fuel with
    | zero => cases hfuel
    | succ fuel =>
      obtain ⟨hnext, hrest⟩ := List.isChain_cons_cons.mp hc
      have hax : (m a).bind link = some x := hnext.1
      have hxh : some x ≠ some h := fun heq => hh (Option.some.inj heq ▸ List.mem_cons_self)
      obtain ⟨y, ys, hys⟩ := exists_after xs h
      obtain ⟨c, hmx⟩ : ∃ c, m x = some c := by
        have hrest' : Chain (fun x => (m x).bind link) back (x :: (xs ++ [h])) := hrest
        rw [Chain, hys] at hrest'
        obtain ⟨c, hmx, -⟩ := Option.bind_eq_some_iff.mp (List.isChain_cons_cons.mp hrest').1.1
        exact ⟨c, hmx⟩
      have hrec := ih hrest (fun hin => hh (List.mem_cons_of_mem _ hin))
        (Nat.lt_of_succ_lt_succ hfuel)
      rw [hmx, Option.bind_some] at hrec
      simp only [walk, hax, if_neg hxh, hmx, hrec, List.append_assoc, List.singleton_append]

/-- What memory says of a list, read either way. -/
theorem Holds.reads (hm : Holds mapped m L) (hh : L h = some xs) {fuel : Nat}
    (hfuel : xs.length < fuel) :
    listForEach m h fuel = .done xs ∧ listForEachPrev m h fuel = .done xs.reverse := by
  have hring := hm.rings.ring h xs hh
  have hnot : h ∉ xs := (List.nodup_cons.mp hring.nodup).1
  obtain ⟨c, hc⟩ := Option.isSome_iff_exists.mp (hm.isSome hh List.mem_cons_self)
  constructor
  · have hwalk := @walk_chain _ _ _ _ _ _ ListHead.next _ _ hring.chain hnot hfuel []
    rw [hc, Option.bind_some] at hwalk
    rw [listForEach, hc]
    exact hwalk
  · have hback : Chain m.prev m.next (h :: xs.reverse ++ [h]) := by
      have hrev : h :: xs.reverse ++ [h] = (h :: xs ++ [h]).reverse := by simp
      rw [Chain, hrev, List.isChain_reverse]
      exact List.IsChain.imp (fun _ _ hj => ⟨hj.2, hj.1⟩) hring.chain
    have hwalk := @walk_chain _ _ _ _ _ _ ListHead.prev _ _ hback
      (fun hin => hnot (List.mem_reverse.mp hin)) (by rwa [List.length_reverse]) []
    rw [hc, Option.bind_some] at hwalk
    rw [listForEachPrev, hc]
    exact hwalk

/-- No operation of a run that is in order reads or writes through NULL, and afterwards
each list reads as it should, forwards and backwards. -/
theorem run_reads {ops : List (Op α)} (hmapped : ∀ x, mapped x → (m x).isSome)
    (hrun : Run mapped ops (fun _ => none) L) :
    ∃ m', ops.foldlM Heap.exec m = some m' ∧ ∀ h xs, L h = some xs →
      listEmpty m' (some h) = some (decide (xs = [])) ∧ ∀ fuel, xs.length < fuel →
        listForEach m' h fuel = .done xs ∧ listForEachPrev m' h fuel = .done xs.reverse := by
  obtain ⟨m', hexec, hm'⟩ := hrun.exec ⟨hmapped, Rings.empty⟩
  exact ⟨m', hexec, fun h xs hh => ⟨hm'.empty hh, fun _ hfuel => hm'.reads hh hfuel⟩⟩

end

/-- Two nodes are added to a list. -/
theorem run_two : ∃ L, Run (fun _ : Nat => True) [.init 0, .addTail 1 0, .addTail 2 0]
    (fun _ => none) L ∧ L 0 = some ([1] ++ [2] ++ []) := by
  have h₀ : Unlisted (fun _ : Nat => none) 0 := fun _ _ hk => (Option.some_ne_none _ hk.symm).elim
  have hun : ∀ (n : Nat) xs, n ∉ xs →
      Unlisted (put (forget (fun _ => none) 0) 0 xs) n := by
    intro n xs hn k ys hk
    by_cases hk0 : k = 0
    · subst hk0
      rw [put, Function.update_self] at hk
      cases hk
      exact hn
    · rw [put, Function.update_of_ne hk0, forget, Function.update_of_ne hk0] at hk
      cases hk
  refine ⟨_, .cons (.init trivial h₀) (.cons (.addTail (h := 0) trivial
    (hun 1 [] (by simp)) (by decide) rfl) (.cons (.addTail (h := 0) trivial
      ?_ (by decide) rfl) (.nil _))), rfl⟩
  have heq : put (forget (put (forget (fun _ => none) 0) 0 []) 1) 0 ([] ++ [1]) =
      put (forget (fun _ => none) 0) 0 [1] := by
    funext k
    by_cases hk : k = 0
    · subst hk
      rfl
    · by_cases hk1 : k = 1
      · subst hk1
        rfl
      · simp [put, forget, Function.update_of_ne hk, Function.update_of_ne hk1]
  rw [heq]
  exact hun 2 [1] (by simp)

theorem run_reads_two : ∃ m', [Op.init 0, .addTail 1 0, .addTail 2 0].foldlM Heap.exec
      (fun _ : Nat => some ⟨none, none⟩) = some m' ∧
    listForEach m' 0 3 = .done [1, 2] ∧ listForEachPrev m' 0 3 = .done [2, 1] := by
  obtain ⟨L, hrun, hL⟩ := run_two
  obtain ⟨m', hexec, hall⟩ := run_reads (m := fun _ => some ⟨none, none⟩) (fun _ _ => rfl) hrun
  exact ⟨m', hexec, (hall 0 _ hL).2 3 (by decide)⟩

end Libhp.Klist
