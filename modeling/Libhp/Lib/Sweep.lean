import Mathlib.Tactic

/-!
# Sweeps

A loop that visits a list of keys by index, while each visit may take keys out of the list,
anywhere, and put new ones at its end. Which of the keys that were there when it started
does it serve? The turn of a key is over when it, or one registered behind it, is served.
-/
namespace Sweep
variable {κ : Type} [DecidableEq κ]

/-- One visit: the key served, the keys up to its place, and those removed meanwhile. -/
structure Turn (κ : Type) where
  key : κ
  upto : List κ
  removed : List κ
  deriving DecidableEq, Repr

/-- The keys after a visit: those not removed, in order, and new ones behind them. -/
structure Changed (keys removed keys' : List κ) : Prop where
  nodup : keys'.Nodup
  kept : keys.filter (· ∉ removed) <+: keys'

/-- The turns that a sweep takes from index `i` on. -/
inductive Turns : List κ → Nat → List (Turn κ) → Prop
  | done {keys i} (h : keys.length ≤ i) : Turns keys i []
  | visit {keys keys' i ts} {t : Turn κ} (hkey : keys[i]? = some t.key)
      (hupto : t.upto = keys.take (i + 1)) (hnext : Changed keys t.removed keys')
      (hrest : Turns keys' (i + 1) ts) : Turns keys i (t :: ts)

/-- What has become of the keys that a sweep started with. -/
structure Round (κ : Type) where
  /-- not removed since the start -/
  original : List κ
  /-- not removed, and their turn has not come -/
  waiting : List κ
  /-- served while original, once for each time -/
  served : List κ
  /-- removed before their turn -/
  dropped : List κ
  deriving DecidableEq, Repr

def Round.start (keys : List κ) : Round κ := ⟨keys, keys, [], []⟩

def Round.turn (r : Round κ) (t : Turn κ) : Round κ :=
  let behind := (r.waiting.dropWhile (· ≠ t.key)).tail
  { original := r.original.filter (· ∉ t.removed)
    waiting := behind.filter (· ∉ t.removed)
    served := if t.key ∈ r.original then t.key :: r.served else r.served
    dropped := r.dropped ++ behind.filter (· ∈ t.removed) }

def Round.run (r : Round κ) (ts : List (Turn κ)) : Round κ := ts.foldl Round.turn r

/-- Every key of the start that is not removed before its turn is served exactly once. -/
def Once (keys : List κ) (ts : List (Turn κ)) : Prop :=
  ∀ k ∈ keys, k ∉ ((Round.start keys).run ts).dropped →
    ((Round.start keys).run ts).served.count k = 1

/-- A visit that removes a key at its own place or before leaves no key waiting. -/
def InPlace (r : Round κ) : List (Turn κ) → Prop
  | [] => True
  | t :: ts => ((∃ k ∈ t.upto, k ∈ t.removed) → (r.turn t).waiting = []) ∧ InPlace (r.turn t) ts

instance decidableInPlace : (r : Round κ) → (ts : List (Turn κ)) → Decidable (InPlace r ts)
  | _, [] => isTrue trivial
  | r, t :: ts => @instDecidableAnd _ _ inferInstance (decidableInPlace (r.turn t) ts)

instance (keys : List κ) (ts : List (Turn κ)) : Decidable (Once keys ts) :=
  inferInstanceAs (Decidable (∀ k ∈ keys, _))

section
variable {keys keys' removed : List κ}

theorem Changed.refl (h : keys.Nodup) : Changed keys [] keys :=
  ⟨h, by simp⟩

/-- A key that is put behind the others at first. -/
theorem Changed.of_concat {k : κ} (h : Changed (keys ++ [k]) removed keys') :
    Changed keys removed keys' := by
  refine ⟨h.nodup, List.IsPrefix.trans ?_ h.kept⟩
  rw [List.filter_append]
  exact List.prefix_append _ _

/-- A key that is removed at first. -/
theorem Changed.of_erase {k : κ} (hnodup : keys.Nodup)
    (h : Changed (keys.erase k) removed keys') : Changed keys (k :: removed) keys' := by
  refine ⟨h.nodup, ?_⟩
  have hkept := h.kept
  rw [hnodup.erase_eq_filter, List.filter_filter] at hkept
  convert hkept using 2
  funext a
  by_cases ha : a = k <;> simp [ha]

/-- Removals and additions move a key towards the front only. -/
theorem Changed.mem_take (h : Changed keys removed keys') {k : κ} {i : Nat}
    (hk : k ∈ keys.take i) (hstay : k ∉ removed) : k ∈ keys'.take i := by
  have hin : k ∈ (keys.take i).filter (· ∉ removed) := List.mem_filter.mpr ⟨hk, by simpa using hstay⟩
  have hsplit : (keys.take i).filter (· ∉ removed) <+: keys' := by
    refine List.IsPrefix.trans ?_ h.kept
    exact (List.take_prefix i keys).filter _
  have hlen : ((keys.take i).filter (· ∉ removed)).length ≤ i :=
    (List.length_filter_le _ _).trans (List.length_take_le _ _)
  rw [List.prefix_iff_eq_take.mp hsplit] at hin
  exact List.take_subset_take_left _ hlen hin

/-- When nothing up to an index is removed, what stood behind it stays there. -/
theorem Changed.prefix_drop (h : Changed keys removed keys') {i : Nat} (hi : i ≤ keys.length)
    (hstay : ∀ k ∈ keys.take i, k ∉ removed) :
    (keys.drop i).filter (· ∉ removed) <+: keys'.drop i := by
  have hall : (keys.take i).filter (· ∉ removed) = keys.take i :=
    List.filter_eq_self.mpr fun k hk => by simpa using hstay k hk
  obtain ⟨new, hnew⟩ := h.kept
  rw [← List.take_append_drop i keys, List.filter_append, hall, List.append_assoc] at hnew
  rw [← hnew, List.drop_left' (List.length_take_of_le hi)]
  exact List.prefix_append _ _

end

section
variable {keys : List κ} {i : Nat} {r : Round κ} {t : Turn κ} {ts : List (Turn κ)}

/-- A waiting key is original, not served yet and not dropped. -/
structure Round.Fair (r : Round κ) : Prop where
  nodup : r.waiting.Nodup
  original : ∀ k ∈ r.waiting, k ∈ r.original
  unserved : ∀ k ∈ r.waiting, k ∉ r.served
  undropped : ∀ k ∈ r.waiting, k ∉ r.dropped

omit [DecidableEq κ] in
theorem Round.start_fair (h : keys.Nodup) : (Round.start keys).Fair := by
  constructor
  · exact h
  · exact fun k hk => hk
  · intro k _ hk
    cases hk
  · intro k _ hk
    cases hk

/-- The keys whose turn has not come after `key` is served. -/
theorem tail_dropWhile_sublist (key : κ) (l : List κ) :
    ((l.dropWhile (· ≠ key)).tail).Sublist l :=
  (List.tail_sublist _).trans (List.dropWhile_sublist _)

theorem not_mem_tail_dropWhile {key : κ} {l : List κ} (h : l.Nodup) :
    key ∉ (l.dropWhile (· ≠ key)).tail := by
  induction l with
  | nil => simp
  | cons a l ih =>
    by_cases ha : a = key
    · subst ha
      simpa using (List.nodup_cons.mp h).1
    · simpa [List.dropWhile_cons, ha] using ih (List.nodup_cons.mp h).2

theorem Round.mem_waiting_turn {k : κ} (hr : r.waiting.Nodup) (hk : k ∈ (r.turn t).waiting) :
    k ∈ r.waiting ∧ k ≠ t.key ∧ k ∉ t.removed := by
  obtain ⟨hbehind, hstay⟩ := List.mem_filter.mp hk
  refine ⟨(tail_dropWhile_sublist t.key _).subset hbehind, ?_, by simpa using hstay⟩
  rintro rfl
  exact not_mem_tail_dropWhile hr hbehind

theorem Round.count_served_turn {k : κ} (h : k ≠ t.key) :
    (r.turn t).served.count k = r.served.count k := by
  show List.count k (if _ then _ else _) = _
  split
  · exact List.count_cons_of_ne (Ne.symm h)
  · rfl

theorem Round.Fair.turn (h : r.Fair) : (r.turn t).Fair := by
  constructor
  · exact ((h.nodup.sublist (tail_dropWhile_sublist t.key _))).filter _
  · intro k hk
    obtain ⟨hin, -, hstay⟩ := mem_waiting_turn h.nodup hk
    exact List.mem_filter.mpr ⟨h.original k hin, by simpa using hstay⟩
  · intro k hk
    obtain ⟨hin, hne, -⟩ := mem_waiting_turn h.nodup hk
    rw [← List.count_eq_zero, count_served_turn hne, List.count_eq_zero]
    exact h.unserved k hin
  · intro k hk hdrop
    obtain ⟨hin, -, hstay⟩ := mem_waiting_turn h.nodup hk
    rcases List.mem_append.mp hdrop with hdrop | hdrop
    · exact h.undropped k hin hdrop
    · exact hstay (by simpa using (List.mem_filter.mp hdrop).2)

/-- The sweep is past `k`: what stands in its place or before is not served again. -/
structure Passed (keys : List κ) (i : Nat) (r : Round κ) (k : κ) : Prop where
  notWaiting : k ∉ r.waiting
  place : k ∈ r.original → k ∈ keys.take i

omit [DecidableEq κ] in
theorem Passed.ne_key {k : κ} (h : Passed keys i r k) (hnodup : keys.Nodup)
    (hkey : keys[i]? = some t.key) (hk : k ∈ r.original) : k ≠ t.key := by
  rintro rfl
  obtain ⟨hi, heq⟩ := List.getElem?_eq_some_iff.mp hkey
  obtain ⟨j, hj, hjk⟩ := List.mem_take_iff_getElem.mp (h.place hk)
  have hsame := (hnodup.getElem_inj_iff).mp (hjk.trans heq.symm)
  omega

theorem Passed.served_turn {k : κ} (h : Passed keys i r k) (hnodup : keys.Nodup)
    (hkey : keys[i]? = some t.key) : (r.turn t).served.count k = r.served.count k := by
  by_cases hk : k = t.key
  · have hgone : t.key ∉ r.original := fun hin => h.ne_key hnodup hkey (hk ▸ hin) hk
    show List.count k (if _ then _ else _) = _
    rw [if_neg hgone]
  · exact Round.count_served_turn hk

theorem Round.dropped_turn {k : κ} (h : k ∉ r.waiting) :
    k ∈ (r.turn t).dropped ↔ k ∈ r.dropped := by
  constructor
  · intro hk
    rcases List.mem_append.mp hk with hk | hk
    · exact hk
    · exact absurd ((tail_dropWhile_sublist t.key _).subset (List.mem_filter.mp hk).1) h
  · exact fun hk => List.mem_append_left _ hk

theorem Passed.turn {keys' : List κ} {k : κ} (h : Passed keys i r k)
    (hnext : Changed keys t.removed keys') : Passed keys' (i + 1) (r.turn t) k := by
  constructor
  · intro hk
    have hbehind := (List.mem_filter.mp hk).1
    exact h.notWaiting ((tail_dropWhile_sublist t.key _).subset hbehind)
  · intro hk
    obtain ⟨horig, hstay⟩ := List.mem_filter.mp hk
    have hplace := hnext.mem_take (h.place horig) (by simpa using hstay)
    exact List.take_subset_take_left _ (Nat.le_succ i) hplace

/-- For a key that it is past, the rest of the sweep changes nothing. -/
theorem Passed.run {k : κ} (hts : Turns keys i ts) (hnodup : keys.Nodup)
    (h : Passed keys i r k) :
    (r.run ts).served.count k = r.served.count k ∧ (k ∈ (r.run ts).dropped ↔ k ∈ r.dropped) := by
  induction hts generalizing r with
  | done => exact ⟨rfl, Iff.rfl⟩
  | visit hkey _ hnext _ ih =>
    obtain ⟨hserved, hdropped⟩ := ih hnext.nodup (h.turn hnext)
    exact ⟨hserved.trans (h.served_turn hnodup hkey),
      hdropped.trans (Round.dropped_turn h.notWaiting)⟩

theorem Round.dropped_run {k : κ} (h : k ∈ r.dropped) (ts : List (Turn κ)) :
    k ∈ (r.run ts).dropped := by
  induction ts generalizing r with
  | nil => exact h
  | cons t ts ih => exact ih (List.mem_append_left _ h)

omit [DecidableEq κ] in
/-- The waiting keys stand from the index on: the next key served is the first of them. -/
theorem first_waiting {f : κ} {rest : List κ} (hw : r.waiting = f :: rest)
    (hpre : r.waiting <+: keys.drop i) (hkey : keys[i]? = some t.key) : f = t.key := by
  obtain ⟨tail, htail⟩ := hpre
  rw [hw] at htail
  have hfirst : keys[i]? = some f := by
    have hget : (keys.drop i)[0]? = some f := by rw [← htail]; rfl
    rwa [List.getElem?_drop, Nat.add_zero] at hget
  exact Option.some.inj (hfirst.symm.trans hkey)

theorem Round.waiting_turn {rest : List κ} (hw : r.waiting = t.key :: rest) :
    (r.turn t).waiting = rest.filter (· ∉ t.removed) := by
  simp [Round.turn, hw]

omit [DecidableEq κ] in
theorem rest_stands {rest : List κ} {f : κ} (hw : r.waiting = f :: rest)
    (hpre : r.waiting <+: keys.drop i) : rest <+: keys.drop (i + 1) := by
  obtain ⟨tail, htail⟩ := hpre
  refine ⟨tail, ?_⟩
  rw [← List.drop_drop, ← htail, hw]
  rfl

/-- The places are kept by a visit that removes nothing up to its own. -/
theorem waiting_prefix_turn {keys' rest : List κ} (hw : r.waiting = t.key :: rest)
    (hpre : r.waiting <+: keys.drop i) (hkey : keys[i]? = some t.key)
    (hupto : t.upto = keys.take (i + 1)) (hnext : Changed keys t.removed keys')
    (hok : (∃ k ∈ t.upto, k ∈ t.removed) → (r.turn t).waiting = []) :
    (r.turn t).waiting <+: keys'.drop (i + 1) := by
  by_cases hout : ∃ k ∈ t.upto, k ∈ t.removed
  · rw [hok hout]
    exact List.nil_prefix
  · have hi : i + 1 ≤ keys.length := (List.getElem?_eq_some_iff.mp hkey).1
    have hstay : ∀ k ∈ keys.take (i + 1), k ∉ t.removed := by
      intro k hk hrem
      exact hout ⟨k, hupto ▸ hk, hrem⟩
    rw [Round.waiting_turn hw]
    exact ((rest_stands hw hpre).filter _).trans (hnext.prefix_drop hi hstay)

/-- If a visit does remove something up to its place, the first key that still waits slips to
its place or before. -/
theorem slips {keys' rest rest' : List κ} {f a : κ} (hw : r.waiting = t.key :: rest)
    (hpre : r.waiting <+: keys.drop i) (hupto : t.upto = keys.take (i + 1))
    (hnext : Changed keys t.removed keys') (hw' : (r.turn t).waiting = f :: rest')
    (ha : a ∈ t.upto) (hrem : a ∈ t.removed) : f ∈ keys'.take (i + 1) := by
  let front := (keys.take (i + 1)).filter (· ∉ t.removed)
  have hfront : front.length ≤ i := by
    have hlt : front.length < (keys.take (i + 1)).length :=
      List.length_filter_lt_length_iff_exists.mpr ⟨a, hupto ▸ ha, by simpa using hrem⟩
    have hle := List.length_take_le (i + 1) keys
    omega
  have hnextf : front ++ [f] <+: keys' := by
    refine List.IsPrefix.trans ?_ hnext.kept
    rw [← List.take_append_drop (i + 1) keys, List.filter_append]
    rw [List.prefix_append_right_inj]
    refine List.IsPrefix.trans ?_ ((rest_stands hw hpre).filter _)
    rw [← Round.waiting_turn hw, hw']
    exact ⟨rest', rfl⟩
  have hf : f ∈ front ++ [f] := List.mem_append_right _ (List.mem_singleton_self f)
  rw [List.prefix_iff_eq_take.mp hnextf] at hf
  refine List.take_subset_take_left _ ?_ hf
  rw [List.length_append, List.length_singleton]
  omega

/-- A key that is served on its turn is served then and not again. -/
theorem count_of_served {keys' rest : List κ} (hr : r.Fair)
    (hw : r.waiting = t.key :: rest) (hkey : keys[i]? = some t.key)
    (hnext : Changed keys t.removed keys') (hts : Turns keys' (i + 1) ts) :
    ((r.turn t).run ts).served.count t.key = 1 := by
  have hin : t.key ∈ r.waiting := hw ▸ List.mem_cons_self
  have hone : (r.turn t).served.count t.key = 1 := by
    show List.count t.key (if _ then _ else _) = 1
    rw [if_pos (hr.original _ hin), List.count_cons_self,
      List.count_eq_zero.mpr (hr.unserved _ hin)]
  have hpassed : Passed keys' (i + 1) (r.turn t) t.key := by
    constructor
    · exact fun hk => (Round.mem_waiting_turn hr.nodup hk).2.1 rfl
    · intro hk
      have hstay : t.key ∉ t.removed := by simpa using (List.mem_filter.mp hk).2
      refine hnext.mem_take ?_ hstay
      obtain ⟨hi, heq⟩ := List.getElem?_eq_some_iff.mp hkey
      exact List.mem_take_iff_getElem.mpr ⟨i, by omega, heq⟩
  exact (hpassed.run hts hnext.nodup).1.trans hone

/-- Visits that keep the places serve each waiting key on its turn. -/
theorem once_of_inPlace (hts : Turns keys i ts) (hnodup : keys.Nodup) (hr : r.Fair)
    (hpre : r.waiting <+: keys.drop i) (hok : InPlace r ts) :
    ∀ k ∈ r.waiting, k ∉ (r.run ts).dropped → (r.run ts).served.count k = 1 := by
  induction hts generalizing r with
  | done hend =>
    intro k hk
    rw [List.drop_eq_nil_of_le hend, List.prefix_nil] at hpre
    rw [hpre] at hk
    cases hk
  | @visit keys keys' i ts t hkey hupto hnext hrest ih =>
    intro k hk hdrop
    obtain ⟨f, rest, hw⟩ := List.exists_cons_of_ne_nil (List.ne_nil_of_mem hk)
    obtain rfl := first_waiting hw hpre hkey
    by_cases hkt : k = t.key
    · subst hkt
      exact count_of_served hr hw hkey hnext hrest
    · have hbehind : k ∈ rest := (List.mem_cons.mp (hw ▸ hk)).resolve_left hkt
      refine ih hnext.nodup hr.turn (waiting_prefix_turn hw hpre hkey hupto hnext hok.1) hok.2 k
        ?_ hdrop
      rw [Round.waiting_turn hw]
      refine List.mem_filter.mpr ⟨hbehind, ?_⟩
      by_contra hrem
      refine hdrop (Round.dropped_run (List.mem_append_right _ ?_) ts)
      refine List.mem_filter.mpr ⟨?_, by simpa using hrem⟩
      simpa [hw] using hbehind

/-- A waiting key that has slipped in front of the index is passed over. -/
theorem skipped {f : κ} {rest : List κ} (hts : Turns keys i ts) (hnodup : keys.Nodup)
    (hr : r.Fair) (hw : r.waiting = f :: rest) (hplace : f ∈ keys.take i) :
    f ∉ (r.run ts).dropped ∧ (r.run ts).served.count f = 0 := by
  have hin : f ∈ r.waiting := hw ▸ List.mem_cons_self
  cases hts with
  | done => exact ⟨hr.undropped f hin, List.count_eq_zero.mpr (hr.unserved f hin)⟩
  | @visit _ keys' _ ts t hkey _ hnext hrest =>
    have hne : f ≠ t.key := by
      rintro rfl
      obtain ⟨hi, heq⟩ := List.getElem?_eq_some_iff.mp hkey
      obtain ⟨j, hj, hjk⟩ := List.mem_take_iff_getElem.mp hplace
      have hsame := (hnodup.getElem_inj_iff).mp (hjk.trans heq.symm)
      omega
    have hbehind : f ∉ (r.waiting.dropWhile (· ≠ t.key)).tail := by
      have hrestf : f ∉ rest := (List.nodup_cons.mp (hw ▸ hr.nodup)).1
      intro hk
      rw [hw, List.dropWhile_cons_of_pos (by simpa using hne)] at hk
      exact hrestf ((tail_dropWhile_sublist t.key _).subset hk)
    have hpassed : Passed keys' (i + 1) (r.turn t) f := by
      constructor
      · exact fun hk => hbehind (List.mem_filter.mp hk).1
      · intro hk
        have hstay : f ∉ t.removed := by simpa using (List.mem_filter.mp hk).2
        exact List.take_subset_take_left _ (Nat.le_succ i) (hnext.mem_take hplace hstay)
    obtain ⟨hserved, hdropped⟩ := hpassed.run hrest hnext.nodup
    constructor
    · intro hdrop
      rcases List.mem_append.mp (hdropped.mp hdrop) with hdrop | hdrop
      · exact hr.undropped f hin hdrop
      · exact hbehind (List.mem_filter.mp hdrop).1
    · rw [Round.run, List.foldl_cons]
      refine hserved.trans ((Round.count_served_turn hne).trans ?_)
      exact List.count_eq_zero.mpr (hr.unserved f hin)

/-- A sweep that serves each waiting key on its turn has kept the places. -/
theorem inPlace_of_once (hts : Turns keys i ts) (hnodup : keys.Nodup) (hr : r.Fair)
    (hpre : r.waiting <+: keys.drop i)
    (honce : ∀ k ∈ r.waiting, k ∉ (r.run ts).dropped → (r.run ts).served.count k = 1) :
    InPlace r ts := by
  induction hts generalizing r with
  | done => exact trivial
  | @visit keys keys' i ts t hkey hupto hnext hrest ih =>
    cases hw : r.waiting with
    | nil =>
      have hnone : (r.turn t).waiting = [] := by
        apply List.eq_nil_iff_forall_not_mem.mpr
        intro k hk
        have hin := (Round.mem_waiting_turn hr.nodup hk).1
        rw [hw] at hin
        cases hin
      refine ⟨fun _ => hnone, ih hnext.nodup hr.turn ?_ ?_⟩
      · rw [hnone]
        exact List.nil_prefix
      · intro k hk
        rw [hnone] at hk
        cases hk
    | cons f rest =>
      obtain rfl := first_waiting hw hpre hkey
      have hok : (∃ k ∈ t.upto, k ∈ t.removed) → (r.turn t).waiting = [] := by
        intro ⟨a, ha, hrem⟩
        by_contra hne
        obtain ⟨g, rest', hw'⟩ := List.exists_cons_of_ne_nil hne
        have hg : g ∈ (r.turn t).waiting := hw' ▸ List.mem_cons_self
        have hplace := slips hw hpre hupto hnext hw' ha hrem
        obtain ⟨hdrop, hcount⟩ := skipped hrest hnext.nodup hr.turn hw' hplace
        have hserved := honce g (Round.mem_waiting_turn hr.nodup hg).1 hdrop
        exact absurd (hcount.symm.trans hserved) (by decide)
      refine ⟨hok, ih hnext.nodup hr.turn ?_ ?_⟩
      · exact waiting_prefix_turn hw hpre hkey hupto hnext hok
      · exact fun k hk => honce k (Round.mem_waiting_turn hr.nodup hk).1

/-- Every key is served once exactly if no visit takes a key from its own place or before while
a key that was there at the start waits behind it. -/
theorem once_iff (hts : Turns keys 0 ts) (hnodup : keys.Nodup) :
    Once keys ts ↔ InPlace (Round.start keys) ts := by
  have hpre : (Round.start keys).waiting <+: keys.drop 0 := List.prefix_refl keys
  constructor
  · exact inPlace_of_once hts hnodup (Round.start_fair hnodup) hpre
  · exact once_of_inPlace hts hnodup (Round.start_fair hnodup) hpre

end
section
variable {S : Type}

/-- `for (i = ..; i < len; ++i) visit(i)` over a state that the visits change. -/
def loop (len : S → Nat) (visit : Nat → S → Option (Turn κ × S)) :
    Nat → Nat → S → Option (List (Turn κ) × S)
  | 0, i, s => if i < len s then none else some ([], s)
  | fuel + 1, i, s =>
    if i < len s then
      (visit i s).bind fun (t, s) => (loop len visit fuel (i + 1) s).map fun (ts, s) => (t :: ts, s)
    else some ([], s)

/-- The state shows its keys in order, and every visit does what a turn of a sweep may do. -/
structure Sweeps (len : S → Nat) (visit : Nat → S → Option (Turn κ × S))
    (Shows : S → List κ → Prop) : Prop where
  len : ∀ {s keys}, Shows s keys → len s = keys.length
  visit : ∀ {s keys i t s'}, Shows s keys → i < keys.length → visit i s = some (t, s') →
    keys[i]? = some t.key ∧ t.upto = keys.take (i + 1) ∧
      ∃ keys', Changed keys t.removed keys' ∧ Shows s' keys'

variable {len : S → Nat} {visit : Nat → S → Option (Turn κ × S)} {Shows : S → List κ → Prop}

theorem loop_turns (h : Sweeps len visit Shows) {fuel i : Nat} {s s' : S} {keys : List κ}
    {ts : List (Turn κ)} (hs : Shows s keys) (hrun : loop len visit fuel i s = some (ts, s')) :
    Turns keys i ts ∧ ∃ keys', Shows s' keys' := by
  induction fuel generalizing i s keys ts with
  | zero =>
    unfold loop at hrun
    split at hrun
    · cases hrun
    · next hend =>
      cases hrun
      exact ⟨.done (by rw [← h.len hs]; omega), keys, hs⟩
  | succ fuel ih =>
    unfold loop at hrun
    split at hrun
    · next hi =>
      rw [h.len hs] at hi
      obtain ⟨⟨t, s₁⟩, hvisit, hrest⟩ := Option.bind_eq_some_iff.mp hrun
      obtain ⟨⟨ts', s₂⟩, hloop, heq⟩ := Option.map_eq_some_iff.mp hrest
      cases heq
      obtain ⟨hkey, hupto, keys₁, hnext, hs₁⟩ := h.visit hs hi hvisit
      obtain ⟨hturns, hend⟩ := ih hs₁ hloop
      exact ⟨.visit hkey hupto hnext hturns, hend⟩
    · next hend =>
      cases hrun
      exact ⟨.done (by rw [← h.len hs]; omega), keys, hs⟩

/-- As the index goes up and the number of keys is bounded, the loop ends. -/
theorem loop_total (h : Sweeps len visit Shows) (max : Nat)
    (hmax : ∀ {s keys}, Shows s keys → keys.length ≤ max)
    (hsome : ∀ {s keys i}, Shows s keys → i < keys.length → (visit i s).isSome = true)
    {fuel i : Nat} {s : S} {keys : List κ} (hs : Shows s keys) (hfuel : max ≤ i + fuel) :
    (loop len visit fuel i s).isSome = true := by
  induction fuel generalizing i s keys with
  | zero =>
    have hle := hmax hs
    rw [loop, if_neg (by rw [h.len hs]; omega)]
    rfl
  | succ fuel ih =>
    unfold loop
    split
    · next hi =>
      rw [h.len hs] at hi
      obtain ⟨⟨t, s₁⟩, hvisit⟩ := Option.isSome_iff_exists.mp (hsome hs hi)
      obtain ⟨-, -, keys₁, -, hs₁⟩ := h.visit hs hi hvisit
      obtain ⟨⟨ts, s₂⟩, hloop⟩ := Option.isSome_iff_exists.mp (ih hs₁ (by omega : max ≤ (i + 1) + fuel))
      simp only [hvisit, Option.bind_some, hloop, Option.map_some, Option.isSome_some]
    · rfl

end
end Sweep
