import Libhp.Lib.Run
import Libhp.Lib.Slots
import Libhp.Str.Buf

/-!
# Watched files

`hp_inotify_add` and `hp_inotify_del` of `hp_inotify.c`: the table of the watched files, beside
the watches that the kernel has. An entry is searched for with `strncmp` up to the length of the
name.
-/
namespace Libhp.Ev
open Libhp.Buf (Chars)
open Slots (First)

/-- The address of a function or of an argument. -/
abbrev Addr := Nat

/-- An inotify instance: which file a watch descriptor is for. There is one descriptor for each
watched file. -/
structure InotifyKernel (K F : Type) where
  addWatch : K → F → Option (K × Nat)
  rmWatch : K → Nat → K
  file : K → Nat → Option F
  add_file : ∀ {k f k' wd}, addWatch k f = some (k', wd) →
    ∀ w, file k' w = if w = wd then some f else file k w
  add_same : ∀ {k f k' wd}, addWatch k f = some (k', wd) → ∀ w, file k w = some f → w = wd
  rm_file : ∀ k wd w, file (rmWatch k wd) w = if w = wd then none else file k w

/-- `struct hp_inotify_ient`, with 0 as the descriptor where there is no watch. -/
structure Ient where
  wd : Nat
  path : Chars
  open_ : Option Addr
  fn : Addr
  d : Addr
  deriving DecidableEq

/-- `hp_inotify`: the entries, and the instance behind `ifd`. -/
structure HpInotify (K : Type) where
  ients : List Ient
  kernel : K

/-- `strncmp(a, b, n) != 0` -/
def strncmpNe (a b : Chars) (n : Nat) : Bool := a.take n ≠ b.take n

/-- `cmp_by_name` -/
def cmpByName (key : Chars) (ent : Ient) : Bool := strncmpNe key ent.path key.length

section
variable {K F : Type} (M : InotifyKernel K F)

/-- `hp_inotify_add`, with the file that the path leads to. -/
def hpInotifyAdd (dl : HpInotify K) (path : Chars) (file : Option F) (open_ fn : Option Addr)
    (d : Addr) : Int × HpInotify K :=
  match fn with
  | none => (-1, dl)
  | some fn =>
    if path = [] then (-1, dl)
    else
      match file.bind (M.addWatch dl.kernel) with
      | none => (-2, dl)
      | some (kernel, wd) => (0, ⟨dl.ients ++ [⟨wd, path, open_, fn, d⟩], kernel⟩)

/-- `hp_inotify_del`, and the entries whose `fn` is called with `EPOLLERR`. -/
def hpInotifyDel (dl : HpInotify K) (dlname : Chars) : Int × HpInotify K × List Ient :=
  if dlname = [] then (0, dl, [])
  else
    match dl.ients.dropWhile (cmpByName dlname) with
    | [] => (-1, dl, [])
    | ient :: back =>
      (0, ⟨dl.ients.takeWhile (cmpByName dlname) ++ back, M.rmWatch dl.kernel ient.wd⟩, [ient])

inductive InotifyOp (F : Type) where
  | add (path : Chars) (file : Option F) (open_ fn : Option Addr) (d : Addr)
  | del (dlname : Chars)

def HpInotify.step (dl : HpInotify K) : InotifyOp F → Option (HpInotify K)
  | .add path file open_ fn d => some (hpInotifyAdd M dl path file open_ fn d).2
  | .del dlname => some (hpInotifyDel M dl dlname).2.1

/-- The entries that the calls lead to from an empty table, on an instance without watches. -/
def InotifyReached (dl : HpInotify K) : Prop :=
  ∃ k, (∀ w, M.file k w = none) ∧ Run.Along (HpInotify.step M) (fun _ _ => True) ⟨[], k⟩ dl

/-- The first entry with the very name is removed, and only its `fn` is called; the others keep
their order and their watches. Without one there is an error and nothing changes. -/
def DelExact (dl : HpInotify K) (dlname : Chars) : Prop :=
  (∀ front ent back, First (fun e => e.path = dlname) dl.ients front ent back →
    (hpInotifyDel M dl dlname).2.1.ients = front ++ back ∧
      (hpInotifyDel M dl dlname).2.2 = [ent] ∧
      ∀ e ∈ front ++ back,
        M.file (hpInotifyDel M dl dlname).2.1.kernel e.wd = M.file dl.kernel e.wd) ∧
  ((hpInotifyDel M dl dlname).1 ≠ 0 ↔ ∀ e ∈ dl.ients, e.path ≠ dlname) ∧
  ((hpInotifyDel M dl dlname).1 ≠ 0 → (hpInotifyDel M dl dlname).2 = (dl, []))

/-- The first entry whose path begins with the name has just that path, and no other entry has
its watch, if that is still there. -/
def DelFits (dl : HpInotify K) (dlname : Chars) : Prop :=
  ∀ front ent back, First (fun e => dlname <+: e.path) dl.ients front ent back →
    ent.path = dlname ∧ (M.file dl.kernel ent.wd = none ∨ ∀ e ∈ front ++ back, e.wd ≠ ent.wd)

end

theorem cmpByName_iff (key : Chars) (ent : Ient) :
    cmpByName key ent = false ↔ key <+: ent.path := by
  rw [cmpByName, strncmpNe, decide_eq_false_iff_not, not_ne_iff, List.take_length,
    List.prefix_iff_eq_take]

section
variable {K F : Type} {M : InotifyKernel K F} {dl : HpInotify K} {dlname : Chars}

/-- What a call with a name does: nothing, or it removes the first entry that the name begins. -/
theorem hpInotifyDel_cases (M : InotifyKernel K F) (dl : HpInotify K) (hname : dlname ≠ []) :
    ((∀ e ∈ dl.ients, ¬ dlname <+: e.path) ∧ hpInotifyDel M dl dlname = (-1, dl, [])) ∨
    ∃ front ent back, First (fun e => dlname <+: e.path) dl.ients front ent back ∧
      hpInotifyDel M dl dlname =
        (0, ⟨front ++ back, M.rmWatch dl.kernel ent.wd⟩, [ent]) := by
  rw [hpInotifyDel, if_neg hname]
  cases h : dl.ients.dropWhile (cmpByName dlname) with
  | nil => exact Or.inl ⟨Slots.none_of_dropWhile (cmpByName_iff dlname) h, rfl⟩
  | cons ent back => exact Or.inr ⟨_, ent, back, First.of_dropWhile (cmpByName_iff dlname) h, rfl⟩

/-- The first entry that the name begins is the first of that name, if it is one. -/
theorem first_exact {front back : List Ient} {ent : Ient}
    (h : First (fun e => dlname <+: e.path) dl.ients front ent back) (hpath : ent.path = dlname) :
    First (fun e => e.path = dlname) dl.ients front ent back :=
  ⟨h.split, hpath, fun e he heq => h.before e he (heq ▸ List.prefix_rfl)⟩

/-- In every table, whether calls lead to it or not, a name is deleted as it should be exactly if
it fits. -/
theorem delExact_iff (M : InotifyKernel K F) (dl : HpInotify K) (dlname : Chars)
    (hname : dlname ≠ []) : DelExact M dl dlname ↔ DelFits M dl dlname := by
  rcases hpInotifyDel_cases M dl hname with ⟨hnone, hdel⟩ | ⟨front, ent, back, hfirst, hdel⟩
  · have hexact : ∀ e ∈ dl.ients, e.path ≠ dlname := fun e he heq =>
      hnone e he (heq ▸ List.prefix_rfl)
    refine iff_of_true ?_ fun front ent back hfirst => ?_
    · rw [DelExact, hdel]
      refine ⟨fun front ent back hfirst => ?_,
        iff_of_true (show (-1 : Int) ≠ 0 by decide) hexact, fun _ => rfl⟩
      exact absurd hfirst.here (hexact ent (hfirst.split ▸ List.mem_append_right _
        List.mem_cons_self))
    · exact absurd hfirst.here (hnone ent (hfirst.split ▸ List.mem_append_right _
        List.mem_cons_self))
  rw [DelExact, hdel]
  constructor
  · intro ⟨hremoved, herror, _⟩ front' ent' back' hfirst'
    obtain ⟨rfl, rfl, rfl⟩ := hfirst.unique hfirst'
    have hsome : ∃ e ∈ dl.ients, e.path = dlname := by
      by_contra! hno
      exact herror.mpr hno rfl
    obtain ⟨front', ent', back', hthere⟩ := First.exists hsome
    obtain ⟨hients, hcalled, hkept⟩ := hremoved front' ent' back' hthere
    obtain rfl := (List.cons.inj hcalled).1
    refine ⟨hthere.here, ?_⟩
    by_cases hwd : ∀ e ∈ front ++ back, e.wd ≠ ent.wd
    · exact Or.inr hwd
    · push Not at hwd
      obtain ⟨e, he, heq⟩ := hwd
      have hfile := hkept e (hients ▸ he)
      rw [M.rm_file, if_pos heq, heq] at hfile
      exact Or.inl hfile.symm
  · intro hfits
    obtain ⟨hpath, hwatch⟩ := hfits front ent back hfirst
    have hthere := first_exact hfirst hpath
    refine ⟨fun front' ent' back' hthere' => ?_, iff_of_false (fun h => h rfl) fun hno => ?_,
      fun h => absurd rfl h⟩
    · obtain ⟨rfl, rfl, rfl⟩ := hthere.unique hthere'
      refine ⟨rfl, rfl, fun e he => ?_⟩
      rw [M.rm_file]
      split
      · next heq =>
        rw [heq]
        exact (hwatch.resolve_right fun hno => hno e he heq).symm
      · rfl
    · exact hno ent (hfirst.split ▸ List.mem_append_right _ List.mem_cons_self) hpath

/-- The kernel watches for every entry. -/
def AllWatched (M : InotifyKernel K F) (dl : HpInotify K) : Prop :=
  ∀ e ∈ dl.ients, M.file dl.kernel e.wd ≠ none

theorem hpInotifyAdd_watched (h : AllWatched M dl) (path : Chars) (file : Option F)
    (open_ fn : Option Addr) (d : Addr) :
    AllWatched M (hpInotifyAdd M dl path file open_ fn d).2 := by
  cases fn with
  | none => exact h
  | some fn =>
    rw [hpInotifyAdd]
    split
    · exact h
    · cases hadd : file.bind (M.addWatch dl.kernel) with
      | none => exact h
      | some r =>
        obtain ⟨f, -, hwatch⟩ := Option.bind_eq_some_iff.mp hadd
        intro e he
        show M.file r.1 e.wd ≠ none
        rw [M.add_file hwatch]
        split
        · exact Option.some_ne_none f
        · next hne =>
          rcases List.mem_append.mp he with he | he
          · exact h e he
          · exact absurd (congrArg Ient.wd (List.mem_singleton.mp he)) hne

theorem hpInotifyDel_watched (h : AllWatched M dl) (hfits : DelFits M dl dlname) :
    AllWatched M (hpInotifyDel M dl dlname).2.1 := by
  by_cases hname : dlname = []
  · rw [hpInotifyDel, if_pos hname]
    exact h
  rcases hpInotifyDel_cases M dl hname with ⟨-, hdel⟩ | ⟨front, ent, back, hfirst, hdel⟩
  · rwa [hdel]
  · rw [hdel]
    have hent : ent ∈ dl.ients := hfirst.split ▸ List.mem_append_right _ List.mem_cons_self
    have hapart := (hfits front ent back hfirst).2.resolve_left (h ent hent)
    intro e he
    have hmem : e ∈ dl.ients := by
      rw [hfirst.split]
      rcases List.mem_append.mp he with he | he
      · exact List.mem_append_left _ he
      · exact List.mem_append_right _ (List.mem_cons_of_mem _ he)
    show M.file (M.rmWatch dl.kernel ent.wd) e.wd ≠ none
    rw [M.rm_file, if_neg (hapart e he)]
    exact h e hmem

/-- Along calls of which each deletion fits, the kernel keeps watching for every entry. -/
theorem watched_along {dl' : HpInotify K} (h : AllWatched M dl)
    (hrun : Run.Along (HpInotify.step M) (fun dl op => ∀ dlname, op = .del dlname →
      DelFits M dl dlname) dl dl') : AllWatched M dl' := by
  apply hrun.invariant h
  intro dl op dl' hall hstep hok
  cases op with
  | add path file open_ fn d =>
    cases hstep
    exact hpInotifyAdd_watched hall path file open_ fn d
  | del dlname =>
    cases hstep
    exact hpInotifyDel_watched hall (hok dlname rfl)

end

/-- The descriptor of the file `f` is `f + 1`. -/
def plainKernel : InotifyKernel (List Nat) Nat where
  addWatch k f := some (f :: k, f + 1)
  rmWatch k wd := k.filter (· + 1 ≠ wd)
  file k w := if w ≠ 0 ∧ w - 1 ∈ k then some (w - 1) else none
  add_file := by
    rintro k f k' wd ⟨⟩ w
    by_cases h : w = f + 1
    · simp [h]
    · have hne : w ≠ 0 → w - 1 ≠ f := fun h0 => by omega
      simp only [if_neg h]
      by_cases h0 : w = 0 <;> simp [h0, hne]
  add_same := by
    rintro k f k' wd ⟨⟩ w h
    split at h
    · next hw =>
      have := Option.some.inj h
      omega
    · cases h
  rm_file k wd w := by
    by_cases h : w = wd
    · subst h
      by_cases h0 : w = 0
      · simp [h0]
      · simp [Nat.sub_add_cancel (Nat.pos_of_ne_zero h0)]
    · by_cases h0 : w = 0
      · simp [h0]
      · simp [h, Nat.sub_add_cancel (Nat.pos_of_ne_zero h0)]

/-- `"ab"` and then `"a"` are added. -/
def twoPaths : HpInotify (List Nat) :=
  ⟨[⟨1, ['a', 'b'], none, 7, 0⟩, ⟨2, ['a'], none, 8, 0⟩], [1, 0]⟩

theorem twoPaths_reached : InotifyReached plainKernel twoPaths := by
  refine ⟨[], by simp [plainKernel], ?_⟩
  exact @Run.along_follow _ _ _ _ (fun _ _ => true) (fun _ _ _ => trivial)
    [.add ['a', 'b'] (some 0) none (some 7) 0, .add ['a'] (some 1) none (some 8) 0] _ _ rfl

theorem del_longer : DelExact plainKernel twoPaths ['a', 'b'] :=
  (delExact_iff plainKernel twoPaths ['a', 'b'] (by decide)).mpr
    fun front ent back h => by
      have hhere : First (fun e => ['a', 'b'] <+: e.path) twoPaths.ients []
        ⟨1, ['a', 'b'], none, 7, 0⟩ [⟨2, ['a'], none, 8, 0⟩] :=
        ⟨rfl, List.prefix_rfl, by simp⟩
      obtain ⟨rfl, rfl, rfl⟩ := h.unique hhere
      exact ⟨rfl, Or.inr (by simp)⟩

/-- The deletion of `"a"` removes `"ab"`. -/
theorem del_shorter :
    ¬ (∀ dl, InotifyReached plainKernel dl → ∀ dlname, dlname ≠ [] →
        DelExact plainKernel dl dlname) ∧
      hpInotifyDel plainKernel twoPaths ['a'] =
        (0, ⟨[⟨2, ['a'], none, 8, 0⟩], [1]⟩, [⟨1, ['a', 'b'], none, 7, 0⟩]) := by
  have hdel : hpInotifyDel plainKernel twoPaths ['a'] =
    (0, ⟨[⟨2, ['a'], none, 8, 0⟩], [1]⟩, [⟨1, ['a', 'b'], none, 7, 0⟩]) := rfl
  refine ⟨fun hall => ?_, hdel⟩
  obtain ⟨hremoved, -, -⟩ := hall twoPaths twoPaths_reached ['a'] (by decide)
  have hthere : First (fun e => e.path = ['a']) twoPaths.ients [⟨1, ['a', 'b'], none, 7, 0⟩]
    ⟨2, ['a'], none, 8, 0⟩ [] := ⟨rfl, rfl, by simp⟩
  obtain ⟨-, hcalled, -⟩ := hremoved _ _ _ hthere
  rw [hdel] at hcalled
  exact absurd hcalled (by decide)

end Libhp.Ev
