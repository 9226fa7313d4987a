import Libhp.Ev.Poll

/-!
# Both registries are one ordered map

The interface that `hp_io_t` and the drivers use (add, rm, find, size), run on
`hp_epoll`, on `hp_poll` and on an ordered finite map from fd to callbacks. The
three give the same answers, and the registries go on representing the map.
-/
namespace Libhp.Ev
open Libhp.Io (Ptr SysRes)

inductive RegOp (F L : Type) where
  | add (fd : Int) (events : Nat) (cb : HpPolld F L) (hint : Ptr)
  | rm (fd : Int)
  | find (key : Ptr) (onCmp : Option (Ptr → Ptr → Int))
  | size

/-- What the caller is told; a return code is OK when it is 0. -/
inductive RegOut where
  | done (ok : Bool)
  | found (arg : Ptr)
  | size (n : Nat)
  deriving DecidableEq, Repr

section
variable {F L κ : Type}

/-- The operations on the map that the registries implement, with room for `max` entries. -/
def mapOp (max : Nat) : RegOp F L → OrdMap Int (HpPolld F L) → RegOut × OrdMap Int (HpPolld F L)
  | .add fd _ cb _, m =>
    if fd < 0 ∨ (m.index fd = none ∧ max ≤ m.size) then (.done false, m)
    else (.done true, m.set fd cb)
  | .rm fd, m => (.done (m.index fd).isSome, m.erase fd)
  | .find key onCmp, m =>
    (.found ((m.findVal fun d => doFind key onCmp d.arg).elim 0 fun d => d.arg), m)
  | .size, m => (.size m.size, m)

def epollOp (ctl : EpollCtl κ) (op : RegOp F L) (epo : HpEpoll F L) (k : κ) :
    Option (RegOut × HpEpoll F L × κ) :=
  match op with
  | .add fd events cb hint =>
    (hpEpollAdd ctl epo fd events cb hint k).map fun (rc, epo, k) => (.done (rc = 0), epo, k)
  | .rm fd =>
    let (rc, epo, k) := hpEpollRm ctl epo fd k
    some (.done (rc = 0), epo, k)
  | .find key onCmp => some (.found (hpEpollFind epo key onCmp), epo, k)
  | .size => some (.size epo.evLen, epo, k)

def pollOp (op : RegOp F L) (po : HpPoll F L) : RegOut × HpPoll F L :=
  match op with
  | .add fd events cb _ =>
    let (rc, po) := hpPollAdd po fd events cb
    (.done (rc = 0), po)
  | .rm fd =>
    let (rc, po) := hpPollRm po fd
    (.done (rc = 0), po)
  | .find key onCmp => (.found (hpPollFind po key onCmp), po)
  | .size => (.size po.nfds, po)

def mapRun (max : Nat) : List (RegOp F L) → OrdMap Int (HpPolld F L) →
    List RegOut × OrdMap Int (HpPolld F L)
  | [], m => ([], m)
  | op :: ops, m =>
    let (out, m) := mapOp max op m
    let (outs, m) := mapRun max ops m
    (out :: outs, m)

def epollRun (ctl : EpollCtl κ) : List (RegOp F L) → HpEpoll F L → κ →
    Option (List RegOut × HpEpoll F L × κ)
  | [], epo, k => some ([], epo, k)
  | op :: ops, epo, k =>
    (epollOp ctl op epo k).bind fun (out, epo, k) =>
      (epollRun ctl ops epo k).map fun (outs, epo, k) => (out :: outs, epo, k)

def pollRun : List (RegOp F L) → HpPoll F L → List RegOut × HpPoll F L
  | [], po => ([], po)
  | op :: ops, po =>
    let (out, po) := pollOp op po
    let (outs, po) := pollRun ops po
    (out :: outs, po)

theorem epollOp_refines {ctl : EpollCtl κ} (hctl : ∀ op fd ev k, (ctl op fd ev k).1.ret = 0)
    {epo : HpEpoll F L} {max : Nat} {m : OrdMap Int (HpPolld F L)} (h : epo.Represents max m)
    (op : RegOp F L) (k : κ) :
    ∃ epo' k', epollOp ctl op epo k = some ((mapOp max op m).1, epo', k') ∧
      epo'.Represents max (mapOp max op m).2 := by
  cases op with
  | add fd events cb hint =>
    by_cases hfd : fd < 0
    · refine ⟨epo, k, ?_, ?_⟩
      · simp only [epollOp, hpEpollAdd, mapOp, hfd, ↓reduceIte, Option.map_some, true_or]
        rfl
      · simp only [mapOp, hfd, true_or, ↓reduceIte]
        exact h
    · obtain ⟨rc, epo', k', hadd, hcase⟩ :=
        hpEpollAdd_spec hctl h (Int.not_lt.mp hfd) events cb hint k
      refine ⟨epo', k', ?_⟩
      simp only [epollOp, hadd, Option.map_some, mapOp, hfd, false_or]
      split_ifs at hcase ⊢ with hfull
      · obtain ⟨rfl, rfl⟩ := hcase
        exact ⟨rfl, h⟩
      · obtain ⟨rfl, hrep⟩ := hcase
        exact ⟨rfl, hrep⟩
  | rm fd =>
    obtain ⟨hrc, hrep⟩ := hpEpollRm_spec ctl h fd k
    refine ⟨(hpEpollRm ctl epo fd k).2.1, (hpEpollRm ctl epo fd k).2.2, ?_, hrep⟩
    simp only [epollOp, hrc, mapOp]
    cases m.index fd with
    | none => rfl
    | some i => rfl
  | find key onCmp =>
    refine ⟨epo, k, ?_, h⟩
    simp only [epollOp, mapOp, hpEpollFind_spec h]
  | size =>
    refine ⟨epo, k, ?_, h⟩
    simp only [epollOp, mapOp, h.size_eq]

theorem pollOp_refines {po : HpPoll F L} {max : Nat} {m : OrdMap Int (HpPolld F L)}
    (h : po.Represents max m) (op : RegOp F L) :
    (pollOp op po).1 = (mapOp max op m).1 ∧ (pollOp op po).2.Represents max (mapOp max op m).2 := by
  cases op with
  | add fd events cb hint =>
    by_cases hfd : fd < 0
    · simp only [pollOp, hpPollAdd, mapOp, hfd, ↓reduceIte, true_or]
      exact ⟨rfl, h⟩
    · have hcase := hpPollAdd_spec h (Int.not_lt.mp hfd) events cb
      simp only [pollOp, mapOp, hfd, false_or]
      split_ifs at hcase ⊢ with hfull
      · rw [hcase]
        exact ⟨rfl, h⟩
      · rw [hcase.1]
        exact ⟨rfl, hcase.2⟩
  | rm fd =>
    obtain ⟨hrc, hrep⟩ := hpPollRm_spec h fd
    refine ⟨?_, hrep⟩
    simp only [pollOp, hrc, mapOp]
    cases m.index fd with
    | none => rfl
    | some i => rfl
  | find key onCmp =>
    refine ⟨?_, h⟩
    simp only [pollOp, mapOp, hpPollFind_spec h]
  | size =>
    refine ⟨?_, h⟩
    simp only [pollOp, mapOp, h.size_eq]

theorem epollRun_refines {ctl : EpollCtl κ} (hctl : ∀ op fd ev k, (ctl op fd ev k).1.ret = 0)
    {max : Nat} :
    ∀ (ops : List (RegOp F L)) {epo : HpEpoll F L} {m : OrdMap Int (HpPolld F L)} (k : κ),
      epo.Represents max m →
      ∃ epo' k', epollRun ctl ops epo k = some ((mapRun max ops m).1, epo', k') ∧
        epo'.Represents max (mapRun max ops m).2 := by
  intro ops
  induction ops with
  | nil =>
    intro epo m k h
    exact ⟨epo, k, rfl, h⟩
  | cons op ops ih =>
    intro epo m k h
    obtain ⟨epo₁, k₁, hop, h₁⟩ := epollOp_refines hctl h op k
    obtain ⟨epo', k', hrun, h'⟩ := ih k₁ h₁
    refine ⟨epo', k', ?_, h'⟩
    simp only [epollRun, hop, Option.bind_some, hrun, Option.map_some, mapRun]

theorem pollRun_refines {max : Nat} :
    ∀ (ops : List (RegOp F L)) {po : HpPoll F L} {m : OrdMap Int (HpPolld F L)},
      po.Represents max m →
      (pollRun ops po).1 = (mapRun max ops m).1 ∧
        (pollRun ops po).2.Represents max (mapRun max ops m).2 := by
  intro ops
  induction ops with
  | nil =>
    intro po m h
    exact ⟨rfl, h⟩
  | cons op ops ih =>
    intro po m h
    obtain ⟨hout, h₁⟩ := pollOp_refines h op
    obtain ⟨houts, h'⟩ := ih h₁
    refine ⟨?_, h'⟩
    simp only [pollRun, mapRun, hout, houts]

/-- Created with the same capacity, and with `epoll_ctl` succeeding, both registries answer
every sequence of operations as the ordered map does, and represent it at the end. For
`hp_poll` this says in particular that `pd[-i]` belongs to `fds[i]` for every `i`. -/
theorem registries_refine_map [Inhabited F] [Inhabited L] (ctl : EpollCtl κ)
    (hctl : ∀ op fd ev k, (ctl op fd ev k).1.ret = 0) (max : Int) (hmax : 0 < max)
    (ops : List (RegOp F L)) (k : κ) :
    ∃ epo k' po, ∃ m : OrdMap Int (HpPolld F L), ∃ outs,
      mapRun max.toNat ops OrdMap.empty = (outs, m) ∧
      epollRun ctl ops (hpEpollInit max) k = some (outs, epo, k') ∧
      pollRun ops (hpPollInit max) = (outs, po) ∧
      epo.Represents max.toNat m ∧ po.Represents max.toNat m := by
  obtain ⟨epo, k', hepoll, hrep⟩ := epollRun_refines hctl ops k (hpEpollInit_represents hmax)
  obtain ⟨hpoll, hrep'⟩ := pollRun_refines ops (hpPollInit_represents hmax)
  refine ⟨epo, k', _, _, _, rfl, hepoll, Prod.ext hpoll rfl, hrep, hrep'⟩

theorem registries_refine_map_two :
    ∃ epo k' po, ∃ m : OrdMap Int (HpPolld Nat Nat), ∃ outs,
      mapRun 2 [.add 5 1 ⟨1, 1, 1⟩ 0, .add 7 1 ⟨2, 2, 2⟩ 0, .add 9 1 ⟨3, 3, 3⟩ 0,
        .add 5 1 ⟨4, 4, 4⟩ 0, .rm 7, .find 4 none, .size] OrdMap.empty = (outs, m) ∧
      epollRun (fun _ _ _ k => (⟨0, 0⟩, k)) [.add 5 1 ⟨1, 1, 1⟩ 0, .add 7 1 ⟨2, 2, 2⟩ 0,
        .add 9 1 ⟨3, 3, 3⟩ 0, .add 5 1 ⟨4, 4, 4⟩ 0, .rm 7, .find 4 none, .size]
        (hpEpollInit 2) () = some (outs, epo, k') ∧
      pollRun [.add 5 1 ⟨1, 1, 1⟩ 0, .add 7 1 ⟨2, 2, 2⟩ 0, .add 9 1 ⟨3, 3, 3⟩ 0,
        .add 5 1 ⟨4, 4, 4⟩ 0, .rm 7, .find 4 none, .size] (hpPollInit 2) = (outs, po) ∧
      epo.Represents 2 m ∧ po.Represents 2 m :=
  registries_refine_map (fun _ _ _ k => (⟨0, 0⟩, k)) (fun _ _ _ _ => rfl) 2 (by decide) _ ()

end
end Libhp.Ev
