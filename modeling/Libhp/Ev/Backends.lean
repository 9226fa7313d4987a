import Libhp.Io.Grown
import Libhp.Ev.EpollRun
import Libhp.Ev.PollRun
import Libhp.Ev.Callback

/-!
# The two versions of the connection callback

`hp_io_t_internal_io_cb` exists once for epoll and once for poll. Both read, then write;
they differ in what decides about the write half. The epoll version looks at a local that
it sets from `io->rd.err` only if it has read, the poll version at the slot of the `pollfd`
array that it was called for.
-/
namespace Libhp.Ev
open Libhp.Io

section
variable {R : Type} (ops : RegOps R) (env : IoEnv)

/-- The epoll version with `rc` in the local that it does not initialise. -/
def ioCbEpollWith (rc : Int) (p : Ptr) (events : Nat) (w : IoWorld R) : Option (IoWorld R) :=
  if events &&& EPOLLERR ≠ 0 then some (hpIoTOnError ops env p EPOLLERR .epollErr w)
  else
    let read :=
      if events &&& EPOLLIN ≠ 0 then
        (ioRead ops env p w).map fun w => (rdErr w p, w.note (.access p))
      else some (rc, w)
    read.bind fun (rc, w) => if rc ≠ 0 then some w else ioWriteHalf ops env p events w

/-- In the runs of the loop the outside is asked for the content of the local. -/
theorem ioCbEpoll_eq (p : Ptr) (events : Nat) (w : IoWorld R) :
    ioCbEpoll ops env p events w = ioCbEpollWith ops env (env.uninit w.tick) p events
      (if events &&& EPOLLERR = 0 ∧ events &&& EPOLLIN = 0 then w.step else w) := by
  unfold ioCbEpoll ioCbEpollWith
  by_cases herr : events &&& EPOLLERR = 0
  · by_cases hin : events &&& EPOLLIN = 0
    · simp only [herr, hin, ne_eq, not_true_eq_false, ↓reduceIte, and_self]
    · simp only [herr, hin, ne_eq, not_true_eq_false, not_false_eq_true, ↓reduceIte, and_false]
  · simp only [herr, ne_eq, not_false_eq_true, ↓reduceIte, false_and]

/-- The first half, which both versions have. -/
def readHalf (p : Ptr) (events : Nat) (w : IoWorld R) : Option (IoWorld R) :=
  if events &&& EPOLLIN ≠ 0 then ioRead ops env p w else some w

end

section
variable {R : Type}

/-- The number of items that are still to be written. -/
def pending (p : Ptr) (w : IoWorld R) : Nat := (w.ios p).elim 0 fun io => io.wr.oItemsLen


section
variable {R' : Type} {ops : RegOps R} {ops' : RegOps R'} {env : IoEnv} {w : IoWorld R}
  {w' : IoWorld R'} {p : Ptr}

theorem SameConns.outcome (h : SameConns w w') (p : Ptr) : outcome p w = outcome p w' := by
  rw [Io.outcome, Io.outcome, h.effects, h.ios]

/-- The write halves, one under the condition `a` and one under `b`. -/
theorem writes_agree (ha : AddsGo ops env) (ha' : AddsGo ops' env) (h : SameConns w w')
    (hp : w.ios p ≠ none) (a b : Prop) [Decidable a] [Decidable b] :
    (if a then ioWrite ops env p w else some w).map (outcome p) =
        (if b then ioWrite ops' env p w' else some w').map (outcome p) ↔
      pending p w = 0 ∨ (a ↔ b) := by
  obtain ⟨io, hio⟩ := Option.ne_none_iff_exists'.mp hp
  have hio' : w'.ios p = some io := h.ios ▸ hio
  have hpending : pending p w = io.wr.oItemsLen := by rw [pending, hio]; rfl
  have hsame : (some w).map (outcome p) = (some w').map (outcome p) :=
    congrArg some (SameConns.outcome h p)
  rw [hpending]
  by_cases hca : a <;> by_cases hcb : b
  · simp only [hca, hcb, ↓reduceIte, iff_self, or_true, iff_true]
    exact Related.map_eq (ioWrite_same ha ha' p h) fun x y hxy => SameConns.outcome hxy p
  · simp only [hca, hcb, ↓reduceIte, iff_false, not_true_eq_false, or_false]
    rw [← hsame]
    exact ioWrite_outcome hio
  · simp only [hca, hcb, ↓reduceIte, iff_true, or_false]
    rw [hsame, eq_comm]
    exact ioWrite_outcome hio'
  · simp only [hca, hcb, ↓reduceIte, iff_self, or_true, iff_true]
    exact hsame

end

/-- Whether a `writev` failed for good is the same over both registries. -/
theorem SameConns.writeBroke {R' : Type} {f g : IoEv → Bool} {u x : IoWorld R} {v y : IoWorld R'}
    {p : Ptr} {b c : Bool} (h : SameConns u v) (h' : SameConns x y) (hx : Grown f u p b x)
    (hy : Grown g v p c y) : WriteBroke p (since u x) ↔ WriteBroke p (since v y) := by
  have heq : u.effects ++ (since u x).filter IoEv.effect =
      u.effects ++ (since v y).filter IoEv.effect := by
    calc u.effects ++ (since u x).filter IoEv.effect = x.effects := hx.effects_since.symm
      _ = y.effects := h'.effects
      _ = v.effects ++ (since v y).filter IoEv.effect := hy.effects_since
      _ = u.effects ++ (since v y).filter IoEv.effect := by rw [h.effects]
  rw [← writeBroke_effects, List.append_cancel_left heq, writeBroke_effects]

/-- The two versions agree: both hang, or both end with the same effects and the same
connection. If `on_delete` releases the `hp_io_t` (`gone`), neither uses it after that. -/
def Agree {R' : Type} (gone : Bool) (p : Ptr) (x : Option (IoWorld R))
    (y : Option (IoWorld R')) : Prop :=
  x.map (outcome p) = y.map (outcome p) ∧
    (gone = true → (∀ w, x = some w → Kept p w.log) ∧ ∀ w, y = some w → Kept p w.log)

section
variable {R' : Type} {ops : RegOps R} {ops' : RegOps R'} {env : IoEnv} {u : IoWorld R}
  {v : IoWorld R'} {p : Ptr}

/-- With nothing queued no `writev` is made. -/
theorem idle_unbroken {x : IoWorld R} (hp : u.ios p ≠ none) (hidle : pending p u = 0)
    (hrun : ioWrite ops env p u = some x) : ¬ Grown (IoEv.breaks p) u p true x := by
  intro hgrown
  obtain ⟨io, hio⟩ := Option.ne_none_iff_exists'.mp hp
  have hlen : io.wr.oItemsLen = 0 := by rw [← hidle, pending, hio]; rfl
  have hout : (ioWrite ops env p u).map (outcome p) = some (outcome p u) :=
    (ioWrite_outcome hio).mpr hlen
  rw [hrun] at hout
  have heffects : x.effects = u.effects := congrArg Prod.fst (Option.some.inj hout)
  obtain ⟨r, hr, -⟩ := writeBroke_effects.mpr (any_breaks_iff.mp hgrown.since.2)
  have hsame : u.effects ++ (since u x).filter IoEv.effect = u.effects ++ [] := by
    rw [← hgrown.effects_since, heffects, List.append_nil]
  rw [List.append_cancel_left hsame] at hr
  exact absurd hr List.not_mem_nil

/-- Whether a `writev` of the write half fails for good does not depend on the registry. -/
theorem unbroken_same (ha : AddsGo ops env) (ha' : AddsGo ops' env) (h : SameConns u v)
    (hp : u.ios p ≠ none)
    (hsound : ∀ x, ioWrite ops env p u = some x → ¬ WriteBroke p (since u x))
    (y : IoWorld R') (hy : ioWrite ops' env p v = some y) : ¬ WriteBroke p (since v y) := by
  have hpv : v.ios p ≠ none := h.ios ▸ hp
  have hrel := ioWrite_same ha ha' p h
  rw [hy] at hrel
  obtain ⟨x, hx, hxy⟩ : ∃ x, ioWrite ops env p u = some x ∧ SameConns x y := by
    revert hrel
    cases ioWrite ops env p u with
    | none => exact fun hrel => by cases hrel
    | some x => exact fun hrel => by cases hrel with | some hxy => exact ⟨x, rfl, hxy⟩
  obtain ⟨b, hgrown⟩ := ioWrite_grown hp hx
  obtain ⟨c, hgrown'⟩ := ioWrite_grown hpv hy
  exact mt (SameConns.writeBroke h hxy hgrown hgrown').mpr (hsound x hx)

/-- The write halves, one under the condition `a`, which is false if the connection has been
deleted before, and one under `b`. -/
theorem halves_agree (gone : Bool) (ha : AddsGo ops env) (ha' : AddsGo ops' env)
    (h : SameConns u v) (hp : u.ios p ≠ none) (hu : Kept p u.log ↔ ¬ Deleted p u.log)
    (a b : Prop) [Decidable a] [Decidable b] (hda : Deleted p u.log → ¬ a) :
    Agree gone p (if a then ioWrite ops env p u else some u)
        (if b then ioWrite ops' env p v else some v) ↔
      (pending p u = 0 ∨ (a ↔ b)) ∧
        (gone = true → ¬ Deleted p u.log ∧
          (a → ∀ x, ioWrite ops env p u = some x → ¬ WriteBroke p (since u x))) := by
  have hpv : v.ios p ≠ none := h.ios ▸ hp
  rw [Agree, writes_agree ha ha' h hp]
  refine and_congr_right fun hdec => imp_congr_right fun _ => ?_
  constructor
  · rintro ⟨hx, -⟩
    have hopen : ¬ Deleted p u.log := by
      intro hdel
      rw [if_neg (hda hdel)] at hx
      exact hu.mp (hx u rfl) hdel
    refine ⟨hopen, fun hca x hrun hbroke => ?_⟩
    rw [if_pos hca] at hx
    rcases ioWrite_fate hp hrun with ⟨hbreaks, -⟩ | ⟨-, hkept⟩
    · have hany := hbreaks.since.2
      rw [any_breaks_iff.mpr hbroke] at hany
      cases hany
    · exact hkept (hx x hrun)
  · rintro ⟨hopen, hsound⟩
    refine ⟨fun x hx => ?_, fun y hy => ?_⟩
    · split_ifs at hx with hca
      · rcases ioWrite_fate hp hx with ⟨-, hdeletes⟩ | ⟨hbreaks, -⟩
        · exact kept_of_open (hdeletes.notDeleted hopen)
        · exact absurd (any_breaks_iff.mp hbreaks.since.2) (hsound hca x hx)
      · cases hx
        exact hu.mpr hopen
    · have hopen' : ¬ Deleted p v.log := mt (h.deleted_iff p).mpr hopen
      split_ifs at hy with hcb
      · rcases ioWrite_fate hpv hy with ⟨-, hdeletes⟩ | ⟨hbreaks, -⟩
        · exact kept_of_open (hdeletes.notDeleted hopen')
        · rcases hdec with hidle | hab
          · refine absurd hbreaks (idle_unbroken hpv ?_ hy)
            rw [← hidle, pending, pending, h.ios]
          · have hbroke := any_breaks_iff.mp hbreaks.since.2
            exact absurd hbroke (unbroken_same ha ha' h hp (hsound (hab.mpr hcb)) y hy)
      · cases hy
        exact kept_of_open hopen'

end

/-- The local of the epoll version is 0 at the write half. If it has read, `io->rd.err` was 0
before, and in this call `read()` gave neither EOF nor an error for good and no handler asked
to close; if not, the content of the local happens to be 0. -/
def Clear (rc : Int) (p : Ptr) (events : Nat) (w w₁ : IoWorld R) : Prop :=
  if events &&& EPOLLIN ≠ 0 then rdErr w p = 0 ∧ (since w w₁).any (trouble p) = false
  else rc = 0

instance (rc : Int) (p : Ptr) (events : Nat) (w w₁ : IoWorld R) :
    Decidable (Clear rc p events w w₁) := by
  unfold Clear
  infer_instance

section
variable {ops : RegOps R} {env : IoEnv} {rc : Int} {w w₁ : IoWorld R} {p : Ptr} {events : Nat}

theorem readHalf_conn (hp : w.ios p ≠ none) (hread : readHalf ops env p events w = some w₁) :
    w₁.ios p ≠ none := by
  unfold readHalf at hread
  split at hread
  · obtain ⟨bad, hgrown, -⟩ := ioRead_err hread
    exact hgrown.conn
  · cases hread
    exact hp

/-- The read half deletes a connection if and only if `read()` ended the stream. -/
theorem readHalf_deleted (hopen : ¬ Deleted p w.log)
    (hread : readHalf ops env p events w = some w₁) :
    Deleted p w₁.log ↔ ReadEnded p (since w w₁) := by
  unfold readHalf at hread
  split at hread
  · obtain ⟨ended, hends, hdeletes⟩ := ioRead_fate hread
    rw [← any_ends_iff, hends.since.2]
    cases ended with
    | false => exact iff_of_false (hdeletes.notDeleted hopen) Bool.false_ne_true
    | true => exact iff_of_true hdeletes.deleted rfl
  · cases hread
    apply iff_of_false hopen
    simp [since, ReadEnded]

/-- A connection that is clear has not been deleted. -/
theorem Clear.open (hclear : Clear rc p events w w₁) (hopen : ¬ Deleted p w.log)
    (hread : readHalf ops env p events w = some w₁) : ¬ Deleted p w₁.log := by
  rw [readHalf_deleted hopen hread]
  rintro ⟨last, hlast⟩
  unfold Clear at hclear
  split at hclear
  · have hquiet := List.any_eq_false.mp hclear.2 _ hlast
    simp [trouble] at hquiet
  · next hin =>
    rw [readHalf, if_neg hin] at hread
    cases hread
    simp [since] at hlast

/-- The write half under its mask. -/
theorem ioWriteHalf_eq (p : Ptr) (events : Nat) (w : IoWorld R) :
    ioWriteHalf ops env p events w =
      if events &&& EPOLLOUT ≠ 0 then ioWrite ops env p (w.note (.test p events))
      else some (w.note (.test p events)) := rfl

theorem kept_test {log : List IoEv} : Kept p (log ++ [.test p events]) ↔ Kept p log := by
  refine ⟨Kept.init, fun h => List.pairwise_append.mpr ⟨h, List.pairwise_singleton _ _, ?_⟩⟩
  rintro e - e' he' -
  rw [List.mem_singleton.mp he']
  rfl

variable (rc) in
/-- The epoll version after its read half. -/
theorem ioCbEpollWith_write (herr : events &&& EPOLLERR = 0) (hopen : ¬ Deleted p w.log)
    (hread : readHalf ops env p events w = some w₁) :
    ∃ w₂, SameConns w₂ w₁ ∧ (Kept p w₂.log ↔ ¬ Deleted p w₂.log) ∧
      ioCbEpollWith ops env rc p events w =
        if Clear rc p events w w₁ ∧ events &&& EPOLLOUT ≠ 0 then ioWrite ops env p w₂
        else some w₂ := by
  have hhalf : ∀ (rc' : Int) (x : IoWorld R), SameConns x w₁ →
      (Kept p x.log ↔ ¬ Deleted p x.log) → (rc' = 0 ↔ Clear rc p events w w₁) →
      ∃ w₂, SameConns w₂ w₁ ∧ (Kept p w₂.log ↔ ¬ Deleted p w₂.log) ∧
        (if rc' ≠ 0 then some x else ioWriteHalf ops env p events x) =
          if Clear rc p events w w₁ ∧ events &&& EPOLLOUT ≠ 0 then ioWrite ops env p w₂
          else some w₂ := by
    intro rc' x hx hkept hclear
    by_cases hrc : rc' = 0
    · have hc := hclear.mp hrc
      refine ⟨x.note (.test p events), hx.noteLeft rfl, ?_, ?_⟩
      · simp only [IoWorld.note, kept_test, hkept, deleted_append, deleted_cons, IoEv.deletes,
          not_deleted_nil, or_false, Bool.false_eq_true]
      · simp only [hrc, hc, ne_eq, not_true_eq_false, ↓reduceIte, true_and, ioWriteHalf_eq]
    · have hc : ¬ Clear rc p events w w₁ := mt hclear.mpr hrc
      refine ⟨x, hx, hkept, ?_⟩
      simp only [hrc, hc, ne_eq, not_false_eq_true, ↓reduceIte, false_and]
  unfold ioCbEpollWith
  rw [if_neg (not_not_intro herr)]
  by_cases hin : events &&& EPOLLIN = 0
  · rw [readHalf, if_neg (not_not_intro hin)] at hread
    cases hread
    simp only [hin, ne_eq, not_true_eq_false, ↓reduceIte, Option.bind_some]
    apply hhalf rc w (SameConns.refl w) (iff_of_true (kept_of_open hopen) hopen)
    rw [Clear, if_neg (not_not_intro hin)]
  · rw [readHalf, if_pos hin] at hread
    simp only [hin, ne_eq, not_false_eq_true, ↓reduceIte, hread, Option.map_some,
      Option.bind_some]
    refine hhalf (rdErr w₁ p) (w₁.note (.access p)) ((SameConns.refl w₁).noteLeft rfl) ?_ ?_
    · -- the epoll version looks at `io->rd.err` whatever has happened
      have hdel : Deleted p (w₁.note (.access p)).log ↔ Deleted p w₁.log := by
        simp only [IoWorld.note, deleted_append, deleted_cons, IoEv.deletes, not_deleted_nil,
          or_false, Bool.false_eq_true]
      rw [hdel]
      refine ⟨fun hkept hdeleted => not_kept hdeleted hkept, fun hnot => ?_⟩
      exact kept_of_open (mt hdel.mp hnot)
    · obtain ⟨bad, hgrown, hiff⟩ := ioRead_err hread
      rw [Clear, if_pos hin, hiff, hgrown.since.2]

theorem ioCbPoll_write (revents : R → Nat) (hmask : revents w.reg = events)
    (herr : events &&& EPOLLERR = 0) (hread : readHalf ops env p events w = some w₁) :
    ∃ w₂, SameConns w₂ w₁ ∧ ioCbPoll ops env p revents w =
      if revents w₁.reg &&& EPOLLOUT ≠ 0 then ioWrite ops env p w₂ else some w₂ := by
  refine ⟨w₁.note (.test p (revents w₁.reg)), (SameConns.refl w₁).noteLeft rfl, ?_⟩
  have hbind : ioCbPoll ops env p revents w =
      (readHalf ops env p events w).bind fun w => ioWriteHalf ops env p (revents w.reg) w := by
    rw [ioCbPoll, hmask, if_neg (not_not_intro herr)]
    rfl
  rw [hbind, hread, Option.bind_some, ioWriteHalf_eq]

theorem readHalf_none (hread : readHalf ops env p events w = none) :
    events &&& EPOLLIN ≠ 0 ∧ ioRead ops env p w = none := by
  unfold readHalf at hread
  split at hread
  · next hin => exact ⟨hin, hread⟩
  · cases hread

/-- A handler that never comes to an end hangs both versions. -/
theorem ioCbEpollWith_none (herr : events &&& EPOLLERR = 0)
    (hread : readHalf ops env p events w = none) :
    ioCbEpollWith ops env rc p events w = none := by
  obtain ⟨hin, hread⟩ := readHalf_none hread
  simp only [ioCbEpollWith, herr, hin, hread, ne_eq, not_true_eq_false, not_false_eq_true,
    ↓reduceIte, Option.map_none, Option.bind_none]

theorem ioCbPoll_none (revents : R → Nat) (hmask : revents w.reg = events)
    (herr : events &&& EPOLLERR = 0) (hread : readHalf ops env p events w = none) :
    ioCbPoll ops env p revents w = none := by
  obtain ⟨hin, hread⟩ := readHalf_none hread
  simp only [ioCbPoll, hmask, herr, hin, hread, ne_eq, not_true_eq_false, not_false_eq_true,
    ↓reduceIte, Option.bind_none]

theorem hpIoTOnError_effects {io : HpIoT} (hio : w.ios p = some io) (err : Int)
    (errstr : ErrStr) : (hpIoTOnError ops env p err errstr w).effects =
      w.effects ++ [.rm p io.fd, .close p io.fd, .delete p err errstr] := by
  have hacts : ∀ (x : IoWorld R) (as : List IoAct), x.ios p ≠ none →
      (doActs ops env x as).log = x.log := by
    intro x as hx
    obtain ⟨seg, hlog, hany⟩ :=
      ((Grown.refl hx).acts ops env as : Grown (fun _ => true) x p false _).log
    cases seg with
    | nil => rw [hlog, List.append_nil]
    | cons e seg => cases hany
  unfold hpIoTOnError
  rw [hio]
  dsimp only
  rw [IoWorld.effects, hacts]
  · simp [IoWorld.note, IoWorld.step, hpIoRm, IoWorld.effects, IoEv.effect]
  · simp [IoWorld.note, IoWorld.step, hpIoRm, IoWorld.setWr, IoWorld.setIo, hio]

end

/-- The two versions decide alike about the write half, or it makes no difference. -/
def DecideAlike (env : IoEnv) (rc : Int) (p : Ptr) (events index : Nat)
    (w : IoWorld (HpEpoll IoFn Bool)) (w' : IoWorld (HpPoll IoFn Bool)) : Prop :=
  ∀ w₁ w₁', readHalf epollOps env p events w = some w₁ →
    readHalf pollOps env p events w' = some w₁' →
    pending p w₁ = 0 ∨
      (Clear rc p events w w₁ ∧ events &&& EPOLLOUT ≠ 0 ↔
        w₁'.reg.revents index &&& EPOLLOUT ≠ 0)

/-- The connection is open at the end: `read()` gives neither EOF nor an error for good, and in
a write half that is made no `writev` fails for good. -/
def Survives (env : IoEnv) (rc : Int) (p : Ptr) (events : Nat)
    (w : IoWorld (HpEpoll IoFn Bool)) : Prop :=
  ∀ w₁, readHalf epollOps env p events w = some w₁ →
    ¬ ReadEnded p (since w w₁) ∧
      (Clear rc p events w w₁ ∧ events &&& EPOLLOUT ≠ 0 →
        ∀ w₂, ioWrite epollOps env p w₁ = some w₂ → ¬ WriteBroke p (since w₁ w₂))

theorem epollOps_go {env : IoEnv} (hctl : ∀ t, (env.ctl t).ret = 0 ∨ (env.ctl t).errno ≠ EEXIST) :
    AddsGo epollOps env := by
  intro t r fd events cb hint
  rw [epollOps, Option.isSome_map]
  exact hpEpollAdd_total (fun _ _ _ => hctl t) r fd events cb hint ()

theorem pollOps_go (env : IoEnv) : AddsGo pollOps env := fun _ _ _ _ _ _ => rfl

/-- From the same connections, with the same mask and the same answers from outside, the two
versions of the callback agree if and only if the mask has no `EPOLLERR`, which `on_delete` gets
under another name in each, they decide alike about the write half, or it makes no difference,
and, where `on_delete` releases the connection, it is open at the end. -/
theorem io_cb_agrees (gone : Bool) (env : IoEnv) (rc : Int) (p : Ptr) (events index : Nat)
    (w : IoWorld (HpEpoll IoFn Bool)) (w' : IoWorld (HpPoll IoFn Bool))
    (hctl : ∀ t, (env.ctl t).ret = 0 ∨ (env.ctl t).errno ≠ EEXIST)
    (h : SameConns w w') (hp : w.ios p ≠ none) (hopen : ¬ Deleted p w.log)
    (hmask : w'.reg.revents index = events) :
    Agree gone p (ioCbEpollWith epollOps env rc p events w)
        (ioCbPoll pollOps env p (fun po => po.revents index) w') ↔
      events &&& EPOLLERR = 0 ∧ DecideAlike env rc p events index w w' ∧
        (gone = true → Survives env rc p events w) := by
  have hgo := epollOps_go hctl
  have hgo' := pollOps_go env
  by_cases herr : events &&& EPOLLERR = 0
  · rw [and_iff_right herr]
    have hrel : Option.Rel SameConns (readHalf epollOps env p events w)
        (readHalf pollOps env p events w') := by
      unfold readHalf
      split
      · exact ioRead_same hgo hgo' p h
      · exact .some h
    cases hread : readHalf epollOps env p events w with
    | none =>
      rw [hread] at hrel
      have hread' : readHalf pollOps env p events w' = none := by
        revert hrel
        cases readHalf pollOps env p events w' with
        | none => exact fun _ => rfl
        | some w₁' => exact fun hrel => by cases hrel
      rw [ioCbEpollWith_none herr hread,
        ioCbPoll_none (fun po => po.revents index) hmask herr hread']
      refine iff_of_true ⟨rfl, fun _ => ⟨nofun, nofun⟩⟩
        ⟨fun w₁ w₁' hw₁ => ?_, fun _ w₁ hw₁ => ?_⟩
      · rw [hread] at hw₁
        cases hw₁
      · rw [hread] at hw₁
        cases hw₁
    | some w₁ =>
      rw [hread] at hrel
      obtain ⟨w₁', hread', h₁⟩ : ∃ w₁', readHalf pollOps env p events w' = some w₁' ∧
          SameConns w₁ w₁' := by
        revert hrel
        cases readHalf pollOps env p events w' with
        | none => exact fun hrel => by cases hrel
        | some w₁' => exact fun hrel => by cases hrel with | some h₁ => exact ⟨w₁', rfl, h₁⟩
      obtain ⟨w₂, h₂, hkept, hepoll⟩ := ioCbEpollWith_write rc herr hopen hread
      obtain ⟨w₂', h₂', hpoll⟩ := ioCbPoll_write (fun po => po.revents index) hmask herr hread'
      have hboth : SameConns w₂ w₂' := (h₂.trans h₁).trans h₂'.symm
      have hp₁ : w₁.ios p ≠ none := readHalf_conn hp hread
      have hp₂ : w₂.ios p ≠ none := h₂.ios ▸ hp₁
      have hdel : Deleted p w₂.log ↔ ReadEnded p (since w w₁) :=
        (h₂.deleted_iff p).trans (readHalf_deleted hopen hread)
      have hwrites : (∀ x, ioWrite epollOps env p w₂ = some x → ¬ WriteBroke p (since w₂ x)) ↔
          ∀ x, ioWrite epollOps env p w₁ = some x → ¬ WriteBroke p (since w₁ x) :=
        ⟨unbroken_same hgo hgo h₂ hp₂, unbroken_same hgo hgo h₂.symm hp₁⟩
      have hpending : pending p w₂ = pending p w₁ := by rw [pending, pending, h₂.ios]
      rw [hepoll, hpoll, halves_agree gone hgo hgo' hboth hp₂ hkept _ _
        (fun hd hclear => hclear.1.open hopen hread ((h₂.deleted_iff p).mp hd)), hpending, hdel,
        hwrites]
      refine and_congr ⟨fun hcase x x' hx hx' => ?_, fun hall => hall w₁ w₁' hread hread'⟩
        (imp_congr_right fun _ => ⟨fun hsound x hx => ?_, fun hall => hall w₁ hread⟩)
      · rw [hread] at hx
        rw [hread'] at hx'
        cases hx
        cases hx'
        exact hcase
      · rw [hread] at hx
        cases hx
        exact hsound
  · refine iff_of_false (fun hagree => ?_) fun hcond => herr hcond.1
    obtain ⟨io, hio⟩ := Option.ne_none_iff_exists'.mp hp
    have hepoll : ioCbEpollWith epollOps env rc p events w =
        some (hpIoTOnError epollOps env p EPOLLERR .epollErr w) := if_pos herr
    have hpoll : ioCbPoll pollOps env p (fun po => po.revents index) w' =
        some (hpIoTOnError pollOps env p EPOLLERR .pollErr w') := by
      rw [ioCbPoll, hmask]
      exact if_pos herr
    rw [Agree, hepoll, hpoll] at hagree
    have heffects := congrArg Prod.fst (Option.some.inj hagree.1)
    rw [outcome, outcome, hpIoTOnError_effects hio, hpIoTOnError_effects (h.ios ▸ hio),
      h.effects] at heffects
    simp at heffects

/-- An outside in which `read()` delivers one byte, `on_parse` answers `n` and takes it, and
`writev` takes one byte. -/
def oneByte (n : Int) : IoEnv where
  read _ := ⟨[[7]], .fail EAGAIN⟩
  writev _ := ⟨1, 0⟩
  parse _ := ⟨n, [], []⟩
  dispatch _ := ⟨0, []⟩
  loop _ := ⟨0, []⟩
  delete _ := []
  accept _ := []
  ctl _ := ⟨0, 0⟩
  uninit _ := 0
  iovMax := 1024

/-- A connection is added, and one byte is queued for it. -/
def queued : List IoAct :=
  [.add 5 ⟨false, true, false, false⟩, .write 1 ⟨1, [9], 1, Nat.le_refl 1⟩ .null 0 0]

def queuedEpoll (n : Int) : IoWorld (HpEpoll IoFn Bool) :=
  doActs epollOps (oneByte n) (initWorld (hpEpollInit 4)) queued

/-- `poll` has reported `events` for it. -/
def queuedPoll (n : Int) (events : Nat) : IoWorld (HpPoll IoFn Bool) :=
  let w := doActs pollOps (oneByte n) (initWorld (hpPollInit 4)) queued
  { w with reg := w.reg.fill fun _ => events }

theorem queued_same (n : Int) (events : Nat) :
    SameConns (queuedEpoll n) (queuedPoll n events) := by
  have hinit : SameConns (initWorld (hpEpollInit 4 : HpEpoll IoFn Bool))
      (initWorld (hpPollInit 4 : HpPoll IoFn Bool)) := ⟨rfl, rfl, rfl, rfl⟩
  have hgo : AddsGo epollOps (oneByte n) := epollOps_go fun _ => .inl rfl
  obtain ⟨hios, hnext, htick, heffects⟩ :=
    doActs_same hgo (pollOps_go (oneByte n)) queued hinit
  exact ⟨hios, hnext, htick, heffects⟩

/-- Nothing goes wrong: both versions read, parse and write. -/
theorem io_cb_agrees_both :
    Agree true 1 (ioCbEpollWith epollOps (oneByte 0) 0 1 5 (queuedEpoll 0))
      (ioCbPoll pollOps (oneByte 0) 1 (fun po => po.revents 1) (queuedPoll 0 5)) := by
  refine (io_cb_agrees true (oneByte 0) 0 1 5 1 (queuedEpoll 0) (queuedPoll 0 5)
    (fun _ => .inl rfl) (queued_same 0 5) (by decide +kernel) (by decide +kernel)
    (by decide +kernel)).mpr ⟨by decide, fun w₁ w₁' h h' => ?_, fun _ w₁ h => ⟨?_, ?_⟩⟩
  · have hclear : (readHalf epollOps (oneByte 0) 1 5 (queuedEpoll 0)).all
        (fun x => decide (Clear 0 1 5 (queuedEpoll 0) x)) = true := by decide +kernel
    have hmask : (readHalf pollOps (oneByte 0) 1 5 (queuedPoll 0 5)).all
        (fun x => decide (x.reg.revents 1 &&& EPOLLOUT ≠ 0)) = true := by decide +kernel
    rw [h] at hclear
    rw [h'] at hmask
    exact .inr (iff_of_true ⟨of_decide_eq_true hclear, by decide⟩ (of_decide_eq_true hmask))
  · have hread : (readHalf epollOps (oneByte 0) 1 5 (queuedEpoll 0)).all
        (fun x => decide (¬ ReadEnded 1 (since (queuedEpoll 0) x))) = true := by decide +kernel
    rw [h] at hread
    exact of_decide_eq_true hread
  · intro _ w₂ h₂
    have hwrite : (readHalf epollOps (oneByte 0) 1 5 (queuedEpoll 0)).all (fun x =>
        (ioWrite epollOps (oneByte 0) 1 x).all
          (fun y => decide (¬ WriteBroke 1 (since x y)))) = true := by decide +kernel
    rw [h, Option.all_some, h₂] at hwrite
    exact of_decide_eq_true hwrite

/-- `on_parse` asks to close, and only the poll version goes on to write; or the mask has only
`EPOLLOUT`, the local is not 0, and again only the poll version writes; or the mask has only
`EPOLLERR`, and `on_delete` is told `EPOLLERR` by one and `POLLERR` by the other. -/
theorem io_cb_differs :
    SameConns (queuedEpoll (-1)) (queuedPoll (-1) 5) ∧
    (ioCbEpollWith epollOps (oneByte (-1)) 0 1 5 (queuedEpoll (-1))).map (outcome 1) ≠
      (ioCbPoll pollOps (oneByte (-1)) 1 (fun po => po.revents 1) (queuedPoll (-1) 5)).map
        (outcome 1) ∧
    SameConns (queuedEpoll 0) (queuedPoll 0 4) ∧
    (ioCbEpollWith epollOps (oneByte 0) 1 1 4 (queuedEpoll 0)).map (outcome 1) ≠
      (ioCbPoll pollOps (oneByte 0) 1 (fun po => po.revents 1) (queuedPoll 0 4)).map
        (outcome 1) ∧
    SameConns (queuedEpoll 0) (queuedPoll 0 8) ∧
    (ioCbEpollWith epollOps (oneByte 0) 0 1 8 (queuedEpoll 0)).map (outcome 1) ≠
      (ioCbPoll pollOps (oneByte 0) 1 (fun po => po.revents 1) (queuedPoll 0 8)).map
        (outcome 1) := by
  refine ⟨queued_same (-1) 5, fun heq => ?_, queued_same 0 4, fun heq => ?_, queued_same 0 8,
    fun heq => ?_⟩
  · exact absurd (congrArg (Option.map Prod.fst) heq) (by decide +kernel)
  · exact absurd (congrArg (Option.map Prod.fst) heq) (by decide +kernel)
  · exact absurd (congrArg (Option.map Prod.fst) heq) (by decide +kernel)

end
end Libhp.Ev
