import Libhp.Io.IoTSeg

/-!
# Callbacks and what they leave behind

`io_cb` in both versions, `on_accept` and `on_loop`. Whatever happens, a callback is
calm, or a handler asked to close and the connection stays open, or
`hp_io_t_on_error` ran once. What may come after it is the difference between the
backends.
-/
namespace Libhp.Io
open Libhp.Ev (HpPolld EPOLLIN EPOLLOUT EPOLLERR)

/-- The entry is about the connection and does not take it apart. -/
def IoEv.work (p : Ptr) : IoEv → Bool
  | access q | read q _ | write q _ | answer q _ _ | test q _ => q = p
  | _ => false

/-- A field of the `hp_io_t` is read or written, or a callback is made for it. -/
def IoEv.uses (p : Ptr) : IoEv → Bool
  | call q | access q | read q _ | write q _ | answer q _ _ | rm q _ | close q _ | delete q _ _ => q = p
  | test _ _ => false

def Work (p : Ptr) (seg : List IoEv) : Prop := ∀ e ∈ seg, e.work p = true

theorem work_of_calm {p : Ptr} {e : IoEv} (h : e.calm p = true) : e.work p = true := by
  cases e with
  | read q r =>
    cases r with
    | got chunk => exact h
    | done last => cases h
  | write q r => exact (Bool.and_eq_true_iff.mp h).1
  | answer q hd rc => exact (Bool.and_eq_true_iff.mp h).1
  | access q => exact h
  | test q events => exact h
  | call q => cases h
  | rm q fd => cases h
  | close q fd => cases h
  | delete q err errstr => cases h

theorem Calm.work {p : Ptr} {seg : List IoEv} (h : Calm p seg) : Work p seg :=
  fun e he => work_of_calm (h e he)

theorem Work.nil (p : Ptr) : Work p [] := fun _ h => absurd h List.not_mem_nil

theorem Work.append {p : Ptr} {a b : List IoEv} (ha : Work p a) (hb : Work p b) :
    Work p (a ++ b) := fun e he => (List.mem_append.mp he).elim (ha e) (hb e)

theorem Work.one {p : Ptr} {e : IoEv} (h : e.work p = true) : Work p [e] :=
  fun _ he => List.mem_singleton.mp he ▸ h

theorem Asked.work {p : Ptr} {seg : List IoEv} (h : Asked p seg) : Work p seg := by
  obtain ⟨c, hd, rc, rfl, hc, -, -⟩ := h
  exact hc.work.append (Work.one (by simp [IoEv.work]))

/-- `read()` ended the stream or `writev` failed for good. -/
def ReadEnded (p : Ptr) (seg : List IoEv) : Prop := ∃ e, .read p (.done e) ∈ seg

def WriteBroke (p : Ptr) (seg : List IoEv) : Prop := ∃ r, .write p r ∈ seg ∧ r.hard = true

def IoEv.ends (p : Ptr) : IoEv → Bool
  | read q (.done _) => q = p
  | _ => false

def IoEv.breaks (p : Ptr) : IoEv → Bool
  | write q r => q = p && r.hard
  | _ => false

theorem any_ends_iff {p : Ptr} {seg : List IoEv} :
    seg.any (IoEv.ends p) = true ↔ ReadEnded p seg := by
  rw [List.any_eq_true]
  constructor
  · intro ⟨e, he, hends⟩
    unfold IoEv.ends at hends
    split at hends
    · next q last =>
      cases of_decide_eq_true hends
      exact ⟨last, he⟩
    · cases hends
  · intro ⟨last, he⟩
    exact ⟨_, he, by simp [IoEv.ends]⟩

theorem any_breaks_iff {p : Ptr} {seg : List IoEv} :
    seg.any (IoEv.breaks p) = true ↔ WriteBroke p seg := by
  rw [List.any_eq_true]
  constructor
  · intro ⟨e, he, hbreaks⟩
    unfold IoEv.breaks at hbreaks
    split at hbreaks
    · next q r =>
      obtain ⟨hq, hr⟩ := Bool.and_eq_true_iff.mp hbreaks
      cases of_decide_eq_true hq
      exact ⟨r, he, hr⟩
    · cases hbreaks
  · intro ⟨r, he, hr⟩
    exact ⟨_, he, by simp [IoEv.breaks, hr]⟩

instance (p : Ptr) (seg : List IoEv) : Decidable (ReadEnded p seg) :=
  decidable_of_iff _ any_ends_iff

instance (p : Ptr) (seg : List IoEv) : Decidable (WriteBroke p seg) :=
  decidable_of_iff _ any_breaks_iff

/-- The ways a callback for `p` can go; `late` says when the library goes on with a
connection that it has deleted. -/
inductive CbOut (late : Ptr → List IoEv → Prop) (p : Ptr) (seg : List IoEv) : Prop
  | calm (h : Calm p seg)
  | asked (c : List IoEv) (hd : Handler) (rc : Int) (t : List IoEv)
      (hseg : seg = c ++ .answer p hd rc :: t) (hrc : rc < 0) (hc : Calm p c) (ht : Calm p t)
  | closed (c : List IoEv) (fd err : Int) (errstr : ErrStr) (t : List IoEv)
      (hseg : seg = c ++ errSeg p fd err errstr ++ t)
      (hc : Work p c) (ht : Calm p t) (htail : (∀ e ∈ t, e.uses p = false) ∨ late p seg)

/-- The epoll version tests `io->rd.err` whenever `read_error` has run. -/
def epollLate (p : Ptr) (seg : List IoEv) : Prop := ReadEnded p seg ∨ WriteBroke p seg

/-- The poll version goes on to the write half if the slot still says `POLLOUT`. -/
def pollLate (p : Ptr) (seg : List IoEv) : Prop :=
  (ReadEnded p seg ∧ ∃ events, .test p events ∈ seg ∧ events &&& EPOLLOUT ≠ 0) ∨
    WriteBroke p seg

theorem CbOut.ofAsked {late : Ptr → List IoEv → Prop} {p : Ptr} {a t : List IoEv}
    (ha : Asked p a) (ht : Calm p t) : CbOut late p (a ++ t) := by
  obtain ⟨c, hd, rc, rfl, hc, -, hrc⟩ := ha
  exact .asked c hd rc t (by simp) hrc hc ht

theorem ReadFailed.shape {p : Ptr} {seg : List IoEv} (h : ReadFailed p seg) :
    ∃ c fd err errstr, seg = c ++ errSeg p fd err errstr ∧ Work p c ∧ ReadEnded p c := by
  obtain ⟨c, last, d, fd, err, errstr, rfl, hc, hd⟩ := h
  refine ⟨c ++ .read p (.done last) :: d, fd, err, errstr, by simp, ?_, last, by simp⟩
  have hd' : Work p d := hd.elim Calm.work Asked.work
  exact hc.work.append ((Work.one (by simp [IoEv.work])).append hd')

theorem WriteFailed.shape {p : Ptr} {seg : List IoEv} (h : WriteFailed p seg) :
    ∃ c fd err errstr, seg = c ++ errSeg p fd err errstr ++ [.access p] ∧ Work p c ∧
      WriteBroke p c := by
  obtain ⟨c, r, fd, err, errstr, rfl, hc, hr⟩ := h
  refine ⟨c ++ [.write p r], fd, err, errstr, by simp, ?_, r, by simp, hr⟩
  exact hc.work.append (Work.one (by simp [IoEv.work]))

theorem calm_access (p : Ptr) : Calm p [.access p] := Calm.one (by simp [IoEv.calm])

theorem calm_test (p : Ptr) (events : Nat) : Calm p [.test p events] :=
  Calm.one (by simp [IoEv.calm])

section
variable {R : Type} {ops : RegOps R} {env : IoEnv} {L : RegLaws ops}
  {m : OrdMap Int (HpPolld IoFn Bool)} {w w' : IoWorld R} {p : Ptr}

theorem access_moves (h : WInv L w m) (p : Ptr) : Moves L p w [.access p] (w.note (.access p)) :=
  Moves.note h (fun _ => rfl) p

/-- With an empty queue `hp_wr_write` only looks at its length. -/
theorem ioWrite_empty (h : WInv L w m) (hempty : Emptied p w)
    (hrun : ioWrite ops env p w = some w') : Moves L p w [.access p] w' := by
  obtain ⟨io, hio, hlen⟩ := hempty
  obtain ⟨io', hio', hmap⟩ := Option.bind_eq_some_iff.mp hrun
  rw [hio] at hio'
  cases hio'
  obtain ⟨⟨n, wr, w₁⟩, hwrite, rfl⟩ := Option.map_eq_some_iff.mp hmap
  rw [hpWrWrite, if_pos hlen] at hwrite
  cases hwrite
  exact (access_moves h p).setWr io.wr

/-- `hp_wr_write` on a connection. -/
theorem ioWrite_spec (h : WInv L w m) (hrun : ioWrite ops env p w = some w') :
    ∃ seg, Moves L p w seg w' ∧ (Calm p seg ∨ WriteFailed p seg) := by
  obtain ⟨io, hio, hmap⟩ := Option.bind_eq_some_iff.mp hrun
  obtain ⟨⟨n, wr', w₁⟩, hwrite, rfl⟩ := Option.map_eq_some_iff.mp hmap
  let I : IoWorld R → Prop := fun x => ∃ seg, Moves L p w seg x ∧ Calm p seg
  let H : IoWorld R → Prop := fun x =>
    ∃ c r, Moves L p w (c ++ [.write p r]) x ∧ Calm p c ∧ r.hard = true
  let E : HpWr → IoWorld R → Prop := fun _ x => ∃ seg, Moves L p w seg x ∧ WriteFailed p seg
  have hwritev : ∀ x, I x → ∃ c, Moves L p w (c ++ [.write p (env.writev x.tick)])
      (x.step.note (.write p (env.writev x.tick))) ∧ Calm p c := by
    rintro x ⟨c, hmove, hc⟩
    obtain ⟨m₁, h₁⟩ := hmove.inv
    exact ⟨c, hmove.trans ((Moves.step h₁ p).trans (Moves.note h₁.step (fun _ => rfl) p)), hc⟩
  have hout : I w₁ ∨ E wr' w₁ := by
    refine hpWrWrite_rule (I := I) (H := H) (E := E) ?_ ?_ ?_ ?_ ?_ hwrite
      ⟨_, access_moves h p, calm_access p⟩
    · intro vec x hx hsoft
      obtain ⟨c, hmove, hc⟩ := hwritev x hx
      have hsoft' : (env.writev x.tick).hard = false := hsoft
      exact ⟨_, hmove, hc.append (Calm.one (by simp [IoEv.calm, hsoft']))⟩
    · intro vec x hx hhard
      obtain ⟨c, hmove, hc⟩ := hwritev x hx
      exact ⟨c, _, hmove, hc, hhard⟩
    · intro f q x hx
      exact hx
    · intro f q x hx
      exact hx
    · rintro wr err x ⟨c, r, hmove, hc, hr⟩
      have hset : Moves L p w (c ++ [.write p r]) (x.setWr p wr) := hmove.setWr wr
      obtain ⟨m₁, h₁⟩ := hset.inv
      obtain ⟨io₁, hio₁, -⟩ := hset.same io hio
      have herr : Moves L p (x.setWr p wr) (errSeg p io₁.fd err (.strerror err))
          (hpIoTOnError ops env p err (.strerror err) (x.setWr p wr)) :=
        (hpIoTOnError_spec h₁ hio₁ err (.strerror err)).1
      obtain ⟨m₂, h₂⟩ := herr.inv
      exact ⟨_, (hset.trans herr).trans (access_moves h₂ p), c, r, io₁.fd, err, .strerror err,
        by simp, hc, hr⟩
  rcases hout with ⟨seg, hmove, hcalm⟩ | ⟨seg, hmove, hfailed⟩
  · exact ⟨seg, hmove.setWr wr', .inl hcalm⟩
  · exact ⟨seg, hmove.setWr wr', .inr hfailed⟩

theorem acceptLoop_spec : ∀ (as : List AcceptRes) {w : IoWorld R}
    {m : OrdMap Int (HpPolld IoFn Bool)}, WInv L w m →
    ∃ seg, Moves L p w seg (acceptLoop ops env p as w) ∧ Calm p seg := by
  intro as
  induction as with
  | nil =>
    intro w m h
    exact ⟨_, access_moves h p, calm_access p⟩
  | cons a as ih =>
    intro w m h
    have haccess := access_moves h p
    obtain ⟨m₁, h₁⟩ := haccess.inv
    let w₁ := if a.nodelay then doActs ops env (w.note (.access p)) a.acts else w.note (.access p)
    have hone : Moves L p w [.access p] w₁ := by
      by_cases hnodelay : a.nodelay = true
      · simp only [w₁, hnodelay, ↓reduceIte]
        exact haccess.trans (Moves.acts h₁ p a.acts)
      · simp only [w₁, hnodelay]
        exact haccess
    obtain ⟨m₂, h₂⟩ := hone.inv
    obtain ⟨seg, hmove, hcalm⟩ := ih h₂
    exact ⟨_, hone.trans hmove, (calm_access p).append hcalm⟩

theorem onAccept_spec (h : WInv L w m) (p : Ptr) :
    ∃ seg, Moves L p w seg (onAccept ops env p w) ∧ Calm p seg := by
  obtain ⟨seg, hmove, hcalm⟩ : ∃ seg, Moves L p w.step seg
      (acceptLoop ops env p (env.accept w.tick) w.step) ∧ Calm p seg := acceptLoop_spec _ h.step
  exact ⟨seg, (Moves.step h p).trans hmove, hcalm⟩

theorem onLoop_spec (late : Ptr → List IoEv → Prop) (h : WInv L w m) (p : Ptr) :
    ∃ seg, Moves L p w seg (onLoop ops env p w) ∧ CbOut late p seg := by
  have haccess := access_moves h p
  obtain ⟨m₁, h₁⟩ := haccess.inv
  simp only [onLoop]
  split
  · exact ⟨_, haccess, .calm (calm_access p)⟩
  · next io hio =>
    split
    · let rc := (env.loop (w.note (.access p)).tick).rc
      refine ⟨_, haccess.trans (answer_moves h₁ .loop rc _), ?_⟩
      by_cases hrc : rc < 0
      · exact .asked [.access p] .loop rc [] rfl hrc (calm_access p) (Calm.nil p)
      · exact .calm ((calm_access p).append (calm_answer p .loop hrc))
    · exact ⟨_, haccess, .calm (calm_access p)⟩

/-- The write half of `io_cb`. -/
theorem writeHalf_spec {events : Nat} (h : WInv L w m)
    (hrun : ioWriteHalf ops env p events w = some w') :
    ∃ b, Moves L p w (.test p events :: b) w' ∧ (Calm p b ∨ WriteFailed p b) ∧
      (Emptied p w → b = [] ∨ (b = [.access p] ∧ events &&& EPOLLOUT ≠ 0)) := by
  have htest : Moves L p w [.test p events] (w.note (.test p events)) :=
    Moves.note h (fun _ => rfl) p
  obtain ⟨m₁, h₁⟩ := htest.inv
  unfold ioWriteHalf at hrun
  dsimp only at hrun
  split at hrun
  · next hout =>
    by_cases hempty : Emptied p w
    · exact ⟨_, htest.trans (ioWrite_empty h₁ hempty hrun), .inl (calm_access p),
        fun _ => .inr ⟨rfl, hout⟩⟩
    · obtain ⟨b, hb, hres⟩ := ioWrite_spec h₁ hrun
      exact ⟨b, htest.trans hb, hres, fun he => absurd he hempty⟩
  · cases hrun
    exact ⟨[], htest, .inl (Calm.nil p), fun _ => .inl rfl⟩

/-- A write half behind a stretch that left the connection open. -/
theorem CbOut.ofWrite {late : Ptr → List IoEv → Prop}
    (hlate : ∀ seg, WriteBroke p seg → late p seg) {a b : List IoEv} {events : Nat}
    (ha : Calm p a ∨ Asked p a) (hb : Calm p b ∨ WriteFailed p b) :
    CbOut late p (a ++ .test p events :: b) := by
  have htest : ∀ {b}, Calm p b → Calm p (.test p events :: b) :=
    fun hb => (calm_test p events).append hb
  rcases hb with hb | hb
  · rcases ha with ha | ha
    · exact .calm (ha.append (htest hb))
    · exact CbOut.ofAsked ha (htest hb)
  · obtain ⟨c, fd, err, errstr, rfl, hc, r, hr, hhard⟩ := hb.shape
    have hwork : Work p a := ha.elim Calm.work Asked.work
    refine .closed (a ++ .test p events :: c) fd err errstr [.access p] (by simp)
      (hwork.append ((calm_test p events).work.append hc)) (calm_access p) (.inr (hlate _ ?_))
    exact ⟨r, by simp [hr], hhard⟩

theorem CbOut.ofError {late : Ptr → List IoEv → Prop} (p : Ptr) (fd err : Int)
    (errstr : ErrStr) : CbOut late p (errSeg p fd err errstr) :=
  .closed [] fd err errstr [] (by simp) (Work.nil p) (Calm.nil p)
    (.inl fun _ h => absurd h List.not_mem_nil)

/-- `io_cb` of the epoll build. -/
theorem ioCbEpoll_spec {events : Nat} (h : WInv L w m) (hp : w.ios p ≠ none)
    (hrun : ioCbEpoll ops env p events w = some w') :
    ∃ seg, Moves L p w seg w' ∧ CbOut epollLate p seg := by
  have hbroke : ∀ seg, WriteBroke p seg → epollLate p seg := fun _ => .inr
  obtain ⟨io, hio⟩ := Option.ne_none_iff_exists'.mp hp
  unfold ioCbEpoll at hrun
  split at hrun
  · cases hrun
    exact ⟨_, (hpIoTOnError_spec h hio _ _).1, CbOut.ofError p io.fd _ _⟩
  · obtain ⟨⟨rc, w₁⟩, hread, hrest⟩ := Option.bind_eq_some_iff.mp hrun
    split at hread
    · obtain ⟨w₂, hioread, heq⟩ := Option.map_eq_some_iff.mp hread
      cases heq
      obtain ⟨a, ha, hout⟩ := ioRead_spec h hioread
      obtain ⟨m₂, h₂⟩ := ha.inv
      have haccess : Moves L p w (a ++ [.access p]) (w₂.note (.access p)) :=
        ha.trans (access_moves h₂ p)
      obtain ⟨m₃, h₃⟩ := haccess.inv
      dsimp only at hrest
      split at hrest
      · cases hrest
        refine ⟨_, haccess, ?_⟩
        cases hout with
        | calm hc => exact .calm (hc.append (calm_access p))
        | asked hc _ => exact CbOut.ofAsked hc (calm_access p)
        | failed hf _ _ =>
          obtain ⟨c, fd, err, errstr, rfl, hc, e, he⟩ := hf.shape
          exact .closed c fd err errstr [.access p] rfl hc (calm_access p) (.inr (.inl ⟨e, by simp [he]⟩))
      · next hrc =>
        have hcalm : Calm p a := by
          cases hout with
          | calm hc => exact hc
          | asked _ herr => exact absurd herr hrc
          | failed _ herr _ => exact absurd herr hrc
        obtain ⟨b, hb, hres, -⟩ := writeHalf_spec h₃ hrest
        exact ⟨_, haccess.trans hb, CbOut.ofWrite hbroke (.inl (hcalm.append (calm_access p))) hres⟩
    · cases hread
      dsimp only at hrest
      split at hrest
      · cases hrest
        exact ⟨_, Moves.step h p, .calm (Calm.nil p)⟩
      · obtain ⟨b, hb, hres, -⟩ := writeHalf_spec h.step hrest
        exact ⟨_, (Moves.step h p).trans hb, CbOut.ofWrite hbroke (.inl (Calm.nil p)) hres⟩

/-- `io_cb` of the poll build. -/
theorem ioCbPoll_spec {revents : R → Nat} (h : WInv L w m) (hp : w.ios p ≠ none)
    (hrun : ioCbPoll ops env p revents w = some w') :
    ∃ seg, Moves L p w seg w' ∧ CbOut pollLate p seg := by
  have hbroke : ∀ seg, WriteBroke p seg → pollLate p seg := fun _ => .inr
  obtain ⟨io, hio⟩ := Option.ne_none_iff_exists'.mp hp
  unfold ioCbPoll at hrun
  split at hrun
  · cases hrun
    exact ⟨_, (hpIoTOnError_spec h hio _ _).1, CbOut.ofError p io.fd _ _⟩
  · obtain ⟨w₁, hread, hrest⟩ := Option.bind_eq_some_iff.mp hrun
    split at hread
    · obtain ⟨a, ha, hout⟩ := ioRead_spec h hread
      obtain ⟨m₁, h₁⟩ := ha.inv
      obtain ⟨b, hb, hres, hquiet⟩ := writeHalf_spec h₁ hrest
      refine ⟨_, ha.trans hb, ?_⟩
      cases hout with
      | calm hc => exact CbOut.ofWrite hbroke (.inl hc) hres
      | asked hc _ => exact CbOut.ofWrite hbroke (.inr hc) hres
      | failed hf _ hempty =>
        -- the queue is gone, so the write half ends at once
        obtain ⟨c, fd, err, errstr, rfl, hc, e, he⟩ := hf.shape
        rcases hquiet hempty with rfl | ⟨rfl, hpollout⟩
        · exact .closed c fd err errstr _ rfl hc (calm_test p _)
            (.inl fun e' he' => by rw [List.mem_singleton.mp he']; rfl)
        · exact .closed c fd err errstr _ rfl hc ((calm_test p _).append (calm_access p))
            (.inr (.inl ⟨⟨e, by simp [he]⟩, _, by simp, hpollout⟩))
    · cases hread
      obtain ⟨b, hb, hres, -⟩ := writeHalf_spec h hrest
      exact ⟨_, hb, CbOut.ofWrite hbroke (.inl (Calm.nil p)) hres⟩

end
end Libhp.Io
