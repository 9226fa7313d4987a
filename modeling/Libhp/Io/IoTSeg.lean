import Libhp.Io.IoTSpec

/-!
# The events of one callback

The log entries that `hp_io_t_on_error`, a data call, `hp_rd_read`, `hp_wr_write` and
the two versions of `io_cb` add, as a small grammar. A stretch is calm when nothing
failed in it and no handler asked to close.
-/
namespace Libhp.Io
open Libhp.Ev (HpPolld EPOLLIN EPOLLOUT EPOLLERR)

def IoEv.calm (p : Ptr) : IoEv → Bool
  | access q => q = p
  | read q (.got _) => q = p
  | write q r => q = p && !r.hard
  | answer q _ rc => q = p && 0 ≤ rc
  | test q _ => q = p
  | _ => false

def Calm (p : Ptr) (seg : List IoEv) : Prop := ∀ e ∈ seg, e.calm p = true

theorem Calm.nil (p : Ptr) : Calm p [] := fun _ h => absurd h List.not_mem_nil

theorem Calm.append {p : Ptr} {a b : List IoEv} (ha : Calm p a) (hb : Calm p b) :
    Calm p (a ++ b) := fun e he => (List.mem_append.mp he).elim (ha e) (hb e)

theorem Calm.one {p : Ptr} {e : IoEv} (h : e.calm p = true) : Calm p [e] :=
  fun _ he => List.mem_singleton.mp he ▸ h

/-- Calm until a handler asked to close. -/
def Asked (p : Ptr) (seg : List IoEv) : Prop :=
  ∃ c h rc, seg = c ++ [.answer p h rc] ∧ Calm p c ∧ h ≠ .loop ∧ rc < 0

/-- What `hp_io_t_on_error` does, up to `on_delete`. -/
def errSeg (p : Ptr) (fd err : Int) (errstr : ErrStr) : List IoEv :=
  [.access p, .rm p fd, .close p fd, .delete p err errstr]

/-- `read()` gave EOF or an error: the last data call, then `hp_io_t_on_error`. -/
def ReadFailed (p : Ptr) (seg : List IoEv) : Prop :=
  ∃ c last d fd err errstr, seg = c ++ .read p (.done last) :: d ++ errSeg p fd err errstr ∧
    Calm p c ∧ (Calm p d ∨ Asked p d)

/-- `writev` failed for good: `hp_io_t_on_error`, then the store to `wr->err`. -/
def WriteFailed (p : Ptr) (seg : List IoEv) : Prop :=
  ∃ c r fd err errstr, seg = c ++ .write p r :: errSeg p fd err errstr ++ [.access p] ∧
    Calm p c ∧ r.hard = true

section
variable {R : Type} {ops : RegOps R} {env : IoEnv} {L : RegLaws ops}
  {m : OrdMap Int (HpPolld IoFn Bool)} {w w' : IoWorld R} {p : Ptr}

/-- The library got from `w` to `w'` adding `seg` to the log. -/
structure Moves (L : RegLaws ops) (p : Ptr) (w : IoWorld R) (seg : List IoEv) (w' : IoWorld R) :
    Prop where
  inv : ∃ m, WInv L w' m
  same : SameIo p w w'
  log : w'.log = w.log ++ seg

namespace Moves

theorem refl (h : WInv L w m) (p : Ptr) : Moves L p w [] w :=
  ⟨⟨m, h⟩, SameIo.refl p w, (List.append_nil _).symm⟩

theorem trans {w'' : IoWorld R} {a b : List IoEv} (h : Moves L p w a w')
    (h' : Moves L p w' b w'') : Moves L p w (a ++ b) w'' :=
  ⟨h'.inv, h.same.trans h'.same, by rw [h'.log, h.log, List.append_assoc]⟩

theorem note (h : WInv L w m) {e : IoEv} (he : ∀ q, e.deletes q = false) (p : Ptr) :
    Moves L p w [e] (w.note e) :=
  ⟨⟨m, h.note he⟩, fun io hio => ⟨io, hio, rfl⟩, rfl⟩

theorem step (h : WInv L w m) (p : Ptr) : Moves L p w [] w.step :=
  ⟨⟨m, h.step⟩, fun io hio => ⟨io, hio, rfl⟩, (List.append_nil _).symm⟩

theorem acts (h : WInv L w m) (p : Ptr) (acts : List IoAct) :
    Moves L p w [] (doActs ops env w acts) := by
  obtain ⟨hinv, hframe⟩ := doActs_spec acts h
  exact ⟨hinv, hframe.same p, by rw [hframe.log, List.append_nil]⟩

theorem setRd {seg : List IoEv} (h : Moves L p w seg w') (rd : HpRd) :
    Moves L p w seg (w'.setRd p rd) := by
  obtain ⟨m', h'⟩ := h.inv
  exact ⟨⟨m', h'.setRd p rd⟩, h.same.trans (setRd_same w' p p rd), by rw [setRd_log, h.log]⟩

theorem setWr {seg : List IoEv} (h : Moves L p w seg w') (wr : HpWr) :
    Moves L p w seg (w'.setWr p wr) := by
  obtain ⟨m', h'⟩ := h.inv
  exact ⟨⟨m', h'.setWr p wr⟩, h.same.trans (setWr_same w' p p wr), by rw [setWr_log, h.log]⟩

end Moves

/-- The write queue of the connection is empty. -/
def Emptied (p : Ptr) (w : IoWorld R) : Prop :=
  ∃ io, w.ios p = some io ∧ io.wr.oItemsLen = 0

theorem wrFree_len (wr : HpWr) : (wrFree wr).oItemsLen = 0 := by
  simp only [wrFree, hpWrUninit, hpWrClear, hpEtioDelN, Nat.sub_self]

theorem hpIoTOnError_spec (h : WInv L w m) {io : HpIoT} (hio : w.ios p = some io) (err : Int)
    (errstr : ErrStr) :
    Moves L p w (errSeg p io.fd err errstr) (hpIoTOnError ops env p err errstr w) ∧
      Emptied p (hpIoTOnError ops env p err errstr w) := by
  let w₁ := hpIoRm ops env (w.note (.access p)) io.fd
  let w₂ := ((w₁.note (.rm p io.fd)).note (.close p io.fd)).setWr p (wrFree io.wr)
  let w₃ := (w₂.note (.delete p err errstr)).step
  have h₁ : WInv L w₁ (m.erase io.fd) := (hpIoRm_spec (h.note fun _ => rfl) io.fd).1
  have h₂ : WInv L w₂ (m.erase io.fd) := ((h₁.note fun _ => rfl).note fun _ => rfl).setWr p _
  have hio₂ : w₂.ios p = some { io with wr := wrFree io.wr } := by
    simp only [w₂, w₁, hpIoRm, IoWorld.note, IoWorld.setWr, hio, IoWorld.setIo, ↓reduceIte]
  -- every entry of this connection was under its fd, which is out of the registry now
  have hgone : ∀ e ∈ (m.erase io.fd).entries, e.2.arg ≠ p := by
    intro e he heq
    obtain ⟨hmem, hne⟩ := OrdMap.mem_erase he
    obtain ⟨c, hc, hfd, -⟩ := h.entry e hmem
    rw [heq, hio] at hc
    cases hc
    exact hne hfd.symm
  have h₃ : WInv L w₃ (m.erase io.fd) :=
    (h₂.noteDelete (by rw [hio₂]; exact Option.some_ne_none _) hgone err errstr).step
  obtain ⟨hinv, hframe⟩ := doActs_spec
    (env.delete (w₂.note (.delete p err errstr)).tick) h₃
  have hdel : Deleted p w₃.log :=
    ⟨_, List.mem_append_right _ (List.mem_singleton.mpr rfl), decide_eq_true rfl⟩
  obtain ⟨io', hio', hwr⟩ := hframe.wr p _ hdel hio₂
  have hlog : w₃.log = w.log ++ errSeg p io.fd err errstr := by
    change (w₂.log ++ [.delete p err errstr]) = _
    rw [show w₂.log = w.log ++ [.access p, .rm p io.fd, .close p io.fd] by
      simp only [w₂, w₁, setWr_log, hpIoRm, IoWorld.note, List.append_assoc, List.cons_append,
        List.nil_append], List.append_assoc]
    rfl
  have hcode : hpIoTOnError ops env p err errstr w =
      doActs ops env w₃ (env.delete (w₂.note (.delete p err errstr)).tick) := by
    unfold hpIoTOnError
    rw [hio]
  rw [hcode]
  refine ⟨⟨hinv, ?_, hframe.log.trans hlog⟩, io', hio', ?_⟩
  · have hsame : SameIo p w w₃ := by
      intro c hc
      rw [hio] at hc
      cases hc
      exact ⟨_, hio₂, rfl⟩
    exact hsame.trans (hframe.same p)
  · rw [hwr]
    exact wrFree_len io.wr

theorem calm_answer (p : Ptr) (h : Handler) {rc : Int} (hrc : ¬ rc < 0) :
    Calm p [.answer p h rc] := by
  apply Calm.one
  simp only [IoEv.calm, decide_true, Bool.true_and, decide_eq_true_eq]
  exact Int.not_lt.mp hrc

/-- A handler answers and makes its library calls. -/
theorem answer_moves (h : WInv L w m) (hd : Handler) (rc : Int) (acts : List IoAct) :
    Moves L p w [.answer p hd rc] (doActs ops env (w.step.note (.answer p hd rc)) acts) := by
  have hnote := (Moves.step h p).trans (Moves.note h.step (e := .answer p hd rc) (fun _ => rfl) p)
  obtain ⟨m', h'⟩ := hnote.inv
  exact hnote.trans (Moves.acts h' p acts)

/-- An answer after a calm stretch: calm again, or the connection asked to be closed. -/
theorem answer_spec {w' : IoWorld R} {seg : List IoEv} (hmove : Moves L p w seg w')
    (hcalm : Calm p seg) {hd : Handler} (hh : hd ≠ .loop) (rc : Int) (acts : List IoAct) :
    let w'' := doActs ops env (w'.step.note (.answer p hd rc)) acts
    if rc < 0 then ∃ seg, Moves L p w seg w'' ∧ Asked p seg
    else ∃ seg, Moves L p w seg w'' ∧ Calm p seg := by
  obtain ⟨m', h'⟩ := hmove.inv
  have hafter : Moves L p w (seg ++ [.answer p hd rc])
      (doActs ops env (w'.step.note (.answer p hd rc)) acts) :=
    hmove.trans (answer_moves h' hd rc acts)
  split_ifs with hneg
  · exact ⟨_, hafter, seg, hd, rc, rfl, hcalm, hh, hneg⟩
  · exact ⟨_, hafter, hcalm.append (calm_answer p hd hneg)⟩

/-- A data call: handlers answer, and a negative result is the answer of the last one. -/
theorem onData_spec (iohdl : HpIohdl) {buf buf' : List Byte} {rc : Int} {seg : List IoEv}
    {w₀ : IoWorld R} (hmove : Moves L p w₀ seg w) (hcalm : Calm p seg)
    (hrun : hpIoTOnData (hdlOf ops env p iohdl) buf w = some (rc, buf', w')) :
    if rc < 0 then ∃ seg, Moves L p w₀ seg w' ∧ Asked p seg
    else ∃ seg, Moves L p w₀ seg w' ∧ Calm p seg := by
  refine hpIoTOnData_rule (I := fun w => ∃ seg, Moves L p w₀ seg w ∧ Calm p seg)
    (N := fun w => ∃ seg, Moves L p w₀ seg w ∧ Asked p seg) ?_ ?_ hrun ⟨seg, hmove, hcalm⟩
  · rintro parse hparse buf w ⟨seg, hmove, hcalm⟩
    by_cases hset : iohdl.onParse = true
    · simp only [hdlOf, hset, ↓reduceIte, Option.some.injEq] at hparse
      subst hparse
      exact answer_spec hmove hcalm (by decide) _ _
    · simp [hdlOf, hset] at hparse
  · rintro f hf msg w ⟨seg, hmove, hcalm⟩
    by_cases hset : iohdl.onDispatch = true
    · simp only [hdlOf, hset, ↓reduceIte, Option.some.injEq] at hf
      subst hf
      exact answer_spec hmove hcalm (by decide) _ _
    · simp [hdlOf, hset] at hf

theorem rdData_moves (iohdl : HpIohdl) {rd rd' : HpRd} {rc : Int} {seg : List IoEv}
    {w₀ : IoWorld R} (hmove : Moves L p w₀ seg w) (hcalm : Calm p seg)
    (hrun : rdData (hpIoTOnData (hdlOf ops env p iohdl)) rd w = some (rc, rd', w')) :
    (if rc < 0 then ∃ seg, Moves L p w₀ seg w' ∧ Asked p seg
      else ∃ seg, Moves L p w₀ seg w' ∧ Calm p seg) ∧ rd'.err = rd.err := by
  unfold rdData at hrun
  split at hrun
  · obtain ⟨⟨rc₁, buf, w₁⟩, hdata, heq⟩ := Option.map_eq_some_iff.mp hrun
    cases heq
    exact ⟨onData_spec iohdl hmove hcalm hdata, rfl⟩
  · cases hrun
    exact ⟨⟨seg, hmove, hcalm⟩, rfl⟩

/-- What a call of `hp_rd_read` can have done. -/
inductive ReadOut (p : Ptr) (seg : List IoEv) (err : Int) (w' : IoWorld R) : Prop
  | calm (h : Calm p seg)
  | asked (h : Asked p seg) (herr : err ≠ 0)
  | failed (h : ReadFailed p seg) (herr : err ≠ 0) (hwr : Emptied p w')

theorem rdLast_moves (iohdl : HpIohdl) {last : RdEnd} {rd rd' : HpRd} {c : List IoEv}
    {w₀ : IoWorld R} (hmove : Moves L p w₀ c w) (hcalm : Calm p c) (hp : w.ios p ≠ none)
    (hrun : rdLast (rdOps ops env p iohdl) (hpIoTOnData (hdlOf ops env p iohdl)) last rd w =
      some (rd', w')) :
    ∃ seg, Moves L p w₀ seg w' ∧ ReadOut p seg rd'.err w' := by
  unfold rdLast at hrun
  split at hrun
  · cases hrun
    exact ⟨c, hmove, .calm hcalm⟩
  · obtain ⟨⟨rc, rd₁, w₁⟩, hdata, heq⟩ := Option.map_eq_some_iff.mp hrun
    obtain ⟨m, h⟩ := hmove.inv
    have hnote : Moves L p w [.read p (.done last)] (w.note (.read p (.done last))) :=
      Moves.note h (fun _ => rfl) p
    obtain ⟨m', h'⟩ := hnote.inv
    obtain ⟨hd, herr⟩ := rdData_moves iohdl (Moves.refl h' p) (Calm.nil p) hdata
    have hlast : ∃ d, Moves L p (w.note (.read p (.done last))) d w₁ ∧ (Calm p d ∨ Asked p d) := by
      split_ifs at hd
      · obtain ⟨d, hd, hasked⟩ := hd
        exact ⟨d, hd, .inr hasked⟩
      · obtain ⟨d, hd, hcalm⟩ := hd
        exact ⟨d, hd, .inl hcalm⟩
    obtain ⟨d, hmoved, hd⟩ := hlast
    obtain ⟨m₁, h₁⟩ := hmoved.inv
    obtain ⟨io, hio⟩ := Option.ne_none_iff_exists'.mp hp
    obtain ⟨io₁, hio₁, -⟩ := (hnote.same.trans hmoved.same) io hio
    simp only [rdOps, Prod.mk.injEq] at heq
    obtain ⟨rfl, rfl⟩ := heq
    let errstr : ErrStr := if rd₁.err = 0 then .eof else .strerror rd₁.err
    obtain ⟨hdelete, hempty⟩ : _ ∧ Emptied p (hpIoTOnError ops env p rd₁.err errstr w₁) :=
      hpIoTOnError_spec h₁ hio₁ rd₁.err errstr
    refine ⟨_, (hmove.trans hnote).trans (hmoved.trans hdelete), ?_⟩
    refine .failed ⟨c, last, d, io₁.fd, rd₁.err, errstr, by simp only [List.append_assoc, List.cons_append,
      List.nil_append], hcalm, hd⟩ ?_ hempty
    rw [herr]
    change (if last.errno = 0 then EIO else last.errno) ≠ 0
    split_ifs with hz
    · decide
    · exact hz

/-- `hp_rd_read` on a connection. -/
theorem ioRead_spec (h : WInv L w m) (hrun : ioRead ops env p w = some w') :
    ∃ seg, Moves L p w seg w' ∧ ReadOut p seg (rdErr w' p) w' := by
  obtain ⟨io, hio, hread⟩ := Option.bind_eq_some_iff.mp hrun
  obtain ⟨⟨n, rd', w₁⟩, hloop, rfl⟩ := Option.map_eq_some_iff.mp hread
  have hp : ∀ {seg w₁}, Moves L p w seg w₁ → w₁.ios p ≠ none := fun hm => hm.same.some hio
  have hstart : Moves L p w [.access p] (w.step.note (.access p)) :=
    (Moves.step h p).trans (Moves.note h.step (fun _ => rfl) p)
  have hout : ∃ seg, Moves L p w seg w₁ ∧ ReadOut p seg rd'.err w₁ := by
    let I : HpRd → IoWorld R → Prop := fun _ x => ∃ seg, Moves L p w seg x ∧ Calm p seg
    let E : HpRd → IoWorld R → Prop := fun rd x => ∃ seg, Moves L p w seg x ∧ ReadOut p seg rd.err x
    have hI : I io.rd (w.step.note (.access p)) := ⟨_, hstart, Calm.one (by simp [IoEv.calm])⟩
    have hrule := hpRdReadLoop_rule (I := I) (J := I) (N := E) (E := E) ?_ ?_ ?_ _ _ _ _ hloop hI
    · exact hrule.elim id id
    · rintro rd x rc rd₁ x₁ ⟨seg, hmove, hcalm⟩ hturn
      obtain ⟨⟨rc₂, rd₂, x₂⟩, hdata, heq⟩ := Option.map_eq_some_iff.mp hturn
      obtain ⟨hd, -⟩ := rdData_moves io.iohdl hmove hcalm hdata
      by_cases hneg : rc₂ < 0
      · simp only [hneg, ↓reduceIte] at heq hd
        cases heq
        rw [if_pos hneg]
        obtain ⟨seg, hmove, hasked⟩ := hd
        exact ⟨seg, hmove, .asked hasked (Int.ne_of_lt hneg)⟩
      · simp only [hneg, ↓reduceIte] at heq hd
        cases heq
        rw [if_neg hneg]
        exact hd
    · rintro rd x chunk ⟨seg, hmove, hcalm⟩
      obtain ⟨m₁, h₁⟩ := hmove.inv
      exact ⟨_, hmove.trans (Moves.note h₁ (e := .read p (.got chunk)) (fun _ => rfl) p),
        hcalm.append (Calm.one (by simp [IoEv.calm]))⟩
    · rintro rd x rd₁ x₁ ⟨seg, hmove, hcalm⟩ hlast
      exact rdLast_moves io.iohdl hmove hcalm (hp hmove) hlast
  obtain ⟨seg, hmove, hres⟩ := hout
  obtain ⟨io₁, hio₁⟩ := Option.ne_none_iff_exists'.mp (hp hmove)
  have hset : (w₁.setRd p rd').ios p = some { io₁ with rd := rd' } := by
    simp only [IoWorld.setRd, hio₁, IoWorld.setIo, ↓reduceIte]
  have herr : rdErr (w₁.setRd p rd') p = rd'.err := by
    simp only [rdErr, hset, Option.elim_some]
  refine ⟨seg, hmove.setRd rd', ?_⟩
  rw [herr]
  cases hres with
  | calm hc => exact .calm hc
  | asked ha he => exact .asked ha he
  | failed hf he hw =>
    obtain ⟨c, hc, hlen⟩ := hw
    rw [hio₁] at hc
    cases hc
    exact .failed hf he ⟨_, hset, hlen⟩

end
end Libhp.Io
