import Libhp.Io.IoT
import Libhp.Lib.OrdMap

/-!
# What one callback does to a connection

The invariant between the registry and the connections (every registered entry is a
connection that has not been deleted, under its own fd), and for each function of
`hp_io_t.cpp` the events it adds to the log. Handlers may add, write and remove
connections, so every lemma allows for a registry that changes under way.
-/
namespace Libhp.Io
open Libhp.Ev (HpPolld EPOLLIN EPOLLOUT EPOLLERR)

/-- What a registry guarantees. `Rep n r m`: `r` stands for the map `m`, and what it has
allocated lies below the address `n`. -/
structure RegLaws {R : Type} (ops : RegOps R) where
  Rep : Ptr → R → OrdMap Int (HpPolld IoFn Bool) → Prop
  mono : ∀ {n r m}, Rep n r m → Rep (n + 1) r m
  add : ∀ {n r m c fd events cb rc r'}, Rep n r m → ops.add c r fd events cb n = some (rc, r') →
    ∃ m', Rep (n + 1) r' m' ∧ ∀ e ∈ m'.entries, e ∈ m.entries ∨ e = (fd, cb)
  rm : ∀ {n r m} (c : SysRes) (fd : Int), Rep n r m → Rep n (ops.rm c r fd) (m.erase fd)

section
variable {R : Type} {ops : RegOps R} {env : IoEnv} {L : RegLaws ops}
  {m : OrdMap Int (HpPolld IoFn Bool)} {w w' : IoWorld R} {p : Ptr}

/-- An entry of the registry is a live connection under its own fd. -/
def Registered (w : IoWorld R) (e : Int × HpPolld IoFn Bool) : Prop :=
  ∃ io, w.ios e.2.arg = some io ∧ io.fd = e.1 ∧ ¬ Deleted e.2.arg w.log

structure WInv (L : RegLaws ops) (w : IoWorld R) (m : OrdMap Int (HpPolld IoFn Bool)) :
    Prop where
  rep : L.Rep w.next w.reg m
  entry : ∀ e ∈ m.entries, Registered w e
  known : ∀ p, w.ios p ≠ none → p < w.next
  deleted : ∀ p, Deleted p w.log → w.ios p ≠ none

/-- The connection keeps its place and its fd. -/
def SameIo (p : Ptr) (w w' : IoWorld R) : Prop :=
  ∀ io, w.ios p = some io → ∃ io', w'.ios p = some io' ∧ io'.fd = io.fd

theorem SameIo.refl (p : Ptr) (w : IoWorld R) : SameIo p w w := fun io h => ⟨io, h, rfl⟩

theorem SameIo.trans {w'' : IoWorld R} (h : SameIo p w w') (h' : SameIo p w' w'') :
    SameIo p w w'' := by
  intro io hio
  obtain ⟨io', hio', hfd⟩ := h io hio
  obtain ⟨io'', hio'', hfd'⟩ := h' io' hio'
  exact ⟨io'', hio'', hfd'.trans hfd⟩

theorem SameIo.some {io : HpIoT} (h : SameIo p w w') (hio : w.ios p = some io) :
    w'.ios p ≠ none := by
  obtain ⟨io', hio', -⟩ := h io hio
  rw [hio']
  exact Option.some_ne_none io'

theorem setIo_same {io io' : HpIoT} (hio : w.ios p = some io) (hfd : io'.fd = io.fd) (q : Ptr) :
    SameIo q w (w.setIo p io') := by
  intro c hc
  by_cases hq : q = p
  · subst hq
    rw [hio] at hc
    cases hc
    exact ⟨io', by simp only [IoWorld.setIo, ↓reduceIte], hfd⟩
  · exact ⟨c, by simp only [IoWorld.setIo, hq, ↓reduceIte, hc], rfl⟩

namespace WInv

/-- What is deleted was there, and is registered no more. -/
theorem noteAny (h : WInv L w m) {e : IoEv}
    (hdelete : ∀ q, e.deletes q = true →
      w.ios q ≠ none ∧ ∀ entry ∈ m.entries, entry.2.arg ≠ q) :
    WInv L (w.note e) m := by
  refine ⟨h.rep, ?_, h.known, ?_⟩
  · intro entry hentry
    obtain ⟨io, hio, hfd, hdel⟩ := h.entry entry hentry
    refine ⟨io, hio, hfd, ?_⟩
    intro hmem
    rcases deleted_append.mp hmem with hmem | ⟨e', he', hmem⟩
    · exact hdel hmem
    · exact (hdelete _ (List.mem_singleton.mp he' ▸ hmem)).2 entry hentry rfl
  · intro q hq
    rcases deleted_append.mp hq with hq | ⟨e', he', hq⟩
    · exact h.deleted q hq
    · exact (hdelete q (List.mem_singleton.mp he' ▸ hq)).1

theorem note (h : WInv L w m) {e : IoEv} (he : ∀ q, e.deletes q = false) :
    WInv L (w.note e) m :=
  h.noteAny fun q heq => absurd heq (by simp [he q])

theorem noteDelete (h : WInv L w m) (hp : w.ios p ≠ none)
    (hgone : ∀ e ∈ m.entries, e.2.arg ≠ p) (err : Int) (errstr : ErrStr) :
    WInv L (w.note (.delete p err errstr)) m := by
  apply h.noteAny
  intro q heq
  cases of_decide_eq_true heq
  exact ⟨hp, hgone⟩

theorem step (h : WInv L w m) : WInv L w.step m := ⟨h.rep, h.entry, h.known, h.deleted⟩

theorem setIo (h : WInv L w m) {io io' : HpIoT} (hio : w.ios p = some io)
    (hfd : io'.fd = io.fd) : WInv L (w.setIo p io') m := by
  have hsome : ∀ q, (w.setIo p io').ios q ≠ none → w.ios q ≠ none := by
    intro q hq
    by_cases hqp : q = p
    · subst hqp
      rw [hio]
      exact Option.some_ne_none io
    · simpa only [IoWorld.setIo, hqp, ↓reduceIte] using hq
  refine ⟨h.rep, ?_, fun q hq => h.known q (hsome q hq), ?_⟩
  · intro entry hentry
    obtain ⟨c, hc, hcfd, hdel⟩ := h.entry entry hentry
    obtain ⟨c', hc', hfd'⟩ := setIo_same hio hfd entry.2.arg c hc
    exact ⟨c', hc', hfd'.trans hcfd, hdel⟩
  · intro q hq
    obtain ⟨c, hc⟩ := Option.ne_none_iff_exists'.mp (h.deleted q hq)
    exact (setIo_same hio hfd q).some hc

theorem setRd (h : WInv L w m) (p : Ptr) (rd : HpRd) : WInv L (w.setRd p rd) m := by
  unfold IoWorld.setRd
  split
  · next io hio => exact h.setIo hio (by rfl)
  · exact h

theorem setWr (h : WInv L w m) (p : Ptr) (wr : HpWr) : WInv L (w.setWr p wr) m := by
  unfold IoWorld.setWr
  split
  · next io hio => exact h.setIo hio (by rfl)
  · exact h

end WInv

theorem setRd_same (w : IoWorld R) (p q : Ptr) (rd : HpRd) : SameIo q w (w.setRd p rd) := by
  unfold IoWorld.setRd
  split
  · next io hio => exact setIo_same hio (by rfl) q
  · exact SameIo.refl q w

theorem setWr_same (w : IoWorld R) (p q : Ptr) (wr : HpWr) : SameIo q w (w.setWr p wr) := by
  unfold IoWorld.setWr
  split
  · next io hio => exact setIo_same hio (by rfl) q
  · exact SameIo.refl q w

@[simp] theorem setRd_log (w : IoWorld R) (p : Ptr) (rd : HpRd) : (w.setRd p rd).log = w.log := by
  unfold IoWorld.setRd
  split <;> rfl

@[simp] theorem setWr_log (w : IoWorld R) (p : Ptr) (wr : HpWr) : (w.setWr p wr).log = w.log := by
  unfold IoWorld.setWr
  split <;> rfl

/-- What a library call leaves alone: the log, the connections, and the queue of a deleted one. -/
structure ActFrame (w w' : IoWorld R) : Prop where
  log : w'.log = w.log
  same : ∀ p, SameIo p w w'
  wr : ∀ p io, Deleted p w.log → w.ios p = some io → ∃ io', w'.ios p = some io' ∧ io'.wr = io.wr

theorem ActFrame.refl (w : IoWorld R) : ActFrame w w :=
  ⟨rfl, fun p => SameIo.refl p w, fun _ io _ h => ⟨io, h, rfl⟩⟩

theorem ActFrame.trans {w'' : IoWorld R} (h : ActFrame w w') (h' : ActFrame w' w'') :
    ActFrame w w'' := by
  refine ⟨h'.log.trans h.log, fun p => (h.same p).trans (h'.same p), ?_⟩
  intro p io hdel hio
  obtain ⟨io', hio', hwr⟩ := h.wr p io hdel hio
  obtain ⟨io'', hio'', hwr'⟩ := h'.wr p io' (h.log ▸ hdel) hio'
  exact ⟨io'', hio'', hwr'.trans hwr⟩

/-- A fresh connection at `w.next` disturbs nothing that was there. -/
theorem addIo_ios (h : WInv L w m) (io : HpIoT) {q : Ptr} (hq : w.ios q ≠ none) :
    (w.addIo io).ios q = w.ios q := by
  have hne : q ≠ w.next := Nat.ne_of_lt (h.known q hq)
  simp only [IoWorld.addIo, IoWorld.setIo, hne, ↓reduceIte]

theorem addIo_known (h : WInv L w m) (io : HpIoT) {q : Ptr} (hq : (w.addIo io).ios q ≠ none) :
    q < w.next + 1 := by
  by_cases hqn : q = w.next
  · exact hqn ▸ Nat.lt_succ_self _
  · simp only [IoWorld.addIo, IoWorld.setIo, hqn, ↓reduceIte] at hq
    exact Nat.lt_succ_of_lt (h.known q hq)

theorem hpIoRegister_spec (h : WInv L w m) (fd : Int) (events : Nat) (iohdl : HpIohdl)
    (fn : IoFn) {w' : IoWorld R}
    (hw' : w' = hpIoRegister ops env (w.addIo (newIo fd iohdl)) fd events
      { fn := fn, arg := w.next, onLoop := iohdl.onLoop }) :
    (∃ m', WInv L w' m') ∧ ActFrame w w' := by
  let io := newIo fd iohdl
  have hentry : ∀ e ∈ m.entries, ∃ c, (w.addIo io).ios e.2.arg = some c ∧ c.fd = e.1 ∧
      ¬ Deleted e.2.arg w.log := by
    intro e he
    obtain ⟨c, hc, hcfd, hdel⟩ := h.entry e he
    refine ⟨c, ?_, hcfd, hdel⟩
    rw [addIo_ios h io (by rw [hc]; exact Option.some_ne_none c)]
    exact hc
  have hdel : ∀ q, Deleted q w.log → (w.addIo io).ios q ≠ none := by
    intro q hq
    rw [addIo_ios h io (h.deleted q hq)]
    exact h.deleted q hq
  have hframe : ∀ w' : IoWorld R, w'.log = w.log → w'.ios = (w.addIo io).ios → ActFrame w w' := by
    intro w' hlog hios
    have hios' : ∀ q c, w.ios q = some c → w'.ios q = some c := by
      intro q c hc
      rw [hios, addIo_ios h io (by rw [hc]; exact Option.some_ne_none c)]
      exact hc
    exact ⟨hlog, fun q c hc => ⟨c, hios' q c hc, rfl⟩, fun q c _ hc => ⟨c, hios' q c hc, rfl⟩⟩
  cases hadd : ops.add (env.ctl w.tick) w.reg fd events
      { fn := fn, arg := w.next, onLoop := iohdl.onLoop } w.next with
  | none =>
    have hstate : w' = { w.addIo io with aborted := true } := by
      rw [hw']
      simp only [hpIoRegister, IoWorld.addIo, IoWorld.setIo, hadd]
      rfl
    rw [hstate]
    exact ⟨⟨m, L.mono h.rep, hentry, fun q => addIo_known h io, hdel⟩, hframe _ rfl rfl⟩
  | some r =>
    obtain ⟨m', hrep, hsub⟩ := L.add h.rep hadd
    have hstate : w' = { w.addIo io with reg := r.2, tick := w.tick + 1 } := by
      rw [hw']
      simp only [hpIoRegister, IoWorld.addIo, IoWorld.setIo, hadd]
      rfl
    rw [hstate]
    refine ⟨⟨m', hrep, ?_, fun q => addIo_known h io, hdel⟩, hframe _ rfl rfl⟩
    intro e he
    rcases hsub e he with he | rfl
    · exact hentry e he
    · refine ⟨io, by simp only [IoWorld.addIo, IoWorld.setIo, ↓reduceIte], rfl, ?_⟩
      intro hmem
      exact Nat.ne_of_lt (h.known _ (h.deleted _ hmem)) rfl

theorem hpIoAdd_spec (h : WInv L w m) (fd : Int) (iohdl : HpIohdl) :
    (∃ m', WInv L (hpIoAdd ops env w fd iohdl) m') ∧ ActFrame w (hpIoAdd ops env w fd iohdl) := by
  unfold hpIoAdd
  split
  · exact ⟨⟨m, h⟩, ActFrame.refl w⟩
  · split
    · exact ⟨⟨m, h⟩, ActFrame.refl w⟩
    · split
      · exact hpIoRegister_spec h fd EPOLLIN iohdl .onAccept rfl
      · exact hpIoRegister_spec h fd _ iohdl .ioCb rfl

theorem hpIoWrite_spec (h : WInv L w m) (io : Ptr) (buf : WrBuf) (free : HpFree)
    (ptr fresh : Ptr) :
    WInv L (hpIoWrite w io buf free ptr fresh) m ∧ ActFrame w (hpIoWrite w io buf free ptr fresh) := by
  unfold hpIoWrite
  split_ifs with hdel
  · exact ⟨h, ActFrame.refl w⟩
  · split
    · next c hc =>
      refine ⟨h.setWr io _, setWr_log _ _ _, fun p => setWr_same w io p _, ?_⟩
      intro p c' hp hc'
      have hne : p ≠ io := fun he => hdel (he ▸ hp)
      refine ⟨c', ?_, rfl⟩
      simp only [IoWorld.setWr, hc, IoWorld.setIo, hne, ↓reduceIte, hc']
    · exact ⟨h, ActFrame.refl w⟩

theorem hpIoRm_spec (h : WInv L w m) (id : Int) :
    WInv L (hpIoRm ops env w id) (m.erase id) ∧ ActFrame w (hpIoRm ops env w id) := by
  refine ⟨⟨L.rm _ _ h.rep, ?_, h.known, h.deleted⟩, rfl, fun p => SameIo.refl p w, ?_⟩
  · intro e he
    exact h.entry e (OrdMap.mem_erase he).1
  · intro p io _ hio
    exact ⟨io, hio, rfl⟩

theorem doActs_spec :
    ∀ (acts : List IoAct) {w : IoWorld R} {m : OrdMap Int (HpPolld IoFn Bool)}, WInv L w m →
      (∃ m', WInv L (doActs ops env w acts) m') ∧ ActFrame w (doActs ops env w acts) := by
  intro acts
  induction acts with
  | nil =>
    intro w m h
    exact ⟨⟨m, h⟩, ActFrame.refl w⟩
  | cons a acts ih =>
    intro w m h
    have hone : (∃ m', WInv L (doAct ops env w a) m') ∧ ActFrame w (doAct ops env w a) := by
      cases a with
      | add fd iohdl => exact hpIoAdd_spec h fd iohdl
      | write io buf free ptr fresh =>
        obtain ⟨hinv, hframe⟩ := hpIoWrite_spec h io buf free ptr fresh
        exact ⟨⟨m, hinv⟩, hframe⟩
      | rm id =>
        have hrm : WInv L (hpIoRm ops env w id) (m.erase id) ∧ _ := hpIoRm_spec h id
        exact ⟨⟨_, hrm.1⟩, hrm.2⟩
    obtain ⟨⟨m₁, h₁⟩, hframe₁⟩ := hone
    obtain ⟨hinv, hframe⟩ := ih h₁
    exact ⟨hinv, hframe₁.trans hframe⟩

end
end Libhp.Io
