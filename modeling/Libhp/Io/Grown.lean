import Libhp.Io.SameConn
import Libhp.Io.IoTLog

/-!
# What a call adds to the log

Over any registry, and from any world: which of the entries that a call of `hp_rd_read` or
`hp_wr_write` makes about its connection carry a mark, and so whether the connection met
trouble, whether it was deleted and whether it was used after that.
-/
namespace Libhp.Io
open Libhp.Ev (HpPolld)

section
variable {R : Type}

/-- The effects so far, and the connection with its buffers and its queue. -/
def outcome (p : Ptr) (w : IoWorld R) : List IoEv × Option HpIoT := (w.effects, w.ios p)

/-- `read()` gave EOF or an error for good, or a handler asked to close. -/
def trouble (p : Ptr) : IoEv → Bool
  | .read q (.done _) => q = p
  | .answer q _ rc => q = p && decide (rc < 0)
  | _ => false

/-- Which of the entries about `p` carry the mark `f`: a negative answer if `asks`, `on_delete` if
`deletes`, a use of the fields or a step of `hp_io_t_on_error` before `on_delete` never. -/
structure Marks (p : Ptr) (f : IoEv → Bool) (asks deletes : Bool) : Prop where
  access : f (.access p) = false
  rm : ∀ fd, f (.rm p fd) = false
  close : ∀ fd, f (.close p fd) = false
  got : ∀ chunk, f (.read p (.got chunk)) = false
  answer : ∀ hd rc, f (.answer p hd rc) = (asks && decide (rc < 0))
  delete : ∀ err errstr, f (.delete p err errstr) = deletes

theorem trouble_marks (p : Ptr) : Marks p (trouble p) true false :=
  ⟨rfl, fun _ => rfl, fun _ => rfl, fun _ => rfl, fun _ _ => by simp [trouble], fun _ _ => rfl⟩

theorem ends_marks (p : Ptr) : Marks p (IoEv.ends p) false false :=
  ⟨rfl, fun _ => rfl, fun _ => rfl, fun _ => rfl, fun _ _ => rfl, fun _ _ => rfl⟩

theorem breaks_marks (p : Ptr) : Marks p (IoEv.breaks p) false false :=
  ⟨rfl, fun _ => rfl, fun _ => rfl, fun _ => rfl, fun _ _ => rfl, fun _ _ => rfl⟩

theorem deletes_marks (p : Ptr) : Marks p (IoEv.deletes p) false true :=
  ⟨rfl, fun _ => rfl, fun _ => rfl, fun _ => rfl, fun _ _ => rfl, fun _ _ => decide_eq_true rfl⟩

/-- From `w` the log has grown by entries of which one carries the mark `f`, or none does, and
`p` is still a connection. -/
structure Grown (f : IoEv → Bool) (w : IoWorld R) (p : Ptr) (b : Bool) (w' : IoWorld R) :
    Prop where
  log : ∃ seg, w'.log = w.log ++ seg ∧ seg.any f = b
  conn : w'.ios p ≠ none
  effects : w.effects.length ≤ w'.effects.length

section
variable {ops : RegOps R} {env : IoEnv} {w w' w'' : IoWorld R} {p : Ptr} {f : IoEv → Bool}
  {b b' asks deletes : Bool}

theorem setIo_some {q : Ptr} {io : HpIoT} (h : w.ios p ≠ none) : (w.setIo q io).ios p ≠ none := by
  show (if _ then _ else _) ≠ none
  split
  · exact Option.some_ne_none io
  · exact h

namespace Grown

theorem refl (h : w.ios p ≠ none) : Grown f w p false w :=
  ⟨⟨[], (List.append_nil _).symm, rfl⟩, h, Nat.le_refl _⟩

theorem trans (h : Grown f w p b w') (h' : Grown f w' p b' w'') : Grown f w p (b || b') w'' := by
  obtain ⟨seg, hlog, hbad⟩ := h.log
  obtain ⟨seg', hlog', hbad'⟩ := h'.log
  refine ⟨⟨seg ++ seg', ?_, ?_⟩, h'.conn, h.effects.trans h'.effects⟩
  · rw [hlog', hlog, List.append_assoc]
  · rw [List.any_append, hbad, hbad']

theorem note (h : Grown f w p b w') (e : IoEv) : Grown f w p (b || f e) (w'.note e) := by
  refine h.trans ⟨⟨[e], rfl, by simp⟩, h.conn, ?_⟩
  rw [effects_note, List.length_append]
  exact Nat.le_add_right _ _

/-- An entry without the mark. -/
theorem pass (h : Grown f w p b w') {e : IoEv} (he : f e = false) :
    Grown f w p b (w'.note e) := by
  have hnote := h.note e
  rwa [he, Bool.or_false] at hnote

theorem step (h : Grown f w p b w') : Grown f w p b w'.step := ⟨h.log, h.conn, h.effects⟩

theorem setRd (h : Grown f w p b w') (q : Ptr) (rd : HpRd) : Grown f w p b (w'.setRd q rd) := by
  unfold IoWorld.setRd
  split
  · exact ⟨h.log, setIo_some h.conn, h.effects⟩
  · exact h

theorem setWr (h : Grown f w p b w') (q : Ptr) (wr : HpWr) : Grown f w p b (w'.setWr q wr) := by
  unfold IoWorld.setWr
  split
  · exact ⟨h.log, setIo_some h.conn, h.effects⟩
  · exact h

theorem register (h : Grown f w p b w') (fd : Int) (events : Nat) (cb : HpPolld IoFn Bool) :
    Grown f w p b (hpIoRegister ops env w' fd events cb) := by
  unfold hpIoRegister
  split
  · exact ⟨h.log, h.conn, h.effects⟩
  · exact ⟨h.log, h.conn, h.effects⟩

theorem act (h : Grown f w p b w') (a : IoAct) : Grown f w p b (doAct ops env w' a) := by
  have hnew : ∀ io, Grown f w p b (w'.addIo io) := fun io =>
    ⟨h.log, setIo_some h.conn, h.effects⟩
  cases a with
  | add fd iohdl =>
    show Grown f w p b (hpIoAdd ops env w' fd iohdl)
    unfold hpIoAdd
    by_cases hset : ¬ (iohdl.onNew ∨ iohdl.onParse)
    · rw [if_pos hset]
      exact h
    · rw [if_neg hset]
      split_ifs
      · exact h
      · exact (hnew _).register _ _ _
      · exact (hnew _).register _ _ _
  | write io buf free ptr fresh =>
    show Grown f w p b (hpIoWrite w' io buf free ptr fresh)
    unfold hpIoWrite
    split
    · exact h
    · split
      · exact h.setWr io _
      · exact h
  | rm id => exact ⟨h.log, h.conn, h.effects⟩

variable (ops env) in
/-- The calls that a handler makes are not logged. -/
theorem acts (h : Grown f w p b w') (as : List IoAct) :
    Grown f w p b (doActs ops env w' as) := by
  induction as generalizing w' with
  | nil => exact h
  | cons a as ih => exact ih (h.act a)

variable (ops env) in
theorem answer (hm : Marks p f asks deletes) (h : Grown f w p b w') (hd : Handler) (rc : Int)
    (as : List IoAct) : Grown f w p (b || asks && decide (rc < 0))
      (doActs ops env (w'.step.note (.answer p hd rc)) as) := by
  have hnote := h.step.note (.answer p hd rc)
  rw [hm.answer] at hnote
  exact hnote.acts ops env as

theorem onError (hm : Marks p f asks deletes) (h : Grown f w p b w') (err : Int)
    (errstr : ErrStr) :
    Grown f w p (b || deletes) (hpIoTOnError ops env p err errstr w') := by
  obtain ⟨io, hio⟩ := Option.ne_none_iff_exists'.mp h.conn
  have hrm : Grown f w p b (hpIoRm ops env (w'.note (.access p)) io.fd) := by
    have haccess := h.pass hm.access
    exact ⟨haccess.log, haccess.conn, haccess.effects⟩
  have hclosed := ((hrm.pass (hm.rm io.fd)).pass (hm.close io.fd)).setWr p (wrFree io.wr)
  have hdeleted := hclosed.note (.delete p err errstr)
  rw [hm.delete] at hdeleted
  unfold hpIoTOnError
  rw [hio]
  exact hdeleted.step.acts ops env _

/-- A data call: a negative result is one of a handler. -/
theorem data (hm : Marks p f asks deletes) (h : Grown f w p b w') (iohdl : HpIohdl)
    {buf buf' : List Byte} {rc : Int}
    (hrun : hpIoTOnData (hdlOf ops env p iohdl) buf w' = some (rc, buf', w'')) :
    Grown f w p (b || asks && decide (rc < 0)) w'' := by
  have hafter : ∀ {x : IoWorld R} (hd : Handler) (n : Int) (as : List IoAct), Grown f w p b x →
      if n < 0 then Grown f w p (b || asks) (doActs ops env (x.step.note (.answer p hd n)) as)
      else Grown f w p b (doActs ops env (x.step.note (.answer p hd n)) as) := by
    intro x hd n as hx
    have hans := answer ops env hm hx hd n as
    split_ifs with hn
    · simpa [hn] using hans
    · simpa [hn] using hans
  have hrule := hpIoTOnData_rule (I := Grown f w p b) (N := Grown f w p (b || asks)) ?_ ?_ hrun h
  · by_cases hrc : rc < 0
    · simpa [hrc] using hrule
    · simpa [hrc] using hrule
  · intro parse hparse buf x hx
    by_cases hset : iohdl.onParse = true
    · simp only [hdlOf, hset, ↓reduceIte, Option.some.injEq] at hparse
      subst hparse
      exact hafter .parse _ _ hx
    · simp [hdlOf, hset] at hparse
  · intro g hg msg x hx
    by_cases hset : iohdl.onDispatch = true
    · simp only [hdlOf, hset, ↓reduceIte, Option.some.injEq] at hg
      subst hg
      exact hafter .dispatch _ _ hx
    · simp [hdlOf, hset] at hg

theorem rdData (hm : Marks p f asks deletes) (h : Grown f w p b w') (iohdl : HpIohdl)
    {rd rd' : HpRd} {rc : Int}
    (hrun : rdData (hpIoTOnData (hdlOf ops env p iohdl)) rd w' = some (rc, rd', w'')) :
    Grown f w p (b || asks && decide (rc < 0)) w'' ∧ rd'.err = rd.err := by
  unfold Io.rdData at hrun
  split at hrun
  · obtain ⟨⟨rc₁, buf, x⟩, hdata, heq⟩ := Option.map_eq_some_iff.mp hrun
    cases heq
    exact ⟨h.data hm iohdl hdata, rfl⟩
  · cases hrun
    exact ⟨by simpa using h, rfl⟩

/-- The result that ends the call: read again later, or EOF or an error for good, which leaves an
error and every mark that such a result or `on_delete` carries. -/
theorem rdLast (hm : Marks p f asks deletes)
    (hend : ∀ last, (f (.read p (.done last)) || deletes) = true) (h : Grown f w p false w')
    (iohdl : HpIohdl) {last : RdEnd} {rd rd' : HpRd}
    (hrun : rdLast (rdOps ops env p iohdl) (hpIoTOnData (hdlOf ops env p iohdl)) last rd w' =
      some (rd', w'')) :
    if last.again then Grown f w p false w'' ∧ rd'.err = rd.err
    else Grown f w p true w'' ∧ rd'.err ≠ 0 := by
  unfold Io.rdLast at hrun
  split at hrun
  · next hagain =>
    cases hrun
    rw [if_pos hagain]
    exact ⟨h, rfl⟩
  · next hagain =>
    rw [if_neg hagain]
    obtain ⟨⟨rc, rd₁, x⟩, hdata, heq⟩ := Option.map_eq_some_iff.mp hrun
    have hnote : Grown f w p (f (.read p (.done last))) (w'.note (.read p (.done last))) := by
      simpa using h.note (.read p (.done last))
    obtain ⟨hgrown, herr⟩ := hnote.rdData hm iohdl hdata
    simp only [rdOps, Prod.mk.injEq] at heq
    obtain ⟨rfl, rfl⟩ := heq
    have hmark : (f (.read p (.done last)) || asks && decide (rc < 0) || deletes) = true := by
      rw [Bool.or_right_comm, hend, Bool.true_or]
    refine ⟨?_, ?_⟩
    · rw [← hmark]
      exact onError hm hgrown _ _
    · rw [herr]
      dsimp only
      split
      · decide
      · assumption

end Grown

/-- After `on_delete` the connection is not used. -/
def Kept (p : Ptr) (log : List IoEv) : Prop :=
  log.Pairwise fun e e' => e.deletes p = true → e'.uses p = false

theorem kept_of_open {log : List IoEv} (h : ¬ Deleted p log) : Kept p log :=
  List.pairwise_of_forall_mem_list fun e he _ _ hdel => absurd ⟨e, he, hdel⟩ h

theorem Kept.init {log log' : List IoEv} (h : Kept p (log ++ log')) : Kept p log :=
  (List.pairwise_append.mp h).1

theorem not_kept {log : List IoEv} (h : Deleted p log) : ¬ Kept p (log ++ [.access p]) := by
  intro hkept
  obtain ⟨e, he, hdel⟩ := h
  have huse := (List.pairwise_append.mp hkept).2.2 e he _ (List.mem_singleton.mpr rfl) hdel
  simp [IoEv.uses] at huse

namespace Grown

theorem deleted (h : Grown (IoEv.deletes p) w p true w') : Deleted p w'.log := by
  obtain ⟨seg, hlog, hany⟩ := h.log
  rw [hlog, deleted_append]
  exact .inr (List.any_eq_true.mp hany)

theorem notDeleted (h : Grown (IoEv.deletes p) w p false w') (hopen : ¬ Deleted p w.log) :
    ¬ Deleted p w'.log := by
  obtain ⟨seg, hlog, hany⟩ := h.log
  rw [hlog, deleted_append]
  rintro (hdel | ⟨e, he, hdel⟩)
  · exact hopen hdel
  · exact absurd hdel (List.any_eq_false.mp hany e he)

end Grown

/-- After `hp_rd_read` the connection has an error if it had one before or met trouble. -/
theorem ioRead_err {w₁ : IoWorld R} (hrun : ioRead ops env p w = some w₁) :
    ∃ bad, Grown (trouble p) w p bad w₁ ∧ (rdErr w₁ p = 0 ↔ rdErr w p = 0 ∧ bad = false) := by
  have hm := trouble_marks p
  obtain ⟨io, hio, hread⟩ := Option.bind_eq_some_iff.mp hrun
  obtain ⟨⟨n, rd', x⟩, hloop, rfl⟩ := Option.map_eq_some_iff.mp hread
  have hp : w.ios p ≠ none := by rw [hio]; exact Option.some_ne_none io
  have hstart : Grown (trouble p) w p false (w.step.note (.access p)) :=
    (Grown.refl hp).step.pass hm.access
  let I : HpRd → IoWorld R → Prop := fun rd y => Grown (trouble p) w p false y ∧ rd.err = io.rd.err
  let N : HpRd → IoWorld R → Prop := fun rd y => Grown (trouble p) w p true y ∧ rd.err ≠ 0
  have hout : N rd' x ∨ (I rd' x ∨ N rd' x) := by
    refine hpRdReadLoop_rule (I := I) (J := I) (N := N) (E := fun rd y => I rd y ∨ N rd y)
      ?_ ?_ ?_ _ _ _ _ hloop ⟨hstart, rfl⟩
    · intro rd y rc rd₁ y₁ hy hturn
      obtain ⟨⟨rc₂, rd₂, y₂⟩, hdata, heq⟩ := Option.map_eq_some_iff.mp hturn
      obtain ⟨hgrown, herr⟩ := hy.1.rdData hm io.iohdl hdata
      by_cases hneg : rc₂ < 0
      · simp only [hneg, ↓reduceIte, decide_true, Bool.and_self, Bool.or_true] at heq hgrown
        cases heq
        rw [if_pos hneg]
        exact ⟨hgrown, Int.ne_of_lt hneg⟩
      · simp only [hneg, ↓reduceIte, decide_false, Bool.and_false, Bool.or_false] at heq hgrown
        cases heq
        rw [if_neg hneg]
        refine ⟨hgrown, ?_⟩
        unfold rdGrow
        split
        · exact herr.trans hy.2
        · exact herr.trans hy.2
    · intro rd y chunk hy
      exact ⟨hy.1.pass (hm.got chunk), hy.2⟩
    · intro rd y rd₁ y₁ hy hlast
      have hdone := hy.1.rdLast hm (fun _ => by simp [trouble]) io.iohdl hlast
      split_ifs at hdone
      · exact .inl ⟨hdone.1, hdone.2.trans hy.2⟩
      · exact .inr hdone
  have hbefore : rdErr w p = io.rd.err := by rw [rdErr, hio]; rfl
  have hafter : ∀ {bad}, Grown (trouble p) w p bad x → rdErr (x.setRd p rd') p = rd'.err := by
    intro bad hgrown
    obtain ⟨io', hio'⟩ := Option.ne_none_iff_exists'.mp hgrown.conn
    simp only [rdErr, IoWorld.setRd, hio', IoWorld.setIo, ↓reduceIte, Option.elim_some]
  have hfailed : N rd' x → ∃ bad, Grown (trouble p) w p bad (x.setRd p rd') ∧
      (rdErr (x.setRd p rd') p = 0 ↔ rdErr w p = 0 ∧ bad = false) := by
    rintro ⟨hgrown, herr⟩
    refine ⟨true, hgrown.setRd p rd', ?_⟩
    simp [hafter hgrown, herr]
  rcases hout with hn | ⟨hgrown, herr⟩ | hn
  · exact hfailed hn
  · refine ⟨false, hgrown.setRd p rd', ?_⟩
    rw [hafter hgrown, hbefore, herr]
    simp
  · exact hfailed hn

/-- `hp_rd_read` deletes the connection if and only if `read()` ended the stream. -/
theorem ioRead_fate {w₁ : IoWorld R} (hrun : ioRead ops env p w = some w₁) :
    ∃ ended, Grown (IoEv.ends p) w p ended w₁ ∧ Grown (IoEv.deletes p) w p ended w₁ := by
  obtain ⟨io, hio, hread⟩ := Option.bind_eq_some_iff.mp hrun
  obtain ⟨⟨n, rd', x⟩, hloop, rfl⟩ := Option.map_eq_some_iff.mp hread
  have hp : w.ios p ≠ none := by rw [hio]; exact Option.some_ne_none io
  let Both : Bool → IoWorld R → Prop := fun b y =>
    Grown (IoEv.ends p) w p b y ∧ Grown (IoEv.deletes p) w p b y
  have hstart : Both false (w.step.note (.access p)) :=
    ⟨(Grown.refl hp).step.pass rfl, (Grown.refl hp).step.pass rfl⟩
  let I : HpRd → IoWorld R → Prop := fun _ => Both false
  have hout : I rd' x ∨ ∃ ended, Both ended x := by
    refine hpRdReadLoop_rule (I := I) (J := I) (N := I) (E := fun _ y => ∃ ended, Both ended y)
      ?_ ?_ ?_ _ _ _ _ hloop hstart
    · intro rd y rc rd₁ y₁ hy hturn
      obtain ⟨⟨rc₂, rd₂, y₂⟩, hdata, heq⟩ := Option.map_eq_some_iff.mp hturn
      have hends := (hy.1.rdData (ends_marks p) io.iohdl hdata).1
      have hdeletes := (hy.2.rdData (deletes_marks p) io.iohdl hdata).1
      simp only [Bool.false_and, Bool.or_false] at hends hdeletes
      have hboth : Both false y₁ := by
        dsimp only at heq
        split at heq <;> cases heq <;> exact ⟨hends, hdeletes⟩
      exact (ite_self (c := rc < 0) (Both false y₁)).symm ▸ hboth
    · intro rd y chunk hy
      exact ⟨hy.1.pass rfl, hy.2.pass rfl⟩
    · intro rd y rd₁ y₁ hy hlast
      have hends := hy.1.rdLast (ends_marks p) (fun _ => by simp [IoEv.ends]) io.iohdl hlast
      have hdeletes := hy.2.rdLast (deletes_marks p) (fun _ => Bool.or_true _) io.iohdl hlast
      split_ifs at hends hdeletes
      · exact ⟨false, hends.1, hdeletes.1⟩
      · exact ⟨true, hends.1, hdeletes.1⟩
  rcases hout with h | ⟨ended, h⟩
  · exact ⟨false, h.1.setRd p rd', h.2.setRd p rd'⟩
  · exact ⟨ended, h.1.setRd p rd', h.2.setRd p rd'⟩

theorem freeItems_wrOps (items : List HpUioItem) (w : IoWorld R) :
    freeItems (wrOps ops env p) items w = w := by
  induction items generalizing w with
  | nil => rfl
  | cons item items ih =>
    rw [freeItems, ih]
    unfold freeItem
    split
    · split <;> rfl
    · rfl

/-- `hp_uio_write` asks `writev` at least once. -/
theorem hpUioWrite_effects {vec : List Iovec} {bytes : Nat} {u : UioRes}
    (hrun : hpUioWrite (wrOps ops env p).writev vec bytes w = some (u, w')) :
    w.effects.length < w'.effects.length := by
  have hone : ∀ (v : List Iovec) (x : IoWorld R),
      ((wrOps ops env p).writev v x).2.effects.length = x.effects.length + 1 := by
    intro v x
    show ((x.step.note _).effects).length = _
    rw [effects_note, List.length_append]
    rfl
  have hmono : ∀ (v : List Iovec) (x : IoWorld R), w.effects.length + 1 ≤ x.effects.length →
      w.effects.length + 1 ≤ ((wrOps ops env p).writev v x).2.effects.length := by
    intro v x hx
    rw [hone]
    exact Nat.le_succ_of_le hx
  unfold hpUioWrite at hrun
  cases bytes with
  | zero => cases hrun
  | succ bytes =>
    have hfirst := (hone (vec.drop 0) w).ge
    simp only [hpUioWriteLoop] at hrun
    split at hrun
    · cases hrun
      exact hfirst
    · split at hrun
      · cases hrun
        exact hfirst
      · exact hpUioWriteLoop_preserves hmono hrun hfirst

theorem writeError_effects (hp : w.ios p ≠ none) (wr : HpWr) (err : Int) : w.effects.length ≤
    ((hpIoTOnError ops env p err (.strerror err) (w.setWr p wr)).note
      (.access p)).effects.length :=
  ((((Grown.refl hp).setWr p wr).onError (trouble_marks p) err _).pass rfl).effects

/-- `hp_wr_write` leaves an effect or an empty queue. -/
theorem hpWrWriteLoop_effects {iovMax fuel n n' : Nat} {wr wr' : HpWr} (hp : w.ios p ≠ none)
    (hrun : hpWrWriteLoop (wrOps ops env p) iovMax fuel wr n w = some (n', wr', w')) :
    w.effects.length < w'.effects.length ∨ wr'.oItemsLen = 0 := by
  induction fuel generalizing wr n w with
  | zero => cases hrun
  | succ fuel ih =>
    simp only [hpWrWriteLoop, hpEtioDelN, freeItems_wrOps] at hrun
    split at hrun
    · next hempty =>
      cases hrun
      exact .inr hempty
    · split at hrun
      · exact ih hp hrun
      · split at hrun
        · cases hrun
        · next u x hu =>
          have hlt := hpUioWrite_effects hu
          have hx : x.ios p ≠ none := by
            refine hpUioWriteLoop_preserves (P := fun y => y.ios p ≠ none) ?_ hu hp
            exact fun v y hy => hy
          split at hrun
          · exact (ih hx hrun).imp_left hlt.trans
          · split at hrun
            · cases hrun
              exact .inl hlt
            · cases hrun
              exact .inl (hlt.trans_le (writeError_effects hx _ _))

theorem outcome_setWr (wr : HpWr) :
    outcome p (w.setWr p wr) = (w.effects, (w.ios p).map fun io => { io with wr := wr }) := by
  unfold outcome IoWorld.setWr
  cases hio : w.ios p with
  | none => simp only [hio, Option.map_none]
  | some io =>
    simp only [IoWorld.setIo, ↓reduceIte, Option.map_some]
    rfl

theorem outcome_note {e : IoEv} (he : e.effect = false) : outcome p (w.note e) = outcome p w := by
  rw [outcome, effects_note, he]
  exact congrArg (fun es => (es, w.ios p)) (List.append_nil _)

/-- `hp_wr_write` deletes the connection if and only if a `writev` failed for good, and then it
stores to it once more. -/
theorem ioWrite_fate {w₁ : IoWorld R} (hp : w.ios p ≠ none)
    (hrun : ioWrite ops env p w = some w₁) :
    (Grown (IoEv.breaks p) w p false w₁ ∧ Grown (IoEv.deletes p) w p false w₁) ∨
      (Grown (IoEv.breaks p) w p true w₁ ∧ ¬ Kept p w₁.log) := by
  obtain ⟨io, hio, hmap⟩ := Option.bind_eq_some_iff.mp hrun
  obtain ⟨⟨n, wr', x⟩, hwrite, rfl⟩ := Option.map_eq_some_iff.mp hmap
  let I : IoWorld R → Prop := fun y =>
    Grown (IoEv.breaks p) w p false y ∧ Grown (IoEv.deletes p) w p false y
  let H : IoWorld R → Prop := Grown (IoEv.breaks p) w p true
  let E : HpWr → IoWorld R → Prop := fun _ y =>
    Grown (IoEv.breaks p) w p true y ∧ ¬ Kept p y.log
  have hbreak : ∀ y, Grown (IoEv.breaks p) w p false y →
      Grown (IoEv.breaks p) w p (env.writev y.tick).hard
        (y.step.note (.write p (env.writev y.tick))) := by
    intro y hy
    simpa [IoEv.breaks] using hy.step.note (.write p (env.writev y.tick))
  have hout : I x ∨ E wr' x := by
    refine hpWrWrite_rule (I := I) (H := H) (E := E) ?_ ?_ ?_ ?_ ?_ hwrite
      ⟨(Grown.refl hp).pass rfl, (Grown.refl hp).pass rfl⟩
    · intro vec y hy hsoft
      have hnext := hbreak y hy.1
      rw [show (env.writev y.tick).hard = false from hsoft] at hnext
      exact ⟨hnext, hy.2.step.pass rfl⟩
    · intro vec y hy hhard
      have hnext := hbreak y hy.1
      rwa [show (env.writev y.tick).hard = true from hhard] at hnext
    · exact fun f q y hy => hy
    · exact fun f q y hy => hy
    · intro wr err y hy
      have hset : Grown (IoEv.breaks p) w p true (y.setWr p wr) := hy.setWr p wr
      refine ⟨?_, ?_⟩
      · have herr : Grown (IoEv.breaks p) w p (true || false)
            (hpIoTOnError ops env p err (.strerror err) (y.setWr p wr)) :=
          hset.onError (breaks_marks p) err (.strerror err)
        rw [Bool.or_false] at herr
        exact herr.pass rfl
      · have hdel : Grown (IoEv.deletes p) (y.setWr p wr) p (false || true)
            (hpIoTOnError ops env p err (.strerror err) (y.setWr p wr)) :=
          (Grown.refl hset.conn).onError (deletes_marks p) err (.strerror err)
        exact not_kept hdel.deleted
  rcases hout with ⟨hbreaks, hdeletes⟩ | ⟨hbreaks, hkept⟩
  · exact .inl ⟨hbreaks.setWr p wr', hdeletes.setWr p wr'⟩
  · exact .inr ⟨hbreaks.setWr p wr', by rwa [setWr_log]⟩

theorem ioWrite_grown {w₁ : IoWorld R} (hp : w.ios p ≠ none)
    (hrun : ioWrite ops env p w = some w₁) : ∃ b, Grown (IoEv.breaks p) w p b w₁ :=
  (ioWrite_fate hp hrun).elim (fun h => ⟨false, h.1⟩) fun h => ⟨true, h.1⟩

/-- A call of `hp_wr_write` changes nothing exactly if nothing is queued. -/
theorem ioWrite_outcome {io : HpIoT} (hio : w.ios p = some io) :
    (ioWrite ops env p w).map (outcome p) = some (outcome p w) ↔ io.wr.oItemsLen = 0 := by
  have hbind : (ioWrite ops env p w).map (outcome p) =
      (hpWrWrite (wrOps ops env p) env.iovMax io.wr (w.note (.access p))).map fun out =>
        (out.2.2.effects, (out.2.2.ios p).map fun io => { io with wr := out.2.1 }) := by
    rw [ioWrite, hio, Option.bind_some, Option.map_map]
    congr 1
    funext out
    exact outcome_setWr out.2.1
  rw [hbind]
  constructor
  · intro heq
    by_contra hne
    obtain ⟨⟨n, wr', y⟩, hwrite, hout⟩ := Option.map_eq_some_iff.mp heq
    rw [hpWrWrite, if_neg hne] at hwrite
    have hp : (w.note (.access p)).ios p ≠ none := by
      show w.ios p ≠ none
      rw [hio]
      exact Option.some_ne_none io
    obtain ⟨heffects, hconn⟩ := Prod.mk.inj hout
    rcases hpWrWriteLoop_effects hp hwrite with hlt | hempty
    · have hstart : (w.note (.access p)).effects = w.effects := congrArg Prod.fst
        (outcome_note (w := w) (p := p) rfl)
      rw [hstart, heffects] at hlt
      exact Nat.lt_irrefl _ hlt
    · rw [hio] at hconn
      obtain ⟨io', -, heq'⟩ := Option.map_eq_some_iff.mp hconn
      rw [← heq'] at hne
      exact hne hempty
  · intro hempty
    have hnote := outcome_note (w := w) (p := p) (e := .access p) rfl
    rw [hpWrWrite, if_pos hempty, Option.map_some, ← hnote]
    show some (_, (w.ios p).map _) = some (_, w.ios p)
    rw [hio]
    rfl

end

/-- The entries that the log has got since `w`. -/
def since (w w' : IoWorld R) : List IoEv := w'.log.drop w.log.length

theorem Grown.since {f : IoEv → Bool} {w w' : IoWorld R} {p : Ptr} {b : Bool}
    (h : Grown f w p b w') :
    w'.log = w.log ++ since w w' ∧ (since w w').any f = b := by
  obtain ⟨seg, hlog, hany⟩ := h.log
  have hseg : Io.since w w' = seg := by rw [Io.since, hlog, List.drop_left]
  rw [hseg]
  exact ⟨hlog, hany⟩

theorem Grown.effects_since {f : IoEv → Bool} {w w' : IoWorld R} {p : Ptr} {b : Bool}
    (h : Grown f w p b w') : w'.effects = w.effects ++ (Io.since w w').filter IoEv.effect := by
  rw [IoWorld.effects, IoWorld.effects, ← List.filter_append, ← h.since.1]

theorem writeBroke_effects {p : Ptr} {seg : List IoEv} :
    WriteBroke p (seg.filter IoEv.effect) ↔ WriteBroke p seg := by
  simp [WriteBroke, IoEv.effect]

end
end Libhp.Io
