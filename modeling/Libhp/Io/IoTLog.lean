import Libhp.Io.IoTCb

/-!
# What a log of callbacks should look like

Two properties of a whole run: nothing is done with a connection after its
`on_delete`, and a negative answer of a handler closes the connection. Each is
carried from one callback to the next by `Fresh`: a callback is about one
connection, and that connection has not been deleted.
-/
namespace Libhp.Io

/-- After `on_delete` the connection is not used again; in particular `on_delete` is not
called again. -/
def NoUse (log : List IoEv) : Prop :=
  log.Pairwise fun e e' => ∀ p, e.deletes p = true → e'.uses p = false

/-- After a negative answer, and before another callback is made for the connection, it is
removed from the event set, its fd is closed and `on_delete` is called, once in all. -/
def Closes (log : List IoEv) : Prop :=
  ∀ pre p h rc post, log = pre ++ .answer p h rc :: post → rc < 0 →
    ∃ mid fd err errstr rest, post = mid ++ .delete p err errstr :: rest ∧ .rm p fd ∈ mid ∧
      .close p fd ∈ mid ∧ .call p ∉ mid ∧ log.countP (IoEv.deletes p) = 1

/-- A negative answer comes where the library ends the connection anyway: in the data call
after the end of the input, or before a `writev` that fails for good. -/
def Heard (seg : List IoEv) : Prop :=
  ∀ pre p h rc post, seg = pre ++ .answer p h rc :: post → rc < 0 →
    ReadEnded p pre ∨ WriteBroke p post

/-- `Heard`, for a rest that comes after `pre`. -/
def heardFrom (pre : List IoEv) : List IoEv → Bool
  | [] => true
  | .answer p h rc :: post =>
    (0 ≤ rc || decide (ReadEnded p pre) || decide (WriteBroke p post)) &&
      heardFrom (pre ++ [.answer p h rc]) post
  | e :: post => heardFrom (pre ++ [e]) post

theorem heard_of_heardFrom : ∀ {seg pre : List IoEv}, heardFrom pre seg = true →
    ∀ mid p h rc post, seg = mid ++ .answer p h rc :: post → rc < 0 →
      ReadEnded p (pre ++ mid) ∨ WriteBroke p post := by
  intro seg
  induction seg with
  | nil =>
    intro pre _ mid p h rc post hseg
    exact absurd hseg (by simp)
  | cons e seg ih =>
    intro pre hpre mid p h rc post hseg hrc
    have htail : heardFrom (pre ++ [e]) seg = true := by
      cases e with
      | answer q hd rc' =>
        simp only [heardFrom, Bool.and_eq_true] at hpre
        exact hpre.2
      | _ => exact hpre
    cases mid with
    | nil =>
      cases hseg
      simp only [heardFrom, Bool.and_eq_true, Bool.or_eq_true, decide_eq_true_eq] at hpre
      rw [List.append_nil]
      rcases hpre.1 with (hpos | hended) | hbroke
      · exact absurd hrc (Int.not_lt.mpr hpos)
      · exact .inl hended
      · exact .inr hbroke
    | cons x mid =>
      cases hseg
      have hrest := ih htail mid p h rc post rfl hrc
      rwa [List.append_assoc] at hrest

/-- Nothing in `b` is about a connection deleted in `a`. -/
def Fresh (a b : List IoEv) : Prop := ∀ p, Deleted p a → ∀ e ∈ b, e.uses p = false

theorem NoUse.nil : NoUse [] := List.Pairwise.nil

theorem NoUse.append {a b : List IoEv} (ha : NoUse a) (hb : NoUse b) (h : Fresh a b) :
    NoUse (a ++ b) := by
  refine List.pairwise_append.mpr ⟨ha, hb, ?_⟩
  intro e he e' he' p hp
  exact h p ⟨e, he, hp⟩ e' he'

theorem Closes.nil : Closes [] := by
  intro pre p h rc post hlog
  exact absurd hlog (by simp)

theorem uses_of_deletes {p : Ptr} {e : IoEv} (h : e.deletes p = true) : e.uses p = true := by
  cases e with
  | delete q err errstr => exact h
  | _ => cases h

theorem not_deleted_of_unused {p : Ptr} {b : List IoEv} (h : ∀ e ∈ b, e.uses p = false) :
    ¬ Deleted p b := by
  rintro ⟨e, he, hdel⟩
  have huse := uses_of_deletes hdel
  rw [h e he] at huse
  cases huse

theorem countP_deletes {p : Ptr} {log : List IoEv} (h : ¬ Deleted p log) :
    log.countP (IoEv.deletes p) = 0 :=
  List.countP_eq_zero.mpr fun e he hdel => h ⟨e, he, hdel⟩

theorem split_append {α : Type} {a b pre post : List α} {x : α} (h : a ++ b = pre ++ x :: post) :
    (∃ a', a = pre ++ x :: a' ∧ post = a' ++ b) ∨ ∃ b', pre = a ++ b' ∧ b = b' ++ x :: post := by
  rcases List.append_eq_append_iff.mp h with ⟨b', hpre, hb⟩ | ⟨bs, ha, hpost⟩
  · exact .inr ⟨b', hpre, hb⟩
  · cases bs with
    | nil => exact .inr ⟨[], by simpa using ha.symm, by simpa using hpost.symm⟩
    | cons y bs =>
      rw [List.cons_append, List.cons.injEq] at hpost
      obtain ⟨rfl, rfl⟩ := hpost
      exact .inl ⟨bs, ha, rfl⟩

theorem Closes.append {a b : List IoEv} (ha : Closes a) (hb : Closes b) (h : Fresh a b) :
    Closes (a ++ b) := by
  intro pre p hd rc post hlog hrc
  rcases split_append hlog with ⟨bs, rfl, rfl⟩ | ⟨pre', rfl, hb'⟩
  · obtain ⟨mid, fd, err, errstr, rest, rfl, hrm, hclose, hcall, hcount⟩ :=
      ha pre p hd rc bs rfl hrc
    refine ⟨mid, fd, err, errstr, rest ++ b, by simp, hrm, hclose, hcall, ?_⟩
    have hnone : ¬ Deleted p b := not_deleted_of_unused (h p (by simp [IoEv.deletes]))
    rw [List.countP_append, hcount, countP_deletes hnone]
  · obtain ⟨mid, fd, err, errstr, rest, hpost, hrm, hclose, hcall, hcount⟩ :=
      hb pre' p hd rc post hb' hrc
    refine ⟨mid, fd, err, errstr, rest, hpost, hrm, hclose, hcall, ?_⟩
    have hnone : ¬ Deleted p a := by
      intro hmem
      have hun := h p hmem (.answer p hd rc) (by rw [hb']; simp)
      simp [IoEv.uses] at hun
    rw [List.countP_append, countP_deletes hnone, hcount]

theorem Work.not_mem {p : Ptr} {seg : List IoEv} {e : IoEv} (h : Work p seg)
    (he : e.work p = false) : e ∉ seg := by
  intro hmem
  rw [h e hmem] at he
  cases he

theorem Work.not_deleted {p q : Ptr} {seg : List IoEv} (h : Work p seg) : ¬ Deleted q seg := by
  rintro ⟨e, he, hdel⟩
  have hwork := h e he
  cases e with
  | delete x err errstr => cases hwork
  | _ => cases hdel

theorem uses_of_work {p q : Ptr} {e : IoEv} (h : e.work p = true) (hq : e.uses q = true) :
    q = p := by
  cases e with
  | access x => exact (of_decide_eq_true hq).symm.trans (of_decide_eq_true h)
  | read x r => exact (of_decide_eq_true hq).symm.trans (of_decide_eq_true h)
  | write x r => exact (of_decide_eq_true hq).symm.trans (of_decide_eq_true h)
  | answer x hd rc => exact (of_decide_eq_true hq).symm.trans (of_decide_eq_true h)
  | test x events => cases hq
  | call x => cases h
  | rm x fd => cases h
  | close x fd => cases h
  | delete x err errstr => cases h

section
variable {late : Ptr → List IoEv → Prop} {p : Ptr} {seg : List IoEv}

/-- A callback is about its own connection. -/
theorem CbOut.about (h : CbOut late p seg) :
    ∀ e ∈ IoEv.call p :: seg, ∀ q, e.uses q = true → q = p := by
  have hwork : ∀ {s}, Work p s → ∀ e ∈ s, ∀ q, e.uses q = true → q = p :=
    fun hs e he q hq => uses_of_work (hs e he) hq
  intro e he q hq
  rcases List.mem_cons.mp he with rfl | he
  · exact (of_decide_eq_true hq).symm
  · cases h with
    | calm hc => exact hwork hc.work e he q hq
    | asked c hd rc t hseg _ hc ht =>
      have hans : Work p (.answer p hd rc :: t) :=
        (Work.one (e := .answer p hd rc) (by simp [IoEv.work])).append ht.work
      rw [hseg] at he
      exact hwork (hc.work.append hans) e he q hq
    | closed c fd err errstr t hseg hc ht _ =>
      rw [hseg, List.mem_append, List.mem_append] at he
      rcases he with (he | he) | he
      · exact hwork hc e he q hq
      · simp only [errSeg, List.mem_cons, List.not_mem_nil, or_false] at he
        rcases he with rfl | rfl | rfl | rfl <;> exact (of_decide_eq_true hq).symm
      · exact hwork ht.work e he q hq

/-- A callback for a connection that has not been deleted. -/
theorem CbOut.fresh {log : List IoEv} (h : CbOut late p seg) (hp : ¬ Deleted p log) :
    Fresh log (.call p :: seg) := by
  intro q hq e he
  cases huse : e.uses q with
  | false => rfl
  | true =>
    have hqp := h.about e he q huse
    exact absurd (hqp ▸ hq) hp

theorem noUse_of_work (h : Work p seg) : NoUse (.call p :: seg) := by
  apply List.pairwise_of_forall_mem_list
  intro e he e' _ q hdel
  rcases List.mem_cons.mp he with rfl | he
  · cases hdel
  · exact absurd ⟨e, he, hdel⟩ h.not_deleted

/-- A callback that does not go on with a deleted connection. -/
theorem CbOut.noUse (h : CbOut late p seg) (hlate : ¬ late p seg) : NoUse (.call p :: seg) := by
  cases h with
  | calm hc => exact noUse_of_work hc.work
  | asked c hd rc t hseg _ hc ht =>
    rw [hseg]
    exact noUse_of_work (hc.work.append
      ((Work.one (e := .answer p hd rc) (by simp [IoEv.work])).append ht.work))
  | closed c fd err errstr t hseg hc ht htail =>
    have hquiet : ∀ e ∈ t, e.uses p = false := htail.resolve_right hlate
    have hopen : ∀ q, ¬ Deleted q (.call p :: (c ++ [.access p, .rm p fd, .close p fd])) := by
      intro q hq
      simp [IoEv.deletes, hc.not_deleted] at hq
    have hbefore : NoUse (.call p :: (c ++ [.access p, .rm p fd, .close p fd])) :=
      List.pairwise_of_forall_mem_list fun e he _ _ q hdel => absurd ⟨e, he, hdel⟩ (hopen q)
    have hafter : NoUse (.delete p err errstr :: t) := by
      refine List.pairwise_cons.mpr ⟨?_, List.pairwise_of_forall_mem_list ?_⟩
      · intro e he q hq
        cases of_decide_eq_true hq
        exact hquiet e he
      · intro e he _ _ q hdel
        exact absurd ⟨e, he, hdel⟩ ht.work.not_deleted
    have hsplit : IoEv.call p :: seg =
        .call p :: (c ++ [.access p, .rm p fd, .close p fd]) ++ .delete p err errstr :: t := by
      simp [hseg, errSeg]
    rw [hsplit]
    apply hbefore.append hafter
    intro q hq
    exact absurd hq (hopen q)

theorem Calm.no_refusal {q : Ptr} {hd : Handler} {rc : Int} (h : Calm p seg) (hrc : rc < 0) :
    .answer q hd rc ∉ seg := by
  intro hmem
  have hcalm := h _ hmem
  simp only [IoEv.calm, Bool.and_eq_true, decide_eq_true_eq] at hcalm
  omega

/-- A callback whose negative answers come where the library ends the connection anyway. -/
theorem CbOut.closes (h : CbOut late p seg) (hheard : Heard (.call p :: seg)) :
    Closes (.call p :: seg) := by
  cases h with
  | calm hc =>
    intro pre q hd rc post hlog hrc
    have hmem : .answer q hd rc ∈ IoEv.call p :: seg := by rw [hlog]; simp
    exact absurd (by simpa using hmem) (hc.no_refusal hrc)
  | asked c hd rc t hseg hrc hc ht =>
    rcases hheard (.call p :: c) p hd rc t (by rw [hseg]; rfl) hrc with ⟨e, he⟩ | ⟨r, hr, hhard⟩
    · rcases List.mem_cons.mp he with he | he
      · cases he
      · exact absurd (hc _ he) (by simp [IoEv.calm])
    · exact absurd (ht _ hr) (by simp [IoEv.calm, hhard])
  | closed c fd err errstr t hseg hc ht _ =>
    intro pre q hd rc post hlog hrc
    have hend : .answer q hd rc ∉ errSeg p fd err errstr ++ t := by
      simp [errSeg, ht.no_refusal hrc]
    have hsplit : (IoEv.call p :: c) ++ (errSeg p fd err errstr ++ t) = pre ++ .answer q hd rc :: post := by
      rw [← hlog, hseg]
      simp
    obtain ⟨c', hc', rfl⟩ : ∃ c', IoEv.call p :: c = pre ++ .answer q hd rc :: c' ∧
        post = c' ++ (errSeg p fd err errstr ++ t) := by
      rcases split_append hsplit with h | ⟨b', -, hb'⟩
      · exact h
      · exact absurd (by rw [hb']; simp) hend
    have hmem : .answer q hd rc ∈ c := by
      have hin : .answer q hd rc ∈ IoEv.call p :: c := by rw [hc']; simp
      simpa using hin
    have hqp : q = p := uses_of_work (hc _ hmem) (by simp [IoEv.uses])
    subst hqp
    have hnocall : .call q ∉ c' := by
      cases pre with
      | nil => simp at hc'
      | cons x pre =>
        rw [List.cons_append, List.cons.injEq] at hc'
        have hrest : .call q ∉ c := hc.not_mem rfl
        rw [hc'.2] at hrest
        simp at hrest
        exact hrest.2
    refine ⟨c' ++ [.access q, .rm q fd, .close q fd], fd, err, errstr, t, by simp [errSeg],
      by simp, by simp, by simp [hnocall], ?_⟩
    rw [hseg]
    simp [List.countP_append, errSeg, IoEv.deletes, countP_deletes hc.not_deleted,
      countP_deletes ht.work.not_deleted]

end
end Libhp.Io
