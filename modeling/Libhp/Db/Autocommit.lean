import Libhp.Db.Atomic

/-!
# The mode a connection is left in

`hp_mysql_query_all` switches autocommit on wherever it leaves its loop; `hp_mysql_tmpl` jumps over
that after a statement that failed. The other calls to the client library may fail, or find the
connection replaced.
-/
namespace Libhp.Db
open Transaction Libhp.Buf Libhp.Err

/-- A call that does not touch the mode changes it only by being made on another session. -/
theorem Outcome.apply_mode (o : Outcome) (effect : Session Sent → Session Sent)
    (h : ∀ s, (effect s).autocommit = s.autocommit) (s : Session Sent) :
    (o.apply effect s).autocommit = (s.autocommit || o.renewed) := by
  obtain ⟨renewed, done⟩ := o
  cases renewed <;> cases done <;> simp [Outcome.apply, h]

/-- Autocommit is on until it has been turned off. -/
theorem mysqlAutocommit_off (o : Outcome) {s : Session Sent} (hauto : s.autocommit = true) :
    (mysqlAutocommit o 0 s).2.autocommit = !o.done := by
  obtain ⟨renewed, done⟩ := o
  cases renewed <;> cases done <;> simp [mysqlAutocommit, Outcome.apply, hauto]

/-- Where the template leaves autocommit on: if a statement fails at both tries, autocommit was
never off, or the session in which it was off has been replaced since. -/
def Calls.Restored {R : Type} (calls : Calls) (srv : Server R) (connected : Bool)
    (es : List Sent) : Prop :=
  (∃ e ∈ es, srv.fails e = true) →
    calls.off.done = false ∨ (∃ e ∈ tried srv.fails es, srv.drops connected e = true) ∨
      calls.rollback.renewed = true

section
variable {R J : Type} {p : Printf} {calls : Calls} {srv : Server R}

theorem queryAll_mode (connected data : Bool) (sqls : List Chars) {c : Conn}
    (hauto : c.session.autocommit = true) :
    (∃ r ∈ hpMysqlQueryAll p srv calls connected data sqls c, r.2.2.session.autocommit = true) ↔
      srv.allDefined p data sqls c.err = true := by
  rw [← and_true (srv.allDefined p data sqls c.err = true)]
  by_cases hnil : sqls = []
  · subst hnil
    apply defined_and_iff rfl
    intro r hr
    cases hr
    exact iff_true_intro hauto
  · obtain ⟨hsome, hall⟩ := hpMysqlQueryAll_spec p srv calls connected data hnil c
    apply defined_and_iff hsome
    intro r hr
    obtain ⟨-, s, -, hsession⟩ := hall r hr
    rw [hsession]
    exact iff_true_intro rfl

/-- A refused call sends nothing. -/
theorem restored_nil (connected : Bool) : calls.Restored srv connected [] := by
  intro ⟨e, he, _⟩
  cases he

/-- The template leaves autocommit on unless it is off where a statement has failed. -/
theorem tmplLeaves_mode {connected : Bool} {es : List Sent} {s₀ s : Session Sent}
    (hmode : s₀.autocommit = !calls.off.done)
    (h : calls.TmplLeaves (run srv.kindOf (srv.drops connected) srv.fails es s₀) s) :
    s.autocommit = true ↔ calls.Restored srv connected es := by
  have hok : (run srv.kindOf (srv.drops connected) srv.fails es s₀).1 = true ↔
      ∀ e ∈ es, srv.fails e = false := run_ok_iff es s₀
  unfold Calls.TmplLeaves at h
  split at h
  · next hdone =>
    rw [h]
    refine iff_of_true rfl fun ⟨e, he, hfail⟩ => ?_
    rw [hok.mp hdone e he] at hfail
    cases hfail
  · next hdone =>
    obtain ⟨s₁, hs, hrun⟩ := (if_neg hdone).mp h
    have hfail : ∃ e ∈ es, srv.fails e = true := by
      by_contra hnone
      exact hdone (hok.mpr fun e he => Bool.eq_false_iff.mpr fun hf => hnone ⟨e, he, hf⟩)
    have hs₁ : s₁.autocommit =
        (!calls.off.done || (tried srv.fails es).any (srv.drops connected)) := by
      have hrunMode : (run srv.kindOf (srv.drops connected) srv.fails es s₀).2.autocommit =
          (s₀.autocommit || (tried srv.fails es).any (srv.drops connected)) := run_mode es s₀
      rwa [hrun, hmode] at hrunMode
    rw [hs, Outcome.apply_mode calls.rollback Session.rollback fun _ => rfl, hs₁]
    simp only [Bool.or_eq_true, Bool.not_eq_true', List.any_eq_true, or_assoc]
    exact ⟨fun hrest _ => hrest, fun hrest => hrest hfail⟩

theorem tmpl_mode (sdssplitlen : Chars → Char → List Chars) (connected hasResultCb : Bool)
    (checkCb : Option (CheckCb J)) (sqlCb : Option (SqlCb J)) (json : Option J)
    {s : Session Sent} (hauto : s.autocommit = true) :
    let texts := tmplTexts sdssplitlen checkCb sqlCb hasResultCb json;
    (∃ r ∈ hpMysqlTmpl p srv calls connected sdssplitlen checkCb sqlCb hasResultCb json s,
        r.2.autocommit = true) ↔
      (texts.all fun (query, count) => srv.sendDefined p query count) = true ∧
        calls.Restored srv connected (tmplStatements texts) := by
  obtain ⟨hsome, hall⟩ := hpMysqlTmpl_spec p srv calls connected sdssplitlen checkCb sqlCb
    hasResultCb json s
  apply defined_and_iff hsome
  intro r hr
  obtain ⟨hrefused, hsent⟩ := hall r hr
  by_cases htexts : tmplTexts sdssplitlen checkCb sqlCb hasResultCb json = none
  · rw [(hrefused htexts).2, htexts]
    exact iff_of_true hauto (restored_nil connected)
  · exact tmplLeaves_mode (mysqlAutocommit_off _ hauto) (hsent htexts).2

end

end Libhp.Db
