import Mathlib.Data.List.DropRight
import Mathlib.Tactic

/-!
# Transactions over a session that can be replaced

Statements are executed one after the other on a session of a database, with autocommit
off at the start. A statement can fail for good, which rolls back, and the session can be
replaced below a statement: the open transaction is rolled back and the new session
commits every statement by itself. The sequence is atomic under a condition on where the
first replacement and the first failure happen.
-/
namespace Transaction

/-- A statement reads, changes rows, or changes the schema, which also commits. -/
inductive Kind where
  | read
  | write
  | ddl
  deriving Repr, DecidableEq

/-- What is durable, what belongs to the open transaction, and the mode. -/
structure Session (E : Type) where
  durable : List E
  pending : List E
  autocommit : Bool
  deriving Repr, DecidableEq

section
variable {E : Type}

def Session.commit (s : Session E) : Session E :=
  { s with durable := s.durable ++ s.pending, pending := [] }

def Session.rollback (s : Session E) : Session E := { s with pending := [] }

/-- Switching autocommit on commits. -/
def Session.setAutocommit (on : Bool) (s : Session E) : Session E :=
  if on then { s.commit with autocommit := true } else { s with autocommit := false }

/-- Another session: the open transaction is rolled back, and the mode is the default. -/
def Session.renew (s : Session E) : Session E :=
  { s with pending := [], autocommit := true }

def Session.exec (kind : E → Kind) (s : Session E) (e : E) : Session E :=
  match kind e with
  | .read => s
  | .write =>
    if s.autocommit then { s with durable := s.durable ++ [e] }
    else { s with pending := s.pending ++ [e] }
  | .ddl => { s with durable := s.durable ++ s.pending ++ [e], pending := [] }

/-- The statements that have an effect. -/
def changes (kind : E → Kind) (es : List E) : List E := es.filter fun e => kind e ≠ .read

/-- The statements in order, up to the first one that fails. -/
def run (kind : E → Kind) (drops fails : E → Bool) : List E → Session E → Bool × Session E
  | [], s => (true, s)
  | e :: es, s =>
    let s' := if drops e then s.renew else s
    if fails e then (false, s'.rollback) else run kind drops fails es (s'.exec kind e)

@[simp] theorem Session.renew_autocommit (s : Session E) : s.renew.autocommit = true := rfl

@[simp] theorem Session.renew_durable (s : Session E) : s.renew.durable = s.durable := rfl

@[simp] theorem Session.renew_pending (s : Session E) : s.renew.pending = [] := rfl

@[simp] theorem Session.rollback_durable (s : Session E) : s.rollback.durable = s.durable := rfl

@[simp] theorem Session.rollback_pending (s : Session E) : s.rollback.pending = [] := rfl

@[simp] theorem Session.commit_durable (s : Session E) :
    s.commit.durable = s.durable ++ s.pending := rfl

@[simp] theorem Session.commit_pending (s : Session E) : s.commit.pending = [] := rfl

@[simp] theorem Session.setAutocommit_on (s : Session E) :
    s.setAutocommit true = { s.commit with autocommit := true } := rfl

@[simp] theorem Session.setAutocommit_off (s : Session E) :
    s.setAutocommit false = { s with autocommit := false } := rfl

@[simp] theorem Session.renew_renew (s : Session E) : s.renew.renew = s.renew := rfl

/-- A session in autocommit mode has nothing that a replacement could lose. -/
theorem Session.renew_eq {s : Session E} (hauto : s.autocommit = true) (hp : s.pending = []) :
    s.renew = s := by
  cases s
  cases hauto
  cases hp
  rfl

variable {kind : E → Kind} {drops fails : E → Bool}

theorem changes_append (es fs : List E) :
    changes kind (es ++ fs) = changes kind es ++ changes kind fs := List.filter_append _ _

theorem changes_eq_nil {es : List E} : changes kind es = [] ↔ ∀ e ∈ es, kind e = .read := by
  unfold changes
  rw [List.filter_eq_nil_iff]
  simp only [ne_eq, decide_not, Bool.not_eq_eq_eq_not, Bool.not_true, decide_eq_false_iff_not,
    not_not]

theorem run_cons (e : E) (es : List E) (s : Session E) :
    run kind drops fails (e :: es) s =
      if fails e then (false, (if drops e then s.renew else s).rollback)
      else run kind drops fails es ((if drops e then s.renew else s).exec kind e) := rfl

theorem run_append (es fs : List E) (s : Session E) :
    run kind drops fails (es ++ fs) s =
      if (run kind drops fails es s).1 then run kind drops fails fs (run kind drops fails es s).2
      else run kind drops fails es s := by
  induction es generalizing s with
  | nil => rfl
  | cons e es ih =>
    rw [List.cons_append, run_cons, run_cons]
    by_cases hfail : fails e = true
    · simp only [hfail, ↓reduceIte, Bool.false_eq_true]
    · simp only [hfail, Bool.false_eq_true, ↓reduceIte]
      exact ih _

/-- A run that stopped at a failure leaves no open transaction. -/
theorem run_stopped {es : List E} {s : Session E} (h : (run kind drops fails es s).1 = false) :
    (run kind drops fails es s).2.pending = [] := by
  induction es generalizing s with
  | nil => cases h
  | cons e es ih =>
    rw [run_cons] at h ⊢
    by_cases hfail : fails e = true
    · rw [if_pos hfail]
      rfl
    · rw [if_neg hfail] at h ⊢
      exact ih h

/-- The statements up to the first one that fails, with that one. -/
def tried (fails : E → Bool) : List E → List E
  | [] => []
  | e :: es => if fails e then [e] else e :: tried fails es

theorem Session.exec_mode (kind : E → Kind) (s : Session E) (e : E) :
    (s.exec kind e).autocommit = s.autocommit := by
  unfold Session.exec
  cases kind e with
  | read => rfl
  | write => dsimp only; split <;> rfl
  | ddl => rfl

/-- A run succeeds if none of its statements fails. -/
theorem run_ok_iff (es : List E) (s : Session E) :
    (run kind drops fails es s).1 = true ↔ ∀ e ∈ es, fails e = false := by
  induction es generalizing s with
  | nil => simp [run]
  | cons e es ih =>
    rw [run_cons, List.forall_mem_cons]
    by_cases hfail : fails e = true
    · simp [hfail]
    · rw [if_neg hfail, ih]
      exact (and_iff_right (Bool.eq_false_iff.mpr hfail)).symm

/-- The mode changes only where the session is replaced. -/
theorem run_mode (es : List E) (s : Session E) :
    (run kind drops fails es s).2.autocommit = (s.autocommit || (tried fails es).any drops) := by
  induction es generalizing s with
  | nil => simp [run, tried]
  | cons e es ih =>
    have hmode : (if drops e then s.renew else s).autocommit = (s.autocommit || drops e) := by
      by_cases hdrop : drops e = true
      · simp [hdrop]
      · simp [hdrop]
    rw [run_cons, tried]
    by_cases hfail : fails e = true
    · rw [if_pos hfail, if_pos hfail]
      simpa [Session.rollback] using hmode
    · rw [if_neg hfail, if_neg hfail, ih, Session.exec_mode, hmode, List.any_cons, Bool.or_assoc]

/-- A statement in autocommit mode is durable at once. -/
theorem exec_autocommit {s : Session E} (hauto : s.autocommit = true) (hp : s.pending = [])
    (e : E) : s.exec kind e = { s with durable := s.durable ++ changes kind [e] } := by
  unfold Session.exec changes
  cases hk : kind e with
  | read => simp [hk]
  | write => simp [hk, hauto]
  | ddl => simp [hk, hp]

/-- A statement of a transaction is added to what is durable or pending. -/
theorem exec_transaction (kind : E → Kind) {s : Session E} (hoff : s.autocommit = false) (e : E) :
    (s.exec kind e).autocommit = false ∧
      (s.exec kind e).durable ++ (s.exec kind e).pending =
        s.durable ++ s.pending ++ changes kind [e] := by
  unfold Session.exec changes
  cases hk : kind e with
  | read => simp [hk, hoff]
  | write => simp [hk, hoff]
  | ddl => simp [hk, hoff]

end

section
variable {E : Type} {kind : E → Kind} {drops fails : E → Bool}

/-- In autocommit mode the statements that do not fail are durable one by one, whether
the session is replaced or not. -/
theorem run_autocommit {es : List E} (hnone : ∀ e ∈ es, fails e = false) {s : Session E}
    (hauto : s.autocommit = true) (hp : s.pending = []) :
    run kind drops fails es s = (true, { s with durable := s.durable ++ changes kind es }) := by
  induction es generalizing s with
  | nil => simp [run, changes]
  | cons e es ih =>
    have hsame : (if drops e then s.renew else s) = s := by
      rw [Session.renew_eq hauto hp, ite_self]
    have hfail : fails e = false := hnone e List.mem_cons_self
    rw [run_cons, hsame, hfail, exec_autocommit hauto hp]
    simp only [Bool.false_eq_true, ↓reduceIte]
    rw [ih (fun e' he' => hnone e' (List.mem_cons_of_mem _ he')) (by exact hauto) (by exact hp)]
    simp only [List.append_assoc, ← changes_append, List.singleton_append]

/-- Statements that neither fail nor lose the session are simply executed. -/
theorem run_kept {es : List E} (hkept : ∀ e ∈ es, drops e = false)
    (hnone : ∀ e ∈ es, fails e = false) (s : Session E) :
    run kind drops fails es s = (true, es.foldl (Session.exec kind) s) := by
  induction es generalizing s with
  | nil => rfl
  | cons e es ih =>
    rw [run_cons]
    simp only [hkept e List.mem_cons_self, hnone e List.mem_cons_self, Bool.false_eq_true,
      ↓reduceIte, List.foldl_cons]
    exact ih (fun e' he' => hkept e' (List.mem_cons_of_mem _ he'))
      (fun e' he' => hnone e' (List.mem_cons_of_mem _ he')) _

/-- A transaction holds the changes since the last DDL back; the others are durable. -/
theorem foldl_transaction (kind : E → Kind) (es : List E) {s : Session E}
    (hoff : s.autocommit = false) (hd : s.durable = []) (hp : s.pending = []) :
    let s' := es.foldl (Session.exec kind) s
    s'.autocommit = false ∧ s'.durable ++ s'.pending = changes kind es ∧
      s'.pending = changes kind (es.rtakeWhile fun e => kind e ≠ .ddl) ∧
      (s'.durable = [] ↔ ∀ e ∈ es, kind e ≠ .ddl) := by
  induction es using List.reverseRecOn with
  | nil => simp [hoff, hd, hp, changes]
  | append_singleton es e ih =>
    obtain ⟨hoff', hall, hpend, hdur⟩ := ih
    simp only [List.foldl_append, List.foldl_cons, List.foldl_nil]
    obtain ⟨hoff'', hall'⟩ := exec_transaction kind hoff' e
    refine ⟨hoff'', by rw [hall', hall, changes_append], ?_, ?_⟩
    · rw [List.rtakeWhile_concat]
      cases hk : kind e with
      | read => simp [Session.exec, changes, hk, hpend]
      | write => simp [Session.exec, changes, hk, hpend, hoff']
      | ddl => simp [Session.exec, changes, hk]
    · cases hk : kind e with
      | read => simpa [Session.exec, hk, or_imp, forall_and] using hdur
      | write => simpa [Session.exec, hk, hoff', or_imp, forall_and] using hdur
      | ddl => simp [Session.exec, hk]

end

section
variable {E : Type} (kind : E → Kind) (drops fails : E → Bool)

/-- The statements before the first one that fails. -/
def executed (es : List E) : List E := es.takeWhile fun e => !fails e

/-- Those of them that belong to the transaction, before the session is replaced. -/
def inTransaction (es : List E) : List E := (executed fails es).takeWhile fun e => !drops e

/-- Those that come after it, each of which is committed by itself. -/
def bare (es : List E) : List E := (executed fails es).dropWhile fun e => !drops e

/-- Where a sequence is atomic. If a statement fails, nothing before it was made durable
by a DDL or by a replaced session; if none fails, a replaced session had nothing to lose. -/
structure Whole (es : List E) : Prop where
  failed : (∃ e ∈ es, fails e = true) →
    (∀ e ∈ inTransaction drops fails es, kind e ≠ .ddl) ∧
      ∀ e ∈ bare drops fails es, kind e = .read
  succeeded : (∀ e ∈ es, fails e = false) →
    bare drops fails es = [] ∨
      ∀ e ∈ (inTransaction drops fails es).rtakeWhile (fun e => kind e ≠ .ddl), kind e = .read

/-- All or nothing: success and every change is durable, or failure and none is. -/
def AllOrNothing (es : List E) (ok : Prop) (durable : List E) : Prop :=
  (ok ∧ durable = changes kind es) ∨ (¬ ok ∧ durable = [])

end

section
variable {E : Type} {kind : E → Kind} {drops fails : E → Bool}

theorem executed_none {es : List E} (hnone : ∀ e ∈ es, fails e = false) :
    executed fails es = es :=
  List.takeWhile_eq_self_iff.mpr fun e he => by rw [hnone e he]; rfl

theorem executed_succeeds {es : List E} : ∀ e ∈ executed fails es, fails e = false := by
  intro e he
  have h := List.mem_takeWhile_imp he
  simpa using h

theorem inTransaction_append_bare (drops fails : E → Bool) (es : List E) :
    inTransaction drops fails es ++ bare drops fails es = executed fails es :=
  List.takeWhile_append_dropWhile

theorem inTransaction_kept {es : List E} :
    ∀ e ∈ inTransaction drops fails es, drops e = false := by
  intro e he
  have h := List.mem_takeWhile_imp he
  simpa using h

theorem inTransaction_succeeds {es : List E} :
    ∀ e ∈ inTransaction drops fails es, fails e = false :=
  fun e he => executed_succeeds e ((List.takeWhile_prefix _).subset he)

/-- The first statement that is executed outside of the transaction lost the session. -/
theorem bare_head {es : List E} {e : E} {rest : List E} (h : bare drops fails es = e :: rest) :
    drops e = true := by
  have hhead := List.head?_dropWhile_not (fun e => !drops e) (executed fails es)
  unfold bare at h
  rw [h] at hhead
  simpa using hhead

/-- Once the session has been replaced the statements are durable one by one. -/
theorem run_bare {es : List E} {e : E} {rest : List E} (h : bare drops fails es = e :: rest)
    (s : Session E) :
    run kind drops fails (bare drops fails es) s =
      (true, { s.renew with durable := s.durable ++ changes kind (bare drops fails es) }) := by
  have hrenew : run kind drops fails (e :: rest) s = run kind drops fails (e :: rest) s.renew := by
    rw [run_cons, run_cons, bare_head h]
    rfl
  have hnone : ∀ e ∈ bare drops fails es, fails e = false :=
    fun e he => executed_succeeds e ((List.dropWhile_suffix _).subset he)
  rw [h] at hnone ⊢
  rw [hrenew, run_autocommit hnone rfl rfl]
  rfl

/-- The statements before the first failure, as a transaction that may be cut off. -/
theorem run_executed (kind : E → Kind) (drops fails : E → Bool) (es : List E) (s : Session E) :
    run kind drops fails (executed fails es) s =
      run kind drops fails (bare drops fails es)
        ((inTransaction drops fails es).foldl (Session.exec kind) s) := by
  rw [← inTransaction_append_bare drops fails es, run_append,
    run_kept inTransaction_kept inTransaction_succeeds, if_pos rfl]

theorem run_executed_durable (es : List E) (s : Session E) :
    (run kind drops fails (executed fails es) s).2.durable =
      ((inTransaction drops fails es).foldl (Session.exec kind) s).durable ++
        changes kind (bare drops fails es) := by
  rw [run_executed]
  cases hb : bare drops fails es with
  | nil => exact (List.append_nil _).symm
  | cons e rest => rw [← hb, run_bare hb]

/-- A failure leaves what was durable before it. -/
theorem run_fails (kind : E → Kind) (drops : E → Bool) {es : List E}
    (h : ∃ e ∈ es, fails e = true) (s : Session E) :
    (run kind drops fails es s).1 = false ∧
      (run kind drops fails es s).2.durable =
        (run kind drops fails (executed fails es) s).2.durable := by
  induction es generalizing s with
  | nil =>
    obtain ⟨e, he, -⟩ := h
    cases he
  | cons e es ih =>
    unfold executed
    by_cases hfail : fails e = true
    · rw [run_cons, if_pos hfail, List.takeWhile_cons_of_neg (by simp [hfail])]
      refine ⟨rfl, ?_⟩
      show (if drops e then s.renew else s).durable = s.durable
      split <;> rfl
    · have hrest : ∃ e ∈ es, fails e = true := by
        obtain ⟨e', he', hfail'⟩ := h
        rcases List.mem_cons.mp he' with rfl | hmem
        · exact absurd hfail' hfail
        · exact ⟨e', hmem, hfail'⟩
      rw [run_cons, if_neg hfail, List.takeWhile_cons_of_pos (by simpa using hfail), run_cons,
        if_neg hfail]
      exact ih hrest _

/-- After a failure nothing is durable exactly if the transaction held everything back. -/
theorem run_failed_iff {es : List E} (hfail : ∃ e ∈ es, fails e = true) {s : Session E}
    (hoff : s.autocommit = false) (hd : s.durable = []) (hp : s.pending = []) :
    (run kind drops fails es s).2.commit.durable = [] ↔
      (∀ e ∈ inTransaction drops fails es, kind e ≠ .ddl) ∧
        ∀ e ∈ bare drops fails es, kind e = .read := by
  obtain ⟨-, -, -, hdur⟩ := foldl_transaction kind
    (inTransaction drops fails es) hoff hd hp
  obtain ⟨hok, hdurable⟩ := run_fails kind drops hfail s
  rw [Session.commit_durable, run_stopped hok, List.append_nil, hdurable, run_executed_durable,
    List.append_eq_nil_iff, hdur, changes_eq_nil]

/-- Without a failure everything is durable exactly if the session was not replaced, or
had nothing to lose when it was. -/
theorem run_succeeded_iff (kind : E → Kind) (drops : E → Bool) {es : List E}
    (hnone : ∀ e ∈ es, fails e = false) {s : Session E} (hoff : s.autocommit = false)
    (hd : s.durable = []) (hp : s.pending = []) :
    (run kind drops fails es s).1 = true ∧
      ((run kind drops fails es s).2.commit.durable = changes kind es ↔
        bare drops fails es = [] ∨
          ∀ e ∈ (inTransaction drops fails es).rtakeWhile (fun e => kind e ≠ .ddl),
            kind e = .read) := by
  obtain ⟨-, hall, hpend, -⟩ := foldl_transaction kind
    (inTransaction drops fails es) hoff hd hp
  have hes : changes kind es = changes kind (inTransaction drops fails es) ++
      changes kind (bare drops fails es) := by
    rw [← changes_append, inTransaction_append_bare, executed_none hnone]
  have hrun := run_executed kind drops fails es s
  rw [executed_none hnone] at hrun
  cases hb : bare drops fails es with
  | nil =>
    rw [hb] at hrun hes
    rw [hrun]
    refine ⟨rfl, iff_of_true ?_ (Or.inl rfl)⟩
    rw [hes]
    exact hall.trans (List.append_nil _).symm
  | cons e rest =>
    rw [hrun, run_bare hb]
    refine ⟨rfl, ?_⟩
    rw [hes, ← hall, ← changes_eq_nil, ← hpend]
    simp

/-- A sequence of statements is atomic exactly if it is whole. -/
theorem run_allOrNothing (es : List E) {s : Session E} (hoff : s.autocommit = false)
    (hd : s.durable = []) (hp : s.pending = []) :
    AllOrNothing kind es ((run kind drops fails es s).1 = true)
        (run kind drops fails es s).2.commit.durable ↔ Whole kind drops fails es := by
  unfold AllOrNothing
  by_cases hfail : ∃ e ∈ es, fails e = true
  · rw [(run_fails kind drops hfail s).1, run_failed_iff hfail hoff hd hp]
    constructor
    · rintro (⟨h, -⟩ | ⟨-, h⟩)
      · cases h
      · refine ⟨fun _ => h, fun hnone => ?_⟩
        obtain ⟨e, he, hf⟩ := hfail
        rw [hnone e he] at hf
        cases hf
    · exact fun h => Or.inr ⟨Bool.false_ne_true, h.failed hfail⟩
  · have hnone : ∀ e ∈ es, fails e = false :=
      fun e he => Bool.eq_false_iff.mpr fun hf => hfail ⟨e, he, hf⟩
    obtain ⟨hok, hiff⟩ := run_succeeded_iff kind drops hnone hoff hd hp
    rw [hok, hiff]
    constructor
    · rintro (⟨-, h⟩ | ⟨h, -⟩)
      · exact ⟨fun h => absurd h hfail, fun _ => h⟩
      · exact absurd rfl h
    · exact fun h => Or.inl ⟨rfl, h.succeeded hnone⟩

end

end Transaction
