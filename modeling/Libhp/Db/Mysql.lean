import Libhp.Lib.Text
import Libhp.Lib.Transaction
import Libhp.Str.Printf

/-!
# Statements sent to MySQL

`hp_mysql_query` tries a statement twice, and replaces the connection in between unless the
error is `CR_COMMANDS_OUT_OF_SYNC`. `hp_mysql_query_all` and `hp_mysql_tmpl` switch
autocommit off, send a list of statements through it, and switch autocommit on again. The
mode belongs to the session, so that the statements after a replaced connection are no
longer part of a transaction. Every call of the client library can fail or find the connection
replaced. `none` as the result of a function of the code means that its behaviour is undefined:
the text of an error is made with what stands in a buffer as the format, and column names are
copied into an array.
-/
namespace Libhp.Db
open Transaction Libhp.Buf Libhp.Err
open Text (nonempty nonempty_cons)

/-- A statement and the number of statements sent before it. -/
abbrev Sent := Chars × Nat

def CR_COMMANDS_OUT_OF_SYNC : Int := 2014

/-- What one `mysql_query` comes to: an error has a number and a text, and may come with the loss
of the session. -/
inductive Answer where
  | ok
  | failed (errno : Int) (text : Chars) (lost : Bool)
  deriving Repr, DecidableEq

/-- The server as the client sees it: what a statement does, and for each statement sent
the answers to the first try and to the second, and the columns and rows of its result. -/
structure Server (R : Type) where
  kind : Chars → Kind
  answers : Nat → Answer × Answer
  columns : Nat → List Chars
  rows : Nat → R

/-- The session, and the buffer for the text of an error, which may be `NULL`. -/
structure Conn where
  session : Session Sent
  err : Option ErrT

/-- `strncpy(err, errstr, (sdslen(errstr) < 128? sdslen(errstr) : 128))` -/
def putError (b : ErrT) (errstr : Chars) : ErrT :=
  b.write (ncopy errstr (min errstr.length 128)) ((length_ncopy _ _).trans (Nat.min_le_right _ _))

/-- What a failing try leaves in the buffer, whose content is the format. -/
def reportError (p : Printf) (errno : Int) (text : Chars) : Option ErrT → Option (Option ErrT)
  | none => some none
  | some b => (b.print p [.int errno, .str text]).toOption.map fun errstr => some (putError b errstr)

/-- `char field[102][102]` holds the names of the columns. -/
def storable (columns : List Chars) : Bool :=
  columns.length ≤ 102 && columns.all fun name => name.length < 102

/-- `connected` tells whether `g_connect_cb` is set. A lost connection takes its session
with it in any case, even where the client library connects again by itself. -/
def afterError (connected : Bool) (errno : Int) (lost : Bool) (s : Session Sent) : Session Sent :=
  let s := if lost then s.renew else s
  if errno = CR_COMMANDS_OUT_OF_SYNC then s else if connected then s.renew else s

/-- What another call of the client library comes to: whether the session was replaced below it,
and whether the call then took effect. -/
structure Outcome where
  renewed : Bool
  done : Bool
  deriving Repr, DecidableEq

/-- The calls that both functions make besides the statements. -/
structure Calls where
  off : Outcome
  commit : Outcome
  rollback : Outcome
  deriving Repr, DecidableEq

def Outcome.apply (o : Outcome) (effect : Session Sent → Session Sent) (s : Session Sent) :
    Session Sent :=
  let s := if o.renewed then s.renew else s
  if o.done then effect s else s

/-- `mysql_autocommit`: 0, or the mode is as it was. -/
def mysqlAutocommit (o : Outcome) (mode : Int) (s : Session Sent) : Int × Session Sent :=
  (if o.done then 0 else 1, o.apply (·.setAutocommit (mode ≠ 0)) s)

/-- `if(!f) f = 1; mysql_autocommit(mysql, f)`, a call that succeeds. -/
def resetAutocommit (f : Int) (s : Session Sent) : Session Sent :=
  (mysqlAutocommit ⟨false, true⟩ (if f = 0 then 1 else f) s).2

/-- What `result_cb` is called with. -/
structure Report (R : Type) where
  err : Int
  errstr : Chars
  jrowCount : Option R
  jrows : Option R

/-- How far the template has come: the number of statements sent, the rows of the text in turn,
`errstr`, and the session. -/
structure Tmpl (R : Type) where
  sent : Nat
  rows : Option R
  errstr : Chars
  session : Session Sent

/-- `hp_mysql_err_t sqlerr = "mysql_error: %d/'%s'"` -/
def sqlerr : ErrT where
  chars := ['m', 'y', 's', 'q', 'l', '_', 'e', 'r', 'r', 'o', 'r', ':', ' ', '%', 'd', '/',
    Char.ofNat 39, '%', 's', Char.ofNat 39] ++ List.replicate 108 nul
  size := rfl

section
variable {R : Type} (p : Printf) (srv : Server R) (calls : Calls) (connected : Bool)

def Server.kindOf (e : Sent) : Kind := srv.kind e.1

/-- The tries of a statement, with the answers that are still to come. -/
def hpMysqlQueryLoop (e : Sent) : List Answer → Int → Conn → Option (Int × Conn)
  | [], rc, c => some (rc, c)
  | .ok :: _, _, c => some (0, { c with session := c.session.exec srv.kindOf e })
  | .failed errno text lost :: rest, _, c =>
    (reportError p errno text c.err).bind fun err =>
      hpMysqlQueryLoop e rest 1 ⟨afterError connected errno lost c.session, err⟩

/-- `data` tells whether the rows are asked for. -/
def hpMysqlQuery (e : Sent) (data : Bool) (c : Conn) : Option (Int × Option R × Conn) :=
  (hpMysqlQueryLoop p srv connected e [(srv.answers e.2).1, (srv.answers e.2).2] 0 c).bind
    fun (rc, c) =>
      if rc ≠ 0 then some (-3, none, c)
      else if !data then some (0, none, c)
      else if storable (srv.columns e.2) then some (0, some (srv.rows e.2), c)
      else none

def queryAllLoop (data : Bool) :
    List Chars → Nat → List (Option R) → Conn → Option (Int × List (Option R) × Conn)
  | [], _, rows, c => some (0, rows, c)
  | sql :: rest, i, rows, c =>
    (hpMysqlQuery p srv connected (sql, i) data c).bind fun (r, row, c) =>
      if r ≠ 0 then
        some (r, rows, { c with session := calls.rollback.apply Session.rollback c.session })
      else queryAllLoop data rest (i + 1) (rows ++ [row]) c

/-- The last `mysql_autocommit` is given a nonzero mode whatever the first one returned. -/
def hpMysqlQueryAll (data : Bool) (sqls : List Chars) (c : Conn) :
    Option (Int × List (Option R) × Conn) :=
  if sqls = [] then some (-1, [], c)
  else
    let (f, s) := mysqlAutocommit calls.off 0 c.session
    (queryAllLoop p srv calls connected data sqls 0 [] { c with session := s }).map
      fun (r, rows, c) =>
        (r, if r ≠ 0 then sqls.map fun _ => none else rows,
          ⟨resetAutocommit f c.session,
            if r = 0 then c.err.map (·.write [nul] length_nul) else c.err⟩)

/-- One of the two loops over the pieces of a text. -/
def tmplLoop (errCode : Int) : List Chars → Tmpl R → Option (Int × Tmpl R)
  | [], t => some (0, t)
  | piece :: rest, t =>
    if piece = [] then tmplLoop errCode rest t
    else
      (hpMysqlQuery p srv connected (piece, t.sent) t.rows.isNone ⟨t.session, some sqlerr⟩).bind
        fun (r, row, c) =>
          if r ≠ 0 then
            -- `sdscat` reads the buffer up to its NUL
            (c.err.bind fun b => (cstr b.chars).toOption).map fun text =>
              (errCode, { t with
                errstr := t.errstr ++ text
                session := calls.rollback.apply Session.rollback c.session })
          else
            tmplLoop errCode rest
              ⟨t.sent + 1, if t.rows.isNone then row else t.rows, t.errstr, c.session⟩

/-- The statements of the template, and the commit after them; `goto ret` leaves out the commit
and the reset. -/
def tmplSend (query count : List Chars) (errstr : Chars) (s : Session Sent) :
    Option (Report R × Session Sent) :=
  let (f, s) := mysqlAutocommit calls.off 0 s
  (tmplLoop p srv calls connected (-4) query ⟨0, none, errstr, s⟩).bind fun (rc, t) =>
    if rc ≠ 0 then some (⟨rc, t.errstr, none, t.rows⟩, t.session)
    else
      (tmplLoop p srv calls connected (-3) count { t with rows := none }).map fun (rc, t') =>
        if rc ≠ 0 then (⟨rc, t'.errstr, t'.rows, t.rows⟩, t'.session)
        else
          (⟨rc, t'.errstr, t'.rows, t.rows⟩,
            resetAutocommit f (calls.commit.apply Session.commit t'.session))

variable {J : Type} (sdssplitlen : Chars → Char → List Chars)

/-- The pieces of `sql_query` or `sql_count`, which may be `NULL`. -/
def sqlPieces (sql : Option Chars) : List Chars :=
  match sql with
  | none => []
  | some t => if t.length > 0 then sdssplitlen t ';' else []

/-- Both callbacks may add to `errstr`. -/
abbrev CheckCb (J : Type) := Option J → Chars → Option J × Chars

/-- What `sql_cb` returns and sets. -/
structure Sql where
  rc : Int
  sqlCount : Option Chars
  sqlQuery : Option Chars
  errstr : Chars

abbrev SqlCb (J : Type) := J → Chars → Sql

/-- The template up to its label `ret`. -/
def tmplBody (checkCb : Option (CheckCb J)) (sqlCb : SqlCb J) (json : Option J)
    (s : Session Sent) : Option (Report R × Session Sent) :=
  match checkCb.elim (json, []) fun cb => cb json [] with
  | (none, errstr) => some (⟨-1, errstr, none, none⟩, s)
  | (some ijson, errstr) =>
    let sql := sqlCb ijson errstr
    if sql.rc ≠ 0 then some (⟨-2, sql.errstr, none, none⟩, s)
    else tmplSend p srv calls connected (sqlPieces sdssplitlen sql.sqlQuery)
      (sqlPieces sdssplitlen sql.sqlCount) sql.errstr s

/-- Without `sql_cb` or `result_cb` nothing is done and nothing is reported. -/
def hpMysqlTmpl (checkCb : Option (CheckCb J)) (sqlCb : Option (SqlCb J)) (hasResultCb : Bool)
    (json : Option J) (s : Session Sent) : Option (Option (Report R) × Session Sent) :=
  match sqlCb with
  | none => some (none, s)
  | some sqlCb =>
    if hasResultCb then
      (tmplBody p srv calls connected sdssplitlen checkCb sqlCb json s).map
        fun (report, s) => (some report, s)
    else some (none, s)

end

def Answer.fails : Answer → Bool
  | .ok => false
  | .failed _ _ _ => true

/-- The error makes the code go on with another session. -/
def Answer.breaks (connected : Bool) : Answer → Bool
  | .ok => false
  | .failed errno _ lost => lost || (connected && errno ≠ CR_COMMANDS_OUT_OF_SYNC)

/-- What a try makes of the buffer for the text of an error. -/
def Answer.report (p : Printf) (err : Option ErrT) : Answer → Option (Option ErrT)
  | .ok => some err
  | .failed errno text _ => reportError p errno text err

section
variable {R : Type} (p : Printf) (srv : Server R)

/-- Both tries fail. -/
def Server.fails (e : Sent) : Bool := (srv.answers e.2).1.fails && (srv.answers e.2).2.fails

/-- The session is replaced during the tries of a statement. -/
def Server.drops (connected : Bool) (e : Sent) : Bool :=
  (srv.answers e.2).1.breaks connected ||
    ((srv.answers e.2).1.fails && (srv.answers e.2).2.breaks connected)

/-- What the tries of a statement make of the buffer. -/
def Server.report (e : Sent) (err : Option ErrT) : Option (Option ErrT) :=
  ((srv.answers e.2).1.report p err).bind fun err =>
    if (srv.answers e.2).1.fails then (srv.answers e.2).2.report p err else some err

/-- The statements up to the first that fails are all defined: the buffer, as `fresh` gives it
to each, is a format at every failing try, `reads` holds of what the last failure leaves there, and
the columns of a result that is `wanted` can be stored. -/
def Server.defined (fresh : Option ErrT → Option ErrT) (reads : Option ErrT → Bool)
    (wanted : Sent → Bool) : List Sent → Option ErrT → Bool
  | [], _ => true
  | e :: es, err =>
    match srv.report p e (fresh err) with
    | none => false
    | some err =>
      if srv.fails e then reads err
      else (!wanted e || storable (srv.columns e.2)) &&
        Server.defined fresh reads wanted es err

/-- `hp_mysql_query_all` uses one buffer for all statements. -/
def Server.allDefined (data : Bool) (sqls : List Chars) (err : Option ErrT) : Bool :=
  srv.defined p id (fun _ => true) (fun _ => data) sqls.zipIdx err

/-- The template has a buffer for each statement, of which it reads the text at last, and wants
the rows of the first statement of each of its texts. -/
def Server.tmplDefined (sent : Nat) (pieces : List Chars) : Bool :=
  srv.defined p (fun _ => some sqlerr) (fun err => err.any fun b => nul ∈ b.chars)
    (fun e => e.2 = sent) ((nonempty pieces).zipIdx sent) none

/-- The second text is sent if no statement of the first one fails. -/
def Server.sendDefined (query count : List Chars) : Bool :=
  srv.tmplDefined p 0 query &&
    ((nonempty query).zipIdx.any srv.fails || srv.tmplDefined p (nonempty query).length count)

variable {p srv}

theorem Answer.breaks_ok {a : Answer} (h : a.fails = false) (connected : Bool) :
    a.breaks connected = false := by
  cases a with
  | ok => rfl
  | failed => cases h

theorem afterError_eq (connected : Bool) (errno : Int) (text : Chars) (lost : Bool)
    (s : Session Sent) : afterError connected errno lost s =
      if (Answer.failed errno text lost).breaks connected then s.renew else s := by
  unfold afterError Answer.breaks
  by_cases herr : errno = CR_COMMANDS_OUT_OF_SYNC
  · cases lost <;> simp [herr]
  · cases lost <;> cases connected <;> simp [herr]

/-- One try. -/
theorem queryLoop_cons (connected : Bool) (e : Sent) (a : Answer) (rest : List Answer) (rc : Int)
    (c : Conn) :
    hpMysqlQueryLoop p srv connected e (a :: rest) rc c = (a.report p c.err).bind fun err =>
      if a.fails then
        hpMysqlQueryLoop p srv connected e rest 1
          ⟨if a.breaks connected then c.session.renew else c.session, err⟩
      else some (0, ⟨c.session.exec srv.kindOf e, err⟩) := by
  cases a with
  | ok => rfl
  | failed errno text lost =>
    rw [hpMysqlQueryLoop]
    simp only [afterError_eq connected errno text lost]
    rfl

/-- The rows are stored if they are asked for. -/
theorem stored_eq (columns : List Chars) (data : Bool) (row : R) (c : Conn) :
    (if !data then some (0, none, c)
      else if storable columns then some (0, some row, c) else none) =
    if !data || storable columns then
      some ((0 : Int), if data then some row else none, c) else none := by
  cases data <;> cases storable columns <;> rfl

/-- What `hp_mysql_query` does, by the answers to both tries. -/
theorem hpMysqlQuery_eq (connected : Bool) (e : Sent) (data : Bool) (c : Conn) :
    hpMysqlQuery p srv connected e data c = (srv.report p e c.err).bind fun err =>
      if srv.fails e then
        some (-3, none, ⟨if srv.drops connected e then c.session.renew else c.session, err⟩)
      else if !data || storable (srv.columns e.2) then
        some (0, if data then some (srv.rows e.2) else none,
          ⟨(if srv.drops connected e then c.session.renew else c.session).exec srv.kindOf e, err⟩)
      else none := by
  unfold hpMysqlQuery Server.fails Server.drops Server.report
  obtain ⟨first, retry⟩ := srv.answers e.2
  rw [queryLoop_cons, Option.bind_assoc, Option.bind_assoc]
  apply Option.bind_congr
  intro err _
  by_cases hfirst : first.fails = true
  · rw [if_pos hfirst, if_pos hfirst, queryLoop_cons, Option.bind_assoc]
    apply Option.bind_congr
    intro err' _
    by_cases hretry : retry.fails = true
    · rw [if_pos hretry, hpMysqlQueryLoop]
      cases first.breaks connected <;> cases retry.breaks connected <;> simp [hfirst, hretry]
    · have hbreaks := Answer.breaks_ok (Bool.eq_false_iff.mpr hretry) connected
      rw [if_neg hretry, Option.bind_some]
      simp only [ne_eq, not_true_eq_false, ↓reduceIte, stored_eq, hfirst, hretry, hbreaks,
        Bool.and_false, Bool.or_false, Bool.false_eq_true]
  · have hbreaks := Answer.breaks_ok (Bool.eq_false_iff.mpr hfirst) connected
    rw [if_neg hfirst, if_neg hfirst, Option.bind_some, Option.bind_some]
    simp only [ne_eq, not_true_eq_false, ↓reduceIte, stored_eq, hfirst, hbreaks,
      Bool.false_and, Bool.or_false, Bool.false_eq_true]

/-- What a list of statements leaves behind: the session of its run, or if one of them has failed,
that session with the rollback still to come. -/
def Calls.Leaves (calls : Calls) (done : Bool × Session Sent) (s : Session Sent) : Prop :=
  if done.1 then s = done.2
  else ∃ s₀, s = calls.rollback.apply Session.rollback s₀ ∧ done.2 = s₀.rollback

/-- The loop of `hp_mysql_query_all` executes the statements up to the first failure. -/
theorem queryAllLoop_spec (p : Printf) (srv : Server R) (calls : Calls) (connected data : Bool)
    (sqls : List Chars) : ∀ (i : Nat) (rows : List (Option R)) (c : Conn),
    let loop := queryAllLoop p srv calls connected data sqls i rows c
    let done := run srv.kindOf (srv.drops connected) srv.fails (sqls.zipIdx i) c.session
    loop.isSome = srv.defined p id (fun _ => true) (fun _ => data) (sqls.zipIdx i) c.err ∧
      ∀ r ∈ loop, r.1 = (if done.1 then 0 else -3) ∧ calls.Leaves done r.2.2.session := by
  induction sqls with
  | nil => exact fun i rows c => ⟨rfl, fun r hr => by cases hr; exact ⟨rfl, rfl⟩⟩
  | cons sql sqls ih =>
    intro i rows c
    dsimp only
    unfold queryAllLoop
    rw [hpMysqlQuery_eq, List.zipIdx_cons, run_cons, Server.defined, id_eq]
    cases srv.report p (sql, i) c.err with
    | none => exact ⟨rfl, fun r hr => by cases hr⟩
    | some err =>
      by_cases hfail : srv.fails (sql, i) = true
      · simp only [hfail, ↓reduceIte]
        exact ⟨rfl, fun r hr => by cases hr; exact ⟨rfl, _, rfl, rfl⟩⟩
      · by_cases hstored : (!data || storable (srv.columns i)) = true
        · simp only [hfail, hstored, Bool.false_eq_true, ↓reduceIte]
          exact ih _ _ _
        · simp only [hfail, hstored, Bool.false_eq_true, ↓reduceIte]
          exact ⟨rfl, fun r hr => by cases hr⟩

/-- What `sdscat` can read. -/
theorem readable_eq (err : Option ErrT) :
    (err.bind fun b => (cstr b.chars).toOption).isSome = err.any fun b => nul ∈ b.chars := by
  cases err with
  | none => rfl
  | some b =>
    show (cstr b.chars).toOption.isSome = decide (nul ∈ b.chars)
    by_cases h : nul ∈ b.chars
    · rw [cstr, if_pos h, decide_eq_true h]
      rfl
    · rw [cstr, if_neg h, decide_eq_false h]
      rfl

/-- A loop of the template executes the nonempty pieces up to the first failure. -/
theorem tmplLoop_spec (p : Printf) (srv : Server R) (calls : Calls) (connected : Bool)
    (errCode : Int) (sent : Nat) (pieces : List Chars) : ∀ (t : Tmpl R) (err : Option ErrT),
    sent ≤ t.sent → t.rows.isNone = decide (t.sent = sent) →
    let loop := tmplLoop p srv calls connected errCode pieces t
    let done := run srv.kindOf (srv.drops connected) srv.fails
      ((nonempty pieces).zipIdx t.sent) t.session
    loop.isSome = srv.defined p (fun _ => some sqlerr) (fun err => err.any fun b => nul ∈ b.chars)
        (fun e => e.2 = sent) ((nonempty pieces).zipIdx t.sent) err ∧
      ∀ r ∈ loop, r.1 = (if done.1 then 0 else errCode) ∧ calls.Leaves done r.2.session ∧
        (done.1 = true → r.2.sent = t.sent + (nonempty pieces).length) := by
  induction pieces with
  | nil => exact fun t err _ _ => ⟨rfl, fun r hr => by cases hr; exact ⟨rfl, rfl, fun _ => rfl⟩⟩
  | cons piece pieces ih =>
    intro t err hle hrows
    by_cases hp : piece = []
    · subst hp
      exact ih t err hle hrows
    · dsimp only
      unfold tmplLoop
      rw [if_neg hp, hpMysqlQuery_eq, nonempty_cons hp, List.zipIdx_cons, run_cons, Server.defined,
        hrows]
      cases srv.report p (piece, t.sent) (some sqlerr) with
      | none => exact ⟨rfl, fun r hr => by cases hr⟩
      | some err' =>
        by_cases hfail : srv.fails (piece, t.sent) = true
        · simp only [hfail, ↓reduceIte]
          refine ⟨(Option.isSome_map ..).trans (readable_eq err'), fun r hr => ?_⟩
          obtain ⟨text, -, rfl⟩ := Option.map_eq_some_iff.mp hr
          exact ⟨rfl, ⟨_, rfl, rfl⟩, fun h => absurd h Bool.false_ne_true⟩
        · by_cases hstored : (!decide (t.sent = sent) || storable (srv.columns t.sent)) = true
          · simp only [hfail, hstored, Bool.false_eq_true, ↓reduceIte, Option.bind_some, ne_eq,
              not_true_eq_false, Bool.true_and]
            generalize hrow : (if decide (t.sent = sent) = true then
              if decide (t.sent = sent) = true then some (srv.rows t.sent) else none
              else t.rows) = rows
            -- the rows of the first statement stay
            have hsome : rows.isNone = false := by
              rw [← hrow]
              split
              · rfl
              · next hlater => rw [hrows, Bool.eq_false_iff.mpr hlater]
            have hlt : decide (t.sent + 1 = sent) = false :=
              decide_eq_false (Nat.lt_succ_of_le hle).ne'
            obtain ⟨hsome', hall⟩ := ih ⟨t.sent + 1, rows, t.errstr,
              (if srv.drops connected (piece, t.sent) then t.session.renew
                else t.session).exec srv.kindOf (piece, t.sent)⟩ err'
              (hle.trans (Nat.le_succ _)) (hsome.trans hlt.symm)
            refine ⟨hsome', fun r hr => ?_⟩
            obtain ⟨hrc, hleaves, hsent⟩ := hall r hr
            refine ⟨hrc, hleaves, fun h => ?_⟩
            rw [hsent h, List.length_cons]
            show t.sent + 1 + _ = t.sent + (_ + 1)
            omega
          · simp only [hfail, hstored, Bool.false_eq_true, ↓reduceIte]
            exact ⟨rfl, fun r hr => by cases hr⟩

theorem resetAutocommit_eq (f : Int) (s : Session Sent) :
    resetAutocommit f s = s.setAutocommit true := by
  by_cases hf : f = 0
  · simp [resetAutocommit, mysqlAutocommit, Outcome.apply, hf]
  · simp [resetAutocommit, mysqlAutocommit, Outcome.apply, hf]

theorem any_fails (srv : Server R) (connected : Bool) (es : List Sent) (s : Session Sent) :
    es.any srv.fails = !(run srv.kindOf (srv.drops connected) srv.fails es s).1 := by
  rw [Bool.eq_iff_iff, List.any_eq_true, Bool.not_eq_true', ← Bool.not_eq_true, run_ok_iff]
  simp

theorem hpMysqlQueryAll_spec (p : Printf) (srv : Server R) (calls : Calls) (connected data : Bool)
    {sqls : List Chars} (hsqls : sqls ≠ []) (c : Conn) :
    let call := hpMysqlQueryAll p srv calls connected data sqls c
    let done := run srv.kindOf (srv.drops connected) srv.fails sqls.zipIdx
      (mysqlAutocommit calls.off 0 c.session).2
    call.isSome = srv.allDefined p data sqls c.err ∧
      ∀ r ∈ call, (r.1 = 0 ↔ done.1 = true) ∧
        ∃ s, calls.Leaves done s ∧ r.2.2.session = s.setAutocommit true := by
  unfold hpMysqlQueryAll
  rw [if_neg hsqls]
  obtain ⟨f, s⟩ := mysqlAutocommit calls.off 0 c.session
  dsimp only
  obtain ⟨hsome, hall⟩ := queryAllLoop_spec p srv calls connected data sqls 0 []
    { c with session := s }
  refine ⟨(Option.isSome_map ..).trans hsome, fun r hr => ?_⟩
  obtain ⟨⟨rc, rows, c'⟩, hloop, rfl⟩ := Option.map_eq_some_iff.mp hr
  obtain ⟨hrc, hleaves⟩ := hall _ hloop
  refine ⟨?_, c'.session, hleaves, resetAutocommit_eq _ _⟩
  dsimp only at hrc ⊢
  rw [hrc]
  split <;> simp_all

/-- The two loops of the template are one run over the statements of both texts. -/
theorem tmplSend_spec (p : Printf) (srv : Server R) (calls : Calls) (connected : Bool)
    (query count : List Chars) (errstr : Chars) (s : Session Sent) :
    let sent := tmplSend p srv calls connected query count errstr s
    let done := run srv.kindOf (srv.drops connected) srv.fails
      ((nonempty query ++ nonempty count).zipIdx) (mysqlAutocommit calls.off 0 s).2
    sent.isSome = srv.sendDefined p query count ∧
      ∀ r ∈ sent, (r.1.err = 0 ↔ done.1 = true) ∧
        if done.1 then r.2 = (calls.commit.apply Session.commit done.2).setAutocommit true
        else calls.Leaves done r.2 := by
  rw [List.zipIdx_append, run_append]
  unfold tmplSend Server.sendDefined
  obtain ⟨f, s₀⟩ := mysqlAutocommit calls.off 0 s
  dsimp only
  obtain ⟨hsome, hall⟩ := tmplLoop_spec p srv calls connected (-4) 0 query
    ⟨0, none, errstr, s₀⟩ none (Nat.le_refl 0) rfl
  dsimp only at hsome hall
  have hdef : srv.tmplDefined p 0 query =
      (tmplLoop p srv calls connected (-4) query ⟨0, none, errstr, s₀⟩).isSome := hsome.symm
  rw [hdef, any_fails srv connected _ s₀]
  cases hquery : tmplLoop p srv calls connected (-4) query ⟨0, none, errstr, s₀⟩ with
  | none => exact ⟨rfl, fun r hr => by cases hr⟩
  | some first =>
    obtain ⟨rc, t⟩ := first
    obtain ⟨hrc, hleaves, hsent⟩ := hall _ hquery
    cases hdone : (run srv.kindOf (srv.drops connected) srv.fails
      ((nonempty query).zipIdx) s₀).1 with
    | false =>
      rw [hdone] at hrc
      cases hrc
      refine ⟨rfl, fun r hr => ?_⟩
      cases hr
      simp only [Bool.false_eq_true, ↓reduceIte, hdone, iff_false]
      exact ⟨by decide, hleaves⟩
    | true =>
      obtain rfl : rc = 0 := hrc.trans (if_pos hdone)
      have hs : t.session = _ := (if_pos hdone).mp hleaves
      have hk : t.sent = (nonempty query).length := by
        rw [hsent hdone, Nat.zero_add]
      obtain ⟨hsome', hall'⟩ := tmplLoop_spec p srv calls connected (-3) t.sent count
        { t with rows := none } none (Nat.le_refl _) (decide_eq_true rfl).symm
      dsimp only at hsome' hall'
      simp only [Option.bind_some, ne_eq, not_true_eq_false, ↓reduceIte, Option.isSome_map,
        Option.isSome_some, Bool.not_true, Bool.false_or, Bool.true_and, Nat.zero_add]
      rw [hs, hk] at hall'
      refine ⟨hsome'.trans (by rw [hk]; rfl), fun r hr => ?_⟩
      obtain ⟨⟨rc', t'⟩, hcount, rfl⟩ := Option.map_eq_some_iff.mp hr
      rw [hs, hk] at hcount
      obtain ⟨hrc', hleaves', -⟩ := hall' _ hcount
      cases hdone' : (run srv.kindOf (srv.drops connected) srv.fails
        ((nonempty count).zipIdx (nonempty query).length)
        (run srv.kindOf (srv.drops connected) srv.fails ((nonempty query).zipIdx) s₀).2).1 with
      | false =>
        obtain rfl : rc' = -3 := hrc'.trans (if_neg (Bool.eq_false_iff.mp hdone'))
        simp only [Bool.false_eq_true, ↓reduceIte, iff_false]
        exact ⟨show ¬ (-3 : Int) = 0 by decide, hleaves'⟩
      | true =>
        obtain rfl : rc' = 0 := hrc'.trans (if_pos hdone')
        have hs' : t'.session = _ := (if_pos hdone').mp hleaves'
        simp only [not_true_eq_false, ↓reduceIte, resetAutocommit_eq, hs', and_self]

end

section
variable {R J : Type} (p : Printf) (srv : Server R) (calls : Calls) (connected : Bool)
  (sdssplitlen : Chars → Char → List Chars)

/-- The pieces of the two texts that the callbacks of the template produce, if any are sent. -/
def tmplTexts (checkCb : Option (CheckCb J)) (sqlCb : Option (SqlCb J)) (hasResultCb : Bool)
    (json : Option J) : Option (List Chars × List Chars) :=
  match sqlCb, hasResultCb, checkCb.elim (json, []) fun cb => cb json [] with
  | some sqlCb, true, (some ijson, errstr) =>
    if (sqlCb ijson errstr).rc ≠ 0 then none
    else some (sqlPieces sdssplitlen (sqlCb ijson errstr).sqlQuery,
      sqlPieces sdssplitlen (sqlCb ijson errstr).sqlCount)
  | _, _, _ => none

/-- The statements among them. -/
def tmplStatements (texts : Option (List Chars × List Chars)) : List Sent :=
  texts.elim [] fun (query, count) => (nonempty query ++ nonempty count).zipIdx

/-- The template reports a refusal, or is about its statements. -/
theorem hpMysqlTmpl_eq (checkCb : Option (CheckCb J)) (sqlCb : Option (SqlCb J))
    (hasResultCb : Bool) (json : Option J) (s : Session Sent) :
    let call := hpMysqlTmpl p srv calls connected sdssplitlen checkCb sqlCb hasResultCb json s
    match tmplTexts sdssplitlen checkCb sqlCb hasResultCb json with
    | none => ∃ report, call = some (report, s) ∧ ∀ r ∈ report, r.err ≠ 0
    | some (query, count) => ∃ errstr, call =
        (tmplSend p srv calls connected query count errstr s).map fun (r, s) => (some r, s) := by
  unfold hpMysqlTmpl tmplTexts
  cases sqlCb with
  | none => exact ⟨none, rfl, fun r hr => by cases hr⟩
  | some sqlCb =>
    cases hasResultCb with
    | false => exact ⟨none, rfl, fun r hr => by cases hr⟩
    | true =>
      simp only [↓reduceIte, tmplBody]
      obtain ⟨ijson, errstr⟩ := checkCb.elim (json, []) fun cb => cb json []
      cases ijson with
      | none => exact ⟨_, rfl, fun r hr => by cases hr; exact show ¬ (-1 : Int) = 0 by decide⟩
      | some ijson =>
        by_cases hsql : (sqlCb ijson errstr).rc = 0
        · simp only [hsql, ne_eq, not_true_eq_false, ↓reduceIte]
          exact ⟨_, rfl⟩
        · simp only [hsql, ne_eq, not_false_eq_true, ↓reduceIte]
          exact ⟨_, rfl, fun r hr => by cases hr; exact show ¬ (-2 : Int) = 0 by decide⟩

/-- The template has called `result_cb` with 0. -/
def Reported (report : Option (Report R)) : Prop := ∃ r, report = some r ∧ r.err = 0

/-- The session behind the template, by the run of its statements. -/
def Calls.TmplLeaves (calls : Calls) (done : Bool × Session Sent) (s : Session Sent) : Prop :=
  if done.1 then s = (calls.commit.apply Session.commit done.2).setAutocommit true
  else calls.Leaves done s

theorem hpMysqlTmpl_spec (checkCb : Option (CheckCb J)) (sqlCb : Option (SqlCb J))
    (hasResultCb : Bool) (json : Option J) (s : Session Sent) :
    let call := hpMysqlTmpl p srv calls connected sdssplitlen checkCb sqlCb hasResultCb json s
    let texts := tmplTexts sdssplitlen checkCb sqlCb hasResultCb json
    let done := run srv.kindOf (srv.drops connected) srv.fails (tmplStatements texts)
      (mysqlAutocommit calls.off 0 s).2
    (call.isSome = texts.all fun (query, count) => srv.sendDefined p query count) ∧
      ∀ r ∈ call, (texts = none → ¬ Reported r.1 ∧ r.2 = s) ∧
        (texts ≠ none → (Reported r.1 ↔ done.1 = true) ∧ calls.TmplLeaves done r.2) := by
  have heq := hpMysqlTmpl_eq p srv calls connected sdssplitlen checkCb sqlCb hasResultCb json s
  dsimp only at heq ⊢
  cases htexts : tmplTexts sdssplitlen checkCb sqlCb hasResultCb json with
  | none =>
    rw [htexts] at heq
    obtain ⟨report, hcall, herr⟩ := heq
    rw [hcall]
    refine ⟨rfl, fun r hr => ⟨fun _ => ?_, fun h => absurd rfl h⟩⟩
    cases hr
    exact ⟨fun ⟨r, hr, h0⟩ => herr r hr h0, rfl⟩
  | some texts =>
    obtain ⟨query, count⟩ := texts
    rw [htexts] at heq
    obtain ⟨errstr, hcall⟩ := heq
    obtain ⟨hsome, hall⟩ := tmplSend_spec p srv calls connected query count errstr s
    rw [hcall]
    refine ⟨(Option.isSome_map ..).trans hsome, fun r hr => ⟨(nomatch ·), fun _ => ?_⟩⟩
    obtain ⟨⟨report, s'⟩, hsend, rfl⟩ := Option.map_eq_some_iff.mp hr
    obtain ⟨herr, hleaves⟩ := hall _ hsend
    refine ⟨?_, hleaves⟩
    rw [tmplStatements, Option.elim_some, ← herr]
    constructor
    · intro ⟨_, h, h0⟩
      cases h
      exact h0
    · exact fun h0 => ⟨_, rfl, h0⟩

/-- A call is defined and leaves what it should. -/
theorem defined_and_iff {α : Type} {call : Option α} {defined : Bool} {P : α → Prop} {Q : Prop}
    (hsome : call.isSome = defined) (hiff : ∀ r ∈ call, (P r ↔ Q)) :
    (∃ r ∈ call, P r) ↔ defined = true ∧ Q := by
  rw [← hsome, Option.isSome_iff_exists]
  constructor
  · exact fun ⟨r, hr, h⟩ => ⟨⟨r, hr⟩, (hiff r hr).mp h⟩
  · exact fun ⟨⟨r, hr⟩, h⟩ => ⟨r, hr, (hiff r hr).mpr h⟩

end

end Libhp.Db
