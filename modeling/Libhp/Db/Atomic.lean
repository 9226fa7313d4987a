import Libhp.Db.Mysql

/-!
# Statements as a transaction

Where the calls that switch autocommit, commit and roll back take effect, a list of statements
given to `hp_mysql_query_all`, and the statements of `hp_mysql_tmpl`, are executed as a whole or not
at all under a condition on where a statement fails and where the session is replaced, as long as
the texts of the errors can be made; short texts without a `%` can.
-/
namespace Libhp.Db
open Transaction Libhp.Buf Libhp.Err

/-- Every call takes effect on the session it was made for. -/
def Calls.work : Calls := ⟨⟨false, true⟩, ⟨false, true⟩, ⟨false, true⟩⟩

section
variable {R J : Type} (srv : Server R)

/-- No transaction stays open; success has been reported and every change is durable, or
it has not and none is. -/
def Atomic (es : List Sent) (ok : Prop) (s : Session Sent) : Prop :=
  s.pending = [] ∧ AllOrNothing srv.kindOf es ok s.durable

variable {srv} {p : Printf} {connected : Bool}

theorem atomic_iff {es : List Sent} {ok : Prop} {s : Session Sent}
    (hok : ok ↔ (run srv.kindOf (srv.drops connected) srv.fails es ⟨[], [], false⟩).1 = true)
    (hpend : s.pending = [])
    (hdur : s.durable =
      (run srv.kindOf (srv.drops connected) srv.fails es ⟨[], [], false⟩).2.commit.durable) :
    Atomic srv es ok s ↔ Whole srv.kindOf (srv.drops connected) srv.fails es := by
  unfold Atomic
  rw [hdur, propext hok, run_allOrNothing es rfl rfl rfl]
  exact and_iff_right hpend

/-- A refused call reports a failure and sends nothing. -/
theorem atomic_refused {auto : Bool} {ok : Prop} (hok : ¬ ok) :
    Atomic srv [] ok ⟨[], [], auto⟩ ↔ Whole srv.kindOf (srv.drops connected) srv.fails [] := by
  refine iff_of_true ⟨rfl, Or.inr ⟨hok, rfl⟩⟩ ⟨?_, fun _ => Or.inl rfl⟩
  intro ⟨e, he, _⟩
  cases he

/-- With calls that take effect the session is that of the run. -/
theorem leaves_work {done : Bool × Session Sent} {s : Session Sent}
    (h : Calls.work.Leaves done s) : s = done.2 := by
  unfold Calls.Leaves at h
  split at h
  · exact h
  · obtain ⟨s₀, hs, hdone⟩ := h
    rw [hs, hdone]
    rfl

theorem queryAll_atomic_iff (auto data : Bool) (err : Option ErrT) (sqls : List Chars) :
    (∃ r ∈ hpMysqlQueryAll p srv .work connected data sqls ⟨⟨[], [], auto⟩, err⟩,
        Atomic srv sqls.zipIdx (r.1 = 0) r.2.2.session) ↔
      srv.allDefined p data sqls err = true ∧
        Whole srv.kindOf (srv.drops connected) srv.fails sqls.zipIdx := by
  by_cases hnil : sqls = []
  · subst hnil
    apply defined_and_iff rfl
    intro r hr
    cases hr
    exact atomic_refused (show ¬ (-1 : Int) = 0 by decide)
  · obtain ⟨hsome, hall⟩ := hpMysqlQueryAll_spec p srv .work connected data hnil
      ⟨⟨[], [], auto⟩, err⟩
    apply defined_and_iff hsome
    intro r hr
    obtain ⟨hrc, s, hleaves, hsession⟩ := hall r hr
    rw [hsession, leaves_work hleaves]
    exact atomic_iff hrc rfl rfl

/-- The end of the template commits what the failed calls have rolled back already. -/
theorem tmplLeaves_closed {es : List Sent} {s : Session Sent}
    (h : Calls.work.TmplLeaves
      (run srv.kindOf (srv.drops connected) srv.fails es ⟨[], [], false⟩) s) :
    s.pending = [] ∧ s.durable =
      (run srv.kindOf (srv.drops connected) srv.fails es ⟨[], [], false⟩).2.commit.durable := by
  unfold Calls.TmplLeaves at h
  split at h
  · rw [h]
    exact ⟨rfl, List.append_nil _⟩
  · next hfail =>
    have hpend := run_stopped (Bool.eq_false_iff.mpr hfail)
    rw [leaves_work h, Session.commit_durable, hpend, List.append_nil]
    exact ⟨rfl, rfl⟩

theorem tmpl_atomic_iff (sdssplitlen : Chars → Char → List Chars) (auto hasResultCb : Bool)
    (checkCb : Option (CheckCb J)) (sqlCb : Option (SqlCb J)) (json : Option J) :
    let texts := tmplTexts sdssplitlen checkCb sqlCb hasResultCb json;
    (∃ r ∈ hpMysqlTmpl p srv .work connected sdssplitlen checkCb sqlCb hasResultCb json
          ⟨[], [], auto⟩,
        Atomic srv (tmplStatements texts) (Reported r.1) r.2) ↔
      (texts.all fun (query, count) => srv.sendDefined p query count) = true ∧
        Whole srv.kindOf (srv.drops connected) srv.fails (tmplStatements texts) := by
  obtain ⟨hsome, hall⟩ := hpMysqlTmpl_spec p srv .work connected sdssplitlen checkCb sqlCb
    hasResultCb json ⟨[], [], auto⟩
  apply defined_and_iff hsome
  intro r hr
  obtain ⟨hrefused, hsent⟩ := hall r hr
  by_cases htexts : tmplTexts sdssplitlen checkCb sqlCb hasResultCb json = none
  · obtain ⟨hok, hsession⟩ := hrefused htexts
    rw [hsession, htexts]
    exact atomic_refused hok
  · obtain ⟨hok, hleaves⟩ := hsent htexts
    obtain ⟨hpend, hdur⟩ := tmplLeaves_closed hleaves
    exact atomic_iff hok hpend hdur

end

section
variable {R : Type} {srv : Server R} {p : Printf}

/-- What the template makes of an error with a fresh buffer. -/
def errorText (errno : Int) (text : Chars) : Chars :=
  sqlerr.chars.take 13 ++ (decimal errno ++ (['/', Char.ofNat 39] ++ (text ++ [Char.ofNat 39])))

/-- The text is no format, and it ends in the buffer, behind the end of the format. -/
def Answer.Plain : Answer → Prop
  | .ok => True
  | .failed errno text _ => '%' ∉ errorText errno text ∧ nul ∉ errorText errno text ∧
      20 ≤ (errorText errno text).length ∧ (errorText errno text).length < 128

/-- In the buffer stands a text that is no format. -/
def PlainText (b : ErrT) : Prop := ∃ s rest, b.chars = s ++ nul :: rest ∧ '%' ∉ s ∧ nul ∉ s

theorem sqlerr_print (errno : Int) (text : Chars) :
    sqlerr.print p [.int errno, .str text] = .ok (errorText errno text) := by
  have hfmt : cstr sqlerr.chars = .ok (sqlerr.chars.take 20) := by decide
  have hprint : p.sdscatprintf (sqlerr.chars.take 20) [.int errno, .str text] =
      some (errorText errno text) := by
    have hquote := p.plain [Char.ofNat 39] [] (by decide)
    have hstr := p.string ['/', Char.ofNat 39] [Char.ofNat 39] text [] (by decide)
    have hnum := p.number (sqlerr.chars.take 13) ['/', Char.ofNat 39, '%', 's', Char.ofNat 39]
      errno [.str text] (by decide)
    rw [hquote, Option.map_some] at hstr
    have hpost : (['/', Char.ofNat 39, '%', 's', Char.ofNat 39] : Chars) =
      ['/', Char.ofNat 39] ++ '%' :: 's' :: [Char.ofNat 39] := rfl
    rw [hpost, hstr, Option.map_some] at hnum
    refine Eq.trans ?_ (hnum.trans ?_)
    · rfl
    · simp only [errorText, List.append_assoc]
  rw [ErrT.print, hfmt]
  simp only [hprint]
  rfl

/-- The first failing try leaves a text in the buffer that is no format. -/
theorem report_fresh {errno : Int} {text : Chars} {lost : Bool}
    (h : (Answer.failed errno text lost).Plain) :
    ∃ b, reportError p errno text (some sqlerr) = some (some b) ∧ PlainText b := by
  obtain ⟨hformat, hnul, hlow, hhigh⟩ := h
  refine ⟨putError sqlerr (errorText errno text), ?_, errorText errno text,
    List.replicate (127 - (errorText errno text).length) nul, ?_, hformat, hnul⟩
  · rw [reportError, sqlerr_print]
    rfl
  · have hzeros : sqlerr.chars.drop (errorText errno text).length =
        nul :: List.replicate (127 - (errorText errno text).length) nul := by
      have htail : sqlerr.chars = sqlerr.chars.take 20 ++ List.replicate 108 nul := by decide
      have hlen : (sqlerr.chars.take 20).length = 20 := by decide
      rw [htail, List.drop_append, List.drop_eq_nil_of_le (by omega), List.nil_append,
        List.drop_replicate, ← List.replicate_succ, hlen]
      congr 1
      omega
    have hcopy : ncopy (errorText errno text) (min (errorText errno text).length 128) =
        errorText errno text := by
      rw [Nat.min_eq_left hhigh.le, ncopy_long le_rfl, List.take_length]
    simp only [putError, ErrT.write, hcopy, hzeros]

/-- A later one leaves the buffer as it is. -/
theorem report_again {b : ErrT} (h : PlainText b) (errno : Int) (text : Chars) :
    reportError p errno text (some b) = some (some b) := by
  obtain ⟨s, rest, hchars, hformat, hnul⟩ := h
  have hlen : s.length < 128 := by
    have hsize := congrArg List.length hchars
    rw [b.size, List.length_append, List.length_cons] at hsize
    omega
  have hprint : b.print p [.int errno, .str text] = .ok s := by
    rw [ErrT.print, hchars, cstr_append hnul]
    simp only [p.plain s _ hformat]
    rfl
  have hcopy : ncopy s (min s.length 128) = s := by
    rw [Nat.min_eq_left hlen.le, ncopy_long le_rfl, List.take_length]
  have hput : putError b s = b := by
    obtain ⟨chars, size⟩ := b
    obtain rfl : chars = s ++ nul :: rest := hchars
    simp only [putError, ErrT.write, hcopy, List.drop_left]
  rw [reportError, hprint]
  exact congrArg (fun b => some (some b)) hput

/-- With such errors the tries of a statement are defined, and the text can be read at last. -/
theorem report_plain (e : Sent) (hfirst : (srv.answers e.2).1.Plain)
    (hretry : (srv.answers e.2).2.Plain) :
    ∃ b, srv.report p e (some sqlerr) = some (some b) ∧ (srv.fails e = true → nul ∈ b.chars) := by
  have hread : ∀ {b : ErrT}, PlainText b → nul ∈ b.chars := by
    rintro b ⟨s, rest, hchars, -⟩
    rw [hchars]
    exact List.mem_append_right s List.mem_cons_self
  unfold Server.report Server.fails
  generalize srv.answers e.2 = answers at hfirst hretry ⊢
  obtain ⟨first, retry⟩ := answers
  cases first with
  | ok => exact ⟨sqlerr, rfl, fun h => absurd h Bool.false_ne_true⟩
  | failed errno text lost =>
    obtain ⟨b, hreport, hplain⟩ := report_fresh (p := p) hfirst
    refine ⟨b, ?_, fun _ => hread hplain⟩
    show (reportError p errno text (some sqlerr)).bind _ = _
    rw [hreport]
    cases retry with
    | ok => rfl
    | failed errno' text' lost' => exact report_again hplain errno' text'

theorem defined_plain (wanted : Sent → Bool) (es : List Sent)
    (hplain : ∀ i, (srv.answers i).1.Plain ∧ (srv.answers i).2.Plain)
    (hstored : ∀ i, storable (srv.columns i) = true) : ∀ err,
    srv.defined p (fun _ => some sqlerr) (fun err => err.any fun b => nul ∈ b.chars) wanted es err =
      true := by
  induction es with
  | nil => exact fun err => rfl
  | cons e es ih =>
    intro err
    obtain ⟨b, hreport, hread⟩ := report_plain (p := p) e (hplain e.2).1 (hplain e.2).2
    rw [Server.defined, hreport]
    by_cases hfail : srv.fails e = true
    · simpa [hfail] using hread hfail
    · simpa [hfail, hstored] using ih _

/-- The template is defined on a server whose errors are short enough and have no `%`, and whose
columns can be stored. -/
theorem sendDefined_of_plain (query count : List Chars)
    (hplain : ∀ i, (srv.answers i).1.Plain ∧ (srv.answers i).2.Plain)
    (hstored : ∀ i, storable (srv.columns i) = true) : srv.sendDefined p query count = true := by
  have htmpl : ∀ sent pieces, srv.tmplDefined p sent pieces = true := fun sent pieces =>
    defined_plain _ _ hplain hstored none
  rw [Server.sendDefined, htmpl, htmpl, Bool.or_true, Bool.and_self]

/-- Without a buffer for the texts `hp_mysql_query_all` is defined if the columns it wants can be
stored. -/
theorem allDefined_null (data : Bool) (sqls : List Chars)
    (hstored : data = true → ∀ i, storable (srv.columns i) = true) :
    srv.allDefined p data sqls none = true := by
  have hreport : ∀ e, srv.report p e none = some none := by
    intro e
    unfold Server.report
    obtain ⟨first, retry⟩ := srv.answers e.2
    cases first <;> cases retry <;> rfl
  have hall : ∀ es : List Sent, srv.defined p id (fun _ => true) (fun _ => data) es none = true := by
    intro es
    induction es with
    | nil => rfl
    | cons e es ih =>
      rw [Server.defined, id_eq, hreport]
      by_cases hfail : srv.fails e = true
      · simp [hfail]
      · cases data with
        | false => simpa [hfail] using ih
        | true => simpa [hfail, hstored rfl] using ih
  exact hall sqls.zipIdx

end

/-- A server that rejects every statement with the same text. -/
def rejects (text : Chars) : Server Unit where
  kind := fun _ => .write
  answers := fun _ => (.failed 1064 text false, .failed 1064 text false)
  columns := fun _ => []
  rows := fun _ => ()

-- at the second try the server's text is the format
example : (rejects ['n', 'o']).allDefined basicPrintf true [['A']] (some sqlerr) = true := by
  decide +kernel

example : (rejects ['%', 's']).allDefined basicPrintf true [['A']] (some sqlerr) = false := by
  decide +kernel

/-- Two changes; the connection is lost at the second, which is then executed again. -/
def losesSecond : Server Unit where
  kind := fun _ => .write
  answers := fun k => if k = 1 then (.failed 2013 ['g', 'o', 'n', 'e'] true, .ok) else (.ok, .ok)
  columns := fun _ => []
  rows := fun _ => ()

end Libhp.Db
