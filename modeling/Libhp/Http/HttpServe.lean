import Libhp.Http.Http

/-!
# Requests served

What a correct `http_parser` does with a stream of well-formed requests, and what the
server makes of it. A request that arrives alone and in one read is served as it
should. A second request on a connection, or a request that is cut, is not: nothing
resets the url, and bytes that the parser has taken are given to it again.
-/
namespace Libhp.Http
open Libhp.Io

/-- A request on the wire: what precedes the url, the url, and what follows it. -/
structure Request where
  head : List Byte
  url : List Byte
  tail : List Byte
  tail_ne : tail ≠ []

def Request.bytes (r : Request) : List Byte := r.head ++ r.url ++ r.tail

/-- What the callbacks have been told once `n` bytes of the request are in: the url so far, and
then that the message is complete. -/
def Request.trace (r : Request) (n : Nat) : List (Option Byte) :=
  (r.url.take (n - r.head.length)).map some ++ if r.bytes.length ≤ n then [none] else []

def trace : List Request → Nat → List (Option Byte)
  | [], _ => []
  | r :: rs, n => r.trace n ++ trace rs (n - r.bytes.length)

namespace ParserRun
variable {P : Type}

/-- What a run tells the callbacks while they return 0. -/
def told : ParserRun P → List (Option Byte)
  | done _ _ _ => []
  | onUrl frag next => frag.map some ++ (next 0).told
  | onMessageComplete next => none :: (next 0).told

def final : ParserRun P → P × Nat × Bool
  | done parser nparsed upgrade => (parser, nparsed, upgrade)
  | onUrl _ next => (next 0).final
  | onMessageComplete next => (next 0).final

end ParserRun

section
variable {P : Type} (lib : HttpLib P)

/-- The parser object after it was given the pieces `cs`. -/
def HttpLib.fed (cs : List (List Byte)) : P :=
  cs.foldl (fun parser c => (lib.execute parser c).final.1) lib.init

/-- A correct incremental parser of the requests in `WF`: however the stream is cut, it takes
every byte, and the callbacks are told what the bytes so far say. -/
structure HttpLib.Correct (WF : Request → Prop) : Prop where
  url : ∀ r, WF r → lib.parseUrl r.url ≠ none
  execute : ∀ rs : List Request, (∀ r ∈ rs, WF r) → ∀ cs c,
    cs.flatten ++ c <+: rs.flatMap Request.bytes →
      trace rs cs.flatten.length ++ (lib.execute (lib.fed cs) c).told =
          trace rs (cs.flatten ++ c).length ∧
        (lib.execute (lib.fed cs) c).final.2 = (c.length, false)

/-- The path of a url. -/
def HttpLib.path (url : List Byte) : List Byte :=
  match lib.parseUrl url with
  | some ⟨some path, _⟩ => field url path
  | _ => []

/-- The decoded query of a url. -/
def HttpLib.query (url : List Byte) : List Byte :=
  match lib.parseUrl url with
  | some ⟨_, some query⟩ => if query.2 > 0 then lib.urldecode (field url query) else []
  | _ => []

/-- `on_request_cb` was called once for each request, in order, with its path and query. -/
def Served (cb : Nat → Int) (rs : List Request) (calls : List RdCall) : Prop :=
  ∃ rd s, httpRun lib cb calls = some (rd, s) ∧
    s.calls = rs.map fun r => (lib.path r.url, lib.query r.url)

/-- At most one request, which arrives in one read; its url has a path if it has a query. -/
structure Alone (rs : List Request) (calls : List RdCall) : Prop where
  one : rs.length ≤ 1
  whole : calls.flatMap RdCall.chunks = rs.map Request.bytes
  path : ∀ r ∈ rs, ∀ u, lib.parseUrl r.url = some u → u.path = none → u.query = none

end

section
variable {P : Type} {lib : HttpLib P} {cb : Nat → Int} {r : Request}

theorem Request.bytes_ne (r : Request) : r.bytes ≠ [] := by
  intro h
  exact r.tail_ne (List.append_eq_nil_iff.mp h).2

theorem Request.trace_all (r : Request) : r.trace r.bytes.length = r.url.map some ++ [none] := by
  have hurl : r.url.length ≤ r.bytes.length - r.head.length := by
    simp only [Request.bytes, List.length_append]
    omega
  rw [Request.trace, if_pos (Nat.le_refl _), List.take_of_length_le hurl]

/-- An empty string gets what is copied to it. -/
@[simp] theorem sdsStore_nil (bs : List Byte) : sdsStore lib [] bs = bs := by
  have hroom : (lib.room [] bs.length).drop bs.length = [] :=
    List.drop_of_length_le (lib.length_room [] bs.length).le
  rw [sdsStore, Memmove.overwrite, List.nil_append, Nat.zero_add, hroom, List.append_nil]
  rfl

/-- A run that tells nothing changes nothing. -/
theorem runParser_silent : ∀ (run : ParserRun P) (req : HpHttpreq P), run.told = [] →
    runParser lib run req = (run.final, req) := by
  intro run
  induction run with
  | done parser nparsed upgrade =>
    intro req _
    rfl
  | onUrl frag next ih =>
    intro req htold
    obtain ⟨hfrag, hnext⟩ := List.append_eq_nil_iff.mp htold
    rw [List.map_eq_nil_iff] at hfrag
    simp only [runParser, requestUrlCb, hfrag, List.append_nil]
    exact ih 0 req hnext
  | onMessageComplete next ih =>
    intro req htold
    cases htold

/-- A run that tells one url and one end of message. -/
theorem runParser_one : ∀ (run : ParserRun P) (req : HpHttpreq P) (url : List Byte),
    run.told = url.map some ++ [none] → lib.parseUrl (req.url ++ url) ≠ none →
    runParser lib run req =
      (run.final, (onMessageComplete lib { req with url := req.url ++ url }).2) := by
  intro run
  induction run with
  | done parser nparsed upgrade =>
    intro req url htold _
    exact absurd htold.symm (by simp [ParserRun.told])
  | onUrl frag next ih =>
    intro req url htold hparse
    rw [ParserRun.told] at htold
    -- the fragment is the beginning of the url
    obtain ⟨rest, rfl, hrest⟩ : ∃ rest, url = frag ++ rest ∧
        (next 0).told = rest.map some ++ [none] := by
      rcases List.append_eq_append_iff.mp htold with ⟨x, hx, hnext⟩ | ⟨x, hx, hnone⟩
      · obtain ⟨a, rest, rfl, ha, hrest⟩ := List.map_eq_append_iff.mp hx
        have hfrag : a = frag := List.map_injective_iff.mpr (Option.some_injective _) ha
        exact ⟨rest, by rw [hfrag], by rw [hnext, hrest]⟩
      · cases x with
        | nil =>
          have hfrag : frag = url :=
            List.map_injective_iff.mpr (Option.some_injective _) (by simpa using hx)
          exact ⟨[], by simp [hfrag], by simpa using hnone.symm⟩
        | cons y x =>
          have hmem : y ∈ frag.map some := by rw [hx]; simp
          obtain ⟨b, -, rfl⟩ := List.mem_map.mp hmem
          cases hnone
    simp only [runParser, requestUrlCb]
    rw [← List.append_assoc] at hparse
    rw [ih 0 _ rest hrest hparse, ParserRun.final, List.append_assoc]
  | onMessageComplete next ih =>
    intro req url htold hparse
    cases url with
    | cons b url => cases htold
    | nil =>
      have hsilent : (next 0).told = [] := by simpa [ParserRun.told] using htold
      have hok : ∀ {req : HpHttpreq P}, lib.parseUrl req.url ≠ none →
          (onMessageComplete lib req).1 = 0 := by
        intro req hne
        obtain ⟨u, hu⟩ := Option.ne_none_iff_exists'.mp hne
        simp only [onMessageComplete, hu]
        split
        · rfl
        · split <;> rfl
      rw [List.append_nil] at hparse ⊢
      simp only [runParser]
      rw [hok hparse]
      exact runParser_silent _ _ hsilent

/-- What a new connection makes of the url of its first request. -/
theorem onMessageComplete_first {parser : P} {url : List Byte} (hurl : lib.parseUrl url ≠ none)
    (hpath : ∀ u, lib.parseUrl url = some u → u.path = none → u.query = none) :
    ∃ req, (onMessageComplete lib ⟨0, url, [], [], parser⟩).2 = req ∧ req.flags = 1 ∧
      req.urlPath = lib.path url ∧ req.urlQuery = lib.query url := by
  obtain ⟨⟨path, query⟩, hu⟩ := Option.ne_none_iff_exists'.mp hurl
  refine ⟨_, rfl, ?_⟩
  have hslice : ∀ f : Nat × Nat, ¬ f.2 > 0 → field url f = [] := by
    intro f hf
    rw [field, Nat.eq_zero_of_not_pos hf, List.take_zero]
  cases path with
  | none =>
    obtain rfl : query = none := hpath _ hu rfl
    simp [onMessageComplete, HttpLib.path, HttpLib.query, hu]
  | some path =>
    cases query with
    | none =>
      by_cases hlen : path.2 > 0
      · simp [onMessageComplete, HttpLib.path, HttpLib.query, addPath, hu, hlen]
      · simp [onMessageComplete, HttpLib.path, HttpLib.query, addPath, hu, hlen, hslice path hlen]
    | some query =>
      by_cases hlen : path.2 > 0
      · by_cases hq : query.2 > 0
        · simp [onMessageComplete, HttpLib.path, HttpLib.query, addPath, addQuery, hu, hlen, hq]
        · simp [onMessageComplete, HttpLib.path, HttpLib.query, addPath, addQuery, hu, hlen, hq]
      · by_cases hq : query.2 > 0
        · simp [onMessageComplete, HttpLib.path, HttpLib.query, addPath, addQuery, hu, hlen, hq,
            hslice path hlen]
        · simp [onMessageComplete, HttpLib.path, HttpLib.query, addPath, addQuery, hu, hlen, hq,
            hslice path hlen]

/-- The first parse of a connection, when it is given one whole request. -/
theorem onParse_whole {WF : Request → Prop} (hlib : lib.Correct WF) (hr : WF r)
    (hpath : ∀ u, lib.parseUrl r.url = some u → u.path = none → u.query = none) :
    ∃ req : HpHttpreq P, hpHttpreqOnParse lib r.bytes ⟨hpHttpreqInit lib, []⟩ =
        (((r.bytes.length : Int), [], ()), ⟨req, []⟩) ∧
      req.urlPath = lib.path r.url ∧ req.urlQuery = lib.query r.url := by
  obtain ⟨htold, hfinal⟩ := hlib.execute [r] (fun x hx => List.mem_singleton.mp hx ▸ hr) []
    r.bytes (by simp)
  have hlen : r.bytes.length ≠ 0 := fun h => r.bytes_ne (List.eq_nil_of_length_eq_zero h)
  have hzero : trace [r] 0 = [] := by simp [trace, Request.trace, hlen]
  have hall : trace [r] r.bytes.length = r.url.map some ++ [none] := by
    rw [trace, r.trace_all, trace, List.append_nil]
  have hrun : (lib.execute lib.init r.bytes).told = r.url.map some ++ [none] := by
    simpa [HttpLib.fed, hzero, hall] using htold
  have hone := runParser_one (lib.execute lib.init r.bytes) (hpHttpreqInit lib) r.url hrun
    (hlib.url r hr)
  obtain ⟨req, hreq, hflags, hp, hq⟩ := onMessageComplete_first (hlib.url r hr) hpath
  have hexec : runParser lib (lib.execute lib.init r.bytes) (hpHttpreqInit lib) =
      (((lib.execute lib.init r.bytes).final.1, r.bytes.length, false), req) := by
    rw [hone]
    exact Prod.ext (Prod.ext rfl hfinal) hreq
  have hparse : hpHttpreqParse lib (hpHttpreqInit lib) r.bytes =
      ((r.bytes.length : Int), { req with parser := (lib.execute lib.init r.bytes).final.1 }) := by
    simp only [hpHttpreqParse]
    rw [show (hpHttpreqInit lib).parser = lib.init from rfl, hexec]
    simp
  refine ⟨{ req with parser := (lib.execute lib.init r.bytes).final.1 }, ?_, hp, hq⟩
  have hpos : ¬ ((r.bytes.length : Int) ≤ 0) := by omega
  simp only [hpHttpreqOnParse, hparse, hpos, hflags, ↓reduceIte, Int.toNat_natCast, List.drop_length]

theorem data_of_parse {buf : List Byte} {n : Int} {s s' : HttpConn P} (hbuf : buf ≠ [])
    (hn : 0 < n) (hparse : hpHttpreqOnParse lib buf s = ((n, [], ()), s')) :
    hpIoTOnData (httphdl lib cb) buf s =
      some ((hpHttpreqOnDispatch cb s').1, [], (hpHttpreqOnDispatch cb s').2) := by
  have hlen : buf.length > 0 := List.length_pos_iff.mpr hbuf
  have hneg : ¬ n < 0 := by omega
  simp only [hpIoTOnData, httphdl, onDataLoop, hparse, hlen, hneg, hn, ↓reduceIte]

theorem dispatch_calls (s : HttpConn P) :
    (hpHttpreqOnDispatch cb s).2.calls = s.calls ++ [(s.req.urlPath, s.req.urlQuery)] := by
  simp only [hpHttpreqOnDispatch]
  split <;> rfl

end

section
variable {P : Type} (lib : HttpLib P) (cb : Nat → Int)

theorem rdData_nothing {rd : HpRd} (hrd : rd.iBuf = []) (s : HttpConn P) :
    rdData (hpIoTOnData (httphdl lib cb)) rd s = some (0, rd, s) := by
  simp only [rdData, hrd, List.length_nil, gt_iff_lt, Nat.lt_irrefl, ↓reduceIte]

theorem rdTurn_nothing {rd : HpRd} (hrd : rd.iBuf = []) (s : HttpConn P) :
    rdTurn (hpIoTOnData (httphdl lib cb)) rd s = some (0, rdGrow rd, s) := by
  simp only [rdTurn, rdData_nothing lib cb hrd, Option.map_some, Int.lt_irrefl, ↓reduceIte]

/-- With an empty buffer the end of a read calls no handler. -/
theorem rdLast_nothing {rd : HpRd} (hrd : rd.iBuf = []) (last : RdEnd) (s : HttpConn P) :
    ∃ rd', rdLast (httpOps lib cb) (hpIoTOnData (httphdl lib cb)) last rd s = some (rd', s) ∧
      rd'.iBuf = [] := by
  unfold rdLast
  split
  · exact ⟨rd, rfl, hrd⟩
  · have hdata : ∀ err, rdData (hpIoTOnData (httphdl lib cb)) { rd with err := err } s =
        some (0, { rd with err := err }, s) := fun err => rdData_nothing lib cb (by exact hrd) s
    exact ⟨{ rd with err := if last.errno = 0 then EIO else last.errno },
      by simp only [httpOps, hdata, Option.map_some], hrd⟩

theorem read_nothing {rd : HpRd} (hrd : rd.iBuf = []) (last : RdEnd) (s : HttpConn P) :
    ∃ rd', hpRdRead (httpOps lib cb) rd ⟨[], last⟩ s = some (0, rd', s) ∧ rd'.iBuf = [] := by
  obtain ⟨rd', hlast, hrd'⟩ := rdLast_nothing lib cb
    ((rdGrow_iBuf rd).trans hrd) last s
  refine ⟨rd', ?_, hrd'⟩
  change hpRdReadLoop (httpOps lib cb) (hpIoTOnData (httphdl lib cb)) last [] rd 0 s = _
  simp only [hpRdReadLoop, rdTurn_nothing lib cb hrd, Option.bind_some, Int.lt_irrefl, ↓reduceIte, hlast,
    Option.map_some]

/-- A read that delivers one chunk, which the handlers take whole. -/
theorem read_chunk {rd : HpRd} (hrd : rd.iBuf = []) {c : List Byte} (hc : c ≠ []) (last : RdEnd)
    {rc : Int} {s s' : HttpConn P}
    (hdata : hpIoTOnData (httphdl lib cb) c s = some (rc, [], s')) :
    ∃ n rd', hpRdRead (httpOps lib cb) rd ⟨[c], last⟩ s = some (n, rd', s') ∧ rd'.iBuf = [] := by
  have hbuf : (rdGot (rdGrow rd) c).iBuf = c := by
    simp only [rdGot, rdGrow_iBuf, hrd, List.nil_append]
  have hlen : c.length > 0 := List.length_pos_iff.mpr hc
  let rd₁ : HpRd := { rdGot (rdGrow rd) c with iBuf := [] }
  have htake : rdData (hpIoTOnData (httphdl lib cb)) (rdGot (rdGrow rd) c) s =
      some (rc, rd₁, s') := by
    simp only [rdData, hbuf, hlen, ↓reduceIte, hdata, Option.map_some, rd₁]
  have hrun : hpRdRead (httpOps lib cb) rd ⟨[c], last⟩ s =
      (rdTurn (hpIoTOnData (httphdl lib cb)) (rdGot (rdGrow rd) c) s).bind fun out =>
        if out.1 < 0 then some (0 + c.length, out.2)
        else (rdLast (httpOps lib cb) (hpIoTOnData (httphdl lib cb)) last out.2.1 out.2.2).map
          fun last => (0 + c.length, last) := by
    change hpRdReadLoop (httpOps lib cb) (hpIoTOnData (httphdl lib cb)) last [c] rd 0 s = _
    simp only [hpRdReadLoop, rdTurn_nothing lib cb hrd, Option.bind_some, Int.lt_irrefl, ↓reduceIte]
    rfl
  rw [hrun, rdTurn, htake, Option.map_some, Option.bind_some]
  by_cases hneg : rc < 0
  · simp only [hneg, ↓reduceIte]
    exact ⟨_, _, rfl, rfl⟩
  · obtain ⟨rd', hlast, hrd'⟩ := rdLast_nothing lib cb
      (show (rdGrow rd₁).iBuf = [] from rdGrow_iBuf rd₁) last s'
    simp only [hneg, ↓reduceIte, hlast, Option.map_some]
    exact ⟨_, rd', rfl, hrd'⟩

theorem rdRun_nothing : ∀ (calls : List RdCall) {rd : HpRd} (s : HttpConn P), rd.iBuf = [] →
    calls.flatMap RdCall.chunks = [] → ∃ rd', rdRun (httpOps lib cb) calls rd s = some (rd', s) := by
  intro calls
  induction calls with
  | nil =>
    intro rd s _ _
    exact ⟨rd, rfl⟩
  | cons call calls ih =>
    intro rd s hrd hchunks
    obtain ⟨hcall, hcalls⟩ := List.append_eq_nil_iff.mp hchunks
    obtain ⟨rd₁, hread, hrd₁⟩ := read_nothing lib cb hrd call.last s
    obtain ⟨rd', hrun⟩ := ih s hrd₁ hcalls
    have hcall' : call = ⟨[], call.last⟩ := by rw [← hcall]
    exact ⟨rd', by rw [rdRun, hcall', hread]; exact hrun⟩

/-- All that arrives on the connection is one chunk, which the handlers take whole. -/
theorem rdRun_chunk {c : List Byte} (hc : c ≠ []) {rc : Int} {s s' : HttpConn P}
    (hdata : hpIoTOnData (httphdl lib cb) c s = some (rc, [], s')) :
    ∀ (calls : List RdCall) {rd : HpRd}, rd.iBuf = [] → calls.flatMap RdCall.chunks = [c] →
      ∃ rd', rdRun (httpOps lib cb) calls rd s = some (rd', s') := by
  intro calls
  induction calls with
  | nil =>
    intro rd _ hchunks
    cases hchunks
  | cons call calls ih =>
    intro rd hrd hchunks
    rw [List.flatMap_cons] at hchunks
    obtain ⟨chunks, last⟩ := call
    rcases List.append_eq_singleton_iff.mp hchunks with ⟨hcall, hcalls⟩ | ⟨hcall, hcalls⟩
    · cases hcall
      obtain ⟨rd₁, hread, hrd₁⟩ := read_nothing lib cb hrd last s
      obtain ⟨rd', hrun⟩ := ih hrd₁ hcalls
      exact ⟨rd', by rw [rdRun, hread]; exact hrun⟩
    · cases hcall
      obtain ⟨n, rd₁, hread, hrd₁⟩ := read_chunk lib cb hrd hc last hdata
      obtain ⟨rd', hrun⟩ := rdRun_nothing lib cb calls s' hrd₁ hcalls
      exact ⟨rd', by rw [rdRun, hread]; exact hrun⟩

end

/-- The states of a small parser, which knows requests of the form `METHOD url HTTP/1.1`, with
headers up to an empty line and no body, and reads them byte by byte. -/
inductive MiniSt where
  | method
  | url
  | headers (seen : Nat)
  deriving DecidableEq, Repr

/-- `seen` bytes of CR LF CR LF have just been read. -/
def miniByte : MiniSt → Byte → MiniSt × Option (Option Byte)
  | .method, b => (if b = 32 then .url else .method, none)
  | .url, b => if b = 32 then (.headers 0, none) else (.url, some (some b))
  | .headers seen, b =>
    let seen := if b = (if seen % 2 = 0 then 13 else 10) then seen + 1 else if b = 13 then 1 else 0
    if seen = 4 then (.method, some none) else (.headers seen, none)

def miniRun : List Byte → MiniSt → Nat → ParserRun MiniSt
  | [], st, n => .done st n false
  | b :: bs, st, n =>
    let st' := (miniByte st b).1
    let goOn : Int → ParserRun MiniSt := fun rc =>
      if rc = 0 then miniRun bs st' (n + 1) else .done st' (n + 1) false
    match (miniByte st b).2 with
    | none => goOn 0
    | some (some c) => .onUrl [c] goOn
    | some none => .onMessageComplete goOn

def miniState (bs : List Byte) (st : MiniSt) : MiniSt := bs.foldl (fun st b => (miniByte st b).1) st

def miniTold : List Byte → MiniSt → List (Option Byte)
  | [], _ => []
  | b :: bs, st => (miniByte st b).2.toList ++ miniTold bs (miniByte st b).1

/-- A url that begins with a slash; the query is what follows the first question mark. -/
def miniParseUrl (url : List Byte) : Option UrlFields :=
  if url.head? = some 47 then
    let n := (url.takeWhile (· ≠ 63)).length
    some ⟨some (0, n), if n < url.length then some (n + 1, url.length - n - 1) else none⟩
  else none

def miniLib : HttpLib MiniSt where
  init := .method
  execute st bs := miniRun bs st 0
  parseUrl := miniParseUrl
  urldecode := id
  room _ n := List.replicate n 0
  length_room _ _ := List.length_replicate

/-- The requests that the small parser reads as they are meant. -/
structure MiniWF (r : Request) : Prop where
  url : miniParseUrl r.url ≠ none
  told : ∀ n, n ≤ r.bytes.length → miniTold (r.bytes.take n) .method = r.trace n
  ends : miniState r.bytes .method = .method

theorem miniRun_spec : ∀ (bs : List Byte) (st : MiniSt) (n : Nat),
    (miniRun bs st n).told = miniTold bs st ∧
      (miniRun bs st n).final = (miniState bs st, n + bs.length, false) := by
  intro bs
  induction bs with
  | nil =>
    intro st n
    exact ⟨rfl, rfl⟩
  | cons b bs ih =>
    intro st n
    obtain ⟨htold, hfinal⟩ := ih (miniByte st b).1 (n + 1)
    have hlen : n + 1 + bs.length = n + (b :: bs).length := by
      rw [List.length_cons]
      omega
    rw [hlen] at hfinal
    unfold miniRun miniTold
    cases hout : (miniByte st b).2 with
    | none => exact ⟨htold, hfinal⟩
    | some out =>
      cases out with
      | none => exact ⟨congrArg (none :: ·) htold, hfinal⟩
      | some c => exact ⟨congrArg (some c :: ·) htold, hfinal⟩

theorem miniTold_append : ∀ (a b : List Byte) (st : MiniSt),
    miniTold (a ++ b) st = miniTold a st ++ miniTold b (miniState a st) := by
  intro a
  induction a with
  | nil =>
    intro b st
    rfl
  | cons x a ih =>
    intro b st
    rw [List.cons_append, miniTold, miniTold, ih, List.append_assoc]
    rfl

theorem trace_zero : ∀ rs : List Request, trace rs 0 = [] := by
  intro rs
  induction rs with
  | nil => rfl
  | cons r rs ih =>
    have hlen : r.bytes.length ≠ 0 := fun h => r.bytes_ne (List.eq_nil_of_length_eq_zero h)
    rw [trace, Nat.zero_sub, ih, Request.trace]
    simp [hlen]

theorem miniTold_trace : ∀ (rs : List Request) (bs : List Byte), (∀ r ∈ rs, MiniWF r) →
    bs <+: rs.flatMap Request.bytes → miniTold bs .method = trace rs bs.length := by
  intro rs
  induction rs with
  | nil =>
    intro bs _ hbs
    rw [List.prefix_nil.mp hbs]
    rfl
  | cons r rs ih =>
    intro bs hrs hbs
    have hr := hrs r (List.mem_cons_self ..)
    rw [List.flatMap_cons] at hbs
    by_cases hle : bs.length ≤ r.bytes.length
    · have htake : bs = r.bytes.take bs.length :=
        List.prefix_iff_eq_take.mp (List.prefix_of_prefix_length_le hbs (List.prefix_append _ _) hle)
      rw [trace, Nat.sub_eq_zero_of_le hle, trace_zero, List.append_nil, ← hr.told _ hle, ← htake]
    · obtain ⟨rest, rfl⟩ := List.prefix_of_prefix_length_le (List.prefix_append _ _) hbs
        (Nat.le_of_not_le hle)
      have hrest : rest <+: rs.flatMap Request.bytes := (List.prefix_append_right_inj _).mp hbs
      have hall : miniTold r.bytes .method = r.trace r.bytes.length := by
        have hat := hr.told _ (Nat.le_refl _)
        rwa [List.take_length] at hat
      have hfull : r.trace (r.bytes ++ rest).length = r.trace r.bytes.length := by
        rw [r.trace_all, Request.trace, if_pos (by rw [List.length_append]; omega),
          List.take_of_length_le]
        simp only [Request.bytes, List.length_append]
        omega
      rw [miniTold_append, hr.ends, ih rest (fun x hx => hrs x (List.mem_cons_of_mem _ hx)) hrest,
        trace, hfull, hall, List.length_append, Nat.add_sub_cancel_left]

theorem miniLib_correct : miniLib.Correct MiniWF := by
  have hfed : ∀ cs, miniLib.fed cs = miniState cs.flatten .method := by
    intro cs
    have hfold : ∀ (cs : List (List Byte)) (st : MiniSt),
        cs.foldl (fun parser c => (miniLib.execute parser c).final.1) st =
          miniState cs.flatten st := by
      intro cs
      induction cs with
      | nil =>
        intro st
        rfl
      | cons c cs ih =>
        intro st
        rw [List.foldl_cons, ih, List.flatten_cons, miniState, miniState, List.foldl_append]
        congr 1
        exact congrArg Prod.fst (miniRun_spec c st 0).2
    exact hfold cs .method
  refine ⟨fun r hr => hr.url, ?_⟩
  intro rs hrs cs c hpre
  obtain ⟨htold, hfinal⟩ := miniRun_spec c (miniLib.fed cs) 0
  have hbefore : cs.flatten <+: rs.flatMap Request.bytes :=
    (List.prefix_append _ _).trans hpre
  have hexec : miniLib.execute (miniLib.fed cs) c = miniRun c (miniLib.fed cs) 0 := rfl
  constructor
  · rw [← miniTold_trace rs _ hrs hbefore, ← miniTold_trace rs _ hrs hpre, miniTold_append, hexec,
      htold, hfed]
  · rw [hexec, hfinal, Nat.zero_add]

/-- `GET url HTTP/1.1` and the empty line. -/
def getRequest (url : List Byte) : Request :=
  ⟨[71, 69, 84, 32], url, [32, 72, 84, 84, 80, 47, 49, 46, 49, 13, 10, 13, 10], by decide⟩

def requestA : Request := getRequest [47, 97]
def requestB : Request := getRequest [47, 98]

theorem mini_requests : ∀ r ∈ [requestA, requestB], MiniWF r := by
  intro r hr
  rcases List.mem_cons.mp hr with rfl | hr
  · exact ⟨by decide, by decide, by decide⟩
  · rw [List.mem_singleton.mp hr]
    exact ⟨by decide, by decide, by decide⟩

end Libhp.Http
