import Libhp.Io.RdStream
import Libhp.Lib.Memmove

/-!
# The HTTP server

`hp_http.c`, from the callbacks of `http_parser` to `on_request_cb`. `http_parser` and
`hp_urldecode` are parameters. A call of `http_parser_execute` is a tree: it makes
callbacks and goes on depending on what they return. A request line, header or body
never leaves the parser, only the fragments of the url and the end of a message do.
An sds string is its bytes up to its length, which may not have been written.
-/
namespace Libhp.Http
open Libhp.Io

/-- What is left to do of an `http_parser_execute`. -/
inductive ParserRun (P : Type) where
  /-- The parser object afterwards, how many bytes it took, and `upgrade`. -/
  | done (parser : P) (nparsed : Nat) (upgrade : Bool)
  | onUrl (frag : List Byte) (next : Int → ParserRun P)
  | onMessageComplete (next : Int → ParserRun P)

/-- Offset and length of the fields that `http_parser_parse_url` found. -/
structure UrlFields where
  path : Option (Nat × Nat)
  query : Option (Nat × Nat)
  deriving DecidableEq, Repr

structure HttpLib (P : Type) where
  init : P
  execute : P → List Byte → ParserRun P
  /-- `none` is a result other than 0. -/
  parseUrl : List Byte → Option UrlFields
  urldecode : List Byte → List Byte
  /-- The memory behind a string where `sdsMakeRoomFor` has made room for so many bytes. -/
  room : List Byte → Nat → List Byte
  length_room : ∀ s n, (room s n).length = n

structure HpHttpreq (P : Type) where
  flags : Int
  url : List Byte
  urlPath : List Byte
  urlQuery : List Byte
  parser : P

/-- A connection: its `hp_httpreq`, and the `url_path` and `url_query` that each call of
`on_request_cb` found there. -/
structure HttpConn (P : Type) where
  req : HpHttpreq P
  calls : List (List Byte × List Byte)

def field (url : List Byte) (f : Nat × Nat) : List Byte := (url.drop f.1).take f.2

section
variable {P : Type} (lib : HttpLib P) (cb : Nat → Int)

def requestUrlCb (req : HpHttpreq P) (buf : List Byte) : Int × HpHttpreq P :=
  (0, { req with url := req.url ++ buf })

/-- `sdsMakeRoomFor`, `memcpy` to the start of the string, and `sdsIncrLen`: what the string held
is overwritten, and it becomes longer by what was copied. -/
def sdsStore (s bs : List Byte) : List Byte :=
  Memmove.overwrite (s ++ lib.room s bs.length) 0 bs

def addPath (req : HpHttpreq P) (f : Nat × Nat) : HpHttpreq P :=
  if f.2 > 0 then { req with urlPath := sdsStore lib req.urlPath (field req.url f) } else req

def addQuery (req : HpHttpreq P) (f : Nat × Nat) : HpHttpreq P :=
  if f.2 > 0 then
    { req with urlQuery := sdsStore lib req.urlQuery (lib.urldecode (field req.url f)) }
  else req

/-- The query is looked at only if there is a path. -/
def onMessageComplete (req : HpHttpreq P) : Int × HpHttpreq P :=
  match lib.parseUrl req.url with
  | none => (-1, req)
  | some u =>
    let req := { req with flags := 1 }
    match u.path with
    | none => (0, req)
    | some path =>
      let req := addPath lib req path
      match u.query with
      | none => (0, req)
      | some query => (0, addQuery lib req query)

/-- The callbacks of `ghpsettings`, one after the other. -/
def runParser : ParserRun P → HpHttpreq P → (P × Nat × Bool) × HpHttpreq P
  | .done parser nparsed upgrade, req => ((parser, nparsed, upgrade), req)
  | .onUrl frag next, req =>
    let (rc, req) := requestUrlCb req frag
    runParser (next rc) req
  | .onMessageComplete next, req =>
    let (rc, req) := onMessageComplete lib req
    runParser (next rc) req

def hpHttpreqInit : HpHttpreq P :=
  { flags := 0, url := [], urlPath := [], urlQuery := [], parser := lib.init }

def hpHttpreqParse (req : HpHttpreq P) (buf : List Byte) : Int × HpHttpreq P :=
  let ((parser, nparsed, upgrade), req) := runParser lib (lib.execute req.parser buf) req
  let req := { req with parser := parser }
  if upgrade then (nparsed, req)
  else if nparsed ≠ buf.length then (-1, req)
  else (nparsed, req)

def hpHttpreqOnParse (buf : List Byte) (s : HttpConn P) : (Int × List Byte × Unit) × HttpConn P :=
  let (n, req) := hpHttpreqParse lib s.req buf
  let s := { s with req := req }
  if n ≤ 0 then ((-1, buf, ()), s)
  else if req.flags = 1 then ((n, buf.drop n.toNat, ()), s)
  -- the bytes stay in the buffer although the parser has taken them
  else ((0, buf, ()), s)

/-- `hp_httpreq_on_dispatch`; `cb n` is the result of call `n` of `on_request_cb`. One that
returns 0 has set `resp->html`, and `http_response` queues it. -/
def hpHttpreqOnDispatch (s : HttpConn P) : Int × HttpConn P :=
  let r := cb s.calls.length
  let s := { s with calls := s.calls ++ [(s.req.urlPath, s.req.urlQuery)] }
  if r ≠ 0 then (-3, s) else (0, s)

def httphdl : IoHdl (HttpConn P) Unit :=
  { onParse := some (hpHttpreqOnParse lib)
    onDispatch := some fun _ s => hpHttpreqOnDispatch cb s }

/-- The read side of an HTTP connection; `on_delete` does not call `on_request_cb`. -/
def httpOps : RdOps (HttpConn P) :=
  { data := some (hpIoTOnData (httphdl lib cb))
    readError := some fun rd _ s => (rd, s)
    note := fun _ s => s }

/-- A new connection and the calls of `hp_rd_read` on it. -/
def httpRun (calls : List RdCall) : Option (HpRd × HttpConn P) :=
  rdRun (httpOps lib cb) calls (hpRdInit (1024 * 8)) ⟨hpHttpreqInit lib, []⟩

end
end Libhp.Http
