import Libhp.Io.WrStream
import Libhp.Lib.CInt
import Libhp.Lib.Text

/-!
# Responses

`http_response` of `hp_http.c`, which queues the header block, the body and a terminator as
three items, and a client that reads by Content-Length.
-/
namespace Libhp.Http
open CInt Libhp.Io Text

/-- An sds string: the bytes before the terminating 0, whatever they are. -/
structure Sds where
  addr : Ptr
  bytes : List Byte
  addr_ne : addr ≠ 0

def Sds.buf (s : Sds) : WrBuf where
  addr := s.addr
  mem := s.bytes ++ [0]
  len := s.bytes.length
  fits := by rw [List.length_append]; exact Nat.le_add_right _ _

structure HpHttpresp where
  flags : Int
  type : Int
  statusCode : Int
  html : Sds

/-- Where `sdscatfmt` puts the header block and where the literal of the terminator stands. -/
structure RespMem where
  head : Ptr
  term : Ptr
  head_ne : head ≠ 0
  term_ne : term ≠ 0

def httpStatusCodeReasonCstr (code : Int) : List Byte :=
  if code = 200 then ascii "OK"
  else if code = 404 then ascii "Not Found"
  else if code = 500 then ascii "Internal Server Error"
  else ascii "Unknown"

def httpContentTypeCstr (type : Int) : List Byte :=
  if type = 1 then ascii "text/html"
  else if type = 2 then ascii "text/json"
  else if type = 3 then ascii "image/x-icon"
  else if type = 4 then ascii "application/octet-stream"
  else ascii "unknown/unknown"

/-- The lines of the header block for `len` bytes; the numbers are printed with `%u`. -/
def respLines (resp : HpHttpresp) (len : Nat) : List (List Byte) :=
  [ascii "HTTP/1.1 " ++ decimal (toUnsigned resp.statusCode) ++ ascii " " ++
      httpStatusCodeReasonCstr resp.statusCode ++ ascii " ",
    ascii "Content-Type:" ++ httpContentTypeCstr resp.type ++ ascii ";charset=utf-8",
    ascii "Access-Control-Allow-Origin:*",
    ascii "Access-Control-Allow-Methods:*",
    ascii "Access-Control-Allow-Credentials:true",
    ascii "Access-Control-Allow-Headers:x-requested-with,content-type",
    ascii "Content-Length:" ++ decimal len]

def respHead (resp : HpHttpresp) (len : Nat) : List Byte :=
  (respLines resp len).flatMap (· ++ crlf) ++ crlf

def sdsfree : HpFree := .cb 0

/-- `http_response`; `hp_io_write` is `hp_wr_add` on the queue of the connection. -/
def httpResponse (wr : HpWr) (resp : HpHttpresp) (mem : RespMem) : Int × HpWr :=
  let buf : Sds := ⟨mem.head, respHead resp (toUnsigned resp.html.bytes.length), mem.head_ne⟩
  let (rc, wr) := hpWrAdd wr buf.buf sdsfree 0 0
  if rc ≠ 0 then (-1, wr)
  else
    let (rc, wr) := hpWrAdd wr resp.html.buf (if resp.flags = 1 then sdsfree else .null) 0 0
    if rc ≠ 0 then (-1, wr)
    else
      let (rc, wr) := hpWrAdd wr ⟨mem.term, ascii "\r\n\r\n", 4, by decide⟩ .null 0 0
      if rc ≠ 0 then (-1, wr) else (rc, wr)

/-- A response returns 0 and adds `q` to the queue, whatever is still there. -/
def Queues (r : HpHttpresp × RespMem) (q : List Byte) : Prop :=
  ∀ wr : HpWr, wr.Ok → (httpResponse wr r.1 r.2).1 = 0 ∧
    pending (httpResponse wr r.1 r.2).2 = pending wr ++ q

def contentLength (line : List Byte) : Option Nat :=
  if (ascii "Content-Length:").isPrefixOf line then readDecimal (line.drop 15) else none

/-- A status line and headers up to the empty line, then as many bytes as Content-Length says.
What comes back is the body and what is left. -/
def clientRead (bs : List Byte) : Option (List Byte × List Byte) :=
  (readLines bs.length bs).bind fun (lines, rest) =>
    match lines with
    | [] => none
    | status :: headers =>
      if (ascii "HTTP/1.1 ").isPrefixOf status then
        (headers.findSome? contentLength).bind fun n =>
          if n ≤ rest.length then some (rest.take n, rest.drop n) else none
      else none

/-- Response after response until nothing is left. -/
def clientAll : Nat → List Byte → Option (List (List Byte))
  | 0, _ => none
  | fuel + 1, bs =>
    if bs = [] then some []
    else (clientRead bs).bind fun (body, rest) => (clientAll fuel rest).map (body :: ·)

/-- Each response queues a header block that says the length of its body, and the body. A
client finds exactly the bodies in what is queued. -/
structure Framed (resps : List (HpHttpresp × RespMem)) : Prop where
  each : ∀ r ∈ resps, Queues r (respHead r.1 r.1.html.bytes.length ++ r.1.html.bytes)
  client : ∃ qs fuel, List.Forall₂ Queues resps qs ∧
    clientAll fuel qs.flatten = some (resps.map fun r => r.1.html.bytes)

theorem Sds.buf_bytes (s : Sds) : s.buf.bytes = s.bytes := List.take_left' rfl

theorem hpWrAdd_pending {wr : HpWr} (h : wr.Ok) {b : WrBuf} (hb : b.addr ≠ 0) (free : HpFree) :
    (hpWrAdd wr b free 0 0).1 = 0 ∧ (hpWrAdd wr b free 0 0).2.Ok ∧
      pending (hpWrAdd wr b free 0 0).2 = pending wr ++ b.bytes := by
  obtain ⟨hok, hq, -⟩ := hpWrAdd_spec h b free 0 0 hb
  refine ⟨?_, hok, ?_⟩
  · unfold hpWrAdd
    rw [if_neg hb]
  · unfold pending described
    rw [hq, List.map_append, List.flatMap_append]
    simp [wrItem_bytes]

/-- A response: the header block, with the length as `%u` prints it, the body, and four bytes
that no length counts. -/
theorem httpResponse_queues (r : HpHttpresp × RespMem) :
    Queues r (respHead r.1 (toUnsigned r.1.html.bytes.length) ++
      (r.1.html.bytes ++ ascii "\r\n\r\n")) := by
  obtain ⟨resp, mem⟩ := r
  intro wr hok
  let buf : Sds := ⟨mem.head, respHead resp (toUnsigned resp.html.bytes.length), mem.head_ne⟩
  obtain ⟨hrc₁, hok₁, hp₁⟩ := hpWrAdd_pending hok (b := buf.buf) mem.head_ne sdsfree
  obtain ⟨hrc₂, hok₂, hp₂⟩ := hpWrAdd_pending hok₁ (b := resp.html.buf) resp.html.addr_ne
    (if resp.flags = 1 then sdsfree else .null)
  obtain ⟨hrc₃, -, hp₃⟩ := hpWrAdd_pending hok₂
    (b := ⟨mem.term, ascii "\r\n\r\n", 4, by decide⟩) mem.term_ne .null
  unfold httpResponse
  dsimp only
  rw [if_neg (not_not_intro hrc₁), if_neg (not_not_intro hrc₂), if_neg (not_not_intro hrc₃)]
  refine ⟨hrc₃, ?_⟩
  rw [hp₃, hp₂, hp₁, Sds.buf_bytes, Sds.buf_bytes, List.append_assoc, List.append_assoc]
  rfl

/-- What is queued is determined. -/
theorem Queues.unique {r : HpHttpresp × RespMem} {q q' : List Byte} (h : Queues r q)
    (h' : Queues r q') : q = q' := by
  have heq := (h (hpWrInit 8) (hpWrInit_ok 8)).2.symm.trans (h' (hpWrInit 8) (hpWrInit_ok 8)).2
  exact List.append_cancel_left heq

theorem reason_cr (code : Int) : (13 : Byte) ∉ httpStatusCodeReasonCstr code := by
  unfold httpStatusCodeReasonCstr
  split_ifs <;> decide

theorem contentType_cr (type : Int) : (13 : Byte) ∉ httpContentTypeCstr type := by
  unfold httpContentTypeCstr
  split_ifs <;> decide

theorem respLines_cr (resp : HpHttpresp) (len : Nat) :
    ∀ l ∈ respLines resp len, (13 : Byte) ∉ l := by
  have hdec : ∀ n, (13 : Byte) ∉ decimal n := not_mem_decimal (by decide)
  have hreason := reason_cr resp.statusCode
  have htype := contentType_cr resp.type
  intro l hl
  simp only [respLines, List.mem_cons, List.not_mem_nil, or_false] at hl
  rcases hl with rfl | rfl | rfl | rfl | rfl | rfl | rfl
  · simp only [List.mem_append, not_or]
    exact ⟨⟨⟨⟨by decide, hdec _⟩, by decide⟩, hreason⟩, by decide⟩
  · simp only [List.mem_append, not_or]
    exact ⟨⟨by decide, htype⟩, by decide⟩
  · decide
  · decide
  · decide
  · decide
  · simp only [List.mem_append, not_or]
    exact ⟨by decide, hdec _⟩

theorem respLines_ne (resp : HpHttpresp) (len : Nat) : ∀ l ∈ respLines resp len, l ≠ [] := by
  intro l hl
  simp only [respLines, List.mem_cons, List.not_mem_nil, or_false] at hl
  rcases hl with rfl | rfl | rfl | rfl | rfl | rfl | rfl
  all_goals exact List.cons_ne_nil _ _

/-- The header block is read back, line by line. -/
theorem readLines_respHead (resp : HpHttpresp) (len : Nat) (rest : List Byte) {fuel : Nat}
    (hfuel : 7 < fuel) :
    readLines fuel (respHead resp len ++ rest) = some (respLines resp len, rest) := by
  unfold respHead
  rw [List.append_assoc]
  exact readLines_crlf (respLines_cr resp len) (respLines_ne resp len) hfuel rest

theorem length_respHead (resp : HpHttpresp) (len : Nat) : 7 < (respHead resp len).length := by
  have hline : (ascii "Access-Control-Allow-Origin:*").length = 29 := by decide
  unfold respHead respLines
  simp only [List.flatMap_cons, List.length_append, hline]
  omega

theorem findSome_contentLength (resp : HpHttpresp) (len : Nat) :
    (respLines resp len).tail.findSome? contentLength = some len := by
  have htype : contentLength
      (ascii "Content-Type:" ++ httpContentTypeCstr resp.type ++ ascii ";charset=utf-8") = none := rfl
  have hlen : contentLength (ascii "Content-Length:" ++ decimal len) = some len :=
    readDecimal_decimal len
  have horigin : contentLength (ascii "Access-Control-Allow-Origin:*") = none := by decide
  have hmethods : contentLength (ascii "Access-Control-Allow-Methods:*") = none := by decide
  have hcred : contentLength (ascii "Access-Control-Allow-Credentials:true") = none := by decide
  have hheaders : contentLength
      (ascii "Access-Control-Allow-Headers:x-requested-with,content-type") = none := by decide
  unfold respLines
  simp only [List.tail_cons, List.findSome?_cons, htype, horigin, hmethods, hcred, hheaders, hlen]

/-- A client takes as many bytes as the header block says. -/
theorem clientRead_respHead (resp : HpHttpresp) (len : Nat) (rest : List Byte) :
    clientRead (respHead resp len ++ rest) =
      if len ≤ rest.length then some (rest.take len, rest.drop len) else none := by
  have hlen := length_respHead resp len
  unfold clientRead
  rw [readLines_respHead resp len rest (by rw [List.length_append]; omega), Option.bind_some]
  show (if _ = true then (List.findSome? contentLength (respLines resp len).tail).bind _ else none) = _
  rw [findSome_contentLength]
  rfl

/-- After a response the client has the body, and the terminator is still to be read. -/
theorem client_after_response (r : HpHttpresp × RespMem)
    (h : r.1.html.bytes.length < 2 ^ 32) :
    ∃ q, Queues r q ∧ ∀ rest,
      clientRead (q ++ rest) = some (r.1.html.bytes, ascii "\r\n\r\n" ++ rest) := by
  refine ⟨_, httpResponse_queues r, fun rest => ?_⟩
  have hle : toUnsigned r.1.html.bytes.length ≤
      (r.1.html.bytes ++ (ascii "\r\n\r\n" ++ rest)).length := by
    rw [toUnsigned_eq rfl h, List.length_append]
    exact Nat.le_add_right _ _
  rw [List.append_assoc, List.append_assoc, clientRead_respHead, if_pos hle, toUnsigned_eq rfl h,
    List.take_left' rfl, List.drop_left' rfl]

/-- An empty line is no status line. -/
theorem clientRead_crlf (rest : List Byte) : clientRead (crlf ++ rest) = none := rfl

/-- No response is framed. -/
theorem not_framed_of_mem {resps : List (HpHttpresp × RespMem)} {r : HpHttpresp × RespMem}
    (hr : r ∈ resps) : ¬ Framed resps := by
  intro h
  have heq := (h.each r hr).unique (httpResponse_queues r)
  have hlines := readLines_respHead r.1 r.1.html.bytes.length r.1.html.bytes (show 7 < 8 by decide)
  rw [heq, readLines_respHead r.1 _ _ (show 7 < 8 by decide)] at hlines
  have hbody := congrArg (fun x => x.2.length) (Option.some.inj hlines)
  have hfour : (ascii "\r\n\r\n").length = 4 := by decide
  simp only [List.length_append, hfour] at hbody
  omega

/-- Responses are framed exactly if there are none. -/
theorem responses_framed (resps : List (HpHttpresp × RespMem)) : Framed resps ↔ resps = [] := by
  constructor
  · intro h
    cases resps with
    | nil => rfl
    | cons r resps => exact absurd h (not_framed_of_mem List.mem_cons_self)
  · rintro rfl
    exact ⟨fun r hr => absurd hr List.not_mem_nil, ⟨[], 1, .nil, rfl⟩⟩

def hiResp : HpHttpresp × RespMem :=
  (⟨0, 1, 200, ⟨16, ascii "hi", by decide⟩⟩, ⟨32, 64, by decide, by decide⟩)

/-- Two answers of `hi`: the client reads the first, and what comes next is no status line. -/
theorem responses_not_framed :
    ¬ (∀ resps : List (HpHttpresp × RespMem), Framed resps) ∧
    ∃ q, Queues hiResp q ∧ clientRead (q ++ q) = some (ascii "hi", ascii "\r\n\r\n" ++ q) ∧
      clientRead (ascii "\r\n\r\n" ++ q) = none := by
  refine ⟨fun hall => not_framed_of_mem List.mem_cons_self (hall [hiResp]), ?_⟩
  obtain ⟨q, hq, hread⟩ := client_after_response hiResp (by decide)
  exact ⟨q, hq, hread q, clientRead_crlf (crlf ++ q)⟩

end Libhp.Http
