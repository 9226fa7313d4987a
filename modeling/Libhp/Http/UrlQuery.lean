import Libhp.Http.HttpServe
import Libhp.Str.Url

/-!
# The query of a request

`on_message_complete` decodes the query in a block of twice its length. However a client
escapes a query, `on_request_cb` finds it as it was meant.
-/
namespace Libhp.Http
open Libhp.Io Libhp.Url

/-- What is appended to `url_query` for the query field `f` of the url. -/
def queryd (malloc : Nat → List Byte) (f : List Byte) : List Byte :=
  match hpUrldecode f f.length (malloc (f.length * 2)) with
  | .ok (queryd, qdlen) => queryd.take qdlen
  | .error _ => []

section
variable {malloc : Nat → List Byte}

/-- The block is large enough; for an empty field, which is never decoded, there is none. -/
theorem queryd_eq (hmalloc : ∀ n, (malloc n).length = n) (f : List Byte) :
    queryd malloc f = decode f := by
  have hle := length_decode_le f
  have hdec := @hpUrldecode_eq f (malloc (f.length * 2)) f.length (Nat.le_refl f.length)
  rw [List.take_length] at hdec
  by_cases hf : f = []
  · subst hf
    rw [if_neg (by rw [hmalloc]; exact Nat.lt_irrefl 0)] at hdec
    simp only [queryd, hdec, decode]
  · have hpos := List.length_pos_iff.mpr hf
    rw [if_pos (by rw [hmalloc]; omega)] at hdec
    simp only [queryd, hdec]
    rw [Memmove.overwrite, List.take_zero, List.nil_append, List.append_assoc, List.take_left]

/-- A request that arrives alone: `on_request_cb` is called once, and finds the query that the
client has escaped. -/
theorem query_arrives {P : Type} (lib : HttpLib P) (WF : Request → Prop) (hlib : lib.Correct WF)
    (hmalloc : ∀ n, (malloc n).length = n) (hdecode : lib.urldecode = queryd malloc)
    (cb : Nat → Int) (r : Request) (hr : WF r) (path query : Nat × Nat)
    (hurl : lib.parseUrl r.url = some ⟨some path, some query⟩) (text : List Byte)
    (htext : Encodes text (field r.url query)) (calls : List RdCall)
    (hwhole : calls.flatMap RdCall.chunks = [r.bytes]) :
    ∃ rd s, httpRun lib cb calls = some (rd, s) ∧ s.calls = [(field r.url path, text)] := by
  obtain ⟨req, hparse, hp, hq⟩ := onParse_whole hlib hr fun u hu hnone => by
    rw [hurl] at hu
    cases hu
    cases hnone
  have hpos : (0 : Int) < r.bytes.length := by
    have := List.length_pos_iff.mpr r.bytes_ne
    omega
  have hinit : (hpRdInit (1024 * 8)).iBuf = [] := rfl
  obtain ⟨rd, hrun⟩ := rdRun_chunk lib cb r.bytes_ne (data_of_parse r.bytes_ne hpos hparse) calls
    hinit hwhole
  refine ⟨rd, _, hrun, ?_⟩
  have hquery : lib.query r.url = text := by
    simp only [HttpLib.query, hurl]
    by_cases hlen : query.2 > 0
    · rw [if_pos hlen, hdecode, queryd_eq hmalloc, decode_encodes htext]
    · have hf : field r.url query = [] := by rw [field, Nat.eq_zero_of_not_pos hlen, List.take_zero]
      rw [hf] at htext
      rw [if_neg hlen, ← decode_encodes htext]
      rfl
  have hpath : lib.path r.url = field r.url path := by simp only [HttpLib.path, hurl]
  rw [dispatch_calls, hp, hq, hpath, hquery]
  rfl

end

/-- `GET /?a%2Bb+c`: the query is `a+b c`. -/
theorem query_arrives_get : ∃ rd s, httpRun
      { miniLib with urldecode := queryd fun n => List.replicate n 0 } (fun _ => 0)
      [⟨[(getRequest [47, 63, 97, 37, 50, 66, 98, 43, 99]).bytes], .fail EAGAIN⟩] = some (rd, s) ∧
    s.calls = [([47], [97, 43, 98, 32, 99])] := by
  have hwf : MiniWF (getRequest [47, 63, 97, 37, 50, 66, 98, 43, 99]) :=
    ⟨by decide, by decide, by decide⟩
  have henc : Encodes [97, 43, 98, 32, 99] [97, 37, 50, 66, 98, 43, 99] :=
    .plain (by decide) (by decide) (.escape (h := 50) (l := 66) (by decide) (by decide)
      (.plain (by decide) (by decide) (.plus (.plain (by decide) (by decide) .nil))))
  exact query_arrives { miniLib with urldecode := queryd fun n => List.replicate n 0 } MiniWF
    ⟨miniLib_correct.url, miniLib_correct.execute⟩ (fun _ => List.length_replicate) rfl (fun _ => 0)
    (getRequest [47, 63, 97, 37, 50, 66, 98, 43, 99]) hwf (0, 1) (2, 7) rfl [97, 43, 98, 32, 99]
    henc _ rfl

end Libhp.Http
