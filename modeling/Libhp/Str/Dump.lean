import Libhp.Str.Mem

/-!
# Dumping bytes for a log line

`sdump_chr`, `sdump_str` and `dumpstr` of `hp_str.c`. The bytes of the input that are not there
may not be read, and every write into the output is checked against its size. The limits on the
length count bytes of the input, of which each may take two characters in the output.
-/
namespace Libhp.Str
open Memmove

/-- `chr >= 0 && isprint(chr)` -/
def isprint (c : Byte) : Bool := 32 ≤ c && c ≤ 126

/-- `strcpy(buf, s)`, if there is an `s`, and how far it moves the end. -/
def strcpy? (mem : List Byte) (off : Nat) : Option (List Byte) → Except Fault (List Byte × Nat)
  | none => .ok (mem, off)
  | some s =>
    match put mem off (s ++ [0]) with
    | .error e => .error e
    | .ok mem => .ok (mem, off + s.length)

/-- The characters that stand for a byte. -/
def esc (chr : Byte) : List Byte :=
  if chr = 13 then [92, 114]
  else if chr = 10 then [92, 110]
  else if chr = 9 then [92, 116]
  else if chr = 0 then [92, 48]
  else [if isprint chr then chr else 88]

/-- `sdump_chr`, where `off` is the place of `buf` in the output; the end of what it wrote. -/
def sdumpChr (out : List Byte) (off : Nat) (chr : Byte) (start finish : Option (List Byte)) :
    Except Fault (List Byte × Nat) :=
  match strcpy? out off start with
  | .error e => .error e
  | .ok (out, off) =>
    match strcpy? out off (some (esc chr)) with
    | .error e => .error e
    | .ok (out, off) => strcpy? out off finish

/-- The loop of `sdump_str`: `len` bytes of `buf` are left. -/
def sdumpStrLoop : Nat → List Byte → List Byte → Nat → Except Fault (List Byte × Nat)
  | 0, _, out, off => .ok (out, off)
  | _ + 1, [], _, _ => .error .read
  | len + 1, chr :: buf, out, off =>
    match sdumpChr out off chr none none with
    | .error e => .error e
    | .ok (out, off) => sdumpStrLoop len buf out off

/-- `sdump_str`: the output and the string that is returned. -/
def sdumpStr (out : List Byte) (buf : Option (List Byte)) (len : Nat)
    (start finish : Option (List Byte)) : Except Fault (List Byte × Option (List Byte)) :=
  match buf with
  | none => .ok (out, none)
  | some buf =>
    if len = 0 then .ok (out, some [])
    else
      match strcpy? out 0 start with
      | .error e => .error e
      | .ok (out, off) =>
        match sdumpStrLoop len buf out off with
        | .error e => .error e
        | .ok (out, off) =>
          match strcpy? out off finish with
          | .error e => .error e
          | .ok (out, off) =>
            match put out off [0] with
            | .error e => .error e
            | .ok out => .ok (out, some (out.takeWhile (· ≠ 0)))

/-- `static char dumpbuf[1024]` -/
structure DumpBuf where
  mem : List Byte
  size : mem.length = 1024

/-- `"..."` -/
def dots : List Byte := [46, 46, 46]

def dumpstr (dumpbuf : DumpBuf) (buf : Option (List Byte)) (len dumplen : Nat) :
    Except Fault (List Byte × Option (List Byte)) :=
  match put dumpbuf.mem 0 [0] with
  | .error e => .error e
  | .ok out =>
    let alen := if dumplen ≤ 1024 - 1 then (if dumplen < len then dumplen else len) else 1024 - 1
    sdumpStr out buf alen none (if dumplen < len then some dots else none)

def escape (bs : List Byte) : List Byte := bs.flatMap esc

@[simp] theorem escape_cons (b : Byte) (bs : List Byte) : escape (b :: bs) = esc b ++ escape bs := rfl

theorem esc_ne_zero {chr b : Byte} (hb : b ∈ esc chr) : b ≠ 0 := by
  rw [esc] at hb
  split_ifs at hb with hcr hlf htab hnul hprint
  · rcases List.mem_pair.mp hb with rfl | rfl <;> decide
  · rcases List.mem_pair.mp hb with rfl | rfl <;> decide
  · rcases List.mem_pair.mp hb with rfl | rfl <;> decide
  · rcases List.mem_pair.mp hb with rfl | rfl <;> decide
  · rw [List.mem_singleton.mp hb]
    exact hnul
  · rw [List.mem_singleton.mp hb]
    decide

theorem escape_ne_zero {bs : List Byte} {b : Byte} (hb : b ∈ escape bs) : b ≠ 0 := by
  obtain ⟨chr, -, hchr⟩ := List.mem_flatMap.mp hb
  exact esc_ne_zero hchr

@[simp] theorem strcpy?_none (mem : List Byte) (off : Nat) : strcpy? mem off none = .ok (mem, off) :=
  rfl

/-- A write of a string and its NUL. -/
theorem strcpy?_some (mem : List Byte) (off : Nat) (s : List Byte) :
    strcpy? mem off (some s) =
      if off + s.length < mem.length then .ok (overwrite mem off (s ++ [0]), off + s.length)
      else .error .write := by
  rw [strcpy?, put, List.length_append, List.length_singleton]
  by_cases h : off + s.length < mem.length
  · rw [if_neg (by omega), if_pos h]
  · rw [if_pos (by omega), if_neg h]

/-- Such a write keeps the size, and leaves the string behind what was there before. -/
theorem overwrite_str {mem s : List Byte} {off : Nat} (h : off + s.length < mem.length) :
    (overwrite mem off (s ++ [0])).length = mem.length ∧
      (overwrite mem off (s ++ [0])).take (off + s.length) = mem.take off ++ s := by
  have hlen : (s ++ [0]).length = s.length + 1 := by simp
  refine ⟨length_overwrite (by omega), ?_⟩
  have htake : (overwrite mem off (s ++ [0])).take (off + (s ++ [0]).length) =
      mem.take off ++ (s ++ [0]) := take_overwrite (by omega)
  have hcut := congrArg (List.take (off + s.length)) htake
  rw [List.take_take, Nat.min_eq_left (by omega), ← List.append_assoc] at hcut
  rw [hcut]
  apply List.take_left'
  rw [List.length_append, List.length_take_of_le (by omega)]

theorem sdumpChr_eq (out : List Byte) (off : Nat) (chr : Byte) :
    sdumpChr out off chr none none = strcpy? out off (some (esc chr)) := by
  rw [sdumpChr, strcpy?_none]
  dsimp only
  cases strcpy? out off (some (esc chr)) with
  | error e => rfl
  | ok r => rfl

/-- While there is room the loop writes the characters of one byte after the other. -/
theorem sdumpStrLoop_ok {len off : Nat} {buf out : List Byte} (hlen : len ≤ buf.length)
    (hfit : off + (escape (buf.take len)).length < out.length) :
    ∃ out', sdumpStrLoop len buf out off = .ok (out', off + (escape (buf.take len)).length) ∧
      out'.length = out.length ∧
      out'.take (off + (escape (buf.take len)).length) =
        out.take off ++ escape (buf.take len) := by
  induction len generalizing buf out off with
  | zero => exact ⟨out, rfl, rfl, by simp [escape]⟩
  | succ len ih =>
    cases buf with
    | nil => simp at hlen
    | cons chr buf =>
      rw [List.take_succ_cons, escape_cons, List.length_append] at hfit ⊢
      have hchr : off + (esc chr).length < out.length := by omega
      obtain ⟨hsize, htake⟩ := overwrite_str hchr
      rw [← Nat.add_assoc, ← hsize] at hfit
      obtain ⟨out', hrun, hsize', htake'⟩ := ih (by simpa using hlen) hfit
      refine ⟨out', ?_, hsize'.trans hsize, ?_⟩
      · rw [sdumpStrLoop, sdumpChr_eq, strcpy?_some, if_pos hchr, ← Nat.add_assoc]
        exact hrun
      · rw [← Nat.add_assoc, htake', htake, List.append_assoc]

/-- A loop that comes to its end has had the bytes to read and the room to write. -/
theorem sdumpStrLoop_fits {len off : Nat} {buf out : List Byte} {r : List Byte × Nat}
    (h : sdumpStrLoop len buf out off = .ok r) :
    len ≤ buf.length ∧ (len = 0 ∨ off + (escape (buf.take len)).length < out.length) := by
  induction len generalizing buf out off with
  | zero => exact ⟨Nat.zero_le _, .inl rfl⟩
  | succ len ih =>
    cases buf with
    | nil => cases h
    | cons chr buf =>
      rw [sdumpStrLoop, sdumpChr_eq, strcpy?_some] at h
      by_cases hroom : off + (esc chr).length < out.length
      · rw [if_pos hroom] at h
        obtain ⟨hlen, hfit⟩ := ih h
        rw [(overwrite_str hroom).1] at hfit
        refine ⟨by simpa using hlen, .inr ?_⟩
        rw [List.take_succ_cons, escape_cons, List.length_append]
        rcases hfit with rfl | hfit
        · simpa [escape] using hroom
        · omega
      · rw [if_neg hroom] at h
        cases h

/-- A string that ends where `finish` does, with the NUL behind it. -/
theorem terminated {out s : List Byte} {off : Nat} (hoff : off < out.length)
    (htake : out.take off = s) (hs : ∀ b ∈ s, b ≠ 0) :
    put out off [0] = .ok (overwrite out off [0]) ∧
      (overwrite out off [0]).takeWhile (· ≠ 0) = s := by
  refine ⟨if_neg (by simpa using hoff), ?_⟩
  rw [overwrite, htake, List.append_assoc, List.takeWhile_append_of_pos (by simpa using hs)]
  simp

/-- What `sdump_str` returns where there is room. -/
theorem sdumpStr_ok {out buf : List Byte} {len : Nat} {finish : Option (List Byte)} (hpos : len ≠ 0)
    (hlen : len ≤ buf.length)
    (hfit : (escape (buf.take len)).length + (finish.getD []).length < out.length)
    (hfinish : ∀ b ∈ finish.getD [], b ≠ 0) :
    ∃ out', sdumpStr out (some buf) len none finish =
      .ok (out', some (escape (buf.take len) ++ finish.getD [])) := by
  have hroom : 0 + (escape (buf.take len)).length < out.length := by omega
  obtain ⟨out₁, hrun, hsize, htake⟩ := sdumpStrLoop_ok hlen hroom
  rw [Nat.zero_add, List.take_zero, List.nil_append] at htake
  rw [Nat.zero_add] at hrun
  have hstring : ∀ b ∈ escape (buf.take len) ++ finish.getD [], b ≠ 0 := by
    intro b hb
    rcases List.mem_append.mp hb with hb | hb
    · exact escape_ne_zero hb
    · exact hfinish b hb
  rw [sdumpStr, if_neg hpos, strcpy?_none]
  dsimp only
  rw [hrun]
  dsimp only
  cases finish with
  | none =>
    simp only [Option.getD_none, List.append_nil, List.length_nil] at hfit hstring ⊢
    have hend : (escape (buf.take len)).length < out₁.length := by omega
    obtain ⟨hput, hread⟩ := terminated hend htake hstring
    rw [strcpy?_none]
    dsimp only
    rw [hput]
    dsimp only
    exact ⟨_, by rw [hread]⟩
  | some s =>
    simp only [Option.getD_some] at hfit hstring ⊢
    have hend : (escape (buf.take len)).length + s.length < out₁.length := by omega
    obtain ⟨hsize', htake'⟩ := overwrite_str hend
    rw [htake] at htake'
    obtain ⟨hput, hread⟩ := terminated (by omega) htake' hstring
    rw [strcpy?_some, if_pos hend]
    dsimp only
    rw [hput]
    dsimp only
    exact ⟨_, by rw [hread]⟩

/-- `sdump_str` returns only where there is room. -/
theorem sdumpStr_fits {out buf : List Byte} {len : Nat} {finish : Option (List Byte)}
    {r : List Byte × Option (List Byte)} (hpos : len ≠ 0)
    (h : sdumpStr out (some buf) len none finish = .ok r) :
    len ≤ buf.length ∧
      (escape (buf.take len)).length + (finish.getD []).length < out.length := by
  rw [sdumpStr, if_neg hpos, strcpy?_none] at h
  dsimp only at h
  cases hrun : sdumpStrLoop len buf out 0 with
  | error e =>
    rw [hrun] at h
    cases h
  | ok r₁ =>
    obtain ⟨hlen, hfit⟩ := sdumpStrLoop_fits hrun
    have hroom := hfit.resolve_left hpos
    obtain ⟨out₁, hrun', hsize, -⟩ := sdumpStrLoop_ok hlen hroom
    refine ⟨hlen, ?_⟩
    rw [hrun'] at h
    rw [Nat.zero_add] at h hroom
    cases finish with
    | none => simpa using hroom
    | some s =>
      by_contra hfull
      rw [Option.getD_some] at hfull
      dsimp only at h
      rw [strcpy?_some, if_neg (by omega)] at h
      cases h

/-- What a dump is to return: some of the first `dumplen` bytes with their escapes, and the dots
if some are left out. -/
def Dumps (bytes : List Byte) (dumplen : Nat) (call : Except Fault (List Byte × Option (List Byte))) :
    Prop :=
  ∃ out s k, call = .ok (out, some s) ∧ k ≤ min bytes.length dumplen ∧
    (s = escape (bytes.take k) ∨ dumplen < bytes.length ∧ s = escape (bytes.take k) ++ dots)

/-- Where the buffer holds the dump: the limit that is taken for a large `dumplen` is not behind
the last byte, and the characters, the dots and the NUL fit. -/
def DumpFits (bytes : List Byte) (dumplen : Nat) : Prop :=
  (dumplen ≤ 1023 ∨ 1023 ≤ bytes.length) ∧
    (bytes = [] ∨ dumplen = 0 ∨
      (escape (bytes.take (min dumplen 1023))).length + (if dumplen < bytes.length then 3 else 0) <
        1024)

/-- `dumpstr` reads and writes inside its buffers and returns the dump exactly where it fits. -/
theorem dumps_iff (dumpbuf : DumpBuf) (bytes : List Byte) (dumplen : Nat) :
    Dumps bytes dumplen (dumpstr dumpbuf (some bytes) bytes.length dumplen) ↔
      DumpFits bytes dumplen := by
  have hsize := dumpbuf.size
  have hempty : put dumpbuf.mem 0 [0] = .ok (overwrite dumpbuf.mem 0 [0]) :=
    if_neg (by simp [hsize])
  have hlength : (overwrite dumpbuf.mem 0 [0]).length = 1024 := by
    rw [length_overwrite (by simp [hsize]), hsize]
  rw [dumpstr, hempty]
  dsimp only
  generalize overwrite dumpbuf.mem 0 [0] = out at hlength
  have hfinish : ((if dumplen < bytes.length then some dots else none).getD []).length =
      if dumplen < bytes.length then 3 else 0 := by
    split <;> rfl
  have hdots : ∀ b ∈ (if dumplen < bytes.length then some dots else none).getD [], b ≠ 0 := by
    split <;> simp [dots]
  generalize halen : (if dumplen ≤ 1024 - 1 then (if dumplen < bytes.length then dumplen
    else bytes.length) else 1024 - 1) = alen
  have hnil : bytes = [] ↔ bytes.length = 0 := List.length_eq_zero_iff.symm
  rw [DumpFits, hnil]
  by_cases hzero : alen = 0
  · refine iff_of_true ⟨out, [], 0, ?_, Nat.zero_le _, .inl rfl⟩ ?_
    · rw [sdumpStr, if_pos hzero]
    · split_ifs at halen <;> omega
  · have htake : bytes.take (min dumplen 1023) = bytes.take alen := by
      split_ifs at halen with hsmall hleft
      · rw [Nat.min_eq_left (by omega), halen]
      · rw [Nat.min_eq_left (by omega), ← halen, List.take_length, List.take_of_length_le (by omega)]
      · rw [Nat.min_eq_right (by omega), ← halen]
    constructor
    · intro ⟨out', s, k, hcall, _, _⟩
      obtain ⟨hlen, hfit⟩ := sdumpStr_fits hzero hcall
      rw [hfinish, hlength] at hfit
      rw [htake]
      refine ⟨?_, .inr (.inr hfit)⟩
      split_ifs at halen <;> omega
    · intro ⟨hlimit, hroom⟩
      have hlen : alen ≤ bytes.length := by
        split_ifs at halen <;> omega
      have hfit := (hroom.resolve_left (by omega)).resolve_left (by split_ifs at halen <;> omega)
      rw [htake, ← hfinish, ← hlength] at hfit
      obtain ⟨out', hcall⟩ := sdumpStr_ok hzero hlen hfit hdots
      refine ⟨out', _, alen, hcall, ?_, ?_⟩
      · split_ifs at halen <;> omega
      · by_cases hleft : dumplen < bytes.length
        · rw [if_pos hleft]
          exact .inr ⟨hleft, rfl⟩
        · rw [if_neg hleft]
          exact .inl (List.append_nil _)

/-- The buffer at the start of the program. -/
def zeros : DumpBuf := ⟨List.replicate 1024 0, List.length_replicate ..⟩

theorem escape_lfs (n : Nat) : (escape (List.replicate n 10)).length = 2 * n := by
  induction n with
  | zero => rfl
  | succ n ih =>
    have hlf : (esc 10).length = 2 := by decide
    rw [List.replicate_succ, escape_cons, List.length_append, ih, hlf]
    omega

/-- One byte with a limit of 2048 is read past, and 512 LFs are written past the end. -/
theorem dump_overruns :
    dumpstr zeros (some [97]) 1 2048 = .error .read ∧
      ∀ r, dumpstr zeros (some (List.replicate 512 10)) 512 512 ≠ .ok r := by
  refine ⟨by decide +kernel, fun r h => ?_⟩
  have hempty : put zeros.mem 0 [0] = .ok (overwrite zeros.mem 0 [0]) :=
    if_neg (by simp [zeros.size])
  rw [dumpstr, hempty] at h
  obtain ⟨-, hfit⟩ := sdumpStr_fits (by decide) h
  rw [length_overwrite (by simp [zeros.size]), zeros.size, List.take_replicate, escape_lfs] at hfit
  simp at hfit

end Libhp.Str
