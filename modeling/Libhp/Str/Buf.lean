import Libhp.Str.Mem

/-!
# C strings in buffers

A buffer is the list of its characters. The C string at some place of it ends before the first
NUL from there on; reading it is a fault if the buffer ends first.
-/
namespace Libhp.Buf
open Libhp.Str (Fault)

abbrev Chars := List Char

def nul : Char := '\x00'

/-- The C string at the start of `p`. -/
def cstr (p : Chars) : Except Fault Chars :=
  if nul ∈ p then .ok (p.takeWhile (· ≠ nul)) else .error .read

/-- What `strncpy` writes for `src` and `n`: no NUL if `src` has `n` characters or more. -/
def ncopy (src : Chars) (n : Nat) : Chars := (src ++ List.replicate (n - src.length) nul).take n

/-- `strchr(p, c)`: what stands before and behind the character found, `none` for `NULL`. -/
def strchr (p : Chars) (c : Char) : Except Fault (Option (Chars × Chars)) :=
  match p.dropWhile fun x => x ≠ c ∧ x ≠ nul with
  | [] => .error .read
  | x :: rest => .ok (if x = c then some (p.takeWhile fun x => x ≠ c ∧ x ≠ nul, rest) else none)

theorem cstr_append {s : Chars} (hs : nul ∉ s) (rest : Chars) :
    cstr (s ++ nul :: rest) = .ok s := by
  have hall : ∀ x ∈ s, decide (x ≠ nul) = true := fun x hx =>
    decide_eq_true fun heq => hs (heq ▸ hx)
  rw [cstr, if_pos (by simp), List.takeWhile_append_of_pos hall]
  simp

theorem cstr_error {p : Chars} (h : nul ∉ p) : cstr p = .error .read := if_neg h

theorem ncopy_short {src : Chars} {n : Nat} (h : src.length ≤ n) :
    ncopy src n = src ++ List.replicate (n - src.length) nul := by
  rw [ncopy, List.take_of_length_le]
  rw [List.length_append, List.length_replicate]
  omega

theorem ncopy_long {src : Chars} {n : Nat} (h : n ≤ src.length) : ncopy src n = src.take n := by
  rw [ncopy, List.take_append_of_le_length h]

/-- A string shorter than the buffer is copied with its NUL. -/
theorem ncopy_terminated {src : Chars} {n : Nat} (h : src.length < n) :
    ∃ rest, ncopy src n = src ++ nul :: rest := by
  obtain ⟨m, hm⟩ := Nat.exists_eq_succ_of_ne_zero (Nat.sub_ne_zero_of_lt h)
  refine ⟨List.replicate m nul, ?_⟩
  rw [ncopy_short h.le, hm, List.replicate_succ]

theorem strchr_found {s : Chars} {c : Char} (hs : nul ∉ s) (hc : c ∉ s) (rest : Chars) :
    strchr (s ++ c :: rest) c = .ok (some (s, rest)) := by
  have hall : ∀ x ∈ s, decide (x ≠ c ∧ x ≠ nul) = true := fun x hx =>
    decide_eq_true ⟨fun heq => hc (heq ▸ hx), fun heq => hs (heq ▸ hx)⟩
  rw [strchr, List.dropWhile_append_of_pos hall, List.takeWhile_append_of_pos hall]
  simp

/-- A buffer without a NUL is left behind by the search, or found in with no NUL behind. -/
theorem strchr_unterminated {p : Chars} (hp : nul ∉ p) (c : Char) :
    strchr p c = .error .read ∨ ∃ s rest, strchr p c = .ok (some (s, rest)) ∧ nul ∉ rest := by
  rw [strchr]
  cases h : p.dropWhile fun x => decide (x ≠ c ∧ x ≠ nul) with
  | nil => exact Or.inl rfl
  | cons x rest =>
    have hsub : ∀ y ∈ x :: rest, y ∈ p := fun y hy =>
      (List.dropWhile_suffix _).subset (h ▸ hy)
    have hx : x ≠ nul := fun heq => hp (heq ▸ hsub x List.mem_cons_self)
    have hstop := List.head?_dropWhile_not (fun x => decide (x ≠ c ∧ x ≠ nul)) p
    rw [h] at hstop
    have hxc : x = c := by simpa [hx] using hstop
    refine Or.inr ⟨_, rest, congrArg Except.ok (if_pos hxc), fun hmem => hp ?_⟩
    exact hsub nul (List.mem_cons_of_mem x hmem)

end Libhp.Buf
