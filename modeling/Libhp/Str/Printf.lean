import Libhp.Str.Buf

/-!
# Formatted texts

`sdscatprintf` as `hp_err.c` and `hp_mysql.c` use it: the format is what stands in an array of 128
bytes, and the text is put there again. What a directive prints is the library's; a directive
that does not fit its argument has no defined result.
-/
namespace Libhp.Err
open Libhp.Buf
open Libhp.Str (Fault)

/-- What is passed for a directive. -/
inductive Arg where
  | int (n : Int)
  | str (s : Chars)
  deriving DecidableEq, Repr

/-- What `%d` prints. -/
def decimal (n : Int) : Chars := (toString n).toList

/-- `sdscatprintf` behind an empty sds, `none` where it is not defined. A format that prints
strings differently has a directive for a string, which an `int` does not fit. -/
structure Printf where
  sdscatprintf : Chars → List Arg → Option Chars
  plain : ∀ f args, '%' ∉ f → sdscatprintf f args = some f
  string : ∀ pre post s args, '%' ∉ pre →
    sdscatprintf (pre ++ '%' :: 's' :: post) (.str s :: args) =
      (sdscatprintf post args).map fun t => pre ++ s ++ t
  number : ∀ pre post n args, '%' ∉ pre →
    sdscatprintf (pre ++ '%' :: 'd' :: post) (.int n :: args) =
      (sdscatprintf post args).map fun t => pre ++ decimal n ++ t
  typed : ∀ f s t n, sdscatprintf f [.str s] ≠ sdscatprintf f [.str t] →
    sdscatprintf f [.int n] = none

theorem Printf.string_only (p : Printf) (s : Chars) :
    p.sdscatprintf ['%', 's'] [.str s] = some s := by
  have h := p.string [] [] s [] List.not_mem_nil
  rw [p.plain [] [] List.not_mem_nil, Option.map_some, List.append_nil] at h
  exact h

/-- `hp_err_t` and `hp_mysql_err_t` -/
structure ErrT where
  chars : Chars
  size : chars.length = 128
  deriving DecidableEq, Repr

/-- The characters `s` at the front. -/
def ErrT.write (b : ErrT) (s : Chars) (h : s.length ≤ 128) : ErrT :=
  ⟨s ++ b.chars.drop s.length, by rw [List.length_append, List.length_drop, b.size]; omega⟩

theorem length_nul : [nul].length ≤ 128 := by decide

theorem length_ncopy (src : Chars) (n : Nat) : (ncopy src n).length ≤ n := List.length_take_le n _

/-- A text is made with the array as the format, which has to end in the array. -/
def ErrT.print (p : Printf) (b : ErrT) (args : List Arg) : Except Fault Chars :=
  match cstr b.chars with
  | .error e => .error e
  | .ok fmt => (p.sdscatprintf fmt args).elim (.error .read) .ok

/-- What `%d`, `%s` and `%%` print, and the arguments that are left. -/
def directive : Char → List Arg → Option (Chars × List Arg)
  | 'd', .int n :: args => some (decimal n, args)
  | 's', .str s :: args => some (s, args)
  | '%', args => some (['%'], args)
  | _, _ => none

/-- A printf with these directives only; `inside` says that a `%` has been read. -/
def basic (inside : Bool) : Chars → List Arg → Option Chars
  | [], _ => if inside then none else some []
  | c :: f, args =>
    if inside then (directive c args).bind fun (out, args) => (basic false f args).map (out ++ ·)
    else if c = '%' then basic true f args
    else (basic false f args).map (c :: ·)

theorem basic_text {pre : Chars} (h : '%' ∉ pre) (post : Chars) (args : List Arg) :
    basic false (pre ++ post) args = (basic false post args).map fun t => pre ++ t := by
  induction pre with
  | nil => simp
  | cons c pre ih =>
    have hc : c ≠ '%' := fun heq => h (heq ▸ List.mem_cons_self)
    rw [List.cons_append, basic, if_neg Bool.false_ne_true, if_neg hc,
      ih fun hmem => h (List.mem_cons_of_mem c hmem), Option.map_map]
    rfl

theorem directive_str {c : Char} (hs : c ≠ 's') (hp : c ≠ '%') (s : Chars) (args : List Arg) :
    directive c (.str s :: args) = none := by
  unfold directive
  split
  · next h => cases h
  · exact absurd rfl hs
  · exact absurd rfl hp
  · rfl

theorem map_ne {α β : Type} {f : α → β} {x y : Option α} (h : x.map f ≠ y.map f) : x ≠ y :=
  fun heq => h (congrArg _ heq)

/-- Two strings are told apart by `%s` only. -/
theorem basic_typed (s t : Chars) (n : Int) (f : Chars) : ∀ inside,
    basic inside f [.str s] ≠ basic inside f [.str t] → basic inside f [.int n] = none := by
  induction f with
  | nil => exact fun inside h => absurd rfl h
  | cons c f ih =>
    intro inside h
    cases inside with
    | true =>
      by_cases hs : c = 's'
      · subst hs
        rfl
      · by_cases hp : c = '%'
        · subst hp
          exact Option.map_eq_none_iff.mpr (ih false (map_ne h))
        · simp only [basic, if_true, directive_str hs hp] at h
          exact absurd rfl h
    | false =>
      simp only [basic, if_neg Bool.false_ne_true] at h ⊢
      split at h
      · next hc =>
        rw [if_pos hc]
        exact ih true h
      · next hc =>
        rw [if_neg hc]
        exact Option.map_eq_none_iff.mpr (ih false (map_ne h))

def basicPrintf : Printf where
  sdscatprintf := basic false
  plain f args h := by
    have htext := basic_text h [] args
    rwa [List.append_nil, basic, if_neg Bool.false_ne_true, Option.map_some, List.append_nil]
      at htext
  string pre post s args h := by
    rw [basic_text h]
    show ((basic false post args).map (s ++ ·)).map (pre ++ ·) = _
    rw [Option.map_map]
    congr 1
    funext t
    exact (List.append_assoc pre s t).symm
  number pre post n args h := by
    rw [basic_text h]
    show ((basic false post args).map (decimal n ++ ·)).map (pre ++ ·) = _
    rw [Option.map_map]
    congr 1
    funext t
    exact (List.append_assoc pre _ t).symm
  typed f s t n := basic_typed s t n f false

end Libhp.Err
