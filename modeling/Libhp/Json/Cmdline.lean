import Libhp.Json.Cjson
import Libhp.Str.Opt

/-!
# A command line from JSON

`cjson_cmdline` of `hp_cjson.c` appends the strings of an array to a command, each behind a blank,
and `hp_opt_argv` cuts such a line at its blanks.
-/
namespace Libhp.Json.Cmdline
open Libhp.Buf Libhp.Opt
open Libhp.Str (Fault)

/-- `args`: `NULL`, an array of elements with their `valuestring`, or something else. -/
inductive Args where
  | null
  | array (elements : List (Option Chars))
  | other

/-- `sdscatfmt(s, " %s", obj->valuestring)`, which reads the string: `none` if it is `NULL`. -/
def catArg (s : Chars) (valuestring : Option Chars) : Option Chars :=
  valuestring.map fun v => s ++ ' ' :: v

def cjsonCmdline (cmd : Option Chars) (args : Args) : Option Chars :=
  -- `sdsnew(NULL)` is empty
  let s := cmd.getD []
  match args with
  | .null | .other => some s
  | .array elements => elements.foldlM catArg s

/-- The C string that a pointer points to. -/
def stringAt (mem : Chars) : Option Nat → Except Fault Chars
  | some p => cstr (mem.drop p)
  | none => .error .read

/-- The C strings of `argv[0]` to `argv[argc - 1]`. -/
def argvStrings : Chars × Argv × Nat → Except Fault (List Chars)
  | (mem, argv, argc) => (argv.take argc).mapM (stringAt mem)

/-- What a program that is started with the line gets, its array having room for `n` pointers. -/
def argvOf (line : Chars) (n : Nat) : Except Fault (List Chars) :=
  (hpOptArgv (line ++ [nul]) (List.replicate n none)).bind argvStrings

/-- `cmd a b c` -/
def lineOf (cmd : Chars) (vs : List Chars) : Chars := cmd ++ vs.flatMap fun v => ' ' :: v

section
variable {cmd : Chars} {vs : List Chars}

theorem lineOf_cons (cmd v : Chars) (vs : List Chars) :
    lineOf cmd (v :: vs) = lineOf (cmd ++ ' ' :: v) vs := by simp [lineOf]

/-- Exactly the arrays of strings have a line. -/
theorem foldlM_catArg (es : List (Option Chars)) (s line : Chars) :
    es.foldlM catArg s = some line ↔ ∃ vs, es = vs.map some ∧ line = lineOf s vs := by
  induction es generalizing s with
  | nil =>
    constructor
    · rintro ⟨⟩
      exact ⟨[], rfl, (List.append_nil _).symm⟩
    · rintro ⟨vs, hvs, rfl⟩
      rw [List.map_eq_nil_iff.mp hvs.symm, lineOf, List.flatMap_nil, List.append_nil]
      rfl
  | cons e es ih =>
    cases e with
    | none =>
      refine ⟨fun h => (by cases h), ?_⟩
      rintro ⟨vs, hvs, -⟩
      cases vs <;> cases hvs
    | some v =>
      refine (ih (s ++ ' ' :: v)).trans ⟨?_, ?_⟩
      · rintro ⟨vs, rfl, rfl⟩
        exact ⟨v :: vs, rfl, (lineOf_cons s v vs).symm⟩
      · rintro ⟨vs, hvs, rfl⟩
        cases vs with
        | nil => cases hvs
        | cons v' vs =>
          obtain ⟨hv, hrest⟩ := List.cons.inj hvs
          cases hv
          exact ⟨vs, hrest, lineOf_cons s v vs⟩

theorem words_append_blank (s rest : Chars) : words (s ++ ' ' :: rest) = words s ++ words rest := by
  rw [words, words, words, List.splitOn_append_cons_self, List.filter_append]

theorem words_lineOf (cmd : Chars) (vs : List Chars) :
    words (lineOf cmd vs) = words cmd ++ vs.flatMap words := by
  induction vs generalizing cmd with
  | nil => simp [lineOf]
  | cons v vs ih =>
    rw [lineOf_cons, ih, words_append_blank, List.flatMap_cons, List.append_assoc]

theorem mem_words {s w : Chars} (h : w ∈ words s) : w ≠ [] ∧ ' ' ∉ w := by
  obtain ⟨hin, hne⟩ := List.mem_filter.mp h
  exact ⟨of_decide_eq_true hne, Libhp.Json.splitOn_apart s ' ' w hin⟩

/-- The words of strings are these strings if each of them is one word. -/
theorem flatMap_words : vs.flatMap words = vs ↔ ∀ v ∈ vs, v ≠ [] ∧ ' ' ∉ v := by
  constructor
  · intro h v hv
    rw [← h] at hv
    obtain ⟨v', -, hv'⟩ := List.mem_flatMap.mp hv
    exact mem_words hv'
  · intro h
    have hone : ∀ v ∈ vs, words v = [v] := fun v hv => by
      rw [words_run (h v hv).2, if_neg (h v hv).1]
    rw [List.flatMap_congr hone, List.flatMap_singleton']

theorem mapM_pointsTo {s mem : Chars} {ps : List Nat} {ws : List Chars}
    (h : List.Forall₂ (PointsTo s mem) ps ws) : (ps.map some).mapM (stringAt mem) = .ok ws := by
  induction h with
  | nil => rfl
  | cons hp _ ih =>
    rw [List.map_cons, List.mapM_cons, ih]
    show ((cstr (mem.drop _)).bind fun w => Except.ok (w :: _)) = _
    rw [hp.string]
    rfl

theorem argvOf_words {line : Chars} {n : Nat} (hnul : nul ∉ line) (hn : (words line).length < n) :
    argvOf line n = .ok (words line) := by
  obtain ⟨ps, hloop, hps⟩ := argvLoop_eq line [] [] [] [] (List.replicate n none) rfl (by simp)
    (by simp) hnul (by rwa [List.nil_append, List.length_replicate])
  simp only [List.nil_append, List.length_nil, Nat.zero_add] at hloop hps
  rw [argvOf, hpOptArgv, hloop]
  simp only [Except.bind, argvStrings]
  rw [List.take_left' (List.length_map _)]
  exact mapM_pointsTo hps.points

/-- The line that `cjson_cmdline` makes of a command and an array of strings is cut by
`hp_opt_argv` into the words of the command and then the strings, if and only if none of these is
empty or has a blank in it. -/
theorem cmdline_argv (cmd : Option Chars) (vs : List Chars) (line : Chars) (n : Nat)
    (hline : cjsonCmdline cmd (.array (vs.map some)) = some line) (hnul : nul ∉ line)
    (hn : (words line).length < n) :
    argvOf line n = .ok (words (cmd.getD []) ++ vs) ↔ ∀ v ∈ vs, v ≠ [] ∧ ' ' ∉ v := by
  obtain ⟨vs', hvs, rfl⟩ := (foldlM_catArg _ _ _).mp hline
  obtain rfl := List.map_injective_iff.mpr (Option.some_injective _) hvs
  rw [argvOf_words hnul hn, words_lineOf, Except.ok.injEq, List.append_cancel_left_eq,
    flatMap_words]

/-- `ls -a x y` -/
theorem cmdline_argv_ls :
    argvOf ['l', 's', ' ', '-', 'a', ' ', 'x', ' ', 'y'] 5 =
      .ok (words ['l', 's', ' ', '-', 'a'] ++ [['x'], ['y']]) :=
  (cmdline_argv (some ['l', 's', ' ', '-', 'a']) [['x'], ['y']] _ 5 rfl (by decide)
    (by decide)).mpr (by decide)

end

end Libhp.Json.Cmdline
