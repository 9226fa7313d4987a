import Libhp.Str.Buf

/-!
# A command line into its arguments

`hp_opt_argv` of `hp_opt.c`. The memory is the bytes of the string with its NUL and nothing else, a
pointer into it is an offset, and every access is checked, that to `argv` too.
-/
namespace Libhp.Opt
open Libhp.Buf
open Libhp.Str (Fault)

/-- The array of pointers, `none` for `NULL`. -/
abbrev Argv := List (Option Nat)

/-- `argv[argc] = p` -/
def setArg (argv : Argv) (argc : Nat) (p : Option Nat) : Except Fault Argv :=
  if argc < argv.length then .ok (argv.set argc p) else .error .write

/-- `if(q - p > 0) argv[argc++] = p;` -/
def storeArg (argv : Argv) (argc p q : Nat) : Except Fault (Argv × Nat) :=
  if q - p > 0 then (setArg argv argc (some p)).map fun argv => (argv, argc + 1)
  else .ok (argv, argc)

/-- The loop of `hp_opt_argv`, and the `NULL` behind the last argument. -/
def argvLoop (mem : Chars) (argv : Argv) (argc p q : Nat) :
    Except Fault (Chars × Argv × Nat) :=
  if _h : q < mem.length then
    if mem[q] = ' ' ∨ mem[q] = nul then
      match storeArg argv argc p q with
      | .error e => .error e
      | .ok (argv, argc) =>
        if mem[q] = nul then (setArg argv argc none).map fun argv => (mem, argv, argc)
        else argvLoop (mem.set q nul) argv argc (q + 1) (q + 1)
    else argvLoop mem argv argc p (q + 1)
  else .error .read
termination_by mem.length - q
decreasing_by all_goals grind

/-- `hp_opt_argv`: the memory, the array and the count afterwards. -/
def hpOptArgv (mem : Chars) (argv : Argv) : Except Fault (Chars × Argv × Nat) :=
  argvLoop mem argv 0 0 0

/-- The maximal runs of characters other than the blank. -/
def words (s : Chars) : List Chars := (s.splitOn ' ').filter (· ≠ [])

/-- A blank is cut to a NUL. -/
def cut (c : Char) : Char := if c = ' ' then nul else c

/-- The pointer `p` points to the place of `w` in the string, and to `w` as a C string in the
memory after the cuts. -/
structure PointsTo (s mem : Chars) (p : Nat) (w : Chars) : Prop where
  place : w <+: s.drop p
  string : cstr (mem.drop p) = .ok w

theorem words_nil : words [] = [] := rfl

theorem words_run {cur : Chars} (h : ' ' ∉ cur) : words cur = if cur = [] then [] else [cur] := by
  rw [words, List.splitOn_eq_singleton h]
  by_cases hnil : cur = [] <;> simp [hnil]

theorem words_blank {cur : Chars} (h : ' ' ∉ cur) (rest : Chars) :
    words (cur ++ ' ' :: rest) = (if cur = [] then [] else [cur]) ++ words rest := by
  rw [words, List.splitOn_append_cons_self_of_not_mem h]
  by_cases hnil : cur = [] <;> simp [hnil, words]

theorem setArg_append (pre : Argv) (x y : Option Nat) (room : Argv) :
    setArg (pre ++ x :: room) pre.length y = .ok (pre ++ y :: room) := by
  rw [setArg, if_pos (by simp)]
  simp

/-- The pointer to the run at offset `n`, if it is not empty. -/
def front (n : Nat) (cur : Chars) : List Nat := if cur = [] then [] else [n]

theorem length_front {cur : Chars} (h : ' ' ∉ cur) (n : Nat) :
    (front n cur).length = (words cur).length := by
  rw [words_run h, front]
  split <;> rfl

/-- A run that is not empty takes the next place. -/
theorem storeArg_append (pre room : Argv) (n : Nat) (cur : Chars)
    (hroom : (front n cur).length < room.length) :
    storeArg (pre ++ room) pre.length n (n + cur.length) =
      .ok (pre ++ (front n cur).map some ++ room.drop (front n cur).length,
        pre.length + (front n cur).length) := by
  by_cases hnil : cur = []
  · simp [hnil, storeArg, front]
  · have hpos := List.length_pos_iff.mpr hnil
    have hfront : front n cur = [n] := if_neg hnil
    rw [hfront] at hroom ⊢
    cases room with
    | nil => simp at hroom
    | cons x room =>
      rw [storeArg, if_pos (by omega), setArg_append]
      simp [Except.map]

/-- `NULL` behind the last argument. -/
theorem setArg_last (pre room : Argv) (hroom : 0 < room.length) :
    setArg (pre ++ room) pre.length none = .ok (pre ++ none :: room.drop 1) := by
  cases room with
  | nil => simp at hroom
  | cons x room => rw [setArg_append, List.drop_one, List.tail_cons]

section
variable (a b : Chars) (argv : Argv) (argc p : Nat)

theorem argvLoop_end :
    argvLoop (a ++ nul :: b) argv argc p a.length =
      match storeArg argv argc p a.length with
      | .error e => .error e
      | .ok (argv, argc) =>
        (setArg argv argc none).map fun argv => (a ++ nul :: b, argv, argc) := by
  have hlt : a.length < (a ++ nul :: b).length := by simp
  have hget : (a ++ nul :: b)[a.length] = nul := by simp
  rw [argvLoop, dif_pos hlt, hget, if_pos (Or.inr rfl)]
  simp only [if_true]

theorem argvLoop_blank :
    argvLoop (a ++ ' ' :: b) argv argc p a.length =
      match storeArg argv argc p a.length with
      | .error e => .error e
      | .ok (argv, argc) =>
        argvLoop (a ++ nul :: b) argv argc (a.length + 1) (a.length + 1) := by
  have hlt : a.length < (a ++ ' ' :: b).length := by simp
  have hget : (a ++ ' ' :: b)[a.length] = ' ' := by simp
  have hset : (a ++ ' ' :: b).set a.length nul = a ++ nul :: b := by simp
  rw [argvLoop, dif_pos hlt, hget, if_pos (Or.inl rfl), hset]
  have hne : ¬ ' ' = nul := by decide
  simp only [hne, if_false]

theorem argvLoop_char {c : Char} (hblank : c ≠ ' ') (hnul : c ≠ nul) :
    argvLoop (a ++ c :: b) argv argc p a.length =
      argvLoop (a ++ c :: b) argv argc p (a.length + 1) := by
  have hlt : a.length < (a ++ c :: b).length := by simp
  have hget : (a ++ c :: b)[a.length] = c := by simp
  rw [argvLoop, dif_pos hlt, hget, if_neg (by simp [hblank, hnul])]

end

theorem map_cut_run {cur : Chars} (h : ' ' ∉ cur) : cur.map cut = cur := by
  refine (List.map_congr_left fun c hc => ?_).trans (List.map_id cur)
  exact if_neg fun heq : c = ' ' => h (heq ▸ hc)

/-- Pointers to the runs of `s`, which is the string from offset `n` on, in increasing order. -/
structure Pointers (orig mem : Chars) (n : Nat) (s : Chars) (ps : List Nat) : Prop where
  sorted : ps.Pairwise (· < ·)
  behind : ∀ p ∈ ps, n ≤ p
  points : List.Forall₂ (PointsTo orig mem) ps (words s)

theorem pointers_nil (orig mem : Chars) (n : Nat) : Pointers orig mem n [] [] :=
  ⟨List.Pairwise.nil, by simp, by rw [words_nil]; exact List.Forall₂.nil⟩

/-- The run up to a blank or to the end, and then those behind it. -/
theorem Pointers.front {orig mem cur s : Chars} {n m : Nat} {ps : List Nat}
    (h : Pointers orig mem m s ps) (s' : Chars) (hm : n < m) (hcur : ' ' ∉ cur)
    (hs' : words s' = words cur ++ words s) (hpoints : PointsTo orig mem n cur) :
    Pointers orig mem n s' (Opt.front n cur ++ ps) := by
  have hbehind : ∀ p ∈ ps, n < p := fun p hp => hm.trans_le (h.behind p hp)
  rw [words_run hcur] at hs'
  by_cases hnil : cur = []
  · rw [if_pos hnil] at hs'
    rw [Opt.front, if_pos hnil]
    exact ⟨h.sorted, fun p hp => (hbehind p hp).le, hs' ▸ h.points⟩
  · rw [if_neg hnil] at hs'
    rw [Opt.front, if_neg hnil]
    refine ⟨List.pairwise_cons.mpr ⟨hbehind, h.sorted⟩, fun p hp => ?_,
      hs' ▸ List.Forall₂.cons hpoints h.points⟩
    rcases List.mem_cons.mp hp with rfl | hp
    · exact le_rfl
    · exact (hbehind p hp).le

/-- Where a run stands, it is what a pointer to it finds once it ends in a NUL. -/
theorem pointsTo_run {orig done cur : Chars} (hlen : orig.length = done.length)
    (hnul : nul ∉ cur) (rest rest' : Chars) :
    PointsTo (orig ++ cur ++ rest) (done ++ cur ++ nul :: rest') done.length cur := by
  constructor
  · rw [← hlen, List.append_assoc, List.drop_left]
    exact List.prefix_append cur rest
  · rw [List.append_assoc, List.drop_left]
    exact cstr_append hnul rest'

/-- The loop from a run `cur` on, which has begun where `done` ends. -/
theorem argvLoop_eq (rest : Chars) : ∀ (orig done cur : Chars) (pre room : Argv),
    orig.length = done.length → ' ' ∉ cur → nul ∉ cur → nul ∉ rest →
    (words (cur ++ rest)).length < room.length →
    ∃ ps, argvLoop (done ++ cur ++ (rest ++ [nul])) (pre ++ room) pre.length done.length
        (done ++ cur).length =
      .ok (done ++ (cur ++ rest).map cut ++ [nul],
        pre ++ ps.map some ++ none :: room.drop (ps.length + 1), pre.length + ps.length) ∧
      Pointers (orig ++ (cur ++ rest)) (done ++ (cur ++ rest).map cut ++ [nul]) done.length
        (cur ++ rest) ps := by
  induction rest with
  | nil =>
    intro orig done cur pre room horig hblank hnul _ hroom
    have hlen := length_front hblank done.length
    rw [List.append_nil, ← hlen] at hroom
    have hlast := setArg_last (pre ++ (front done.length cur).map some)
      (room.drop (front done.length cur).length) (by rw [List.length_drop]; omega)
    rw [List.length_append, List.length_map, List.drop_drop] at hlast
    refine ⟨front done.length cur, ?_, ?_⟩
    · rw [List.nil_append, argvLoop_end, List.length_append, storeArg_append pre room _ cur hroom]
      simp only [hlast, Except.map, List.append_nil, map_cut_run hblank]
    · have h := (pointers_nil (orig ++ (cur ++ [])) (done ++ cur ++ [nul])
        (done.length + 1)).front cur (Nat.lt_succ_self _) hblank (by simp [words_nil])
        (by simpa using pointsTo_run horig hnul [] [])
      simpa only [List.append_nil, map_cut_run hblank] using h
  | cons c rest ih =>
    intro orig done cur pre room horig hblank hnul hrest hroom
    have hcnul : c ≠ nul := fun h => hrest (h ▸ List.mem_cons_self)
    have hrest' : nul ∉ rest := fun h => hrest (List.mem_cons_of_mem c h)
    by_cases hc : c = ' '
    · subst hc
      have hlen := length_front hblank done.length
      have hwords : words (cur ++ ' ' :: rest) = words cur ++ words rest := by
        rw [words_blank hblank, words_run hblank]
      rw [hwords, List.length_append, ← hlen] at hroom
      obtain ⟨ps, hloop, hps⟩ := ih (orig ++ cur ++ [' ']) (done ++ cur ++ [nul]) []
        (pre ++ (front done.length cur).map some) (room.drop (front done.length cur).length)
        (by simp [horig]) (by simp) (by simp) hrest'
        (by rw [List.nil_append, List.length_drop]; omega)
      refine ⟨front done.length cur ++ ps, ?_, ?_⟩
      · rw [List.cons_append, argvLoop_blank, List.length_append,
          storeArg_append pre room _ cur (by omega)]
        simp only [List.append_nil, List.nil_append, List.append_assoc, List.length_append,
          List.length_map, List.singleton_append, List.length_singleton, Nat.add_assoc] at hloop ⊢
        rw [hloop]
        simp [map_cut_run hblank, cut, List.drop_drop]
      · have horigs : orig ++ cur ++ [' '] ++ ([] ++ rest) = orig ++ (cur ++ ' ' :: rest) := by simp
        have hmem : done ++ cur ++ [nul] ++ ([] ++ rest).map cut ++ [nul] =
            done ++ (cur ++ ' ' :: rest).map cut ++ [nul] := by simp [map_cut_run hblank, cut]
        rw [horigs, hmem] at hps
        apply hps.front _ (by simp) hblank (by rw [hwords, List.nil_append])
        have hpoint := pointsTo_run horig hnul (' ' :: rest) (rest.map cut ++ [nul])
        simpa [map_cut_run hblank, cut] using hpoint
    · obtain ⟨ps, hloop, hps⟩ := ih orig done (cur ++ [c]) pre room horig
        (by simp [hblank, Ne.symm hc]) (by simp [hnul, Ne.symm hcnul]) hrest' (by simpa using hroom)
      refine ⟨ps, ?_, by simpa using hps⟩
      rw [List.cons_append, argvLoop_char _ _ _ _ _ hc hcnul]
      simpa [Nat.add_assoc] using hloop

/-- The arguments are the runs of characters other than the blank, in order; the string is cut
in place, `NULL` stands behind the last argument and the rest of the array is left alone. -/
theorem hpOptArgv_words (s : Chars) (argv : Argv) (hs : nul ∉ s)
    (hroom : (words s).length + 1 ≤ argv.length) :
    ∃ mem ps, hpOptArgv (s ++ [nul]) argv =
        .ok (mem, ps.map some ++ none :: argv.drop (ps.length + 1), (words s).length) ∧
      mem = s.map cut ++ [nul] ∧ ps.Pairwise (· < ·) ∧
      List.Forall₂ (PointsTo s mem) ps (words s) := by
  obtain ⟨ps, hloop, hps⟩ := argvLoop_eq s [] [] [] [] argv rfl (by simp) (by simp) hs hroom
  have hcount : ps.length = (words s).length := hps.points.length_eq
  refine ⟨s.map cut ++ [nul], ps, ?_, rfl, hps.sorted, hps.points⟩
  simpa [hpOptArgv, hcount] using hloop

theorem hpOptArgv_two : ∃ mem ps, hpOptArgv ([' ', 'a', ' ', ' ', 'b'] ++ [nul])
      [some 7, some 7, some 7, some 7] =
        .ok (mem, ps.map some ++ none :: [some 7, some 7, some 7, some 7].drop (ps.length + 1),
          (words [' ', 'a', ' ', ' ', 'b']).length) ∧
      mem = [' ', 'a', ' ', ' ', 'b'].map cut ++ [nul] ∧ ps.Pairwise (· < ·) ∧
      List.Forall₂ (PointsTo [' ', 'a', ' ', ' ', 'b'] mem) ps (words [' ', 'a', ' ', ' ', 'b']) :=
  hpOptArgv_words _ _ (by decide) (by decide)

example : words [' ', 'a', ' ', ' ', 'b'] = [['a'], ['b']] := by decide

end Libhp.Opt
