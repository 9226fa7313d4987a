import Libhp.Json.Col

/-!
# A list for a query

`cjson_in` of `hp_cjson.c` prints an array and maps every `[` and `]` of the text to a
parenthesis, those inside of the elements too. What cJSON prints for a string, a number and an
array is a parameter, with what JSON says about it.
-/
namespace Libhp.Json

/-- An element of the array. -/
inductive Scalar (N : Type) where
  | str (s : Text)
  | num (n : N)

/-- A character in a string is printed as a code that can be told from every other and does not
begin with the quote that ends the string; a number as text without the signs of JSON, which may
be that of another number too. -/
structure Printing (N : Type) where
  escape : Char → Text
  number : N → Text
  escape_ne : ∀ c, escape c ≠ []
  escape_quote : ∀ c, (escape c).head? ≠ some '"'
  escape_code : ∀ c d r r', escape c ++ r = escape d ++ r' → c = d
  number_plain : ∀ n, ∀ c ∈ number n, c ≠ ',' ∧ c ≠ '"' ∧ c ≠ '[' ∧ c ≠ ']'

/-- `sdsmapchars` with two characters to map. -/
structure MapChars where
  mapchars : Text → Char × Char → Char × Char → Text
  map_eq : ∀ s a b, mapchars s a b =
    s.map fun c => if c = a.1 then b.1 else if c = a.2 then b.2 else c

section
variable {N : Type} (pr : Printing N) (sds : MapChars)

def printScalar : Scalar N → Text
  | .str s => '"' :: (s.flatMap pr.escape ++ ['"'])
  | .num n => pr.number n

/-- The elements joined by commas. -/
def joined (es : List (Scalar N)) : Text := [','].intercalate (es.map (printScalar pr))

/-- `cJSON_PrintUnformatted` of an array. -/
def printArray (es : List (Scalar N)) : Text := '[' :: (joined pr es ++ [']'])

/-- What `cjson_in` is called with: `NULL`, an array, or another node with its string. -/
inductive InArg (N : Type) where
  | null
  | array (es : List (Scalar N))
  | other (valuestring : Option Text)

/-- `('')` -/
def inNothing : Text := ['(', '\'', '\'', ')']

def cjsonIn : InArg N → Text
  | .null => inNothing
  | .array es =>
    if es.length > 0 then sds.mapchars (printArray pr es) ('[', ']') ('(', ')') else inNothing
  | .other (some valuestring) => ['(', '"'] ++ valuestring ++ ['"', ')']
  | .other none => inNothing

/-- The elements in parentheses, each as it is printed. -/
def Listed (es : List (Scalar N)) : Prop :=
  cjsonIn pr sds (.array es) = '(' :: (joined pr es ++ [')'])

/-- Both arrays are listed, and differently if they differ. -/
def ListedApart (es es' : List (Scalar N)) : Prop :=
  Listed pr sds es ∧ Listed pr sds es' ∧
    (es ≠ es' → cjsonIn pr sds (.array es) ≠ cjsonIn pr sds (.array es'))

/-- No printed element has a bracket in it. -/
def NoBracket (es : List (Scalar N)) : Prop :=
  ∀ e ∈ es, '[' ∉ printScalar pr e ∧ ']' ∉ printScalar pr e

/-- The same element, or two numbers that are printed as the same text. -/
inductive Alike : Scalar N → Scalar N → Prop
  | refl (e : Scalar N) : Alike e e
  | num {n n' : N} (h : pr.number n = pr.number n') : Alike (.num n) (.num n')

end

section
variable {N : Type} {pr : Printing N} {sds : MapChars}

/-- How a character is mapped. -/
def paren (c : Char) : Char := if c = '[' then '(' else if c = ']' then ')' else c

theorem paren_eq_iff (c : Char) : paren c = c ↔ c ≠ '[' ∧ c ≠ ']' := by
  unfold paren
  split
  · next h => simp [h]
  · split
    · next h => simp [h]
    · next hopen hclose => simp [hopen, hclose]

theorem map_paren_iff (s : Text) : s.map paren = s ↔ '[' ∉ s ∧ ']' ∉ s := by
  calc s.map paren = s ↔ s.map paren = s.map id := by rw [List.map_id]
    _ ↔ ∀ c ∈ s, paren c = c := List.map_inj_left
    _ ↔ ∀ c ∈ s, c ≠ '[' ∧ c ≠ ']' := forall₂_congr fun c _ => paren_eq_iff c
    _ ↔ '[' ∉ s ∧ ']' ∉ s := by
      constructor
      · exact fun h => ⟨fun hmem => (h _ hmem).1 rfl, fun hmem => (h _ hmem).2 rfl⟩
      · exact fun h c hc => ⟨fun heq => h.1 (heq ▸ hc), fun heq => h.2 (heq ▸ hc)⟩

theorem joined_cons (e : Scalar N) (es : List (Scalar N)) :
    joined pr (e :: es) = printScalar pr e ++ es.flatMap fun e => ',' :: printScalar pr e := by
  induction es generalizing e with
  | nil => simp [joined]
  | cons e' es ih =>
    have hrest := ih e'
    rw [joined, List.map_cons] at hrest
    rw [joined, List.map_cons, List.map_cons, List.intercalate_cons_cons, hrest]
    simp

/-- A character other than the comma stands in an element. -/
theorem mem_joined {c : Char} (hc : c ≠ ',') (es : List (Scalar N)) :
    c ∈ joined pr es ↔ ∃ e ∈ es, c ∈ printScalar pr e := by
  cases es with
  | nil => simp [joined]
  | cons e es => simp [joined_cons, hc]

theorem cjsonIn_array {es : List (Scalar N)} (hes : es ≠ []) :
    cjsonIn pr sds (.array es) = '(' :: ((joined pr es).map paren ++ [')']) := by
  rw [cjsonIn, if_pos (List.length_pos_iff.mpr hes), sds.map_eq, printArray, List.map_cons,
    List.map_append]
  rfl

theorem listed_iff {es : List (Scalar N)} (hes : es ≠ []) : Listed pr sds es ↔ NoBracket pr es := by
  rw [Listed, cjsonIn_array hes, List.cons.injEq, List.append_left_inj, map_paren_iff,
    mem_joined (by decide), mem_joined (by decide)]
  constructor
  · exact fun h e he => ⟨fun hmem => h.2.1 ⟨e, he, hmem⟩, fun hmem => h.2.2 ⟨e, he, hmem⟩⟩
  · exact fun h => ⟨rfl, fun ⟨e, he, hmem⟩ => (h e he).1 hmem, fun ⟨e, he, hmem⟩ => (h e he).2 hmem⟩

/-- The string ends at the first quote that is not part of a code. -/
theorem string_unique {s s' r r' : Text}
    (h : s.flatMap pr.escape ++ '"' :: r = s'.flatMap pr.escape ++ '"' :: r') :
    s = s' ∧ r = r' := by
  have hquote : ∀ (c : Char) (x y : Text), '"' :: x ≠ pr.escape c ++ y := by
    intro c x y heq
    have hhead := pr.escape_quote c
    cases hcode : pr.escape c with
    | nil => exact pr.escape_ne c hcode
    | cons d ds =>
      rw [hcode] at heq hhead
      exact hhead (congrArg some (List.cons.inj heq).1.symm)
  induction s generalizing s' with
  | nil =>
    cases s' with
    | nil => exact ⟨rfl, (List.cons.inj h).2⟩
    | cons d s' =>
      rw [List.flatMap_cons, List.append_assoc] at h
      exact absurd h (hquote d _ _)
  | cons c s ih =>
    cases s' with
    | nil =>
      rw [List.flatMap_cons, List.append_assoc] at h
      exact absurd h.symm (hquote c _ _)
    | cons d s' =>
      rw [List.flatMap_cons, List.flatMap_cons, List.append_assoc, List.append_assoc] at h
      obtain rfl := pr.escape_code c d _ _ h
      obtain ⟨rfl, hr⟩ := ih (List.append_cancel_left h)
      exact ⟨rfl, hr⟩

/-- What may follow an element: nothing, or a comma. -/
def Follow (r : Text) : Prop := r = [] ∨ ∃ r', r = ',' :: r'

theorem number_takeWhile (n : N) {r : Text} (hr : Follow r) :
    (pr.number n ++ r).takeWhile (· ≠ ',') = pr.number n := by
  have hall : ∀ c ∈ pr.number n, decide (c ≠ ',') = true := fun c hc =>
    decide_eq_true (pr.number_plain n c hc).1
  rw [List.takeWhile_append_of_pos hall]
  rcases hr with rfl | ⟨r', rfl⟩ <;> simp

theorem number_not_quote (n : N) {r x : Text} (hr : Follow r) : pr.number n ++ r ≠ '"' :: x := by
  intro h
  cases hnum : pr.number n with
  | nil =>
    rw [hnum, List.nil_append] at h
    rcases hr with rfl | ⟨r', rfl⟩ <;> simp at h
  | cons c cs =>
    rw [hnum, List.cons_append] at h
    have hc := (pr.number_plain n c (hnum ▸ List.mem_cons_self)).2.1
    exact hc (List.cons.inj h).1

/-- An element is told from what follows it. -/
theorem printScalar_unique {e e' : Scalar N} {r r' : Text} (hr : Follow r) (hr' : Follow r')
    (h : printScalar pr e ++ r = printScalar pr e' ++ r') : Alike pr e e' ∧ r = r' := by
  cases e with
  | str s =>
    cases e' with
    | str s' =>
      simp only [printScalar, List.cons_append, List.append_assoc, List.nil_append,
        List.cons.injEq, true_and] at h
      obtain ⟨rfl, hrest⟩ := string_unique h
      exact ⟨.refl _, hrest⟩
    | num n => exact absurd h.symm (number_not_quote n hr')
  | num n =>
    cases e' with
    | str s' => exact absurd h (number_not_quote n hr)
    | num n' =>
      have htake := congrArg (List.takeWhile (· ≠ ',')) h
      simp only [printScalar] at h htake
      rw [number_takeWhile n hr, number_takeWhile n' hr'] at htake
      rw [htake] at h
      exact ⟨.num htake, List.append_cancel_left h⟩

theorem follow_tail (es : List (Scalar N)) :
    Follow (es.flatMap fun e => ',' :: printScalar pr e) := by
  cases es with
  | nil => exact Or.inl rfl
  | cons e es => exact Or.inr ⟨_, rfl⟩

theorem alike_of_tail {es es' : List (Scalar N)}
    (h : (es.flatMap fun e => ',' :: printScalar pr e) =
      es'.flatMap fun e => ',' :: printScalar pr e) : List.Forall₂ (Alike pr) es es' := by
  induction es generalizing es' with
  | nil =>
    cases es' with
    | nil => exact .nil
    | cons e' es' => cases h
  | cons e es ih =>
    cases es' with
    | nil => cases h
    | cons e' es' =>
      rw [List.flatMap_cons, List.flatMap_cons, List.cons_append, List.cons_append] at h
      obtain ⟨halike, hrest⟩ :=
        printScalar_unique (follow_tail es) (follow_tail es') (List.cons.inj h).2
      exact .cons halike (ih hrest)

theorem Alike.print {e e' : Scalar N} (h : Alike pr e e') :
    printScalar pr e = printScalar pr e' := by
  cases h with
  | refl => rfl
  | num h => exact h

/-- Nonempty arrays are joined to the same text if and only if their elements are alike. -/
theorem joined_eq_iff {es es' : List (Scalar N)} (hes : es ≠ []) (hes' : es' ≠ []) :
    joined pr es = joined pr es' ↔ List.Forall₂ (Alike pr) es es' := by
  constructor
  · intro h
    cases es with
    | nil => exact absurd rfl hes
    | cons e es =>
      cases es' with
      | nil => exact absurd rfl hes'
      | cons e' es' =>
        rw [joined_cons, joined_cons] at h
        obtain ⟨halike, hrest⟩ := printScalar_unique (follow_tail es) (follow_tail es') h
        exact .cons halike (alike_of_tail hrest)
  · intro h
    have hmap : es.map (printScalar pr) = es'.map (printScalar pr) := by
      clear hes hes'
      induction h with
      | nil => rfl
      | cons halike _ ih => rw [List.map_cons, List.map_cons, halike.print, ih]
    rw [joined, joined, hmap]

/-- Two arrays are listed as they are, and apart, if and only if they have no brackets and differ
in more than numbers that are printed alike. -/
theorem listedApart_iff (pr : Printing N) (sds : MapChars) (es es' : List (Scalar N))
    (hes : es ≠ []) (hes' : es' ≠ []) :
    ListedApart pr sds es es' ↔
      NoBracket pr es ∧ NoBracket pr es' ∧ (List.Forall₂ (Alike pr) es es' → es = es') := by
  rw [ListedApart, listed_iff hes, listed_iff hes']
  refine and_congr_right fun hno => and_congr_right fun hno' => ?_
  have hlist : Listed pr sds es := (listed_iff hes).mpr hno
  have hlist' : Listed pr sds es' := (listed_iff hes').mpr hno'
  have hsame : cjsonIn pr sds (.array es) = cjsonIn pr sds (.array es') ↔
      List.Forall₂ (Alike pr) es es' := by
    rw [hlist, hlist', List.cons.injEq, List.append_left_inj, joined_eq_iff hes hes']
    exact and_iff_right rfl
  rw [not_imp_not, hsame]

end

/-- Quotes and backslashes behind a backslash, numbers in decimal. -/
def plainPrinting : Printing Nat where
  escape c := if c = '"' ∨ c = '\\' then ['\\', c] else [c]
  number n := Nat.toDigits 10 n
  escape_ne c := by split <;> simp
  escape_quote c := by
    split
    · simp
    · next h =>
      rw [not_or] at h
      simpa using h.1
  escape_code c d r r' := by
    split <;> split
    · exact fun h => (List.cons.inj (List.cons.inj h).2).1
    · next h h' =>
      rw [not_or] at h'
      simp [Ne.symm h'.2]
    · next h h' =>
      rw [not_or] at h
      simp [h.2]
    · exact fun h => (List.cons.inj h).1
  number_plain n c hc := by
    have hdigit := isDigit_toDigits n c hc
    refine ⟨?_, ?_, ?_, ?_⟩
    all_goals
      rintro rfl
      exact absurd hdigit (by decide)

def plainMapChars : MapChars where
  mapchars s a b := s.map fun c => if c = a.1 then b.1 else if c = a.2 then b.2 else c
  map_eq _ _ _ := rfl

theorem listedApart_words :
    ListedApart plainPrinting plainMapChars [.str ['a', ',', '"'], .num 7] [.str ['a']] :=
  (listedApart_iff plainPrinting plainMapChars [.str ['a', ',', '"'], .num 7] [.str ['a']]
    (by simp) (by simp)).mpr ⟨by unfold NoBracket; decide, by unfold NoBracket; decide,
      fun h => absurd h.length_eq (by decide)⟩

/-- `["["]` and `["("]` give the same list. -/
theorem bracket_lost :
    ¬ Listed plainPrinting plainMapChars [.str ['[']] ∧
      cjsonIn plainPrinting plainMapChars (.array [.str ['[']]) =
        cjsonIn plainPrinting plainMapChars (.array [.str ['(']]) ∧
      ¬ ListedApart plainPrinting plainMapChars [.str ['[']] [.str ['(']] := by
  have hlost : ¬ Listed plainPrinting plainMapChars [.str ['[']] := by
    unfold Listed
    decide
  exact ⟨hlost, by decide, fun h => hlost h.1⟩

end Libhp.Json
