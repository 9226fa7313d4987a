import Libhp.Str.Mem
import Libhp.Lib.Replace

/-!
# Search and replace

`hp_str_replace` of `hp_str.c`. The result is put together in a block from `malloc`, by `strncpy`
and `strcpy` to the end of the string that is there so far, with every access checked.
-/
namespace Libhp.Str
open CInt Memmove

/-- What `malloc` gives: a block with any content, or `NULL`, also for what is too large. -/
structure Malloc where
  alloc : Nat → Option (List Byte)
  length_eq : ∀ {n mem}, alloc n = some mem → mem.length = n
  too_large : ∀ {n}, 2 ^ 63 ≤ n → alloc n = none

/-- `strlen` of the string at the start of a block. -/
def strlen (mem : List Byte) : Except Fault Nat :=
  if 0 ∈ mem then .ok (mem.takeWhile (· ≠ 0)).length else .error .read

/-- The bytes are copied to `new_subject + strlen(new_subject)`. -/
def copyToEnd (mem bs : List Byte) : Except Fault (List Byte) :=
  match strlen mem with
  | .error e => .error e
  | .ok n => put mem n bs

/-- The second loop and the copy behind it, from the position `old` on: `strncpy` copies what is
in front of a match, without a NUL, and `strcpy` copies the NUL too. -/
def replaceLoop (search : List Byte) (hsearch : search ≠ []) (replace : List Byte)
    (mem old : List Byte) : Except Fault (List Byte) :=
  match _h : Replace.cutAt search old with
  | none => copyToEnd mem (old ++ [0])
  | some (before, behind) =>
    match copyToEnd mem before with
    | .error e => .error e
    | .ok mem =>
      match copyToEnd mem (replace ++ [0]) with
      | .error e => .error e
      | .ok mem => replaceLoop search hsearch replace mem behind
termination_by old.length
decreasing_by exact Replace.cutAt_length hsearch _h

/-- `strcpy(new_subject, "")`, and what follows. -/
def fillBlock (search : List Byte) (hsearch : search ≠ []) (replace subject mem : List Byte) :
    Except Fault (List Byte) :=
  match put mem 0 [0] with
  | .error e => .error e
  | .ok mem => replaceLoop search hsearch replace mem subject

/-- `c`, which is computed as a `size_t` and stored as an `int`. -/
def finalSize (search : List Byte) (hsearch : search ≠ []) (replace subject : List Byte) : Int :=
  toInt (toSize ((((replace.length : Int) - search.length) *
    (Replace.count search hsearch subject : Nat)) + subject.length))

/-- `hp_str_replace`: the block, and `none` where its first loop has no end or the `int`s that
count in it may be too small. -/
def hpStrReplace (m : Malloc) (search replace subject : CStr) :
    Option (Except Fault (List Byte)) :=
  if h : search.bytes = [] then none
  else if INT_MAX < subject.bytes.length then none
  else
    match m.alloc (toSize (finalSize search.bytes h replace.bytes subject.bytes)) with
    | none => some (.error .write)
    | some mem => some (fillBlock search.bytes h replace.bytes subject.bytes mem)

/-- The subject with every occurrence replaced, from left to right. -/
def replaced (search replace subject : CStr) (h : search.bytes ≠ []) : List Byte :=
  Replace.replaceAll search.bytes h replace.bytes subject.bytes

section
variable {mem bs : List Byte} {n : Nat}

theorem strlen_append {s : List Byte} (hs : ∀ b ∈ s, b ≠ 0) (rest : List Byte) :
    strlen (s ++ 0 :: rest) = .ok s.length := by
  have hall : ∀ b ∈ s, decide (b ≠ 0) = true := fun b hb => decide_eq_true (hs b hb)
  rw [strlen, if_pos (by simp), List.takeWhile_append_of_pos hall]
  simp

/-- A block with a string in it. -/
theorem strlen_ok (h : strlen mem = .ok n) :
    ∃ s rest, mem = s ++ 0 :: rest ∧ (∀ b ∈ s, b ≠ 0) ∧ s.length = n := by
  unfold strlen at h
  split at h
  · next hzero =>
    cases h
    have hstop : mem.dropWhile (· ≠ 0) ≠ [] := by
      intro hnil
      exact of_decide_eq_true (List.dropWhile_eq_nil_iff.mp hnil 0 hzero) rfl
    obtain ⟨b, rest, hdrop⟩ := List.exists_cons_of_ne_nil hstop
    have hb : b = 0 := by
      have hhead := List.head?_dropWhile_not (fun b : Byte => decide (b ≠ 0)) mem
      rw [hdrop] at hhead
      simpa using hhead
    subst hb
    refine ⟨mem.takeWhile (· ≠ 0), rest, ?_, fun b hb => ?_, rfl⟩
    · rw [← hdrop, List.takeWhile_append_dropWhile]
    · exact of_decide_eq_true (List.mem_takeWhile_imp (p := fun b => decide (b ≠ 0)) hb)
  · cases h

/-- What is copied without a NUL makes the string no shorter than that, whatever is behind. -/
theorem copyToEnd_open {mem' : List Byte} (hn : strlen mem = .ok n) (hbs : ∀ b ∈ bs, b ≠ 0)
    (h : copyToEnd mem bs = .ok mem') :
    mem'.length = mem.length ∧ ∀ k, strlen mem' = .ok k → n + bs.length ≤ k := by
  obtain ⟨s, rest, rfl, hs, rfl⟩ := strlen_ok hn
  rw [copyToEnd, hn] at h
  simp only [put] at h
  split at h
  · cases h
  · next hfits =>
    cases h
    have hle := Nat.le_of_not_lt hfits
    refine ⟨length_overwrite hle, fun k hk => ?_⟩
    rw [overwrite, List.take_left] at hk
    obtain ⟨s', rest', heq, hs', rfl⟩ := strlen_ok hk
    by_contra hlt
    -- the NUL would be one of the bytes that were there or were copied
    have hzero : (s ++ bs)[s'.length]? = some 0 := by
      rw [← List.getElem?_append_left (by rw [List.length_append]; omega), heq,
        List.getElem?_append_right (Nat.le_refl _), Nat.sub_self, List.getElem?_cons_zero]
    rcases List.mem_append.mp (List.mem_of_getElem? hzero) with hin | hin
    · exact hs 0 hin rfl
    · exact hbs 0 hin rfl

/-- What is copied with its NUL ends the string. -/
theorem copyToEnd_closed {mem' : List Byte} (hn : strlen mem = .ok n) (hbs : ∀ b ∈ bs, b ≠ 0)
    (h : copyToEnd mem (bs ++ [0]) = .ok mem') :
    mem'.length = mem.length ∧ strlen mem' = .ok (n + bs.length) ∧ n + bs.length < mem.length := by
  obtain ⟨s, rest, rfl, hs, rfl⟩ := strlen_ok hn
  rw [copyToEnd, hn] at h
  simp only [put] at h
  split at h
  · cases h
  · next hfits =>
    cases h
    have hle := Nat.le_of_not_lt hfits
    have hroom : s.length + bs.length < (s ++ 0 :: rest).length := by
      rwa [List.length_append, List.length_singleton, ← Nat.add_assoc] at hle
    have hall : ∀ b ∈ s ++ bs, b ≠ 0 := fun b hb => (List.mem_append.mp hb).elim (hs b) (hbs b)
    refine ⟨length_overwrite hle, ?_, hroom⟩
    rw [overwrite, List.take_left, ← List.append_assoc, List.append_assoc _ [0],
      List.singleton_append, strlen_append hall, List.length_append]

/-- In a block that is zero behind its string, the bytes are put behind the string. -/
theorem copyToEnd_zeros {s : List Byte} (hs : ∀ b ∈ s, b ≠ 0) {k : Nat} (hk : 0 < k)
    (hfits : bs.length ≤ k) :
    copyToEnd (s ++ List.replicate k 0) bs =
      .ok (s ++ bs ++ List.replicate (k - bs.length) 0) := by
  obtain ⟨k, rfl⟩ := Nat.exists_eq_succ_of_ne_zero (Nat.ne_of_gt hk)
  have hstrlen : strlen (s ++ List.replicate (k + 1) 0) = .ok s.length :=
    strlen_append hs (List.replicate k 0)
  have hroom : ¬ (s ++ List.replicate (k + 1) (0 : Byte)).length < s.length + bs.length := by
    rw [List.length_append, List.length_replicate]
    omega
  rw [copyToEnd, hstrlen]
  simp only [put]
  rw [if_neg hroom, overwrite, List.take_left, List.drop_append, List.drop_replicate]
  simp

theorem copyToEnd_zeros_closed {s : List Byte} (hs : ∀ b ∈ s, b ≠ 0) {k : Nat}
    (hfits : bs.length < k) :
    copyToEnd (s ++ List.replicate k 0) (bs ++ [0]) =
      .ok (s ++ bs ++ List.replicate (k - bs.length) 0) := by
  have hzeros : [0] ++ List.replicate (k - (bs.length + 1)) (0 : Byte) =
      List.replicate (k - bs.length) 0 := by
    rw [List.singleton_append, ← List.replicate_succ]
    congr 1
    omega
  rw [copyToEnd_zeros hs (by omega) (by simpa using hfits), List.length_append,
    List.length_singleton, ← List.append_assoc, List.append_assoc _ [0], hzeros]

end

section
variable {search replace old : List Byte} (hsearch : search ≠ [])

theorem replaceLoop_none (mem : List Byte) (h : Replace.cutAt search old = none) :
    replaceLoop search hsearch replace mem old = copyToEnd mem (old ++ [0]) := by
  rw [replaceLoop]
  split
  · rfl
  · next heq => rw [h] at heq; cases heq

theorem replaceLoop_some {before behind : List Byte} (mem : List Byte)
    (h : Replace.cutAt search old = some (before, behind)) :
    replaceLoop search hsearch replace mem old =
      (copyToEnd mem before).bind fun mem => (copyToEnd mem (replace ++ [0])).bind fun mem =>
        replaceLoop search hsearch replace mem behind := by
  rw [replaceLoop]
  split
  · next heq => rw [h] at heq; cases heq
  · next heq =>
    rw [h] at heq
    cases heq
    cases copyToEnd mem before with
    | error e => rfl
    | ok mem =>
      simp only [Except.bind]
      cases copyToEnd mem (replace ++ [0]) <;> rfl

/-- The parts of a string without a NUL have none. -/
theorem cutAt_nonzero {before behind : List Byte} (hold : ∀ b ∈ old, b ≠ 0)
    (h : Replace.cutAt search old = some (before, behind)) :
    (∀ b ∈ before, b ≠ 0) ∧ ∀ b ∈ behind, b ≠ 0 := by
  rw [Replace.cutAt_some h] at hold
  exact ⟨fun b hb => hold b (List.mem_append_left _ hb),
    fun b hb => hold b (List.mem_append_right _ (List.mem_append_right _ hb))⟩

/-- A block with no room for the result and its NUL is too small, whatever is in it. -/
theorem replaceLoop_overruns (hreplace : ∀ b ∈ replace, b ≠ 0) (hold : ∀ b ∈ old, b ≠ 0)
    {mem : List Byte} {n : Nat} (hn : strlen mem = .ok n)
    (hshort : mem.length ≤ n + (Replace.replaceAll search hsearch replace old).length) :
    ∃ e, replaceLoop search hsearch replace mem old = .error e := by
  induction hlen : old.length using Nat.strong_induction_on generalizing old mem n with
  | _ len ih =>
    cases hcut : Replace.cutAt search old with
    | none =>
      rw [replaceLoop_none hsearch mem hcut]
      rw [Replace.replaceAll_none hsearch replace hcut] at hshort
      cases hcopy : copyToEnd mem (old ++ [0]) with
      | error e => exact ⟨e, rfl⟩
      | ok mem' =>
        have hroom := (copyToEnd_closed hn hold hcopy).2.2
        omega
    | some r =>
      obtain ⟨before, behind⟩ := r
      obtain ⟨hbefore, hbehind⟩ := cutAt_nonzero hold hcut
      rw [replaceLoop_some hsearch mem hcut]
      rw [Replace.replaceAll_some hsearch replace hcut, List.length_append,
        List.length_append] at hshort
      cases hfirst : copyToEnd mem before with
      | error e => exact ⟨e, rfl⟩
      | ok mem₁ =>
        obtain ⟨hlen₁, hopen⟩ := copyToEnd_open hn hbefore hfirst
        show ∃ e, (copyToEnd mem₁ (replace ++ [0])).bind _ = _
        cases hsecond : copyToEnd mem₁ (replace ++ [0]) with
        | error e => exact ⟨e, rfl⟩
        | ok mem₂ =>
          cases hk : strlen mem₁ with
          | error e =>
            rw [copyToEnd, hk] at hsecond
            cases hsecond
          | ok k =>
            have hle := hopen k hk
            obtain ⟨hlen₂, hstrlen, -⟩ := copyToEnd_closed hk hreplace hsecond
            exact ih _ (hlen ▸ Replace.cutAt_length hsearch hcut) hbehind hstrlen (by omega) rfl

/-- In a block that is zero behind its string and has room, the result is put behind it. -/
theorem replaceLoop_zeros (hreplace : ∀ b ∈ replace, b ≠ 0) (hold : ∀ b ∈ old, b ≠ 0)
    {s : List Byte} (hs : ∀ b ∈ s, b ≠ 0) {k : Nat}
    (hroom : (Replace.replaceAll search hsearch replace old).length < k) :
    replaceLoop search hsearch replace (s ++ List.replicate k 0) old =
      .ok (s ++ Replace.replaceAll search hsearch replace old ++
        List.replicate (k - (Replace.replaceAll search hsearch replace old).length) 0) := by
  induction hlen : old.length using Nat.strong_induction_on generalizing old s k with
  | _ len ih =>
    cases hcut : Replace.cutAt search old with
    | none =>
      rw [Replace.replaceAll_none hsearch replace hcut] at hroom ⊢
      rw [replaceLoop_none hsearch _ hcut, copyToEnd_zeros_closed hs hroom]
    | some r =>
      obtain ⟨before, behind⟩ := r
      obtain ⟨hbefore, hbehind⟩ := cutAt_nonzero hold hcut
      rw [Replace.replaceAll_some hsearch replace hcut] at hroom ⊢
      rw [List.length_append, List.length_append] at hroom
      have hs₁ : ∀ b ∈ s ++ before, b ≠ 0 := fun b hb =>
        (List.mem_append.mp hb).elim (hs b) (hbefore b)
      have hs₂ : ∀ b ∈ s ++ before ++ replace, b ≠ 0 := fun b hb =>
        (List.mem_append.mp hb).elim (hs₁ b) (hreplace b)
      have hrest := ih _ (hlen ▸ Replace.cutAt_length hsearch hcut) hbehind hs₂
        (k := k - before.length - replace.length) (by omega) rfl
      rw [replaceLoop_some hsearch _ hcut, copyToEnd_zeros hs (by omega) (by omega)]
      show (copyToEnd _ (replace ++ [0])).bind _ = _
      rw [copyToEnd_zeros_closed hs₁ (by omega)]
      show replaceLoop _ _ _ _ _ = _
      rw [hrest]
      simp only [List.append_assoc, List.length_append, Nat.sub_sub, Nat.add_assoc]

/-- The size asked for is at most the length of the result, without a NUL, or too large. -/
theorem toSize_finalSize (search : List Byte) (hsearch : search ≠ [])
    (replace subject : List Byte) :
    toSize (finalSize search hsearch replace subject) ≤
        (Replace.replaceAll search hsearch replace subject).length ∨
      2 ^ 63 ≤ toSize (finalSize search hsearch replace subject) := by
  have hlen : ((replace.length : Int) - search.length) *
      (Replace.count search hsearch subject : Nat) + subject.length =
        (Replace.replaceAll search hsearch replace subject).length := by
    have h := Replace.length_replaceAll hsearch replace subject
    zify at h
    rw [Int.sub_mul]
    omega
  rw [finalSize, hlen]
  generalize (Replace.replaceAll search hsearch replace subject).length = len
  have hwrap : toSize (len : Int) ≤ len := by
    rw [toSize]
    omega
  obtain ⟨hlow, hhigh⟩ := toInt_range (toSize (len : Int) : Nat)
  by_cases hneg : toInt (toSize (len : Int) : Nat) < 0
  · exact .inr (toSize_neg hneg (by omega))
  · have hle := toInt_le (n := (toSize (len : Int) : Nat)) (Int.natCast_nonneg _)
    rw [toSize_eq (Int.not_lt.mp hneg) (by omega)]
    omega

/-- `hp_str_replace` never keeps to its block: whatever is in the block, it reads or writes behind
it. In a block of zeros that is longer than the result, it would put the result there. -/
theorem hpStrReplace_overruns (m : Malloc) (search replace subject : CStr)
    (hsearch : search.bytes ≠ []) (hshort : subject.bytes.length ≤ INT_MAX) :
    (∃ e, hpStrReplace m search replace subject = some (.error e)) ∧
      ∀ n, (replaced search replace subject hsearch).length < n →
        ∃ rest, fillBlock search.bytes hsearch replace.bytes subject.bytes (List.replicate n 0) =
          .ok (replaced search replace subject hsearch ++ 0 :: rest) := by
  constructor
  · rw [hpStrReplace, dif_neg hsearch, if_neg (Nat.not_lt.mpr hshort)]
    cases halloc : m.alloc
        (toSize (finalSize search.bytes hsearch replace.bytes subject.bytes)) with
    | none => exact ⟨.write, rfl⟩
    | some mem =>
      have hlen := m.length_eq halloc
      have hsize : mem.length ≤ (replaced search replace subject hsearch).length := by
        rcases toSize_finalSize search.bytes hsearch replace.bytes subject.bytes with hle | hlarge
        · exact hlen ▸ hle
        · rw [m.too_large hlarge] at halloc
          cases halloc
      show ∃ e, some (fillBlock _ hsearch _ _ mem) = _
      rw [fillBlock]
      cases mem with
      | nil => exact ⟨.write, rfl⟩
      | cons b mem =>
        have hput : put (b :: mem) 0 [0] = .ok (0 :: mem) :=
          if_neg (by rw [List.length_cons, List.length_singleton]; omega)
        rw [hput]
        obtain ⟨e, he⟩ := replaceLoop_overruns hsearch replace.nonzero subject.nonzero
          (show strlen (0 :: mem) = .ok 0 from rfl) (by rw [Nat.zero_add]; exact hsize)
        exact ⟨e, congrArg some he⟩
  · intro n hn
    obtain ⟨n, rfl⟩ := Nat.exists_eq_succ_of_ne_zero (Nat.ne_zero_of_lt hn)
    have hzeros := replaceLoop_zeros hsearch replace.nonzero subject.nonzero
      (s := []) (by simp) hn
    obtain ⟨k, hk⟩ := Nat.exists_eq_succ_of_ne_zero (Nat.sub_ne_zero_of_lt hn)
    rw [replaced] at hk
    rw [hk, List.replicate_succ, List.nil_append, List.nil_append] at hzeros
    have hput : put (List.replicate (n + 1) 0) 0 [0] = .ok (List.replicate (n + 1) 0) :=
      if_neg (by rw [List.length_replicate, List.length_singleton]; omega)
    refine ⟨List.replicate k 0, ?_⟩
    rw [fillBlock, hput]
    exact hzeros

/-- Blocks of bytes that are not 0. -/
def dirtyBlocks : Malloc where
  alloc n := if 2 ^ 63 ≤ n then none else some (List.replicate n 255)
  length_eq h := by
    split at h
    · cases h
    · cases h
      exact List.length_replicate
  too_large h := if_pos h

def strA : CStr := ⟨[97], by simp, by simp⟩
def strXy : CStr := ⟨[120, 121], by simp, by simp⟩
def strCab : CStr := ⟨[99, 97, 98], by simp, by simp⟩

theorem hpStrReplace_overruns_cab :
    (∃ e, hpStrReplace dirtyBlocks strA strXy strCab = some (.error e)) ∧
      ∀ n, (replaced strA strXy strCab (by decide)).length < n →
        ∃ rest, fillBlock strA.bytes (by decide) strXy.bytes strCab.bytes (List.replicate n 0) =
          .ok (replaced strA strXy strCab (by decide) ++ 0 :: rest) :=
  hpStrReplace_overruns dirtyBlocks strA strXy strCab (by decide) (by decide)

end

end Libhp.Str
