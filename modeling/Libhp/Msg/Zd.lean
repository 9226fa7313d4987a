import Libhp.Msg.PmZ

/-!
# Inflating into a buffer

`hp_zd_buf` of `hp_z.c` on any input. zlib decides what `inflate` returns and writes, and the buffer
`out` has as many bytes as `*olen` says.
-/
namespace Libhp.Msg
open CInt

/-- At the end of the stream `inflate` has nothing more to write, and says so again. -/
structure Inflater extends Zlib where
  after_end : ∀ z k, (inflate z k).1 = .streamEnd → inflate z (k + 1) = (.streamEnd, [])

section
variable (zl : Inflater) (b : Build) (olen : Nat) (z : List UInt8)

/-- What the first `k` calls of `inflate` write. -/
def written : Nat → List UInt8
  | 0 => []
  | k + 1 => written k ++ (zl.inflate z k).2

/-- The statuses that the `switch` returns -1 for. -/
def ZRet.Failed (ret : ZRet) : Prop := ret = .needDict ∨ ret = .dataError ∨ ret = .memError

instance (ret : ZRet) : Decidable ret.Failed := by
  unfold ZRet.Failed
  infer_instance

/-- The call fills its output, and more is to come. -/
def Filled (k : Nat) : Prop :=
  ¬ (zl.inflate z k).1.Failed ∧ (zl.inflate z k).2.length = Z_CHUNK

/-- `body` is all that `z` inflates to: some call reports the end, and those before it have filled
their output. -/
def Inflates (body : List UInt8) : Prop :=
  ∃ k, (∀ j < k, Filled zl z j) ∧ (zl.inflate z k).1 = .streamEnd ∧ body = written zl z (k + 1)

/-- `hp_zd_buf` comes back and has kept within `out`; if the whole stream fits it returns 0, with
the stream in `out` and its size in `*olen`, and an error else. -/
def ZdLaw : Prop :=
  ∃ rc out olen', hpZdBuf zl.toZlib b olen olen z = some (.done rc out olen') ∧
    out.length ≤ olen ∧
    (∀ body, Inflates zl z body → body.length ≤ olen →
      rc = 0 ∧ out = body ∧ olen' = body.length) ∧
    ((¬ ∃ body, Inflates zl z body ∧ body.length ≤ olen) → rc ≠ 0)

/-- What the call writes has room behind what was written before, and it does not meet an
assertion. -/
def Roomy (k : Nat) : Prop :=
  (written zl z (k + 1)).length ≤ olen ∧
    ((zl.inflate z k).1 = .streamError → b.ndebug = true)

/-- How the loop ends, by the call that ends it. -/
inductive ZdStop (k : Nat) : ZEnd → Prop
  | clobbered (h : (zl.inflate z k).1 = .streamError) (hassert : b.ndebug = false) :
    ZdStop k .abort
  | failed (h : (zl.inflate z k).1.Failed) : ZdStop k (.done (-1) (written zl z k) olen)
  | full (h : ¬ (zl.inflate z k).1.Failed) (hfull : olen < (written zl z (k + 1)).length) :
    ZdStop k (if b.ndebug then .overflow else .abort)
  | short (h : ¬ Filled zl z k) (hroomy : Roomy zl b olen z k)
    (hend : (zl.inflate z k).1 ≠ .streamEnd) :
    ZdStop k (.done (-1) (written zl z (k + 1)) olen)
  | ended (h : ¬ Filled zl z k) (hroomy : Roomy zl b olen z k)
    (hend : (zl.inflate z k).1 = .streamEnd) :
    ZdStop k (.done 0 (written zl z (k + 1)) (written zl z (k + 1)).length)

end

section
variable {zl : Inflater} {b : Build} {olen : Nat} {z : List UInt8}

theorem length_written_succ (k : Nat) :
    (written zl z (k + 1)).length = (written zl z k).length + (zl.inflate z k).2.length :=
  List.length_append

/-- The loop comes to a call that ends it, and all calls before it have found room. -/
theorem hpZdLoop_stop (hmax : (olen : Int) ≤ INT_MAX) {fuel k : Nat}
    (hroom : (written zl z k).length ≤ olen) (hfuel : olen - (written zl z k).length < fuel)
    (hbefore : ∀ j < k, Filled zl z j ∧ Roomy zl b olen z j) :
    ∃ m e, hpZdLoop zl.toZlib b olen olen z fuel k (written zl z k) = some e ∧
      (∀ j < m, Filled zl z j ∧ Roomy zl b olen z j) ∧ ZdStop zl b olen z m e := by
  induction fuel generalizing k with
  | zero => omega
  | succ fuel ih =>
    have hwritten : written zl z k ++ (zl.inflate z k).2 = written zl z (k + 1) := rfl
    have hlength : (written zl z (k + 1)).length =
        (written zl z k).length + (zl.inflate z k).2.length := length_written_succ k
    have hpos := Z_CHUNK_pos
    simp only [hpZdLoop, hwritten]
    split
    · next h => exact ⟨k, _, rfl, hbefore, .clobbered h.1 h.2⟩
    next hclobbered =>
    split
    · next h => exact ⟨k, _, rfl, hbefore, .failed h⟩
    next hfailed =>
    split
    · next h =>
      have hstop : ZdStop zl b olen z k _ := .full hfailed (by omega)
      rw [if_neg (by rw [h.2]; decide)] at hstop
      exact ⟨k, _, rfl, hbefore, hstop⟩
    next hassert =>
    split
    · next h =>
      have hstop : ZdStop zl b olen z k _ := .full hfailed (by omega)
      have hndebug : b.ndebug = true := by
        rw [← Bool.not_eq_false]
        exact fun hdebug => hassert ⟨by omega, hdebug⟩
      rw [if_pos hndebug] at hstop
      exact ⟨k, _, rfl, hbefore, hstop⟩
    next hfit =>
    have hroomy : Roomy zl b olen z k := by
      refine ⟨by omega, fun h => ?_⟩
      rw [← Bool.not_eq_false]
      exact fun hdebug => hclobbered ⟨h, hdebug⟩
    split
    · next hchunk =>
      have hfilled : Filled zl z k := ⟨hfailed, hchunk⟩
      apply ih (by omega) (by omega)
      intro j hj
      rcases Nat.lt_succ_iff_lt_or_eq.mp hj with hlt | rfl
      · exact hbefore j hlt
      · exact ⟨hfilled, hroomy⟩
    next hchunk =>
    have hnot : ¬ Filled zl z k := fun h => hchunk h.2
    split
    · next hend => exact ⟨k, _, rfl, hbefore, .short hnot hroomy hend⟩
    next hend =>
    have hint : (BitVec.ofNat 32 (written zl z (k + 1)).length).toInt =
        (written zl z (k + 1)).length := by
      unfold INT_MAX at hmax
      rw [BitVec.toInt_ofNat']
      apply Int.bmod_eq_of_le <;> omega
    rw [hint]
    exact ⟨k, _, rfl, hbefore, .ended hnot hroomy (not_not.mp hend)⟩

/-- The call that ends the loop is the one that reports the end, or the next one. -/
theorem Inflates.at_stop {body : List UInt8} (h : Inflates zl z body) {m : Nat}
    (hbefore : ∀ j < m, Filled zl z j) (hstop : ¬ Filled zl z m) :
    (zl.inflate z m).1 = .streamEnd ∧ body = written zl z (m + 1) := by
  obtain ⟨k, hfilled, hend, rfl⟩ := h
  rcases Nat.lt_trichotomy k m with hlt | rfl | hlt
  · have hnext := zl.after_end z k hend
    have hm : k + 1 = m := by
      by_contra hne
      have hchunk := (hbefore (k + 1) (by omega)).2
      rw [hnext] at hchunk
      exact absurd hchunk (by decide)
    obtain rfl := hm
    refine ⟨congrArg Prod.fst hnext, ?_⟩
    show written zl z (k + 1) = written zl z (k + 1) ++ (zl.inflate z (k + 1)).2
    rw [hnext, List.append_nil]
  · exact ⟨hend, rfl⟩
  · exact absurd (hfilled m hlt) hstop

/-- A loop that has ended where all calls had room. -/
theorem roomy_of_stop {m : Nat} (hbefore : ∀ j < m, Filled zl z j ∧ Roomy zl b olen z j)
    (hstop : ¬ Filled zl z m) (hlast : ¬ (zl.inflate z m).1.Failed → Roomy zl b olen z m) :
    ∀ k, (∀ j < k, Filled zl z j) → ¬ (zl.inflate z k).1.Failed → Roomy zl b olen z k := by
  intro k hfilled hok
  rcases Nat.lt_trichotomy k m with hlt | rfl | hlt
  · exact (hbefore k hlt).2
  · exact hlast hok
  · exact absurd (hfilled m hlt) hstop

theorem streamEnd_ok {k : Nat} (h : (zl.inflate z k).1 = .streamEnd) :
    ¬ (zl.inflate z k).1.Failed := by
  rw [h]
  decide

/-- What is written before a call that the loop comes to has room. -/
theorem length_written_le {m : Nat} (hbefore : ∀ j < m, Filled zl z j ∧ Roomy zl b olen z j) :
    (written zl z m).length ≤ olen := by
  cases m with
  | zero => exact Nat.zero_le _
  | succ m => exact (hbefore m (Nat.lt_succ_self m)).2.1

end

/-- `hp_zd_buf` is bounded exactly if every call of `inflate` that it comes to, and that does not
fail, writes no more than there is room for (and with assertions does not report an error in the
stream state). Without input or room it refuses, as it should unless there is nothing to write. -/
theorem zdLaw_iff (zl : Inflater) (b : Build) (olen : Nat) (z : List UInt8)
    (hmax : (olen : Int) ≤ INT_MAX) :
    ZdLaw zl b olen z ↔
      if z = [] ∨ olen = 0 then ∀ body, Inflates zl z body → olen < body.length
      else ∀ k, (∀ j < k, Filled zl z j) → ¬ (zl.inflate z k).1.Failed →
        Roomy zl b olen z k := by
  unfold ZdLaw hpZdBuf
  by_cases hguard : z.length > 0 ∧ olen > 0
  · have hnone : ∀ j < 0, Filled zl z j ∧ Roomy zl b olen z j :=
      fun j hj => absurd hj (Nat.not_lt_zero j)
    have hfuel : olen - (written zl z 0).length < olen + 1 :=
      Nat.lt_succ_of_le (Nat.sub_le _ _)
    have hroom : (written zl z 0).length ≤ olen := Nat.zero_le olen
    obtain ⟨m, e, hloop, hbefore, hstop⟩ := hpZdLoop_stop hmax hroom hfuel hnone
    have hwritten : written zl z 0 = [] := rfl
    rw [hwritten] at hloop
    have hfilled : ∀ j < m, Filled zl z j := fun j hj => (hbefore j hj).1
    have hargs : ¬ (z = [] ∨ olen = 0) :=
      not_or.mpr ⟨List.length_pos_iff.mp hguard.1, Nat.pos_iff_ne_zero.mp hguard.2⟩
    rw [if_pos hguard, if_neg hargs, hloop]
    cases hstop with
    | clobbered h hassert =>
      refine iff_of_false ?_ fun hroomy => ?_
      · intro ⟨_, _, _, heq, _⟩
        cases heq
      · have hndebug := (hroomy m hfilled (by rw [h]; decide)).2 h
        rw [hassert] at hndebug
        cases hndebug
    | failed h =>
      have hnot : ¬ Filled zl z m := fun hfill => hfill.1 h
      refine iff_of_true ⟨_, _, _, rfl, length_written_le hbefore, fun body hbody _ => ?_,
        fun _ => by decide⟩ (roomy_of_stop hbefore hnot fun hok => absurd h hok)
      exact absurd h (streamEnd_ok (hbody.at_stop hfilled hnot).1)
    | full h hfull =>
      refine iff_of_false ?_ fun hroomy => ?_
      · intro ⟨_, _, _, heq, _⟩
        split at heq <;> cases heq
      · exact absurd (hroomy m hfilled h).1 (Nat.not_le.mpr hfull)
    | short h hroomy hend =>
      refine iff_of_true ⟨_, _, _, rfl, hroomy.1, fun body hbody _ => ?_,
        fun _ => by decide⟩ (roomy_of_stop hbefore h fun _ => hroomy)
      exact absurd (hbody.at_stop hfilled h).1 hend
    | ended h hroomy hend =>
      refine iff_of_true ⟨_, _, _, rfl, hroomy.1, fun body hbody _ => ?_,
        fun hno => absurd ⟨_, ⟨m, hfilled, hend, rfl⟩, hroomy.1⟩ hno⟩
        (roomy_of_stop hbefore h fun _ => hroomy)
      rw [(hbody.at_stop hfilled h).2]
      exact ⟨rfl, rfl, rfl⟩
  · have hargs : z = [] ∨ olen = 0 := by
      rcases not_and_or.mp hguard with hlen | holen
      · exact .inl (List.length_eq_zero_iff.mp (by omega))
      · exact .inr (by omega)
    rw [if_neg hguard, if_pos hargs]
    constructor
    · rintro ⟨rc, out, olen', hdone, -, hfits, -⟩ body hbody
      by_contra hle
      cases hdone
      exact absurd (hfits body hbody (by omega)).1 (by decide)
    · intro hlong
      refine ⟨_, _, _, rfl, Nat.zero_le _, fun body hbody hle => ?_, fun _ => by decide⟩
      exact absurd hle (Nat.not_le.mpr (hlong body hbody))

/-- zlib on the 32 letters, which fit into a chunk. -/
def inflaterA : Inflater where
  toZlib := zlibOn manyA manyAZ
  after_end z k _ := by
    show (if z = manyAZ ∧ k + 1 = 0 then _ else _) = _
    exact if_neg fun h => Nat.succ_ne_zero k h.2

/-- The letters fit into 64 bytes. -/
theorem zdLaw_iff_manyA : ZdLaw inflaterA ⟨false, 8, by decide⟩ 64 manyAZ := by
  refine (zdLaw_iff inflaterA ⟨false, 8, by decide⟩ 64 manyAZ (by decide)).mpr ?_
  rw [if_neg (by decide)]
  intro k hfilled _
  -- the first call does not fill its output, so it is the last
  have hfirst : ¬ Filled inflaterA manyAZ 0 := fun h => absurd h.2 (by decide)
  cases k with
  | zero => exact ⟨by decide, fun h => absurd h (by decide)⟩
  | succ k => exact absurd (hfilled 0 (Nat.succ_pos k)) hfirst

/-- The letters do not fit into 16 bytes: with assertions the call stops at one, and without it
writes behind `out`. -/
theorem zd_not_bounded :
    hpZdBuf inflaterA.toZlib ⟨false, 8, by decide⟩ 16 16 manyAZ = some .abort ∧
    hpZdBuf inflaterA.toZlib ⟨true, 8, by decide⟩ 16 16 manyAZ = some .overflow ∧
    ¬ ZdLaw inflaterA ⟨false, 8, by decide⟩ 16 manyAZ ∧
    ¬ ZdLaw inflaterA ⟨true, 8, by decide⟩ 16 manyAZ := by
  have habort : hpZdBuf inflaterA.toZlib ⟨false, 8, by decide⟩ 16 16 manyAZ = some .abort := by
    decide +kernel
  have hoverflow : hpZdBuf inflaterA.toZlib ⟨true, 8, by decide⟩ 16 16 manyAZ =
      some .overflow := by
    decide +kernel
  refine ⟨habort, hoverflow, ?_, ?_⟩
  · intro ⟨_, _, _, hdone, _⟩
    rw [habort] at hdone
    cases hdone
  · intro ⟨_, _, _, hdone, _⟩
    rw [hoverflow] at hdone
    cases hdone

end Libhp.Msg
