import Mathlib.Data.List.TakeDrop
import Mathlib.Tactic

/-!
# Vectored writes

`iovec`, `before_writev` and `hp_uio_write` of `hp_io.c`. A pointer is modelled
by the bytes from it to the end of its block, so advancing `iov_base` is
dropping a prefix; `iov_len` of those bytes are described by the vector.
The kernel is a parameter: `writev` may answer any request in any way, and the
POSIX bound on its answer is a named hypothesis of the lemmas that need it.
-/
namespace Libhp.Io

abbrev Byte := UInt8

def EINTR : Int := 4
def EIO : Int := 5
def EAGAIN : Int := 11

/-- What a system call leaves behind: its return value and `errno`. -/
structure SysRes where
  ret : Int
  errno : Int
  deriving DecidableEq, Repr

def SysRes.again (r : SysRes) : Prop := r.errno = EINTR ∨ r.errno = EAGAIN

instance (r : SysRes) : Decidable r.again := by unfold SysRes.again; infer_instance

structure Iovec where
  iovBase : List Byte
  iovLen : Nat
  deriving DecidableEq, Repr

namespace Iovec

def bytes (v : Iovec) : List Byte := v.iovBase.take v.iovLen

/-- The block behind `iov_base` really holds `iov_len` bytes. -/
def Fits (v : Iovec) : Prop := v.iovLen ≤ v.iovBase.length

theorem bytes_length {v : Iovec} (h : v.Fits) : v.bytes.length = v.iovLen := by
  simp only [bytes, List.length_take]
  exact Nat.min_eq_left h

/-- Advance `iov_base` so that `left` of the described bytes remain. -/
def trim (v : Iovec) (left : Nat) : Iovec :=
  { iovBase := v.iovBase.drop (v.iovLen - left), iovLen := left }

theorem trim_fits {v : Iovec} (h : v.Fits) {left : Nat} (hl : left ≤ v.iovLen) :
    (v.trim left).Fits := by
  unfold Fits at h ⊢
  simp only [trim, List.length_drop]
  omega

theorem trim_bytes {v : Iovec} {left : Nat} (hl : left ≤ v.iovLen) :
    (v.trim left).bytes = v.bytes.drop (v.iovLen - left) := by
  simp only [bytes, trim, List.drop_take]
  congr 1
  omega

end Iovec

def described (vec : List Iovec) : List Byte := vec.flatMap Iovec.bytes

@[simp] theorem described_nil : described [] = [] := rfl

@[simp] theorem described_cons (v : Iovec) (vec : List Iovec) :
    described (v :: vec) = v.bytes ++ described vec := rfl

@[simp] theorem described_append (a b : List Iovec) :
    described (a ++ b) = described a ++ described b := List.flatMap_append

def iovecTotalBytes : List Iovec → Nat
  | [] => 0
  | v :: vec => v.iovLen + iovecTotalBytes vec

theorem described_length {vec : List Iovec} (h : ∀ v ∈ vec, v.Fits) :
    (described vec).length = iovecTotalBytes vec := by
  induction vec with
  | nil => rfl
  | cons v vec ih =>
    rw [described_cons, List.length_append, Iovec.bytes_length (h v (by simp)),
      ih (fun u hu => h u (by simp [hu])), iovecTotalBytes]

/-- The loop of `before_writev` over `vec[i..count)`; `r` is its running sum. The
second component is the index it stops at, if it stops. -/
def beforeWritevLoop (nwrite : Nat) : Nat → Nat → List Iovec → List Iovec × Option Nat
  | _, _, [] => ([], none)
  | r, i, v :: vec =>
    let r := r + v.iovLen
    if nwrite < r then (v.trim (r - nwrite) :: vec, some i)
    else
      let (vec, n) := beforeWritevLoop nwrite r (i + 1) vec
      (v :: vec, n)

/-- `before_writev`: drop `nwrite` accepted bytes from `vec[*vec_n..count)`, moving
`*vec_n` to the first vector that still has some. -/
def beforeWritev (vec : List Iovec) (nwrite vecN : Nat) : List Iovec × Nat :=
  let (rest, n) := beforeWritevLoop nwrite 0 vecN (vec.drop vecN)
  (vec.take vecN ++ rest, n.getD vecN)

/-- While `nwrite` lies below the remaining bytes the loop stops, inside the
vector that holds the first unaccepted byte, and only that vector changes. -/
theorem beforeWritevLoop_spec (nwrite : Nat) :
    ∀ (vec : List Iovec) (r i : Nat), (∀ v ∈ vec, v.Fits) → r ≤ nwrite →
      nwrite < r + iovecTotalBytes vec →
      ∃ k, k < vec.length ∧ (beforeWritevLoop nwrite r i vec).2 = some (i + k) ∧
        (beforeWritevLoop nwrite r i vec).1.length = vec.length ∧
        (∀ v ∈ (beforeWritevLoop nwrite r i vec).1, v.Fits) ∧
        (beforeWritevLoop nwrite r i vec).1.drop (k + 1) = vec.drop (k + 1) ∧
        described ((beforeWritevLoop nwrite r i vec).1.drop k) =
          (described vec).drop (nwrite - r) := by
  intro vec
  induction vec with
  | nil => intro r i _ _ h; simp [iovecTotalBytes] at h; omega
  | cons v vec ih =>
    intro r i hfit hr hlt
    have hv : v.Fits := hfit v (by simp)
    simp only [iovecTotalBytes] at hlt
    by_cases hstop : nwrite < r + v.iovLen
    · have hle : r + v.iovLen - nwrite ≤ v.iovLen := by omega
      refine ⟨0, by simp, ?_⟩
      simp only [beforeWritevLoop, hstop, ↓reduceIte, Nat.add_zero, List.length_cons,
        List.drop_succ_cons, List.drop_zero, described_cons, true_and]
      refine ⟨?_, ?_⟩
      · intro u hu
        rcases List.mem_cons.mp hu with rfl | hu
        · exact Iovec.trim_fits hv hle
        · exact hfit u (by simp [hu])
      · rw [Iovec.trim_bytes hle, List.drop_append_of_le_length (by rw [Iovec.bytes_length hv]; omega)]
        congr 2
        omega
    · obtain ⟨k, hk, hn, hlen, hfits, htail, hbytes⟩ :=
        ih (r + v.iovLen) (i + 1) (fun u hu => hfit u (by simp [hu])) (by omega) (by omega)
      refine ⟨k + 1, by simpa using hk, ?_⟩
      simp only [beforeWritevLoop, hstop, ↓reduceIte, List.length_cons, List.drop_succ_cons]
      refine ⟨by rw [hn]; congr 1; omega, by rw [hlen], ?_, htail, ?_⟩
      · intro u hu
        rcases List.mem_cons.mp hu with rfl | hu
        · exact hv
        · exact hfits u hu
      · have hz : v.bytes.drop (nwrite - r) = [] :=
          List.drop_of_length_le (by rw [Iovec.bytes_length hv]; omega)
        rw [hbytes, described_cons, List.drop_append, hz, List.nil_append, Iovec.bytes_length hv]
        congr 1
        omega

/-- `iov_len` of `vec[i]`, 0 past the end. -/
def lenAt (vec : List Iovec) (i : Nat) : Nat := (vec[i]?.map Iovec.iovLen).getD 0

theorem beforeWritevLoop_lenAt (nwrite : Nat) :
    ∀ (vec : List Iovec) (r i : Nat), r ≤ nwrite →
      ∀ j, lenAt (beforeWritevLoop nwrite r i vec).1 j ≤ lenAt vec j := by
  intro vec
  induction vec with
  | nil => intro r i _ j; exact Nat.le_refl _
  | cons v vec ih =>
    intro r i hr j
    by_cases hstop : nwrite < r + v.iovLen
    · simp only [beforeWritevLoop, hstop, ↓reduceIte]
      cases j with
      | zero => simp only [lenAt, List.getElem?_cons_zero, Option.map_some, Option.getD_some,
          Iovec.trim]; omega
      | succ j => exact Nat.le_refl _
    · simp only [beforeWritevLoop, hstop, ↓reduceIte]
      cases j with
      | zero => exact Nat.le_refl _
      | succ j => exact ih (r + v.iovLen) (i + 1) (by omega) j

/-- `before_writev` only shortens vectors. -/
theorem beforeWritev_lenAt (vec : List Iovec) (nwrite n j : Nat) :
    lenAt (beforeWritev vec nwrite n).1 j ≤ lenAt vec j := by
  have h := beforeWritevLoop_lenAt nwrite (vec.drop n) 0 n (Nat.zero_le _) (j - n)
  simp only [beforeWritev, lenAt] at h ⊢
  rw [List.getElem?_drop] at h
  by_cases hj : j < (vec.take n).length
  · rw [List.getElem?_append_left hj, List.getElem?_take_of_lt (by simp at hj; omega)]
  · rw [List.getElem?_append_right (by omega)]
    simp only [List.length_take] at hj ⊢
    by_cases hn : n ≤ vec.length
    · rw [Nat.min_eq_left hn] at hj ⊢
      rwa [show n + (j - n) = j by omega] at h
    · rw [List.drop_eq_nil_of_le (by omega)]
      simp [beforeWritevLoop]

/-- `before_writev` moves past exactly the accepted bytes. -/
theorem beforeWritev_spec {vec : List Iovec} {nwrite n : Nat} (hfit : ∀ v ∈ vec, v.Fits)
    (hn : n ≤ vec.length) (hlt : nwrite < iovecTotalBytes (vec.drop n)) :
    n ≤ (beforeWritev vec nwrite n).2 ∧ (beforeWritev vec nwrite n).2 < vec.length ∧
      (beforeWritev vec nwrite n).1.length = vec.length ∧
      (∀ v ∈ (beforeWritev vec nwrite n).1, v.Fits) ∧
      (beforeWritev vec nwrite n).1.drop ((beforeWritev vec nwrite n).2 + 1) =
        vec.drop ((beforeWritev vec nwrite n).2 + 1) ∧
      described ((beforeWritev vec nwrite n).1.drop (beforeWritev vec nwrite n).2) =
        (described (vec.drop n)).drop nwrite := by
  obtain ⟨k, hk, hidx, hlen, hfits, htail, hbytes⟩ :=
    beforeWritevLoop_spec nwrite (vec.drop n) 0 n
      (fun v hv => hfit v (List.mem_of_mem_drop hv)) (Nat.zero_le _) (by omega)
  have htake : (vec.take n).length = n := List.length_take_of_le hn
  simp only [List.length_drop] at hk hlen
  have hdrop : ∀ (l : List Iovec) (j : Nat), (vec.take n ++ l).drop (n + j) = l.drop j := by
    intro l j
    rw [List.drop_append, List.drop_of_length_le (by omega), List.nil_append, htake]
    congr 1
    omega
  simp only [beforeWritev, hidx, Option.getD_some]
  refine ⟨by omega, by omega, ?_, ?_, ?_, ?_⟩
  · rw [List.length_append, htake, hlen]; omega
  · intro v hv
    rcases List.mem_append.mp hv with hv | hv
    · exact hfit v (List.mem_of_mem_take hv)
    · exact hfits v hv
  · rw [Nat.add_assoc, hdrop, htail, List.drop_drop]
  · rw [hdrop, hbytes, Nat.sub_zero]

/-- The `*err` that `hp_uio_write` reports for a `writev` that moved nothing. -/
def uioErr (r : SysRes) : Int :=
  if r.ret < 0 ∧ r.again then EAGAIN
  else if ¬ r.again then r.errno
  else EIO

/-- `writev` failed for good: neither "again" nor, with a zero `errno`, taken for success. -/
def SysRes.hard (r : SysRes) : Bool := r.ret ≤ 0 && uioErr r != 0 && uioErr r != EAGAIN

structure UioRes where
  nwrite : Nat
  err : Int
  n : Nat
  vec : List Iovec
  deriving DecidableEq, Repr

section
variable {σ : Type} (writev : List Iovec → σ → SysRes × σ)

/-- The loop of `hp_uio_write`. `none` means that `fuel` rounds did not end it. -/
def hpUioWriteLoop (bytes : Nat) : Nat → Nat → Nat → List Iovec → σ → Option (UioRes × σ)
  | 0, _, _, _, _ => none
  | fuel + 1, nwrite, n, vec, s =>
    let (w, s) := writev (vec.drop n) s
    if w.ret ≤ 0 then some (⟨nwrite, uioErr w, n, vec⟩, s)
    else
      let nwrite := nwrite + w.ret.toNat
      if nwrite = bytes then some (⟨nwrite, 0, vec.length, vec⟩, s)
      else
        let (vec, n) := beforeWritev vec w.ret.toNat n
        hpUioWriteLoop bytes fuel nwrite n vec s

/-- Every round but the last moves at least one byte, so `bytes` rounds are enough. -/
def hpUioWrite (vec : List Iovec) (bytes : Nat) (s : σ) : Option (UioRes × σ) :=
  hpUioWriteLoop writev bytes bytes 0 0 vec s

end

/-- Whatever every `writev` preserves, `hp_uio_write` preserves. -/
theorem hpUioWriteLoop_preserves {σ : Type} {writev : List Iovec → σ → SysRes × σ} {P : σ → Prop}
    (hP : ∀ vec s, P s → P (writev vec s).2) {bytes : Nat} :
    ∀ {fuel nwrite n : Nat} {vec : List Iovec} {s s' : σ} {u : UioRes},
      hpUioWriteLoop writev bytes fuel nwrite n vec s = some (u, s') → P s → P s' := by
  intro fuel
  induction fuel with
  | zero => intro nwrite n vec s s' u h _; simp [hpUioWriteLoop] at h
  | succ fuel ih =>
    intro nwrite n vec s s' u h hs
    have hs' := hP (vec.drop n) s hs
    simp only [hpUioWriteLoop] at h
    split at h
    · cases h; exact hs'
    · split at h
      · cases h; exact hs'
      · exact ih h hs'

/-- The loop ends in `H` when the `writev` that ended it failed for good, and in `I` else. -/
theorem hpUioWriteLoop_rule {σ : Type} {writev : List Iovec → σ → SysRes × σ} {I H : σ → Prop}
    (hI : ∀ vec s, I s → (writev vec s).1.hard = false → I (writev vec s).2)
    (hH : ∀ vec s, I s → (writev vec s).1.hard = true → H (writev vec s).2) {bytes : Nat} :
    ∀ {fuel nwrite n : Nat} {vec : List Iovec} {s s' : σ} {u : UioRes},
      hpUioWriteLoop writev bytes fuel nwrite n vec s = some (u, s') → I s →
      if u.err = 0 ∨ u.err = EAGAIN then I s' else H s' := by
  intro fuel
  induction fuel with
  | zero => intro nwrite n vec s s' u h _; simp [hpUioWriteLoop] at h
  | succ fuel ih =>
    intro nwrite n vec s s' u h hs
    simp only [hpUioWriteLoop] at h
    by_cases hret : (writev (vec.drop n) s).1.ret ≤ 0
    · rw [if_pos hret] at h
      cases h
      split_ifs with herr
      · apply hI _ _ hs
        simp only [SysRes.hard, Bool.and_eq_false_iff, bne_eq_false_iff_eq, decide_eq_false_iff_not]
        tauto
      · apply hH _ _ hs
        simp only [SysRes.hard, Bool.and_eq_true, bne_iff_ne, decide_eq_true_eq]
        tauto
    · have hsoft : (writev (vec.drop n) s).1.hard = false := by
        simp only [SysRes.hard, hret, decide_false, Bool.false_and]
      have hs' := hI _ _ hs hsoft
      rw [if_neg hret] at h
      split at h
      · cases h
        exact hs'
      · exact ih h hs'

/-- What POSIX promises of `writev` on a vector that describes `total > 0` bytes,
seen through `accepted`, the bytes the descriptor has taken so far. -/
structure WritevOk {σ : Type} (writev : List Iovec → σ → SysRes × σ)
    (accepted : σ → List Byte) : Prop where
  ret_le : ∀ vec s, (writev vec s).1.ret ≤ iovecTotalBytes vec
  takes : ∀ vec s, accepted (writev vec s).2 =
    accepted s ++ (described vec).take (writev vec s).1.ret.toNat
  fails : ∀ vec s, 0 < iovecTotalBytes vec → (writev vec s).1.ret ≤ 0 →
    (writev vec s).1.ret = -1 ∧ (writev vec s).1.errno ≠ 0

theorem uioErr_ne_zero {r : SysRes} (he : r.errno ≠ 0) : uioErr r ≠ 0 := by
  unfold uioErr
  split
  · decide
  · split
    · exact he
    · decide

/-- What one `hp_uio_write` has done, from the vector and bytes it was given. -/
structure UioDone {σ : Type} (accepted : σ → List Byte) (vec : List Iovec) (s : σ)
    (u : UioRes) (s' : σ) : Prop where
  took : ∃ bs, accepted s' = accepted s ++ bs ∧ bs.length = u.nwrite ∧
    bs ++ described (u.vec.drop u.n) = described vec
  len : u.vec.length = vec.length
  fits : ∀ v ∈ u.vec, v.Fits
  short : ∀ j, lenAt u.vec j ≤ lenAt vec j
  tail : u.vec.drop (u.n + 1) = vec.drop (u.n + 1)
  whole : u.err = 0 → u.n = vec.length
  part : u.err ≠ 0 → u.n < vec.length

/-- The loop invariant carried to the end: `nwrite` bytes of the original vector
are accepted, the rest is what `vec[n..count)` describes, and `bytes - nwrite`
rounds suffice. -/
theorem hpUioWriteLoop_spec {σ : Type} {writev : List Iovec → σ → SysRes × σ}
    {accepted : σ → List Byte} (hok : WritevOk writev accepted)
    (bytes : Nat) (vec₀ : List Iovec) (s₀ : σ) :
    ∀ (fuel nwrite n : Nat) (vec : List Iovec) (s : σ) (bs : List Byte),
      accepted s = accepted s₀ ++ bs → bs.length = nwrite →
      bs ++ described (vec.drop n) = described vec₀ → vec.length = vec₀.length →
      (∀ v ∈ vec, v.Fits) → (∀ j, lenAt vec j ≤ lenAt vec₀ j) →
      vec.drop (n + 1) = vec₀.drop (n + 1) → n < vec.length →
      iovecTotalBytes (vec.drop n) + nwrite = bytes → nwrite < bytes →
      bytes ≤ nwrite + fuel →
      ∃ u s', hpUioWriteLoop writev bytes fuel nwrite n vec s = some (u, s') ∧
        UioDone accepted vec₀ s₀ u s' := by
  intro fuel
  induction fuel with
  | zero => intro nwrite n vec s bs _ _ _ _ _ _ _ _ _ hlt hfuel; omega
  | succ fuel ih =>
    intro nwrite n vec s bs hacc hbs hall hlen hfit hshort htail hn htot hlt hfuel
    have hle := hok.ret_le (vec.drop n) s
    have htk := hok.takes (vec.drop n) s
    have hfl := hok.fails (vec.drop n) s (by omega)
    simp only [hpUioWriteLoop]
    rcases hw : writev (vec.drop n) s with ⟨w, s'⟩
    rw [hw] at hle htk hfl
    dsimp only at hle htk hfl ⊢
    by_cases hneg : w.ret ≤ 0
    · have hz : w.ret.toNat = 0 := by omega
      rw [if_pos hneg]
      refine ⟨_, _, rfl, ?_⟩
      have herr : uioErr w ≠ 0 := uioErr_ne_zero (hfl hneg).2
      exact { took := ⟨bs, by rw [htk, hz, List.take_zero, List.append_nil, hacc], hbs, hall⟩
              len := hlen, fits := hfit, short := hshort, tail := htail
              whole := fun h => absurd h herr, part := fun _ => hlen ▸ hn }
    · rw [if_neg hneg]
      have hdl : (described (vec.drop n)).length = iovecTotalBytes (vec.drop n) :=
        described_length fun v hv => hfit v (List.mem_of_mem_drop hv)
      have hacc' : accepted s' =
          accepted s₀ ++ (bs ++ (described (vec.drop n)).take w.ret.toNat) := by
        rw [htk, hacc, List.append_assoc]
      have hbs' : (bs ++ (described (vec.drop n)).take w.ret.toNat).length =
          nwrite + w.ret.toNat := by
        rw [List.length_append, List.length_take, hbs, hdl]
        omega
      by_cases hfull : nwrite + w.ret.toNat = bytes
      · rw [if_pos hfull]
        refine ⟨_, _, rfl, ?_⟩
        refine { took := ⟨_, hacc', hbs', ?_⟩, len := hlen, fits := hfit, short := hshort
                 tail := ?_, whole := fun _ => hlen
                 part := fun h => absurd rfl h }
        · rw [List.take_of_length_le (by omega), List.drop_length, described_nil,
            List.append_nil, hall]
        · rw [List.drop_eq_nil_of_le (by simp), List.drop_eq_nil_of_le (by simp [hlen])]
      · rw [if_neg hfull]
        obtain ⟨hge, hn', hlen', hfit', htail', hbytes⟩ :=
          beforeWritev_spec hfit (Nat.le_of_lt hn) (show w.ret.toNat < _ by omega)
        have hshort' := beforeWritev_lenAt vec w.ret.toNat n
        rcases hb : beforeWritev vec w.ret.toNat n with ⟨vec', n'⟩
        rw [hb] at hge hn' hlen' hfit' htail' hbytes hshort'
        dsimp only at hge hn' hlen' hfit' htail' hbytes hshort' ⊢
        have htot' : iovecTotalBytes (vec'.drop n') + (nwrite + w.ret.toNat) = bytes := by
          have h := congrArg List.length hbytes
          rw [described_length fun v hv => hfit' v (List.mem_of_mem_drop hv),
            List.length_drop, hdl] at h
          omega
        refine ih _ n' vec' s' _ hacc' hbs' ?_ (hlen'.trans hlen) hfit'
          (fun j => Nat.le_trans (hshort' j) (hshort j)) ?_ (by omega) htot' (by omega) (by omega)
        · rw [hbytes, List.append_assoc, List.take_append_drop, hall]
        · obtain ⟨j, rfl⟩ : ∃ j, n' = n + j := ⟨n' - n, by omega⟩
          have h := congrArg (List.drop j) htail
          rw [List.drop_drop, List.drop_drop] at h
          rw [htail', show n + j + 1 = n + 1 + j by omega, h]

/-- `hp_uio_write` returns, and has moved a prefix of what the vector describes. -/
theorem hpUioWrite_spec {σ : Type} {writev : List Iovec → σ → SysRes × σ}
    {accepted : σ → List Byte} (hok : WritevOk writev accepted) {vec : List Iovec}
    (hfit : ∀ v ∈ vec, v.Fits) (hpos : 0 < iovecTotalBytes vec) (s : σ) :
    ∃ u s', hpUioWrite writev vec (iovecTotalBytes vec) s = some (u, s') ∧
      UioDone accepted vec s u s' := by
  have hne : 0 < vec.length := by
    cases vec with
    | nil => simp [iovecTotalBytes] at hpos
    | cons v vec => simp
  exact hpUioWriteLoop_spec hok _ vec s _ 0 0 vec s [] (by simp) rfl (by simp) rfl hfit
    (fun _ => Nat.le_refl _) rfl hne (by simp) hpos (by omega)

end Libhp.Io
