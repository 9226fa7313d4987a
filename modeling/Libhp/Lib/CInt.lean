import Mathlib.Tactic

/-!
# The integer types of C

An `int` of 32 bits, an `unsigned int` and a `size_t` of 64, the conversions to them, and the
numbers that they leave as they are.
-/
namespace CInt

def INT_MAX : Nat := 2147483647

/-- The conversion to `int`. -/
def toInt (n : Int) : Int := (BitVec.ofInt 32 n).toInt

/-- The conversion to `size_t`. -/
def toSize (n : Int) : Nat := (n % 2 ^ 64).toNat

/-- The conversion to `unsigned int`. -/
def toUnsigned (n : Int) : Nat := (n % 2 ^ 32).toNat

theorem toInt_bmod (n : Int) : toInt n = n.bmod (2 ^ 32) := BitVec.toInt_ofInt ..

theorem toInt_eq {n : Int} (h : -2 ^ 31 ≤ n) (h' : n < 2 ^ 31) : toInt n = n := by
  rw [toInt_bmod]
  apply Int.bmod_eq_of_le <;> omega

theorem toInt_range (n : Int) : -2 ^ 31 ≤ toInt n ∧ toInt n < 2 ^ 31 := by
  have hle := Int.le_bmod (x := n) (m := 2 ^ 32) (by decide)
  have hlt := Int.bmod_lt (x := n) (m := 2 ^ 32) (by decide)
  rw [toInt_bmod]
  omega

theorem toInt_le {n : Int} (h : 0 ≤ n) : toInt n ≤ n := by
  rw [toInt_bmod, Int.bmod_def]
  split <;> omega

/-- A length that an `int` holds. -/
theorem toInt_length {n : Nat} (h : n ≤ INT_MAX) : toInt n = n := by
  rw [INT_MAX] at h
  exact toInt_eq (by omega) (by omega)

theorem toSize_eq {n : Int} (h : 0 ≤ n) (h' : n < 2 ^ 64) : toSize n = n.toNat := by
  rw [toSize, Int.emod_eq_of_lt h h']

theorem toSize_of_neg {n : Int} (h : n < 0) (h' : -2 ^ 64 ≤ n) : (toSize n : Int) = 2 ^ 64 + n := by
  rw [toSize]
  omega

/-- A negative difference of lengths is a huge `size_t`. -/
theorem toSize_neg {n : Int} (h : n < 0) (h' : -2 ^ 63 ≤ n) : 2 ^ 63 ≤ toSize n := by
  have hsize := toSize_of_neg h (by omega)
  omega

theorem toSize_length {n : Nat} (h : n < 2 ^ 64) : toSize n = n := by
  rw [toSize_eq (by omega) (by omega), Int.toNat_natCast]

/-- A difference of lengths that does not wrap around. -/
theorem toSize_sub {n m : Nat} (h : m ≤ n) (hn : n < 2 ^ 64) : toSize ((n : Int) - m) = n - m := by
  rw [toSize_eq (by omega) (by omega)]
  omega

theorem toUnsigned_eq {n : Int} {m : Nat} (h : n = m) (hm : m < 2 ^ 32) : toUnsigned n = m := by
  subst h
  rw [toUnsigned, Int.emod_eq_of_lt (by omega) (by omega), Int.toNat_natCast]

end CInt
