import Mathlib.Tactic

/-!
# Words in memory

The four bytes of a 32-bit word in either byte order, and the network order that
`htonl` and `ntohl` produce on either kind of machine.
-/
namespace ByteOrder

inductive Endian where
  | little
  | big
  deriving DecidableEq, Repr

/-- The byte of weight `256 ^ i`. -/
def byteAt (x : BitVec 32) (i : Nat) : UInt8 := UInt8.ofNat (x.toNat / 256 ^ i % 256)

def word (b₃ b₂ b₁ b₀ : UInt8) : BitVec 32 :=
  BitVec.ofNat 32 (b₃.toNat * 256 ^ 3 + b₂.toNat * 256 ^ 2 + b₁.toNat * 256 + b₀.toNat)

/-- The bytes of a word, in the order in which they stand in memory. -/
def bytes : Endian → BitVec 32 → List UInt8
  | .little, x => [byteAt x 0, byteAt x 1, byteAt x 2, byteAt x 3]
  | .big, x => [byteAt x 3, byteAt x 2, byteAt x 1, byteAt x 0]

/-- The word that stands at the start of `bs`. -/
def read (e : Endian) : List UInt8 → BitVec 32
  | a :: b :: c :: d :: _ =>
    match e with
    | .little => word d c b a
    | .big => word a b c d
  | _ => 0

def swap (x : BitVec 32) : BitVec 32 := word (byteAt x 0) (byteAt x 1) (byteAt x 2) (byteAt x 3)

/-- `htonl`, which is also `ntohl`. -/
def htonl : Endian → BitVec 32 → BitVec 32
  | .little, x => swap x
  | .big, x => x

theorem toNat_byteAt (x : BitVec 32) (i : Nat) : (byteAt x i).toNat = x.toNat / 256 ^ i % 256 := by
  rw [byteAt, UInt8.toNat_ofNat']
  exact Nat.mod_mod _ _

@[simp] theorem word_byteAt (x : BitVec 32) :
    word (byteAt x 3) (byteAt x 2) (byteAt x 1) (byteAt x 0) = x := by
  apply BitVec.eq_of_toNat_eq
  have hx := x.isLt
  simp only [word, BitVec.toNat_ofNat, toNat_byteAt]
  omega

theorem byteAt_word (b₃ b₂ b₁ b₀ : UInt8) :
    byteAt (word b₃ b₂ b₁ b₀) 3 = b₃ ∧ byteAt (word b₃ b₂ b₁ b₀) 2 = b₂ ∧
      byteAt (word b₃ b₂ b₁ b₀) 1 = b₁ ∧ byteAt (word b₃ b₂ b₁ b₀) 0 = b₀ := by
  have h₃ := b₃.toNat_lt
  have h₂ := b₂.toNat_lt
  have h₁ := b₁.toNat_lt
  have h₀ := b₀.toNat_lt
  refine ⟨?_, ?_, ?_, ?_⟩ <;>
    · apply UInt8.toNat_inj.mp
      simp only [toNat_byteAt, word, BitVec.toNat_ofNat]
      omega

theorem swap_swap (x : BitVec 32) : swap (swap x) = x := by
  obtain ⟨h₃, h₂, h₁, h₀⟩ := byteAt_word (byteAt x 0) (byteAt x 1) (byteAt x 2) (byteAt x 3)
  rw [swap, swap, h₃, h₂, h₁, h₀, word_byteAt]

@[simp] theorem htonl_htonl (e : Endian) (x : BitVec 32) : htonl e (htonl e x) = x := by
  cases e with
  | little => exact swap_swap x
  | big => rfl

@[simp] theorem length_bytes (e : Endian) (x : BitVec 32) : (bytes e x).length = 4 := by
  cases e <;> rfl

@[simp] theorem read_bytes (e : Endian) (x : BitVec 32) (rest : List UInt8) :
    read e (bytes e x ++ rest) = x := by
  cases e <;> exact word_byteAt x

/-- Only the first four bytes are read. -/
theorem read_append (e : Endian) {a : List UInt8} (h : 4 ≤ a.length) (b : List UInt8) :
    read e (a ++ b) = read e a := by
  match a, h with
  | _ :: _ :: _ :: _ :: _, _ => rfl

end ByteOrder
