import Libhp.Lib.CInt
import Libhp.Lib.Memmove
import Mathlib

/-!
# Strings and memory in C

What the functions of `hp_str.c` share: bytes, C strings, the faults of an access outside of an
object, and a write of some bytes in a row.
-/
namespace Libhp.Str

abbrev Byte := UInt8

inductive Fault where
  | read
  | write
  | overflow
  deriving DecidableEq, Repr

/-- A C string: the bytes before its NUL. -/
structure CStr where
  bytes : List Byte
  nonzero : ∀ b ∈ bytes, b ≠ 0
  short : bytes.length < 2 ^ 63

/-- The bytes `bs` from index `off` on, as a `strcpy` or a `memcpy` leaves them. -/
def put (mem : List Byte) (off : Nat) (bs : List Byte) : Except Fault (List Byte) :=
  if mem.length < off + bs.length then .error .write else .ok (Memmove.overwrite mem off bs)

end Libhp.Str
