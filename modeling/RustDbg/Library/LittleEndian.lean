import Mathlib.Algebra.Group.Nat.Defs
import Mathlib.Algebra.Order.Ring.Nat

/-!
# Little-endian words

The number a list of bytes spells with its least significant byte first, and the
bytes of a number in a fixed width.
-/

namespace LittleEndian

abbrev Byte := BitVec 8

def ofBytes : List Byte → Nat
  | [] => 0
  | byte :: rest => byte.toNat + 256 * ofBytes rest

/-- The lowest `width` bytes of a number. -/
def toBytes : Nat → Nat → List Byte
  | 0, _ => []
  | width + 1, value => BitVec.ofNat 8 value :: toBytes width (value / 256)

@[simp]
theorem length_toBytes (width value : Nat) : (toBytes width value).length = width := by
  induction width generalizing value with
  | zero => rfl
  | succ width ih => simp only [toBytes, List.length_cons, ih]

theorem ofBytes_toBytes (width value : Nat) :
    ofBytes (toBytes width value) = value % 256 ^ width := by
  induction width generalizing value with
  | zero => simp only [toBytes, ofBytes, Nat.pow_zero, Nat.mod_one]
  | succ width ih =>
      have split : value % (256 * 256 ^ width) = value % 256 + 256 * (value / 256 % 256 ^ width) :=
        Nat.mod_mul
      simp only [toBytes, ofBytes, ih, BitVec.toNat_ofNat, Nat.pow_succ', split]

end LittleEndian
