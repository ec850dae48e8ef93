import Mathlib.Algebra.Group.Nat.Defs

/-! Comparison of IEEE 754 floats, on their bits. -/

namespace Ieee754

/-- The bits below the sign. -/
def magnitude {w : Nat} (v : BitVec w) : Nat := v.toNat % 2 ^ (w - 1)

def isNaN {w : Nat} (fracBits : Nat) (v : BitVec w) : Bool :=
  2 ^ (w - 1) - 2 ^ fracBits < magnitude v

/-- IEEE 754 equality on the bits of a format with `fracBits` fraction bits. -/
def ieeeEq {w : Nat} (fracBits : Nat) (a b : BitVec w) : Bool :=
  !isNaN fracBits a && !isNaN fracBits b && (a == b || (magnitude a == 0 && magnitude b == 0))

def f64Eq (a b : BitVec 64) : Bool := ieeeEq 52 a b

def f32Eq (a b : BitVec 32) : Bool := ieeeEq 23 a b

end Ieee754
