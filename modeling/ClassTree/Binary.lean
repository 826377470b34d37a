/-
# Floating-point constants

Floating-point constants are stored and compared, never computed with, so
they are kept as their bit patterns. They are compared (`==`) the way the
numbers are: a NaN differs from everything, itself included, and the two
zeros are equal. On all other patterns equality is equality of the bits.

Key definitions: `Binary32`, `Binary64`, their `isNaN`, `isZero` and `==`.
-/
namespace ClassTree

/-- A single-precision constant, as its bit pattern. -/
structure Binary32 where
  bits : UInt32
  deriving Repr

namespace Binary32

/-- The pattern without its sign bit. -/
def magnitude (x : Binary32) : UInt32 := x.bits &&& 0x7fffffff

/-- All exponent bits are set and the fraction is not zero. -/
def isNaN (x : Binary32) : Bool := 0x7f800000 < x.magnitude

def isZero (x : Binary32) : Bool := x.magnitude == 0

instance : BEq Binary32 :=
  ⟨fun x y => !x.isNaN && !y.isNaN && (x.bits == y.bits || x.isZero && y.isZero)⟩

end Binary32

/-- A double-precision constant, as its bit pattern. -/
structure Binary64 where
  bits : UInt64
  deriving Repr

namespace Binary64

/-- The pattern without its sign bit. -/
def magnitude (x : Binary64) : UInt64 := x.bits &&& 0x7fffffffffffffff

/-- All exponent bits are set and the fraction is not zero. -/
def isNaN (x : Binary64) : Bool := 0x7ff0000000000000 < x.magnitude

def isZero (x : Binary64) : Bool := x.magnitude == 0

instance : BEq Binary64 :=
  ⟨fun x y => !x.isNaN && !y.isNaN && (x.bits == y.bits || x.isZero && y.isZero)⟩

end Binary64

end ClassTree
