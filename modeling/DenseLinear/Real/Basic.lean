/-!
# Arithmetic of real numbers

`RealArith F` collects what the library asks of a type of real numbers: the field operations, the
order, absolute value and square root, and the few functions that complex numbers need. It states
no laws, so that rounded and exact numbers are instances alike.

`Measured F ρ` says that quantities built from numbers in `F` are measured in `ρ`: norms of
single-width numbers, for instance, are kept in double width.
-/

namespace DenseLinear

/-- The operations on a type of real numbers, exact or rounded. -/
class RealArith (F : Type) extends Zero F, One F, Add F, Sub F, Mul F, Div F, Neg F, BEq F where
  /-- Whether the first number is less than the second. -/
  lt : F → F → Bool
  /-- Whether the first number is at most the second. -/
  le : F → F → Bool
  /-- The absolute value. -/
  abs : F → F
  /-- The square root. -/
  sqrt : F → F
  /-- The greater of two numbers; an operand that is not a number gives way to the other one. -/
  max : F → F → F
  /-- Whether a value is not a number. -/
  isNaN : F → Bool
  /-- Whether the sign is negative, the sign of a negative zero included. -/
  isNegative : F → Bool
  /-- The length of the hypotenuse over two legs. -/
  hypot : F → F → F
  /-- The angle of the point `(x, y)`, given as `atan2 y x`. -/
  atan2 : F → F → F
  /-- The cosine. -/
  cos : F → F
  /-- The sine. -/
  sin : F → F

/-- The magnitudes `ρ` in which quantities over the numbers `F` are measured. -/
class Measured (F : Type) (ρ : outParam Type) where
  /-- The magnitude equal to a number. -/
  widen : F → ρ
  /-- The number nearest to a magnitude. -/
  narrow : ρ → F
  /-- The width of a number in bytes. -/
  bytes : Nat

namespace RealArith

variable {F : Type} [RealArith F]

/-- Two. -/
def two : F := 1 + 1

/-- One quarter. -/
def quarter : F := 1 / (two * two)

end RealArith

end DenseLinear
