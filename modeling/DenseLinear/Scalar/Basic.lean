import DenseLinear.Real.Basic

/-!
# Scalars

`Scalar α ρ` is the contract between a type `α` of matrix entries and the kernels: ring operations,
conjugation, a division, square roots, and the measurement of entries by magnitudes in `ρ`. It
states no laws, so that rounded and exact entries are instances alike.

Real numbers are scalars over themselves (`Scalar.ofReals`).
-/

namespace DenseLinear

/-- The operations on entries in `α` that are measured in `ρ`. -/
class Scalar (α : Type) (ρ : outParam Type) extends
    Zero α, One α, Add α, Sub α, Mul α, Neg α, BEq α where
  /-- The complex conjugate. -/
  conj : α → α
  /-- The absolute value, as an entry. -/
  absolute : α → α
  /-- The principal square root. -/
  sqrt : α → α
  /-- The quotient of two entries; division by zero has a value too. -/
  quotient : α → α → α
  /-- The square of the absolute value. -/
  normSq : α → ρ
  /-- The absolute value. -/
  modulus : α → ρ
  /-- The real part. -/
  rePart : α → ρ
  /-- The imaginary part. -/
  imPart : α → ρ
  /-- The entry nearest to a magnitude. -/
  ofReal : ρ → α
  /-- Whether some part of an entry is not a number. -/
  isNaN : α → Bool
  /-- The width of an entry in bytes. -/
  bytes : Nat

namespace Scalar

variable {α ρ : Type} [Scalar α ρ]

/-- The accumulator `acc` with the product of `x` and `y` added to it. -/
@[inline]
def addMul (acc x y : α) : α := acc + x * y

/-- What becomes of an old entry `x` in `beta * x + …`: it is dropped if `beta` is zero, even when
it is not a number, and kept as it is if `beta` is one. -/
def rescale (beta x : α) : α :=
  if beta == 0 then 0 else if beta == 1 then x else beta * x

variable [RealArith ρ]

/-- Whether the imaginary part is zero. -/
def isReal (x : α) : Bool := imPart x == 0

/-- Whether the real part is zero. -/
def hasZeroRePart (x : α) : Bool := rePart x == 0

/-- Whether an entry is one of the real numbers zero and one, given that it is real. -/
def isBit (x : α) : Bool := rePart x == 0 || rePart x == 1

/-- Whether the absolute value is zero. -/
def isNull (x : α) : Bool := modulus x == 0

end Scalar

/-- Real numbers as scalars. -/
instance Scalar.ofReals {F ρ : Type} [RealArith F] [Measured F ρ] [RealArith ρ] : Scalar F ρ where
  zero := 0
  one := 1
  add x y := x + y
  sub x y := x - y
  mul x y := x * y
  neg x := -x
  beq x y := x == y
  conj x := x
  absolute := RealArith.abs
  sqrt := RealArith.sqrt
  quotient x y := x / y
  normSq x := Measured.widen (x * x)
  modulus x := Measured.widen (RealArith.abs x)
  rePart := Measured.widen
  imPart _ := 0
  ofReal := Measured.narrow
  isNaN := RealArith.isNaN
  bytes := Measured.bytes F

end DenseLinear
