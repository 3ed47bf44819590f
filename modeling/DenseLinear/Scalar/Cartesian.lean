import DenseLinear.Scalar.Basic

/-!
# Complex numbers

Complex numbers by their parts. Sums, products and negation are the textbook formulas over the
parts, with no rearrangement. The modulus is the hypotenuse over the parts, which neither overflows
nor underflows on the way.

Division scales by the greater part of the divisor (`Cartesian.quotient`), so that no square of a
part is formed. A real divisor divides both parts, so that a division by zero is infinite in each
part that is not zero.
-/

namespace DenseLinear

/-- A complex number. -/
structure Cartesian (F : Type) where
  /-- The real part. -/
  re : F
  /-- The imaginary part. -/
  im : F
deriving DecidableEq, Repr

namespace Cartesian

variable {F : Type} [RealArith F]

instance : Zero (Cartesian F) := ⟨⟨0, 0⟩⟩

instance : One (Cartesian F) := ⟨⟨1, 0⟩⟩

instance : Add (Cartesian F) := ⟨fun z w => ⟨z.re + w.re, z.im + w.im⟩⟩

instance : Sub (Cartesian F) := ⟨fun z w => ⟨z.re - w.re, z.im - w.im⟩⟩

instance : Mul (Cartesian F) :=
  ⟨fun z w => ⟨z.re * w.re - z.im * w.im, z.re * w.im + z.im * w.re⟩⟩

instance : Neg (Cartesian F) := ⟨fun z => ⟨-z.re, -z.im⟩⟩

instance : BEq (Cartesian F) := ⟨fun z w => z.re == w.re && z.im == w.im⟩

/-- The complex conjugate. -/
def conj (z : Cartesian F) : Cartesian F := ⟨z.re, -z.im⟩

/-- The sum of the squares of the parts. -/
def normSq (z : Cartesian F) : F := z.re * z.re + z.im * z.im

/-- The distance from zero. -/
def modulus (z : Cartesian F) : F := RealArith.hypot z.re z.im

/-- The quotient of two complex numbers. -/
def quotient (z w : Cartesian F) : Cartesian F :=
  if w.im == 0 then
    ⟨z.re / w.re, if z.im == 0 then 0 else z.im / w.re⟩
  else if RealArith.le (RealArith.abs w.im) (RealArith.abs w.re) then
    let ratio := w.im / w.re
    let scale := w.re + w.im * ratio
    ⟨(z.re + z.im * ratio) / scale, (z.im - z.re * ratio) / scale⟩
  else
    let ratio := w.re / w.im
    let scale := w.re * ratio + w.im
    ⟨(z.re * ratio + z.im) / scale, (z.im * ratio - z.re) / scale⟩

/-- The number `x` with the sign of `y`, for `x` without a sign. -/
def withSignOf (y x : F) : F := if RealArith.isNegative y then -x else x

/-- The principal square root. A number on an axis has an exact formula; any other one halves its
angle. -/
def sqrt (z : Cartesian F) : Cartesian F :=
  if z.im == 0 && RealArith.le 0 z.re then
    ⟨RealArith.sqrt z.re, 0⟩
  else if z.im == 0 then
    if RealArith.isNegative z.re then
      ⟨0, withSignOf z.im (RealArith.sqrt (-z.re))⟩
    else
      ⟨RealArith.sqrt z.re, z.im⟩
  else if z.re == 0 then
    let part := RealArith.sqrt (RealArith.abs z.im / RealArith.two)
    ⟨part, withSignOf z.im part⟩
  else
    let radius := RealArith.sqrt z.modulus
    let angle := RealArith.atan2 z.im z.re / RealArith.two
    ⟨radius * RealArith.cos angle, radius * RealArith.sin angle⟩

instance {ρ : Type} [Measured F ρ] : Scalar (Cartesian F) ρ where
  conj := conj
  absolute z := ⟨z.modulus, 0⟩
  sqrt := sqrt
  quotient := quotient
  normSq z := Measured.widen z.normSq
  modulus z := Measured.widen z.modulus
  rePart z := Measured.widen z.re
  imPart z := Measured.widen z.im
  ofReal r := ⟨Measured.narrow r, 0⟩
  isNaN z := RealArith.isNaN z.re || RealArith.isNaN z.im
  bytes := 2 * Measured.bytes F

end Cartesian

end DenseLinear
