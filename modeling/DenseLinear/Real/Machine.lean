import DenseLinear.Real.Basic
import DenseLinear.Real.Rounding

/-!
# Floating point numbers

The two widths of floating point numbers as instances of `RealArith`. Every operation rounds once,
to the nearest number. Magnitudes over either width are kept in double width.
-/

namespace DenseLinear

namespace Double

/-- The greater of two numbers; an operand that is not a number gives way to the other one. -/
def max (x y : Float) : Float :=
  if x.isNaN then y else if y.isNaN then x else if x < y then y else x

/-- The length of a hypotenuse, correctly rounded; infinite as soon as one leg is. -/
def hypot (x y : Float) : Float :=
  if x.isInf || y.isInf then
    1.0 / 0.0
  else if x.isNaN || y.isNaN then
    0.0 / 0.0
  else
    .ofBits (.ofNat (BinaryFormat.double.hypotenuse x.abs.toBits.toNat y.abs.toBits.toNat))

end Double

namespace Single

/-- The greater of two numbers; an operand that is not a number gives way to the other one. -/
def max (x y : Float32) : Float32 :=
  if x.isNaN then y else if y.isNaN then x else if x < y then y else x

/-- The length of a hypotenuse, correctly rounded; infinite as soon as one leg is. -/
def hypot (x y : Float32) : Float32 :=
  if x.isInf || y.isInf then
    1.0 / 0.0
  else if x.isNaN || y.isNaN then
    0.0 / 0.0
  else
    .ofBits (.ofNat (BinaryFormat.single.hypotenuse x.abs.toBits.toNat y.abs.toBits.toNat))

end Single

instance : RealArith Float where
  zero := 0.0
  one := 1.0
  lt x y := x < y
  le x y := x ≤ y
  abs := Float.abs
  sqrt := Float.sqrt
  max := Double.max
  isNaN := Float.isNaN
  isNegative x := x.toBits >>> 63 == 1
  hypot := Double.hypot
  atan2 := Float.atan2
  cos := Float.cos
  sin := Float.sin

instance : RealArith Float32 where
  zero := 0.0
  one := 1.0
  lt x y := x < y
  le x y := x ≤ y
  abs := Float32.abs
  sqrt := Float32.sqrt
  max := Single.max
  isNaN := Float32.isNaN
  isNegative x := x.toBits >>> 31 == 1
  hypot := Single.hypot
  atan2 := Float32.atan2
  cos := Float32.cos
  sin := Float32.sin

instance : Measured Float Float where
  widen x := x
  narrow x := x
  bytes := 8

instance : Measured Float32 Float where
  widen := Float32.toFloat
  narrow := Float.toFloat32
  bytes := 4

end DenseLinear
