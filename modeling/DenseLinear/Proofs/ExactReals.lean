import Mathlib.Analysis.SpecialFunctions.Complex.Arg
import DenseLinear.Proofs.ExactNumbers

/-!
# The real numbers as magnitudes

The real numbers with their order, absolute value, square root and angles satisfy everything that
exact magnitudes are asked for, so they and the complex numbers over them are exact scalars.
-/

namespace DenseLinear

noncomputable instance : RealArith ℝ where
  lt x y := decide (x < y)
  le x y := decide (x ≤ y)
  beq x y := decide (x = y)
  abs x := |x|
  sqrt := Real.sqrt
  max x y := max x y
  isNaN _ := false
  isNegative x := decide (x < 0)
  hypot x y := Real.sqrt (x * x + y * y)
  atan2 y x := Complex.arg ⟨x, y⟩
  cos := Real.cos
  sin := Real.sin

instance : Measured ℝ ℝ where
  widen x := x
  narrow x := x
  bytes := 8

instance : SelfMeasured ℝ where
  widen_eq _ := rfl
  narrow_eq _ := rfl

noncomputable instance : ExactArith ℝ where
  __ := (inferInstance : RealArith ℝ)
  __ := (inferInstance : Field ℝ)
  __ := (inferInstance : IsStrictOrderedRing ℝ)
  lt_iff _ _ := decide_eq_true_iff
  le_iff _ _ := decide_eq_true_iff
  beq_iff _ _ := decide_eq_true_iff

instance : MetricArith ℝ where
  abs_eq _ := rfl

instance : EuclideanArith ℝ where
  sqrt_nonneg x _ := Real.sqrt_nonneg x
  sqrt_mul_self _ hx := Real.mul_self_sqrt hx
  hypot_eq _ _ := rfl

end DenseLinear
