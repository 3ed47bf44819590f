import Mathlib.Algebra.Order.Field.Basic
import Mathlib.Tactic.FieldSimp
import Mathlib.Tactic.LinearCombination
import DenseLinear.Proofs.Exact
import DenseLinear.Scalar.Cartesian

/-!
# Real and complex numbers as exact scalars

Over an ordered field with absolute values, square roots and hypotenuses, the real numbers and the
complex numbers by their parts are exact scalars (`HermitianScalar`). The division of complex numbers,
which scales by the greater part of the divisor, is the division of the field
(`Cartesian.quotient_mul_cancel`).
-/

namespace DenseLinear

section Reals

variable {F : Type} [LinearOrder F] [ExactArith F] [Measured F F]

instance : FieldScalar F F where
  __ := (Scalar.ofReals : Scalar F F)
  __ := (inferInstance : Field F)
  beq_iff := ExactArith.beq_iff
  quotient_eq _ _ _ := rfl

instance : StarScalar F F where
  __ := (inferInstance : FieldScalar F F)
  __ := (starRingOfComm : StarRing F)
  conj_eq _ := rfl

variable [SelfMeasured F] [MetricArith F]

theorem modulus_eq_abs (x : F) : (Scalar.modulus x : F) = |x| :=
  (SelfMeasured.widen_eq _).trans (MetricArith.abs_eq x)

instance : ExactScalar F F where
  __ := (inferInstance : FieldScalar F F)
  modulus_nonneg x := (modulus_eq_abs x).symm ▸ abs_nonneg x
  modulus_eq_zero x := (modulus_eq_abs x).symm ▸ abs_eq_zero

/-- Real numbers are exact scalars over themselves. -/
instance [EuclideanArith F] : HermitianScalar F F where
  __ := (inferInstance : ExactScalar F F)
  __ := (inferInstance : StarScalar F F)
  ofReal_one := SelfMeasured.narrow_eq 1
  ofReal_add x y := by
    change Measured.narrow (x + y) = Measured.narrow x + Measured.narrow y
    simp only [SelfMeasured.narrow_eq]
  ofReal_mul x y := by
    change Measured.narrow (x * y) = Measured.narrow x * Measured.narrow y
    simp only [SelfMeasured.narrow_eq]
  star_ofReal _ := rfl
  star_mul_self x := by
    change x * x = Measured.narrow (Scalar.modulus x) * Measured.narrow (Scalar.modulus x)
    rw [SelfMeasured.narrow_eq, modulus_eq_abs, abs_mul_abs_self]
  absolute_eq x := by
    change RealArith.abs x = Measured.narrow (Scalar.modulus x)
    rw [SelfMeasured.narrow_eq, modulus_eq_abs, MetricArith.abs_eq]
  sqrt_ofReal x _ := by
    change RealArith.sqrt (Measured.narrow x) = Measured.narrow (RealArith.sqrt x)
    rw [SelfMeasured.narrow_eq, SelfMeasured.narrow_eq]

end Reals

/-! ## Complex numbers -/

namespace Cartesian

variable {F : Type} [LinearOrder F] [ExactArith F]

omit [LinearOrder F] [ExactArith F] in
theorem ext {z w : Cartesian F} (hre : z.re = w.re) (him : z.im = w.im) : z = w := by
  cases z
  cases w
  exact congrArg₂ mk hre him

@[simp]
theorem re_zero : (0 : Cartesian F).re = 0 := rfl

@[simp]
theorem im_zero : (0 : Cartesian F).im = 0 := rfl

@[simp]
theorem re_one : (1 : Cartesian F).re = 1 := rfl

@[simp]
theorem im_one : (1 : Cartesian F).im = 0 := rfl

@[simp]
theorem re_add (z w : Cartesian F) : (z + w).re = z.re + w.re := rfl

@[simp]
theorem im_add (z w : Cartesian F) : (z + w).im = z.im + w.im := rfl

@[simp]
theorem re_mul (z w : Cartesian F) : (z * w).re = z.re * w.re - z.im * w.im := rfl

@[simp]
theorem im_mul (z w : Cartesian F) : (z * w).im = z.re * w.im + z.im * w.re := rfl

/-- Only zero has the square of the absolute value zero. -/
theorem normSq_eq_zero {z : Cartesian F} : z.normSq = 0 ↔ z = 0 := by
  unfold normSq
  rw [mul_self_add_mul_self_eq_zero]
  constructor
  · rintro ⟨hre, him⟩
    exact ext hre him
  · rintro rfl
    exact ⟨rfl, rfl⟩

instance : CommRing (Cartesian F) where
  add_assoc z w v := ext (add_assoc ..) (add_assoc ..)
  zero_add z := ext (zero_add _) (zero_add _)
  add_zero z := ext (add_zero _) (add_zero _)
  add_comm z w := ext (add_comm ..) (add_comm ..)
  neg_add_cancel z := ext (neg_add_cancel _) (neg_add_cancel _)
  sub_eq_add_neg z w := ext (sub_eq_add_neg ..) (sub_eq_add_neg ..)
  nsmul := nsmulRec
  zsmul := zsmulRec
  mul_assoc z w v := by
    apply ext
    · simp only [re_mul, im_mul]
      ring
    · simp only [re_mul, im_mul]
      ring
  one_mul z := ext (by simp) (by simp)
  mul_one z := ext (by simp) (by simp)
  zero_mul z := ext (by simp) (by simp)
  mul_zero z := ext (by simp) (by simp)
  mul_comm z w := by
    apply ext
    · simp only [re_mul]
      ring
    · simp only [im_mul]
      ring
  left_distrib z w v := by
    apply ext
    · simp only [re_mul, re_add, im_add]
      ring
    · simp only [im_mul, re_add, im_add]
      ring
  right_distrib z w v := by
    apply ext
    · simp only [re_mul, re_add, im_add]
      ring
    · simp only [im_mul, re_add, im_add]
      ring

/-- The inverse is the conjugate over the square of the absolute value. -/
instance : Inv (Cartesian F) := ⟨fun z => ⟨z.re / z.normSq, -z.im / z.normSq⟩⟩

theorem mul_inverse {z : Cartesian F} (hz : z ≠ 0) : z * z⁻¹ = 1 := by
  have hne : z.normSq ≠ 0 := fun h => hz (normSq_eq_zero.1 h)
  have hsquare : z.normSq = z.re * z.re + z.im * z.im := rfl
  apply ext
  · change z.re * (z.re / z.normSq) - z.im * (-z.im / z.normSq) = 1
    field_simp
    rw [hsquare]
    ring
  · change z.re * (-z.im / z.normSq) + z.im * (z.re / z.normSq) = 0
    field_simp
    ring

/-- Complex numbers form a field. -/
instance : Field (Cartesian F) where
  __ := (inferInstance : CommRing (Cartesian F))
  inv z := z⁻¹
  exists_pair_ne := ⟨0, 1, fun h => zero_ne_one (congrArg re h)⟩
  mul_inv_cancel _ := mul_inverse
  inv_zero := ext (zero_div _) ((congrArg (· / _) neg_zero).trans (zero_div _))
  nnqsmul := _
  nnqsmul_def := fun _ _ => rfl
  qsmul := _
  qsmul_def := fun _ _ => rfl

/-- Division by `w` may be scaled by every `(a, b)` that is parallel to the parts of `w`. -/
theorem scaled_mul_cancel (z : Cartesian F) {w : Cartesian F} {a b s : F}
    (hs : w.re * a + w.im * b = s) (hne : s ≠ 0) (hparallel : w.re * b = w.im * a) :
    (⟨(z.re * a + z.im * b) / s, (z.im * a - z.re * b) / s⟩ : Cartesian F) * w = z := by
  subst hs
  apply ext
  · rw [re_mul, div_mul_eq_mul_div, div_mul_eq_mul_div, ← sub_div, div_eq_iff hne]
    linear_combination z.im * hparallel
  · rw [im_mul, div_mul_eq_mul_div, div_mul_eq_mul_div, ← add_div, div_eq_iff hne]
    linear_combination -(z.re * hparallel)

/-- The division of complex numbers undoes the product, in each of its branches. -/
theorem quotient_mul_cancel [MetricArith F] (z : Cartesian F) {w : Cartesian F} (hw : w ≠ 0) :
    quotient z w * w = z := by
  have hne : w.re * w.re + w.im * w.im ≠ 0 := fun h => hw (normSq_eq_zero.1 h)
  unfold quotient
  by_cases him : w.im = 0
  · -- a real divisor is divided by as it is
    have hre : w.re ≠ 0 := by
      intro hre
      exact hne (by rw [hre, him, mul_zero, add_zero])
    have hzero : (if z.im == 0 then 0 else z.im / w.re) = z.im / w.re := by
      split
      · rename_i h
        rw [(ExactArith.beq_iff _ _).1 h, zero_div]
      · rfl
    have h := scaled_mul_cancel z (w := w) (a := 1) (b := 0) rfl (by simpa using hre) (by simp [him])
    rw [if_pos ((ExactArith.beq_iff _ _).2 him), hzero]
    simpa using h
  rw [if_neg (by rw [ExactArith.beq_iff]; exact him), MetricArith.abs_eq, MetricArith.abs_eq]
  split
  · -- the real part is the greater one
    rename_i hle
    have hre : w.re ≠ 0 := by
      intro hre
      rw [ExactArith.le_iff, hre, abs_zero, abs_nonpos_iff] at hle
      exact him hle
    have hscale : w.re + w.im * (w.im / w.re) = (w.re * w.re + w.im * w.im) / w.re := by
      field_simp
    have h := scaled_mul_cancel z (w := w) (a := 1) (b := w.im / w.re) rfl
      (by rw [mul_one, hscale]; exact div_ne_zero hne hre) (by field_simp)
    simpa only [mul_one] using h
  · -- the imaginary part is the greater one
    have hscale : w.re * (w.re / w.im) + w.im = (w.re * w.re + w.im * w.im) / w.im := by
      field_simp
    have h := scaled_mul_cancel z (w := w) (a := w.re / w.im) (b := 1) rfl
      (by rw [mul_one, hscale]; exact div_ne_zero hne him) (by field_simp)
    simpa only [mul_one] using h

variable [Measured F F]

instance [MetricArith F] : FieldScalar (Cartesian F) F where
  __ := (inferInstance : Scalar (Cartesian F) F)
  __ := (inferInstance : Field (Cartesian F))
  beq_iff z w := by
    change (z.re == w.re && z.im == w.im) = true ↔ z = w
    rw [Bool.and_eq_true, ExactArith.beq_iff, ExactArith.beq_iff]
    exact ⟨fun h => ext h.1 h.2, fun h => ⟨congrArg re h, congrArg im h⟩⟩
  quotient_eq z w hw := eq_div_of_mul_eq hw (quotient_mul_cancel z hw)

instance [MetricArith F] : StarScalar (Cartesian F) F where
  __ := (inferInstance : FieldScalar (Cartesian F) F)
  star := conj
  star_involutive z := ext rfl (neg_neg z.im)
  star_mul z w := by
    apply ext
    · change z.re * w.re - z.im * w.im = w.re * z.re - -w.im * -z.im
      ring
    · change -(z.re * w.im + z.im * w.re) = w.re * -z.im + -w.im * z.re
      ring
  star_add z w := ext rfl (neg_add z.im w.im)
  conj_eq _ := rfl

variable [SelfMeasured F] [EuclideanArith F]

theorem modulus_eq (z : Cartesian F) : (Scalar.modulus z : F) = RealArith.sqrt z.normSq :=
  (SelfMeasured.widen_eq _).trans (EuclideanArith.hypot_eq z.re z.im)

theorem modulus_mul_self (z : Cartesian F) :
    (Scalar.modulus z * Scalar.modulus z : F) = z.normSq := by
  rw [modulus_eq]
  exact EuclideanArith.sqrt_mul_self _ (add_nonneg (mul_self_nonneg _) (mul_self_nonneg _))

instance [MetricArith F] : ExactScalar (Cartesian F) F where
  __ := (inferInstance : FieldScalar (Cartesian F) F)
  modulus_nonneg z := by
    rw [modulus_eq]
    exact EuclideanArith.sqrt_nonneg _ (add_nonneg (mul_self_nonneg _) (mul_self_nonneg _))
  modulus_eq_zero z := by
    rw [← mul_self_eq_zero, modulus_mul_self, normSq_eq_zero]

omit [EuclideanArith F] in
theorem ofReal_eq (x : F) : (Scalar.ofReal x : Cartesian F) = ⟨x, 0⟩ :=
  ext (SelfMeasured.narrow_eq x) rfl

/-- Complex numbers are exact scalars over the real numbers. -/
instance [MetricArith F] : HermitianScalar (Cartesian F) F where
  __ := (inferInstance : ExactScalar (Cartesian F) F)
  __ := (inferInstance : StarScalar (Cartesian F) F)
  ofReal_one := ofReal_eq 1
  ofReal_add x y := by
    rw [ofReal_eq, ofReal_eq, ofReal_eq]
    exact ext rfl (add_zero 0).symm
  ofReal_mul x y := by
    rw [ofReal_eq, ofReal_eq, ofReal_eq]
    exact ext (by simp) (by simp)
  star_ofReal x := by
    rw [ofReal_eq]
    exact ext rfl neg_zero
  star_mul_self z := by
    rw [ofReal_eq]
    apply ext
    · change z.re * z.re - -z.im * z.im = Scalar.modulus z * Scalar.modulus z - 0 * 0
      rw [modulus_mul_self, normSq]
      ring
    · change z.re * z.im + -z.im * z.re = Scalar.modulus z * 0 + 0 * Scalar.modulus z
      ring
  absolute_eq z := by
    rw [ofReal_eq, modulus_eq]
    exact ext (EuclideanArith.hypot_eq z.re z.im) rfl
  sqrt_ofReal x hx := by
    rw [ofReal_eq, ofReal_eq]
    change sqrt (⟨x, 0⟩ : Cartesian F) = _
    unfold sqrt
    rw [if_pos]
    rw [Bool.and_eq_true, ExactArith.beq_iff, ExactArith.le_iff]
    exact ⟨rfl, hx⟩

end Cartesian

end DenseLinear
