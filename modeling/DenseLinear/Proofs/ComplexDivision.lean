import DenseLinear.Proofs.ExactReals
import DenseLinear.Proofs.Loops

/-!
# The divisors of a complex division

The division of complex numbers divides parts by parts and by scales made of them. Here it is
written with that division as a parameter (`Cartesian.quotientBy`). With the quotient of the parts it
is the division of complex numbers itself (`Cartesian.quotientBy_div`), so a division that may refuse
some divisors tells which of them are met.

Over exact parts each branch knows its divisors. A divisor with no imaginary part has a real part,
because it is not zero. Otherwise the part of the greater absolute value is not zero, and the scale
is the sum of the squares of both parts over that part.
-/

namespace DenseLinear.Cartesian

section Written

variable {F : Type} [RealArith F]

/-- `quotient` with the quotients of the parts taken by `divide`. -/
def quotientBy (divide : F → F → Checked F) (z w : Cartesian F) : Checked (Cartesian F) :=
  if w.im == 0 then do
    let im ← if z.im == 0 then pure 0 else divide z.im w.re
    return ⟨← divide z.re w.re, im⟩
  else if RealArith.le (RealArith.abs w.im) (RealArith.abs w.re) then do
    let ratio ← divide w.im w.re
    let scale := w.re + w.im * ratio
    return ⟨← divide (z.re + z.im * ratio) scale, ← divide (z.im - z.re * ratio) scale⟩
  else do
    let ratio ← divide w.re w.im
    let scale := w.re * ratio + w.im
    return ⟨← divide (z.re * ratio + z.im) scale, ← divide (z.im * ratio - z.re) scale⟩

/-- With the quotient of the parts it is the division itself. -/
theorem quotientBy_div (z w : Cartesian F) :
    quotientBy (fun x y => .ok (x / y)) z w = .ok (quotient z w) := by
  unfold quotientBy quotient
  split
  · split
    · rfl
    · rfl
  split
  · rfl
  · rfl

end Written

variable {F : Type} [LinearOrder F] [ExactArith F] [MetricArith F]
  {divide : F → F → Checked F} {w : Cartesian F}

omit [MetricArith F] in
theorem re_ne_zero (hw : w ≠ 0) (him : w.im = 0) : w.re ≠ 0 := by
  intro hre
  exact hw (ext hre him)

/-- The part of the greater absolute value is not zero. -/
theorem re_ne_zero_of_le (him : w.im ≠ 0)
    (hle : RealArith.le (RealArith.abs w.im) (RealArith.abs w.re) = true) : w.re ≠ 0 := by
  intro hre
  rw [ExactArith.le_iff, MetricArith.abs_eq, MetricArith.abs_eq, hre, abs_zero,
    abs_nonpos_iff] at hle
  exact him hle

omit [MetricArith F] in
/-- The scale by the real part is the sum of the squares over it. -/
theorem scale_re_ne_zero (hre : w.re ≠ 0) : w.re + w.im * (w.im / w.re) ≠ 0 := by
  have hw : w ≠ 0 := fun h => hre (congrArg re h)
  have hscale : w.re + w.im * (w.im / w.re) = w.normSq / w.re := by
    unfold normSq
    field_simp
  rw [hscale]
  exact div_ne_zero (fun h => hw (normSq_eq_zero.1 h)) hre

omit [MetricArith F] in
/-- The scale by the imaginary part is the sum of the squares over it. -/
theorem scale_im_ne_zero (him : w.im ≠ 0) : w.re * (w.re / w.im) + w.im ≠ 0 := by
  have hw : w ≠ 0 := fun h => him (congrArg im h)
  have hscale : w.re * (w.re / w.im) + w.im = w.normSq / w.im := by
    unfold normSq
    field_simp
  rw [hscale]
  exact div_ne_zero (fun h => hw (normSq_eq_zero.1 h)) him

/-- A division that takes every divisor but zero is never asked for another one. -/
theorem quotientBy_eq_ok (hdivide : ∀ x y, y ≠ 0 → divide x y = .ok (x / y)) (z : Cartesian F)
    (hw : w ≠ 0) : quotientBy divide z w = .ok (quotient z w) := by
  rw [← quotientBy_div]
  unfold quotientBy
  by_cases him : w.im = 0
  · have hre := re_ne_zero hw him
    have hbeq : (w.im == 0) = true := (ExactArith.beq_iff _ _).2 him
    rw [if_pos hbeq, if_pos hbeq, hdivide z.im w.re hre, hdivide z.re w.re hre]
  have hbeq : ¬(w.im == 0) = true := fun h => him ((ExactArith.beq_iff _ _).1 h)
  rw [if_neg hbeq, if_neg hbeq]
  by_cases hle : RealArith.le (RealArith.abs w.im) (RealArith.abs w.re) = true
  · have hre := re_ne_zero_of_le him hle
    rw [if_pos hle, if_pos hle, hdivide w.im w.re hre]
    simp only [ok_bind, hdivide _ _ (scale_re_ne_zero hre)]
  · rw [if_neg hle, if_neg hle, hdivide w.re w.im him]
    simp only [ok_bind, hdivide _ _ (scale_im_ne_zero him)]

/-- Division by a complex number other than zero meets no divisor zero, whatever a division by zero
would do, and its result times the divisor is the dividend, part by part. -/
theorem quotientBy_exact (z : Cartesian F) (hw : w ≠ 0) :
    (∀ divide : F → F → Checked F, (∀ x y, y ≠ 0 → divide x y = .ok (x / y)) →
      quotientBy divide z w = .ok (quotient z w)) ∧
    (quotient z w).re * w.re - (quotient z w).im * w.im = z.re ∧
    (quotient z w).re * w.im + (quotient z w).im * w.re = z.im := by
  have hcancel : quotient z w * w = z := quotient_mul_cancel z hw
  constructor
  · intro divide hdivide
    exact quotientBy_eq_ok hdivide z hw
  constructor
  · exact congrArg re hcancel
  · exact congrArg im hcancel

/-- One divisor for each branch, and a division that refuses zero. -/
theorem quotientBy_exact_of_branches :
    let refusing : ℝ → ℝ → Checked ℝ := fun x y => if y = 0 then .error .overflow else .ok (x / y)
    ∀ w ∈ [(⟨1, 0⟩ : Cartesian ℝ), ⟨1, 1⟩, ⟨0, 1⟩],
      w ≠ 0 ∧ quotientBy refusing ⟨0, 1⟩ w = .ok (quotient ⟨0, 1⟩ w) ∧
        (quotient ⟨0, 1⟩ w).re * w.re - (quotient ⟨0, 1⟩ w).im * w.im = 0 ∧
        (quotient ⟨0, 1⟩ w).re * w.im + (quotient ⟨0, 1⟩ w).im * w.re = 1 := by
  intro refusing w hmem
  have hw : w ≠ 0 := by
    intro h
    subst h
    simp only [List.mem_cons, List.not_mem_nil, or_false] at hmem
    rcases hmem with h | h | h
    · exact zero_ne_one (congrArg re h)
    · exact zero_ne_one (congrArg re h)
    · exact zero_ne_one (congrArg im h)
  have hrefusing : ∀ x y : ℝ, y ≠ 0 → refusing x y = .ok (x / y) := by
    intro x y hy
    exact if_neg hy
  rcases quotientBy_exact (⟨0, 1⟩ : Cartesian ℝ) hw with ⟨hdivisors, hre, him⟩
  exact ⟨hw, hdivisors refusing hrefusing, hre, him⟩

end DenseLinear.Cartesian
