import Mathlib.LinearAlgebra.Matrix.Block
import Mathlib.LinearAlgebra.Matrix.SchurComplement
import DenseLinear.Proofs.Determinant
import DenseLinear.Proofs.QrReconstruction

/-!
# Determinants from either factorisation

The determinant that is computed from LU factors is, over real and complex numbers, also the product
of the diagonal of the triangular QR factor, with one change of sign for every reflection that is
not the identity (`determinants_agree`). The two factorisations have nothing in common but their
matrix: the sign of the one comes from its row interchanges, the sign of the other from the
reflections, each of which has the determinant minus one (`det_householder`).

A column whose tail is zero already gets the identity, which changes no sign, and a matrix without
an inverse has a zero on the diagonal of both triangular factors.
-/

namespace DenseLinear

open PagedMatrix

/-- A reflection that is not the identity has the determinant minus one. -/
theorem det_householder {K R : Type} [StarScalar K R] {m : Nat} {tau : K} {u : Nat → K}
    (hsquare : tau * ∑ l ∈ Finset.range m, star (u l) * u l = 2) :
    (householder m tau u).det = -1 := by
  have hrank : householder m tau u =
      1 + Matrix.replicateCol Unit (fun i : Fin m => u i) *
        Matrix.replicateRow Unit fun i : Fin m => -tau * star (u i) := by
    rw [← Matrix.vecMulVec_eq, householder, sub_eq_add_neg]
    refine congrArg _ (Matrix.ext fun i j => ?_)
    simp only [Matrix.neg_apply, Matrix.smul_apply, Matrix.vecMulVec_apply, smul_eq_mul]
    ring
  have hdot : (fun i : Fin m => -tau * star (u i)) ⬝ᵥ (fun i : Fin m => u i) = -2 := by
    rw [← hsquare, Finset.sum_range fun l => star (u l) * u l, dotProduct, ← neg_mul,
      Finset.mul_sum]
    exact Finset.sum_congr rfl fun i _ => mul_assoc _ _ _
  rw [hrank, Matrix.det_one_add_replicateCol_mul_replicateRow, hdot]
  norm_num

namespace Qr

variable {K R : Type} [LinearOrder R] [ExactArith R] [HermitianScalar K R] {m n k count : Nat}
  {A f : Nat → Nat → K}

/-- The number of reflections that are not the identity. -/
def properCount (taus : Array K) : Nat := taus.countP fun tau => !(tau == 0)

section Signs

variable [EuclideanArith R]

theorem det_columnReflection (hk : k < m) :
    (columnReflection m f k).det = if (Reflection.atColumn f m k).tau == 0 then 1 else -1 := by
  unfold columnReflection
  split
  · rename_i hzero
    rw [(RingScalar.beq_iff _ _).1 hzero, householder_zero, Matrix.det_one]
  · rename_i hproper
    rw [RingScalar.beq_iff] at hproper
    exact det_householder ((columnReflection_square hk).resolve_left hproper)

/-- Every step that reflects its column changes the sign of the product of the reflections. -/
theorem det_unitaryProduct_step {s : Reduction K} (hsize : s.taus.size = k) (hk : k < m)
    (hdet : (unitaryProduct m s.cells s.taus k).det = (-1) ^ properCount s.taus) :
    (unitaryProduct m (s.step m k).cells (s.step m k).taus (k + 1)).det =
      (-1) ^ properCount (s.step m k).taus := by
  have hcount : properCount (s.step m k).taus = properCount s.taus +
      if (Reflection.atColumn s.cells m k).tau == 0 then 0 else 1 := by
    unfold properCount
    rw [Reduction.step, Array.countP_push]
    cases (Reflection.atColumn s.cells m k).tau == 0 <;> rfl
  rw [unitaryProduct_step hsize hk, Matrix.det_mul, hdet, det_columnReflection hk, hcount]
  split
  · rw [mul_one, add_zero]
  · rw [pow_succ]

theorem det_unitaryProduct_run (A : Nat → Nat → K) (hcount : count ≤ m) :
    (unitaryProduct m (Reduction.run m A count).cells (Reduction.run m A count).taus count).det =
      (-1) ^ properCount (Reduction.run m A count).taus := by
  induction count with
  | zero =>
    rw [unitaryProduct_zero, Matrix.det_one]
    exact (pow_zero _).symm
  | succ count ih =>
    exact det_unitaryProduct_step (Reduction.size_taus_run m A count) hcount (ih (by omega))

end Signs

/-- A triangle has the product of its diagonal for its determinant. -/
theorem det_clearBelow (f : Nat → Nat → K) :
    (toMatrix n n (clearBelow n f)).det = ∏ i ∈ Finset.range n, f i i := by
  have hupper : (toMatrix n n (clearBelow n f)).IsUpperTriangular := fun i j hij =>
    if_pos ⟨j.isLt, hij⟩
  rw [Matrix.det_of_isUpperTriangular hupper, Finset.prod_range]
  exact Finset.prod_congr rfl fun i _ => if_neg fun h => Nat.lt_irrefl _ h.2

/-- The determinant of a square matrix from its reduction. -/
theorem det_eq_of_run [EuclideanArith R] (A : Nat → Nat → K) (n : Nat) :
    (toMatrix n n A).det = (-1) ^ properCount (Reduction.run n A n).taus *
      ∏ i ∈ Finset.range n, (Reduction.run n A n).cells i i := by
  rw [← (Reduced.run (n := n) A (Nat.le_refl n)).product, Matrix.det_mul,
    det_unitaryProduct_run A (Nat.le_refl n), det_clearBelow]

/-- In all sound surroundings the determinant of a square matrix with a single page, which is computed
from LU factors, is the product of the diagonal of its QR factor, with a change of sign for every
reflection that is not the identity. -/
theorem determinants_agree [EuclideanArith R] {a : PagedMatrix K} (ha : a.Stored)
    (hpage : a.SinglePage) (hsquare : a.cols = a.rows) {ambient : Ambient}
    (hambient : ambient.Sound) :
    ∃ (f : PackedQr K) (d : Nat → K) (after : Ambient), factor a = .ok f ∧
      (∀ i, i < a.rows → f.packed.get i i = .ok (d i)) ∧
      Runs (Lu.determinant a) ambient
        ((-1) ^ properCount f.taus * ∏ i ∈ Finset.range a.rows, d i) after := by
  have hfits := ha.fits_rows_of_singlePage hpage
  have hfactor : factor (ofCells a.shape a.kind a.rows a.cell) = .ok _ :=
    factor_ofCells_of_cols (Nat.le_refl _) ha.rows_lt hfits
  have hsteps : min a.shape.rows a.shape.cols = a.rows := Nat.min_eq_left hsquare.ge
  rw [← ha.eq_ofCells_of_singlePage hpage, hsteps] at hfactor
  obtain ⟨after, hrun⟩ := exists_runs (Lu.ends_determinant ⟨ha, hpage, hsquare⟩) hambient
  rw [det_eq_of_run] at hrun
  refine ⟨_, fun i => (Reduction.run a.rows a.cell a.rows).cells i i, after, hfactor, ?_, hrun⟩
  intro i hi
  rw [get_refreshKind, get_ofCells hi (Nat.lt_of_lt_of_eq hi hsquare.symm)]

/-- The two determinants of a matrix whose rows have to be exchanged, while the edge length of the
blocks becomes one. -/
theorem determinants_agree_leadingZero :
    Lu.leadingZero.Stored ∧ Lu.leadingZero.SinglePage ∧ Lu.leadingZero.cols = Lu.leadingZero.rows ∧
      ({ pending := [[.edge 1]] } : Ambient).Sound ∧
      ∃ (f : PackedQr ℝ) (d : Nat → ℝ) (after : Ambient), factor Lu.leadingZero = .ok f ∧
        (∀ i, i < 2 → f.packed.get i i = .ok (d i)) ∧
        Runs (Lu.determinant Lu.leadingZero) { pending := [[.edge 1]] }
          ((-1) ^ properCount f.taus * ∏ i ∈ Finset.range 2, d i) after := by
  have hpage : Lu.leadingZero.SinglePage := rfl
  have hambient : ({ pending := [[.edge 1]] } : Ambient).Sound :=
    ⟨Defaults.sound_initial, by simp [Size.limit]⟩
  exact ⟨Lu.stored_leadingZero, hpage, rfl, hambient,
    determinants_agree Lu.stored_leadingZero hpage rfl hambient⟩

end Qr

end DenseLinear
