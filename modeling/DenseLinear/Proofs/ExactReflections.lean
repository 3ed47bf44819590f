import Mathlib.Algebra.BigOperators.Field
import Mathlib.LinearAlgebra.Matrix.ConjTranspose
import Mathlib.Tactic.FieldSimp
import Mathlib.Tactic.LinearCombination
import DenseLinear.Proofs.Exact
import DenseLinear.Proofs.Reflecting

/-!
# Exact reflections

Over exact scalars a reflection does what it is built for: it takes its vector to `alpha` followed by
zeros (`Annihilates`), also where it is the identity. As a matrix (`householder`) it is its own
conjugate transpose and its own inverse, and what the kernels leave in the cells is the product by
that matrix (`reflected_eq_mul`).

A direction is extended by zeros to a vector over all rows (`direction`), so that reflections of
different columns are matrices of the same size.
-/

namespace DenseLinear

open PagedMatrix

namespace Reflection

variable {K R : Type} [LinearOrder R] [ExactArith R] [HermitianScalar K R]

/-- The reflection `h` takes the first `length` entries of `x` to `alpha` followed by zeros, and is
its own inverse. -/
structure Annihilates (h : Reflection K) (x : Nat → K) (length : Nat) : Prop where
  /-- The direction has as many entries. -/
  size : h.v.size = length
  /-- The direction begins with one. -/
  lead : h.v.getD 0 0 = 1
  /-- The factor is real. -/
  real : star h.tau = h.tau
  /-- The factor is zero, or two over the square of the direction. -/
  square : h.tau = 0 ∨
    h.tau * ∑ l ∈ Finset.range length, star (h.v.getD l 0) * h.v.getD l 0 = 2
  /-- The leading entry becomes `alpha`. -/
  leading : x 0 - h.v.getD 0 0 *
    (h.tau * ∑ l ∈ Finset.range length, star (h.v.getD l 0) * x l) = h.alpha
  /-- The other entries become zero. -/
  rest : ∀ i, 0 < i → i < length → x i - h.v.getD i 0 *
    (h.tau * ∑ l ∈ Finset.range length, star (h.v.getD l 0) * x l) = 0

/-- The phase of an entry has the absolute value one. -/
theorem phase_spec (x0 : K) :
    phase x0 * Scalar.absolute x0 = x0 ∧ star (phase x0) * phase x0 = 1 := by
  unfold phase
  rcases eq_or_ne x0 0 with rfl | hne
  · have hzero : Scalar.absolute (0 : K) = 0 := by
      rw [HermitianScalar.absolute_eq, HermitianScalar.ofReal_eq_zero_iff,
        ExactScalar.modulus_eq_zero]
    rw [if_pos ((RingScalar.beq_iff _ _).2 rfl), hzero, mul_zero, star_one, one_mul]
    exact ⟨rfl, rfl⟩
  · have hsize : Scalar.absolute x0 ≠ 0 := by
      rw [HermitianScalar.absolute_eq]
      exact fun h => hne ((ExactScalar.modulus_eq_zero x0).1 (HermitianScalar.ofReal_eq_zero_iff.1 h))
    have hsquare : star x0 * x0 = Scalar.absolute x0 * Scalar.absolute x0 := by
      rw [HermitianScalar.star_mul_self, HermitianScalar.absolute_eq]
    have hstar : star (Scalar.absolute x0) = Scalar.absolute x0 := by
      rw [HermitianScalar.absolute_eq, HermitianScalar.star_ofReal]
    rw [if_neg (by rw [RingScalar.beq_iff]; exact hne), FieldScalar.quotient_eq _ _ hsize]
    refine ⟨div_mul_cancel₀ x0 hsize, ?_⟩
    rw [star_div₀, hstar, div_mul_div_comm, hsquare, div_self (mul_ne_zero hsize hsize)]

/-- What the phase `phi` and the size `s` of a leading entry `x0`, and the norm `norm` of the whole
vector, have to do with each other, if the other entries contribute `sigma` to the square of the
norm. -/
structure Polar (x0 sigma phi s norm : K) : Prop where
  /-- An entry is its phase times its size. -/
  phase_mul : phi * s = x0
  /-- A phase has the absolute value one. -/
  unit : star phi * phi = 1
  /-- The square of the norm. -/
  square : norm * norm = s * s + sigma
  /-- The size is real. -/
  star_size : star s = s
  /-- The norm is real. -/
  star_norm : star norm = norm
  /-- The norm is not zero. -/
  norm_ne : norm ≠ 0
  /-- No digits cancel in the sum of the size and the norm. -/
  sum_ne : s + norm ≠ 0

/-- The norm of a vector is that of the absolute values of its entries. -/
theorem norm_eq_ofReal (x0 : K) {t : R} (ht : 0 ≤ t) :
    norm x0 (Scalar.ofReal t : K) =
      Scalar.ofReal (RealArith.sqrt (Scalar.modulus x0 * Scalar.modulus x0 + t)) := by
  rw [norm, HermitianScalar.absolute_eq, ← HermitianScalar.ofReal_mul,
    ← HermitianScalar.ofReal_add,
    HermitianScalar.sqrt_ofReal _ (add_nonneg (mul_self_nonneg (Scalar.modulus x0 : R)) ht)]

theorem polar [EuclideanArith R] (x0 : K) {t : R} (ht : 0 ≤ t) (hne : t ≠ 0) :
    Polar x0 (Scalar.ofReal t) (phase x0) (Scalar.absolute x0) (norm x0 (Scalar.ofReal t)) := by
  have hnorm := norm_eq_ofReal x0 ht
  have hs : (0 : R) ≤ Scalar.modulus x0 := ExactScalar.modulus_nonneg x0
  generalize hsize : (Scalar.modulus x0 : R) = s at hs hnorm
  -- the other entries do not vanish, so neither does the norm
  have hsum : (0 : R) < s * s + t :=
    add_pos_of_nonneg_of_pos (mul_self_nonneg s) (lt_of_le_of_ne ht hne.symm)
  have hroot := EuclideanArith.sqrt_mul_self _ hsum.le
  have hpos : (0 : R) < RealArith.sqrt (s * s + t) := EuclideanArith.sqrt_pos hsum
  have habsolute : Scalar.absolute x0 = Scalar.ofReal s := by
    rw [HermitianScalar.absolute_eq, hsize]
  refine ⟨(phase_spec x0).1, (phase_spec x0).2, ?_, ?_, ?_, ?_, ?_⟩
  · rw [hnorm, habsolute, ← HermitianScalar.ofReal_mul, hroot, HermitianScalar.ofReal_add,
      HermitianScalar.ofReal_mul]
  · rw [habsolute, HermitianScalar.star_ofReal]
  · rw [hnorm, HermitianScalar.star_ofReal]
  · rw [hnorm]
    exact fun h => hpos.ne' (HermitianScalar.ofReal_eq_zero_iff.1 h)
  · rw [hnorm, habsolute, ← HermitianScalar.ofReal_add]
    exact fun h => (add_pos_of_nonneg_of_pos hs hpos).ne' (HermitianScalar.ofReal_eq_zero_iff.1 h)

namespace Polar

variable {x0 sigma phi s norm : K}

theorem phi_ne (h : Polar x0 sigma phi s norm) : phi ≠ 0 := by
  rintro rfl
  exact zero_ne_one (by rw [← h.unit, mul_zero])

theorem star_phi_ne (h : Polar x0 sigma phi s norm) : star phi ≠ 0 := by
  intro h0
  exact zero_ne_one (by rw [← h.unit, h0, zero_mul])

/-- The divisor of a direction is the phase times the sum of the two norms. -/
theorem divisor (h : Polar x0 sigma phi s norm) : x0 + phi * norm = phi * (s + norm) := by
  rw [mul_add, h.phase_mul]

theorem divisor_ne (h : Polar x0 sigma phi s norm) : phi * (s + norm) ≠ 0 :=
  mul_ne_zero h.phi_ne h.sum_ne

theorem star_divisor (h : Polar x0 sigma phi s norm) :
    star (phi * (s + norm)) = star phi * (s + norm) := by
  rw [star_mul', star_add, h.star_size, h.star_norm]

/-- The factor of a reflection, for a direction whose entries after the first are those of the
vector over the divisor. -/
theorem factor (h : Polar x0 sigma phi s norm) :
    (-(phi * norm) - x0) / -(phi * norm) = (s + norm) / norm := by
  have hdifference : -(phi * norm) - x0 = -(phi * (s + norm)) := by
    rw [← h.divisor]
    ring
  rw [hdifference, neg_div_neg_eq, mul_div_mul_left _ _ h.phi_ne]

/-- The factor is two over the square of the direction. -/
theorem factor_mul_square (h : Polar x0 sigma phi s norm) :
    (s + norm) / norm * (sigma / (star phi * (s + norm) * (phi * (s + norm))) + 1) = 2 := by
  have hsigma : sigma = norm * norm - s * s := by rw [h.square, add_sub_cancel_left]
  -- in the square of the divisor the phase cancels
  have hdivisor : star phi * (s + norm) * (phi * (s + norm)) = (s + norm) * (s + norm) := by
    linear_combination (s + norm) * (s + norm) * h.unit
  have hne := h.norm_ne
  have hsum := h.sum_ne
  rw [hdivisor, hsigma]
  field_simp
  ring

/-- The share that a reflection takes off its own vector is the divisor. -/
theorem factor_mul_share (h : Polar x0 sigma phi s norm) :
    (s + norm) / norm * (sigma / (star phi * (s + norm)) + x0) = phi * (s + norm) := by
  have hsigma : sigma = norm * norm - s * s := by rw [h.square, add_sub_cancel_left]
  have hinverse : sigma / (star phi * (s + norm)) = phi * sigma / (s + norm) := by
    rw [div_eq_div_iff (mul_ne_zero h.star_phi_ne h.sum_ne) h.sum_ne]
    linear_combination -(sigma * (s + norm)) * h.unit
  have hne := h.norm_ne
  have hsum := h.sum_ne
  rw [hinverse, hsigma, ← h.phase_mul]
  field_simp
  ring

end Polar

section Proper

variable {x : Nat → K} {n : Nat} {sigma : K}

/-- The reflection of the vector `x` with `n` entries after the first. -/
def properOf (x : Nat → K) (n : Nat) (sigma : K) : Reflection K :=
  proper (x 0) sigma ((Array.range n).map fun l => x (l + 1))

theorem size_properOf : (properOf x n sigma).v.size = n + 1 := by
  simp [properOf, proper, Nat.add_comm]

theorem getD_properOf_zero : (properOf x n sigma).v.getD 0 0 = 1 := by
  have hone : 0 < (#[1] : Array K).size := Nat.one_pos
  rw [Array.getD_eq_getD_getElem?]
  unfold properOf proper
  dsimp only
  rw [Array.getElem?_append_left hone]
  rfl

variable (h : Polar (x 0) sigma (phase (x 0)) (Scalar.absolute (x 0)) (norm (x 0) sigma))

include h

theorem getD_properOf_succ {l : Nat} (hl : l < n) :
    (properOf x n sigma).v.getD (l + 1) 0 =
      x (l + 1) / (phase (x 0) * (Scalar.absolute (x 0) + norm (x 0) sigma)) := by
  have hentry : (properOf x n sigma).v[l + 1]? = some (Scalar.quotient (x (l + 1))
      (phase (x 0) * (Scalar.absolute (x 0) + norm (x 0) sigma))) := by
    unfold properOf proper
    dsimp only
    rw [Array.getElem?_append_right (Nat.le_add_left 1 l), sub_neg_eq_add, h.divisor]
    simp [hl]
  rw [Array.getD_eq_getD_getElem?, hentry, Option.getD_some,
    FieldScalar.quotient_eq _ _ h.divisor_ne]

theorem tau_properOf : (properOf x n sigma).tau =
    (Scalar.absolute (x 0) + norm (x 0) sigma) / norm (x 0) sigma := by
  have hne : -(phase (x 0) * norm (x 0) sigma) ≠ 0 := neg_ne_zero.2 (mul_ne_zero h.phi_ne h.norm_ne)
  unfold properOf proper
  dsimp only
  rw [FieldScalar.quotient_eq _ _ hne, h.factor]

/-- The product of the conjugate direction by a vector, whose first entry stands apart. -/
theorem dot_properOf (y : Nat → K) :
    ∑ l ∈ Finset.range (n + 1), star ((properOf x n sigma).v.getD l 0) * y l =
      (∑ l ∈ Finset.range n, star (x (l + 1)) * y (l + 1)) /
        (star (phase (x 0)) * (Scalar.absolute (x 0) + norm (x 0) sigma)) + y 0 := by
  rw [Finset.sum_range_succ', getD_properOf_zero, star_one, one_mul, Finset.sum_div]
  refine congrArg₂ _ (Finset.sum_congr rfl fun l hl => ?_) rfl
  rw [getD_properOf_succ h (Finset.mem_range.1 hl), star_div₀, h.star_divisor, div_mul_eq_mul_div]

/-- The square of the direction. -/
theorem square_properOf (hsigma : ∑ l ∈ Finset.range n, star (x (l + 1)) * x (l + 1) = sigma) :
    ∑ l ∈ Finset.range (n + 1),
        star ((properOf x n sigma).v.getD l 0) * (properOf x n sigma).v.getD l 0 =
      sigma / (star (phase (x 0)) * (Scalar.absolute (x 0) + norm (x 0) sigma) *
        (phase (x 0) * (Scalar.absolute (x 0) + norm (x 0) sigma))) + 1 := by
  have hentries : ∑ l ∈ Finset.range n, star (x (l + 1)) * (properOf x n sigma).v.getD (l + 1) 0 =
      sigma / (phase (x 0) * (Scalar.absolute (x 0) + norm (x 0) sigma)) := by
    rw [Finset.sum_congr rfl fun l hl => by
      rw [getD_properOf_succ h (Finset.mem_range.1 hl), ← mul_div_assoc], ← Finset.sum_div, hsigma]
  rw [dot_properOf h, getD_properOf_zero, hentries, div_div,
    mul_comm (phase (x 0) * (Scalar.absolute (x 0) + norm (x 0) sigma))]

theorem properOf_annihilates
    (hsigma : ∑ l ∈ Finset.range n, star (x (l + 1)) * x (l + 1) = sigma) :
    Annihilates (properOf x n sigma) x (n + 1) := by
  -- the divisor is the multiple of the direction that is taken off its own vector
  have hshare : (properOf x n sigma).tau *
      ∑ l ∈ Finset.range (n + 1), star ((properOf x n sigma).v.getD l 0) * x l =
      phase (x 0) * (Scalar.absolute (x 0) + norm (x 0) sigma) := by
    rw [dot_properOf h, hsigma, tau_properOf h, h.factor_mul_share]
  refine ⟨size_properOf, getD_properOf_zero, ?_, Or.inr ?_, ?_, ?_⟩
  · rw [tau_properOf h, star_div₀, star_add, h.star_size, h.star_norm]
  · rw [square_properOf h hsigma, tau_properOf h, h.factor_mul_square]
  · rw [hshare, getD_properOf_zero, one_mul, ← h.divisor]
    change x 0 - (x 0 + phase (x 0) * norm (x 0) sigma) = -(phase (x 0) * norm (x 0) sigma)
    rw [sub_add_cancel_left]
  · intro i hi hi'
    obtain ⟨l, rfl⟩ : ∃ l, i = l + 1 := ⟨i - 1, by omega⟩
    rw [hshare, getD_properOf_succ h (by omega), div_mul_cancel₀ _ h.divisor_ne, sub_self]

end Proper

/-- The squares of the entries after the first add up to zero only if these entries are zero. -/
theorem sigma_eq_zero_iff {x : Nat → K} {n : Nat} {sigma : K}
    (hsigma : ∑ l ∈ Finset.range n, star (x (l + 1)) * x (l + 1) = sigma) :
    sigma = 0 ↔ ∀ i, 0 < i → i < n + 1 → x i = 0 := by
  constructor
  · rintro rfl i hi hi'
    obtain ⟨l, rfl⟩ : ∃ l, i = l + 1 := ⟨i - 1, by omega⟩
    exact HermitianScalar.eq_zero_of_sum_star_mul_self hsigma (Finset.mem_range.2 (by omega))
  · intro hzero
    rw [← hsigma]
    refine Finset.sum_eq_zero fun l hl => ?_
    rw [hzero (l + 1) (Nat.succ_pos l) (Nat.succ_lt_succ (Finset.mem_range.1 hl)), mul_zero]

/-- Every reflection that is built takes its vector to `alpha` followed by zeros. -/
theorem built_annihilates [EuclideanArith R] (x : Nat → K) {n : Nat} {sigma : K}
    (hsigma : ∑ l ∈ Finset.range n, star (x (l + 1)) * x (l + 1) = sigma) :
    Annihilates (built (x 0) sigma ((Array.range n).map fun l => x (l + 1))) x (n + 1) := by
  have hsum := HermitianScalar.sum_star_mul_self (Finset.range n) fun l => x (l + 1)
  have hnonneg : (0 : R) ≤ ∑ l ∈ Finset.range n,
      Scalar.modulus (x (l + 1)) * Scalar.modulus (x (l + 1)) :=
    Finset.sum_nonneg fun l _ => mul_self_nonneg _
  rw [hsigma] at hsum
  unfold built
  rw [Array.size_map, Array.size_range]
  -- a vector of zeros after the first entry gets the identity
  by_cases htrivial : sigma = 0
  · have hzero := (sigma_eq_zero_iff hsigma).1 htrivial
    rw [if_pos (by rw [(RingScalar.beq_iff _ _).2 htrivial, Bool.or_true])]
    refine ⟨by simp [identityOn], ?_, star_zero K, Or.inl rfl, ?_, ?_⟩
    · simp [identityOn]
    · simp [identityOn]
    · intro i hi hi'
      simp [identityOn, hzero i hi hi']
  · have hn : n ≠ 0 := by
      rintro rfl
      exact htrivial (by rw [← hsigma, Finset.sum_range_zero])
    have ht : (∑ l ∈ Finset.range n, Scalar.modulus (x (l + 1)) * Scalar.modulus (x (l + 1)) : R) ≠
        0 := fun h => htrivial (by rw [hsum, HermitianScalar.ofReal_eq_zero_iff.2 h])
    have hpolar := polar (x 0) hnonneg ht
    rw [← hsum] at hpolar
    rw [if_neg (by simp [hn, (RingScalar.beq_eq_false_iff _ _).2 htrivial])]
    exact properOf_annihilates hpolar hsigma

/-- The reflection of a column is built for its part from the diagonal down. -/
theorem atColumn_eq_built (f : Nat → Nat → K) (m k : Nat) :
    atColumn f m k = built (f (k + 0) k) (tailNormSq f m k)
      ((Array.range (m - (k + 1))).map fun l => f (k + (l + 1)) k) := by
  have hsucc : ∀ l, k + 1 + l = k + (l + 1) := fun l => by omega
  unfold atColumn columnTail
  simp only [hsucc]
  rfl

theorem sum_column_eq_tailNormSq (f : Nat → Nat → K) (m k : Nat) :
    ∑ l ∈ Finset.range (m - (k + 1)), star (f (k + (l + 1)) k) * f (k + (l + 1)) k =
      tailNormSq f m k := by
  have hsucc : ∀ l, k + 1 + l = k + (l + 1) := fun l => by omega
  unfold tailNormSq
  rw [RingScalar.accumulate_eq_sum, zero_add]
  simp only [StarScalar.conj_eq, hsucc]

/-- The reflection of a column takes its part from the diagonal down to `alpha` followed by zeros. -/
theorem atColumn_annihilates [EuclideanArith R] (f : Nat → Nat → K) {m k : Nat} (hk : k < m) :
    Annihilates (atColumn f m k) (fun l => f (k + l) k) (m - k) := by
  have hlength : m - (k + 1) + 1 = m - k := by omega
  have h := built_annihilates (fun l => f (k + l) k) (sum_column_eq_tailNormSq f m k)
  rw [hlength] at h
  rw [atColumn_eq_built]
  exact h

end Reflection

/-! ## Reflections as matrices -/

section Matrices

variable {K R : Type} [StarScalar K R] {m n : Nat} {tau : K} {u : Nat → K}

/-- The matrix `1 - tau * u * star u`. -/
def householder (m : Nat) (tau : K) (u : Nat → K) : Matrix (Fin m) (Fin m) K :=
  1 - tau • Matrix.vecMulVec (fun i : Fin m => u i) (fun i : Fin m => star (u i))

/-- A reflection takes a multiple of its direction off every column. -/
theorem householder_mul_apply (M : Matrix (Fin m) (Fin n) K) (i : Fin m) (j : Fin n) :
    (householder m tau u * M) i j = M i j - u i * (tau * ∑ l : Fin m, star (u l) * M l j) := by
  rw [householder, Matrix.sub_mul, Matrix.one_mul, Matrix.sub_apply, Matrix.smul_mul,
    Matrix.smul_apply, Matrix.vecMulVec_mul, Matrix.vecMulVec_apply, smul_eq_mul]
  unfold Matrix.vecMul dotProduct
  ring

/-- `householder_mul_apply` for a matrix that is given by its cells. -/
theorem householder_mul_toMatrix (f : Nat → Nat → K) (i : Fin m) (j : Fin n) :
    (householder m tau u * toMatrix m n f) i j =
      f i j - u i * (tau * ∑ l ∈ Finset.range m, star (u l) * f l j) := by
  rw [householder_mul_apply, Finset.sum_range fun l => star (u l) * f l j]
  rfl

theorem householder_zero (u : Nat → K) : householder m (0 : K) u = 1 := by
  rw [householder, zero_smul, sub_zero]

/-- A reflection with a real factor is its own conjugate transpose. -/
theorem conjTranspose_householder (hreal : star tau = tau) :
    (householder m tau u).conjTranspose = householder m tau u := by
  ext i j
  simp only [householder, Matrix.conjTranspose_apply, Matrix.sub_apply, Matrix.smul_apply,
    Matrix.vecMulVec_apply, smul_eq_mul, star_sub, star_mul', star_star, hreal]
  -- what is left is the symmetry of the identity
  rw [Matrix.one_apply, Matrix.one_apply, mul_comm (u i)]
  simp only [eq_comm (a := j)]
  split <;> simp

/-- A reflection is its own inverse if its factor is two over the square of its direction. -/
theorem householder_mul_self
    (hsquare : tau = 0 ∨ tau * ∑ l ∈ Finset.range m, star (u l) * u l = 2) :
    householder m tau u * householder m tau u = 1 := by
  rcases hsquare with rfl | hsquare
  · rw [householder_zero, Matrix.one_mul]
  rw [Finset.sum_range fun l => star (u l) * u l] at hsquare
  ext i j
  have hentry : ∀ l, householder m tau u l j =
      (1 : Matrix (Fin m) (Fin m) K) l j - tau * (u l * star (u j)) := fun l => rfl
  have hshare : ∑ l : Fin m, star (u l) * householder m tau u l j =
      star (u j) - (tau * ∑ l : Fin m, star (u l) * u l) * star (u j) := by
    simp only [hentry, mul_sub, Finset.sum_sub_distrib, Matrix.one_apply, mul_ite, mul_one, mul_zero]
    rw [Finset.sum_ite_eq' Finset.univ j, if_pos (Finset.mem_univ j), Finset.mul_sum,
      Finset.sum_mul]
    refine congrArg₂ _ rfl (Finset.sum_congr rfl fun l _ => ?_)
    ring
  rw [householder_mul_apply, hshare, hsquare, hentry]
  ring

/-! ## Reflections of cells -/

/-- The direction of a reflection of the rows from `row` on, as a vector over all rows. -/
def direction (v : Array K) (row : Nat) : Nat → K :=
  fun r => if row ≤ r then v.getD (r - row) 0 else 0

theorem direction_of_lt {v : Array K} {row r : Nat} (h : r < row) : direction v row r = 0 :=
  if_neg (by omega)

theorem direction_of_le {v : Array K} {row r : Nat} (h : row ≤ r) :
    direction v row r = v.getD (r - row) 0 :=
  if_pos h

/-- Only the rows that a reflection reaches have a share in a product by its direction. -/
theorem sum_direction {v : Array K} {row : Nat} (hrow : row + v.size ≤ m) (y : Nat → K) :
    ∑ l ∈ Finset.range m, star (direction v row l) * y l =
      ∑ l ∈ Finset.range v.size, star (v.getD l 0) * y (row + l) := by
  -- outside its rows the direction is extended by zeros
  have hsubset : Finset.Ico row (row + v.size) ⊆ Finset.range m := by
    intro l hl
    rw [Finset.mem_Ico] at hl
    exact Finset.mem_range.2 (by omega)
  rw [← Finset.sum_subset hsubset, Finset.sum_Ico_eq_sum_range, Nat.add_sub_cancel_left]
  · refine Finset.sum_congr rfl fun l _ => ?_
    rw [direction_of_le (Nat.le_add_right row l), Nat.add_sub_cancel_left]
  · intro l _ hl
    have hzero : direction v row l = 0 := by
      rw [Finset.mem_Ico] at hl
      rcases Nat.lt_or_ge l row with hlt | hge
      · exact direction_of_lt hlt
      · rw [direction_of_le hge, Array.getD_eq_getD_getElem?, Array.getElem?_eq_none (by omega)]
        rfl
    rw [hzero, star_zero, zero_mul]

theorem columnFactor_eq_dot (v : Array K) (tau : K) (row : Nat) (f : Nat → Nat → K) (c : Nat) :
    columnFactor v tau row f c =
      tau * ∑ l ∈ Finset.range v.size, star (v.getD l 0) * f (row + l) c := by
  unfold columnFactor
  rw [RingScalar.accumulate_eq_sum, zero_add]
  simp only [StarScalar.conj_eq]

theorem columnFactor_eq_sum {v : Array K} {row : Nat} (hrow : row + v.size ≤ m)
    (f : Nat → Nat → K) (c : Nat) :
    columnFactor v tau row f c =
      tau * ∑ l ∈ Finset.range m, star (direction v row l) * f l c := by
  rw [sum_direction hrow fun l => f l c, columnFactor_eq_dot]

/-- Leaving out what counts as zero makes no difference. -/
theorem reflected_eq_sub (v : Array K) (tau : K) (row : Nat) (f : Nat → Nat → K) (r c : Nat) :
    reflected v tau row f r c = f r c - v.getD (r - row) 0 * columnFactor v tau row f c := by
  unfold reflected
  split
  · rename_i h
    -- the step is left out only if the multiple that it takes off is zero
    have hzero : columnFactor v tau row f c = 0 := by
      rcases Bool.or_eq_true_iff.1 h with htau | hfactor
      · unfold columnFactor
        rw [(RingScalar.beq_iff _ _).1 htau, zero_mul]
      · exact (RingScalar.beq_iff _ _).1 hfactor
    rw [hzero, mul_zero, sub_zero]
  · rfl

/-- A reflection of cells is the product by its matrix. -/
theorem reflected_eq_mul {v : Array K} {row : Nat} (hrow : row + v.size ≤ m) (f : Nat → Nat → K)
    (i : Fin m) (j : Fin n) (hi : row ≤ i) :
    reflected v tau row f i j =
      (householder m tau (direction v row) * toMatrix m n f) i j := by
  rw [reflected_eq_sub, householder_mul_toMatrix, ← columnFactor_eq_sum hrow, direction_of_le hi]

/-- Rows above a reflection stay as they are. -/
theorem householder_mul_above {v : Array K} {row : Nat} (f : Nat → Nat → K) (i : Fin m) (j : Fin n)
    (hi : i < row) : (householder m tau (direction v row) * toMatrix m n f) i j = f i j := by
  rw [householder_mul_toMatrix, direction_of_lt hi, zero_mul, sub_zero]

end Matrices

end DenseLinear
