import Mathlib.LinearAlgebra.Matrix.Determinant.Basic
import DenseLinear.Proofs.PivotRecords
import DenseLinear.Proofs.Solving

/-!
# Determinants

Over exact scalars the determinant that is computed from the factors of a square matrix is the sum,
over all permutations of the columns, of the signed products of entries, one from each row. This
holds in all surroundings, and of singular matrices too.

The factors account for the matrix with its rows in the order of the pivots. An interchange changes
the sign of that order exactly if it is one of two different rows, and these are the interchanges
that are counted (`sign_interchanges`). The lower factor has the determinant one and the upper one
the product of its diagonal, where a missing pivot leaves a zero.
-/

namespace DenseLinear

namespace Lu

open PagedMatrix

/-! ## The sign of the order of the rows -/

/-- The sign of the order of the rows tells whether the number of interchanges of two different rows
is even. -/
theorem sign_interchanges {m count : Nat} {pivots : Array Nat} {p : Nat → Nat}
    (hp : ∀ i < count, pivots[i]? = some (p i) ∧ p i < m) (hcount : count ≤ m)
    {σ : Equiv.Perm (Fin m)} (hσ : ∀ i, (σ i : Nat) = interchanges p count i) :
    Equiv.Perm.sign σ = (-1) ^ Nat.count (fun i => pivots[i]? ≠ some i) count := by
  induction count generalizing σ with
  | zero =>
    have hone : σ = 1 := Equiv.ext fun i => Fin.ext (hσ i)
    rw [hone, Equiv.Perm.sign_one, Nat.count_zero, pow_zero]
  | succ count ih =>
    obtain ⟨hread, hlt⟩ := hp count (Nat.lt_succ_self count)
    let i : Fin m := ⟨count, hcount⟩
    let j : Fin m := ⟨p count, hlt⟩
    -- without the last interchange, the order is that of the pivots before
    have hbefore : ∀ r, ((σ * Equiv.swap i j) r : Nat) = interchanges p count r := by
      intro r
      have hval : ((Equiv.swap i j r : Fin m) : Nat) = Equiv.swap count (p count) r := by
        simp only [Equiv.swap_apply_def, Fin.ext_iff, i, j]
        split_ifs <;> rfl
      rw [Equiv.Perm.mul_apply, hσ, interchanges, Equiv.Perm.mul_apply, hval, Equiv.swap_apply_self]
    have hlast : Equiv.Perm.sign σ =
        Equiv.Perm.sign (σ * Equiv.swap i j) * Equiv.Perm.sign (Equiv.swap i j) := by
      rw [← Equiv.Perm.sign_mul, Equiv.mul_swap_mul_self]
    rw [hlast, ih (fun i hi => hp i (by omega)) (by omega) hbefore, Equiv.Perm.sign_swap',
      Nat.count_succ, hread]
    -- an interchange of a row with itself is not counted
    rcases eq_or_ne count (p count) with hsame | hother
    · rw [if_pos (Fin.ext hsame), if_neg (not_not.2 (congrArg some hsame.symm))]
      simp
    · rw [if_neg fun h => hother (congrArg Fin.val h),
        if_pos fun h => hother (Option.some.inj h).symm, pow_succ]

section Determinants

variable {K R : Type} [LinearOrder R] [RealArith R] [ExactScalar K R]

/-- The determinant is the product of the diagonal of the factors, with the sign of the order of
their rows. -/
theorem det_eq_of_accounts {n : Nat} {A W : Nat → Nat → K} {σ : Nat → Nat} {τ : Equiv.Perm (Fin n)}
    (h : Accounts n n n A W σ) (hτ : ∀ i, (τ i : Nat) = σ i) :
    (toMatrix n n A).det = ((Equiv.Perm.sign τ : ℤ) : K) * ∏ i : Fin n, W i i := by
  have hfactors := congrArg Matrix.det (lower_mul_upper_eq_submatrix h hτ)
  rw [Matrix.det_mul, det_lowerCells, det_upperCells, one_mul, Matrix.det_permute] at hfactors
  have hsquare : (((Equiv.Perm.sign τ : ℤ) : K)) * ((Equiv.Perm.sign τ : ℤ) : K) = 1 := by
    rw [← Int.cast_mul, ← Units.val_mul, Int.units_mul_self, Units.val_one, Int.cast_one]
  rw [hfactors, ← mul_assoc, hsquare, one_mul]

/-- An odd number of interchanges changes the sign. -/
theorem signed_eq_pow_mul (swaps : Nat) (x : K) :
    (if swaps % 2 = 1 then -x else x) = (-1) ^ swaps * x := by
  rcases Nat.even_or_odd swaps with heven | hodd
  · rw [if_neg (by rw [Nat.even_iff.1 heven]; decide), heven.neg_one_pow, one_mul]
  · rw [if_pos (Nat.odd_iff.1 hodd), hodd.neg_one_pow, neg_one_mul]

variable [LawfulOrder R] {a : PagedMatrix K}

/-- The signed product of the diagonal that the elimination of a whole matrix leaves. -/
theorem signed_diagonal_eq_det (hsquare : a.cols = a.rows) :
    (if (factored a).2.swaps % 2 = 1 then -∏ i ∈ Finset.range a.rows, (finalStage a).cells i i
      else ∏ i ∈ Finset.range a.rows, (finalStage a).cells i i) =
      (toMatrix a.rows a.rows a.cell).det := by
  obtain ⟨τ, hτ⟩ := exists_order a
  have hswaps : (factored a).2.swaps = _ := (recorded_finalStage a).swaps
  have hsign : ((Equiv.Perm.sign τ : ℤ) : K) = (-1) ^ (factored a).2.swaps := by
    rw [sign_interchanges (fun _ hi => pivots_finalStage a hi) (Nat.min_le_left _ _) hτ, hswaps]
    push_cast
    rfl
  rw [Nat.min_eq_left hsquare.ge] at hτ
  rw [signed_eq_pow_mul, det_eq_of_accounts (accounts_of_square hsquare) hτ, hsign,
    Finset.prod_range]

omit [LawfulOrder R] in
/-- The entries of the diagonal are multiplied one after the other. -/
theorem multiplyDiagonal_ofCells {shape : Shape} {kind : NumericKind} {n : Nat}
    {f : Nat → Nat → K} (hcols : n ≤ shape.cols) :
    ascend 0 n 1 (fun i product => do
        return product * (← (ofCells shape kind n f).get i i)) =
      (.ok (∏ i ∈ Finset.range n, f i i) : Checked K) := by
  refine ascend_eq_ok (fun i => ∏ l ∈ Finset.range i, f l l) (Nat.zero_le n)
    (Finset.prod_range_zero _) rfl ?_
  intro i _ hi
  rw [get_ofCells hi (by omega), ok_bind, Finset.prod_range_succ]
  rfl

/-- The determinant is computed in all surroundings. -/
theorem ends_determinant (ha : Square a) :
    Ends (determinant a) (· = (toMatrix a.rows a.rows a.cell).det) := by
  unfold determinant
  refine ends_bind (ends_unobserved (requireSquare_eq_ok ha.singlePage ha.cols_eq)) fun _ _ => ?_
  refine ends_bind (ends_unrefused (ends_factorByTiles_exact ha.stored ha.singlePage)) ?_
  rintro _ rfl
  refine ends_bind (ends_checkedT (ends_eq_iff.2 (multiplyDiagonal_ofCells ha.cols_eq.ge))) ?_
  rintro _ rfl
  exact ends_pure (signed_diagonal_eq_det ha.cols_eq)

/-- In all sound surroundings the determinant of a square matrix with a single page is the sum, over
all permutations of its columns, of the signed products of its entries. -/
theorem determinant_eq_sum_perm (ha : a.Stored) (hpage : a.SinglePage) (hsquare : a.cols = a.rows)
    {ambient : Ambient} (hambient : ambient.Sound) :
    ∃ after, Runs (determinant a) ambient
      (∑ s : Equiv.Perm (Fin a.rows),
        ((Equiv.Perm.sign s : ℤ) : K) * ∏ i : Fin a.rows, a.cell i (s i)) after := by
  have hdet : (toMatrix a.rows a.rows a.cell).det = ∑ s : Equiv.Perm (Fin a.rows),
      ((Equiv.Perm.sign s : ℤ) : K) * ∏ i : Fin a.rows, a.cell i (s i) := by
    rw [← Matrix.det_transpose, Matrix.det_apply']
    rfl
  rw [← hdet]
  exact exists_runs (ends_determinant ⟨ha, hpage, hsquare⟩) hambient

end Determinants

/-- The determinant of a matrix whose rows have to be exchanged, while the edge length of the blocks
becomes one. -/
theorem determinant_eq_sum_perm_leadingZero :
    leadingZero.Stored ∧ leadingZero.SinglePage ∧ leadingZero.cols = leadingZero.rows ∧
      ({ pending := [[.edge 1]] } : Ambient).Sound ∧
      ∃ after, Runs (determinant leadingZero) { pending := [[.edge 1]] } (-1) after := by
  have hpage : leadingZero.SinglePage := rfl
  have hambient : ({ pending := [[.edge 1]] } : Ambient).Sound :=
    ⟨Defaults.sound_initial, by simp [Size.limit]⟩
  have hsum : ∑ s : Equiv.Perm (Fin leadingZero.rows), ((Equiv.Perm.sign s : ℤ) : ℝ) *
      ∏ i : Fin leadingZero.rows, leadingZero.cell i (s i) = -1 := by
    change ∑ s : Equiv.Perm (Fin 2), ((Equiv.Perm.sign s : ℤ) : ℝ) *
      ∏ i : Fin 2, leadingZero.cell i (s i) = -1
    have hdet := Matrix.det_apply' (toMatrix 2 2 leadingZero.cell).transpose
    rw [Matrix.det_transpose, Matrix.det_fin_two] at hdet
    refine hdet.symm.trans ?_
    simp [toMatrix, leadingZero, cell]
  have h := determinant_eq_sum_perm stored_leadingZero hpage rfl hambient
  rw [hsum] at h
  exact ⟨stored_leadingZero, hpage, rfl, hambient, h⟩

end Lu

end DenseLinear
