import DenseLinear.Proofs.QrReconstruction
import DenseLinear.Proofs.ReflectingRows

/-!
# Reflections from the right as reflections from the left

Over every field with a conjugation, what is done to the rows of a matrix from the right is what is
done to the columns of its conjugate transpose from the left. The share that a reflection has in a
row is the conjugate of its share in that column, if the factor is conjugated
(`rowFactor_eq_star`); so the same rows are passed over (`reflectedRows_eq_adjoint`). And the
reflection that is built for a row is that of the column, except that `alpha` is conjugated
(`Reflection.atRow_eq`).

Nothing is assumed of absolute values and square roots, for both sides take them of the same
entries.
-/

namespace DenseLinear

open PagedMatrix

section Cells

variable {K R : Type} [StarScalar K R]

namespace PagedMatrix

/-- The conjugate transpose of the cells `f`. -/
def adjointCells (f : Nat → Nat → K) : Nat → Nat → K := fun r c => Scalar.conj (f c r)

theorem adjointCells_adjointCells (f : Nat → Nat → K) : adjointCells (adjointCells f) = f := by
  funext r c
  simp only [adjointCells, StarScalar.conj_eq, star_star]

/-- The conjugate transpose exchanges the rows and the columns that are overwritten. -/
theorem adjointCells_overwrite (r0 r1 c0 c1 : Nat) (g f : Nat → Nat → K) :
    adjointCells (overwrite r0 r1 c0 c1 g f) =
      overwrite c0 c1 r0 r1 (adjointCells g) (adjointCells f) := by
  funext r c
  exact (apply_ite Scalar.conj _ _ _).trans (if_congr and_comm rfl rfl)

/-- The share in a row is the conjugate of the share in the column of the conjugate transpose. -/
theorem rowFactor_eq_star (v : Array K) (tau : K) (col : Nat) (f : Nat → Nat → K) (r : Nat) :
    rowFactor v tau col f r = star (columnFactor v (star tau) col (adjointCells f) r) := by
  rw [columnFactor_eq_dot, star_mul', star_star, star_sum]
  unfold rowFactor
  rw [RingScalar.accumulate_eq_sum, zero_add]
  refine congrArg _ (Finset.sum_congr rfl fun l _ => ?_)
  rw [adjointCells, StarScalar.conj_eq, star_mul', star_star, star_star, mul_comm]

/-- Rows are reflected from the right as the columns of the conjugate transpose from the left. -/
theorem reflectedRows_eq_adjoint (v : Array K) (tau : K) (col : Nat) (f : Nat → Nat → K) :
    reflectedRows v tau col f = adjointCells (reflected v (star tau) col (adjointCells f)) := by
  funext r c
  have hfactor := rowFactor_eq_star v tau col f r
  -- a row is passed over exactly if the column of the conjugate transpose is
  have hskip : (tau == 0 || rowFactor v tau col f r == 0) =
      (star tau == 0 || columnFactor v (star tau) col (adjointCells f) r == 0) := by
    rw [Bool.eq_iff_iff, Bool.or_eq_true, Bool.or_eq_true, RingScalar.beq_iff, RingScalar.beq_iff,
      RingScalar.beq_iff, RingScalar.beq_iff, hfactor, star_eq_zero, star_eq_zero]
  unfold reflectedRows
  rw [adjointCells, reflected, hskip]
  split
  · exact (congrFun (congrFun (adjointCells_adjointCells f) r) c).symm
  · rw [hfactor, StarScalar.conj_eq, StarScalar.conj_eq, star_sub, star_mul', adjointCells,
      StarScalar.conj_eq, star_star, mul_comm]

end PagedMatrix

/-- The reflection of a row is that of the column of the conjugate transpose, up to the conjugate of
`alpha`. -/
theorem Reflection.atRow_eq (f : Nat → Nat → K) (n k : Nat) :
    atRow f n k = { atColumn (adjointCells f) n k with
      alpha := star (atColumn (adjointCells f) n k).alpha } := by
  have hsigma : rightNormSq f n k = tailNormSq (adjointCells f) n k := by
    unfold rightNormSq tailNormSq
    rw [RingScalar.accumulate_eq_sum, RingScalar.accumulate_eq_sum]
    refine congrArg _ (Finset.sum_congr rfl fun l _ => ?_)
    rw [adjointCells, StarScalar.conj_eq, StarScalar.conj_eq, star_star, mul_comm]
  rw [atRow, hsigma, ← StarScalar.conj_eq]
  rfl

end Cells

namespace PagedMatrix

section Matrices

variable {K R : Type} [StarScalar K R] [RealArith R] {a : PagedMatrix K}

/-- Reflections of `a` from the right are reflections of `t` from the left. -/
structure MirrorsReflections (a t : PagedMatrix K) : Prop where
  /-- The rows of `a` are reflected by taking the conjugate transpose of `t` with its columns
  reflected by the conjugate factor. -/
  applied : ∀ (v : Array K) (tau : K) (row col : Nat), col + v.size ≤ a.cols →
    ∃ b s d, a.reflectRight v tau row col = .ok b ∧
      t.reflectLeft v (Scalar.conj tau) col row = .ok s ∧ s.adjoint = .ok d ∧ d.SameEntries b
  /-- The reflection of a row of `a` is that of the column of `t`, up to the conjugate of `alpha`. -/
  built : ∀ k < min a.rows a.cols, ∃ h, Reflection.ofColumn t a.cols k = .ok h ∧
    Reflection.ofRow a a.cols k = .ok { h with alpha := Scalar.conj h.alpha }

/-- Reflections from the right are those of the conjugate transpose from the left. -/
theorem adjoint_mirrors_reflections (ha : a.Stored) (hpage : a.SinglePage) :
    ∃ t, a.adjoint = .ok t ∧ MirrorsReflections a t := by
  have hfits := ha.fits_of_singlePage hpage
  have hcells := ha.eq_ofCells_of_singlePage hpage
  generalize a.kind = kind at hcells
  generalize a.cell = f at hcells
  have hadjoint : adjoint (ofCells a.shape kind a.rows f) = .ok _ :=
    adjoint_ofCells (Nat.le_refl _) ha.cols_lt (Nat.mul_comm a.rows a.cols ▸ hfits)
  rw [refreshKind_ofCells, ← hcells] at hadjoint
  refine ⟨_, hadjoint, ⟨fun v tau row col hcol => ?_, fun k hk => ?_⟩⟩
  · have hright : (ofCells a.shape kind a.rows f).reflectRows v tau row a.rows col = .ok _ :=
      reflectRows_ofCells hcol (Nat.le_refl _) ha.cols_lt ha.rows_lt
    rw [← hcells] at hright
    refine ⟨_, _, _, hright, reflectColumns_ofCells hcol,
      adjoint_ofCells (Nat.le_refl _) ha.rows_lt hfits, ?_⟩
    rw [refreshKind_ofCells]
    refine sameEntries_ofCells rfl rfl fun r c _ _ => ?_
    -- transposing takes the columns that are reflected back to rows
    change adjointCells (overwrite _ _ _ _ _ (adjointCells f)) r c = _
    rw [adjointCells_overwrite, adjointCells_adjointCells, reflectedRows_eq_adjoint,
      ← StarScalar.conj_eq, cols_ofCells, Nat.min_self]
    rfl
  · obtain ⟨hrows, hcols⟩ := lt_min_iff.1 hk
    have hroom : Fits K a.cols :=
      hfits.mono (Nat.le_mul_of_pos_left _ (Nat.zero_lt_of_lt hrows))
    have hrow : Reflection.ofRow (ofCells a.shape kind a.rows f) a.cols k = .ok _ :=
      Reflection.ofRow_ofCells hcols (Nat.le_refl _) hrows ha.cols_lt ha.rows_lt hroom
    rw [← hcells, Reflection.atRow_eq, ← StarScalar.conj_eq] at hrow
    exact ⟨_, Reflection.ofColumn_ofCells hcols (Nat.le_refl _) hrows ha.cols_lt hroom, hrow⟩

/-- A complex matrix and a reflection with a complex direction and a factor that is not real. -/
theorem adjoint_mirrors_reflections_equalColumns :
    (Qr.equalColumns (⟨0, 1⟩ : Cartesian ℝ)).Stored ∧
      (Qr.equalColumns (⟨0, 1⟩ : Cartesian ℝ)).SinglePage ∧
      ∃ t, (Qr.equalColumns (⟨0, 1⟩ : Cartesian ℝ)).adjoint = .ok t ∧
        MirrorsReflections (Qr.equalColumns ⟨0, 1⟩) t ∧
        ∃ b s d, (Qr.equalColumns ⟨0, 1⟩).reflectRight #[1, ⟨2, 3⟩] ⟨1, 1⟩ 1 0 = .ok b ∧
          t.reflectLeft #[1, ⟨2, 3⟩] ⟨1, -1⟩ 0 1 = .ok s ∧ s.adjoint = .ok d ∧
          d.SameEntries b := by
  have hstored : (Qr.equalColumns (⟨0, 1⟩ : Cartesian ℝ)).Stored :=
    ⟨rfl, by decide, by decide, by decide⟩
  obtain ⟨t, ht, hmirrors⟩ := adjoint_mirrors_reflections hstored rfl
  exact ⟨hstored, rfl, t, ht, hmirrors, hmirrors.applied #[1, ⟨2, 3⟩] ⟨1, 1⟩ 1 0 (by decide)⟩

end Matrices

end PagedMatrix

end DenseLinear
