import DenseLinear.Proofs.QrReconstruction

/-!
# Products of full reflections

Packed reflections are multiplied from the last one back, starting from the identity, and a step
leaves the columns before its own alone (`reflectPacked_eq_ok`). That it may do so is because these
columns are still those of the identity, which the reflection meets in zeros only. The product is
therefore that of the full reflections (`unitaryFactor_eq_prod`), over every field with a
conjugation and for whatever is packed: there may be too few or too many factors, and they need not
belong to the reflections of any matrix.

The only thing that can go wrong is that memory has no room for the product.
-/

namespace DenseLinear

namespace Qr

open PagedMatrix

/-! ## Steps -/

section Steps

variable {α ρ : Type} [Scalar α ρ] {packed q : PagedMatrix α} {taus : Array α} {k : Nat}

/-- A step leaves the columns before its own alone. -/
theorem reflectPacked_eq_ok (ha : packed.Stored) (hpage : packed.HasPage)
    (hk : k < min (min taus.size packed.rows) packed.cols) (hq : q.Stored)
    (hshape : q.shape = { rows := packed.rows, cols := packed.rows }) :
    ∃ q', reflectPacked packed taus k q = .ok q' ∧ q'.shape = q.shape ∧
      ∀ r c, r < packed.rows → c < k → q'.cell r c = q.cell r c := by
  obtain ⟨height, hrows, -, hsize, -⟩ := ha.exists_height hpage
  have hrow : k < packed.shape.rows := (lt_min_iff.1 (lt_min_iff.1 hk).1).2
  have hcol : k < packed.shape.cols := (lt_min_iff.1 hk).2
  have htau : taus[k]? = some (taus.getD k 0) := getElem?_getD (by omega)
  have hheight : q.height = .ok packed.rows := by
    change q.shape.height = _
    rw [hshape]
    exact height_of_plain ha.rows_lt
  have hcells := hq.eq_ofCells hheight
  rw [hshape] at hcells
  have hstep : reflectPacked (ofCells packed.shape packed.kind height packed.cell) taus k
      (ofCells { rows := packed.rows, cols := packed.rows } q.kind packed.rows q.cell) = .ok _ :=
    applyPacked_ofCells htau hrow hrows hcol
  rw [← eq_ofCells_cell hsize, ← hcells] at hstep
  refine ⟨_, hstep, hshape.symm, fun r c hr hc => ?_⟩
  rw [cell_ofCells hr (hc.trans hrow)]
  exact if_neg (by omega)

end Steps

/-! ## Full reflections -/

section Products

variable {K R : Type} [StarScalar K R]

/-- The direction `(0, …, 0, 1, a[k + 1, k] / tau, …)` that is packed, scaled by `tau`, below the
diagonal of column `k`. -/
def fullDirection (a : PagedMatrix K) (tau : K) (k : Nat) : Fin a.rows → K :=
  fun i => if (i : Nat) < k then 0 else if (i : Nat) = k then 1 else a.cell i k / tau

/-- The reflection `1 - tau * v * star v` of all rows along a packed direction. -/
def fullReflection (a : PagedMatrix K) (tau : K) (k : Nat) : Matrix (Fin a.rows) (Fin a.rows) K :=
  1 - tau • Matrix.vecMulVec (fullDirection a tau k) (star (fullDirection a tau k))

/-- With the factor zero it is the identity, whatever is divided by zero. -/
theorem fullReflection_zero (a : PagedMatrix K) (k : Nat) : fullReflection a 0 k = 1 := by
  rw [fullReflection, zero_smul, sub_zero]

/-- A direction that is unpacked is extended by zeros and starts with one. -/
theorem direction_unpackedColumn (a : PagedMatrix K) {tau : K} (hne : tau ≠ 0) {k : Nat}
    (i : Fin a.rows) :
    direction (unpackedColumn a.cell a.rows k tau) k i = fullDirection a tau k i := by
  unfold fullDirection
  rcases Nat.lt_trichotomy i k with habove | heq | hbelow
  · rw [direction_of_lt habove, if_pos habove]
  · rw [direction_of_le heq.ge, heq, Nat.sub_self, getD_unpackedColumn_zero, if_neg (by omega),
      if_pos rfl]
  · have hi := i.isLt
    have hplace : (i : Nat) - k = (i - (k + 1)) + 1 := by omega
    have hrow : k + 1 + (i - (k + 1)) = (i : Nat) := by omega
    rw [direction_of_le (by omega), hplace, getD_unpackedColumn_succ _ (by omega), hrow,
      FieldScalar.quotient_eq _ _ hne, if_neg (by omega), if_neg (by omega)]

theorem packedReflection_eq_full (a : PagedMatrix K) (tau : K) (k : Nat) :
    packedReflection a.rows a.cell tau k = fullReflection a tau k := by
  rcases eq_or_ne tau 0 with rfl | hne
  · rw [packedReflection, householder_zero, fullReflection_zero]
  · have hdirection : (fun i : Fin a.rows =>
        direction (unpackedColumn a.cell a.rows k tau) k i) = fullDirection a tau k :=
      funext (direction_unpackedColumn a hne)
    have hstar : (fun i : Fin a.rows =>
        star (direction (unpackedColumn a.cell a.rows k tau) k i)) =
        star (fullDirection a tau k) := congrArg star hdirection
    rw [packedReflection, householder, fullReflection, hdirection, hstar]

variable [RealArith R] {a : PagedMatrix K}

/-- Packed reflections are multiplied as full reflections, the first one leftmost, although a step
leaves the columns before its own alone. Without room for the product there is none. -/
theorem unitaryFactor_eq_prod (ha : a.Stored) (hpage : a.HasPage) (taus : Array K) :
    let steps := min (min taus.size a.rows) a.cols
    (Fits K (a.rows * a.rows) → ∃ q, unitaryFactor a taus = .ok q ∧
      q.Stored ∧ q.shape = { rows := a.rows, cols := a.rows } ∧
      toMatrix a.rows a.rows q.cell =
        ((List.range steps).map fun k => fullReflection a (taus.getD k 0) k).prod) ∧
    (¬ Fits K (a.rows * a.rows) → ∃ fault, unitaryFactor a taus = .error fault) ∧
    ∀ k q, k < steps → q.Stored → q.shape = { rows := a.rows, cols := a.rows } →
      ∃ q', reflectPacked a taus k q = .ok q' ∧ q'.shape = q.shape ∧
        ∀ r c, r < a.rows → c < k → q'.cell r c = q.cell r c := by
  intro steps
  refine ⟨fun hfits => ?_, fun hfits => ?_, fun k q hk => reflectPacked_eq_ok ha hpage hk⟩
  · obtain ⟨height, hrows, -, hsize, -⟩ := ha.exists_height hpage
    have hcells := eq_ofCells_cell hsize
    obtain ⟨_, hunitary, g, rfl, hg⟩ := ends_iff.1
      (ends_unitaryFactor (f := a.cell) a.kind taus hrows ha.rows_lt hfits)
    rw [← hcells] at hunitary
    refine ⟨_, hunitary, ?_, rfl, ?_⟩
    · rw [refreshKind_ofCells]
      exact stored_ofCells ha.rows_lt ha.rows_lt hfits
    have hentries : toMatrix a.rows a.rows (ofCells { rows := a.rows, cols := a.rows } .real
        a.rows g).refreshKind.cell = toMatrix a.rows a.rows g := by
      ext i j
      exact cell_ofCells i.isLt j.isLt
    have hfull : (fun k => packedReflection a.rows a.cell (taus.getD k 0) k) =
        fun k => fullReflection a (taus.getD k 0) k :=
      funext fun k => packedReflection_eq_full a (taus.getD k 0) k
    rw [← hfull]
    exact hentries.trans hg
  · exact unitaryFactor_eq_error taus ha.rows_lt ha.fits.bytes_pos hfits

end Products

/-- Factors that no factorisation leaves, one of them zero and one too many, and a product that
memory has no room for. -/
theorem unitaryFactor_eq_prod_equalColumns :
    (equalColumns (⟨0, 1⟩ : Cartesian ℝ)).Stored ∧
      (equalColumns (⟨0, 1⟩ : Cartesian ℝ)).HasPage ∧ Fits (Cartesian ℝ) (3 * 3) ∧
      (∃ q, unitaryFactor (equalColumns (⟨0, 1⟩ : Cartesian ℝ)) #[⟨3, 2⟩, 0, 1] = .ok q ∧
        toMatrix 3 3 q.cell = fullReflection (equalColumns ⟨0, 1⟩) ⟨3, 2⟩ 0 ∧
        ∃ q', reflectPacked (equalColumns ⟨0, 1⟩) #[⟨3, 2⟩, 0, 1] 1 q = .ok q' ∧
          ∀ r, r < 3 → q'.cell r 0 = q.cell r 0) ∧
      (withoutColumns : PagedMatrix ℝ).Stored ∧ (withoutColumns : PagedMatrix ℝ).HasPage ∧
      ¬ Fits ℝ (2 ^ 40 * 2 ^ 40) ∧
      ∃ fault, unitaryFactor (withoutColumns : PagedMatrix ℝ) #[] = .error fault := by
  have hstored : (equalColumns (⟨0, 1⟩ : Cartesian ℝ)).Stored :=
    ⟨rfl, by decide, by decide, by decide⟩
  have hpage : (equalColumns (⟨0, 1⟩ : Cartesian ℝ)).HasPage := by
    intro d hd
    cases hd
  have hroom : Fits (Cartesian ℝ) (3 * 3) := ⟨by decide, by decide⟩
  have hstored' : (withoutColumns : PagedMatrix ℝ).Stored := stored_withoutColumns (by decide)
  have hpage' : (withoutColumns : PagedMatrix ℝ).HasPage := by
    intro d hd
    cases hd
  have hroom' : ¬ Fits ℝ (2 ^ 40 * 2 ^ 40) := not_fits_withoutColumns
  obtain ⟨hproduct, -, hstep⟩ := unitaryFactor_eq_prod hstored hpage #[⟨3, 2⟩, 0, 1]
  obtain ⟨q, hq, hq', hshape, hprod⟩ := hproduct hroom
  obtain ⟨q', hq'', -, hsame⟩ := hstep 1 q (by decide) hq' hshape
  refine ⟨hstored, hpage, hroom, ⟨q, hq, hprod.trans ?_, q', hq'', fun r hr =>
    hsame r 0 hr Nat.one_pos⟩, hstored', hpage', hroom',
    (unitaryFactor_eq_prod hstored' hpage' #[]).2.1 hroom'⟩
  -- the second reflection is the identity
  let reflection := fun tau k => fullReflection (equalColumns (⟨0, 1⟩ : Cartesian ℝ)) tau k
  change reflection ⟨3, 2⟩ 0 * (reflection 0 1 * 1) = reflection ⟨3, 2⟩ 0
  have hlast : reflection 0 1 = 1 := fullReflection_zero (equalColumns (⟨0, 1⟩ : Cartesian ℝ)) 1
  rw [hlast, Matrix.one_mul, Matrix.mul_one]

end Qr

end DenseLinear
