import Mathlib.LinearAlgebra.Matrix.Block
import Mathlib.LinearAlgebra.Matrix.NonsingularInverse
import DenseLinear.Proofs.Accounting
import DenseLinear.Proofs.Substitution

/-!
# Solutions of linear systems

Over exact scalars, a square matrix whose factorisation meets no zero pivot has exactly one solution
for every right-hand side, and solving with its factors finds it. The factors may come from any
factorisation, in blocks of any edge length.

Forward substitution inverts the lower factor (`lower_mul_lowerColumn`) and back substitution the
upper one (`upper_mul_upperColumn`), whose diagonal has no zero; the right-hand sides are put into
the order of the rows that the factors account for. So every system has a solution
(`solves_solution`). The one for the identity is an inverse, and with an inverse no other solution
is possible (`Solves.sameEntries_solution`). No zero pivot is met exactly where there is an inverse
(`firstNull_eq_none_iff`).
-/

namespace DenseLinear

namespace Lu

open PagedMatrix

/-! ## Triangles -/

section Triangles

variable {K R : Type} [FieldScalar K R]

/-- Products that are taken off one by one take off their sum, also where those with a factor zero
are skipped. -/
theorem takeOffSkipping_eq_sum (x y : Nat → K) {start stop : Nat} (h : start ≤ stop) (acc : K) :
    takeOffSkipping x y start stop acc = acc - ∑ l ∈ Finset.Ico start stop, x l * y l := by
  induction stop, h using Nat.le_induction with
  | base => simp [takeOffSkipping_self]
  | succ stop h ih =>
    rw [takeOffSkipping_succ x y h, ih, Finset.sum_Ico_succ_top h, ← sub_sub]
    split
    · rename_i hzero
      rw [(RingScalar.beq_iff _ _).1 hzero, zero_mul, sub_zero]
    · rfl

/-- Forward substitution solves a system with the lower factor. -/
theorem lower_mul_lowerColumn (W : Nat → Nat → K) (b : Nat → K) {n r : Nat} (hr : r < n) :
    ∑ l ∈ Finset.range n, lowerCells W r l * lowerColumn W b n l = b r := by
  have hafter : ∀ l ∈ Finset.range n, l ∉ Finset.range (r + 1) →
      lowerCells W r l * lowerColumn W b n l = 0 := by
    intro l _ hl
    rw [Finset.mem_range] at hl
    rw [lowerCells, if_neg (by omega), if_neg (by omega), zero_mul]
  have hbefore : ∑ l ∈ Finset.range r, lowerCells W r l * lowerColumn W b n l =
      ∑ l ∈ Finset.Ico 0 r, W r l * lowerColumn W b n l := by
    rw [← Finset.range_eq_Ico]
    refine Finset.sum_congr rfl fun l hl => ?_
    rw [lowerCells, if_pos (Finset.mem_range.1 hl)]
  have hdiagonal : lowerCells W r r = 1 := by
    rw [lowerCells, if_neg (Nat.lt_irrefl r), if_pos rfl]
  rw [← Finset.sum_subset (Finset.range_subset_range.2 hr) hafter, Finset.sum_range_succ, hbefore,
    hdiagonal, one_mul]
  -- the row of the solution has lost exactly these products
  rw [lowerColumn_of_lt W b hr, takeOffSkipping_eq_sum _ _ (Nat.zero_le r), add_sub_cancel]

/-- Back substitution solves a system with the upper factor, if its diagonal has no zero. -/
theorem upper_mul_upperColumn (W : Nat → Nat → K) (y : Nat → K) {n r : Nat} (hr : r < n)
    (hpivot : W r r ≠ 0) :
    ∑ l ∈ Finset.range n, upperCells W r l * upperColumn W n y n l = y r := by
  have hbefore : ∀ l ∈ Finset.range n, l ∉ Finset.Ico r n →
      upperCells W r l * upperColumn W n y n l = 0 := by
    intro l hl hl'
    rw [Finset.mem_range] at hl
    rw [Finset.mem_Ico] at hl'
    rw [upperCells, if_pos (by omega), zero_mul]
  have hafter : ∑ l ∈ Finset.Ico r n, upperCells W r l * upperColumn W n y n l =
      ∑ l ∈ Finset.Ico r n, W r l * upperColumn W n y n l := by
    refine Finset.sum_congr rfl fun l hl => ?_
    rw [Finset.mem_Ico] at hl
    rw [upperCells, if_neg (by omega)]
  have hsubset : Finset.Ico r n ⊆ Finset.range n := fun l hl =>
    Finset.mem_range.2 (Finset.mem_Ico.1 hl).2
  rw [← Finset.sum_subset hsubset hbefore, hafter, Finset.sum_eq_sum_Ico_succ_bot hr]
  -- the row of the solution has lost exactly the products after the first one
  rw [upperColumn_of_le W y (Nat.le_refl n) (by omega) hr, mul_comm,
    FieldScalar.quotient_mul_cancel _ hpivot, takeOffSkipping_eq_sum _ _ hr, sub_add_cancel]

/-- The lower factor has the determinant one. -/
theorem det_lowerCells (n : Nat) (W : Nat → Nat → K) :
    (toMatrix n n (lowerCells W)).det = 1 := by
  have htriangular : (toMatrix n n (lowerCells W)).IsLowerTriangular := by
    intro r c hlt
    have hlt : (r : Nat) < c := hlt
    simp only [toMatrix, Matrix.of_apply, lowerCells]
    rw [if_neg (by omega), if_neg (by omega)]
  rw [Matrix.det_of_isLowerTriangular _ htriangular]
  refine Finset.prod_eq_one fun i _ => ?_
  simp [toMatrix, lowerCells]

/-- The determinant of the upper factor is the product of its diagonal. -/
theorem det_upperCells (n : Nat) (W : Nat → Nat → K) :
    (toMatrix n n (upperCells W)).det = ∏ i : Fin n, W i i := by
  have htriangular : (toMatrix n n (upperCells W)).IsUpperTriangular := fun r c hlt => if_pos hlt
  rw [Matrix.det_of_isUpperTriangular htriangular]
  refine Finset.prod_congr rfl fun i _ => ?_
  simp [toMatrix, upperCells]

end Triangles

/-! ## Solutions -/

section Systems

variable {K R : Type} [LinearOrder R] [RealArith R] [ExactScalar K R]

/-- The product of the triangles is the matrix with its rows in the order of the pivots. -/
theorem lower_mul_upper_eq_submatrix {n : Nat} {A W : Nat → Nat → K} {σ : Nat → Nat}
    {τ : Equiv.Perm (Fin n)} (h : Accounts n n n A W σ) (hτ : ∀ i, (τ i : Nat) = σ i) :
    toMatrix n n (lowerCells W) * toMatrix n n (upperCells W) =
      (toMatrix n n A).submatrix τ id := by
  have hall : Accounts n n (min n n) A W σ := by rwa [Nat.min_self]
  have hcells : toMatrix n n (lowerCells W) * toMatrix n n (upperCells W) =
      toMatrix n n fun r c => A (σ r) c := by
    refine RingScalar.toMatrix_mul_eq_iff.2 fun i j hi hj => ?_
    have hmul := lower_mul_upper hall hi hj
    rwa [Nat.min_self] at hmul
  rw [hcells]
  ext i j
  simp [toMatrix, hτ]

/-- The factors of an invertible matrix have no zero on their diagonal. -/
theorem diagonal_ne_zero {n : Nat} {A W : Nat → Nat → K} {σ : Nat → Nat} {τ : Equiv.Perm (Fin n)}
    (h : Accounts n n n A W σ) (hτ : ∀ i, (τ i : Nat) = σ i) (hunit : IsUnit (toMatrix n n A))
    {i : Nat} (hi : i < n) : W i i ≠ 0 := by
  have hproduct : IsUnit (toMatrix n n (lowerCells W) * toMatrix n n (upperCells W)) := by
    rw [lower_mul_upper_eq_submatrix h hτ]
    exact (Matrix.isUnit_submatrix_equiv τ (Equiv.refl _)).2 hunit
  have hdet : (toMatrix n n (upperCells W)).det ≠ 0 :=
    ((Matrix.isUnit_iff_isUnit_det _).1 (isUnit_of_mul_isUnit_right hproduct)).ne_zero
  rw [det_upperCells, Finset.prod_ne_zero_iff] at hdet
  exact hdet ⟨i, hi⟩ (Finset.mem_univ _)

/-- The substitutions solve the system that the factors account for. -/
theorem mul_solvedColumn {n w : Nat} {A W : Nat → Nat → K} {p : Nat → Nat}
    (h : Accounts n n n A W (interchanges p n)) (hp : ∀ i < n, p i < n)
    (hpivot : ∀ i < n, W i i ≠ 0) (f : Nat → Nat → K) :
    toMatrix n n A * toMatrix n w (fun r c => solvedColumn n W p (fun i => f i c) r) =
      toMatrix n w f := by
  obtain ⟨σ, hσ⟩ := exists_perm hp (Nat.le_refl n)
  have hfactors := lower_mul_upper_eq_submatrix h hσ
  have hupper : toMatrix n n (upperCells W) *
      toMatrix n w (fun r c => solvedColumn n W p (fun i => f i c) r) =
      toMatrix n w fun r c => lowerColumn W (fun i => f (interchanges p n i) c) n r :=
    RingScalar.toMatrix_mul_eq_iff.2 fun i j hi _ =>
      upper_mul_upperColumn W _ hi (hpivot i hi)
  have hlower : toMatrix n n (lowerCells W) *
      toMatrix n w (fun r c => lowerColumn W (fun i => f (interchanges p n i) c) n r) =
      (toMatrix n w f).submatrix σ id := by
    have hcells : toMatrix n n (lowerCells W) *
        toMatrix n w (fun r c => lowerColumn W (fun i => f (interchanges p n i) c) n r) =
        toMatrix n w fun r c => f (interchanges p n r) c :=
      RingScalar.toMatrix_mul_eq_iff.2 fun i j hi _ => lower_mul_lowerColumn W _ hi
    rw [hcells]
    ext i j
    simp [toMatrix, hσ]
  -- both sides agree once their rows are in the order of the factors
  have hrows : (toMatrix n n A *
      toMatrix n w (fun r c => solvedColumn n W p (fun i => f i c) r)).submatrix σ id =
      (toMatrix n w f).submatrix σ id := by
    rw [Matrix.submatrix_mul _ _ σ id id Function.bijective_id, ← hfactors, Matrix.submatrix_id_id,
      Matrix.mul_assoc, hupper, hlower]
  ext i j
  have hentry := congrFun (congrFun hrows (σ.symm i)) j
  simpa using hentry

/-- A square matrix in memory, with a single page. -/
structure Square (a : PagedMatrix K) : Prop where
  /-- It is a matrix in memory. -/
  stored : a.Stored
  /-- It has a single page. -/
  singlePage : a.SinglePage
  /-- It has as many columns as rows. -/
  cols_eq : a.cols = a.rows

/-- Right-hand sides of systems with the matrix `a`. -/
structure RightSide (a b : PagedMatrix K) : Prop where
  /-- They are a matrix in memory. -/
  stored : b.Stored
  /-- It has a single page. -/
  singlePage : b.SinglePage
  /-- It has a row for each equation. -/
  rows_eq : b.rows = a.rows

/-- The matrix `x` solves `A * X = B`. -/
structure Solves (a x b : PagedMatrix K) : Prop where
  /-- The solution is a matrix in memory. -/
  stored : x.Stored
  /-- It has a single page. -/
  singlePage : x.SinglePage
  /-- The product with the matrix of the system is the right-hand side. -/
  product : ∃ c, PagedMatrix.product a x = .ok c ∧ c.SameEntries b

variable {a b x : PagedMatrix K}

theorem RightSide.height_eq (hb : RightSide a b) :
    b.height = .ok a.rows :=
  hb.rows_eq ▸ hb.stored.height_eq hb.singlePage

/-- The product of two matrices by its definition, beside the product of their cells. -/
theorem product_sameEntries_iff (ha : Square a) (hb : RightSide a b) (hx : x.Stored)
    (hpage : x.SinglePage) :
    (∃ c, PagedMatrix.product a x = .ok c ∧ c.SameEntries b) ↔
      x.rows = a.rows ∧ x.cols = b.cols ∧
        toMatrix a.rows a.rows a.cell * toMatrix a.rows b.cols x.cell =
          toMatrix a.rows b.cols b.cell := by
  have hsums : x.rows = a.rows → ∃ c, PagedMatrix.product a x = .ok c ∧ (c.SameEntries b ↔
      a.rows = b.rows ∧ x.cols = b.cols ∧ AgreeOn a.rows x.cols
        (fun i j => ∑ l ∈ Finset.range a.rows, a.cell i l * x.cell l j) b.cell) := by
    intro hinner
    have hfits := hx.fits_of_singlePage hpage
    rw [hinner] at hfits
    have h : PagedMatrix.product (ofCells a.shape a.kind a.rows a.cell)
        (ofCells x.shape x.kind x.rows x.cell) = .ok _ :=
      RingScalar.product_eq_ok (hinner.trans ha.cols_eq.symm) ha.stored.rows_lt hfits
        fun _ _ _ _ => rfl
    have hcols : a.shape.cols = a.rows := ha.cols_eq
    rw [← ha.stored.eq_ofCells_of_singlePage ha.singlePage, ← hx.eq_ofCells_of_singlePage hpage,
      refreshKind_ofCells, hcols] at h
    exact ⟨_, h, hb.stored.ofCells_sameEntries_iff hb.singlePage⟩
  constructor
  · rintro ⟨c, hc, hsame⟩
    have hinner : x.rows = a.rows := by
      have hcols := ha.cols_eq
      by_contra hne
      unfold PagedMatrix.product at hc
      rw [if_pos (by omega)] at hc
      contradiction
    obtain ⟨c', hc', hiff⟩ := hsums hinner
    rw [hc] at hc'
    cases hc'
    obtain ⟨-, hcols, hcells⟩ := hiff.1 hsame
    rw [hcols] at hcells
    exact ⟨hinner, hcols, RingScalar.toMatrix_mul_eq_iff.2 hcells⟩
  · rintro ⟨hinner, hcols, hmul⟩
    obtain ⟨c, hc, hiff⟩ := hsums hinner
    rw [hcols] at hiff
    exact ⟨c, hc, hiff.2 ⟨hb.rows_eq.symm, rfl, RingScalar.toMatrix_mul_eq_iff.1 hmul⟩⟩

theorem RightSide.stored_solution (hb : RightSide a b) : (solution a b).Stored := by
  refine hb.stored.of_shape_eq rfl ?_
  unfold solution
  rw [refreshKind_ofCells, size_ofCells, hb.stored.size_eq hb.height_eq]

variable [LawfulOrder R]

theorem accounts_of_square (hsquare : a.cols = a.rows) :
    Accounts a.rows a.rows a.rows a.cell (finalStage a).cells
      (interchanges (pivotsFound a.rows a.cols a.cell) a.rows) := by
  have h := accounts_finalStage a
  rw [Nat.min_eq_left hsquare.ge] at h
  exact ⟨fun r c hr hc => h.sum r c hr (hsquare.symm ▸ hc)⟩

/-- The elimination of a square matrix meets a pivot in every column. -/
theorem pivot_ne_zero (hsquare : a.cols = a.rows) (hnull : (factored a).2.firstNull = none)
    {i : Nat} (hi : i < a.rows) : (finalStage a).cells i i ≠ 0 := by
  have hnone := (firstNull_finalStage a).symm.trans hnull
  rw [List.find?_eq_none] at hnone
  intro hzero
  exact hnone i (List.mem_range.2 (by omega)) ((ExactScalar.isNull_iff _).2 hzero)

/-- The substitutions with the factors of a square matrix solve every system with it. -/
theorem mul_solved (hsquare : a.cols = a.rows) (hnull : (factored a).2.firstNull = none) (w : Nat)
    (f : Nat → Nat → K) :
    toMatrix a.rows a.rows a.cell * toMatrix a.rows w (fun r c => solvedColumn a.rows
      (finalStage a).cells (pivotsFound a.rows a.cols a.cell) (fun i => f i c) r) =
      toMatrix a.rows w f :=
  mul_solvedColumn (accounts_of_square hsquare) (fun _ hi => pivotsFound_lt _ hi)
    (fun _ hi => pivot_ne_zero hsquare hnull hi) f

/-- The product with the solution is the right-hand side. -/
theorem mul_solution (hsquare : a.cols = a.rows) (hnull : (factored a).2.firstNull = none)
    (b : PagedMatrix K) :
    toMatrix a.rows a.rows a.cell * toMatrix a.rows b.cols (solution a b).cell =
      toMatrix a.rows b.cols b.cell := by
  have hcells : toMatrix a.rows b.cols (solution a b).cell = toMatrix a.rows b.cols fun r c =>
      solvedColumn a.rows (finalStage a).cells (pivotsFound a.rows a.cols a.cell)
        (fun i => b.cell i c) r := by
    ext i j
    change (solution a b).cell i j = _
    unfold solution
    rw [refreshKind_ofCells, cell_ofCells i.isLt j.isLt]
    rfl
  rw [hcells, mul_solved hsquare hnull]

/-- A square matrix has a pivot in every column if and only if it has an inverse. -/
theorem firstNull_eq_none_iff (hsquare : a.cols = a.rows) :
    (factored a).2.firstNull = none ↔ IsUnit (toMatrix a.rows a.rows a.cell) := by
  constructor
  · intro hnull
    have hright := mul_solved hsquare hnull a.rows (identityCells : Nat → Nat → K)
    rw [RingScalar.toMatrix_identityCells] at hright
    exact IsUnit.of_mul_eq_one _ hright
  · intro hunit
    obtain ⟨σ, hσ⟩ := exists_perm (fun _ hi => pivotsFound_lt a.cell hi) (Nat.le_refl a.rows)
    refine (firstNull_finalStage a).trans (List.find?_eq_none.2 fun i hi hzero => ?_)
    rw [List.mem_range] at hi
    exact diagonal_ne_zero (accounts_of_square hsquare) hσ hunit (by omega)
      ((ExactScalar.isNull_iff _).1 hzero)

/-- The solution solves the system. -/
theorem solves_solution (ha : Square a) (hnull : (factored a).2.firstNull = none)
    (hb : RightSide a b) : Solves a (solution a b) b where
  stored := hb.stored_solution
  singlePage := hb.singlePage
  product := (product_sameEntries_iff ha hb hb.stored_solution hb.singlePage).2
    ⟨hb.rows_eq, rfl, mul_solution ha.cols_eq hnull b⟩

/-- There is no other solution. -/
theorem Solves.sameEntries_solution {y : PagedMatrix K} (hy : Solves a y b) (ha : Square a)
    (hnull : (factored a).2.firstNull = none) (hb : RightSide a b) :
    y.SameEntries (solution a b) := by
  obtain ⟨hrows, hcols, hmul⟩ :=
    (product_sameEntries_iff ha hb hy.stored hy.singlePage).1 hy.product
  obtain ⟨Z, hZ⟩ := ((firstNull_eq_none_iff ha.cols_eq).1 hnull).exists_left_inv
  -- the inverse takes both products to their second factors
  have hcells : toMatrix a.rows b.cols y.cell = toMatrix a.rows b.cols (solution a b).cell := by
    calc toMatrix a.rows b.cols y.cell
      _ = Z * (toMatrix a.rows a.rows a.cell * toMatrix a.rows b.cols y.cell) := by
          rw [← Matrix.mul_assoc, hZ, Matrix.one_mul]
      _ = Z * (toMatrix a.rows a.rows a.cell * toMatrix a.rows b.cols (solution a b).cell) := by
          rw [hmul, mul_solution ha.cols_eq hnull b]
      _ = toMatrix a.rows b.cols (solution a b).cell := by
          rw [← Matrix.mul_assoc, hZ, Matrix.one_mul]
  rw [hy.stored.eq_ofCells_of_singlePage hy.singlePage]
  refine (hb.stored_solution.ofCells_sameEntries_iff hb.singlePage).2
    ⟨hrows.trans hb.rows_eq.symm, hcols, fun i j hi hj => ?_⟩
  have hi' : i < a.rows := hrows ▸ hi
  have hj' : j < b.cols := hcols ▸ hj
  exact congrFun (congrFun hcells ⟨i, hi'⟩) ⟨j, hj'⟩

end Systems

/-! ## Kernels -/

section Kernels

variable {K R : Type} [LinearOrder R] [RealArith R] [LawfulOrder R] [ExactScalar K R]
  {a b : PagedMatrix K}

/-- Solving a system in all surroundings. -/
theorem ends_solve (ha : Square a) (hb : RightSide a b) : Ends (solve a b) (· = solution a b) := by
  unfold solve
  refine ends_bind (ends_unobserved (requireSquare_eq_ok ha.singlePage ha.cols_eq)) fun _ _ => ?_
  refine ends_bind (ends_unrefused (ends_factorByTiles_exact ha.stored ha.singlePage)) ?_
  rintro _ rfl
  exact ends_unobserved (solveFactored_factored ha.singlePage ha.cols_eq hb.stored hb.height_eq)

/-- In all sound surroundings the factorisation succeeds, and solving with its factors gives `x`. -/
def GivesSolution
    (factorisation : ExceptT (Interrupted (PagedMatrix K)) Ambience (PagedMatrix K × Record))
    (b x : PagedMatrix K) : Prop :=
  ∀ ambient : Ambient, ambient.Sound → ∃ lu record after,
    Runs factorisation ambient (lu, record) after ∧
      (solveFactored lu record.pivots b).run = .ok (.ok x)

omit [LawfulOrder R] in
theorem givesSolution_of_ends
    {factorisation : ExceptT (Interrupted (PagedMatrix K)) Ambience (PagedMatrix K × Record)}
    (h : Ends factorisation (· = factored a)) (ha : Square a) (hb : RightSide a b) :
    GivesSolution factorisation b (solution a b) := by
  intro ambient hambient
  obtain ⟨after, hrun⟩ := exists_runs h hambient
  exact ⟨_, _, after, hrun,
    solveFactored_factored ha.singlePage ha.cols_eq hb.stored hb.height_eq⟩

/-- The matrix `x` is the inverse of `a`: both products are the identity. -/
def IsInverse (a x : PagedMatrix K) : Prop :=
  ∃ e, identity a.rows = .ok e ∧ Solves a x e ∧ ∃ c, product x a = .ok c ∧ c.SameEntries e

/-- The solution for the identity is the inverse. -/
theorem isInverse_solution {e : PagedMatrix K} (ha : Square a)
    (hnull : (factored a).2.firstNull = none) (hone : identity a.rows = .ok e)
    (he : RightSide a e) (hcols : e.cols = a.rows) (hcells : toMatrix a.rows a.rows e.cell = 1) :
    IsInverse a (solution a e) := by
  have hx := solves_solution ha hnull he
  have hright := mul_solution ha.cols_eq hnull e
  rw [hcols, hcells] at hright
  have hrows : (solution a e).rows = a.rows := he.rows_eq
  have hsquare : Square (solution a e) := ⟨hx.stored, hx.singlePage, hcols.trans hrows.symm⟩
  have he' : RightSide (solution a e) e := ⟨he.stored, he.singlePage, he.rows_eq.trans hrows.symm⟩
  -- an inverse from the right is one from the left
  have hleft : toMatrix a.rows a.rows (solution a e).cell * toMatrix a.rows a.rows a.cell =
      toMatrix a.rows a.rows e.cell := by
    rw [hcells]
    exact mul_eq_one_comm.1 hright
  refine ⟨e, hone, hx, (product_sameEntries_iff hsquare he' ha.stored ha.singlePage).2
    ⟨hrows.symm, ha.cols_eq.trans hcols.symm, ?_⟩⟩
  rw [hrows, hcols]
  exact hleft

/-- Inverting in all surroundings. -/
theorem exists_ends_inverse (ha : Square a) (hnull : (factored a).2.firstNull = none) :
    ∃ x, IsInverse a x ∧ Ends (inverse a) (· = x) := by
  have hlimit : a.rows < Size.limit := ha.stored.rows_lt
  have hfits := ha.stored.fits_of_singlePage ha.singlePage
  rw [ha.cols_eq] at hfits
  let e : PagedMatrix K :=
    ofCells { rows := a.rows, cols := a.rows } .real a.rows identityCells
  have hone : identity a.rows = .ok e := identity_eq_ok hlimit hfits
  have he : RightSide a e := ⟨stored_ofCells hlimit hlimit hfits, rfl, rfl⟩
  have hcells : toMatrix a.rows a.rows e.cell = 1 := by
    rw [← RingScalar.toMatrix_identityCells]
    ext i j
    exact cell_ofCells i.isLt j.isLt
  refine ⟨solution a e, isInverse_solution ha hnull hone he rfl hcells, ?_⟩
  unfold inverse
  refine ends_bind (ends_unobserved (requireSquare_eq_ok ha.singlePage ha.cols_eq)) fun _ _ => ?_
  refine ends_bind (ends_checkedT (ends_eq_iff.2 hone)) ?_
  rintro _ rfl
  exact ends_solve ha he

/-- If the factorisation of a square matrix meets no zero pivot, then in all sound surroundings a
system with the matrix is solved for every right-hand side. There is no other solution, and the
factors of both factorisations give the same one, under every choice of blocking parameters. The
matrix is also inverted. -/
theorem solve_correct {ambient after : Ambient} {lu : PagedMatrix K} {record : Record}
    (ha : a.Stored) (hpage : a.SinglePage) (hsquare : a.cols = a.rows) (hambient : ambient.Sound)
    (hfactor : (factorByTiles a).run ambient = .ok ((lu, record), after))
    (hnull : record.firstNull = none) :
    (∀ b : PagedMatrix K, b.Stored → b.SinglePage → b.rows = a.rows →
      ∃ x, Solves a x b ∧ (∀ y, Solves a y b → y.SameEntries x) ∧
        (∀ ambient : Ambient, ambient.Sound → ∃ after, Runs (solve a b) ambient x after) ∧
        (∀ update, GivesSolution (factor update a) b x) ∧
        ∀ choice : BlockingChoice, choice.Valid →
          GivesSolution (factorByProduct choice a) b x ∧
          GivesSolution (factorByTilesWith choice a) b x) ∧
      ∃ x, IsInverse a x ∧
        ∀ ambient : Ambient, ambient.Sound → ∃ after, Runs (inverse a) ambient x after := by
  -- the outcome that is given is the one in all surroundings
  obtain ⟨_, _, rfl, -, hrun⟩ := ends_factorByTiles_exact ha hpage ambient hambient
  rw [hfactor] at hrun
  have hrecord : record = (factored a).2 :=
    congrArg (fun outcome : (PagedMatrix K × Record) × Ambient => outcome.1.2)
      (Except.ok.inj hrun)
  rw [hrecord] at hnull
  have hsystem : Square a := ⟨ha, hpage, hsquare⟩
  constructor
  · intro b hb hpage' hrows
    have hside : RightSide a b := ⟨hb, hpage', hrows⟩
    have hgives : ∀ {factorisation}, Ends factorisation (· = factored a) →
        GivesSolution factorisation b (solution a b) := fun h =>
      givesSolution_of_ends h hsystem hside
    exact ⟨solution a b, solves_solution hsystem hnull hside,
      fun y hy => hy.sameEntries_solution hsystem hnull hside,
      fun _ => exists_runs (ends_solve hsystem hside),
      fun update => hgives (ends_factor_exact ha hpage update),
      fun choice hchoice => ⟨hgives (ends_factorByProduct_exact ha hpage hchoice),
        hgives (ends_factorByTilesWith_exact ha hpage hchoice)⟩⟩
  · obtain ⟨x, hx, h⟩ := exists_ends_inverse hsystem hnull
    exact ⟨x, hx, fun _ => exists_runs h⟩

end Kernels

/-- A square matrix whose first row has to be exchanged. -/
def leadingZero : PagedMatrix ℝ :=
  { shape := { rows := 2, cols := 2 }, data := #[0, 1, 1, 1] }

theorem stored_leadingZero : leadingZero.Stored :=
  ⟨rfl, by decide, by decide, by decide⟩

theorem firstNull_leadingZero : (factored leadingZero).2.firstNull = none := by
  refine (firstNull_eq_none_iff (show leadingZero.cols = leadingZero.rows from rfl)).2 ?_
  rw [Matrix.isUnit_iff_isUnit_det, isUnit_iff_ne_zero]
  change (toMatrix 2 2 leadingZero.cell).det ≠ 0
  rw [Matrix.det_fin_two]
  simp [toMatrix, leadingZero, cell]

/-- The right-hand side of a system of two equations. -/
def twoSums : PagedMatrix ℝ :=
  { shape := { rows := 2, cols := 1 }, data := #[1, 0] }

/-- A system of two equations whose first one does not have the first unknown. -/
theorem solve_correct_leadingZero :
    leadingZero.Stored ∧ leadingZero.SinglePage ∧ leadingZero.cols = leadingZero.rows ∧
      ({} : Ambient).Sound ∧
      (∃ lu record after, (factorByTiles leadingZero).run {} = .ok ((lu, record), after) ∧
        record.firstNull = none) ∧
      (∃ x, Solves leadingZero x twoSums ∧ (∀ y, Solves leadingZero y twoSums → y.SameEntries x) ∧
        (∃ after, Runs (solve leadingZero twoSums) {} x after) ∧
        GivesSolution (factorByProduct (.tiled 1) leadingZero) twoSums x ∧
        GivesSolution (factorByTilesWith (.tiled 1) leadingZero) twoSums x) ∧
      ∃ x, IsInverse leadingZero x ∧ ∃ after, Runs (inverse leadingZero) {} x after := by
  have hpage : leadingZero.SinglePage := rfl
  have hsystem : twoSums.Stored := ⟨rfl, by decide, by decide, by decide⟩
  have hchoice : (BlockingChoice.tiled 1).Valid :=
    BlockingChoice.valid_tiled (by decide) (by decide)
  obtain ⟨_, after, rfl, -, hrun⟩ :=
    ends_factorByTiles_exact stored_leadingZero hpage {} Ambient.sound_initial
  obtain ⟨hsolve, inverted, hinverse, hruns⟩ := solve_correct stored_leadingZero hpage rfl
    Ambient.sound_initial hrun firstNull_leadingZero
  obtain ⟨x, hx, hunique, hsolves, -, hgives⟩ := hsolve twoSums hsystem rfl rfl
  obtain ⟨hproduct, htiles⟩ := hgives (.tiled 1) hchoice
  exact ⟨stored_leadingZero, hpage, rfl, Ambient.sound_initial,
    ⟨_, _, after, hrun, firstNull_leadingZero⟩,
    ⟨x, hx, hunique, hsolves {} Ambient.sound_initial, hproduct, htiles⟩,
    inverted, hinverse, hruns {} Ambient.sound_initial⟩

end Lu

end DenseLinear
