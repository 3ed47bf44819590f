import DenseLinear.Proofs.Accounting

/-!
# Reconstruction from LU factors

Over exact scalars the unpacked factors of a matrix `A` satisfy `P * A = L * U`, also where columns
have no pivot and where the matrix is not square, and no entry of `L` exceeds one in absolute value.

The product is what the factors account for (`lower_mul_upper`). The multipliers are quotients by
the entry of the largest absolute value, or zeros where a column has no pivot; `Factoring` says both
of the elimination of the whole matrix as a single panel, before each column.

The factorisations work in place and always succeed. Unpacking makes a square matrix of the
permutation, which memory may have no room for; all outcomes are told by `Unpacks`.
-/

namespace DenseLinear

namespace Lu

open PagedMatrix

variable {K R : Type} [LinearOrder R] [ExactArith R] [ExactScalar K R]

/-- Before column `i` the cells `W` hold the factors so far of the matrix `A` with its rows in the
order `σ`. -/
structure Factoring (m n i : Nat) (A W : Nat → Nat → K) (σ : Nat → Nat) : Prop extends
    Accounts m n i A W σ where
  /-- No multiplier exceeds one in absolute value. -/
  multiplier : ∀ r l, r < m → l < i → l < r → (Scalar.modulus (W r l) : R) ≤ 1

namespace Factoring

variable {m n i : Nat} {A W : Nat → Nat → K} {σ : Nat → Nat}

theorem start (A : Nat → Nat → K) : Factoring m n 0 A A id :=
  ⟨Accounts.start A, fun _ l _ hl => absurd hl (Nat.not_lt_zero l)⟩

/-- An exchange of rows from row `i` on is an exchange in the order of the rows. -/
theorem exchanged {p : Nat} (h : Factoring m n i A W σ) (hi : i < m) (hp : i ≤ p) (hp' : p < m) :
    Factoring m n i A (exchanged i p W) (σ ∘ Equiv.swap i p) := by
  refine ⟨h.toAccounts.exchanged hi hp hp', fun r l hr hl hlr => ?_⟩
  refine h.multiplier (Equiv.swap i p r) l (swap_lt hi hp' hr) hl ?_
  -- a row above row `i` stays where it is, and all others stay below the finished columns
  rcases Nat.lt_or_ge r i with hlt | hge
  · rwa [Equiv.swap_apply_of_ne_of_ne (by omega) (by omega)]
  · exact Nat.lt_of_lt_of_le hl (le_swap hp hge)

theorem pivoted (h : Factoring m n i A W σ) (hi : i < m) :
    Factoring m n i A (Stage.pivoted m i W) (σ ∘ Equiv.swap i (pivotOf m W i)) :=
  h.exchanged hi (le_pivotOf m W i) (pivotOf_lt W hi)

/-- Column `i` brings one more multiplier to the rows below the diagonal. -/
theorem next (h : Factoring m n i A W σ) {V : Nat → Nat → K} (hV : Accounts m n (i + 1) A V σ)
    (hleft : ∀ r l, l < i → V r l = W r l)
    (hone : ∀ r, i < r → r < m → (Scalar.modulus (V r i) : R) ≤ 1) :
    Factoring m n (i + 1) A V σ := by
  refine ⟨hV, fun r l hr hl hlr => ?_⟩
  rcases Nat.lt_or_ge l i with hl' | hl'
  · rw [hleft r l hl']
    exact h.multiplier r l hr hl' hlr
  · obtain rfl : l = i := by omega
    exact hone r hlr hr

theorem of_zero (h : Factoring m n i A W σ) (hzero : ∀ r, i < r → r < m → W r i = 0) :
    Factoring m n (i + 1) A W σ := by
  refine h.next (h.toAccounts.of_zero hzero) (fun r l _ => rfl) fun r hr hr' => ?_
  rw [hzero r hr hr', (ExactScalar.modulus_eq_zero (0 : K)).2 rfl]
  exact zero_le_one

/-- The elimination of a column by the entry of the largest absolute value. -/
theorem eliminated [MultiplicativeModulus K] (h : Factoring m n i A W σ) (hpivot : W i i ≠ 0)
    (hlargest : ∀ r, i ≤ r → r < m → (Scalar.modulus (W r i) : R) ≤ Scalar.modulus (W i i)) :
    Factoring m n (i + 1) A (eliminated m n i W) σ := by
  refine h.next (h.toAccounts.eliminated hpivot) (fun r l hl => eliminated_of_lt W hl)
    fun r hr hr' => ?_
  rw [eliminated_self W hr hr']
  exact ExactScalar.modulus_quotient_le_one hpivot (hlargest r (by omega) hr')

end Factoring

/-! ## Runs -/

section Runs

variable [MultiplicativeModulus K] {m n i : Nat} {A : Nat → Nat → K} {σ : Nat → Nat}

theorem Factoring.step {s : Stage K} (h : Factoring m n i A s.cells σ) (hm : i < m) :
    Factoring m n (i + 1) A (s.step m n i).cells (σ ∘ Equiv.swap i (pivotOf m s.cells i)) := by
  have hcells := h.pivoted hm
  unfold Stage.step
  dsimp only
  -- a null pivot means a column of zeros, so both branches are a next column
  split
  · rename_i hnull
    exact hcells.of_zero fun r hr hr' => pivoted_eq_zero hnull (by omega) hr'
  · rename_i hpivot
    exact hcells.eliminated (fun h0 => hpivot ((ExactScalar.isNull_iff _).2 h0))
      fun r hr hr' => modulus_le_pivot s.cells hr hr'

theorem Factoring.run (A : Nat → Nat → K) {count : Nat} (hcount : count ≤ m) :
    Factoring m n count A ((Stage.initial m n A).run m n 0 count).cells
      (interchanges (pivotsFound m n A) count) := by
  induction count with
  | zero => exact Factoring.start A
  | succ count ih =>
    have hstep := (ih (by omega)).step (by omega)
    rw [Stage.run, Nat.zero_add]
    exact hstep

end Runs

/-! ## Unpacked factors -/

/-- The factors `F` reconstruct the matrix `a`: `P * A = L * U` with a permutation `P`, an upper
trapezoidal `U` and a lower trapezoidal `L` with ones on its diagonal and no entry above one in
absolute value. -/
structure Reconstruct (F : Factors K) (a : PagedMatrix K) : Prop where
  /-- The product of the triangular factors is the matrix with its rows in order. -/
  product : ∃ c, PagedMatrix.product F.permutation a = .ok c ∧
    PagedMatrix.product F.lower F.upper = .ok c
  /-- The permutation is square. -/
  shape_permutation : F.permutation.shape = { rows := a.rows, cols := a.rows }
  /-- The permutation has a single one in each row and in each column, and zeros elsewhere. -/
  permutation : ∃ σ : Equiv.Perm (Fin a.rows), ∀ i j : Fin a.rows,
    F.permutation.get i j = .ok (if j = σ i then 1 else 0)
  /-- The upper factor has as many columns as the matrix. -/
  shape_upper : F.upper.shape = { rows := min a.rows a.cols, cols := a.cols }
  /-- The upper factor is zero below its diagonal. -/
  upper : ∀ i j, i < min a.rows a.cols → j < a.cols → j < i → F.upper.get i j = .ok 0
  /-- The lower factor has as many rows as the matrix. -/
  shape_lower : F.lower.shape = { rows := a.rows, cols := min a.rows a.cols }
  /-- The lower factor has ones on its diagonal. -/
  lower_diagonal : ∀ i, i < min a.rows a.cols → F.lower.get i i = .ok 1
  /-- The lower factor is zero above its diagonal. -/
  lower : ∀ i j, i < a.rows → j < min a.rows a.cols → i < j → F.lower.get i j = .ok 0
  /-- No entry of the lower factor exceeds one in absolute value. -/
  lower_le_one : ∀ i j, i < a.rows → j < min a.rows a.cols →
    ∃ x, F.lower.get i j = .ok x ∧ (Scalar.modulus x : R) ≤ 1

section Unpacked

variable [MultiplicativeModulus K] {a : PagedMatrix K}

/-- The triangles of the cells of a complete factoring reconstruct the matrix. -/
theorem reconstruct_of_factoring {W : Nat → Nat → K} {τ : Nat → Nat} {σ : Equiv.Perm (Fin a.rows)}
    (ha : a.Stored) (hpage : a.SinglePage)
    (h : Factoring a.rows a.cols (min a.rows a.cols) a.cell W τ)
    (hσ : ∀ i : Fin a.rows, (σ i : Nat) = τ i) :
    Reconstruct (K := K)
      { lower := (ofCells { rows := a.rows, cols := min a.rows a.cols } .real a.rows
          (lowerCells W)).refreshKind
        upper := (ofCells { rows := min a.rows a.cols, cols := a.cols } .real
          (min a.rows a.cols) (upperCells W)).refreshKind
        permutation := ofCells { rows := a.rows, cols := a.rows } .real a.rows
          (permutationCells τ) } a := by
  have hrows : a.rows < Size.limit := ha.rows_lt
  have hfits := ha.fits_of_singlePage hpage
  have hmin : min a.rows a.cols ≤ a.cols := Nat.min_le_right _ _
  have hmin' : min a.rows a.cols ≤ a.rows := Nat.min_le_left _ _
  have hτ : ∀ r < a.rows, τ r < a.rows := fun r hr => hσ ⟨r, hr⟩ ▸ (σ ⟨r, hr⟩).isLt
  refine ⟨⟨(ofCells { rows := a.rows, cols := a.cols } .real a.rows
    fun r c => a.cell (τ r) c).refreshKind, ?_, ?_⟩, rfl, ⟨σ, get_permutationCells hσ⟩, rfl, ?_,
    rfl, ?_, ?_, ?_⟩
  · have hproduct : product (ofCells { rows := a.rows, cols := a.rows } .real a.rows
        (permutationCells τ)) (ofCells a.shape a.kind a.rows a.cell) = .ok (ofCells
        { rows := a.rows, cols := a.cols } .real a.rows fun r c => a.cell (τ r) c).refreshKind :=
      RingScalar.product_eq_ok rfl hrows hfits fun r c hr _ => permutation_mul hτ hr
    rwa [← ha.eq_ofCells_of_singlePage hpage] at hproduct
  · rw [refreshKind_ofCells, refreshKind_ofCells]
    exact RingScalar.product_eq_ok rfl hrows hfits fun r c hr hc => lower_mul_upper h.toAccounts hr hc
  · intro i j hi hj hlt
    dsimp only
    rw [get_refreshKind, get_ofCells hi (by dsimp only; omega), upperCells, if_pos hlt]
  · intro i hi
    dsimp only
    rw [get_refreshKind, get_ofCells (by omega) hi, lowerCells, if_neg (Nat.lt_irrefl i), if_pos rfl]
  · intro i j hi hj hlt
    dsimp only
    rw [get_refreshKind, get_ofCells hi hj, lowerCells, if_neg (by omega), if_neg (by omega)]
  · intro i j hi hj
    refine ⟨lowerCells W i j, get_ofCells hi hj, ?_⟩
    unfold lowerCells
    -- below the diagonal there are multipliers, and otherwise ones and zeros
    rcases Nat.lt_trichotomy j i with hlt | rfl | hgt
    · rw [if_pos hlt]
      exact h.multiplier i j hi hj hlt
    · rw [if_neg (Nat.lt_irrefl j), if_pos rfl, ExactScalar.modulus_one]
    · rw [if_neg (by omega), if_neg (by omega), (ExactScalar.modulus_eq_zero (0 : K)).2 rfl]
      exact zero_le_one

/-- The packed factors `lu` with the given pivots are those of the matrix `a`. They are unpacked if
memory has room for the matrix of the permutation. -/
structure Unpacks (a lu : PagedMatrix K) (pivots : Array Nat) : Prop where
  /-- The packed triangles multiply to the matrix with its rows in the order of the pivots. -/
  product : ∃ σ : Equiv.Perm (Fin a.rows),
    (∀ i, (σ i : Nat) = interchanges (fun k => pivots.getD k 0) pivots.size i) ∧
    ∀ (i : Fin a.rows) (j : Nat), j < a.cols → ∑ l ∈ Finset.range (min a.rows a.cols),
      lowerCells lu.cell i l * upperCells lu.cell l j = a.cell (σ i) j
  /-- No packed multiplier exceeds one in absolute value. -/
  multiplier : ∀ i l, i < a.rows → l < min a.rows a.cols → l < i →
    (Scalar.modulus (lu.cell i l) : R) ≤ 1
  /-- With room for all factors, they reconstruct the matrix. -/
  unpacked : Fits K (a.rows * a.rows) → ∃ F, unpack lu pivots = .ok F ∧ Reconstruct F a
  /-- Without room for the permutation there are no factors. -/
  refused : ¬ Fits K (a.rows * a.rows) → ∃ fault, unpack lu pivots = .error fault

/-- The factors that the elimination of a whole matrix leaves, unpacked. -/
theorem unpacks_factored (ha : a.Stored) (hpage : a.SinglePage) :
    Unpacks a (factored a).1 (factored a).2.pivots := by
  have hmin : min a.rows a.cols ≤ a.rows := Nat.min_le_left _ _
  have hfits : Fits K (a.rows * a.cols) := ha.fits_of_singlePage hpage
  have hfactoring := Factoring.run (n := a.cols) a.cell hmin
  have hsize := size_pivots_finalStage a
  have hpivots : ∀ i < (finalStage a).pivots.size,
      (finalStage a).pivots[i]? = some (pivotsFound a.rows a.cols a.cell i) ∧
        pivotsFound a.rows a.cols a.cell i < a.rows := fun i hi => pivots_finalStage a (hsize ▸ hi)
  obtain ⟨σ, hσ⟩ := exists_order a
  unfold factored
  rw [refreshKind_ofCells]
  refine ⟨⟨σ, fun i => ?_, fun i j hj => ?_⟩, fun i l hi hl hli => ?_, fun hroom => ?_,
    fun hroom => unpack_eq_error _ (Nat.le_refl _) ha.rows_lt hfits hroom⟩
  · rw [hσ, ← hsize]
    refine congrArg (fun order : Equiv.Perm Nat => order i) (interchanges_congr fun k hk => ?_)
    rw [Array.getD_eq_getD_getElem?, (hpivots k hk).1, Option.getD_some]
  · rw [lower_mul_upper_congr (fun r c hr hc => cell_ofCells hr hc) i.isLt hj, hσ]
    exact lower_mul_upper hfactoring.toAccounts i.isLt hj
  · rw [cell_ofCells hi (hl.trans_le (Nat.min_le_right _ _))]
    exact hfactoring.multiplier i l hi hl hli
  · refine ⟨_, unpack_ofCells (Nat.le_refl _) ha.rows_lt hfits hroom hpivots
      (hsize.trans_le hmin), ?_⟩
    rw [hsize]
    exact reconstruct_of_factoring ha hpage hfactoring hσ

/-- Both factorisations of a matrix with a single page, under every choice of blocking parameters and
in all surroundings, leave factors that reconstruct it: `P * A = L * U`, whether or not every column
has a pivot. Only the matrix of the permutation may be too large for memory, and then there are
packed factors, but they are not unpacked. -/
theorem factorisations_reconstruct (ha : a.Stored) (hpage : a.SinglePage) (choice : BlockingChoice)
    (ambient : Ambient) (hchoice : choice.Valid) (hambient : ambient.Sound) :
    (∃ lu record ambient', Runs (factorByProduct choice a) ambient (lu, record) ambient' ∧
      Unpacks a lu record.pivots) ∧
    ∃ lu record ambient', Runs (factorByTilesWith choice a) ambient (lu, record) ambient' ∧
      Unpacks a lu record.pivots := by
  have hunpacks := unpacks_factored ha hpage
  obtain ⟨_, after, rfl, -, hproduct⟩ :=
    ends_iff_runs.1 (ends_factorByProduct_exact ha hpage hchoice) ambient hambient
  obtain ⟨_, after', rfl, -, htiles⟩ :=
    ends_iff_runs.1 (ends_factorByTilesWith_exact ha hpage hchoice) ambient hambient
  exact ⟨⟨_, _, after, hproduct, hunpacks⟩, ⟨_, _, after', htiles, hunpacks⟩⟩

end Unpacked

/-- The factors of a wide matrix whose first column has no pivot, found in blocks of one column, and
those of a matrix with so many rows that they are not unpacked. -/
theorem factorisations_reconstruct_pivotlessWide :
    (pivotlessWide.Stored ∧ pivotlessWide.SinglePage ∧ Fits ℝ (2 * 2) ∧
      (BlockingChoice.tiled 1).Valid ∧ ({} : Ambient).Sound ∧
      (∃ lu record ambient' F,
        Runs (factorByProduct (.tiled 1) pivotlessWide) {} (lu, record) ambient' ∧
        unpack lu record.pivots = .ok F ∧ Reconstruct F pivotlessWide) ∧
      ∃ lu record ambient' F,
        Runs (factorByTilesWith (.tiled 1) pivotlessWide) {} (lu, record) ambient' ∧
        unpack lu record.pivots = .ok F ∧ Reconstruct F pivotlessWide) ∧
    (withoutColumns : PagedMatrix ℝ).Stored ∧ (withoutColumns : PagedMatrix ℝ).SinglePage ∧
      ¬ Fits ℝ (2 ^ 40 * 2 ^ 40) ∧
      ∃ lu record ambient' fault,
        Runs (factorByProduct (.tiled 1) (withoutColumns : PagedMatrix ℝ)) {} (lu, record) ambient' ∧
        unpack lu record.pivots = .error fault := by
  have hroom : Fits ℝ (2 * 2) := ⟨by decide, by decide⟩
  have hchoice : (BlockingChoice.tiled 1).Valid := BlockingChoice.valid_tiled (by decide) (by decide)
  have hstored : (withoutColumns : PagedMatrix ℝ).Stored := stored_withoutColumns (by decide)
  have hlarge : ¬ Fits ℝ (2 ^ 40 * 2 ^ 40) := not_fits_withoutColumns
  obtain ⟨⟨lu, record, after, hrun, hunpacks⟩, lu', record', after', hrun', hunpacks'⟩ :=
    factorisations_reconstruct stored_pivotlessWide rfl (.tiled 1) {} hchoice Ambient.sound_initial
  obtain ⟨F, hF, hreconstruct⟩ := hunpacks.unpacked hroom
  obtain ⟨F', hF', hreconstruct'⟩ := hunpacks'.unpacked hroom
  obtain ⟨⟨lu'', record'', after'', hrun'', hunpacks''⟩, -⟩ :=
    factorisations_reconstruct hstored rfl (.tiled 1) {} hchoice Ambient.sound_initial
  obtain ⟨fault, hfault⟩ := hunpacks''.refused hlarge
  exact ⟨⟨stored_pivotlessWide, rfl, hroom, hchoice, Ambient.sound_initial,
      ⟨lu, record, after, F, hrun, hF, hreconstruct⟩,
      lu', record', after', F', hrun', hF', hreconstruct'⟩,
    hstored, rfl, hlarge, lu'', record'', after'', fault, hrun'', hfault⟩

end Lu

end DenseLinear
