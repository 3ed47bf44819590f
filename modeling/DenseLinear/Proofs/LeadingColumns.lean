import Mathlib.LinearAlgebra.Matrix.ToLin
import Mathlib.Order.Bounds.Defs
import DenseLinear.Proofs.Solving

/-!
# Leading columns and missing pivots

Over exact scalars the column that a factorisation reports is the first one that depends on the
columns before it: its ordinal is the least number of leading columns that are linearly dependent.
Nothing is reported where as many columns as the shorter side has are independent.

The leading columns of a matrix, with its rows in the order of the pivots, are the product of the
leading columns of the lower factor by a leading square of the upper one (`lower_mul_leading`). The
first has independent columns (`mulVec_lower_injective`), so the columns of the matrix are
independent if and only if the square is invertible, which its diagonal tells
(`independentColumns_iff`).
-/

namespace DenseLinear

namespace Lu

open PagedMatrix

/-- The first column without a pivot, counted from one, and zero if every column has one. -/
def Record.ordinal (record : Record) : Nat := record.firstNull.elim 0 (· + 1)

section Columns

variable {K R : Type} [LinearOrder R] [RealArith R] [ExactScalar K R]

/-- The first `count` columns of a matrix are linearly independent. -/
def IndependentColumns (a : PagedMatrix K) (count : Nat) : Prop :=
  LinearIndependent K fun (c : Fin count) (r : Fin a.rows) => a.cell r c

/-- The numbers of leading columns, not more than the shorter side has, that are dependent. -/
def dependentCounts (a : PagedMatrix K) : Set Nat :=
  {count | 1 ≤ count ∧ count ≤ min a.rows a.cols ∧ ¬IndependentColumns a count}

/-- What a factorisation reports tells which leading columns of the matrix are independent. -/
structure TellsDependence (a : PagedMatrix K) (record : Record) : Prop where
  /-- Nothing is reported if the columns are independent. -/
  independent : record.ordinal = 0 ↔ IndependentColumns a (min a.rows a.cols)
  /-- The first dependent column is reported. -/
  dependent : ∀ count, 1 ≤ count →
    (record.ordinal = count ↔ IsLeast (dependentCounts a) count)
  /-- A square matrix is reported to be singular if it has no inverse. -/
  singular : a.cols = a.rows →
    (record.isSingular = true ↔ ¬IsUnit (toMatrix a.rows a.rows a.cell))

variable {m n count : Nat} {A W : Nat → Nat → K} {σ : Nat → Nat}

/-- The leading columns of the lower factor and a leading square of the upper one have the leading
columns of the matrix, with its rows in order, for their product. -/
theorem lower_mul_leading (h : Accounts m n (min m n) A W σ) (hcount : count ≤ min m n) :
    toMatrix m count (lowerCells W) * toMatrix count count (upperCells W) =
      toMatrix m count fun r c => A (σ r) c := by
  refine RingScalar.toMatrix_mul_eq_iff.2 fun i j hi hj => ?_
  rw [← lower_mul_upper h hi (show j < n by omega)]
  -- below its diagonal a column of the upper factor is zero
  refine Finset.sum_subset (Finset.range_subset_range.2 hcount) fun l _ hl => ?_
  rw [Finset.mem_range, not_lt] at hl
  rw [upperCells, if_pos (by omega), mul_zero]

/-- The leading columns of the lower factor are independent: their first rows are a triangle with
ones on its diagonal. -/
theorem mulVec_lower_injective (W : Nat → Nat → K) (hcount : count ≤ m) :
    Function.Injective (toMatrix m count (lowerCells W)).mulVec := by
  have htop : Function.Injective (toMatrix count count (lowerCells W)).mulVec := by
    rw [Matrix.mulVec_injective_iff_isUnit, Matrix.isUnit_iff_isUnit_det, det_lowerCells]
    exact isUnit_one
  intro x y hxy
  refine htop (funext fun i => ?_)
  exact congrFun hxy (Fin.castLE hcount i)

theorem mulVec_upper_injective_iff (W : Nat → Nat → K) :
    Function.Injective (toMatrix count count (upperCells W)).mulVec ↔ ∀ i < count, W i i ≠ 0 := by
  rw [Matrix.mulVec_injective_iff_isUnit, Matrix.isUnit_iff_isUnit_det, det_upperCells,
    isUnit_iff_ne_zero, Finset.prod_ne_zero_iff]
  constructor
  · intro h i hi
    exact h ⟨i, hi⟩ (Finset.mem_univ _)
  · intro h i _
    exact h i i.isLt

/-- The order of the rows does not matter to the independence of columns. -/
theorem mulVec_ordered_injective_iff {τ : Equiv.Perm (Fin m)} (hτ : ∀ i, (τ i : Nat) = σ i) :
    Function.Injective (toMatrix m count fun r c => A (σ r) c).mulVec ↔
      Function.Injective (toMatrix m count A).mulVec := by
  have hrows : (toMatrix m count fun r c => A (σ r) c).mulVec =
      (fun v => v ∘ τ) ∘ (toMatrix m count A).mulVec := by
    funext x i
    simp [Matrix.mulVec, dotProduct, toMatrix, hτ]
  rw [hrows]
  exact Function.Injective.of_comp_iff τ.surjective.injective_comp_right _

variable [LawfulOrder R] {a : PagedMatrix K}

/-- Leading columns are independent if and only if the elimination of the whole matrix finds a pivot
in each of them. -/
theorem independentColumns_iff (hcount : count ≤ min a.rows a.cols) :
    IndependentColumns a count ↔ ∀ i < count, (finalStage a).cells i i ≠ 0 := by
  have hmin : min a.rows a.cols ≤ a.rows := Nat.min_le_left _ _
  obtain ⟨τ, hτ⟩ := exists_order a
  have hproduct := lower_mul_leading (accounts_finalStage a) hcount
  have hcomp : (toMatrix a.rows count fun r c => a.cell (interchanges
      (pivotsFound a.rows a.cols a.cell) (min a.rows a.cols) r) c).mulVec =
      (toMatrix a.rows count (lowerCells (finalStage a).cells)).mulVec ∘
        (toMatrix count count (upperCells (finalStage a).cells)).mulVec := by
    funext x
    rw [← hproduct, Function.comp_apply, Matrix.mulVec_mulVec]
  calc IndependentColumns a count
    _ ↔ Function.Injective (toMatrix a.rows count a.cell).mulVec :=
        Matrix.mulVec_injective_iff.symm
    _ ↔ Function.Injective (toMatrix count count (upperCells (finalStage a).cells)).mulVec := by
        rw [← mulVec_ordered_injective_iff hτ, hcomp]
        exact Function.Injective.of_comp_iff (mulVec_lower_injective _ (hcount.trans hmin)) _
    _ ↔ ∀ i < count, (finalStage a).cells i i ≠ 0 := mulVec_upper_injective_iff _

/-- The first column without a pivot is the first zero on the diagonal. -/
theorem firstNull_eq_some_iff {i : Nat} : (factored a).2.firstNull = some i ↔
    i < min a.rows a.cols ∧ (finalStage a).cells i i = 0 ∧
      ∀ j < i, (finalStage a).cells j j ≠ 0 := by
  have hfound : (factored a).2.firstNull = _ := firstNull_finalStage a
  rw [hfound, List.find?_range_eq_some]
  simp only [ExactScalar.isNull_iff, List.mem_range, Bool.not_eq_true', ← Bool.not_eq_true, ne_eq]
  tauto

theorem firstNull_eq_none_iff_diagonal : (factored a).2.firstNull = none ↔
    ∀ i < min a.rows a.cols, (finalStage a).cells i i ≠ 0 := by
  have hfound : (factored a).2.firstNull = _ := firstNull_finalStage a
  rw [hfound, List.find?_eq_none]
  simp only [ExactScalar.isNull_iff, List.mem_range, ne_eq]

theorem mem_dependentCounts_iff : count ∈ dependentCounts a ↔
    count ≤ min a.rows a.cols ∧ ∃ i < count, (finalStage a).cells i i = 0 := by
  constructor
  · rintro ⟨-, hle, hdependent⟩
    rw [independentColumns_iff hle] at hdependent
    push Not at hdependent
    exact ⟨hle, hdependent⟩
  · rintro ⟨hle, i, hi, hzero⟩
    exact ⟨by omega, hle, fun h => (independentColumns_iff hle).1 h i hi hzero⟩

/-- The first zero on the diagonal is in the last column of the least dependent ones. -/
theorem isLeast_dependentCounts_iff {c : Nat} : IsLeast (dependentCounts a) (c + 1) ↔
    c < min a.rows a.cols ∧ (finalStage a).cells c c = 0 ∧
      ∀ j < c, (finalStage a).cells j j ≠ 0 := by
  constructor
  · rintro ⟨hmem, hleast⟩
    obtain ⟨hle, i, hi, hzero⟩ := mem_dependentCounts_iff.1 hmem
    have hbefore : ∀ j < c, (finalStage a).cells j j ≠ 0 := by
      intro j hj hj'
      have h := hleast (mem_dependentCounts_iff.2
        ⟨show j + 1 ≤ min a.rows a.cols by omega, j, Nat.lt_succ_self j, hj'⟩)
      omega
    have hlast : i = c := by
      by_contra hne
      exact hbefore i (by omega) hzero
    exact ⟨hle, hlast ▸ hzero, hbefore⟩
  · rintro ⟨hlt, hzero, hbefore⟩
    refine ⟨mem_dependentCounts_iff.2 ⟨hlt, c, Nat.lt_succ_self c, hzero⟩, ?_⟩
    intro count hcount
    obtain ⟨-, i, hi, hi'⟩ := mem_dependentCounts_iff.1 hcount
    by_contra hshort
    exact hbefore i (by omega) hi'

/-- The record of a factorisation tells which columns are independent. -/
theorem tellsDependence_factored : TellsDependence a (factored a).2 where
  independent := by
    rw [independentColumns_iff (Nat.le_refl _), ← firstNull_eq_none_iff_diagonal, Record.ordinal]
    cases (factored a).2.firstNull <;> simp
  dependent := by
    intro count hcount
    obtain ⟨c, rfl⟩ : ∃ c, count = c + 1 := ⟨count - 1, by omega⟩
    rw [isLeast_dependentCounts_iff, ← firstNull_eq_some_iff, Record.ordinal]
    cases (factored a).2.firstNull <;> simp
  singular hsquare := by
    rw [← firstNull_eq_none_iff hsquare, Record.isSingular, Option.isSome_iff_ne_none]

/-- Both factorisations of a matrix with a single page report the least number of leading columns
that are dependent, and nothing if as many columns as the shorter side has are independent. They do
so under every choice of blocking parameters and in all surroundings. -/
theorem factorisations_tell_dependence (ha : a.Stored) (hpage : a.SinglePage)
    (choice : BlockingChoice) (ambient : Ambient) (hchoice : choice.Valid)
    (hambient : ambient.Sound) :
    (∃ lu record after, Runs (factorByProduct choice a) ambient (lu, record) after ∧
      TellsDependence a record) ∧
    ∃ lu record after, Runs (factorByTilesWith choice a) ambient (lu, record) after ∧
      TellsDependence a record := by
  obtain ⟨after, hproduct⟩ := exists_runs (ends_factorByProduct_exact ha hpage hchoice) hambient
  obtain ⟨after', htiles⟩ := exists_runs (ends_factorByTilesWith_exact ha hpage hchoice) hambient
  exact ⟨⟨_, _, after, hproduct, tellsDependence_factored⟩,
    ⟨_, _, after', htiles, tellsDependence_factored⟩⟩

end Columns

/-- A single column of zeros is dependent. -/
theorem isLeast_dependentCounts_pivotlessWide : IsLeast (dependentCounts pivotlessWide) 1 := by
  refine ⟨⟨Nat.le_refl 1, by decide, fun h => h.ne_zero 0 ?_⟩, fun count h => h.1⟩
  funext r
  change pivotlessWide.cell r 0 = 0
  have hr : (r : Nat) < 2 := r.isLt
  obtain hrow | hrow : (r : Nat) = 0 ∨ (r : Nat) = 1 := by omega
  · simp [hrow, pivotlessWide, cell]
  · simp [hrow, pivotlessWide, cell]

/-- A wide matrix whose first column is zero is reported with this column. -/
theorem factorisations_tell_dependence_pivotlessWide :
    pivotlessWide.Stored ∧ pivotlessWide.SinglePage ∧ (BlockingChoice.tiled 1).Valid ∧
      ({} : Ambient).Sound ∧
      (∃ lu record after, Runs (factorByProduct (.tiled 1) pivotlessWide) {} (lu, record) after ∧
        record.ordinal = 1) ∧
      ∃ lu record after, Runs (factorByTilesWith (.tiled 1) pivotlessWide) {} (lu, record) after ∧
        record.ordinal = 1 := by
  have hchoice : (BlockingChoice.tiled 1).Valid := BlockingChoice.valid_tiled (by decide) (by decide)
  obtain ⟨⟨lu, record, after, hproduct, htells⟩, lu', record', after', htiles, htells'⟩ :=
    factorisations_tell_dependence stored_pivotlessWide rfl (.tiled 1) {} hchoice
      Ambient.sound_initial
  exact ⟨stored_pivotlessWide, rfl, hchoice, Ambient.sound_initial,
    ⟨lu, record, after, hproduct,
      (htells.dependent 1 (Nat.le_refl 1)).2 isLeast_dependentCounts_pivotlessWide⟩,
    ⟨lu', record', after', htiles,
      (htells'.dependent 1 (Nat.le_refl 1)).2 isLeast_dependentCounts_pivotlessWide⟩⟩

end Lu

end DenseLinear
