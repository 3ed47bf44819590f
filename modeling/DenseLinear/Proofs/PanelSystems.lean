import Mathlib.Data.Matrix.Mul
import DenseLinear.Proofs.BlockAccess
import DenseLinear.Proofs.ExactReals
import DenseLinear.Proofs.PanelFactorisation
import DenseLinear.Proofs.PanelSubstitution

/-!
# Triangular systems on a panel

On a panel the right-hand sides stand to the right of the square block that holds the triangle, and
the solution replaces them row by row. Each row reads rows of the solution that are finished: those
before it in forward substitution, those after it in back substitution.

A column of a panel at `(k, k)` goes through the states of the same column with the block by itself
(`forwardColumn_add`, `backwardColumn_add`), so wherever the panel stands, the laws of substitution
with packed factors apply. Over exact scalars the solution satisfies its system, for the unit lower
triangle always, and for the upper one where its diagonal has no zero (`triangular_systems_solved`).
No other cell changes, also where the diagonal has a zero.
-/

namespace DenseLinear

namespace Lu

open PagedMatrix

/-! ## The block of a panel -/

section Corner

variable {α ρ : Type} [Scalar α ρ]

/-- Products at shifted positions are taken off like any others. -/
theorem takeOff_add (x y : Nat → α) (k start count : Nat) (acc : α) :
    takeOff x y (k + start) (k + (start + count)) acc =
      takeOff (fun l => x (k + l)) (fun l => y (k + l)) start (start + count) acc := by
  have hcount : k + (start + count) - (k + start) = count := by omega
  unfold takeOff
  rw [hcount, Nat.add_sub_cancel_left, ← List.map_add_range', List.foldl_map]

/-- Forward substitution on a panel is that with its block by itself. -/
theorem forwardColumn_add (L : Nat → Nat → α) (k : Nat) (b : Nat → α) (count r : Nat) :
    forwardColumn L k b count (k + r) =
      forwardColumn (fromCorner k L) 0 (fun i => b (k + i)) count r := by
  induction count generalizing r with
  | zero => rfl
  | succ count ih =>
    -- the rows before are those of the block, and so are the products with them
    have hoff (acc : α) : takeOff (L (k + count)) (forwardColumn L k b count) k (k + count) acc =
        takeOff (fromCorner k L count)
          (forwardColumn (fromCorner k L) 0 (fun i => b (k + i)) count) 0 count acc := by
      have hshift := takeOff_add (L (k + count)) (forwardColumn L k b count) k 0 count acc
      rw [Nat.zero_add, Nat.add_zero] at hshift
      rw [hshift]
      exact takeOff_congr (fun _ _ _ => rfl) (fun l _ _ => ih l) acc
    simp only [forwardColumn, Nat.zero_add, Function.update_apply, Nat.add_left_cancel_iff, ih, hoff]

/-- So is back substitution. -/
theorem backwardColumn_add (U : Nat → Nat → α) (k : Nat) (b : Nat → α) {n count : Nat}
    (hcount : count ≤ n) (r : Nat) :
    backwardColumn U (k + n) b count (k + r) =
      backwardColumn (fromCorner k U) n (fun i => b (k + i)) count r := by
  induction count generalizing r with
  | zero => rfl
  | succ count ih =>
    have hafter := ih (Nat.le_of_succ_le hcount)
    obtain ⟨i, rfl⟩ : ∃ i, n = i + 1 + count := ⟨n - (count + 1), by omega⟩
    have hrow : k + (i + 1 + count) - (count + 1) = k + i := by omega
    have hrow' : i + 1 + count - (count + 1) = i := by omega
    -- the rows after are those of the block, and so are the products with them
    have hoff (acc : α) : takeOff (U (k + i)) (backwardColumn U (k + (i + 1 + count)) b count)
        (k + i + 1) (k + (i + 1 + count)) acc =
        takeOff (fromCorner k U i)
          (backwardColumn (fromCorner k U) (i + 1 + count) (fun i => b (k + i)) count) (i + 1)
          (i + 1 + count) acc := by
      refine (takeOff_add _ _ k (i + 1) count acc).trans ?_
      exact takeOff_congr (fun _ _ _ => rfl) (fun l _ _ => hafter l) acc
    simp only [backwardColumn, hrow, hrow', Function.update_apply, Nat.add_left_cancel_iff, hafter,
      hoff]
    rfl

end Corner

/-! ## The systems -/

section Systems

variable {α ρ : Type} [Scalar α ρ]

/-- The lower triangle of the square block at `(k, k)`, with ones on the diagonal. -/
def unitLowerTriangle (k width : Nat) (a : PagedMatrix α) : Matrix (Fin width) (Fin width) α :=
  toMatrix width width (lowerCells (fromCorner k a.cell))

/-- The upper triangle of the square block at `(k, k)`, with its diagonal. -/
def upperTriangle (k width : Nat) (a : PagedMatrix α) : Matrix (Fin width) (Fin width) α :=
  toMatrix width width (upperCells (fromCorner k a.cell))

/-- The right-hand sides of the square block at `(k, k)`: its rows in the columns from the block up
to column `n`. -/
def rightSides (k width n : Nat) (a : PagedMatrix α) :
    Matrix (Fin width) (Fin (n - (k + width))) α :=
  toMatrix width (n - (k + width)) fun i j => a.cell (k + i) (k + width + j)

/-- The cells to the right of a block stand in their rows and columns. -/
theorem rightSides_ofCells {shape : Shape} {kind : NumericKind} {height k width : Nat}
    {f : Nat → Nat → α} (hrows : k + width ≤ height) :
    rightSides k width shape.cols (ofCells shape kind height f) =
      toMatrix width (shape.cols - (k + width)) fun i j => f (k + i) (k + width + j) := by
  ext i j
  exact cell_ofCells (by omega) (by omega)

end Systems

section Exact

variable {K R : Type} [FieldScalar K R] {k width : Nat}

/-- Forward substitution solves the system of the unit lower triangle. -/
theorem lower_mul_forwardSolved (f : Nat → Nat → K) {r c : Nat} (hr : r < width)
    (hc : k + width ≤ c) :
    ∑ l ∈ Finset.range width, lowerCells (fromCorner k f) r l * forwardSolved k width f (k + l) c =
      f (k + r) c := by
  have hcolumn (l : Nat) : forwardSolved k width f (k + l) c =
      lowerColumn (fromCorner k f) (fun i => f (k + i) c) width l := by
    rw [forwardSolved, if_pos hc, forwardColumn_add,
      lowerColumn_eq_forwardColumn (fun _ _ _ _ => rfl) _ (Nat.le_refl width)]
  simp only [hcolumn]
  exact lower_mul_lowerColumn (fromCorner k f) (fun i => f (k + i) c) hr

/-- Back substitution solves the rows of the upper triangle that have no zero on the diagonal. -/
theorem upper_mul_backwardSolved (f : Nat → Nat → K) {r c : Nat} (hr : r < width)
    (hc : k + width ≤ c) (hpivot : f (k + r) (k + r) ≠ 0) :
    ∑ l ∈ Finset.range width, upperCells (fromCorner k f) r l * backwardSolved k width f (k + l) c =
      f (k + r) c := by
  have hcolumn (l : Nat) : backwardSolved k width f (k + l) c =
      upperColumn (fromCorner k f) width (fun i => f (k + i) c) width l := by
    rw [backwardSolved, if_pos hc, backwardColumn_add f k _ (Nat.le_refl width),
      upperColumn_eq_backwardColumn (fun _ _ _ _ => rfl) _ (Nat.le_refl width)]
  simp only [hcolumn]
  exact upper_mul_upperColumn (fromCorner k f) (fun i => f (k + i) c) hr hpivot

variable {a : PagedMatrix K}

/-- Both substitutions on a panel succeed, on all pages that the panel reaches over, and change
nothing but the right-hand sides. Over exact scalars they replace these by the solution of the
system of the unit lower triangle, and by that of the upper triangle if its diagonal has no zero. -/
theorem triangular_systems_solved (ha : a.Stored)
    (hblock : k + width ≤ min a.stackedRows a.cols) :
    (∃ x, a.solveUnitLower k width = .ok x ∧
      AgreeOutside k (k + width) (k + width) a.cols a x ∧
      unitLowerTriangle k width a * rightSides k width a.cols x =
        rightSides k width a.cols a) ∧
    ∃ x, a.solveUpper k width = .ok x ∧
      AgreeOutside k (k + width) (k + width) a.cols a x ∧
      ((∀ i, upperTriangle k width a i i ≠ 0) →
        upperTriangle k width a * rightSides k width a.cols x =
          rightSides k width a.cols a) := by
  obtain ⟨hstacked, hcols⟩ := Nat.le_min.1 hblock
  obtain ⟨height, hrows, hheight, hcells⟩ :=
    ha.exists_ofCells_of_stackedRows hstacked (hcols.trans_lt ha.cols_lt)
  constructor
  · have hlower : (ofCells a.shape a.kind height a.cell).solveUnitLower k width = .ok _ :=
      solveUnitLower_ofCells hrows hcols hheight
    rw [← hcells] at hlower
    refine ⟨_, hlower, ?_, ?_⟩
    · exact agreeOutside_of_cells hcells fun r c hc hout => forwardSolved_outside (by omega)
    · rw [rightSides_ofCells hrows]
      exact RingScalar.toMatrix_mul_eq_iff.2 fun i j hi _ =>
        lower_mul_forwardSolved a.cell hi (Nat.le_add_right _ j)
  · have hupper : (ofCells a.shape a.kind height a.cell).solveUpper k width = .ok _ :=
      solveUpper_ofCells hrows hcols hheight
    rw [← hcells] at hupper
    refine ⟨_, hupper, ?_, ?_⟩
    · exact agreeOutside_of_cells hcells fun r c hc hout => backwardSolved_outside (by omega)
    · intro hdiagonal
      rw [rightSides_ofCells hrows]
      refine RingScalar.toMatrix_mul_eq_iff.2 fun i j hi _ => ?_
      have hpivot : a.cell (k + i) (k + i) ≠ 0 := by
        have hentry : upperCells (fromCorner k a.cell) i i ≠ 0 := hdiagonal ⟨i, hi⟩
        rwa [upperCells, if_neg (Nat.lt_irrefl i)] at hentry
      exact upper_mul_backwardSolved a.cell hi (Nat.le_add_right _ j) hpivot

end Exact

/-- Three pages of one row each. -/
def threePages : PagedMatrix ℝ :=
  { shape := { rows := 1, cols := 4, trailing := [3] }
    data := #[1, 1, 1, 1, 0, 1, 1, 1, 0, 1, 1, 0] }

/-- A panel of two rows that stand on different pages, below another row. -/
theorem triangular_systems_solved_threePages :
    threePages.Stored ∧ 1 + 2 ≤ min threePages.stackedRows threePages.cols ∧
      (∀ i, upperTriangle 1 2 threePages i i ≠ 0) ∧
      ∃ x y, threePages.solveUnitLower 1 2 = .ok x ∧ threePages.solveUpper 1 2 = .ok y ∧
        unitLowerTriangle 1 2 threePages * rightSides 1 2 4 x = rightSides 1 2 4 threePages ∧
        upperTriangle 1 2 threePages * rightSides 1 2 4 y = rightSides 1 2 4 threePages ∧
        x.get 0 3 = threePages.get 0 3 ∧ y.get 2 1 = threePages.get 2 1 := by
  have hpages : threePages.Stored := ⟨rfl, by decide, by decide, by decide⟩
  have hblock : 1 + 2 ≤ min threePages.stackedRows threePages.cols := by decide
  have hdiagonal : ∀ i, upperTriangle 1 2 threePages i i ≠ 0 := by
    rw [Fin.forall_fin_two]
    constructor
    · exact one_ne_zero
    · exact one_ne_zero
  obtain ⟨⟨x, hlower, hout, hsolved⟩, y, hupper, hout', hsolved'⟩ :=
    triangular_systems_solved hpages hblock
  exact ⟨hpages, hblock, hdiagonal, x, y, hlower, hupper, hsolved, hsolved' hdiagonal,
    hout.get_eq 0 3 (by decide) (by decide), hout'.get_eq 2 1 (by decide) (by decide)⟩

end Lu

end DenseLinear
