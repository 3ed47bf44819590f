import Mathlib.Data.List.Find
import DenseLinear.Lu.Panel
import DenseLinear.Proofs.Blocks
import DenseLinear.Proofs.Surroundings

/-!
# Panel elimination cell by cell

What the elimination of a panel leaves in each cell, for entries without any laws. A `Stage` is what
there is between two columns: the cells, the pivots and the status. `Stage.step` eliminates one
column and `Stage.run` a row of columns; `eliminateColumn_eq` and `eliminatePanel_eq` say that
this is what the kernels do.

The pivot of a column is the first row of the largest absolute value from the diagonal down
(`bestRow`). It is never above the diagonal (`le_pivotOf`), so finished rows stay as they are
(`Stage.cells_run_of_lt`).
-/

namespace DenseLinear

namespace Lu

open PagedMatrix

variable {α ρ : Type} [RealArith ρ] [Scalar α ρ]

/-! ## The pivot of a column -/

/-- The first row of the largest absolute value among row `i` and the `count` rows below it in
column `i`, and that value. -/
def bestRow (f : Nat → Nat → α) (i : Nat) : Nat → Nat × ρ
  | 0 => (i, Scalar.modulus (f i i))
  | count + 1 =>
    let found := bestRow f i count
    let size := Scalar.modulus (f (i + 1 + count) i)
    if RealArith.lt found.2 size then (i + 1 + count, size) else found

/-- The pivot row of column `i` in a matrix of `m` rows. -/
def pivotOf (m : Nat) (f : Nat → Nat → α) (i : Nat) : Nat := (bestRow f i (m - (i + 1))).1

theorem bestRow_fst_mem (f : Nat → Nat → α) (i count : Nat) :
    i ≤ (bestRow f i count).1 ∧ (bestRow f i count).1 ≤ i + count := by
  induction count with
  | zero => exact ⟨Nat.le_refl i, Nat.le_refl i⟩
  | succ count ih =>
    simp only [bestRow]
    split <;> omega

theorem le_pivotOf (m : Nat) (f : Nat → Nat → α) (i : Nat) : i ≤ pivotOf m f i :=
  (bestRow_fst_mem f i _).1

theorem pivotOf_lt {m i : Nat} (f : Nat → Nat → α) (hi : i < m) : pivotOf m f i < m := by
  have h := (bestRow_fst_mem f i (m - (i + 1))).2
  unfold pivotOf
  omega

/-- The search only reads column `i` from row `i` on. -/
theorem bestRow_congr {f g : Nat → Nat → α} {i count : Nat}
    (h : ∀ r, i ≤ r → r ≤ i + count → f r i = g r i) : bestRow f i count = bestRow g i count := by
  induction count with
  | zero => simp only [bestRow, h i (Nat.le_refl i) (by omega)]
  | succ count ih =>
    simp only [bestRow]
    -- the last row is compared with the best of the rows before it
    rw [ih fun r hr hr' => h r hr (by omega), h (i + 1 + count) (by omega) (by omega)]

theorem pivotOf_congr {m i : Nat} {f g : Nat → Nat → α} (hi : i < m)
    (h : ∀ r, i ≤ r → r < m → f r i = g r i) : pivotOf m f i = pivotOf m g i :=
  congrArg Prod.fst (bestRow_congr fun r hr hr' => h r hr (by omega))

/-! ## The elimination of a column -/

omit [RealArith ρ] in
/-- The cells after column `i` has been eliminated with row `i`, in `m` rows and up to column
`stop`. -/
def eliminated (m stop i : Nat) (f : Nat → Nat → α) : Nat → Nat → α :=
  fun r c =>
    let factor := Scalar.quotient (f r i) (f i i)
    if i < r ∧ r < m then
      if c = i then factor
      else if (i < c ∧ c < stop) ∧ (factor == 0) = false then f r c - factor * f i c
      else f r c
    else f r c

section Eliminated

variable {m stop i r c : Nat} (f : Nat → Nat → α)

omit [RealArith ρ] in
theorem eliminated_of_le (h : r ≤ i) : eliminated m stop i f r = f r := by
  funext c
  exact if_neg (by omega)

omit [RealArith ρ] in
theorem eliminated_of_lt (h : c < i) : eliminated m stop i f r c = f r c := by
  unfold eliminated
  dsimp only
  split_ifs <;> first | rfl | omega

omit [RealArith ρ] in
theorem eliminated_of_stop_le (hi : i < stop) (h : stop ≤ c) :
    eliminated m stop i f r c = f r c := by
  unfold eliminated
  dsimp only
  split_ifs <;> first | rfl | omega

omit [RealArith ρ] in
theorem eliminated_self (h : i < r) (hr : r < m) :
    eliminated m stop i f r i = Scalar.quotient (f r i) (f i i) := by
  unfold eliminated
  dsimp only
  rw [if_pos ⟨h, hr⟩, if_pos rfl]

end Eliminated

/-- What there is between the elimination of two columns. -/
structure Stage (α : Type) where
  /-- The entries of the matrix. -/
  cells : Nat → Nat → α
  /-- The row that was interchanged with each row. -/
  pivots : Array Nat
  /-- What the sweep has met so far. -/
  status : SweepStatus

namespace Stage

omit [RealArith ρ] [Scalar α ρ] in
/-- The sweep over a matrix of a shape and a kind with `height` stacked rows. -/
def sweep (shape : Shape) (kind : NumericKind) (height : Nat) (s : Stage α) : Sweep α :=
  ⟨ofCells shape kind height s.cells, s.pivots, s.status⟩

/-- The cells once the pivot row of column `i` is at the diagonal. -/
def pivoted (m i : Nat) (f : Nat → Nat → α) : Nat → Nat → α := exchanged i (pivotOf m f i) f

/-- The stage after column `i` of a panel that ends at column `stop`, in `m` rows. -/
def step (m stop i : Nat) (s : Stage α) : Stage α :=
  let cells := pivoted m i s.cells
  let null := Scalar.isNull (cells i i)
  { cells := if null then cells else eliminated m stop i cells
    pivots := s.pivots.setIfInBounds i (pivotOf m s.cells i)
    status :=
      { swaps := s.status.swaps + if pivotOf m s.cells i = i then 0 else 1
        firstNull := if null then s.status.firstNull.or (some i) else s.status.firstNull } }

omit [RealArith ρ] [Scalar α ρ] in
/-- The stage before any column is eliminated. -/
def initial (m n : Nat) (f : Nat → Nat → α) : Stage α :=
  ⟨f, Array.replicate (min m n) 0, {}⟩

/-- The stage after `count` columns from column `k` on. -/
def run (m stop k : Nat) (s : Stage α) : Nat → Stage α
  | 0 => s
  | count + 1 => (run m stop k s count).step m stop (k + count)

end Stage

section Kernels

variable {shape : Shape} {kind : NumericKind} {height : Nat} {f : Nat → Nat → α}

theorem pivotRow_ofCells {i : Nat} (hi : i < shape.rows) (hrows : shape.rows ≤ height)
    (hcol : i < shape.cols) :
    pivotRow (ofCells shape kind height f) i = .ok (pivotOf shape.rows f i) := by
  unfold pivotRow
  rw [get_ofCells (by omega) hcol, ok_bind]
  refine bind_eq_ok (ascend_eq_ok (fun r => bestRow f i (r - (i + 1))) (Nat.succ_le_of_lt hi)
    (by rw [Nat.sub_self]; rfl) rfl ?_) rfl
  intro r hr hr'
  obtain ⟨d, rfl⟩ : ∃ d, r = i + 1 + d := ⟨r - (i + 1), by omega⟩
  have hr' : i + 1 + d < shape.rows := hr'
  have hnext : i + 1 + d + 1 - (i + 1) = d + 1 := by omega
  -- one position of the loop is one more row in `bestRow`
  rw [hnext, Nat.add_sub_cancel_left, bestRow]
  obtain ⟨p, best⟩ := bestRow f i d
  dsimp only
  rw [get_ofCells (by omega) hcol, ok_bind]
  rfl

omit [RealArith ρ] in
/-- The elimination of one row. -/
theorem eliminateRow_ofCells {i stop r : Nat} {pivot : α} (hi : i < r) (hr : r < height)
    (hcol : i < stop) (hstop : stop ≤ shape.cols) :
    eliminateRow (ofCells shape kind height f) i stop pivot r =
      .ok (ofCells shape kind height fun r' c =>
        let factor := Scalar.quotient (f r i) pivot
        if r' = r then
          if c = i then factor
          else if (i < c ∧ c < stop) ∧ (factor == 0) = false then f r c - factor * f i c
          else f r c
        else f r' c) := by
  unfold eliminateRow
  rw [get_ofCells hr (by omega), ok_bind]
  generalize Scalar.quotient (f r i) pivot = factor
  dsimp only
  rw [set_ofCells hr (by omega), ok_bind]
  by_cases hzero : (factor == 0) = true
  · -- with the multiplier zero the rest of the row is skipped
    rw [if_pos hzero]
    refine congrArg Except.ok (ofCells_congr fun r' c _ _ => ?_)
    dsimp only [setCell]
    simp only [hzero, Bool.true_eq_false, and_false, if_false]
    by_cases h : r' = r
    · simp only [h, true_and, if_true]
    · simp only [h, false_and, if_false]
  · rw [if_neg hzero]
    rw [Bool.not_eq_true] at hzero
    simp only [hzero, and_true]
    -- the columns of the row before `j` have lost the multiple of the pivot row
    refine ascend_ofCells (fun j r' c => if r' = r then (if c = i then factor
      else if i < c ∧ c < j then f r c - factor * f i c else f r c) else f r' c) hcol ?_ ?_ ?_
    · intro r' c _ _
      have hnone : ¬(i < c ∧ c < i + 1) := by omega
      dsimp only [setCell]
      by_cases h : r' = r
      · simp only [h, true_and, if_true, hnone, if_false]
      · simp only [h, false_and, if_false]
    · intro r' c _ _
      rfl
    intro j hj hj'
    rw [get_ofCells (by omega) (by omega), ok_bind, get_ofCells hr (by omega), ok_bind,
      set_ofCells hr (by omega)]
    refine congrArg Except.ok (ofCells_congr fun r' c _ _ => ?_)
    dsimp only [setCell]
    split_ifs with h <;> first | rfl | omega | (obtain ⟨rfl, rfl⟩ := h; rfl)

omit [RealArith ρ] in
/-- The rows below the pivot are eliminated one after the other, each with the pivot row as it was. -/
theorem eliminateRows_ofCells {i stop : Nat} (hi : i < shape.rows) (hrows : shape.rows ≤ height)
    (hcol : i < stop) (hstop : stop ≤ shape.cols) :
    ascend (i + 1) shape.rows (ofCells shape kind height f)
        (fun r a => eliminateRow a i stop (f i i) r) =
      .ok (ofCells shape kind height (eliminated shape.rows stop i f)) := by
  refine ascend_ofCells (fun r r' c => if i < r' ∧ r' < r then
    eliminated shape.rows stop i f r' c else f r' c) hi ?_ ?_ ?_
  · intro r' c _ _
    exact (if_neg (by omega)).symm
  · intro r' c _ _
    unfold eliminated
    dsimp only
    split_ifs <;> rfl
  intro r hr hr'
  rw [eliminateRow_ofCells hr (by omega) hcol hstop]
  refine congrArg Except.ok (ofCells_congr fun r' c _ _ => ?_)
  -- neither row `r` nor the pivot row has been touched before
  have hold : ¬(i < r ∧ r < r) := by omega
  have hpivot : ¬(i < i ∧ i < r) := by omega
  simp only [hold, hpivot, if_false]
  rcases eq_or_ne r' r with rfl | hne
  · rw [if_pos rfl, if_pos (show i < r' ∧ r' < r' + 1 by omega)]
    unfold eliminated
    dsimp only
    rw [if_pos (show i < r' ∧ r' < shape.rows by omega)]
  · have hrange : i < r' ∧ r' < r + 1 ↔ i < r' ∧ r' < r := by omega
    rw [if_neg hne]
    simp only [hrange]

/-- The pivot row is brought up and the interchange recorded, if their number can be counted. -/
theorem bringPivot_eq {i : Nat} {s : Stage α} (hi : i < shape.rows) (hrows : shape.rows ≤ height)
    (hpivots : i < s.pivots.size) (hswaps : s.status.swaps < Size.limit) :
    bringPivot (s.sweep shape kind height) i (pivotOf shape.rows s.cells i) =
      let swaps := s.status.swaps + if pivotOf shape.rows s.cells i = i then 0 else 1
      if swaps < Size.limit then
        .ok ⟨ofCells shape kind height (Stage.pivoted shape.rows i s.cells),
          s.pivots.setIfInBounds i (pivotOf shape.rows s.cells i), { s.status with swaps := swaps }⟩
      else
        .error .overflow := by
  have hp := pivotOf_lt s.cells hi
  simp only [bringPivot, Stage.sweep, Stage.pivoted]
  rw [writeAt_eq_ok hpivots, ok_bind, Array.setIfInBounds_def, dif_pos hpivots]
  by_cases hsame : pivotOf shape.rows s.cells i = i
  · rw [if_pos hsame, if_pos hsame, hsame, exchanged_self, Nat.add_zero, if_pos hswaps]
    rfl
  · rw [if_neg hsame, if_neg hsame, swapRows_ofCells (by omega) (by omega), ok_bind,
      SweepStatus.countSwap, Size.add]
    split
    · rfl
    · rfl

/-- The elimination of one column. -/
theorem eliminateColumn_eq {stop i : Nat} {s : Stage α} (hi : i < shape.rows)
    (hrows : shape.rows ≤ height) (hcol : i < stop) (hstop : stop ≤ shape.cols)
    (hpivots : i < s.pivots.size) (hswaps : s.status.swaps < Size.limit) :
    eliminateColumn stop i (s.sweep shape kind height) =
      if (s.step shape.rows stop i).status.swaps < Size.limit then
        .ok ((s.step shape.rows stop i).sweep shape kind height)
      else
        .error .overflow := by
  have hsearch : pivotRow (s.sweep shape kind height).matrix i =
      .ok (pivotOf shape.rows s.cells i) := pivotRow_ofCells hi hrows (by omega)
  unfold eliminateColumn
  rw [hsearch, ok_bind, bringPivot_eq hi hrows hpivots hswaps]
  unfold Stage.step
  dsimp only
  generalize Stage.pivoted shape.rows i s.cells = f
  by_cases hcounted :
      s.status.swaps + (if pivotOf shape.rows s.cells i = i then 0 else 1) < Size.limit
  · rw [if_pos hcounted, if_pos hcounted, ok_bind]
    dsimp only
    rw [get_ofCells (by omega) (by omega), ok_bind]
    -- a column without a pivot is left as it is
    by_cases hnull : Scalar.isNull (f i i) = true
    · rw [if_pos hnull, if_pos hnull, if_pos hnull]
      rfl
    · rw [if_neg hnull, if_neg hnull, if_neg hnull]
      exact bind_eq_ok (eliminateRows_ofCells hi hrows hcol hstop) rfl
  · rw [if_neg hcounted, if_neg hcounted]
    rfl

end Kernels

namespace Stage

theorem size_pivots_run (m stop k : Nat) (s : Stage α) (count : Nat) :
    (s.run m stop k count).pivots.size = s.pivots.size := by
  induction count with
  | zero => rfl
  | succ count ih => simp [run, step, ih]

theorem run_add (m stop k : Nat) (s : Stage α) (count count' : Nat) :
    s.run m stop k (count + count') = (s.run m stop k count).run m stop (k + count) count' := by
  induction count' with
  | zero => rfl
  | succ count' ih => rw [← Nat.add_assoc, run, run, ih, Nat.add_assoc]

/-- Every column brings at most one interchange. -/
theorem swaps_run_le (m stop k : Nat) (s : Stage α) (count : Nat) :
    (s.run m stop k count).status.swaps ≤ s.status.swaps + count := by
  induction count with
  | zero => exact Nat.le_refl _
  | succ count ih =>
    simp only [run, step]
    split <;> omega

theorem le_swaps_run (m stop k : Nat) (s : Stage α) (count : Nat) :
    s.status.swaps ≤ (s.run m stop k count).status.swaps := by
  induction count with
  | zero => exact Nat.le_refl _
  | succ count ih =>
    simp only [run, step]
    omega

/-- The cells and the pivots do not depend on the status, and interchanges add up. -/
theorem run_of_status (m stop k : Nat) (s : Stage α) (status : SweepStatus) (count : Nat) :
    ({ s with status := status }.run m stop k count).cells = (s.run m stop k count).cells ∧
      ({ s with status := status }.run m stop k count).pivots = (s.run m stop k count).pivots ∧
      s.status.swaps + ({ s with status := status }.run m stop k count).status.swaps =
        status.swaps + (s.run m stop k count).status.swaps := by
  induction count with
  | zero => exact ⟨rfl, rfl, Nat.add_comm _ _⟩
  | succ count ih =>
    -- the next pivot is found in the cells, which are the same
    obtain ⟨hcells, hpivots, hswaps⟩ := ih
    simp only [run, step, hcells, hpivots, true_and]
    omega

theorem cells_step_of_lt {m stop i r : Nat} (s : Stage α) (hr : r < i) :
    (s.step m stop i).cells r = s.cells r := by
  -- both rows of the interchange are from row `i` on
  have hpivoted : pivoted m i s.cells r = s.cells r :=
    exchanged_of_lt s.cells (le_pivotOf m s.cells i) hr
  funext c
  unfold step
  dsimp only
  split
  · rw [hpivoted]
  · unfold eliminated
    dsimp only
    rw [if_neg (by omega), hpivoted]

/-- A row above the columns that are eliminated stays as it is. -/
theorem cells_run_of_lt {m stop k r : Nat} (s : Stage α) (count : Nat) (hr : r < k) :
    (s.run m stop k count).cells r = s.cells r := by
  induction count with
  | zero => rfl
  | succ count ih => rw [run, cells_step_of_lt _ (by omega), ih]

/-- The diagonal entry of a column keeps what was looked at when the column was eliminated. -/
theorem diagonal_step (m stop i : Nat) (s : Stage α) :
    (s.step m stop i).cells i i = pivoted m i s.cells i i := by
  unfold step
  dsimp only
  split
  · rfl
  · rw [eliminated_of_le _ (Nat.le_refl i)]

/-- The first column without a pivot is kept, or it is the first zero that the columns leave on the
diagonal. -/
theorem firstNull_run_or (m stop k : Nat) (s : Stage α) (count : Nat) :
    (s.run m stop k count).status.firstNull = s.status.firstNull.or
      ((List.range' k count).find? fun i => Scalar.isNull ((s.run m stop k count).cells i i)) := by
  induction count with
  | zero => exact Option.or_none.symm
  | succ count ih =>
    -- a later column leaves the diagonal cells before it alone
    have hbefore : ((List.range' k count).find? fun i =>
        Scalar.isNull (((s.run m stop k count).step m stop (k + count)).cells i i)) =
        (List.range' k count).find? fun i =>
          Scalar.isNull ((s.run m stop k count).cells i i) := by
      refine List.find?_congr fun i hi => ?_
      have hlt : i < k + count := (List.mem_range'_1.1 hi).2
      rw [cells_step_of_lt _ hlt]
    rw [run, List.range'_concat, Nat.one_mul, List.find?_append, hbefore, List.find?_singleton,
      diagonal_step, ← Option.or_assoc, ← ih]
    unfold step
    dsimp only
    split
    · rfl
    · rw [Option.or_none]

/-- Where the columns before column `k` are already known, the first column without a pivot stays the
first zero on the diagonal. -/
theorem firstNull_run_from (m stop k : Nat) {s : Stage α}
    (hs : s.status.firstNull = (List.range k).find? fun i => Scalar.isNull (s.cells i i))
    (count : Nat) :
    (s.run m stop k count).status.firstNull = (List.range (k + count)).find? fun i =>
      Scalar.isNull ((s.run m stop k count).cells i i) := by
  have hbefore : ((List.range k).find? fun i => Scalar.isNull ((s.run m stop k count).cells i i)) =
      s.status.firstNull := by
    rw [hs]
    refine List.find?_congr fun i hi => ?_
    rw [List.mem_range] at hi
    rw [cells_run_of_lt _ _ hi]
  have hrange : List.range (k + count) = List.range k ++ List.range' k count := by
    rw [List.range_eq_range', List.range_eq_range', ← List.range'_append_1, Nat.zero_add]
  rw [firstNull_run_or, hrange, List.find?_append, hbefore]

/-- The first column without a pivot is the first zero on the diagonal. -/
theorem firstNull_run (m stop : Nat) {s : Stage α} (hs : s.status.firstNull = none) (count : Nat) :
    (s.run m stop 0 count).status.firstNull =
      (List.range count).find? fun i => Scalar.isNull ((s.run m stop 0 count).cells i i) := by
  have h := firstNull_run_from m stop 0 (s := s) hs count
  rwa [Nat.zero_add] at h

end Stage

section Kernels

variable {shape : Shape} (kind : NumericKind) {height : Nat}

/-- The elimination of a panel that is cut off at the last row and at the last column. It succeeds
if the interchanges can be counted. -/
theorem eliminatePanel_eq (s : Stage α) {k width : Nat} (hrows : shape.rows ≤ height)
    (hend : k + width < Size.limit)
    (hpivots : ∀ i, k ≤ i → i < min (min (k + width) shape.cols) shape.rows → i < s.pivots.size)
    (hswaps : s.status.swaps < Size.limit) :
    eliminatePanel k width (s.sweep shape kind height) =
      let t := s.run shape.rows (min (k + width) shape.cols) k
        (min (min (k + width) shape.cols) shape.rows - k)
      if t.status.swaps < Size.limit then .ok (t.sweep shape kind height)
      else .error .overflow := by
  unfold eliminatePanel
  rw [Size.add_eq_ok hend, ok_bind]
  change ascend k (min (min (k + width) shape.cols) shape.rows) _
    (fun i sweep => eliminateColumn (min (k + width) shape.cols) i sweep) = _
  generalize hstop : min (k + width) shape.cols = stop at hpivots ⊢
  -- a panel to the right of the last row has no columns to eliminate
  rcases Nat.le_total (min stop shape.rows) k with hle | hle
  · rw [ascend_of_le hle, Nat.sub_eq_zero_of_le hle]
    exact (if_pos hswaps).symm
  have hmono : Monotone fun i => (s.run shape.rows stop k (i - k)).status.swaps := by
    intro i j hij
    obtain ⟨more, hmore⟩ := Nat.exists_eq_add_of_le (Nat.sub_le_sub_right hij k)
    dsimp only
    rw [hmore, Stage.run_add]
    exact Stage.le_swaps_run _ _ _ _ _
  have hloop : ascend k (min stop shape.rows)
      ((s.run shape.rows stop k (k - k)).sweep shape kind height)
      (fun i sweep => eliminateColumn stop i sweep) =
      if (s.run shape.rows stop k (min stop shape.rows - k)).status.swaps < Size.limit then
        .ok ((s.run shape.rows stop k (min stop shape.rows - k)).sweep shape kind height)
      else
        .error .overflow := by
    refine ascend_bounded (fun i => (s.run shape.rows stop k (i - k)).sweep shape kind height) _ hle
      hmono ?_ ?_
    · rw [Nat.sub_self]
      exact hswaps
    intro i hi hi' hcounted
    have hnext : i + 1 - k = i - k + 1 := by omega
    have hsize := Stage.size_pivots_run shape.rows stop k s (i - k)
    have hpivot := hpivots i hi hi'
    rw [eliminateColumn_eq (by omega) hrows (by omega) (by omega) (by omega) hcounted,
      hnext, Stage.run, Nat.add_sub_cancel' hi]
  rw [Nat.sub_self] at hloop
  exact hloop

/-- While there are no more interchanges than columns, they can be counted. -/
theorem eliminatePanel_eq_ok (s : Stage α) {k width : Nat} (hrows : shape.rows ≤ height)
    (hend : k + width < Size.limit)
    (hpivots : min (min (k + width) shape.cols) shape.rows ≤ s.pivots.size)
    (hswaps : s.status.swaps ≤ k) (hlimit : shape.rows < Size.limit) :
    eliminatePanel k width (s.sweep shape kind height) =
      .ok ((s.run shape.rows (min (k + width) shape.cols) k
        (min (min (k + width) shape.cols) shape.rows - k)).sweep shape kind height) := by
  have hle := Stage.swaps_run_le shape.rows (min (k + width) shape.cols) k s
    (min (min (k + width) shape.cols) shape.rows - k)
  exact (eliminatePanel_eq kind s hrows hend (fun i _ hi => by omega) (by omega)).trans
    (if_pos (by omega))

/-- The elimination of a panel succeeds in all surroundings: they only learn of a missing pivot. -/
theorem ends_factorPanel (s : Stage α) {k width : Nat} (hrows : shape.rows ≤ height)
    (hend : k + width < Size.limit)
    (hpivots : min (min (k + width) shape.cols) shape.rows ≤ s.pivots.size)
    (hswaps : s.status.swaps ≤ k) (hlimit : shape.rows < Size.limit) :
    Ends (factorPanel k width (s.sweep shape kind height))
      (· = (s.run shape.rows (min (k + width) shape.cols) k
        (min (min (k + width) shape.cols) shape.rows - k)).sweep shape kind height) := by
  unfold factorPanel
  refine ends_bind (ends_checked (ends_eq_iff.2
    (eliminatePanel_eq_ok kind s hrows hend hpivots hswaps hlimit))) ?_
  rintro _ rfl
  dsimp only
  split
  · exact ends_bind ends_report fun _ _ => ends_pure rfl
  · exact ends_pure rfl

/-- The stage at the end of the elimination of a whole matrix as a single panel. -/
def finalStage (a : PagedMatrix α) : Stage α :=
  (Stage.initial a.rows a.cols a.cell).run a.rows a.cols 0 (min a.rows a.cols)

/-- The first column without a pivot is the first zero on the diagonal at the end. -/
theorem firstNull_finalStage (a : PagedMatrix α) : (finalStage a).status.firstNull =
    (List.range (min a.rows a.cols)).find? fun i => Scalar.isNull ((finalStage a).cells i i) :=
  Stage.firstNull_run a.rows a.cols (s := Stage.initial a.rows a.cols a.cell) rfl
    (min a.rows a.cols)

/-- The elimination of the whole matrix as a single panel. -/
theorem eliminatePanel_whole {a : PagedMatrix α} (ha : a.Stored) (hpage : a.SinglePage) :
    eliminatePanel 0 a.cols ⟨a, Array.replicate (min a.rows a.cols) 0, {}⟩ =
      .ok ((finalStage a).sweep a.shape a.kind a.rows) := by
  have hrows : a.shape.rows < Size.limit := ha.rows_lt
  have hcols : a.cols < Size.limit := ha.cols_lt
  have hpanel := eliminatePanel_eq_ok a.kind (Stage.initial a.rows a.cols a.cell) (Nat.le_refl _)
    (show 0 + a.cols < Size.limit by omega) (by simp [Stage.initial]) (Nat.zero_le _) hrows
  have hstop : min (0 + a.cols) a.cols = a.cols := by omega
  have hcount : min a.cols a.rows - 0 = min a.rows a.cols := by omega
  have hstart : (Stage.initial a.rows a.cols a.cell).sweep a.shape a.kind a.rows =
      ⟨a, Array.replicate (min a.rows a.cols) 0, {}⟩ :=
    congrArg (fun b => (⟨b, _, _⟩ : Sweep α)) (ha.eq_ofCells_of_singlePage hpage).symm
  rw [hstop, hcount, hstart] at hpanel
  exact hpanel

end Kernels

end Lu

end DenseLinear
