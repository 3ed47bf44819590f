import Mathlib.Order.Bounds.Defs
import DenseLinear.Proofs.Accounting
import DenseLinear.Proofs.ExactReals
import DenseLinear.Proofs.SizeArguments

/-!
# The factorisation of a panel

The elimination of the columns `[k, stop)` works on the block that begins at the diagonal cell of
column `k`, as the elimination of that block by itself would (`fromCorner_run`). To the left and to
the right of the panel only the rows are interchanged (`Stage.cells_run_outside`). So over exact
scalars the block with its rows in the order of the pivots is the product of the factors that the
panel holds in the end (`PanelFactored`), wherever the panel begins and wherever it is cut off.

The pivots, the number of interchanges and the first column without a pivot are those of before,
brought up to date for the columns of the panel. Where the end of the panel is a machine word, the
only fault is a number of interchanges that is not one (`factorPanel_factored`).
-/

namespace DenseLinear

namespace Lu

open PagedMatrix

/-! ## The block of a panel -/

section Corner

variable {α ρ : Type} [RealArith ρ] [Scalar α ρ] {m stop k i : Nat}

omit [RealArith ρ] [Scalar α ρ] in
/-- The cells from row `k` and column `k` on. -/
def fromCorner (k : Nat) (f : Nat → Nat → α) : Nat → Nat → α := fun r c => f (k + r) (k + c)

theorem swap_add (k i p r : Nat) :
    Equiv.swap (k + i) (k + p) (k + r) = k + Equiv.swap i p r := by
  simp only [Equiv.swap_apply_def, Nat.add_left_cancel_iff]
  split_ifs
  · rfl
  · rfl
  · rfl

/-- The search for a pivot looks at the block only. -/
theorem bestRow_fromCorner (f : Nat → Nat → α) (k i count : Nat) :
    (bestRow f (k + i) count : Nat × ρ) =
      (k + (bestRow (fromCorner k f) i count : Nat × ρ).1,
        (bestRow (fromCorner k f) i count : Nat × ρ).2) := by
  induction count with
  | zero => rfl
  | succ count ih =>
    have hrow : k + i + 1 + count = k + (i + 1 + count) := by omega
    simp only [bestRow, ih, hrow]
    unfold fromCorner
    split
    · rfl
    · rfl

theorem pivotOf_fromCorner (f : Nat → Nat → α) :
    pivotOf m f (k + i) = k + pivotOf (m - k) (fromCorner k f) i := by
  have hcount : m - (k + i + 1) = m - k - (i + 1) := by omega
  unfold pivotOf
  rw [hcount, bestRow_fromCorner]

theorem fromCorner_pivoted (f : Nat → Nat → α) :
    fromCorner k (Stage.pivoted m (k + i) f) = Stage.pivoted (m - k) i (fromCorner k f) := by
  funext r c
  unfold Stage.pivoted
  rw [pivotOf_fromCorner]
  unfold fromCorner exchanged
  rw [swap_add]

omit [RealArith ρ] in
theorem fromCorner_eliminated (f : Nat → Nat → α) :
    fromCorner k (eliminated m stop (k + i) f) =
      eliminated (m - k) (stop - k) i (fromCorner k f) := by
  funext r c
  have hrow : k + i < k + r ∧ k + r < m ↔ i < r ∧ r < m - k := by omega
  have hright : k + i < k + c ∧ k + c < stop ↔ i < c ∧ c < stop - k := by omega
  unfold fromCorner eliminated
  simp only [hrow, hright, Nat.add_left_cancel_iff]

/-- A step on the block is a step on the block by itself. -/
theorem fromCorner_step {s t : Stage α} (h : t.cells = fromCorner k s.cells) :
    (t.step (m - k) (stop - k) i).cells = fromCorner k (s.step m stop (k + i)).cells := by
  have hdiagonal : Stage.pivoted m (k + i) s.cells (k + i) (k + i) =
      fromCorner k (Stage.pivoted m (k + i) s.cells) i i := rfl
  unfold Stage.step
  dsimp only
  rw [hdiagonal, h, ← fromCorner_pivoted]
  split
  · rfl
  · exact (fromCorner_eliminated _).symm

/-- The elimination of a panel is that of its block by itself. -/
theorem fromCorner_run {s t : Stage α} (h : t.cells = fromCorner k s.cells) (count : Nat) :
    (t.run (m - k) (stop - k) 0 count).cells = fromCorner k (s.run m stop k count).cells := by
  induction count with
  | zero => exact h
  | succ count ih =>
    rw [Stage.run, Stage.run, Nat.zero_add]
    exact fromCorner_step ih

end Corner

/-! ## The order of the rows -/

/-- The permutation that the pivots of the rows `k, …, k + count - 1` stand for: after these
interchanges, row `r` is row `interchangesFrom p k count r` of before. -/
def interchangesFrom (p : Nat → Nat) (k : Nat) : Nat → Equiv.Perm Nat
  | 0 => 1
  | count + 1 => interchangesFrom p k count * Equiv.swap (k + count) (p (k + count))

theorem interchangesFrom_congr {p q : Nat → Nat} {k count : Nat}
    (h : ∀ i < count, p (k + i) = q (k + i)) :
    interchangesFrom p k count = interchangesFrom q k count := by
  induction count with
  | zero => rfl
  | succ count ih =>
    rw [interchangesFrom, interchangesFrom, ih fun i hi => h i (by omega), h count (by omega)]

/-- Interchanges of rows of the block are those of the block by itself. -/
theorem interchangesFrom_add {p q : Nat → Nat} {k count : Nat}
    (h : ∀ i < count, p (k + i) = k + q i) (r : Nat) :
    interchangesFrom p k count (k + r) = k + interchanges q count r := by
  induction count generalizing r with
  | zero => rfl
  | succ count ih =>
    rw [interchangesFrom, interchanges, Equiv.Perm.mul_apply, Equiv.Perm.mul_apply,
      h count (by omega), swap_add]
    exact ih (fun i hi => h i (by omega)) _

theorem interchangesFrom_lt {p : Nat → Nat} {m k count r : Nat}
    (hp : ∀ i < count, k + i < m ∧ p (k + i) < m) (hr : r < m) :
    interchangesFrom p k count r < m := by
  induction count generalizing r with
  | zero => exact hr
  | succ count ih =>
    obtain ⟨hdiagonal, hpivot⟩ := hp count (Nat.lt_succ_self count)
    exact ih (fun i hi => hp i (by omega)) (swap_lt hdiagonal hpivot hr)

/-- The order of the rows that the pivots of the rows `[k, stop)` stand for. -/
def panelOrder (pivots : Array Nat) (k stop : Nat) : Equiv.Perm Nat :=
  interchangesFrom (fun i => pivots.getD i 0) k (stop - k)

/-! ## Runs from a column on -/

namespace Stage

variable {α ρ : Type} [RealArith ρ] [Scalar α ρ] {m stop k : Nat}

/-- The pivot that a run from column `k` on finds in column `i`. -/
def pivotFrom (m stop k : Nat) (s : Stage α) (i : Nat) : Nat :=
  pivotOf m (s.run m stop k (i - k)).cells i

theorem pivotFrom_add (s : Stage α) (i : Nat) :
    s.pivotFrom m stop k (k + i) = pivotOf m (s.run m stop k i).cells (k + i) := by
  rw [pivotFrom, Nat.add_sub_cancel_left]

theorem le_pivotFrom (m stop k : Nat) (s : Stage α) (i : Nat) : i ≤ s.pivotFrom m stop k i :=
  le_pivotOf m _ i

theorem pivotFrom_lt (stop k : Nat) (s : Stage α) {i : Nat} (hi : i < m) :
    s.pivotFrom m stop k i < m :=
  pivotOf_lt _ hi

/-- The pivots of a panel are those of its block by itself. -/
theorem pivotFrom_eq_found (s : Stage α) (i : Nat) :
    s.pivotFrom m stop k (k + i) =
      k + pivotsFound (m - k) (stop - k) (fromCorner k s.cells) i := by
  have hblock : ((Stage.initial (m - k) (stop - k) (fromCorner k s.cells)).run
      (m - k) (stop - k) 0 i).cells = fromCorner k (s.run m stop k i).cells :=
    fromCorner_run rfl i
  rw [pivotFrom_add, pivotOf_fromCorner, pivotsFound, hblock]

/-- The elimination of a column only interchanges the rows of the columns outside the panel. -/
theorem cells_step_outside (s : Stage α) {i : Nat} (hi : i < stop) (r : Nat) {c : Nat}
    (hc : c < i ∨ stop ≤ c) :
    (s.step m stop i).cells r c = s.cells (Equiv.swap i (pivotOf m s.cells i) r) c := by
  have hpivoted : pivoted m i s.cells r c = s.cells (Equiv.swap i (pivotOf m s.cells i) r) c := rfl
  unfold step
  dsimp only
  split
  · exact hpivoted
  · rcases hc with hc | hc
    · rw [eliminated_of_lt _ hc, hpivoted]
    · rw [eliminated_of_stop_le _ hi hc, hpivoted]

/-- So does the elimination of the whole panel. -/
theorem cells_run_outside (s : Stage α) {count : Nat} (hcount : 0 < count → k + count ≤ stop)
    (r : Nat) {c : Nat} (hc : c < k ∨ stop ≤ c) :
    (s.run m stop k count).cells r c =
      s.cells (interchangesFrom (s.pivotFrom m stop k) k count r) c := by
  induction count generalizing r with
  | zero => rfl
  | succ count ih =>
    have hlt := hcount (Nat.succ_pos count)
    rw [run, cells_step_outside _ (by omega) r (by omega), ih (by omega), interchangesFrom,
      Equiv.Perm.mul_apply, pivotFrom_add]

/-- The pivots that a run finds are recorded, and the others stay as they are. -/
theorem getElem?_pivots_run_from (s : Stage α) {count : Nat}
    (hcount : ∀ i < count, k + i < s.pivots.size) (i : Nat) :
    (s.run m stop k count).pivots[i]? =
      if k ≤ i ∧ i < k + count then some (s.pivotFrom m stop k i) else s.pivots[i]? := by
  induction count with
  | zero => exact (if_neg (by omega)).symm
  | succ count ih =>
    have hsize := size_pivots_run m stop k s count
    have hlast := hcount count (Nat.lt_succ_self count)
    have hbefore := ih fun i hi => hcount i (by omega)
    rw [run, step, Array.getElem?_setIfInBounds, hbefore, hsize]
    rcases eq_or_ne (k + count) i with rfl | hne
    · rw [if_pos rfl, if_pos (by omega), if_pos (by omega), pivotFrom_add]
    · rw [if_neg hne]
      exact if_congr (by omega) rfl rfl

/-- The interchanges are those of two different rows. -/
theorem swaps_run_from (s : Stage α) (count : Nat) :
    (s.run m stop k count).status.swaps = s.status.swaps +
      ((Finset.Ico k (k + count)).filter fun i => s.pivotFrom m stop k i ≠ i).card := by
  induction count with
  | zero => simp [run]
  | succ count ih =>
    have hlast : k + count ∉ (Finset.Ico k (k + count)).filter fun i =>
        s.pivotFrom m stop k i ≠ i := by
      intro hmem
      have hlt := (Finset.mem_Ico.1 (Finset.mem_filter.1 hmem).1).2
      omega
    have hrange : Finset.Ico k (k + (count + 1)) = insert (k + count) (Finset.Ico k (k + count)) :=
      Nat.Ico_succ_right_eq_insert_Ico (Nat.le_add_right k count)
    rw [run, hrange, Finset.filter_insert]
    change (run m stop k s count).status.swaps + _ = _
    rw [ih, ← pivotFrom_add]
    by_cases hsame : s.pivotFrom m stop k (k + count) = k + count
    · rw [if_pos hsame, if_neg (not_not.2 hsame), Nat.add_zero]
    · rw [if_neg hsame, if_pos hsame, Finset.card_insert_of_notMem hlast, Nat.add_assoc]

/-! ## Panels -/

/-- The stage after the columns `[k, stop)`, as far as there are rows. -/
def panel (m stop k : Nat) (s : Stage α) : Stage α := s.run m stop k (min stop m - k)

/-- A column without a pivot that was met before the panel stays the first one. -/
theorem firstNull_panel_of_some {s : Stage α} {i : Nat} (hi : s.status.firstNull = some i) :
    (s.panel m stop k).status.firstNull = some i := by
  rw [panel, firstNull_run_or, hi, Option.some_or]

section Panel

variable {s : Stage α} (hpivots : ∀ i, k ≤ i → i < min stop m → i < s.pivots.size)

include hpivots

theorem getElem?_pivots_panel (i : Nat) : (s.panel m stop k).pivots[i]? =
    if k ≤ i ∧ i < min stop m then some (s.pivotFrom m stop k i) else s.pivots[i]? := by
  have hcount : ∀ i < min stop m - k, k + i < s.pivots.size := by
    intro i hi
    exact hpivots (k + i) (by omega) (by omega)
  rw [panel, s.getElem?_pivots_run_from hcount]
  exact if_congr (by omega) rfl rfl

/-- The recorded pivots are those that were found. -/
theorem panelOrder_panel :
    panelOrder (s.panel m stop k).pivots k (min stop m) =
      interchangesFrom (s.pivotFrom m stop k) k (min stop m - k) := by
  refine interchangesFrom_congr fun i hi => ?_
  rw [Array.getD_eq_getD_getElem?, getElem?_pivots_panel hpivots, if_pos (by omega),
    Option.getD_some]

theorem panelOrder_panel_lt {r : Nat} (hr : r < m) :
    panelOrder (s.panel m stop k).pivots k (min stop m) r < m := by
  rw [panelOrder_panel hpivots]
  refine interchangesFrom_lt ?_ hr
  intro i hi
  have hrow : k + i < m := by omega
  exact ⟨hrow, s.pivotFrom_lt stop k hrow⟩

theorem swaps_panel :
    (s.panel m stop k).status.swaps = s.status.swaps +
      ((Finset.Ico k (min stop m)).filter fun i =>
        (s.panel m stop k).pivots[i]? ≠ some i).card := by
  have hrange : Finset.Ico k (k + (min stop m - k)) = Finset.Ico k (min stop m) := by
    ext i
    simp only [Finset.mem_Ico]
    omega
  rw [panel, swaps_run_from, hrange]
  refine congrArg _ (congrArg Finset.card (Finset.filter_congr fun i hi => ?_))
  have hfound := getElem?_pivots_panel hpivots i
  rw [panel, if_pos (Finset.mem_Ico.1 hi)] at hfound
  rw [hfound, ne_eq, ne_eq, Option.some.injEq]

end Panel

end Stage

/-! ## The factors of a panel -/

section Exact

variable {K R : Type} [LinearOrder R] [RealArith R] [ExactScalar K R] [LawfulOrder R]
  {m stop k : Nat}

/-- The block of a panel is accounted for by what the panel leaves in its place. -/
theorem Stage.accounts_panel (m stop k : Nat) (s : Stage K) :
    Accounts (m - k) (stop - k) (min stop m - k) (fromCorner k s.cells)
      (fromCorner k (s.panel m stop k).cells)
      (interchanges (pivotsFound (m - k) (stop - k) (fromCorner k s.cells))
        (min stop m - k)) := by
  have hcount : min stop m - k ≤ m - k := by omega
  have hrun := Accounts.run (n := stop - k) (fromCorner k s.cells) hcount
  rwa [fromCorner_run rfl] at hrun

/-- The block of a panel, with its rows in order, is the product of the factors that the panel
leaves. -/
theorem Stage.lower_mul_upper_panel (s : Stage K) {r c : Nat} (hkr : k ≤ r) (hr : r < m)
    (hkc : k ≤ c) (hc : c < stop) :
    ∑ l ∈ Finset.Ico k (min stop m), lowerCells (s.panel m stop k).cells r l *
        upperCells (s.panel m stop k).cells l c =
      s.cells (interchangesFrom (s.pivotFrom m stop k) k (min stop m - k) r) c := by
  obtain ⟨r, rfl⟩ := Nat.exists_eq_add_of_le hkr
  obtain ⟨c, rfl⟩ := Nat.exists_eq_add_of_le hkc
  have hsteps : min stop m - k = min (m - k) (stop - k) := by omega
  have haccounts := s.accounts_panel m stop k
  rw [interchangesFrom_add fun i _ => s.pivotFrom_eq_found i, Finset.sum_Ico_eq_sum_range]
  generalize (s.panel m stop k).cells = W at haccounts ⊢
  rw [hsteps] at haccounts ⊢
  have hr' : r < m - k := by omega
  have hc' : c < stop - k := by omega
  refine Eq.trans (Finset.sum_congr rfl fun l _ => ?_) (lower_mul_upper haccounts hr' hc')
  unfold lowerCells upperCells fromCorner
  simp only [Nat.add_lt_add_iff_left, Nat.add_left_cancel_iff]

/-- If no column without a pivot was met before, the first one is the first zero that the panel
leaves on the diagonal. -/
theorem Stage.firstNull_panel_of_none (s : Stage K) (hnone : s.status.firstNull = none) (i : Nat) :
    (s.panel m stop k).status.firstNull = some i ↔
      IsLeast {i | k ≤ i ∧ i < min stop m ∧ (s.panel m stop k).cells i i = 0} i := by
  rw [panel, firstNull_run_or, hnone, Option.none_or, List.find?_range'_eq_some]
  simp only [ExactScalar.isNull_iff, List.mem_range'_1, Bool.not_eq_true', ← Bool.not_eq_true]
  constructor
  · rintro ⟨hzero, ⟨hk, hi⟩, hbefore⟩
    refine ⟨⟨hk, by omega, hzero⟩, ?_⟩
    rintro j ⟨hj, -, hzero'⟩
    by_contra hlt
    exact hbefore j hj (by omega) hzero'
  · rintro ⟨⟨hk, hi, hzero⟩, hleast⟩
    refine ⟨hzero, ⟨hk, by omega⟩, ?_⟩
    intro j hj hlt hzero'
    have hle : i ≤ j := hleast ⟨hj, by omega, hzero'⟩
    omega

/-- The panel `[k, stop)` of a matrix has been factored. -/
structure PanelFactored (k stop : Nat) (before after : Sweep K) : Prop where
  /-- The dimensions and the kind are those of before. -/
  frame : after.matrix.shape = before.matrix.shape ∧ after.matrix.kind = before.matrix.kind ∧
    after.matrix.data.size = before.matrix.data.size
  /-- The rows before the panel stay as they are. -/
  above : ∀ r c, r < k → r < before.matrix.rows → c < before.matrix.cols →
    after.matrix.cell r c = before.matrix.cell r c
  /-- The columns outside the panel have their rows in the order of the pivots. -/
  outside : ∀ r c, r < before.matrix.rows → c < before.matrix.cols → c < k ∨ stop ≤ c →
    after.matrix.cell r c =
      before.matrix.cell (panelOrder after.pivots k (min stop before.matrix.rows) r) c
  /-- The panel with its rows in this order is the product of its two factors. -/
  inside : ∀ r c, k ≤ r → r < before.matrix.rows → k ≤ c → c < stop →
    ∑ l ∈ Finset.Ico k (min stop before.matrix.rows),
      lowerCells after.matrix.cell r l * upperCells after.matrix.cell l c =
    before.matrix.cell (panelOrder after.pivots k (min stop before.matrix.rows) r) c
  /-- A pivot of the panel comes from the diagonal or from below it. -/
  pivots_inside : ∀ i, k ≤ i → i < min stop before.matrix.rows →
    ∃ p, after.pivots[i]? = some p ∧ i ≤ p ∧ p < before.matrix.rows
  /-- The other pivots stay as they are. -/
  pivots_outside : ∀ i, i < k ∨ min stop before.matrix.rows ≤ i →
    after.pivots[i]? = before.pivots[i]?
  /-- The interchanges of two different rows are counted. -/
  swaps : after.status.swaps = before.status.swaps +
    ((Finset.Ico k (min stop before.matrix.rows)).filter fun i => after.pivots[i]? ≠ some i).card
  /-- A column without a pivot that was met before stays the first one. -/
  null_kept : ∀ i, before.status.firstNull = some i → after.status.firstNull = some i
  /-- Otherwise it is the first one of the panel whose diagonal cell is zero, if there is one. -/
  null_found : before.status.firstNull = none → ∀ i, after.status.firstNull = some i ↔
    IsLeast {i | k ≤ i ∧ i < min stop before.matrix.rows ∧ after.matrix.cell i i = 0} i

/-- The elimination of a panel factors it. -/
theorem panelFactored_panel {shape : Shape} {kind : NumericKind} {height : Nat} (s : Stage K)
    (hrows : shape.rows ≤ height) (hstop : stop ≤ shape.cols)
    (hpivots : ∀ i, k ≤ i → i < min stop shape.rows → i < s.pivots.size) :
    PanelFactored k stop (s.sweep shape kind height)
      ((s.panel shape.rows stop k).sweep shape kind height) := by
  have hcell (t : Stage K) (r c : Nat) (hr : r < shape.rows) (hc : c < shape.cols) :
      (t.sweep shape kind height).matrix.cell r c = t.cells r c :=
    cell_ofCells (by omega) hc
  -- the cell of before that the order of the pivots brings to row `r`
  have hordered (r c : Nat) (hr : r < shape.rows) (hc : c < shape.cols) :
      (s.sweep shape kind height).matrix.cell
        (panelOrder (s.panel shape.rows stop k).pivots k (min stop shape.rows) r) c =
      s.cells (interchangesFrom (s.pivotFrom shape.rows stop k) k (min stop shape.rows - k) r)
        c := by
    rw [hcell _ _ c (Stage.panelOrder_panel_lt hpivots hr) hc, Stage.panelOrder_panel hpivots]
  constructor
  case frame => exact ⟨rfl, rfl, by simp [Stage.sweep]⟩
  case above =>
    intro r c hrk hr hc
    rw [hcell _ r c hr hc, hcell _ r c hr hc, Stage.panel, s.cells_run_of_lt _ hrk]
  case outside =>
    intro r c hr hc hout
    exact (hcell _ r c hr hc).trans
      ((s.cells_run_outside (by omega) r hout).trans (hordered r c hr hc).symm)
  case inside =>
    intro r c hkr hr hkc hc
    have hr : r < shape.rows := hr
    have hc' : c < shape.cols := by omega
    refine Eq.trans ?_
      ((s.lower_mul_upper_panel hkr hr hkc hc).trans (hordered r c hr hc').symm)
    refine Finset.sum_congr rfl fun l hl => ?_
    have hl : k ≤ l ∧ l < min stop shape.rows := Finset.mem_Ico.1 hl
    unfold lowerCells upperCells
    rw [hcell _ r l hr (by omega), hcell _ l c (by omega) hc']
  case pivots_inside =>
    intro i hi hi'
    have hi' : i < min stop shape.rows := hi'
    exact ⟨_, (Stage.getElem?_pivots_panel hpivots i).trans (if_pos ⟨hi, hi'⟩),
      s.le_pivotFrom _ _ _ i, s.pivotFrom_lt stop k (by omega)⟩
  case pivots_outside =>
    intro i hi
    have hi : i < k ∨ min stop shape.rows ≤ i := hi
    exact (Stage.getElem?_pivots_panel hpivots i).trans (if_neg (by omega))
  case swaps => exact Stage.swaps_panel hpivots
  case null_kept =>
    intro i hi
    exact Stage.firstNull_panel_of_some hi
  case null_found =>
    intro hnone i
    have hset : {i | k ≤ i ∧ i < min stop shape.rows ∧
        ((s.panel shape.rows stop k).sweep shape kind height).matrix.cell i i = 0} =
        {i | k ≤ i ∧ i < min stop shape.rows ∧ (s.panel shape.rows stop k).cells i i = 0} := by
      ext j
      refine and_congr_right fun _ => and_congr_right fun hj => ?_
      rw [hcell _ j j (by omega) (by omega)]
    exact (s.firstNull_panel_of_none hnone i).trans (iff_of_eq (congrArg (IsLeast · i) hset.symm))

/-- The elimination of a panel of a matrix with a single page brings the sweep up to date for the
columns of the panel, over exact scalars and in all surroundings, if the number of interchanges is
a machine word afterwards. If it is not, there is an overflow. -/
theorem factorPanel_factored (before : Sweep K) {width : Nat} (ha : before.matrix.Stored)
    (hpage : before.matrix.SinglePage) (hend : k + width < Size.limit)
    (hpivots : ∀ i, k ≤ i → i < min (min (k + width) before.matrix.cols) before.matrix.rows →
      i < before.pivots.size)
    (hswaps : before.status.swaps < Size.limit) :
    ∃ after, PanelFactored k (min (k + width) before.matrix.cols) before after ∧
      ∀ ambient,
        (after.status.swaps < Size.limit → ∃ ambient',
          (factorPanel k width before).run ambient = .ok (after, ambient')) ∧
        (Size.limit ≤ after.status.swaps →
          (factorPanel k width before).run ambient = .error .overflow) := by
  let s : Stage K := ⟨before.matrix.cell, before.pivots, before.status⟩
  have hbefore : s.sweep before.matrix.shape before.matrix.kind before.matrix.rows = before :=
    congrArg (fun a => (⟨a, before.pivots, before.status⟩ : Sweep K))
      (ha.eq_ofCells_of_singlePage hpage).symm
  let after := (s.panel before.matrix.rows (min (k + width) before.matrix.cols) k).sweep
    before.matrix.shape before.matrix.kind before.matrix.rows
  have hfactored : PanelFactored k (min (k + width) before.matrix.cols) before after := by
    rw [← hbefore]
    exact panelFactored_panel s (Nat.le_refl before.matrix.shape.rows) (Nat.min_le_right _ _)
      hpivots
  have hpanel : eliminatePanel k width before =
      if after.status.swaps < Size.limit then .ok after else .error .overflow := by
    rw [← hbefore]
    exact eliminatePanel_eq before.matrix.kind s (Nat.le_refl before.matrix.shape.rows) hend hpivots
      hswaps
  refine ⟨after, hfactored, ?_⟩
  intro ambient
  constructor
  · intro hcounted
    exact exists_run_factorPanel (hpanel.trans (if_pos hcounted)) ambient
  · intro hover
    exact run_factorPanel_of_error (hpanel.trans (if_neg (Nat.not_lt.2 hover))) ambient

end Exact

/-- A square matrix whose second row has to be exchanged. -/
def innerZero : PagedMatrix ℝ :=
  { shape := { rows := 3, cols := 3 }, data := #[1, 1, 1, 1, 0, 1, 1, 1, 0] }

theorem stored_innerZero : innerZero.Stored :=
  ⟨rfl, by decide, by decide, by decide⟩

/-- A panel between two other columns, with the greatest number of interchanges before it. -/
theorem factorPanel_factored_innerZero :
    innerZero.Stored ∧ innerZero.SinglePage ∧ 1 + 1 < Size.limit ∧
      (∀ i, 1 ≤ i → i < min (min (1 + 1) innerZero.cols) innerZero.rows → i < #[0, 0, 0].size) ∧
      2 ^ 64 - 2 < Size.limit ∧
      ∃ after ambient,
        PanelFactored 1 2 ⟨innerZero, #[0, 0, 0], { swaps := 2 ^ 64 - 2 }⟩ after ∧
        (factorPanel 1 1 ⟨innerZero, #[0, 0, 0], { swaps := 2 ^ 64 - 2 }⟩).run {} =
          .ok (after, ambient) := by
  have hpage : innerZero.SinglePage := rfl
  obtain ⟨after, hfactored, hrun⟩ :=
    factorPanel_factored ⟨innerZero, #[0, 0, 0], { swaps := 2 ^ 64 - 2 }⟩ stored_innerZero hpage
      (show 1 + 1 < Size.limit by decide) (by decide) (by decide)
  have hswaps : after.status.swaps = 2 ^ 64 - 2 +
      ((Finset.Ico 1 2).filter fun i => after.pivots[i]? ≠ some i).card := hfactored.swaps
  have hcounted : after.status.swaps < Size.limit := by
    have hcard := Finset.card_filter_le (Finset.Ico 1 2) fun i => after.pivots[i]? ≠ some i
    have hlimit : Size.limit = 2 ^ 64 := rfl
    rw [Nat.card_Ico] at hcard
    omega
  obtain ⟨ambient, hrun⟩ := (hrun {}).1 hcounted
  exact ⟨stored_innerZero, hpage, by decide, by decide, by decide, after, ambient, hfactored, hrun⟩

theorem pivotOf_innerZero : pivotOf 3 innerZero.cell 1 = 2 := by
  have hdiagonal : (Scalar.modulus (innerZero.cell 1 1) : ℝ) = 0 := by
    rw [modulus_eq_abs, abs_eq_zero]
    rfl
  have hbelow : (Scalar.modulus (innerZero.cell 2 1) : ℝ) = 1 := by
    rw [modulus_eq_abs]
    exact abs_one
  have hless : RealArith.lt (0 : ℝ) 1 = true := (LawfulOrder.lt_iff _ _).2 zero_lt_one
  simp only [pivotOf, bestRow, Nat.reduceAdd, Nat.reduceSub, Nat.add_zero, hdiagonal, hbelow, hless,
    if_true]

/-- With one interchange more before it, the number of interchanges is not a machine word. -/
theorem factorPanel_overflow_innerZero :
    innerZero.Stored ∧ innerZero.SinglePage ∧ 1 ≤ min innerZero.rows innerZero.cols ∧
      (∀ i, 1 ≤ i → i < min (min (1 + 1) innerZero.cols) innerZero.rows → i < #[0, 0, 0].size) ∧
      2 ^ 64 - 1 < Size.limit ∧
      (factorPanel 1 1 ⟨innerZero, #[0, 0, 0], { swaps := 2 ^ 64 - 1 }⟩).run {} =
        .error .overflow := by
  let s : Stage ℝ := ⟨innerZero.cell, #[0, 0, 0], { swaps := 2 ^ 64 - 1 }⟩
  have hstart : s.sweep innerZero.shape innerZero.kind 3 =
      ⟨innerZero, #[0, 0, 0], { swaps := 2 ^ 64 - 1 }⟩ :=
    congrArg (fun a => (⟨a, _, _⟩ : Sweep ℝ))
      (stored_innerZero.eq_ofCells_of_singlePage rfl).symm
  have hswaps : (s.step 3 2 1).status.swaps = 2 ^ 64 := by
    have hmoved : pivotOf 3 s.cells 1 ≠ 1 := by
      rw [show pivotOf 3 s.cells 1 = 2 from pivotOf_innerZero]
      decide
    have hcount : (s.step 3 2 1).status.swaps =
        2 ^ 64 - 1 + if pivotOf 3 s.cells 1 = 1 then 0 else 1 := rfl
    rw [hcount, if_neg hmoved, Nat.sub_add_cancel Nat.one_le_two_pow]
  have hpanel := eliminatePanel_eq innerZero.kind s (Nat.le_refl innerZero.shape.rows)
    (show 1 + 1 < Size.limit by decide) (by decide) (show 2 ^ 64 - 1 < Size.limit by decide)
  have hfault : eliminatePanel 1 1 ⟨innerZero, #[0, 0, 0], { swaps := 2 ^ 64 - 1 }⟩ =
      .error .overflow := by
    rw [← hstart]
    refine hpanel.trans (if_neg ?_)
    exact Nat.not_lt.2 hswaps.ge
  exact ⟨stored_innerZero, rfl, by decide, by decide, by decide,
    run_factorPanel_of_error hfault {}⟩

end Lu

end DenseLinear
