import DenseLinear.Proofs.Blocks
import DenseLinear.Proofs.Reduction
import DenseLinear.Real.Machine

/-!
# QR factorisations of leading columns

The factorisation goes through the columns from left to right. A step changes no column before its
own (`reduced_of_lt_col`), and the columns after it have no share in its reflection. So a matrix of
leading columns is factored as a part of the whole matrix is: its packed columns, its factors and
its phases are the first ones of the whole factorisation (`factor_leading_columns`). Nothing is
asked of the entries.

The two factorisations take different numbers of steps. They agree on the columns that are finished
when the shorter one stops (`Reduction.cells_run_add`); if it stops for lack of rows, so does the
other one.
-/

namespace DenseLinear

open PagedMatrix

/-- The matrix `part` consists of the first `count` columns of the first page of `whole`. -/
structure PagedMatrix.FirstColumns {α : Type} (count : Nat) (whole part : PagedMatrix α) : Prop where
  /-- Whole columns are taken. -/
  rows : part.rows = whole.rows
  /-- The number of columns. -/
  cols : part.cols = count
  /-- Both have the same entries there. -/
  entries : ∀ i < whole.rows, ∀ j < count, ∃ x, whole.get i j = .ok x ∧ part.get i j = .ok x

namespace Qr

variable {α ρ : Type} [Scalar α ρ]

/-- The factorisation `part` is the first `count` columns of the factorisation `whole`. -/
structure FirstFactors (count : Nat) (whole part : PackedQr α) : Prop where
  /-- The packed columns. -/
  packed : whole.packed.FirstColumns count part.packed
  /-- The factors of the reflections. -/
  taus : part.taus = whole.taus.extract 0 (min whole.packed.rows count)
  /-- The phases of the diagonal entries. -/
  phis : part.phis = whole.phis.extract 0 (min whole.packed.rows count)
  /-- There is a reflection for each column that is reduced. -/
  size_taus : part.taus.size = min whole.packed.rows count
  /-- There is a phase for each column that is reduced. -/
  size_phis : part.phis.size = min whole.packed.rows count

namespace Reduction

variable {m : Nat} {f : Nat → Nat → α}

/-- A finished column stays as it is. -/
theorem cells_run_add {count c : Nat} (hc : c < count) (more r : Nat) :
    (run m f (count + more)).cells r c = (run m f count).cells r c := by
  induction more with
  | zero => rfl
  | succ more ih =>
    show reduced .compact m (count + more) (run m f (count + more)).cells r c = _
    rw [reduced_of_lt_col (by omega), ih]

/-- Later steps append to the factors and the phases. -/
theorem exists_append_run (m : Nat) (f : Nat → Nat → α) (count more : Nat) :
    ∃ taus phis, (run m f (count + more)).taus = (run m f count).taus ++ taus ∧
      (run m f (count + more)).phis = (run m f count).phis ++ phis := by
  induction more with
  | zero => exact ⟨#[], #[], by simp, by simp⟩
  | succ more ih =>
    rcases ih with ⟨taus, phis, htaus, hphis⟩
    refine ⟨taus.push (Reflection.atColumn (run m f (count + more)).cells m (count + more)).tau,
      phis.push (Reflection.atColumn (run m f (count + more)).cells m (count + more)).phi, ?_, ?_⟩
    · rw [Array.append_push, ← htaus]
      rfl
    · rw [Array.append_push, ← hphis]
      rfl

theorem size_phis_run (m : Nat) (f : Nat → Nat → α) (count : Nat) :
    (run m f count).phis.size = count := by
  induction count with
  | zero => rfl
  | succ count ih => simp [run, step, ih]

theorem extract_append_of_size {v w : Array α} {n : Nat} (h : v.size = n) :
    v = (v ++ w).extract 0 n := by
  subst h
  rw [Array.extract_append_left, Array.extract_size]

/-- The factors and the phases of the first steps are the first ones of all. -/
theorem extract_run {count count' : Nat} (h : count ≤ count') :
    (run m f count).taus = (run m f count').taus.extract 0 count ∧
      (run m f count).phis = (run m f count').phis.extract 0 count := by
  obtain ⟨more, rfl⟩ := Nat.exists_eq_add_of_le h
  rcases exists_append_run m f count more with ⟨taus, phis, htaus, hphis⟩
  rw [htaus, hphis]
  exact ⟨extract_append_of_size (size_taus_run m f count),
    extract_append_of_size (size_phis_run m f count)⟩

/-- Fewer columns are reduced in fewer steps, but to the same entries: without rows left, more
columns do not make more steps. -/
theorem cells_run_min {n n' c : Nat} (h : n' ≤ n) (hc : c < n') (r : Nat) :
    (run m f (min m n')).cells r c = (run m f (min m n)).cells r c := by
  rcases Nat.le_total m n' with hle | hle
  · rw [Nat.min_eq_left hle, Nat.min_eq_left (hle.trans h)]
  · obtain ⟨more, hmore⟩ := Nat.exists_eq_add_of_le (show min m n' ≤ min m n by omega)
    rw [hmore, cells_run_add (by omega)]

end Reduction

variable [RealArith ρ]

section Cells

variable {shape shape' : Shape} {kind kind' : NumericKind} {f : Nat → Nat → α}

/-- Two matrices with the same cells, one of them with fewer columns. -/
theorem factor_ofCells_prefix (hrows : shape'.rows = shape.rows) (hcols : shape'.cols ≤ shape.cols)
    (hlimit : shape.rows < Size.limit) (hfits : 0 < shape.cols → Fits α shape.rows) :
    ∃ whole part, factor (ofCells shape kind shape.rows f) = .ok whole ∧
      factor (ofCells shape' kind' shape.rows f) = .ok part ∧
      FirstFactors shape'.cols whole part := by
  have hsteps : min shape.rows shape'.cols ≤ min shape.rows shape.cols := by omega
  obtain ⟨htaus, hphis⟩ := Reduction.extract_run (m := shape.rows) (f := f) hsteps
  have hpart : factor (ofCells shape' kind' shape.rows f) = _ :=
    factor_ofCells_of_cols hrows.le (hrows ▸ hlimit) fun h => hrows ▸ hfits (by omega)
  rw [hrows] at hpart
  refine ⟨_, _, factor_ofCells_of_cols (Nat.le_refl _) hlimit hfits, hpart, ?_⟩
  refine ⟨⟨hrows, rfl, ?_⟩, htaus, hphis, Reduction.size_taus_run _ _ _,
    Reduction.size_phis_run _ _ _⟩
  intro i hi j hj
  have hwhole : j < shape.cols := by omega
  refine ⟨_, get_ofCells hi hwhole, ?_⟩
  rw [get_refreshKind, ← Reduction.cells_run_min hcols hj]
  exact get_ofCells hi hj

end Cells

variable {whole part : PagedMatrix α} {count : Nat}

/-- A matrix of leading columns is factored as the leading columns of the whole matrix are. -/
theorem factor_of_firstColumns (hwhole : whole.Stored) (hpage : whole.SinglePage)
    (hpart : part.Stored) (hpage' : part.SinglePage) (h : whole.FirstColumns count part)
    (hcount : count ≤ whole.cols) :
    ∃ factors factors', factor whole = .ok factors ∧ factor part = .ok factors' ∧
      FirstFactors count factors factors' := by
  have hcols : part.cols ≤ whole.cols := h.cols ▸ hcount
  have hcells : AgreeOn whole.rows part.cols part.cell whole.cell := by
    intro r c hr hc
    obtain ⟨x, hx, hx'⟩ := h.entries r hr c (h.cols ▸ hc)
    rw [get_eq_cell (hwhole.size_eq (hwhole.height_eq hpage)) hr (by omega)] at hx
    rw [get_eq_cell (hpart.size_eq (hpart.height_eq hpage')) (h.rows ▸ hr) hc] at hx'
    exact Except.ok.inj (hx'.trans hx.symm)
  have heq : part = ofCells part.shape part.kind whole.rows whole.cell := by
    rw [← ofCells_congr hcells, ← h.rows]
    exact hpart.eq_ofCells_of_singlePage hpage'
  have hfits := hwhole.fits_rows_of_singlePage hpage
  rw [hwhole.eq_ofCells_of_singlePage hpage, heq, ← h.cols]
  exact factor_ofCells_prefix h.rows hcols hwhole.rows_lt hfits

/-- The factorisation of the first columns is the first columns of the factorisation: the packed
columns are the same, and the factors and phases are the first ones. -/
theorem factor_leading_columns (ha : whole.Stored) (hpage : whole.SinglePage)
    (hcount : count ≤ whole.cols) :
    ∃ part factors factors', whole.block 0 whole.rows 0 count = .ok part ∧
      whole.FirstColumns count part ∧ factor whole = .ok factors ∧ factor part = .ok factors' ∧
      FirstFactors count factors factors' := by
  have hfits : Fits α (whole.rows * count) :=
    (ha.fits_of_singlePage hpage).mono (Nat.mul_le_mul_left _ hcount)
  have hcopy : whole.block 0 whole.rows 0 count =
      .ok (ofCells { rows := whole.rows, cols := count } whole.kind whole.rows whole.cell) := by
    have h : (ofCells whole.shape whole.kind whole.rows whole.cell).block 0 whole.rows 0 count = _ :=
      block_ofCells (Nat.zero_le _) (Nat.le_refl _) (Nat.zero_le _) hcount ha.rows_lt hfits
    simpa only [Nat.zero_add, Nat.sub_zero, ← ha.eq_ofCells_of_singlePage hpage] using h
  have hfirst : whole.FirstColumns count
      (ofCells { rows := whole.rows, cols := count } whole.kind whole.rows whole.cell) := by
    refine ⟨rfl, rfl, fun i hi j hj => ⟨whole.cell i j, ?_, get_ofCells hi hj⟩⟩
    exact get_eq_cell (ha.size_eq (ha.height_eq hpage)) hi (by omega)
  obtain ⟨factors, factors', hwhole, hpart, hfactors⟩ := factor_of_firstColumns ha hpage
    (stored_ofCells ha.rows_lt (hcount.trans_lt ha.cols_lt) hfits) rfl hfirst hcount
  exact ⟨_, factors, factors', hcopy, hfirst, hwhole, hpart, hfactors⟩

/-- More columns than rows, and an entry that is not a number after the first column. -/
def wideWithNan : PagedMatrix Float :=
  { shape := { rows := 2, cols := 3 }, data := #[3.0, 0.0 / 0.0, 1.0, 4.0, 2.0, 0.0] }

theorem factor_leading_columns_wideWithNan :
    wideWithNan.Stored ∧ wideWithNan.SinglePage ∧ 1 ≤ wideWithNan.cols ∧
      ∃ part factors factors', wideWithNan.block 0 wideWithNan.rows 0 1 = .ok part ∧
        wideWithNan.FirstColumns 1 part ∧ factor wideWithNan = .ok factors ∧
        factor part = .ok factors' ∧ FirstFactors 1 factors factors' := by
  have hstored : wideWithNan.Stored := ⟨rfl, by decide, by decide, by decide⟩
  have hpage : wideWithNan.SinglePage := rfl
  have hcount : 1 ≤ wideWithNan.cols := by decide
  exact ⟨hstored, hpage, hcount, factor_leading_columns hstored hpage hcount⟩

end Qr

end DenseLinear
