import DenseLinear.Proofs.BlockedElimination

/-!
# Sizes that reach beyond the matrix

A kernel that works in tiles or in panels cuts off a size that reaches beyond the matrix. So the edge
of the tiles does not matter to an update (`updateByTiles_of_not_overflows`), nor does the width of a
panel that reaches the last column (`eliminatePanel_cut_off`).

An end is computed before it is cut off, though, and where it is not a machine word there is a fault
(`updateByTiles_of_overflows`). For tiles only the rows decide about that: where there are rows, memory
bounds the columns so far below the machine words that only the first tile could end beyond them, and
it ends there in both directions.
-/

namespace DenseLinear

namespace Lu

open PagedMatrix

variable {α ρ : Type} [Scalar α ρ]

/-! ## Tiles -/

/-- In a loop from `start` to `stop` with tiles of a given edge, the end of some tile is not a machine
word. -/
def TileOverflows (start stop edge : Nat) : Prop :=
  ∃ t, start + t * edge < stop ∧ Size.limit ≤ start + t * edge + edge

section Tiles

variable {shape : Shape} {kind : NumericKind} {height k width edge : Nat} {f : Nat → Nat → α}

omit [Scalar α ρ] in
/-- Where no tile overflows, all of them end at a machine word. -/
theorem end_lt_of_not_overflows {start stop i : Nat} (h : ¬ TileOverflows start stop edge)
    (hstart : start ≤ i) (hstop : i < stop) (hdvd : edge ∣ i - start) :
    i + edge < Size.limit := by
  obtain ⟨t, ht⟩ := hdvd
  by_contra hover
  have hi : start + t * edge = i := by
    rw [Nat.mul_comm, ← ht, Nat.add_sub_cancel' hstart]
  exact h ⟨t, by omega, by omega⟩

/-- The tiles update the whole trailing block, whatever their edge is, if none of them overflows. -/
theorem updateByTiles_of_not_overflows (hrows : shape.rows ≤ height) (hkr : k + width ≤ shape.rows)
    (hkc : k + width ≤ shape.cols) (hcols : 0 < shape.rows → shape.cols ≤ capacityLimit)
    (hword : k + width < Size.limit)
    (h : ¬ TileOverflows (k + width) shape.rows (max edge 1)) :
    updateByTiles (ofCells shape kind height f) k width edge =
      .ok (ofCells shape kind height (trailing (· - ·) shape.rows shape.cols k width f)) := by
  refine updateByTiles_of_ends hrows hkr hkc hword ?_ ?_
  · intro ii hii hii' hdvd
    exact end_lt_of_not_overflows h hii hii' hdvd
  · intro hsome jj hjj hjj' hdvd
    have hfirst := end_lt_of_not_overflows h (Nat.le_refl _) hsome (by simp)
    exact stride_end_lt hfirst (hcols (by omega)) hjj hjj' hdvd

/-- A row of tiles whose end is not a machine word is not updated. -/
theorem updateTileRow_of_overflow {start ii : Nat} (a : PagedMatrix α)
    (h : Size.limit ≤ ii + edge) : updateTileRow k start edge ii a = .error .overflow := by
  unfold updateTileRow spanFrom
  rw [Size.add, if_neg (Nat.not_lt.2 h)]
  rfl

/-- The update ends in a fault if a tile overflows. -/
theorem updateByTiles_of_overflows (hrows : shape.rows ≤ height) (hkr : k + width ≤ shape.rows)
    (hkc : k + width ≤ shape.cols) (hcols : 0 < shape.rows → shape.cols ≤ capacityLimit)
    (hword : k + width < Size.limit) (h : TileOverflows (k + width) shape.rows (max edge 1)) :
    updateByTiles (ofCells shape kind height f) k width edge = .error .overflow := by
  rw [updateByTiles_eq _ hword, rows_ofCells]
  generalize hedge : max edge 1 = edge at h ⊢
  -- the rows of tiles before the first one that overflows are updated
  classical
  obtain ⟨hbefore, hover⟩ := Nat.find_spec h
  have hearlier : ∀ t < Nat.find h, k + width + t * edge + edge < Size.limit := by
    intro t ht
    have hle : t * edge ≤ Nat.find h * edge := Nat.mul_le_mul_right _ (Nat.le_of_lt ht)
    have hnot := Nat.find_min h ht
    omega
  generalize Nat.find h = before at hbefore hover hearlier
  let S (t : Nat) : PagedMatrix α := ofCells shape kind height
    (trailing (· - ·) (min (k + width + t * edge) shape.rows) shape.cols k width f)
  have hstart : ofCells shape kind height f = S 0 := by
    dsimp only [S]
    rw [Nat.zero_mul, Nat.add_zero, Nat.min_eq_left hkr, trailing_start]
  rw [hstart]
  refine strides_eq_error S (by omega) ?_ (updateTileRow_of_overflow _ hover) hbefore
  intro t ht
  have hle : t * edge ≤ before * edge := Nat.mul_le_mul_right _ (Nat.le_of_lt ht)
  have hfirst : k + width + edge < Size.limit := by
    have h0 := hearlier 0 (by omega)
    omega
  have hnext : k + width + (t + 1) * edge = k + width + t * edge + edge := by ring
  dsimp only [S]
  rw [hnext, Nat.min_eq_left (by omega)]
  exact updateTileRow_ofCells hrows hkr hkc (by omega) (by omega) (by omega) (hearlier t ht)
    fun jj hjj hjj' hdvd => stride_end_lt hfirst (hcols (by omega)) hjj hjj' hdvd

/-- Tiles of edge one do not overflow. -/
theorem not_tileOverflows_one {start stop : Nat} (hstop : stop < Size.limit) :
    ¬ TileOverflows start stop 1 := by
  rintro ⟨t, ht, hover⟩
  omega

end Tiles

/-! ## Panels -/

section Panels

variable [RealArith ρ] {k width : Nat} {sweep : Sweep α}

/-- A panel that reaches beyond the last column is cut off there. -/
theorem eliminatePanel_cut_off (hk : k ≤ sweep.matrix.cols) (hwidth : sweep.matrix.cols - k ≤ width)
    (hword : k + width < Size.limit) :
    eliminatePanel k width sweep = eliminatePanel k (sweep.matrix.cols - k) sweep := by
  unfold eliminatePanel
  rw [Size.add_eq_ok hword, Size.add_eq_ok (by omega), ok_bind, ok_bind,
    Nat.min_eq_right (by omega), Nat.min_eq_right (by omega)]

theorem eliminatePanel_of_overflow (h : Size.limit ≤ k + width) :
    eliminatePanel k width sweep = .error .overflow := by
  unfold eliminatePanel
  rw [Size.add, if_neg (Nat.not_lt.2 h)]
  rfl

/-- A panel below the last row has no columns to eliminate. -/
theorem eliminatePanel_of_le (hk : min sweep.matrix.rows sweep.matrix.cols ≤ k)
    (hword : k + width < Size.limit) : eliminatePanel k width sweep = .ok sweep := by
  unfold eliminatePanel
  rw [Size.add_eq_ok hword, ok_bind]
  exact ascend_of_le (by omega) _ _

/-- The elimination of a panel only tells its surroundings about a missing pivot. -/
theorem exists_run_factorPanel {found : Sweep α} (h : eliminatePanel k width sweep = .ok found)
    (ambient : Ambient) : ∃ after, (factorPanel k width sweep).run ambient = .ok (found, after) := by
  have hpure : (checked (.ok found) : Ambience (Sweep α)) = pure found := rfl
  unfold factorPanel
  dsimp only
  rw [h, hpure, pure_bind]
  split
  · exact ⟨_, rfl⟩
  · exact ⟨_, rfl⟩

/-- A fault in the elimination of a panel is all that comes of it. -/
theorem run_factorPanel_of_error {fault : Fault}
    (h : eliminatePanel k width sweep = .error fault) (ambient : Ambient) :
    (factorPanel k width sweep).run ambient = .error fault := by
  unfold factorPanel
  rw [h]
  rfl

/-- The elimination of a panel up to the last column succeeds. -/
theorem exists_eliminatePanel {a : PagedMatrix α} (ha : a.Stored) (hpage : a.HasPage)
    {pivots : Array Nat} (hk : k ≤ a.cols)
    (hpivots : ∀ i, k ≤ i → i < min a.rows a.cols → i < pivots.size) :
    ∃ found, eliminatePanel k (a.cols - k) ⟨a, pivots, {}⟩ = .ok found := by
  have hrows_lt := ha.rows_lt
  have hcols_lt := ha.cols_lt
  have hword : k + (a.cols - k) < Size.limit := by omega
  rcases Nat.lt_or_ge k (min a.rows a.cols) with hsome | hnone
  · -- the last pivot that is written has a place in the list
    have hlast := hpivots (min a.rows a.cols - 1) (by omega) (by omega)
    obtain ⟨shape, kind, height, f, rfl, hrows, -, -⟩ := ha.exists_ofCells hpage
    rw [rows_ofCells] at hrows_lt
    rw [rows_ofCells, cols_ofCells] at hlast
    exact ⟨_, eliminatePanel_eq_ok kind ⟨f, pivots, {}⟩ hrows hword (by dsimp only; omega)
      (Nat.zero_le k) hrows_lt⟩
  · exact ⟨_, eliminatePanel_of_le hnone hword⟩

end Panels

section Sizes

variable [RealArith ρ] {a : PagedMatrix α}

/-- On a matrix with a page, neither the edge of the tiles of an update nor the width of a panel that
reaches the last column makes any difference, in all surroundings and for entries without any laws.
The only exceptions are tiles and panels whose ends are not machine words, which are a fault. -/
theorem sizes_cut_off (ha : a.Stored) (hpage : a.HasPage) :
    (∀ k width, k + width ≤ min a.rows a.cols → ∃ b, updateByTiles a k width 1 = .ok b ∧
      ∀ edge,
        (¬ TileOverflows (k + width) a.rows (max edge 1) → updateByTiles a k width edge = .ok b) ∧
        (TileOverflows (k + width) a.rows (max edge 1) →
          updateByTiles a k width edge = .error .overflow)) ∧
    ∀ k pivots ambient, k ≤ a.cols →
      (∀ i, k ≤ i → i < min a.rows a.cols → i < pivots.size) →
      ∃ found after,
        (factorPanel k (a.cols - k) ⟨a, pivots, {}⟩).run ambient = .ok (found, after) ∧
        ∀ width, a.cols - k ≤ width →
          (factorPanel k width ⟨a, pivots, {}⟩).run ambient =
            if k + width < Size.limit then .ok (found, after) else .error .overflow := by
  constructor
  · intro k width hle
    have hrows_lt := ha.rows_lt
    have hfits := ha.fits.le_capacityLimit
    obtain ⟨shape, kind, height, f, rfl, hrows, -, -⟩ := ha.exists_ofCells hpage
    rw [PagedMatrix.size, size_ofCells] at hfits
    rw [rows_ofCells] at hrows_lt
    rw [rows_ofCells, cols_ofCells] at hle
    have hcols : 0 < shape.rows → shape.cols ≤ capacityLimit := fun hsome =>
      (Nat.le_mul_of_pos_left _ (by omega)).trans hfits
    have hkr : k + width ≤ shape.rows := by omega
    have hkc : k + width ≤ shape.cols := by omega
    have hword : k + width < Size.limit := by omega
    refine ⟨_, updateByTiles_of_not_overflows hrows hkr hkc hcols hword
      (not_tileOverflows_one hrows_lt), ?_⟩
    intro edge
    exact ⟨updateByTiles_of_not_overflows hrows hkr hkc hcols hword,
      updateByTiles_of_overflows hrows hkr hkc hcols hword⟩
  · intro k pivots ambient hk hpivots
    obtain ⟨found, hfound⟩ := exists_eliminatePanel ha hpage hk hpivots
    obtain ⟨after, hrun⟩ := exists_run_factorPanel hfound ambient
    refine ⟨found, after, hrun, ?_⟩
    intro width hwidth
    rw [← hrun]
    unfold factorPanel
    split
    · rw [eliminatePanel_cut_off hk hwidth ‹_›]
    · rw [eliminatePanel_of_overflow (by omega)]
      rfl

end Sizes

/-- A square matrix of two rows. -/
def smallSquare : PagedMatrix Float :=
  { shape := { rows := 2, cols := 2 }, data := #[2, 1, 1, 1] }

theorem stored_smallSquare : smallSquare.Stored := ⟨rfl, by decide, by decide, by decide⟩

/-- The greatest sizes whose ends are machine words. -/
theorem sizes_cut_off_smallSquare :
    smallSquare.Stored ∧ smallSquare.HasPage ∧
      (∃ b, updateByTiles smallSquare 0 1 1 = .ok b ∧
        updateByTiles smallSquare 0 1 (2 ^ 64 - 2) = .ok b) ∧
      ∃ found after, (factorPanel 1 1 ⟨smallSquare, #[0, 0], {}⟩).run {} = .ok (found, after) ∧
        (factorPanel 1 (2 ^ 64 - 2) ⟨smallSquare, #[0, 0], {}⟩).run {} = .ok (found, after) := by
  have hpage : smallSquare.HasPage := by decide
  obtain ⟨htiles, hpanels⟩ := sizes_cut_off stored_smallSquare hpage
  obtain ⟨b, hone, hedge⟩ := htiles 0 1 (by decide)
  obtain ⟨found, after, hrun, hwidth⟩ := hpanels 1 #[0, 0] {} (by decide) (by
    intro i _ hi
    exact hi)
  have hword : ¬ TileOverflows 1 2 (2 ^ 64 - 2) := by
    rintro ⟨t, ht, hover⟩
    have hlimit : Size.limit = 2 ^ 64 := rfl
    omega
  exact ⟨stored_smallSquare, hpage, ⟨b, hone, (hedge (2 ^ 64 - 2)).1 hword⟩, found, after, hrun,
    hwidth (2 ^ 64 - 2) (by decide)⟩

/-- The greatest sizes of all are not cut off. -/
theorem overflow_smallSquare :
    smallSquare.Stored ∧ smallSquare.HasPage ∧
      0 + 1 ≤ min smallSquare.rows smallSquare.cols ∧
      updateByTiles smallSquare 0 1 (2 ^ 64 - 1) = .error .overflow ∧
      smallSquare.cols - 1 ≤ 2 ^ 64 - 1 ∧
      (factorPanel 1 (2 ^ 64 - 1) ⟨smallSquare, #[0, 0], {}⟩).run {} = .error .overflow := by
  have hword : Size.limit ≤ 1 + (2 ^ 64 - 1) := by decide
  have hpanel : (factorPanel 1 (2 ^ 64 - 1) ⟨smallSquare, #[0, 0], {}⟩).run {} =
      .error .overflow := by
    unfold factorPanel
    rw [eliminatePanel_of_overflow hword]
    rfl
  exact ⟨stored_smallSquare, by decide, by decide, rfl, by decide, hpanel⟩

end Lu

end DenseLinear
