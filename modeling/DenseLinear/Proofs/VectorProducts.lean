import DenseLinear.Multiply.Vector
import DenseLinear.Proofs.Blocks
import DenseLinear.Proofs.MultiplyAdd

/-!
# The update by a matrix and a vector

`multiplyVector` works on a block of a matrix and on windows of two vectors, for entries without any
laws. What it leaves is a vector whose window has other values (`withWindow`), one for each row of
the block (`multiplyVector_ofCells`).

The same values stand in the only column that the direct way of `multiplyAdd` computes from a copy
of the block and from copies of the windows (`multiplyVector_eq_multiplyAdd`). Both add the products
of a row in the order of its columns, starting from zero, and both rescale the old entry before they
add `alpha` times the sum, so this is an equation between entries, also where they are not numbers.
-/

namespace DenseLinear

namespace PagedMatrix

variable {α ρ : Type} [Scalar α ρ]

/-! ## Windows of vectors -/

section Windows

variable {row m : Nat} {f g : Nat → α} {y : Array α}

/-- The vector `y` with the values `f` in its window of `m` entries from `row` on. -/
def withWindow (row m : Nat) (f : Nat → α) (y : Array α) : Array α :=
  y.mapIdx fun i entry => if row ≤ i ∧ i < row + m then f (i - row) else entry

omit [Scalar α ρ] in
@[simp]
theorem size_withWindow : (withWindow row m f y).size = y.size := by
  simp [withWindow]

omit [Scalar α ρ] in
/-- Outside the window the vector is as it was. -/
theorem getElem?_withWindow_of_outside {i : Nat} (h : i < row ∨ row + m ≤ i) :
    (withWindow row m f y)[i]? = y[i]? := by
  have hout : ¬(row ≤ i ∧ i < row + m) := by omega
  simp [withWindow, hout]

omit [Scalar α ρ] in
theorem getElem?_withWindow {i : Nat} (hi : i < m) (hy : row + m ≤ y.size) :
    (withWindow row m f y)[row + i]? = some (f i) := by
  have hlt : row + i < y.size := by omega
  have hin : row ≤ row + i ∧ row + i < row + m := by omega
  simp [withWindow, hin, hlt]

omit [Scalar α ρ] in
theorem withWindow_congr (h : ∀ i < m, f i = g i) :
    withWindow row m f y = withWindow row m g y := by
  unfold withWindow
  congr 1
  funext i entry
  split
  · exact h _ (by omega)
  · rfl

omit [Scalar α ρ] in
theorem writeAt_withWindow {i : Nat} (hi : i < m) (hy : row + m ≤ y.size) (x : α) :
    writeAt (withWindow row m f y) (row + i) x =
      .ok (withWindow row m (Function.update f i x) y) := by
  have hlt : row + i < (withWindow row m f y).size := by
    rw [size_withWindow]
    omega
  rw [writeAt_eq_ok hlt]
  refine congrArg Except.ok (Array.ext_getElem? fun l => ?_)
  rw [Array.getElem?_set]
  by_cases hin : row ≤ l ∧ l < row + m
  · obtain ⟨d, rfl⟩ : ∃ d, l = row + d := ⟨l - row, by omega⟩
    rw [getElem?_withWindow (by omega) hy, getElem?_withWindow (by omega) hy, Function.update_apply]
    simp only [Nat.add_left_cancel_iff, eq_comm (a := i)]
    split <;> rfl
  · rw [if_neg (by omega), getElem?_withWindow_of_outside (by omega),
      getElem?_withWindow_of_outside (by omega)]

omit [Scalar α ρ] in
/-- The window holds its values. -/
theorem getElem?_extract_withWindow (hy : row + m ≤ y.size) (i : Nat) :
    ((withWindow row m f y).extract row (row + m))[i]? = if i < m then some (f i) else none := by
  rw [Array.getElem?_extract, size_withWindow, Nat.min_eq_left hy, Nat.add_sub_cancel_left]
  split
  · rename_i hi
    exact getElem?_withWindow hi hy
  · rfl

omit [Scalar α ρ] in
theorem size_extract_window (hy : row + m ≤ y.size) : (y.extract row (row + m)).size = m := by
  rw [Array.size_extract, Nat.min_eq_left hy, Nat.add_sub_cancel_left]

/-- A copy of a window has the entries of the window. -/
theorem getD_extract {i : Nat} (hi : i < m) :
    (y.extract row (row + m)).getD i 0 = y.getD (row + i) 0 := by
  rw [Array.getD_eq_getD_getElem?, Array.getD_eq_getD_getElem?, Array.getElem?_extract]
  split
  · rfl
  · rename_i hbeyond
    rw [Array.getElem?_eq_none (by omega)]

/-- Rescaling a window gives it the rescaled entries. -/
theorem rescaleWindow_eq_withWindow (beta : α) (row m : Nat) (y : Array α) :
    rescaleWindow beta row (row + m) y =
      withWindow row m (fun i => Scalar.rescale beta (y.getD (row + i) 0)) y := by
  unfold rescaleWindow withWindow
  refine Array.ext_getElem? fun i => ?_
  rw [Array.getElem?_mapIdx, Array.getElem?_mapIdx]
  rcases Nat.lt_or_ge i y.size with hi | hi
  · rw [getElem?_getD hi, Option.map_some, Option.map_some]
    by_cases hin : row ≤ i ∧ i < row + m
    · dsimp only
      rw [if_pos hin, if_pos hin, Nat.add_sub_cancel' hin.1]
    · rw [if_neg hin, if_neg hin]
  · rw [Array.getElem?_eq_none hi]
    rfl

end Windows

/-! ## What is left in the window -/

/-- The entries that the block `A` and the vector `X` of `n` entries leave in a window that held
`Y`. -/
def windowEntries (alpha : α) (A : Nat → Nat → α) (X : Nat → α) (n : Nat) (beta : α)
    (Y : Nat → α) : Nat → α :=
  fun i =>
    if alpha == 0 then Scalar.rescale beta (Y i)
    else Scalar.addMul (Scalar.rescale beta (Y i)) alpha (accumulate (A i) X n 0)

theorem windowEntries_congr {alpha beta : α} {A A' : Nat → Nat → α} {X X' Y Y' : Nat → α}
    {n i : Nat} (hA : ∀ l < n, A i l = A' i l) (hX : ∀ l < n, X l = X' l) (hY : Y i = Y' i) :
    windowEntries alpha A X n beta Y i = windowEntries alpha A' X' n beta Y' i := by
  simp only [windowEntries, hY, accumulate_congr hA hX]

section Cells

variable {shape : Shape} {kind : NumericKind} {height m n rowA colA rowX rowY : Nat}
  {A : Nat → Nat → α} {x y : Array α} {alpha beta : α}

theorem dotRowWindow_ofCells {r : Nat} (hr : r < height) (hcols : colA + n ≤ shape.cols)
    (hx : rowX + n ≤ x.size) :
    dotRowWindow (ofCells shape kind height A) r colA n x rowX =
      .ok (accumulate (fun j => A r (colA + j)) (fun j => x.getD (rowX + j) 0) n 0) := by
  refine ascend_eq_ok (fun l => accumulate (fun j => A r (colA + j))
    (fun j => x.getD (rowX + j) 0) l 0) (Nat.zero_le n) rfl rfl ?_
  intro l _ hl
  rw [get_ofCells hr (by omega), ok_bind, readAt_getD (by omega), ok_bind, accumulate_succ]
  rfl

/-- The update gives the window its new entries, one row of the block after the other. -/
theorem multiplyVector_ofCells (hrows : rowA + m ≤ height) (hcols : colA + n ≤ shape.cols)
    (hx : rowX + n ≤ x.size) (hy : rowY + m ≤ y.size) (hheight : height < Size.limit)
    (hshape : shape.cols < Size.limit) (hxlimit : x.size < Size.limit)
    (hylimit : y.size < Size.limit) :
    multiplyVector (ofCells shape kind height A) m n rowA colA x rowX y rowY alpha beta =
      .ok (withWindow rowY m (windowEntries alpha (fun i j => A (rowA + i) (colA + j))
        (fun j => x.getD (rowX + j) 0) n beta fun i => y.getD (rowY + i) 0) y) := by
  unfold multiplyVector windowEntries
  rw [Size.add_eq_ok (by omega), ok_bind, checkWindow_eq_ok (by omega) hy, ok_bind,
    rescaleWindow_eq_withWindow]
  dsimp only
  cases alpha == 0 with
  | true => rfl
  | false =>
    rw [if_neg (by decide), Size.add_eq_ok (by omega), ok_bind, checkWindow_eq_ok (by omega) hx,
      ok_bind]
    -- the entries before position `i` are finished, and the others are rescaled
    refine ascend_eq_ok (fun i => withWindow rowY m (fun l =>
      if l < i then Scalar.addMul (Scalar.rescale beta (y.getD (rowY + l) 0)) alpha
        (accumulate (fun j => A (rowA + l) (colA + j)) (fun j => x.getD (rowX + j) 0) n 0)
      else Scalar.rescale beta (y.getD (rowY + l) 0)) y) (Nat.zero_le m) rfl ?_ ?_
    · exact withWindow_congr fun l hl => by simp [hl]
    intro i _ hi
    rw [Size.add_eq_ok (by omega), ok_bind, Size.add_eq_ok (by omega), ok_bind,
      checkRowWindow_ofCells (by omega) hheight (by omega) hcols, ok_bind,
      dotRowWindow_ofCells (by omega) hcols hx, ok_bind,
      readAt_of_getElem? (getElem?_withWindow hi hy), ok_bind, writeAt_withWindow hi hy]
    refine congrArg Except.ok (withWindow_congr fun l _ => ?_)
    rw [Function.update_apply, if_neg (Nat.lt_irrefl i)]
    split_ifs with heq <;> first | omega | rfl | rw [heq]

end Cells

/-! ## Blocks of matrices in memory -/

namespace Stored

variable {a : PagedMatrix α} {m n rowA colA rowX rowY : Nat} {x y : Array α} {alpha beta : α}

/-- A matrix with columns whose buffer holds some rows has at least as many, and their number is a
size. -/
theorem exists_ofCells_of_rows {bottom : Nat} (ha : a.Stored) (hcols : 0 < a.cols)
    (hbottom : bottom * a.cols ≤ a.size) :
    ∃ height, bottom ≤ height ∧ height < Size.limit ∧
      a = ofCells a.shape a.kind height a.cell := by
  obtain ⟨height, hheight, hcells⟩ := ha.wellFormed.exists_ofCells hbottom
  have hsize : a.size = height * a.cols := by
    conv_lhs => rw [hcells]
    exact size_ofCells
  have hle : height ≤ height * a.cols := Nat.le_mul_of_pos_right height hcols
  exact ⟨height, hheight, hle.trans_lt (hsize ▸ ha.fits.lt_limit), hcells⟩

/-- A block that the buffer holds fits into memory. -/
theorem fits_block (ha : a.Stored) (hrows : (rowA + m) * a.cols ≤ a.size)
    (hcols : colA + n ≤ a.cols) : Fits α (m * n) := by
  have hblock : m * n ≤ (rowA + m) * a.cols := Nat.mul_le_mul (by omega) (by omega)
  exact ha.fits.mono (hblock.trans hrows)

/-- A block that the buffer holds can be copied. -/
theorem block_eq_ok (ha : a.Stored) (hn : 0 < n) (hrows : (rowA + m) * a.cols ≤ a.size)
    (hcols : colA + n ≤ a.cols) :
    a.block rowA (rowA + m) colA (colA + n) =
      .ok (ofCells { rows := m, cols := n } a.kind m fun i j => a.cell (rowA + i) (colA + j)) := by
  obtain ⟨height, hheight, hlimit, hcells⟩ := ha.exists_ofCells_of_rows (by omega) hrows
  have hblock : (ofCells a.shape a.kind height a.cell).block rowA (rowA + m) colA (colA + n) =
      .ok (ofCells { rows := rowA + m - rowA, cols := colA + n - colA } a.kind (rowA + m - rowA)
        fun i j => a.cell (rowA + i) (colA + j)) := by
    refine block_ofCells (by omega) hheight (by omega) hcols hlimit ?_
    rw [Nat.add_sub_cancel_left, Nat.add_sub_cancel_left]
    exact ha.fits_block hrows hcols
  rwa [← hcells, Nat.add_sub_cancel_left, Nat.add_sub_cancel_left] at hblock

/-- The update with a block that the buffer holds. -/
theorem multiplyVector_eq_ok (ha : a.Stored) (hn : 0 < n) (hrows : (rowA + m) * a.cols ≤ a.size)
    (hcols : colA + n ≤ a.cols) (hx : rowX + n ≤ x.size) (hy : rowY + m ≤ y.size)
    (hxlimit : x.size < Size.limit) (hylimit : y.size < Size.limit) :
    multiplyVector a m n rowA colA x rowX y rowY alpha beta =
      .ok (withWindow rowY m (windowEntries alpha (fun i j => a.cell (rowA + i) (colA + j))
        (fun j => x.getD (rowX + j) 0) n beta fun i => y.getD (rowY + i) 0) y) := by
  obtain ⟨height, hheight, hlimit, hcells⟩ := ha.exists_ofCells_of_rows (by omega) hrows
  conv_lhs => rw [hcells]
  exact multiplyVector_ofCells hheight hcols hx hy hlimit ha.cols_lt hxlimit hylimit

end Stored

/-! ## Columns -/

section Columns

variable [RealArith ρ] {entries : Array α}

theorem cell_ofColumn (entries : Array α) (i : Nat) :
    (ofColumn entries).cell i 0 = entries.getD i 0 := by
  unfold cell
  exact congrArg (fun place => entries.getD place 0) (Nat.mul_one i)

theorem stored_ofColumn (h : Fits α entries.size) : (ofColumn entries).Stored := by
  refine ⟨?_, ?_, h⟩
  · change entries.size = 1 * entries.size * 1
    omega
  · intro d hd
    rcases List.mem_cons.1 hd with rfl | hd
    · exact h.lt_limit
    · rw [List.mem_singleton.1 hd]
      exact (by decide : 1 < Size.limit)

theorem height_ofColumn (h : Fits α entries.size) : (ofColumn entries).height = .ok entries.size :=
  (stored_ofColumn h).height_eq rfl

end Columns

/-! ## One column of a product -/

section Agreement

variable [RealArith ρ] {m k n : Nat} {a b c : PagedMatrix α} {alpha beta : α}

/-- The choice of the direct way settles on a volume that no product exceeds. -/
theorem ends_settle_direct : Ends BlockingChoice.direct.settle fun blocking =>
    (1 ≤ blocking.edge ∧ blocking.edge < Size.limit) ∧ ∀ m k n, ¬ IsTiled blocking m k n := by
  refine ends_bind (ends_unrefused ends_edge) fun edge hedge => ?_
  have hne : edge ≠ 0 := by omega
  simp only [hne, if_false]
  refine ends_pure ⟨hedge, fun m k n h => ?_⟩
  have hvolume : productVolume m k n ≤ Size.limit - 1 := Nat.min_le_right _ _
  exact absurd h (Nat.not_lt_of_le hvolume)

/-- In sound surroundings the direct way succeeds. If there is a product, it adds `alpha` times the
sum of each cell to the rescaled old entry. -/
theorem exists_runs_multiplyAdd_direct (alpha beta : α) {ambient : Ambient} (ha : a.Stored)
    (hb : b.Stored) (hc : c.Stored)
    (hoperands : (requireOperands a b c m k n).run = .ok (.ok ())) (hm : 0 < m) (hk : 0 < k)
    (hn : 0 < n) (hambient : ambient.Sound) :
    ∃ after, Runs (multiplyAdd alpha a m k b n beta c .direct) ambient
      (ofCells c.shape c.kind m fun i j => windowEntries alpha a.cell (fun l => b.cell l j) k beta
        (fun i => c.cell i j) i).refreshKind after := by
  obtain ⟨blocking, ambient', ⟨hedge, hdirect⟩, hsound, hsettle⟩ :=
    ends_iff_runs.1 ends_settle_direct ambient hambient
  obtain ⟨after, -, hrun⟩ :=
    runs_multiplyAdd alpha beta ha hb hc hoperands hsettle hsound hedge
  have hcells : updatedCells alpha a.cell b.cell m k n beta c.cell blocking =
      fun i j => windowEntries alpha a.cell (fun l => b.cell l j) k beta
        (fun i => c.cell i j) i := by
    funext i j
    -- no extent is zero, so only `alpha` decides whether a product is formed
    have hextents : (alpha == 0 || m = 0 || n = 0 || k = 0) = (alpha == 0) := by
      simp [hm.ne', hk.ne', hn.ne']
    unfold updatedCells windowEntries addedCells
    rw [hextents, if_neg (c := IsTiled blocking m k n ∧ _) fun h => hdirect m k n h.1]
    cases alpha == 0 <;> rfl
  rw [hcells] at hrun
  exact ⟨after, hrun⟩

/-- The direct update of a column by a matrix and another column. -/
theorem exists_runs_multiplyAdd_column {xs ys : Array α} {kind : NumericKind} {A : Nat → Nat → α}
    (alpha beta : α) {ambient : Ambient} (hxs : xs.size = n) (hys : ys.size = m) (hm : 0 < m)
    (hn : 0 < n) (hfits : Fits α (m * n)) (hambient : ambient.Sound) :
    ∃ after, Runs (multiplyAdd alpha (ofCells { rows := m, cols := n } kind m A) m n
        (ofColumn xs) 1 beta (ofColumn ys) .direct) ambient
      (ofCells { rows := m, cols := 1 } (ofColumn ys).kind m fun i _ =>
        windowEntries alpha A (xs.getD · 0) n beta (ys.getD · 0) i).refreshKind after := by
  have hmfits : Fits α m := hfits.mono (Nat.le_mul_of_pos_right m hn)
  have hnfits : Fits α n := hfits.mono (Nat.le_mul_of_pos_left n hm)
  subst hxs hys
  have hstored : (ofCells { rows := ys.size, cols := xs.size } kind ys.size A).Stored :=
    stored_ofCells hmfits.lt_limit hnfits.lt_limit hfits
  have hoperands : (requireOperands (ofCells { rows := ys.size, cols := xs.size } kind ys.size A)
      (ofColumn xs) (ofColumn ys) ys.size xs.size 1).run = .ok (.ok ()) :=
    requireOperands_eq_ok_iff.2 ⟨⟨height_of_plain hmfits.lt_limit, rfl⟩,
      ⟨height_ofColumn hnfits, rfl⟩, height_ofColumn hmfits, rfl⟩
  obtain ⟨after, hrun⟩ := exists_runs_multiplyAdd_direct alpha beta hstored (stored_ofColumn hnfits)
    (stored_ofColumn hmfits) hoperands hm hn Nat.one_pos hambient
  have hcells : ofCells (ofColumn ys).shape (ofColumn ys).kind ys.size (fun i j =>
      windowEntries alpha (ofCells { rows := ys.size, cols := xs.size } kind ys.size A).cell
        (fun l => (ofColumn xs).cell l j) xs.size beta (fun i => (ofColumn ys).cell i j) i) =
      ofCells { rows := ys.size, cols := 1 } (ofColumn ys).kind ys.size fun i _ =>
        windowEntries alpha A (xs.getD · 0) xs.size beta (ys.getD · 0) i := by
    refine ofCells_congr fun i j hi hj => ?_
    -- there is only one column
    obtain rfl : j = 0 := Nat.lt_one_iff.1 hj
    apply windowEntries_congr
    · intro l hl
      exact cell_ofCells hi hl
    · intro l _
      exact cell_ofColumn xs l
    · exact cell_ofColumn ys i
  rw [← hcells]
  exact ⟨after, hrun⟩

/-- The update by a matrix and a vector is one column of the direct update by a product. For every
block that is not empty and every window within the vectors, both succeed, and the window of the
result holds the entries that `multiplyAdd` computes from copies of the block and of the windows.
Outside its window the vector is as it was. No law of arithmetic is used. -/
theorem multiplyVector_eq_multiplyAdd {rowA colA rowX rowY : Nat} {x y : Array α} (alpha beta : α)
    (ha : a.Stored) (hm : 0 < m) (hn : 0 < n) (hrows : (rowA + m) * a.cols ≤ a.size)
    (hcols : colA + n ≤ a.cols) (hx : rowX + n ≤ x.size) (hy : rowY + m ≤ y.size)
    (hxlimit : x.size < Size.limit) (hylimit : y.size < Size.limit) :
    ∃ sub y' c',
      a.block rowA (rowA + m) colA (colA + n) = .ok sub ∧
      multiplyVector a m n rowA colA x rowX y rowY alpha beta = .ok y' ∧
      (∀ ambient : Ambient, ambient.Sound → ∃ after,
        Runs (multiplyAdd alpha sub m n (ofColumn (x.extract rowX (rowX + n))) 1 beta
          (ofColumn (y.extract rowY (rowY + m))) .direct) ambient c' after) ∧
      y'.extract rowY (rowY + m) = c'.data ∧ y'.size = y.size ∧
      ∀ i, i < rowY ∨ rowY + m ≤ i → y'[i]? = y[i]? := by
  have hxsize := size_extract_window hx
  have hysize := size_extract_window hy
  have hfits := ha.fits_block hrows hcols
  refine ⟨_, _, _, ha.block_eq_ok hn hrows hcols,
    ha.multiplyVector_eq_ok hn hrows hcols hx hy hxlimit hylimit,
    fun _ hambient => exists_runs_multiplyAdd_column alpha beta hxsize hysize hm hn hfits hambient,
    ?_, size_withWindow, ?_⟩
  · apply Array.ext_getElem?
    intro i
    rw [getElem?_extract_withWindow hy, refreshKind_ofCells, getElem?_data_ofCells]
    dsimp only
    rw [Nat.mul_one, Nat.div_one]
    rcases Nat.lt_or_ge i m with hi | hi
    · -- the copies of the windows hold the entries of the windows
      rw [if_pos hi, if_pos hi]
      apply congrArg some
      apply windowEntries_congr
      · intro l _
        rfl
      · intro l hl
        exact (getD_extract hl).symm
      · exact (getD_extract hi).symm
    · rw [if_neg (by omega), if_neg (by omega)]
  · intro i hi
    exact getElem?_withWindow_of_outside hi

/-- A vector with an infinite entry. -/
def infiniteEntries : Array Float := #[9.0, 1.0 / 0.0, 0.5]

/-- A vector with an entry that is not a number. -/
def nanEntries : Array Float := #[5.0, 0.0 / 0.0, 7.0]

/-- The second page of a matrix is multiplied by the end of a vector, and the window is in the
middle of the target. -/
theorem multiplyVector_eq_multiplyAdd_nanPages :
    (nanPages.Stored ∧ (1 + 1) * nanPages.cols ≤ nanPages.size ∧ 0 + 2 ≤ nanPages.cols) ∧
      (1 + 2 ≤ infiniteEntries.size ∧ infiniteEntries.size < Size.limit) ∧
      (1 + 1 ≤ nanEntries.size ∧ nanEntries.size < Size.limit) ∧
      ∃ sub y' c', nanPages.block 1 2 0 2 = .ok sub ∧
        multiplyVector nanPages 1 2 1 0 infiniteEntries 1 nanEntries 1 2 3 = .ok y' ∧
        (∀ ambient : Ambient, ambient.Sound → ∃ after,
          Runs (multiplyAdd 2 sub 1 2 (ofColumn (infiniteEntries.extract 1 3)) 1 3
            (ofColumn (nanEntries.extract 1 2)) .direct) ambient c' after) ∧
        y'.extract 1 2 = c'.data ∧ y'[0]? = nanEntries[0]? ∧ y'[2]? = nanEntries[2]? := by
  have hpages : nanPages.Stored := ⟨rfl, by decide, by decide, by decide⟩
  have hrows : (1 + 1) * nanPages.cols ≤ nanPages.size := by decide
  have hcols : 0 + 2 ≤ nanPages.cols := by decide
  have hx : 1 + 2 ≤ infiniteEntries.size := by decide
  have hxlimit : infiniteEntries.size < Size.limit := by decide
  have hy : 1 + 1 ≤ nanEntries.size := by decide
  have hylimit : nanEntries.size < Size.limit := by decide
  obtain ⟨sub, y', c', hblock, hvector, hruns, hwindow, -, hout⟩ :=
    multiplyVector_eq_multiplyAdd (2 : Float) 3 hpages Nat.one_pos Nat.two_pos hrows hcols hx hy
      hxlimit hylimit
  exact ⟨⟨hpages, hrows, hcols⟩, ⟨hx, hxlimit⟩, ⟨hy, hylimit⟩, sub, y', c', hblock, hvector, hruns,
    hwindow, hout 0 (by decide), hout 2 (by decide)⟩

end Agreement

end PagedMatrix

end DenseLinear
