import Mathlib.Logic.Equiv.Fin.Basic
import DenseLinear.Proofs.OuterProducts

/-!
# Linear addressing

Linear indices count the cells of a matrix page by page, and in each page column by column
(`Shape.linearIndex`). The buffer holds them row by row, through all pages. The two conversions,
`Shape.cellOfLinear` and `Shape.linearOfCell`, divide by different numbers, the cells of a page and
the rows of a page. They are nevertheless inverse to each other, for any trailing dimensions
(`linear_addressing_bijective`), so reading a matrix in linear order meets every entry once.

The argument is in page coordinates. A linear index and a stacked row each belong to one page
(`exists_linearIndex`, `exists_pageRow`), and on page `p`, row `i` and column `j` both conversions
are computed outright (`cellOfLinear_linearIndex`, `linearOfCell_linearIndex`).
-/

namespace DenseLinear

open PagedMatrix

namespace Shape

/-- The linear index of row `i` and column `j` of page `p`. -/
def linearIndex (s : Shape) (p i j : Nat) : Nat :=
  p * s.rows * s.cols + j * s.rows + i

section Conversions

variable {s : Shape} {p i j count : Nat}

/-- A linear index is a place in its page, after the pages before. -/
theorem linearIndex_eq (s : Shape) (p i j : Nat) :
    s.linearIndex p i j = p * (s.rows * s.cols) + (j * s.rows + i) := by
  unfold linearIndex
  rw [Nat.mul_assoc, Nat.add_assoc]

/-- A place in a page, counted column by column, is one of the cells of the page. -/
theorem within_lt (hi : i < s.rows) (hj : j < s.cols) : j * s.rows + i < s.rows * s.cols := by
  rw [Nat.mul_comm s.rows]
  exact place_lt hj hi

theorem linearIndex_lt (hp : p < count) (hi : i < s.rows) (hj : j < s.cols) :
    s.linearIndex p i j < count * (s.rows * s.cols) := by
  rw [linearIndex_eq]
  exact place_lt hp (within_lt hi hj)

/-- Every linear index belongs to a row and a column of a page. -/
theorem exists_linearIndex {index : Nat} (h : index < count * (s.rows * s.cols)) :
    ∃ p i j, p < count ∧ i < s.rows ∧ j < s.cols ∧ index = s.linearIndex p i j := by
  obtain ⟨hpage, hwithin⟩ := div_lt_of_place h
  have hcolumn : index % (s.rows * s.cols) < s.cols * s.rows := by rwa [Nat.mul_comm s.cols]
  obtain ⟨hcol, hrow⟩ := div_lt_of_place hcolumn
  refine ⟨_, _, _, hpage, hrow, hcol, ?_⟩
  rw [linearIndex_eq, ← (place_eq_iff hrow).2 ⟨rfl, rfl⟩]
  exact (place_eq_iff hwithin).2 ⟨rfl, rfl⟩

/-- Every stacked row is a row of a page. -/
theorem exists_pageRow {row : Nat} (h : row < count * s.rows) :
    ∃ p i, p < count ∧ i < s.rows ∧ row = p * s.rows + i := by
  obtain ⟨hpage, hrow⟩ := div_lt_of_place h
  exact ⟨_, _, hpage, hrow, (place_eq_iff hrow).2 ⟨rfl, rfl⟩⟩

/-- The cell of a linear index, in page coordinates. -/
theorem cellOfLinear_linearIndex (hi : i < s.rows) (hj : j < s.cols)
    (hpage : s.rows * s.cols < Size.limit) (hindex : s.linearIndex p i j < Size.limit) :
    s.cellOfLinear (s.linearIndex p i j) = .ok (p * s.rows + i, j) := by
  have hwithin : j * s.rows + i < s.rows * s.cols := within_lt hi hj
  have hrows : max s.rows 1 = s.rows := by omega
  rw [cellOfLinear_eq_ok hrows (Nat.zero_lt_of_lt hj) hpage hindex, linearIndex_eq,
    place_div hwithin, place_mod hwithin, place_div hi, place_mod hi]

/-- The linear index of a cell, in page coordinates. -/
theorem linearOfCell_linearIndex (hi : i < s.rows) (hindex : s.linearIndex p i j < Size.limit)
    (hcols : 0 < s.cols) :
    s.linearOfCell (p * s.rows + i) j = .ok (s.linearIndex p i j) := by
  have hrows : max s.rows 1 = s.rows := by omega
  have hbefore : p * s.rows ≤ p * s.rows * s.cols := Nat.le_mul_of_pos_right _ hcols
  unfold linearIndex at hindex
  unfold linearOfCell
  dsimp only
  rw [hrows, place_div hi, place_mod hi, Size.mul_eq_ok (by omega), ok_bind,
    Size.mul_eq_ok (by omega), ok_bind, Size.mul_eq_ok (by omega), ok_bind,
    Size.add_eq_ok (by omega), ok_bind, Size.add_eq_ok hindex]
  rfl

end Conversions

end Shape

namespace PagedMatrix

variable {α : Type} {a : PagedMatrix α} {height : Nat}

/-- Linear indices and cells of a matrix with `height` stacked rows on `count` pages correspond by
`cells`. -/
structure Addresses (a : PagedMatrix α) (height count : Nat)
    (cells : Fin a.size ≃ Fin height × Fin a.cols) : Prop where
  /-- The cell of a linear index. -/
  cellOfLinear : ∀ index : Fin a.size,
    a.shape.cellOfLinear index = .ok (↑(cells index).1, ↑(cells index).2)
  /-- The linear index of a cell. -/
  linearOfCell : ∀ cell, a.shape.linearOfCell cell.1 cell.2 = .ok ↑(cells.symm cell)
  /-- Pages are counted one after the other, and in each page columns. -/
  page : ∀ p < count, ∀ i < a.rows, ∀ j < a.cols,
    a.shape.linearOfCell (p * a.rows + i) j = .ok (p * a.rows * a.cols + j * a.rows + i)

/-- The shape of a matrix whose cells can be addressed. -/
structure LinearLayout (a : PagedMatrix α) (height count : Nat) : Prop where
  pages : a.pages = .ok count
  height_eq : height = count * a.rows
  size_eq : a.size = count * (a.rows * a.cols)
  size_lt : a.size < Size.limit

theorem WellFormed.exists_linearLayout (ha : a.WellFormed) (hsize : a.size < Size.limit)
    (hheight : a.height = .ok height) : ∃ count, a.LinearLayout height count := by
  obtain ⟨count, hpages, hcount, -⟩ := exists_pages hheight
  refine ⟨count, hpages, hcount, ?_, hsize⟩
  rw [PagedMatrix.size, ha.size_eq hheight, hcount, Nat.mul_assoc]

namespace LinearLayout

variable {count p i j : Nat}

/-- A row and a column of a page have a linear index that is a size, and so is a page. -/
theorem linearIndex_lt (h : a.LinearLayout height count) (hp : p < count) (hi : i < a.rows)
    (hj : j < a.cols) :
    a.shape.linearIndex p i j < a.size ∧ a.shape.linearIndex p i j < Size.limit ∧
      a.rows * a.cols < Size.limit := by
  have hindex := Shape.linearIndex_lt hp hi hj
  have hpage : a.rows * a.cols ≤ count * (a.rows * a.cols) := Nat.le_mul_of_pos_left _ (by omega)
  rw [← h.size_eq] at hindex hpage
  exact ⟨hindex, hindex.trans h.size_lt, hpage.trans_lt h.size_lt⟩

/-- Going from a linear index to its cell and back. -/
theorem exists_cell (h : a.LinearLayout height count) (index : Fin a.size) :
    ∃ cell : Fin height × Fin a.cols, a.shape.cellOfLinear index = .ok (↑cell.1, ↑cell.2) ∧
      a.shape.linearOfCell cell.1 cell.2 = .ok ↑index := by
  have hlt : (index : Nat) < count * (a.rows * a.cols) := h.size_eq ▸ index.isLt
  rcases Shape.exists_linearIndex hlt with ⟨p, i, j, hp, hi, hj, heq⟩
  obtain ⟨-, hindex, hpage⟩ := h.linearIndex_lt hp hi hj
  have hrow : p * a.rows + i < height := by
    rw [h.height_eq]
    exact place_lt hp hi
  refine ⟨(⟨p * a.rows + i, hrow⟩, ⟨j, hj⟩), ?_, ?_⟩
  · rw [heq]
    exact Shape.cellOfLinear_linearIndex hi hj hpage hindex
  · rw [heq]
    exact Shape.linearOfCell_linearIndex hi hindex (Nat.zero_lt_of_lt hj)

/-- Going from a cell to its linear index and back. -/
theorem exists_index (h : a.LinearLayout height count) (cell : Fin height × Fin a.cols) :
    ∃ index : Fin a.size, a.shape.linearOfCell cell.1 cell.2 = .ok ↑index ∧
      a.shape.cellOfLinear index = .ok (↑cell.1, ↑cell.2) := by
  have hlt : (cell.1 : Nat) < count * a.rows := h.height_eq ▸ cell.1.isLt
  rcases Shape.exists_pageRow hlt with ⟨p, i, hp, hi, heq⟩
  obtain ⟨hsize, hindex, hpage⟩ := h.linearIndex_lt hp hi cell.2.isLt
  refine ⟨⟨_, hsize⟩, ?_, ?_⟩
  · rw [heq]
    exact Shape.linearOfCell_linearIndex hi hindex (Nat.zero_lt_of_lt cell.2.isLt)
  · rw [heq]
    exact Shape.cellOfLinear_linearIndex hi cell.2.isLt hpage hindex

/-- The two conversions are inverse to each other. -/
theorem exists_addresses (h : a.LinearLayout height count) :
    ∃ cells, a.Addresses height count cells := by
  choose cell hcell hback using h.exists_cell
  choose index hindex hforth using h.exists_index
  have hleft : ∀ i, index (cell i) = i := by
    intro i
    have heq := (hindex (cell i)).symm.trans (hback i)
    exact Fin.ext (Except.ok.inj heq)
  have hright : ∀ c, cell (index c) = c := by
    intro c
    have heq := Except.ok.inj ((hcell (index c)).symm.trans (hforth c))
    rw [Prod.mk.injEq] at heq
    exact Prod.ext (Fin.ext heq.1) (Fin.ext heq.2)
  refine ⟨⟨cell, index, hleft, hright⟩, hcell, hindex, ?_⟩
  intro p hp i hi j hj
  exact Shape.linearOfCell_linearIndex hi (h.linearIndex_lt hp hi hj).2.1 (Nat.zero_lt_of_lt hj)

end LinearLayout

/-- Reading in linear order reads each place of the buffer once. -/
theorem Addresses.exists_order {count : Nat} {cells : Fin a.size ≃ Fin height × Fin a.cols}
    (h : a.Addresses height count cells) (hsize : a.size = height * a.cols) :
    ∃ order : Equiv.Perm (Fin a.size), ∀ index : Fin a.size,
      a.getLinear index = .ok a.data[order index] := by
  -- a cell has its place in the buffer, row by row
  refine ⟨(cells.trans finProdFinEquiv).trans (finCongr hsize.symm), ?_⟩
  intro index
  have hplace : ((((cells.trans finProdFinEquiv).trans (finCongr hsize.symm)) index : Fin a.size) :
      Nat) = (cells index).1 * a.cols + (cells index).2 := by
    show (cells index).2 + a.cols * (cells index).1 = _
    rw [Nat.add_comm, Nat.mul_comm]
  have hlt : (cells index).1 * a.cols + (cells index).2 < a.data.size := by
    rw [← hplace]
    exact Fin.isLt _
  unfold getLinear
  rw [h.cellOfLinear, ok_bind]
  dsimp only
  rw [get_eq_ok hlt]
  simp only [Fin.getElem_fin, hplace]

/-- Linear addressing is a bijection. Linear indices below the number of entries correspond one to
one to the cells of the stacked rows, the two conversions are inverse to each other, and the entry
in row `i` and column `j` of page `p` has the index `p * rows * cols + j * rows + i`. So a matrix
that is read in linear order shows every entry exactly once. -/
theorem linear_addressing_bijective (ha : a.WellFormed) (hsize : a.size < Size.limit)
    (hheight : a.height = .ok height) :
    ∃ count cells, a.pages = .ok count ∧ a.Addresses height count cells ∧
      ∃ order : Equiv.Perm (Fin a.size), ∀ index : Fin a.size,
        a.getLinear index = .ok a.data[order index] := by
  obtain ⟨count, h⟩ := ha.exists_linearLayout hsize hheight
  obtain ⟨cells, hcells⟩ := h.exists_addresses
  exact ⟨count, cells, h.pages, hcells, hcells.exists_order (ha.size_eq hheight)⟩

/-- Pages of two rows and three columns, in a box of two by two. -/
def boxedPages : PagedMatrix Nat :=
  { shape := { rows := 2, cols := 3, trailing := [2, 2] }, data := Array.range 24 }

theorem linear_addressing_bijective_boxedPages :
    boxedPages.WellFormed ∧ boxedPages.size < Size.limit ∧ boxedPages.height = .ok 8 ∧
      ∃ count cells, boxedPages.pages = .ok count ∧ boxedPages.Addresses 8 count cells ∧
        ∃ order : Equiv.Perm (Fin boxedPages.size), ∀ index : Fin boxedPages.size,
          boxedPages.getLinear index = .ok boxedPages.data[order index] := by
  have hformed : boxedPages.WellFormed := by
    unfold WellFormed
    decide
  have hsize : boxedPages.size < Size.limit := by decide
  have hheight : boxedPages.height = .ok 8 := by decide
  exact ⟨hformed, hsize, hheight, linear_addressing_bijective hformed hsize hheight⟩

end PagedMatrix

end DenseLinear
