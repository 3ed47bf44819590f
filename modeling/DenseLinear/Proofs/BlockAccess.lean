import DenseLinear.Proofs.OuterProducts
import DenseLinear.Proofs.ShapeQueries
import DenseLinear.Proofs.VectorProducts

/-!
# Reading and writing blocks

A block is a rectangle of stacked rows and columns, which may reach over several pages (`IsBlock`).
Reading copies it, and writing replaces it by a matrix of its size (`Spans`). Both go through windows
of rows that they find independently of each other, and both mean the same cells. So they obey the
laws of a lens: a block that is read and written back changes nothing (`setBlock_of_read`), what was
written is what is read (`block_of_written`), and the second of two writes hides the first one
(`overwrite_overwrite`). No other cell changes (`AgreeOutside`).

Entries are moved and never computed, so no law of arithmetic is used. A block without rows or
without columns is read and written like any other.
-/

namespace DenseLinear

namespace PagedMatrix

variable {α : Type}

/-! ## Blocks -/

/-- The rows `[r0, r1)` and the columns `[c0, c1)` lie within `height` rows and `width` columns. -/
structure IsBlock (r0 r1 c0 c1 height width : Nat) : Prop where
  /-- The first row is not after the end. -/
  rows_le : r0 ≤ r1
  /-- There are that many rows. -/
  rows_within : r1 ≤ height
  /-- The first column is not after the end. -/
  cols_le : c0 ≤ c1
  /-- There are that many columns. -/
  cols_within : c1 ≤ width

/-- The matrix has `height` stacked rows and `width` columns, on however many pages. -/
structure Spans (a : PagedMatrix α) (height width : Nat) : Prop where
  /-- The stacked rows are counted. -/
  height_eq : a.height = .ok height
  /-- The columns. -/
  cols_eq : a.cols = width

/-- The matrix `part` is what `a` holds in the rows `[r0, r1)` and the columns `[c0, c1)`. -/
structure HasBlock (r0 r1 c0 c1 : Nat) (a part : PagedMatrix α) : Prop where
  /-- It has the size of the block. -/
  spans : part.Spans (r1 - r0) (c1 - c0)
  /-- Its cells are those of the block. -/
  get_eq : ∀ i j, i < r1 - r0 → j < c1 - c0 → part.get i j = a.get (r0 + i) (c0 + j)

/-- The matrix `b` differs from `a` in the rows `[r0, r1)` and the columns `[c0, c1)` at most. -/
structure AgreeOutside (r0 r1 c0 c1 : Nat) (a b : PagedMatrix α) : Prop where
  /-- It has the same dimensions. -/
  shape_eq : b.shape = a.shape
  /-- It has the same kind. -/
  kind_eq : b.kind = a.kind
  /-- It has as many entries. -/
  size_eq : b.data.size = a.data.size
  /-- The cells outside of the block are the same. -/
  get_eq : ∀ r c, c < a.cols → ¬((r0 ≤ r ∧ r < r1) ∧ c0 ≤ c ∧ c < c1) → b.get r c = a.get r c

/-- The number of stacked rows, whether or not it is a machine word. -/
def stackedRows (a : PagedMatrix α) : Nat := a.rows * a.shape.trailing.prod

/-- Where the stacked rows are counted, this is their number. -/
theorem stackedRows_of_height {a : PagedMatrix α} {height : Nat} (h : a.height = .ok height) :
    a.stackedRows = height := by
  have hheight : a.shape.height = .ok height := h
  rw [Shape.height_eq] at hheight
  split at hheight
  · exact Except.ok.inj hheight
  · contradiction

/-- The buffer of a well-formed matrix holds its stacked rows. -/
theorem WellFormed.size_eq_stackedRows {a : PagedMatrix α} (ha : a.WellFormed) :
    a.size = a.stackedRows * a.cols := by
  have hsize := ha.data_size
  rw [← List.prod_eq_foldl] at hsize
  rw [PagedMatrix.size, hsize, stackedRows, Nat.mul_right_comm]

/-! ## Cells that are overwritten -/

section Overwriting

variable {r0 r1 c0 c1 : Nat} {f g : Nat → Nat → α}

theorem overwrite_inside {r c : Nat} (hr : r0 ≤ r ∧ r < r1) (hc : c0 ≤ c ∧ c < c1) :
    overwrite r0 r1 c0 c1 g f r c = g r c :=
  if_pos ⟨hr, hc⟩

theorem overwrite_outside {r c : Nat} (h : ¬((r0 ≤ r ∧ r < r1) ∧ c0 ≤ c ∧ c < c1)) :
    overwrite r0 r1 c0 c1 g f r c = f r c :=
  if_neg h

/-- Cells that are overwritten by themselves stay as they are. -/
theorem overwrite_of_eq (h : ∀ r c, r0 ≤ r ∧ r < r1 → c0 ≤ c ∧ c < c1 → g r c = f r c) :
    overwrite r0 r1 c0 c1 g f = f := by
  funext r c
  unfold overwrite
  split
  · rename_i hin
    exact h r c hin.1 hin.2
  · rfl

/-- Cells that are overwritten twice hold what came last. -/
theorem overwrite_overwrite (g g' f : Nat → Nat → α) :
    overwrite r0 r1 c0 c1 g' (overwrite r0 r1 c0 c1 g f) = overwrite r0 r1 c0 c1 g' f := by
  funext r c
  unfold overwrite
  split
  · rfl
  · rfl

end Overwriting

section Memory

variable {ρ : Type} [Scalar α ρ] {a part : PagedMatrix α}

/-- A matrix in memory is the matrix of its cells, with as many rows as one asks for, if it has as
many. -/
theorem Stored.exists_ofCells_of_stackedRows {bottom : Nat} (ha : a.Stored)
    (hbottom : bottom ≤ a.stackedRows) (hword : bottom < Size.limit) :
    ∃ height, bottom ≤ height ∧ height < Size.limit ∧
      a = ofCells a.shape a.kind height a.cell := by
  have hsize := ha.wellFormed.size_eq_stackedRows
  rcases Nat.eq_zero_or_pos a.cols with hcols | hcols
  · -- rows without cells take no room, so there may be as many as one likes
    have hempty : a.data.size = bottom * a.cols := by
      rw [hcols, Nat.mul_zero]
      rwa [hcols, Nat.mul_zero] at hsize
    exact ⟨bottom, Nat.le_refl _, hword, eq_ofCells_cell hempty⟩
  · exact ha.exists_ofCells_of_rows hcols (hsize ▸ Nat.mul_le_mul_right _ hbottom)

omit [Scalar α ρ] in
/-- Other cells within a block are the only difference. -/
theorem agreeOutside_of_cells [Zero α] {r0 r1 c0 c1 height : Nat} {g : Nat → Nat → α}
    (hcells : a = ofCells a.shape a.kind height a.cell)
    (h : ∀ r c, c < a.cols → ¬((r0 ≤ r ∧ r < r1) ∧ c0 ≤ c ∧ c < c1) → g r c = a.cell r c) :
    AgreeOutside r0 r1 c0 c1 a (ofCells a.shape a.kind height g) where
  shape_eq := rfl
  kind_eq := rfl
  size_eq := by
    conv_rhs => rw [hcells]
    rw [size_ofCells, size_ofCells]
  get_eq r c hc hout := by
    conv_rhs => rw [hcells]
    exact get_ofCells_congr hc hc fun _ => h r c hc hout

/-! ## The laws -/

section Laws

variable {shape : Shape} (kind : NumericKind) {height r0 r1 c0 c1 : Nat} (f : Nat → Nat → α)

/-- A matrix of the size of a block takes its place. -/
theorem setBlock_of_spans (hblock : IsBlock r0 r1 c0 c1 height shape.cols)
    (hheight : height < Size.limit) (hcols : shape.cols < Size.limit) (hpart : part.Stored)
    (hspans : part.Spans (r1 - r0) (c1 - c0)) :
    (ofCells shape kind height f).setBlock r0 c0 part =
      .ok (ofCells shape kind height
        (overwrite r0 r1 c0 c1 (fun r c => part.cell (r - r0) (c - c0)) f)) := by
  obtain ⟨hr, hr1, hc, hc1⟩ := hblock
  have hpartRows : r0 + (r1 - r0) = r1 := Nat.add_sub_cancel' hr
  have hpartCols : c0 + part.shape.cols = c1 := by
    have hwidth : part.shape.cols = c1 - c0 := hspans.cols_eq
    omega
  have hset : (ofCells shape kind height f).setBlock r0 c0
      (ofCells part.shape part.kind (r1 - r0) part.cell) = .ok _ :=
    setBlock_ofCells hspans.height_eq (hpartRows.trans_le hr1) (hpartCols.trans_le hc1) hheight hcols
  rwa [hpartRows, hpartCols, ← hpart.eq_ofCells hspans.height_eq] at hset

/-- A block that is read is the one that is there, and nothing changes when it is written back. -/
theorem setBlock_of_read (hblock : IsBlock r0 r1 c0 c1 height shape.cols)
    (hheight : height < Size.limit) (hcols : shape.cols < Size.limit)
    (hfits : Fits α (height * shape.cols)) :
    ∃ part, (ofCells shape kind height f).block r0 r1 c0 c1 = .ok part ∧
      HasBlock r0 r1 c0 c1 (ofCells shape kind height f) part ∧
      (ofCells shape kind height f).setBlock r0 c0 part = .ok (ofCells shape kind height f) := by
  obtain ⟨hr, hr1, hc, hc1⟩ := hblock
  have hroom : Fits α ((r1 - r0) * (c1 - c0)) :=
    hfits.mono (Nat.mul_le_mul (by omega) (by omega))
  have hspans : (ofCells { rows := r1 - r0, cols := c1 - c0 } kind (r1 - r0)
      fun i j => f (r0 + i) (c0 + j)).Spans (r1 - r0) (c1 - c0) :=
    ⟨height_of_plain (by omega), rfl⟩
  refine ⟨_, block_ofCells hr hr1 hc hc1 hheight hroom, ⟨hspans, ?_⟩, ?_⟩
  · intro i j hi hj
    rw [get_ofCells hi hj, get_ofCells (by omega) (by omega)]
  · have hset := setBlock_of_spans kind f ⟨hr, hr1, hc, hc1⟩ hheight hcols
      (stored_ofCells (by omega) (by omega) hroom) hspans
    rw [overwrite_of_eq] at hset
    · exact hset
    intro r c hrow hcol
    have hrow' : r0 + (r - r0) = r := Nat.add_sub_cancel' hrow.1
    have hcol' : c0 + (c - c0) = c := Nat.add_sub_cancel' hcol.1
    rw [cell_ofCells (by omega) (by dsimp only; omega), hrow', hcol']

/-- What was written is there. -/
theorem hasBlock_of_written (hblock : IsBlock r0 r1 c0 c1 height shape.cols) (hpart : part.Stored)
    (hspans : part.Spans (r1 - r0) (c1 - c0)) :
    HasBlock r0 r1 c0 c1 (ofCells shape kind height
      (overwrite r0 r1 c0 c1 (fun r c => part.cell (r - r0) (c - c0)) f)) part := by
  obtain ⟨hr, hr1, hc, hc1⟩ := hblock
  refine ⟨hspans, fun i j hi hj => ?_⟩
  rw [get_eq_cell (hpart.size_eq hspans.height_eq) hi (hspans.cols_eq ▸ hj),
    get_ofCells (by omega) (by omega), overwrite_inside (by omega) (by omega),
    Nat.add_sub_cancel_left, Nat.add_sub_cancel_left]

/-- What was written is what is read. -/
theorem block_of_written (hblock : IsBlock r0 r1 c0 c1 height shape.cols)
    (hheight : height < Size.limit) (hfits : Fits α (height * shape.cols)) (hpart : part.Stored)
    (hspans : part.Spans (r1 - r0) (c1 - c0)) :
    ∃ copy, (ofCells shape kind height
        (overwrite r0 r1 c0 c1 (fun r c => part.cell (r - r0) (c - c0)) f)).block r0 r1 c0 c1 =
        .ok copy ∧ copy.Spans (r1 - r0) (c1 - c0) ∧ copy.data = part.data := by
  obtain ⟨hr, hr1, hc, hc1⟩ := hblock
  have hroom : Fits α ((r1 - r0) * (c1 - c0)) :=
    hfits.mono (Nat.mul_le_mul (by omega) (by omega))
  refine ⟨_, block_ofCells hr hr1 hc hc1 hheight hroom, ⟨height_of_plain (by omega), rfl⟩, ?_⟩
  have hcells : part.data = (ofCells part.shape part.kind (r1 - r0) part.cell).data :=
    congrArg PagedMatrix.data (hpart.eq_ofCells hspans.height_eq)
  rw [hcells]
  refine data_ofCells_congr hspans.cols_eq.symm fun i j hi hj => ?_
  dsimp only at hj
  rw [overwrite_inside (by omega) (by omega), Nat.add_sub_cancel_left, Nat.add_sub_cancel_left]

end Laws

/-- Reading and writing a block of a matrix in memory succeeds, whatever pages it reaches over and
also where it is empty, and obeys the laws of a lens. A block that is read may be written back
without a change. A matrix of the size of the block that is written is there and is read afterwards,
no cell outside of the block changes, and a write before it at the same place makes no difference. -/
theorem block_access_lawful {r0 r1 c0 c1 : Nat} (ha : a.Stored)
    (hblock : IsBlock r0 r1 c0 c1 a.stackedRows a.cols) (hword : r1 < Size.limit) :
    (∃ part, a.block r0 r1 c0 c1 = .ok part ∧ HasBlock r0 r1 c0 c1 a part ∧
      a.setBlock r0 c0 part = .ok a) ∧
    ∀ part : PagedMatrix α, part.Stored → part.Spans (r1 - r0) (c1 - c0) →
      ∃ written, a.setBlock r0 c0 part = .ok written ∧ HasBlock r0 r1 c0 c1 written part ∧
        AgreeOutside r0 r1 c0 c1 a written ∧
        (∃ copy, written.block r0 r1 c0 c1 = .ok copy ∧ copy.Spans (r1 - r0) (c1 - c0) ∧
          copy.data = part.data) ∧
        ∀ earlier : PagedMatrix α, earlier.Stored → earlier.Spans (r1 - r0) (c1 - c0) →
          ∃ first, a.setBlock r0 c0 earlier = .ok first ∧
            first.setBlock r0 c0 part = .ok written := by
  obtain ⟨height, hheight, hlimit, hcells⟩ := ha.exists_ofCells_of_stackedRows hblock.rows_within hword
  have hinside : IsBlock r0 r1 c0 c1 height a.shape.cols := { hblock with rows_within := hheight }
  have hfits : Fits α (height * a.shape.cols) := by
    have hsize := congrArg PagedMatrix.size hcells
    rw [PagedMatrix.size, PagedMatrix.size, size_ofCells] at hsize
    exact hsize ▸ ha.fits
  have hset {part : PagedMatrix α} (f : Nat → Nat → α) (hpart : part.Stored)
      (hspans : part.Spans (r1 - r0) (c1 - c0)) :=
    setBlock_of_spans a.kind f hinside hlimit ha.cols_lt hpart hspans
  constructor
  · have hread := setBlock_of_read a.kind a.cell hinside hlimit ha.cols_lt hfits
    rwa [← hcells] at hread
  · intro part hpart hspans
    have hwritten := hset a.cell hpart hspans
    rw [← hcells] at hwritten
    refine ⟨_, hwritten, ?_, ?_, ?_, ?_⟩
    · exact hasBlock_of_written a.kind a.cell hinside hpart hspans
    · exact agreeOutside_of_cells hcells fun r c _ hout => overwrite_outside hout
    · exact block_of_written a.kind a.cell hinside hlimit hfits hpart hspans
    · intro earlier hearlier hspans'
      have hfirst := hset a.cell hearlier hspans'
      have hsecond := hset (overwrite r0 r1 c0 c1
        (fun r c => earlier.cell (r - r0) (c - c0)) a.cell) hpart hspans
      rw [← hcells] at hfirst
      rw [overwrite_overwrite] at hsecond
      exact ⟨_, hfirst, hsecond⟩

end Memory

/-- The second column of both pages, written by a column of one page and then by a column of two, and
the empty block after the last cell. -/
theorem block_access_lawful_nanPages :
    nanPages.Stored ∧ nanPages.height = .ok 2 ∧
      (IsBlock 0 2 1 2 nanPages.stackedRows nanPages.cols ∧ 2 < Size.limit) ∧
      IsBlock 2 2 2 2 nanPages.stackedRows nanPages.cols ∧
      (nanColumn.Stored ∧ nanColumn.Spans 2 1) ∧ (pageColumn.Stored ∧ pageColumn.Spans 2 1) ∧
      (∃ part, nanPages.block 0 2 1 2 = .ok part ∧ nanPages.setBlock 0 1 part = .ok nanPages) ∧
      (∃ first written copy, nanPages.setBlock 0 1 nanColumn = .ok first ∧
        first.setBlock 0 1 pageColumn = .ok written ∧
        nanPages.setBlock 0 1 pageColumn = .ok written ∧
        written.block 0 2 1 2 = .ok copy ∧ copy.data = pageColumn.data ∧
        pageColumn.get 1 0 = written.get 1 1 ∧ written.get 1 0 = nanPages.get 1 0) ∧
      ∃ empty, nanPages.block 2 2 2 2 = .ok empty ∧ nanPages.setBlock 2 2 empty = .ok nanPages := by
  have hpages : nanPages.Stored := ⟨rfl, by decide, by decide, by decide⟩
  have hheight : nanPages.height = .ok 2 := rfl
  have hrows := stackedRows_of_height hheight
  have hblock : IsBlock 0 2 1 2 nanPages.stackedRows nanPages.cols :=
    ⟨by decide, hrows.ge, by decide, by decide⟩
  have hcorner : IsBlock 2 2 2 2 nanPages.stackedRows nanPages.cols :=
    ⟨by decide, hrows.ge, by decide, by decide⟩
  have hword : 2 < Size.limit := by decide
  have hcolumn : nanColumn.Stored := ⟨rfl, by decide, by decide, by decide⟩
  have hspans : nanColumn.Spans 2 1 := ⟨rfl, rfl⟩
  have hpaged : pageColumn.Stored := ⟨rfl, by decide, by decide, by decide⟩
  have hspans' : pageColumn.Spans 2 1 := ⟨rfl, rfl⟩
  obtain ⟨⟨part, hread, -, hback⟩, hwrite⟩ := block_access_lawful hpages hblock hword
  obtain ⟨written, hwritten, hinside, hout, ⟨copy, hcopy, -, hdata⟩, htwice⟩ :=
    hwrite _ hpaged hspans'
  obtain ⟨first, hfirst, hsecond⟩ := htwice _ hcolumn hspans
  obtain ⟨⟨empty, hempty, -, hkept⟩, -⟩ := block_access_lawful hpages hcorner hword
  exact ⟨hpages, hheight, ⟨hblock, hword⟩, hcorner, ⟨hcolumn, hspans⟩, ⟨hpaged, hspans'⟩,
    ⟨part, hread, hback⟩,
    ⟨first, written, copy, hfirst, hsecond, hwritten, hcopy, hdata,
      hinside.get_eq 1 0 (by decide) (by decide), hout.get_eq 1 0 (by decide) (by decide)⟩,
    ⟨empty, hempty, hkept⟩⟩

end PagedMatrix

end DenseLinear
