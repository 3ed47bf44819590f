import DenseLinear.Proofs.MultiplyAdd
import DenseLinear.Proofs.Outcomes
import DenseLinear.RankOne

/-!
# Outer products

The updates by a column times a conjugated row, for entries without any laws. The column and the row
may be given by matrices that are shaped like vectors, in a row, in a column or along the pages. One
routine gathers their entries in linear order first, and another one computes the place of an entry
each time it is needed. Both do what the update by plain vectors does with the two buffers as they
are (`conjOuter_updates_agree`).

They can differ in the places they read only. A matrix with a single row or a single column has its
entries in the buffer in linear order, on any number of pages (`Shape.cellOfLinear_of_line`), and a
matrix of which at most one dimension differs from one is of this kind (`Shape.line_of_isVector`).
So all reads are reads of the buffer, and all loops leave the same cells (`outerCells`). What is
refused does not depend on the routine either, except for its name in the report
(`requireOuter_refused`).
-/

namespace DenseLinear

/-- A refusal as another routine reports it. -/
def Refusal.reportedBy (routine : String) : Refusal → Refusal
  | .extentMismatch _ expected actual => .extentMismatch routine expected actual
  | .lengthMismatch _ expected actual => .lengthMismatch routine expected actual
  | .indexOutOfRange _ index bound => .indexOutOfRange routine index bound
  | .badArgument _ text => .badArgument routine text
  | .edgeTooSmall edge => .edgeTooSmall edge

namespace Shape

/-! ## Linear order -/

/-- A vector has a single row or a single column. -/
theorem line_of_isVector {s : Shape} (h : s.isVector = true) : s.rows = 1 ∨ s.cols = 1 := by
  by_contra hline
  rw [not_or] at hline
  -- both dimensions would be among those that differ from one
  simp [isVector, dims, hline] at h

/-- The cell of a linear index: the index counts whole pages, and in its page whole columns. -/
theorem cellOfLinear_eq_ok {s : Shape} {rows index : Nat} (hrows : max s.rows 1 = rows)
    (hcols : 0 < s.cols) (hpage : rows * s.cols < Size.limit) (hindex : index < Size.limit) :
    s.cellOfLinear index =
      .ok (index / (rows * s.cols) * rows + index % (rows * s.cols) % rows,
        index % (rows * s.cols) / rows) := by
  have hpos : 0 < rows * s.cols := Nat.mul_pos (by omega) hcols
  -- no stacked row is greater than the index
  have hbefore : index / (rows * s.cols) * rows ≤ index / (rows * s.cols) * (rows * s.cols) :=
    Nat.mul_le_mul_left _ (Nat.le_mul_of_pos_right rows hcols)
  have hwithin : index % (rows * s.cols) % rows ≤ index % (rows * s.cols) := Nat.mod_le _ _
  have hsum : index / (rows * s.cols) * (rows * s.cols) + index % (rows * s.cols) = index := by
    rw [Nat.mul_comm]
    exact Nat.div_add_mod index (rows * s.cols)
  unfold cellOfLinear
  dsimp only
  rw [hrows, Size.mul_eq_ok hpage, ok_bind, if_neg hpos.ne', if_neg hpos.ne',
    Size.mul_eq_ok (by omega), ok_bind, Size.add_eq_ok (by omega), ok_bind]
  rfl

/-- In a single row or a single column the cell of a linear index is its place in the buffer. -/
theorem cellOfLinear_of_line {s : Shape} (hline : s.rows = 1 ∨ s.cols = 1) (hpos : 0 < s.cols)
    (hrows : s.rows < Size.limit) (hcols : s.cols < Size.limit) {index : Nat}
    (hindex : index < Size.limit) :
    ∃ row col, s.cellOfLinear index = .ok (row, col) ∧ row * s.cols + col = index := by
  rcases hline with hrow | hcol
  · have hmax : max s.rows 1 = 1 := by omega
    refine ⟨_, _, cellOfLinear_eq_ok hmax hpos (by rwa [Nat.one_mul]) hindex, ?_⟩
    -- each page is a row of its own
    rw [Nat.one_mul, Nat.mul_one, Nat.mod_one, Nat.add_zero, Nat.div_one, Nat.mul_comm]
    exact Nat.div_add_mod index s.cols
  · have hlimit : max s.rows 1 < Size.limit := Nat.max_lt.2 ⟨hrows, by decide⟩
    have hfirst : index % max s.rows 1 / max s.rows 1 = 0 :=
      Nat.div_eq_of_lt (Nat.mod_lt _ (by omega))
    refine ⟨_, _, cellOfLinear_eq_ok rfl hpos (by rwa [hcol, Nat.mul_one]) hindex, ?_⟩
    -- the stacked rows are counted through all pages
    rw [hcol, Nat.mul_one, Nat.mul_one, Nat.mod_mod, hfirst, Nat.add_zero, Nat.mul_comm]
    exact Nat.div_add_mod index (max s.rows 1)

end Shape

namespace PagedMatrix

variable {α ρ : Type} [Scalar α ρ] {x y c : PagedMatrix α}

/-- In linear order a vector is read from its buffer. -/
theorem getLinear_of_isVector (hx : x.Stored) (hvector : x.shape.isVector = true) {index : Nat}
    (hindex : index < x.size) : x.getLinear index = readAt x.data index := by
  have hpos : 0 < x.cols := by
    rw [Nat.pos_iff_ne_zero]
    intro hzero
    have hsize : x.size = _ := hx.wellFormed.data_size
    rw [hzero, Nat.mul_zero, Nat.zero_mul] at hsize
    rw [hsize] at hindex
    exact Nat.not_lt_zero index hindex
  rcases Shape.cellOfLinear_of_line (Shape.line_of_isVector hvector) hpos hx.rows_lt hx.cols_lt
    (hindex.trans hx.fits.lt_limit) with ⟨row, col, hcell, hplace⟩
  unfold getLinear
  rw [hcell, ok_bind, get, hplace]

omit [Scalar α ρ] in
/-- Gathering answers the list of the entries in linear order. -/
theorem gather_eq_ok {entries : Array α} (hsize : entries.size = x.size)
    (h : ∀ index < x.size, x.getLinear index = readAt entries index) : x.gather = .ok entries := by
  refine ascend_eq_ok (fun i => entries.extract 0 i) (Nat.zero_le _) (by simp)
    (by simp [← hsize]) ?_
  intro i _ hi
  have hlt : i < entries.size := hsize ▸ hi
  rw [h i hi, readAt_eq_ok hlt, ok_bind, Array.extract_succ_right (Nat.succ_pos i) hlt]
  rfl

/-! ## The cells of an outer product -/

/-- The cells `f` with the products `xs i * g (ys j)` added to them. -/
def outerCells (g : α → α) (xs ys : Nat → α) (f : Nat → Nat → α) : Nat → Nat → α :=
  fun i j => Scalar.addMul (f i j) (xs i) (g (ys j))

section Cells

variable {shape : Shape} {kind : NumericKind} {m n : Nat} {g : α → α} {f : Nat → Nat → α}

/-- A loop over all cells that adds the products, wherever it reads the factors `xs` and `ys`. -/
theorem addOuter_ofCells {rowStep : Nat → PagedMatrix α → Checked (PagedMatrix α)}
    (read : Nat → Checked α) (xs ys : Nat → α) (hcols : shape.cols = n)
    (hread : ∀ j < n, read j = .ok (ys j))
    (hrow : ∀ i F, i < m → rowStep i (ofCells shape kind m F) =
      ascend 0 n (ofCells shape kind m F) fun j c => do
        let old ← c.get i j
        c.set i j (Scalar.addMul old (xs i) (g (← read j)))) :
    ascend 0 m (ofCells shape kind m f) rowStep =
      .ok (ofCells shape kind m (outerCells g xs ys f)) := by
  refine fill_ofCells (g := outerCells g xs ys f) 0 0 (Nat.zero_le m) (Nat.zero_le n)
    (fun i F _ hi => hrow i F hi) ?_ ?_
  · intro r c _ _
    exact if_pos (by omega)
  · intro i j F _ hi _ hj hF
    -- a cell is read once, before it is written
    rw [get_ofCells hi (by omega), ok_bind, hread j hj, ok_bind, hF i j (by omega)]
    simp only [Nat.zero_add, Nat.sub_zero]
    exact set_ofCells hi (by omega) _

/-- The update by plain vectors that are as long as the columns and the rows. -/
theorem addOuterWith_ofCells {v w : Array α} (hcols : shape.cols = w.size)
    (hlimit : v.size < Size.limit) :
    addOuterWith g v w (ofCells shape kind v.size f) =
      .ok (ofCells shape kind v.size (outerCells g (v.getD · 0) (w.getD · 0) f)) := by
  unfold addOuterWith
  apply addOuter_ofCells (readAt w) (v.getD · 0) (w.getD · 0) hcols
  · intro j hj
    exact readAt_getD hj
  · intro i F hi
    rw [readAt_getD hi, ok_bind, checkRow_ofCells hi hlimit, ok_bind, cols_ofCells, hcols,
      Nat.min_self]

/-- The update of a whole matrix by plain vectors. -/
theorem Stored.addOuterWith_eq_ok {v w : Array α} (hc : c.Stored) (hpage : c.SinglePage)
    (hrows : c.rows = v.size) (hcols : c.cols = w.size) (g : α → α) :
    addOuterWith g v w c =
      .ok (ofCells c.shape c.kind v.size (outerCells g (v.getD · 0) (w.getD · 0) c.cell)) := by
  have hcells := hc.eq_ofCells_of_singlePage hpage
  rw [hrows] at hcells
  conv_lhs => rw [hcells]
  exact addOuterWith_ofCells hcols (hrows ▸ hc.rows_lt)

end Cells

/-! ## Operands -/

/-- The matrices `x` and `y` are vectors that are as long as the columns and the rows of `c`, which
has a single page. -/
structure OuterConformal (x y c : PagedMatrix α) : Prop where
  /-- The left factor is a vector. -/
  isVector_left : x.shape.isVector = true
  /-- The right factor is a vector. -/
  isVector_right : y.shape.isVector = true
  /-- The target has a single page. -/
  singlePage : c.SinglePage
  /-- The target has a row for each entry of the left factor. -/
  rows_eq : c.rows = x.size
  /-- It has a column for each entry of the right factor. -/
  cols_eq : c.cols = y.size

omit [Scalar α ρ] in
/-- Operands that fit are admitted. -/
theorem requireOuter_eq_ok (h : OuterConformal x y c) (routine : String) :
    (requireOuter routine x y c).run = .ok (.ok ()) := by
  have hpages : c.pages = .ok 1 := h.singlePage
  unfold requireOuter
  rw [h.isVector_left, h.isVector_right, hpages]
  change (if c.rows ≠ x.size ∨ c.cols ≠ y.size then _ else _ : Fallible Unit).run = _
  rw [if_neg (by simp [h.rows_eq, h.cols_eq])]
  rfl

omit [Scalar α ρ] in
/-- Other operands are refused, for the same reason by every routine. -/
theorem requireOuter_refused {count : Nat} (hpages : c.pages = .ok count)
    (h : ¬ OuterConformal x y c) : ∃ refusal : Refusal, ∀ routine,
      (requireOuter routine x y c).run = .ok (.error (refusal.reportedBy routine)) := by
  -- the checks are made in one order, and the first that fails decides
  rcases hx : x.shape.isVector with _ | _
  · let dims := x.shape.text
    refine ⟨.badArgument "" s!"x must be a vector, got dimensions {dims}", ?_⟩
    intro routine
    unfold requireOuter
    rw [hx]
    rfl
  rcases hy : y.shape.isVector with _ | _
  · let dims := y.shape.text
    refine ⟨.badArgument "" s!"y must be a vector, got dimensions {dims}", ?_⟩
    intro routine
    unfold requireOuter
    rw [hx, hy]
    rfl
  by_cases hpage : count = 1
  · subst hpage
    have hextents : c.rows ≠ x.size ∨ c.cols ≠ y.size := by
      by_contra hsame
      rw [not_or, not_not, not_not] at hsame
      exact h ⟨hx, hy, hpages, hsame.1, hsame.2⟩
    refine ⟨.extentMismatch "" (x.size, y.size) (c.rows, c.cols), ?_⟩
    intro routine
    unfold requireOuter
    rw [hx, hy, hpages]
    exact congrArg ExceptT.run (if_pos hextents)
  · let dims := c.shape.text
    refine ⟨.badArgument "" s!"C must be 2-D, got dimensions {dims}", ?_⟩
    intro routine
    unfold requireOuter
    rw [hx, hy, hpages]
    exact congrArg ExceptT.run (if_pos hpage)

/-! ## Agreement -/

section Agreement

variable [RealArith ρ]

/-- The matrix that the update by a column `v` and the conjugate of a row `w` leaves. -/
def conjOuter (v w : Array α) (c : PagedMatrix α) : PagedMatrix α :=
  (ofCells c.shape c.kind v.size
    (outerCells Scalar.conj (v.getD · 0) (w.getD · 0) c.cell)).refreshKind

/-- The update by plain vectors. -/
theorem Stored.addConjOuter_eq_ok {v w : Array α} (hc : c.Stored) (hpage : c.SinglePage)
    (hrows : c.rows = v.size) (hcols : c.cols = w.size) :
    addConjOuter v w c = .ok (conjOuter v w c) := by
  unfold addConjOuter
  rw [hc.addOuterWith_eq_ok hpage hrows hcols]
  rfl

/-- The update that gathers its operands first. -/
theorem addConjOuterGathered_of_conformal (hx : x.Stored) (hy : y.Stored) (hc : c.Stored)
    (h : OuterConformal x y c) :
    (addConjOuterGathered x y c).run = .ok (.ok (conjOuter x.data y.data c)) := by
  have hxs := gather_eq_ok rfl fun index => getLinear_of_isVector hx h.isVector_left
  have hys := gather_eq_ok rfl fun index => getLinear_of_isVector hy h.isVector_right
  unfold addConjOuterGathered onBehalfOf
  rw [ExceptT.run_bind, run_adapt, requireOuter_eq_ok h, hxs, hys]
  change (checked (addConjOuter x.data y.data c) :
    ExceptT (Interrupted (PagedMatrix α)) (Except Fault) (PagedMatrix α)).run = _
  rw [hc.addConjOuter_eq_ok h.singlePage h.rows_eq h.cols_eq]
  rfl

/-- The update that reads its operands where they are. -/
theorem addConjOuterInPlace_of_conformal (hx : x.Stored) (hy : y.Stored) (hc : c.Stored)
    (h : OuterConformal x y c) :
    (addConjOuterInPlace x y c).run = .ok (.ok (conjOuter x.data y.data c)) := by
  have hcells := hc.eq_ofCells_of_singlePage h.singlePage
  rw [h.rows_eq] at hcells
  have hloop : (ascend 0 x.size (ofCells c.shape c.kind x.size c.cell) fun i c => do
      let xi ← x.getLinear i
      ascend 0 y.size c fun j c => do
        let old ← c.get i j
        c.set i j (Scalar.addMul old xi (Scalar.conj (← y.getLinear j)))) =
      .ok (ofCells c.shape c.kind x.size
        (outerCells Scalar.conj (x.data.getD · 0) (y.data.getD · 0) c.cell)) := by
    apply addOuter_ofCells y.getLinear (x.data.getD · 0) (y.data.getD · 0) h.cols_eq
    · intro j hj
      rw [getLinear_of_isVector hy h.isVector_right hj, readAt_getD hj]
    · intro i F hi
      rw [getLinear_of_isVector hx h.isVector_left hi, readAt_getD hi, ok_bind]
  rw [← hcells] at hloop
  unfold addConjOuterInPlace onBehalfOf
  rw [ExceptT.run_bind, run_adapt, requireOuter_eq_ok h, hloop]
  rfl

/-- On every target with a count of pages the two updates end alike. Operands that do not fit are
refused by both for one reason, and the target stays as it was. Otherwise both leave the matrix that
the update by the two buffers leaves: every cell takes the product of its entry of the column by the
conjugate of its entry of the row, where the entries in linear order are those in the buffer. No law
of arithmetic is used. -/
theorem conjOuter_updates_agree {count : Nat} (hx : x.Stored) (hy : y.Stored) (hc : c.Stored)
    (hpages : c.pages = .ok count) :
    (¬ OuterConformal x y c → ∃ refusal : Refusal,
      (addConjOuterGathered x y c).run = .ok (.error ⟨c, refusal.reportedBy "gerc_nd"⟩) ∧
      (addConjOuterInPlace x y c).run =
        .ok (.error ⟨c, refusal.reportedBy "gerc_nd_direct"⟩)) ∧
    (OuterConformal x y c → ∃ c',
      (addConjOuterGathered x y c).run = .ok (.ok c') ∧
      (addConjOuterInPlace x y c).run = .ok (.ok c') ∧
      addConjOuter x.data y.data c = .ok c' ∧ c'.shape = c.shape ∧
      ∀ i j, i < x.size → j < y.size → ∃ xi yj,
        x.getLinear i = .ok xi ∧ x.data[i]? = some xi ∧
        y.getLinear j = .ok yj ∧ y.data[j]? = some yj ∧
        c'.get i j = .ok (Scalar.addMul (c.cell i j) xi (Scalar.conj yj))) := by
  constructor
  · intro hbad
    rcases requireOuter_refused hpages hbad with ⟨refusal, hrefused⟩
    refine ⟨refusal, ?_, ?_⟩
    · unfold addConjOuterGathered onBehalfOf
      rw [ExceptT.run_bind, run_adapt, hrefused]
      rfl
    · unfold addConjOuterInPlace onBehalfOf
      rw [ExceptT.run_bind, run_adapt, hrefused]
      rfl
  · intro h
    refine ⟨conjOuter x.data y.data c, addConjOuterGathered_of_conformal hx hy hc h,
      addConjOuterInPlace_of_conformal hx hy hc h,
      hc.addConjOuter_eq_ok h.singlePage h.rows_eq h.cols_eq, rfl, ?_⟩
    intro i j hi hj
    have hcell : (conjOuter x.data y.data c).get i j = .ok (Scalar.addMul (c.cell i j)
        (x.data.getD i 0) (Scalar.conj (y.data.getD j 0))) := by
      rw [conjOuter, get_refreshKind, get_ofCells hi (Nat.lt_of_lt_of_eq hj h.cols_eq.symm)]
      rfl
    refine ⟨_, _, ?_, getElem?_getD hi, ?_, getElem?_getD hj, hcell⟩
    · rw [getLinear_of_isVector hx h.isVector_left hi, readAt_getD hi]
    · rw [getLinear_of_isVector hy h.isVector_right hj, readAt_getD hj]

/-- A vector along the pages, with an entry that is not a number. -/
def pageColumn : PagedMatrix Float :=
  { shape := { rows := 1, cols := 1, trailing := [2] }, data := #[0.0 / 0.0, -1.5] }

/-- A square of two rows on one page, with an entry that is not a number. -/
def nanSquare : PagedMatrix Float :=
  { shape := { rows := 2, cols := 2 }, data := #[1.0, 2.0, 0.0 / 0.0, 4.0] }

/-- The updates agree on a column along the pages, and refuse two pages as a target. -/
theorem conjOuter_updates_agree_pageColumn :
    (pageColumn.Stored ∧ shortRow.Stored) ∧ (nanSquare.Stored ∧ nanSquare.pages = .ok 1 ∧ ∃ c',
      (addConjOuterGathered pageColumn shortRow nanSquare).run = .ok (.ok c') ∧
      (addConjOuterInPlace pageColumn shortRow nanSquare).run = .ok (.ok c') ∧
      addConjOuter pageColumn.data shortRow.data nanSquare = .ok c') ∧
    nanPages.Stored ∧ nanPages.pages = .ok 2 ∧ ∃ refusal : Refusal,
      (addConjOuterGathered pageColumn shortRow nanPages).run =
        .ok (.error ⟨nanPages, refusal.reportedBy "gerc_nd"⟩) ∧
      (addConjOuterInPlace pageColumn shortRow nanPages).run =
        .ok (.error ⟨nanPages, refusal.reportedBy "gerc_nd_direct"⟩) := by
  have hcolumn : pageColumn.Stored := ⟨rfl, by decide, by decide, by decide⟩
  have hrow : shortRow.Stored := ⟨rfl, by decide, by decide, by decide⟩
  have hsquare : nanSquare.Stored := ⟨rfl, by decide, by decide, by decide⟩
  have hpages : nanPages.Stored := ⟨rfl, by decide, by decide, by decide⟩
  have hfit : OuterConformal pageColumn shortRow nanSquare := ⟨rfl, rfl, rfl, rfl, rfl⟩
  have hunfit : ¬ OuterConformal pageColumn shortRow nanPages := by
    intro h
    -- the target has two pages
    have htwo : nanPages.pages = .ok 2 := rfl
    cases htwo.symm.trans h.singlePage
  rcases (conjOuter_updates_agree hcolumn hrow hsquare rfl).2 hfit with
    ⟨c', hgathered, hinPlace, hbuffers, -⟩
  exact ⟨⟨hcolumn, hrow⟩, ⟨hsquare, rfl, c', hgathered, hinPlace, hbuffers⟩, hpages, rfl,
    (conjOuter_updates_agree hcolumn hrow hpages rfl).1 hunfit⟩

end Agreement

end PagedMatrix

end DenseLinear
