import DenseLinear.Proofs.RingProducts
import DenseLinear.Proofs.OuterProducts
import DenseLinear.Proofs.Transposes
import DenseLinear.Proofs.VectorProducts

/-!
# Outer products on a block

Over a commutative ring, `addOuterBlock` adds `alpha` times the product of a column by a conjugated
row to the cells of one block, and touches no other cell (`addOuterBlock_adds`). It goes through
the block column by column, and it passes over a column whose factor is zero, where there is nothing
to add.

On a whole matrix and with `alpha` one there are three more ways to the same entries: the update by
plain vectors that conjugates the row, the update by plain vectors with a row that is conjugated
already, and the product of a matrix of one column by the conjugate transpose of another one. They
go through the matrix row by row, and the last one adds up sums of a single term. Nothing is asked
of the conjugation, and the ring need not have inverses.
-/

namespace DenseLinear

/-- Entries that form a commutative ring. -/
class CommScalar (K : Type) {R : Type} [RingScalar K R] : Prop where
  /-- Products do not depend on the order of their factors. -/
  mul_comm (x y : K) : x * y = y * x

instance {K R : Type} [FieldScalar K R] : CommScalar K where
  mul_comm := mul_comm

namespace PagedMatrix

/-! ## Columns of other matrices -/

section Sources

variable {α : Type} {source : PagedMatrix α} {start : ColumnStart} {m : Nat}

/-- A vector of the given length from `start` on lies in a column of `source`. -/
structure ColumnStart.LiesIn (start : ColumnStart) (source : PagedMatrix α) (length : Nat) :
    Prop where
  /-- The buffer holds all rows up to the end of the vector. -/
  rows : (start.row + length) * source.cols ≤ source.size
  /-- The column is one of the matrix. -/
  col : start.col < source.cols

/-- The vector `v` stands in a column of `source`, where `start` says. -/
def HoldsColumn (source : PagedMatrix α) (start : ColumnStart) (v : Array α) : Prop :=
  ∀ i < v.size, source.get (start.row + i) start.col = readAt v i

/-- What lies in a column of a matrix is a vector. -/
theorem exists_holdsColumn [Zero α] (h : start.LiesIn source m) :
    ∃ v, v.size = m ∧ source.HoldsColumn start v := by
  refine ⟨Array.ofFn fun i : Fin m => source.cell (start.row + i) start.col, Array.size_ofFn, ?_⟩
  intro i hi
  have him : i < m := by rwa [Array.size_ofFn] at hi
  have hplace : (start.row + i) * source.cols + start.col < source.size :=
    (place_lt (by omega) h.col).trans_le h.rows
  unfold get
  rw [readAt_getD hplace, readAt_eq_ok hi, Array.getElem_ofFn]
  rfl

/-- A column of a matrix in memory fits into memory. -/
theorem Stored.fits_column {ρ : Type} [Scalar α ρ] (hsource : source.Stored)
    (h : start.LiesIn source m) : Fits α m := by
  have hle : start.row + m ≤ (start.row + m) * source.cols :=
    Nat.le_mul_of_pos_right _ (Nat.zero_lt_of_lt h.col)
  have hrows := h.rows
  exact hsource.fits.mono (by omega)

end Sources

/-! ## The block -/

section Block

variable {K R : Type} [RingScalar K R] {shape : Shape} {kind : NumericKind}
  {height row col m n : Nat} {f : Nat → Nat → K} {xs ys : Array K} {xSource ySource : PagedMatrix K}
  {x y : ColumnStart} {alpha : K}

/-- The cells `f` with `alpha` times an outer product added to those from row `row` and column `col`
on. -/
def outerBlockCells (row col : Nat) (alpha : K) (xs ys : Array K) (f : Nat → Nat → K) :
    Nat → Nat → K :=
  fun r c => f r c + xs.getD (r - row) 0 * (alpha * Scalar.conj (ys.getD (c - col) 0))

/-- The update adds to each cell of its block, and to no other one. -/
theorem addOuterBlock_ofCells (hx : xSource.HoldsColumn x xs) (hy : ySource.HoldsColumn y ys)
    (hrows : row + xs.size ≤ height) (hcols : col + ys.size ≤ shape.cols) :
    addOuterBlock (ofCells shape kind height f) row col xs.size ys.size alpha xSource x ySource y =
      .ok (ofCells shape kind height (overwrite row (row + xs.size) col (col + ys.size)
        (outerBlockCells row col alpha xs ys f) f)) := by
  refine ascend_ofCells (fun j => overwrite row (row + xs.size) col (col + j)
    (outerBlockCells row col alpha xs ys f) f) (Nat.zero_le _) ?_ (fun r c _ _ => rfl) ?_
  · intro r c _ _
    exact (if_neg (by omega)).symm
  intro j _ hj
  rw [hy j hj, readAt_getD hj, ok_bind]
  dsimp only
  by_cases hzero : (alpha * Scalar.conj (ys.getD j 0) == 0) = true
  · -- in a column that is passed over, the multiples of the factor are zero
    rw [if_pos hzero]
    refine congrArg Except.ok (ofCells_congr fun r c _ _ => ?_)
    rw [RingScalar.beq_iff] at hzero
    unfold overwrite outerBlockCells
    by_cases hc : c = col + j
    · rw [hc, Nat.add_sub_cancel_left, hzero, mul_zero, add_zero, ite_self, ite_self]
    · split_ifs <;> first | rfl | omega
  · rw [if_neg hzero]
    -- the columns before `j` are finished, and so are the first rows of this one
    refine ascend_ofCells (fun i => overwrite row (row + i) (col + j) (col + j + 1)
      (outerBlockCells row col alpha xs ys f) (overwrite row (row + xs.size) col (col + j)
        (outerBlockCells row col alpha xs ys f) f)) (Nat.zero_le _) ?_ ?_ ?_
    · intro r c _ _
      exact (if_neg (by omega)).symm
    · intro r c _ _
      unfold overwrite
      split_ifs <;> first | rfl | omega
    intro i _ hi
    rw [get_ofCells (by omega) (by omega), ok_bind, hx i hi, readAt_getD hi, ok_bind,
      set_ofCells (by omega) (by omega)]
    refine congrArg Except.ok (ofCells_congr fun r c _ _ => ?_)
    unfold setCell
    by_cases hcell : r = row + i ∧ c = col + j
    · obtain ⟨rfl, rfl⟩ := hcell
      unfold overwrite outerBlockCells
      rw [if_pos ⟨rfl, rfl⟩, if_neg (by omega), if_neg (by omega), if_pos (by omega),
        Nat.add_sub_cancel_left, Nat.add_sub_cancel_left]
      rfl
    · rw [if_neg hcell]
      unfold overwrite
      split_ifs <;> first | rfl | omega

end Block

/-! ## Whole matrices -/

section Routes

variable {K R : Type} [RingScalar K R] [RealArith R] {a : PagedMatrix K} {xs ys : Array K}

/-- The cells of a matrix with an outer product added to them. -/
def addedOuter (xs ys : Array K) (f : Nat → Nat → K) : Nat → Nat → K :=
  outerCells Scalar.conj (xs.getD · 0) (ys.getD · 0) f

omit [RealArith R] in
/-- A cell of the block takes `alpha` times the product of its entries. -/
theorem overwrite_outerBlockCells [CommScalar K] {row col i j : Nat} {alpha : K} {f : Nat → Nat → K}
    (hi : i < xs.size) (hj : j < ys.size) :
    overwrite row (row + xs.size) col (col + ys.size) (outerBlockCells row col alpha xs ys f) f
        (row + i) (col + j) =
      f (row + i) (col + j) + alpha * xs.getD i 0 * Scalar.conj (ys.getD j 0) := by
  unfold overwrite outerBlockCells
  rw [if_pos (by omega), Nat.add_sub_cancel_left, Nat.add_sub_cancel_left, ← mul_assoc,
    CommScalar.mul_comm (xs.getD i 0)]

omit [RealArith R] in
/-- On a whole matrix the update of a block adds the outer product. -/
theorem addOuterBlock_whole {xSource ySource : PagedMatrix K} {x y : ColumnStart} (ha : a.Stored)
    (hpage : a.SinglePage) (hrows : a.rows = xs.size) (hcols : a.cols = ys.size)
    (hx : xSource.HoldsColumn x xs) (hy : ySource.HoldsColumn y ys) :
    addOuterBlock a 0 0 xs.size ys.size 1 xSource x ySource y =
      .ok (ofCells a.shape a.kind xs.size (addedOuter xs ys a.cell)) := by
  have hwidth : 0 + ys.size = a.cols := (Nat.zero_add _).trans hcols.symm
  have hblock : addOuterBlock (ofCells a.shape a.kind a.rows a.cell) 0 0 xs.size ys.size 1
      xSource x ySource y = .ok _ := addOuterBlock_ofCells hx hy (by omega) hwidth.le
  rw [← ha.eq_ofCells_of_singlePage hpage, hrows, hwidth] at hblock
  rw [hblock]
  refine congrArg Except.ok (ofCells_congr fun r c hr hc => ?_)
  -- every cell belongs to the block
  unfold overwrite outerBlockCells addedOuter outerCells
  rw [if_pos ⟨⟨Nat.zero_le r, by omega⟩, Nat.zero_le c, hc⟩, one_mul]
  rfl

omit [RealArith R] in
/-- A row that is conjugated before it is used. -/
theorem addOuter_conj_whole (ha : a.Stored) (hpage : a.SinglePage) (hrows : a.rows = xs.size)
    (hcols : a.cols = ys.size) :
    addOuter xs (ys.map Scalar.conj) a =
      .ok (ofCells a.shape a.kind xs.size (addedOuter xs ys a.cell)) := by
  unfold addOuter
  rw [ha.addOuterWith_eq_ok hpage hrows (by rwa [Array.size_map])]
  refine congrArg Except.ok (ofCells_congr fun i j _ hj => ?_)
  have hentry : (ys.map Scalar.conj).getD j 0 = Scalar.conj (ys.getD j 0) := by
    have hlt : j < ys.size := Nat.lt_of_lt_of_eq hj hcols
    rw [Array.getD_eq_getD_getElem?, Array.getElem?_map, getElem?_getD hlt]
    rfl
  exact congrArg (Scalar.addMul (a.cell i j) (xs.getD i 0)) hentry

/-- The conjugate transpose of a column is a row. -/
theorem exists_adjoint_ofColumn (hys : Fits K ys.size) : ∃ kind, (ofColumn ys).adjoint =
    .ok (ofCells { rows := 1, cols := ys.size } kind 1 fun _ c => Scalar.conj (ys.getD c 0)) := by
  have hroom : Fits K (1 * ys.size) := by rwa [Nat.one_mul]
  have hadjoint : adjoint (ofCells (ofColumn ys).shape (ofColumn ys).kind ys.size
      (ofColumn ys).cell) = .ok (ofCells { rows := 1, cols := ys.size } .real 1
        fun r c => Scalar.conj ((ofColumn ys).cell c r)).refreshKind :=
    adjoint_ofCells (Nat.le_refl _) (by decide : 1 < Size.limit) hroom
  rw [← (stored_ofColumn hys).eq_ofCells (height_ofColumn hys), refreshKind_ofCells] at hadjoint
  refine ⟨_, hadjoint.trans (congrArg Except.ok (ofCells_congr fun r c hr _ => ?_))⟩
  obtain rfl : r = 0 := Nat.lt_one_iff.1 hr
  rw [cell_ofColumn]

/-- The product of a column by a row has sums of a single term. -/
theorem multiplyAdd_outer {choice : BlockingChoice} {ambient : Ambient} {kind : NumericKind}
    (ha : a.Stored) (hpage : a.SinglePage) (hrows : a.rows = xs.size) (hcols : a.cols = ys.size)
    (hxs : Fits K xs.size) (hys : Fits K ys.size) (hchoice : choice.Valid)
    (hambient : ambient.Sound) :
    ∃ c' after, Runs (multiplyAdd 1 (ofColumn xs) xs.size 1
        (ofCells { rows := 1, cols := ys.size } kind 1 fun _ c => Scalar.conj (ys.getD c 0))
        ys.size 1 a choice) ambient c' after ∧
      (ofCells a.shape a.kind xs.size (addedOuter xs ys a.cell)).SameEntries c' := by
  have hrow : (ofCells { rows := 1, cols := ys.size } kind 1 fun _ c =>
      Scalar.conj (ys.getD c 0)).Stored :=
    stored_ofCells (by decide) hys.lt_limit (by rwa [Nat.one_mul])
  have hoperands : (requireOperands (ofColumn xs) (ofCells { rows := 1, cols := ys.size } kind 1
      fun _ c => Scalar.conj (ys.getD c 0)) a xs.size 1 ys.size).run = .ok (.ok ()) :=
    requireOperands_eq_ok_iff.2 ⟨⟨height_ofColumn hxs, rfl⟩, ⟨height_of_plain (by decide), rfl⟩,
      (ha.height_eq hpage).trans (congrArg Except.ok hrows), hcols⟩
  obtain ⟨blocking, after, -, hrun⟩ := exists_runs_multiplyAdd 1 1 choice (stored_ofColumn hxs) hrow
    ha hoperands hchoice hambient
  refine ⟨_, after, hrun, ?_⟩
  rw [refreshKind_ofCells]
  refine sameEntries_ofCells rfl rfl fun i j hi hj => ?_
  have hj' : j < ys.size := Nat.lt_of_lt_of_eq hj hcols
  rw [updatedCells_eq_sum 1 1 _ _ _ blocking hi hj', Finset.sum_range_one, one_mul, one_mul,
    cell_ofColumn, cell_ofCells Nat.one_pos hj', add_comm]
  rfl

/-- For a block and vectors that lie in their matrices, the update succeeds and adds to each cell of
the block `alpha` times the entry of the column by the conjugate of the entry of the row. It keeps
all other cells, the shape and the kind. With `alpha` one and on a whole matrix, the updates by
plain vectors leave the same entries, and so does the product of the two vectors as matrices,
whichever way it is formed. -/
theorem addOuterBlock_adds [CommScalar K] {xSource ySource : PagedMatrix K} {row col m n : Nat}
    {x y : ColumnStart} (alpha : K) (ha : a.Stored) (hrows : (row + m) * a.cols ≤ a.size)
    (hcols : col + n ≤ a.cols) (hxSource : xSource.Stored) (hx : x.LiesIn xSource m)
    (hySource : ySource.Stored) (hy : y.LiesIn ySource n) :
    ∃ a' xs ys, (xs.size = m ∧ xSource.HoldsColumn x xs) ∧
      (ys.size = n ∧ ySource.HoldsColumn y ys) ∧
      addOuterBlock a row col m n alpha xSource x ySource y = .ok a' ∧
      (a'.shape = a.shape ∧ a'.kind = a.kind) ∧
      (∀ i j, i < m → j < n → ∃ old xi yj,
        a.get (row + i) (col + j) = .ok old ∧ xs[i]? = some xi ∧ ys[j]? = some yj ∧
        a'.get (row + i) (col + j) = .ok (old + alpha * xi * Scalar.conj yj)) ∧
      (∀ r c, c < a.cols → ¬((row ≤ r ∧ r < row + m) ∧ col ≤ c ∧ c < col + n) →
        a'.get r c = a.get r c) ∧
      (alpha = 1 → row = 0 → col = 0 → a.SinglePage → a.rows = m → a.cols = n →
        (∃ c', addConjOuter xs ys a = .ok c' ∧ a'.SameEntries c') ∧
        (∃ c', addOuter xs (ys.map Scalar.conj) a = .ok c' ∧ a'.SameEntries c') ∧
        ∃ yh, (ofColumn ys).adjoint = .ok yh ∧
          ∀ (choice : BlockingChoice) (ambient : Ambient), choice.Valid → ambient.Sound →
            ∃ c' after, Runs (multiplyAdd 1 (ofColumn xs) m 1 yh n 1 a choice) ambient c' after ∧
              a'.SameEntries c') := by
  have hxfits : Fits K m := hxSource.fits_column hx
  have hyfits : Fits K n := hySource.fits_column hy
  obtain ⟨xs, rfl, hxs⟩ := exists_holdsColumn hx
  obtain ⟨ys, rfl, hys⟩ := exists_holdsColumn hy
  obtain ⟨height, hheight, hcells⟩ := ha.wellFormed.exists_ofCells hrows
  have hblock : addOuterBlock (ofCells a.shape a.kind height a.cell) row col xs.size ys.size alpha
      xSource x ySource y = .ok _ := addOuterBlock_ofCells hxs hys hheight hcols
  rw [← hcells] at hblock
  refine ⟨_, xs, ys, ⟨rfl, hxs⟩, ⟨rfl, hys⟩, hblock, ⟨rfl, rfl⟩, ?_, ?_, ?_⟩
  · intro i j hi hj
    have hrow : row + i < height := by omega
    have hcol : col + j < a.cols := by omega
    refine ⟨a.cell (row + i) (col + j), xs.getD i 0, ys.getD j 0, ?_, getElem?_getD hi,
      getElem?_getD hj, ?_⟩
    · conv_lhs => rw [hcells]
      exact get_ofCells hrow hcol
    · rw [get_ofCells hrow hcol, overwrite_outerBlockCells hi hj]
  · intro r c hc hout
    conv_rhs => rw [hcells]
    exact get_ofCells_congr hc hc fun _ => if_neg hout
  · rintro rfl rfl rfl hpage hm hn
    have hwhole := addOuterBlock_whole ha hpage hm hn hxs hys
    -- the block is the whole matrix, so there is one result to compare with
    rw [Except.ok.inj (hblock.symm.trans hwhole)]
    refine ⟨?_, ?_, ?_⟩
    · exact ⟨_, ha.addConjOuter_eq_ok hpage hm hn, rfl, rfl, rfl⟩
    · exact ⟨_, addOuter_conj_whole ha hpage hm hn, rfl, rfl, rfl⟩
    · rcases exists_adjoint_ofColumn hyfits with ⟨kind, hadjoint⟩
      refine ⟨_, hadjoint, ?_⟩
      intro choice ambient hchoice hambient
      exact multiplyAdd_outer ha hpage hm hn hxfits hyfits hchoice hambient

end Routes

/-- A square of complex numbers. -/
def complexSquare : PagedMatrix (Cartesian ℝ) :=
  { shape := { rows := 2, cols := 2 }, data := #[⟨0, 1⟩, ⟨1, 0⟩, ⟨1, 1⟩, ⟨0, 0⟩], kind := .complex }

/-- A single cell that takes the product of entries of two other cells, and a whole matrix. -/
theorem addOuterBlock_adds_complexSquare :
    (complexSquare.Stored ∧ (1 + 1) * complexSquare.cols ≤ complexSquare.size ∧
      1 + 1 ≤ complexSquare.cols ∧ ColumnStart.LiesIn ⟨0, 1⟩ complexSquare 1 ∧
      ColumnStart.LiesIn ⟨1, 0⟩ complexSquare 1 ∧ ∃ a' old xi yj,
        addOuterBlock complexSquare 1 1 1 1 ⟨0, 2⟩ complexSquare ⟨0, 1⟩ complexSquare ⟨1, 0⟩ =
          .ok a' ∧
        complexSquare.get 1 1 = .ok old ∧ complexSquare.get 0 1 = .ok xi ∧
        complexSquare.get 1 0 = .ok yj ∧ a'.get 1 1 = .ok (old + ⟨0, 2⟩ * xi * Scalar.conj yj) ∧
        a'.get 0 1 = complexSquare.get 0 1 ∧ a'.get 1 0 = complexSquare.get 1 0) ∧
    (0 + 2) * complexSquare.cols ≤ complexSquare.size ∧ 0 + 2 ≤ complexSquare.cols ∧
      ColumnStart.LiesIn ⟨0, 1⟩ complexSquare 2 ∧ ColumnStart.LiesIn ⟨0, 0⟩ complexSquare 2 ∧
      ∃ a' xs ys, xs.size = 2 ∧ ys.size = 2 ∧
        addOuterBlock complexSquare 0 0 2 2 1 complexSquare ⟨0, 1⟩ complexSquare ⟨0, 0⟩ = .ok a' ∧
        (∃ c', addConjOuter xs ys complexSquare = .ok c' ∧ a'.SameEntries c') ∧
        ∃ c', addOuter xs (ys.map Scalar.conj) complexSquare = .ok c' ∧ a'.SameEntries c' := by
  have hstored : complexSquare.Stored := ⟨rfl, by decide, by decide, by decide⟩
  have hrows : (1 + 1) * complexSquare.cols ≤ complexSquare.size := by decide
  have hcols : 1 + 1 ≤ complexSquare.cols := by decide
  have hwhole : (0 + 2) * complexSquare.cols ≤ complexSquare.size := by decide
  have hwide : 0 + 2 ≤ complexSquare.cols := by decide
  have hupper : ColumnStart.LiesIn ⟨0, 1⟩ complexSquare 1 := ⟨by decide, by decide⟩
  have hlower : ColumnStart.LiesIn ⟨1, 0⟩ complexSquare 1 := ⟨by decide, by decide⟩
  have hsecond : ColumnStart.LiesIn ⟨0, 1⟩ complexSquare 2 := ⟨by decide, by decide⟩
  have hfirst : ColumnStart.LiesIn ⟨0, 0⟩ complexSquare 2 := ⟨by decide, by decide⟩
  constructor
  · obtain ⟨a', xs, ys, ⟨hm, hxs⟩, ⟨hn, hys⟩, hrun, -, hadd, hkeep, -⟩ :=
      addOuterBlock_adds (⟨0, 2⟩ : Cartesian ℝ) hstored hrows hcols hstored hupper hstored hlower
    obtain ⟨old, xi, yj, hold, hxi, hyj, hnew⟩ := hadd 0 0 Nat.one_pos Nat.one_pos
    exact ⟨hstored, hrows, hcols, hupper, hlower, a', old, xi, yj, hrun, hold,
      (hxs 0 (by omega)).trans (readAt_of_getElem? hxi),
      (hys 0 (by omega)).trans (readAt_of_getElem? hyj), hnew,
      hkeep 0 1 (by decide) (by decide), hkeep 1 0 (by decide) (by decide)⟩
  · obtain ⟨a', xs, ys, ⟨hm, -⟩, ⟨hn, -⟩, hrun, -, -, -, hroutes⟩ :=
      addOuterBlock_adds (1 : Cartesian ℝ) hstored hwhole hwide hstored hsecond hstored hfirst
    obtain ⟨hconj, hplain, -⟩ := hroutes rfl rfl rfl rfl rfl rfl
    exact ⟨hwhole, hwide, hsecond, hfirst, a', xs, ys, hm, hn, hrun, hconj, hplain⟩

end PagedMatrix

end DenseLinear
