import DenseLinear.PagedMatrix.Linear
import DenseLinear.Segment

/-!
# Rank-one updates

Adding the product of a column by a row to a matrix: with plain vectors (`addOuter`,
`addConjOuter`), with vector-shaped matrices (`addConjOuterGathered`, `addConjOuterInPlace`) and
with columns of other matrices on a block (`addOuterBlock`).

The two forms for vector-shaped matrices refuse the same operands. They differ in when they read
the operands: one gathers both first, the other reads as it goes.
-/

namespace DenseLinear

namespace PagedMatrix

variable {α ρ : Type} [Scalar α ρ]

/-- The matrix with `x i * f (y j)` added to the cell in row `i` and column `j`. Every row of `x`
must be a row of the matrix; columns of `y` beyond the last one are left out. -/
def addOuterWith (f : α → α) (x y : Array α) (c : PagedMatrix α) : Checked (PagedMatrix α) :=
  ascend 0 x.size c fun i c => do
    let xi ← readAt x i
    c.checkRow i
    ascend 0 (min c.cols y.size) c fun j c => do
      let old ← c.get i j
      c.set i j (Scalar.addMul old xi (f (← readAt y j)))

/-- The matrix with the product of the column `x` by the row `y` added to it. The kind stays as it
is. -/
def addOuter (x y : Array α) (c : PagedMatrix α) : Checked (PagedMatrix α) :=
  addOuterWith id x y c

variable [RealArith ρ]

/-- The matrix with the product of the column `x` by the conjugate of the row `y` added to it. -/
def addConjOuter (x y : Array α) (c : PagedMatrix α) : Checked (PagedMatrix α) := do
  return (← addOuterWith Scalar.conj x y c).refreshKind

omit [Scalar α ρ] [RealArith ρ] in
/-- Admits the operands of a rank-one update of `c` by the vector-shaped matrices `x` and `y`. -/
def requireOuter (routine : String) (x y c : PagedMatrix α) : Fallible Unit := do
  if !x.shape.isVector then
    let dims := x.shape.text
    throw (.badArgument routine s!"x must be a vector, got dimensions {dims}")
  if !y.shape.isVector then
    let dims := y.shape.text
    throw (.badArgument routine s!"y must be a vector, got dimensions {dims}")
  if (← c.pages) ≠ 1 then
    let dims := c.shape.text
    throw (.badArgument routine s!"C must be 2-D, got dimensions {dims}")
  if c.rows ≠ x.size ∨ c.cols ≠ y.size then
    throw (.extentMismatch routine (x.size, y.size) (c.rows, c.cols))

omit [Scalar α ρ] [RealArith ρ] in
/-- The entries of a matrix in linear order. -/
def gather (x : PagedMatrix α) : Checked (Array α) :=
  ascend 0 x.size #[] fun i entries => do
    return entries.push (← x.getLinear i)

/-- The matrix `c` with the product of `x` by the conjugate of `y` added to it, both read in linear
order and gathered first. -/
def addConjOuterGathered (x y c : PagedMatrix α) :
    ExceptT (Interrupted (PagedMatrix α)) (Except Fault) (PagedMatrix α) := do
  onBehalfOf c (requireOuter "gerc_nd" x y c)
  let xs ← checked x.gather
  let ys ← checked y.gather
  checked (addConjOuter xs ys c)

/-- The matrix `c` with the product of `x` by the conjugate of `y` added to it, both read in linear
order where they are. -/
def addConjOuterInPlace (x y c : PagedMatrix α) :
    ExceptT (Interrupted (PagedMatrix α)) (Except Fault) (PagedMatrix α) := do
  onBehalfOf c (requireOuter "gerc_nd_direct" x y c)
  let updated ← checked (ascend 0 x.size c fun i c => do
    let xi ← x.getLinear i
    ascend 0 y.size c fun j c => do
      let old ← c.get i j
      c.set i j (Scalar.addMul old xi (Scalar.conj (← y.getLinear j))))
  return updated.refreshKind

/-- Where a vector begins in a column of a matrix. -/
structure ColumnStart where
  /-- The row of its first entry. -/
  row : Nat
  /-- The column. -/
  col : Nat
deriving DecidableEq, Repr

omit [RealArith ρ] in
/-- The matrix `a` with `alpha * x i * conj (y j)` added to the cell in row `row + i` and column
`col + j`, for `i < m` and `j < n`. The vectors are read from columns of `xSource` and `ySource`;
an entry of `y` whose multiple by `alpha` is zero is passed over. -/
def addOuterBlock (a : PagedMatrix α) (row col m n : Nat) (alpha : α)
    (xSource : PagedMatrix α) (x : ColumnStart) (ySource : PagedMatrix α) (y : ColumnStart) :
    Checked (PagedMatrix α) :=
  ascend 0 n a fun j a => do
    let factor := alpha * Scalar.conj (← ySource.get (y.row + j) y.col)
    if factor == 0 then
      return a
    else
      ascend 0 m a fun i a => do
        let old ← a.get (row + i) (col + j)
        a.set (row + i) (col + j) (Scalar.addMul old (← xSource.get (x.row + i) x.col) factor)

end PagedMatrix

end DenseLinear
