import DenseLinear.Reflection.Apply

/-!
# Reflecting every page

A reflection is built from the first page and applied to every page, with rows counted within a
page. The extent of the vector is cut off at the end of a page.
-/

namespace DenseLinear

namespace PagedMatrix

variable {α ρ : Type} [Scalar α ρ]

/-- The matrix with every page reflected from the left in the rows from `row` on and the columns
from `col` on. -/
def reflectPagesLeft (a : PagedMatrix α) (v : Array α) (tau : α) (row col : Nat) :
    Checked (PagedMatrix α) := do
  let layout ← a.layout
  ascend 0 layout.count a fun page a => do
    a.reflectLeft v tau (← layout.rowOf page row) col

/-- The matrix with every page reflected from the right in the rows from `row` on and the columns
from `col` on. -/
def reflectPagesRight (a : PagedMatrix α) (v : Array α) (tau : α) (row col : Nat) :
    Checked (PagedMatrix α) := do
  let layout ← a.layout
  ascend 0 layout.count a fun page a => do
    let rows ← layout.rowsOf page
    a.reflectRows v tau (← Size.add rows.1 row) rows.2 col

/-- The matrix with every page reflected from the given side. -/
def reflectPages (side : Side) (a : PagedMatrix α) (v : Array α) (tau : α) (row col : Nat) :
    Checked (PagedMatrix α) :=
  match side with
  | .left => a.reflectPagesLeft v tau row col
  | .right => a.reflectPagesRight v tau row col

/-- The extent of a vector on the first page, cut off at the end of the page. -/
def cutExtent (side : Side) (layout : PageLayout) (extent : Nat) : Nat :=
  match side with
  | .left => min extent layout.rows
  | .right => min extent layout.cols

/-- Builds the reflection of column `k` (`left`) or row `k` (`right`) of the first page, up to
`extent`, and applies it to every page in the rows and columns from `k` on. -/
def reflectPagesStep (side : Side) (a : PagedMatrix α) (extent k : Nat) :
    Checked (PagedMatrix α × Reflection α) := do
  let layout ← a.layout
  let h ← Reflection.ofSide side a (cutExtent side layout extent) k
  return (← reflectPages side a h.v h.tau k k, h)

end PagedMatrix

end DenseLinear
