import DenseLinear.PagedMatrix.Basic

/-!
# Linear addressing

A linear index counts the cells of a page column by column, and page by page. The buffer counts
them row by row, so the two orders agree on vectors only.
-/

namespace DenseLinear

namespace Shape

/-- The stacked row and the column of a linear index. Where a page has no cells, every index lies
in the first page. -/
def cellOfLinear (s : Shape) (index : Nat) : Checked (Nat × Nat) := do
  let rows := max s.rows 1
  let pageSize ← Size.mul rows s.cols
  let page := if pageSize = 0 then 0 else index / pageSize
  let within := if pageSize = 0 then index else index % pageSize
  let row ← Size.add (← Size.mul page rows) (within % rows)
  return (row, within / rows)

/-- The linear index of a stacked row and a column. -/
def linearOfCell (s : Shape) (row col : Nat) : Checked Nat := do
  let rows := max s.rows 1
  let before ← Size.mul (← Size.mul (row / rows) rows) s.cols
  let above ← Size.mul col rows
  Size.add (← Size.add before above) (row % rows)

end Shape

namespace PagedMatrix

variable {α : Type}

/-- The entry at a linear index. -/
def getLinear (a : PagedMatrix α) (index : Nat) : Checked α := do
  let cell ← a.shape.cellOfLinear index
  a.get cell.1 cell.2

end PagedMatrix

end DenseLinear
