import DenseLinear.PagedMatrix.Construct

/-!
# Editing matrices

Whole rows and columns are overwritten and exchanged, and rectangular blocks of cells are taken out
and put back. None of these operations touches the kind of the matrix.
-/

namespace DenseLinear

namespace PagedMatrix

variable {α : Type}

/-- The matrix with all entries equal to `x`. -/
def fill (a : PagedMatrix α) (x : α) : PagedMatrix α :=
  { a with data := .replicate a.data.size x }

/-- The matrix with `entries` in stacked row `r`. -/
def setRow (a : PagedMatrix α) (r : Nat) (entries : Array α) : Checked (PagedMatrix α) := do
  a.checkRow r
  if entries.size = a.cols then
    ascend 0 a.cols a fun j a => do
      a.set r j (← readAt entries j)
  else
    throw .extent

/-- The matrix with the stacked rows `r` and `s` exchanged in the columns `[start, stop)`, as far
as there are such columns. -/
def swapRowsWithin (a : PagedMatrix α) (r s start stop : Nat) : Checked (PagedMatrix α) :=
  if r = s then
    pure a
  else
    ascend start (min stop a.cols) a fun j a => a.swapCells r j s j

/-- The matrix with the stacked rows `r` and `s` exchanged. -/
def swapRows (a : PagedMatrix α) (r s : Nat) : Checked (PagedMatrix α) :=
  a.swapRowsWithin r s 0 a.cols

/-- The matrix with the columns `c` and `d` exchanged in every stacked row. -/
def swapCols (a : PagedMatrix α) (c d : Nat) : Checked (PagedMatrix α) := do
  if c = d then
    return a
  else
    ascend 0 (← a.height) a fun r a => a.swapCells r c r d

/-- The matrix of the stacked rows `[r0, r1)` and the columns `[c0, c1)`. -/
def block {ρ : Type} [Scalar α ρ] (a : PagedMatrix α) (r0 r1 c0 c1 : Nat) :
    Checked (PagedMatrix α) := do
  let height ← Size.sub r1 r0
  let width ← Size.sub c1 c0
  let out ← zeros height width
  let out ← ascend r0 r1 out fun i out => do
    a.checkRowWindow i c0 c1
    ascend 0 width out fun j out => do
      out.set (i - r0) j (← a.get i (c0 + j))
  return { out with kind := a.kind }

/-- The matrix with `part` put at stacked row `r0` and column `c0`. -/
def setBlock (a : PagedMatrix α) (r0 c0 : Nat) (part : PagedMatrix α) :
    Checked (PagedMatrix α) := do
  ascend 0 (← part.height) a fun i a => do
    let r ← Size.add r0 i
    a.checkRowWindow r c0 (← Size.add c0 part.cols)
    part.checkRow i
    ascend 0 part.cols a fun j a => do
      a.set r (c0 + j) (← part.get i j)

end PagedMatrix

end DenseLinear
