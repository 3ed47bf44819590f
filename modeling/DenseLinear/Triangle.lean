import DenseLinear.PagedMatrix.Basic

/-!
# Triangles

Clearing one triangle of every page, and solving a triangular system on a panel: the system matrix
is the square block at `(k, k)`, and the right-hand sides are the columns to the right of it, which
the solution replaces.
-/

namespace DenseLinear

namespace PagedMatrix

variable {α ρ : Type} [Scalar α ρ]

/-- The matrix with the columns `[start i, stop i)` of row `i` of every page cleared, where the end
points are given for each row `i` of a page. -/
def clearRows (a : PagedMatrix α) (start stop : Nat → Nat) : Checked (PagedMatrix α) := do
  let layout ← a.layout
  ascend 0 layout.count a fun page a =>
    ascend 0 layout.rows a fun i a => do
      let r ← layout.rowOf page i
      a.checkRow r
      ascend (start i) (stop i) a fun j a => a.set r j 0

section Shaping

variable [RealArith ρ]

/-- The matrix with all entries below the diagonal of each page cleared. -/
def keepUpper (a : PagedMatrix α) : Checked (PagedMatrix α) := do
  let a ← a.clearRows (fun _ => 0) (fun i => min i a.cols)
  return a.refreshKind

/-- The matrix with all entries above the diagonal of each page cleared. -/
def keepLower (a : PagedMatrix α) : Checked (PagedMatrix α) := do
  let a ← a.clearRows (fun i => min (i + 1) a.cols) (fun _ => a.cols)
  return a.refreshKind

end Shaping

/-- The value `x` less the products of the entries of row `i` and of column `j` at the inner
positions `[start, stop)`, taken off one after the other. -/
def subtractProducts (a : PagedMatrix α) (i j start stop : Nat) (x : α) : Checked α :=
  ascend start stop x fun l x => do
    let left ← a.get i l
    let right ← a.get l j
    return x - left * right

/-- Solves `U * X = B` by back substitution, where `U` is the upper triangle of the `width × width`
block at `(k, k)` and `B` are the columns to the right of it. A zero on the diagonal is divided by
like any other entry. -/
def solveUpper (a : PagedMatrix α) (k width : Nat) : Checked (PagedMatrix α) := do
  let stop ← Size.add k width
  ascend stop a.cols a fun j a =>
    descend k stop a fun i a => do
      let x ← a.subtractProducts i j (i + 1) stop (← a.get i j)
      a.set i j (Scalar.quotient x (← a.get i i))

/-- Solves `L * X = B` by forward substitution, where `L` is the lower triangle of the
`width × width` block at `(k, k)` with ones on the diagonal, whatever is stored there, and `B` are
the columns to the right of it. -/
def solveUnitLower (a : PagedMatrix α) (k width : Nat) : Checked (PagedMatrix α) := do
  let stop ← Size.add k width
  ascend stop a.cols a fun j a =>
    ascend k stop a fun i a => do
      let x ← a.subtractProducts i j k i (← a.get i j)
      a.set i j x

end PagedMatrix

end DenseLinear
