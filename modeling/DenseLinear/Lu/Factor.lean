import DenseLinear.Lu.Panel
import DenseLinear.Multiply.Matrix
import DenseLinear.Triangle

/-!
# LU factorisation

Blocked elimination of the first page. A panel is eliminated, the rows of the upper factor to its
right are found by forward substitution, and the trailing block is updated by the product of the
two. The two forms differ in that update: `factorByProduct` hands copies of the blocks to the
matrix product, `factorByTiles` updates the trailing block where it is.

A zero pivot does not stop a factorisation. Both forms tell the first column that has one, but find
it in different ways: one looks at the finished diagonal, the other notes it on the way.
-/

namespace DenseLinear

namespace Lu

/-- The interchanges and the outcome of a factorisation. -/
structure Record where
  /-- The row, counted from zero, that was interchanged with each row. -/
  pivots : Array Nat
  /-- The number of interchanges of two different rows. -/
  swaps : Nat
  /-- The first column with a zero pivot, counted from zero. -/
  firstNull : Option Nat
deriving DecidableEq, Repr

/-- Whether a zero pivot was met. -/
def Record.isSingular (record : Record) : Bool := record.firstNull.isSome

/-- The ways to update the trailing block. -/
inductive TrailingUpdate where
  /-- By a matrix product of copies of its factors. -/
  | product
  /-- In place, tile by tile. -/
  | tiles
deriving DecidableEq, Repr

instance : Inhabited TrailingUpdate := ⟨.tiles⟩

variable {α ρ : Type} [RealArith ρ] [Scalar α ρ]

/-- The first column whose diagonal entry is zero. -/
def firstNullDiagonal (a : PagedMatrix α) : Checked (Option Nat) :=
  ascend 0 (min a.rows a.cols) none fun i found => do
    if found.isSome then
      return found
    else
      return if Scalar.isNull (← a.get i i) then some i else none

/-- The matrix with the trailing block after the panel `[k, next)` updated by a matrix product of
copies of its factors. -/
def updateByProduct (a : PagedMatrix α) (k next : Nat) (choice : BlockingChoice) :
    ExceptT (Interrupted (PagedMatrix α)) Ambience (PagedMatrix α) := do
  let m := a.rows
  let n := a.cols
  let lower ← checked (a.block next m k next)
  let upper ← checked (a.block k next next n)
  let trailing ← checked (a.block next m next n)
  let trailing ← onPartOf a
    (PagedMatrix.multiplyAdd (-1) lower (m - next) (next - k) upper (n - next) 1 trailing choice)
  checked (a.setBlock next next trailing)

/-- One step of `factorByProduct`: the panel of `width` columns from column `k` on. Every panel is
swept on its own, and `swaps` counts the interchanges of all of them. -/
def stepByProduct (choice : BlockingChoice) (width k : Nat) (a : PagedMatrix α)
    (pivots : Array Nat) (swaps : Nat) :
    ExceptT (Interrupted (PagedMatrix α)) Ambience (PagedMatrix α × Array Nat × Nat) := do
  let ⟨a, pivots, status⟩ ← unrefused (factorPanel k width ⟨a, pivots, {}⟩)
  let swaps ← Size.add swaps status.swaps
  let next := k + width
  if next < a.cols then
    let a ← checked (a.solveUnitLower k width)
    if next < a.rows then
      let a ← updateByProduct a k next choice
      return (a, pivots, swaps)
    else
      return (a, pivots, swaps)
  else
    return (a, pivots, swaps)

/-- Factors a matrix in place, with the trailing blocks updated by matrix products under the
caller's choice of blocking parameters. -/
def factorByProduct (choice : BlockingChoice) (a : PagedMatrix α) :
    ExceptT (Interrupted (PagedMatrix α)) Ambience (PagedMatrix α × Record) := do
  let blocking ← onBehalfOf a choice.settle
  let steps := min a.rows a.cols
  allocate sizeBytes steps
  let (a, pivots, swaps) ← strides 0 steps blocking.edge (a, Array.replicate steps 0, 0)
    fun k (a, pivots, swaps) =>
      stepByProduct choice (min blocking.edge (steps - k)) k a pivots swaps
  let a := a.refreshKind
  let firstNull ← checked (firstNullDiagonal a)
  match firstNull with
  | some column => Ambient.report (.factorsWithoutPivot column)
  | none => pure ()
  return (a, { pivots, swaps, firstNull })

omit [RealArith ρ] in
/-- The matrix with the trailing block after the panel of `width` columns from column `k` on updated
in place, in tiles of the given edge length, and at least one. Each entry takes its whole sum at
once. -/
def updateByTiles (a : PagedMatrix α) (k width edge : Nat) : Checked (PagedMatrix α) := do
  let start ← Size.add k width
  let edge := max edge 1
  strides start a.rows edge a fun ii a => do
    let rows ← PagedMatrix.spanFrom ii edge a.rows
    strides start a.cols edge a fun jj a => do
      let cols ← PagedMatrix.spanFrom jj edge a.cols
      ascend rows.start rows.stop a fun i a =>
        ascend cols.start cols.stop a fun j a => do
          let sum ← ascend k start 0 fun l sum => do
            let left ← a.get i l
            return Scalar.addMul sum left (← a.get l j)
          a.set i j ((← a.get i j) - sum)

/-- One step of `factorInTiles`: the panel of `width` columns from column `k` on. One sweep goes
over all panels. -/
def stepByTiles (edge width k : Nat) (sweep : Sweep α) : Ambience (Sweep α) := do
  let ⟨a, pivots, status⟩ ← factorPanel k width sweep
  if k + width < a.cols then
    let a ← checked (a.solveUnitLower k width)
    let a ← checked (updateByTiles a k width edge)
    return ⟨a, pivots, status⟩
  else
    return ⟨a, pivots, status⟩

/-- Factors a matrix in place, with the trailing blocks updated in tiles of the given edge length,
and at least one. -/
def factorInTiles (edge : Nat) (a : PagedMatrix α) : Ambience (PagedMatrix α × Record) := do
  let steps := min a.rows a.cols
  let edge := max edge 1
  allocate sizeBytes steps
  let ⟨a, pivots, status⟩ ← strides 0 steps edge ⟨a, Array.replicate steps 0, {}⟩
    fun k sweep => stepByTiles edge (min edge (steps - k)) k sweep
  return (a.refreshKind, { pivots, swaps := status.swaps, firstNull := status.firstNull })

/-- Factors a matrix in place, with the trailing blocks updated in tiles of the default edge
length. -/
def factorByTiles (a : PagedMatrix α) : Ambience (PagedMatrix α × Record) := do
  factorInTiles (← Ambient.edge) a

/-- Factors a matrix in place, with the trailing blocks updated tile by tile under the caller's
choice of blocking parameters. -/
def factorByTilesWith (choice : BlockingChoice) (a : PagedMatrix α) :
    ExceptT (Interrupted (PagedMatrix α)) Ambience (PagedMatrix α × Record) := do
  let blocking ← onBehalfOf a choice.settle
  unrefused (factorInTiles blocking.edge a)

/-- Factors a matrix in place with the chosen update and the default blocking parameters. -/
def factor (update : TrailingUpdate) (a : PagedMatrix α) :
    ExceptT (Interrupted (PagedMatrix α)) Ambience (PagedMatrix α × Record) :=
  match update with
  | .product => factorByProduct {} a
  | .tiles => unrefused (factorByTiles a)

end Lu

end DenseLinear
