import DenseLinear.Blocking
import DenseLinear.PagedMatrix.Edit

/-!
# Panel elimination

Gaussian elimination with partial pivoting on a panel: the columns `[k, k + width)` of the first
page, from row `k` down. In each column the entry of the largest absolute value is brought to the
diagonal, by an interchange of whole rows, and the entries below it become multipliers. A column
whose largest entry is zero is left without multipliers, and the elimination goes on.
-/

namespace DenseLinear

namespace Lu

/-- What a sweep over panels has met so far. -/
structure SweepStatus where
  /-- The number of interchanges of two different rows. -/
  swaps : Nat := 0
  /-- The first column without a pivot, counted from zero. -/
  firstNull : Option Nat := none
deriving DecidableEq, Repr

namespace SweepStatus

/-- The status after a row interchange. -/
def countSwap (status : SweepStatus) : Checked SweepStatus := do
  return { status with swaps := ← Size.add status.swaps 1 }

/-- The status after column `i` was found without a pivot. -/
def noteNull (status : SweepStatus) (i : Nat) : SweepStatus :=
  { status with firstNull := status.firstNull.or (some i) }

end SweepStatus

/-- A matrix under elimination. -/
structure Sweep (α : Type) where
  /-- The matrix: finished rows and multipliers, and what is still to be eliminated. -/
  matrix : PagedMatrix α
  /-- The row that was interchanged with each row. -/
  pivots : Array Nat
  /-- What the sweep has met so far. -/
  status : SweepStatus

variable {α ρ : Type} [RealArith ρ] [Scalar α ρ]

/-- The first row at or after `i` with the largest absolute value in column `i`. -/
def pivotRow (a : PagedMatrix α) (i : Nat) : Checked Nat := do
  let diagonal ← a.get i i
  let found ← ascend (i + 1) a.rows (i, Scalar.modulus diagonal) fun r (p, best) => do
    let size := Scalar.modulus (← a.get r i)
    return if RealArith.lt best size then (r, size) else (p, best)
  return found.1

omit [RealArith ρ] in
/-- Turns the entry of row `r` in column `i` into a multiplier of row `i` and takes that multiple
off the row, up to column `stop`. A multiplier of zero leaves the row alone. -/
def eliminateRow (a : PagedMatrix α) (i stop : Nat) (pivot : α) (r : Nat) :
    Checked (PagedMatrix α) := do
  let factor := Scalar.quotient (← a.get r i) pivot
  let a ← a.set r i factor
  if factor == 0 then
    return a
  else
    ascend (i + 1) stop a fun j a => do
      let upper ← a.get i j
      let old ← a.get r j
      a.set r j (old - factor * upper)

omit [RealArith ρ] [Scalar α ρ] in
/-- Brings row `p` to row `i` and records the interchange. -/
def bringPivot (sweep : Sweep α) (i p : Nat) : Checked (Sweep α) :=
  match sweep with
  | ⟨a, pivots, status⟩ => do
    let pivots ← writeAt pivots i p
    if p = i then
      return ⟨a, pivots, status⟩
    else
      return ⟨← a.swapRows i p, pivots, ← status.countSwap⟩

/-- Eliminates column `i` of a panel that ends at column `stop`. -/
def eliminateColumn (stop i : Nat) (sweep : Sweep α) : Checked (Sweep α) := do
  let p ← pivotRow sweep.matrix i
  let ⟨a, pivots, status⟩ ← bringPivot sweep i p
  let pivot ← a.get i i
  if Scalar.isNull pivot then
    return ⟨a, pivots, status.noteNull i⟩
  else
    let a ← ascend (i + 1) a.rows a fun r a => eliminateRow a i stop pivot r
    return ⟨a, pivots, status⟩

/-- Eliminates the columns `[k, k + width)`, as far as there are such columns. Entry `i` of the
pivots becomes the row that was interchanged with row `i`. -/
def eliminatePanel (k width : Nat) (sweep : Sweep α) : Checked (Sweep α) := do
  let stop := min (← Size.add k width) sweep.matrix.cols
  ascend k (min stop sweep.matrix.rows) sweep fun i sweep => eliminateColumn stop i sweep

/-- The event to report when a sweep goes from one status to another: the first column without a
pivot, if it has just been met. -/
def SweepStatus.event? (before after : SweepStatus) : Option Event :=
  match before.firstNull, after.firstNull with
  | none, some column => some (.panelWithoutPivot column)
  | _, _ => none

/-- Eliminates a panel and reports the first column without a pivot, if it is the first one that
the sweep has met. -/
def factorPanel (k width : Nat) (sweep : Sweep α) : Ambience (Sweep α) := do
  let before := sweep.status
  let sweep ← checked (eliminatePanel k width sweep)
  match before.event? sweep.status with
  | some event => Ambient.report event
  | none => pure ()
  return sweep

end Lu

end DenseLinear
