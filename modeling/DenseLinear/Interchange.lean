import DenseLinear.PagedMatrix.Edit

/-!
# Interchanges

Sequences of row interchanges, as elimination with pivoting records them, on every page of a
matrix; single interchanges of two rows or two columns.

An interchange sequence is written as a list of pivots with a stride. A sequence is walked forwards
or backwards; walking it backwards undoes it. A refused step leaves the steps before it done, so a
refusal reports the matrix at that point.
-/

namespace DenseLinear

namespace PagedMatrix

variable {α : Type}

/-- The matrix with the rows `r` and `s` of every page exchanged in the columns `[start, stop)`. -/
def swapRowsOnPages (a : PagedMatrix α) (layout : PageLayout) (r s start stop : Nat) :
    Checked (PagedMatrix α) :=
  ascend 0 layout.count a fun page a => do
    a.swapRowsWithin (← layout.rowOf page r) (← layout.rowOf page s) start stop

/-- What is subtracted from a pivot to get a row: a list that holds a zero counts rows from zero,
any other list counts them from one. -/
def pivotBase (pivots : Array Nat) : Nat :=
  if pivots.contains 0 then 0 else 1

/-- A sequence of interchanges within a list of pivots. -/
structure InterchangePlan where
  /-- The row of the first entry, counted from zero. -/
  first : Nat
  /-- The number of interchanges. -/
  count : Nat
  /-- The distance of two consecutive entries in the list of pivots. -/
  step : Nat
  /-- Whether the rows are walked upwards from the last one. -/
  backward : Bool
deriving DecidableEq, Repr

namespace InterchangePlan

/-- The row of the interchange that is made at a time. -/
def rowAt (plan : InterchangePlan) (time : Nat) : Nat :=
  if plan.backward then plan.first + (plan.count - 1 - time) else plan.first + time

/-- The place, in the list of pivots, of the interchange that is made at a time. -/
def placeAt (plan : InterchangePlan) (time : Nat) : Nat :=
  if plan.backward then
    plan.first + (plan.count - 1 - time) * plan.step
  else
    plan.first + time * plan.step

end InterchangePlan

/-- Makes the interchanges of a plan one after the other. -/
def runInterchanges (a : PagedMatrix α) (layout : PageLayout) (plan : InterchangePlan)
    (pivots : Array Nat) (start stop : Nat) :
    ExceptT (Interrupted (PagedMatrix α)) (Except Fault) (PagedMatrix α) :=
  ascend 0 plan.count a fun time a => do
    let row := plan.rowAt time
    let pivot ← checked (readAt pivots (plan.placeAt time))
    let target ← Size.sub pivot (pivotBase pivots)
    if layout.rows ≤ target then
      throw ⟨a, .indexOutOfRange "laswp" pivot layout.rows⟩
    if target = row then
      return a
    else
      checked (a.swapRowsOnPages layout row target start stop)

/-- Makes the interchanges of the rows `firstRow` to `lastRow`, counted from one, with the rows that
`pivots` names, on every page. The pivot of the first row is at place `firstRow - 1`, and the
distance of two pivots is the size of `stride`; a negative stride makes the interchanges in the
opposite order. A column window restricts the interchanges to its columns. -/
def interchangeRows (a : PagedMatrix α) (firstRow lastRow : Nat) (pivots : Array Nat)
    (stride : Int) (window : Option (Nat × Nat)) :
    ExceptT (Interrupted (PagedMatrix α)) (Except Fault) (PagedMatrix α) := do
  let refuse (refusal : Refusal) : ExceptT (Interrupted (PagedMatrix α)) (Except Fault) Unit :=
    throw ⟨a, refusal⟩
  if firstRow = 0 then
    refuse (.badArgument "laswp" "k1 is 1-based and must be at least 1")
  if stride = 0 then
    refuse (.badArgument "laswp" "incx must be non-zero")
  if lastRow < firstRow then
    return a
  else
    let layout ← a.layout
    if layout.rows < lastRow then
      refuse (.indexOutOfRange "laswp" lastRow layout.rows)
    let columns := window.getD (0, layout.cols)
    if columns.2 < columns.1 ∨ layout.cols < columns.2 then
      refuse (.indexOutOfRange "laswp" (max columns.2 columns.1) layout.cols)
    let plan : InterchangePlan :=
      { first := firstRow - 1, count := lastRow - firstRow + 1, step := stride.natAbs,
        backward := stride < 0 }
    let lastPlace ← Size.add plan.first (← Size.mul (plan.count - 1) plan.step)
    if pivots.size ≤ lastPlace then
      refuse (.indexOutOfRange "laswp" lastPlace pivots.size)
    a.runInterchanges layout plan pivots columns.1 columns.2

/-- Exchanges the rows `r` and `s` of every page. -/
def exchangeRows (a : PagedMatrix α) (r s : Nat) :
    ExceptT (Interrupted (PagedMatrix α)) (Except Fault) (PagedMatrix α) := do
  if a.rows ≤ s then
    throw ⟨a, .indexOutOfRange "laswp_rows" s a.rows⟩
  let next ← Size.add r 1
  allocate sizeBytes next
  let layout ← a.layout
  if layout.rows < next then
    throw ⟨a, .indexOutOfRange "laswp" next layout.rows⟩
  if r = s then
    return a
  else
    checked (a.swapRowsOnPages layout r s 0 layout.cols)

/-- Exchanges the columns `c` and `d` in every stacked row. -/
def exchangeCols (a : PagedMatrix α) (c d : Nat) :
    ExceptT (Interrupted (PagedMatrix α)) (Except Fault) (PagedMatrix α) := do
  if a.cols ≤ c then
    throw ⟨a, .indexOutOfRange "laswp_cols" c a.cols⟩
  if a.cols ≤ d then
    throw ⟨a, .indexOutOfRange "laswp_cols" d a.cols⟩
  checked (a.swapCols c d)

end PagedMatrix

end DenseLinear
