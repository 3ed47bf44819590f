import DenseLinear.Blocking
import DenseLinear.PagedMatrix.Edit
import DenseLinear.Qr.Basic

/-!
# QR factorisation with column pivoting

Before each reduction the column with the largest remaining norm is brought forward. The norms are
not computed again for every step: a reduction takes one known entry off each column, so the norm
of the rest follows from the old norm (`ColumnPivoting.downdate`). When too little of a norm is
left, the estimate has lost its digits, and the norm is computed afresh.

The two forms of the factorisation differ in how they judge and update an estimate, and in how they
pack the reflections.
-/

namespace DenseLinear

/-- A QR factorisation of a matrix with its columns rearranged. -/
structure PackedPivotedQr (α : Type) extends PackedQr α where
  /-- The column of the matrix that has come to each position. -/
  order : Array Nat

namespace ColumnPivoting

/-- The packing that goes with a form of the factorisation. -/
def packing : ColumnPivoting → Packing
  | .raw => .raw
  | .compact => .compact

/-- The norm that is left of a column with the estimate `norm` when an entry of the absolute value
`entry` is taken off it; nothing if at most half of `reference`, the last norm that was computed,
is left. -/
def downdate {ρ : Type} [RealArith ρ] (pivoting : ColumnPivoting) (entry norm reference : ρ) :
    Option ρ :=
  match pivoting with
  | .raw =>
    let ratio := entry / norm
    let left := norm * RealArith.sqrt (RealArith.max (1 - ratio * ratio) 0)
    if RealArith.le left (reference / RealArith.two) then none else some left
  | .compact =>
    let ratio := entry / norm
    let share := RealArith.max (1 - ratio * ratio) 0
    let decline := norm / reference
    if RealArith.le (share * decline * decline) RealArith.quarter then
      none
    else
      some (norm * RealArith.sqrt share)

end ColumnPivoting

namespace Qr

/-- The column norms that guide the choice of the next column. -/
structure NormTable (ρ : Type) where
  /-- The estimated norm of the rest of each column. -/
  norms : Array ρ
  /-- The norm of each column when it was last computed. -/
  references : Array ρ
  /-- The columns and steps at which a norm was computed afresh. -/
  recomputed : Array (Nat × Nat) := #[]

variable {α ρ : Type} [RealArith ρ] [Scalar α ρ]

/-- The first position of the largest norm at or after `k`; a norm that is not a number is passed
over unless it stands at `k`. -/
def largestFrom (norms : Array ρ) (k : Nat) : Checked Nat :=
  ascend (k + 1) norms.size k fun j best => do
    let challenger ← readAt norms j
    let leader ← readAt norms best
    return if RealArith.lt leader challenger then j else best

/-- The norm of the rows from `start` on of column `j`. -/
def restNorm (a : PagedMatrix α) (j start : Nat) : Checked ρ := do
  return Scalar.rePart (← a.columnNorm j start a.rows)

/-- The norms of all columns. -/
def allNorms (a : PagedMatrix α) : Checked (NormTable ρ) := do
  let norms ← ascend 0 a.cols #[] fun j norms => do
    return norms.push (← restNorm a j 0)
  return { norms, references := norms }

/-- Brings the norms of the columns after `k` up to date with the reduction of column `k`. -/
def downdateNorms (pivoting : ColumnPivoting) (a : PagedMatrix α) (k : Nat)
    (table : NormTable ρ) : Checked (NormTable ρ) :=
  ascend (k + 1) a.cols table fun j table => do
    let norm ← readAt table.norms j
    if norm == 0 then
      return table
    else
      let reference ← readAt table.references j
      let entry := Scalar.modulus (← a.get k j)
      match pivoting.downdate entry norm reference with
      | some left => return { table with norms := ← writeAt table.norms j left }
      | none =>
        let computed ← restNorm a j (k + 1)
        return {
          norms := ← writeAt table.norms j computed
          references := ← writeAt table.references j computed
          recomputed := table.recomputed.push (j, k) }

/-- Brings the column with the largest norm to position `k`. -/
def bringForward (a : PagedMatrix α) (order : Array Nat) (table : NormTable ρ) (k : Nat) :
    Checked (PagedMatrix α × Array Nat × NormTable ρ) := do
  let p ← largestFrom table.norms k
  if p = k then
    return (a, order, table)
  else
    let a ← a.swapCols k p
    let order ← swapAt order k p
    let norms ← swapAt table.norms k p
    let references ← swapAt table.references k p
    return (a, order, { norms, references, recomputed := table.recomputed })

/-- The pivoted QR factorisation of the first page, with the columns and steps at which a norm was
computed afresh. -/
def pivotedSweep (pivoting : ColumnPivoting) (a : PagedMatrix α) :
    Checked (PackedPivotedQr α × Array (Nat × Nat)) := do
  allocate sizeBytes a.cols
  let table ← allNorms a
  let start := (a, #[], #[], Array.range a.cols, table)
  let f ← ascend 0 (min a.rows a.cols) start fun k (a, taus, phis, order, table) => do
    let (a, order, table) ← bringForward a order table k
    let (a, h) ← reduceAt pivoting.packing a k
    let table ← downdateNorms pivoting a k table
    return (a, taus.push h.tau, phis.push h.phi, order, table)
  let (a, taus, phis, order, table) := f
  return ({ packed := a.refreshKind, taus, phis, order }, table.recomputed)

/-- The pivoted QR factorisation of the first page. Every norm that is computed afresh is
reported. -/
def factorPivoted (pivoting : ColumnPivoting) (a : PagedMatrix α) :
    Ambience (PackedPivotedQr α) := do
  let (factors, recomputed) ← checked (pivotedSweep pivoting a)
  recomputed.forM fun entry => Ambient.report (.normRecomputed pivoting entry.1 entry.2)
  return factors

end Qr

end DenseLinear
