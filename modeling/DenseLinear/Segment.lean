import DenseLinear.PagedMatrix.Basic

/-!
# Segments and vectors

Operations on a segment of a column or row within a matrix, and on plain vectors. A segment is
given by its row or column and the end points of an interval; `columnTailNormSq` and
`rowTailNormSq` leave out the first point, which is the pivot of a reflection.
-/

namespace DenseLinear

variable {α ρ : Type} [Scalar α ρ]

namespace PagedMatrix

/-- The matrix with the rows `[start, stop)` of column `col` multiplied by `alpha`. A factor of one
changes nothing, and a factor of zero clears the segment whatever it holds. -/
def scaleColumn (alpha : α) (a : PagedMatrix α) (start stop col : Nat) :
    Checked (PagedMatrix α) :=
  if alpha == 1 then
    pure a
  else if alpha == 0 then
    ascend start stop a fun i a => a.set i col 0
  else
    ascend start stop a fun i a => do
      a.set i col (alpha * (← a.get i col))

/-- The accumulator with the product of `x` by its own conjugate added to it. -/
def addNormSq (acc x : α) : α :=
  Scalar.addMul acc (Scalar.conj x) x

/-- The sum of `conj x * x` over the rows after `start` and before `stop` of column `col`. -/
def columnTailNormSq (a : PagedMatrix α) (col start stop : Nat) : Checked α := do
  ascend (← Size.add start 1) stop 0 fun i acc => do
    return addNormSq acc (← a.get i col)

/-- The sum of `conj x * x` over the columns after `start` and before `stop` of stacked row
`row`. -/
def rowTailNormSq (a : PagedMatrix α) (row start stop : Nat) : Checked α := do
  let first := min (← Size.add start 1) stop
  a.checkRowWindow row first stop
  ascend first stop 0 fun j acc => do
    return addNormSq acc (← a.get row j)

variable [RealArith ρ]

/-- The sum of the squared absolute values over the rows `[start, stop)` of column `col`. The sum
starts from the negative zero, which is neutral for every magnitude. -/
def columnNormSq (a : PagedMatrix α) (col start stop : Nat) : Checked α := do
  let sum : ρ ← ascend start stop (-0 : ρ) fun i sum => do
    return sum + Scalar.normSq (← a.get i col)
  return Scalar.ofReal sum

/-- The Euclidean norm of the rows `[start, stop)` of column `col`. -/
def columnNorm (a : PagedMatrix α) (col start stop : Nat) : Checked α := do
  return Scalar.sqrt (← a.columnNormSq col start stop)

end PagedMatrix

/-- The sum of `conj x * y` over the common length of two vectors. -/
def conjDot (x y : Array α) : α :=
  (x.zip y).foldl (fun acc entries => Scalar.addMul acc (Scalar.conj entries.1) entries.2) 0

/-- The vector `y` with `alpha * x` added to it over the common length. A factor of zero changes
nothing, whatever `x` holds. -/
def addScaled (alpha : α) (x y : Array α) : Array α :=
  if alpha == 0 then
    y
  else
    y.mapIdx fun i entry =>
      match x[i]? with
      | some other => Scalar.addMul entry alpha other
      | none => entry

end DenseLinear
