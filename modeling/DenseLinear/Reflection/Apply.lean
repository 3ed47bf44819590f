import DenseLinear.Reflection.Basic

/-!
# Applying reflections

The map `I - tau * v * conj v` applied to a block of a matrix: to its columns from the left, or to
its rows from the right. A column or row whose multiple of `v` is zero is left alone, and so is
the whole matrix if `tau` is zero.

`reflectStep` builds the reflection of a column or row and applies it, writing down what becomes of
that column or row instead of computing it.
-/

namespace DenseLinear

namespace PagedMatrix

variable {α ρ : Type} [Scalar α ρ]

/-- The sum of `conj (v i)` times the entry in row `row + i` of column `j`. -/
def conjDotColumn (a : PagedMatrix α) (v : Array α) (row j : Nat) : Checked α :=
  ascend 0 v.size 0 fun i sum => do
    let x ← readAt v i
    return Scalar.addMul sum (Scalar.conj x) (← a.get (row + i) j)

/-- The sum of the entry in column `col + j` of row `i` times `v j`. -/
def dotRowVector (a : PagedMatrix α) (v : Array α) (i col : Nat) : Checked α :=
  ascend 0 v.size 0 fun j sum => do
    let x ← a.get i (col + j)
    return Scalar.addMul sum x (← readAt v j)

/-- The matrix reflected from the left in the rows from `row` on, as many as `v` has entries, and
in the columns `[start, stop)`, as far as there are such columns. -/
def reflectColumns (a : PagedMatrix α) (v : Array α) (tau : α) (row start stop : Nat) :
    Checked (PagedMatrix α) :=
  if tau == 0 then
    pure a
  else
    ascend start (min stop a.cols) a fun j a => do
      let factor := tau * (← a.conjDotColumn v row j)
      if factor == 0 then
        return a
      else
        ascend 0 v.size a fun i a => do
          let old ← a.get (row + i) j
          a.set (row + i) j (old - (← readAt v i) * factor)

/-- The matrix reflected from the right in the stacked rows `[start, stop)` and in the columns from
`col` on, as many as `v` has entries. -/
def reflectRows (a : PagedMatrix α) (v : Array α) (tau : α) (start stop col : Nat) :
    Checked (PagedMatrix α) :=
  if tau == 0 then
    pure a
  else
    ascend start stop a fun i a => do
      a.checkRowWindow i col (← Size.add col v.size)
      let factor := tau * (← a.dotRowVector v i col)
      if factor == 0 then
        return a
      else
        ascend 0 v.size a fun j a => do
          let old ← a.get i (col + j)
          a.set i (col + j) (old - factor * Scalar.conj (← readAt v j))

/-- The matrix reflected from the left in the rows from `row` on and the columns from `col` on. -/
def reflectLeft (a : PagedMatrix α) (v : Array α) (tau : α) (row col : Nat) :
    Checked (PagedMatrix α) :=
  a.reflectColumns v tau row col a.cols

/-- The matrix reflected from the right in the rows from `row` on, up to the end of the first page,
and the columns from `col` on. -/
def reflectRight (a : PagedMatrix α) (v : Array α) (tau : α) (row col : Nat) :
    Checked (PagedMatrix α) :=
  a.reflectRows v tau row a.rows col

/-- The matrix reflected from the given side. -/
def reflect (side : Side) (a : PagedMatrix α) (v : Array α) (tau : α) (row col : Nat) :
    Checked (PagedMatrix α) :=
  match side with
  | .left => a.reflectLeft v tau row col
  | .right => a.reflectRight v tau row col

/-- Builds the reflection of column `k` (`left`) or row `k` (`right`) of the first page and applies
it: the entry on the diagonal becomes `alpha`, the others of that column or row become zero, and
the rest of the trailing block is reflected. -/
def reflectStep (side : Side) (a : PagedMatrix α) (k : Nat) :
    Checked (PagedMatrix α × Reflection α) :=
  match side with
  | .left => do
    let h ← Reflection.ofColumn a a.rows k
    if h.isTrivial then
      return (a, h)
    else
      let a ← a.set k k h.alpha
      let a ← ascend (k + 1) a.rows a fun i a => a.set i k 0
      return (← a.reflectLeft h.v h.tau k (k + 1), h)
  | .right => do
    let h ← Reflection.ofRow a a.cols k
    if h.isTrivial then
      return (a, h)
    else
      let a ← a.set k k h.alpha
      let a ← ascend (k + 1) a.cols a fun j a => a.set k j 0
      return (← a.reflectRight h.v h.tau (k + 1) k, h)

end PagedMatrix

end DenseLinear
