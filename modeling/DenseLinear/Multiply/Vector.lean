import DenseLinear.PagedMatrix.Basic

/-!
# Matrix by vector

The update `y := alpha * A * x + beta * y` on a block of a matrix and windows of two vectors. What
lies outside the window of `y` stays as it is.
-/

namespace DenseLinear

namespace PagedMatrix

variable {α ρ : Type} [Scalar α ρ]

/-- The vector with the entries of the window `[start, stop)` rescaled by `beta`. -/
def rescaleWindow (beta : α) (start stop : Nat) (y : Array α) : Array α :=
  y.mapIdx fun i entry => if start ≤ i ∧ i < stop then Scalar.rescale beta entry else entry

/-- The sum of the products of `n` entries of stacked row `r` of `a`, from column `col` on, and
of `n` entries of `x`, from `start` on. -/
def dotRowWindow (a : PagedMatrix α) (r col n : Nat) (x : Array α) (start : Nat) : Checked α :=
  ascend 0 n 0 fun j sum => do
    let entry ← a.get r (col + j)
    return Scalar.addMul sum entry (← readAt x (start + j))

/-- The vector `y` with its window of `m` entries from `rowY` on replaced by
`alpha * A * x + beta * y`. Here `A` is the `m × n` block of `a` at `(rowA, colA)`, and `x` has `n`
entries from `rowX` on. If `alpha` is zero, neither `a` nor `x` is looked at. -/
def multiplyVector (a : PagedMatrix α) (m n rowA colA : Nat) (x : Array α) (rowX : Nat)
    (y : Array α) (rowY : Nat) (alpha beta : α) : Checked (Array α) := do
  let stopY ← Size.add rowY m
  checkWindow rowY stopY y.size
  let y := rescaleWindow beta rowY stopY y
  if alpha == 0 then
    return y
  else
    checkWindow rowX (← Size.add rowX n) x.size
    ascend 0 m y fun i y => do
      let r ← Size.add rowA i
      a.checkRowWindow r colA (← Size.add colA n)
      let sum ← a.dotRowWindow r colA n x rowX
      let old ← readAt y (rowY + i)
      writeAt y (rowY + i) (Scalar.addMul old alpha sum)

end PagedMatrix

end DenseLinear
