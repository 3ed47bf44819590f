import DenseLinear.Lu.Factor

/-!
# Solving with LU factors

Linear systems, determinants and inverses of square matrices with a single page, by an LU
factorisation. A zero on the diagonal of the upper factor is divided by like any other entry, so a
singular system has an answer that is not finite.
-/

namespace DenseLinear

namespace Lu

variable {α ρ : Type} [RealArith ρ] [Scalar α ρ]

omit [RealArith ρ] [Scalar α ρ] in
/-- Admits a square matrix with a single page. -/
def requireSquare (routine : String) (a : PagedMatrix α) : Fallible Unit := do
  let n := a.rows
  if a.cols ≠ n then
    throw (.extentMismatch routine (n, n) (← a.height, a.cols))
  if (← a.pages) ≠ 1 then
    throw (.extentMismatch routine (n, n) (← a.height, a.cols))

omit [RealArith ρ] in
/-- Row `i` of `x` less `factor` times row `l`, in the first `width` columns. A factor of zero
leaves the row alone. -/
def subtractRow (x : PagedMatrix α) (i l width : Nat) (factor : α) : Checked (PagedMatrix α) :=
  if factor == 0 then
    pure x
  else
    ascend 0 width x fun j x => do
      let other ← x.get l j
      let old ← x.get i j
      x.set i j (old - factor * other)

omit [RealArith ρ] in
/-- Solves `L * Y = X`, where `L` is the lower triangle of `lu` with ones on the diagonal. -/
def solveLowerRows (lu : PagedMatrix α) (n : Nat) (x : PagedMatrix α) : Checked (PagedMatrix α) :=
  ascend 0 n x fun i x =>
    ascend 0 i x fun l x => do
      subtractRow x i l x.cols (← lu.get i l)

omit [RealArith ρ] in
/-- Solves `U * Y = X`, where `U` is the upper triangle of `lu`. -/
def solveUpperRows (lu : PagedMatrix α) (n : Nat) (x : PagedMatrix α) : Checked (PagedMatrix α) :=
  descend 0 n x fun i x => do
    let x ← ascend (i + 1) n x fun l x => do
      subtractRow x i l x.cols (← lu.get i l)
    let pivot ← lu.get i i
    ascend 0 x.cols x fun j x => do
      x.set i j (Scalar.quotient (← x.get i j) pivot)

omit [RealArith ρ] [Scalar α ρ] in
/-- Makes the interchanges of a factorisation of `n` rows on the rows of `x`. -/
def interchangeAll (pivots : Array Nat) (n : Nat) (x : PagedMatrix α) : Fallible (PagedMatrix α) :=
  ascend 0 pivots.size x fun i x => do
    let p ← checked (readAt pivots i)
    if n ≤ p then
      throw (.indexOutOfRange "getrs" p n)
    checked (x.swapRows i p)

/-- Solves `A * X = B` with the factors of `A`. -/
def solveFactored (lu : PagedMatrix α) (pivots : Array Nat) (b : PagedMatrix α) :
    Fallible (PagedMatrix α) := do
  requireSquare "getrs" lu
  let n := lu.rows
  let height ← b.height
  if height ≠ n then
    throw (.extentMismatch "getrs" (n, b.cols) (height, b.cols))
  if pivots.size ≠ n then
    throw (.lengthMismatch "getrs" n pivots.size)
  let x ← interchangeAll pivots n b
  let x ← checked (solveLowerRows lu n x)
  let x ← checked (solveUpperRows lu n x)
  return x.refreshKind

/-- The three factors of an LU factorisation: `permutation * A = lower * upper`. -/
structure Factors (α : Type) where
  /-- The lower factor, with ones on its diagonal. -/
  lower : PagedMatrix α
  /-- The upper factor. -/
  upper : PagedMatrix α
  /-- The permutation of the rows. -/
  permutation : PagedMatrix α

/-- The order of the rows `0, …, m - 1` after a sequence of interchanges. -/
def rowOrder (m : Nat) (pivots : Array Nat) : Checked (Array Nat) := do
  allocate sizeBytes m
  ascend 0 pivots.size (Array.range m) fun i order => do
    swapAt order i (← readAt pivots i)

/-- Splits packed factors. -/
def unpack (lu : PagedMatrix α) (pivots : Array Nat) : Checked (Factors α) := do
  let m := lu.rows
  let n := lu.cols
  let steps := min m n
  let lower ← PagedMatrix.zeros m steps
  let upper ← PagedMatrix.zeros steps n
  let (lower, upper) ← ascend 0 m (lower, upper) fun i (lower, upper) => do
    let lower ← ascend 0 (min steps i) lower fun j lower => do
      lower.set i j (← lu.get i j)
    if i < steps then
      let lower ← lower.set i i 1
      let upper ← ascend i n upper fun j upper => do
        upper.set i j (← lu.get i j)
      return (lower, upper)
    else
      return (lower, upper)
  let order ← rowOrder m pivots
  let permutation ← ascend 0 m (← PagedMatrix.zeros m m) fun i p => do
    p.set i (← readAt order i) 1
  return { lower := lower.refreshKind, upper := upper.refreshKind, permutation }

/-- The determinant: the product of the diagonal of the upper factor, negated for an odd number of
interchanges. -/
def determinant (a : PagedMatrix α) : ExceptT Refusal Ambience α := do
  unobserved (requireSquare "det" a)
  let (lu, record) ← unrefused (factorByTiles a)
  let product ← checked (ascend 0 a.rows 1 fun i product => do
    return product * (← lu.get i i))
  return if record.swaps % 2 = 1 then -product else product

/-- Solves `A * X = B` for a square matrix `A`. -/
def solve (a b : PagedMatrix α) : ExceptT Refusal Ambience (PagedMatrix α) := do
  unobserved (requireSquare "gesv" a)
  let (lu, record) ← unrefused (factorByTiles a)
  unobserved (solveFactored lu record.pivots b)

/-- The inverse of a square matrix. -/
def inverse (a : PagedMatrix α) : ExceptT Refusal Ambience (PagedMatrix α) := do
  unobserved (requireSquare "inv" a)
  let one ← checked (PagedMatrix.identity a.rows)
  solve a one

end Lu

end DenseLinear
