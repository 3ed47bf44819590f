import DenseLinear.PagedMatrix.Construct

/-!
# Matrices as algebraic objects

Transposition and the product by its definition, on first pages; the Frobenius norm and the
distance of two matrices, over all entries.
-/

namespace DenseLinear

namespace PagedMatrix

variable {α ρ : Type} [RealArith ρ] [Scalar α ρ]

omit [RealArith ρ] in
/-- The `cols × rows` matrix of the entries of the first page under `f`, rows and columns
exchanged. -/
def transposeWith (f : α → α) (a : PagedMatrix α) : Checked (PagedMatrix α) := do
  let out ← zeros a.cols a.rows
  ascend 0 a.rows out fun i out =>
    ascend 0 a.cols out fun j out => do
      out.set j i (f (← a.get i j))

omit [RealArith ρ] in
/-- The transpose. -/
def transpose (a : PagedMatrix α) : Checked (PagedMatrix α) := do
  let out ← a.transposeWith id
  return { out with kind := a.kind }

/-- The conjugate transpose. -/
def adjoint (a : PagedMatrix α) : Checked (PagedMatrix α) := do
  let out ← a.transposeWith Scalar.conj
  return out.refreshKind

omit [RealArith ρ] in
/-- The sum of the products of the first `k` entries of row `i` of `a` and column `j` of `b`. -/
def dotRowColumn (a b : PagedMatrix α) (k i j : Nat) : Checked α :=
  ascend 0 k 0 fun l sum => do
    let x ← a.get i l
    let y ← b.get l j
    return Scalar.addMul sum x y

/-- The product by its definition. -/
def product (a b : PagedMatrix α) : Checked (PagedMatrix α) := do
  if b.rows ≠ a.cols then
    throw .extent
  let out ← zeros a.rows b.cols
  let out ← ascend 0 a.rows out fun i out =>
    ascend 0 b.cols out fun j out => do
      out.set i j (← dotRowColumn a b a.cols i j)
  return out.refreshKind

/-- The Frobenius norm over all entries. The sum starts from the negative zero, which is neutral
for every magnitude. -/
def frobeniusNorm (a : PagedMatrix α) : ρ :=
  RealArith.sqrt (a.data.foldl (fun sum x => sum + Scalar.normSq x) (-0))

/-- The largest distance of two entries in the same place, as far as both buffers reach. -/
def maxDistance (a b : PagedMatrix α) : ρ :=
  (a.data.zip b.data).foldl
    (fun largest entries => RealArith.max largest (Scalar.modulus (entries.1 - entries.2))) 0

end PagedMatrix

end DenseLinear
