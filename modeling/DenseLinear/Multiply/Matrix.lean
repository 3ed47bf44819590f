import DenseLinear.Blocking
import DenseLinear.PagedMatrix.Algebra

/-!
# Matrix by matrix

The update `C := alpha * A * B + beta * C`. The product is formed directly, entry by entry, if it
is small, and tile by tile otherwise; the blocking parameters decide (`Blocking`). Operands are
taken by their stacked rows, so the pages of a matrix count as one matrix.

Both ways add the terms of an entry in the same order. They part only where `alpha` is one: then
the tiles are added to `C` term by term, and no sum is formed first.
-/

namespace DenseLinear

namespace PagedMatrix

variable {α ρ : Type} [Scalar α ρ]

/-- A half-open interval of rows, columns or inner positions. -/
structure Span where
  /-- The first position. -/
  start : Nat
  /-- The position after the last. -/
  stop : Nat
deriving DecidableEq, Repr

/-- The matrix `r` with the product of the entries of `a` in `rows × inner` by those of `b` in
`inner × cols` added to its entries in `rows × cols`. -/
def addTile (a b r : PagedMatrix α) (rows cols inner : Span) : Checked (PagedMatrix α) :=
  ascend rows.start rows.stop r fun i r =>
    ascend inner.start inner.stop r fun l r => do
      let x ← a.get i l
      b.checkRowWindow l cols.start cols.stop
      r.checkRowWindow i cols.start cols.stop
      ascend cols.start cols.stop r fun j r => do
        let old ← r.get i j
        r.set i j (Scalar.addMul old x (← b.get l j))

/-- The matrix `c` with `alpha` times each entry of the product added to it, entry by entry. -/
def addDirectProduct (alpha : α) (a b : PagedMatrix α) (m k n : Nat) (c : PagedMatrix α) :
    Checked (PagedMatrix α) :=
  ascend 0 m c fun i c =>
    ascend 0 n c fun j c => do
      let sum ← dotRowColumn a b k i j
      let old ← c.get i j
      c.set i j (Scalar.addMul old alpha sum)

/-- The span of `width` positions from `start` on, cut off at `bound`. -/
def spanFrom (start width bound : Nat) : Checked Span := do
  return { start, stop := min (← Size.add start width) bound }

/-- The matrix `r` with the whole product added to it, tile by tile. -/
def addTiles (a b : PagedMatrix α) (m k n width : Nat) (r : PagedMatrix α) :
    Checked (PagedMatrix α) :=
  strides 0 m width r fun ii r => do
    let rows ← spanFrom ii width m
    strides 0 k width r fun kk r => do
      let inner ← spanFrom kk width k
      strides 0 n width r fun jj r => do
        let cols ← spanFrom jj width n
        addTile a b r rows cols inner

/-- The matrix `c` with `alpha` times the product added to it, tile by tile. Unless `alpha` is one,
the tiles are collected in a matrix of their own first. -/
def addTiledProduct (alpha : α) (a b : PagedMatrix α) (m k n width : Nat) (c : PagedMatrix α) :
    Checked (PagedMatrix α) :=
  if alpha == 1 then
    addTiles a b m k n width c
  else do
    let r ← addTiles a b m k n width (← zeros m n)
    return { c with data := c.data.mapIdx fun i entry =>
      match r.data[i]? with
      | some product => Scalar.addMul entry alpha product
      | none => entry }

omit [Scalar α ρ] in
/-- Admits an operand that must have the given stacked rows and columns. -/
def requireExtents (a : PagedMatrix α) (rows cols : Nat) : Fallible Unit := do
  let actual ← a.height
  if actual ≠ rows ∨ a.cols ≠ cols then
    throw (.extentMismatch "gemm" (rows, cols) (actual, a.cols))

omit [Scalar α ρ] in
/-- Admits the operands of an update of `c` by the product of `a` and `b`. -/
def requireOperands (a b c : PagedMatrix α) (m k n : Nat) : Fallible Unit := do
  a.requireExtents m k
  b.requireExtents k n
  c.requireExtents m n

/-- The matrix with all entries rescaled by `beta`. -/
def rescale (beta : α) (c : PagedMatrix α) : PagedMatrix α :=
  { c with data := c.data.map (Scalar.rescale beta) }

/-- The number of terms of a product of `m × k` by `k × n` entries, cut off at the largest size. -/
def productVolume (m k n : Nat) : Nat :=
  Size.saturatingMul (Size.saturatingMul m k) n

/-- The matrix `c` with `alpha` times the product added to it, in the way that the blocking
parameters decide on. The way is reported. -/
def addProduct (alpha : α) (a b : PagedMatrix α) (m k n : Nat) (c : PagedMatrix α)
    (blocking : Blocking) : Ambience (PagedMatrix α) := do
  let volume := productVolume m k n
  if volume ≤ blocking.directVolume then
    Ambient.report (.directProduct m k n volume blocking.directVolume)
    addDirectProduct alpha a b m k n c
  else
    Ambient.report (.tiledProduct m k n volume blocking.directVolume blocking.edge)
    addTiledProduct alpha a b m k n blocking.edge c

/-- The matrix `alpha * a * b + beta * c`, for operands of `m × k`, `k × n` and `m × n` entries,
under the caller's choice of blocking parameters. If it is refused, `c` is as it was. If `alpha` is
zero or some extent is, neither `a` nor `b` is looked at. -/
def multiplyAdd [RealArith ρ] (alpha : α) (a : PagedMatrix α) (m k : Nat) (b : PagedMatrix α)
    (n : Nat) (beta : α) (c : PagedMatrix α) (choice : BlockingChoice) :
    ExceptT (Interrupted (PagedMatrix α)) Ambience (PagedMatrix α) := do
  let blocking ← onBehalfOf c do
    unobserved (requireOperands a b c m k n)
    choice.settle
  let c := c.rescale beta
  if alpha == 0 || m = 0 || n = 0 || k = 0 then
    return c.refreshKind
  else
    let c ← unrefused (addProduct alpha a b m k n c blocking)
    return c.refreshKind

end PagedMatrix

end DenseLinear
