import DenseLinear.Segment

/-!
# Reflections

A reflection is the map `I - tau * v * conj v` with a leading entry of one in `v`. The reflection of
a vector `x` takes it to `alpha` followed by zeros:

* `phi` is the phase `x 0 / |x 0|` of the leading entry, and one if that entry is zero;
* `alpha` is `-(phi * |x|)`, so that no digits cancel in `x 0 - alpha`;
* `tau` is `(alpha - x 0) / alpha`;
* `v i` is `x i / (x 0 - alpha)` for the other entries.

If the other entries are zero already, or there are none, the reflection is the identity: `tau` is
zero, and every application leaves its target alone.
-/

namespace DenseLinear

/-- The side from which a reflection is applied. -/
inductive Side where
  /-- From the left: columns are reflected. -/
  | left
  /-- From the right: rows are reflected. -/
  | right
deriving DecidableEq, Repr

/-- A reflection, and what it makes of the leading entry of the vector it was built for. -/
structure Reflection (α : Type) where
  /-- The factor of the rank-one part; zero for the identity. -/
  tau : α
  /-- The direction, with a leading one. -/
  v : Array α
  /-- The leading entry after the reflection. -/
  alpha : α
  /-- The phase of the leading entry before the reflection. -/
  phi : α

namespace Reflection

variable {α ρ : Type} [Scalar α ρ]

/-- Whether applying the reflection changes nothing. -/
def isTrivial (h : Reflection α) : Bool := h.tau == 0

/-- The identity on vectors of the given length with the leading entry `x0`. -/
def trivial (length : Nat) (x0 : α) : Checked (Reflection α) := do
  let size := max length 1
  allocate (Scalar.bytes α) size
  return { tau := 0, v := (Array.replicate size 0).setIfInBounds 0 1, alpha := x0, phi := 1 }

/-- The reflection of the vector with the leading entry `x0` and the other entries `tail`, whose
squared absolute values sum up to `sigma`. -/
def ofVector (x0 sigma : α) (tail : Array α) : Checked (Reflection α) :=
  if tail.size = 0 || sigma == 0 then
    trivial (tail.size + 1) x0
  else
    let size := Scalar.absolute x0
    let norm := Scalar.sqrt (size * size + sigma)
    let phi := if x0 == 0 then 1 else Scalar.quotient x0 size
    let alpha := -(phi * norm)
    let divisor := x0 - alpha
    pure {
      tau := Scalar.quotient (alpha - x0) alpha
      v := #[1] ++ tail.map fun x => Scalar.quotient x divisor
      alpha
      phi }

/-- The reflection of the rows `[k, stop)` of column `k`. -/
def ofColumn (a : PagedMatrix α) (stop k : Nat) : Checked (Reflection α) := do
  let sigma ← a.columnTailNormSq k k stop
  let x0 ← a.get k k
  let tail ← ascend (k + 1) stop #[] fun i tail => do
    return tail.push (← a.get i k)
  ofVector x0 sigma tail

/-- The reflection of the columns `[k, stop)` of stacked row `k`. It is built for the conjugate row,
so that the row is reflected from the right. -/
def ofRow (a : PagedMatrix α) (stop k : Nat) : Checked (Reflection α) := do
  let sigma ← a.rowTailNormSq k k stop
  a.checkRow k
  checkWindow k (k + 1) a.cols
  checkWindow (k + 1) stop a.cols
  let x0 ← a.get k k
  let tail ← ascend (k + 1) stop #[] fun j tail => do
    return tail.push (Scalar.conj (← a.get k j))
  let h ← ofVector (Scalar.conj x0) sigma tail
  return { h with alpha := Scalar.conj h.alpha }

/-- The reflection of a column (`left`) or a row (`right`). -/
def ofSide (side : Side) (a : PagedMatrix α) (stop k : Nat) : Checked (Reflection α) :=
  match side with
  | .left => ofColumn a stop k
  | .right => ofRow a stop k

end Reflection

end DenseLinear
