import DenseLinear.PagedMatrix.Construct
import DenseLinear.Reflection.Apply
import DenseLinear.Triangle

/-!
# QR factorisation

The columns of the first page are reduced one after the other, each by the reflection of its part
from the diagonal down. The triangular factor is left on and above the diagonal. Below it the
reflections are packed, either as they are or scaled by their factor `tau`; `unitaryFactor` unpacks
the scaled form.
-/

namespace DenseLinear

/-- How the reflection of a column is kept below the diagonal. -/
inductive Packing where
  /-- The entries of `v` after the first. -/
  | raw
  /-- The entries of `tau * v` after the first. -/
  | compact
deriving DecidableEq, Repr

/-- A QR factorisation in packed form. -/
structure PackedQr (α : Type) where
  /-- The triangular factor, with the packed reflections below its diagonal. -/
  packed : PagedMatrix α
  /-- The factors of the reflections. -/
  taus : Array α
  /-- The phases of the diagonal entries before their reflections. -/
  phis : Array α

namespace Qr

variable {α ρ : Type} [Scalar α ρ]

/-- The matrix with the entries of `v` after the first, times `scale`, below the diagonal of
column `k`. -/
def packColumn (a : PagedMatrix α) (k : Nat) (scale : α) (v : Array α) :
    Checked (PagedMatrix α) :=
  ascend 1 v.size a fun i a => do
    a.set (k + i) k (scale * (← readAt v i))

/-- Reduces column `k` by its reflection, packs the reflection and reflects the columns after
`k`. -/
def reduceAt (packing : Packing) (a : PagedMatrix α) (k : Nat) :
    Checked (PagedMatrix α × Reflection α) := do
  let h ← Reflection.ofColumn a a.rows k
  let scale := match packing with
    | .raw => 1
    | .compact => h.tau
  let a ← a.set k k h.alpha
  let a ← packColumn a k scale h.v
  let a ← a.reflectLeft h.v h.tau k (k + 1)
  return (a, h)

variable [RealArith ρ]

/-- The QR factorisation of the first page. -/
def factor (a : PagedMatrix α) : Checked (PackedQr α) := do
  let f ← ascend 0 (min a.rows a.cols) (a, #[], #[]) fun k (a, taus, phis) => do
    let (a, h) ← reduceAt .compact a k
    return (a, taus.push h.tau, phis.push h.phi)
  return { packed := f.1.refreshKind, taus := f.2.1, phis := f.2.2 }

/-- The triangular factor of packed factors. -/
def upperFactor (packed : PagedMatrix α) : Checked (PagedMatrix α) :=
  packed.keepUpper

omit [RealArith ρ] in
/-- The direction of a reflection that is packed, scaled by `tau`, below the diagonal of column
`k`. -/
def unpackColumn (packed : PagedMatrix α) (k : Nat) (tau : α) : Checked (Array α) :=
  ascend (k + 1) packed.rows #[1] fun i v => do
    return v.push (Scalar.quotient (← packed.get i k) tau)

/-- The square unitary factor: the product of the packed reflections, the first one leftmost. They
are applied to the identity from the last one back, so each one meets zeros before its own
column and may leave them out. -/
def unitaryFactor (packed : PagedMatrix α) (taus : Array α) : Checked (PagedMatrix α) := do
  let m := packed.rows
  let q ← PagedMatrix.identity m
  let q ← descend 0 (min (min taus.size m) packed.cols) q fun k q => do
    let tau ← readAt taus k
    if tau == 0 then
      return q
    else
      let v ← unpackColumn packed k tau
      q.reflectLeft v tau k k
  return q.refreshKind

end Qr

end DenseLinear
