import DenseLinear.Proofs.Loops
import DenseLinear.Qr.Pivoted

/-!
# Divisions by norms

The factorisation with pivoting divides by the estimated norms and by the norms they are compared
with. Here it is written with that division as a parameter (`pivotedSweepBy`). With the quotient of
the magnitudes it is the factorisation itself (`pivotedSweepBy_div`), and a division that may fail
tells which divisors are met.
-/

namespace DenseLinear

section Updates

variable {ρ : Type} [RealArith ρ]

/-- `ColumnPivoting.downdate` with the quotients by norms taken by `divide`. -/
def ColumnPivoting.downdateBy (divide : ρ → ρ → Checked ρ) (pivoting : ColumnPivoting)
    (entry norm reference : ρ) : Checked (Option ρ) :=
  match pivoting with
  | .raw => do
    let ratio ← divide entry norm
    let left := norm * RealArith.sqrt (RealArith.max (1 - ratio * ratio) 0)
    return if RealArith.le left (reference / RealArith.two) then none else some left
  | .compact => do
    let ratio ← divide entry norm
    let share := RealArith.max (1 - ratio * ratio) 0
    let decline ← divide norm reference
    return if RealArith.le (share * decline * decline) RealArith.quarter then
      none
    else
      some (norm * RealArith.sqrt share)

theorem ColumnPivoting.downdateBy_div (pivoting : ColumnPivoting) (entry norm reference : ρ) :
    pivoting.downdateBy (fun x y => .ok (x / y)) entry norm reference =
      .ok (pivoting.downdate entry norm reference) := by
  cases pivoting with
  | raw => rfl
  | compact => rfl

/-- The divisors of an update are the two norms. -/
theorem ColumnPivoting.downdateBy_eq_ok {divide : ρ → ρ → Checked ρ} {norm reference : ρ}
    (hnorm : ∀ x, divide x norm = .ok (x / norm))
    (hreference : ∀ x, divide x reference = .ok (x / reference)) (pivoting : ColumnPivoting)
    (entry : ρ) : pivoting.downdateBy divide entry norm reference =
      .ok (pivoting.downdate entry norm reference) := by
  cases pivoting with
  | raw =>
    rw [downdateBy, hnorm, ok_bind]
    rfl
  | compact =>
    rw [downdateBy, hnorm, ok_bind, hreference, ok_bind]
    rfl

end Updates

namespace Qr

variable {α ρ : Type} [RealArith ρ] [Scalar α ρ]

/-- `downdateNorms` with the quotients by norms taken by `divide`. -/
def downdateNormsBy (divide : ρ → ρ → Checked ρ) (pivoting : ColumnPivoting) (a : PagedMatrix α)
    (k : Nat) (table : NormTable ρ) : Checked (NormTable ρ) :=
  ascend (k + 1) a.cols table fun j table => do
    let norm ← readAt table.norms j
    if norm == 0 then
      return table
    else
      let reference ← readAt table.references j
      let entry := Scalar.modulus (← a.get k j)
      match ← pivoting.downdateBy divide entry norm reference with
      | some left => return { table with norms := ← writeAt table.norms j left }
      | none =>
        let computed ← restNorm a j (k + 1)
        return {
          norms := ← writeAt table.norms j computed
          references := ← writeAt table.references j computed
          recomputed := table.recomputed.push (j, k) }

/-- `pivotedSweep` with the quotients by norms taken by `divide`. -/
def pivotedSweepBy (divide : ρ → ρ → Checked ρ) (pivoting : ColumnPivoting) (a : PagedMatrix α) :
    Checked (PackedPivotedQr α × Array (Nat × Nat)) := do
  allocate sizeBytes a.cols
  let table ← allNorms a
  let start := (a, #[], #[], Array.range a.cols, table)
  let f ← ascend 0 (min a.rows a.cols) start fun k (a, taus, phis, order, table) => do
    let (a, order, table) ← bringForward a order table k
    let (a, h) ← reduceAt pivoting.packing a k
    let table ← downdateNormsBy divide pivoting a k table
    return (a, taus.push h.tau, phis.push h.phi, order, table)
  let (a, taus, phis, order, table) := f
  return ({ packed := a.refreshKind, taus, phis, order }, table.recomputed)

theorem downdateNormsBy_div (pivoting : ColumnPivoting) (a : PagedMatrix α) (k : Nat)
    (table : NormTable ρ) :
    downdateNormsBy (fun x y => .ok (x / y)) pivoting a k table =
      downdateNorms pivoting a k table := by
  simp only [downdateNormsBy, ColumnPivoting.downdateBy_div, ok_bind]
  rfl

/-- With the quotient of the magnitudes it is the factorisation itself. -/
theorem pivotedSweepBy_div (pivoting : ColumnPivoting) (a : PagedMatrix α) :
    pivotedSweepBy (fun x y => .ok (x / y)) pivoting a = pivotedSweep pivoting a := by
  simp only [pivotedSweepBy, downdateNormsBy_div]
  rfl

end Qr

end DenseLinear
