import Mathlib.Algebra.Group.End
import DenseLinear.Lu.Solve
import DenseLinear.Proofs.BlockedElimination

/-!
# Unpacking LU factors

What `unpack` makes of packed factors, for entries without any laws: the lower factor with ones on
its diagonal, the upper factor, and the permutation of the rows. A list of pivots stands for a
product of transpositions (`interchanges`); the pivots that an elimination records are the ones that
it has made (`Stage.getElem?_pivots_run`).
-/

namespace DenseLinear

namespace Lu

open PagedMatrix

/-! ## The order of the rows -/

/-- The permutation that a list of pivots stands for: row `r`, after the interchanges of the rows
`0, …, count - 1` with their pivots, is row `interchanges p count r` of before. -/
def interchanges (p : Nat → Nat) : Nat → Equiv.Perm Nat
  | 0 => 1
  | count + 1 => interchanges p count * Equiv.swap count (p count)

theorem interchanges_lt {p : Nat → Nat} {m count r : Nat} (hp : ∀ i < count, p i < m)
    (hcount : count ≤ m) (hr : r < m) : interchanges p count r < m := by
  induction count generalizing r with
  | zero => exact hr
  | succ count ih =>
    exact ih (fun i hi => hp i (by omega)) (by omega)
      (swap_lt (by omega) (hp count (by omega)) hr)

theorem interchanges_congr {p q : Nat → Nat} {count : Nat} (h : ∀ i < count, p i = q i) :
    interchanges p count = interchanges q count := by
  induction count with
  | zero => rfl
  | succ count ih => rw [interchanges, interchanges, ih fun i hi => h i (by omega), h count (by omega)]

/-- The order of the rows is computed by the interchanges that the pivots stand for. -/
theorem rowOrder_eq_ok {m : Nat} {pivots : Array Nat} {p : Nat → Nat}
    (hp : ∀ i < pivots.size, pivots[i]? = some (p i) ∧ p i < m) (hsize : pivots.size ≤ m)
    (hroom : sizeBytes * m ≤ capacityLimit) :
    ∃ order, rowOrder m pivots = .ok order ∧ order.size = m ∧
      ∀ r < m, order[r]? = some (interchanges p pivots.size r) := by
  unfold rowOrder
  rw [allocate, if_pos hroom, ok_bind]
  refine ends_iff.1 (ends_ascend (fun i (order : Array Nat) => order.size = m ∧
    ∀ r < m, order[r]? = some (interchanges p i r)) (Nat.zero_le _) ?_ ?_)
  · refine ⟨Array.size_range, fun r hr => ?_⟩
    rw [Array.getElem?_range, if_pos hr]
    rfl
  rintro i order - hi ⟨horder, hentries⟩
  obtain ⟨hread, hlt⟩ := hp i hi
  rw [readAt_of_getElem? hread, ok_bind, swapAt_eq_ok (by omega) (by omega)]
  refine ends_pure ⟨by simpa using horder, fun r hr => ?_⟩
  rw [Array.getElem?_swap, ← Array.getElem?_eq_getElem, ← Array.getElem?_eq_getElem,
    hentries i (by omega), hentries (p i) hlt, hentries r hr, interchanges, Equiv.Perm.mul_apply,
    Equiv.swap_apply_def]
  -- the loop exchanges the two places of the order, as the next interchange does
  by_cases hlast : p i = r
  · subst hlast
    by_cases hfirst : p i = i
    · simp [hfirst]
    · simp [hfirst]
  · rw [if_neg hlast, if_neg (show ¬r = p i from fun h => hlast h.symm)]
    simp only [eq_comm]
    split <;> rfl

namespace Stage

variable {α ρ : Type} [RealArith ρ] [Scalar α ρ]

/-- The pivot that a run records for a column is the pivot that it has found there. -/
theorem getElem?_pivots_run (m stop : Nat) {s : Stage α} {count i : Nat} (hi : i < count)
    (hcount : count ≤ s.pivots.size) :
    (s.run m stop 0 count).pivots[i]? = some (pivotOf m (s.run m stop 0 i).cells i) := by
  induction count with
  | zero => omega
  | succ count ih =>
    have hsize := size_pivots_run m stop 0 s count
    rw [run, Nat.zero_add, step, Array.getElem?_setIfInBounds, hsize]
    rcases eq_or_ne count i with rfl | hne
    · rw [if_pos rfl, if_pos (by omega)]
    · rw [if_neg hne, ih (by omega) (by omega)]

end Stage

section Pivots

variable {α ρ : Type} [RealArith ρ] [Scalar α ρ]

/-- The pivots that the elimination of a whole matrix finds. -/
def pivotsFound (m n : Nat) (A : Nat → Nat → α) (i : Nat) : Nat :=
  pivotOf m ((Stage.initial m n A).run m n 0 i).cells i

theorem pivotsFound_lt {m n i : Nat} (A : Nat → Nat → α) (hi : i < m) : pivotsFound m n A i < m :=
  pivotOf_lt _ hi

theorem size_pivots_finalStage (a : PagedMatrix α) :
    (finalStage a).pivots.size = min a.rows a.cols := by
  rw [finalStage, Stage.size_pivots_run]
  exact Array.size_replicate

/-- The elimination of a whole matrix records the pivots that it finds, and they are rows. -/
theorem pivots_finalStage (a : PagedMatrix α) {i : Nat} (hi : i < min a.rows a.cols) :
    (finalStage a).pivots[i]? = some (pivotsFound a.rows a.cols a.cell i) ∧
      pivotsFound a.rows a.cols a.cell i < a.rows :=
  ⟨Stage.getElem?_pivots_run _ _ hi Array.size_replicate.ge, pivotsFound_lt _ (by omega)⟩

end Pivots

/-! ## The factors -/

section Factors

variable {α ρ : Type} [RealArith ρ] [Scalar α ρ]

/-- The entries of the lower factor: the multipliers below a diagonal of ones. -/
def lowerCells (f : Nat → Nat → α) : Nat → Nat → α :=
  fun r c => if c < r then f r c else if c = r then 1 else 0

/-- The entries of the upper factor. -/
def upperCells (f : Nat → Nat → α) : Nat → Nat → α :=
  fun r c => if c < r then 0 else f r c

/-- The entries of the matrix of a permutation of the rows. -/
def permutationCells (σ : Nat → Nat) : Nat → Nat → α :=
  fun r c => if c = σ r then 1 else 0

variable {shape : Shape} {kind : NumericKind} {height : Nat} {f : Nat → Nat → α}

omit [RealArith ρ] [Scalar α ρ] in
/-- A part of a row is copied from one matrix to another. -/
theorem copyRow_ofCells {target : Shape} {targetKind : NumericKind} {targetHeight i start stop : Nat}
    {g : Nat → Nat → α} (hi : i < height) (hi' : i < targetHeight) (hle : start ≤ stop)
    (hcols : stop ≤ shape.cols) (hcols' : stop ≤ target.cols) :
    ascend start stop (ofCells target targetKind targetHeight g) (fun j out => do
        out.set i j (← (ofCells shape kind height f).get i j)) =
      .ok (ofCells target targetKind targetHeight fun r c =>
        if r = i ∧ start ≤ c ∧ c < stop then f r c else g r c) := by
  refine ascend_ofCells (fun j r c => if r = i ∧ start ≤ c ∧ c < j then f r c else g r c) hle
    (fun r c _ _ => (if_neg (by omega)).symm) (fun r c _ _ => rfl) ?_
  intro j hj hj'
  rw [get_ofCells hi (by omega), ok_bind, set_ofCells hi' (by omega)]
  refine congrArg Except.ok (ofCells_congr fun r c _ _ => ?_)
  unfold setCell
  by_cases h : r = i ∧ c = j
  · obtain ⟨rfl, rfl⟩ := h
    rw [if_pos ⟨rfl, rfl⟩, if_pos (by omega)]
  · have h' : r = i ∧ start ≤ c ∧ c < j + 1 ↔ r = i ∧ start ≤ c ∧ c < j := by omega
    rw [if_neg h]
    simp only [h']

/-- The triangular factors after their first `i` rows have been copied, if `steps` rows and columns
are packed. -/
def trianglesUpTo (shape : Shape) (steps : Nat) (f : Nat → Nat → α) (i : Nat) :
    PagedMatrix α × PagedMatrix α :=
  (ofCells { rows := shape.rows, cols := steps } .real shape.rows
      fun r c => if r < i then lowerCells f r c else 0,
    ofCells { rows := steps, cols := shape.cols } .real steps
      fun r c => if r < i then upperCells f r c else 0)

omit [RealArith ρ] in
/-- Row `i` is copied to both triangular factors. -/
theorem copyTriangles_ofCells {steps i : Nat} (hrows : shape.rows ≤ height) (hi : i < shape.rows)
    (hsteps : steps ≤ shape.cols) :
    (do
        let lower ← ascend 0 (min steps i) (trianglesUpTo shape steps f i).1 fun j lower => do
          lower.set i j (← (ofCells shape kind height f).get i j)
        if i < steps then
          let lower ← lower.set i i 1
          let upper ← ascend i shape.cols (trianglesUpTo shape steps f i).2 fun j upper => do
            upper.set i j (← (ofCells shape kind height f).get i j)
          return (lower, upper)
        else
          return (lower, (trianglesUpTo shape steps f i).2) :
        Checked (PagedMatrix α × PagedMatrix α)) =
      .ok (trianglesUpTo shape steps f (i + 1)) := by
  have hle : min steps i ≤ shape.cols := by omega
  have hi' : i < height := by omega
  unfold trianglesUpTo
  dsimp only
  refine bind_eq_ok (copyRow_ofCells hi' hi (Nat.zero_le _) hle (Nat.min_le_left _ _)) ?_
  by_cases hstep : i < steps
  · -- the row has a diagonal entry, and a part in the upper factor
    have hle : i ≤ shape.cols := by omega
    rw [if_pos hstep, set_ofCells hi hstep, ok_bind]
    refine bind_eq_ok (copyRow_ofCells hi' hstep hle (Nat.le_refl _) (Nat.le_refl _)) ?_
    refine congrArg Except.ok (congrArg₂ Prod.mk (ofCells_congr fun r c _ _ => ?_)
      (ofCells_congr fun r c _ hc => ?_))
    · unfold setCell lowerCells
      dsimp only
      split_ifs <;> first | rfl | omega
    · dsimp only at hc
      unfold upperCells
      split_ifs <;> first | rfl | omega
  · -- below the packed square there are multipliers only
    rw [if_neg hstep]
    refine congrArg Except.ok (congrArg₂ Prod.mk (ofCells_congr fun r c _ hc => ?_)
      (ofCells_congr fun r c hr _ => ?_))
    · dsimp only at hc
      unfold lowerCells
      split_ifs <;> first | rfl | omega
    · unfold upperCells
      split_ifs <;> first | rfl | omega

omit [RealArith ρ] in
/-- The matrix of a permutation has a one in each row. -/
theorem permutationRows_ofCells {m : Nat} {order : Array Nat} {σ : Nat → Nat}
    (horder : ∀ r < m, order[r]? = some (σ r) ∧ σ r < m) :
    ascend 0 m (ofCells { rows := m, cols := m } .real m fun _ _ => (0 : α)) (fun i p => do
        p.set i (← readAt order i) 1) =
      .ok (ofCells { rows := m, cols := m } .real m (permutationCells σ)) := by
  refine ascend_ofCells (fun i r c => if r < i then permutationCells σ r c else 0) (Nat.zero_le _)
    (fun r c _ _ => (if_neg (Nat.not_lt_zero r)).symm) (fun r c hr _ => if_pos hr) ?_
  intro i _ hi
  obtain ⟨hread, hlt⟩ := horder i hi
  rw [readAt_of_getElem? hread, ok_bind, set_ofCells hi hlt]
  refine congrArg Except.ok (ofCells_congr fun r c _ _ => ?_)
  unfold setCell permutationCells
  rcases eq_or_ne r i with rfl | hne
  · simp
  · have hrange : r < i + 1 ↔ r < i := by omega
    simp only [hne, false_and, if_false, hrange]

omit [RealArith ρ] in
/-- The matrix of a permutation has a one in row `i` and column `σ i`. -/
theorem get_permutationCells {m : Nat} {σ : Equiv.Perm (Fin m)} {τ : Nat → Nat}
    (hσ : ∀ i, (σ i : Nat) = τ i) (i j : Fin m) :
    (ofCells { rows := m, cols := m } kind m (permutationCells τ : Nat → Nat → α)).get i j =
      .ok (if j = σ i then 1 else 0) := by
  rw [get_ofCells i.isLt j.isLt, permutationCells, ← hσ i]
  simp only [Fin.ext_iff]

/-- The triangles of packed factors are copied first, so what is left is the permutation. -/
theorem unpack_ofCells_eq_bind (pivots : Array Nat) (hrows : shape.rows ≤ height)
    (hlimit : shape.rows < Size.limit) (hfits : Fits α (shape.rows * shape.cols)) :
    unpack (ofCells shape kind height f) pivots = (do
      let order ← rowOrder shape.rows pivots
      let permutation ← ascend 0 shape.rows (← zeros shape.rows shape.rows) fun i p => do
        p.set i (← readAt order i) 1
      return {
        lower := (ofCells { rows := shape.rows, cols := min shape.rows shape.cols } .real shape.rows
          (lowerCells f)).refreshKind
        upper := (ofCells { rows := min shape.rows shape.cols, cols := shape.cols } .real
          (min shape.rows shape.cols) (upperCells f)).refreshKind
        permutation }) := by
  have hmin : min shape.rows shape.cols ≤ shape.cols := Nat.min_le_right _ _
  have hmin' : min shape.rows shape.cols ≤ shape.rows := Nat.min_le_left _ _
  unfold unpack
  rw [rows_ofCells, cols_ofCells]
  dsimp only
  rw [zeros_eq_ok hlimit (hfits.mono (Nat.mul_le_mul_left _ hmin)), ok_bind,
    zeros_eq_ok (by omega) (hfits.mono (Nat.mul_le_mul_right _ hmin')), ok_bind]
  generalize min shape.rows shape.cols = steps at *
  refine (bind_of_ok (ascend_eq_ok (trianglesUpTo shape steps f) (Nat.zero_le _) ?_ rfl
    fun i _ hi => copyTriangles_ofCells hrows hi hmin)).trans ?_
  · simp [trianglesUpTo]
  -- after the last row the copies are complete
  have hlower : (trianglesUpTo shape steps f shape.rows).1 =
      ofCells { rows := shape.rows, cols := steps } .real shape.rows (lowerCells f) :=
    ofCells_congr fun r c hr _ => if_pos hr
  have hupper : (trianglesUpTo shape steps f shape.rows).2 =
      ofCells { rows := steps, cols := shape.cols } .real steps (upperCells f) :=
    ofCells_congr fun r c (hr : r < steps) _ => if_pos (Nat.lt_of_lt_of_le hr hmin')
  rw [← hlower, ← hupper]

/-- Packed factors are split into their two triangles and the permutation of their pivots. -/
theorem unpack_ofCells {pivots : Array Nat} {p : Nat → Nat} (hrows : shape.rows ≤ height)
    (hlimit : shape.rows < Size.limit) (hfits : Fits α (shape.rows * shape.cols))
    (hroom : Fits α (shape.rows * shape.rows))
    (hp : ∀ i < pivots.size, pivots[i]? = some (p i) ∧ p i < shape.rows)
    (hsize : pivots.size ≤ shape.rows) :
    unpack (ofCells shape kind height f) pivots = .ok
      { lower := (ofCells { rows := shape.rows, cols := min shape.rows shape.cols } .real shape.rows
          (lowerCells f)).refreshKind
        upper := (ofCells { rows := min shape.rows shape.cols, cols := shape.cols } .real
          (min shape.rows shape.cols) (upperCells f)).refreshKind
        permutation := ofCells { rows := shape.rows, cols := shape.rows } .real shape.rows
          (permutationCells (interchanges p pivots.size)) } := by
  obtain ⟨order, horder, -, hentries⟩ :=
    rowOrder_eq_ok hp hsize (sizeBytes_mul_le hroom.le_capacityLimit)
  rw [unpack_ofCells_eq_bind pivots hrows hlimit hfits, horder, ok_bind,
    zeros_eq_ok hlimit hroom, ok_bind]
  refine bind_eq_ok (permutationRows_ofCells fun r hr =>
    ⟨hentries r hr, interchanges_lt (fun i hi => (hp i hi).2) hsize hr⟩) rfl

/-- Without room for the matrix of the permutation, packed factors are not split. -/
theorem unpack_eq_error (pivots : Array Nat) (hrows : shape.rows ≤ height)
    (hlimit : shape.rows < Size.limit) (hfits : Fits α (shape.rows * shape.cols))
    (hroom : ¬ Fits α (shape.rows * shape.rows)) :
    ∃ fault, unpack (ofCells shape kind height f) pivots = .error fault := by
  obtain ⟨fault, hfault⟩ := zeros_eq_error hlimit hfits.bytes_pos hroom
  rw [unpack_ofCells_eq_bind pivots hrows hlimit hfits, hfault]
  -- there may be no room for the order of the rows either
  rcases rowOrder shape.rows pivots with fault' | order
  · exact ⟨fault', rfl⟩
  · exact ⟨fault, rfl⟩

end Factors

end Lu

end DenseLinear
