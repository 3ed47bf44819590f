import DenseLinear.Lu.Solve
import DenseLinear.Proofs.Frames
import DenseLinear.Proofs.Homomorphisms

/-!
# Elimination of images

LU factorisation, and what is computed with the factors, mirrors itself on the images of entries.
Pivots are chosen by absolute values, so the rows that are interchanged, their number and the first
column without a pivot are the same on both sides.

`factorByProduct` sets up copies of blocks, and so needs room for the images of the matrix;
`factorByTiles` needs none.
-/

namespace DenseLinear

open ScalarHom

variable {α β ρ : Type} [RealArith ρ] [Scalar α ρ] [Scalar β ρ] [ScalarHom α β] {tight : Prop}

namespace PagedMatrix

omit [RealArith ρ] [Scalar α ρ] [ScalarHom α β] in
/-- A matrix that has been worked on in place has room where it had room before. -/
theorem HasRoom.of_sameFrame {a b : PagedMatrix α} (h : HasRoom β tight (a.rows * a.cols))
    (hb : SameFrame a b) : HasRoom β tight (b.rows * b.cols) := by
  unfold rows cols
  rwa [hb.shape]

theorem mirrors_subtractProducts (a : PagedMatrix α) (i j start stop : Nat) (x : α) :
    Mirrors tight (hom : α → β) (a.image.subtractProducts i j start stop (hom x))
      (a.subtractProducts i j start stop x) :=
  mirrors_ascend fun l x => mirrors_bind (a.mirrors_get i l) fun left =>
    mirrors_bind (a.mirrors_get l j) fun right =>
      mirrors_value (by rw [hom_sub, hom_mul])

theorem mirrors_solveUnitLower (a : PagedMatrix α) (k width : Nat) :
    Mirrors tight image (a.image.solveUnitLower k width : Checked (PagedMatrix β))
      (a.solveUnitLower k width) :=
  mirrors_bind mirrors_same fun _ => mirrors_ascend fun j _ => mirrors_ascend fun i a =>
    mirrors_bind (a.mirrors_get i j) fun x =>
      mirrors_bind (a.mirrors_subtractProducts i j k i x) fun _ => a.mirrors_set i j rfl

end PagedMatrix

namespace Lu

open PagedMatrix

/-! ## Panels -/

/-- A sweep over the images of the entries. -/
def Sweep.image (sweep : Sweep α) : Sweep β :=
  { matrix := sweep.matrix.image, pivots := sweep.pivots, status := sweep.status }

/-- The row with the largest image has the largest entry. -/
theorem mirrors_pivotRow (a : PagedMatrix α) (i : Nat) :
    Mirrors tight id (pivotRow (a.image : PagedMatrix β) i) (pivotRow a i) := by
  refine mirrors_bind (a.mirrors_get i i) fun diagonal => mirrors_bind (g := id) ?_
    fun _ => mirrors_pure
  refine mirrors_ascend_from (by rw [modulus_hom]; rfl) fun r found => ?_
  refine mirrors_bind (a.mirrors_get r i) fun x => mirrors_value ?_
  simp only [modulus_hom, id_eq]

theorem mirrors_eliminateRow (a : PagedMatrix α) (i stop : Nat) (pivot : α) (r : Nat) :
    Mirrors tight image (eliminateRow a.image i stop (hom pivot) r : Checked (PagedMatrix β))
      (eliminateRow a i stop pivot r) := by
  refine mirrors_bind (a.mirrors_get r i) fun x => ?_
  have hfactor : (Scalar.quotient (hom x) (hom pivot) : β) = hom (Scalar.quotient x pivot) :=
    (hom_quotient x pivot).symm
  refine mirrors_bind (a.mirrors_set r i hfactor) fun a => ?_
  refine mirrors_ite (by rw [hfactor, beq_zero]) (fun _ => mirrors_pure) fun _ => ?_
  exact mirrors_ascend fun j a => mirrors_bind (a.mirrors_get i j) fun upper =>
    mirrors_bind (a.mirrors_get r j) fun old =>
      a.mirrors_set r j (by rw [hfactor, hom_sub, hom_mul])

theorem mirrors_bringPivot (sweep : Sweep α) (i p : Nat) :
    Mirrors tight Sweep.image (bringPivot (sweep.image : Sweep β) i p) (bringPivot sweep i p) :=
  mirrors_bind mirrors_same fun _ => mirrors_ite Iff.rfl (fun _ => mirrors_value rfl) fun _ =>
    mirrors_bind (sweep.matrix.mirrors_swapRows i p) fun _ =>
      mirrors_bind mirrors_same fun _ => mirrors_value rfl

theorem mirrors_eliminateColumn (stop i : Nat) (sweep : Sweep α) :
    Mirrors tight Sweep.image (eliminateColumn stop i (sweep.image : Sweep β))
      (eliminateColumn stop i sweep) := by
  refine mirrors_bind (mirrors_pivotRow sweep.matrix i) fun p => ?_
  refine mirrors_bind (mirrors_bringPivot sweep i p) fun found => ?_
  obtain ⟨a, pivots, status⟩ := found
  refine mirrors_bind (a.mirrors_get i i) fun pivot => ?_
  refine mirrors_ite (by rw [isNull_hom]) (fun _ => mirrors_value rfl) fun _ => ?_
  exact mirrors_bind (mirrors_ascend fun r a => mirrors_eliminateRow a i stop pivot r)
    fun _ => mirrors_value rfl

theorem mirrors_eliminatePanel (k width : Nat) (sweep : Sweep α) :
    Mirrors tight Sweep.image (eliminatePanel k width (sweep.image : Sweep β))
      (eliminatePanel k width sweep) :=
  mirrors_bind mirrors_same fun _ => mirrors_ascend fun i sweep =>
    mirrors_eliminateColumn _ i sweep

/-- A panel of images has the same pivots, and reports the same event. -/
theorem mirrors_factorPanel (k width : Nat) (sweep : Sweep α) :
    Mirrors tight Sweep.image (factorPanel k width (sweep.image : Sweep β))
      (factorPanel k width sweep) := by
  refine mirrors_bind (mirrors_checked (mirrors_eliminatePanel k width sweep)) fun found => ?_
  have hevent : (sweep.image : Sweep β).status.event? (found.image : Sweep β).status =
      sweep.status.event? found.status := rfl
  dsimp only
  rw [hevent]
  cases sweep.status.event? found.status with
  | none => exact mirrors_pure
  | some event => exact mirrors_bind mirrors_ambience fun _ => mirrors_pure

/-! ## Factorisations -/

theorem mirrors_firstNullDiagonal (a : PagedMatrix α) :
    Mirrors tight id (firstNullDiagonal (a.image : PagedMatrix β)) (firstNullDiagonal a) :=
  mirrors_ascend fun i _ => mirrors_ite Iff.rfl (fun _ => mirrors_pure) fun _ =>
    mirrors_bind (a.mirrors_get i i) fun _ => mirrors_value (by rw [isNull_hom]; rfl)

/-- A factored matrix and what is told of it, for images. -/
def imageFactored {σ : Type} (found : PagedMatrix α × σ) : PagedMatrix β × σ :=
  (found.1.image, found.2)

theorem mirrors_updateByProduct (a : PagedMatrix α) {k next : Nat} (choice : BlockingChoice)
    (hrows : next < a.rows) (hcols : next < a.cols) (hroom : HasRoom β tight (a.rows * a.cols)) :
    Mirrors tight image (updateByProduct (a.image : PagedMatrix β) k next choice)
      (updateByProduct a k next choice) := by
  -- what has room for the matrix has room for a copy of any part of it
  have hpart {r0 r1 c0 c1 : Nat} (hr : r1 ≤ a.rows) (hc : c1 ≤ a.cols) :
      HasRoom β tight ((r1 - r0) * (c1 - c0)) :=
    hroom.mono (Nat.mul_le_mul (by omega) (by omega))
  have hlower : HasRoom β tight ((a.rows - next) * (next - k)) :=
    hpart (Nat.le_refl _) (Nat.le_of_lt hcols)
  have hupper : HasRoom β tight ((next - k) * (a.cols - next)) :=
    hpart (Nat.le_of_lt hrows) (Nat.le_refl _)
  have htrailing : HasRoom β tight ((a.rows - next) * (a.cols - next)) :=
    hpart (Nat.le_refl _) (Nat.le_refl _)
  refine mirrors_bind (mirrors_checked (a.mirrors_block hlower)) fun lower => ?_
  refine mirrors_bind (mirrors_checked (a.mirrors_block hupper)) fun upper => ?_
  refine mirrors_bind (mirrors_checked (a.mirrors_block htrailing)) fun part => ?_
  have hone : (1 : β) = hom (1 : α) := hom_one.symm
  have hminus : (-1 : β) = hom (-1 : α) := by rw [hom_neg, hom_one]
  rw [hminus, hone]
  refine mirrors_bind (mirrors_adapt (fun _ => rfl) ?_) fun part =>
    mirrors_checked (a.mirrors_setBlock next next part)
  exact mirrors_multiplyAdd lower upper (-1) _ 1 part choice htrailing

theorem mirrors_stepByProduct (choice : BlockingChoice) (width k : Nat) (a : PagedMatrix α)
    (pivots : Array Nat) (swaps : Nat) (hroom : HasRoom β tight (a.rows * a.cols)) :
    Mirrors tight imageFactored
      (stepByProduct choice width k (a.image : PagedMatrix β) pivots swaps)
      (stepByProduct choice width k a pivots swaps) := by
  refine mirrors_bind_returns (mirrors_unrefused (mirrors_factorPanel k width ⟨a, pivots, {}⟩))
    (returnsOnly_unrefused (sameFrame_factorPanel k width _)) fun found hfound => ?_
  obtain ⟨b, pivots, status⟩ := found
  refine mirrors_bind (mirrors_checked mirrors_same) fun swaps => ?_
  refine mirrors_ite Iff.rfl (fun hcols => ?_) fun _ => mirrors_value rfl
  refine mirrors_bind_returns (mirrors_checked (b.mirrors_solveUnitLower k width))
    (returnsOnly_checked (b.sameFrame_solveUnitLower k width)) fun c hc => ?_
  refine mirrors_ite Iff.rfl (fun hrows => ?_) fun _ => mirrors_value rfl
  -- neither the panel nor the substitution has changed the shape
  have hcols : k + width < c.cols := by
    unfold cols
    rwa [hc.shape]
  have hroom : HasRoom β tight (c.rows * c.cols) := hroom.of_sameFrame (hfound.trans hc)
  exact mirrors_bind (mirrors_updateByProduct c choice hrows hcols hroom) fun _ => mirrors_value rfl

/-- The factorisation that updates by matrix products has the factors of the images as the images of
the factors, and the same record. -/
theorem mirrors_factorByProduct (choice : BlockingChoice) (a : PagedMatrix α)
    (hroom : HasRoom β tight (a.rows * a.cols)) :
    Mirrors tight imageFactored (factorByProduct choice (a.image : PagedMatrix β))
      (factorByProduct choice a) := by
  refine mirrors_bind (mirrors_adapt (fun _ => rfl) mirrors_refusable) fun blocking => ?_
  refine mirrors_bind (mirrors_checked mirrors_same) fun _ => ?_
  refine mirrors_bind (g := imageFactored) (β := PagedMatrix α × Array Nat × Nat) ?_
    fun found => ?_
  · refine mirrors_strides_of (I := fun found : PagedMatrix α × Array Nat × Nat =>
      SameFrame a found.1) (s := (a, .replicate (min a.rows a.cols) 0, 0)) (SameFrame.refl a) ?_ ?_
    · rintro k ⟨b, pivots, swaps⟩ hb
      exact returnsOnly_mono (keepsFrame_stepByProduct b choice _ k pivots swaps).1
        fun _ => hb.trans
    · rintro k ⟨b, pivots, swaps⟩ hb
      exact mirrors_stepByProduct choice _ k b pivots swaps (hroom.of_sameFrame hb)
  · obtain ⟨b, pivots, swaps⟩ := found
    dsimp only [imageFactored]
    rw [← image_refreshKind]
    refine mirrors_bind (mirrors_checked (mirrors_firstNullDiagonal _)) fun firstNull => ?_
    cases firstNull with
    | none => exact mirrors_value rfl
    | some column =>
      exact mirrors_bind (mirrors_unrefused mirrors_ambience) fun _ => mirrors_value rfl

theorem mirrors_updateByTiles (a : PagedMatrix α) (k width edge : Nat) :
    Mirrors tight image (updateByTiles (a.image : PagedMatrix β) k width edge)
      (updateByTiles a k width edge) := by
  refine mirrors_bind mirrors_same fun _ => mirrors_strides fun _ _ => ?_
  refine mirrors_bind mirrors_same fun _ => mirrors_strides fun _ _ => ?_
  refine mirrors_bind mirrors_same fun _ => mirrors_ascend fun i _ => mirrors_ascend fun j a => ?_
  refine mirrors_bind (g := hom) ?_ fun sum => ?_
  · exact mirrors_ascend_from hom_zero.symm fun l sum => mirrors_bind (a.mirrors_get i l)
      fun left => mirrors_bind (a.mirrors_get l j) fun right =>
        mirrors_value (hom_addMul sum left right).symm
  · exact mirrors_bind (a.mirrors_get i j) fun old => a.mirrors_set i j (hom_sub old sum).symm

theorem mirrors_stepByTiles (edge width k : Nat) (sweep : Sweep α) :
    Mirrors tight Sweep.image (stepByTiles edge width k (sweep.image : Sweep β))
      (stepByTiles edge width k sweep) := by
  refine mirrors_bind (mirrors_factorPanel k width sweep) fun found => ?_
  obtain ⟨a, pivots, status⟩ := found
  refine mirrors_ite Iff.rfl (fun _ => ?_) fun _ => mirrors_value rfl
  exact mirrors_bind (mirrors_checked (a.mirrors_solveUnitLower k width)) fun a =>
    mirrors_bind (mirrors_checked (mirrors_updateByTiles a k width edge))
      fun _ => mirrors_value rfl

/-- So does the factorisation that updates in place, and it needs no room. -/
theorem mirrors_factorInTiles (edge : Nat) (a : PagedMatrix α) :
    Mirrors tight imageFactored (factorInTiles edge (a.image : PagedMatrix β))
      (factorInTiles edge a) := by
  refine mirrors_bind (mirrors_checked mirrors_same) fun _ => ?_
  refine mirrors_bind (g := (Sweep.image : Sweep α → Sweep β)) ?_ fun found => mirrors_value ?_
  · exact mirrors_strides (e := (Sweep.image : Sweep α → Sweep β)) (s := ⟨a, _, {}⟩)
      fun k sweep => mirrors_stepByTiles _ _ k sweep
  · rw [imageFactored, image_refreshKind]

theorem mirrors_factorByTiles (a : PagedMatrix α) :
    Mirrors tight imageFactored (factorByTiles (a.image : PagedMatrix β)) (factorByTiles a) :=
  mirrors_bind mirrors_ambience fun edge => mirrors_factorInTiles edge a

theorem mirrors_factorByTilesWith (choice : BlockingChoice) (a : PagedMatrix α) :
    Mirrors tight imageFactored (factorByTilesWith choice (a.image : PagedMatrix β))
      (factorByTilesWith choice a) :=
  mirrors_bind (mirrors_adapt (fun _ => rfl) mirrors_refusable) fun blocking =>
    mirrors_unrefused (mirrors_factorInTiles blocking.edge a)

/-! ## Solving -/

theorem mirrors_subtractRow (x : PagedMatrix α) (i l width : Nat) (factor : α) :
    Mirrors tight image (subtractRow (x.image : PagedMatrix β) i l width (hom factor))
      (subtractRow x i l width factor) :=
  mirrors_ite (by rw [beq_zero]) (fun _ => mirrors_pure) fun _ => mirrors_ascend fun j x =>
    mirrors_bind (x.mirrors_get l j) fun other => mirrors_bind (x.mirrors_get i j) fun old =>
      x.mirrors_set i j (by rw [hom_sub, hom_mul])

theorem mirrors_solveLowerRows (lu : PagedMatrix α) (n : Nat) (x : PagedMatrix α) :
    Mirrors tight image (solveLowerRows (lu.image : PagedMatrix β) n x.image)
      (solveLowerRows lu n x) :=
  mirrors_ascend fun i _ => mirrors_ascend fun l x =>
    mirrors_bind (lu.mirrors_get i l) fun factor => mirrors_subtractRow x i l x.cols factor

theorem mirrors_solveUpperRows (lu : PagedMatrix α) (n : Nat) (x : PagedMatrix α) :
    Mirrors tight image (solveUpperRows (lu.image : PagedMatrix β) n x.image)
      (solveUpperRows lu n x) := by
  refine mirrors_descend fun i x => mirrors_bind (g := image) ?_ fun x => ?_
  · exact mirrors_ascend fun l x => mirrors_bind (lu.mirrors_get i l) fun factor =>
      mirrors_subtractRow x i l x.cols factor
  · exact mirrors_bind (lu.mirrors_get i i) fun pivot => mirrors_ascend fun j x =>
      mirrors_bind (x.mirrors_get i j) fun entry =>
        x.mirrors_set i j (hom_quotient entry pivot).symm

theorem mirrors_interchangeAll (pivots : Array Nat) (n : Nat) (x : PagedMatrix α) :
    Mirrors tight image (interchangeAll pivots n x.image : Fallible (PagedMatrix β))
      (interchangeAll pivots n x) := by
  refine mirrors_ascend fun i x => mirrors_bind (mirrors_checked mirrors_same) fun p => ?_
  exact mirrors_ite Iff.rfl (fun _ => mirrors_throw) fun _ =>
    mirrors_checked (x.mirrors_swapRows i p)

/-- The solution for images is the image of the solution. -/
theorem mirrors_solveFactored (lu : PagedMatrix α) (pivots : Array Nat) (b : PagedMatrix α) :
    Mirrors tight image (solveFactored lu.image pivots b.image : Fallible (PagedMatrix β))
      (solveFactored lu pivots b) := by
  refine mirrors_bind (g := id) mirrors_fallible fun _ => ?_
  refine mirrors_bind (mirrors_checked mirrors_same) fun height => ?_
  refine mirrors_ite Iff.rfl (fun _ => mirrors_throw) fun _ => ?_
  refine mirrors_ite Iff.rfl (fun _ => mirrors_throw) fun _ => ?_
  refine mirrors_bind (mirrors_interchangeAll pivots lu.rows b) fun x => ?_
  refine mirrors_bind (mirrors_checked (mirrors_solveLowerRows lu lu.rows x)) fun x => ?_
  exact mirrors_bind (mirrors_checked (mirrors_solveUpperRows lu lu.rows x)) fun x =>
    mirrors_value x.image_refreshKind.symm

theorem mirrors_solve (a b : PagedMatrix α) :
    Mirrors tight image (solve a.image b.image : ExceptT Refusal Ambience (PagedMatrix β))
      (solve a b) :=
  mirrors_bind mirrors_refusable fun _ =>
    mirrors_bind (mirrors_unrefused (mirrors_factorByTiles a)) fun found =>
      mirrors_unobserved (mirrors_solveFactored found.1 found.2.pivots b)

/-- The inverse of a matrix of images is the image of the inverse. -/
theorem mirrors_inverse (a : PagedMatrix α) (hroom : HasRoom β tight (a.rows * a.rows)) :
    Mirrors tight image (inverse a.image : ExceptT Refusal Ambience (PagedMatrix β)) (inverse a) :=
  mirrors_bind mirrors_refusable fun _ =>
    mirrors_bind (mirrors_checked (mirrors_identity α hroom)) fun one => mirrors_solve a one

/-- The determinant of a matrix of images is the image of the determinant. -/
theorem mirrors_determinant (a : PagedMatrix α) :
    Mirrors tight (hom : α → β) (determinant a.image) (determinant a) := by
  refine mirrors_bind mirrors_refusable fun _ => ?_
  refine mirrors_bind (mirrors_unrefused (mirrors_factorByTiles a)) fun found => ?_
  obtain ⟨lu, record⟩ := found
  refine mirrors_bind (mirrors_checked (g := hom) ?_) fun product => mirrors_value ?_
  · exact mirrors_ascend_from hom_one.symm fun i product =>
      mirrors_bind (lu.mirrors_get i i) fun x => mirrors_value (hom_mul product x).symm
  · change (if record.swaps % 2 = 1 then -hom product else hom product) = _
    rw [apply_ite hom, hom_neg]

/-! ## Factors -/

/-- The factors of a factorisation, for images. -/
def Factors.image (f : Factors α) : Factors β :=
  { lower := f.lower.image, upper := f.upper.image, permutation := f.permutation.image }

/-- The factors that are split off packed images are the images of those that are split off the
packed factors. -/
theorem mirrors_unpack (lu : PagedMatrix α) (pivots : Array Nat)
    (hlu : HasRoom β tight (lu.rows * lu.cols)) (hsquare : HasRoom β tight (lu.rows * lu.rows)) :
    Mirrors tight Factors.image (unpack lu.image pivots : Checked (Factors β))
      (unpack lu pivots) := by
  have hlower : HasRoom β tight (lu.rows * min lu.rows lu.cols) :=
    hsquare.mono (Nat.mul_le_mul_left _ (Nat.min_le_left _ _))
  have hupper : HasRoom β tight (min lu.rows lu.cols * lu.cols) :=
    hlu.mono (Nat.mul_le_mul_right _ (Nat.min_le_left _ _))
  refine mirrors_bind (mirrors_zeros α hlower) fun lower => ?_
  refine mirrors_bind (mirrors_zeros α hupper) fun upper => ?_
  refine mirrors_bind (g := Prod.map image image) ?_ fun found => ?_
  · refine mirrors_ascend_from (s := (lower, upper)) rfl fun i found => ?_
    obtain ⟨lower, upper⟩ := found
    refine mirrors_bind (g := image) ?_ fun lower => ?_
    · exact mirrors_ascend fun j lower => mirrors_bind (lu.mirrors_get i j) fun _ =>
        lower.mirrors_set i j rfl
    · refine mirrors_ite Iff.rfl (fun _ => ?_) fun _ => mirrors_value rfl
      refine mirrors_bind (lower.mirrors_set i i hom_one.symm) fun lower => ?_
      refine mirrors_bind (g := image) ?_ fun upper => mirrors_value rfl
      exact mirrors_ascend fun j upper => mirrors_bind (lu.mirrors_get i j) fun _ =>
        upper.mirrors_set i j rfl
  · obtain ⟨lower, upper⟩ := found
    refine mirrors_bind mirrors_same fun order => ?_
    refine mirrors_bind (mirrors_zeros α hsquare) fun permutation => ?_
    refine mirrors_bind (g := image) ?_ fun permutation => mirrors_value ?_
    · exact mirrors_ascend fun i p => mirrors_bind mirrors_same fun _ =>
        p.mirrors_set i _ hom_one.symm
    · rw [Factors.image, image_refreshKind, image_refreshKind]

end Lu

end DenseLinear
