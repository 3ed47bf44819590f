import DenseLinear.Proofs.Frames
import DenseLinear.Proofs.Homomorphisms
import DenseLinear.Qr.Pivoted

/-!
# Reflections of images

QR factorisation mirrors itself on the images of entries, with and without column pivoting. The
norms that guide the choice of a column are magnitudes, and images have the magnitudes of their
entries, so the same columns are brought forward and the same norms are computed afresh.

The square roots on the way are taken of sums of squares, which is all that a homomorphism answers
for.
-/

namespace DenseLinear

open ScalarHom

variable {α β ρ : Type} [RealArith ρ] [Scalar α ρ] [Scalar β ρ] [ScalarHom α β] {tight : Prop}

namespace PagedMatrix

/-! ## Norms -/

theorem mirrors_columnTailNormSq (a : PagedMatrix α) (col start stop : Nat) :
    Mirrors tight (hom : α → β) (a.image.columnTailNormSq col start stop)
      (a.columnTailNormSq col start stop) :=
  mirrors_bind mirrors_same fun _ => mirrors_ascend_from hom_zero.symm fun i acc =>
    mirrors_bind (a.mirrors_get i col) fun x => mirrors_value (hom_addNormSq acc x).symm

variable (β) in
/-- A sum of squares is known to be one. -/
theorem isNonneg_columnTailNormSq (a : PagedMatrix α) (col start stop : Nat) :
    ReturnsOnly (a.columnTailNormSq col start stop) (IsNonneg β) :=
  returnsOnly_then fun _ => returnsOnly_ascend isNonneg_zero fun _ _ hacc =>
    returnsOnly_then fun x => returnsOnly_pure (isNonneg_addNormSq x hacc)

theorem mirrors_columnNormSq (a : PagedMatrix α) (col start stop : Nat) :
    Mirrors tight (hom : α → β) (a.image.columnNormSq col start stop)
      (a.columnNormSq col start stop) := by
  refine mirrors_bind (g := id) ?_ fun sum => mirrors_value (hom_ofReal sum).symm
  exact mirrors_ascend fun i sum => mirrors_bind (a.mirrors_get i col) fun x =>
    mirrors_value (by rw [normSq_hom]; rfl)

variable (β) in
theorem isNonneg_columnNormSq (a : PagedMatrix α) (col start stop : Nat) :
    ReturnsOnly (a.columnNormSq col start stop) (IsNonneg β) := by
  refine returnsOnly_bind (P := fun sum => IsNonneg β (Scalar.ofReal sum : α)) ?_
    fun sum hsum => returnsOnly_pure hsum
  exact returnsOnly_ascend isNonneg_ofReal_zero fun _ _ hsum =>
    returnsOnly_then fun x => returnsOnly_pure (isNonneg_ofReal_add x hsum)

theorem mirrors_columnNorm (a : PagedMatrix α) (col start stop : Nat) :
    Mirrors tight (hom : α → β) (a.image.columnNorm col start stop)
      (a.columnNorm col start stop) :=
  mirrors_bind_returns (mirrors_columnNormSq a col start stop)
    (isNonneg_columnNormSq β a col start stop) fun _ hsum => mirrors_value (hom_sqrt hsum).symm

end PagedMatrix

/-! ## Building reflections -/

theorem hom_unit : (#[1] : Array α).map hom = (#[1] : Array β) := by
  rw [List.map_toArray, List.map_singleton, hom_one]

/-- Entries that are collected one after the other. -/
theorem mirrors_pushes {lo hi : Nat} {v : Array α} {w : Array β} {read : Nat → Checked α}
    {read' : Nat → Checked β} (hw : w = v.map hom)
    (hread : ∀ i, Mirrors tight hom (read' i) (read i)) :
    Mirrors tight (Array.map hom)
      (ascend lo hi w fun i w => do return w.push (← read' i))
      (ascend lo hi v fun i v => do return v.push (← read i)) :=
  mirrors_ascend_from hw fun i _ => mirrors_bind (hread i) fun _ =>
    mirrors_value Array.map_push.symm

/-- As many entries are collected as there are positions. -/
theorem size_of_pushes {lo hi : Nat} {v : Array α} {read : Nat → Checked α} :
    ReturnsOnly (ascend lo hi v fun i v => do return v.push (← read i))
      fun w => w.size = v.size + (hi - lo) := by
  unfold ascend
  generalize hi - lo = count
  induction count generalizing lo v with
  | zero => exact returnsOnly_pure rfl
  | succ count ih =>
    refine returnsOnly_bind (P := fun w => w.size = v.size + 1) ?_ fun w hw => ?_
    · exact returnsOnly_then fun x => returnsOnly_pure (Array.size_push x)
    · exact returnsOnly_mono ih fun u hu => by omega

namespace Reflection

/-- The reflection with the images of the entries. -/
def image (h : Reflection α) : Reflection β :=
  { tau := hom h.tau, v := h.v.map hom, alpha := hom h.alpha, phi := hom h.phi }

theorem mirrors_trivial {length : Nat} (x0 : α)
    (hroom : PagedMatrix.HasRoom β tight (max length 1)) :
    Mirrors tight image (trivial length (hom x0 : β)) (trivial length x0) := by
  refine mirrors_bind (PagedMatrix.mirrors_allocate bytes_le hroom) fun _ => mirrors_value ?_
  simp [image, hom_zero, hom_one]

/-- The reflection for an image of a vector is the image of the reflection. -/
theorem mirrors_ofVector (x0 : α) {sigma : α} {tail : Array α} (hsigma : IsNonneg β sigma)
    (hroom : PagedMatrix.HasRoom β tight (tail.size + 1)) :
    Mirrors tight image (ofVector (hom x0 : β) (hom sigma) (tail.map hom))
      (ofVector x0 sigma tail) := by
  refine mirrors_ite (by rw [Array.size_map, beq_zero]) (fun _ => ?_) fun _ => mirrors_value ?_
  · rw [Array.size_map]
    exact mirrors_trivial x0 (by rwa [Nat.max_eq_left (Nat.le_add_left 1 _)])
  · -- of the operations on the way, only the root asks for more than that it is one
    have hnorm := hom_sqrt (isNonneg_radius (β := β) x0 hsigma)
    simp only [image, hom_quotient, hom_sub, hom_neg, hom_mul, hom_add, hom_absolute, hnorm,
      apply_ite hom, hom_one, beq_zero, Array.map_append, hom_unit, Array.map_map,
      Function.comp_def]

theorem mirrors_ofColumn (a : PagedMatrix α) (stop k : Nat)
    (hroom : PagedMatrix.HasRoom β tight (stop - (k + 1) + 1)) :
    Mirrors tight image (ofColumn (a.image : PagedMatrix β) stop k) (ofColumn a stop k) := by
  refine mirrors_bind_returns (a.mirrors_columnTailNormSq k k stop)
    (a.isNonneg_columnTailNormSq β k k stop) fun sigma hsigma => ?_
  refine mirrors_bind (a.mirrors_get k k) fun x0 => ?_
  refine mirrors_bind_returns (mirrors_pushes Array.map_empty.symm fun i => a.mirrors_get i k)
    size_of_pushes fun tail htail => mirrors_ofVector x0 hsigma ?_
  rwa [htail, Array.size_empty, Nat.zero_add]

end Reflection

/-! ## Applying reflections -/

namespace PagedMatrix

theorem mirrors_conjDotColumn (a : PagedMatrix α) (v : Array α) (row j : Nat) :
    Mirrors tight (hom : α → β) (a.image.conjDotColumn (v.map hom) row j)
      (a.conjDotColumn v row j) := by
  unfold conjDotColumn
  rw [Array.size_map]
  exact mirrors_ascend_from hom_zero.symm fun i sum => mirrors_bind (mirrors_readAt v i) fun x =>
    mirrors_bind (a.mirrors_get (row + i) j) fun y =>
      mirrors_value (by rw [hom_addMul, hom_conj])

theorem mirrors_reflectColumns (a : PagedMatrix α) (v : Array α) (tau : α) (row start stop : Nat) :
    Mirrors tight image
      (a.image.reflectColumns (v.map hom) (hom tau) row start stop : Checked (PagedMatrix β))
      (a.reflectColumns v tau row start stop) := by
  refine mirrors_ite (by rw [beq_zero]) (fun _ => mirrors_pure) fun _ => ?_
  refine mirrors_ascend fun j a => mirrors_bind (a.mirrors_conjDotColumn v row j) fun sum => ?_
  have hfactor : (hom tau * hom sum : β) = hom (tau * sum) := (hom_mul tau sum).symm
  refine mirrors_ite (by rw [hfactor, beq_zero]) (fun _ => mirrors_pure) fun _ => ?_
  rw [Array.size_map]
  exact mirrors_ascend fun i a => mirrors_bind (a.mirrors_get (row + i) j) fun old =>
    mirrors_bind (mirrors_readAt v i) fun x =>
      a.mirrors_set (row + i) j (by rw [hfactor, hom_sub, hom_mul x])

theorem mirrors_reflectLeft (a : PagedMatrix α) (v : Array α) (tau : α) (row col : Nat) :
    Mirrors tight image
      (a.image.reflectLeft (v.map hom) (hom tau) row col : Checked (PagedMatrix β))
      (a.reflectLeft v tau row col) :=
  a.mirrors_reflectColumns v tau row col a.cols

end PagedMatrix

namespace Qr

open PagedMatrix

/-! ## Factorisation -/

theorem mirrors_packColumn (a : PagedMatrix α) (k : Nat) (scale : α) (v : Array α) :
    Mirrors tight image (packColumn (a.image : PagedMatrix β) k (hom scale) (v.map hom))
      (packColumn a k scale v) := by
  unfold packColumn
  rw [Array.size_map]
  exact mirrors_ascend fun i a => mirrors_bind (mirrors_readAt v i) fun x =>
    a.mirrors_set (k + i) k (hom_mul scale x).symm

theorem mirrors_reduceAt (packing : Packing) {a b : PagedMatrix α} (hb : SameFrame a b) {k : Nat}
    (hk : k < min a.rows a.cols) (hroom : HasRoom β tight (a.rows * a.cols)) :
    Mirrors tight (Prod.map image Reflection.image) (reduceAt packing (b.image : PagedMatrix β) k)
      (reduceAt packing b k) := by
  -- column `k` is there, so a vector as long as a column fits where the matrix does
  have hcolumn : b.rows - (k + 1) + 1 ≤ a.rows * a.cols := by
    have hrows : b.rows = a.rows := congrArg Shape.rows hb.shape
    have hcols : 0 < a.cols := by omega
    exact Nat.le_trans (by omega) (Nat.le_mul_of_pos_right a.rows hcols)
  refine mirrors_bind (Reflection.mirrors_ofColumn b b.rows k (hroom.mono hcolumn)) fun h => ?_
  refine mirrors_bind (b.mirrors_set k k rfl) fun b => ?_
  refine mirrors_bind (g := image) ?_ fun b =>
    mirrors_bind (b.mirrors_reflectLeft h.v h.tau k (k + 1)) fun _ => mirrors_value rfl
  cases packing with
  | raw =>
    dsimp only
    rw [← hom_one (α := α)]
    exact mirrors_packColumn b k 1 h.v
  | compact => exact mirrors_packColumn b k h.tau h.v

variable (β) in
/-- A matrix under reduction with the factors and phases of its reflections, for images. -/
def imageReduced (s : PagedMatrix α × Array α × Array α) : PagedMatrix β × Array β × Array β :=
  (s.1.image, s.2.1.map hom, s.2.2.map hom)

/-- Packed factors of the images. -/
def imagePacked (f : PackedQr α) : PackedQr β :=
  { packed := f.packed.image, taus := f.taus.map hom, phis := f.phis.map hom }

/-- The packed factors of a matrix of images are the images of the packed factors. -/
theorem mirrors_factor (a : PagedMatrix α) (hroom : HasRoom β tight (a.rows * a.cols)) :
    Mirrors tight imagePacked (factor (a.image : PagedMatrix β)) (factor a) := by
  refine mirrors_bind (g := imageReduced β) ?_ fun f => mirrors_value ?_
  · refine mirrors_ascend_of (I := fun s => SameFrame a s.1) (s := (a, #[], #[]))
      (by simp [imageReduced]) (SameFrame.refl a) ?_ ?_
    · rintro k ⟨b, taus, phis⟩ hb
      exact returnsOnly_bind (sameFrame_reduceAt b .compact k) fun found hfound =>
        returnsOnly_pure (hb.trans hfound)
    · rintro k ⟨b, taus, phis⟩ hk hb
      refine mirrors_bind (mirrors_reduceAt .compact hb hk hroom) fun found => ?_
      exact mirrors_value (by simp [imageReduced, Reflection.image])
  · rw [imagePacked, image_refreshKind]
    rfl

theorem mirrors_unpackColumn (packed : PagedMatrix α) (k : Nat) (tau : α) :
    Mirrors tight (Array.map hom) (unpackColumn (packed.image : PagedMatrix β) k (hom tau))
      (unpackColumn packed k tau) := by
  refine mirrors_ascend_from hom_unit.symm fun i v => ?_
  refine mirrors_bind (packed.mirrors_get i k) fun x => mirrors_value ?_
  rw [Array.map_push, hom_quotient]

/-- The unitary factor of the images is the image of the unitary factor. -/
theorem mirrors_unitaryFactor (packed : PagedMatrix α) (taus : Array α)
    (hroom : HasRoom β tight (packed.rows * packed.rows)) :
    Mirrors tight image (unitaryFactor (packed.image : PagedMatrix β) (taus.map hom))
      (unitaryFactor packed taus) := by
  unfold unitaryFactor
  rw [Array.size_map]
  refine mirrors_bind (mirrors_identity α hroom) fun q => ?_
  refine mirrors_bind (g := image) ?_ fun q => mirrors_value q.image_refreshKind.symm
  refine mirrors_descend fun k q => mirrors_bind (mirrors_readAt taus k) fun tau => ?_
  refine mirrors_ite (by rw [beq_zero]) (fun _ => mirrors_pure) fun _ => ?_
  exact mirrors_bind (mirrors_unpackColumn packed k tau) fun v => q.mirrors_reflectLeft v tau k k

/-! ## Column pivoting -/

/-- Packed factors of the images, with the same order of the columns. -/
def imagePivoted (f : PackedPivotedQr α) : PackedPivotedQr β :=
  { packed := f.packed.image, taus := f.taus.map hom, phis := f.phis.map hom, order := f.order }

theorem mirrors_restNorm (a : PagedMatrix α) (j start : Nat) :
    Mirrors tight id (restNorm (a.image : PagedMatrix β) j start) (restNorm a j start) :=
  mirrors_bind (a.mirrors_columnNorm j start a.rows) fun norm =>
    mirrors_value (rePart_hom norm)

/-- Images have the norms of their entries. -/
theorem mirrors_allNorms (a : PagedMatrix α) :
    Mirrors tight id (allNorms (a.image : PagedMatrix β)) (allNorms a) := by
  refine mirrors_bind (g := id) ?_ fun norms => mirrors_pure
  exact mirrors_ascend fun j norms => mirrors_bind (mirrors_restNorm a j 0) fun _ => mirrors_pure

theorem mirrors_downdateNorms (pivoting : ColumnPivoting) (a : PagedMatrix α) (k : Nat)
    (table : NormTable ρ) :
    Mirrors tight id (downdateNorms pivoting (a.image : PagedMatrix β) k table)
      (downdateNorms pivoting a k table) := by
  refine mirrors_ascend fun j table => mirrors_bind mirrors_same fun norm => ?_
  refine mirrors_ite Iff.rfl (fun _ => mirrors_pure) fun _ => ?_
  refine mirrors_bind mirrors_same fun reference => mirrors_bind (a.mirrors_get k j) fun x => ?_
  simp only [modulus_hom, id_eq]
  -- the estimate is judged by magnitudes alone, so both sides judge it alike
  cases pivoting.downdate (Scalar.modulus x) norm reference with
  | some left => exact mirrors_same
  | none => exact mirrors_bind (mirrors_restNorm a j (k + 1)) fun _ => mirrors_same

/-- The same column is brought forward. -/
theorem mirrors_bringForward (a : PagedMatrix α) (order : Array Nat) (table : NormTable ρ)
    (k : Nat) :
    Mirrors tight (Prod.map image id) (bringForward (a.image : PagedMatrix β) order table k)
      (bringForward a order table k) := by
  refine mirrors_bind mirrors_same fun p => ?_
  refine mirrors_ite Iff.rfl (fun _ => mirrors_value rfl) fun _ => ?_
  refine mirrors_bind (a.mirrors_swapCols k p) fun a => mirrors_bind mirrors_same fun order => ?_
  exact mirrors_bind mirrors_same fun norms => mirrors_bind mirrors_same fun references =>
    mirrors_value rfl

variable (β) in
/-- What a pivoted factorisation has reached, for images. -/
def imageSwept (s : PagedMatrix α × Array α × Array α × Array Nat × NormTable ρ) :
    PagedMatrix β × Array β × Array β × Array Nat × NormTable ρ :=
  (s.1.image, s.2.1.map hom, s.2.2.1.map hom, s.2.2.2)

theorem mirrors_pivotedSweep (pivoting : ColumnPivoting) (a : PagedMatrix α)
    (hroom : HasRoom β tight (a.rows * a.cols)) :
    Mirrors tight (Prod.map imagePivoted id) (pivotedSweep pivoting (a.image : PagedMatrix β))
      (pivotedSweep pivoting a) := by
  refine mirrors_bind mirrors_same fun _ => mirrors_bind (mirrors_allNorms a) fun table => ?_
  refine mirrors_bind (g := imageSwept β) ?_ fun f => mirrors_value ?_
  · refine mirrors_ascend_of (I := fun s => SameFrame a s.1)
      (s := (a, #[], #[], Array.range a.cols, table)) (by simp [imageSwept, image])
      (SameFrame.refl a) ?_ ?_
    · rintro k ⟨b, taus, phis, order, table⟩ hb
      refine returnsOnly_bind (sameFrame_bringForward b order table k) fun found hfound => ?_
      obtain ⟨c, order, table⟩ := found
      refine returnsOnly_bind (sameFrame_reduceAt c pivoting.packing k) fun reduced hreduced => ?_
      exact returnsOnly_then fun _ => returnsOnly_pure ((hb.trans hfound).trans hreduced)
    · rintro k ⟨b, taus, phis, order, table⟩ hk hb
      refine mirrors_bind_returns (mirrors_bringForward b order table k)
        (sameFrame_bringForward b order table k) fun found hfound => ?_
      obtain ⟨c, order, table⟩ := found
      refine mirrors_bind (mirrors_reduceAt pivoting.packing (hb.trans hfound) hk hroom)
        fun reduced => ?_
      refine mirrors_bind (mirrors_downdateNorms pivoting reduced.1 k table) fun table => ?_
      exact mirrors_value (by simp [imageSwept, Reflection.image])
  · obtain ⟨b, taus, phis, order, table⟩ := f
    simp only [Prod.map, imagePivoted, image_refreshKind, id_eq]

/-- The pivoted factors of a matrix of images are the images of the pivoted factors. The columns
come in the same order, and the same norms are computed afresh. -/
theorem mirrors_factorPivoted (pivoting : ColumnPivoting) (a : PagedMatrix α)
    (hroom : HasRoom β tight (a.rows * a.cols)) :
    Mirrors tight imagePivoted (factorPivoted pivoting (a.image : PagedMatrix β))
      (factorPivoted pivoting a) :=
  mirrors_bind (mirrors_checked (mirrors_pivotedSweep pivoting a hroom)) fun _ =>
    mirrors_bind mirrors_ambience fun _ => mirrors_pure

end Qr

end DenseLinear
