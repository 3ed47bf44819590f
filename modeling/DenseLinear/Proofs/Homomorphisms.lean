import DenseLinear.Multiply.Matrix
import DenseLinear.PagedMatrix.Edit
import DenseLinear.Proofs.Mirroring
import DenseLinear.Reflection.Apply
import DenseLinear.Segment
import DenseLinear.Triangle

/-!
# Homomorphisms of scalars

A homomorphism takes entries of one type to entries of another so that every operation of `Scalar`
agrees with it, and every comparison and measurement answers the same (`ScalarHom`). Square roots
need agree only where kernels take them: of entries that are sums of squares.

A kernel cannot tell the images of entries from the entries: it mirrors itself (`Mirrors`) on the
images of its operands. So every decision that depends on entries, such as the choice of a pivot, is
made in the same way on both sides. The images may need more space; where a kernel sets up a buffer
of its own, there must be room for it (`HasRoom`).
-/

namespace DenseLinear

/-- A homomorphism from the entries in `α` to the entries in `β`, both measured in `ρ`. -/
class ScalarHom (α β : Type) {ρ : outParam Type} [RealArith ρ] [Scalar α ρ] [Scalar β ρ] where
  /-- The image of an entry. -/
  hom : α → β
  hom_zero : hom 0 = 0
  hom_one : hom 1 = 1
  hom_add (x y : α) : hom (x + y) = hom x + hom y
  hom_sub (x y : α) : hom (x - y) = hom x - hom y
  hom_mul (x y : α) : hom (x * y) = hom x * hom y
  hom_neg (x : α) : hom (-x) = -hom x
  beq_hom (x y : α) : (hom x == hom y) = (x == y)
  hom_conj (x : α) : hom (Scalar.conj x) = Scalar.conj (hom x)
  hom_absolute (x : α) : hom (Scalar.absolute x) = Scalar.absolute (hom x)
  hom_quotient (x y : α) : hom (Scalar.quotient x y) = Scalar.quotient (hom x) (hom y)
  hom_ofReal (r : ρ) : hom (Scalar.ofReal r) = Scalar.ofReal r
  normSq_hom (x : α) : Scalar.normSq (hom x) = Scalar.normSq x
  modulus_hom (x : α) : Scalar.modulus (hom x) = Scalar.modulus x
  rePart_hom (x : α) : Scalar.rePart (hom x) = Scalar.rePart x
  isReal_hom (x : α) : Scalar.isReal (hom x) = Scalar.isReal x
  /-- What a sum of squares is known to be. -/
  IsNonneg : α → Prop
  isNonneg_zero : IsNonneg 0
  isNonneg_addNormSq {acc : α} (x : α) : IsNonneg acc → IsNonneg (PagedMatrix.addNormSq acc x)
  isNonneg_radius {sigma : α} (x : α) : IsNonneg sigma →
    IsNonneg (Scalar.absolute x * Scalar.absolute x + sigma)
  isNonneg_ofReal_zero : IsNonneg (Scalar.ofReal (-0 : ρ))
  isNonneg_ofReal_add {r : ρ} (x : α) : IsNonneg (Scalar.ofReal r) →
    IsNonneg (Scalar.ofReal (r + Scalar.normSq x))
  hom_sqrt {x : α} : IsNonneg x → hom (Scalar.sqrt x) = Scalar.sqrt (hom x)
  /-- An image needs at least the space of its entry. -/
  bytes_le : Scalar.bytes α ≤ Scalar.bytes β

export ScalarHom (hom)

namespace ScalarHom

variable {α β ρ : Type} [RealArith ρ] [Scalar α ρ] [Scalar β ρ] [ScalarHom α β]

theorem beq_zero (x : α) : (hom x == (0 : β)) = (x == 0) := by
  rw [← hom_zero (α := α), beq_hom]

theorem beq_one (x : α) : (hom x == (1 : β)) = (x == 1) := by
  rw [← hom_one (α := α), beq_hom]

theorem hom_addMul (acc x y : α) :
    (hom (Scalar.addMul acc x y) : β) = Scalar.addMul (hom acc) (hom x) (hom y) := by
  unfold Scalar.addMul
  rw [hom_add, hom_mul]

theorem hom_rescale (beta x : α) :
    (hom (Scalar.rescale beta x) : β) = Scalar.rescale (hom beta) (hom x) := by
  unfold Scalar.rescale
  rw [beq_zero, beq_one]
  split
  · exact hom_zero
  · split
    · rfl
    · exact hom_mul beta x

theorem isNull_hom (x : α) : Scalar.isNull (hom x : β) = Scalar.isNull x := by
  unfold Scalar.isNull
  rw [modulus_hom]

theorem isBit_hom (x : α) : Scalar.isBit (hom x : β) = Scalar.isBit x := by
  unfold Scalar.isBit
  rw [rePart_hom]

theorem hom_addNormSq (acc x : α) :
    (hom (PagedMatrix.addNormSq acc x) : β) = PagedMatrix.addNormSq (hom acc) (hom x) := by
  unfold PagedMatrix.addNormSq
  rw [hom_addMul, hom_conj]

end ScalarHom

namespace PagedMatrix

open ScalarHom

section Images

variable {α β ρ : Type} [RealArith ρ] [Scalar α ρ] [Scalar β ρ] [ScalarHom α β]

/-- The matrix of the images of the entries. -/
def image (a : PagedMatrix α) : PagedMatrix β :=
  { shape := a.shape, data := a.data.map hom, kind := a.kind }

/-- Where a kernel stopped, its target is made of images. -/
instance : Reported (Interrupted (PagedMatrix α)) (Interrupted (PagedMatrix β)) :=
  ⟨fun stop => ⟨stop.target.image, stop.refusal⟩⟩

variable (β) in
/-- There is room for so many images, unless memory may be too tight for them. -/
def HasRoom (tight : Prop) (count : Nat) : Prop :=
  ¬ tight → Scalar.bytes β * count ≤ capacityLimit

omit [RealArith ρ] in
theorem HasRoom.mono {tight : Prop} {count count' : Nat} (h : HasRoom β tight count')
    (hle : count ≤ count') : HasRoom β tight count :=
  fun htight => Nat.le_trans (Nat.mul_le_mul_left _ hle) (h htight)

variable {tight : Prop} (a b : PagedMatrix α)

/-- The kind of the images is that of the entries. -/
theorem image_refreshKind : (a.refreshKind.image : PagedMatrix β) = a.image.refreshKind := by
  unfold refreshKind image kindOf
  have hreal : ((a.data.map hom).any fun x : β => !Scalar.isReal x) =
      a.data.any fun x => !Scalar.isReal x := by
    rw [Array.any_map]
    exact congrArg a.data.any (funext fun x => congrArg not (isReal_hom x))
  have hbit : (a.data.map hom).all (Scalar.isBit : β → Bool) = a.data.all Scalar.isBit := by
    rw [Array.all_map]
    exact congrArg a.data.all (funext fun x => isBit_hom x)
  rw [hreal, hbit]

/-! ## Cells -/

theorem mirrors_readAt (v : Array α) (i : Nat) :
    Mirrors tight (hom : α → β) (readAt (v.map hom) i) (readAt v i) := by
  refine .inl ?_
  unfold readAt
  by_cases h : i < v.size
  · rw [dif_pos h, dif_pos (by simpa using h)]
    simp [Except.map]
  · rw [dif_neg h, dif_neg (by simpa using h)]
    rfl

theorem mirrors_get (r c : Nat) :
    Mirrors tight (hom : α → β) (a.image.get r c) (a.get r c) :=
  mirrors_readAt a.data _

theorem mirrors_set (r c : Nat) {x : α} {y : β} (hx : y = hom x) :
    Mirrors tight image (a.image.set r c y) (a.set r c x) := by
  refine .inl ?_
  subst hx
  unfold set
  by_cases h : r * a.cols + c < a.data.size
  · rw [dif_pos h, dif_pos (by simpa [image] using h)]
    simp [Except.map, image, Array.map_set]
  · rw [dif_neg h, dif_neg (by simpa [image] using h)]
    rfl

theorem mirrors_swapCells (r c s d : Nat) :
    Mirrors tight image (a.image.swapCells r c s d : Checked (PagedMatrix β))
      (a.swapCells r c s d) := by
  refine .inl ?_
  unfold swapCells
  by_cases h : r * a.cols + c < a.data.size ∧ s * a.cols + d < a.data.size
  · rw [dif_pos h, dif_pos (by simpa [image] using h)]
    simp [Except.map, image, Array.swap_def, Array.map_set]
  · rw [dif_neg h, dif_neg (by simpa [image] using h)]
    rfl

theorem mirrors_checkRow (r : Nat) :
    Mirrors tight id ((a.image : PagedMatrix β).checkRow r) (a.checkRow r) := by
  unfold checkRow
  rw [image, Array.size_map]
  exact mirrors_same

theorem mirrors_checkRowWindow (r start stop : Nat) :
    Mirrors tight id ((a.image : PagedMatrix β).checkRowWindow r start stop)
      (a.checkRowWindow r start stop) :=
  mirrors_bind (a.mirrors_checkRow r) fun _ => mirrors_same

/-! ## New matrices -/

omit [RealArith ρ] [ScalarHom α β] [Scalar α ρ] in
theorem mirrors_allocate {bytes count : Nat} (hbytes : bytes ≤ Scalar.bytes β)
    (hroom : HasRoom β tight count) :
    Mirrors tight id (allocate (Scalar.bytes β) count) (allocate bytes count) := by
  unfold allocate
  by_cases h : Scalar.bytes β * count ≤ capacityLimit
  · rw [if_pos h, if_pos (Nat.le_trans (Nat.mul_le_mul_right _ hbytes) h)]
    exact .inl rfl
  · rw [if_neg h]
    exact .inr ⟨Classical.not_not.1 fun htight => h (hroom htight), rfl⟩

variable (α) in
theorem mirrors_zeros {rows cols : Nat} (hroom : HasRoom β tight (rows * cols)) :
    Mirrors tight image (zeros rows cols : Checked (PagedMatrix β))
      (zeros rows cols : Checked (PagedMatrix α)) := by
  refine mirrors_bind_returns mirrors_same (fun _ h => Shape.cellCount_eq_ok h)
    fun count hcount => ?_
  have hsize : count = rows * cols := by simpa [Shape.size, Shape.dims] using hcount
  refine mirrors_bind (mirrors_allocate (bytes_le (α := α)) (hsize ▸ hroom)) fun _ => ?_
  refine mirrors_value ?_
  simp [image, hom_zero]

variable (α) in
theorem mirrors_identity {n : Nat} (hroom : HasRoom β tight (n * n)) :
    Mirrors tight image (identity n : Checked (PagedMatrix β))
      (identity n : Checked (PagedMatrix α)) :=
  mirrors_bind (mirrors_zeros α hroom) fun _ => mirrors_ascend fun i b =>
    b.mirrors_set i i hom_one.symm

/-! ## Rows, columns and blocks -/

theorem mirrors_swapRowsWithin (r s start stop : Nat) :
    Mirrors tight image (a.image.swapRowsWithin r s start stop : Checked (PagedMatrix β))
      (a.swapRowsWithin r s start stop) :=
  mirrors_ite Iff.rfl (fun _ => mirrors_pure)
    fun _ => mirrors_ascend fun j b => b.mirrors_swapCells r j s j

theorem mirrors_swapRows (r s : Nat) :
    Mirrors tight image (a.image.swapRows r s : Checked (PagedMatrix β)) (a.swapRows r s) :=
  a.mirrors_swapRowsWithin r s 0 a.cols

theorem mirrors_swapCols (c d : Nat) :
    Mirrors tight image (a.image.swapCols c d : Checked (PagedMatrix β)) (a.swapCols c d) :=
  mirrors_ite Iff.rfl (fun _ => mirrors_pure) fun _ =>
    mirrors_bind mirrors_same fun _ => mirrors_ascend fun r b => b.mirrors_swapCells r c r d

theorem mirrors_block {r0 r1 c0 c1 : Nat} (hroom : HasRoom β tight ((r1 - r0) * (c1 - c0))) :
    Mirrors tight image (a.image.block r0 r1 c0 c1 : Checked (PagedMatrix β))
      (a.block r0 r1 c0 c1) := by
  have hsub (x y : Nat) : ReturnsOnly (Size.sub x y) fun d => d = x - y :=
    fun _ h => (Size.sub_eq_ok_iff.1 h).1
  refine mirrors_bind_returns mirrors_same (hsub r1 r0) fun height hheight => ?_
  refine mirrors_bind_returns mirrors_same (hsub c1 c0) fun width hwidth => ?_
  subst hheight hwidth
  refine mirrors_bind (mirrors_zeros α hroom) fun out => ?_
  refine mirrors_bind (g := image) ?_ fun out => mirrors_value rfl
  exact mirrors_ascend fun i _ => mirrors_bind (a.mirrors_checkRowWindow i c0 c1) fun _ =>
    mirrors_ascend fun j out => mirrors_bind (a.mirrors_get i (c0 + j)) fun _ =>
      out.mirrors_set (i - r0) j rfl

theorem mirrors_setBlock (r0 c0 : Nat) (part : PagedMatrix α) :
    Mirrors tight image (a.image.setBlock r0 c0 part.image : Checked (PagedMatrix β))
      (a.setBlock r0 c0 part) :=
  mirrors_bind mirrors_same fun _ => mirrors_ascend fun i b =>
    mirrors_bind mirrors_same fun r => mirrors_bind mirrors_same fun stop =>
      mirrors_bind (b.mirrors_checkRowWindow r c0 stop) fun _ =>
        mirrors_bind (part.mirrors_checkRow i) fun _ => mirrors_ascend fun j b =>
          mirrors_bind (part.mirrors_get i j) fun _ => b.mirrors_set r (c0 + j) rfl

/-! ## Products -/

theorem mirrors_dotRowColumn (k i j : Nat) :
    Mirrors tight (hom : α → β) (dotRowColumn a.image b.image k i j) (dotRowColumn a b k i j) :=
  mirrors_ascend_from hom_zero.symm fun l sum => mirrors_bind (a.mirrors_get i l) fun x =>
    mirrors_bind (b.mirrors_get l j) fun y => mirrors_value (hom_addMul sum x y).symm

theorem mirrors_addTile (r : PagedMatrix α) (rows cols inner : Span) :
    Mirrors tight image (addTile a.image b.image r.image rows cols inner : Checked (PagedMatrix β))
      (addTile a b r rows cols inner) :=
  mirrors_ascend fun i _ => mirrors_ascend fun l r => mirrors_bind (a.mirrors_get i l) fun x =>
    mirrors_bind (b.mirrors_checkRowWindow l cols.start cols.stop) fun _ =>
      mirrors_bind (r.mirrors_checkRowWindow i cols.start cols.stop) fun _ =>
        mirrors_ascend fun j r => mirrors_bind (r.mirrors_get i j) fun old =>
          mirrors_bind (b.mirrors_get l j) fun y => r.mirrors_set i j (hom_addMul old x y).symm

theorem mirrors_addDirectProduct (alpha : α) (m k n : Nat) (c : PagedMatrix α) :
    Mirrors tight image
      (addDirectProduct (hom alpha) a.image b.image m k n c.image : Checked (PagedMatrix β))
      (addDirectProduct alpha a b m k n c) :=
  mirrors_ascend fun i _ => mirrors_ascend fun j c =>
    mirrors_bind (mirrors_dotRowColumn a b k i j) fun sum => mirrors_bind (c.mirrors_get i j)
      fun old => c.mirrors_set i j (hom_addMul old alpha sum).symm

theorem mirrors_addTiles (m k n width : Nat) (r : PagedMatrix α) :
    Mirrors tight image (addTiles a.image b.image m k n width r.image : Checked (PagedMatrix β))
      (addTiles a b m k n width r) :=
  mirrors_strides fun _ _ => mirrors_bind mirrors_same fun rows =>
    mirrors_strides fun _ _ => mirrors_bind mirrors_same fun inner =>
      mirrors_strides fun _ r => mirrors_bind mirrors_same fun cols =>
        mirrors_addTile a b r rows cols inner

theorem mirrors_addTiledProduct (alpha : α) {m n : Nat} (k width : Nat) (c : PagedMatrix α)
    (hroom : HasRoom β tight (m * n)) :
    Mirrors tight image
      (addTiledProduct (hom alpha) a.image b.image m k n width c.image : Checked (PagedMatrix β))
      (addTiledProduct alpha a b m k n width c) := by
  refine mirrors_ite (by rw [beq_one]) (fun _ => mirrors_addTiles a b m k n width c) fun _ => ?_
  refine mirrors_bind (mirrors_zeros α hroom) fun r => ?_
  refine mirrors_bind (mirrors_addTiles a b m k n width r) fun r => mirrors_value ?_
  -- the tiles have been collected in images, and each entry takes the image of its sum
  refine congrArg (PagedMatrix.mk _ · _) (Array.ext (by simp [image]) fun i _ _ => ?_)
  simp only [image, Array.getElem_mapIdx, Array.getElem_map, Array.getElem?_map]
  cases r.data[i]? with
  | none => rfl
  | some product => exact (hom_addMul _ alpha product).symm

/-- The images of rescaled entries. -/
theorem image_rescale (beta : α) (c : PagedMatrix α) :
    ((c.rescale beta).image : PagedMatrix β) = c.image.rescale (hom beta) := by
  unfold rescale image
  rw [Array.map_map, Array.map_map]
  exact congrArg (PagedMatrix.mk _ · _) (congrArg (Array.map · _) (funext (hom_rescale beta)))

theorem mirrors_addProduct (alpha : α) {m n : Nat} (k : Nat) (c : PagedMatrix α)
    (blocking : Blocking) (hroom : HasRoom β tight (m * n)) :
    Mirrors tight image
      (addProduct (hom alpha) a.image b.image m k n c.image blocking : Ambience (PagedMatrix β))
      (addProduct alpha a b m k n c blocking) :=
  mirrors_ite Iff.rfl
    (fun _ => mirrors_bind mirrors_ambience fun _ =>
      mirrors_checked (mirrors_addDirectProduct a b alpha m k n c))
    fun _ => mirrors_bind mirrors_ambience fun _ =>
      mirrors_checked (mirrors_addTiledProduct a b alpha k blocking.edge c hroom)

/-- An update by a matrix product is refused for the images where it is for the entries, and leaves
the image of what it leaves of them. -/
theorem mirrors_multiplyAdd (alpha : α) {m n : Nat} (k : Nat) (beta : α) (c : PagedMatrix α)
    (choice : BlockingChoice) (hroom : HasRoom β tight (m * n)) :
    Mirrors tight image
      (multiplyAdd (hom alpha) a.image m k b.image n (hom beta) c.image choice :
        ExceptT (Interrupted (PagedMatrix β)) Ambience (PagedMatrix β))
      (multiplyAdd alpha a m k b n beta c choice) := by
  refine mirrors_bind (g := id) ?_ fun blocking => ?_
  · exact mirrors_adapt (fun _ => rfl) mirrors_refusable
  · rw [← image_rescale, beq_zero]
    refine mirrors_ite Iff.rfl (fun _ => mirrors_value (image_refreshKind _).symm) fun _ => ?_
    exact mirrors_bind (mirrors_unrefused (mirrors_addProduct a b alpha k _ blocking hroom))
      fun d => mirrors_value d.image_refreshKind.symm

end Images

end PagedMatrix

end DenseLinear
