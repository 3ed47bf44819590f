import DenseLinear.Proofs.FloatingPoint
import DenseLinear.Proofs.BlockedElimination
import DenseLinear.Scalar.Cartesian

/-!
# Agreement of the two updates

The two factorisations leave the same matrix and report the same interchanges and the same outcome if
they work in blocks of the same edge length and the scalars subtract by products: `c + (-1) * s` is
`c - s`. No other law of arithmetic is used, so this is the case for floating point numbers.

Both go through the same stages (`blockRun`), for both updates take the same sum of products off each
entry (`updatesBy_sub_of_product`). One of them looks for a zero on the finished diagonal. The other
one has noted the first column without a pivot, and that is the same column, for a diagonal entry is
never changed after its column was eliminated (`firstNull_blockRun`).
-/

namespace DenseLinear

/-- Scalars in which `==` tells one from zero. -/
class LawfulOne (α : Type) {ρ : outParam Type} [Scalar α ρ] : Prop where
  /-- One is one. -/
  one_beq_one : ((1 : α) == 1) = true
  /-- One is not zero. -/
  one_beq_zero : ((1 : α) == 0) = false

/-- Scalars in which adding the product with minus one takes a number off, where `==` tells minus one
from one and from zero. -/
class SubtractsByProduct (α : Type) {ρ : outParam Type} [Scalar α ρ] : Prop where
  /-- The sum with the product of minus one is the difference. -/
  add_neg_one_mul (c s : α) : c + (-1) * s = c - s
  /-- Minus one is not one. -/
  neg_one_beq_one : ((-1 : α) == 1) = false
  /-- Minus one is not zero. -/
  neg_one_beq_zero : ((-1 : α) == 0) = false

instance : LawfulOne Float := ⟨by decide, by decide⟩

instance : LawfulOne Float32 := ⟨by decide, by decide⟩

instance : LawfulOne (Cartesian Float) := ⟨by decide, by decide⟩

instance : LawfulOne (Cartesian Float32) := ⟨by decide, by decide⟩

instance : SubtractsByProduct Float :=
  ⟨FloatingPoint.double_add_neg_one_mul, by decide, by decide⟩

instance : SubtractsByProduct Float32 :=
  ⟨FloatingPoint.single_add_neg_one_mul, by decide, by decide⟩

namespace Lu

open PagedMatrix

variable {α ρ : Type} [Scalar α ρ]

theorem rescale_one [LawfulOne α] (x : α) : Scalar.rescale 1 x = x := by
  simp [Scalar.rescale, LawfulOne.one_beq_one, LawfulOne.one_beq_zero]

/-- Where minus one is not one, all blocking parameters form the sum of products first. -/
theorem updatesBy_of_neg_one [RealArith ρ] (hone : ((-1 : α) == 1) = false)
    (hzero : ((-1 : α) == 0) = false) :
    UpdatesBy fun x s : α => Scalar.addMul (Scalar.rescale 1 x) (-1) s := by
  intro A B C m k n blocking i j hm hk hn
  have hpos : ¬(((-1 : α) == 0) || m = 0 || n = 0 || k = 0) = true := by
    simp only [hzero, Bool.false_or, Bool.or_eq_true, decide_eq_true_eq, not_or]
    omega
  unfold updatedCells addedCells
  rw [if_neg hpos, if_neg (by simp [hone])]
  simp only [withSums]

/-- An update by a product takes the sum of products off each entry. -/
theorem updatesBy_sub_of_product [RealArith ρ] [LawfulOne α] [SubtractsByProduct α] :
    UpdatesBy fun x s : α => x - s := by
  have htaken : (fun x s : α => Scalar.addMul (Scalar.rescale 1 x) (-1) s) = fun x s => x - s := by
    funext x s
    rw [rescale_one, Scalar.addMul, SubtractsByProduct.add_neg_one_mul]
  rw [← htaken]
  exact updatesBy_of_neg_one SubtractsByProduct.neg_one_beq_one SubtractsByProduct.neg_one_beq_zero

/-! ## The diagonal -/

section Diagonal

variable [RealArith ρ] {T : α → α → α} {m n k width : Nat}

/-- Forward substitution and the trailing update leave the diagonal of the columns up to the end of
the panel alone. -/
theorem diagonal_blockStep (s : Stage α) {i : Nat} (hi : i < k + width) :
    (blockStep T m n k width s).cells i i = (s.run m (k + width) k width).cells i i := by
  rw [blockStep_eq]
  dsimp only
  split
  · unfold trailing overwrite forwardSolved
    rw [if_neg (by omega), if_neg (by omega)]
  · rfl

/-- What is noted on the way through a block is what the diagonal shows after it. -/
theorem firstNull_blockStep {s : Stage α}
    (hs : s.status.firstNull = (List.range k).find? fun i => Scalar.isNull (s.cells i i)) :
    (blockStep T m n k width s).status.firstNull = (List.range (k + width)).find? fun i =>
      Scalar.isNull ((blockStep T m n k width s).cells i i) := by
  have hstatus : (blockStep T m n k width s).status = (s.run m (k + width) k width).status := by
    rw [blockStep_eq]
  rw [hstatus, Stage.firstNull_run_from m (k + width) k hs]
  refine List.find?_congr fun i hi => ?_
  rw [diagonal_blockStep s (List.mem_range.1 hi)]

end Diagonal

/-! ## All blocks -/

/-- The first column of block `j` of a factorisation with `steps` columns. After the last block this
is the number of columns. -/
def blockStart (steps edge j : Nat) : Nat := min (j * edge) steps

/-- A block ends where the next one begins. -/
theorem blockStart_succ (steps edge j : Nat) :
    blockStart steps edge (j + 1) =
      blockStart steps edge j + min edge (steps - blockStart steps edge j) := by
  unfold blockStart
  rw [Nat.succ_mul]
  omega

/-- The number of blocks that begin before column `k`. -/
def blocksBefore (edge k : Nat) : Nat := (k + (edge - 1)) / edge

theorem blocksBefore_eq {edge j k : Nat} (hlt : j * edge < k + edge) (hle : k ≤ j * edge) :
    blocksBefore edge k = j := by
  unfold blocksBefore
  refine Nat.div_eq_of_lt_le (by omega) ?_
  rw [Nat.succ_mul]
  omega

/-- After all blocks that begin before the last column there is no column left. -/
theorem blockStart_blocksBefore {edge : Nat} (hpos : 1 ≤ edge) (steps : Nat) :
    blockStart steps edge (blocksBefore edge steps) = steps := by
  have hdiv := Nat.div_add_mod (steps + (edge - 1)) edge
  have hmod := Nat.mod_lt (steps + (edge - 1)) hpos
  unfold blockStart blocksBefore
  rw [Nat.mul_comm]
  omega

section Blocks

variable [RealArith ρ] {T : α → α → α} {m n edge : Nat}

/-- The stage after `count` blocks. -/
def blockRun (T : α → α → α) (m n edge : Nat) (s : Stage α) : Nat → Stage α
  | 0 => s
  | j + 1 =>
    let k := blockStart (min m n) edge j
    blockStep T m n k (min edge (min m n - k)) (blockRun T m n edge s j)

theorem size_pivots_blockStep (k width : Nat) (s : Stage α) :
    (blockStep T m n k width s).pivots.size = s.pivots.size := by
  rw [blockStep_eq]
  exact Stage.size_pivots_run _ _ _ _ _

theorem swaps_blockStep_le (k width : Nat) (s : Stage α) :
    (blockStep T m n k width s).status.swaps ≤ s.status.swaps + width := by
  rw [blockStep_eq]
  exact Stage.swaps_run_le _ _ _ _ _

variable (T m n edge) (s : Stage α)

theorem size_pivots_blockRun (count : Nat) :
    (blockRun T m n edge s count).pivots.size = s.pivots.size := by
  induction count with
  | zero => rfl
  | succ count ih => rw [blockRun, size_pivots_blockStep, ih]

theorem swaps_blockRun_le (count : Nat) :
    (blockRun T m n edge s count).status.swaps ≤
      s.status.swaps + blockStart (min m n) edge count := by
  induction count with
  | zero => exact Nat.le_add_right _ _
  | succ count ih =>
    rw [blockRun, blockStart_succ]
    exact (swaps_blockStep_le _ _ _).trans (by omega)

/-- After every block, the first column without a pivot that was noted on the way is the first zero
on the diagonal so far. -/
theorem firstNull_blockRun (hs : s.status.firstNull = none) (count : Nat) :
    (blockRun T m n edge s count).status.firstNull =
      (List.range (blockStart (min m n) edge count)).find? fun i =>
        Scalar.isNull ((blockRun T m n edge s count).cells i i) := by
  induction count with
  | zero =>
    have hzero : blockStart (min m n) edge 0 = 0 := by simp [blockStart]
    rw [hzero]
    exact hs
  | succ count ih =>
    rw [blockStart_succ]
    exact firstNull_blockStep ih

variable {T edge}

/-- The blocks of a factorisation go through the stages of `blockRun`, whatever the scalars are. -/
theorem blocks_blockRun (shape : Shape) (height : Nat) (f : Nat → Nat → α) (hpos : 1 ≤ edge) :
    Blocks T shape height edge f fun k =>
      blockRun T shape.rows shape.cols edge (Stage.initial shape.rows shape.cols f)
        (blocksBefore edge k) where
  start := by
    have hzero : blocksBefore edge 0 = 0 := blocksBefore_eq (by omega) (by omega)
    rw [hzero]
    exact ⟨fun _ _ _ _ => rfl, rfl, rfl⟩
  block := by
    rintro k hk ⟨j, rfl⟩
    rw [Nat.mul_comm edge j] at hk ⊢
    have hsucc : (j + 1) * edge = j * edge + edge := Nat.succ_mul j edge
    have hbefore : blocksBefore edge (j * edge) = j := blocksBefore_eq (by omega) (Nat.le_refl _)
    have hnext : blocksBefore edge (min (j * edge + edge) (min shape.rows shape.cols)) = j + 1 :=
      blocksBefore_eq (by omega) (by omega)
    have hstart : blockStart (min shape.rows shape.cols) edge j = j * edge :=
      Nat.min_eq_left (by omega)
    rw [hbefore, hnext, blockRun, hstart]
    exact ⟨fun _ _ _ _ => rfl, rfl, rfl⟩
  size_pivots k := by
    rw [size_pivots_blockRun]
    exact Array.size_replicate
  swaps_le := by
    rintro k ⟨j, rfl⟩
    have hbefore : blocksBefore edge (edge * j) = j :=
      blocksBefore_eq (by rw [Nat.mul_comm]; omega) (Nat.mul_comm _ _).le
    have hstart : blockStart (min shape.rows shape.cols) edge j ≤ j * edge := Nat.min_le_left _ _
    rw [hbefore, Nat.mul_comm]
    exact (swaps_blockRun_le _ _ _ _ _ j).trans (by simpa [Stage.initial] using hstart)

/-- The stage after all blocks of a factorisation. -/
def blockedStage (T : α → α → α) (shape : Shape) (edge : Nat) (f : Nat → Nat → α) : Stage α :=
  blockRun T shape.rows shape.cols edge (Stage.initial shape.rows shape.cols f)
    (blocksBefore edge (min shape.rows shape.cols))

/-- The outcome that was noted on the way is the one that the diagonal shows at the end. -/
theorem firstNull_blockedStage (shape : Shape) (f : Nat → Nat → α) (hpos : 1 ≤ edge) :
    (blockedStage T shape edge f).status.firstNull =
      (List.range (min shape.rows shape.cols)).find? fun i =>
        Scalar.isNull ((blockedStage T shape edge f).cells i i) := by
  have h := firstNull_blockRun T shape.rows shape.cols edge
    (Stage.initial shape.rows shape.cols f) rfl (blocksBefore edge (min shape.rows shape.cols))
  rwa [blockStart_blocksBefore hpos] at h

end Blocks

/-! ## Factorisations -/

section Factorisations

variable [RealArith ρ] [LawfulOne α] [SubtractsByProduct α] {shape : Shape} (kind : NumericKind)
  {height edge : Nat} {f : Nat → Nat → α} {choice : BlockingChoice}

theorem valid_of_edge (hpos : 1 ≤ edge) (hlimit : edge < Size.limit)
    (hchoice : choice.edge = some edge) : choice.Valid := by
  intro edge' h
  rw [hchoice] at h
  cases h
  exact ⟨hpos, hlimit⟩

/-- The factorisation with products, in blocks of a chosen edge length. -/
theorem ends_factorByProduct_of_edge (hpos : 1 ≤ edge) (hlimit : edge < Size.limit)
    (hchoice : choice.edge = some edge) (hrows : shape.rows ≤ height) (hheight : height < Size.limit)
    (hcols : shape.cols < Size.limit) (hfits : Fits α (height * shape.cols)) :
    Ends (factorByProduct choice (ofCells shape kind height f))
      (· = (blockedStage (· - ·) shape edge f).factors shape kind height) := by
  refine ends_factorByProduct kind _ updatesBy_sub_of_product (valid_of_edge hpos hlimit hchoice)
    (fun edge' _ hadmits => ?_) (firstNull_blockedStage shape f hpos) hrows hheight hcols hfits
  -- the edge length that was chosen is the only one that the choice is settled on
  obtain rfl := hadmits edge hchoice
  exact ⟨_, blocks_blockRun shape height f hpos, rfl⟩

omit [LawfulOne α] [SubtractsByProduct α] in
/-- The factorisation with tiles, in blocks of a chosen edge length. -/
theorem ends_factorByTilesWith_of_edge (hpos : 1 ≤ edge) (hlimit : edge < Size.limit)
    (hchoice : choice.edge = some edge) (hrows : shape.rows ≤ height) (hheight : height < Size.limit)
    (hfits : Fits α (height * shape.cols)) :
    Ends (factorByTilesWith choice (ofCells shape kind height f))
      (· = (blockedStage (· - ·) shape edge f).factors shape kind height) := by
  unfold factorByTilesWith
  refine ends_bind (ends_adapt (ends_settle (valid_of_edge hpos hlimit hchoice))) ?_
  rintro blocking ⟨-, hadmits⟩
  rw [← hadmits edge hchoice]
  exact ends_unrefused (ends_factorInTiles kind (blocks_blockRun shape height f hpos) hrows hheight
    hfits hpos)

/-- With blocks of the same edge length both factorisations leave the same matrix and report the same
interchanges and the same first column without a pivot. The matrix may have further pages, and the
volume up to which products are formed directly may be any. -/
theorem factorisations_agree {a : PagedMatrix α} (ha : a.Stored) (hpage : a.HasPage)
    (hpos : 1 ≤ edge) (hlimit : edge < Size.limit) :
    ∃ (lu : PagedMatrix α) (record : Record),
      ∀ (choice choice' : BlockingChoice) (ambient ambient' : Ambient),
        choice.edge = some edge → choice'.edge = some edge → ambient.Sound → ambient'.Sound →
          (∃ after, Runs (factorByProduct choice a) ambient (lu, record) after) ∧
          ∃ after, Runs (factorByTilesWith choice' a) ambient' (lu, record) after := by
  have hcols := ha.cols_lt
  have hfits := ha.fits
  obtain ⟨shape, kind, height, f, rfl, hrows, hheight, -⟩ := ha.exists_ofCells hpage
  rw [cols_ofCells] at hcols
  rw [PagedMatrix.size, size_ofCells] at hfits
  let last := (blockedStage (· - ·) shape edge f).factors shape kind height
  exact ⟨last.1, last.2, fun choice choice' ambient ambient' hchoice hchoice' hambient hambient' =>
    ⟨exists_runs (ends_factorByProduct_of_edge kind hpos hlimit hchoice hrows hheight hcols hfits)
        hambient,
      exists_runs (ends_factorByTilesWith_of_edge kind hpos hlimit hchoice' hrows hheight hfits)
        hambient'⟩⟩

end Factorisations

/-- A wide matrix of two pages. The first column of the first page has no pivot. -/
def pivotlessPages : PagedMatrix Float :=
  { shape := { rows := 2, cols := 3, trailing := [2] }
    data := #[0.0, 0.1, 3.0, -0.0, 0.7, 0.0 / 0.0, 1.0, 2.0, 3.0, 4.0, 5.0, 6.0] }

theorem stored_pivotlessPages : pivotlessPages.Stored :=
  ⟨rfl, by decide, by decide, by decide⟩

/-- The factorisations of floating point numbers, in blocks of a single column. -/
theorem factorisations_agree_pivotlessPages :
    pivotlessPages.Stored ∧ pivotlessPages.HasPage ∧ (BlockingChoice.tiled 1).edge = some 1 ∧
      ({ edge := some 1, directVolume := some 8 } : BlockingChoice).edge = some 1 ∧
      ({} : Ambient).Sound ∧ ∃ (lu : PagedMatrix Float) (record : Record),
        (∃ after, Runs (factorByProduct (.tiled 1) pivotlessPages) {} (lu, record) after) ∧
        ∃ after,
          Runs (factorByTilesWith { edge := some 1, directVolume := some 8 } pivotlessPages) {}
            (lu, record) after := by
  have hstored : pivotlessPages.Stored := ⟨rfl, by decide, by decide, by decide⟩
  have hpage : pivotlessPages.HasPage := by decide
  obtain ⟨lu, record, hruns⟩ := factorisations_agree hstored hpage (Nat.le_refl 1) (by decide)
  exact ⟨hstored, hpage, rfl, rfl, Ambient.sound_initial, lu, record,
    hruns _ _ {} {} rfl rfl Ambient.sound_initial Ambient.sound_initial⟩

end Lu

end DenseLinear
