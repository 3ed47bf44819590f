import DenseLinear.Multiply.Vector
import DenseLinear.Proofs.Contents
import DenseLinear.Proofs.Frames
import DenseLinear.Proofs.MultiplyAdd

/-!
# Coefficients that are zero

An update `alpha * A * B + beta * C` does not look at the old entries of its target if `beta` is
zero, nor at `A` and `B` if `alpha` is (`zero_coefficients_block`). So nothing that is stale there
can come through, not even entries that are not numbers, and entries need no laws for that. The same
holds of the update by a vector, for the window that it writes to.

With `beta` zero, rescaling overwrites every entry of the target, so two runs on different targets go
on with the same entries (`SameFrame.sameContents_rescale`). They may still differ in the kind that
the targets came with, which no kernel asks for.
-/

namespace DenseLinear

namespace PagedMatrix

variable {α ρ : Type} [Scalar α ρ] {a a' b b' c c' : PagedMatrix α} {m k n : Nat}

/-- Rescaling by zero leaves nothing of the old entries. -/
theorem SameFrame.sameContents_rescale {beta : α} (hbeta : (beta == 0) = true)
    (h : SameFrame c c') : SameContents (c.rescale beta) (c'.rescale beta) := by
  have hzero : Scalar.rescale beta = Function.const α 0 := funext fun x => if_pos hbeta
  refine ⟨h.shape.symm, ?_⟩
  unfold PagedMatrix.rescale
  dsimp only
  rw [hzero, Array.map_const, Array.map_const, h.size]

/-- Rescaling a window by zero leaves nothing of its old entries. -/
theorem rescaleWindow_congr {beta : α} (hbeta : (beta == 0) = true) {start stop : Nat}
    {y y' : Array α} (hsize : y.size = y'.size)
    (hout : ∀ i, ¬(start ≤ i ∧ i < stop) → y[i]? = y'[i]?) :
    rescaleWindow beta start stop y = rescaleWindow beta start stop y' := by
  have hzero : ∀ x : α, Scalar.rescale beta x = 0 := fun x => if_pos hbeta
  apply Array.ext_getElem?
  intro i
  unfold rescaleWindow
  simp only [Array.getElem?_mapIdx, hzero]
  by_cases hin : start ≤ i ∧ i < stop
  · simp only [hin, and_self, if_true]
    rcases Nat.lt_or_ge i y.size with hi | hi
    · rw [Array.getElem?_eq_getElem hi, Array.getElem?_eq_getElem (hsize ▸ hi)]
      rfl
    · rw [Array.getElem?_eq_none hi, Array.getElem?_eq_none (hsize ▸ hi)]
  · rw [hout i hin]

/-- Two targets of an update by a vector that are the same outside of the window. -/
theorem multiplyVector_of_beta_zero {beta : α} (hbeta : (beta == 0) = true) {rowY : Nat}
    {y y' : Array α} (hsize : y.size = y'.size)
    (hout : ∀ i, ¬(rowY ≤ i ∧ i < rowY + m) → y[i]? = y'[i]?) (rowA colA : Nat) (x : Array α)
    (rowX : Nat) (alpha : α) :
    multiplyVector a m n rowA colA x rowX y rowY alpha beta =
      multiplyVector a m n rowA colA x rowX y' rowY alpha beta := by
  unfold multiplyVector
  rcases Nat.lt_or_ge (rowY + m) Size.limit with hword | hover
  · rw [Size.add_eq_ok hword, ok_bind, ok_bind, hsize, rescaleWindow_congr hbeta hsize hout]
  · rw [Size.add, if_neg (Nat.not_lt.2 hover)]
    rfl

/-- The operands of an update by a vector are not looked at if `alpha` is zero. -/
theorem multiplyVector_of_alpha_zero {alpha : α} (halpha : (alpha == 0) = true) (x x' : Array α)
    (rowA colA rowX rowY : Nat) (y : Array α) (beta : α) :
    multiplyVector a m n rowA colA x rowX y rowY alpha beta =
      multiplyVector a' m n rowA colA x' rowX y rowY alpha beta := by
  unfold multiplyVector
  simp only [halpha, if_true]

variable [RealArith ρ]

/-- An operand of an update by a product is not looked at if `alpha` is zero. -/
theorem multiplyAdd_of_alpha_zero {alpha : α} (halpha : (alpha == 0) = true)
    (ha : a.shape = a'.shape) (hb : b.shape = b'.shape) (beta : α) (choice : BlockingChoice) :
    multiplyAdd alpha a m k b n beta c choice = multiplyAdd alpha a' m k b' n beta c choice := by
  unfold multiplyAdd
  rw [requireOperands_congr ha hb rfl]
  simp only [halpha, Bool.true_or, if_true]

/-- What a coefficient that is zero belongs to does not come through, whatever it holds, in all
surroundings and under any choice of blocking parameters. If `beta` is zero, updates of targets with
the same frame end alike: with the same entries, or refused for the same reason. If `alpha` is zero,
updates by other operands of the same shapes are the same. For the update by a vector it is the
window of the target, and the matrix and the vector, that do not come through. -/
theorem zero_coefficients_block (alpha beta : α) :
    ((beta == 0) = true →
      (∀ (a b c c' : PagedMatrix α) (m k n : Nat) (choice : BlockingChoice), SameFrame c c' →
        Coupled SameContents (multiplyAdd alpha a m k b n beta c choice)
          (multiplyAdd alpha a m k b n beta c' choice)) ∧
      ∀ (a : PagedMatrix α) (m n rowA colA : Nat) (x : Array α) (rowX : Nat) (y y' : Array α)
        (rowY : Nat), y.size = y'.size →
        (∀ i, ¬(rowY ≤ i ∧ i < rowY + m) → y[i]? = y'[i]?) →
        multiplyVector a m n rowA colA x rowX y rowY alpha beta =
          multiplyVector a m n rowA colA x rowX y' rowY alpha beta) ∧
    ((alpha == 0) = true →
      (∀ (a a' b b' c : PagedMatrix α) (m k n : Nat) (choice : BlockingChoice),
        a.shape = a'.shape → b.shape = b'.shape →
        multiplyAdd alpha a m k b n beta c choice = multiplyAdd alpha a' m k b' n beta c choice) ∧
      ∀ (a a' : PagedMatrix α) (m n rowA colA : Nat) (x x' : Array α) (rowX : Nat) (y : Array α)
        (rowY : Nat),
        multiplyVector a m n rowA colA x rowX y rowY alpha beta =
          multiplyVector a' m n rowA colA x' rowX y rowY alpha beta) := by
  constructor
  · intro hbeta
    constructor
    · intro a b c c' m k n choice hframe
      exact coupled_multiplyAdd alpha beta choice (hframe.sameContents_rescale hbeta)
    · intro a m n rowA colA x rowX y y' rowY hsize hout
      exact multiplyVector_of_beta_zero hbeta hsize hout rowA colA x rowX alpha
  · intro halpha
    constructor
    · intro a a' b b' c m k n choice ha hb
      exact multiplyAdd_of_alpha_zero halpha ha hb beta choice
    · intro a a' m n rowA colA x x' rowX y rowY
      exact multiplyVector_of_alpha_zero halpha x x' rowA colA rowX rowY y beta

/-- A square with entries that are infinite and not a number. -/
def staleSquare : PagedMatrix Float :=
  { shape := { rows := 2, cols := 2 }, data := #[0.0 / 0.0, 1.0 / 0.0, 2.0, -1.0] }

/-- A square of zeros that stand for truth values. -/
def clearSquare : PagedMatrix Float :=
  { shape := { rows := 2, cols := 2 }, data := #[0.0, 0.0, 0.0, 0.0], kind := .logical }

/-- The negative zero is a zero, too. -/
theorem zero_coefficients_block_staleSquare :
    ((-0.0 : Float) == 0) = true ∧ ((0.0 : Float) == 0) = true ∧
      SameFrame staleSquare clearSquare ∧
      (∀ choice, Coupled SameContents
        (multiplyAdd 3.0 nanColumn 2 1 shortRow 2 (-0.0) staleSquare choice)
        (multiplyAdd 3.0 nanColumn 2 1 shortRow 2 (-0.0) clearSquare choice)) ∧
      multiplyVector clearSquare 2 2 0 0 #[1.0, 2.0] 0 #[0.0 / 0.0, 1.0 / 0.0, 5.0] 0 3.0 (-0.0) =
        multiplyVector clearSquare 2 2 0 0 #[1.0, 2.0] 0 #[7.0, 8.0, 5.0] 0 3.0 (-0.0) ∧
      (∀ choice, multiplyAdd 0.0 staleSquare 2 2 staleSquare 2 3.0 clearSquare choice =
        multiplyAdd 0.0 clearSquare 2 2 clearSquare 2 3.0 clearSquare choice) ∧
      multiplyVector staleSquare 2 2 0 0 #[0.0 / 0.0, 2.0] 0 #[7.0, 8.0, 5.0] 0 0.0 3.0 =
        multiplyVector clearSquare 2 2 0 0 #[1.0, 2.0] 0 #[7.0, 8.0, 5.0] 0 0.0 3.0 := by
  have hnegative : ((-0.0 : Float) == 0) = true := by decide
  have hpositive : ((0.0 : Float) == 0) = true := by decide
  have hframe : SameFrame staleSquare clearSquare := ⟨rfl, rfl⟩
  obtain ⟨hproduct, hvector⟩ := (zero_coefficients_block (3.0 : Float) (-0.0)).1 hnegative
  obtain ⟨hproduct', hvector'⟩ := (zero_coefficients_block (0.0 : Float) 3.0).2 hpositive
  refine ⟨hnegative, hpositive, hframe, fun choice => hproduct _ _ _ _ _ _ _ _ hframe, ?_,
    fun choice => hproduct' _ _ _ _ _ _ _ _ _ rfl rfl, hvector' _ _ _ _ _ _ _ _ _ _ _⟩
  apply hvector
  · show 3 = 3
    rfl
  · intro i hi
    match i with
    | 0 | 1 => omega
    | 2 =>
      show some (5.0 : Float) = some 5.0
      rfl
    | i + 3 =>
      show (none : Option Float) = none
      rfl

end PagedMatrix

end DenseLinear
