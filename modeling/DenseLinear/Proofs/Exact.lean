import Mathlib.Algebra.BigOperators.Fin
import Mathlib.Algebra.BigOperators.Intervals
import Mathlib.Algebra.Field.Basic
import Mathlib.Algebra.Order.BigOperators.Ring.Finset
import Mathlib.Algebra.Order.Group.Abs
import Mathlib.Algebra.Star.BigOperators
import Mathlib.Data.Matrix.Mul
import DenseLinear.Proofs.Blocks
import DenseLinear.Proofs.Transposes

/-!
# Exact scalars

The laws that exact entries satisfy, as classes over the operations of `Scalar` and `RealArith`.
Magnitudes are linearly ordered (`LawfulOrder`), or form an ordered field (`ExactArith`) that may
have absolute values (`MetricArith`) and square roots (`EuclideanArith`). Entries form a ring
(`RingScalar`) or a field (`FieldScalar`), which may have an absolute value (`ExactScalar`) or a
conjugation (`StarScalar`); real and complex numbers have both (`HermitianScalar`). The operations of
an exact scalar are those of its ring, so ring theory applies to what the kernels compute.

Nothing is asked of a quotient by zero, and nothing of operations that are not named.

Over a ring the folds of the kernels are sums (`accumulate_eq_sum`, `takeOff_eq_sum`).
-/

namespace DenseLinear

/-- The comparisons of magnitudes decide a linear order and equality. -/
class LawfulOrder (R : Type) [LinearOrder R] [RealArith R] : Prop where
  /-- The strict comparison decides the strict order. -/
  lt_iff (x y : R) : RealArith.lt x y = true ↔ x < y
  /-- The test for equality decides equality. -/
  beq_iff (x y : R) : (x == y) = true ↔ x = y

/-- Magnitudes that form an ordered field. -/
class ExactArith (R : Type) [LinearOrder R] extends RealArith R, Field R, IsStrictOrderedRing R where
  /-- The strict comparison decides the strict order. -/
  lt_iff (x y : R) : RealArith.lt x y = true ↔ x < y
  /-- The comparison decides the order. -/
  le_iff (x y : R) : RealArith.le x y = true ↔ x ≤ y
  /-- The test for equality decides equality. -/
  beq_iff (x y : R) : (x == y) = true ↔ x = y

instance {R : Type} [LinearOrder R] [ExactArith R] : LawfulOrder R where
  lt_iff := ExactArith.lt_iff
  beq_iff := ExactArith.beq_iff

/-- Magnitudes that do not compare equal are different. -/
theorem LawfulOrder.ne_of_beq_eq_false {R : Type} [LinearOrder R] [RealArith R] [LawfulOrder R]
    {x y : R} (h : (x == y) = false) : x ≠ y := fun heq => by
  rw [(beq_iff x y).2 heq] at h
  contradiction

/-- Numbers that are measured by themselves. -/
class SelfMeasured (F : Type) [Measured F F] : Prop where
  /-- A number is its own magnitude. -/
  widen_eq (x : F) : Measured.widen x = x
  /-- A magnitude is a number. -/
  narrow_eq (x : F) : Measured.narrow x = x

/-- Entries that form a ring, with a test for equality. -/
class RingScalar (K : Type) (R : outParam Type) extends Scalar K R, Ring K where
  /-- The test for equality decides equality. -/
  beq_iff (x y : K) : (x == y) = true ↔ x = y

/-- Magnitudes with their absolute values. -/
class MetricArith (R : Type) [LinearOrder R] [ExactArith R] : Prop where
  /-- The absolute value is that of the order. -/
  abs_eq (x : R) : RealArith.abs x = |x|

/-- Magnitudes that have square roots. -/
class EuclideanArith (R : Type) [LinearOrder R] [ExactArith R] : Prop where
  /-- A square root is not negative. -/
  sqrt_nonneg (x : R) : 0 ≤ x → 0 ≤ RealArith.sqrt x
  /-- The square of a square root. -/
  sqrt_mul_self (x : R) : 0 ≤ x → RealArith.sqrt x * RealArith.sqrt x = x
  /-- The hypotenuse is the square root of the sum of the squares. -/
  hypot_eq (x y : R) : RealArith.hypot x y = RealArith.sqrt (x * x + y * y)

namespace EuclideanArith

variable {R : Type} [LinearOrder R] [ExactArith R] [EuclideanArith R]

theorem sqrt_pos {x : R} (hx : 0 < x) : 0 < RealArith.sqrt x := by
  refine lt_of_le_of_ne (sqrt_nonneg x hx.le) fun h => hx.ne ?_
  rw [← sqrt_mul_self x hx.le, ← h, mul_zero]

theorem sqrt_square {x : R} (hx : 0 ≤ x) : RealArith.sqrt (x * x) = x :=
  (mul_self_inj (sqrt_nonneg _ (mul_self_nonneg x)) hx).1 (sqrt_mul_self _ (mul_self_nonneg x))

end EuclideanArith

/-- Entries that form a field. -/
class FieldScalar (K : Type) (R : outParam Type) extends RingScalar K R, Field K where
  /-- The quotient by an entry other than zero is the quotient of the field. -/
  quotient_eq (x y : K) : y ≠ 0 → Scalar.quotient x y = x / y

/-- Entries that form a field with an absolute value. -/
class ExactScalar (K : Type) (R : outParam Type) [LinearOrder R] [RealArith R] extends
    FieldScalar K R where
  /-- An absolute value is not negative. -/
  modulus_nonneg (x : K) : (0 : R) ≤ Scalar.modulus x
  /-- Only zero has the absolute value zero. -/
  modulus_eq_zero (x : K) : Scalar.modulus x = (0 : R) ↔ x = 0

/-- Entries that form a field with an involutive conjugation. -/
class StarScalar (K : Type) (R : outParam Type) extends FieldScalar K R, StarRing K where
  /-- The conjugate of an entry is that of the field. -/
  conj_eq (x : K) : Scalar.conj x = star x

/-- Entries that are real or complex numbers over their magnitudes. -/
class HermitianScalar (K : Type) (R : outParam Type) [LinearOrder R] [ExactArith R] extends
    ExactScalar K R, StarScalar K R where
  /-- The magnitude one is the entry one. -/
  ofReal_one : Scalar.ofReal (1 : R) = (1 : K)
  /-- Magnitudes are added as entries. -/
  ofReal_add (x y : R) : (Scalar.ofReal (x + y) : K) = Scalar.ofReal x + Scalar.ofReal y
  /-- Magnitudes are multiplied as entries. -/
  ofReal_mul (x y : R) : (Scalar.ofReal (x * y) : K) = Scalar.ofReal x * Scalar.ofReal y
  /-- Magnitudes are their own conjugates. -/
  star_ofReal (x : R) : star (Scalar.ofReal x : K) = Scalar.ofReal x
  /-- The product by the conjugate is the square of the absolute value. -/
  star_mul_self (x : K) :
    star x * x = Scalar.ofReal (Scalar.modulus x) * Scalar.ofReal (Scalar.modulus x)
  /-- The absolute value as an entry is the absolute value as a magnitude. -/
  absolute_eq (x : K) : Scalar.absolute x = Scalar.ofReal (Scalar.modulus x)
  /-- The square root of a magnitude that is not negative. -/
  sqrt_ofReal (x : R) : 0 ≤ x → Scalar.sqrt (Scalar.ofReal x : K) = Scalar.ofReal (RealArith.sqrt x)

/-- The absolute value of a product is the product of the absolute values. -/
class MultiplicativeModulus (K : Type) {R : Type} [LinearOrder R] [ExactArith R] [ExactScalar K R] :
    Prop where
  /-- The absolute value of a product. -/
  modulus_mul (x y : K) : (Scalar.modulus (x * y) : R) = Scalar.modulus x * Scalar.modulus y

/-- The cells of `m` rows and `n` columns as a matrix. -/
def PagedMatrix.toMatrix {K : Type} (m n : Nat) (f : Nat → Nat → K) : Matrix (Fin m) (Fin n) K :=
  Matrix.of fun i j => f i j

namespace RingScalar

variable {K R : Type} [RingScalar K R]

theorem toMatrix_identityCells (m : Nat) :
    PagedMatrix.toMatrix m m (PagedMatrix.identityCells : Nat → Nat → K) = 1 := by
  ext i j
  rw [Matrix.one_apply]
  simp only [PagedMatrix.toMatrix, Matrix.of_apply, PagedMatrix.identityCells, Fin.ext_iff]

theorem beq_eq_false_iff (x y : K) : (x == y) = false ↔ x ≠ y := by
  rw [← Bool.not_eq_true, beq_iff]

/-- In a ring that is not trivial no entry is rescaled by one. -/
theorem rescale_one [Nontrivial K] (x : K) : Scalar.rescale 1 x = x := by
  unfold Scalar.rescale
  rw [if_neg (by rw [beq_iff]; exact one_ne_zero), if_pos ((beq_iff _ _).2 rfl)]

/-- Products that are added one by one add up to their sum. -/
theorem accumulate_eq_sum (x y : Nat → K) (k : Nat) (acc : K) :
    PagedMatrix.accumulate x y k acc = acc + ∑ l ∈ Finset.range k, x l * y l := by
  induction k with
  | zero => simp
  | succ k ih =>
    rw [PagedMatrix.accumulate_succ, ih, Finset.sum_range_succ, Scalar.addMul, add_assoc]

/-- The products of an interval of positions add up to their sum. -/
theorem accumulate_shift_eq_sum (x y : Nat → K) (k width : Nat) :
    PagedMatrix.accumulate (fun l => x (k + l)) (fun l => y (k + l)) width 0 =
      ∑ l ∈ Finset.Ico k (k + width), x l * y l := by
  rw [accumulate_eq_sum, zero_add, Finset.sum_Ico_eq_sum_range, Nat.add_sub_cancel_left]

/-- Products that are taken off one by one take off their sum. -/
theorem takeOff_eq_sum (x y : Nat → K) {start stop : Nat} (h : start ≤ stop) (acc : K) :
    PagedMatrix.takeOff x y start stop acc = acc - ∑ l ∈ Finset.Ico start stop, x l * y l := by
  induction stop, h using Nat.le_induction with
  | base => simp [PagedMatrix.takeOff_self]
  | succ stop h ih =>
    rw [PagedMatrix.takeOff_succ x y h, ih, Finset.sum_Ico_succ_top h, sub_sub]

/-- The cells of a product of matrices are sums of products. -/
theorem product_eq_ok [RealArith R] {sa sb : Shape} {ka kb : NumericKind} {A B C : Nat → Nat → K}
    (hinner : sb.rows = sa.cols) (hlimit : sa.rows < Size.limit)
    (hfits : PagedMatrix.Fits K (sa.rows * sb.cols))
    (hC : ∀ i j, i < sa.rows → j < sb.cols → ∑ l ∈ Finset.range sa.cols, A i l * B l j = C i j) :
    PagedMatrix.product (PagedMatrix.ofCells sa ka sa.rows A) (PagedMatrix.ofCells sb kb sb.rows B) =
      .ok (PagedMatrix.ofCells { rows := sa.rows, cols := sb.cols } .real sa.rows C).refreshKind := by
  rw [PagedMatrix.product_ofCells (Nat.le_refl _) hinner (Nat.le_refl _) hlimit hfits]
  refine congrArg (fun b => Except.ok (PagedMatrix.refreshKind b))
    (PagedMatrix.ofCells_congr fun i j hi hj => ?_)
  rw [accumulate_eq_sum, zero_add, hC i j hi hj]

/-- An equation between products of matrices, entry by entry. -/
theorem toMatrix_mul_eq_iff {m k n : Nat} {A B C : Nat → Nat → K} :
    PagedMatrix.toMatrix m k A * PagedMatrix.toMatrix k n B = PagedMatrix.toMatrix m n C ↔
      ∀ i j, i < m → j < n → ∑ l ∈ Finset.range k, A i l * B l j = C i j := by
  constructor
  · intro h i j hi hj
    have hentry := congrFun (congrFun h ⟨i, hi⟩) ⟨j, hj⟩
    rw [Matrix.mul_apply] at hentry
    rw [Finset.sum_range]
    exact hentry
  · intro h
    ext i j
    rw [Matrix.mul_apply]
    exact (Finset.sum_range fun l => A i l * B l j).symm.trans (h i j i.isLt j.isLt)

/-- The product by its definition is the product of matrices. -/
theorem product_eq_ok_of_mul [RealArith R] {sa sb : Shape} {ka kb : NumericKind}
    {A B C : Nat → Nat → K} (hinner : sb.rows = sa.cols) (hlimit : sa.rows < Size.limit)
    (hfits : PagedMatrix.Fits K (sa.rows * sb.cols))
    (hC : PagedMatrix.toMatrix sa.rows sa.cols A * PagedMatrix.toMatrix sa.cols sb.cols B =
      PagedMatrix.toMatrix sa.rows sb.cols C) :
    PagedMatrix.product (PagedMatrix.ofCells sa ka sa.rows A) (PagedMatrix.ofCells sb kb sb.rows B) =
      .ok (PagedMatrix.ofCells { rows := sa.rows, cols := sb.cols } .real sa.rows C).refreshKind :=
  product_eq_ok hinner hlimit hfits (toMatrix_mul_eq_iff.1 hC)

end RingScalar

theorem FieldScalar.quotient_mul_cancel {K R : Type} [FieldScalar K R] (x : K) {y : K}
    (hy : y ≠ 0) : Scalar.quotient x y * y = x := by
  rw [quotient_eq x y hy, div_mul_cancel₀ x hy]

namespace ExactScalar

variable {K R : Type} [LinearOrder R] [RealArith R] [LawfulOrder R] [ExactScalar K R]

/-- Exactly the entry zero counts as zero. -/
theorem isNull_iff (x : K) : Scalar.isNull x = true ↔ x = 0 := by
  unfold Scalar.isNull
  rw [LawfulOrder.beq_iff, modulus_eq_zero]

omit [LawfulOrder R] in
/-- An entry whose absolute value is at most that of zero is zero. -/
theorem eq_zero_of_modulus_le {x : K} (h : (Scalar.modulus x : R) ≤ Scalar.modulus (0 : K)) :
    x = 0 := by
  rw [(modulus_eq_zero (0 : K)).2 rfl] at h
  exact (modulus_eq_zero x).1 (le_antisymm h (modulus_nonneg x))

theorem modulus_one {K R : Type} [LinearOrder R] [ExactArith R] [ExactScalar K R]
    [MultiplicativeModulus K] : (Scalar.modulus (1 : K) : R) = 1 := by
  have hne : (Scalar.modulus (1 : K) : R) ≠ 0 := fun h => one_ne_zero ((modulus_eq_zero (1 : K)).1 h)
  -- the absolute value of one is its own square
  have hsquare : (Scalar.modulus ((1 : K) * 1) : R) =
      Scalar.modulus (1 : K) * Scalar.modulus (1 : K) := MultiplicativeModulus.modulus_mul 1 1
  rw [one_mul] at hsquare
  exact mul_right_cancel₀ hne (by rw [← hsquare, one_mul])

/-- A quotient by an entry of at least the same absolute value does not exceed one. -/
theorem modulus_quotient_le_one {K R : Type} [LinearOrder R] [ExactArith R] [ExactScalar K R]
    [MultiplicativeModulus K] {x y : K} (hy : y ≠ 0)
    (hle : (Scalar.modulus x : R) ≤ Scalar.modulus y) :
    (Scalar.modulus (Scalar.quotient x y) : R) ≤ 1 := by
  have hpos : (0 : R) < Scalar.modulus y :=
    lt_of_le_of_ne (modulus_nonneg y) fun h => hy ((modulus_eq_zero y).1 h.symm)
  have hproduct : (Scalar.modulus (Scalar.quotient x y) : R) * Scalar.modulus y =
      Scalar.modulus x := by
    rw [← MultiplicativeModulus.modulus_mul, FieldScalar.quotient_mul_cancel x hy]
  rw [← hproduct] at hle
  exact le_of_mul_le_mul_right (by rwa [one_mul]) hpos

end ExactScalar

namespace HermitianScalar

variable {K R : Type} [LinearOrder R] [ExactArith R] [HermitianScalar K R]

/-- The magnitudes as a part of the field of entries. -/
def ofRealHom : R →+* K where
  toFun := Scalar.ofReal
  map_one' := ofReal_one
  map_mul' := ofReal_mul
  map_zero' := by
    have h := ofReal_add (K := K) (0 : R) 0
    rwa [add_zero, left_eq_add] at h
  map_add' := ofReal_add

theorem ofReal_eq_zero_iff {x : R} : (Scalar.ofReal x : K) = 0 ↔ x = 0 :=
  map_eq_zero (ofRealHom : R →+* K)

theorem ofReal_injective : Function.Injective (Scalar.ofReal : R → K) :=
  (injective_iff_map_eq_zero (ofRealHom : R →+* K)).2 fun _ h => ofReal_eq_zero_iff.1 h

/-- The absolute value of a product is the product of the absolute values, since its square is. -/
instance : MultiplicativeModulus K where
  modulus_mul x y := by
    have hsquare : (Scalar.ofReal (Scalar.modulus (x * y) * Scalar.modulus (x * y)) : K) =
        Scalar.ofReal
          (Scalar.modulus x * Scalar.modulus y * (Scalar.modulus x * Scalar.modulus y)) := by
      rw [ofReal_mul, ← star_mul_self, star_mul', mul_mul_mul_comm, star_mul_self, star_mul_self,
        mul_mul_mul_comm (Scalar.modulus x), ofReal_mul, ofReal_mul, ofReal_mul]
    exact (mul_self_inj (ExactScalar.modulus_nonneg _) (mul_nonneg (ExactScalar.modulus_nonneg x)
      (ExactScalar.modulus_nonneg y))).1 (ofReal_injective hsquare)

/-- Entries with the same product by their conjugates have the same absolute value. -/
theorem modulus_congr {x y : K} (h : star x * x = star y * y) :
    (Scalar.modulus x : R) = Scalar.modulus y := by
  rw [star_mul_self, star_mul_self, ← ofReal_mul, ← ofReal_mul] at h
  exact (mul_self_inj (ExactScalar.modulus_nonneg x) (ExactScalar.modulus_nonneg y)).1
    (ofReal_injective h)

theorem modulus_star (x : K) : (Scalar.modulus (star x) : R) = Scalar.modulus x :=
  modulus_congr (by rw [star_star, mul_comm])

theorem modulus_neg (x : K) : (Scalar.modulus (-x) : R) = Scalar.modulus x :=
  modulus_congr (by rw [star_neg, neg_mul_neg])

/-- A magnitude that is not negative is its own absolute value. -/
theorem modulus_ofReal {x : R} (hx : 0 ≤ x) : Scalar.modulus (Scalar.ofReal x : K) = x := by
  have hsquare := star_mul_self (Scalar.ofReal x : K)
  rw [star_ofReal, ← ofReal_mul, ← ofReal_mul] at hsquare
  exact ((mul_self_inj hx (ExactScalar.modulus_nonneg _)).1 (ofReal_injective hsquare)).symm

/-- Products by the conjugates add up to the sum of the squared absolute values. -/
theorem sum_star_mul_self {ι : Type} (s : Finset ι) (x : ι → K) :
    ∑ l ∈ s, star (x l) * x l =
      Scalar.ofReal (∑ l ∈ s, Scalar.modulus (x l) * Scalar.modulus (x l)) := by
  have hsum : (Scalar.ofReal (∑ l ∈ s, Scalar.modulus (x l) * Scalar.modulus (x l)) : K) =
      ∑ l ∈ s, Scalar.ofReal (Scalar.modulus (x l) * Scalar.modulus (x l)) :=
    map_sum (ofRealHom : R →+* K) _ s
  rw [hsum]
  exact Finset.sum_congr rfl fun l _ => by rw [star_mul_self, ofReal_mul]

/-- Products by the conjugates do not cancel out. -/
theorem eq_zero_of_sum_star_mul_self {ι : Type} {s : Finset ι} {x : ι → K}
    (h : ∑ l ∈ s, star (x l) * x l = 0) {l : ι} (hl : l ∈ s) : x l = 0 := by
  -- a sum of squares is zero only if all of them are
  rw [sum_star_mul_self, ofReal_eq_zero_iff,
    Finset.sum_eq_zero_iff_of_nonneg fun l _ => mul_self_nonneg _] at h
  exact (ExactScalar.modulus_eq_zero (x l)).1 (mul_self_eq_zero.1 (h l hl))

end HermitianScalar

end DenseLinear
