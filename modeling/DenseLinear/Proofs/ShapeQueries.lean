import Mathlib.Algebra.BigOperators.Group.List.Basic
import DenseLinear.Proofs.Cells
import DenseLinear.Proofs.Frames
import DenseLinear.Real.Machine

/-!
# Asking a matrix for its pages

A product of sizes is computed exactly if every partial product from the left is a size
(`Size.product_eq`). A matrix is built if the product of all its dimensions is computed, while its
pages are counted by the product of the trailing dimensions alone. So a dimension zero that stands
first hides an overflow of the later ones from the constructors, and not from the queries.

`PagedMatrix.queries_of_builtFrom` tells what is asked of a matrix that was built, by whichever
constructor: pages, layout and stacked rows are computed exactly where the partial products they are
made of are sizes, and those of a matrix with a row and a column always are.
-/

namespace DenseLinear

namespace Size

/-- Every partial product of the sizes, from the left, is a size. -/
def Counted (sizes : List Nat) : Prop := ∀ k ≤ sizes.length, (sizes.take k).prod < limit

instance (sizes : List Nat) : Decidable (Counted sizes) :=
  inferInstanceAs (Decidable (∀ k ≤ sizes.length, (sizes.take k).prod < limit))

theorem mul_eq (a b : Nat) :
    mul a b = if a * b < limit then .ok (a * b) else .error .overflow := rfl

/-- A product that is taken up from a size goes on as long as there are sizes. -/
theorem foldlM_mul_eq (sizes : List Nat) (start : Nat) (hstart : start < limit) :
    (sizes.foldlM mul start : Checked Nat) =
      if ∀ k ≤ sizes.length, start * (sizes.take k).prod < limit then .ok (start * sizes.prod)
      else .error .overflow := by
  induction sizes generalizing start with
  | nil =>
    rw [if_pos (fun k _ => by simpa using hstart), List.prod_nil, Nat.mul_one]
    rfl
  | cons d ds ih =>
    rw [List.foldlM_cons, mul_eq]
    by_cases hnext : start * d < limit
    · -- the partial products of the rest begin with this one
      have hiff : (∀ k ≤ ds.length, start * d * (ds.take k).prod < limit) ↔
          ∀ k ≤ (d :: ds).length, start * ((d :: ds).take k).prod < limit := by
        constructor
        · rintro h (_ | k) hk
          · simpa using hstart
          · rw [List.take_succ_cons, List.prod_cons, ← Nat.mul_assoc]
            exact h k (Nat.le_of_succ_le_succ hk)
        · intro h k hk
          have hsucc := h (k + 1) (Nat.succ_le_succ hk)
          rwa [List.take_succ_cons, List.prod_cons, ← Nat.mul_assoc] at hsucc
      rw [if_pos hnext, ok_bind, ih _ hnext, List.prod_cons, ← Nat.mul_assoc]
      exact if_congr hiff rfl rfl
    · rw [if_neg hnext, if_neg]
      · rfl
      · intro h
        have hone := h 1 (Nat.succ_le_succ (Nat.zero_le _))
        exact hnext (by simpa using hone)

/-- A product of sizes is computed exactly if every partial product is a size. -/
theorem product_eq (sizes : List Nat) :
    product sizes = if Counted sizes then .ok sizes.prod else .error .overflow := by
  have h := foldlM_mul_eq sizes 1 (by decide)
  simp only [Nat.one_mul] at h
  exact h

theorem counted_of_product {sizes : List Nat} {n : Nat} (h : product sizes = .ok n) :
    Counted sizes ∧ n = sizes.prod := by
  rw [product_eq] at h
  split at h
  · rename_i hcounted
    exact ⟨hcounted, (Except.ok.inj h).symm⟩
  · contradiction

/-- What follows two positive factors has the smaller partial products. -/
theorem Counted.tail {a b : Nat} {sizes : List Nat} (h : Counted (a :: b :: sizes)) (ha : 0 < a)
    (hb : 0 < b) : Counted sizes ∧ a * sizes.prod < limit := by
  have hle : ∀ p : Nat, p ≤ a * p ∧ a * p ≤ a * (b * p) := by
    intro p
    constructor
    · exact Nat.le_mul_of_pos_left p ha
    · exact Nat.mul_le_mul_left a (Nat.le_mul_of_pos_left p hb)
  constructor
  · intro k hk
    have hprefix := h (k + 2) (Nat.add_le_add_right hk 2)
    rw [List.take_succ_cons, List.take_succ_cons, List.prod_cons, List.prod_cons] at hprefix
    exact ((hle _).1.trans (hle _).2).trans_lt hprefix
  · have hall := h _ (Nat.le_refl _)
    rw [List.take_length, List.prod_cons, List.prod_cons] at hall
    exact (hle _).2.trans_lt hall

end Size

namespace Shape

/-- The pages are counted without leaving the sizes. -/
def CountsPages (s : Shape) : Prop := Size.Counted s.trailing

/-- So are the stacked rows. -/
def CountsRows (s : Shape) : Prop := s.CountsPages ∧ s.rows * s.trailing.prod < Size.limit

instance (s : Shape) : Decidable s.CountsPages :=
  inferInstanceAs (Decidable (Size.Counted s.trailing))

instance (s : Shape) : Decidable s.CountsRows :=
  inferInstanceAs (Decidable (_ ∧ _))

theorem pages_eq (s : Shape) :
    s.pages = if s.CountsPages then .ok s.trailing.prod else .error .overflow :=
  Size.product_eq s.trailing

theorem layout_eq (s : Shape) :
    s.layout =
      if s.CountsPages then .ok ⟨s.rows, s.cols, s.trailing.prod⟩ else .error .overflow := by
  unfold layout
  rw [pages_eq]
  split
  · rfl
  · rfl

theorem height_eq (s : Shape) :
    s.height = if s.CountsRows then .ok (s.rows * s.trailing.prod) else .error .overflow := by
  unfold height
  rw [pages_eq]
  by_cases hpages : s.CountsPages
  · rw [if_pos hpages, ok_bind, Size.mul_eq]
    exact if_congr (by simp [CountsRows, hpages]) rfl rfl
  · rw [if_neg hpages, if_neg fun h => hpages h.1]
    rfl

end Shape

namespace PagedMatrix

variable {α ρ : Type} [RealArith ρ] [Scalar α ρ]

/-- A matrix that a constructor has made of dimensions. -/
inductive BuiltFrom (dims : List Nat) : PagedMatrix α → Prop
  /-- A zero matrix. -/
  | zeros {a : PagedMatrix α} : zerosOf (.ofDims dims) = .ok a → BuiltFrom dims a
  /-- Identity matrices on all pages. -/
  | identities {a : PagedMatrix α} : identityOf (.ofDims dims) = .ok a → BuiltFrom dims a
  /-- A buffer that is taken as it is. -/
  | buffer {data : Array α} {a : PagedMatrix α} :
    (ofBuffer (.ofDims dims) data).run = .ok (.ok a) → BuiltFrom dims a

/-- What every constructor sees to: the shape is the one that was asked for, its cells were counted,
and each has its entry. -/
structure BuiltOf (shape : Shape) (a : PagedMatrix α) : Prop where
  /-- The shape that was asked for. -/
  shape_eq : a.shape = shape
  /-- The cells were counted. -/
  counted : Size.Counted shape.dims
  /-- Each cell has its entry. -/
  wellFormed : a.WellFormed

omit [RealArith ρ] in
theorem builtOf_zerosOf (shape : Shape) :
    ReturnsOnly (zerosOf shape : Checked (PagedMatrix α)) (BuiltOf shape) := by
  intro a h
  rcases wellFormed_zerosOf h with ⟨hwf, hshape⟩
  rcases Outcomes.of_returns_bind h with ⟨n, hcount, -⟩
  exact ⟨hshape, (Size.counted_of_product hcount).1, hwf⟩

omit [RealArith ρ] in
/-- Ones on the diagonals change neither the shape nor the number of entries. -/
theorem builtOf_identityOf (shape : Shape) :
    ReturnsOnly (identityOf shape : Checked (PagedMatrix α)) (BuiltOf shape) := by
  unfold identityOf
  refine returnsOnly_bind (builtOf_zerosOf shape) ?_
  intro a ha
  have hframe : ReturnsOnly (do
      let layout ← a.layout
      ascend 0 layout.count a fun page a =>
        ascend 0 (min layout.rows layout.cols) a fun i a => do
          a.set (← layout.rowOf page i) i 1 : Checked (PagedMatrix α)) (SameFrame a) :=
    returnsOnly_then fun _ => sameFrame_ascend fun _ _ => sameFrame_ascend fun i b =>
      returnsOnly_then fun r => b.sameFrame_set r i 1
  refine returnsOnly_mono hframe ?_
  intro b hb
  exact ⟨hb.1.trans ha.shape_eq, ha.counted, hb.wellFormed ha.wellFormed⟩

theorem builtOf_ofBuffer {shape : Shape} {data : Array α} {a : PagedMatrix α}
    (h : (ofBuffer shape data).run = .ok (.ok a)) : BuiltOf shape a := by
  rcases wellFormed_ofBuffer h with ⟨hwf, hshape⟩
  rw [run_ofBuffer] at h
  split at h
  · contradiction
  · rename_i n hcount
    exact ⟨hshape, (Size.counted_of_product hcount).1, hwf⟩

theorem BuiltFrom.builtOf {dims : List Nat} {a : PagedMatrix α} (h : BuiltFrom dims a) :
    BuiltOf (.ofDims dims) a := by
  cases h with
  | zeros h => exact builtOf_zerosOf _ a h
  | identities h => exact builtOf_identityOf _ a h
  | buffer h => exact builtOf_ofBuffer h

/-- What is asked of a matrix that was built. The pages and their layout are there exactly if every
partial product of the trailing dimensions is a size, and the stacked rows if their number is one,
too. Where there is a row and a column, all of that holds. -/
theorem queries_of_builtFrom {dims : List Nat} {a : PagedMatrix α} (h : BuiltFrom dims a) :
    a.shape = .ofDims dims ∧
    a.pages = (if a.shape.CountsPages then .ok a.shape.trailing.prod else .error .overflow) ∧
    a.layout = (if a.shape.CountsPages then .ok ⟨a.rows, a.cols, a.shape.trailing.prod⟩
      else .error .overflow) ∧
    a.height = (if a.shape.CountsRows then .ok (a.rows * a.shape.trailing.prod)
      else .error .overflow) ∧
    (∀ height, a.height = .ok height → height * a.cols = a.size) ∧
    (0 < a.rows → 0 < a.cols → a.shape.CountsPages ∧ a.shape.CountsRows) := by
  have hbuilt := h.builtOf
  refine ⟨hbuilt.shape_eq, a.shape.pages_eq, a.shape.layout_eq, a.shape.height_eq, ?_, ?_⟩
  · intro height hheight
    exact (hbuilt.wellFormed.size_eq hheight).symm
  · intro hrows hcols
    have hcounted : Size.Counted a.shape.dims := hbuilt.shape_eq ▸ hbuilt.counted
    rcases hcounted.tail hrows hcols with ⟨hpages, hlimit⟩
    exact ⟨hpages, hpages, hlimit⟩

/-- Two pages of two rows and three columns are counted. -/
theorem queries_of_builtFrom_twoPages :
    ∃ a : PagedMatrix Float, BuiltFrom [2, 3, 2] a ∧
      a.shape = { rows := 2, cols := 3, trailing := [2] } ∧ a.pages = .ok 2 ∧
      a.layout = .ok ⟨2, 3, 2⟩ ∧ a.height = .ok 4 ∧ 4 * 3 = a.size := by
  let a : PagedMatrix Float :=
    { shape := { rows := 2, cols := 3, trailing := [2] }, data := .replicate 12 0 }
  have hbuilt : BuiltFrom [2, 3, 2] a := .zeros rfl
  rcases queries_of_builtFrom hbuilt with ⟨hshape, hpages, hlayout, hheight, hsize, -⟩
  rw [if_pos (by decide)] at hpages hlayout hheight
  exact ⟨a, hbuilt, hshape, hpages, hlayout, hheight, hsize 4 hheight⟩

omit [RealArith ρ] in
/-- There is always room for no entry. -/
theorem zerosOf_of_empty {shape : Shape} (h : shape.cellCount = .ok 0) :
    (zerosOf shape : Checked (PagedMatrix α)) = .ok { shape, data := #[] } := by
  unfold zerosOf
  rw [h, ok_bind, allocate, Nat.mul_zero]
  rfl

theorem ofBuffer_of_empty {shape : Shape} (h : shape.cellCount = .ok 0) :
    (ofBuffer shape (#[] : Array α)).run = .ok (.ok { shape, data := #[] }) := by
  have hfresh : ({ shape, data := #[] } : PagedMatrix α).refreshKind = { shape, data := #[] } := by
    simp [refreshKind, kindOf]
  rw [run_ofBuffer, h]
  exact congrArg (fun a => Except.ok (Except.ok a)) hfresh

/-- A first dimension zero hides from the constructors that the later ones are too great: the pages
of the first array are none, and yet they cannot be counted; those of the second one can be, and its
stacked rows cannot. -/
theorem queries_overflow :
    (∃ a : PagedMatrix Float, BuiltFrom [0, 1, 4294967296, 4294967296, 0] a ∧
      a.pages = .error .overflow ∧ a.layout = .error .overflow ∧ a.height = .error .overflow) ∧
    ∃ a : PagedMatrix Float, BuiltFrom [4294967296, 0, 4294967296] a ∧
      a.pages = .ok 4294967296 ∧ a.height = .error .overflow := by
  have hfirst : (Shape.ofDims [0, 1, 4294967296, 4294967296, 0]).cellCount = .ok 0 := by
    decide +kernel
  have hsecond : (Shape.ofDims [4294967296, 0, 4294967296]).cellCount = .ok 0 := by
    decide +kernel
  constructor
  · refine ⟨_, .zeros (zerosOf_of_empty hfirst), ?_, ?_, ?_⟩
    · exact (Shape.pages_eq _).trans (if_neg (by decide +kernel))
    · exact (Shape.layout_eq _).trans (if_neg (by decide +kernel))
    · exact (Shape.height_eq _).trans (if_neg (by decide +kernel))
  · refine ⟨_, .buffer (ofBuffer_of_empty hsecond), ?_, ?_⟩
    · exact (Shape.pages_eq _).trans (if_pos (by decide +kernel))
    · exact (Shape.height_eq _).trans (if_neg (by decide +kernel))

end PagedMatrix

end DenseLinear
