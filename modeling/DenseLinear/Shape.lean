import DenseLinear.Checked

/-!
# Shapes

A shape has rows, columns and any number of trailing dimensions. The trailing dimensions count
*pages*: two-dimensional blocks of equal size that are stacked along the rows. Row `i` of page `p`
is stacked row `p * rows + i`.

`Shape.size` is the number of cells. `Shape.cellCount` computes it from the dimensions, from left
to right, as long as every partial product is a size (`Shape.cellCount_eq_ok`).
-/

namespace DenseLinear

/-- The dimensions of a paged matrix. -/
structure Shape where
  /-- The rows of a page. -/
  rows : Nat
  /-- The columns of a page. -/
  cols : Nat
  /-- The dimensions after the second. -/
  trailing : List Nat := []
deriving DecidableEq, Repr

/-- How the pages of a matrix lie in its buffer. -/
structure PageLayout where
  /-- The rows of a page. -/
  rows : Nat
  /-- The columns of a page. -/
  cols : Nat
  /-- The number of pages. -/
  count : Nat
deriving DecidableEq, Repr

namespace PageLayout

/-- The number of stacked rows from the start of a page to the start of the next one. -/
def stride (layout : PageLayout) : Nat := layout.rows

/-- The stacked row of a row of a page. -/
def rowOf (layout : PageLayout) (page row : Nat) : Checked Nat := do
  Size.add (← Size.mul page layout.stride) row

/-- The stacked rows of a page: the first one, and the one after the last. -/
def rowsOf (layout : PageLayout) (page : Nat) : Checked (Nat × Nat) := do
  let start ← Size.mul page layout.stride
  let stop ← Size.add start layout.rows
  return (start, stop)

end PageLayout

namespace Shape

/-- The shape with the given dimensions; a missing row or column dimension is one. -/
def ofDims : List Nat → Shape
  | [] => { rows := 1, cols := 1 }
  | [rows] => { rows, cols := 1 }
  | rows :: cols :: trailing => { rows, cols, trailing }

/-- All dimensions in order. -/
def dims (s : Shape) : List Nat := s.rows :: s.cols :: s.trailing

/-- The number of cells. -/
def size (s : Shape) : Nat := s.dims.foldl (· * ·) 1

/-- The number of cells, computed from left to right. -/
def cellCount (s : Shape) : Checked Nat := Size.product s.dims

/-- The number of pages. -/
def pages (s : Shape) : Checked Nat := Size.product s.trailing

/-- The number of stacked rows: the rows of all pages. -/
def height (s : Shape) : Checked Nat := do
  Size.mul s.rows (← s.pages)

/-- The layout of the pages. -/
def layout (s : Shape) : Checked PageLayout := do
  return { rows := s.rows, cols := s.cols, count := ← s.pages }

/-- Whether at most one dimension differs from one. -/
def isVector (s : Shape) : Bool :=
  (s.dims.filter fun d => d ≠ 1).length ≤ 1

/-- The dimensions as they stand in a message. -/
def text (s : Shape) : String :=
  "[" ++ ", ".intercalate (s.dims.map fun d => d.repr) ++ "]"

theorem dims_ofDims (rows cols : Nat) (trailing : List Nat) :
    (ofDims (rows :: cols :: trailing)).dims = rows :: cols :: trailing := rfl

theorem ofDims_dims (s : Shape) : ofDims s.dims = s := rfl

end Shape

/-- A product that is computed from the left is the product of the list. -/
theorem Size.foldlM_mul_eq_ok {sizes : List Nat} {start n : Nat}
    (h : sizes.foldlM Size.mul start = (.ok n : Checked Nat)) :
    n = sizes.foldl (· * ·) start := by
  induction sizes generalizing start with
  | nil => cases h; rfl
  | cons d ds ih =>
    rw [List.foldlM_cons] at h
    cases hm : Size.mul start d with
    | error e => rw [hm] at h; contradiction
    | ok k =>
      rw [hm] at h
      have hk := (Size.mul_eq_ok_iff.1 hm).1
      rw [List.foldl_cons, ← hk]
      exact ih h

/-- The computed number of cells is the number of cells. -/
theorem Shape.cellCount_eq_ok {s : Shape} {n : Nat} (h : s.cellCount = .ok n) : n = s.size :=
  Size.foldlM_mul_eq_ok h

end DenseLinear
