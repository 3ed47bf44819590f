import DenseLinear.Loop
import DenseLinear.Refusal
import DenseLinear.Scalar.Basic
import DenseLinear.Shape

/-!
# Paged matrices

A paged matrix is a shape, a buffer and the kind of its entries. The buffer holds the stacked rows
one after the other, so the cell in stacked row `r` and column `c` is entry `r * cols + c`.

Cells and rows are checked against the buffer, not against the shape: a column beyond the last one
is a cell of a following row, as long as there is one. A matrix is *well formed* if its buffer has
as many entries as its shape has cells; then the cells of the shape are the entries of the buffer.

The kind of a matrix is a record about its contents that kernels refresh at their end
(`PagedMatrix.refreshKind`).
-/

namespace DenseLinear

/-- The kind of the entries of a matrix. -/
inductive NumericKind where
  /-- All entries are real. -/
  | real
  /-- Some entry is not real. -/
  | complex
  /-- All entries are zero or one, and stand for truth values. -/
  | logical
deriving DecidableEq, Repr

/-- The name of a kind. -/
def NumericKind.name : NumericKind → String
  | .real => "Real"
  | .complex => "Complex"
  | .logical => "Logical"

/-- A matrix of entries in `α`, whose pages are stacked along the rows. -/
structure PagedMatrix (α : Type) where
  /-- The dimensions. -/
  shape : Shape
  /-- The entries, stacked row by stacked row. -/
  data : Array α
  /-- The kind of the entries. -/
  kind : NumericKind := .real

namespace PagedMatrix

variable {α : Type}

/-- The rows of a page. -/
abbrev rows (a : PagedMatrix α) : Nat := a.shape.rows

/-- The columns. -/
abbrev cols (a : PagedMatrix α) : Nat := a.shape.cols

/-- The number of entries. -/
abbrev size (a : PagedMatrix α) : Nat := a.data.size

/-- The number of pages. -/
def pages (a : PagedMatrix α) : Checked Nat := a.shape.pages

/-- The number of stacked rows. -/
def height (a : PagedMatrix α) : Checked Nat := a.shape.height

/-- The layout of the pages. -/
def layout (a : PagedMatrix α) : Checked PageLayout := a.shape.layout

/-- The buffer has as many entries as the shape has cells. -/
def WellFormed (a : PagedMatrix α) : Prop := a.data.size = a.shape.size

/-- Two matrices are equal if their shapes and kinds are and their entries compare equal. -/
instance [BEq α] : BEq (PagedMatrix α) :=
  ⟨fun a b => a.data == b.data && a.shape == b.shape && a.kind == b.kind⟩

/-! ## Cells and rows -/

/-- The entry in stacked row `r` and column `c`. -/
def get (a : PagedMatrix α) (r c : Nat) : Checked α :=
  readAt a.data (r * a.cols + c)

/-- The matrix with `x` in stacked row `r` and column `c`. -/
def set (a : PagedMatrix α) (r c : Nat) (x : α) : Checked (PagedMatrix α) :=
  if h : r * a.cols + c < a.data.size then
    .ok { a with data := a.data.set (r * a.cols + c) x h }
  else
    .error .outOfRange

/-- The matrix with the cells `(r, c)` and `(s, d)` exchanged. -/
def swapCells (a : PagedMatrix α) (r c s d : Nat) : Checked (PagedMatrix α) :=
  if h : r * a.cols + c < a.data.size ∧ s * a.cols + d < a.data.size then
    .ok { a with data := a.data.swap (r * a.cols + c) (s * a.cols + d) h.1 h.2 }
  else
    .error .outOfRange

/-- Admits stacked row `r`: the row is a window of the buffer, and so is its end a size. -/
def checkRow (a : PagedMatrix α) (r : Nat) : Checked Unit := do
  let next ← Size.add r 1
  checkWindow (r * a.cols) (next * a.cols) a.data.size

/-- Admits the columns `[start, stop)` of stacked row `r`. -/
def checkRowWindow (a : PagedMatrix α) (r start stop : Nat) : Checked Unit := do
  a.checkRow r
  checkWindow start stop a.cols

/-- The entries of stacked row `r`. -/
def row (a : PagedMatrix α) (r : Nat) : Checked (Array α) := do
  a.checkRow r
  return a.data.extract (r * a.cols) ((r + 1) * a.cols)

/-- The entries of column `c` of the first page. -/
def column (a : PagedMatrix α) (c : Nat) : Checked (Array α) :=
  ascend 0 a.rows #[] fun r entries => do
    return entries.push (← a.get r c)

@[simp]
theorem shape_of_set {a b : PagedMatrix α} {r c : Nat} {x : α} (h : a.set r c x = .ok b) :
    b.shape = a.shape := by
  unfold set at h
  split at h
  · cases h; rfl
  · contradiction

theorem get_eq_ok {a : PagedMatrix α} {r c : Nat} (h : r * a.cols + c < a.data.size) :
    a.get r c = .ok a.data[r * a.cols + c] :=
  readAt_eq_ok h

theorem set_eq_ok {a : PagedMatrix α} {r c : Nat} (h : r * a.cols + c < a.data.size) (x : α) :
    a.set r c x = .ok { a with data := a.data.set (r * a.cols + c) x h } := by
  simp [set, h]

/-! ## The kind of the entries -/

/-- The matrix marked as logical. -/
def markLogical (a : PagedMatrix α) : PagedMatrix α :=
  { a with kind := .logical }

/-- The kind that entries have of themselves. A logical matrix stays logical as long as every entry
is one of the real numbers zero and one. -/
def kindOf {ρ : Type} [RealArith ρ] [Scalar α ρ] (old : NumericKind) (data : Array α) :
    NumericKind :=
  if data.any fun x => !Scalar.isReal x then
    .complex
  else if old == .logical && data.all Scalar.isBit then
    .logical
  else
    .real

/-- The matrix with its kind brought up to date. -/
def refreshKind {ρ : Type} [RealArith ρ] [Scalar α ρ] (a : PagedMatrix α) : PagedMatrix α :=
  { a with kind := kindOf a.kind a.data }

end PagedMatrix

end DenseLinear
