import DenseLinear.PagedMatrix.Basic

/-!
# Building matrices

Matrices from a single entry, from rows, from pages and from a buffer; zero matrices, identities
and column permutations. A matrix that is built from given entries gets the kind of those entries.

`wellFormed_ofBuffer` and `wellFormed_zerosOf`: what is built is well formed.
-/

namespace DenseLinear

namespace PagedMatrix

variable {α ρ : Type} [RealArith ρ] [Scalar α ρ]

/-- The `rows × cols` matrix whose entries all are `x`. -/
def replicate (rows cols : Nat) (x : α) : Checked (PagedMatrix α) := do
  let count ← Size.mul rows cols
  allocate (Scalar.bytes α) count
  return refreshKind { shape := { rows, cols }, data := .replicate count x }

omit [RealArith ρ] in
/-- The zero matrix of a shape. -/
def zerosOf (shape : Shape) : Checked (PagedMatrix α) := do
  let count ← shape.cellCount
  allocate (Scalar.bytes α) count
  return { shape, data := .replicate count 0 }

omit [RealArith ρ] in
/-- The `rows × cols` zero matrix. -/
def zeros (rows cols : Nat) : Checked (PagedMatrix α) :=
  zerosOf { rows, cols }

omit [RealArith ρ] in
/-- The `n × n` identity matrix. -/
def identity (n : Nat) : Checked (PagedMatrix α) := do
  ascend 0 n (← zeros n n) fun i a => a.set i i 1

omit [RealArith ρ] in
/-- The array of a shape with ones on the diagonal of every page. -/
def identityOf (shape : Shape) : Checked (PagedMatrix α) := do
  let a ← zerosOf shape
  let layout ← a.layout
  ascend 0 layout.count a fun page a =>
    ascend 0 (min layout.rows layout.cols) a fun i a => do
      a.set (← layout.rowOf page i) i 1

/-- The matrix with the given rows. The first row decides on the number of columns: a shorter row
is filled up with zeros, and a longer one is cut off. -/
def ofRows (rows : Array (Array α)) : Checked (PagedMatrix α) := do
  let cols := (rows[0]?.map Array.size).getD 0
  let a ← ascend 0 rows.size (← zeros rows.size cols) fun i a => do
    let row ← readAt rows i
    ascend 0 (min row.size cols) a fun j a => do
      a.set i j (← readAt row j)
  return a.refreshKind

/-- The array with the given pages, which must have equal sizes. -/
def ofPages (pages : Array (Array (Array α))) : Fallible (PagedMatrix α) := do
  let firstPage := pages[0]?.getD #[]
  let rows := firstPage.size
  let cols := (firstPage[0]?.map Array.size).getD 0
  let count ← Size.mul (← Size.mul pages.size rows) cols
  allocate (Scalar.bytes α) count
  let data ← pages.foldlM (fun data page => do
    if page.size ≠ rows then
      throw (.lengthMismatch "Matrix::from_pages" rows page.size)
    page.foldlM (fun data row => do
      if row.size ≠ cols then
        throw (.lengthMismatch "Matrix::from_pages" cols row.size)
      return data ++ row) data) #[]
  return refreshKind { shape := { rows, cols, trailing := [pages.size] }, data }

/-- The array of a shape over the given buffer. -/
def ofBuffer (shape : Shape) (data : Array α) : Fallible (PagedMatrix α) := do
  let count ← shape.cellCount
  if data.size = count then
    return refreshKind { shape, data }
  else
    throw (.lengthMismatch "Matrix::from_flat" count data.size)

/-- The matrix whose only column is `entries`. -/
def ofColumn (entries : Array α) : PagedMatrix α :=
  refreshKind { shape := { rows := entries.size, cols := 1 }, data := entries }

/-- The matrix whose only row is `entries`. -/
def ofRow (entries : Array α) : PagedMatrix α :=
  refreshKind { shape := { rows := 1, cols := entries.size }, data := entries }

omit [RealArith ρ] in
/-- The matrix `P` for which column `j` of `A * P` is column `sources[j]` of `A`. -/
def columnPermutation (sources : Array Nat) : Fallible (PagedMatrix α) := do
  let n := sources.size
  let a ← zeros n n
  ascend 0 n a fun j a => do
    let source ← checked (readAt sources j)
    if n ≤ source then
      throw (.indexOutOfRange "lapmt_matrix" source n)
    a.set source j 1

omit [RealArith ρ] in
/-- A zero matrix has the shape it was asked for, and is well formed. -/
theorem wellFormed_zerosOf {shape : Shape} {a : PagedMatrix α}
    (h : (zerosOf shape : Checked (PagedMatrix α)) = .ok a) : a.WellFormed ∧ a.shape = shape := by
  unfold zerosOf at h
  cases hc : shape.cellCount with
  | error e => simp [hc, bind, Except.bind] at h
  | ok n =>
    have hn := Shape.cellCount_eq_ok hc
    cases ha : allocate (Scalar.bytes α) n with
    | error e => simp [hc, ha, bind, Except.bind] at h
    | ok u =>
      simp only [hc, ha, bind, Except.bind, pure, Except.pure, Except.ok.injEq] at h
      subst h
      exact ⟨by simp [WellFormed, hn], rfl⟩

/-- A buffer is taken as it is if it has as many entries as the shape has cells. -/
theorem run_ofBuffer (shape : Shape) (data : Array α) :
    (ofBuffer shape data).run =
      match shape.cellCount with
      | .error fault => .error fault
      | .ok count =>
        if data.size = count then
          .ok (.ok (refreshKind { shape, data }))
        else
          .ok (.error (.lengthMismatch "Matrix::from_flat" count data.size)) := by
  unfold ofBuffer
  cases shape.cellCount with
  | error fault => rfl
  | ok count =>
    change (if data.size = count then (_ : Fallible (PagedMatrix α)) else _) =
      if data.size = count then _ else _
    by_cases hs : data.size = count
    · rw [if_pos hs, if_pos hs]
      rfl
    · rw [if_neg hs, if_neg hs]
      rfl

/-- A matrix over a buffer has the shape it was asked for, and is well formed. -/
theorem wellFormed_ofBuffer {shape : Shape} {data : Array α} {a : PagedMatrix α}
    (h : (ofBuffer shape data).run = .ok (.ok a)) : a.WellFormed ∧ a.shape = shape := by
  rw [run_ofBuffer] at h
  split at h
  · contradiction
  · rename_i count hc
    split at h
    · rename_i hs
      have hcells := Shape.cellCount_eq_ok hc
      cases h
      exact ⟨hs.trans hcells, rfl⟩
    · cases h

end PagedMatrix

end DenseLinear
