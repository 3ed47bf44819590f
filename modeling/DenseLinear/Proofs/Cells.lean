import Mathlib.Tactic.SplitIfs
import DenseLinear.PagedMatrix.Edit
import DenseLinear.Proofs.Loops

/-!
# Matrices by their cells

A kernel changes a matrix cell by cell. To say what becomes of it, a matrix is written as
`ofCells shape kind height f`: the matrix of a shape and a kind with `height` stacked rows, whose
cell in row `r` and column `c` is `f r c`. Each operation then is an equation between two such
matrices (`get_ofCells`, `set_ofCells`, `swapCells_ofCells`), and a loop over cells is a sequence
of functions `Nat → Nat → α` (`ascend_ofCells`); a loop nest that writes a rectangle overwrites its
cells (`fill_ofCells`).

Every matrix that a buffer can hold has this form (`Stored.eq_ofCells`): a well-formed matrix whose
entries fit into memory.
-/

namespace DenseLinear

namespace PagedMatrix

variable {α : Type}

/-- The matrix of a shape and a kind with `height` stacked rows and the entries `f`. -/
def ofCells (shape : Shape) (kind : NumericKind) (height : Nat) (f : Nat → Nat → α) :
    PagedMatrix α :=
  { shape, kind
    data := Array.ofFn fun i : Fin (height * shape.cols) => f (i / shape.cols) (i % shape.cols) }

/-- The entry in stacked row `r` and column `c`, and zero beyond the end of the buffer. -/
def cell [Zero α] (a : PagedMatrix α) (r c : Nat) : α := a.data.getD (r * a.cols + c) 0

/-- Two matrices have the same rows, columns and entries. -/
structure SameEntries (a b : PagedMatrix α) : Prop where
  /-- They have the same rows. -/
  rows : a.rows = b.rows
  /-- They have the same columns. -/
  cols : a.cols = b.cols
  /-- They have the same entries. -/
  data : a.data = b.data

/-- Two functions have the same values on `height` rows of `width` columns. -/
def AgreeOn (height width : Nat) (f g : Nat → Nat → α) : Prop :=
  ∀ r c, r < height → c < width → f r c = g r c

/-- The function `f` with the value `x` in row `r` and column `c`. -/
def setCell (f : Nat → Nat → α) (r c : Nat) (x : α) : Nat → Nat → α :=
  fun i j => if i = r ∧ j = c then x else f i j

/-- The cells `f` with those of `g` in the rows `[r0, r1)` and the columns `[c0, c1)`. -/
def overwrite (r0 r1 c0 c1 : Nat) (g f : Nat → Nat → α) : Nat → Nat → α :=
  fun r c => if (r0 ≤ r ∧ r < r1) ∧ c0 ≤ c ∧ c < c1 then g r c else f r c

/-! ## Places in the buffer -/

theorem place_lt {height width r c : Nat} (hr : r < height) (hc : c < width) :
    r * width + c < height * width := by
  have h : (r + 1) * width ≤ height * width := Nat.mul_le_mul_right width hr
  have h' : (r + 1) * width = r * width + width := Nat.succ_mul r width
  omega

theorem place_div {width r c : Nat} (hc : c < width) : (r * width + c) / width = r := by
  have hw : 0 < width := Nat.zero_lt_of_lt hc
  rw [Nat.add_comm, Nat.add_mul_div_right _ _ hw, Nat.div_eq_of_lt hc, Nat.zero_add]

theorem place_mod {width r c : Nat} (hc : c < width) : (r * width + c) % width = c := by
  rw [Nat.add_comm, Nat.add_mul_mod_self_right, Nat.mod_eq_of_lt hc]

/-- A place is in row `r` and column `c` if its quotient and its remainder are. -/
theorem place_eq_iff {width r c i : Nat} (hc : c < width) :
    i = r * width + c ↔ i / width = r ∧ i % width = c := by
  constructor
  · rintro rfl
    exact ⟨place_div hc, place_mod hc⟩
  · rintro ⟨rfl, rfl⟩
    have h := Nat.div_add_mod i width
    have h' : width * (i / width) = i / width * width := Nat.mul_comm _ _
    omega

/-- The row of a place in the buffer is one of the stacked rows. -/
theorem div_lt_of_place {height width i : Nat} (hi : i < height * width) :
    i / width < height ∧ i % width < width := by
  have hw : 0 < width := by
    rcases Nat.eq_zero_or_pos width with h0 | hpos
    · rw [h0] at hi
      omega
    · exact hpos
  exact ⟨Nat.div_lt_of_lt_mul (by rwa [Nat.mul_comm]), Nat.mod_lt _ hw⟩

/-! ## The operations on cells -/

section Operations

variable {shape : Shape} {kind : NumericKind} {height : Nat} {f g : Nat → Nat → α}

@[simp]
theorem shape_ofCells : (ofCells shape kind height f).shape = shape := rfl

@[simp]
theorem rows_ofCells : (ofCells shape kind height f).rows = shape.rows := rfl

@[simp]
theorem cols_ofCells : (ofCells shape kind height f).cols = shape.cols := rfl

@[simp]
theorem kind_ofCells : (ofCells shape kind height f).kind = kind := rfl

@[simp]
theorem size_ofCells : (ofCells shape kind height f).data.size = height * shape.cols := by
  simp [ofCells]

@[simp]
theorem height_ofCells : (ofCells shape kind height f).height = shape.height := rfl

theorem getElem?_data_ofCells {i : Nat} :
    (ofCells shape kind height f).data[i]? =
      if i < height * shape.cols then some (f (i / shape.cols) (i % shape.cols)) else none := by
  simp [ofCells, Array.getElem?_ofFn]

theorem place_lt_size {r c : Nat} (hr : r < height) (hc : c < shape.cols) :
    r * (ofCells shape kind height f).cols + c < (ofCells shape kind height f).data.size := by
  rw [size_ofCells]
  exact place_lt hr hc

theorem getElem?_place {r c : Nat} (hr : r < height) (hc : c < shape.cols) :
    (ofCells shape kind height f).data[r * (ofCells shape kind height f).cols + c]? =
      some (f r c) := by
  rw [getElem?_data_ofCells, cols_ofCells, if_pos (place_lt hr hc), place_div hc, place_mod hc]

theorem ofCells_congr (h : AgreeOn height shape.cols f g) :
    ofCells shape kind height f = ofCells shape kind height g := by
  unfold ofCells
  congr 2
  funext i
  obtain ⟨hr, hc⟩ := div_lt_of_place i.isLt
  exact h _ _ hr hc

/-- The buffer is given by the cells, whatever rows and pages they are divided into. -/
theorem data_ofCells_congr {t : Shape} {kind' : NumericKind} (hcols : shape.cols = t.cols)
    (h : AgreeOn height shape.cols f g) :
    (ofCells shape kind height f).data = (ofCells t kind' height g).data := by
  refine Array.ext_getElem? fun i => ?_
  rw [getElem?_data_ofCells, getElem?_data_ofCells, ← hcols]
  split
  · rename_i hi
    obtain ⟨hr, hc⟩ := div_lt_of_place hi
    rw [h _ _ hr hc]
  · rfl

/-- Matrices with the same extents and cells have the same entries, whatever their trailing
dimensions. -/
theorem sameEntries_ofCells {t : Shape} {kind' : NumericKind} (hrows : shape.rows = t.rows)
    (hcols : shape.cols = t.cols) (h : AgreeOn height shape.cols f g) :
    (ofCells shape kind height f).SameEntries (ofCells t kind' height g) :=
  ⟨hrows, hcols, data_ofCells_congr hcols h⟩

/-- A matrix is determined by its shape, its kind and the entries in its buffer. -/
theorem eq_ofCells {a : PagedMatrix α} (hshape : a.shape = shape) (hkind : a.kind = kind)
    (hdata : ∀ i, a.data[i]? =
      if i < height * shape.cols then some (f (i / shape.cols) (i % shape.cols)) else none) :
    a = ofCells shape kind height f := by
  subst hshape hkind
  -- both buffers hold the same entries, and the rest of the record is given
  have h : a.data = (ofCells a.shape a.kind height f).data := by
    apply Array.ext_getElem?
    intro i
    rw [hdata, getElem?_data_ofCells]
  exact congrArg (fun data => (⟨a.shape, data, a.kind⟩ : PagedMatrix α)) h

/-- A matrix whose buffer holds whole rows is the matrix of its cells. -/
theorem eq_ofCells_cell [Zero α] {a : PagedMatrix α} (h : a.data.size = height * a.cols) :
    a = ofCells a.shape a.kind height a.cell := by
  refine eq_ofCells rfl rfl fun i => ?_
  have hplace : i / a.cols * a.cols + i % a.cols = i := by
    rw [Nat.mul_comm]
    exact Nat.div_add_mod i a.cols
  simp only [cell, hplace, ← h]
  split
  · rename_i hi
    simp [hi]
  · rename_i hi
    simpa using hi

theorem get_ofCells {r c : Nat} (hr : r < height) (hc : c < shape.cols) :
    (ofCells shape kind height f).get r c = .ok (f r c) := by
  rw [get_eq_ok (place_lt_size hr hc)]
  have h : (ofCells shape kind height f).data[r * (ofCells shape kind height f).cols + c]? =
      some (f r c) := getElem?_place hr hc
  rw [Array.getElem?_eq_getElem (place_lt_size hr hc)] at h
  exact congrArg Except.ok (Option.some.inj h)

/-- Beyond the buffer there is nothing to read, whatever the cells are. -/
theorem get_ofCells_congr {shape' : Shape} {kind' : NumericKind} {r c d : Nat}
    (hc : c < shape.cols) (hd : d < shape'.cols) (h : r < height → f r c = g r d) :
    (ofCells shape kind height f).get r c = (ofCells shape' kind' height g).get r d := by
  rcases Nat.lt_or_ge r height with hr | hr
  · rw [get_ofCells hr hc, get_ofCells hr hd, h hr]
  · have hbeyond : height * shape.cols ≤ r * shape.cols := Nat.mul_le_mul_right _ hr
    have hbeyond' : height * shape'.cols ≤ r * shape'.cols := Nat.mul_le_mul_right _ hr
    unfold get readAt
    rw [dif_neg, dif_neg]
    · rw [size_ofCells, cols_ofCells]
      omega
    · rw [size_ofCells, cols_ofCells]
      omega

theorem cell_ofCells [Zero α] {r c : Nat} (hr : r < height) (hc : c < shape.cols) :
    (ofCells shape kind height f).cell r c = f r c := by
  rw [cell, Array.getD_eq_getD_getElem?, getElem?_place hr hc, Option.getD_some]

theorem get_eq_cell [Zero α] {a : PagedMatrix α} {r c : Nat} (hsize : a.data.size = height * a.cols)
    (hr : r < height) (hc : c < a.cols) : a.get r c = .ok (a.cell r c) := by
  have h : (ofCells a.shape a.kind height a.cell).get r c = .ok (a.cell r c) := get_ofCells hr hc
  rwa [← eq_ofCells_cell hsize] at h

theorem set_ofCells {r c : Nat} (hr : r < height) (hc : c < shape.cols) (x : α) :
    (ofCells shape kind height f).set r c x = .ok (ofCells shape kind height (setCell f r c x)) := by
  have hlt : r * (ofCells shape kind height f).cols + c < (ofCells shape kind height f).data.size :=
    place_lt_size hr hc
  rw [set_eq_ok hlt]
  refine congrArg Except.ok (eq_ofCells rfl rfl fun i => ?_)
  rw [size_ofCells] at hlt
  simp only [Array.getElem?_set, getElem?_data_ofCells, cols_ofCells] at hlt ⊢
  unfold setCell
  -- two cells are the same place of the buffer only if they are the same cell
  by_cases h : r * shape.cols + c = i
  · rw [if_pos h, ← h, if_pos hlt, if_pos ((place_eq_iff hc).1 rfl)]
  · rw [if_neg h, if_neg fun h' => h ((place_eq_iff hc).2 h').symm]

theorem swapCells_ofCells {r c s d : Nat} (hr : r < height) (hc : c < shape.cols)
    (hs : s < height) (hd : d < shape.cols) :
    (ofCells shape kind height f).swapCells r c s d =
      .ok (ofCells shape kind height (setCell (setCell f r c (f s d)) s d (f r c))) := by
  have h1 : r * (ofCells shape kind height f).cols + c < (ofCells shape kind height f).data.size :=
    place_lt_size hr hc
  have h2 : s * (ofCells shape kind height f).cols + d < (ofCells shape kind height f).data.size :=
    place_lt_size hs hd
  unfold swapCells
  rw [dif_pos ⟨h1, h2⟩]
  refine congrArg Except.ok (eq_ofCells rfl rfl fun i => ?_)
  rw [Array.getElem?_swap, ← Array.getElem?_eq_getElem h1, ← Array.getElem?_eq_getElem h2,
    getElem?_place hr hc, getElem?_place hs hd, getElem?_data_ofCells, cols_ofCells]
  rw [size_ofCells, cols_ofCells] at h1 h2
  unfold setCell
  -- the second cell is looked at first, as the second of the two writes wins
  by_cases hi2 : s * shape.cols + d = i
  · rw [if_pos hi2, ← hi2, if_pos h2, if_pos ((place_eq_iff hd).1 rfl)]
  · rw [if_neg hi2, if_neg fun h' => hi2 ((place_eq_iff hd).2 h').symm]
    by_cases hi1 : r * shape.cols + c = i
    · rw [if_pos hi1, ← hi1, if_pos h1, if_pos ((place_eq_iff hc).1 rfl)]
    · rw [if_neg hi1, if_neg fun h' => hi1 ((place_eq_iff hc).2 h').symm]

/-- Every stacked row is a window of the buffer. -/
theorem checkRow_eq_ok {a : PagedMatrix α} {r : Nat} (hsize : a.data.size = height * a.cols)
    (hr : r < height) (hheight : height < Size.limit) : a.checkRow r = .ok () := by
  have hle : (r + 1) * a.cols ≤ height * a.cols := Nat.mul_le_mul_right _ hr
  have hle' : r * a.cols ≤ (r + 1) * a.cols := Nat.mul_le_mul_right _ (Nat.le_succ r)
  unfold checkRow
  rw [Size.add_eq_ok (by omega), ok_bind]
  exact checkWindow_eq_ok hle' (by rwa [hsize])

theorem checkRow_ofCells {r : Nat} (hr : r < height) (hheight : height < Size.limit) :
    (ofCells shape kind height f).checkRow r = .ok () :=
  checkRow_eq_ok size_ofCells hr hheight

theorem checkRowWindow_ofCells {r start stop : Nat} (hr : r < height) (hheight : height < Size.limit)
    (hle : start ≤ stop) (hstop : stop ≤ shape.cols) :
    (ofCells shape kind height f).checkRowWindow r start stop = .ok () := by
  unfold checkRowWindow
  rw [checkRow_ofCells hr hheight, ok_bind]
  exact checkWindow_eq_ok hle hstop

/-- A loop over cells, given by the entries before each position. -/
theorem ascend_ofCells {step : Nat → PagedMatrix α → Checked (PagedMatrix α)} {lo hi : Nat}
    (F : Nat → Nat → Nat → α) (hle : lo ≤ hi) (hlo : AgreeOn height shape.cols f (F lo))
    (hhi : AgreeOn height shape.cols (F hi) g)
    (hstep : ∀ i, lo ≤ i → i < hi →
      step i (ofCells shape kind height (F i)) = .ok (ofCells shape kind height (F (i + 1)))) :
    ascend lo hi (ofCells shape kind height f) step = .ok (ofCells shape kind height g) := by
  exact ascend_eq_ok (fun i => ofCells shape kind height (F i)) hle (ofCells_congr hlo).symm
    (ofCells_congr hhi) hstep

/-- `ascend_ofCells` for striding loops. -/
theorem strides_ofCells {step : Nat → PagedMatrix α → Checked (PagedMatrix α)} {lo hi width : Nat}
    (F : Nat → Nat → Nat → α) (hwidth : 0 < width) (hle : lo ≤ hi)
    (hlo : AgreeOn height shape.cols f (F lo)) (hhi : AgreeOn height shape.cols (F hi) g)
    (hstep : ∀ i, lo ≤ i → i < hi → width ∣ i - lo →
      step i (ofCells shape kind height (F i)) =
        .ok (ofCells shape kind height (F (min (i + width) hi)))) :
    strides lo hi width (ofCells shape kind height f) step = .ok (ofCells shape kind height g) := by
  exact strides_eq_ok (fun i => ofCells shape kind height (F i)) hwidth hle
    (ofCells_congr hlo).symm (ofCells_congr hhi) hstep

/-- Two nested loops that write the cells of a rectangle one by one. A cell may be computed from its
old value and from the cells outside the rectangle. -/
theorem fill_ofCells {rowStep : Nat → PagedMatrix α → Checked (PagedMatrix α)}
    {cellStep : Nat → Nat → PagedMatrix α → Checked (PagedMatrix α)} {lo hi lo' hi' : Nat}
    {f' : Nat → Nat → α} (r0 c0 : Nat) (hle : lo ≤ hi) (hle' : lo' ≤ hi')
    (hrow : ∀ i F, lo ≤ i → i < hi → rowStep i (ofCells shape kind height F) =
      ascend lo' hi' (ofCells shape kind height F) (cellStep i))
    (hend : AgreeOn height shape.cols
      (overwrite r0 (r0 + (hi - lo)) c0 (c0 + (hi' - lo')) g f) f')
    (hcell : ∀ i j F, lo ≤ i → i < hi → lo' ≤ j → j < hi' →
      (∀ r c, r = r0 + (i - lo) ∧ c = c0 + (j - lo') ∨
        ¬((r0 ≤ r ∧ r < r0 + (hi - lo)) ∧ c0 ≤ c ∧ c < c0 + (hi' - lo')) → F r c = f r c) →
      cellStep i j (ofCells shape kind height F) =
        .ok (ofCells shape kind height (setCell F (r0 + (i - lo)) (c0 + (j - lo'))
          (g (r0 + (i - lo)) (c0 + (j - lo')))))) :
    ascend lo hi (ofCells shape kind height f) rowStep =
      .ok (ofCells shape kind height f') := by
  refine ascend_ofCells
    (fun i => overwrite r0 (r0 + (i - lo)) c0 (c0 + (hi' - lo')) g f) hle ?_ hend ?_
  · intro r c _ _
    exact (if_neg (by omega)).symm
  intro i hi1 hi2
  rw [hrow i _ hi1 hi2]
  -- the rows before are finished, and so are the first cells of this row
  refine ascend_ofCells
    (fun j => overwrite (r0 + (i - lo)) (r0 + (i - lo) + 1) c0 (c0 + (j - lo')) g
      (overwrite r0 (r0 + (i - lo)) c0 (c0 + (hi' - lo')) g f)) hle' ?_ ?_ ?_
  · intro r c _ _
    exact (if_neg (by omega)).symm
  · intro r c _ _
    unfold overwrite
    split_ifs <;> first | rfl | omega
  intro j hj1 hj2
  rw [hcell i j _ hi1 hi2 hj1 hj2]
  · refine congrArg Except.ok (ofCells_congr fun r c _ _ => ?_)
    unfold setCell overwrite
    by_cases h : r = r0 + (i - lo) ∧ c = c0 + (j - lo')
    · obtain ⟨rfl, rfl⟩ := h
      rw [if_pos ⟨rfl, rfl⟩, if_pos (by omega)]
    · rw [if_neg h]
      split_ifs <;> first | rfl | omega
  · intro r c h
    unfold overwrite
    split_ifs <;> first | rfl | omega

end Operations

/-! ## Memory -/

section Memory

variable {ρ : Type} [Scalar α ρ]

/-- Memory has room for a buffer of `count` entries. -/
structure Fits (α : Type) {ρ : Type} [Scalar α ρ] (count : Nat) : Prop where
  /-- An entry takes some space. -/
  bytes_pos : 0 < Scalar.bytes α
  /-- The entries can be addressed. -/
  bytes_le : Scalar.bytes α * count ≤ capacityLimit

theorem Fits.mono {count count' : Nat} (h : Fits α count') (hle : count ≤ count') :
    Fits α count :=
  ⟨h.bytes_pos, (Nat.mul_le_mul_left _ hle).trans h.bytes_le⟩

theorem Fits.le_capacityLimit {count : Nat} (h : Fits α count) : count ≤ capacityLimit :=
  (Nat.le_mul_of_pos_left count h.bytes_pos).trans h.bytes_le

theorem Fits.lt_limit {count : Nat} (h : Fits α count) : count < Size.limit :=
  Nat.lt_of_le_of_lt h.le_capacityLimit (by decide)

theorem Fits.allocate_eq_ok {count : Nat} (h : Fits α count) :
    allocate (Scalar.bytes α) count = .ok () := by
  simp [allocate, h.bytes_le]

omit [Scalar α ρ] in
/-- Memory has room for as many sizes as a square of entries has rows. -/
theorem sizeBytes_mul_le {count : Nat} (h : count * count ≤ capacityLimit) :
    sizeBytes * count ≤ capacityLimit := by
  -- a count that is not small has a square beyond every capacity
  have hsmall : count < 2 ^ 32 := by
    by_contra hbig
    have hsquare := Nat.mul_le_mul (Nat.le_of_not_lt hbig) (Nat.le_of_not_lt hbig)
    have hlimit : capacityLimit < 2 ^ 32 * 2 ^ 32 := by decide
    omega
  unfold sizeBytes capacityLimit
  omega

/-- A matrix as it stands in memory: the buffer is the one that the shape asks for, every dimension
is a machine word, and the entries can be addressed. -/
structure Stored (a : PagedMatrix α) : Prop where
  /-- The buffer has as many entries as the shape has cells. -/
  wellFormed : a.WellFormed
  /-- Every dimension is a machine word. -/
  dims_lt : ∀ d ∈ a.shape.dims, d < Size.limit
  /-- Memory has room for the buffer. -/
  fits : Fits α a.size

/-- The matrix has a single page. -/
def SinglePage (a : PagedMatrix α) : Prop := a.pages = .ok 1

omit [Scalar α ρ] in
theorem foldl_mul_eq (sizes : List Nat) (start : Nat) :
    sizes.foldl (· * ·) start = start * sizes.foldl (· * ·) 1 := by
  induction sizes generalizing start with
  | nil => simp
  | cons d ds ih =>
    rw [List.foldl_cons, List.foldl_cons, ih (start * d), ih (1 * d), Nat.one_mul, Nat.mul_assoc]

/-- The matrix has at least one page. -/
def HasPage (a : PagedMatrix α) : Prop := ∀ d ∈ a.shape.trailing, 0 < d

instance (a : PagedMatrix α) : Decidable a.HasPage :=
  inferInstanceAs (Decidable (∀ d ∈ a.shape.trailing, 0 < d))

omit [Scalar α ρ] in
theorem foldl_mul_pos {sizes : List Nat} (hpos : ∀ d ∈ sizes, 0 < d) :
    0 < sizes.foldl (· * ·) 1 := by
  induction sizes with
  | nil => exact Nat.one_pos
  | cons d ds ih =>
    rw [List.foldl_cons, foldl_mul_eq, Nat.one_mul]
    exact Nat.mul_pos (hpos d List.mem_cons_self) (ih fun e he => hpos e (List.mem_cons_of_mem d he))

omit [Scalar α ρ] in
/-- A product of positive sizes is computed if it is a size itself, for no partial product is
greater. -/
theorem foldlM_mul_of_pos {sizes : List Nat} {start : Nat} (hpos : ∀ d ∈ sizes, 0 < d)
    (hlimit : sizes.foldl (· * ·) start < Size.limit) :
    (sizes.foldlM Size.mul start : Checked Nat) = .ok (sizes.foldl (· * ·) start) := by
  induction sizes generalizing start with
  | nil => rfl
  | cons d ds ih =>
    have hrest : ∀ e ∈ ds, 0 < e := fun e he => hpos e (List.mem_cons_of_mem d he)
    have hle : start * d ≤ ds.foldl (· * ·) (start * d) := by
      rw [foldl_mul_eq]
      exact Nat.le_mul_of_pos_right _ (foldl_mul_pos hrest)
    rw [List.foldl_cons] at hlimit ⊢
    rw [List.foldlM_cons, Size.mul_eq_ok (by omega), ok_bind]
    exact ih hrest hlimit

omit [Scalar α ρ] in
/-- The entries of a well-formed matrix are those of its pages. -/
theorem WellFormed.data_size {a : PagedMatrix α} (ha : a.WellFormed) :
    a.data.size = a.rows * a.cols * a.shape.trailing.foldl (· * ·) 1 := by
  have h : a.data.size = a.shape.size := ha
  rw [h, Shape.size, Shape.dims, List.foldl_cons, List.foldl_cons, foldl_mul_eq, Nat.one_mul]

omit [Scalar α ρ] in
/-- The stacked rows are counted if the pages are. -/
theorem exists_pages {shape : Shape} {height : Nat} (h : shape.height = .ok height) :
    ∃ count, shape.pages = .ok count ∧ height = count * shape.rows ∧ height < Size.limit := by
  unfold Shape.height at h
  cases hpages : shape.pages with
  | error fault =>
    rw [hpages] at h
    contradiction
  | ok count =>
    rw [hpages, ok_bind, Size.mul_eq_ok_iff] at h
    obtain ⟨rfl, hlimit⟩ := h
    exact ⟨count, rfl, Nat.mul_comm _ _, hlimit⟩

omit [Scalar α ρ] in
/-- The layout of a shape whose pages are counted. -/
theorem layout_of_pages {shape : Shape} {count : Nat} (h : shape.pages = .ok count) :
    shape.layout = .ok ⟨shape.rows, shape.cols, count⟩ := by
  unfold Shape.layout
  rw [h]
  rfl

/-- The stacked row of a row of a page is computed if it is a size. -/
theorem rowOf_eq_ok {layout : PageLayout} {page i : Nat}
    (h : page * layout.rows + i < Size.limit) :
    layout.rowOf page i = .ok (page * layout.rows + i) := by
  unfold PageLayout.rowOf PageLayout.stride
  rw [Size.mul_eq_ok (by omega), ok_bind, Size.add_eq_ok h]

/-- The stacked rows of a page are computed if they are sizes. -/
theorem rowsOf_eq_ok {layout : PageLayout} {page : Nat}
    (h : page * layout.rows + layout.rows < Size.limit) :
    layout.rowsOf page = .ok (page * layout.rows, page * layout.rows + layout.rows) := by
  unfold PageLayout.rowsOf PageLayout.stride
  rw [Size.mul_eq_ok (by omega), ok_bind, Size.add_eq_ok h]
  rfl

omit [Scalar α ρ] in
/-- A layout is computed if the pages are counted. -/
theorem exists_pages_of_layout {shape : Shape} {layout : PageLayout}
    (h : shape.layout = .ok layout) :
    ∃ count, shape.pages = .ok count ∧ layout = ⟨shape.rows, shape.cols, count⟩ := by
  cases hpages : shape.pages with
  | error fault =>
    unfold Shape.layout at h
    rw [hpages] at h
    contradiction
  | ok count => exact ⟨count, rfl, Except.ok.inj (h.symm.trans (layout_of_pages hpages))⟩

omit [Scalar α ρ] in
/-- The buffer of a well-formed matrix holds the stacked rows one after the other. -/
theorem WellFormed.size_eq {a : PagedMatrix α} {height : Nat} (ha : a.WellFormed)
    (hheight : a.height = .ok height) : a.data.size = height * a.cols := by
  obtain ⟨count, hpages, hcount, -⟩ := exists_pages hheight
  -- the pages are the product of the trailing dimensions
  have hproduct : count = a.shape.trailing.foldl (· * ·) 1 := Size.foldlM_mul_eq_ok hpages
  rw [ha.data_size, ← hproduct, hcount, Nat.mul_right_comm, Nat.mul_comm count]

omit [Scalar α ρ] in
/-- A well-formed matrix that holds all rows up to `bottom` is the matrix of its cells. -/
theorem WellFormed.exists_ofCells [Zero α] {a : PagedMatrix α} {bottom : Nat} (ha : a.WellFormed)
    (hbottom : bottom * a.cols ≤ a.size) :
    ∃ height, bottom ≤ height ∧ a = ofCells a.shape a.kind height a.cell := by
  have hsize := ha.data_size
  rw [Nat.mul_right_comm] at hsize
  -- a buffer without columns holds as many empty rows as one likes
  rcases Nat.eq_zero_or_pos a.cols with hzero | hpos
  · exact ⟨bottom, Nat.le_refl _, eq_ofCells_cell (by rw [hsize, hzero, Nat.mul_zero, Nat.mul_zero])⟩
  · refine ⟨_, ?_, eq_ofCells_cell hsize⟩
    rw [PagedMatrix.size, hsize] at hbottom
    exact Nat.le_of_mul_le_mul_right hbottom hpos

namespace Stored

variable {a : PagedMatrix α} {height : Nat}

theorem rows_lt (ha : a.Stored) : a.rows < Size.limit :=
  ha.dims_lt _ (by simp [Shape.dims])

theorem cols_lt (ha : a.Stored) : a.cols < Size.limit :=
  ha.dims_lt _ (by simp [Shape.dims])

/-- The buffer holds the stacked rows one after the other. -/
theorem size_eq (ha : a.Stored) (hheight : a.height = .ok height) :
    a.data.size = height * a.cols :=
  ha.wellFormed.size_eq hheight

/-- The stacked rows of pages with columns are counted if the pages are. -/
theorem height_of_pages {count : Nat} (ha : a.Stored) (hpages : a.pages = .ok count)
    (hcols : 0 < a.cols) : a.height = .ok (count * a.rows) := by
  have hproduct : count = a.shape.trailing.foldl (· * ·) 1 := Size.foldlM_mul_eq_ok hpages
  have hsize : a.size = a.rows * a.cols * count := hproduct ▸ ha.wellFormed.data_size
  have hlimit := ha.fits.lt_limit
  have hle : a.rows * count ≤ a.rows * a.cols * count :=
    Nat.mul_le_mul_right _ (Nat.le_mul_of_pos_right _ hcols)
  have hpages : a.shape.pages = .ok count := hpages
  unfold PagedMatrix.height Shape.height
  rw [hpages, ok_bind, Nat.mul_comm count]
  exact Size.mul_eq_ok (hle.trans_lt (hsize ▸ hlimit))

theorem eq_ofCells (ha : a.Stored) (hheight : a.height = .ok height) :
    a = ofCells a.shape a.kind height a.cell :=
  eq_ofCells_cell (ha.size_eq hheight)

/-- The stacked rows of a matrix with a single page are its rows. -/
theorem height_eq (ha : a.Stored) (hpage : a.SinglePage) : a.height = .ok a.rows := by
  have h : a.shape.pages = .ok 1 := hpage
  unfold PagedMatrix.height Shape.height
  rw [h, ok_bind, Size.mul_eq_ok (by simpa using ha.rows_lt), Nat.mul_one]

theorem eq_ofCells_of_singlePage (ha : a.Stored) (hpage : a.SinglePage) :
    a = ofCells a.shape a.kind a.rows a.cell :=
  ha.eq_ofCells (ha.height_eq hpage)

theorem fits_of_singlePage (ha : a.Stored) (hpage : a.SinglePage) : Fits α (a.rows * a.cols) := by
  rw [← ha.size_eq (ha.height_eq hpage)]
  exact ha.fits

/-- Memory has room for a column of a single page, if there is one. -/
theorem fits_rows_of_singlePage (ha : a.Stored) (hpage : a.SinglePage) (hcols : 0 < a.cols) :
    Fits α a.rows :=
  (ha.fits_of_singlePage hpage).mono (Nat.le_mul_of_pos_right _ hcols)

/-- The buffer of a matrix with a page holds whole rows, at least those of the first page. Where the
pages have cells, the number of these rows can be computed. -/
theorem exists_height (ha : a.Stored) (hpage : a.HasPage) :
    ∃ height, a.rows ≤ height ∧ height < Size.limit ∧ a.data.size = height * a.cols ∧
      (0 < a.rows → 0 < a.cols → a.height = .ok height) := by
  have hpages := foldl_mul_pos hpage
  have hlimit := ha.fits.lt_limit
  have hwf := ha.wellFormed.data_size
  unfold PagedMatrix.size at hlimit
  rcases Nat.eq_zero_or_pos a.rows with hrows | hrows
  · refine ⟨0, hrows.le, by decide, ?_, fun h => absurd h (by omega)⟩
    rw [hwf, hrows, Nat.zero_mul, Nat.zero_mul]
  rcases Nat.eq_zero_or_pos a.cols with hcols | hcols
  · refine ⟨a.rows, Nat.le_refl _, ha.rows_lt, ?_, fun _ h => absurd h (by omega)⟩
    rw [hwf, hcols, Nat.mul_zero, Nat.zero_mul]
  -- no page is empty, so there are not more stacked rows than entries
  generalize hcount : a.shape.trailing.foldl (· * ·) 1 = count at hwf hpages
  have hle : a.rows * count ≤ a.data.size := by
    rw [hwf, Nat.mul_right_comm]
    exact Nat.le_mul_of_pos_right _ hcols
  have hle' : count ≤ a.rows * count := Nat.le_mul_of_pos_left _ hrows
  refine ⟨a.rows * count, Nat.le_mul_of_pos_right _ hpages, by omega, ?_, fun _ _ => ?_⟩
  · rw [hwf, Nat.mul_right_comm]
  · unfold PagedMatrix.height Shape.height Shape.pages Size.product
    rw [foldlM_mul_of_pos hpage (by omega), ok_bind, hcount,
      Size.mul_eq_ok (Nat.lt_of_le_of_lt hle hlimit)]

/-- Other entries take the same memory. -/
theorem of_shape_eq {b : PagedMatrix α} (ha : a.Stored) (hshape : b.shape = a.shape)
    (hsize : b.data.size = a.data.size) : b.Stored := by
  refine ⟨?_, ?_, ?_⟩
  · unfold WellFormed
    rw [hsize, hshape]
    exact ha.wellFormed
  · rw [hshape]
    exact ha.dims_lt
  · rw [PagedMatrix.size, hsize]
    exact ha.fits

/-- A matrix with a page is the matrix of its cells. -/
theorem exists_ofCells (ha : a.Stored) (hpage : a.HasPage) :
    ∃ shape kind height f, a = ofCells shape kind height f ∧ shape.rows ≤ height ∧
      height < Size.limit ∧
      (0 < shape.rows → 0 < shape.cols → shape.height = .ok height) := by
  obtain ⟨height, hrows, hlimit, hsize, hheight⟩ := ha.exists_height hpage
  exact ⟨a.shape, a.kind, height, a.cell, eq_ofCells_cell hsize, hrows, hlimit, hheight⟩

/-- Memory has room for a column of the first page, if there is one. -/
theorem fits_rows {shape : Shape} {kind : NumericKind} {f : Nat → Nat → α}
    (ha : (ofCells shape kind height f).Stored) (hrows : shape.rows ≤ height)
    (hcols : 0 < shape.cols) : Fits α shape.rows := by
  have h := ha.fits
  rw [PagedMatrix.size, size_ofCells] at h
  exact h.mono (hrows.trans (Nat.le_mul_of_pos_right _ hcols))

/-- A matrix given by its cells has the entries of one with a single page if their extents and cells
are the same. -/
theorem ofCells_sameEntries_iff {shape : Shape} {kind : NumericKind} {f : Nat → Nat → α}
    (ha : a.Stored) (hpage : a.SinglePage) :
    (ofCells shape kind shape.rows f).SameEntries a ↔
      shape.rows = a.rows ∧ shape.cols = a.cols ∧ AgreeOn shape.rows shape.cols f a.cell := by
  constructor
  · rintro ⟨hrows, hcols, hdata⟩
    refine ⟨hrows, hcols, fun r c hr hc => ?_⟩
    have hcell : (ofCells shape kind shape.rows f).cell r c = a.cell r c := by
      rw [cell, cell, hcols, hdata]
    rwa [cell_ofCells hr hc] at hcell
  · rintro ⟨hrows, hcols, hcells⟩
    refine ⟨hrows, hcols, Array.ext_getElem? fun i => ?_⟩
    have hcols' : shape.cols = a.shape.cols := hcols
    rw [ha.eq_ofCells_of_singlePage hpage, getElem?_data_ofCells, getElem?_data_ofCells, ← hrows,
      ← hcols']
    -- every place belongs to a row and a column
    split
    · rename_i hi
      obtain ⟨hr, hc⟩ := div_lt_of_place hi
      rw [hcells _ _ hr hc]
    · rfl

end Stored

omit [Scalar α ρ] in
/-- The stacked rows of a shape without trailing dimensions are its rows. -/
theorem height_of_plain {rows cols : Nat} (hrows : rows < Size.limit) :
    ({ rows, cols } : Shape).height = .ok rows := by
  have h : ({ rows, cols } : Shape).height = Size.mul rows 1 := rfl
  rw [h, Size.mul_eq_ok (by omega), Nat.mul_one]

theorem stored_ofCells {rows cols : Nat} {kind : NumericKind} {f : Nat → Nat → α}
    (hrows : rows < Size.limit) (hcols : cols < Size.limit) (hfits : Fits α (rows * cols)) :
    (ofCells { rows, cols } kind rows f).Stored := by
  refine ⟨?_, ?_, ?_⟩
  · simp [WellFormed, Shape.size, Shape.dims]
  · intro d hd
    simp only [shape_ofCells, Shape.dims, List.mem_cons, List.not_mem_nil, or_false] at hd
    rcases hd with rfl | rfl <;> assumption
  · unfold PagedMatrix.size
    rw [size_ofCells]
    exact hfits

omit [Scalar α ρ] in
theorem getElem?_replicate_cells {height width i : Nat} (x : α) :
    (Array.replicate (height * width) x)[i]? =
      if i < height * width then some ((fun _ _ => x : Nat → Nat → α) (i / width) (i % width))
      else none := by
  simp [Array.getElem?_replicate]

omit [Scalar α ρ] in
/-- The cells of a shape without trailing dimensions are counted by one product. -/
theorem cellCount_of_plain {rows cols : Nat} (hrows : rows < Size.limit) :
    ({ rows, cols } : Shape).cellCount = Size.mul rows cols := by
  have hfirst : Size.mul 1 rows = .ok rows := by
    rw [Size.mul_eq_ok (by omega), Nat.one_mul]
  simp only [Shape.cellCount, Shape.dims, Size.product, List.foldlM_cons, List.foldlM_nil, hfirst,
    ok_bind]
  exact bind_pure _

/-- A zero matrix is allocated if memory has room for it. -/
theorem zeros_eq_ok {rows cols : Nat} (hrows : rows < Size.limit) (hfits : Fits α (rows * cols)) :
    (zeros rows cols : Checked (PagedMatrix α)) =
      .ok (ofCells { rows, cols } .real rows fun _ _ => 0) := by
  unfold zeros zerosOf
  rw [cellCount_of_plain hrows, Size.mul_eq_ok hfits.lt_limit, ok_bind, hfits.allocate_eq_ok,
    ok_bind]
  exact congrArg Except.ok (PagedMatrix.eq_ofCells rfl rfl fun i => getElem?_replicate_cells 0)

/-- Without room for its entries there is no zero matrix. -/
theorem zeros_eq_error {rows cols : Nat} (hrows : rows < Size.limit) (hbytes : 0 < Scalar.bytes α)
    (h : ¬ Fits α (rows * cols)) :
    ∃ fault, (zeros rows cols : Checked (PagedMatrix α)) = .error fault := by
  unfold zeros zerosOf
  rw [cellCount_of_plain hrows]
  -- either the entries cannot be counted, or they cannot be addressed
  by_cases hlimit : rows * cols < Size.limit
  · have hroom : ¬ Scalar.bytes α * (rows * cols) ≤ capacityLimit := fun hle => h ⟨hbytes, hle⟩
    refine ⟨.capacity, ?_⟩
    rw [Size.mul_eq_ok hlimit, ok_bind, allocate, if_neg hroom]
    rfl
  · refine ⟨.overflow, ?_⟩
    rw [Size.mul, if_neg hlimit]
    rfl

/-- Many rows without a column. -/
def withoutColumns : PagedMatrix α :=
  { shape := { rows := 2 ^ 40, cols := 0 }, data := #[] }

/-- Many columns without a row. -/
def withoutRows : PagedMatrix α :=
  { shape := { rows := 0, cols := 2 ^ 61 }, data := #[] }

theorem stored_withoutColumns (hbytes : 0 < Scalar.bytes α) :
    (withoutColumns : PagedMatrix α).Stored := by
  have hsize : ({ rows := 2 ^ 40, cols := 0 } : Shape).size = 0 := by decide
  have hdims : ∀ d ∈ ({ rows := 2 ^ 40, cols := 0 } : Shape).dims, d < Size.limit := by decide
  exact ⟨hsize.symm, hdims, hbytes, Nat.zero_le _⟩

theorem stored_withoutRows (hbytes : 0 < Scalar.bytes α) :
    (withoutRows : PagedMatrix α).Stored := by
  have hsize : ({ rows := 0, cols := 2 ^ 61 } : Shape).size = 0 := by decide
  have hdims : ∀ d ∈ ({ rows := 0, cols := 2 ^ 61 } : Shape).dims, d < Size.limit := by decide
  exact ⟨hsize.symm, hdims, hbytes, Nat.zero_le _⟩

/-- Nothing that is as large as the square of so many rows fits. -/
theorem not_fits_withoutColumns : ¬ Fits α (2 ^ 40 * 2 ^ 40) :=
  fun h => absurd h.lt_limit (by decide)

end Memory

section Kinds

variable {ρ : Type} [RealArith ρ] [Scalar α ρ]

/-- Refreshing the kind does not touch the cells. -/
theorem refreshKind_ofCells {shape : Shape} {kind : NumericKind} {height : Nat}
    {f : Nat → Nat → α} :
    (ofCells shape kind height f).refreshKind =
      ofCells shape (kindOf kind (ofCells shape kind height f).data) height f := rfl

@[simp]
theorem get_refreshKind (a : PagedMatrix α) (r c : Nat) : a.refreshKind.get r c = a.get r c := rfl

end Kinds

end PagedMatrix

end DenseLinear
