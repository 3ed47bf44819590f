import DenseLinear.PagedMatrix.Algebra
import DenseLinear.Proofs.Cells
import DenseLinear.Triangle

/-!
# Identities, transposes and triangles cell by cell

The operations that place entries without computing with them, for entries without any laws.
Triangles are cleared on every page: a cell belongs to the row of its page that its stacked row
leaves as a remainder (`clearRows_ofCells`).
-/

namespace DenseLinear

namespace PagedMatrix

variable {α ρ : Type} [Scalar α ρ] {shape : Shape} {kind : NumericKind} {height : Nat}
  {f : Nat → Nat → α}

/-- The entries `f` with those below the diagonal of the first `count` columns cleared. -/
def clearBelow (count : Nat) (f : Nat → Nat → α) : Nat → Nat → α :=
  fun r c => if c < count ∧ c < r then 0 else f r c

/-- The entries of the identity. -/
def identityCells : Nat → Nat → α := fun r c => if r = c then 1 else 0

/-- The identity is allocated if memory has room for it. -/
theorem identity_eq_ok {n : Nat} (hlimit : n < Size.limit) (hfits : Fits α (n * n)) :
    (identity n : Checked (PagedMatrix α)) =
      .ok (ofCells { rows := n, cols := n } .real n identityCells) := by
  unfold identity
  rw [zeros_eq_ok hlimit hfits, ok_bind]
  refine ascend_ofCells (fun i r c => if r < i then identityCells r c else 0) (Nat.zero_le n)
    (fun r c _ _ => (if_neg (Nat.not_lt_zero r)).symm) (fun r c hr _ => if_pos hr) ?_
  intro i _ hi
  rw [set_ofCells hi hi]
  refine congrArg Except.ok (ofCells_congr fun r c _ _ => ?_)
  unfold setCell identityCells
  dsimp only
  split_ifs <;> first | rfl | omega

/-- Without room for its entries there is no identity. -/
theorem identity_eq_error {n : Nat} (hlimit : n < Size.limit) (hbytes : 0 < Scalar.bytes α)
    (h : ¬ Fits α (n * n)) : ∃ fault, (identity n : Checked (PagedMatrix α)) = .error fault := by
  obtain ⟨fault, hfault⟩ := zeros_eq_error hlimit hbytes h
  refine ⟨fault, ?_⟩
  unfold identity
  rw [hfault]
  rfl

/-- The entries of the first page under a function, rows and columns exchanged. -/
theorem transposeWith_ofCells {g : α → α} (hrows : shape.rows ≤ height)
    (hcols : shape.cols < Size.limit) (hfits : Fits α (shape.cols * shape.rows)) :
    transposeWith g (ofCells shape kind height f) =
      .ok (ofCells { rows := shape.cols, cols := shape.rows } .real shape.cols
        fun r c => g (f c r)) := by
  unfold transposeWith
  rw [rows_ofCells, cols_ofCells, zeros_eq_ok hcols hfits, ok_bind]
  refine ascend_ofCells (fun i r c => if c < i then g (f c r) else 0) (Nat.zero_le _)
    (fun r c _ _ => (if_neg (Nat.not_lt_zero c)).symm) (fun r c _ hc => if_pos hc) ?_
  intro i _ hi
  -- column `i` of the result is filled from row `i` of the matrix
  refine ascend_ofCells (fun j r c => if c < i ∨ c = i ∧ r < j then g (f c r) else 0)
    (Nat.zero_le _) ?_ ?_ ?_
  · intro r c _ _
    simp
  · intro r c hr _
    have hiff : c < i ∨ c = i ∧ r < shape.cols ↔ c < i + 1 := by omega
    simp only [hiff]
  intro j _ hj
  rw [get_ofCells (by omega) hj, ok_bind, set_ofCells hj hi]
  refine congrArg Except.ok (ofCells_congr fun r c _ _ => ?_)
  unfold setCell
  by_cases h : r = j ∧ c = i
  · obtain ⟨rfl, rfl⟩ := h
    rw [if_pos ⟨rfl, rfl⟩, if_pos (by omega)]
  · have hiff : c < i ∨ c = i ∧ r < j + 1 ↔ c < i ∨ c = i ∧ r < j := by omega
    rw [if_neg h]
    simp only [hiff]

/-- The conjugate transpose of the first page. -/
theorem adjoint_ofCells [RealArith ρ] (hrows : shape.rows ≤ height)
    (hcols : shape.cols < Size.limit) (hfits : Fits α (shape.cols * shape.rows)) :
    adjoint (ofCells shape kind height f) =
      .ok (ofCells { rows := shape.cols, cols := shape.rows } .real shape.cols
        fun r c => Scalar.conj (f c r)).refreshKind := by
  unfold adjoint
  rw [transposeWith_ofCells hrows hcols hfits, ok_bind]
  rfl

/-- A part of a row is cleared. -/
theorem clearRow_ofCells {row start stop : Nat} (hrow : row < height) (hle : start ≤ stop)
    (hstop : stop ≤ shape.cols) :
    ascend start stop (ofCells shape kind height f) (fun j a => a.set row j 0) =
      .ok (ofCells shape kind height fun r c =>
        if r = row ∧ start ≤ c ∧ c < stop then 0 else f r c) := by
  refine ascend_ofCells (fun j r c => if r = row ∧ start ≤ c ∧ c < j then 0 else f r c) hle
    (fun r c _ _ => (if_neg (by omega)).symm) (fun r c _ _ => rfl) ?_
  intro j hj hj'
  rw [set_ofCells hrow (by omega)]
  refine congrArg Except.ok (ofCells_congr fun r c _ _ => ?_)
  unfold setCell
  by_cases h : r = row ∧ c = j
  · rw [if_pos h, if_pos (by omega)]
  · have hiff : r = row ∧ start ≤ c ∧ c < j + 1 ↔ r = row ∧ start ≤ c ∧ c < j := by omega
    rw [if_neg h]
    simp only [hiff]

/-- The layout of a shape with a known number of pages. -/
theorem layout_ofCells {count : Nat} (hpages : shape.pages = .ok count) :
    (ofCells shape kind height f).layout =
      .ok { rows := shape.rows, cols := shape.cols, count } :=
  layout_of_pages hpages

/-- The columns `[start i, stop i)` of row `i` of every page are cleared. -/
theorem clearRows_ofCells {start stop : Nat → Nat} {count : Nat} (hpages : shape.pages = .ok count)
    (hheight : count * shape.rows ≤ height) (hlimit : height < Size.limit)
    (hle : ∀ i < shape.rows, start i ≤ stop i) (hstop : ∀ i < shape.rows, stop i ≤ shape.cols) :
    clearRows (ofCells shape kind height f) start stop =
      .ok (ofCells shape kind height fun r c =>
        if r < count * shape.rows ∧ start (r % shape.rows) ≤ c ∧ c < stop (r % shape.rows) then 0
        else f r c) := by
  unfold clearRows
  rw [layout_ofCells hpages, ok_bind]
  refine ascend_ofCells (fun page r c => if r < page * shape.rows ∧ start (r % shape.rows) ≤ c ∧
    c < stop (r % shape.rows) then 0 else f r c) (Nat.zero_le _) ?_ (fun r c _ _ => rfl) ?_
  · intro r c _ _
    dsimp only
    rw [Nat.zero_mul, if_neg (by omega)]
  intro page _ hpage
  dsimp only at hpage ⊢
  have hend : (page + 1) * shape.rows ≤ count * shape.rows := Nat.mul_le_mul_right _ hpage
  have hsucc : (page + 1) * shape.rows = page * shape.rows + shape.rows := Nat.succ_mul ..
  -- within a page the stacked rows follow each other as the rows of the page do
  refine ascend_ofCells (fun i r c => if r < page * shape.rows + i ∧ start (r % shape.rows) ≤ c ∧
    c < stop (r % shape.rows) then 0 else f r c) (Nat.zero_le _) (fun r c _ _ => rfl) ?_ ?_
  · intro r c _ _
    dsimp only
    rw [hsucc]
  intro i _ hi
  have hrow : (page * shape.rows + i) % shape.rows = i := place_mod hi
  unfold PageLayout.rowOf PageLayout.stride
  dsimp only
  rw [Size.mul_eq_ok (by omega), ok_bind, Size.add_eq_ok (by omega), ok_bind,
    checkRow_ofCells (by omega) hlimit, ok_bind,
    clearRow_ofCells (by omega) (hle i hi) (hstop i hi)]
  refine congrArg Except.ok (ofCells_congr fun r c _ _ => ?_)
  rcases eq_or_ne r (page * shape.rows + i) with rfl | hne
  · simp [hrow]
  · have hiff : r < page * shape.rows + (i + 1) ↔ r < page * shape.rows + i := by omega
    simp only [hne, hiff, false_and, if_false]

/-- The entries below the diagonal of each page are cleared. -/
theorem keepUpper_ofCells [RealArith ρ] {count : Nat} (hpages : shape.pages = .ok count)
    (hheight : count * shape.rows ≤ height) (hlimit : height < Size.limit) :
    keepUpper (ofCells shape kind height f) =
      .ok (ofCells shape kind height fun r c =>
        if r < count * shape.rows ∧ c < r % shape.rows then 0 else f r c).refreshKind := by
  unfold keepUpper
  rw [cols_ofCells, clearRows_ofCells hpages hheight hlimit (fun i _ => Nat.zero_le _)
    fun i _ => Nat.min_le_right _ _, ok_bind]
  refine congrArg (fun a => Except.ok (refreshKind a)) (ofCells_congr fun r c _ hc => ?_)
  -- a row that is longer than the page is cleared to the last column
  have hiff : r < count * shape.rows ∧ 0 ≤ c ∧ c < min (r % shape.rows) shape.cols ↔
      r < count * shape.rows ∧ c < r % shape.rows := by omega
  simp only [hiff]

/-- The entries below the diagonal of a single page are cleared. -/
theorem keepUpper_of_singlePage [RealArith ρ] (hpages : shape.pages = .ok 1)
    (hlimit : shape.rows < Size.limit) :
    keepUpper (ofCells shape kind shape.rows f) =
      .ok (ofCells shape kind shape.rows
        (clearBelow (min shape.rows shape.cols) f)).refreshKind := by
  rw [keepUpper_ofCells hpages (Nat.one_mul _).le hlimit]
  refine congrArg (fun a => Except.ok (refreshKind a)) (ofCells_congr fun r c hr hc => ?_)
  have hiff : r < 1 * shape.rows ∧ c < r ↔ c < min shape.rows shape.cols ∧ c < r := by omega
  unfold clearBelow
  simp only [Nat.mod_eq_of_lt hr, hiff]

theorem get_clearBelow {i j : Nat} (hi : i < shape.rows) (hj : j < shape.cols) (hlt : j < i) :
    (ofCells shape kind shape.rows (clearBelow (min shape.rows shape.cols) f)).get i j = .ok 0 := by
  rw [get_ofCells hi hj, clearBelow, if_pos (by omega)]

end PagedMatrix

end DenseLinear
