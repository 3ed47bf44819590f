import Mathlib.Data.List.Basic
import Mathlib.Logic.Equiv.Basic
import DenseLinear.Triangle
import DenseLinear.Proofs.Product

/-!
# Rows and blocks cell by cell

What the operations on whole rows and blocks leave in each cell: exchanges of rows, copies of
blocks, and forward substitution with a unit triangle. No law of arithmetic is used.

Forward substitution finds one row of the solution after the other, so its result is told by the
states of a single column (`forwardColumn`).
-/

namespace DenseLinear

namespace PagedMatrix

variable {α : Type} {shape : Shape} {kind : NumericKind} {height : Nat} {f : Nat → Nat → α}

/-! ## Exchanges of rows -/

/-- The cells with the rows `r` and `s` exchanged. -/
def exchanged (r s : Nat) (f : Nat → Nat → α) : Nat → Nat → α :=
  fun i c => f (Equiv.swap r s i) c

theorem exchanged_self (r : Nat) (f : Nat → Nat → α) : exchanged r r f = f := by
  funext i c
  simp [exchanged]

theorem swap_lt {m r s i : Nat} (hr : r < m) (hs : s < m) (hi : i < m) : Equiv.swap r s i < m := by
  rw [Equiv.swap_apply_def]
  split_ifs <;> assumption

theorem le_swap {r s i : Nat} (hs : r ≤ s) (hi : r ≤ i) : r ≤ Equiv.swap r s i := by
  rw [Equiv.swap_apply_def]
  split_ifs <;> omega

/-- An exchange leaves the rows above both alone. -/
theorem exchanged_of_lt {r s i : Nat} (f : Nat → Nat → α) (hs : r ≤ s) (hi : i < r) :
    exchanged r s f i = f i := by
  unfold exchanged
  -- a row above `r` is neither of the two
  rw [Equiv.swap_apply_of_ne_of_ne (by omega) (by omega)]

/-- An exchange of rows within a window of columns. -/
theorem swapRowsWithin_ofCells {r s start stop : Nat} (hr : r < height) (hs : s < height)
    (hstart : start ≤ min stop shape.cols) :
    (ofCells shape kind height f).swapRowsWithin r s start stop =
      .ok (ofCells shape kind height fun i c =>
        if start ≤ c ∧ c < stop then exchanged r s f i c else f i c) := by
  unfold swapRowsWithin
  by_cases hrs : r = s
  · subst hrs
    rw [if_pos rfl]
    simp only [exchanged_self, ite_self]
    rfl
  rw [if_neg hrs]
  refine ascend_ofCells (fun j i c => if start ≤ c ∧ c < j then exchanged r s f i c else f i c)
    hstart ?_ ?_ ?_
  · intro i c _ _
    dsimp only
    rw [if_neg (by omega)]
  · intro i c _ hc
    have h : start ≤ c ∧ c < min stop shape.cols ↔ start ≤ c ∧ c < stop := by omega
    simp only [cols_ofCells, h]
  intro j hj hj'
  rw [cols_ofCells] at hj'
  rw [swapCells_ofCells hr (by omega) hs (by omega)]
  refine congrArg Except.ok (ofCells_congr fun i c _ _ => ?_)
  -- the two cells of column `j` are exchanged for the first time
  have hcell : ¬(start ≤ j ∧ j < j) := by omega
  by_cases hc : c = j
  · subst hc
    simp only [setCell, and_true, if_neg hcell, if_pos (show start ≤ c ∧ c < c + 1 by omega),
      exchanged]
    by_cases hi : i = s
    · rw [if_pos hi, hi, Equiv.swap_apply_right]
    · rw [if_neg hi]
      by_cases hi' : i = r
      · rw [if_pos hi', hi', Equiv.swap_apply_left]
      · rw [if_neg hi', Equiv.swap_apply_of_ne_of_ne hi' hi]
  · have h : start ≤ c ∧ c < j + 1 ↔ start ≤ c ∧ c < j := by omega
    simp only [setCell, hc, and_false, if_false, h]

/-- An exchange of whole rows. -/
theorem swapRows_ofCells {r s : Nat} (hr : r < height) (hs : s < height) :
    (ofCells shape kind height f).swapRows r s =
      .ok (ofCells shape kind height (exchanged r s f)) := by
  unfold swapRows
  rw [swapRowsWithin_ofCells hr hs (by simp)]
  refine congrArg Except.ok (ofCells_congr fun i c _ hc => ?_)
  rw [if_pos ⟨Nat.zero_le c, hc⟩]

/-! ## Copies of blocks -/

section Copies

variable {ρ : Type} [Scalar α ρ]

/-- A copy of a block has the cells of the block. -/
theorem block_ofCells {r0 r1 c0 c1 : Nat} (hr : r0 ≤ r1) (hr1 : r1 ≤ height) (hc : c0 ≤ c1)
    (hc1 : c1 ≤ shape.cols) (hheight : height < Size.limit)
    (hfits : Fits α ((r1 - r0) * (c1 - c0))) :
    (ofCells shape kind height f).block r0 r1 c0 c1 =
      .ok (ofCells { rows := r1 - r0, cols := c1 - c0 } kind (r1 - r0)
        fun i j => f (r0 + i) (c0 + j)) := by
  unfold block
  rw [Size.sub_eq_ok hr, ok_bind, Size.sub_eq_ok hc, ok_bind, zeros_eq_ok (by omega) hfits, ok_bind]
  refine bind_eq_ok (b := ofCells { rows := r1 - r0, cols := c1 - c0 } .real (r1 - r0)
    fun i j => f (r0 + i) (c0 + j)) ?_ rfl
  apply fill_ofCells (g := fun i j => f (r0 + i) (c0 + j)) 0 0 hr (Nat.zero_le _)
  · intro i F hi hi'
    rw [checkRowWindow_ofCells (by omega) hheight hc hc1, ok_bind]
  · intro i j hi hj
    exact if_pos (by dsimp only at hj; omega)
  · intro i j F hi hi' _ hj _
    rw [get_ofCells (by omega) (by omega), ok_bind]
    simp only [Nat.zero_add, Nat.sub_zero, Nat.add_sub_cancel' hi]
    exact set_ofCells (by omega) (by dsimp only; omega) _

omit [Scalar α ρ] in
/-- A block that is put back replaces its cells. -/
theorem setBlock_ofCells {partShape : Shape} {partKind : NumericKind} {partHeight r0 c0 : Nat}
    {g : Nat → Nat → α} (hpart : partShape.height = .ok partHeight)
    (hr : r0 + partHeight ≤ height) (hc : c0 + partShape.cols ≤ shape.cols)
    (hheight : height < Size.limit) (hcols : shape.cols < Size.limit) :
    (ofCells shape kind height f).setBlock r0 c0 (ofCells partShape partKind partHeight g) =
      .ok (ofCells shape kind height (overwrite r0 (r0 + partHeight) c0 (c0 + partShape.cols)
        (fun r c => g (r - r0) (c - c0)) f)) := by
  unfold setBlock
  rw [height_ofCells, hpart, ok_bind]
  apply fill_ofCells (g := fun r c => g (r - r0) (c - c0)) r0 c0 (Nat.zero_le _) (Nat.zero_le _)
  · intro i F _ hi
    rw [Size.add_eq_ok (by omega), ok_bind, cols_ofCells, Size.add_eq_ok (by omega), ok_bind,
      checkRowWindow_ofCells (by omega) hheight (by omega) hc, ok_bind,
      checkRow_ofCells hi (by omega), ok_bind]
  · intro r c _ _
    rfl
  · intro i j F _ hi _ hj _
    rw [get_ofCells hi hj, ok_bind]
    simp only [Nat.sub_zero, Nat.add_sub_cancel_left]
    exact set_ofCells (by omega) (by omega) _

end Copies

/-! ## Forward substitution -/

section Substitution

variable {ρ : Type} [Scalar α ρ]

/-- The value `acc` less the products `x l * y l` for `l = start, …, stop - 1`, taken off one after
the other. -/
def takeOff (x y : Nat → α) (start stop : Nat) (acc : α) : α :=
  (List.range' start (stop - start)).foldl (fun acc l => acc - x l * y l) acc

theorem takeOff_self (x y : Nat → α) (start : Nat) (acc : α) : takeOff x y start start acc = acc := by
  simp [takeOff]

theorem takeOff_succ (x y : Nat → α) {start stop : Nat} (h : start ≤ stop) (acc : α) :
    takeOff x y start (stop + 1) acc = takeOff x y start stop acc - x stop * y stop := by
  unfold takeOff
  rw [Nat.sub_add_comm h, List.range'_concat, List.foldl_append, Nat.one_mul,
    Nat.add_sub_cancel' h]
  rfl

theorem takeOff_congr {x x' y y' : Nat → α} {start stop : Nat}
    (hx : ∀ l, start ≤ l → l < stop → x l = x' l) (hy : ∀ l, start ≤ l → l < stop → y l = y' l)
    (acc : α) : takeOff x y start stop acc = takeOff x' y' start stop acc := by
  unfold takeOff
  refine List.foldl_ext _ _ _ fun acc l hl => ?_
  rw [List.mem_range'_1] at hl
  rw [hx l hl.1 (by omega), hy l hl.1 (by omega)]

/-- A column of right-hand sides after its first `count` rows from row `k` on have been replaced by
the solution, where row `i` of the system is `L i`. -/
def forwardColumn (L : Nat → Nat → α) (k : Nat) (b : Nat → α) : Nat → Nat → α
  | 0 => b
  | count + 1 =>
    let x := forwardColumn L k b count
    Function.update x (k + count) (takeOff (L (k + count)) x k (k + count) (x (k + count)))

/-- Forward substitution leaves the other rows alone. -/
theorem forwardColumn_of_outside (L : Nat → Nat → α) (k : Nat) (b : Nat → α) {count r : Nat}
    (hr : r < k ∨ k + count ≤ r) : forwardColumn L k b count r = b r := by
  induction count with
  | zero => rfl
  | succ count ih =>
    rw [forwardColumn, Function.update_of_ne (by omega)]
    exact ih (by omega)

/-- The cells after forward substitution in the columns from `k + width` on. -/
def forwardSolved (k width : Nat) (f : Nat → Nat → α) : Nat → Nat → α :=
  fun r c => if k + width ≤ c then forwardColumn f k (fun i => f i c) width r else f r c

/-- Forward substitution changes nothing but the rows of the system to the right of it. -/
theorem forwardSolved_outside {k width r c : Nat} {f : Nat → Nat → α}
    (h : ¬((k ≤ r ∧ r < k + width) ∧ k + width ≤ c)) : forwardSolved k width f r c = f r c := by
  unfold forwardSolved
  split
  · exact forwardColumn_of_outside f k _ (by omega)
  · rfl

theorem subtractProducts_ofCells {i j start stop : Nat} {x : α} (hi : i < height)
    (hj : j < shape.cols) (hle : start ≤ stop) (hrows : stop ≤ height) (hcols : stop ≤ shape.cols) :
    (ofCells shape kind height f).subtractProducts i j start stop x =
      .ok (takeOff (f i) (fun l => f l j) start stop x) := by
  refine ascend_eq_ok (fun l => takeOff (f i) (fun l => f l j) start l x) hle
    (takeOff_self _ _ start x) rfl ?_
  intro l hl hl'
  rw [get_ofCells hi (by omega), ok_bind, get_ofCells (by omega) hj, ok_bind, takeOff_succ _ _ hl]
  rfl

/-- A loop over the columns from `start` on that replaces one after the other. A new column may be
computed from its old entries and from the columns before `start`. -/
theorem ascend_columns_ofCells {step : Nat → PagedMatrix α → Checked (PagedMatrix α)} {start : Nat}
    (g : Nat → Nat → α) (hstart : start ≤ shape.cols)
    (hstep : ∀ j F, start ≤ j → j < shape.cols → (∀ r c, c < start ∨ c = j → F r c = f r c) →
      step j (ofCells shape kind height F) =
        .ok (ofCells shape kind height fun r c => if c = j then g r c else F r c)) :
    ascend start shape.cols (ofCells shape kind height f) step =
      .ok (ofCells shape kind height fun r c => if start ≤ c then g r c else f r c) := by
  refine ascend_ofCells (fun j r c => if start ≤ c ∧ c < j then g r c else f r c) hstart ?_ ?_ ?_
  · intro r c _ _
    exact (if_neg (by omega)).symm
  · intro r c _ hc
    simp only [hc, and_true]
  intro j hj hj'
  rw [hstep j _ hj hj' fun r c hc => if_neg (by omega)]
  refine congrArg Except.ok (ofCells_congr fun r c _ _ => ?_)
  by_cases hc : c = j
  · rw [if_pos hc, if_pos (by omega)]
  · rw [if_neg hc]
    exact if_congr (by omega) rfl rfl

/-- Forward substitution in a column to the right of the triangle. -/
theorem forwardColumn_ofCells {k width j : Nat} {F : Nat → Nat → α} (hrows : k + width ≤ height)
    (hj : k + width ≤ j) (hj' : j < shape.cols)
    (hF : ∀ r c, c < k + width ∨ c = j → F r c = f r c) :
    ascend k (k + width) (ofCells shape kind height F) (fun i a => do
        let x ← a.subtractProducts i j k i (← a.get i j)
        a.set i j x) =
      .ok (ofCells shape kind height fun r c =>
        if c = j then forwardColumn f k (fun i => f i c) width r else F r c) := by
  -- the rows before `i` are finished
  refine ascend_ofCells (fun i r c =>
    if c = j then forwardColumn f k (fun i => f i c) (i - k) r else F r c) (Nat.le_add_right k width)
    ?_ ?_ ?_
  · intro r c _ _
    simp only [Nat.sub_self, forwardColumn]
    split
    · rename_i h
      exact hF r c (.inr h)
    · rfl
  · intro r c _ _
    simp only [Nat.add_sub_cancel_left]
  intro i hi hi'
  rw [get_ofCells (by omega) hj', ok_bind,
    subtractProducts_ofCells (by omega) hj' hi (by omega) (by omega), ok_bind,
    set_ofCells (by omega) hj']
  refine congrArg Except.ok (ofCells_congr fun r c _ _ => ?_)
  obtain ⟨d, rfl⟩ : ∃ d, i = k + d := ⟨i - k, by omega⟩
  have hnext : k + d + 1 - k = d + 1 := by omega
  unfold setCell
  by_cases hc : c = j
  · subst hc
    simp only [and_true, if_true, hnext, Nat.add_sub_cancel_left, forwardColumn,
      Function.update_apply]
    split
    · -- the multipliers are in columns that are left alone
      refine takeOff_congr (fun l _ hl => ?_) (fun l _ _ => rfl) _
      rw [if_neg (by omega)]
      exact hF _ l (.inl (by omega))
    · rfl
  · simp only [hc, and_false, if_false]

/-- Forward substitution solves one column after the other. -/
theorem solveUnitLower_ofCells {k width : Nat} (hrows : k + width ≤ height)
    (hcols : k + width ≤ shape.cols) (hheight : height < Size.limit) :
    (ofCells shape kind height f).solveUnitLower k width =
      .ok (ofCells shape kind height (forwardSolved k width f)) := by
  unfold solveUnitLower
  rw [Size.add_eq_ok (by omega), ok_bind]
  exact ascend_columns_ofCells (fun r c => forwardColumn f k (fun i => f i c) width r) hcols
    fun j F hj hj' hF => forwardColumn_ofCells hrows hj hj' hF

end Substitution

end PagedMatrix

end DenseLinear
