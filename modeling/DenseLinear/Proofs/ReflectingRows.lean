import DenseLinear.Proofs.Reflecting

/-!
# Reflections from the right, cell by cell

What building the reflection of a row and applying a reflection from the right does to each cell,
for entries without any laws. The reflection of a row is built for its conjugate
(`Reflection.atRow`), and what a reflection from the right makes of an entry depends on the row of
that entry only.
-/

namespace DenseLinear

open PagedMatrix

/-! ## Building a reflection -/

namespace Reflection

variable {α ρ : Type} [Scalar α ρ]

/-- The sum of the squared absolute values to the right of the diagonal of row `k`. -/
def rightNormSq (f : Nat → Nat → α) (stop k : Nat) : α :=
  accumulate (fun l => Scalar.conj (f k (k + 1 + l))) (fun l => f k (k + 1 + l)) (stop - (k + 1)) 0

/-- The conjugates of the entries to the right of the diagonal of row `k`. -/
def rightTail (f : Nat → Nat → α) (stop k : Nat) : Array α :=
  (Array.range (stop - (k + 1))).map fun l => Scalar.conj (f k (k + 1 + l))

/-- The reflection of the columns `[k, stop)` of row `k` of the cells `f`. -/
def atRow (f : Nat → Nat → α) (stop k : Nat) : Reflection α :=
  let h := built (Scalar.conj (f k k)) (rightNormSq f stop k) (rightTail f stop k)
  { h with alpha := Scalar.conj h.alpha }

theorem size_atRow (f : Nat → Nat → α) {stop k : Nat} (hk : k < stop) :
    (atRow f stop k).v.size = stop - k := by
  have hsize := size_built (Scalar.conj (f k k)) (rightNormSq f stop k) (rightTail f stop k)
  rw [rightTail, Array.size_map, Array.size_range] at hsize
  have hcount : stop - (k + 1) + 1 = stop - k := by omega
  exact hsize.trans hcount

variable {shape : Shape} {kind : NumericKind} {height : Nat} {f : Nat → Nat → α}

theorem rowTailNormSq_ofCells {stop k : Nat} (hk : k < stop) (hstop : stop ≤ shape.cols)
    (hk' : k < height) (hlimit : stop < Size.limit) (hheight : height < Size.limit) :
    (ofCells shape kind height f).rowTailNormSq k k stop = .ok (rightNormSq f stop k) := by
  have hfirst : min (k + 1) stop = k + 1 := Nat.min_eq_left hk
  unfold rowTailNormSq
  rw [Size.add_eq_ok (by omega), ok_bind]
  dsimp only
  rw [hfirst, checkRowWindow_ofCells hk' hheight hk hstop, ok_bind]
  refine ascend_eq_ok (fun j => accumulate (fun l => Scalar.conj (f k (k + 1 + l)))
    (fun l => f k (k + 1 + l)) (j - (k + 1)) 0) hk (by simp) rfl ?_
  intro j hj hj'
  have hcount : j + 1 - (k + 1) = (j - (k + 1)) + 1 := by omega
  have hplace : k + 1 + (j - (k + 1)) = j := by omega
  rw [get_ofCells hk' (by omega), ok_bind, hcount, accumulate_succ, hplace]
  rfl

/-- The reflection of a row. -/
theorem ofRow_ofCells {stop k : Nat} (hk : k < stop) (hstop : stop ≤ shape.cols) (hk' : k < height)
    (hlimit : stop < Size.limit) (hheight : height < Size.limit) (hfits : Fits α stop) :
    ofRow (ofCells shape kind height f) stop k = .ok (atRow f stop k) := by
  -- the loop over the columns after the diagonal collects the conjugate row
  have htail : ascend (k + 1) stop #[] (fun j tail => do
      return tail.push (Scalar.conj (← (ofCells shape kind height f).get k j))) =
      .ok (rightTail f stop k) := by
    rw [ascend_push (fun j => Scalar.conj (f k j)) hk, Array.empty_append, rightTail]
    intro j v hj hj'
    rw [get_ofCells hk' (by omega), ok_bind]
    rfl
  unfold ofRow
  rw [rowTailNormSq_ofCells hk hstop hk' hlimit hheight, ok_bind, checkRow_ofCells hk' hheight,
    ok_bind, cols_ofCells, checkWindow_eq_ok (Nat.le_succ k) (by omega), ok_bind,
    checkWindow_eq_ok hk hstop, ok_bind, get_ofCells hk' (by omega), ok_bind, htail, ok_bind,
    ofVector_eq_ok]
  · rfl
  · refine hfits.mono ?_
    rw [rightTail, Array.size_map, Array.size_range]
    omega

end Reflection

/-! ## Applying a reflection -/

namespace PagedMatrix

variable {α ρ : Type} [Scalar α ρ] {shape : Shape} {kind : NumericKind} {height : Nat}
  {f : Nat → Nat → α}

/-- The multiple of the conjugate direction that a reflection takes off row `r`. -/
def rowFactor (v : Array α) (tau : α) (col : Nat) (f : Nat → Nat → α) (r : Nat) : α :=
  tau * accumulate (fun l => f r (col + l)) (fun l => v.getD l 0) v.size 0

/-- The cells `f` after a reflection from the right: in a column that it reaches, an entry changes
unless the reflection, or its share in the row, counts as zero. -/
def reflectedRows (v : Array α) (tau : α) (col : Nat) (f : Nat → Nat → α) : Nat → Nat → α :=
  fun r c => if tau == 0 || rowFactor v tau col f r == 0 then f r c
    else f r c - rowFactor v tau col f r * Scalar.conj (v.getD (c - col) 0)

/-- What a reflection makes of an entry depends on the row of the entry only. -/
theorem reflectedRows_congr {v : Array α} {tau : α} {col r c : Nat} {g : Nat → Nat → α}
    (h : ∀ c, col ≤ c → c < col + v.size → f r c = g r c) (hc : f r c = g r c) :
    reflectedRows v tau col f r c = reflectedRows v tau col g r c := by
  have hfactor : rowFactor v tau col f r = rowFactor v tau col g r := by
    unfold rowFactor
    rw [accumulate_congr (fun l hl => h (col + l) (by omega) (by omega)) fun l _ => rfl]
  unfold reflectedRows
  rw [hfactor, hc]

theorem dotRowVector_ofCells {v : Array α} {col i : Nat} (hcol : col + v.size ≤ shape.cols)
    (hi : i < height) :
    (ofCells shape kind height f).dotRowVector v i col =
      .ok (accumulate (fun l => f i (col + l)) (fun l => v.getD l 0) v.size 0) := by
  refine ascend_eq_ok (fun j => accumulate (fun l => f i (col + l)) (fun l => v.getD l 0) j 0)
    (Nat.zero_le _) rfl rfl ?_
  intro j _ hj
  rw [get_ofCells hi (by omega), ok_bind, readAt_getD hj, ok_bind, accumulate_succ]
  rfl

/-- A multiple of a conjugate vector is taken off a row. -/
theorem subtractRow_ofCells {v : Array α} {factor : α} {col i : Nat}
    (hcol : col + v.size ≤ shape.cols) (hi : i < height) :
    ascend 0 v.size (ofCells shape kind height f) (fun j a => do
        let old ← a.get i (col + j)
        a.set i (col + j) (old - factor * Scalar.conj (← readAt v j))) =
      .ok (ofCells shape kind height (overwrite i (i + 1) col (col + v.size)
        (fun r c => f r c - factor * Scalar.conj (v.getD (c - col) 0)) f)) := by
  refine ascend_ofCells (fun j => overwrite i (i + 1) col (col + j)
    (fun r c => f r c - factor * Scalar.conj (v.getD (c - col) 0)) f) (Nat.zero_le _)
    (fun r c _ _ => (if_neg (by omega)).symm) (fun r c _ _ => rfl) ?_
  intro j _ hj
  rw [get_ofCells hi (by omega), ok_bind, readAt_getD hj, ok_bind, set_ofCells hi (by omega)]
  refine congrArg Except.ok (ofCells_congr fun r c _ _ => ?_)
  unfold setCell overwrite
  by_cases h : r = i ∧ c = col + j
  · obtain ⟨rfl, rfl⟩ := h
    rw [if_pos ⟨rfl, rfl⟩, if_neg (by omega), if_pos (by omega)]
    dsimp only
    rw [Nat.add_sub_cancel_left]
  · rw [if_neg h]
    split_ifs <;> first | rfl | omega

/-- A reflection from the right changes the columns that it reaches in the rows `[start, stop)`. -/
theorem reflectRows_ofCells {v : Array α} {tau : α} {start stop col : Nat}
    (hcol : col + v.size ≤ shape.cols) (hstop : stop ≤ height) (hcols : shape.cols < Size.limit)
    (hheight : height < Size.limit) :
    (ofCells shape kind height f).reflectRows v tau start stop col =
      .ok (ofCells shape kind height
        (overwrite start stop col (col + v.size) (reflectedRows v tau col f) f)) := by
  unfold reflectRows
  cases htau : tau == 0 with
  | true =>
    refine congrArg Except.ok (ofCells_congr fun r c _ _ => ?_)
    unfold overwrite reflectedRows
    simp [htau]
  | false =>
    rw [if_neg Bool.false_ne_true]
    rcases Nat.le_total stop start with hbeyond | hle
    · -- no row is reached
      rw [ascend_of_le hbeyond]
      exact congrArg Except.ok (ofCells_congr fun r c _ _ => (if_neg (by omega)).symm)
    refine ascend_ofCells
      (fun i => overwrite start i col (col + v.size) (reflectedRows v tau col f) f) hle
      (fun r c _ _ => (if_neg (by omega)).symm) (fun r c _ _ => rfl) ?_
    intro i hi hi'
    -- row `i` has not been changed yet, so its factor is that of the old cells
    have hrow : ∀ c,
        overwrite start i col (col + v.size) (reflectedRows v tau col f) f i c = f i c :=
      fun c => if_neg (by omega)
    rw [Size.add_eq_ok (by omega), ok_bind,
      checkRowWindow_ofCells (by omega) hheight (Nat.le_add_right col _) hcol, ok_bind,
      dotRowVector_ofCells hcol (by omega), ok_bind]
    simp only [hrow]
    change (if rowFactor v tau col f i == 0 then _ else
      ascend 0 v.size _ fun j a => do
        let old ← PagedMatrix.get a i (col + j)
        a.set i (col + j) (old - rowFactor v tau col f i * Scalar.conj (← readAt v j))) = _
    cases hzero : rowFactor v tau col f i == 0 with
    | true =>
      refine congrArg Except.ok (ofCells_congr fun r c _ _ => ?_)
      unfold overwrite
      -- a row whose share counts as zero is passed over
      rcases eq_or_ne r i with rfl | hne
      · rw [if_neg (by omega), reflectedRows, hzero, Bool.or_true, if_pos rfl, ite_self]
      · have hrows : r < i ↔ r < i + 1 := by omega
        simp only [hrows]
    | false =>
      rw [if_neg Bool.false_ne_true, subtractRow_ofCells hcol (by omega)]
      refine congrArg Except.ok (ofCells_congr fun r c _ _ => ?_)
      rcases eq_or_ne r i with rfl | hne
      · have hentry : reflectedRows v tau col f r c =
            f r c - rowFactor v tau col f r * Scalar.conj (v.getD (c - col) 0) := by
          rw [reflectedRows, htau, hzero]
          rfl
        unfold overwrite
        dsimp only
        rw [hentry]
        split_ifs <;> first | rfl | omega
      · unfold overwrite
        split_ifs <;> first | rfl | omega

end PagedMatrix

end DenseLinear
