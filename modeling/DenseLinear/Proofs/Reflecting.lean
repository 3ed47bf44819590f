import DenseLinear.Proofs.Product
import DenseLinear.Reflection.Apply

/-!
# Reflections cell by cell

What building a reflection and applying it from the left does to each cell, for entries without any
laws. A reflection is a function of the entries it is built for (`Reflection.built`,
`Reflection.atColumn`), and what it makes of an entry depends on the column of that entry only
(`reflected_congr`).
-/

namespace DenseLinear

open PagedMatrix

/-! ## Building a reflection -/

namespace Reflection

variable {α ρ : Type} [Scalar α ρ]

/-- The identity on vectors of a given length, with the leading entry `x0` of a vector. -/
def identityOn (length : Nat) (x0 : α) : Reflection α :=
  { tau := 0, v := (Array.replicate length 0).setIfInBounds 0 1, alpha := x0, phi := 1 }

/-- The phase of an entry. -/
def phase (x0 : α) : α :=
  if x0 == 0 then 1 else Scalar.quotient x0 (Scalar.absolute x0)

/-- The norm of a vector with the leading entry `x0` and `sigma` for the sum of the other squared
absolute values. -/
def norm (x0 sigma : α) : α :=
  Scalar.sqrt (Scalar.absolute x0 * Scalar.absolute x0 + sigma)

/-- The reflection of a vector whose entries after the first do not all count as zero. -/
def proper (x0 sigma : α) (tail : Array α) : Reflection α :=
  let alpha := -(phase x0 * norm x0 sigma)
  { tau := Scalar.quotient (alpha - x0) alpha
    v := #[1] ++ tail.map fun x => Scalar.quotient x (x0 - alpha)
    alpha
    phi := phase x0 }

/-- The reflection that `ofVector` builds. -/
def built (x0 sigma : α) (tail : Array α) : Reflection α :=
  if tail.size = 0 || sigma == 0 then identityOn (tail.size + 1) x0 else proper x0 sigma tail

/-- A reflection is built if memory has room for its direction. -/
theorem ofVector_eq_ok {x0 sigma : α} {tail : Array α} (hfits : Fits α (tail.size + 1)) :
    ofVector x0 sigma tail = .ok (built x0 sigma tail) := by
  unfold ofVector built
  split
  · unfold trivial
    dsimp only
    rw [Nat.max_eq_left (by omega), hfits.allocate_eq_ok]
    rfl
  · rfl

theorem size_built (x0 sigma : α) (tail : Array α) :
    (built x0 sigma tail).v.size = tail.size + 1 := by
  unfold built
  split
  · simp [identityOn]
  · simp only [proper, Array.size_append, Array.size_map]
    exact Nat.add_comm _ _

/-- The sum of the squared absolute values below the diagonal of column `k`. -/
def tailNormSq (f : Nat → Nat → α) (stop k : Nat) : α :=
  accumulate (fun l => Scalar.conj (f (k + 1 + l) k)) (fun l => f (k + 1 + l) k) (stop - (k + 1)) 0

/-- The entries below the diagonal of column `k`. -/
def columnTail (f : Nat → Nat → α) (stop k : Nat) : Array α :=
  (Array.range (stop - (k + 1))).map fun l => f (k + 1 + l) k

/-- The reflection of the rows `[k, stop)` of column `k` of the cells `f`. -/
def atColumn (f : Nat → Nat → α) (stop k : Nat) : Reflection α :=
  built (f k k) (tailNormSq f stop k) (columnTail f stop k)

theorem size_atColumn (f : Nat → Nat → α) {stop k : Nat} (hk : k < stop) :
    (atColumn f stop k).v.size = stop - k := by
  rw [atColumn, size_built, columnTail, Array.size_map, Array.size_range]
  omega

variable {shape : Shape} {kind : NumericKind} {height : Nat} {f : Nat → Nat → α}

theorem columnTailNormSq_ofCells {stop k : Nat} (hk : k < stop) (hstop : stop ≤ height)
    (hk' : k < shape.cols) (hlimit : stop < Size.limit) :
    (ofCells shape kind height f).columnTailNormSq k k stop = .ok (tailNormSq f stop k) := by
  unfold columnTailNormSq
  rw [Size.add_eq_ok (by omega), ok_bind]
  refine ascend_eq_ok (fun i => accumulate (fun l => Scalar.conj (f (k + 1 + l) k))
    (fun l => f (k + 1 + l) k) (i - (k + 1)) 0) hk (by simp) rfl ?_
  intro i hi1 hi2
  have hcount : i + 1 - (k + 1) = (i - (k + 1)) + 1 := by omega
  have hplace : k + 1 + (i - (k + 1)) = i := by omega
  rw [get_ofCells (by omega) hk', ok_bind, hcount, accumulate_succ, hplace]
  rfl

/-- The reflection of a column. -/
theorem ofColumn_ofCells {stop k : Nat} (hk : k < stop) (hstop : stop ≤ height)
    (hk' : k < shape.cols) (hlimit : stop < Size.limit) (hfits : Fits α stop) :
    ofColumn (ofCells shape kind height f) stop k = .ok (atColumn f stop k) := by
  -- the loop over the rows below the diagonal collects the column
  have htail : ascend (k + 1) stop #[] (fun i tail => do
      return tail.push (← (ofCells shape kind height f).get i k)) = .ok (columnTail f stop k) := by
    rw [ascend_push (fun i => f i k) hk, Array.empty_append, columnTail]
    intro i v hi1 hi2
    rw [get_ofCells (by omega) hk', ok_bind]
    rfl
  unfold ofColumn
  rw [columnTailNormSq_ofCells hk hstop hk' hlimit, ok_bind, get_ofCells (by omega) hk', ok_bind,
    htail, ok_bind, ofVector_eq_ok]
  · rfl
  · refine hfits.mono ?_
    rw [columnTail, Array.size_map, Array.size_range]
    omega

end Reflection

/-! ## Applying a reflection -/

namespace PagedMatrix

variable {α ρ : Type} [Scalar α ρ] {shape : Shape} {kind : NumericKind} {height : Nat}
  {f : Nat → Nat → α}

/-- The multiple of the direction that a reflection takes off column `c`. -/
def columnFactor (v : Array α) (tau : α) (row : Nat) (f : Nat → Nat → α) (c : Nat) : α :=
  tau * accumulate (fun l => Scalar.conj (v.getD l 0)) (fun l => f (row + l) c) v.size 0

/-- The cells `f` after a reflection from the left: in a row that it reaches, an entry changes unless
the reflection, or its share in the column, counts as zero. -/
def reflected (v : Array α) (tau : α) (row : Nat) (f : Nat → Nat → α) : Nat → Nat → α :=
  fun r c => if tau == 0 || columnFactor v tau row f c == 0 then f r c
    else f r c - v.getD (r - row) 0 * columnFactor v tau row f c

theorem columnFactor_congr {v : Array α} {tau : α} {row c : Nat} {g : Nat → Nat → α}
    (h : ∀ r, row ≤ r → r < row + v.size → f r c = g r c) :
    columnFactor v tau row f c = columnFactor v tau row g c := by
  unfold columnFactor
  rw [accumulate_congr (fun l _ => rfl) fun l hl => h (row + l) (by omega) (by omega)]

/-- What a reflection makes of an entry depends on the column of the entry only. -/
theorem reflected_congr {v : Array α} {tau : α} {row r c : Nat} {g : Nat → Nat → α}
    (h : ∀ r, row ≤ r → r < row + v.size → f r c = g r c) (hr : f r c = g r c) :
    reflected v tau row f r c = reflected v tau row g r c := by
  unfold reflected
  rw [columnFactor_congr h, hr]

theorem conjDotColumn_ofCells {v : Array α} {row j : Nat} (hrow : row + v.size ≤ height)
    (hj : j < shape.cols) :
    (ofCells shape kind height f).conjDotColumn v row j =
      .ok (accumulate (fun l => Scalar.conj (v.getD l 0)) (fun l => f (row + l) j) v.size 0) := by
  refine ascend_eq_ok (fun i => accumulate (fun l => Scalar.conj (v.getD l 0))
    (fun l => f (row + l) j) i 0) (Nat.zero_le _) rfl rfl ?_
  intro i _ hi
  rw [readAt_getD hi, ok_bind, get_ofCells (by omega) hj, ok_bind, accumulate_succ]
  rfl

/-- A multiple of a vector is taken off a column. -/
theorem subtractColumn_ofCells {v : Array α} {factor : α} {row j : Nat}
    (hrow : row + v.size ≤ height) (hj : j < shape.cols) :
    ascend 0 v.size (ofCells shape kind height f) (fun i a => do
        let old ← a.get (row + i) j
        a.set (row + i) j (old - (← readAt v i) * factor)) =
      .ok (ofCells shape kind height (overwrite row (row + v.size) j (j + 1)
        (fun r c => f r c - v.getD (r - row) 0 * factor) f)) := by
  refine ascend_ofCells (fun i => overwrite row (row + i) j (j + 1)
    (fun r c => f r c - v.getD (r - row) 0 * factor) f) (Nat.zero_le _)
    (fun r c _ _ => (if_neg (by omega)).symm) (fun r c _ _ => rfl) ?_
  intro i _ hi
  rw [get_ofCells (by omega) hj, ok_bind, readAt_getD hi, ok_bind, set_ofCells (by omega) hj]
  refine congrArg Except.ok (ofCells_congr fun r c _ _ => ?_)
  unfold setCell overwrite
  by_cases h : r = row + i ∧ c = j
  · obtain ⟨rfl, rfl⟩ := h
    rw [if_pos ⟨rfl, rfl⟩, if_neg (by omega), if_pos (by omega)]
    dsimp only
    rw [Nat.add_sub_cancel_left]
  · rw [if_neg h]
    split_ifs <;> first | rfl | omega

/-- A reflection from the left changes the rows that it reaches in the columns `[start, stop)`. -/
theorem reflectColumns_ofCells {v : Array α} {tau : α} {row start stop : Nat}
    (hrow : row + v.size ≤ height) :
    (ofCells shape kind height f).reflectColumns v tau row start stop =
      .ok (ofCells shape kind height
        (overwrite row (row + v.size) start (min stop shape.cols) (reflected v tau row f) f)) := by
  unfold reflectColumns
  rw [cols_ofCells]
  cases htau : tau == 0 with
  | true =>
    refine congrArg Except.ok (ofCells_congr fun r c _ _ => ?_)
    unfold overwrite reflected
    simp [htau]
  | false =>
    rw [if_neg Bool.false_ne_true]
    rcases Nat.le_total (min stop shape.cols) start with hbeyond | hle
    · -- no column is reached
      rw [ascend_of_le hbeyond]
      exact congrArg Except.ok (ofCells_congr fun r c _ _ => (if_neg (by omega)).symm)
    refine ascend_ofCells
      (fun j => overwrite row (row + v.size) start j (reflected v tau row f) f) hle
      (fun r c _ _ => (if_neg (by omega)).symm) (fun r c _ _ => rfl) ?_
    intro j hj1 hj2
    -- column `j` has not been changed yet, so its factor is that of the old cells
    have hcolumn : ∀ r, overwrite row (row + v.size) start j (reflected v tau row f) f r j = f r j :=
      fun r => if_neg (by omega)
    rw [conjDotColumn_ofCells hrow (by omega), ok_bind]
    simp only [hcolumn]
    change (if columnFactor v tau row f j == 0 then _ else
      ascend 0 v.size _ fun i a => do
        let old ← PagedMatrix.get a (row + i) j
        a.set (row + i) j (old - (← readAt v i) * columnFactor v tau row f j)) = _
    cases hzero : columnFactor v tau row f j == 0 with
    | true =>
      refine congrArg Except.ok (ofCells_congr fun r c _ _ => ?_)
      unfold overwrite
      -- a column whose share counts as zero is passed over
      rcases eq_or_ne c j with rfl | hne
      · rw [if_neg (by omega), reflected, hzero, Bool.or_true, if_pos rfl, ite_self]
      · have hcols : c < j ↔ c < j + 1 := by omega
        simp only [hcols]
    | false =>
      rw [if_neg Bool.false_ne_true, subtractColumn_ofCells hrow (by omega)]
      refine congrArg Except.ok (ofCells_congr fun r c _ _ => ?_)
      rcases eq_or_ne c j with rfl | hne
      · have hentry : reflected v tau row f r c =
            f r c - v.getD (r - row) 0 * columnFactor v tau row f c := by
          rw [reflected, htau, hzero]
          rfl
        unfold overwrite
        dsimp only
        rw [hentry]
        split_ifs <;> first | rfl | omega
      · unfold overwrite
        split_ifs <;> first | rfl | omega

end PagedMatrix

end DenseLinear
