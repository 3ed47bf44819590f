import DenseLinear.Proofs.Reflecting
import DenseLinear.Qr.Basic

/-!
# QR factorisation cell by cell

What a step of the QR factorisation leaves in each cell, for entries without any laws (`reduced`):
the finished rows and columns as they were, the packed reflection in its own column, and the
reflected columns to the right. The factorisation runs such steps one after the other
(`Reduction.run`); no cell of them depends on the columns to its right.

`unitaryFactor` unpacks one reflection after the other and applies it; `applyPacked_ofCells` is one
such step.
-/

namespace DenseLinear

namespace Qr

open PagedMatrix

variable {α ρ : Type} [Scalar α ρ]

/-- The factor that a reflection is packed with. -/
def packedScale (packing : Packing) (h : Reflection α) : α :=
  match packing with
  | .raw => 1
  | .compact => h.tau

/-- The cells `f` of a page of `m` rows after its column `k` has been reduced. -/
def reduced (packing : Packing) (m k : Nat) (f : Nat → Nat → α) : Nat → Nat → α :=
  let h := Reflection.atColumn f m k
  fun r c =>
    if r < k ∨ m ≤ r ∨ c < k then f r c
    else if k < c then reflected h.v h.tau k f r c
    else if r = k then h.alpha
    else packedScale packing h * h.v.getD (r - k) 0

section Cells

variable {packing : Packing} {m k r c : Nat} {f : Nat → Nat → α}

theorem reduced_of_lt_row (h : r < k) : reduced packing m k f r c = f r c :=
  if_pos (Or.inl h)

theorem reduced_of_lt_col (h : c < k) : reduced packing m k f r c = f r c :=
  if_pos (Or.inr (Or.inr h))

theorem reduced_diagonal (h : k < m) :
    reduced packing m k f k k = (Reflection.atColumn f m k).alpha := by
  unfold reduced
  rw [if_neg (by omega), if_neg (by omega), if_pos rfl]

theorem reduced_column (h : k < r) (h' : r < m) :
    reduced packing m k f r k = packedScale packing (Reflection.atColumn f m k) *
      (Reflection.atColumn f m k).v.getD (r - k) 0 := by
  unfold reduced
  rw [if_neg (by omega), if_neg (by omega), if_neg (by omega)]

theorem reduced_right (h : k ≤ r) (h' : r < m) (hc : k < c) :
    reduced packing m k f r c =
      reflected (Reflection.atColumn f m k).v (Reflection.atColumn f m k).tau k f r c := by
  unfold reduced
  rw [if_neg (by omega), if_pos hc]

end Cells

variable {shape : Shape} {kind : NumericKind} {height : Nat} {f : Nat → Nat → α}

/-- The entries of a direction after the first are written below the diagonal. -/
theorem packColumn_ofCells {k : Nat} {scale : α} {v : Array α} (hv : 0 < v.size)
    (hrow : k + v.size ≤ height) (hk : k < shape.cols) :
    packColumn (ofCells shape kind height f) k scale v =
      .ok (ofCells shape kind height (overwrite (k + 1) (k + v.size) k (k + 1)
        (fun r _ => scale * v.getD (r - k) 0) f)) := by
  refine ascend_ofCells (fun i => overwrite (k + 1) (k + i) k (k + 1)
    (fun r _ => scale * v.getD (r - k) 0) f) hv (fun r c _ _ => (if_neg (by omega)).symm)
    (fun r c _ _ => rfl) ?_
  intro i hi1 hi2
  rw [readAt_getD hi2, ok_bind, set_ofCells (by omega) hk]
  refine congrArg Except.ok (ofCells_congr fun r c _ _ => ?_)
  unfold setCell overwrite
  by_cases h : r = k + i ∧ c = k
  · obtain ⟨rfl, rfl⟩ := h
    rw [if_pos ⟨rfl, rfl⟩, if_pos (by omega)]
    dsimp only
    rw [Nat.add_sub_cancel_left]
  · rw [if_neg h]
    split_ifs <;> first | rfl | omega

/-- One step of the factorisation, together with the reflection that it has used. -/
theorem reduceAt_ofCells {packing : Packing} {k : Nat} (hk : k < shape.rows)
    (hrows : shape.rows ≤ height) (hk' : k < shape.cols) (hlimit : shape.rows < Size.limit)
    (hfits : Fits α shape.rows) :
    reduceAt packing (ofCells shape kind height f) k =
      .ok (ofCells shape kind height (reduced packing shape.rows k f),
        Reflection.atColumn f shape.rows k) := by
  have hsize := Reflection.size_atColumn f hk
  unfold reduceAt
  rw [rows_ofCells, Reflection.ofColumn_ofCells hk hrows hk' hlimit hfits, ok_bind]
  generalize hh : Reflection.atColumn f shape.rows k = h at hsize
  change ((ofCells shape kind height f).set k k h.alpha >>= fun a =>
    packColumn a k (packedScale packing h) h.v >>= fun a =>
      a.reflectLeft h.v h.tau k (k + 1) >>= fun a => pure (a, h)) = _
  rw [set_ofCells (by omega) hk', ok_bind, packColumn_ofCells (by omega) (by omega) hk', ok_bind]
  unfold reflectLeft
  rw [cols_ofCells, reflectColumns_ofCells (by omega), ok_bind]
  refine congrArg (fun a => Except.ok (a, h)) (ofCells_congr fun r c _ hc => ?_)
  -- packing stays in column `k`, so the columns to its right are reflected as they were
  have hright : ∀ r' c', k < c' → overwrite (k + 1) (k + h.v.size) k (k + 1)
      (fun r _ => packedScale packing h * h.v.getD (r - k) 0) (setCell f k k h.alpha) r' c' =
      f r' c' := by
    intro r' c' hc'
    unfold overwrite setCell
    rw [if_neg (by omega), if_neg (by omega)]
  unfold reduced
  rw [hh]
  -- the column is finished, packed or reflected
  rcases Nat.lt_trichotomy c k with hlt | rfl | hgt
  · unfold overwrite setCell
    rw [if_neg (by omega), if_neg (by omega), if_neg (by omega), if_pos (by omega)]
  · unfold overwrite setCell
    rw [if_neg (by omega), if_neg (Nat.lt_irrefl c)]
    dsimp only
    split_ifs <;> first | rfl | omega
  · rw [overwrite]
    by_cases hr : k ≤ r ∧ r < shape.rows
    · rw [if_pos (by omega), if_neg (by omega), if_pos hgt,
        reflected_congr (fun r' _ _ => hright r' c hgt) (hright r c hgt)]
    · rw [if_neg (by omega), if_pos (by omega), hright r c hgt]

/-! ## The factorisation -/

/-- The cells of a matrix whose first columns are reduced, and what is known of their
reflections. -/
structure Reduction (α : Type) where
  /-- The cells. -/
  cells : Nat → Nat → α
  /-- The factors of the reflections. -/
  taus : Array α
  /-- The phases of the diagonal entries before their reflections. -/
  phis : Array α

namespace Reduction

/-- The cells `f` before any step. -/
def initial (f : Nat → Nat → α) : Reduction α := ⟨f, #[], #[]⟩

/-- The reduction of column `k`. -/
def step (m k : Nat) (s : Reduction α) : Reduction α :=
  let h := Reflection.atColumn s.cells m k
  ⟨reduced .compact m k s.cells, s.taus.push h.tau, s.phis.push h.phi⟩

/-- The reduction of the first `count` columns. -/
def run (m : Nat) (f : Nat → Nat → α) : Nat → Reduction α
  | 0 => initial f
  | count + 1 => (run m f count).step m count

theorem size_taus_run (m : Nat) (f : Nat → Nat → α) (count : Nat) :
    (run m f count).taus.size = count := by
  induction count with
  | zero => rfl
  | succ count ih => simp [run, step, ih]

end Reduction

/-- The factorisation reduces the columns one after the other. Only if there are columns, a vector of
the length of a column is allocated. -/
theorem factor_ofCells_of_cols [RealArith ρ] (hrows : shape.rows ≤ height)
    (hlimit : shape.rows < Size.limit) (hfits : 0 < shape.cols → Fits α shape.rows) :
    factor (ofCells shape kind height f) = .ok
      { packed := (ofCells shape kind height
          (Reduction.run shape.rows f (min shape.rows shape.cols)).cells).refreshKind
        taus := (Reduction.run shape.rows f (min shape.rows shape.cols)).taus
        phis := (Reduction.run shape.rows f (min shape.rows shape.cols)).phis } := by
  unfold factor
  rw [rows_ofCells, cols_ofCells]
  refine bind_eq_ok (b := (ofCells shape kind height
      (Reduction.run shape.rows f (min shape.rows shape.cols)).cells,
    (Reduction.run shape.rows f (min shape.rows shape.cols)).taus,
    (Reduction.run shape.rows f (min shape.rows shape.cols)).phis)) ?_ rfl
  refine ascend_eq_ok (fun k => (ofCells shape kind height (Reduction.run shape.rows f k).cells,
    (Reduction.run shape.rows f k).taus, (Reduction.run shape.rows f k).phis))
    (Nat.zero_le _) rfl rfl ?_
  intro k _ hk
  dsimp only
  rw [reduceAt_ofCells (by omega) hrows (by omega) hlimit (hfits (by omega)), ok_bind]
  rfl

/-- The factorisation reduces the columns one after the other. -/
theorem factor_ofCells [RealArith ρ] (hrows : shape.rows ≤ height)
    (hlimit : shape.rows < Size.limit) (hfits : Fits α shape.rows) :
    factor (ofCells shape kind height f) = .ok
      { packed := (ofCells shape kind height
          (Reduction.run shape.rows f (min shape.rows shape.cols)).cells).refreshKind
        taus := (Reduction.run shape.rows f (min shape.rows shape.cols)).taus
        phis := (Reduction.run shape.rows f (min shape.rows shape.cols)).phis } :=
  factor_ofCells_of_cols hrows hlimit fun _ => hfits

/-! ## The unitary factor -/

/-- The direction that is packed, scaled by `tau`, below the diagonal of column `k`. -/
def unpackedColumn (f : Nat → Nat → α) (m k : Nat) (tau : α) : Array α :=
  #[1] ++ (Array.range (m - (k + 1))).map fun l => Scalar.quotient (f (k + 1 + l) k) tau

theorem size_unpackedColumn (f : Nat → Nat → α) {m k : Nat} (hk : k < m) (tau : α) :
    (unpackedColumn f m k tau).size = m - k := by
  have hone : (#[1] : Array α).size = 1 := rfl
  rw [unpackedColumn, Array.size_append, Array.size_map, Array.size_range, hone]
  omega

theorem getD_unpackedColumn_zero (f : Nat → Nat → α) (m k : Nat) (tau : α) :
    (unpackedColumn f m k tau).getD 0 0 = 1 := by
  have hone : 0 < (#[1] : Array α).size := Nat.one_pos
  rw [Array.getD_eq_getD_getElem?, unpackedColumn, Array.getElem?_append_left hone]
  rfl

theorem getD_unpackedColumn_succ (f : Nat → Nat → α) {m k l : Nat} (hl : l < m - (k + 1)) (tau : α) :
    (unpackedColumn f m k tau).getD (l + 1) 0 = Scalar.quotient (f (k + 1 + l) k) tau := by
  rw [Array.getD_eq_getD_getElem?, unpackedColumn,
    Array.getElem?_append_right (Nat.le_add_left 1 l)]
  simp [hl]

theorem unpackColumn_ofCells {k : Nat} {tau : α} (hk : k < shape.rows) (hrows : shape.rows ≤ height)
    (hk' : k < shape.cols) :
    unpackColumn (ofCells shape kind height f) k tau =
      .ok (unpackedColumn f shape.rows k tau) := by
  unfold unpackColumn
  rw [rows_ofCells]
  refine ascend_push (fun i => Scalar.quotient (f i k) tau) hk ?_
  intro i v hi1 hi2
  rw [get_ofCells (by omega) hk', ok_bind]
  rfl

/-- One step of `unitaryFactor`: a packed reflection is applied to the rows and columns from its own
on. -/
theorem applyPacked_ofCells {taus : Array α} {k : Nat} {kind' : NumericKind} {g : Nat → Nat → α}
    {tau : α} (htau : taus[k]? = some tau) (hk : k < shape.rows) (hrows : shape.rows ≤ height)
    (hk' : k < shape.cols) :
    (do
        let tau ← readAt taus k
        if tau == 0 then
          return ofCells { rows := shape.rows, cols := shape.rows } kind' shape.rows g
        else
          let v ← unpackColumn (ofCells shape kind height f) k tau
          (ofCells { rows := shape.rows, cols := shape.rows } kind' shape.rows g).reflectLeft
            v tau k k : Checked (PagedMatrix α)) =
      .ok (ofCells { rows := shape.rows, cols := shape.rows } kind' shape.rows
        (overwrite k shape.rows k shape.rows
          (reflected (unpackedColumn f shape.rows k tau) tau k g) g)) := by
  have hsize := size_unpackedColumn f hk tau
  rw [readAt_of_getElem? htau, ok_bind]
  cases hzero : tau == 0 with
  | true =>
    refine congrArg Except.ok (ofCells_congr fun r c _ _ => ?_)
    unfold overwrite reflected
    simp [hzero]
  | false =>
    have hend : k + (unpackedColumn f shape.rows k tau).size = shape.rows := by omega
    rw [if_neg Bool.false_ne_true, unpackColumn_ofCells hk hrows hk', ok_bind]
    unfold reflectLeft
    rw [cols_ofCells, reflectColumns_ofCells (by omega), hend]
    dsimp only
    rw [Nat.min_self]

end Qr

end DenseLinear
