import DenseLinear.Multiply.Matrix
import DenseLinear.Proofs.Cells

/-!
# Products cell by cell

What the loops of a matrix product leave in each cell, for entries without any laws. A sum of
products is a left fold (`accumulate`), so the order of its terms is part of the statements.

The direct way forms the whole sum of a cell at once (`addDirectProduct_ofCells`). The tiles add
single terms here and there; what they have done so far is told by the number of terms that each
cell has taken (`progress`). A tile takes its cells from one number of terms to another
(`addTile_ofCells`), so all tiles together give every cell all its terms, in the order of the inner
positions, whatever the edge length (`addTiles_ofCells`).
-/

namespace DenseLinear

namespace PagedMatrix

variable {α ρ : Type} [Scalar α ρ]

/-- The accumulator with the products `x l * y l` added to it for `l = 0, …, k - 1`, in this
order. -/
def accumulate (x y : Nat → α) (k : Nat) (acc : α) : α :=
  (List.range k).foldl (fun sum l => Scalar.addMul sum (x l) (y l)) acc

@[simp]
theorem accumulate_zero (x y : Nat → α) (acc : α) : accumulate x y 0 acc = acc := rfl

theorem accumulate_succ (x y : Nat → α) (k : Nat) (acc : α) :
    accumulate x y (k + 1) acc = Scalar.addMul (accumulate x y k acc) (x k) (y k) := by
  simp [accumulate, List.range_succ]

theorem accumulate_congr {x x' y y' : Nat → α} {k : Nat} (hx : ∀ l < k, x l = x' l)
    (hy : ∀ l < k, y l = y' l) (acc : α) : accumulate x y k acc = accumulate x' y' k acc := by
  induction k with
  | zero => rfl
  | succ k ih =>
    rw [accumulate_succ, accumulate_succ, ih (fun l h => hx l (by omega)) fun l h => hy l (by omega),
      hx k (by omega), hy k (by omega)]

variable {sa sb sc : Shape} {ka kb kc : NumericKind} {ha hb : Nat} {A B C : Nat → Nat → α}
  {m k n : Nat}

/-- The sum for one cell of a product. -/
theorem dotRowColumn_ofCells {i j : Nat} (hi : i < ha) (hka : k ≤ sa.cols) (hkb : k ≤ hb)
    (hj : j < sb.cols) :
    dotRowColumn (ofCells sa ka ha A) (ofCells sb kb hb B) k i j =
      .ok (accumulate (A i) (fun l => B l j) k 0) := by
  refine ascend_eq_ok (fun l => accumulate (A i) (fun l => B l j) l 0) (Nat.zero_le k) rfl rfl ?_
  intro l _ hl
  rw [get_ofCells hi (by omega), ok_bind, get_ofCells (by omega) hj, ok_bind, accumulate_succ]
  rfl

/-- The product by its definition. -/
theorem product_ofCells [RealArith ρ] (hrows : sa.rows ≤ ha) (hinner : sb.rows = sa.cols)
    (hhb : sb.rows ≤ hb) (hlimit : sa.rows < Size.limit) (hfits : Fits α (sa.rows * sb.cols)) :
    product (ofCells sa ka ha A) (ofCells sb kb hb B) =
      .ok (ofCells { rows := sa.rows, cols := sb.cols } .real sa.rows
        fun i j => accumulate (A i) (fun l => B l j) sa.cols 0).refreshKind := by
  unfold product
  rw [rows_ofCells, rows_ofCells, cols_ofCells, cols_ofCells, if_neg (by simp [hinner])]
  dsimp only
  rw [zeros_eq_ok hlimit hfits, ok_bind]
  refine bind_eq_ok (b := ofCells { rows := sa.rows, cols := sb.cols } .real sa.rows
    fun i j => accumulate (A i) (fun l => B l j) sa.cols 0) ?_ rfl
  apply fill_ofCells (g := fun i j => accumulate (A i) (fun l => B l j) sa.cols 0) 0 0
    (Nat.zero_le _) (Nat.zero_le _)
  · intro i F _ _
    rfl
  · intro i j _ hj
    exact if_pos (by dsimp only at hj; omega)
  · intro i j F _ hi _ hj _
    rw [dotRowColumn_ofCells (by omega) (Nat.le_refl _) (by omega) (by omega), ok_bind]
    simp only [Nat.zero_add, Nat.sub_zero]
    exact set_ofCells hi (by dsimp only; omega) _

/-! ## The direct way -/

/-- The matrix `c` with `alpha` times the product added, as the sum of each cell is formed first. -/
def withSums (alpha : α) (A B : Nat → Nat → α) (k : Nat) (C : Nat → Nat → α) : Nat → Nat → α :=
  fun i j => Scalar.addMul (C i j) alpha (accumulate (A i) (fun l => B l j) k 0)

/-- The direct way gives every cell its sum. -/
theorem addDirectProduct_ofCells {alpha : α} (hka : k ≤ sa.cols) (hkb : k ≤ hb)
    (hm : m ≤ ha) (hn : n ≤ sb.cols) (hcols : sc.cols = n) :
    addDirectProduct alpha (ofCells sa ka ha A) (ofCells sb kb hb B) m k n (ofCells sc kc m C) =
      .ok (ofCells sc kc m (withSums alpha A B k C)) := by
  refine fill_ofCells (g := withSums alpha A B k C) 0 0 (Nat.zero_le m) (Nat.zero_le n)
    (fun i F _ _ => rfl) ?_ ?_
  · intro r c _ _
    exact if_pos (by omega)
  intro i j F _ hi _ hj hF
  -- a cell is read once, before it is written, so its old entry is still there
  rw [dotRowColumn_ofCells (by omega) hka hkb (by omega), ok_bind, get_ofCells hi (by omega), ok_bind,
    hF i j (by omega)]
  simp only [Nat.zero_add, Nat.sub_zero]
  exact set_ofCells hi (by omega) _

/-! ## The tiles -/

/-- The matrix `C` after each cell has taken its first terms of the product, `T r c` of them in row
`r` and column `c`. -/
def progress (A B C : Nat → Nat → α) (T : Nat → Nat → Nat) : Nat → Nat → α :=
  fun r c => accumulate (A r) (fun l => B l c) (T r c) (C r c)

theorem progress_congr {height width : Nat} {T T' : Nat → Nat → Nat}
    (h : AgreeOn height width T T') :
    AgreeOn height width (progress A B C T) (progress A B C T') := by
  intro r c hr hc
  simp only [progress, h r c hr hc]

/-- A cell takes its next term. -/
theorem setCell_progress {T : Nat → Nat → Nat} {i j l : Nat} (hT : T i j = l) :
    setCell (progress A B C T) i j (Scalar.addMul (progress A B C T i j) (A i l) (B l j)) =
      progress A B C (setCell T i j (l + 1)) := by
  subst hT
  funext r c
  by_cases h : r = i ∧ c = j
  · obtain ⟨rfl, rfl⟩ := h
    simp [setCell, progress, accumulate_succ]
  · simp only [setCell, progress, if_neg h]

/-- A loop over cells of which each step lets some cells take terms. -/
theorem ascend_progress {step : Nat → PagedMatrix α → Checked (PagedMatrix α)} {lo hi : Nat}
    {T T' : Nat → Nat → Nat} (F : Nat → Nat → Nat → Nat) (hle : lo ≤ hi)
    (hlo : AgreeOn m sc.cols T (F lo)) (hhi : AgreeOn m sc.cols (F hi) T')
    (hstep : ∀ i, lo ≤ i → i < hi →
      step i (ofCells sc kc m (progress A B C (F i))) =
        .ok (ofCells sc kc m (progress A B C (F (i + 1))))) :
    ascend lo hi (ofCells sc kc m (progress A B C T)) step =
      .ok (ofCells sc kc m (progress A B C T')) :=
  ascend_ofCells (fun i => progress A B C (F i)) hle (progress_congr hlo) (progress_congr hhi) hstep

/-- `ascend_progress` for striding loops. -/
theorem strides_progress {step : Nat → PagedMatrix α → Checked (PagedMatrix α)} {hi width : Nat}
    {T T' : Nat → Nat → Nat} (F : Nat → Nat → Nat → Nat) (hwidth : 0 < width)
    (hlo : AgreeOn m sc.cols T (F 0)) (hhi : AgreeOn m sc.cols (F hi) T')
    (hstep : ∀ i, i < hi → width ∣ i →
      step i (ofCells sc kc m (progress A B C (F i))) =
        .ok (ofCells sc kc m (progress A B C (F (min (i + width) hi))))) :
    strides 0 hi width (ofCells sc kc m (progress A B C T)) step =
      .ok (ofCells sc kc m (progress A B C T')) := by
  exact strides_ofCells (fun i => progress A B C (F i)) hwidth (Nat.zero_le hi)
    (progress_congr hlo) (progress_congr hhi) fun i _ h hd => hstep i h hd

/-- A tile lets each of its cells take the terms at its inner positions. -/
theorem addTile_ofCells {rows cols inner : Span} {T T' : Nat → Nat → Nat}
    (hsa : inner.stop ≤ sa.cols) (hrows : rows.stop ≤ m) (hm : m ≤ ha) (hinner : inner.stop ≤ hb)
    (hcols : cols.stop ≤ sc.cols) (hsb : sb.cols = sc.cols) (hm' : m < Size.limit)
    (hb' : hb < Size.limit) (hr : rows.start ≤ rows.stop) (hc : cols.start ≤ cols.stop)
    (hl : inner.start ≤ inner.stop)
    (hT : ∀ r c, rows.start ≤ r → r < rows.stop → cols.start ≤ c → c < cols.stop →
      T r c = inner.start)
    (hT' : ∀ r c, T' r c = if rows.start ≤ r ∧ r < rows.stop ∧ cols.start ≤ c ∧ c < cols.stop then
      inner.stop else T r c) :
    addTile (ofCells sa ka ha A) (ofCells sb kb hb B) (ofCells sc kc m (progress A B C T))
        rows cols inner =
      .ok (ofCells sc kc m (progress A B C T')) := by
  refine ascend_progress (fun i r c => if rows.start ≤ r ∧ r < i ∧ cols.start ≤ c ∧ c < cols.stop
    then inner.stop else T r c) hr ?_ ?_ ?_
  · intro r c _ _
    dsimp only
    rw [if_neg (by omega)]
  · intro r c _ _
    exact (hT' r c).symm
  intro i hi hi'
  -- row `i` takes the terms one inner position after the other
  refine ascend_progress (fun l r c => if rows.start ≤ r ∧ r < i ∧ cols.start ≤ c ∧ c < cols.stop
    then inner.stop else if r = i ∧ cols.start ≤ c ∧ c < cols.stop then l else T r c) hl ?_ ?_ ?_
  · intro r c _ _
    have h := hT r c
    dsimp only
    split_ifs <;> first | rfl | omega
  · intro r c _ _
    dsimp only
    split_ifs <;> first | rfl | omega
  intro l hl1 hl2
  -- the left factor is read once for the whole row of the tile
  rw [get_ofCells (by omega) (by omega), ok_bind,
    checkRowWindow_ofCells (by omega) hb' hc (by omega), ok_bind,
    checkRowWindow_ofCells (by omega) hm' hc hcols, ok_bind]
  refine ascend_progress (fun j r c => if rows.start ≤ r ∧ r < i ∧ cols.start ≤ c ∧ c < cols.stop
    then inner.stop else if r = i ∧ cols.start ≤ c ∧ c < cols.stop then
      (if c < j then l + 1 else l) else T r c) hc ?_ ?_ ?_
  · intro r c _ _
    dsimp only
    split_ifs <;> first | rfl | omega
  · intro r c _ _
    dsimp only
    split_ifs <;> first | rfl | omega
  intro j hj1 hj2
  -- each cell of the row takes the term of position `l`, from the left to the right
  rw [get_ofCells (by omega) (by omega), ok_bind, get_ofCells (by omega) (by omega), ok_bind,
    set_ofCells (by omega) (by omega), setCell_progress]
  · refine congrArg Except.ok (ofCells_congr (progress_congr fun r c _ _ => ?_))
    unfold setCell
    dsimp only
    split_ifs <;> first | rfl | omega
  · split_ifs <;> first | rfl | omega

/-- The span of a stride is cut off at the bound. -/
theorem spanFrom_eq_ok {start width bound : Nat} (h : start + width < Size.limit) :
    spanFrom start width bound = .ok ⟨start, min (start + width) bound⟩ := by
  unfold spanFrom
  rw [Size.add_eq_ok h, ok_bind]
  rfl

/-- The end of a stride is a machine word if that of the first one is: any other stride is at most
as long as the way to its start. -/
theorem stride_end_lt {lo start width bound : Nat} (hfirst : lo + width < Size.limit)
    (hbound : bound ≤ capacityLimit) (hlo : lo ≤ start) (hstart : start < bound)
    (hdvd : width ∣ start - lo) : start + width < Size.limit := by
  rcases Nat.eq_zero_or_pos (start - lo) with h0 | hpos
  · omega
  · have hle : width ≤ start - lo := Nat.le_of_dvd hpos hdvd
    have hlimit : 2 * capacityLimit < Size.limit := by decide
    omega

/-- The tiles give every cell all its terms. -/
theorem addTiles_ofCells {width : Nat} (hsa : sa.cols = k) (hsb : sb.cols = n) (hsc : sc.cols = n)
    (hwidth : 0 < width) (hwidth' : width < Size.limit) (hm : m ≤ capacityLimit)
    (hk : k ≤ capacityLimit) (hn : n ≤ capacityLimit) :
    addTiles (ofCells sa ka m A) (ofCells sb kb k B) m k n width (ofCells sc kc m C) =
      .ok (ofCells sc kc m (progress A B C fun _ _ => k)) := by
  have hlimit : capacityLimit < Size.limit := by decide
  have hfirst : 0 + width < Size.limit := by omega
  have hstart : ofCells sc kc m C = ofCells sc kc m (progress A B C fun _ _ => 0) := rfl
  rw [hstart]
  -- rows of tiles before `ii` have all their terms
  refine strides_progress (fun ii r _ => if r < ii then k else 0) hwidth ?_ ?_ ?_
  · intro r c _ _
    simp
  · intro r c hr _
    simp [hr]
  intro ii hii hdvd
  rw [spanFrom_eq_ok (stride_end_lt hfirst hm (Nat.zero_le ii) hii hdvd), ok_bind]
  -- within a row of tiles, all cells have the terms of the inner positions before `kk`
  refine strides_progress (fun kk r _ => if r < ii then k else if r < min (ii + width) m then kk
    else 0) hwidth ?_ ?_ ?_
  · intro r c _ _
    dsimp only
    split_ifs <;> rfl
  · intro r c _ _
    dsimp only
    split_ifs <;> first | rfl | omega
  intro kk hkk hdvd'
  rw [spanFrom_eq_ok (stride_end_lt hfirst hk (Nat.zero_le kk) hkk hdvd'), ok_bind]
  -- the tiles to the left of `jj` have the terms of this inner span already
  refine strides_progress (fun jj r c => if r < ii then k else if r < min (ii + width) m then
    (if c < jj then min (kk + width) k else kk) else 0) hwidth ?_ ?_ ?_
  · intro r c _ _
    simp
  · intro r c _ hc
    rw [hsc] at hc
    simp [hc]
  intro jj hjj hdvd''
  rw [spanFrom_eq_ok (stride_end_lt hfirst hn (Nat.zero_le jj) hjj hdvd''), ok_bind]
  refine addTile_ofCells (by dsimp only; omega) (by dsimp only; omega) (Nat.le_refl m)
    (by dsimp only; omega) (by dsimp only; omega) (by omega) (by omega) (by omega)
    (by dsimp only; omega) (by dsimp only; omega) (by dsimp only; omega) ?_ ?_
  · intro r c h1 h2 h3 h4
    dsimp only at h1 h2 h3 h4 ⊢
    split_ifs <;> first | rfl | omega
  · intro r c
    dsimp only
    split_ifs <;> first | rfl | omega

/-- The tiles give every cell its terms, one after the other on top of the old entry if `alpha` is
one, and as a sum otherwise. -/
theorem addTiledProduct_ofCells {alpha : α} {width : Nat} (hsa : sa.cols = k) (hsb : sb.cols = n)
    (hsc : sc.cols = n) (hwidth : 0 < width) (hwidth' : width < Size.limit)
    (hm : m ≤ capacityLimit) (hk : k ≤ capacityLimit) (hn : n ≤ capacityLimit)
    (hfits : Fits α (m * n)) :
    addTiledProduct alpha (ofCells sa ka m A) (ofCells sb kb k B) m k n width (ofCells sc kc m C) =
      .ok (ofCells sc kc m
        (if alpha == 1 then progress A B C fun _ _ => k else withSums alpha A B k C)) := by
  have hlimit : capacityLimit < Size.limit := by decide
  unfold addTiledProduct
  cases alpha == 1 with
  | true => exact addTiles_ofCells hsa hsb hsc hwidth hwidth' hm hk hn
  | false =>
    -- the sums are formed in a matrix of zeros and added at the end
    have htiles : addTiles (ofCells sa ka m A) (ofCells sb kb k B) m k n width
        (ofCells { rows := m, cols := n } .real m fun _ _ => 0) =
        .ok (ofCells { rows := m, cols := n } .real m (progress A B (fun _ _ => 0) fun _ _ => k)) :=
      addTiles_ofCells hsa hsb rfl hwidth hwidth' hm hk hn
    rw [if_neg (by decide), if_neg (by decide), zeros_eq_ok (by omega) hfits, ok_bind, htiles, ok_bind]
    refine congrArg Except.ok (eq_ofCells rfl rfl fun i => ?_)
    simp only [Array.getElem?_mapIdx, getElem?_data_ofCells, hsc]
    by_cases hi : i < m * n
    · simp only [hi, if_true]
      rfl
    · simp only [hi, if_false]
      rfl

end PagedMatrix

end DenseLinear
