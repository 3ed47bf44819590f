import DenseLinear.Lu.Factor
import DenseLinear.Proofs.Elimination
import DenseLinear.Proofs.MultiplyAdd

/-!
# One block of a factorisation

What one step of a blocked factorisation leaves in each cell: a panel is eliminated, the rows to its
right are solved for, and the trailing block is updated. Both forms of the update are overwrites of
the trailing block and only differ in how they take the sum of products off an entry (`trailing`).
What the update by a product leaves may depend on the blocking parameters that the product settles
on (`trailingByProduct`). Where it does not (`UpdatesBy`), there is one stage before each block
(`Blocks`). Otherwise a factorisation still has the properties that every block keeps, whatever the
parameters of its product are (`KeptByBlocks`).
-/

namespace DenseLinear

namespace Lu

open PagedMatrix

variable {α ρ : Type} [Scalar α ρ]

/-- The cells with the trailing block after the panel `[k, k + width)` updated: the entry `x` with
the sum of products `s` becomes `T x s`. -/
def trailing (T : α → α → α) (m n k width : Nat) (f : Nat → Nat → α) : Nat → Nat → α :=
  overwrite (k + width) m (k + width) n
    (fun r c => T (f r c) (accumulate (fun l => f r (k + l)) (fun l => f (k + l) c) width 0)) f

section Tiles

variable {shape : Shape} {kind : NumericKind} {height : Nat} {f : Nat → Nat → α}

/-- The sum that is taken off a cell of the trailing block. -/
theorem sumProducts_ofCells {i j k width : Nat} (hi : i < height) (hj : j < shape.cols)
    (hkr : k + width ≤ height) (hkc : k + width ≤ shape.cols) :
    ascend k (k + width) 0 (fun l sum => do
        let left ← (ofCells shape kind height f).get i l
        return Scalar.addMul sum left (← (ofCells shape kind height f).get l j)) =
      .ok (accumulate (fun l => f i (k + l)) (fun l => f (k + l) j) width 0) := by
  refine ascend_eq_ok
    (fun l => accumulate (fun l => f i (k + l)) (fun l => f (k + l) j) (l - k) 0)
    (Nat.le_add_right k width) (by rw [Nat.sub_self, accumulate_zero]) (by rw [Nat.add_sub_cancel_left])
    ?_
  intro l hl hl'
  have hnext : l + 1 - k = l - k + 1 := by omega
  rw [get_ofCells hi (by omega), ok_bind, get_ofCells (by omega) hj, ok_bind, hnext,
    accumulate_succ, Nat.add_sub_cancel' hl]
  rfl

/-- Updates the tiles of one row of tiles, which starts at row `ii`. -/
def updateTileRow (k start edge ii : Nat) (a : PagedMatrix α) : Checked (PagedMatrix α) := do
  let rows ← spanFrom ii edge a.rows
  strides start a.cols edge a fun jj a => do
    let cols ← spanFrom jj edge a.cols
    ascend rows.start rows.stop a fun i a =>
      ascend cols.start cols.stop a fun j a => do
        let sum ← ascend k start 0 fun l sum => do
          let left ← a.get i l
          return Scalar.addMul sum left (← a.get l j)
        a.set i j ((← a.get i j) - sum)

/-- The rows of tiles are updated one after the other. -/
theorem updateByTiles_eq (a : PagedMatrix α) {k width : Nat} (hword : k + width < Size.limit)
    (edge : Nat) : updateByTiles a k width edge =
      strides (k + width) a.rows (max edge 1) a (updateTileRow k (k + width) (max edge 1)) := by
  unfold updateByTiles
  rw [Size.add_eq_ok hword]
  rfl

/-- A row of tiles is updated if the ends of its tiles are machine words. -/
theorem updateTileRow_ofCells {k width edge ii : Nat} (hrows : shape.rows ≤ height)
    (hkr : k + width ≤ shape.rows) (hkc : k + width ≤ shape.cols) (hpos : 0 < edge)
    (hii : k + width ≤ ii) (hii' : ii < shape.rows) (hend : ii + edge < Size.limit)
    (hends : ∀ jj, k + width ≤ jj → jj < shape.cols → edge ∣ jj - (k + width) →
      jj + edge < Size.limit) :
    updateTileRow k (k + width) edge ii
        (ofCells shape kind height (trailing (· - ·) ii shape.cols k width f)) =
      .ok (ofCells shape kind height
        (trailing (· - ·) (min (ii + edge) shape.rows) shape.cols k width f)) := by
  unfold updateTileRow trailing
  generalize hg : (fun r c => f r c -
    accumulate (fun l => f r (k + l)) (fun l => f (k + l) c) width 0) = g
  rw [rows_ofCells, cols_ofCells, spanFrom_eq_ok hend, ok_bind]
  dsimp only
  -- within the row of tiles, the tiles to the left of `jj` are updated
  refine strides_ofCells (fun jj => overwrite ii (min (ii + edge) shape.rows) (k + width) jj g
    (overwrite (k + width) ii (k + width) shape.cols g f)) hpos hkc
    (fun r c _ _ => (if_neg (by omega)).symm) ?_ ?_
  · intro r c _ _
    unfold overwrite
    split_ifs <;> first | rfl | omega
  intro jj hjj hjj' hdvd
  rw [cols_ofCells, spanFrom_eq_ok (hends jj hjj hjj' hdvd), ok_bind]
  dsimp only
  have hcols : jj ≤ min (jj + edge) shape.cols := by omega
  -- the tiles only meet at their edges, so each cell is written once
  apply fill_ofCells (g := g) ii jj (by omega) hcols
  · intro i F _ _
    rfl
  · intro r c _ _
    unfold overwrite
    split_ifs <;> first | rfl | omega
  intro i j F hi hi' hj hj' hF
  -- the panel and the cell itself still hold what they held before the update
  have hold : ∀ r c, r = i ∧ c = j ∨ r < k + width ∨ c < k + width → F r c = f r c := by
    intro r c h
    rw [hF r c (by omega)]
    unfold overwrite
    rw [if_neg (by omega), if_neg (by omega)]
  have hsum : accumulate (fun l => F i (k + l)) (fun l => F (k + l) j) width 0 =
      accumulate (fun l => f i (k + l)) (fun l => f (k + l) j) width 0 :=
    accumulate_congr (fun l _ => hold i (k + l) (by omega)) (fun l _ => hold (k + l) j (by omega)) 0
  rw [sumProducts_ofCells (by omega) (by omega) (by omega) hkc, ok_bind,
    get_ofCells (by omega) (by omega), ok_bind, hsum, hold i j (by omega), Nat.add_sub_cancel' hi,
    Nat.add_sub_cancel' hj, ← hg]
  exact set_ofCells (by omega) (by omega) _

/-- Before the first row of tiles nothing is updated. -/
theorem trailing_start {T : α → α → α} {n k width : Nat} :
    trailing T (k + width) n k width f = f := by
  funext r c
  exact if_neg (by omega)

/-- The tiles update the whole trailing block if their ends are machine words. -/
theorem updateByTiles_of_ends {k width edge : Nat} (hrows : shape.rows ≤ height)
    (hkr : k + width ≤ shape.rows) (hkc : k + width ≤ shape.cols) (hword : k + width < Size.limit)
    (hrowEnds : ∀ ii, k + width ≤ ii → ii < shape.rows → max edge 1 ∣ ii - (k + width) →
      ii + max edge 1 < Size.limit)
    (hcolEnds : k + width < shape.rows → ∀ jj, k + width ≤ jj → jj < shape.cols →
      max edge 1 ∣ jj - (k + width) → jj + max edge 1 < Size.limit) :
    updateByTiles (ofCells shape kind height f) k width edge =
      .ok (ofCells shape kind height (trailing (· - ·) shape.rows shape.cols k width f)) := by
  rw [updateByTiles_eq _ hword, rows_ofCells]
  refine strides_ofCells (fun ii => trailing (· - ·) ii shape.cols k width f) (by omega) hkr ?_
    (fun r c _ _ => rfl) ?_
  · intro r c _ _
    exact congrFun (congrFun trailing_start.symm r) c
  · intro ii hii hii' hdvd
    exact updateTileRow_ofCells hrows hkr hkc (by omega) hii hii' (hrowEnds ii hii hii' hdvd)
      (hcolEnds (by omega))

/-- The tiles update the whole trailing block. If there is one, an edge is not longer than the
panel. -/
theorem updateByTiles_ofCells {k width edge : Nat} (hrows : shape.rows ≤ height)
    (hkr : k + width ≤ shape.rows) (hkc : k + width ≤ shape.cols) (hpos : 1 ≤ edge)
    (hedge : k + width < shape.rows → edge ≤ width) (hm : shape.rows ≤ capacityLimit)
    (hn : shape.cols ≤ capacityLimit) :
    updateByTiles (ofCells shape kind height f) k width edge =
      .ok (ofCells shape kind height (trailing (· - ·) shape.rows shape.cols k width f)) := by
  have hlimit : 2 * capacityLimit < Size.limit := by decide
  have hmax : max edge 1 = edge := Nat.max_eq_left hpos
  refine updateByTiles_of_ends hrows hkr hkc (by omega) ?_ ?_
  · intro ii hii hii' _
    have hedge := hedge (by omega)
    omega
  · intro hsome jj hjj hjj' _
    have hedge := hedge hsome
    omega

end Tiles

section Products

variable [RealArith ρ] {shape : Shape} {kind : NumericKind} {height : Nat} {f : Nat → Nat → α}

/-- The cells with the trailing block after the panel `[k, k + width)` updated by a product of copies,
under the blocking parameters that the product is formed with. -/
def trailingByProduct (blocking : Blocking) (m n k width : Nat) (f : Nat → Nat → α) :
    Nat → Nat → α :=
  let next := k + width
  overwrite next m next n
    (fun r c => updatedCells (-1) (fun i l => f (next + i) (k + l)) (fun l j => f (k + l) (next + j))
      (m - next) width (n - next) 1 (fun i j => f (next + i) (next + j)) blocking (r - next)
      (c - next)) f

omit [RealArith ρ] in
/-- Without rows below the panel there is nothing to update. -/
theorem trailingByProduct_of_le {blocking : Blocking} {m n k width : Nat} (h : m ≤ k + width) :
    trailingByProduct blocking m n k width f = f := by
  funext r c
  exact if_neg (by omega)

/-- The product of copies updates the whole trailing block. -/
theorem ends_updateByProduct {k width : Nat} {choice : BlockingChoice} (hchoice : choice.Valid)
    (hrows : shape.rows ≤ height) (hkr : k + width < shape.rows) (hkc : k + width < shape.cols)
    (hheight : height < Size.limit) (hcols : shape.cols < Size.limit)
    (hfits : Fits α (height * shape.cols)) :
    Ends (updateByProduct (ofCells shape kind height f) k (k + width) choice) fun b =>
      ∃ blocking, b = ofCells shape kind height
        (trailingByProduct blocking shape.rows shape.cols k width f) := by
  have hfit : ∀ r c, r ≤ height → c ≤ shape.cols → Fits α (r * c) := fun r c hr hc =>
    hfits.mono (Nat.mul_le_mul hr hc)
  unfold updateByProduct
  rw [rows_ofCells, cols_ofCells]
  -- the multipliers, the rows to the right of the panel and the trailing block are copied
  refine ends_bind (ends_checkedT (ends_eq_iff.2 (block_ofCells (by omega) hrows (by omega)
    (by omega) hheight (hfit _ _ (by omega) (by omega))))) ?_
  rintro _ rfl
  refine ends_bind (ends_checkedT (ends_eq_iff.2 (block_ofCells (by omega) (by omega) (by omega)
    (Nat.le_refl _) hheight (hfit _ _ (by omega) (by omega))))) ?_
  rintro _ rfl
  refine ends_bind (ends_checkedT (ends_eq_iff.2 (block_ofCells (by omega) hrows (by omega)
    (Nat.le_refl _) hheight (hfit _ _ (by omega) (by omega))))) ?_
  rintro _ rfl
  -- the product is added to the third copy
  have hinner : k + width - k = width := Nat.add_sub_cancel_left k width
  rw [hinner]
  refine ends_bind (ends_adapt (ends_multiplyAdd (-1) 1 choice
    (stored_ofCells (by omega) (by omega) (hfit _ _ (by omega) (by omega)))
    (stored_ofCells (by omega) (by omega) (hfit _ _ (by omega) (by omega)))
    (stored_ofCells (by omega) (by omega) (hfit _ _ (by omega) (by omega))) ?_ hchoice)) ?_
  · rw [requireOperands_eq_ok_iff]
    exact ⟨⟨height_of_plain (by omega), rfl⟩, ⟨height_of_plain (by omega), rfl⟩,
      height_of_plain (by omega), rfl⟩
  rintro _ ⟨blocking, rfl⟩
  -- the copy is put back where it was taken from
  refine ends_checkedT ⟨_, ?_, blocking, rfl⟩
  rw [refreshKind_ofCells, shape_ofCells, setBlock_ofCells (height_of_plain (by omega)) (by omega)
    (by dsimp only; omega) hheight hcols]
  refine congrArg Except.ok (ofCells_congr fun r c _ _ => ?_)
  unfold trailingByProduct overwrite
  dsimp only
  by_cases hin : (k + width ≤ r ∧ r < shape.rows) ∧ k + width ≤ c ∧ c < shape.cols
  · obtain ⟨⟨hr, hr'⟩, hc, hc'⟩ := hin
    rw [if_pos (by omega), if_pos (by omega)]
    exact updatedCells_congr
      (fun l hl => cell_ofCells (by omega) hl)
      (fun l hl => cell_ofCells hl (by dsimp only; omega))
      (cell_ofCells (by omega) (by dsimp only; omega))
  · rw [if_neg (by omega), if_neg hin]

/-- An update of `C` by the product `-1 * A * B` turns an entry `x` with the sum of products `s`
into `T x s`, whatever the blocking parameters are. -/
def UpdatesBy (T : α → α → α) : Prop :=
  ∀ (A B C : Nat → Nat → α) (m k n : Nat) (blocking : Blocking) (i j : Nat),
    0 < m → 0 < k → 0 < n → updatedCells (-1) A B m k n 1 C blocking i j =
      T (C i j) (accumulate (A i) (fun l => B l j) k 0)

omit [RealArith ρ] in
/-- Where all blocking parameters have the same effect, there is one way to update the block. -/
theorem UpdatesBy.trailingByProduct_eq {T : α → α → α} (hT : UpdatesBy T) (blocking : Blocking)
    {m n k width : Nat} (hwidth : 0 < width) :
    trailingByProduct blocking m n k width f = trailing T m n k width f := by
  funext r c
  unfold trailingByProduct trailing overwrite
  dsimp only
  by_cases hin : (k + width ≤ r ∧ r < m) ∧ k + width ≤ c ∧ c < n
  · obtain ⟨⟨hr, hr'⟩, hc, hc'⟩ := hin
    rw [if_pos ⟨⟨hr, hr'⟩, hc, hc'⟩, if_pos ⟨⟨hr, hr'⟩, hc, hc'⟩,
      hT _ _ _ _ _ _ _ _ _ (by omega) hwidth (by omega), Nat.add_sub_cancel' hr,
      Nat.add_sub_cancel' hc]
  · rw [if_neg hin, if_neg hin]

end Products

section Steps

variable [RealArith ρ] {shape : Shape} (kind : NumericKind) {height : Nat} (s : Stage α)
  {k width : Nat}

/-- The stage after one block: the panel is eliminated, the rows to its right are solved for, and the
trailing block is updated. -/
def blockStep (T : α → α → α) (m n k width : Nat) (s : Stage α) : Stage α :=
  let s := s.run m (k + width) k width
  if k + width < n then
    { s with cells := trailing T m n k width (forwardSolved k width s.cells) }
  else s

/-- The cells after the panel of a block, with what is to its right brought up to date. -/
theorem blockStep_eq (T : α → α → α) (m n k width : Nat) (s : Stage α) :
    blockStep T m n k width s =
      { s.run m (k + width) k width with
        cells := if k + width < n then
            trailing T m n k width (forwardSolved k width (s.run m (k + width) k width).cells)
          else (s.run m (k + width) k width).cells } := by
  unfold blockStep
  dsimp only
  split <;> rfl

/-- The stage after one block whose trailing block is updated by a product, under the blocking
parameters that the product is formed with. -/
def blockStepByProduct (blocking : Blocking) (m n k width : Nat) (s : Stage α) : Stage α :=
  { s.run m (k + width) k width with
    cells := if k + width < n then
        trailingByProduct blocking m n k width
          (forwardSolved k width (s.run m (k + width) k width).cells)
      else (s.run m (k + width) k width).cells }

theorem UpdatesBy.blockStepByProduct_eq {T : α → α → α} (hT : UpdatesBy T) (blocking : Blocking)
    {m n k width : Nat} (s : Stage α) (hwidth : 0 < width) :
    blockStepByProduct blocking m n k width s = blockStep T m n k width s := by
  rw [blockStep_eq, blockStepByProduct, hT.trailingByProduct_eq blocking hwidth]

/-- The elimination of a panel that lies within the matrix. -/
theorem ends_factorPanel_of_le (hrows : shape.rows ≤ height) (hheight : height < Size.limit)
    (hkr : k + width ≤ shape.rows) (hkc : k + width ≤ shape.cols)
    (hpivots : k + width ≤ s.pivots.size) (hswaps : s.status.swaps ≤ k) :
    Ends (factorPanel k width (s.sweep shape kind height))
      (· = (s.run shape.rows (k + width) k width).sweep shape kind height) := by
  have h := ends_factorPanel kind s hrows (show k + width < Size.limit by omega) (by omega) hswaps
    (by omega)
  rwa [Nat.min_eq_left hkc, Nat.min_eq_left hkr, Nat.add_sub_cancel_left] at h

/-- One step with tiles. -/
theorem ends_stepByTiles {edge : Nat} (hrows : shape.rows ≤ height) (hheight : height < Size.limit)
    (hkr : k + width ≤ shape.rows) (hkc : k + width ≤ shape.cols)
    (hpivots : k + width ≤ s.pivots.size) (hswaps : s.status.swaps ≤ k) (hpos : 1 ≤ edge)
    (hedge : k + width < min shape.rows shape.cols → edge ≤ width)
    (hm : k + width < shape.cols → shape.rows ≤ capacityLimit)
    (hn : k + width < shape.cols → shape.cols ≤ capacityLimit) :
    Ends (stepByTiles edge width k (s.sweep shape kind height))
      (· = (blockStep (· - ·) shape.rows shape.cols k width s).sweep shape kind height) := by
  rw [blockStep_eq]
  unfold stepByTiles
  refine ends_bind (ends_factorPanel_of_le kind s hrows hheight hkr hkc hpivots hswaps) ?_
  rintro _ rfl
  dsimp only [Stage.sweep]
  rw [cols_ofCells]
  -- a panel that ends at the last column leaves nothing to update
  by_cases hright : k + width < shape.cols
  · rw [if_pos hright, if_pos hright]
    refine ends_bind (ends_checked (ends_eq_iff.2 (solveUnitLower_ofCells (by omega) hkc hheight))) ?_
    rintro _ rfl
    refine ends_bind (ends_checked (ends_eq_iff.2 (updateByTiles_ofCells hrows hkr hkc hpos
      (fun h => hedge (by omega)) (hm hright) (hn hright)))) ?_
    rintro _ rfl
    exact ends_pure rfl
  · rw [if_neg hright, if_neg hright]
    exact ends_pure rfl

/-- One step with a product. -/
theorem ends_stepByProduct {choice : BlockingChoice} (hchoice : choice.Valid)
    (hrows : shape.rows ≤ height) (hheight : height < Size.limit)
    (hcols : shape.cols < Size.limit) (hfits : Fits α (height * shape.cols))
    (hkr : k + width ≤ shape.rows) (hkc : k + width ≤ shape.cols)
    (hpivots : k + width ≤ s.pivots.size) (hswaps : s.status.swaps ≤ k) :
    Ends (stepByProduct choice width k (ofCells shape kind height s.cells) s.pivots s.status.swaps)
      fun found => ∃ blocking, found =
        (ofCells shape kind height
            (blockStepByProduct blocking shape.rows shape.cols k width s).cells,
          (blockStepByProduct blocking shape.rows shape.cols k width s).pivots,
          (blockStepByProduct blocking shape.rows shape.cols k width s).status.swaps) := by
  -- every panel is swept with a fresh status; its interchanges are added afterwards
  obtain ⟨hcells, hpivots', hsum⟩ := Stage.run_of_status shape.rows (k + width) k s {} width
  have hbound := Stage.swaps_run_le shape.rows (k + width) k s width
  have hpanel := ends_factorPanel_of_le kind { s with status := {} } hrows hheight hkr hkc hpivots
    (Nat.zero_le k)
  unfold stepByProduct blockStepByProduct
  refine ends_bind (ends_unrefused hpanel) ?_
  rintro _ rfl
  dsimp only [Stage.sweep] at hsum ⊢
  rw [Nat.zero_add] at hsum
  rw [hcells, hpivots']
  refine ends_bind (ends_checkedT (ends_eq_iff.2 (Size.add_eq_ok (by omega)))) ?_
  rintro _ rfl
  rw [hsum, cols_ofCells]
  by_cases hright : k + width < shape.cols
  · simp only [if_pos hright]
    refine ends_bind (ends_checkedT (ends_eq_iff.2 (solveUnitLower_ofCells (by omega) hkc hheight)))
      ?_
    rintro _ rfl
    rw [rows_ofCells]
    -- below the last row there is nothing to copy, and the update is skipped
    by_cases hbelow : k + width < shape.rows
    · rw [if_pos hbelow]
      refine ends_bind (ends_updateByProduct hchoice hrows hbelow hright hheight hcols hfits) ?_
      rintro _ ⟨blocking, rfl⟩
      exact ends_pure ⟨blocking, rfl⟩
    · rw [if_neg hbelow]
      refine ends_pure ⟨Blocking.standard, ?_⟩
      rw [trailingByProduct_of_le (by omega)]
  · simp only [if_neg hright]
    exact ends_pure ⟨Blocking.standard, rfl⟩

end Steps

/-! ## All blocks -/

section Drivers

variable [RealArith ρ] {shape : Shape} (kind : NumericKind) {height : Nat} {f : Nat → Nat → α}

/-- What a factorisation that ends in a stage leaves and reports. -/
def Stage.factors (shape : Shape) (kind : NumericKind) (height : Nat) (s : Stage α) :
    PagedMatrix α × Record :=
  ((ofCells shape kind height s.cells).refreshKind,
    { pivots := s.pivots
      swaps := s.status.swaps
      firstNull := s.status.firstNull })

/-- What a factorisation leaves and reports. -/
def factored (a : PagedMatrix α) : PagedMatrix α × Record :=
  ((ofCells a.shape a.kind a.rows (finalStage a).cells).refreshKind,
    { pivots := (finalStage a).pivots
      swaps := (finalStage a).status.swaps
      firstNull := (finalStage a).status.firstNull })

/-- Two stages are the same on a matrix with `height` rows of `width` columns. -/
structure Stage.SameOn (height width : Nat) (s t : Stage α) : Prop where
  /-- The cells agree. -/
  cells : AgreeOn height width s.cells t.cells
  /-- The pivots are the same. -/
  pivots : s.pivots = t.pivots
  /-- The status is the same. -/
  status : s.status = t.status

omit [RealArith ρ] [Scalar α ρ] in
theorem Stage.SameOn.sweep_eq {kind : NumericKind} {s t : Stage α} (h : s.SameOn height shape.cols t) :
    s.sweep shape kind height = t.sweep shape kind height := by
  unfold Stage.sweep
  rw [ofCells_congr h.cells, h.pivots, h.status]

/-- The stages `S k` before the columns `k` are what the blocks of a factorisation go through: a
block leads from the one before its first column to the one after its last. Blocks begin at
multiples of their edge length. -/
structure Blocks (T : α → α → α) (shape : Shape) (height edge : Nat) (f : Nat → Nat → α)
    (S : Nat → Stage α) : Prop where
  /-- The factorisation starts without pivots and without interchanges. -/
  start : Stage.SameOn height shape.cols ⟨f, Array.replicate (min shape.rows shape.cols) 0, {}⟩ (S 0)
  /-- A block leads from one stage to the next one. -/
  block : ∀ k, k < min shape.rows shape.cols → edge ∣ k →
    (blockStep T shape.rows shape.cols k (min edge (min shape.rows shape.cols - k)) (S k)).SameOn
      height shape.cols (S (min (k + edge) (min shape.rows shape.cols)))
  /-- There is a pivot for every column of the factorisation. -/
  size_pivots : ∀ k, (S k).pivots.size = min shape.rows shape.cols
  /-- Every column brings at most one interchange. -/
  swaps_le : ∀ k, edge ∣ k → (S k).status.swaps ≤ k

omit [RealArith ρ] in
/-- Memory has room for the pivots. -/
theorem allocate_pivots_eq_ok (hrows : shape.rows ≤ height) (hfits : Fits α (height * shape.cols)) :
    allocate sizeBytes (min shape.rows shape.cols) = .ok () := by
  -- the buffer holds at least a square of as many rows as there are pivots
  have hsquare : min shape.rows shape.cols * min shape.rows shape.cols ≤ capacityLimit :=
    (Nat.mul_le_mul ((Nat.min_le_left _ _).trans hrows) (Nat.min_le_right _ _)).trans
      hfits.le_capacityLimit
  have hbytes := sizeBytes_mul_le hsquare
  unfold allocate
  rw [if_pos hbytes]

/-- All blocks with tiles. -/
theorem ends_factorInTiles {edge : Nat} {S : Nat → Stage α}
    (hS : Blocks (· - ·) shape height edge f S) (hrows : shape.rows ≤ height)
    (hheight : height < Size.limit) (hfits : Fits α (height * shape.cols)) (hpos : 1 ≤ edge) :
    Ends (factorInTiles edge (ofCells shape kind height f))
      (· = (S (min shape.rows shape.cols)).factors shape kind height) := by
  unfold factorInTiles
  rw [Nat.max_eq_left hpos, rows_ofCells, cols_ofCells]
  refine ends_bind (ends_checked (ends_eq_iff.2 (allocate_pivots_eq_ok hrows hfits))) ?_
  intro _ _
  refine ends_bind (ends_strides (fun k sweep => sweep = (S k).sweep shape kind height) hpos
    (Nat.zero_le _) hS.start.sweep_eq ?_) ?_
  · rintro k _ - hk hdvd rfl
    rw [Nat.sub_zero] at hdvd
    -- a column is left, so the matrix is not empty and its extents are bounded
    have hm : shape.rows ≤ capacityLimit := hrows.trans
      ((Nat.le_mul_of_pos_right height (by omega)).trans hfits.le_capacityLimit)
    have hn : shape.cols ≤ capacityLimit :=
      (Nat.le_mul_of_pos_left shape.cols (by omega)).trans hfits.le_capacityLimit
    have hsize := hS.size_pivots k
    generalize hwidth : min edge (min shape.rows shape.cols - k) = width
    have hstep := ends_stepByTiles kind (S k) hrows hheight
      (show k + width ≤ shape.rows by omega) (by omega) (by omega) (hS.swaps_le k hdvd) hpos
      (by omega) (fun _ => hm) fun _ => hn
    rw [← hwidth] at hstep ⊢
    rwa [(hS.block k hk hdvd).sweep_eq] at hstep
  · rintro _ rfl
    exact ends_pure rfl

/-- The search for the first zero on the diagonal. -/
theorem firstNullDiagonal_ofCells (hrows : shape.rows ≤ height) :
    firstNullDiagonal (ofCells shape kind height f) =
      .ok ((List.range (min shape.rows shape.cols)).find? fun i => Scalar.isNull (f i i)) := by
  unfold firstNullDiagonal
  rw [rows_ofCells, cols_ofCells]
  refine ascend_eq_ok (fun i => (List.range i).find? fun i => Scalar.isNull (f i i))
    (Nat.zero_le _) rfl rfl ?_
  intro i _ hi
  rw [List.range_succ, List.find?_append, get_ofCells (by omega) (by omega), ok_bind]
  cases (List.range i).find? fun i => Scalar.isNull (f i i) with
  | some column => rfl
  | none =>
    simp only [Option.isSome_none, Bool.false_eq_true, if_false, Option.none_or,
      List.find?_singleton]
    rfl

/-- What a factorisation leaves and reports that reads its outcome off the diagonal. -/
def Stage.factorsByDiagonal (shape : Shape) (kind : NumericKind) (height : Nat) (s : Stage α) :
    PagedMatrix α × Record :=
  ((ofCells shape kind height s.cells).refreshKind,
    { pivots := s.pivots
      swaps := s.status.swaps
      firstNull := (List.range (min shape.rows shape.cols)).find? fun i =>
        Scalar.isNull (s.cells i i) })

/-- The stages before the columns `k` of a factorisation with products have the property `I k`: the
first one has it, and every block keeps it, whatever blocking parameters its product is formed
with. Blocks begin at multiples of their edge length. -/
structure KeptByBlocks (shape : Shape) (height edge : Nat) (f : Nat → Nat → α)
    (I : Nat → Stage α → Prop) : Prop where
  /-- The factorisation starts with the property. -/
  start : ∃ s, (Stage.initial shape.rows shape.cols f).SameOn height shape.cols s ∧ I 0 s
  /-- A block keeps the property. -/
  block : ∀ k s blocking, k < min shape.rows shape.cols → edge ∣ k → I k s →
    ∃ t, (blockStepByProduct blocking shape.rows shape.cols k
        (min edge (min shape.rows shape.cols - k)) s).SameOn height shape.cols t ∧
      I (min (k + edge) (min shape.rows shape.cols)) t
  /-- There is a pivot for every column of the factorisation. -/
  size_pivots : ∀ k s, I k s → s.pivots.size = min shape.rows shape.cols
  /-- Every column brings at most one interchange. -/
  swaps_le : ∀ k s, edge ∣ k → I k s → s.status.swaps ≤ k

/-- All blocks with products, once the parameters of the call are settled. Each product settles
parameters of its own, but its panel has the edge length of the call. -/
theorem runs_factorByProduct {choice : BlockingChoice} {blocking : Blocking}
    {ambient settled : Ambient} {I : Nat → Stage α → Prop} (hchoice : choice.Valid)
    (hsettle : Runs choice.settle ambient blocking settled) (hsettled : settled.Sound)
    (hpos : 1 ≤ blocking.edge) (hI : KeptByBlocks shape height blocking.edge f I)
    (hrows : shape.rows ≤ height) (hheight : height < Size.limit)
    (hcols : shape.cols < Size.limit) (hfits : Fits α (height * shape.cols)) :
    ∃ s after, I (min shape.rows shape.cols) s ∧ after.Sound ∧
      Runs (factorByProduct choice (ofCells shape kind height f)) ambient
        (s.factorsByDiagonal shape kind height) after := by
  suffices h : ∃ found after,
      (∃ s, I (min shape.rows shape.cols) s ∧ found = s.factorsByDiagonal shape kind height) ∧
        after.Sound ∧
        Runs (factorByProduct choice (ofCells shape kind height f)) ambient found after by
    obtain ⟨_, after, ⟨s, hs, rfl⟩, hsound, hrun⟩ := h
    exact ⟨s, after, hs, hsound, hrun⟩
  unfold factorByProduct
  refine (hsettle.adapt).bind_ends hsettled ?_
  rw [rows_ofCells, cols_ofCells]
  refine ends_bind (ends_checkedT (ends_eq_iff.2 (allocate_pivots_eq_ok hrows hfits))) ?_
  intro _ _
  refine ends_bind (ends_strides (fun k found => ∃ s, I k s ∧ found =
    (ofCells shape kind height s.cells, s.pivots, s.status.swaps)) hpos (Nat.zero_le _) ?_ ?_) ?_
  · obtain ⟨s, hs, h0⟩ := hI.start
    refine ⟨s, h0, ?_⟩
    rw [← ofCells_congr hs.cells, ← hs.pivots, ← hs.status]
    rfl
  · rintro k _ - hk hdvd ⟨s, hs, rfl⟩
    rw [Nat.sub_zero] at hdvd
    have hsize := hI.size_pivots k s hs
    have hend : k + min blocking.edge (min shape.rows shape.cols - k) ≤ min shape.rows shape.cols := by
      omega
    have hstep := ends_stepByProduct kind s hchoice hrows hheight hcols hfits
      (hend.trans (Nat.min_le_left _ _)) (hend.trans (Nat.min_le_right _ _)) (hsize ▸ hend)
      (hI.swaps_le k s hdvd hs)
    refine ends_mono hstep ?_
    rintro _ ⟨blocking', rfl⟩
    obtain ⟨t, ht, hnext⟩ := hI.block k s blocking' hk hdvd hs
    refine ⟨t, hnext, ?_⟩
    rw [ofCells_congr ht.cells, ht.pivots, ht.status]
  · rintro _ ⟨s, hs, rfl⟩
    -- the first zero on the diagonal is searched for at the end
    dsimp only
    rw [refreshKind_ofCells]
    refine ends_bind (ends_checkedT (ends_eq_iff.2 (firstNullDiagonal_ofCells _ hrows))) ?_
    rintro _ rfl
    have hend : ∃ t, I (min shape.rows shape.cols) t ∧
      s.factorsByDiagonal shape kind height = t.factorsByDiagonal shape kind height := ⟨s, hs, rfl⟩
    split
    · exact ends_bind (ends_unrefused ends_report) fun _ _ => ends_pure hend
    · exact ends_pure hend

/-- Blocks whose products all have the same effect go through known stages. The outcome is read off
the diagonal, and must be the one that was noted on the way. -/
theorem runs_factorByProduct_of_blocks {T : α → α → α} {choice : BlockingChoice}
    {blocking : Blocking} {ambient settled : Ambient} {S : Nat → Stage α} (hT : UpdatesBy T)
    (hchoice : choice.Valid) (hsettle : Runs choice.settle ambient blocking settled)
    (hsettled : settled.Sound) (hpos : 1 ≤ blocking.edge)
    (hS : Blocks T shape height blocking.edge f S)
    (hnull : (S (min shape.rows shape.cols)).status.firstNull =
      (List.range (min shape.rows shape.cols)).find? fun i =>
        Scalar.isNull ((S (min shape.rows shape.cols)).cells i i))
    (hrows : shape.rows ≤ height) (hheight : height < Size.limit)
    (hcols : shape.cols < Size.limit) (hfits : Fits α (height * shape.cols)) :
    ∃ after, after.Sound ∧ Runs (factorByProduct choice (ofCells shape kind height f)) ambient
      ((S (min shape.rows shape.cols)).factors shape kind height) after := by
  have hI : KeptByBlocks shape height blocking.edge f fun k s => s = S k := by
    refine ⟨⟨_, hS.start, rfl⟩, ?_, ?_, ?_⟩
    · rintro k _ blocking' hk hdvd rfl
      rw [hT.blockStepByProduct_eq blocking' _ (by omega)]
      exact ⟨_, hS.block k hk hdvd, rfl⟩
    · rintro k _ rfl
      exact hS.size_pivots k
    · rintro k _ hdvd rfl
      exact hS.swaps_le k hdvd
  obtain ⟨_, after, rfl, hsound, hrun⟩ :=
    runs_factorByProduct kind hchoice hsettle hsettled hpos hI hrows hheight hcols hfits
  rw [Stage.factorsByDiagonal, ← hnull] at hrun
  exact ⟨after, hsound, hrun⟩

/-- All blocks with products, in all surroundings. Which edge lengths have to be looked at depends on
the choice. -/
theorem ends_factorByProduct {T : α → α → α} {choice : BlockingChoice} (F : Stage α)
    (hT : UpdatesBy T) (hchoice : choice.Valid)
    (hS : ∀ edge, 1 ≤ edge → choice.Admits edge → ∃ S, Blocks T shape height edge f S ∧
      S (min shape.rows shape.cols) = F)
    (hnull : F.status.firstNull = (List.range (min shape.rows shape.cols)).find? fun i =>
      Scalar.isNull (F.cells i i))
    (hrows : shape.rows ≤ height) (hheight : height < Size.limit)
    (hcols : shape.cols < Size.limit) (hfits : Fits α (height * shape.cols)) :
    Ends (factorByProduct choice (ofCells shape kind height f))
      (· = F.factors shape kind height) := by
  refine ends_iff_runs.2 fun ambient hambient => ?_
  obtain ⟨blocking, settled, ⟨⟨hpos, -⟩, hadmits⟩, hsettled, hsettle⟩ :=
    ends_iff_runs.1 (ends_settle hchoice) ambient hambient
  -- only now is it known which blocks there are
  obtain ⟨S, hblocks, rfl⟩ := hS blocking.edge hpos hadmits
  obtain ⟨after, hsound, hrun⟩ := runs_factorByProduct_of_blocks kind hT hchoice hsettle hsettled
    hpos hblocks hnull hrows hheight hcols hfits
  exact ⟨_, after, rfl, hsound, hrun⟩

end Drivers

end Lu

end DenseLinear
