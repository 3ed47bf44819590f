import DenseLinear.Proofs.Contents
import DenseLinear.Proofs.Frames
import DenseLinear.Proofs.SizeArguments

/-!
# Elimination on two matrices with the same page

Elimination works on the first page of a matrix. Two matrices may hold the same page and differ in
all that is around it: one of them may have further pages, and they may be of different kinds
(`PageFrame`). Elimination then does the same to both. Each kernel succeeds on both or stops on both
for the same reason, the pages are the same again afterwards, and the cells below the page are still
what they were (`SharePage`).

A kernel that is known cell by cell leaves the same cells on both, and never any below the page
(`coupled_fill`). The drivers are made of such kernels. Only the update by a product goes another
way: it works on copies, which are matrices with the same contents.
-/

namespace DenseLinear

namespace PagedMatrix

variable {α ρ : Type} [Scalar α ρ] {m n : Nat} {f rest : Nat → Nat → α}

/-- What there is of a matrix in memory around a page of `m` rows and `n` columns at its top. -/
structure PageFrame (α : Type) {ρ : Type} [Scalar α ρ] (m n : Nat) where
  /-- The dimensions of the matrix. -/
  shape : Shape
  /-- The kind of its entries. -/
  kind : NumericKind
  /-- The number of stacked rows. -/
  height : Nat
  /-- It is a whole page. -/
  rows_eq : shape.rows = m
  /-- It has all columns. -/
  cols_eq : shape.cols = n
  /-- The page lies within the stacked rows. -/
  rows_le : m ≤ height
  /-- The stacked rows are counted by a machine word. -/
  height_lt : height < Size.limit
  /-- So are the columns. -/
  cols_lt : n < Size.limit
  /-- Memory has room for the matrix. -/
  fits : Fits α (height * n)
  /-- If the page has cells, the stacked rows can be counted. -/
  height_eq : 0 < m → 0 < n → shape.height = .ok height

namespace PageFrame

/-- The matrix with the given cells. -/
def fill (F : PageFrame α m n) (f : Nat → Nat → α) : PagedMatrix α :=
  ofCells F.shape F.kind F.height f

variable (F : PageFrame α m n)

@[simp]
theorem rows_fill : (F.fill f).rows = m := F.rows_eq

@[simp]
theorem cols_fill : (F.fill f).cols = n := F.cols_eq

theorem get_fill {r c : Nat} (hr : r < m) (hc : c < n) : (F.fill f).get r c = .ok (f r c) :=
  get_ofCells (hr.trans_le F.rows_le) (hc.trans_eq F.cols_eq.symm)

theorem swapRows_fill {r s : Nat} (hr : r < m) (hs : s < m) :
    (F.fill f).swapRows r s = .ok (F.fill (exchanged r s f)) :=
  swapRows_ofCells (hr.trans_le F.rows_le) (hs.trans_le F.rows_le)

theorem solveUnitLower_fill {k width : Nat} (hrows : k + width ≤ m) (hcols : k + width ≤ n) :
    (F.fill f).solveUnitLower k width = .ok (F.fill (forwardSolved k width f)) :=
  solveUnitLower_ofCells (hrows.trans F.rows_le) (hcols.trans_eq F.cols_eq.symm) F.height_lt

include F in
/-- Memory has room for a copy of any block of the page. -/
theorem fits_block {r c : Nat} (hr : r ≤ m) (hc : c ≤ n) : Fits α (r * c) :=
  F.fits.mono (Nat.mul_le_mul (hr.trans F.rows_le) hc)

include F in
/-- Memory has room for a column of the page, if there is one. -/
theorem fits_column (hn : 0 < n) : Fits α m :=
  F.fits.mono (F.rows_le.trans (Nat.le_mul_of_pos_right _ hn))

include F in
theorem rows_lt : m < Size.limit := F.rows_le.trans_lt F.height_lt

include F in
theorem cols_le_capacityLimit (hm : 0 < m) : n ≤ capacityLimit :=
  (F.fits_block hm (Nat.le_refl n)).mono (Nat.one_mul n).ge |>.le_capacityLimit

theorem block_fill {r0 r1 c0 c1 : Nat} (hr : r0 ≤ r1) (hr1 : r1 ≤ m) (hc : c0 ≤ c1) (hc1 : c1 ≤ n) :
    (F.fill f).block r0 r1 c0 c1 =
      .ok (ofCells { rows := r1 - r0, cols := c1 - c0 } F.kind (r1 - r0)
        fun i j => f (r0 + i) (c0 + j)) :=
  block_ofCells hr (hr1.trans F.rows_le) hc (hc1.trans_eq F.cols_eq.symm) F.height_lt
    (F.fits_block (by omega) (by omega))

/-- A block that ends with the page is put back. -/
theorem setBlock_fill {r0 c0 : Nat} {kind : NumericKind} {g : Nat → Nat → α} (hr : r0 ≤ m)
    (hc : c0 ≤ n) :
    (F.fill f).setBlock r0 c0 (ofCells { rows := m - r0, cols := n - c0 } kind (m - r0) g) =
      .ok (F.fill (overwrite r0 m c0 n (fun r c => g (r - r0) (c - c0)) f)) := by
  rcases F with ⟨shape, _, height, rfl, rfl, hrows, hheight, hcols, -⟩
  unfold fill
  rw [setBlock_ofCells (height_of_plain (by omega)) (by omega) (by dsimp only; omega) hheight hcols]
  dsimp only
  rw [Nat.add_sub_cancel' hr, Nat.add_sub_cancel' hc]

end PageFrame

/-- The matrices `a` and `b` hold the same page in their frames, and below it the cells `rest`. -/
def SharePage (F G : PageFrame α m n) (rest : Nat → Nat → α) (a b : PagedMatrix α) : Prop :=
  ∃ f, a = F.fill f ∧ b = G.fill f ∧ ∀ r, m ≤ r → f r = rest r

variable {F G : PageFrame α m n} {a b : PagedMatrix α}

theorem SharePage.rows_eq (h : SharePage F G rest a b) : a.rows = m ∧ b.rows = m := by
  rcases h with ⟨f, rfl, rfl, -⟩
  exact ⟨F.rows_fill, G.rows_fill⟩

theorem SharePage.cols_eq (h : SharePage F G rest a b) : a.cols = n ∧ b.cols = n := by
  rcases h with ⟨f, rfl, rfl, -⟩
  exact ⟨F.cols_fill, G.cols_fill⟩

/-- Two kernels that leave the same cells, and those below the page as they were. -/
theorem coupled_fill {x y : Checked (PagedMatrix α)} (hx : x = .ok (F.fill f))
    (hy : y = .ok (G.fill f)) (hf : ∀ r, m ≤ r → f r = rest r) :
    Coupled (SharePage F G rest) x y := by
  subst hx hy
  exact .value ⟨f, rfl, rfl, hf⟩

theorem coupled_swapRows {r s : Nat} (h : SharePage F G rest a b) (hr : r < m) (hs : s < m) :
    Coupled (SharePage F G rest) (a.swapRows r s) (b.swapRows r s) := by
  rcases h with ⟨f, rfl, rfl, hf⟩
  apply coupled_fill (F.swapRows_fill hr hs) (G.swapRows_fill hr hs)
  intro i hi
  rw [← hf i hi]
  unfold exchanged
  rw [Equiv.swap_apply_of_ne_of_ne (by omega) (by omega)]

theorem coupled_solveUnitLower {k width : Nat} (h : SharePage F G rest a b) (hrows : k + width ≤ m)
    (hcols : k + width ≤ n) :
    Coupled (SharePage F G rest) (a.solveUnitLower k width) (b.solveUnitLower k width) := by
  rcases h with ⟨f, rfl, rfl, hf⟩
  apply coupled_fill (F.solveUnitLower_fill hrows hcols) (G.solveUnitLower_fill hrows hcols)
  intro r hr
  rw [← hf r hr]
  funext c
  exact forwardSolved_outside (by omega)

/-- Copies of a block that `a` and `b` share have the same contents. -/
theorem coupled_block {r0 r1 c0 c1 : Nat} (h : SharePage F G rest a b) (hr : r0 ≤ r1) (hr1 : r1 ≤ m)
    (hc : c0 ≤ c1) (hc1 : c1 ≤ n) :
    Coupled (fun x y => SameContents x y ∧ x.shape = { rows := r1 - r0, cols := c1 - c0 } ∧
      x.data.size = (r1 - r0) * (c1 - c0)) (a.block r0 r1 c0 c1) (b.block r0 r1 c0 c1) := by
  rcases h with ⟨f, rfl, rfl, -⟩
  rw [F.block_fill hr hr1 hc hc1, G.block_fill hr hr1 hc hc1]
  exact .value ⟨⟨rfl, rfl⟩, rfl, size_ofCells⟩

/-- Parts with the same contents are put back up to the end of the page. -/
theorem coupled_setBlock {r0 c0 : Nat} {x y : PagedMatrix α} (h : SharePage F G rest a b)
    (hxy : SameContents x y) (hshape : x.shape = { rows := m - r0, cols := n - c0 })
    (hsize : x.data.size = (m - r0) * (n - c0)) (hr : r0 ≤ m) (hc : c0 ≤ n) :
    Coupled (SharePage F G rest) (a.setBlock r0 c0 x) (b.setBlock r0 c0 y) := by
  rcases h with ⟨f, rfl, rfl, hf⟩
  have hcols : x.cols = n - c0 := congrArg Shape.cols hshape
  rcases hxy.exists_ofCells (hcols.symm ▸ hsize) with ⟨g, hx, hy⟩
  rw [hx, hy, hshape]
  apply coupled_fill (F.setBlock_fill hr hc) (G.setBlock_fill hr hc)
  intro r hle
  rw [← hf r hle]
  funext c
  exact if_neg (by omega)

end PagedMatrix

namespace Lu

open PagedMatrix

variable {α ρ : Type} [Scalar α ρ] {m n : Nat} {f rest : Nat → Nat → α} {F G : PageFrame α m n}
  {a b : PagedMatrix α} {s t : Sweep α}

/-! ## Updates in place -/

/-- The trailing block is updated unless a tile overflows, which the page decides alone. -/
theorem updateByTiles_fill (F : PageFrame α m n) (f : Nat → Nat → α) {k width : Nat}
    (hrows : k + width ≤ m) (hcols : k + width ≤ n) (edge : Nat) :
    (TileOverflows (k + width) m (max edge 1) →
      updateByTiles (F.fill f) k width edge = .error .overflow) ∧
    (¬ TileOverflows (k + width) m (max edge 1) →
      updateByTiles (F.fill f) k width edge = .ok (F.fill (trailing (· - ·) m n k width f))) := by
  have hword : k + width < Size.limit := hrows.trans_lt F.rows_lt
  have hroom : 0 < m → n ≤ capacityLimit := F.cols_le_capacityLimit
  rcases F with ⟨shape, kind, height, rfl, rfl, hheight, -⟩
  exact ⟨updateByTiles_of_overflows hheight hrows hcols hroom hword,
    updateByTiles_of_not_overflows hheight hrows hcols hroom hword⟩

theorem coupled_updateByTiles {k width : Nat} (h : SharePage F G rest a b) (hrows : k + width ≤ m)
    (hcols : k + width ≤ n) (edge : Nat) :
    Coupled (SharePage F G rest) (updateByTiles a k width edge) (updateByTiles b k width edge) := by
  rcases h with ⟨f, rfl, rfl, hf⟩
  rcases updateByTiles_fill F f hrows hcols edge with ⟨hover, hfill⟩
  rcases updateByTiles_fill G f hrows hcols edge with ⟨hover', hfill'⟩
  by_cases htile : TileOverflows (k + width) m (max edge 1)
  · rw [hover htile, hover' htile]
    exact .stop rfl
  · apply coupled_fill (hfill htile) (hfill' htile)
    intro r hr
    rw [← hf r hr]
    funext c
    exact if_neg (by omega)

variable [RealArith ρ]

/-! ## Panels -/

/-- Two sweeps that have met the same on matrices with the same page. -/
structure SharePanel (F G : PageFrame α m n) (rest : Nat → Nat → α) (s t : Sweep α) : Prop where
  /-- The matrices hold the same page. -/
  matrix : SharePage F G rest s.matrix t.matrix
  /-- The pivots are the same. -/
  pivots : s.pivots = t.pivots
  /-- The status is the same. -/
  status : s.status = t.status

section Fill

variable (F)

theorem pivotRow_fill {i : Nat} (hi : i < m) (hi' : i < n) :
    pivotRow (F.fill f) i = .ok (pivotOf m f i) := by
  rcases F with ⟨shape, kind, height, rfl, rfl, hheight, -⟩
  exact pivotRow_ofCells hi hheight hi'

omit [RealArith ρ] in
theorem eliminateRows_fill {i stop : Nat} (hi : i < m) (hi' : i < stop) (hstop : stop ≤ n) :
    ascend (i + 1) (F.fill f).rows (F.fill f) (fun r a => eliminateRow a i stop (f i i) r) =
      .ok (F.fill (eliminated m stop i f)) := by
  rcases F with ⟨shape, kind, height, rfl, rfl, hheight, -⟩
  exact eliminateRows_ofCells hi hheight hi' hstop

theorem firstNullDiagonal_fill :
    firstNullDiagonal (F.fill f).refreshKind =
      .ok ((List.range (min m n)).find? fun i => Scalar.isNull (f i i)) := by
  rcases F with ⟨shape, kind, height, rfl, rfl, hheight, -⟩
  exact firstNullDiagonal_ofCells _ hheight

end Fill

omit [RealArith ρ] in
theorem coupled_bringPivot {i p : Nat} (h : SharePanel F G rest s t) (hi : i < m) (hp : p < m) :
    Coupled (SharePanel F G rest) (bringPivot s i p) (bringPivot t i p) := by
  rcases s with ⟨a, pivots, status⟩
  rcases t with ⟨b, _, _⟩
  rcases h with ⟨hab, rfl, rfl⟩
  unfold bringPivot
  apply coupled_bind_eq rfl
  intro pivots
  apply coupled_ite Iff.rfl
  · intro _
    exact coupled_pure ⟨hab, rfl, rfl⟩
  · intro _
    apply coupled_bind (coupled_swapRows hab hi hp)
    intro a b hab
    apply coupled_bind_eq rfl
    intro status
    exact coupled_pure ⟨hab, rfl, rfl⟩

theorem coupled_eliminateColumn {i stop : Nat} (h : SharePanel F G rest s t) (hi : i < m)
    (hi' : i < stop) (hstop : stop ≤ n) :
    Coupled (SharePanel F G rest) (eliminateColumn stop i s) (eliminateColumn stop i t) := by
  rcases h.matrix with ⟨f, hs, ht, -⟩
  unfold eliminateColumn
  rw [hs, ht, pivotRow_fill F hi (by omega), pivotRow_fill G hi (by omega), ok_bind, ok_bind]
  apply coupled_bind (coupled_bringPivot h hi (pivotOf_lt f hi))
  rintro ⟨a, pivots, status⟩ ⟨b, _, _⟩ ⟨⟨f, rfl, rfl, hf⟩, rfl, rfl⟩
  dsimp only
  rw [F.get_fill hi (by omega), G.get_fill hi (by omega), ok_bind, ok_bind]
  apply coupled_ite Iff.rfl
  · intro _
    exact coupled_pure ⟨⟨f, rfl, rfl, hf⟩, rfl, rfl⟩
  · intro _
    have hrows : ∀ r, m ≤ r → eliminated m stop i f r = rest r := by
      intro r hr
      rw [← hf r hr]
      funext c
      exact if_neg (by omega)
    apply coupled_bind (coupled_fill (eliminateRows_fill F hi hi' hstop)
      (eliminateRows_fill G hi hi' hstop) hrows)
    intro a b hab
    exact coupled_pure ⟨hab, rfl, rfl⟩

theorem coupled_eliminatePanel (k width : Nat) (h : SharePanel F G rest s t) :
    Coupled (SharePanel F G rest) (eliminatePanel k width s) (eliminatePanel k width t) := by
  unfold eliminatePanel
  apply coupled_bind_eq rfl
  intro stop
  rw [h.matrix.rows_eq.1, h.matrix.cols_eq.1, h.matrix.rows_eq.2, h.matrix.cols_eq.2]
  apply coupled_ascend h
  intro i s t _ hi hst
  exact coupled_eliminateColumn hst (by omega) (by omega) (Nat.min_le_right _ _)

/-- A panel is eliminated in the same way on both matrices, and the same event is reported. -/
theorem coupled_factorPanel (k width : Nat) (h : SharePanel F G rest s t) :
    Coupled (SharePanel F G rest) (factorPanel k width s) (factorPanel k width t) := by
  unfold factorPanel
  apply coupled_bind (coupled_checked (coupled_eliminatePanel k width h))
  intro s' t' h'
  dsimp only
  rw [h.status, h'.status]
  cases t.status.event? t'.status with
  | none => exact coupled_pure h'
  | some event =>
    apply coupled_bind_eq rfl
    intro _
    exact coupled_pure h'

/-! ## Factorisations in tiles -/

theorem coupled_stepByTiles (edge : Nat) {width k : Nat} (h : SharePanel F G rest s t)
    (hrows : k + width ≤ m) (hcols : k + width ≤ n) :
    Coupled (SharePanel F G rest) (stepByTiles edge width k s) (stepByTiles edge width k t) := by
  unfold stepByTiles
  apply coupled_bind (coupled_factorPanel k width h)
  rintro ⟨a, pivots, status⟩ ⟨b, _, _⟩ ⟨hab, rfl, rfl⟩
  dsimp only
  rw [hab.cols_eq.1, hab.cols_eq.2]
  apply coupled_ite Iff.rfl
  · intro _
    apply coupled_bind (coupled_checked (coupled_solveUnitLower hab hrows hcols))
    intro a b hab
    apply coupled_bind (coupled_checked (coupled_updateByTiles hab hrows hcols edge))
    intro a b hab
    exact coupled_pure ⟨hab, rfl, rfl⟩
  · intro _
    exact coupled_pure ⟨hab, rfl, rfl⟩

/-- Two factorisations with the same record, of matrices that held the same page. Their kinds are
brought up to date with all their entries. -/
def ShareFactors (F G : PageFrame α m n) (rest : Nat → Nat → α)
    (x y : PagedMatrix α × Record) : Prop :=
  (∃ a b, SharePage F G rest a b ∧ x.1 = a.refreshKind ∧ y.1 = b.refreshKind) ∧ x.2 = y.2

theorem coupled_factorInTiles (edge : Nat) (h : SharePage F G rest a b) :
    Coupled (ShareFactors F G rest) (factorInTiles edge a) (factorInTiles edge b) := by
  unfold factorInTiles
  rw [h.rows_eq.1, h.cols_eq.1, h.rows_eq.2, h.cols_eq.2]
  apply coupled_bind_eq rfl
  intro _
  have hloop : Coupled (SharePanel F G rest)
      (strides 0 (min m n) (max edge 1) ⟨a, Array.replicate (min m n) 0, {}⟩ fun k sweep =>
        stepByTiles (max edge 1) (min (max edge 1) (min m n - k)) k sweep : Ambience (Sweep α))
      (strides 0 (min m n) (max edge 1) ⟨b, Array.replicate (min m n) 0, {}⟩ fun k sweep =>
        stepByTiles (max edge 1) (min (max edge 1) (min m n - k)) k sweep) := by
    apply coupled_strides ⟨h, rfl, rfl⟩
    intro k s t _ hk hst
    exact coupled_stepByTiles _ hst (by omega) (by omega)
  apply coupled_bind hloop
  rintro ⟨a, pivots, status⟩ ⟨b, _, _⟩ ⟨hab, rfl, rfl⟩
  exact coupled_pure ⟨⟨a, b, hab, rfl, rfl⟩, rfl⟩

theorem coupled_factorByTilesWith (choice : BlockingChoice) (h : SharePage F G rest a b) :
    Coupled (ShareFactors F G rest) (factorByTilesWith choice a) (factorByTilesWith choice b) := by
  unfold factorByTilesWith
  apply coupled_bind (coupled_onBehalfOf a b)
  rintro blocking _ rfl
  exact coupled_unrefused (coupled_factorInTiles blocking.edge h)

/-! ## Factorisations with products -/

/-- The copies that an update works on have the same contents, and so has their product. -/
theorem coupled_updateByProduct {k next : Nat} (choice : BlockingChoice)
    (h : SharePage F G rest a b) (hk : k ≤ next) (hrows : next ≤ m) (hcols : next ≤ n) :
    Coupled (SharePage F G rest) (updateByProduct a k next choice)
      (updateByProduct b k next choice) := by
  unfold updateByProduct
  rw [h.rows_eq.1, h.cols_eq.1, h.rows_eq.2, h.cols_eq.2]
  apply coupled_bind (coupled_checked (coupled_block h hrows (Nat.le_refl m) hk hcols))
  rintro lower lower' ⟨hlower, -⟩
  apply coupled_bind (coupled_checked (coupled_block h hk hrows hcols (Nat.le_refl n)))
  rintro upper upper' ⟨hupper, -⟩
  apply coupled_bind (coupled_checked (coupled_block h hrows (Nat.le_refl m) hcols (Nat.le_refl n)))
  rintro part part' ⟨hpart, hshape, hsize⟩
  rw [hlower.multiplyAdd_eq hupper]
  have hproduct : Coupled (fun x y => SameContents x y ∧ SameFrame part x)
      (multiplyAdd (-1) lower' (m - next) (next - k) upper' (n - next) 1 part choice)
      (multiplyAdd (-1) lower' (m - next) (next - k) upper' (n - next) 1 part' choice) :=
    coupled_of_returnsOnly (coupled_multiplyAdd (-1) 1 choice (hpart.rescale 1))
      (part.sameFrame_multiplyAdd _ _ _ _ _ _ _ _)
  apply coupled_bind (coupled_onPartOf a b hproduct)
  rintro x y ⟨hxy, hframe⟩
  exact coupled_checked (coupled_setBlock h hxy (hframe.shape.trans hshape)
    (hframe.size.trans hsize) hrows hcols)

/-- A step with the same pivots, and as many interchanges as before, ends with such again. -/
theorem coupled_stepByProduct (choice : BlockingChoice) {width k : Nat} (pivots : Array Nat)
    (swaps : Nat) (h : SharePage F G rest a b) (hrows : k + width ≤ m) (hcols : k + width ≤ n) :
    Coupled (fun x y => SharePage F G rest x.1 y.1 ∧ x.2 = y.2)
      (stepByProduct choice width k a pivots swaps) (stepByProduct choice width k b pivots swaps) := by
  unfold stepByProduct
  have hpanel : Coupled (SharePanel F G rest) (factorPanel k width ⟨a, pivots, {}⟩)
      (factorPanel k width ⟨b, pivots, {}⟩) := coupled_factorPanel k width ⟨h, rfl, rfl⟩
  apply coupled_bind (coupled_unrefused hpanel)
  rintro ⟨a, pivots, status⟩ ⟨b, _, _⟩ ⟨hab, rfl, rfl⟩
  dsimp only
  apply coupled_bind_eq rfl
  intro swaps
  rw [hab.cols_eq.1, hab.cols_eq.2]
  apply coupled_ite Iff.rfl
  · intro _
    apply coupled_bind (coupled_checked (coupled_solveUnitLower hab hrows hcols))
    intro a b hab
    rw [hab.rows_eq.1, hab.rows_eq.2]
    apply coupled_ite Iff.rfl
    · intro _
      apply coupled_bind (coupled_updateByProduct choice hab (Nat.le_add_right k width) hrows hcols)
      intro a b hab
      exact coupled_pure ⟨hab, rfl⟩
    · intro _
      exact coupled_pure ⟨hab, rfl⟩
  · intro _
    exact coupled_pure ⟨hab, rfl⟩

theorem coupled_factorByProduct (choice : BlockingChoice) (h : SharePage F G rest a b) :
    Coupled (ShareFactors F G rest) (factorByProduct choice a) (factorByProduct choice b) := by
  unfold factorByProduct
  rw [h.rows_eq.1, h.cols_eq.1, h.rows_eq.2, h.cols_eq.2]
  apply coupled_bind (coupled_onBehalfOf a b)
  rintro blocking _ rfl
  apply coupled_bind_eq rfl
  intro _
  apply coupled_bind (R := fun x y => SharePage F G rest x.1 y.1 ∧ x.2 = y.2)
  · apply coupled_strides ⟨h, rfl⟩
    rintro k ⟨a, pivots, swaps⟩ ⟨b, _⟩ _ hk ⟨hab, rfl⟩
    exact coupled_stepByProduct choice pivots swaps hab (by omega) (by omega)
  rintro ⟨a, pivots, swaps⟩ ⟨b, _⟩ ⟨⟨f, rfl, rfl, hf⟩, rfl⟩
  dsimp only
  rw [firstNullDiagonal_fill F, firstNullDiagonal_fill G]
  apply coupled_bind_eq rfl
  intro firstNull
  have hfactors : ShareFactors F G rest
      ((F.fill f).refreshKind, { pivots, swaps, firstNull })
      ((G.fill f).refreshKind, { pivots, swaps, firstNull }) :=
    ⟨⟨_, _, ⟨f, rfl, rfl, hf⟩, rfl, rfl⟩, rfl⟩
  cases firstNull with
  | none => exact coupled_pure hfactors
  | some column =>
    apply coupled_bind_eq rfl
    intro _
    exact coupled_pure hfactors

end Lu

end DenseLinear
