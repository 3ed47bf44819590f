import DenseLinear.Multiply.Matrix
import DenseLinear.Proofs.Cells
import DenseLinear.Proofs.Couplings

/-!
# Matrices with the same contents

The kind of a matrix is a record about its entries. The kernels never ask for it: two runs on
matrices with the same shape and the same entries (`SameContents`) are coupled, step by step, up to
the update by a product (`coupled_multiplyAdd`). Its operands are only read, so matrices with the
same contents can stand for one another there (`SameContents.multiplyAdd_eq`).
-/

namespace DenseLinear

namespace PagedMatrix

variable {α ρ : Type}

/-- Two matrices have the same shape and the same entries. Their kinds may differ. -/
structure SameContents (a b : PagedMatrix α) : Prop where
  /-- They have the same shape. -/
  shape : a.shape = b.shape
  /-- They have the same entries. -/
  data : a.data = b.data

section Cells

variable {a b : PagedMatrix α}

theorem SameContents.get_eq (h : SameContents a b) (r c : Nat) : a.get r c = b.get r c := by
  unfold get
  rw [PagedMatrix.cols, h.shape, h.data]

theorem SameContents.checkRowWindow_eq (h : SameContents a b) (r start stop : Nat) :
    a.checkRowWindow r start stop = b.checkRowWindow r start stop := by
  unfold checkRowWindow checkRow
  rw [PagedMatrix.cols, h.shape, h.data]

/-- Matrices with the same contents are given by the same cells. -/
theorem SameContents.exists_ofCells [Zero α] {height : Nat} (h : SameContents a b)
    (hsize : a.data.size = height * a.cols) :
    ∃ g, a = ofCells a.shape a.kind height g ∧ b = ofCells a.shape b.kind height g := by
  have hcell : b.cell = a.cell := by
    funext r c
    unfold cell PagedMatrix.cols
    rw [h.shape, h.data]
  have hsize' : b.data.size = height * b.cols := by
    rw [PagedMatrix.cols, ← h.shape, ← h.data]
    exact hsize
  refine ⟨a.cell, eq_ofCells_cell hsize, ?_⟩
  rw [h.shape, ← hcell]
  exact eq_ofCells_cell hsize'

/-- The kind plays no part in writing an entry. -/
theorem coupled_set (h : SameContents a b) (r c : Nat) (x : α) :
    Coupled SameContents (a.set r c x) (b.set r c x) := by
  rcases a with ⟨shape, data, kind⟩
  rcases b with ⟨_, _, kind'⟩
  rcases h with ⟨rfl, rfl⟩
  by_cases hlt : r * shape.cols + c < data.size
  · rw [set_eq_ok hlt, set_eq_ok hlt]
    exact .value ⟨rfl, rfl⟩
  · unfold set
    rw [dif_neg hlt, dif_neg hlt]
    exact .stop rfl

end Cells

section Products

variable [Scalar α ρ] {a a' b b' c c' : PagedMatrix α} {m k n : Nat}

theorem coupled_addTile (h : SameContents c c') (rows cols inner : Span) :
    Coupled SameContents (addTile a b c rows cols inner) (addTile a b c' rows cols inner) := by
  unfold addTile
  apply coupled_ascend h
  intro i r r' _ _ hr
  apply coupled_ascend hr
  intro l r r' _ _ hr
  apply coupled_bind_eq rfl
  intro x
  apply coupled_bind_eq rfl
  intro _
  apply coupled_bind_eq (hr.checkRowWindow_eq i cols.start cols.stop)
  intro _
  apply coupled_ascend hr
  intro j r r' _ _ hr
  apply coupled_bind_eq (hr.get_eq i j)
  intro old
  apply coupled_bind_eq rfl
  intro y
  exact coupled_set hr i j _

theorem coupled_addDirectProduct (alpha : α) (h : SameContents c c') :
    Coupled SameContents (addDirectProduct alpha a b m k n c)
      (addDirectProduct alpha a b m k n c') := by
  unfold addDirectProduct
  apply coupled_ascend h
  intro i r r' _ _ hr
  apply coupled_ascend hr
  intro j r r' _ _ hr
  apply coupled_bind_eq rfl
  intro sum
  apply coupled_bind_eq (hr.get_eq i j)
  intro old
  exact coupled_set hr i j _

theorem coupled_addTiles (width : Nat) (h : SameContents c c') :
    Coupled SameContents (addTiles a b m k n width c) (addTiles a b m k n width c') := by
  unfold addTiles
  apply coupled_strides h
  intro ii r r' _ _ hr
  apply coupled_bind_eq rfl
  intro rows
  apply coupled_strides hr
  intro kk r r' _ _ hr
  apply coupled_bind_eq rfl
  intro inner
  apply coupled_strides hr
  intro jj r r' _ _ hr
  apply coupled_bind_eq rfl
  intro cols
  exact coupled_addTile hr rows cols inner

theorem coupled_addTiledProduct (alpha : α) (width : Nat) (h : SameContents c c') :
    Coupled SameContents (addTiledProduct alpha a b m k n width c)
      (addTiledProduct alpha a b m k n width c') := by
  unfold addTiledProduct
  apply coupled_ite Iff.rfl
  · intro _
    exact coupled_addTiles width h
  · intro _
    -- the tiles are collected elsewhere, and only then added to the target
    apply coupled_bind_eq rfl
    intro zero
    apply coupled_bind_eq rfl
    intro r
    apply coupled_pure
    refine ⟨h.shape, ?_⟩
    dsimp only
    rw [h.data]

theorem coupled_addProduct (alpha : α) (blocking : Blocking) (h : SameContents c c') :
    Coupled SameContents (addProduct alpha a b m k n c blocking)
      (addProduct alpha a b m k n c' blocking) := by
  unfold addProduct
  apply coupled_ite Iff.rfl
  · intro _
    apply coupled_bind_eq rfl
    intro _
    exact coupled_checked (coupled_addDirectProduct alpha h)
  · intro _
    apply coupled_bind_eq rfl
    intro _
    exact coupled_checked (coupled_addTiledProduct alpha blocking.edge h)

variable [RealArith ρ]

theorem SameContents.refreshKind (h : SameContents c c') :
    SameContents c.refreshKind c'.refreshKind :=
  ⟨h.shape, h.data⟩

omit [RealArith ρ] in
theorem SameContents.rescale (h : SameContents c c') (beta : α) :
    SameContents (c.rescale beta) (c'.rescale beta) := by
  refine ⟨h.shape, ?_⟩
  unfold PagedMatrix.rescale
  rw [h.data]

omit [Scalar α ρ] [RealArith ρ] in
/-- Operands are admitted for their extents. -/
theorem requireOperands_congr (ha : a.shape = a'.shape) (hb : b.shape = b'.shape)
    (hc : c.shape = c'.shape) : requireOperands a b c m k n = requireOperands a' b' c' m k n := by
  unfold requireOperands requireExtents PagedMatrix.height PagedMatrix.cols
  rw [ha, hb, hc]

/-- Two updates whose rescaled targets have the same contents leave the same contents. -/
theorem coupled_multiplyAdd (alpha beta : α) (choice : BlockingChoice)
    (h : SameContents (c.rescale beta) (c'.rescale beta)) :
    Coupled SameContents (multiplyAdd alpha a m k b n beta c choice)
      (multiplyAdd alpha a m k b n beta c' choice) := by
  have hshape : c.shape = c'.shape := h.shape
  unfold multiplyAdd
  rw [requireOperands_congr rfl rfl hshape]
  apply coupled_bind (coupled_onBehalfOf c c')
  rintro blocking _ rfl
  apply coupled_ite Iff.rfl
  · intro _
    exact coupled_pure h.refreshKind
  · intro _
    apply coupled_bind (coupled_unrefused (coupled_addProduct alpha blocking h))
    intro d d' hd
    exact coupled_pure hd.refreshKind

/-- The operands of an update are not asked for their kinds. -/
theorem SameContents.multiplyAdd_eq (ha : SameContents a a') (hb : SameContents b b')
    (alpha beta : α) (choice : BlockingChoice) :
    multiplyAdd alpha a m k b n beta c choice = multiplyAdd alpha a' m k b' n beta c choice := by
  rcases a with ⟨_, _, _⟩
  rcases a' with ⟨_, _, _⟩
  rcases b with ⟨_, _, _⟩
  rcases b' with ⟨_, _, _⟩
  rcases ha with ⟨rfl, rfl⟩
  rcases hb with ⟨rfl, rfl⟩
  rfl

end Products

end PagedMatrix

end DenseLinear
