import DenseLinear.Lu.Solve
import DenseLinear.Proofs.InterchangeSteps
import DenseLinear.Proofs.Outcomes
import DenseLinear.Qr.Pivoted
import DenseLinear.RankOne
import DenseLinear.Reflection.Paged

/-!
# What in-place kernels leave alone

An in-place kernel writes entries of its target and nothing else: the shape stays, and so does the
number of entries (`SameFrame`). This is so whatever the kernel computes and wherever it stops.

Every kernel is made of writes to single cells (`sameFrame_set`), exchanges of two cells and writes
over the whole buffer. The lemmas below follow the kernels upwards from there: a loop keeps the
frame because each of its steps does (`sameFrame_ascend`). A kernel that may stop halfway keeps the
frame there, too (`KeepsFrame`).
-/

namespace DenseLinear

namespace PagedMatrix

variable {α : Type}

/-- The matrix `b` has the shape of `a`, and as many entries. -/
structure SameFrame (a b : PagedMatrix α) : Prop where
  shape : b.shape = a.shape
  size : b.data.size = a.data.size

theorem SameFrame.refl (a : PagedMatrix α) : SameFrame a a := ⟨rfl, rfl⟩

theorem SameFrame.trans {a b c : PagedMatrix α} (h : SameFrame a b) (h' : SameFrame b c) :
    SameFrame a c :=
  ⟨h'.shape.trans h.shape, h'.size.trans h.size⟩

/-- A matrix with the frame of a well-formed one is well formed. -/
theorem SameFrame.wellFormed {a b : PagedMatrix α} (h : SameFrame a b) (ha : a.WellFormed) :
    b.WellFormed := by
  unfold WellFormed
  rw [h.size, h.shape]
  exact ha

/-! ## Chains of writes -/

section Chains

variable {m : Type → Type} {ε : Type} [Monad m] [MonadLiftT (Except Fault) m] [Outcomes m ε]
  {a : PagedMatrix α}

/-- The frame is kept from the first of two steps to the second. -/
theorem sameFrame_bind {x : m (PagedMatrix α)} {f : PagedMatrix α → m (PagedMatrix α)}
    (hx : ReturnsOnly x (SameFrame a)) (hf : ∀ b, ReturnsOnly (f b) (SameFrame b)) :
    ReturnsOnly (x >>= f) (SameFrame a) :=
  returnsOnly_bind hx fun b hb => returnsOnly_mono (hf b) fun _ => hb.trans

/-- The frame is kept by the steps that lead to a result with further parts. -/
theorem sameFrame_bind_fst {β : Type} {x : m (PagedMatrix α)}
    {f : PagedMatrix α → m (PagedMatrix α × β)} (hx : ReturnsOnly x (SameFrame a))
    (hf : ∀ b, ReturnsOnly (f b) fun found => SameFrame b found.1) :
    ReturnsOnly (x >>= f) fun found => SameFrame a found.1 :=
  returnsOnly_bind hx fun b hb => returnsOnly_mono (hf b) fun _ => hb.trans

theorem sameFrame_ascend {lo hi : Nat} {step : Nat → PagedMatrix α → m (PagedMatrix α)}
    (hstep : ∀ i b, ReturnsOnly (step i b) (SameFrame b)) :
    ReturnsOnly (ascend lo hi a step) (SameFrame a) :=
  returnsOnly_ascend (SameFrame.refl a) fun i b hb =>
    returnsOnly_mono (hstep i b) fun _ => hb.trans

theorem sameFrame_descend {lo hi : Nat} {step : Nat → PagedMatrix α → m (PagedMatrix α)}
    (hstep : ∀ i b, ReturnsOnly (step i b) (SameFrame b)) :
    ReturnsOnly (descend lo hi a step) (SameFrame a) :=
  returnsOnly_descend (SameFrame.refl a) fun i b hb =>
    returnsOnly_mono (hstep i b) fun _ => hb.trans

theorem sameFrame_strides {lo hi width : Nat} {step : Nat → PagedMatrix α → m (PagedMatrix α)}
    (hstep : ∀ i b, ReturnsOnly (step i b) (SameFrame b)) :
    ReturnsOnly (strides lo hi width a step) (SameFrame a) :=
  returnsOnly_strides (SameFrame.refl a) fun i b hb =>
    returnsOnly_mono (hstep i b) fun _ => hb.trans

theorem sameFrame_pure : ReturnsOnly (pure a : m (PagedMatrix α)) (SameFrame a) :=
  returnsOnly_pure (SameFrame.refl a)

end Chains

/-! ## Cells, rows and columns -/

section Edits

variable (a : PagedMatrix α)

theorem sameFrame_set (r c : Nat) (x : α) : ReturnsOnly (a.set r c x) (SameFrame a) := by
  unfold set
  split
  · exact returnsOnly_pure ⟨rfl, Array.size_set ‹_›⟩
  · exact returnsOnly_fault

theorem sameFrame_swapCells (r c s d : Nat) : ReturnsOnly (a.swapCells r c s d) (SameFrame a) := by
  unfold swapCells
  split
  · exact returnsOnly_pure ⟨rfl, Array.size_swap ..⟩
  · exact returnsOnly_fault

theorem sameFrame_setRow (r : Nat) (entries : Array α) :
    ReturnsOnly (a.setRow r entries) (SameFrame a) :=
  returnsOnly_then fun _ =>
    returnsOnly_ite
      (fun _ => sameFrame_ascend fun j b => returnsOnly_then fun x => b.sameFrame_set r j x)
      fun _ => returnsOnly_fault

theorem sameFrame_swapRowsWithin (r s start stop : Nat) :
    ReturnsOnly (a.swapRowsWithin r s start stop) (SameFrame a) :=
  returnsOnly_ite (fun _ => sameFrame_pure)
    fun _ => sameFrame_ascend fun j b => b.sameFrame_swapCells r j s j

theorem sameFrame_swapRows (r s : Nat) : ReturnsOnly (a.swapRows r s) (SameFrame a) :=
  a.sameFrame_swapRowsWithin r s 0 a.cols

theorem sameFrame_swapCols (c d : Nat) : ReturnsOnly (a.swapCols c d) (SameFrame a) :=
  returnsOnly_ite (fun _ => sameFrame_pure)
    fun _ => returnsOnly_then fun _ => sameFrame_ascend fun r b => b.sameFrame_swapCells r c r d

theorem sameFrame_setBlock (r0 c0 : Nat) (part : PagedMatrix α) :
    ReturnsOnly (a.setBlock r0 c0 part) (SameFrame a) :=
  returnsOnly_then fun _ => sameFrame_ascend fun _ _ =>
    returnsOnly_then fun r => returnsOnly_then fun _ => returnsOnly_then fun _ =>
      returnsOnly_then fun _ => sameFrame_ascend fun j b =>
        returnsOnly_then fun x => b.sameFrame_set r (c0 + j) x

theorem sameFrame_swapRowsOnPages (layout : PageLayout) (r s start stop : Nat) :
    ReturnsOnly (a.swapRowsOnPages layout r s start stop) (SameFrame a) :=
  sameFrame_ascend fun _ b => returnsOnly_then fun r' => returnsOnly_then fun s' =>
    b.sameFrame_swapRowsWithin r' s' start stop

end Edits

/-! ## Updates by products -/

section Products

variable {ρ : Type} [Scalar α ρ] (a : PagedMatrix α)

theorem sameFrame_scaleColumn (alpha : α) (start stop col : Nat) :
    ReturnsOnly (scaleColumn alpha a start stop col) (SameFrame a) :=
  returnsOnly_ite (fun _ => sameFrame_pure) fun _ =>
    returnsOnly_ite (fun _ => sameFrame_ascend fun i b => b.sameFrame_set i col 0)
      fun _ => sameFrame_ascend fun i b => returnsOnly_then fun _ => b.sameFrame_set i col _

theorem sameFrame_addOuterWith (f : α → α) (x y : Array α) :
    ReturnsOnly (addOuterWith f x y a) (SameFrame a) :=
  sameFrame_ascend fun i _ => returnsOnly_then fun _ => returnsOnly_then fun _ =>
    sameFrame_ascend fun j b => returnsOnly_then fun _ => returnsOnly_then fun _ =>
      b.sameFrame_set i j _

theorem sameFrame_addOuterBlock (row col m n : Nat) (alpha : α) (xSource : PagedMatrix α)
    (x : ColumnStart) (ySource : PagedMatrix α) (y : ColumnStart) :
    ReturnsOnly (a.addOuterBlock row col m n alpha xSource x ySource y) (SameFrame a) :=
  sameFrame_ascend fun j _ => returnsOnly_then fun _ =>
    returnsOnly_ite (fun _ => sameFrame_pure) fun _ =>
      sameFrame_ascend fun i b => returnsOnly_then fun _ => returnsOnly_then fun _ =>
        b.sameFrame_set (row + i) (col + j) _

theorem sameFrame_addTile (x y : PagedMatrix α) (rows cols inner : Span) :
    ReturnsOnly (addTile x y a rows cols inner) (SameFrame a) :=
  sameFrame_ascend fun i _ => sameFrame_ascend fun _ _ =>
    returnsOnly_then fun _ => returnsOnly_then fun _ => returnsOnly_then fun _ =>
      sameFrame_ascend fun j b => returnsOnly_then fun _ => returnsOnly_then fun _ =>
        b.sameFrame_set i j _

theorem sameFrame_addDirectProduct (alpha : α) (x y : PagedMatrix α) (m k n : Nat) :
    ReturnsOnly (addDirectProduct alpha x y m k n a) (SameFrame a) :=
  sameFrame_ascend fun i _ => sameFrame_ascend fun j b =>
    returnsOnly_then fun _ => returnsOnly_then fun _ => b.sameFrame_set i j _

theorem sameFrame_addTiles (x y : PagedMatrix α) (m k n width : Nat) :
    ReturnsOnly (addTiles x y m k n width a) (SameFrame a) :=
  sameFrame_strides fun _ _ => returnsOnly_then fun rows =>
    sameFrame_strides fun _ _ => returnsOnly_then fun inner =>
      sameFrame_strides fun _ b => returnsOnly_then fun cols =>
        b.sameFrame_addTile x y rows cols inner

theorem sameFrame_addTiledProduct (alpha : α) (x y : PagedMatrix α) (m k n width : Nat) :
    ReturnsOnly (addTiledProduct alpha x y m k n width a) (SameFrame a) :=
  returnsOnly_ite (fun _ => a.sameFrame_addTiles x y m k n width) fun _ =>
    returnsOnly_then fun _ => returnsOnly_then fun _ =>
      returnsOnly_pure ⟨rfl, Array.size_mapIdx⟩

theorem sameFrame_addProduct (alpha : α) (x y : PagedMatrix α) (m k n : Nat)
    (blocking : Blocking) : ReturnsOnly (addProduct alpha x y m k n a blocking) (SameFrame a) :=
  returnsOnly_ite
    (fun _ => returnsOnly_then fun _ =>
      returnsOnly_checked (a.sameFrame_addDirectProduct alpha x y m k n))
    fun _ => returnsOnly_then fun _ =>
      returnsOnly_checked (a.sameFrame_addTiledProduct alpha x y m k n blocking.edge)

/-- Rescaling keeps the frame. -/
theorem SameFrame.rescale (beta : α) : SameFrame a (a.rescale beta) :=
  ⟨rfl, Array.size_map⟩

variable [RealArith ρ]

/-- Bringing the kind up to date keeps the frame. -/
theorem SameFrame.refreshKind {a b : PagedMatrix α} (h : SameFrame a b) :
    SameFrame a b.refreshKind :=
  ⟨h.shape, h.size⟩

omit a in
/-- Bringing the kind up to date is a last step that keeps the frame. -/
theorem sameFrame_refreshKind {m : Type → Type} {ε : Type} [Monad m]
    [MonadLiftT (Except Fault) m] [Outcomes m ε] {a : PagedMatrix α} {x : m (PagedMatrix α)}
    (hx : ReturnsOnly x (SameFrame a)) :
    ReturnsOnly (x >>= fun b => pure b.refreshKind) (SameFrame a) :=
  returnsOnly_bind hx fun _ hb => returnsOnly_pure hb.refreshKind

theorem sameFrame_addConjOuter (x y : Array α) :
    ReturnsOnly (addConjOuter x y a) (SameFrame a) :=
  sameFrame_refreshKind (a.sameFrame_addOuterWith Scalar.conj x y)

theorem sameFrame_addConjOuterGathered (x y : PagedMatrix α) :
    ReturnsOnly (addConjOuterGathered x y a) (SameFrame a) :=
  returnsOnly_then fun _ => returnsOnly_then fun xs => returnsOnly_then fun ys =>
    returnsOnly_checked (a.sameFrame_addConjOuter xs ys)

theorem sameFrame_addConjOuterInPlace (x y : PagedMatrix α) :
    ReturnsOnly (addConjOuterInPlace x y a) (SameFrame a) := by
  refine returnsOnly_then fun _ => sameFrame_refreshKind (returnsOnly_checked ?_)
  exact sameFrame_ascend fun i _ => returnsOnly_then fun _ => sameFrame_ascend fun j b =>
    returnsOnly_then fun _ => returnsOnly_then fun _ => b.sameFrame_set i j _

/-- A refused rank-one update leaves its target as it was. -/
theorem refusedOnly_addConjOuterGathered (x y : PagedMatrix α) :
    RefusedOnly (addConjOuterGathered x y a) fun stop => stop.target = a :=
  refusedOnly_bind (refusedOnly_adapt _ fun _ => rfl) (fun _ _ => trivial) fun _ _ =>
    refusedOnly_bind refusedOnly_checked (fun _ _ => trivial) fun _ _ =>
      refusedOnly_bind refusedOnly_checked (fun _ _ => trivial) fun _ _ => refusedOnly_checked

/-- A refused rank-one update leaves its target as it was. -/
theorem refusedOnly_addConjOuterInPlace (x y : PagedMatrix α) :
    RefusedOnly (addConjOuterInPlace x y a) fun stop => stop.target = a :=
  refusedOnly_bind (refusedOnly_adapt _ fun _ => rfl) (fun _ _ => trivial) fun _ _ =>
    refusedOnly_bind refusedOnly_checked (fun _ _ => trivial) fun _ _ => refusedOnly_pure

theorem sameFrame_multiplyAdd (alpha : α) (x : PagedMatrix α) (m k : Nat) (y : PagedMatrix α)
    (n : Nat) (beta : α) (choice : BlockingChoice) :
    ReturnsOnly (multiplyAdd alpha x m k y n beta a choice) (SameFrame a) := by
  refine returnsOnly_then fun blocking => returnsOnly_ite
    (fun _ => returnsOnly_pure (SameFrame.rescale a beta).refreshKind)
    fun _ => sameFrame_refreshKind (returnsOnly_unrefused ?_)
  exact returnsOnly_mono ((a.rescale beta).sameFrame_addProduct alpha x y m k n blocking)
    fun _ => (SameFrame.rescale a beta).trans

/-- A refused update by a product leaves its target as it was. -/
theorem refusedOnly_multiplyAdd (alpha : α) (x : PagedMatrix α) (m k : Nat) (y : PagedMatrix α)
    (n : Nat) (beta : α) (choice : BlockingChoice) :
    RefusedOnly (multiplyAdd alpha x m k y n beta a choice) fun stop => stop.target = a := by
  refine refusedOnly_bind (refusedOnly_adapt _ fun _ => rfl) (fun _ _ => trivial) fun _ _ => ?_
  refine refusedOnly_ite (fun _ => refusedOnly_pure) fun _ => ?_
  exact refusedOnly_bind refusedOnly_unrefused (fun _ _ => trivial) fun _ _ => refusedOnly_pure

end Products

/-! ## Interchanges -/

section Interchanges

variable {m : Type → Type} [Monad m] [LawfulMonad m] [MonadLiftT (Except Fault) m]
  [Outcomes m Empty] {a : PagedMatrix α} {β : Type}

/-- A computation that may stop with a part of its work done keeps the frame of its target, whether
it returns or stops. -/
def KeepsFrame (a : PagedMatrix α) (x : ExceptT (Interrupted (PagedMatrix α)) m (PagedMatrix α)) :
    Prop :=
  ReturnsOnly x (SameFrame a) ∧ RefusedOnly x fun stop => SameFrame a stop.target

theorem keepsFrame_pure :
    KeepsFrame a (pure a : ExceptT (Interrupted (PagedMatrix α)) m (PagedMatrix α)) :=
  ⟨sameFrame_pure, refusedOnly_pure⟩

theorem keepsFrame_refuse {refusal : Refusal} :
    KeepsFrame a (throw ⟨a, refusal⟩ : ExceptT (Interrupted (PagedMatrix α)) m (PagedMatrix α)) :=
  ⟨returnsOnly_throw, refusedOnly_throw (SameFrame.refl a)⟩

theorem keepsFrame_checked {y : Checked (PagedMatrix α)} (h : ReturnsOnly y (SameFrame a)) :
    KeepsFrame a (checked y : ExceptT (Interrupted (PagedMatrix α)) m (PagedMatrix α)) :=
  ⟨returnsOnly_checked h, refusedOnly_checked⟩

theorem keepsFrame_ite {c : Prop} [Decidable c]
    {x y : ExceptT (Interrupted (PagedMatrix α)) m (PagedMatrix α)} (hx : c → KeepsFrame a x)
    (hy : ¬ c → KeepsFrame a y) : KeepsFrame a (if c then x else y) := by
  split
  · exact hx ‹c›
  · exact hy ‹¬ c›

/-- A step that only looks at its operands is refused with the target as it is. -/
theorem keepsFrame_then {x : ExceptT (Interrupted (PagedMatrix α)) m β}
    {f : β → ExceptT (Interrupted (PagedMatrix α)) m (PagedMatrix α)}
    (hx : RefusedOnly x fun stop => stop.target = a) (hf : ∀ b, KeepsFrame a (f b)) :
    KeepsFrame a (x >>= f) := by
  refine ⟨returnsOnly_then fun b => (hf b).1, refusedOnly_bind (P := fun _ => True) ?_
    (fun _ _ => trivial) fun b _ => (hf b).2⟩
  intro stop h
  rw [hx stop h]
  exact SameFrame.refl a

theorem keepsFrame_checked_then {y : Checked β}
    {f : β → ExceptT (Interrupted (PagedMatrix α)) m (PagedMatrix α)}
    (hf : ∀ b, KeepsFrame a (f b)) : KeepsFrame a (checked y >>= f) :=
  keepsFrame_then refusedOnly_checked hf

theorem keepsFrame_ascend {lo hi : Nat}
    {step : Nat → PagedMatrix α → ExceptT (Interrupted (PagedMatrix α)) m (PagedMatrix α)}
    (hstep : ∀ i b, KeepsFrame b (step i b)) : KeepsFrame a (ascend lo hi a step) := by
  refine ⟨sameFrame_ascend fun i b => (hstep i b).1, refusedOnly_ascend (SameFrame.refl a) ?_ ?_⟩
  · exact fun i b hb => returnsOnly_mono (hstep i b).1 fun _ => hb.trans
  · exact fun i b hb stop h => hb.trans ((hstep i b).2 stop h)

variable (a)

theorem keepsFrame_makeInterchange (layout : PageLayout) (pivots : Array Nat) (start stop : Nat)
    (step : Nat × Nat) : KeepsFrame a (makeInterchange layout pivots start stop a step) :=
  keepsFrame_checked_then fun _ => keepsFrame_checked_then fun target =>
    keepsFrame_ite (fun _ => keepsFrame_refuse) fun _ =>
      keepsFrame_ite (fun _ => keepsFrame_pure) fun _ =>
        keepsFrame_checked (a.sameFrame_swapRowsOnPages layout _ target start stop)

/-- A sequence of interchanges keeps the frame, also where it stops halfway. -/
theorem keepsFrame_runInterchanges (layout : PageLayout) (plan : InterchangePlan)
    (pivots : Array Nat) (start stop : Nat) :
    KeepsFrame a (a.runInterchanges layout plan pivots start stop) :=
  keepsFrame_ascend fun time b =>
    b.keepsFrame_makeInterchange layout pivots start stop (plan.rowAt time, plan.placeAt time)

theorem keepsFrame_interchangeRows (firstRow lastRow : Nat) (pivots : Array Nat) (stride : Int)
    (window : Option (Nat × Nat)) :
    KeepsFrame a (a.interchangeRows firstRow lastRow pivots stride window) :=
  keepsFrame_ite (fun _ => keepsFrame_refuse) fun _ =>
    keepsFrame_ite (fun _ => keepsFrame_refuse) fun _ =>
      keepsFrame_ite (fun _ => keepsFrame_pure) fun _ =>
        keepsFrame_checked_then fun layout =>
          keepsFrame_ite (fun _ => keepsFrame_refuse) fun _ =>
            keepsFrame_ite (fun _ => keepsFrame_refuse) fun _ =>
              keepsFrame_checked_then fun _ => keepsFrame_checked_then fun _ =>
                keepsFrame_ite (fun _ => keepsFrame_refuse) fun _ =>
                  a.keepsFrame_runInterchanges layout _ pivots _ _

theorem keepsFrame_exchangeRows (r s : Nat) : KeepsFrame a (a.exchangeRows r s) :=
  keepsFrame_ite (fun _ => keepsFrame_refuse) fun _ =>
    keepsFrame_checked_then fun _ => keepsFrame_checked_then fun _ =>
      keepsFrame_checked_then fun layout =>
        keepsFrame_ite (fun _ => keepsFrame_refuse) fun _ =>
          keepsFrame_ite (fun _ => keepsFrame_pure) fun _ =>
            keepsFrame_checked (a.sameFrame_swapRowsOnPages layout r s 0 layout.cols)

theorem keepsFrame_exchangeCols (c d : Nat) : KeepsFrame a (a.exchangeCols c d) :=
  keepsFrame_ite (fun _ => keepsFrame_refuse) fun _ =>
    keepsFrame_ite (fun _ => keepsFrame_refuse) fun _ =>
      keepsFrame_checked (a.sameFrame_swapCols c d)

end Interchanges

/-! ## Triangles and reflections -/

section Reflections

variable {ρ : Type} [Scalar α ρ] (a : PagedMatrix α)

theorem sameFrame_clearRows (start stop : Nat → Nat) :
    ReturnsOnly (a.clearRows start stop) (SameFrame a) :=
  returnsOnly_then fun _ => sameFrame_ascend fun _ _ => sameFrame_ascend fun _ _ =>
    returnsOnly_then fun r => returnsOnly_then fun _ => sameFrame_ascend fun j b =>
      b.sameFrame_set r j 0

theorem sameFrame_solveUnitLower (k width : Nat) :
    ReturnsOnly (a.solveUnitLower k width) (SameFrame a) :=
  returnsOnly_then fun _ => sameFrame_ascend fun j _ => sameFrame_ascend fun i b =>
    returnsOnly_then fun _ => returnsOnly_then fun x => b.sameFrame_set i j x

theorem sameFrame_solveUpper (k width : Nat) :
    ReturnsOnly (a.solveUpper k width) (SameFrame a) :=
  returnsOnly_then fun _ => sameFrame_ascend fun j _ => sameFrame_descend fun i b =>
    returnsOnly_then fun _ => returnsOnly_then fun _ => returnsOnly_then fun _ =>
      b.sameFrame_set i j _

theorem sameFrame_reflectColumns (v : Array α) (tau : α) (row start stop : Nat) :
    ReturnsOnly (a.reflectColumns v tau row start stop) (SameFrame a) :=
  returnsOnly_ite (fun _ => sameFrame_pure) fun _ => sameFrame_ascend fun j _ =>
    returnsOnly_then fun _ => returnsOnly_ite (fun _ => sameFrame_pure) fun _ =>
      sameFrame_ascend fun i b => returnsOnly_then fun _ => returnsOnly_then fun _ =>
        b.sameFrame_set (row + i) j _

theorem sameFrame_reflectRows (v : Array α) (tau : α) (start stop col : Nat) :
    ReturnsOnly (a.reflectRows v tau start stop col) (SameFrame a) :=
  returnsOnly_ite (fun _ => sameFrame_pure) fun _ => sameFrame_ascend fun i _ =>
    returnsOnly_then fun _ => returnsOnly_then fun _ => returnsOnly_then fun _ =>
      returnsOnly_ite (fun _ => sameFrame_pure) fun _ =>
        sameFrame_ascend fun j b => returnsOnly_then fun _ => returnsOnly_then fun _ =>
          b.sameFrame_set i (col + j) _

theorem sameFrame_reflect (side : Side) (v : Array α) (tau : α) (row col : Nat) :
    ReturnsOnly (reflect side a v tau row col) (SameFrame a) := by
  cases side with
  | left => exact a.sameFrame_reflectColumns v tau row col a.cols
  | right => exact a.sameFrame_reflectRows v tau row a.rows col

theorem sameFrame_reflectPages (side : Side) (v : Array α) (tau : α) (row col : Nat) :
    ReturnsOnly (reflectPages side a v tau row col) (SameFrame a) := by
  cases side with
  | left =>
    exact returnsOnly_then fun _ => sameFrame_ascend fun _ b => returnsOnly_then fun r =>
      b.sameFrame_reflect .left v tau r col
  | right =>
    exact returnsOnly_then fun _ => sameFrame_ascend fun _ b => returnsOnly_then fun rows =>
      returnsOnly_then fun r => b.sameFrame_reflectRows v tau r rows.2 col

theorem sameFrame_reflectStep (side : Side) (k : Nat) :
    ReturnsOnly (reflectStep side a k) fun found => SameFrame a found.1 := by
  cases side with
  | left =>
    refine returnsOnly_then fun h =>
      returnsOnly_ite (fun _ => returnsOnly_pure (.refl a)) fun _ => ?_
    refine sameFrame_bind_fst (a.sameFrame_set k k h.alpha) fun b => ?_
    refine sameFrame_bind_fst (sameFrame_ascend fun i b => b.sameFrame_set i k 0) fun b => ?_
    exact returnsOnly_bind (b.sameFrame_reflect .left h.v h.tau k (k + 1))
      fun _ hc => returnsOnly_pure hc
  | right =>
    refine returnsOnly_then fun h =>
      returnsOnly_ite (fun _ => returnsOnly_pure (.refl a)) fun _ => ?_
    refine sameFrame_bind_fst (a.sameFrame_set k k h.alpha) fun b => ?_
    refine sameFrame_bind_fst (sameFrame_ascend fun j b => b.sameFrame_set k j 0) fun b => ?_
    exact returnsOnly_bind (b.sameFrame_reflect .right h.v h.tau (k + 1) k)
      fun _ hc => returnsOnly_pure hc

theorem sameFrame_reflectPagesStep (side : Side) (extent k : Nat) :
    ReturnsOnly (reflectPagesStep side a extent k) fun found => SameFrame a found.1 :=
  returnsOnly_then fun _ => returnsOnly_then fun h =>
    returnsOnly_bind (a.sameFrame_reflectPages side h.v h.tau k k) fun _ hc => returnsOnly_pure hc

variable [RealArith ρ]

theorem sameFrame_keepUpper : ReturnsOnly a.keepUpper (SameFrame a) :=
  sameFrame_refreshKind (a.sameFrame_clearRows _ _)

theorem sameFrame_keepLower : ReturnsOnly a.keepLower (SameFrame a) :=
  sameFrame_refreshKind (a.sameFrame_clearRows _ _)

end Reflections

end PagedMatrix

/-! ## Factorisations -/

namespace Qr

open PagedMatrix

variable {α ρ : Type} [Scalar α ρ] (a : PagedMatrix α)

theorem sameFrame_packColumn (k : Nat) (scale : α) (v : Array α) :
    ReturnsOnly (packColumn a k scale v) (SameFrame a) :=
  sameFrame_ascend fun i b => returnsOnly_then fun _ => b.sameFrame_set (k + i) k _

theorem sameFrame_reduceAt (packing : Packing) (k : Nat) :
    ReturnsOnly (reduceAt packing a k) fun found => SameFrame a found.1 := by
  refine returnsOnly_then fun h => ?_
  refine sameFrame_bind_fst (a.sameFrame_set k k h.alpha) fun b => ?_
  refine sameFrame_bind_fst (sameFrame_packColumn b k _ h.v) fun b => ?_
  exact returnsOnly_bind (b.sameFrame_reflect .left h.v h.tau k (k + 1))
    fun _ hc => returnsOnly_pure hc

variable [RealArith ρ]

theorem sameFrame_factor : ReturnsOnly (factor a) fun f => SameFrame a f.packed := by
  refine returnsOnly_bind (P := fun f => SameFrame a f.1) ?_
    fun f hf => returnsOnly_pure hf.refreshKind
  refine returnsOnly_ascend (SameFrame.refl a) fun k ⟨b, taus, phis⟩ hb => ?_
  exact returnsOnly_bind (sameFrame_reduceAt b .compact k)
    fun found hfound => returnsOnly_pure (hb.trans hfound)

omit [Scalar α ρ] in
theorem sameFrame_bringForward (order : Array Nat) (table : NormTable ρ) (k : Nat) :
    ReturnsOnly (bringForward a order table k) fun found => SameFrame a found.1 :=
  returnsOnly_then fun p => returnsOnly_ite (fun _ => returnsOnly_pure (.refl a)) fun _ =>
    returnsOnly_bind (a.sameFrame_swapCols k p) fun _ hb => returnsOnly_then fun _ =>
      returnsOnly_then fun _ => returnsOnly_then fun _ => returnsOnly_pure hb

theorem sameFrame_pivotedSweep (pivoting : ColumnPivoting) :
    ReturnsOnly (pivotedSweep pivoting a) fun f => SameFrame a f.1.packed := by
  refine returnsOnly_then fun _ => returnsOnly_then fun table => ?_
  refine returnsOnly_bind (P := fun f => SameFrame a f.1) ?_
    fun f hf => returnsOnly_pure hf.refreshKind
  refine returnsOnly_ascend (SameFrame.refl a) fun k ⟨b, taus, phis, order, table⟩ hb => ?_
  refine returnsOnly_bind (sameFrame_bringForward b order table k) fun found hfound => ?_
  refine returnsOnly_bind (sameFrame_reduceAt found.1 pivoting.packing k) fun reduced hreduced => ?_
  exact returnsOnly_then fun _ => returnsOnly_pure ((hb.trans hfound).trans hreduced)

theorem sameFrame_factorPivoted (pivoting : ColumnPivoting) :
    ReturnsOnly (factorPivoted pivoting a) fun f => SameFrame a f.packed :=
  returnsOnly_bind (returnsOnly_checked (sameFrame_pivotedSweep a pivoting))
    fun _ hf => returnsOnly_then fun _ => returnsOnly_pure hf

end Qr

namespace Lu

open PagedMatrix

variable {α ρ : Type} [RealArith ρ] [Scalar α ρ] (a : PagedMatrix α)

omit [RealArith ρ] in
theorem sameFrame_eliminateRow (i stop : Nat) (pivot : α) (r : Nat) :
    ReturnsOnly (eliminateRow a i stop pivot r) (SameFrame a) :=
  returnsOnly_then fun _ => sameFrame_bind (a.sameFrame_set r i _) fun _ =>
    returnsOnly_ite (fun _ => sameFrame_pure) fun _ => sameFrame_ascend fun j b =>
      returnsOnly_then fun _ => returnsOnly_then fun _ => b.sameFrame_set r j _

omit [RealArith ρ] [Scalar α ρ] in
theorem sameFrame_bringPivot (sweep : Sweep α) (i p : Nat) :
    ReturnsOnly (bringPivot sweep i p) fun found => SameFrame sweep.matrix found.matrix :=
  returnsOnly_then fun _ => returnsOnly_ite (fun _ => returnsOnly_pure (.refl _)) fun _ =>
    returnsOnly_bind (sweep.matrix.sameFrame_swapRows i p) fun _ hb =>
      returnsOnly_then fun _ => returnsOnly_pure hb

theorem sameFrame_eliminateColumn (stop i : Nat) (sweep : Sweep α) :
    ReturnsOnly (eliminateColumn stop i sweep)
      fun found => SameFrame sweep.matrix found.matrix := by
  refine returnsOnly_then fun p => ?_
  refine returnsOnly_bind (sameFrame_bringPivot sweep i p) fun found hfound => ?_
  refine returnsOnly_then fun pivot =>
    returnsOnly_ite (fun _ => returnsOnly_pure hfound) fun _ => ?_
  refine returnsOnly_bind (sameFrame_ascend fun r b => sameFrame_eliminateRow b i stop pivot r) ?_
  exact fun b hb => returnsOnly_pure (hfound.trans hb)

theorem sameFrame_eliminatePanel (k width : Nat) (sweep : Sweep α) :
    ReturnsOnly (eliminatePanel k width sweep) fun found => SameFrame sweep.matrix found.matrix :=
  returnsOnly_then fun _ => returnsOnly_ascend (SameFrame.refl _) fun i found hfound =>
    returnsOnly_mono (sameFrame_eliminateColumn _ i found) fun _ => hfound.trans

/-- A panel is eliminated within the frame of its matrix. -/
theorem sameFrame_factorPanel (k width : Nat) (sweep : Sweep α) :
    ReturnsOnly (factorPanel k width sweep) fun found => SameFrame sweep.matrix found.matrix := by
  refine returnsOnly_bind (returnsOnly_checked (sameFrame_eliminatePanel k width sweep))
    fun found hfound => ?_
  split
  · exact returnsOnly_then fun _ => returnsOnly_pure hfound
  · exact returnsOnly_pure hfound

omit [RealArith ρ] in
theorem sameFrame_updateByTiles (k width edge : Nat) :
    ReturnsOnly (updateByTiles a k width edge) (SameFrame a) :=
  returnsOnly_then fun _ => sameFrame_strides fun _ _ => returnsOnly_then fun _ =>
    sameFrame_strides fun _ _ => returnsOnly_then fun _ =>
      sameFrame_ascend fun i _ => sameFrame_ascend fun j b => returnsOnly_then fun _ =>
        returnsOnly_then fun _ => b.sameFrame_set i j _

/-- The elimination with updates in tiles keeps the frame. -/
theorem sameFrame_factorInTiles (edge : Nat) :
    ReturnsOnly (factorInTiles edge a) fun found => SameFrame a found.1 := by
  refine returnsOnly_then fun _ => ?_
  refine returnsOnly_bind (P := fun found => SameFrame a found.matrix) ?_
    fun found hfound => returnsOnly_pure hfound.refreshKind
  refine returnsOnly_strides (SameFrame.refl a) fun k sweep hsweep => ?_
  refine returnsOnly_bind (sameFrame_factorPanel k _ sweep) fun found hfound => ?_
  refine returnsOnly_ite (fun _ => ?_) fun _ => returnsOnly_pure (hsweep.trans hfound)
  refine returnsOnly_bind (returnsOnly_checked (found.matrix.sameFrame_solveUnitLower k _))
    fun b hb => ?_
  refine returnsOnly_bind (returnsOnly_checked (sameFrame_updateByTiles b k _ _)) fun c hc => ?_
  exact returnsOnly_pure (((hsweep.trans hfound).trans hb).trans hc)

theorem sameFrame_factorByTiles :
    ReturnsOnly (factorByTiles a) fun found => SameFrame a found.1 :=
  returnsOnly_then fun edge => sameFrame_factorInTiles a edge

theorem sameFrame_factorByTilesWith (choice : BlockingChoice) :
    ReturnsOnly (factorByTilesWith choice a) fun found => SameFrame a found.1 :=
  returnsOnly_then fun blocking => returnsOnly_unrefused (sameFrame_factorInTiles a blocking.edge)

/-- A refused elimination in tiles leaves its target as it was. -/
theorem refusedOnly_factorByTilesWith (choice : BlockingChoice) :
    RefusedOnly (factorByTilesWith choice a) fun stop => stop.target = a :=
  refusedOnly_bind (refusedOnly_adapt _ fun _ => rfl) (fun _ _ => trivial)
    fun _ _ => refusedOnly_unrefused

theorem keepsFrame_updateByProduct (k next : Nat) (choice : BlockingChoice) :
    KeepsFrame a (updateByProduct a k next choice) :=
  keepsFrame_checked_then fun _ => keepsFrame_checked_then fun _ => keepsFrame_checked_then fun _ =>
    keepsFrame_then (refusedOnly_adapt _ fun _ => rfl) fun trailing =>
      keepsFrame_checked (a.sameFrame_setBlock next next trailing)

/-- A step of the elimination with updates by matrix products keeps the frame, also where it is
refused. -/
theorem keepsFrame_stepByProduct (choice : BlockingChoice) (width k : Nat) (pivots : Array Nat)
    (swaps : Nat) :
    ReturnsOnly (stepByProduct choice width k a pivots swaps) (fun found => SameFrame a found.1) ∧
      RefusedOnly (stepByProduct choice width k a pivots swaps)
        fun stop => SameFrame a stop.target := by
  have hpanel := sameFrame_factorPanel k width ⟨a, pivots, {}⟩
  constructor
  · refine returnsOnly_bind (returnsOnly_unrefused hpanel) fun found hfound => ?_
    refine returnsOnly_then fun _ => returnsOnly_ite (fun _ => ?_) fun _ => returnsOnly_pure hfound
    refine returnsOnly_bind (returnsOnly_checked (found.matrix.sameFrame_solveUnitLower k width))
      fun b hb => ?_
    refine returnsOnly_ite (fun _ => ?_) fun _ => returnsOnly_pure (hfound.trans hb)
    exact returnsOnly_bind (keepsFrame_updateByProduct b k _ choice).1
      fun c hc => returnsOnly_pure ((hfound.trans hb).trans hc)
  · refine refusedOnly_bind refusedOnly_unrefused (returnsOnly_unrefused hpanel)
      fun found hfound => ?_
    refine refusedOnly_bind refusedOnly_checked (fun _ _ => trivial) fun _ _ => ?_
    refine refusedOnly_ite (fun _ => ?_) fun _ => refusedOnly_pure
    refine refusedOnly_bind refusedOnly_checked
      (returnsOnly_checked (found.matrix.sameFrame_solveUnitLower k width)) fun b hb => ?_
    refine refusedOnly_ite (fun _ => ?_) fun _ => refusedOnly_pure
    -- only the product can be refused, and then the target is what the substitution has left
    have hupdate := keepsFrame_updateByProduct b k (k + width) choice
    exact refusedOnly_bind (fun stop h => (hfound.trans hb).trans (hupdate.2 stop h)) hupdate.1
      fun _ _ => refusedOnly_pure

/-- The elimination with updates by matrix products keeps the frame, also where it is refused. -/
theorem keepsFrame_factorByProduct (choice : BlockingChoice) :
    ReturnsOnly (factorByProduct choice a) (fun found => SameFrame a found.1) ∧
      RefusedOnly (factorByProduct choice a) fun stop => SameFrame a stop.target := by
  have hstep (k width : Nat) (state : PagedMatrix α × Array Nat × Nat)
      (hstate : SameFrame a state.1) :
      ReturnsOnly (stepByProduct choice width k state.1 state.2.1 state.2.2)
          (fun found => SameFrame a found.1) ∧
        RefusedOnly (stepByProduct choice width k state.1 state.2.1 state.2.2)
          fun stop => SameFrame a stop.target := by
    have h := keepsFrame_stepByProduct state.1 choice width k state.2.1 state.2.2
    exact ⟨returnsOnly_mono h.1 fun _ => hstate.trans,
      fun stop hstop => hstate.trans (h.2 stop hstop)⟩
  constructor
  · refine returnsOnly_then fun blocking => returnsOnly_then fun _ => ?_
    refine returnsOnly_bind (P := fun found => SameFrame a found.1) ?_ fun found hfound => ?_
    · exact returnsOnly_strides (SameFrame.refl a) fun k state hstate => (hstep k _ state hstate).1
    · refine returnsOnly_then fun firstNull => ?_
      cases firstNull with
      | none => exact returnsOnly_pure hfound.refreshKind
      | some column => exact returnsOnly_then fun _ => returnsOnly_pure hfound.refreshKind
  · have hsettle : RefusedOnly (onBehalfOf a choice.settle) fun stop => SameFrame a stop.target :=
      refusedOnly_adapt _ fun _ => SameFrame.refl a
    refine refusedOnly_bind hsettle (fun _ _ => trivial) fun blocking _ => ?_
    refine refusedOnly_bind refusedOnly_checked (fun _ _ => trivial) fun _ _ => ?_
    refine refusedOnly_bind (P := fun found => SameFrame a found.1) ?_ ?_ fun found _ => ?_
    · exact refusedOnly_strides (SameFrame.refl a)
        (fun k state hstate => (hstep k _ state hstate).1)
        fun k state hstate => (hstep k _ state hstate).2
    · exact returnsOnly_strides (SameFrame.refl a) fun k state hstate => (hstep k _ state hstate).1
    · refine refusedOnly_bind refusedOnly_checked (fun _ _ => trivial) fun firstNull _ => ?_
      cases firstNull with
      | none => exact refusedOnly_pure
      | some column =>
        exact refusedOnly_bind refusedOnly_unrefused (fun _ _ => trivial)
          fun _ _ => refusedOnly_pure

/-- The elimination with either update keeps the frame, also where it is refused. -/
theorem keepsFrame_factor (update : TrailingUpdate) :
    ReturnsOnly (factor update a) (fun found => SameFrame a found.1) ∧
      RefusedOnly (factor update a) fun stop => SameFrame a stop.target := by
  cases update with
  | product => exact keepsFrame_factorByProduct a {}
  | tiles => exact ⟨returnsOnly_unrefused (sameFrame_factorByTiles a), refusedOnly_unrefused⟩

/-! ## Solutions -/

omit [RealArith ρ] in
theorem sameFrame_subtractRow (i l width : Nat) (factor : α) :
    ReturnsOnly (subtractRow a i l width factor) (SameFrame a) :=
  returnsOnly_ite (fun _ => sameFrame_pure) fun _ => sameFrame_ascend fun j b =>
    returnsOnly_then fun _ => returnsOnly_then fun _ => b.sameFrame_set i j _

omit [RealArith ρ] in
theorem sameFrame_solveLowerRows (lu : PagedMatrix α) (n : Nat) :
    ReturnsOnly (solveLowerRows lu n a) (SameFrame a) :=
  sameFrame_ascend fun i _ => sameFrame_ascend fun l b => returnsOnly_then fun factor =>
    sameFrame_subtractRow b i l b.cols factor

omit [RealArith ρ] in
theorem sameFrame_solveUpperRows (lu : PagedMatrix α) (n : Nat) :
    ReturnsOnly (solveUpperRows lu n a) (SameFrame a) := by
  refine sameFrame_descend fun i b => sameFrame_bind ?_ fun c => returnsOnly_then fun pivot => ?_
  · exact sameFrame_ascend fun l c => returnsOnly_then fun factor =>
      sameFrame_subtractRow c i l c.cols factor
  · exact sameFrame_ascend fun j d => returnsOnly_then fun _ => d.sameFrame_set i j _

omit [RealArith ρ] [Scalar α ρ] in
theorem sameFrame_interchangeAll (pivots : Array Nat) (n : Nat) :
    ReturnsOnly (interchangeAll pivots n a) (SameFrame a) :=
  sameFrame_ascend fun i b => returnsOnly_then fun p =>
    returnsOnly_ite (fun _ => returnsOnly_throw) fun _ =>
      returnsOnly_checked (b.sameFrame_swapRows i p)

/-- A solution takes the place of the right-hand sides. -/
theorem sameFrame_solveFactored (lu : PagedMatrix α) (pivots : Array Nat) :
    ReturnsOnly (solveFactored lu pivots a) (SameFrame a) := by
  refine returnsOnly_then fun _ => returnsOnly_then fun height => ?_
  refine returnsOnly_ite (fun _ => returnsOnly_throw) fun _ => ?_
  refine returnsOnly_ite (fun _ => returnsOnly_throw) fun _ => ?_
  refine sameFrame_bind (sameFrame_interchangeAll a pivots lu.rows) fun b => ?_
  refine sameFrame_bind (returnsOnly_checked (sameFrame_solveLowerRows b lu lu.rows)) fun c => ?_
  exact sameFrame_refreshKind (returnsOnly_checked (sameFrame_solveUpperRows c lu lu.rows))

theorem sameFrame_solve (b : PagedMatrix α) :
    ReturnsOnly (solve a b) (SameFrame b) :=
  returnsOnly_then fun _ => returnsOnly_then fun f =>
    returnsOnly_unobserved (sameFrame_solveFactored b f.1 f.2.pivots)

end Lu

end DenseLinear
