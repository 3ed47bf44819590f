import DenseLinear.Proofs.Histories
import DenseLinear.Proofs.Transposes
import DenseLinear.Scalar.Cartesian

/-!
# Kinds and contents

The kind of a matrix is a record about its contents, and is `Consistent` if it says what the entries
do: a matrix is complex if and only if some entry is not real, and logical only if all of them are
bits. Bringing the kind up to date makes it so, whatever it was (`consistent_refreshKind`); a zero
matrix is real, and stays consistent while only real entries are written into it (`RealEntries`).

A block and a transpose take over the kind of the matrix they are copied from. That is right for a
real and for a logical matrix, of which they hold some of the entries (`TakenFrom`). It is not for a
complex one when they leave out every entry that is not real: then they are `Stale`.
-/

namespace DenseLinear

/-- Zero and one are real, and zero is a bit. -/
class RealUnits (α : Type) {ρ : Type} [RealArith ρ] [Scalar α ρ] : Prop where
  isReal_zero : Scalar.isReal (0 : α) = true
  isReal_one : Scalar.isReal (1 : α) = true
  isBit_zero : Scalar.isBit (0 : α) = true

section Units

variable {F ρ : Type} [RealArith F] [RealArith ρ] [Measured F ρ]

/-- Real numbers whose zero is measured by zero have these units. -/
theorem realUnits_ofReals (hrefl : ((0 : ρ) == 0) = true)
    (hzero : (Measured.widen (0 : F) == (0 : ρ)) = true) : RealUnits F :=
  ⟨hrefl, hrefl, by rw [Scalar.isBit, Bool.or_eq_true]; exact .inl hzero⟩

/-- Complex numbers over such real numbers have these units, too. -/
theorem realUnits_cartesian (hzero : (Measured.widen (0 : F) == (0 : ρ)) = true) :
    RealUnits (Cartesian F) :=
  ⟨hzero, hzero, by rw [Scalar.isBit, Bool.or_eq_true]; exact .inl hzero⟩

instance : RealUnits Float := realUnits_ofReals (by decide) (by decide)

instance : RealUnits (Cartesian Float) := realUnits_cartesian (by decide)

end Units

namespace PagedMatrix

variable {α ρ : Type} [RealArith ρ] [Scalar α ρ]

/-- The kind says what the entries are. -/
structure Consistent (a : PagedMatrix α) : Prop where
  /-- A matrix is complex if and only if some entry is not real. -/
  complex_iff : a.kind = .complex ↔ ∃ x ∈ a.data, Scalar.isReal x = false
  /-- The entries of a logical matrix are bits. -/
  isBit_of_logical : a.kind = .logical → ∀ x ∈ a.data, Scalar.isBit x = true

/-! ## Kinds that are brought up to date -/

/-- The kind that is brought up to date says what the entries are. -/
theorem consistent_refreshKind (a : PagedMatrix α) : a.refreshKind.Consistent := by
  have hany : (a.data.any fun x => !Scalar.isReal x) = true ↔
      ∃ x ∈ a.data, Scalar.isReal x = false := by
    simp [← Array.any_toList]
  unfold refreshKind kindOf
  by_cases hcomplex : ∃ x ∈ a.data, Scalar.isReal x = false
  · rw [if_pos (hany.2 hcomplex)]
    exact ⟨iff_of_true rfl hcomplex, nofun⟩
  · rw [if_neg (mt hany.1 hcomplex)]
    split
    case isTrue h =>
      refine ⟨iff_of_false nofun hcomplex, fun _ x hx => ?_⟩
      exact Array.all_eq_true_iff_forall_mem.1 ((Bool.and_eq_true_iff.1 h).2) x hx
    case isFalse => exact ⟨iff_of_false nofun hcomplex, nofun⟩

/-- A computation whose last step brings the kind up to date answers a consistent matrix. -/
theorem consistent_of_refreshes {m : Type → Type} {ε : Type} [Monad m]
    [MonadLiftT (Except Fault) m] [Outcomes m ε] {x : m (PagedMatrix α)} :
    ReturnsOnly (x >>= fun b => pure b.refreshKind) Consistent :=
  returnsOnly_then fun b => returnsOnly_pure b.consistent_refreshKind

section Refreshing

theorem consistent_replicate (rows cols : Nat) (x : α) :
    ReturnsOnly (replicate rows cols x) Consistent :=
  returnsOnly_then fun _ => returnsOnly_then fun _ => returnsOnly_pure (consistent_refreshKind _)

theorem consistent_ofRows (rows : Array (Array α)) : ReturnsOnly (ofRows rows) Consistent :=
  returnsOnly_then fun _ => consistent_of_refreshes

theorem consistent_ofPages (pages : Array (Array (Array α))) :
    ReturnsOnly (ofPages pages) Consistent :=
  returnsOnly_then fun _ => returnsOnly_then fun _ => returnsOnly_then fun _ =>
    returnsOnly_then fun _ => returnsOnly_pure (consistent_refreshKind _)

theorem consistent_ofBuffer (shape : Shape) (data : Array α) :
    ReturnsOnly (ofBuffer shape data) Consistent :=
  returnsOnly_then fun _ => returnsOnly_ite
    (fun _ => returnsOnly_pure (consistent_refreshKind _)) fun _ => returnsOnly_throw

variable (a b : PagedMatrix α)

theorem consistent_adjoint : ReturnsOnly a.adjoint Consistent := consistent_of_refreshes

theorem consistent_product : ReturnsOnly (a.product b) Consistent :=
  returnsOnly_ite (fun _ => returnsOnly_fault) fun _ => returnsOnly_then fun _ =>
    consistent_of_refreshes

theorem consistent_multiplyAdd (alpha : α) (x : PagedMatrix α) (m k : Nat) (y : PagedMatrix α)
    (n : Nat) (beta : α) (choice : BlockingChoice) :
    ReturnsOnly (multiplyAdd alpha x m k y n beta a choice) Consistent :=
  returnsOnly_then fun _ => returnsOnly_ite
    (fun _ => returnsOnly_pure (consistent_refreshKind _)) fun _ => consistent_of_refreshes

theorem consistent_addConjOuter (x y : Array α) :
    ReturnsOnly (addConjOuter x y a) Consistent :=
  consistent_of_refreshes

theorem consistent_addConjOuterGathered (x y : PagedMatrix α) :
    ReturnsOnly (addConjOuterGathered x y a) Consistent :=
  returnsOnly_then fun _ => returnsOnly_then fun xs => returnsOnly_then fun ys =>
    returnsOnly_checked (a.consistent_addConjOuter xs ys)

theorem consistent_addConjOuterInPlace (x y : PagedMatrix α) :
    ReturnsOnly (addConjOuterInPlace x y a) Consistent :=
  returnsOnly_then fun _ => consistent_of_refreshes

theorem consistent_keepUpper : ReturnsOnly a.keepUpper Consistent := consistent_of_refreshes

theorem consistent_keepLower : ReturnsOnly a.keepLower Consistent := consistent_of_refreshes

theorem consistent_factor : ReturnsOnly (Qr.factor a) fun f => f.packed.Consistent :=
  returnsOnly_then fun _ => returnsOnly_pure (consistent_refreshKind _)

theorem consistent_factorPivoted (pivoting : ColumnPivoting) :
    ReturnsOnly (Qr.factorPivoted pivoting a) fun f => f.packed.Consistent := by
  have hsweep : ReturnsOnly (Qr.pivotedSweep pivoting a) fun f => f.1.packed.Consistent :=
    returnsOnly_then fun _ => returnsOnly_then fun _ => returnsOnly_then fun _ =>
      returnsOnly_pure (consistent_refreshKind _)
  exact returnsOnly_bind (returnsOnly_checked hsweep)
    fun _ hf => returnsOnly_then fun _ => returnsOnly_pure hf

theorem consistent_unitaryFactor (taus : Array α) :
    ReturnsOnly (Qr.unitaryFactor a taus) Consistent :=
  returnsOnly_then fun _ => consistent_of_refreshes

theorem consistent_factorByProduct (choice : BlockingChoice) :
    ReturnsOnly (Lu.factorByProduct choice a) fun f => f.1.Consistent := by
  refine returnsOnly_then fun _ => returnsOnly_then fun _ => returnsOnly_then fun f => ?_
  refine returnsOnly_then fun firstNull => ?_
  cases firstNull with
  | none => exact returnsOnly_pure (consistent_refreshKind _)
  | some column => exact returnsOnly_then fun _ => returnsOnly_pure (consistent_refreshKind _)

theorem consistent_factorInTiles (edge : Nat) :
    ReturnsOnly (Lu.factorInTiles edge a) fun f => f.1.Consistent :=
  returnsOnly_then fun _ => returnsOnly_then fun _ => returnsOnly_pure (consistent_refreshKind _)

theorem consistent_factorByTiles : ReturnsOnly (Lu.factorByTiles a) fun f => f.1.Consistent :=
  returnsOnly_then fun edge => a.consistent_factorInTiles edge

theorem consistent_factorByTilesWith (choice : BlockingChoice) :
    ReturnsOnly (Lu.factorByTilesWith choice a) fun f => f.1.Consistent :=
  returnsOnly_then fun blocking => returnsOnly_unrefused (a.consistent_factorInTiles blocking.edge)

theorem consistent_luFactor (update : Lu.TrailingUpdate) :
    ReturnsOnly (Lu.factor update a) fun f => f.1.Consistent := by
  cases update with
  | product => exact a.consistent_factorByProduct {}
  | tiles => exact returnsOnly_unrefused a.consistent_factorByTiles

theorem consistent_solveFactored (pivots : Array Nat) :
    ReturnsOnly (Lu.solveFactored a pivots b) Consistent :=
  returnsOnly_then fun _ => returnsOnly_then fun _ =>
    returnsOnly_ite (fun _ => returnsOnly_throw) fun _ =>
      returnsOnly_ite (fun _ => returnsOnly_throw) fun _ =>
        returnsOnly_then fun _ => returnsOnly_then fun _ => consistent_of_refreshes

theorem consistent_solve : ReturnsOnly (Lu.solve a b) Consistent :=
  returnsOnly_then fun _ => returnsOnly_then fun f =>
    returnsOnly_unobserved (consistent_solveFactored f.1 b f.2.pivots)

end Refreshing

/-! ## Real entries -/

/-- The matrix is real, and so are its entries. -/
structure RealEntries (a : PagedMatrix α) : Prop where
  kind : a.kind = .real
  isReal : ∀ x ∈ a.data, Scalar.isReal x = true

theorem RealEntries.consistent {a : PagedMatrix α} (h : RealEntries a) : a.Consistent := by
  refine ⟨iff_of_false (by rw [h.kind]; nofun) ?_, fun hlogical => ?_⟩
  · rintro ⟨x, hx, hreal⟩
    rw [h.isReal x hx] at hreal
    contradiction
  · rw [h.kind] at hlogical
    contradiction

omit [RealArith ρ] [Scalar α ρ] in
/-- A written cell leaves the kind, and the other entries. -/
theorem eachEntry_set {a : PagedMatrix α} {P : α → Prop} (ha : ∀ x ∈ a.data, P x) (r c : Nat)
    {x : α} (hx : P x) :
    ReturnsOnly (a.set r c x) fun b => b.kind = a.kind ∧ ∀ y ∈ b.data, P y := by
  unfold set
  split
  case isTrue h =>
    refine returnsOnly_pure ⟨rfl, fun y hy => ?_⟩
    rcases Array.mem_or_eq_of_mem_set (w := h) hy with hy | rfl
    · exact ha y hy
    · exact hx
  case isFalse => exact returnsOnly_fault

/-- Writing a real entry keeps the entries real. -/
theorem realEntries_set {a : PagedMatrix α} (ha : RealEntries a) (r c : Nat) {x : α}
    (hx : Scalar.isReal x = true) : ReturnsOnly (a.set r c x) RealEntries :=
  returnsOnly_mono (eachEntry_set ha.isReal r c hx) fun _ h => ⟨h.1.trans ha.kind, h.2⟩

variable [RealUnits α]

theorem realEntries_zerosOf (shape : Shape) :
    ReturnsOnly (zerosOf shape : Checked (PagedMatrix α)) RealEntries := by
  refine returnsOnly_then fun count => returnsOnly_then fun _ => returnsOnly_pure ⟨rfl, ?_⟩
  intro x hx
  rw [(Array.mem_replicate.1 hx).2]
  exact RealUnits.isReal_zero

theorem realEntries_identity (n : Nat) :
    ReturnsOnly (identity n : Checked (PagedMatrix α)) RealEntries :=
  returnsOnly_bind (realEntries_zerosOf _) fun _ ha => returnsOnly_ascend ha
    fun i _ hb => realEntries_set hb i i RealUnits.isReal_one

theorem realEntries_identityOf (shape : Shape) :
    ReturnsOnly (identityOf shape : Checked (PagedMatrix α)) RealEntries :=
  returnsOnly_bind (realEntries_zerosOf shape) fun _ ha => returnsOnly_then fun _ =>
    returnsOnly_ascend ha fun _ _ hb => returnsOnly_ascend hb fun i _ hc =>
      returnsOnly_then fun r => realEntries_set hc r i RealUnits.isReal_one

theorem realEntries_columnPermutation (sources : Array Nat) :
    ReturnsOnly (columnPermutation sources : Fallible (PagedMatrix α)) RealEntries :=
  returnsOnly_bind (returnsOnly_checked (realEntries_zerosOf _)) fun _ ha =>
    returnsOnly_ascend ha fun j _ hb => returnsOnly_then fun source =>
      returnsOnly_ite (fun _ => returnsOnly_throw) fun _ =>
        returnsOnly_checked (realEntries_set hb source j RealUnits.isReal_one)

/-- The triangular factors are brought up to date, and the permutation is made of zeros and ones. -/
theorem consistent_unpack (a : PagedMatrix α) (pivots : Array Nat) :
    ReturnsOnly (Lu.unpack a pivots)
      fun f => f.lower.Consistent ∧ f.upper.Consistent ∧ f.permutation.Consistent := by
  refine returnsOnly_then fun lower => returnsOnly_then fun upper => returnsOnly_then fun f => ?_
  obtain ⟨lower, upper⟩ := f
  refine returnsOnly_then fun order => returnsOnly_bind (realEntries_zerosOf _) fun p hp => ?_
  refine returnsOnly_bind (returnsOnly_ascend hp fun i q hq => returnsOnly_then fun r =>
    realEntries_set hq i r RealUnits.isReal_one) fun p hp => returnsOnly_pure ?_
  exact ⟨lower.consistent_refreshKind, upper.consistent_refreshKind, hp.consistent⟩

/-! ## Copies -/

/-- Every entry of `b` is an entry of `a`, or a zero. -/
def TakenFrom (a b : PagedMatrix α) : Prop := ∀ x ∈ b.data, x = 0 ∨ x ∈ a.data

omit [RealArith ρ] [RealUnits α] in
theorem takenFrom_zeros (a : PagedMatrix α) (rows cols : Nat) :
    ReturnsOnly (zeros rows cols) (TakenFrom a) :=
  returnsOnly_then fun _ => returnsOnly_then fun _ =>
    returnsOnly_pure fun _ hx => .inl (Array.mem_replicate.1 hx).2

omit [RealArith ρ] [RealUnits α] in
/-- An entry is read off one matrix and written into the other. -/
theorem takenFrom_set {a b : PagedMatrix α} (hb : TakenFrom a b) (i j r c : Nat) :
    ReturnsOnly (do b.set r c (← a.get i j)) (TakenFrom a) := by
  refine returnsOnly_bind (P := fun x => x ∈ a.data) (fun x hx => ?_) fun x hx =>
    returnsOnly_mono (eachEntry_set hb r c (.inr hx)) fun _ h => h.2
  unfold get readAt at hx
  split at hx
  · cases hx
    exact Array.getElem_mem _
  · contradiction

omit [RealArith ρ] [RealUnits α] in
/-- A block has the kind of the matrix that it is taken from. -/
theorem takenFrom_block (a : PagedMatrix α) (r0 r1 c0 c1 : Nat) :
    ReturnsOnly (a.block r0 r1 c0 c1) fun b => b.kind = a.kind ∧ TakenFrom a b := by
  refine returnsOnly_then fun height => returnsOnly_then fun width => ?_
  refine returnsOnly_bind (a.takenFrom_zeros _ _) fun _ hb => ?_
  refine returnsOnly_bind (P := TakenFrom a) ?_ fun _ hb => returnsOnly_pure ⟨rfl, hb⟩
  exact returnsOnly_ascend hb fun i _ hb => returnsOnly_then fun _ =>
    returnsOnly_ascend hb fun j _ hb => takenFrom_set hb i (c0 + j) (i - r0) j

omit [RealArith ρ] [RealUnits α] in
/-- A transpose has the kind of the matrix that it is taken from. -/
theorem takenFrom_transpose (a : PagedMatrix α) :
    ReturnsOnly a.transpose fun b => b.kind = a.kind ∧ TakenFrom a b := by
  refine returnsOnly_bind (P := TakenFrom a) ?_ fun _ hb => returnsOnly_pure ⟨rfl, hb⟩
  refine returnsOnly_bind (a.takenFrom_zeros _ _) fun _ hb => ?_
  exact returnsOnly_ascend hb fun i _ hb => returnsOnly_ascend hb fun j _ hb =>
    takenFrom_set hb i j j i

/-- What is taken from a consistent matrix, kind included, is consistent unless it is complex and
all its entries are real. -/
theorem consistent_of_takenFrom {a b : PagedMatrix α} (ha : a.Consistent) (hkind : b.kind = a.kind)
    (htaken : TakenFrom a b)
    (hfresh : b.kind = .complex → ∃ x ∈ b.data, Scalar.isReal x = false) : b.Consistent := by
  refine ⟨⟨hfresh, ?_⟩, fun hlogical x hx => ?_⟩
  · rintro ⟨x, hx, hreal⟩
    rw [hkind]
    rcases htaken x hx with rfl | hmem
    · rw [RealUnits.isReal_zero] at hreal
      contradiction
    · exact ha.complex_iff.2 ⟨x, hmem, hreal⟩
  · rcases htaken x hx with rfl | hmem
    · exact RealUnits.isBit_zero
    · exact ha.isBit_of_logical (hkind ▸ hlogical) x hmem

omit [RealArith ρ] [RealUnits α] in
/-- The transpose of a matrix with a single page leaves out none of its entries. -/
theorem mem_transpose {a b : PagedMatrix α} (ha : a.Stored) (hpage : a.SinglePage)
    (h : a.transpose = .ok b) : ∀ x ∈ a.data, x ∈ b.data := by
  have hcols := ha.cols_lt
  have hfits := ha.fits_of_singlePage hpage
  obtain ⟨shape, kind, f, rfl⟩ : ∃ shape kind f, a = ofCells shape kind shape.rows f :=
    ⟨_, _, _, ha.eq_ofCells_of_singlePage hpage⟩
  rw [cols_ofCells] at hcols
  rw [rows_ofCells, cols_ofCells, Nat.mul_comm] at hfits
  unfold transpose at h
  rw [transposeWith_ofCells (Nat.le_refl shape.rows) hcols hfits] at h
  cases h
  intro x hx
  obtain ⟨i, hi, rfl⟩ := Array.mem_iff_getElem.1 hx
  rw [size_ofCells] at hi
  obtain ⟨hr, hc⟩ := div_lt_of_place hi
  have hentry : (ofCells shape kind shape.rows f).data[i]? =
      some (f (i / shape.cols) (i % shape.cols)) := by
    rw [getElem?_data_ofCells, if_pos hi]
  obtain ⟨_, hentry⟩ := Array.getElem?_eq_some_iff.1 hentry
  rw [hentry]
  -- the entry in row `r` and column `c` has come to row `c` and column `r`
  let flipped : Shape := { rows := shape.cols, cols := shape.rows }
  have hplace : (ofCells flipped .real shape.cols fun r c => id (f c r)).data[_]? = _ :=
    getElem?_place hc (hr : i / shape.cols < flipped.cols)
  exact Array.mem_of_getElem? hplace

/-- A matrix that is cut out of a complex one, of which it has the kind, but none of the entries
that are not real: a block, or the transpose of the first of several pages. -/
structure Stale (held : List (PagedMatrix α)) (b : PagedMatrix α) : Prop where
  kind : b.kind = .complex
  isReal : ∀ x ∈ b.data, Scalar.isReal x = true
  origin : ∃ a ∈ held, (∃ r0 r1 c0 c1, a.block r0 r1 c0 c1 = .ok b) ∨
    ¬ a.SinglePage ∧ a.transpose = .ok b

omit [RealUnits α] in
theorem Stale.not_consistent {held : List (PagedMatrix α)} {b : PagedMatrix α}
    (h : Stale held b) : ¬ b.Consistent := by
  intro hb
  obtain ⟨x, hx, hreal⟩ := hb.complex_iff.1 h.kind
  rw [h.isReal x hx] at hreal
  contradiction

/-- A complex matrix is consistent if some entry is not real, and else has none. -/
theorem consistent_or_stale {held : List (PagedMatrix α)} {a b : PagedMatrix α} (hmem : a ∈ held)
    (ha : a.Consistent) (hkind : b.kind = a.kind) (htaken : TakenFrom a b)
    (horigin : (∃ r0 r1 c0 c1, a.block r0 r1 c0 c1 = .ok b) ∨
      ¬ a.SinglePage ∧ a.transpose = .ok b) : b.Consistent ∨ Stale held b := by
  by_cases hfresh : b.kind = .complex → ∃ x ∈ b.data, Scalar.isReal x = false
  · exact .inl (consistent_of_takenFrom ha hkind htaken hfresh)
  · rw [Classical.not_imp] at hfresh
    refine .inr ⟨hfresh.1, fun x hx => ?_, a, hmem, horigin⟩
    by_contra hreal
    exact hfresh.2 ⟨x, hx, Bool.eq_false_of_not_eq_true hreal⟩

variable {held : List (PagedMatrix α)} {a b : PagedMatrix α}

/-- What is made from consistent matrices is consistent, but for a stale copy. -/
theorem consistent_of_makes (hheld : ∀ a ∈ held, a.Stored ∧ a.Consistent) (h : Makes held b) :
    b.Consistent ∨ Stale held b := by
  cases h with
  | block ha h =>
    obtain ⟨hkind, htaken⟩ := takenFrom_block _ _ _ _ _ b h
    exact consistent_or_stale ha (hheld _ ha).2 hkind htaken (.inl ⟨_, _, _, _, h⟩)
  | transpose ha h =>
    rename_i a
    obtain ⟨hkind, htaken⟩ := takenFrom_transpose a b h
    by_cases hpage : a.SinglePage
    · -- with a single page no entry is left out, so one that is not real is still there
      refine .inl (consistent_of_takenFrom (hheld _ ha).2 hkind htaken fun hcomplex => ?_)
      obtain ⟨x, hx, hreal⟩ := (hheld _ ha).2.complex_iff.1 (hkind ▸ hcomplex)
      exact ⟨x, mem_transpose (hheld _ ha).1 hpage h x hx, hreal⟩
    · exact consistent_or_stale ha (hheld _ ha).2 hkind htaken (.inr ⟨hpage, h⟩)
  | replicate h => exact .inl (consistent_replicate _ _ _ b h)
  | zerosOf h => exact .inl (realEntries_zerosOf _ b h).consistent
  | identity h => exact .inl (realEntries_identity _ b h).consistent
  | identityOf h => exact .inl (realEntries_identityOf _ b h).consistent
  | ofRows h => exact .inl (consistent_ofRows _ b h)
  | ofPages h => exact .inl (consistent_ofPages _ b h)
  | ofBuffer h => exact .inl (consistent_ofBuffer _ _ b h)
  | ofColumn => exact .inl (consistent_refreshKind _)
  | ofRow => exact .inl (consistent_refreshKind _)
  | columnPermutation h => exact .inl (realEntries_columnPermutation _ b h).consistent
  | copy ha => exact .inl (hheld b ha).2
  | adjoint _ h => exact .inl (consistent_adjoint _ b h)
  | product _ _ h => exact .inl (consistent_product _ _ b h)
  | factor _ h => exact .inl (consistent_factor _ _ h)
  | factorPivoted _ h => exact .inl (consistent_factorPivoted _ _ _ h)
  | upperFactor _ h => exact .inl (consistent_keepUpper _ b h)
  | unitaryFactor _ h => exact .inl (consistent_unitaryFactor _ _ b h)
  | lowerPart _ h => exact .inl (consistent_unpack _ _ _ h).1
  | upperPart _ h => exact .inl (consistent_unpack _ _ _ h).2.1
  | permutation _ h => exact .inl (consistent_unpack _ _ _ h).2.2
  | solveFactored _ _ h => exact .inl (consistent_solveFactored _ _ _ b h)
  | solve _ _ h => exact .inl (consistent_solve _ _ b h)
  | inverse _ h =>
    exact .inl ((returnsOnly_then fun _ => returnsOnly_then fun one =>
      consistent_solve _ one : ReturnsOnly (Lu.inverse _) Consistent) b h)

omit [RealUnits α] in
/-- What a call in place that brings the kind up to date makes of any matrix is consistent. -/
theorem consistent_of_refreshing (h : Refreshes held a b) : b.Consistent := by
  cases h with
  | multiplyAdd _ _ h => exact a.consistent_multiplyAdd _ _ _ _ _ _ _ _ b h
  | addConjOuter h => exact a.consistent_addConjOuter _ _ b h
  | addConjOuterGathered _ _ h => exact a.consistent_addConjOuterGathered _ _ b h
  | addConjOuterInPlace _ _ h => exact a.consistent_addConjOuterInPlace _ _ b h
  | keepUpper h => exact a.consistent_keepUpper b h
  | keepLower h => exact a.consistent_keepLower b h
  | factorPivoted h => exact a.consistent_factorPivoted _ _ h
  | factorByProduct h => exact a.consistent_factorByProduct _ _ h
  | factorByTiles h => exact a.consistent_factorByTiles _ h
  | factorByTilesWith h => exact a.consistent_factorByTilesWith _ _ h
  | factor h => exact a.consistent_luFactor _ _ h

/-- From consistent matrices every call makes a consistent one, unless it makes a stale copy; and
every call in place that brings the kind up to date leaves a consistent matrix. -/
theorem kinds_follow_contents (hheld : ∀ a ∈ held, a.Stored ∧ a.Consistent) :
    (∀ b, Makes held b → (b.Consistent ↔ ¬ Stale held b)) ∧
      ∀ a b, Refreshes held a b → b.Consistent := by
  refine ⟨fun b hb => ⟨fun hconsistent hstale => ?_, fun hfresh => ?_⟩,
    fun a b => consistent_of_refreshing⟩
  · exact hstale.not_consistent hconsistent
  · exact (consistent_of_makes hheld hb).resolve_right hfresh

/-- A row whose first entry is not real and whose second entry is. -/
def mixedRow : PagedMatrix (Cartesian Float) :=
  { shape := { rows := 1, cols := 2 }, data := #[⟨0.0, 1.0⟩, ⟨1.0, 0.0⟩], kind := .complex }

/-- The second entry of the row on its own. -/
def realCut : PagedMatrix (Cartesian Float) :=
  { shape := { rows := 1, cols := 1 }, data := #[⟨1.0, 0.0⟩], kind := .complex }

theorem consistent_mixedRow : mixedRow.Stored ∧ mixedRow.Consistent := by
  refine ⟨⟨rfl, by decide, by decide, by decide⟩, ?_, nofun⟩
  exact iff_of_true rfl ⟨_, Array.getElem_mem (i := 0) (by decide), by decide⟩

/-- The block of the second column of a consistent row is not consistent: it is still taken for
complex, but its only entry is real. -/
theorem not_consistent_realCut :
    mixedRow.Consistent ∧ mixedRow.block 0 1 1 2 = .ok realCut ∧ ¬ realCut.Consistent := by
  refine ⟨consistent_mixedRow.2, by with_unfolding_all rfl, fun h => ?_⟩
  obtain ⟨x, hx, hreal⟩ := h.complex_iff.1 rfl
  obtain rfl : x = ⟨1.0, 0.0⟩ := by simpa [realCut] using hx
  revert hreal
  decide

/-- The row on its side. -/
def mixedColumn : PagedMatrix (Cartesian Float) :=
  { shape := { rows := 2, cols := 1 }, data := #[⟨0.0, 1.0⟩, ⟨1.0, 0.0⟩], kind := .complex }

/-- The transpose of the row is consistent, and so is what is left of the row on and below its
diagonal. -/
theorem kinds_follow_contents_mixedRow :
    (∀ a ∈ [mixedRow], a.Stored ∧ a.Consistent) ∧ mixedRow.transpose = .ok mixedColumn ∧
      mixedColumn.Consistent ∧ ∀ b, mixedRow.keepLower = .ok b → b.Consistent := by
  have hheld : ∀ a ∈ [mixedRow], a.Stored ∧ a.Consistent := by
    simpa using consistent_mixedRow
  obtain ⟨hmade, hrefreshed⟩ := kinds_follow_contents hheld
  have htranspose : mixedRow.transpose = .ok mixedColumn := by with_unfolding_all rfl
  have hfresh : ¬ Stale [mixedRow] mixedColumn := by
    intro h
    have hreal := h.isReal ⟨0.0, 1.0⟩ (Array.getElem_mem (i := 0) (by decide))
    revert hreal
    decide
  exact ⟨hheld, htranspose,
    (hmade _ (.transpose (List.mem_singleton_self _) htranspose)).2 hfresh,
    fun b hb => hrefreshed mixedRow b (.keepLower hb)⟩

end PagedMatrix

end DenseLinear
