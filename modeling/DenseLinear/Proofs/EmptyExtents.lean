import DenseLinear.Proofs.ColumnPrefixes
import DenseLinear.Proofs.InterchangeReplay
import DenseLinear.Proofs.PivotedReduction
import DenseLinear.Proofs.Transposes

/-!
# Factorisations of empty arrays

The factorisations go over the rows and columns of the first page, while the buffer also depends on
how many pages there are. A matrix without rows, without columns or with a page has all cells that
they ask for: it is the matrix of its cells, with at least the rows of a page
(`Stored.exists_ofCells_of_height`). A matrix with a row, a column and no page has none of them.

`factorisations_of_extents` is the whole account, for entries without any laws: every factorisation
ends with as many factors, phases and pivots as the first page has diagonal cells, and what is
unpacked from it is there, unless the first page has cells and there is no page; then the first
access is out of range.
-/

namespace DenseLinear

/-! ## Faults in sound surroundings -/

section Faults

variable {ε β γ : Type} {fault : Fault}

/-- From all sound surroundings the computation ends in the fault. -/
def Faults (x : Ambience β) (fault : Fault) : Prop :=
  ∀ ambient : Ambient, ambient.Sound → x.run ambient = .error fault

theorem faults_checked {x : Checked β} (h : x = .error fault) :
    Faults (checked x : Ambience β) fault := by
  subst h
  intro ambient _
  rfl

theorem Faults.bind {x : Ambience β} (h : Faults x fault) (f : β → Ambience γ) :
    Faults (x >>= f) fault := by
  intro ambient hambient
  rw [StateT.run_bind, h ambient hambient]
  rfl

/-- A computation that succeeds hands its fault on to what follows. -/
theorem faults_of_ends {x : Ambience β} {P : β → Prop} (h : Ends x P) {f : β → Ambience γ}
    (hf : ∀ b, P b → Faults (f b) fault) : Faults (x >>= f) fault := by
  intro ambient hambient
  rcases h ambient hambient with ⟨b, after, hb, hafter, hrun⟩
  rw [StateT.run_bind, hrun]
  exact hf b hb after hafter

theorem Faults.unrefused {x : Ambience β} (h : Faults x fault) :
    Faults (DenseLinear.unrefused x : ExceptT ε Ambience β).run fault := by
  intro ambient hambient
  have hrun : (DenseLinear.unrefused x : ExceptT ε Ambience β).run =
      x >>= fun b => pure (.ok b) := by
    simp [DenseLinear.unrefused]
  rw [hrun]
  exact h.bind _ ambient hambient

theorem Faults.bindT {x : ExceptT ε Ambience β} (h : Faults x.run fault)
    (f : β → ExceptT ε Ambience γ) : Faults (x >>= f).run fault := by
  rw [ExceptT.run_bind]
  exact h.bind _

theorem faultsT_of_ends {x : ExceptT ε Ambience β} {P : β → Prop} (h : Ends x P)
    {f : β → ExceptT ε Ambience γ} (hf : ∀ b, P b → Faults (f b).run fault) :
    Faults (x >>= f).run fault := by
  rw [ExceptT.run_bind]
  refine faults_of_ends h ?_
  rintro _ ⟨b, rfl, hb⟩
  exact hf b hb

/-- A loop in strides over a non-empty interval begins with its first position. -/
theorem exists_strides_eq {m : Type → Type} [Monad m] [MonadLiftT (Except Fault) m] {σ : Type}
    {lo hi width : Nat} (h : lo < hi) (hwidth : 0 < width) (s : σ) (step : Nat → σ → m σ) :
    ∃ rest, strides lo hi width s step = step lo s >>= rest := by
  have hcount : (hi - lo + (width - 1)) / width ≠ 0 := by
    have hle : width ≤ hi - lo + (width - 1) := by omega
    exact Nat.ne_of_gt (Nat.div_pos hle hwidth)
  rcases Nat.exists_eq_succ_of_ne_zero hcount with ⟨count, hsucc⟩
  refine ⟨strideFrom step width count (lo + width), ?_⟩
  unfold strides
  rw [if_neg (by omega), hsucc]
  rfl

theorem faults_strides {lo hi width : Nat} (h : lo < hi) (hwidth : 0 < width) {s : γ}
    {step : Nat → γ → Ambience γ} (hstep : Faults (step lo s) fault) :
    Faults (strides lo hi width s step) fault := by
  rcases exists_strides_eq h hwidth s step with ⟨rest, hrest⟩
  rw [hrest]
  exact hstep.bind rest

theorem faultsT_strides {lo hi width : Nat} (h : lo < hi) (hwidth : 0 < width) {s : γ}
    {step : Nat → γ → ExceptT ε Ambience γ} (hstep : Faults (step lo s).run fault) :
    Faults (strides lo hi width s step).run fault := by
  rcases exists_strides_eq h hwidth s step with ⟨rest, hrest⟩
  rw [hrest]
  exact hstep.bindT rest

end Faults

/-! ## What a matrix holds -/

namespace PagedMatrix

variable {α ρ : Type} [Scalar α ρ] {a : PagedMatrix α}

/-- A matrix with a page, or with an empty first page, is the matrix of its cells. There may be more
rows than are counted, as long as they are empty. -/
theorem Stored.exists_ofCells_of_height {counted : Nat} (ha : a.Stored)
    (hheight : a.height = .ok counted) (hfirst : a.HasPage ∨ a.rows = 0 ∨ a.cols = 0) :
    ∃ height, a = ofCells a.shape a.kind height a.cell ∧ a.rows ≤ height ∧ counted ≤ height ∧
      height < Size.limit ∧ (0 < a.rows → 0 < a.cols → a.shape.height = .ok height) := by
  rcases exists_pages hheight with ⟨count, hpages, hcount, hlimit⟩
  have hsize := ha.size_eq hheight
  rcases Nat.eq_zero_or_pos a.cols with hcols | hcols
  · -- rows without cells may be added at will
    refine ⟨max counted a.rows, eq_ofCells_cell ?_, Nat.le_max_right _ _, Nat.le_max_left _ _,
      Nat.max_lt.2 ⟨hlimit, ha.rows_lt⟩, ?_⟩
    · rw [hsize, hcols, Nat.mul_zero, Nat.mul_zero]
    · intro _ hpos
      omega
  · have hrows : a.rows ≤ counted := by
      rcases hfirst with hpage | hrows | hzero
      · have hproduct : count = a.shape.trailing.foldl (· * ·) 1 := Size.foldlM_mul_eq_ok hpages
        have hpos : 0 < count := hproduct ▸ foldl_mul_pos hpage
        rw [hcount]
        exact Nat.le_mul_of_pos_left _ hpos
      · omega
      · omega
    exact ⟨counted, eq_ofCells_cell hsize, hrows, Nat.le_refl _, hlimit, fun _ _ => hheight⟩

/-- Without a page there is no entry. -/
theorem Stored.size_of_pageless (ha : a.Stored) (hpage : ¬ a.HasPage) : a.data.size = 0 := by
  have hzero : ∃ d ∈ a.shape.trailing, d = 0 := by
    unfold HasPage at hpage
    push Not at hpage
    rcases hpage with ⟨d, hd, hle⟩
    exact ⟨d, hd, Nat.le_zero.1 hle⟩
  have hproduct : ∀ sizes : List Nat, (∃ d ∈ sizes, d = 0) → sizes.foldl (· * ·) 1 = 0 := by
    intro sizes
    induction sizes with
    | nil =>
      rintro ⟨d, hd, -⟩
      exact absurd hd List.not_mem_nil
    | cons e es ih =>
      rintro ⟨d, hd, rfl⟩
      rw [List.foldl_cons, foldl_mul_eq]
      rcases List.mem_cons.1 hd with rfl | hd
      · rw [Nat.mul_zero, Nat.zero_mul]
      · rw [ih ⟨0, hd, rfl⟩, Nat.mul_zero]
  rw [ha.wellFormed.data_size, hproduct _ hzero, Nat.mul_zero]

omit [Scalar α ρ] in
theorem get_of_empty (hempty : a.data.size = 0) (r c : Nat) : a.get r c = .error .outOfRange := by
  unfold get readAt
  rw [dif_neg (by omega)]

end PagedMatrix

open PagedMatrix

variable {α ρ : Type} [RealArith ρ] [Scalar α ρ]

/-! ## QR factorisations -/

namespace Qr

section Complete

variable {shape : Shape} {kind : NumericKind} {height : Nat} {f : Nat → Nat → α}

/-- Each step adds a factor and a phase. -/
theorem PivotedReduction.sizes_run (pivoting : ColumnPivoting) (m n : Nat) (f : Nat → Nat → α)
    (count : Nat) :
    (run pivoting m n f count : PivotedReduction α ρ).taus.size = count ∧
      (run pivoting m n f count : PivotedReduction α ρ).phis.size = count := by
  induction count with
  | zero => exact ⟨rfl, rfl⟩
  | succ count ih =>
    rcases ih with ⟨htaus, hphis⟩
    constructor
    · exact (Array.size_push _).trans (congrArg (· + 1) htaus)
    · exact (Array.size_push _).trans (congrArg (· + 1) hphis)

/-- The packed factors of a QR factorisation are complete: there is a factor and a phase for each
diagonal cell of the first page, and both the triangular and the unitary factor can be unpacked. -/
structure Complete (shape : Shape) (packed : PagedMatrix α) (taus phis : Array α) : Prop where
  /-- A factor for each diagonal cell. -/
  taus_size : taus.size = min shape.rows shape.cols
  /-- A phase for each diagonal cell. -/
  phis_size : phis.size = min shape.rows shape.cols
  /-- The triangular factor has the shape of the matrix. -/
  upper : Ends (upperFactor packed) fun r => r.shape = shape
  /-- The unitary factor is square. -/
  unitary : Ends (unitaryFactor packed taus) fun q =>
    q.shape = { rows := shape.rows, cols := shape.rows }

/-- Whatever is packed, and with however many factors, a unitary factor is made of it. -/
theorem ends_unitaryFactor_of_cells (taus : Array α) (hrows : shape.rows ≤ height)
    (hlimit : shape.rows < Size.limit) (hfits : Fits α (shape.rows * shape.rows)) :
    Ends (unitaryFactor (ofCells shape kind height f) taus) fun q =>
      q.shape = { rows := shape.rows, cols := shape.rows } := by
  unfold unitaryFactor
  rw [rows_ofCells, cols_ofCells]
  dsimp only
  rw [identity_eq_ok hlimit hfits, ok_bind]
  refine ends_bind (ends_descend (fun _ q => ∃ g,
    q = ofCells { rows := shape.rows, cols := shape.rows } .real shape.rows g) (Nat.zero_le _)
    ⟨identityCells, rfl⟩ ?_) ?_
  · rintro k _ - hk ⟨g, rfl⟩
    have htau : taus[k]? = some (taus.getD k 0) := getElem?_getD (by omega)
    exact ends_iff.2 ⟨_, applyPacked_ofCells htau (by omega) hrows (by omega), _, rfl⟩
  · rintro _ ⟨g, rfl⟩
    exact ends_pure rfl

/-- Packed factors that are given by their cells are complete if there are enough of the others. -/
theorem complete_ofCells {counted : Nat} {taus phis : Array α}
    (hheight : shape.height = .ok counted) (hcounted : counted ≤ height)
    (hrows : shape.rows ≤ height) (hlimit : height < Size.limit)
    (hfits : Fits α (shape.rows * shape.rows)) (htaus : taus.size = min shape.rows shape.cols)
    (hphis : phis.size = min shape.rows shape.cols) :
    Complete shape (ofCells shape kind height f) taus phis := by
  rcases exists_pages hheight with ⟨count, hpages, rfl, -⟩
  constructor
  · exact htaus
  · exact hphis
  · exact ends_iff.2 ⟨_, keepUpper_ofCells hpages hcounted hlimit, rfl⟩
  · exact ends_unitaryFactor_of_cells taus hrows (by omega) hfits

end Complete

section Pageless

variable {a : PagedMatrix α}

omit [RealArith ρ] in
/-- The leading entry of a column cannot be read. -/
theorem reduceAt_of_empty (hempty : a.data.size = 0) (packing : Packing) :
    reduceAt packing a 0 = .error .outOfRange := by
  have htail : a.columnTailNormSq 0 0 a.rows = .ok 0 ∨
      a.columnTailNormSq 0 0 a.rows = .error .outOfRange := by
    unfold columnTailNormSq
    rw [Size.add_eq_ok (by decide), ok_bind]
    rcases Nat.lt_or_ge (0 + 1) a.rows with hlt | hle
    · rw [ascend_of_lt hlt, get_of_empty hempty]
      exact .inr rfl
    · rw [ascend_of_le hle]
      exact .inl rfl
  unfold reduceAt Reflection.ofColumn
  rcases htail with htail | htail
  · rw [htail, ok_bind, get_of_empty hempty]
    rfl
  · rw [htail]
    rfl

theorem factor_of_empty (hempty : a.data.size = 0) (hrows : 0 < a.rows) (hcols : 0 < a.cols) :
    factor a = .error .outOfRange := by
  unfold factor
  rw [ascend_of_lt (Nat.lt_min.2 ⟨hrows, hcols⟩)]
  dsimp only
  rw [reduceAt_of_empty hempty]
  rfl

/-- The first norm cannot be computed. -/
theorem pivotedSweep_of_empty (hempty : a.data.size = 0) (hrows : 0 < a.rows) (hcols : 0 < a.cols)
    (hroom : sizeBytes * a.cols ≤ capacityLimit) (pivoting : ColumnPivoting) :
    pivotedSweep pivoting a = .error .outOfRange := by
  have hallocate : allocate sizeBytes a.cols = .ok () := if_pos hroom
  have hnorm : restNorm a 0 0 = .error .outOfRange := by
    unfold restNorm columnNorm columnNormSq
    rw [ascend_of_lt hrows, get_of_empty hempty]
    rfl
  unfold pivotedSweep allNorms
  rw [hallocate, ok_bind, ascend_of_lt hcols, hnorm]
  rfl

theorem faults_factorPivoted_of_empty (hempty : a.data.size = 0) (hrows : 0 < a.rows)
    (hcols : 0 < a.cols) (hroom : sizeBytes * a.cols ≤ capacityLimit)
    (pivoting : ColumnPivoting) : Faults (factorPivoted pivoting a) .outOfRange :=
  (faults_checked (pivotedSweep_of_empty hempty hrows hcols hroom pivoting)).bind _

end Pageless

end Qr

/-! ## LU factorisations -/

namespace Lu

/-- What an LU factorisation leaves is complete: there is a pivot for each diagonal cell of the
first page, and the three factors can be unpacked. -/
structure Complete (shape : Shape) (found : PagedMatrix α × Record) : Prop where
  /-- A pivot for each diagonal cell. -/
  pivots_size : found.2.pivots.size = min shape.rows shape.cols
  /-- The three factors. -/
  unpacked : Ends (unpack found.1 found.2.pivots) fun f =>
    f.lower.shape = { rows := shape.rows, cols := min shape.rows shape.cols } ∧
    f.upper.shape = { rows := min shape.rows shape.cols, cols := shape.cols } ∧
    f.permutation.shape = { rows := shape.rows, cols := shape.rows }

/-- A well-formed record is all that the factors are unpacked with. -/
theorem complete_of_leavesRecord {shape : Shape} {height : Nat} {found : PagedMatrix α × Record}
    (hrows : shape.rows ≤ height) (hlimit : shape.rows < Size.limit)
    (hfits : Fits α (shape.rows * shape.cols)) (hroom : Fits α (shape.rows * shape.rows))
    (h : LeavesRecord shape height found) : Complete shape found := by
  rcases found with ⟨lu, record⟩
  rcases h with ⟨⟨kind, g, rfl⟩, hrecord⟩
  rcases hrecord.exists_entries with ⟨p, hp⟩
  have hle : record.pivots.size ≤ shape.rows := hrecord.size.trans_le (Nat.min_le_left _ _)
  constructor
  · exact hrecord.size
  · exact ends_iff.2 ⟨_, unpack_ofCells hrows hlimit hfits hroom hp hle, rfl, rfl, rfl⟩

section Pageless

variable {a : PagedMatrix α}

/-- The diagonal cell of the first column cannot be read. -/
theorem eliminatePanel_of_empty (hempty : a.data.size = 0) (hrows : 0 < a.rows) (hcols : 0 < a.cols)
    {width : Nat} (hpos : 0 < width) (hword : width < Size.limit) (pivots : Array Nat)
    (status : SweepStatus) :
    eliminatePanel 0 width ⟨a, pivots, status⟩ = .error .outOfRange := by
  unfold eliminatePanel
  rw [Size.add_eq_ok (by omega), ok_bind, ascend_of_lt (by dsimp only; omega)]
  unfold eliminateColumn pivotRow
  dsimp only
  rw [get_of_empty hempty]
  rfl

theorem faults_factorPanel_of_empty (hempty : a.data.size = 0) (hrows : 0 < a.rows)
    (hcols : 0 < a.cols) {width : Nat} (hpos : 0 < width) (hword : width < Size.limit)
    (pivots : Array Nat) (status : SweepStatus) :
    Faults (factorPanel 0 width ⟨a, pivots, status⟩) .outOfRange :=
  (faults_checked
    (eliminatePanel_of_empty hempty hrows hcols hpos hword pivots status)).bind _

/-- The first step of a factorisation in tiles is its first panel. -/
theorem faults_factorByTiles_of_empty (hempty : a.data.size = 0) (hrows : 0 < a.rows)
    (hcols : 0 < a.cols) (hroom : sizeBytes * a.cols ≤ capacityLimit) :
    Faults (factorByTiles a) .outOfRange := by
  have hsteps : 0 < min a.rows a.cols := Nat.lt_min.2 ⟨hrows, hcols⟩
  have hallocate : allocate sizeBytes (min a.rows a.cols) = .ok () :=
    if_pos ((Nat.mul_le_mul_left _ (Nat.min_le_right _ _)).trans hroom)
  refine faults_of_ends ends_edge ?_
  rintro edge ⟨hedge, hword⟩
  unfold factorInTiles
  refine faults_of_ends (ends_checked (ends_eq_iff.2 hallocate)) ?_
  intro _ _
  refine (faults_strides hsteps (by omega) ?_).bind _
  exact (faults_factorPanel_of_empty hempty hrows hcols (by omega) (by omega) _ _).bind _

/-- So is that of a factorisation with products, once the parameters are settled. -/
theorem faults_factorByProduct_of_empty (hempty : a.data.size = 0) (hrows : 0 < a.rows)
    (hcols : 0 < a.cols) (hroom : sizeBytes * a.cols ≤ capacityLimit) {choice : BlockingChoice}
    (hchoice : choice.Valid) : Faults (factorByProduct choice a).run .outOfRange := by
  have hsteps : 0 < min a.rows a.cols := Nat.lt_min.2 ⟨hrows, hcols⟩
  have hallocate : allocate sizeBytes (min a.rows a.cols) = .ok () :=
    if_pos ((Nat.mul_le_mul_left _ (Nat.min_le_right _ _)).trans hroom)
  unfold factorByProduct
  refine faultsT_of_ends (ends_adapt (ends_settle hchoice)) ?_
  rintro blocking ⟨⟨hedge, hword⟩, -⟩
  refine faultsT_of_ends (ends_checkedT (ends_eq_iff.2 hallocate)) ?_
  intro _ _
  refine (faultsT_strides hsteps hedge ?_).bindT _
  exact (faults_factorPanel_of_empty hempty hrows hcols (by omega) (by omega) _ _).unrefused.bindT _

theorem faults_factor_of_empty (hempty : a.data.size = 0) (hrows : 0 < a.rows)
    (hcols : 0 < a.cols) (hroom : sizeBytes * a.cols ≤ capacityLimit) (update : TrailingUpdate) :
    Faults (factor update a).run .outOfRange := by
  cases update with
  | product =>
    exact faults_factorByProduct_of_empty hempty hrows hcols hroom BlockingChoice.valid_default
  | tiles => exact (faults_factorByTiles_of_empty hempty hrows hcols hroom).unrefused

end Pageless

/-- Both updates give complete factors of a matrix that is given by its cells. -/
theorem ends_factor_complete {shape : Shape} {height : Nat} (kind : NumericKind)
    (f : Nat → Nat → α) (hrows : shape.rows ≤ height) (hlimit : height < Size.limit)
    (hcols : shape.cols < Size.limit) (hfits : Fits α (height * shape.cols))
    (hroom : Fits α (shape.rows * shape.rows)) :
    Ends (factorByTiles (ofCells shape kind height f)) (Complete shape) ∧
      ∀ update, Ends (factor update (ofCells shape kind height f)) (Complete shape) := by
  have hcomplete : ∀ found : PagedMatrix α × Record,
      LeavesRecord shape height found → Complete shape found := by
    intro found h
    exact complete_of_leavesRecord hrows (by omega)
      (hfits.mono (Nat.mul_le_mul_right _ hrows)) hroom h
  have htiles : Ends (factorByTiles (ofCells shape kind height f)) (Complete shape) := by
    intro ambient hambient
    rcases ends_factorByTiles_leavesRecord kind hrows hlimit hfits ambient hambient with
      ⟨found, after, hfound, hafter, hrun⟩
    exact ⟨found, after, hcomplete found hfound, hafter, hrun⟩
  constructor
  · exact htiles
  · intro update
    cases update with
    | product =>
      exact ends_mono (ends_factorByProduct_leavesRecord kind BlockingChoice.valid_default hrows
        hlimit hcols hfits) hcomplete
    | tiles => exact ends_unrefused htiles

end Lu

/-- Both QR factorisations give complete factors of a matrix that is given by its cells. -/
theorem Qr.ends_factor_complete {shape : Shape} {height counted : Nat} (kind : NumericKind)
    (f : Nat → Nat → α) (hheight : shape.height = .ok counted) (hcounted : counted ≤ height)
    (hrows : shape.rows ≤ height) (hlimit : height < Size.limit)
    (hstored : 0 < shape.rows → 0 < shape.cols → shape.height = .ok height)
    (hfits : Fits α shape.rows) (hroom : Fits α (shape.rows * shape.rows))
    (hsizes : sizeBytes * shape.cols ≤ capacityLimit) :
    Ends (Qr.factor (ofCells shape kind height f))
      (fun p => Qr.Complete shape p.packed p.taus p.phis) ∧
    ∀ pivoting, Ends (Qr.factorPivoted pivoting (ofCells shape kind height f)) fun p =>
      Qr.Complete shape p.packed p.taus p.phis ∧ p.order.size = shape.cols := by
  constructor
  · refine ends_iff.2 ⟨_, Qr.factor_ofCells hrows (by omega) hfits, ?_⟩
    exact Qr.complete_ofCells hheight hcounted hrows hlimit hroom
      (Qr.Reduction.size_taus_run _ _ _) (Qr.Reduction.size_phis_run _ _ _)
  · intro pivoting ambient hambient
    have hsweep : Qr.pivotedSweep pivoting (ofCells shape kind height f) = .ok _ :=
      Qr.pivotedSweep_ofCells hrows (by omega) (fun _ => hfits) hsizes hstored
    rcases Qr.PivotedReduction.sizes_run (ρ := ρ) pivoting shape.rows shape.cols f
      (min shape.rows shape.cols) with ⟨htaus, hphis⟩
    refine ⟨_, _, ⟨?_, ?_⟩, ?_, Qr.run_factorPivoted hsweep ambient⟩
    · exact Qr.complete_ofCells hheight hcounted hrows hlimit hroom htaus hphis
    · exact size_listed
    · exact ⟨hambient.defaults, hambient.pending⟩

/-! ## All shapes -/

/-- An extent whose square of entries memory has room for. -/
def extentLimit : Nat := 536870912

theorem fits_extentLimit :
    Fits Float32 (extentLimit * extentLimit) ∧ Fits Float (extentLimit * extentLimit) ∧
      Fits (Cartesian Float32) (extentLimit * extentLimit) ∧
      Fits (Cartesian Float) (extentLimit * extentLimit) :=
  ⟨⟨by decide, by decide⟩, ⟨by decide, by decide⟩, ⟨by decide, by decide⟩, ⟨by decide, by decide⟩⟩

/-- The factorisations of a matrix whose stacked rows can be counted. They are complete if there is
a page, and also if the first page has no cells; a matrix without a page whose first page would have
cells is out of range from the first access on. -/
theorem factorisations_of_extents {a : PagedMatrix α} {counted : Nat} (ha : a.Stored)
    (hheight : a.height = .ok counted) (hrows : a.rows ≤ extentLimit) (hcols : a.cols ≤ extentLimit)
    (hroom : Fits α (extentLimit * extentLimit)) :
    (a.HasPage ∨ a.rows = 0 ∨ a.cols = 0 →
      Ends (Qr.factor a) (fun p => Qr.Complete a.shape p.packed p.taus p.phis) ∧
      (∀ pivoting, Ends (Qr.factorPivoted pivoting a) fun p =>
        Qr.Complete a.shape p.packed p.taus p.phis ∧ p.order.size = a.cols) ∧
      Ends (Lu.factorByTiles a) (Lu.Complete a.shape) ∧
      ∀ update, Ends (Lu.factor update a) (Lu.Complete a.shape)) ∧
    (¬ a.HasPage → 0 < a.rows → 0 < a.cols →
      Qr.factor a = .error .outOfRange ∧
      (∀ pivoting, Faults (Qr.factorPivoted pivoting a) .outOfRange) ∧
      Faults (Lu.factorByTiles a) .outOfRange ∧
      ∀ update, Faults (Lu.factor update a).run .outOfRange) := by
  have hsquare : Fits α (a.rows * a.rows) := hroom.mono (Nat.mul_le_mul hrows hrows)
  have hcolumn : Fits α a.rows :=
    hroom.mono (hrows.trans (Nat.le_mul_of_pos_left extentLimit (by decide)))
  have hsizes : sizeBytes * a.cols ≤ capacityLimit :=
    (Nat.mul_le_mul_left _ hcols).trans (by decide)
  constructor
  · intro hfirst
    rcases ha.exists_ofCells_of_height hheight hfirst with
      ⟨height, hcells, hle, hcounted, hlimit, hstored⟩
    have hfits : Fits α (height * a.cols) := by
      have hsize : a.size = height * a.cols := by
        rw [hcells]
        exact size_ofCells
      exact hsize ▸ ha.fits
    have hqr := Qr.ends_factor_complete a.kind a.cell hheight hcounted hle hlimit hstored hcolumn
      hsquare hsizes
    have hlu := Lu.ends_factor_complete a.kind a.cell hle hlimit ha.cols_lt hfits hsquare
    rw [← hcells] at hqr hlu
    exact ⟨hqr.1, hqr.2, hlu.1, hlu.2⟩
  · intro hpage hrow hcol
    have hempty := ha.size_of_pageless hpage
    refine ⟨Qr.factor_of_empty hempty hrow hcol, ?_, ?_, ?_⟩
    · exact Qr.faults_factorPivoted_of_empty hempty hrow hcol hsizes
    · exact Lu.faults_factorByTiles_of_empty hempty hrow hcol hsizes
    · exact Lu.faults_factor_of_empty hempty hrow hcol hsizes

/-- Three pages of no rows and two columns. -/
def emptyPages : PagedMatrix Float :=
  { shape := { rows := 0, cols := 2, trailing := [3] }, data := #[] }

/-- No page of one cell. -/
def pagelessCell : PagedMatrix Float :=
  { shape := { rows := 1, cols := 1, trailing := [0] }, data := #[] }

theorem stored_pagelessCell : pagelessCell.Stored := ⟨rfl, by decide, by decide, by decide⟩

/-- Empty pages are factored, and a cell without a page is not. -/
theorem factorisations_of_extents_emptyPages :
    (emptyPages.Stored ∧ emptyPages.height = .ok 0 ∧ emptyPages.rows ≤ extentLimit ∧
      emptyPages.cols ≤ extentLimit ∧ Fits Float (extentLimit * extentLimit) ∧
      Ends (Qr.factor emptyPages)
        (fun p => Qr.Complete emptyPages.shape p.packed p.taus p.phis) ∧
      ∀ update, Ends (Lu.factor update emptyPages) (Lu.Complete emptyPages.shape)) ∧
    ¬ pagelessCell.HasPage ∧ Faults (Lu.factorByTiles pagelessCell) .outOfRange := by
  have hstored : emptyPages.Stored := ⟨rfl, by decide, by decide, by decide⟩
  have hroom : Fits Float (extentLimit * extentLimit) := fits_extentLimit.2.1
  have hpageless : ¬ pagelessCell.HasPage := by decide
  rcases (factorisations_of_extents hstored rfl (by decide) (by decide) hroom).1 (.inr (.inl rfl))
    with ⟨hqr, -, -, hlu⟩
  rcases (factorisations_of_extents stored_pagelessCell rfl (by decide) (by decide) hroom).2
    hpageless (by decide) (by decide) with ⟨-, -, htiles, -⟩
  exact ⟨⟨hstored, rfl, by decide, by decide, hroom, hqr, hlu⟩, hpageless, htiles⟩

/-- A cell without a page is out of range for every factorisation. -/
theorem outOfRange_pagelessCell :
    pagelessCell.Stored ∧ pagelessCell.height = .ok 0 ∧ pagelessCell.rows ≤ extentLimit ∧
      pagelessCell.cols ≤ extentLimit ∧ Fits Float (extentLimit * extentLimit) ∧
      Qr.factor pagelessCell = .error .outOfRange ∧
      (∀ pivoting, (Qr.factorPivoted pivoting pagelessCell).run {} = .error .outOfRange) ∧
      (Lu.factorByTiles pagelessCell).run {} = .error .outOfRange ∧
      ∀ update, (Lu.factor update pagelessCell).run.run {} = .error .outOfRange := by
  have hempty : pagelessCell.data.size = 0 := rfl
  have hrows : 0 < pagelessCell.rows := by decide
  have hcols : 0 < pagelessCell.cols := by decide
  have hsizes : sizeBytes * pagelessCell.cols ≤ capacityLimit := by decide
  refine ⟨stored_pagelessCell, rfl, by decide, by decide, fits_extentLimit.2.1,
    Qr.factor_of_empty hempty hrows hcols, ?_, ?_, ?_⟩
  · intro pivoting
    exact Qr.faults_factorPivoted_of_empty hempty hrows hcols hsizes pivoting {}
      Ambient.sound_initial
  · exact Lu.faults_factorByTiles_of_empty hempty hrows hcols hsizes {} Ambient.sound_initial
  · intro update
    exact Lu.faults_factor_of_empty hempty hrows hcols hsizes update {} Ambient.sound_initial

end DenseLinear
