import DenseLinear.Proofs.Interference
import DenseLinear.Proofs.PivotRecords
import DenseLinear.Proofs.Substitution
import DenseLinear.Proofs.Transposes

/-!
# Factorisations that cannot fail

The blocked factorisations have one contract: the chosen edge length must not be zero. Nothing else
stops them, for entries without any laws: no size overflows, no cell outside the buffer is touched,
no loop stands still and no product is refused, for every shape, every edge length up to the largest
machine word and whatever other callers do with the defaults.

A refused factorisation has done nothing: the matrix and the surroundings are as they were
(`refused_zero_edge`). Determinants and inverses use the default edge length, which is never zero,
so every square matrix with a single page has them.
-/

namespace DenseLinear

/-- From some surroundings the computation is refused, and leaves the surroundings as they are. -/
def RefusedIn {ε β : Type} (x : ExceptT ε Ambience β) (ambient : Ambient) (e : ε) : Prop :=
  x.run.run ambient = .ok (.error e, ambient)

theorem RefusedIn.bind {ε β γ : Type} {x : ExceptT ε Ambience β} {ambient : Ambient} {e : ε}
    (h : RefusedIn x ambient e) (f : β → ExceptT ε Ambience γ) : RefusedIn (x >>= f) ambient e := by
  unfold RefusedIn at h ⊢
  rw [ExceptT.run_bind, StateT.run_bind, h]
  rfl

/-- A refusal is reported with the target that the kernel works on. -/
theorem RefusedIn.onBehalfOf {β σ : Type} {x : ExceptT Refusal Ambience β} {ambient : Ambient}
    {refusal : Refusal} (h : RefusedIn x ambient refusal) (target : σ) :
    RefusedIn (DenseLinear.onBehalfOf target x) ambient ⟨target, refusal⟩ := by
  unfold RefusedIn at h ⊢
  change (Except.mapError (fun refusal => Interrupted.mk target refusal) <$> x.run).run ambient = _
  rw [StateT.run_map, h]
  rfl

/-- An edge length of zero is refused before anything is read. -/
theorem BlockingChoice.refused_settle {choice : BlockingChoice} (h : choice.edge = some 0)
    (ambient : Ambient) : RefusedIn choice.settle ambient (.edgeTooSmall 0) := by
  unfold RefusedIn
  rw [run_settle, h]
  rfl

/-- A choice of machine words is valid unless its edge length is zero. -/
theorem BlockingChoice.valid_of_ne_zero {choice : BlockingChoice} (h : choice.edge ≠ some 0)
    (hword : ∀ edge, choice.edge = some edge → edge < Size.limit) : choice.Valid := by
  intro edge hedge
  refine ⟨Nat.one_le_iff_ne_zero.2 ?_, hword edge hedge⟩
  rintro rfl
  exact h hedge

namespace Lu

open PagedMatrix

variable {α ρ : Type} [RealArith ρ] [Scalar α ρ] {a : PagedMatrix α} {choice : BlockingChoice}

/-- Both factorisations refuse an edge length of zero, and leave the matrix as it is. -/
theorem refused_zero_edge (h : choice.edge = some 0) (a : PagedMatrix α) (ambient : Ambient) :
    RefusedIn (factorByProduct choice a) ambient ⟨a, .edgeTooSmall 0⟩ ∧
      RefusedIn (factorByTilesWith choice a) ambient ⟨a, .edgeTooSmall 0⟩ :=
  ⟨((BlockingChoice.refused_settle h ambient).onBehalfOf a).bind _,
    ((BlockingChoice.refused_settle h ambient).onBehalfOf a).bind _⟩

/-! ## Square matrices -/

section Square

variable {n : Nat} {kind : NumericKind} {g : Nat → Nat → α}

omit [RealArith ρ] in
/-- The product of the diagonal can be formed. -/
theorem ends_diagonalProduct {shape : Shape} (hcols : shape.cols = n) :
    Ends (ascend 0 n (1 : α) fun i product => do
      return product * (← (ofCells shape kind n g).get i i)) fun _ => True := by
  refine ends_ascend (fun _ _ => True) (Nat.zero_le _) trivial fun i _ _ hi _ => ?_
  exact ends_bind (P := fun _ => True) ⟨_, get_ofCells hi (hcols ▸ hi), trivial⟩
    fun _ _ => ends_pure trivial

/-- The factors of a square matrix solve for every right-hand side with as many rows. -/
theorem ends_solveFactored {shape : Shape} {found : PagedMatrix α × Record}
    (hfound : LeavesRecord shape n found) (hpages : shape.pages = .ok 1) (hrows : shape.rows = n)
    (hcols : shape.cols = n) {b : PagedMatrix α} (hb : b.Stored) (hheight : b.height = .ok n) :
    Ends (solveFactored found.1 found.2.pivots b) fun _ => True := by
  obtain ⟨⟨kind, g, hlu⟩, hrecord⟩ := hfound
  have hsize : found.2.pivots.size = n := by
    rw [hrecord.size, hrows, hcols, Nat.min_self]
  -- the record has a pivot for every row, and each names a row of the matrix
  have hp : ∀ i < n, found.2.pivots[i]? = some (found.2.pivots.getD i 0) ∧
      found.2.pivots.getD i 0 < n := by
    intro i hi
    have hi' : i < found.2.pivots.size := hsize.symm ▸ hi
    have hlt := (hrecord.pivot i hi').2
    rw [Array.getElem?_eq_getElem hi', Array.getD_eq_getD_getElem?, Array.getElem?_eq_getElem hi']
    exact ⟨rfl, hrows ▸ hlt⟩
  rw [hlu, hb.eq_ofCells hheight]
  exact ⟨_, solveFactored_ofCells hpages hrows hcols hheight hsize hp, trivial⟩

/-- The factorisation that solvers use. -/
theorem ends_factorByTiles_of_square (ha : a.Stored) (hpage : a.SinglePage) :
    Ends (factorByTiles a) (LeavesRecord a.shape a.rows) := by
  have hfits := ha.fits_of_singlePage hpage
  have h :=
    ends_factorByTiles_leavesRecord (f := a.cell) a.kind (Nat.le_refl a.rows) ha.rows_lt hfits
  rwa [← ha.eq_ofCells_of_singlePage hpage] at h

/-- A square matrix has a determinant. -/
theorem ends_determinant_of_square (ha : a.Stored) (hpage : a.SinglePage)
    (hsquare : a.cols = a.rows) : Ends (determinant a) fun _ => True := by
  unfold determinant
  refine ends_bind (ends_unobserved (requireSquare_eq_ok hpage hsquare)) fun _ _ => ?_
  refine ends_bind (ends_unrefused (ends_factorByTiles_of_square ha hpage)) ?_
  rintro ⟨_, record⟩ ⟨⟨kind, g, rfl⟩, -⟩
  exact ends_bind (ends_checkedT (ends_diagonalProduct hsquare)) fun _ _ => ends_pure trivial

/-- A square system is solved for every right-hand side with as many rows. -/
theorem ends_solve_of_square (ha : a.Stored) (hpage : a.SinglePage) (hsquare : a.cols = a.rows)
    {b : PagedMatrix α} (hb : b.Stored) (hheight : b.height = .ok a.rows) :
    Ends (solve a b) fun _ => True := by
  unfold solve
  refine ends_bind (ends_unobserved (requireSquare_eq_ok hpage hsquare)) fun _ _ => ?_
  refine ends_bind (ends_unrefused (ends_factorByTiles_of_square ha hpage)) fun found hfound => ?_
  obtain ⟨x, hx, -⟩ := ends_solveFactored hfound hpage rfl hsquare hb hheight
  exact ends_mono (ends_unobserved hx) fun _ _ => trivial

/-- A square matrix has an answer for its inverse, if only one that is not finite. -/
theorem ends_inverse_of_square (ha : a.Stored) (hpage : a.SinglePage) (hsquare : a.cols = a.rows) :
    Ends (inverse a) fun _ => True := by
  have hfits := ha.fits_of_singlePage hpage
  rw [hsquare] at hfits
  unfold inverse
  refine ends_bind (ends_unobserved (requireSquare_eq_ok hpage hsquare)) fun _ _ => ?_
  refine ends_bind (ends_checkedT (ends_eq_iff.2 (identity_eq_ok ha.rows_lt hfits))) ?_
  rintro _ rfl
  exact ends_solve_of_square ha hpage hsquare (stored_ofCells ha.rows_lt ha.rows_lt hfits)
    (height_of_plain ha.rows_lt)

end Square

/-! ## All calls -/

/-- A success with any value is a run from each of the sound surroundings. -/
theorem exists_runs_of_ends {ε β : Type} {x : ExceptT ε Ambience β} {P : β → Prop} (h : Ends x P)
    {ambient : Ambient} (hambient : ambient.Sound) : ∃ b after, Runs x ambient b after := by
  obtain ⟨b, after, -, -, hrun⟩ := ends_iff_runs.1 h ambient hambient
  exact ⟨b, after, hrun⟩

/-- Whatever was requested of the defaults before the call, and whatever is requested while it runs:
both factorisations refuse exactly a chosen edge length of zero, and then leave the matrix as it is.
With any other choice they succeed on every matrix with a page. Determinants and inverses of square
matrices with a single page can always be computed. -/
theorem factorisations_refuse_only_zero_edge (ha : a.Stored) (hpage : a.HasPage)
    {history : List DefaultRequest} {coming : List (List DefaultRequest)}
    (hhistory : ∀ edge, .edge edge ∈ history → edge < Size.limit)
    (hcoming : ∀ requests ∈ coming, ∀ edge, .edge edge ∈ requests → edge < Size.limit) :
    (∀ choice : BlockingChoice, choice.edge = some 0 →
      RefusedIn (factorByProduct choice a) (.amid history coming) ⟨a, .edgeTooSmall 0⟩ ∧
      RefusedIn (factorByTilesWith choice a) (.amid history coming) ⟨a, .edgeTooSmall 0⟩) ∧
    (∀ choice : BlockingChoice, choice.edge ≠ some 0 →
      (∀ edge, choice.edge = some edge → edge < Size.limit) →
      (∃ found after, Runs (factorByProduct choice a) (.amid history coming) found after) ∧
      ∃ found after, Runs (factorByTilesWith choice a) (.amid history coming) found after) ∧
    (a.SinglePage → a.cols = a.rows →
      (∃ d after, Runs (determinant a) (.amid history coming) d after) ∧
      ∃ x after, Runs (inverse a) (.amid history coming) x after) := by
  have hambient := Ambient.sound_amid hhistory hcoming
  refine ⟨fun choice hzero => refused_zero_edge hzero a _, fun choice hne hword => ?_,
    fun hsingle hsquare =>
      ⟨exists_runs_of_ends (ends_determinant_of_square ha hsingle hsquare) hambient,
        exists_runs_of_ends (ends_inverse_of_square ha hsingle hsquare) hambient⟩⟩
  have hchoice := choice.valid_of_ne_zero hne hword
  have hcols := ha.cols_lt
  have hfits := ha.fits
  -- with a page, the first page lies within the stacked rows, which is all that a kernel asks for
  obtain ⟨shape, kind, height, f, rfl, hrows, hheight, -⟩ := ha.exists_ofCells hpage
  rw [cols_ofCells] at hcols
  rw [PagedMatrix.size, size_ofCells] at hfits
  exact ⟨exists_runs_of_ends
      (ends_factorByProduct_leavesRecord kind hchoice hrows hheight hcols hfits) hambient,
    exists_runs_of_ends
      (ends_factorByTilesWith_leavesRecord kind hchoice hrows hheight hfits) hambient⟩

/-- A square matrix without an inverse, which has no pivot in its first column. -/
def singularSquare : PagedMatrix Float :=
  { shape := { rows := 2, cols := 2 }
    data := #[0.0, 0.0 / 0.0, -0.0, 3.0] }

/-- The largest edge length that a machine word can hold, among other callers who keep changing the
default one. -/
theorem factorisations_refuse_only_zero_edge_singularSquare :
    singularSquare.Stored ∧ singularSquare.HasPage ∧ singularSquare.SinglePage ∧
      singularSquare.cols = singularSquare.rows ∧
      RefusedIn (factorByProduct (.tiled 0) singularSquare) contended
        ⟨singularSquare, .edgeTooSmall 0⟩ ∧
      (∃ found after,
        Runs (factorByProduct (.tiled (Size.limit - 1)) singularSquare) contended found after) ∧
      (∃ d after, Runs (determinant singularSquare) contended d after) ∧
      ∃ x after, Runs (inverse singularSquare) contended x after := by
  have hstored : singularSquare.Stored := ⟨rfl, by decide, by decide, by decide⟩
  have hpage : singularSquare.HasPage := by decide
  have hsingle : singularSquare.SinglePage := rfl
  have hhistory : ∀ edge, .edge edge ∈ [.edge 1, .edge 0, DefaultRequest.directVolume 0] →
      edge < Size.limit := by
    simp [Size.limit]
  have hcoming : ∀ requests ∈ [[.edge 0], [.directVolume 3, .edge 2], [.edge 5],
      [DefaultRequest.directVolume 100, .edge 7]], ∀ edge, .edge edge ∈ requests →
        edge < Size.limit := by
    simp [Size.limit]
  obtain ⟨hrefused, hsuccess, hsolved⟩ :=
    factorisations_refuse_only_zero_edge hstored hpage hhistory hcoming
  have hword : ∀ edge, (BlockingChoice.tiled (Size.limit - 1)).edge = some edge →
      edge < Size.limit := by
    intro edge h
    cases h
    decide
  exact ⟨hstored, hpage, hsingle, rfl, (hrefused (.tiled 0) rfl).1,
    (hsuccess (.tiled (Size.limit - 1)) (by decide) hword).1, (hsolved hsingle rfl).1,
    (hsolved hsingle rfl).2⟩

end Lu

end DenseLinear
