import DenseLinear.Proofs.Outcomes
import DenseLinear.Proofs.SolverOutcomes

/-!
# Solving column by column

Solving with packed factors exchanges, updates and divides whole rows, so it works on all right-hand
sides at once. Still none of them has a share in the solution for another one, whatever the entries
are: the solution for some of the columns, in any order and as often as one likes, has just those
columns of the whole solution (`solveFactored_columnwise`).

The argument is that the cells of a solution are given column by column (`solveFactored_ofCells`),
by a function of the factors, the pivots and the one column. So it remains to say what it means that
a matrix is made of columns of another one (`SelectsColumns`), and which operands are accepted
(`accepted_of_solved`).
-/

namespace DenseLinear

namespace PagedMatrix

variable {α : Type}

/-- The matrix `part` is made of the columns `sources` of the matrix `whole`. -/
structure SelectsColumns (sources : List Nat) (whole part : PagedMatrix α) : Prop where
  /-- It has a column for each source. -/
  cols_eq : part.cols = sources.length
  /-- It has as many stacked rows. -/
  height_eq : part.height = whole.height
  /-- Each of its columns is the one that the source names. -/
  get_eq : ∀ t source, sources[t]? = some source → ∀ r, part.get r t = whole.get r source

/-- The cells of the columns `sources` of `f`. -/
def selectedCells (sources : List Nat) (f : Nat → Nat → α) : Nat → Nat → α :=
  fun r t => f r (sources.getD t 0)

variable {sources : List Nat} {shape shape' : Shape} {kind kind' : NumericKind} {n : Nat}
  {f : Nat → Nat → α} {part : PagedMatrix α}

theorem selectedCells_of_source (f : Nat → Nat → α) {t source : Nat}
    (h : sources[t]? = some source) (r : Nat) : selectedCells sources f r t = f r source := by
  rw [selectedCells, List.getD_eq_getElem?_getD, h, Option.getD_some]

/-- The selected cells make up a matrix with the selected columns. -/
theorem selectsColumns_ofCells (hcols : shape'.cols = sources.length)
    (hheight : shape'.height = shape.height) (hsources : ∀ source ∈ sources, source < shape.cols) :
    SelectsColumns sources (ofCells shape kind n f)
      (ofCells shape' kind' n (selectedCells sources f)) := by
  constructor
  · exact hcols
  · exact hheight
  · intro t source ht r
    have hsource : source < shape.cols := hsources source (List.mem_of_getElem? ht)
    have ht' : t < shape'.cols := by
      rw [hcols]
      exact (List.getElem?_eq_some_iff.1 ht).1
    apply get_ofCells_congr ht' hsource
    intro _
    exact selectedCells_of_source f ht r

/-- A matrix with the selected columns has no other cells. -/
theorem SelectsColumns.eq_ofCells {ρ : Type} [Scalar α ρ]
    (h : SelectsColumns sources (ofCells shape kind n f) part) (hpart : part.Stored)
    (hheight : shape.height = .ok n) (hsources : ∀ source ∈ sources, source < shape.cols) :
    part = ofCells part.shape part.kind n (selectedCells sources f) := by
  have hcells : part = ofCells part.shape part.kind n part.cell :=
    hpart.eq_ofCells (h.height_eq.trans hheight)
  rw [hcells]
  apply ofCells_congr
  intro r t hr ht
  have ht' : t < sources.length := Nat.lt_of_lt_of_eq ht h.cols_eq
  have hsource : sources[t]? = some sources[t] := List.getElem?_eq_getElem ht'
  have hget := h.get_eq t _ hsource r
  rw [hcells, get_ofCells hr ht, get_ofCells hr (hsources _ (List.getElem_mem ht'))] at hget
  rw [Except.ok.inj hget, selectedCells_of_source f hsource]

end PagedMatrix

namespace Lu

open PagedMatrix

section Independence

variable {α ρ : Type} [Scalar α ρ] {lu b x part : PagedMatrix α} {pivots : Array Nat}
  {sources : List Nat}

/-! ## Accepted operands -/

omit [Scalar α ρ] in
/-- Only a square matrix with a single page is admitted. -/
theorem returnsOnly_requireSquare (routine : String) (a : PagedMatrix α) :
    ReturnsOnly (requireSquare routine a) fun _ => a.cols = a.rows ∧ a.SinglePage := by
  refine returnsOnly_ite (fun _ => returnsOnly_then fun _ => returnsOnly_throw) fun hsquare => ?_
  refine returnsOnly_bind (P := fun count => a.pages = .ok count)
    (returnsOnly_checked fun _ h => h) ?_
  intro count hcount
  refine returnsOnly_ite (fun _ => returnsOnly_then fun _ => returnsOnly_throw) fun hone => ?_
  rw [not_not] at hsquare hone
  subst hone
  exact returnsOnly_pure ⟨hsquare, hcount⟩

variable [RealArith ρ]

/-- Only operands whose extents fit have a solution. -/
theorem returnsOnly_solveFactored_conformal (lu : PagedMatrix α) (pivots : Array Nat)
    (b : PagedMatrix α) : ReturnsOnly (solveFactored lu pivots b) fun _ => Conformal lu b := by
  refine returnsOnly_bind (returnsOnly_requireSquare "getrs" lu) ?_
  rintro _ ⟨hsquare, hpage⟩
  refine returnsOnly_bind (P := fun height => b.height = .ok height)
    (returnsOnly_checked fun _ h => h) ?_
  intro height hheight
  refine returnsOnly_ite (fun _ => returnsOnly_throw) fun hrows => ?_
  rw [not_not] at hrows
  subst hrows
  intro _ _
  exact ⟨hsquare, hpage, hheight⟩

/-- Operands that have a solution fit, and each of their pivots is a row. -/
theorem accepted_of_solved (hb : b.Stored) (hx : (solveFactored lu pivots b).run = .ok (.ok x)) :
    Conformal lu b ∧ pivots.size = lu.rows ∧ ∀ p ∈ pivots, p < lu.rows := by
  have hfit : Conformal lu b := returnsOnly_solveFactored_conformal lu pivots b x hx
  have hsize : pivots.size = lu.rows := by
    by_contra hne
    rw [solveFactored_of_size_ne hfit hne] at hx
    cases hx
  rcases hfirst : pivots.find? (fun p => lu.rows ≤ p) with _ | p
  · exact ⟨hfit, hsize, by simpa using hfirst⟩
  · rw [solveFactored_of_outside hb hfit hsize hfirst] at hx
    cases hx

/-! ## Independence -/

/-- If right-hand sides have a solution, any of their columns, in any order and with repetitions,
have a solution too, made of the same columns of the first one. Memory with room for such columns
holds them. No law of arithmetic is used, and entries that are not numbers and zeros on the diagonal
of the factors are no exception. -/
theorem solveFactored_columnwise (hlu : lu.Stored) (hb : b.Stored)
    (hx : (solveFactored lu pivots b).run = .ok (.ok x))
    (hsources : ∀ source ∈ sources, source < b.cols) :
    (sources.length < Size.limit → Fits α (lu.rows * sources.length) →
      ∃ part, part.Stored ∧ SelectsColumns sources b part) ∧
    ∀ part, part.Stored → SelectsColumns sources b part →
      ∃ y, (solveFactored lu pivots part).run = .ok (.ok y) ∧ y.shape = part.shape ∧
        SelectsColumns sources x y := by
  obtain ⟨hfit, hsize, hall⟩ := accepted_of_solved hb hx
  have hpivots := pivots_eq_getD hsize hall
  have hrows := hlu.rows_lt
  obtain ⟨luShape, luKind, g, rfl⟩ : ∃ shape kind g, lu = ofCells shape kind shape.rows g :=
    ⟨_, _, _, hlu.eq_ofCells_of_singlePage hfit.singlePage⟩
  obtain ⟨shape, kind, f, rfl⟩ : ∃ shape kind f, b = ofCells shape kind luShape.rows f :=
    ⟨_, _, _, hb.eq_ofCells hfit.height⟩
  have hheight : shape.height = .ok luShape.rows := hfit.height
  have hsolved : (solveFactored (ofCells luShape luKind luShape.rows g) pivots
      (ofCells shape kind luShape.rows f)).run = .ok (.ok _) :=
    solveFactored_ofCells hfit.singlePage rfl hfit.square hheight hsize hpivots
  rw [hsolved] at hx
  cases hx
  constructor
  · intro hlength hroom
    have hplain : ({ rows := luShape.rows, cols := sources.length } : Shape).height =
        shape.height := (height_of_plain hrows).trans hheight.symm
    have hselect : SelectsColumns sources (ofCells shape kind luShape.rows f)
        (ofCells { rows := luShape.rows, cols := sources.length } .real luShape.rows
          (selectedCells sources f)) := selectsColumns_ofCells rfl hplain hsources
    exact ⟨_, stored_ofCells hrows hlength hroom, hselect⟩
  · intro part hpart hselect
    have hheight' : part.shape.height = .ok luShape.rows := hselect.height_eq.trans hheight
    have hy : (solveFactored (ofCells luShape luKind luShape.rows g) pivots
        (ofCells part.shape part.kind luShape.rows (selectedCells sources f))).run = .ok (.ok _) :=
      solveFactored_ofCells hfit.singlePage rfl hfit.square hheight' hsize hpivots
    rw [← hselect.eq_ofCells hpart hheight hsources] at hy
    refine ⟨_, hy, rfl, ?_⟩
    -- the solution for selected columns is given by the selected cells of the solution
    exact selectsColumns_ofCells (f := fun r c => solvedColumn luShape.rows g _ (fun i => f i c) r)
      hselect.cols_eq (hheight'.trans hheight.symm) hsources

end Independence

/-- Factors with a zero on the diagonal, and right-hand sides with an entry that is not a number.
One of the columns is taken twice. -/
theorem solveFactored_columnwise_singularSquare :
    singularSquare.Stored ∧ nanPages.Stored ∧ (∀ source ∈ [1, 0, 1], source < 2) ∧
      3 < Size.limit ∧ Fits Float (2 * 3) ∧
      ∃ x part y, (solveFactored singularSquare #[1, 1] nanPages).run = .ok (.ok x) ∧
        part.Stored ∧ SelectsColumns [1, 0, 1] nanPages part ∧
        (solveFactored singularSquare #[1, 1] part).run = .ok (.ok y) ∧
        SelectsColumns [1, 0, 1] x y := by
  have hlu : singularSquare.Stored := ⟨rfl, by decide, by decide, by decide⟩
  have hb : nanPages.Stored := ⟨rfl, by decide, by decide, by decide⟩
  have hsources : ∀ source ∈ [1, 0, 1], source < 2 := by decide
  have hlength : 3 < Size.limit := by decide
  have hroom : Fits Float (2 * 3) := ⟨by decide, by decide⟩
  have hfit : Conformal singularSquare nanPages := ⟨rfl, rfl, rfl⟩
  have hall : ∀ p ∈ #[1, 1], p < singularSquare.rows := by decide
  rcases exists_solveFactored hlu hb hfit rfl hall with ⟨x, -, hx⟩
  rcases solveFactored_columnwise hlu hb hx hsources with ⟨hexists, hsolve⟩
  rcases hexists hlength hroom with ⟨part, hpart, hselect⟩
  rcases hsolve part hpart hselect with ⟨y, hy, -, hsame⟩
  exact ⟨hlu, hb, hsources, hlength, hroom, x, part, y, hx, hpart, hselect, hy, hsame⟩

end Lu

end DenseLinear
