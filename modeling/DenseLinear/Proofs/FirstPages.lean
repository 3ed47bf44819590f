import DenseLinear.Proofs.PivotRecords
import DenseLinear.Proofs.PivotedReduction
import DenseLinear.Proofs.SharedPages

/-!
# Factorisations of a matrix with pages

All factorisations work on the first page of a matrix. Whatever its entries are and however many
pages it has, the first page becomes what it would become as a matrix of its own, and the same
pivots, factors and phases are reported (`factorisations_act_on_first_page`). The rows below stay as
they are. Only a factorisation with column pivoting goes there, too: it exchanges whole columns, so
the columns of all pages end in the order that it returns.
-/

namespace DenseLinear

open PagedMatrix

variable {α ρ : Type} [Scalar α ρ]

/-- The matrix `p` is the first page of `a`, as a matrix of its own. -/
structure PagedMatrix.FirstPage (a p : PagedMatrix α) : Prop where
  /-- It has the rows and columns of a page, and no further pages. -/
  shape : p.shape = { rows := a.rows, cols := a.cols }
  /-- It has no further entries. -/
  size : p.data.size = a.rows * a.cols
  /-- Its entries are those of the page. -/
  entry : ∀ r < a.rows, ∀ c < a.cols, p.get r c = a.get r c

/-- A kernel that makes `b` of `a` has acted on the first page alone, which has become `q`. Below it
there are the columns that have been moved, and no other changes. -/
structure PagedMatrix.ActsOnFirstPage (moved : Nat → Nat) (a b q : PagedMatrix α) : Prop where
  /-- The shape is kept. -/
  shape : b.shape = a.shape
  /-- There are as many entries as before. -/
  size : b.data.size = a.data.size
  /-- The first page has become `q`. -/
  page : b.FirstPage q
  /-- Below it, an entry is an old one of the same row. -/
  below : ∀ r c, a.rows ≤ r → c < a.cols → b.get r c = a.get r (moved c)

/-- Two sweeps, over `a` and over its first page, that have met the same. -/
structure Lu.SweepsPage (a : PagedMatrix α) (s t : Lu.Sweep α) : Prop where
  /-- The sweep over `a` has acted on its first page. -/
  matrix : ActsOnFirstPage id a s.matrix t.matrix
  /-- The pivots are the same. -/
  pivots : s.pivots = t.pivots
  /-- The status is the same. -/
  status : s.status = t.status

/-- Two eliminations, of `a` and of its first page, with the same record. -/
structure Lu.FactorsPage (a : PagedMatrix α) (x y : PagedMatrix α × Lu.Record) : Prop where
  /-- The elimination of `a` has acted on its first page. -/
  matrix : ActsOnFirstPage id a x.1 y.1
  /-- The records are the same. -/
  record : x.2 = y.2

/-- Two QR factorisations, of `a` and of its first page, with the same reflections. -/
structure Qr.FactorsPage (moved : Nat → Nat) (a : PagedMatrix α) (x y : PackedQr α) : Prop where
  /-- The factorisation of `a` has acted on its first page. -/
  packed : ActsOnFirstPage moved a x.packed y.packed
  /-- The factors of the reflections are the same. -/
  taus : x.taus = y.taus
  /-- The phases are the same. -/
  phis : x.phis = y.phis

/-- Two QR factorisations with column pivoting, of `a` and of its first page, that have brought the
columns into the same order. -/
structure Qr.PivotsPage (a : PagedMatrix α) (x y : PackedPivotedQr α) : Prop where
  /-- Below the first page, the columns are in the order that is returned. -/
  factors : Qr.FactorsPage (fun c => x.order.getD c 0) a x.toPackedQr y.toPackedQr
  /-- The order is the same. -/
  order : x.order = y.order
  /-- It is an order of all columns. -/
  perm : x.order.Perm (Array.range a.cols)

namespace PagedMatrix

variable {m n : Nat} {f g rest : Nat → Nat → α} {F G : PageFrame α m n} {a b p q : PagedMatrix α}
  {moved : Nat → Nat}

/-- A matrix in memory and its first page hold the same page. -/
theorem FirstPage.exists_sharePage (hp : a.FirstPage p) (ha : a.Stored) (hpage : a.HasPage) :
    ∃ F G : PageFrame α a.rows a.cols, SharePage F G a.cell a p := by
  rcases ha.exists_height hpage with ⟨height, hrows, hlimit, hsize, hheight⟩
  have hfits : Fits α (height * a.cols) := by
    rw [← hsize]
    exact ha.fits
  have hcols : p.cols = a.cols := by
    rw [PagedMatrix.cols, hp.shape]
  have hsize' : p.data.size = a.rows * p.cols := by
    rw [hp.size, hcols]
  have hcells : AgreeOn a.rows p.shape.cols p.cell a.cell := by
    intro r c hr hc
    have hc' : c < a.cols := hc.trans_eq hcols
    have hentry := hp.entry r hr c hc'
    rw [get_eq_cell hsize (hr.trans_le hrows) hc', get_eq_cell hsize' hr hc] at hentry
    exact Except.ok.inj hentry
  refine ⟨⟨a.shape, a.kind, height, rfl, rfl, hrows, hlimit, ha.cols_lt, hfits, hheight⟩,
    ⟨p.shape, p.kind, a.rows, ?_, hcols, Nat.le_refl _, ha.rows_lt, ha.cols_lt,
      hfits.mono (Nat.mul_le_mul_right _ hrows), ?_⟩, a.cell, eq_ofCells_cell hsize, ?_,
    fun _ _ => rfl⟩
  · rw [hp.shape]
  · intro _ _
    rw [hp.shape]
    exact height_of_plain ha.rows_lt
  · show p = ofCells p.shape p.kind a.rows a.cell
    rw [← ofCells_congr hcells]
    exact eq_ofCells_cell hsize'

/-- A kernel that leaves the cells `g` of the cells `f`, whatever there is around the page. -/
theorem FirstPage.acts (hp : (F.fill f).FirstPage (G.fill f)) (hmoved : ∀ c < n, moved c < n)
    (hbelow : ∀ r c, m ≤ r → c < n → g r c = f r (moved c)) :
    ActsOnFirstPage moved (F.fill f) (F.fill g) (G.fill g) := by
  have hsize : ∀ (H : PageFrame α m n) (f g : Nat → Nat → α),
      (H.fill g).data.size = (H.fill f).data.size := by
    intro H f g
    rw [PageFrame.fill, PageFrame.fill, size_ofCells, size_ofCells]
  refine ⟨rfl, hsize F f g, ⟨hp.shape, (hsize G f g).trans hp.size, ?_⟩, ?_⟩
  · intro r hr c hc
    rw [F.rows_fill] at hr
    rw [F.cols_fill] at hc
    rw [F.get_fill hr hc, G.get_fill hr hc]
  · intro r c hr hc
    rw [F.rows_fill] at hr
    rw [F.cols_fill] at hc
    exact get_ofCells_congr (hc.trans_eq F.cols_eq.symm) ((hmoved c hc).trans_eq F.cols_eq.symm)
      fun _ => hbelow r c hr hc

/-- The kinds do not matter. -/
theorem ActsOnFirstPage.refreshKind [RealArith ρ] (h : ActsOnFirstPage moved a b q) :
    ActsOnFirstPage moved a b.refreshKind q.refreshKind :=
  ⟨h.shape, h.size, ⟨h.page.shape, h.page.size, h.page.entry⟩, h.below⟩

/-- Elimination acts on the first page alone, and moves no columns. -/
theorem SharePage.acts (hp : a.FirstPage p) (h : SharePage F G rest a p)
    (h' : SharePage F G rest b q) : ActsOnFirstPage id a b q := by
  rcases h with ⟨f, rfl, rfl, hf⟩
  rcases h' with ⟨g, rfl, rfl, hg⟩
  apply hp.acts (fun c hc => hc)
  intro r c hr _
  rw [hg r hr, hf r hr]

end PagedMatrix

namespace Qr

variable {m n : Nat} {f rest : Nat → Nat → α} {F G : PageFrame α m n} {a p : PagedMatrix α}

/-! ## Reflections -/

/-- No step of a reduction goes below its page. -/
theorem Reduction.cells_runWith_of_le (packing : Packing) (f : Nat → Nat → α) (count : Nat) {r : Nat}
    (hr : m ≤ r) (c : Nat) : (Reduction.runWith packing m f count).cells r c = f r c := by
  induction count with
  | zero => rfl
  | succ count ih =>
    rw [← ih]
    exact if_pos (Or.inr (Or.inl hr))

variable [RealArith ρ]

section Fill

variable (F) (f)

theorem factor_fill :
    factor (F.fill f) = .ok
      { packed := (F.fill (Reduction.run m f (min m n)).cells).refreshKind
        taus := (Reduction.run m f (min m n)).taus
        phis := (Reduction.run m f (min m n)).phis } := by
  have hrows := F.rows_lt
  have hfits := F.fits_column
  rcases F with ⟨shape, kind, height, rfl, rfl, hheight, -⟩
  exact factor_ofCells_of_cols hheight hrows hfits

/-- The state of the factorisation with pivoting at its end. -/
def pivotedEnd (pivoting : ColumnPivoting) (m n : Nat) (f : Nat → Nat → α) :
    PivotedReduction α ρ :=
  .run pivoting m n f (min m n)

theorem pivotedSweep_fill (pivoting : ColumnPivoting) (hroom : sizeBytes * n ≤ capacityLimit) :
    pivotedSweep pivoting (F.fill f) = .ok
      ({ packed := (F.fill (pivotedEnd pivoting m n f).cells).refreshKind
         taus := (pivotedEnd pivoting m n f).taus
         phis := (pivotedEnd pivoting m n f).phis
         order := listed n (pivotedEnd pivoting m n f).order },
        (pivotedEnd pivoting m n f).estimates.recomputed) := by
  have hrows := F.rows_lt
  have hfits := F.fits_column
  rcases F with ⟨shape, kind, height, rfl, rfl, hheight, -, -, -, hcount⟩
  exact pivotedSweep_ofCells hheight hrows hfits hroom hcount

/-- Below the page the columns are moved as a whole, with pivoting. -/
theorem cells_pivotedEnd (pivoting : ColumnPivoting) {r : Nat} (hr : m ≤ r) (c : Nat) :
    (pivotedEnd pivoting m n f : PivotedReduction α ρ).cells r c =
      f r ((pivotedEnd pivoting m n f : PivotedReduction α ρ).order c) := by
  have hrun : (pivotedEnd pivoting m n f : PivotedReduction α ρ).toReduction = _ :=
    PivotedReduction.toReduction_run pivoting m n f (min m n)
  rw [hrun, Reduction.cells_runWith_of_le _ _ _ hr]
  rfl

end Fill

/-- A factorisation acts on the first page alone. -/
theorem factorsPage_factor (hp : a.FirstPage p) (h : SharePage F G rest a p) :
    ∃ x y, factor a = .ok x ∧ factor p = .ok y ∧ FactorsPage id a x y := by
  rcases h with ⟨f, rfl, rfl, -⟩
  refine ⟨_, _, factor_fill f F, factor_fill f G, ActsOnFirstPage.refreshKind ?_, rfl, rfl⟩
  apply hp.acts (fun c hc => hc)
  intro r c hr _
  rw [← Reduction.runWith_compact]
  exact Reduction.cells_runWith_of_le .compact f _ hr c

/-- A sweep with pivoting acts on the first page, and moves the columns of all pages. -/
theorem coupled_pivotedSweep (hp : a.FirstPage p) (h : SharePage F G rest a p)
    (pivoting : ColumnPivoting) :
    Coupled (fun x y => PivotsPage a x.1 y.1 ∧ x.2 = y.2) (pivotedSweep pivoting a)
      (pivotedSweep pivoting p) := by
  rcases h with ⟨f, rfl, rfl, -⟩
  by_cases hroom : sizeBytes * n ≤ capacityLimit
  · rw [pivotedSweep_fill f F pivoting hroom, pivotedSweep_fill f G pivoting hroom]
    have hfixed : ∀ c, n ≤ c → (pivotedEnd pivoting m n f : PivotedReduction α ρ).order c = c :=
      fun c hc => PivotedReduction.order_run_of_le f (Nat.min_le_right m n) hc
    refine .value ⟨⟨⟨ActsOnFirstPage.refreshKind (hp.acts ?_ ?_), rfl, rfl⟩, rfl, ?_⟩, rfl⟩
    · intro c hc
      dsimp only
      rw [getD_listed hc]
      exact apply_lt_of_fixed hfixed hc
    · intro r c hr hc
      dsimp only
      rw [getD_listed hc]
      exact cells_pivotedEnd f pivoting hr c
    · rw [F.cols_fill]
      exact listed_perm hfixed
  · have hlt : ∀ H : PageFrame α m n, capacityLimit < sizeBytes * (H.fill f).cols := by
      intro H
      rw [H.cols_fill]
      exact Nat.lt_of_not_le hroom
    rw [pivotedSweep_eq_error pivoting (hlt F), pivotedSweep_eq_error pivoting (hlt G)]
    exact .stop rfl

theorem coupled_factorPivoted (hp : a.FirstPage p) (h : SharePage F G rest a p)
    (pivoting : ColumnPivoting) :
    Coupled (PivotsPage a) (factorPivoted pivoting a) (factorPivoted pivoting p) := by
  unfold factorPivoted
  apply coupled_bind (coupled_checked (coupled_pivotedSweep hp h pivoting))
  rintro ⟨x, recomputed⟩ ⟨y, _⟩ ⟨hxy, rfl⟩
  apply coupled_bind_eq rfl
  intro _
  exact coupled_pure hxy

/-- A factorisation with pivoting succeeds if memory has room for the order of the columns. -/
theorem ends_factorPivoted (h : SharePage F G rest a p) (pivoting : ColumnPivoting)
    (hroom : sizeBytes * n ≤ capacityLimit) : Ends (factorPivoted pivoting a) fun _ => True := by
  rcases h with ⟨f, rfl, -, -⟩
  intro ambient hambient
  refine ⟨_, _, trivial, ?_, run_factorPivoted (pivotedSweep_fill f F pivoting hroom) ambient⟩
  exact ⟨hambient.defaults, hambient.pending⟩

end Qr

namespace Lu

variable {m n : Nat} {F G : PageFrame α m n} {a p : PagedMatrix α} {rest : Nat → Nat → α}

/-! ## Elimination -/

theorem SharePanel.sweepsPage {s t : Sweep α} (hp : a.FirstPage p) (h : SharePage F G rest a p)
    (hst : SharePanel F G rest s t) : SweepsPage a s t :=
  ⟨h.acts hp hst.matrix, hst.pivots, hst.status⟩

variable [RealArith ρ]

theorem ShareFactors.factorsPage {x y : PagedMatrix α × Record} (hp : a.FirstPage p)
    (h : SharePage F G rest a p) (hxy : ShareFactors F G rest x y) : FactorsPage a x y := by
  rcases hxy with ⟨⟨b, q, hbq, hx, hy⟩, hrecord⟩
  refine ⟨?_, hrecord⟩
  rw [hx, hy]
  exact (h.acts hp hbq).refreshKind

/-- A panel is eliminated if its end is a machine word and there is a place for every pivot. -/
theorem ends_factorPanel_fill (F : PageFrame α m n) (f : Nat → Nat → α) {k width : Nat}
    {pivots : Array Nat} {status : SweepStatus} (hend : k + width < Size.limit)
    (hpivots : min (min (k + width) n) m ≤ pivots.size) (hswaps : status.swaps ≤ k) :
    Ends (factorPanel k width ⟨F.fill f, pivots, status⟩) fun _ => True := by
  have hrows := F.rows_lt
  rcases F with ⟨shape, kind, height, rfl, rfl, hheight, -⟩
  intro ambient hambient
  obtain ⟨found, after, -, hafter, hrun⟩ :=
    ends_factorPanel kind ⟨f, pivots, status⟩ hheight hend hpivots hswaps hrows ambient hambient
  exact ⟨found, after, trivial, hafter, hrun⟩

/-- A factorisation succeeds unless an edge length is chosen that is not valid. -/
theorem ends_factorisations_fill (F : PageFrame α m n) (f : Nat → Nat → α) {choice : BlockingChoice}
    (hchoice : choice.Valid) :
    (Ends (factorByProduct choice (F.fill f)) fun _ => True) ∧
      Ends (factorByTilesWith choice (F.fill f)) fun _ => True := by
  rcases F with ⟨shape, kind, height, rfl, rfl, hrows, hheight, hcols, hfits, -⟩
  have hproduct : Ends (factorByProduct choice (ofCells shape kind height f)) _ :=
    ends_factorByProduct_leavesRecord kind hchoice hrows hheight hcols hfits
  have htiles : Ends (factorByTilesWith choice (ofCells shape kind height f)) _ :=
    ends_factorByTilesWith_leavesRecord kind hchoice hrows hheight hfits
  exact ⟨ends_mono hproduct fun _ _ => trivial, ends_mono htiles fun _ _ => trivial⟩

end Lu

/-- Each factorisation does to the first page of a matrix, whatever its entries are, what it does to
that page as a matrix of its own, and reports the same. It ends in the same way on both: it succeeds
whenever sizes and choices are such as they can be, and otherwise stops for the same reason. The rows
below the first page stay as they are, but that pivoting of columns moves whole columns into the
order that it returns. -/
theorem factorisations_act_on_first_page [RealArith ρ] {a p : PagedMatrix α} (ha : a.Stored)
    (hpage : a.HasPage) (hp : a.FirstPage p) :
    (∀ k width pivots status,
      Coupled (Lu.SweepsPage a) (Lu.factorPanel k width ⟨a, pivots, status⟩)
        (Lu.factorPanel k width ⟨p, pivots, status⟩) ∧
      (k + width < Size.limit → min (min (k + width) a.cols) a.rows ≤ pivots.size →
        status.swaps ≤ k →
        Ends (Lu.factorPanel k width ⟨a, pivots, status⟩) fun _ => True)) ∧
    (∀ choice : BlockingChoice,
      Coupled (Lu.FactorsPage a) (Lu.factorByProduct choice a) (Lu.factorByProduct choice p) ∧
      Coupled (Lu.FactorsPage a) (Lu.factorByTilesWith choice a) (Lu.factorByTilesWith choice p) ∧
      (choice.Valid → (Ends (Lu.factorByProduct choice a) fun _ => True) ∧
        Ends (Lu.factorByTilesWith choice a) fun _ => True)) ∧
    (∃ x y, Qr.factor a = .ok x ∧ Qr.factor p = .ok y ∧ Qr.FactorsPage id a x y) ∧
    ∀ pivoting,
      Coupled (Qr.PivotsPage a) (Qr.factorPivoted pivoting a) (Qr.factorPivoted pivoting p) ∧
      (sizeBytes * a.cols ≤ capacityLimit →
        Ends (Qr.factorPivoted pivoting a) fun _ => True) := by
  rcases hp.exists_sharePage ha hpage with ⟨F, G, h⟩
  have hfill : ∃ f, a = F.fill f := by
    rcases h with ⟨f, hf, -, -⟩
    exact ⟨f, hf⟩
  rcases hfill with ⟨f, hf⟩
  refine ⟨fun k width pivots status => ⟨?_, ?_⟩, fun choice => ⟨?_, ?_, ?_⟩,
    Qr.factorsPage_factor hp h, fun pivoting => ⟨Qr.coupled_factorPivoted hp h pivoting,
      Qr.ends_factorPivoted h pivoting⟩⟩
  · exact coupled_mono (Lu.coupled_factorPanel k width ⟨h, rfl, rfl⟩) fun s t hst =>
      hst.sweepsPage hp h
  · intro hend hpivots hswaps
    rw [hf]
    exact Lu.ends_factorPanel_fill F f hend hpivots hswaps
  · exact coupled_mono (Lu.coupled_factorByProduct choice h) fun x y hxy => hxy.factorsPage hp h
  · exact coupled_mono (Lu.coupled_factorByTilesWith choice h) fun x y hxy => hxy.factorsPage hp h
  · intro hchoice
    rw [hf]
    exact Lu.ends_factorisations_fill F f hchoice

/-- The first page of `unorderedPages`. -/
def unorderedPage : PagedMatrix Float :=
  { shape := { rows := 2, cols := 3 }, data := #[1.0, 0.0 / 0.0, 3.0, 2.0, 4.0, 1.0 / 0.0] }

/-- An entry that is not a number on the first page, and a second page. -/
theorem factorisations_act_on_first_page_unorderedPages :
    Qr.unorderedPages.Stored ∧ Qr.unorderedPages.HasPage ∧
      Qr.unorderedPages.FirstPage unorderedPage ∧ (BlockingChoice.tiled 1).Valid ∧
      sizeBytes * 3 ≤ capacityLimit ∧
      (∃ x y after, Runs (Lu.factorByProduct (.tiled 1) Qr.unorderedPages) {} x after ∧
        Runs (Lu.factorByProduct (.tiled 1) unorderedPage) {} y after ∧
        Lu.FactorsPage Qr.unorderedPages x y) ∧
      (∃ x y, Qr.factor Qr.unorderedPages = .ok x ∧ Qr.factor unorderedPage = .ok y ∧
        Qr.FactorsPage id Qr.unorderedPages x y) ∧
      Coupled (Qr.PivotsPage Qr.unorderedPages) (Qr.factorPivoted .raw Qr.unorderedPages)
        (Qr.factorPivoted .raw unorderedPage) ∧
      Ends (Qr.factorPivoted .raw Qr.unorderedPages) fun _ => True := by
  have hstored : Qr.unorderedPages.Stored := ⟨rfl, by decide, by decide, by decide⟩
  have hpage : Qr.unorderedPages.HasPage := by decide
  have hfirst : Qr.unorderedPages.FirstPage unorderedPage := by
    refine ⟨rfl, rfl, ?_⟩
    intro r hr c hc
    match r, c with
    | 0, 0 | 0, 1 | 0, 2 | 1, 0 | 1, 1 | 1, 2 => rfl
  have hchoice : (BlockingChoice.tiled 1).Valid := BlockingChoice.valid_tiled (by decide) (by decide)
  have hroom : sizeBytes * 3 ≤ capacityLimit := by decide
  rcases factorisations_act_on_first_page hstored hpage hfirst with ⟨-, hlu, hqr, hpivoted⟩
  rcases hlu (.tiled 1) with ⟨hproduct, -, hends⟩
  rcases ends_iff_runs.1 (hends hchoice).1 {} Ambient.sound_initial with ⟨x, after, -, -, hrun⟩
  rcases hrun.coupled hproduct with ⟨y, hrun', hxy⟩
  exact ⟨hstored, hpage, hfirst, hchoice, hroom, ⟨x, y, after, hrun, hrun', hxy⟩, hqr,
    (hpivoted .raw).1, (hpivoted .raw).2 hroom⟩

end DenseLinear
