import DenseLinear.Proofs.Accounting
import DenseLinear.Proofs.InterchangeSteps
import DenseLinear.Proofs.PivotRecords
import DenseLinear.Proofs.Substitution

/-!
# Replaying the interchanges of a factorisation

The pivots of a factorisation are read in three places: when its factors are unpacked, when its
interchanges are made on another matrix, and when a system is solved with its factors. All three put
rows into the same order (`ReadAlike`), for entries without any laws.

Each reader makes the interchanges one after the other, so that each of them arrives at the product
of transpositions `interchanges` (`orderAfter_leading`). On a matrix with several pages the rows of
every page are put into this order; pages that cannot be counted are a fault
(`interchangeRows_of_pages`).
-/

namespace DenseLinear

namespace PagedMatrix

/-! ## Interchanges on all pages -/

section Interchanges

variable {α : Type} {shape : Shape} {kind : NumericKind} {height : Nat} {f : Nat → Nat → α}
  {pivots : Array Nat} {p : Nat → Nat}

/-- Pivots that count rows from one are not mistaken for pivots that count them from zero. -/
theorem pivotBase_succ (pivots : Array Nat) : pivotBase (pivots.map (· + 1)) = 1 := by
  simp [pivotBase]

/-- A pivot that counts rows from one names the row that it is one more than. -/
theorem targetRow_succ {place target : Nat} (h : pivots[place]? = some target) :
    targetRow (pivots.map (· + 1)) place = target := by
  rw [targetRow, pivotBase_succ, Array.getD_eq_getD_getElem?, Array.getElem?_map, h, Option.map_some,
    Option.getD_some, Nat.add_sub_cancel]

/-- The steps of leading rows whose pivots follow each other. -/
theorem steps_leading {count : Nat} (hsome : 0 < count) :
    (InterchangePlan.between 1 count 1).steps = (List.range count).map fun t => (t, t) := by
  have hcount : count - 1 + 1 = count := by omega
  simp [InterchangePlan.steps, InterchangePlan.rowsWithPlaces, InterchangePlan.between, hcount]

/-- The interchanges of leading rows, made one after the other. -/
theorem orderAfter_leading (p : Nat → Nat) (count : Nat) :
    orderAfter ((List.range count).map fun t => (t, p t)) = Lu.interchanges p count := by
  induction count with
  | zero => rfl
  | succ count ih =>
    rw [List.range_succ, List.map_append, orderAfter_append, ih, List.map_singleton,
      orderAfter_cons, orderAfter_nil, mul_one]
    rfl

/-- Without any interchanges the matrix is not looked at. -/
theorem interchangeRows_of_lt (a : PagedMatrix α) {firstRow lastRow : Nat} (hfirst : firstRow ≠ 0)
    (hlt : lastRow < firstRow) {stride : Int} (hstride : stride ≠ 0) (pivots : Array Nat)
    (window : Option (Nat × Nat)) :
    (a.interchangeRows firstRow lastRow pivots stride window).run = .ok (.ok a) := by
  rw [run_interchangeRows, if_neg hfirst, if_neg hstride, if_pos hlt]

/-- Interchanges cannot be made on pages that cannot be counted. -/
theorem interchangeRows_of_pages {a : PagedMatrix α} {fault : Fault}
    (hpages : a.pages = .error fault) {firstRow lastRow : Nat} (hfirst : firstRow ≠ 0)
    (hle : firstRow ≤ lastRow) {stride : Int} (hstride : stride ≠ 0) (pivots : Array Nat)
    (window : Option (Nat × Nat)) :
    (a.interchangeRows firstRow lastRow pivots stride window).run = .error fault := by
  have hlayout : a.layout = .error fault := by
    have h : a.shape.pages = .error fault := hpages
    unfold PagedMatrix.layout Shape.layout
    rw [h]
    rfl
  rw [run_interchangeRows, if_neg hfirst, if_neg hstride, if_neg (by omega), hlayout]
  rfl

variable (kind f) in
/-- The interchanges of leading rows are made on every page. -/
theorem interchangeRows_ofCells (hheight : shape.height = .ok height)
    (hp : ∀ i < pivots.size, pivots[i]? = some (p i) ∧ p i < shape.rows)
    (hsize : pivots.size ≤ shape.rows) (hsome : 0 < pivots.size) (hword : pivots.size < Size.limit) :
    ((ofCells shape kind height f).interchangeRows 1 pivots.size (pivots.map (· + 1)) 1 none).run =
      .ok (.ok (ofCells shape kind height
        fun r c => f (onPages shape.rows (Lu.interchanges p pivots.size) r) c)) := by
  obtain ⟨count, hpages, hcount, hlimit⟩ := exists_pages hheight
  have hlayout : (ofCells shape kind height f).layout = .ok ⟨shape.rows, shape.cols, count⟩ :=
    layout_of_pages hpages
  have hlast : (InterchangePlan.between 1 pivots.size 1).lastPlace = pivots.size - 1 := by
    simp [InterchangePlan.lastPlace, InterchangePlan.between]
  have htarget : ∀ t < pivots.size, targetRow (pivots.map (· + 1)) t = p t := fun t ht =>
    targetRow_succ (hp t ht).1
  rw [run_interchangeRows, if_neg Nat.one_ne_zero, if_neg Int.one_ne_zero, if_neg (by omega), hlayout,
    ok_bind]
  -- the rows and the columns are in range, and there is a pivot for each of the rows
  dsimp only [Option.getD_none]
  rw [if_neg (by omega), if_neg (by omega), hlast, if_neg (by omega), Array.size_map,
    if_neg (by omega), steps_leading hsome]
  refine (run_interchanges_ofCells kind f hcount hlimit (Nat.zero_le _) (Nat.le_refl _) ?_).trans ?_
  · intro step hstep
    obtain ⟨t, ht, rfl⟩ := List.mem_map.1 hstep
    rw [List.mem_range] at ht
    refine ⟨Nat.lt_of_lt_of_le ht hsize, ?_, ?_⟩
    · rwa [Array.size_map]
    · rw [htarget t ht]
      exact (hp t ht).2
  · have hexchanges : ((List.range pivots.size).map fun t => (t, t)).map
        (exchangeOf (pivots.map (· + 1))) = (List.range pivots.size).map fun t => (t, p t) := by
      rw [List.map_map]
      refine List.map_congr_left fun t ht => ?_
      rw [Function.comp_apply, exchangeOf, htarget t (List.mem_range.1 ht)]
    rw [hexchanges, orderAfter_leading]
    exact congrArg (fun b => Except.ok (Except.ok b))
      (ofCells_congr fun r c _ hc => if_pos ⟨Nat.zero_le c, hc⟩)

end Interchanges

end PagedMatrix

namespace Lu

open PagedMatrix

/-! ## The readers of the pivots -/

/-- The rows of the first `count` pages of a matrix, each of `m` rows, are those of another matrix in
the order `σ`. -/
structure RowsOrdered {β : Type} {m : Nat} (σ : Equiv.Perm (Fin m)) (count : Nat)
    (b b' : PagedMatrix β) : Prop where
  /-- The matrices have the same shape. -/
  shape : b'.shape = b.shape
  /-- They have the same kind. -/
  kind : b'.kind = b.kind
  /-- They have the same number of entries. -/
  size : b'.size = b.size
  /-- Row `i` of a page is the old row `σ i` of the page. -/
  row : ∀ page < count, ∀ (i : Fin m) (c : Nat), c < b.cols →
    b'.get (page * m + i) c = b.get (page * m + σ i) c

/-- The readers of the pivots of an `m × n` matrix put rows into the same order `σ`. -/
structure ReadAlike {α ρ : Type} [RealArith ρ] [Scalar α ρ] (m n : Nat) (lu : PagedMatrix α)
    (pivots : Array Nat) (σ : Equiv.Perm (Fin m)) : Prop where
  /-- The factors are unpacked with the matrix of this order, if memory has room for it. -/
  unpacked : Fits α (m * m) → ∃ F, unpack lu pivots = .ok F ∧
    F.permutation.shape = { rows := m, cols := m } ∧
    ∀ i j : Fin m, F.permutation.get i j = .ok (if j = σ i then 1 else 0)
  /-- The interchanges of the pivots, counted from one, put the rows of every page of a matrix into
  this order. If there are interchanges, the stacked rows of that matrix have to be counted. -/
  replayed : ∀ (β ρ' : Type) [Scalar β ρ'] (b : PagedMatrix β), b.Stored → b.rows = m →
    (0 < min m n → ∃ height, b.height = .ok height) →
    ∃ b', (b.interchangeRows 1 (min m n) (pivots.map (· + 1)) 1 none).run = .ok (.ok b') ∧
      ∀ count, b.pages = .ok count → RowsOrdered σ count b b'
  /-- The interchanges on the right-hand sides of a square system put their rows into this order. -/
  solved : n = m → ∀ x : PagedMatrix α, x.Stored → x.height = .ok m →
    ∃ x', (interchangeAll pivots m x).run = .ok (.ok x') ∧ RowsOrdered σ 1 x x'

section Rows

variable {β : Type} {m n count height : Nat} {σ : Equiv.Perm (Fin m)} {τ : Nat → Nat}

theorem rowsOrdered_ofCells (shape : Shape) (kind : NumericKind) (f : Nat → Nat → β)
    (hσ : ∀ i, (σ i : Nat) = τ i) (hheight : height = count * m) :
    RowsOrdered σ count (ofCells shape kind height f)
      (ofCells shape kind height fun r c => f (onPages m τ r) c) where
  shape := rfl
  kind := rfl
  size := by simp [PagedMatrix.size]
  row page hpage i c hc := by
    have hc : c < shape.cols := hc
    have hrow : page * m + i < height := hheight ▸ place_lt hpage i.isLt
    have hrow' : page * m + σ i < height := hheight ▸ place_lt hpage (σ i).isLt
    rw [get_ofCells hrow hc, get_ofCells hrow' hc, onPages_add τ i.isLt, hσ]

variable {record : Record}

/-- The pivots of a well-formed record. -/
theorem WellRecorded.exists_entries (h : WellRecorded m n record) :
    ∃ p : Nat → Nat, ∀ i < record.pivots.size, record.pivots[i]? = some (p i) ∧ p i < m := by
  refine ⟨fun i => record.pivots.getD i 0, fun i hi => ?_⟩
  dsimp only
  rw [Array.getD_eq_getD_getElem?, Array.getElem?_eq_getElem hi]
  exact ⟨rfl, (h.pivot i hi).2⟩

end Rows

section Readers

variable {α ρ : Type} [Scalar α ρ] {m n : Nat} {pivots : Array Nat} {p : Nat → Nat}
  {σ : Equiv.Perm (Fin m)}

/-- The factors are unpacked with the matrix of the order of the rows. -/
theorem exists_unpacked [RealArith ρ] {shape : Shape} {kind : NumericKind} {height : Nat}
    {f : Nat → Nat → α} {σ : Equiv.Perm (Fin shape.rows)} (hrows : shape.rows ≤ height)
    (hlimit : height < Size.limit) (hfits : Fits α (height * shape.cols))
    (hp : ∀ i < pivots.size, pivots[i]? = some (p i) ∧ p i < shape.rows)
    (hsize : pivots.size ≤ shape.rows) (hσ : ∀ i, (σ i : Nat) = interchanges p pivots.size i)
    (hroom : Fits α (shape.rows * shape.rows)) :
    ∃ F, unpack (ofCells shape kind height f) pivots = .ok F ∧
      F.permutation.shape = { rows := shape.rows, cols := shape.rows } ∧
      ∀ i j : Fin shape.rows, F.permutation.get i j = .ok (if j = σ i then 1 else 0) :=
  ⟨_, unpack_ofCells hrows (by omega) (hfits.mono (Nat.mul_le_mul_right _ hrows)) hroom hp hsize,
    rfl, get_permutationCells hσ⟩

/-- The interchanges put the rows of every page into order. -/
theorem exists_replayed {b : PagedMatrix α} (hb : b.Stored) (hrows : b.rows = m)
    (hp : ∀ i < pivots.size, pivots[i]? = some (p i) ∧ p i < m) (hsize : pivots.size ≤ m)
    (hσ : ∀ i, (σ i : Nat) = interchanges p pivots.size i)
    (hcounted : 0 < pivots.size → ∃ height, b.height = .ok height) :
    ∃ b', (b.interchangeRows 1 pivots.size (pivots.map (· + 1)) 1 none).run = .ok (.ok b') ∧
      ∀ count, b.pages = .ok count → RowsOrdered σ count b b' := by
  rcases Nat.eq_zero_or_pos pivots.size with hnone | hsome
  · -- without interchanges every row is in its place
    have hplace : ∀ i, (σ i : Nat) = i := by
      intro i
      rw [hσ, hnone]
      rfl
    refine ⟨b, interchangeRows_of_lt b Nat.one_ne_zero (by omega) Int.one_ne_zero _ none,
      fun count _ => ⟨rfl, rfl, rfl, fun page _ i c _ => ?_⟩⟩
    rw [hplace]
  · obtain ⟨height, hheight⟩ := hcounted hsome
    obtain ⟨count, hpages, hcount, -⟩ := exists_pages hheight
    have hword := hb.rows_lt
    subst hrows
    have hrun := interchangeRows_ofCells b.kind b.cell hheight hp hsize hsome (by omega)
    have hordered := rowsOrdered_ofCells b.shape b.kind b.cell hσ hcount
    rw [← hb.eq_ofCells hheight] at hrun hordered
    refine ⟨_, hrun, fun count' hcount' => ?_⟩
    obtain rfl : count' = count := Except.ok.inj (hcount'.symm.trans hpages)
    exact hordered

/-- The interchanges on right-hand sides put their rows into order. -/
theorem exists_solved {x : PagedMatrix α} (hx : x.Stored) (hheight : x.height = .ok m)
    (hp : ∀ i < pivots.size, pivots[i]? = some (p i) ∧ p i < m) (hsize : pivots.size = m)
    (hσ : ∀ i, (σ i : Nat) = interchanges p pivots.size i) :
    ∃ x', (interchangeAll pivots m x).run = .ok (.ok x') ∧ RowsOrdered σ 1 x x' := by
  subst hsize
  have hrun : (interchangeAll pivots pivots.size
      (ofCells x.shape x.kind pivots.size x.cell)).run = _ := interchangeAll_ofCells rfl hp
  have hordered := rowsOrdered_ofCells x.shape x.kind x.cell hσ (Nat.one_mul _).symm
  -- all rows are those of a single page
  have hcells : AgreeOn pivots.size x.shape.cols
      (fun r c => x.cell (onPages pivots.size (interchanges p pivots.size) r) c)
      fun r c => x.cell (interchanges p pivots.size r) c := by
    intro r c hr _
    dsimp only
    rw [onPages_of_lt _ hr]
  rw [ofCells_congr hcells] at hordered
  rw [← hx.eq_ofCells hheight] at hrun hordered
  exact ⟨_, hrun, hordered⟩

/-- The readers of what a factorisation leaves agree. -/
theorem exists_readAlike [RealArith ρ] {shape : Shape} {height : Nat}
    {found : PagedMatrix α × Record} (h : LeavesRecord shape height found)
    (hrows : shape.rows ≤ height) (hlimit : height < Size.limit)
    (hfits : Fits α (height * shape.cols)) :
    ∃ σ, ReadAlike shape.rows shape.cols found.1 found.2.pivots σ := by
  obtain ⟨⟨kind, g, hmatrix⟩, hrecord⟩ := h
  obtain ⟨p, hp⟩ := hrecord.exists_entries
  have hsize := hrecord.size
  have hle : found.2.pivots.size ≤ shape.rows := hsize.trans_le (Nat.min_le_left _ _)
  obtain ⟨σ, hσ⟩ := exists_perm (fun i hi => (hp i hi).2) hle
  refine ⟨σ, ?_, ?_, ?_⟩
  · intro hroom
    rw [hmatrix]
    exact exists_unpacked hrows hlimit hfits hp hle hσ hroom
  · intro β ρ' _ b hb hbrows hcounted
    rw [← hsize] at hcounted ⊢
    exact exists_replayed hb hbrows hp hle hσ hcounted
  · intro hsquare x hx hheight
    exact exists_solved hx hheight hp (by rw [hsize, hsquare, Nat.min_self]) hσ

end Readers

section Factorisations

variable {α ρ : Type} [RealArith ρ] [Scalar α ρ] {a : PagedMatrix α}

/-- What a factorisation of a matrix leaves has a well-formed record, and all readers take its pivots
for the same order of the rows. -/
structure Readable (a lu : PagedMatrix α) (record : Record) : Prop where
  /-- The record is well formed. -/
  wellRecorded : WellRecorded a.rows a.cols record
  /-- The readers of its pivots agree. -/
  readAlike : ∃ σ, ReadAlike a.rows a.cols lu record.pivots σ

/-- Both factorisations of a matrix with a page leave a record that is well formed and read alike,
under every choice of blocking parameters and in all surroundings. -/
theorem factorisations_readable (ha : a.Stored) (hpage : a.HasPage) (choice : BlockingChoice)
    (ambient : Ambient) (hchoice : choice.Valid) (hambient : ambient.Sound) :
    (∃ lu record after, Runs (factorByProduct choice a) ambient (lu, record) after ∧
      Readable a lu record) ∧
    ∃ lu record after, Runs (factorByTilesWith choice a) ambient (lu, record) after ∧
      Readable a lu record := by
  have hcols := ha.cols_lt
  have hfits := ha.fits
  obtain ⟨shape, kind, height, f, rfl, hrows, hheight, -⟩ := ha.exists_ofCells hpage
  rw [cols_ofCells] at hcols
  rw [PagedMatrix.size, size_ofCells] at hfits
  have hreadable : ∀ found, LeavesRecord shape height found →
      Readable (ofCells shape kind height f) found.1 found.2 := fun found h =>
    ⟨h.2, exists_readAlike h hrows hheight hfits⟩
  obtain ⟨found, after, hfound, -, hproduct⟩ := ends_iff_runs.1
    (ends_factorByProduct_leavesRecord kind hchoice hrows hheight hcols hfits) ambient hambient
  obtain ⟨found', after', hfound', -, htiles⟩ := ends_iff_runs.1
    (ends_factorByTilesWith_leavesRecord kind hchoice hrows hheight hfits) ambient hambient
  exact ⟨⟨_, _, after, hproduct, hreadable found hfound⟩,
    ⟨_, _, after', htiles, hreadable found' hfound'⟩⟩

end Factorisations

/-- The readers of the pivots of a wide matrix of two pages, with an entry that is not a number. -/
theorem factorisations_readable_pivotlessPages :
    pivotlessPages.Stored ∧ pivotlessPages.HasPage ∧ (BlockingChoice.tiled 1).Valid ∧
      ({} : Ambient).Sound ∧
      (∃ lu record after, Runs (factorByProduct (.tiled 1) pivotlessPages) {} (lu, record) after ∧
        Readable pivotlessPages lu record) ∧
      ∃ lu record after, Runs (factorByTilesWith (.tiled 1) pivotlessPages) {} (lu, record) after ∧
        Readable pivotlessPages lu record := by
  have hpage : pivotlessPages.HasPage := by decide
  have hchoice : (BlockingChoice.tiled 1).Valid := BlockingChoice.valid_tiled (by decide) (by decide)
  exact ⟨stored_pivotlessPages, hpage, hchoice, Ambient.sound_initial,
    factorisations_readable stored_pivotlessPages hpage (.tiled 1) {} hchoice Ambient.sound_initial⟩

/-- A matrix with one entry. -/
def single : PagedMatrix Float :=
  ofCells { rows := 1, cols := 1 } .real 1 fun _ _ => 2

/-- A matrix of one row and no columns, with more pages than can be counted. -/
def uncountedPages : PagedMatrix Float :=
  { shape := { rows := 1, cols := 0, trailing := [2 ^ 40, 2 ^ 40] }, data := #[] }

/-- The interchanges of a factorisation cannot be made on more pages than can be counted. -/
theorem interchangeRows_uncountedPages :
    single.Stored ∧ single.HasPage ∧ uncountedPages.Stored ∧ uncountedPages.HasPage ∧
      uncountedPages.rows = single.rows ∧ (BlockingChoice.tiled 1).Valid ∧ ({} : Ambient).Sound ∧
      ∃ lu record after, Runs (factorByTilesWith (.tiled 1) single) {} (lu, record) after ∧
        (uncountedPages.interchangeRows 1 (min single.rows single.cols)
          (record.pivots.map (· + 1)) 1 none).run = .error .overflow := by
  have hfits : Fits Float (1 * 1) := ⟨by decide, by decide⟩
  have hchoice : (BlockingChoice.tiled 1).Valid := BlockingChoice.valid_tiled (by decide) (by decide)
  have hends : Ends (factorByTilesWith (.tiled 1) single)
      (LeavesRecord { rows := 1, cols := 1 } 1) :=
    ends_factorByTilesWith_leavesRecord .real hchoice (Nat.le_refl 1) (by decide) hfits
  obtain ⟨found, after, -, -, hrun⟩ := ends_iff_runs.1 hends {} Ambient.sound_initial
  have hpages : uncountedPages.pages = .error .overflow := rfl
  exact ⟨stored_ofCells (by decide) (by decide) hfits, by decide,
    ⟨rfl, by decide, by decide, by decide⟩, by decide, rfl, hchoice, Ambient.sound_initial,
    found.1, found.2, after, hrun,
    interchangeRows_of_pages hpages Nat.one_ne_zero (Nat.le_refl 1) Int.one_ne_zero _ none⟩

end Lu

end DenseLinear
