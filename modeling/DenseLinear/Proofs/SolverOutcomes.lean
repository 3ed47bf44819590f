import DenseLinear.Proofs.UpdateOutcomes

/-!
# Outcomes of solving

Solving with packed factors looks at its operands before it touches them, in a fixed order: the
factors must be square and have a single page, the right-hand sides must have as many stacked rows
(`Conformal`), and there must be one pivot for each row. The pivots themselves are checked one by
one between the interchanges, so a list that holds an outside row is refused at the first one
(`interchangeAll_refused`). Nothing else is refused and nothing faults, whatever the entries are:
not for a zero on the diagonal, and not for entries that are not numbers.

A factorisation records only pivots that are rows of the matrix, so solving a system is refused for
the extents of its operands alone (`solving_refuses_only_violations`).
-/

namespace DenseLinear

/-- A loop stops at the first step that is refused. -/
theorem ascend_refused {ε σ : Type} {step : Nat → σ → ExceptT ε (Except Fault) σ} {s : σ} {e : ε}
    (I : Nat → σ → Prop) {lo stop hi : Nat} (hle : lo ≤ stop) (hlt : stop < hi) (hs : I lo s)
    (hstep : ∀ i t, lo ≤ i → i < stop → I i t → Ends (step i t) (I (i + 1)))
    (hstop : ∀ t, I stop t → (step stop t).run = .ok (.error e)) :
    (ascend lo hi s step).run = .ok (.error e) := by
  -- the induction is on the number of steps before the refused one
  obtain ⟨d, rfl⟩ : ∃ d, stop = lo + d := ⟨stop - lo, by omega⟩
  clear hle
  induction d generalizing lo s with
  | zero =>
    have hfirst : (step lo s).run = .ok (.error e) := hstop s hs
    rw [ascend_of_lt (by omega), ExceptT.run_bind, hfirst]
    rfl
  | succ d ih =>
    obtain ⟨t, ht, hI⟩ := hstep lo s (Nat.le_refl lo) (by omega) hs
    have hd : lo + (d + 1) = lo + 1 + d := by omega
    rw [hd] at hlt hstep hstop
    rw [ascend_of_lt (by omega), ExceptT.run_bind, ht]
    exact ih hI hlt (fun i u h => hstep i u (by omega)) hstop

namespace Lu

open PagedMatrix

variable {α ρ : Type} [Scalar α ρ] {a b lu : PagedMatrix α} {pivots : Array Nat} {ma mb : Nat}

/-! ## Operands -/

/-- The matrix is square and has a single page, and the right-hand sides have as many stacked
rows. -/
structure Conformal (a b : PagedMatrix α) : Prop where
  /-- The matrix is square. -/
  square : a.cols = a.rows
  /-- The matrix has a single page. -/
  singlePage : a.SinglePage
  /-- The right-hand sides have as many rows, on all pages together. -/
  height : b.height = .ok a.rows

omit [Scalar α ρ] in
/-- A matrix that is not square or has several pages is refused. -/
theorem requireSquare_refused (routine : String) (hma : a.height = .ok ma)
    (h : ¬ (a.cols = a.rows ∧ a.SinglePage)) :
    (requireSquare routine a).run =
      .ok (.error (.extentMismatch routine (a.rows, a.rows) (ma, a.cols))) := by
  unfold requireSquare
  by_cases hsquare : a.cols = a.rows
  · -- the pages can be counted, as the stacked rows can be
    obtain ⟨count, hcount, -, -⟩ := exists_pages hma
    change a.pages = .ok count at hcount
    have hne : count ≠ 1 := by
      rintro rfl
      exact h ⟨hsquare, hcount⟩
    dsimp only
    rw [if_neg (not_not.2 hsquare), hcount, hma]
    change (if count ≠ 1 then _ else _ : Fallible Unit).run = _
    rw [if_pos hne]
    rfl
  · dsimp only
    rw [if_pos hsquare, hma]
    rfl

/-- Pivots that are rows, as they are read one after the other. -/
theorem pivots_eq_getD {n : Nat} (hsize : pivots.size = n) (hall : ∀ p ∈ pivots, p < n) :
    ∀ i < n, pivots[i]? = some (pivots.getD i 0) ∧ pivots.getD i 0 < n := by
  intro i hi
  have hi' : i < pivots.size := hsize.symm ▸ hi
  have hread : pivots[i]? = some (pivots.getD i 0) := by simp [hi']
  exact ⟨hread, hall _ (Array.mem_of_getElem? hread)⟩

omit [Scalar α ρ] in
/-- Pivots are refused at the first one that is not a row. -/
theorem interchangeAll_refused {shape : Shape} {kind : NumericKind} {n p : Nat}
    {f : Nat → Nat → α} (hsize : pivots.size = n)
    (hfirst : pivots.find? (fun p => n ≤ p) = some p) :
    (interchangeAll pivots n (ofCells shape kind n f)).run =
      .ok (.error (.indexOutOfRange "getrs" p n)) := by
  obtain ⟨houtside, stop, hstop, hp, hbefore⟩ := Array.find?_eq_some_iff_getElem.1 hfirst
  have houtside : n ≤ p := by simpa using houtside
  let order := fun i => pivots.getD i 0
  refine ascend_refused
    (fun i x => x = ofCells shape kind n fun r c => f (interchanges order i r) c)
    (Nat.zero_le stop) hstop rfl ?_ ?_
  · -- the interchanges before that one are made
    rintro i _ - hi rfl
    have hi' : i < pivots.size := by omega
    have hread : pivots[i]? = some (order i) := by
      simp [order, hi']
    have hlt : order i < n := by
      have h := hbefore i hi
      simpa [order, hi'] using h
    exact ends_interchange (by omega) hread hlt
  · rintro _ rfl
    rw [readAt_eq_ok hstop, hp]
    change (if n ≤ p then _ else _ : Fallible (PagedMatrix α)).run = _
    rw [if_pos houtside]
    rfl

/-! ## Solving with factors -/

section Factored

variable [RealArith ρ]

/-- Operands whose extents do not fit are refused first. -/
theorem solveFactored_of_not_conformal (pivots : Array Nat) (hma : lu.height = .ok ma)
    (hmb : b.height = .ok mb) (h : ¬ Conformal lu b) : ∃ declared actual,
      (solveFactored lu pivots b).run =
        .ok (.error (.extentMismatch "getrs" declared actual)) := by
  unfold solveFactored
  by_cases hlu : lu.cols = lu.rows ∧ lu.SinglePage
  · have hne : mb ≠ lu.rows := by
      rintro rfl
      exact h ⟨hlu.1, hlu.2, hmb⟩
    refine ⟨(lu.rows, b.cols), (mb, b.cols), ?_⟩
    rw [ExceptT.run_bind, requireSquare_eq_ok hlu.2 hlu.1, hmb]
    change (if mb ≠ lu.rows then _ else _ : Fallible (PagedMatrix α)).run = _
    rw [if_pos hne]
    rfl
  · refine ⟨(lu.rows, lu.rows), (ma, lu.cols), ?_⟩
    rw [ExceptT.run_bind, requireSquare_refused "getrs" hma hlu]
    rfl

/-- With operands that fit, the pivots decide. -/
theorem run_solveFactored_of_conformal (pivots : Array Nat) (h : Conformal lu b) :
    (solveFactored lu pivots b).run = (do
      if pivots.size ≠ lu.rows then
        throw (.lengthMismatch "getrs" lu.rows pivots.size)
      let x ← interchangeAll pivots lu.rows b
      let x ← checked (solveLowerRows lu lu.rows x)
      let x ← checked (solveUpperRows lu lu.rows x)
      return x.refreshKind : Fallible (PagedMatrix α)).run := by
  unfold solveFactored
  rw [ExceptT.run_bind, requireSquare_eq_ok h.singlePage h.square, h.height]
  change (if lu.rows ≠ lu.rows then _ else _ : Fallible (PagedMatrix α)).run = _
  rw [if_neg (not_not.2 rfl)]

/-- Pivots that are not as many as the rows are refused next. -/
theorem solveFactored_of_size_ne (h : Conformal lu b) (hsize : pivots.size ≠ lu.rows) :
    (solveFactored lu pivots b).run =
      .ok (.error (.lengthMismatch "getrs" lu.rows pivots.size)) := by
  rw [run_solveFactored_of_conformal pivots h, if_pos hsize]
  rfl

/-- A pivot that is not a row is refused last, and is the first such one. -/
theorem solveFactored_of_outside {p : Nat} (hb : b.Stored) (h : Conformal lu b)
    (hsize : pivots.size = lu.rows) (hfirst : pivots.find? (fun p => lu.rows ≤ p) = some p) :
    (solveFactored lu pivots b).run = .ok (.error (.indexOutOfRange "getrs" p lu.rows)) := by
  rw [run_solveFactored_of_conformal pivots h, if_neg (not_not.2 hsize), hb.eq_ofCells h.height,
    ExceptT.run_bind, interchangeAll_refused hsize hfirst]
  rfl

/-- In every other case there is a solution, with the dimensions of the right-hand sides. -/
theorem exists_solveFactored (hlu : lu.Stored) (hb : b.Stored) (h : Conformal lu b)
    (hsize : pivots.size = lu.rows) (hall : ∀ p ∈ pivots, p < lu.rows) :
    ∃ x, x.shape = b.shape ∧ (solveFactored lu pivots b).run = .ok (.ok x) := by
  rw [hlu.eq_ofCells_of_singlePage h.singlePage, hb.eq_ofCells h.height]
  refine ⟨_, ?_, solveFactored_ofCells h.singlePage rfl h.square h.height hsize
    (pivots_eq_getD hsize hall)⟩
  rw [refreshKind_ofCells, shape_ofCells, shape_ofCells]

/-- The outcomes of solving with factors, one after the other. -/
theorem solveFactored_outcomes (hlu : lu.Stored) (hb : b.Stored) (hma : lu.height = .ok ma)
    (hmb : b.height = .ok mb) (pivots : Array Nat) :
    let call := (solveFactored lu pivots b).run
    ((∃ declared actual, call = .ok (.error (.extentMismatch "getrs" declared actual))) ↔
      ¬ Conformal lu b) ∧
    (call = .ok (.error (.lengthMismatch "getrs" lu.rows pivots.size)) ↔
      Conformal lu b ∧ pivots.size ≠ lu.rows) ∧
    (∀ p, call = .ok (.error (.indexOutOfRange "getrs" p lu.rows)) ↔
      Conformal lu b ∧ pivots.size = lu.rows ∧ pivots.find? (fun p => lu.rows ≤ p) = some p) ∧
    ((∃ x, x.shape = b.shape ∧ call = .ok (.ok x)) ↔
      Conformal lu b ∧ pivots.size = lu.rows ∧ pivots.find? (fun p => lu.rows ≤ p) = none) := by
  intro call
  by_cases hfit : Conformal lu b
  · by_cases hsize : pivots.size = lu.rows
    · rcases hfirst : pivots.find? (fun p => lu.rows ≤ p) with _ | p
      · have hall : ∀ p ∈ pivots, p < lu.rows := by simpa using hfirst
        obtain ⟨x, hx, hcall⟩ := exists_solveFactored hlu hb hfit hsize hall
        have hcall : call = _ := hcall
        simp [hcall, hfit, hsize, hx]
      · have hcall : call = _ := solveFactored_of_outside hb hfit hsize hfirst
        simp [hcall, hfit, hsize]
    · have hcall : call = _ := solveFactored_of_size_ne hfit hsize
      simp [hcall, hfit, hsize]
  · obtain ⟨declared, actual, hcall⟩ := solveFactored_of_not_conformal pivots hma hmb hfit
    have hcall : call = _ := hcall
    simp [hcall, hfit]

end Factored

/-! ## Solving a system -/

section Systems

variable [RealArith ρ] {ambient : Ambient}

/-- A square matrix is factorised in all sound surroundings. The factors have its dimensions, and
there is a pivot for each row, which is a row. -/
theorem exists_factors (ha : a.Stored) (hpage : a.SinglePage) (hsquare : a.cols = a.rows)
    (hambient : ambient.Sound) : ∃ lu record after,
      Runs (unrefused (factorByTiles a) : ExceptT Refusal Ambience (PagedMatrix α × Record)) ambient
        (lu, record) after ∧
      lu.Stored ∧ lu.shape = a.shape ∧ record.pivots.size = a.rows ∧
        ∀ p ∈ record.pivots, p < a.rows := by
  obtain ⟨⟨lu, record⟩, after, ⟨⟨kind, g, rfl⟩, hrecord⟩, -, hrun⟩ :=
    ends_iff_runs.1 (ends_unrefused (ends_factorByTiles_of_square ha hpage)) ambient hambient
  have hsize : record.pivots.size = a.rows := by
    rw [hrecord.size]
    exact (congrArg (min a.rows) hsquare).trans (Nat.min_self a.rows)
  have hdata : (ofCells a.shape kind a.rows g).data.size = a.data.size := by
    rw [size_ofCells, ha.size_eq (ha.height_eq hpage)]
  refine ⟨_, record, after, hrun, ha.of_shape_eq rfl hdata, rfl, hsize, fun p hp => ?_⟩
  obtain ⟨i, hi, rfl⟩ := Array.mem_iff_getElem.1 hp
  exact (hrecord.pivot i hi).2

/-- A system whose extents do not fit is refused: before anything is read if the matrix is not
square, and after its factorisation otherwise. -/
theorem solve_of_not_conformal (ha : a.Stored) (hma : a.height = .ok ma) (hmb : b.height = .ok mb)
    (h : ¬ Conformal a b) (hambient : ambient.Sound) : ∃ routine declared actual after,
      (solve a b).run.run ambient =
        .ok (.error (.extentMismatch routine declared actual), after) := by
  by_cases hsquare : a.cols = a.rows ∧ a.SinglePage
  · obtain ⟨lu, record, after, hrun, -, hshape, -, -⟩ :=
      exists_factors ha hsquare.2 hsquare.1 hambient
    have hmlu : lu.height = .ok ma := by
      rw [← hma]
      exact congrArg Shape.height hshape
    have hlu : ¬ Conformal lu b := by
      intro hlu
      refine h ⟨hsquare.1, hsquare.2, ?_⟩
      rw [hlu.height]
      exact congrArg (fun shape => Except.ok shape.rows) hshape
    obtain ⟨declared, actual, hrefused⟩ :=
      solveFactored_of_not_conformal record.pivots hmlu hmb hlu
    refine ⟨"getrs", declared, actual, after, ?_⟩
    unfold solve
    refine (Runs.unobserved (requireSquare_eq_ok hsquare.2 hsquare.1)).bind_refused ?_
    refine hrun.bind_refused ?_
    exact RefusedIn.unobserved hrefused after
  · have hrefused := RefusedIn.unobserved (requireSquare_refused "gesv" hma hsquare) ambient
    exact ⟨_, _, _, ambient, hrefused.bind _⟩

/-- Every other system has a solution. -/
theorem exists_runs_solve (ha : a.Stored) (hb : b.Stored) (h : Conformal a b)
    (hambient : ambient.Sound) :
    ∃ x after, x.shape = b.shape ∧ Runs (solve a b) ambient x after := by
  obtain ⟨lu, record, after, hrun, hlu, hshape, hsize, hall⟩ :=
    exists_factors ha h.singlePage h.square hambient
  have hrows : lu.rows = a.rows := congrArg Shape.rows hshape
  have hfit : Conformal lu b := by
    refine ⟨?_, ?_, hrows ▸ h.height⟩
    · rw [hrows, ← h.square]
      exact congrArg Shape.cols hshape
    · exact (congrArg Shape.pages hshape).trans h.singlePage
  obtain ⟨x, hx, hsolved⟩ := exists_solveFactored hlu hb hfit (hrows ▸ hsize) (hrows ▸ hall)
  exact ⟨x, after, hx, (Runs.unobserved (requireSquare_eq_ok h.singlePage h.square)).bind
    (hrun.bind (Runs.unobserved hsolved))⟩

/-- Solving with factors refuses operands whose extents do not fit, then pivots that are not as many
as the rows, then the first pivot that is not a row. In every other case it has a solution with the
dimensions of the right-hand sides, whatever the entries are. Solving a system refuses exactly
operands whose extents do not fit. -/
theorem solving_refuses_only_violations (ha : a.Stored) (hb : b.Stored) (hma : a.height = .ok ma)
    (hmb : b.height = .ok mb) (pivots : Array Nat) (hambient : ambient.Sound) :
    let call := (solveFactored a pivots b).run
    ((∃ declared actual, call = .ok (.error (.extentMismatch "getrs" declared actual))) ↔
      ¬ Conformal a b) ∧
    (call = .ok (.error (.lengthMismatch "getrs" a.rows pivots.size)) ↔
      Conformal a b ∧ pivots.size ≠ a.rows) ∧
    (∀ p, call = .ok (.error (.indexOutOfRange "getrs" p a.rows)) ↔
      Conformal a b ∧ pivots.size = a.rows ∧ pivots.find? (fun p => a.rows ≤ p) = some p) ∧
    ((∃ x, x.shape = b.shape ∧ call = .ok (.ok x)) ↔
      Conformal a b ∧ pivots.size = a.rows ∧ ∀ p ∈ pivots, p < a.rows) ∧
    ((∃ routine declared actual after, (solve a b).run.run ambient =
        .ok (.error (.extentMismatch routine declared actual), after)) ↔ ¬ Conformal a b) ∧
    ((∃ x after, x.shape = b.shape ∧ Runs (solve a b) ambient x after) ↔ Conformal a b) := by
  intro call
  obtain ⟨hextents, hlength, hpivot, hsuccess⟩ := solveFactored_outcomes ha hb hma hmb pivots
  have hinside : pivots.find? (fun p => a.rows ≤ p) = none ↔ ∀ p ∈ pivots, p < a.rows := by
    simp
  rw [hinside] at hsuccess
  refine ⟨hextents, hlength, hpivot, hsuccess, ?_, ?_⟩
  · constructor
    · rintro ⟨routine, declared, actual, last, hrefused⟩ hfit
      obtain ⟨x, after, -, hrun⟩ := exists_runs_solve ha hb hfit hambient
      rw [Runs, hrefused] at hrun
      cases hrun
    · intro hfit
      exact solve_of_not_conformal ha hma hmb hfit hambient
  · constructor
    · rintro ⟨x, after, -, hrun⟩
      by_contra hfit
      obtain ⟨routine, declared, actual, last, hrefused⟩ :=
        solve_of_not_conformal ha hma hmb hfit hambient
      rw [Runs, hrefused] at hrun
      cases hrun
    · intro hfit
      exact exists_runs_solve ha hb hfit hambient

/-- Factors with a zero and entries that are not numbers, and right-hand sides on two pages. -/
theorem solving_refuses_only_violations_singularSquare :
    singularSquare.Stored ∧ nanPages.Stored ∧ shortRow.Stored ∧ contended.Sound ∧
      Conformal singularSquare nanPages ∧ ¬ Conformal singularSquare shortRow ∧
      (∃ declared actual, (solveFactored singularSquare #[1] shortRow).run =
        .ok (.error (.extentMismatch "getrs" declared actual))) ∧
      (solveFactored singularSquare #[1] nanPages).run =
        .ok (.error (.lengthMismatch "getrs" 2 1)) ∧
      (solveFactored singularSquare #[1, 7] nanPages).run =
        .ok (.error (.indexOutOfRange "getrs" 7 2)) ∧
      (∃ x, x.shape = nanPages.shape ∧
        (solveFactored singularSquare #[1, 1] nanPages).run = .ok (.ok x)) ∧
      (∃ routine declared actual after, (solve singularSquare shortRow).run.run contended =
        .ok (.error (.extentMismatch routine declared actual), after)) ∧
      ∃ x after, x.shape = nanPages.shape ∧
        Runs (solve singularSquare nanPages) contended x after := by
  have hstored : singularSquare.Stored := ⟨rfl, by decide, by decide, by decide⟩
  have hpages : nanPages.Stored := ⟨rfl, by decide, by decide, by decide⟩
  have hrow : shortRow.Stored := ⟨rfl, by decide, by decide, by decide⟩
  have hsound : contended.Sound :=
    Ambient.sound_amid (by simp [Size.limit]) (by simp [Size.limit])
  have hfit : Conformal singularSquare nanPages := ⟨rfl, rfl, rfl⟩
  have hunfit : ¬ Conformal singularSquare shortRow := by
    rintro ⟨-, -, h⟩
    cases h
  have hrefused := solving_refuses_only_violations hstored hrow rfl rfl #[1] hsound
  have hshort := solving_refuses_only_violations hstored hpages rfl rfl #[1] hsound
  have houtside := solving_refuses_only_violations hstored hpages rfl rfl #[1, 7] hsound
  have hgood := solving_refuses_only_violations hstored hpages rfl rfl #[1, 1] hsound
  exact ⟨hstored, hpages, hrow, hsound, hfit, hunfit, hrefused.1.2 hunfit,
    hshort.2.1.2 ⟨hfit, by decide⟩, (houtside.2.2.1 7).2 ⟨hfit, rfl, by decide⟩,
    hgood.2.2.2.1.2 ⟨hfit, rfl, by decide⟩, hrefused.2.2.2.2.1.2 hunfit,
    hgood.2.2.2.2.2.2 hfit⟩

end Systems

end Lu

end DenseLinear
