import DenseLinear.Proofs.ExactReals
import DenseLinear.Proofs.RingProducts
import DenseLinear.Proofs.Solving
import DenseLinear.Proofs.SolverOutcomes

/-!
# Substitution on a panel

Triangular systems are solved in two places, and in two orders. Solving with packed factors goes
through the rows, takes each multiple off a whole row and skips entries of the triangle that are
zero. On a panel, where the right-hand sides stand to the right of the triangle, one column is solved
after the other, and nothing is skipped.

Both are told by the states of a single column, whatever the entries are. Back substitution on a
panel replaces the rows of a column from the last one on (`backwardColumn`, `solveUpper_ofCells`),
as forward substitution does from the first one on. Each row reads rows of the solution that are
finished and its own old entry. Over a ring nothing is lost by skipping zeros, so the two places
agree (`solveFactored_eq_panel`), for every quotient, also by zero.
-/

namespace DenseLinear

namespace PagedMatrix

variable {α ρ : Type} [Scalar α ρ] {shape : Shape} {kind : NumericKind} {height : Nat}
  {f : Nat → Nat → α}

/-! ## Back substitution -/

/-- A column of right-hand sides after its last `count` rows before row `stop` have been replaced by
the solution, where row `i` of the system is `U i`. -/
def backwardColumn (U : Nat → Nat → α) (stop : Nat) (b : Nat → α) : Nat → Nat → α
  | 0 => b
  | count + 1 =>
    let x := backwardColumn U stop b count
    let i := stop - (count + 1)
    Function.update x i (Scalar.quotient (takeOff (U i) x (i + 1) stop (x i)) (U i i))

/-- Back substitution leaves the other rows alone. -/
theorem backwardColumn_of_outside (U : Nat → Nat → α) (b : Nat → α) {stop count r : Nat}
    (hcount : count ≤ stop) (hr : r < stop - count ∨ stop ≤ r) :
    backwardColumn U stop b count r = b r := by
  induction count with
  | zero => rfl
  | succ count ih =>
    rw [backwardColumn, Function.update_of_ne (by omega)]
    exact ih (by omega) (by omega)

/-- The cells after back substitution in the columns from `k + width` on. -/
def backwardSolved (k width : Nat) (f : Nat → Nat → α) : Nat → Nat → α :=
  fun r c =>
    if k + width ≤ c then backwardColumn f (k + width) (fun i => f i c) width r else f r c

/-- Back substitution changes nothing but the rows of the system to the right of it. -/
theorem backwardSolved_outside {k width r c : Nat} {f : Nat → Nat → α}
    (h : ¬((k ≤ r ∧ r < k + width) ∧ k + width ≤ c)) : backwardSolved k width f r c = f r c := by
  unfold backwardSolved
  split
  · exact backwardColumn_of_outside f _ (Nat.le_add_left width k) (by omega)
  · rfl

/-- Back substitution in a column to the right of the triangle. -/
theorem backwardColumn_ofCells {k width j : Nat} {F : Nat → Nat → α} (hrows : k + width ≤ height)
    (hj : k + width ≤ j) (hj' : j < shape.cols)
    (hF : ∀ r c, c < k + width ∨ c = j → F r c = f r c) :
    descend k (k + width) (ofCells shape kind height F) (fun i a => do
        let x ← a.subtractProducts i j (i + 1) (k + width) (← a.get i j)
        a.set i j (Scalar.quotient x (← a.get i i))) =
      .ok (ofCells shape kind height fun r c =>
        if c = j then backwardColumn f (k + width) (fun i => f i c) width r else F r c) := by
  -- the rows from `i` on are finished
  refine descend_eq_ok (fun i => ofCells shape kind height fun r c =>
    if c = j then backwardColumn f (k + width) (fun i => f i c) (k + width - i) r else F r c)
    (Nat.le_add_right k width) ?_ ?_ ?_
  · refine ofCells_congr fun r c _ _ => ?_
    simp only [Nat.sub_self, backwardColumn]
    split
    · rename_i h
      exact (hF r c (.inr h)).symm
    · rfl
  · simp only [Nat.add_sub_cancel_left]
  intro i hi hi'
  have hcount : k + width - i = k + width - (i + 1) + 1 := by omega
  have hrow : k + width - (k + width - (i + 1) + 1) = i := by omega
  rw [get_ofCells (by omega) hj', ok_bind,
    subtractProducts_ofCells (by omega) hj' (by omega) hrows (by omega), ok_bind,
    get_ofCells (by omega) (by omega), ok_bind, set_ofCells (by omega) hj']
  refine congrArg Except.ok (ofCells_congr fun r c _ _ => ?_)
  unfold setCell
  by_cases hc : c = j
  · subst hc
    simp only [and_true, if_true, hcount, backwardColumn, hrow, Function.update_apply]
    split
    · -- the triangle is in columns that are left alone
      have htriangle : ∀ l, l < k + width → ∀ x, (if l = c then x else F i l) = f i l := by
        intro l hl x
        rw [if_neg (by omega)]
        exact hF i l (.inl hl)
      rw [htriangle i hi', takeOff_congr (fun l _ hl => htriangle l hl _) fun l _ _ => rfl]
    · rfl
  · simp only [hc, and_false, if_false]

/-- Back substitution solves one column after the other. -/
theorem solveUpper_ofCells {k width : Nat} (hrows : k + width ≤ height)
    (hcols : k + width ≤ shape.cols) (hheight : height < Size.limit) :
    (ofCells shape kind height f).solveUpper k width =
      .ok (ofCells shape kind height (backwardSolved k width f)) := by
  unfold solveUpper
  rw [Size.add_eq_ok (by omega), ok_bind]
  exact ascend_columns_ofCells (fun r c => backwardColumn f (k + width) (fun i => f i c) width r)
    hcols fun j F hj hj' hF => backwardColumn_ofCells hrows hj hj' hF

/-! ## Matrices side by side -/

/-- The matrix `whole` has the columns of `left` followed by those of `right`. -/
structure SideBySide (left right whole : PagedMatrix α) : Prop where
  /-- It is a matrix in memory. -/
  stored : whole.Stored
  /-- It has a single page. -/
  singlePage : whole.SinglePage
  /-- It has the rows of the left matrix. -/
  rows_eq : whole.rows = left.rows
  /-- It has the columns of both. -/
  cols_eq : whole.cols = left.cols + right.cols
  /-- The first columns are those of the left matrix. -/
  get_left : ∀ r c, r < left.rows → c < left.cols → whole.get r c = left.get r c
  /-- The other columns are those of the right matrix. -/
  get_right : ∀ r c, r < left.rows → c < right.cols → whole.get r (left.cols + c) = right.get r c

/-- The cells `f` in the first `n` columns and the cells `g` to the right of them. -/
def sideBySideCells (n : Nat) (f g : Nat → Nat → α) : Nat → Nat → α :=
  fun r c => if c < n then f r c else g r (c - n)

theorem sideBySideCells_left {n r c : Nat} (g : Nat → Nat → α) (hc : c < n) :
    sideBySideCells n f g r c = f r c :=
  if_pos hc

theorem sideBySideCells_right {n r c : Nat} (f : Nat → Nat → α) {g : Nat → Nat → α} (hc : n ≤ c) :
    sideBySideCells n f g r c = g r (c - n) :=
  if_neg (Nat.not_lt.2 hc)

variable {leftShape rightShape : Shape} {leftKind rightKind : NumericKind} {n : Nat}
  {g : Nat → Nat → α} {whole : PagedMatrix α}

/-- A matrix has two matrices beside each other if it is made of their cells. -/
theorem sideBySide_of_cells (hrows : leftShape.rows = n) (hstored : whole.Stored)
    (hpage : whole.SinglePage) (hn : whole.rows = n)
    (hcols : whole.cols = leftShape.cols + rightShape.cols)
    (hwhole : whole = ofCells whole.shape whole.kind n (sideBySideCells leftShape.cols f g)) :
    SideBySide (ofCells leftShape leftKind n f) (ofCells rightShape rightKind n g) whole := by
  refine ⟨hstored, hpage, hn.trans hrows.symm, hcols, fun r c hr hc => ?_, fun r c hr hc => ?_⟩
  · rw [rows_ofCells, hrows] at hr
    rw [cols_ofCells] at hc
    have hc' : c < whole.shape.cols :=
      Nat.lt_of_lt_of_eq (Nat.lt_add_right rightShape.cols hc) hcols.symm
    rw [hwhole, get_ofCells hr hc', get_ofCells hr hc, sideBySideCells_left g hc]
  · rw [rows_ofCells, hrows] at hr
    rw [cols_ofCells] at hc ⊢
    have hc' : leftShape.cols + c < whole.shape.cols :=
      Nat.lt_of_lt_of_eq (Nat.add_lt_add_left hc leftShape.cols) hcols.symm
    rw [hwhole, get_ofCells hr hc', get_ofCells hr hc,
      sideBySideCells_right f (Nat.le_add_right _ c), Nat.add_sub_cancel_left]

/-- It is made of nothing else. -/
theorem SideBySide.eq_ofCells (hrows : leftShape.rows = n)
    (h : SideBySide (ofCells leftShape leftKind n f) (ofCells rightShape rightKind n g) whole) :
    whole = ofCells whole.shape whole.kind n (sideBySideCells leftShape.cols f g) := by
  have hn : whole.rows = n := h.rows_eq.trans hrows
  have hwhole : whole = ofCells whole.shape whole.kind n whole.cell := by
    rw [← hn]
    exact h.stored.eq_ofCells_of_singlePage h.singlePage
  have hcell : ∀ r c, r < n → c < whole.cols → whole.get r c = .ok (whole.cell r c) := by
    intro r c hr hc
    calc whole.get r c
      _ = (ofCells whole.shape whole.kind n whole.cell).get r c := by rw [← hwhole]
      _ = .ok (whole.cell r c) := get_ofCells hr hc
  have hcols := h.cols_eq
  rw [cols_ofCells, cols_ofCells] at hcols
  refine hwhole.trans (ofCells_congr fun r c hr hc => ?_)
  change c < whole.cols at hc
  rcases Nat.lt_or_ge c leftShape.cols with hleft | hright
  · have hget := h.get_left r c (hrows ▸ hr) hleft
    rw [hcell r c hr hc, get_ofCells hr hleft] at hget
    rw [sideBySideCells_left g hleft]
    exact Except.ok.inj hget
  · have hc' : c - leftShape.cols < rightShape.cols := by omega
    have hplace : leftShape.cols + (c - leftShape.cols) = c := by omega
    have hget := h.get_right r (c - leftShape.cols) (hrows ▸ hr) hc'
    rw [cols_ofCells, hplace, hcell r c hr hc, get_ofCells hr hc'] at hget
    rw [sideBySideCells_right f hright]
    exact Except.ok.inj hget

end PagedMatrix

namespace Lu

open PagedMatrix

/-! ## Skipping zeros -/

section Columns

variable {K R : Type} [RingScalar K R] {n count : Nat}

/-- Over a ring it makes no difference to skip the factors that are zero. -/
theorem takeOffSkipping_eq_takeOff {x x' : Nat → K} {start stop : Nat}
    (hx : ∀ l, start ≤ l → l < stop → x l = x' l) (y : Nat → K) (acc : K) :
    takeOffSkipping x y start stop acc = takeOff x' y start stop acc := by
  unfold takeOffSkipping takeOff
  refine List.foldl_ext _ _ _ fun acc l hl => ?_
  rw [List.mem_range'_1] at hl
  rw [← hx l hl.1 (by omega)]
  split
  · rename_i hzero
    rw [(RingScalar.beq_iff _ _).1 hzero, zero_mul, sub_zero]
  · rfl

/-- Forward substitution by rows is forward substitution by columns. It looks below the diagonal
only. -/
theorem lowerColumn_eq_forwardColumn {L L' : Nat → Nat → K}
    (hL : ∀ r c, r < n → c < r → L r c = L' r c) (b : Nat → K) (hcount : count ≤ n) :
    lowerColumn L b count = forwardColumn L' 0 b count := by
  induction count with
  | zero => rfl
  | succ count ih =>
    rw [lowerColumn, forwardColumn, ih (by omega), Nat.zero_add,
      takeOffSkipping_eq_takeOff fun l _ hl => hL count l (by omega) hl]

/-- Back substitution by rows is back substitution by columns. It looks at the upper triangle
only. -/
theorem upperColumn_eq_backwardColumn {U U' : Nat → Nat → K}
    (hU : ∀ r c, r ≤ c → c < n → U r c = U' r c) (y : Nat → K) (hcount : count ≤ n) :
    upperColumn U n y count = backwardColumn U' n y count := by
  induction count with
  | zero => rfl
  | succ count ih =>
    rw [upperColumn, backwardColumn, ih (by omega), hU (n - (count + 1)) _ (Nat.le_refl _)
      (by omega), takeOffSkipping_eq_takeOff fun l hl hl' => hU (n - (count + 1)) l (by omega) hl']

/-- Forward substitution on a panel replaces the right part by what it makes of its columns. -/
theorem forwardSolved_sideBySideCells (n : Nat) (f g : Nat → Nat → K) :
    forwardSolved 0 n (sideBySideCells n f g) =
      sideBySideCells n f fun r c => lowerColumn f (fun i => g i c) n r := by
  funext r c
  unfold forwardSolved
  rcases Nat.lt_or_ge c n with hleft | hright
  · rw [if_neg (by omega), sideBySideCells_left _ hleft, sideBySideCells_left _ hleft]
  · have htriangle : ∀ i l, i < n → l < i → f i l = sideBySideCells n f g i l :=
      fun i l _ _ => (sideBySideCells_left g (by omega)).symm
    rw [if_pos (by omega), ← lowerColumn_eq_forwardColumn htriangle _ (Nat.le_refl n),
      sideBySideCells_right f hright]
    simp only [sideBySideCells_right f hright]

/-- So does back substitution. -/
theorem backwardSolved_sideBySideCells (n : Nat) (f g : Nat → Nat → K) :
    backwardSolved 0 n (sideBySideCells n f g) =
      sideBySideCells n f fun r c => upperColumn f n (fun i => g i c) n r := by
  funext r c
  unfold backwardSolved
  rcases Nat.lt_or_ge c n with hleft | hright
  · rw [if_neg (by omega), sideBySideCells_left _ hleft, sideBySideCells_left _ hleft]
  · have htriangle : ∀ i l, i ≤ l → l < n → f i l = sideBySideCells n f g i l :=
      fun i l _ hl => (sideBySideCells_left g hl).symm
    rw [if_pos (by omega), Nat.zero_add,
      ← upperColumn_eq_backwardColumn htriangle _ (Nat.le_refl n), sideBySideCells_right f hright]
    simp only [sideBySideCells_right f hright]

end Columns

/-! ## Agreement -/

section Agreement

variable {K R : Type} [RingScalar K R] {lu b : PagedMatrix K} {pivots : Array Nat}

/-- The rows are exchanged one pair after the other. -/
theorem swapRows_pivots {shape : Shape} {kind : NumericKind} {n : Nat} {p : Nat → Nat}
    {f : Nat → Nat → K} (hp : ∀ i < n, pivots[i]? = some (p i) ∧ p i < n) :
    (ascend 0 n (ofCells shape kind n f) fun i x => do x.swapRows i (← readAt pivots i)) =
      .ok (ofCells shape kind n fun r c => f (interchanges p n r) c) := by
  refine ascend_ofCells (fun i r c => f (interchanges p i r) c) (Nat.zero_le n)
    (fun r c _ _ => rfl) (fun r c _ _ => rfl) ?_
  intro i _ hi
  obtain ⟨hread, hlt⟩ := hp i hi
  rw [readAt_of_getElem? hread, ok_bind, swapRows_ofCells hi hlt]
  rfl

/-- A panel has room for the factors and the right-hand sides if memory has. -/
theorem exists_sideBySide {shape shape' : Shape} {kind kind' : NumericKind} {n : Nat}
    {f g : Nat → Nat → K} (hrows : shape.rows = n) (hcols : shape.cols = n) (hn : n < Size.limit)
    (hcols' : shape'.cols < Size.limit) (hfits : Fits K (n * (n + shape'.cols))) :
    ∃ panel, SideBySide (ofCells shape kind n f) (ofCells shape' kind' n g) panel := by
  have hwidth : n + shape'.cols < Size.limit := by
    rcases Nat.eq_zero_or_pos n with rfl | hpos
    · rwa [Nat.zero_add]
    · exact (Nat.le_mul_of_pos_left _ hpos).trans_lt hfits.lt_limit
  have hstored : (ofCells { rows := n, cols := n + shape'.cols } .real n
      (sideBySideCells shape.cols f g)).Stored := stored_ofCells hn hwidth hfits
  exact ⟨_, sideBySide_of_cells hrows hstored rfl rfl (by rw [hcols]; rfl) rfl⟩

/-- Both substitutions on a panel solve each column to the right of the factors, and leave the
factors alone. -/
theorem solve_sideBySide {shape shape' : Shape} {kind kind' : NumericKind} {n : Nat}
    {f g : Nat → Nat → K} {panel : PagedMatrix K} (hrows : shape.rows = n) (hcols : shape.cols = n)
    (hn : n < Size.limit) (kind'' : NumericKind)
    (h : SideBySide (ofCells shape kind n f) (ofCells shape' kind' n g) panel) :
    ∃ lower solved, panel.solveUnitLower 0 n = .ok lower ∧ lower.solveUpper 0 n = .ok solved ∧
      SideBySide (ofCells shape kind n f) (ofCells shape' kind'' n fun r c =>
        upperColumn f n (lowerColumn f (fun i => g i c) n) n r) solved := by
  have hpanel := h.eq_ofCells hrows
  have hwidth := h.cols_eq
  rw [cols_ofCells, cols_ofCells, hcols] at hwidth
  rw [hcols] at hpanel
  have hreach : 0 + n ≤ panel.shape.cols := by
    rw [Nat.zero_add]
    exact (Nat.le_add_right n shape'.cols).trans hwidth.ge
  have hlower : (ofCells panel.shape panel.kind n (sideBySideCells n f g)).solveUnitLower 0 n =
      .ok _ := solveUnitLower_ofCells (Nat.zero_add n).le hreach hn
  rw [← hpanel, forwardSolved_sideBySideCells] at hlower
  have hupper : (ofCells panel.shape panel.kind n (sideBySideCells n f fun r c =>
      lowerColumn f (fun i => g i c) n r)).solveUpper 0 n = .ok _ :=
    solveUpper_ofCells (Nat.zero_add n).le hreach hn
  rw [backwardSolved_sideBySideCells] at hupper
  refine ⟨_, _, hlower, hupper, sideBySide_of_cells hrows (h.stored.of_shape_eq rfl ?_) h.singlePage
    (h.rows_eq.trans hrows) (hcols ▸ hwidth) (by rw [hcols]; rfl)⟩
  -- the buffer keeps its size
  rw [size_ofCells, hpanel, size_ofCells]
  rfl

variable [RealArith R]

/-- Solving with packed factors is substitution on the panel that has the right-hand sides, in the
order of the rows of the factors, to the right of the factors: it leaves the solution to the right
of the same factors. This holds over every ring and for every quotient, also by zero. -/
theorem solveFactored_eq_panel (hlu : lu.Stored) (hb : b.Stored) (hfit : Conformal lu b)
    (hsize : pivots.size = lu.rows) (hall : ∀ p ∈ pivots, p < lu.rows) :
    ∃ swapped x,
      (ascend 0 lu.rows b fun i x => do x.swapRows i (← readAt pivots i)) = .ok swapped ∧
      (solveFactored lu pivots b).run = .ok (.ok x) ∧ x.shape = b.shape ∧
      (Fits K (lu.rows * (lu.rows + b.cols)) → ∃ panel, SideBySide lu swapped panel) ∧
      ∀ panel, SideBySide lu swapped panel → ∃ lower solved,
        panel.solveUnitLower 0 lu.rows = .ok lower ∧ lower.solveUpper 0 lu.rows = .ok solved ∧
        SideBySide lu x solved := by
  obtain ⟨shape, kind, f, rfl⟩ : ∃ shape kind f, lu = ofCells shape kind shape.rows f :=
    ⟨_, _, _, hlu.eq_ofCells_of_singlePage hfit.singlePage⟩
  obtain ⟨shape', kind', g, rfl⟩ : ∃ shape' kind' g, b = ofCells shape' kind' shape.rows g :=
    ⟨_, _, _, hb.eq_ofCells hfit.height⟩
  have hpivots := pivots_eq_getD hsize hall
  refine ⟨_, _, swapRows_pivots hpivots, solveFactored_ofCells hfit.singlePage rfl hfit.square
    hfit.height hsize hpivots, rfl, fun hroom => ?_, fun panel hpanel => ?_⟩
  · exact exists_sideBySide rfl hfit.square hlu.rows_lt hb.cols_lt hroom
  · exact solve_sideBySide rfl hfit.square hlu.rows_lt _ hpanel

end Agreement

/-- Factors with a zero on the diagonal, and right-hand sides on two pages. -/
theorem solveFactored_eq_panel_leadingZero :
    leadingZero.Stored ∧ pagedReals.Stored ∧ Conformal leadingZero pagedReals ∧
      (∀ p ∈ #[1, 1], p < 2) ∧ Fits ℝ (2 * (2 + 1)) ∧
      ∃ swapped x panel lower solved,
        (ascend 0 2 pagedReals fun i x => do x.swapRows i (← readAt #[1, 1] i)) = .ok swapped ∧
        (solveFactored leadingZero #[1, 1] pagedReals).run = .ok (.ok x) ∧
        SideBySide leadingZero swapped panel ∧ panel.solveUnitLower 0 2 = .ok lower ∧
        lower.solveUpper 0 2 = .ok solved ∧ SideBySide leadingZero x solved := by
  have hsides : pagedReals.Stored := ⟨rfl, by decide, by decide, by decide⟩
  have hfit : Conformal leadingZero pagedReals := ⟨rfl, rfl, rfl⟩
  have hall : ∀ p ∈ #[1, 1], p < 2 := by decide
  have hroom : Fits ℝ (2 * (2 + 1)) := ⟨by decide, by decide⟩
  obtain ⟨swapped, x, hswapped, hx, -, hpanel, hsolve⟩ :=
    solveFactored_eq_panel stored_leadingZero hsides hfit rfl hall
  obtain ⟨panel, hbeside⟩ := hpanel hroom
  obtain ⟨lower, solved, hlower, hsolved, hresult⟩ := hsolve panel hbeside
  exact ⟨stored_leadingZero, hsides, hfit, hall, hroom, swapped, x, panel, lower, solved, hswapped,
    hx, hbeside, hlower, hsolved, hresult⟩

end Lu

end DenseLinear
