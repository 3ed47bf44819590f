import DenseLinear.Proofs.InterchangeReplay

/-!
# Calls for interchanges

A call for interchanges whose rows, columns and pivots are there makes exactly its steps, in every
page and within its window (`interchangeRows_makes_steps`). In general it has three outcomes
(`interchangeRows_outcome`): it is made, or it is refused because something is wrong with it
(`Violation`), or the place of its last pivot is not a machine word, and then there is a fault
(`PlaceOverflows`). An exchange of two rows is such a call with a list of pivots that is made for it;
it faults if there is no room for the list (`exchangeRows_outcome`).
-/

namespace DenseLinear

namespace PagedMatrix

section Calls

variable {α ρ : Type} [Scalar α ρ] {a b : PagedMatrix α} {pivots : Array Nat}
  {firstRow lastRow : Nat} {stride : Int} {window : Option (Nat × Nat)}

/-! ## What a call asks for -/

/-- The rows and the columns that a call for interchanges asks for are those of the matrix. -/
structure WithinMatrix (a : PagedMatrix α) (firstRow lastRow : Nat) (window : Option (Nat × Nat)) :
    Prop where
  first_pos : 1 ≤ firstRow
  first_le : firstRow ≤ lastRow
  last_le : lastRow ≤ a.rows
  start_le : (window.getD (0, a.cols)).1 ≤ (window.getD (0, a.cols)).2
  stop_le : (window.getD (0, a.cols)).2 ≤ a.cols

/-- What is wrong with a call for interchanges. -/
inductive Violation (a : PagedMatrix α) (firstRow lastRow : Nat) (pivots : Array Nat) (stride : Int)
    (window : Option (Nat × Nat)) : Prop
  /-- Rows are counted from one. -/
  | firstRow : firstRow = 0 → Violation a firstRow lastRow pivots stride window
  /-- The pivots are at different places. -/
  | stride : stride = 0 → Violation a firstRow lastRow pivots stride window
  /-- There is no such row. -/
  | row : firstRow ≤ lastRow → a.rows < lastRow → Violation a firstRow lastRow pivots stride window
  /-- The window ends before it starts. -/
  | window : firstRow ≤ lastRow → (window.getD (0, a.cols)).2 < (window.getD (0, a.cols)).1 →
    Violation a firstRow lastRow pivots stride window
  /-- There is no such column. -/
  | column : firstRow ≤ lastRow → a.cols < (window.getD (0, a.cols)).2 →
    Violation a firstRow lastRow pivots stride window
  /-- The list of pivots is too short. -/
  | place : firstRow ≤ lastRow →
    pivots.size ≤ (InterchangePlan.between firstRow lastRow stride).lastPlace →
    Violation a firstRow lastRow pivots stride window
  /-- A pivot names no row of the matrix. -/
  | pivot {step : Nat × Nat} : firstRow ≤ lastRow →
    step ∈ (InterchangePlan.between firstRow lastRow stride).steps →
    a.rows ≤ targetRow pivots step.2 → Violation a firstRow lastRow pivots stride window

/-- The rows and the columns of a call for interchanges are those of the matrix, but the place of the
last pivot is not a machine word. -/
structure PlaceOverflows (a : PagedMatrix α) (firstRow lastRow : Nat) (stride : Int)
    (window : Option (Nat × Nat)) : Prop extends WithinMatrix a firstRow lastRow window where
  place : Size.limit ≤ (InterchangePlan.between firstRow lastRow stride).lastPlace

/-- The matrix `b` is `a` after interchanges of rows of every page within the columns
`[start, stop)`. -/
structure Interchanged (start stop : Nat) (exchanges : List (Nat × Nat)) (a b : PagedMatrix α) :
    Prop where
  /-- The matrices have the same shape. -/
  shape : b.shape = a.shape
  /-- They have the same kind. -/
  kind : b.kind = a.kind
  /-- They have the same number of entries. -/
  size : b.size = a.size
  /-- The entries of a column of a page within the window are exchanged one after the other. -/
  inside : ∀ count, a.pages = .ok count → ∀ page < count, ∀ c, start ≤ c → c < stop →
    ∀ i < a.rows, b.get (page * a.rows + i) c =
      exchanges.foldl (fun column exchange => column ∘ Equiv.swap exchange.1 exchange.2)
        (fun i => a.get (page * a.rows + i) c) i
  /-- Columns outside of the window are as they were. -/
  outside : ∀ r c, c < a.cols → ¬(start ≤ c ∧ c < stop) → b.get r c = a.get r c

/-! ## The steps of a call -/

omit [Scalar α ρ] in
theorem interchanged_rearranged {shape : Shape} (kind : NumericKind) {height : Nat}
    (f : Nat → Nat → α) (start : Nat) {stop : Nat} {exchanges : List (Nat × Nat)}
    (hheight : shape.height = .ok height) (hstop : stop ≤ shape.cols)
    (hexchanges : ∀ exchange ∈ exchanges, exchange.1 < shape.rows ∧ exchange.2 < shape.rows) :
    Interchanged start stop exchanges (ofCells shape kind height f)
      (ofCells shape kind height
        (rearranged start stop (onPages shape.rows (orderAfter exchanges)) f)) where
  shape := rfl
  kind := rfl
  size := by rw [PagedMatrix.size, PagedMatrix.size, size_ofCells, size_ofCells]
  inside := by
    intro count hcount page hpage c hstart hc i hi
    obtain ⟨count', hpages, rfl, -⟩ := exists_pages hheight
    obtain rfl : count' = count := Except.ok.inj (hpages.symm.trans hcount)
    have hi : i < shape.rows := hi
    have horder := orderAfter_lt hexchanges hi
    have hcol : c < shape.cols := by omega
    rw [foldl_swap_eq, Function.comp_apply, rows_ofCells, get_ofCells (place_lt hpage hi) hcol,
      get_ofCells (place_lt hpage horder) hcol, rearranged, if_pos ⟨hstart, hc⟩,
      onPages_add _ hi]
  outside := by
    intro r c hcol hout
    refine get_ofCells_congr hcol hcol fun _ => ?_
    rw [rearranged, if_neg hout]

/-- Steps within a stored matrix are made one after the other. -/
theorem exists_interchanged (ha : a.Stored) {height count : Nat} (hheight : a.height = .ok height)
    (hcount : height = count * a.rows) (hlimit : height < Size.limit) {start stop : Nat}
    (hstart : start ≤ stop) (hstop : stop ≤ a.cols) {steps : List (Nat × Nat)}
    (hsteps : ∀ step ∈ steps, StepWithin a.rows pivots step) :
    ∃ b, (steps.foldlM (makeInterchange ⟨a.rows, a.cols, count⟩ pivots start stop) a).run =
        .ok (.ok b) ∧
      Interchanged start stop (steps.map (exchangeOf pivots)) a b := by
  have hrun := run_interchanges_ofCells a.kind a.cell hcount hlimit hstart hstop hsteps
  have hleft := interchanged_rearranged a.kind a.cell start hheight hstop (exchanges_lt hsteps)
  rw [← ha.eq_ofCells hheight] at hrun hleft
  exact ⟨_, hrun, hleft⟩

/-- The first step beyond a stored matrix is refused after those before it have been made. -/
theorem exists_interrupted (ha : a.Stored) {height count : Nat} (hheight : a.height = .ok height)
    (hcount : height = count * a.rows) (hlimit : height < Size.limit) {start stop : Nat}
    (hstart : start ≤ stop) (hstop : stop ≤ a.cols) {before : List (Nat × Nat)} (step : Nat × Nat)
    (rest : List (Nat × Nat)) (hbefore : ∀ step ∈ before, StepWithin a.rows pivots step)
    (hplace : step.2 < pivots.size) (htarget : a.rows ≤ targetRow pivots step.2) :
    ∃ b, ((before ++ step :: rest).foldlM
        (makeInterchange ⟨a.rows, a.cols, count⟩ pivots start stop) a).run =
        .ok (.error ⟨b, .indexOutOfRange "laswp" (pivots.getD step.2 0) a.rows⟩) ∧
      Interchanged start stop (before.map (exchangeOf pivots)) a b := by
  have hrun := run_interchanges_refused a.kind a.cell step rest hcount hlimit hstart hstop hbefore
    hplace htarget
  have hleft := interchanged_rearranged a.kind a.cell start hheight hstop (exchanges_lt hbefore)
  rw [← ha.eq_ofCells hheight] at hrun hleft
  exact ⟨_, hrun, hleft⟩

omit [Scalar α ρ] in
/-- Every step of a call within the matrix has a row of the matrix. -/
theorem WithinMatrix.row_lt (h : WithinMatrix a firstRow lastRow window) {step : Nat × Nat}
    (hstep : step ∈ (InterchangePlan.between firstRow lastRow stride).steps) : step.1 < a.rows := by
  obtain ⟨t, ht, rfl⟩ := InterchangePlan.mem_steps.1 hstep
  have hfirst := h.first_pos
  have hlast := h.last_le
  have hle := h.first_le
  simp only [InterchangePlan.between] at ht ⊢
  omega

omit [Scalar α ρ] in
/-- A step of a call within the matrix whose pivot is in the list and names a row of the matrix. -/
theorem WithinMatrix.stepWithin (h : WithinMatrix a firstRow lastRow window)
    (hplace : (InterchangePlan.between firstRow lastRow stride).lastPlace < pivots.size)
    {step : Nat × Nat} (hstep : step ∈ (InterchangePlan.between firstRow lastRow stride).steps)
    (htarget : targetRow pivots step.2 < a.rows) : StepWithin a.rows pivots step :=
  ⟨h.row_lt hstep, (InterchangePlan.le_lastPlace hstep).trans_lt hplace, htarget⟩

omit [Scalar α ρ] in
/-- A call within the matrix whose pivots are in the list makes its steps. -/
theorem WithinMatrix.run_interchangeRows (h : WithinMatrix a firstRow lastRow window) {count : Nat}
    (hpages : a.pages = .ok count) (hstride : stride ≠ 0)
    (hplace : (InterchangePlan.between firstRow lastRow stride).lastPlace < pivots.size)
    (hword : (InterchangePlan.between firstRow lastRow stride).lastPlace < Size.limit) :
    (a.interchangeRows firstRow lastRow pivots stride window).run =
      ((InterchangePlan.between firstRow lastRow stride).steps.foldlM
        (makeInterchange ⟨a.rows, a.cols, count⟩ pivots (window.getD (0, a.cols)).1
          (window.getD (0, a.cols)).2) a).run := by
  obtain ⟨hfirst, hle, hlast, hstart, hstop⟩ := h
  have hlayout : a.layout = .ok ⟨a.rows, a.cols, count⟩ := layout_of_pages hpages
  rw [PagedMatrix.run_interchangeRows, hlayout, ok_bind]
  dsimp only
  rw [if_neg (by omega), if_neg hstride, if_neg (by omega), if_neg (by omega), if_neg (by omega),
    if_neg (by omega), if_neg (by omega)]

/-- A call for interchanges whose rows, columns and pivots are there makes its steps: the rows in
ascending order if the stride is positive, and in the exact opposite order if it is negative, each
with the row that its pivot names, on every page and within the window. The first pivot that names no
row of the matrix stops it, with exactly the steps before it made. -/
theorem interchangeRows_makes_steps (ha : a.Stored) {height : Nat} (hheight : a.height = .ok height)
    (hwithin : WithinMatrix a firstRow lastRow window) (hstride : stride ≠ 0)
    (hword : pivots.size < Size.limit)
    (hplace : (InterchangePlan.between firstRow lastRow stride).lastPlace < pivots.size) :
    let steps := (InterchangePlan.between firstRow lastRow stride).steps
    let columns := window.getD (0, a.cols)
    let call := (a.interchangeRows firstRow lastRow pivots stride window).run
    ((∀ step ∈ steps, targetRow pivots step.2 < a.rows) →
      ∃ b, call = .ok (.ok b) ∧
        Interchanged columns.1 columns.2 (steps.map (exchangeOf pivots)) a b) ∧
    ∀ before row place rest, steps = before ++ (row, place) :: rest →
      (∀ step ∈ before, targetRow pivots step.2 < a.rows) → a.rows ≤ targetRow pivots place →
      ∃ b, call = .ok (.error ⟨b, .indexOutOfRange "laswp" (pivots.getD place 0) a.rows⟩) ∧
        Interchanged columns.1 columns.2 (before.map (exchangeOf pivots)) a b := by
  intro steps columns call
  obtain ⟨count, hpages, hcount, hlimit⟩ := exists_pages hheight
  have hcall : call = _ :=
    hwithin.run_interchangeRows hpages hstride hplace (hplace.trans hword)
  rw [hcall]
  constructor
  · intro htargets
    exact exists_interchanged ha hheight hcount hlimit hwithin.start_le hwithin.stop_le
      fun step hmem => hwithin.stepWithin hplace hmem (htargets step hmem)
  · intro before row place rest hsteps htargets hbeyond
    have hmem : (row, place) ∈ steps := by simp [hsteps]
    have hbefore : ∀ step ∈ before, step ∈ steps := fun step h => by simp [hsteps, h]
    have hsteps : (InterchangePlan.between firstRow lastRow stride).steps = _ := hsteps
    rw [hsteps]
    exact exists_interrupted ha hheight hcount hlimit hwithin.start_le hwithin.stop_le (row, place)
      rest (fun step h => hwithin.stepWithin hplace (hbefore step h) (htargets step h))
      ((InterchangePlan.le_lastPlace hmem).trans_lt hplace) hbeyond

/-- A matrix of two pages with three rows each. -/
def twoPages : PagedMatrix Float :=
  { shape := { rows := 3, cols := 2, trailing := [2] }
    data := #[1, 2, 3, 4, 5, 6, 7, 8, 9, 10, 11, 12] }

theorem stored_twoPages : twoPages.Stored := ⟨rfl, by decide, by decide, by decide⟩

theorem height_twoPages : twoPages.height = .ok 6 := rfl

/-- Rows walked upwards within the second column, with a pivot that occurs twice. -/
theorem interchangeRows_makes_steps_twoPages :
    twoPages.Stored ∧ twoPages.height = .ok 6 ∧ WithinMatrix twoPages 1 3 (some (1, 2)) ∧
      ∃ b, (twoPages.interchangeRows 1 3 #[3, 3, 1] (-1) (some (1, 2))).run = .ok (.ok b) ∧
        Interchanged 1 2 [(2, 0), (1, 2), (0, 2)] twoPages b := by
  have hwithin : WithinMatrix twoPages 1 3 (some (1, 2)) :=
    ⟨by decide, by decide, by decide, by decide, by decide⟩
  have hplace : (InterchangePlan.between 1 3 (-1)).lastPlace < #[3, 3, 1].size := by decide
  obtain ⟨hmade, -⟩ := interchangeRows_makes_steps stored_twoPages height_twoPages hwithin (by decide)
    (by decide) hplace
  -- the rows that the pivots name
  have hexchanges : (InterchangePlan.between 1 3 (-1)).steps.map (exchangeOf #[3, 3, 1]) =
      [(2, 0), (1, 2), (0, 2)] := by
    decide +kernel
  rw [hexchanges] at hmade
  exact ⟨stored_twoPages, height_twoPages, hwithin, hmade (by decide +kernel)⟩

/-- A call that asks only for what is there, on pages that cannot be counted. -/
theorem not_interchanged_uncountedPages :
    Lu.uncountedPages.Stored ∧ WithinMatrix Lu.uncountedPages 1 1 none ∧
      (InterchangePlan.between 1 1 1).lastPlace < #[1].size ∧
      (∀ step ∈ (InterchangePlan.between 1 1 1).steps,
        targetRow #[1] step.2 < Lu.uncountedPages.rows) ∧
      (Lu.uncountedPages.interchangeRows 1 1 #[1] 1 none).run = .error .overflow := by
  have hpages : Lu.uncountedPages.pages = .error .overflow := rfl
  exact ⟨⟨rfl, by decide, by decide, by decide⟩,
    ⟨by decide, by decide, by decide, by decide, by decide⟩, by decide, by decide +kernel,
    interchangeRows_of_pages hpages Nat.one_ne_zero (Nat.le_refl 1) Int.one_ne_zero _ none⟩

/-! ## All outcomes -/

/-- The steps of a call within the matrix are made if their pivots name rows of the matrix, and are
refused otherwise. -/
theorem WithinMatrix.run_steps (h : WithinMatrix a firstRow lastRow window) (ha : a.Stored)
    {height count : Nat} (hheight : a.height = .ok height) (hcount : height = count * a.rows)
    (hlimit : height < Size.limit)
    (hplace : (InterchangePlan.between firstRow lastRow stride).lastPlace < pivots.size) :
    let steps := (InterchangePlan.between firstRow lastRow stride).steps
    let call := (steps.foldlM (makeInterchange ⟨a.rows, a.cols, count⟩ pivots
      (window.getD (0, a.cols)).1 (window.getD (0, a.cols)).2) a).run
    ((∃ step ∈ steps, a.rows ≤ targetRow pivots step.2) ∧ ∃ stop, call = .ok (.error stop)) ∨
    ((∀ step ∈ steps, targetRow pivots step.2 < a.rows) ∧ ∃ b, call = .ok (.ok b)) := by
  intro steps call
  -- the pivots name rows of the matrix up to the first one that does not, if there is one
  cases hfind : steps.find? fun step => a.rows ≤ targetRow pivots step.2 with
  | none =>
    right
    have htargets : ∀ step ∈ steps, targetRow pivots step.2 < a.rows := by simpa using hfind
    obtain ⟨b, hrun, -⟩ := exists_interchanged ha hheight hcount hlimit h.start_le h.stop_le
      fun step hmem => h.stepWithin hplace hmem (htargets step hmem)
    exact ⟨htargets, b, hrun⟩
  | some step =>
    left
    obtain ⟨hbeyond, before, rest, hsteps, hbefore⟩ := List.find?_eq_some_iff_append.1 hfind
    have hbeyond : a.rows ≤ targetRow pivots step.2 := by simpa using hbeyond
    have hbefore : ∀ step ∈ before, targetRow pivots step.2 < a.rows := by simpa using hbefore
    have hmem : ∀ step' ∈ before ++ [step], step' ∈ steps := by
      intro step' h'
      rw [hsteps, List.append_cons]
      exact List.mem_append_left rest h'
    have hwithin : ∀ step ∈ before, StepWithin a.rows pivots step := fun step h' =>
      h.stepWithin hplace (hmem step (List.mem_append_left _ h')) (hbefore step h')
    obtain ⟨b, hrun, -⟩ := exists_interrupted ha hheight hcount hlimit h.start_le h.stop_le step
      rest hwithin ((InterchangePlan.le_lastPlace (hmem step (by simp))).trans_lt hplace) hbeyond
    rw [← hsteps] at hrun
    exact ⟨⟨step, hmem step (by simp), hbeyond⟩, _, hrun⟩

/-- The three outcomes of a call for interchanges. -/
theorem interchangeRows_outcome (ha : a.Stored) {height : Nat} (hheight : a.height = .ok height)
    (firstRow lastRow : Nat) (pivots : Array Nat) (stride : Int) (window : Option (Nat × Nat)) :
    let call := (a.interchangeRows firstRow lastRow pivots stride window).run
    (PlaceOverflows a firstRow lastRow stride window ∧ call = .error .overflow) ∨
    (¬ PlaceOverflows a firstRow lastRow stride window ∧
      Violation a firstRow lastRow pivots stride window ∧ ∃ stop, call = .ok (.error stop)) ∨
    (¬ PlaceOverflows a firstRow lastRow stride window ∧
      ¬ Violation a firstRow lastRow pivots stride window ∧ ∃ b, call = .ok (.ok b)) := by
  obtain ⟨count, hpages, hcount, hlimit⟩ := exists_pages hheight
  have hrows := ha.rows_lt
  have hlayout : a.layout = .ok ⟨a.rows, a.cols, count⟩ := layout_of_pages hpages
  dsimp only
  rw [PagedMatrix.run_interchangeRows, hlayout, ok_bind]
  dsimp only
  split_ifs with hfirst hstride hnone hlast hcolumns hover hplace
  · right; left
    refine ⟨fun h => ?_, .firstRow hfirst, _, rfl⟩
    have := h.first_pos
    omega
  · -- without a stride all pivots are at the place of the first one
    subst hstride
    right; left
    refine ⟨fun h => ?_, .stride rfl, _, rfl⟩
    have hword := h.place
    have hplace : (InterchangePlan.between firstRow lastRow 0).lastPlace = firstRow - 1 := by
      simp [InterchangePlan.lastPlace, InterchangePlan.between]
    have := h.last_le
    have := h.first_le
    omega
  · right; right
    refine ⟨fun h => ?_, ?_, _, rfl⟩
    · have := h.first_le
      omega
    · intro h
      cases h <;> omega
  · right; left
    refine ⟨fun h => ?_, .row (by omega) hlast, _, rfl⟩
    have := h.last_le
    omega
  · right; left
    refine ⟨fun h => ?_, ?_, _, rfl⟩
    · have := h.start_le
      have := h.stop_le
      omega
    · rcases hcolumns with h | h
      · exact .window (by omega) h
      · exact .column (by omega) h
  · left
    exact ⟨⟨⟨by omega, by omega, by omega, by omega, by omega⟩, hover⟩, rfl⟩
  · right; left
    exact ⟨fun h => hover h.place, .place (by omega) hplace, _, rfl⟩
  · have hwithin : WithinMatrix a firstRow lastRow window :=
      ⟨by omega, by omega, by omega, by omega, by omega⟩
    right
    rcases hwithin.run_steps ha hheight hcount hlimit (Nat.not_le.1 hplace) with
      ⟨⟨step, hmem, hbeyond⟩, hrefused⟩ | ⟨htargets, hmade⟩
    · left
      exact ⟨fun h => hover h.place, .pivot (by omega) hmem hbeyond, hrefused⟩
    · right
      refine ⟨fun h => hover h.place, ?_, hmade⟩
      intro h
      cases h with
      | pivot _ hmem hbeyond => exact absurd (htargets _ hmem) (Nat.not_lt.2 hbeyond)
      | _ => omega

omit [Scalar α ρ] in
/-- The exchange of a row with itself. -/
theorem interchanged_self (r : Nat) : Interchanged 0 a.cols [(r, r)] a a where
  shape := rfl
  kind := rfl
  size := rfl
  inside := by
    intro count _ page _ c _ _ i _
    rw [List.foldl_cons, Equiv.swap_self]
    rfl
  outside _ _ _ _ := rfl

/-- Two rows are exchanged on every page. -/
theorem exists_exchanged (ha : a.Stored) {height count : Nat} (hheight : a.height = .ok height)
    (hcount : height = count * a.rows) (hlimit : height < Size.limit) {r s : Nat}
    (hr : r < a.rows) (hs : s < a.rows) :
    ∃ b, a.swapRowsOnPages ⟨a.rows, a.cols, count⟩ r s 0 a.cols = .ok b ∧
      Interchanged 0 a.cols [(r, s)] a b := by
  have hrun := swapRowsOnPages_ofCells a.kind a.cell hcount hlimit hr hs (Nat.zero_le _)
    (Nat.le_refl _)
  have hexchanges : ∀ exchange ∈ [(r, s)], exchange.1 < a.rows ∧ exchange.2 < a.rows := by
    simp [hr, hs]
  have hleft := interchanged_rearranged a.kind a.cell 0 hheight (Nat.le_refl _) hexchanges
  rw [orderAfter_cons, orderAfter_nil, mul_one] at hleft
  rw [← ha.eq_ofCells hheight] at hrun hleft
  exact ⟨_, hrun, hleft⟩

/-- The three outcomes of an exchange of two rows. -/
theorem exchangeRows_outcome (ha : a.Stored) {height : Nat} (hheight : a.height = .ok height)
    (r s : Nat) :
    let call := (a.exchangeRows r s).run
    (s < a.rows ∧ capacityLimit < sizeBytes * (r + 1) ∧ ∃ fault, call = .error fault) ∨
    (¬ (r < a.rows ∧ s < a.rows) ∧ (s < a.rows → sizeBytes * (r + 1) ≤ capacityLimit) ∧
      ∃ routine index, call = .ok (.error ⟨a, .indexOutOfRange routine index a.rows⟩)) ∨
    ((r < a.rows ∧ s < a.rows) ∧ sizeBytes * (r + 1) ≤ capacityLimit ∧
      ∃ b, call = .ok (.ok b) ∧ Interchanged 0 a.cols [(r, s)] a b) := by
  obtain ⟨count, hpages, hcount, hlimit⟩ := exists_pages hheight
  have hlayout : a.layout = .ok ⟨a.rows, a.cols, count⟩ := layout_of_pages hpages
  dsimp only
  rw [run_exchangeRows hlayout]
  dsimp only
  split_ifs with hs hword hroom hr hsame
  · exact .inr (.inl ⟨by omega, by omega, "laswp_rows", s, rfl⟩)
  · have hroom : capacityLimit < sizeBytes * (r + 1) := by
      unfold capacityLimit sizeBytes
      unfold Size.limit at hword
      omega
    exact .inl ⟨by omega, hroom, .overflow, rfl⟩
  · exact .inl ⟨by omega, hroom, .capacity, rfl⟩
  · exact .inr (.inl ⟨by omega, fun _ => by omega, "laswp", r + 1, rfl⟩)
  · subst hsame
    exact .inr (.inr ⟨⟨by omega, by omega⟩, by omega, a, rfl, interchanged_self r⟩)
  · have hrows : r < a.rows ∧ s < a.rows := ⟨by omega, by omega⟩
    obtain ⟨b, hrun, hleft⟩ := exists_exchanged ha hheight hcount hlimit hrows.1 hrows.2
    rw [hrun]
    exact .inr (.inr ⟨hrows, by omega, b, rfl, hleft⟩)

/-- A call for interchanges faults only if its rows and columns are there but the place of the last
pivot is not a machine word; otherwise it is refused if and only if something is wrong with it. An
exchange of two rows faults only if the second row is there but memory has no room for as many
pivots as the first one asks for; otherwise it is made if and only if both rows are there, and a
refusal leaves the matrix alone. -/
theorem interchanges_fault_only_beyond_memory (ha : a.Stored) {height : Nat}
    (hheight : a.height = .ok height) :
    (∀ firstRow lastRow pivots stride window,
      let call := (a.interchangeRows firstRow lastRow pivots stride window).run
      ((∃ fault, call = .error fault) ↔ PlaceOverflows a firstRow lastRow stride window) ∧
      ((∃ stop, call = .ok (.error stop)) ↔
        ¬ PlaceOverflows a firstRow lastRow stride window ∧
          Violation a firstRow lastRow pivots stride window)) ∧
    ∀ r s,
      let call := (a.exchangeRows r s).run
      ((∃ fault, call = .error fault) ↔ s < a.rows ∧ capacityLimit < sizeBytes * (r + 1)) ∧
      ((∃ b, call = .ok (.ok b)) ↔
        (r < a.rows ∧ s < a.rows) ∧ sizeBytes * (r + 1) ≤ capacityLimit) ∧
      (∀ b, call = .ok (.ok b) → Interchanged 0 a.cols [(r, s)] a b) ∧
      ∀ stop, call = .ok (.error stop) →
        ∃ routine index, stop = ⟨a, .indexOutOfRange routine index a.rows⟩ := by
  constructor
  · intro firstRow lastRow pivots stride window
    dsimp only
    rcases interchangeRows_outcome ha hheight firstRow lastRow pivots stride window with
      ⟨hover, hcall⟩ | ⟨hover, hbad, stop, hcall⟩ | ⟨hover, hgood, b, hcall⟩
    · simp [hcall, hover]
    · simp [hcall, hover, hbad]
    · simp [hcall, hover, hgood]
  · intro r s
    dsimp only
    rcases exchangeRows_outcome ha hheight r s with
      ⟨hs, hroom, fault, hcall⟩ | ⟨hrows, hroom, routine, index, hcall⟩ |
        ⟨hrows, hroom, b, hcall, hleft⟩
    · simp [hcall, hs, hroom]
    · simpa [hcall, hrows] using hroom
    · simp [hcall, hrows, hroom, hleft]

end Calls

/-- A stride that leads beyond all machine words, and a row that is not there. -/
theorem interchanges_fault_only_beyond_memory_twoPages :
    twoPages.Stored ∧ twoPages.height = .ok 6 ∧
      (∃ fault, (twoPages.interchangeRows 1 3 #[1, 2, 3] (-2 ^ 63) none).run = .error fault) ∧
      (∃ stop, (twoPages.interchangeRows 1 2 #[2, 9] 1 none).run = .ok (.error stop)) ∧
      ∃ b, (twoPages.exchangeRows 0 2).run = .ok (.ok b) := by
  obtain ⟨hcalls, hexchanges⟩ :=
    interchanges_fault_only_beyond_memory stored_twoPages height_twoPages
  obtain ⟨hfault, -⟩ := hcalls 1 3 #[1, 2, 3] (-2 ^ 63) none
  obtain ⟨-, hrefused⟩ := hcalls 1 2 #[2, 9] 1 none
  obtain ⟨-, hmade, -⟩ := hexchanges 0 2
  have hover : PlaceOverflows twoPages 1 3 (-2 ^ 63) none :=
    ⟨⟨by decide, by decide, by decide, by decide, by decide⟩, by decide⟩
  have hword : ¬ PlaceOverflows twoPages 1 2 1 none := fun h => absurd h.place (by decide)
  -- the pivot of the second row is nine
  have hstep : (1, 1) ∈ (InterchangePlan.between 1 2 1).steps := by decide
  have htarget : twoPages.rows ≤ targetRow #[2, 9] 1 := by decide +kernel
  have hbad : Violation twoPages 1 2 #[2, 9] 1 none := .pivot (by decide) hstep htarget
  exact ⟨stored_twoPages, height_twoPages, hfault.2 hover, hrefused.2 ⟨hword, hbad⟩,
    hmade.2 (by decide)⟩

/-- Arguments that are out of range, but for which there is a fault and not a refusal. -/
theorem overflow_twoPages :
    twoPages.Stored ∧ twoPages.height = .ok 6 ∧ ¬ 2 ^ 64 - 1 < twoPages.rows ∧
      (twoPages.exchangeRows (2 ^ 64 - 1) 0).run = .error .overflow ∧
      Violation twoPages 1 3 #[1, 2, 3] (-2 ^ 63) none ∧
      (twoPages.interchangeRows 1 3 #[1, 2, 3] (-2 ^ 63) none).run = .error .overflow := by
  have hbad : Violation twoPages 1 3 #[1, 2, 3] (-2 ^ 63) none := .place (by decide) (by decide)
  exact ⟨stored_twoPages, height_twoPages, by decide, rfl, hbad, rfl⟩

end PagedMatrix

end DenseLinear
