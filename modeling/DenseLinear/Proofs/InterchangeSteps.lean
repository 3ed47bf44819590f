import Mathlib.Algebra.BigOperators.Group.List.Basic
import Mathlib.Algebra.Group.End
import DenseLinear.Interchange
import DenseLinear.Proofs.Blocks
import DenseLinear.Proofs.Surroundings

/-!
# Sequences of interchanges

A call for interchanges looks at its arguments one after the other and then carries out a plan. A
plan is a list of steps (`InterchangePlan.steps`): a step names a row and the place of its pivot in
the list of pivots. The opposite stride lists the same steps in the opposite order
(`InterchangePlan.steps_neg`).

A step exchanges two rows of every page within a window of columns, and what is left of the matrix
is `rearranged` (`run_makeInterchange_ofCells`). Steps that are made one after the other put the rows
into the order that is the product of their transpositions (`run_interchanges_ofCells`). The first
step whose pivot names no row of the matrix stops the sequence, with those before it made
(`run_interchanges_refused`).
-/

namespace DenseLinear

namespace PagedMatrix

variable {α : Type}

/-! ## The interchanges of a plan -/

namespace InterchangePlan

/-- The plan for the rows `firstRow` to `lastRow`, counted from one, with a stride. -/
def between (firstRow lastRow : Nat) (stride : Int) : InterchangePlan :=
  { first := firstRow - 1, count := lastRow - firstRow + 1, step := stride.natAbs,
    backward := stride < 0 }

/-- The rows of a plan, the first one first, each with the place of its pivot. -/
def rowsWithPlaces (plan : InterchangePlan) : List (Nat × Nat) :=
  (List.range plan.count).map fun t => (plan.first + t, plan.first + t * plan.step)

/-- The interchanges in the order in which they are made: the row, and the place of its pivot. -/
def steps (plan : InterchangePlan) : List (Nat × Nat) :=
  if plan.backward then plan.rowsWithPlaces.reverse else plan.rowsWithPlaces

/-- The place of the last pivot in the list. -/
def lastPlace (plan : InterchangePlan) : Nat := plan.first + (plan.count - 1) * plan.step

variable {plan : InterchangePlan}

theorem steps_eq_map (plan : InterchangePlan) :
    plan.steps = (List.range plan.count).map fun time => (plan.rowAt time, plan.placeAt time) := by
  unfold steps rowsWithPlaces rowAt placeAt
  cases plan.backward with
  | false => rfl
  | true =>
    refine List.ext_getElem (by simp) ?_
    intro i h h'
    simp [List.getElem_reverse]

theorem mem_steps {step : Nat × Nat} : step ∈ plan.steps ↔
    ∃ t < plan.count, step = (plan.first + t, plan.first + t * plan.step) := by
  have hmem : step ∈ plan.steps ↔ step ∈ plan.rowsWithPlaces := by
    unfold steps
    split
    · exact List.mem_reverse
    · rfl
  rw [hmem, rowsWithPlaces, List.mem_map]
  simp only [List.mem_range, eq_comm]

/-- No place of a pivot is beyond the last one. -/
theorem le_lastPlace {step : Nat × Nat} (h : step ∈ plan.steps) : step.2 ≤ plan.lastPlace := by
  obtain ⟨t, ht, rfl⟩ := mem_steps.1 h
  exact Nat.add_le_add_left (Nat.mul_le_mul_right _ (by omega)) _

theorem lastPlace_neg {firstRow lastRow : Nat} {stride : Int} :
    (between firstRow lastRow (-stride)).lastPlace = (between firstRow lastRow stride).lastPlace := by
  simp [lastPlace, between]

/-- The opposite stride makes the interchanges in the opposite order. -/
theorem steps_neg {firstRow lastRow : Nat} {stride : Int} (h : stride ≠ 0) :
    (between firstRow lastRow (-stride)).steps = (between firstRow lastRow stride).steps.reverse := by
  have hrows : (between firstRow lastRow (-stride)).rowsWithPlaces =
      (between firstRow lastRow stride).rowsWithPlaces := by
    simp [rowsWithPlaces, between]
  unfold steps
  rw [hrows]
  rcases Int.lt_or_gt_of_ne h with hneg | hpos
  · have hback : (between firstRow lastRow stride).backward = true := by simpa [between] using hneg
    have hforth : (between firstRow lastRow (-stride)).backward = false := by
      simp [between, hneg.le]
    rw [hback, hforth, if_pos rfl, List.reverse_reverse]
    rfl
  · have hforth : (between firstRow lastRow stride).backward = false := by simp [between, hpos.le]
    have hback : (between firstRow lastRow (-stride)).backward = true := by simpa [between] using hpos
    rw [hback, hforth, if_pos rfl]
    rfl

end InterchangePlan

/-- The row that a pivot names. -/
def targetRow (pivots : Array Nat) (place : Nat) : Nat :=
  pivots.getD place 0 - pivotBase pivots

/-- The interchange of a step, with the row that the pivot names. -/
def exchangeOf (pivots : Array Nat) (step : Nat × Nat) : Nat × Nat :=
  (step.1, targetRow pivots step.2)

theorem pivotBase_le {pivots : Array Nat} {place : Nat} (h : place < pivots.size) :
    pivotBase pivots ≤ pivots[place] := by
  unfold pivotBase
  split
  · exact Nat.zero_le _
  · rename_i hzero
    -- a list that holds no zero has no pivot below one
    refine Nat.one_le_iff_ne_zero.2 fun hpivot => hzero ?_
    rw [Array.contains_iff_mem, ← hpivot]
    exact Array.getElem_mem h

/-! ## The rows of all pages -/

/-- The stacked row that is row `σ i` of its page, for the stacked row that is row `i` of its page;
pages have `m` rows. -/
def onPages (m : Nat) (σ : Nat → Nat) (r : Nat) : Nat := r / m * m + σ (r % m)

/-- The cells `f` with the rows in another order, within the columns `[start, stop)`. -/
def rearranged (start stop : Nat) (order : Nat → Nat) (f : Nat → Nat → α) : Nat → Nat → α :=
  fun r c => if start ≤ c ∧ c < stop then f (order r) c else f r c

section Rows

variable {m page i : Nat}

theorem onPages_add (σ : Nat → Nat) (hi : i < m) :
    onPages m σ (page * m + i) = page * m + σ i := by
  rw [onPages, place_div hi, place_mod hi]

theorem onPages_of_lt (σ : Nat → Nat) (hi : i < m) : onPages m σ i = σ i := by
  rw [onPages, Nat.div_eq_of_lt hi, Nat.mod_eq_of_lt hi, Nat.zero_mul, Nat.zero_add]

/-- An order of the rows of each page after another one. -/
theorem onPages_onPages {σ τ : Nat → Nat} (hτ : ∀ i < m, τ i < m) (hm : 0 < m) (r : Nat) :
    onPages m σ (onPages m τ r) = onPages m (σ ∘ τ) r := by
  have hi := Nat.mod_lt r hm
  rw [onPages.eq_def m τ r, onPages_add σ (hτ _ hi)]
  rfl

theorem onPages_id (r : Nat) : onPages m id r = r := by
  rw [onPages, Nat.mul_comm]
  exact Nat.div_add_mod r m

/-- The exchange of a row of a page with another one of the same page. -/
theorem swap_place {r s : Nat} :
    Equiv.swap (page * m + r) (page * m + s) (page * m + i) = page * m + Equiv.swap r s i := by
  simp only [Equiv.swap_apply_def, Nat.add_left_cancel_iff]
  split_ifs <;> rfl

end Rows

/-! ## Rows after interchanges -/

/-- The order of the rows after interchanges, of which the first one is made first: row `i` is row
`orderAfter exchanges i` of before. -/
def orderAfter (exchanges : List (Nat × Nat)) : Equiv.Perm Nat :=
  (exchanges.map fun exchange => Equiv.swap exchange.1 exchange.2).prod

section Order

variable {m : Nat} {exchanges : List (Nat × Nat)}

@[simp]
theorem orderAfter_nil : orderAfter [] = 1 := rfl

theorem orderAfter_cons (exchange : Nat × Nat) (rest : List (Nat × Nat)) :
    orderAfter (exchange :: rest) = Equiv.swap exchange.1 exchange.2 * orderAfter rest := by
  rw [orderAfter, List.map_cons, List.prod_cons]
  rfl

theorem orderAfter_append (before rest : List (Nat × Nat)) :
    orderAfter (before ++ rest) = orderAfter before * orderAfter rest := by
  rw [orderAfter, List.map_append, List.prod_append]
  rfl

theorem orderAfter_lt (h : ∀ exchange ∈ exchanges, exchange.1 < m ∧ exchange.2 < m) {i : Nat}
    (hi : i < m) : orderAfter exchanges i < m := by
  induction exchanges with
  | nil => exact hi
  | cons exchange rest ih =>
    obtain ⟨hr, hs⟩ := h exchange List.mem_cons_self
    rw [orderAfter_cons, Equiv.Perm.mul_apply]
    exact swap_lt hr hs (ih fun e he => h e (List.mem_cons_of_mem _ he))

/-- Interchanges of the entries of a column, made one after the other. -/
theorem foldl_swap_eq {β : Type} (column : Nat → β) :
    exchanges.foldl (fun column exchange => column ∘ Equiv.swap exchange.1 exchange.2) column =
      column ∘ orderAfter exchanges := by
  induction exchanges generalizing column with
  | nil => rfl
  | cons exchange rest ih =>
    rw [List.foldl_cons, ih, orderAfter_cons, Equiv.Perm.coe_mul, Function.comp_assoc]

end Order

/-! ## One interchange -/

section Pages

variable {shape : Shape} {kind : NumericKind} {height count : Nat} {f : Nat → Nat → α}

variable (kind f) in
/-- Two rows are exchanged on one page after the other. -/
theorem swapRowsOnPages_ofCells {r s start stop : Nat} (hheight : height = count * shape.rows)
    (hlimit : height < Size.limit) (hr : r < shape.rows) (hs : s < shape.rows)
    (hstart : start ≤ stop) (hstop : stop ≤ shape.cols) :
    (ofCells shape kind height f).swapRowsOnPages ⟨shape.rows, shape.cols, count⟩ r s start stop =
      .ok (ofCells shape kind height
        (rearranged start stop (onPages shape.rows (Equiv.swap r s)) f)) := by
  subst hheight
  -- the pages before `page` have their rows exchanged
  refine ascend_ofCells (fun page i c => if i < page * shape.rows then
    rearranged start stop (onPages shape.rows (Equiv.swap r s)) f i c else f i c)
    (Nat.zero_le _) ?_ ?_ ?_
  · intro i c _ _
    exact (if_neg (by omega)).symm
  · intro i c hi _
    exact if_pos hi
  intro page _ hpage
  have hrow : page * shape.rows + r < count * shape.rows := place_lt hpage hr
  have hrow' : page * shape.rows + s < count * shape.rows := place_lt hpage hs
  have hrow_lt : page * shape.rows + r < Size.limit := hrow.trans hlimit
  have hrow_lt' : page * shape.rows + s < Size.limit := hrow'.trans hlimit
  rw [rowOf_eq_ok hrow_lt, ok_bind, rowOf_eq_ok hrow_lt', ok_bind,
    swapRowsWithin_ofCells hrow hrow' (by omega)]
  refine congrArg Except.ok (ofCells_congr fun i c _ _ => ?_)
  unfold exchanged rearranged
  dsimp only
  have hnext : (page + 1) * shape.rows = page * shape.rows + shape.rows := Nat.succ_mul _ _
  rcases Nat.lt_or_ge i (page * shape.rows) with hbefore | hge
  · have hbefore' : i < (page + 1) * shape.rows := by omega
    rw [Equiv.swap_apply_of_ne_of_ne (by omega) (by omega), if_pos hbefore, ite_self,
      if_pos hbefore']
  rcases Nat.lt_or_ge i ((page + 1) * shape.rows) with hin | hafter
  · obtain ⟨j, rfl⟩ : ∃ j, i = page * shape.rows + j := ⟨i - page * shape.rows, by omega⟩
    -- the rows of this page are exchanged for the first time
    have hfirst (j : Nat) : ¬ page * shape.rows + j < page * shape.rows := by omega
    rw [swap_place, if_neg (hfirst _), if_neg (hfirst j), if_pos hin, onPages_add _ (by omega)]
  · have hafter' : ¬ i < page * shape.rows := by omega
    rw [Equiv.swap_apply_of_ne_of_ne (by omega) (by omega), if_neg hafter', ite_self,
      if_neg (by omega)]

end Pages

/-! ## Interchanges one after the other -/

section Runs

variable {shape : Shape} {kind : NumericKind} {height count : Nat} {f : Nat → Nat → α}
  {layout : PageLayout} {pivots : Array Nat} {start stop : Nat} {a : PagedMatrix α}

/-- Makes the interchange of a row with the row that its pivot names, on every page. -/
def makeInterchange (layout : PageLayout) (pivots : Array Nat) (start stop : Nat)
    (a : PagedMatrix α) (step : Nat × Nat) :
    ExceptT (Interrupted (PagedMatrix α)) (Except Fault) (PagedMatrix α) := do
  let pivot ← checked (readAt pivots step.2)
  let target ← Size.sub pivot (pivotBase pivots)
  if layout.rows ≤ target then
    throw ⟨a, .indexOutOfRange "laswp" pivot layout.rows⟩
  if target = step.1 then
    return a
  else
    checked (a.swapRowsOnPages layout step.1 target start stop)

/-- A plan is carried out step by step. -/
theorem runInterchanges_eq_foldlM (plan : InterchangePlan) :
    a.runInterchanges layout plan pivots start stop =
      plan.steps.foldlM (makeInterchange layout pivots start stop) a := by
  rw [InterchangePlan.steps_eq_map, List.foldlM_map]
  exact ascend_zero_eq_foldlM _ _ _

theorem checked_ok_bind {ε β γ : Type} (b : β) (f : β → ExceptT ε (Except Fault) γ) :
    (checked (.ok b) >>= f) = f b := rfl

/-- What an interchange can do: it is refused, or has nothing to do, or exchanges two rows. -/
theorem run_makeInterchange {row place : Nat} (hplace : place < pivots.size) :
    (makeInterchange layout pivots start stop a (row, place)).run =
      if layout.rows ≤ targetRow pivots place then
        .ok (.error ⟨a, .indexOutOfRange "laswp" (pivots.getD place 0) layout.rows⟩)
      else if targetRow pivots place = row then .ok (.ok a)
      else .ok <$> a.swapRowsOnPages layout row (targetRow pivots place) start stop := by
  have hgetD : pivots.getD place 0 = pivots[place] := by simp [hplace]
  have hsub : Size.sub pivots[place] (pivotBase pivots) = .ok (targetRow pivots place) := by
    rw [Size.sub_eq_ok (pivotBase_le hplace), targetRow, hgetD]
  unfold makeInterchange
  dsimp only
  rw [readAt_eq_ok hplace, checked_ok_bind, hsub, hgetD]
  -- nothing is left to compute before the target row is compared
  change ExceptT.run (if layout.rows ≤ targetRow pivots place then _ else _) = _
  split_ifs <;> rfl

variable (kind f) in
/-- An interchange with a row of the matrix is made on every page. -/
theorem run_makeInterchange_ofCells {row place : Nat} (hheight : height = count * shape.rows)
    (hlimit : height < Size.limit) (hstart : start ≤ stop) (hstop : stop ≤ shape.cols)
    (hrow : row < shape.rows) (hplace : place < pivots.size)
    (htarget : targetRow pivots place < shape.rows) :
    (makeInterchange ⟨shape.rows, shape.cols, count⟩ pivots start stop
        (ofCells shape kind height f) (row, place)).run =
      .ok (.ok (ofCells shape kind height (rearranged start stop
        (onPages shape.rows (Equiv.swap row (targetRow pivots place))) f))) := by
  rw [run_makeInterchange hplace, if_neg (Nat.not_le.2 htarget)]
  split
  · rename_i hsame
    -- the exchange of a row with itself leaves every row where it is
    refine congrArg (fun b => Except.ok (Except.ok b)) (ofCells_congr fun r c _ _ => ?_)
    rw [rearranged, hsame, Equiv.swap_self, Equiv.coe_refl, onPages_id, ite_self]
  · rw [swapRowsOnPages_ofCells kind f hheight hlimit hrow htarget hstart hstop]
    rfl

/-- Rows that are rearranged twice within the same columns. -/
theorem rearranged_rearranged (order order' : Nat → Nat) (f : Nat → Nat → α) :
    rearranged start stop order (rearranged start stop order' f) =
      rearranged start stop (order' ∘ order) f := by
  funext r c
  unfold rearranged
  split <;> rfl

theorem rearranged_id (f : Nat → Nat → α) : rearranged start stop id f = f := by
  funext r c
  exact ite_self _

/-- A step of interchanges on a matrix of `m` rows: its row and its target are rows of the matrix,
and its pivot is in the list. -/
structure StepWithin (m : Nat) (pivots : Array Nat) (step : Nat × Nat) : Prop where
  row : step.1 < m
  place : step.2 < pivots.size
  target : targetRow pivots step.2 < m

/-- The interchanges of steps within a matrix are interchanges of its rows. -/
theorem exchanges_lt {m : Nat} {steps : List (Nat × Nat)}
    (hsteps : ∀ step ∈ steps, StepWithin m pivots step) :
    ∀ exchange ∈ steps.map (exchangeOf pivots), exchange.1 < m ∧ exchange.2 < m := by
  intro exchange h
  obtain ⟨step, hstep, rfl⟩ := List.mem_map.1 h
  exact ⟨(hsteps step hstep).row, (hsteps step hstep).target⟩

variable (kind f) in
/-- Interchanges with rows of the matrix are made on every page, the first one first. -/
theorem run_interchanges_ofCells {steps : List (Nat × Nat)}
    (hheight : height = count * shape.rows) (hlimit : height < Size.limit) (hstart : start ≤ stop)
    (hstop : stop ≤ shape.cols) (hsteps : ∀ step ∈ steps, StepWithin shape.rows pivots step) :
    (steps.foldlM (makeInterchange ⟨shape.rows, shape.cols, count⟩ pivots start stop)
        (ofCells shape kind height f)).run =
      .ok (.ok (ofCells shape kind height (rearranged start stop
        (onPages shape.rows (orderAfter (steps.map (exchangeOf pivots)))) f))) := by
  induction steps generalizing f with
  | nil =>
    have hid : onPages shape.rows (orderAfter []) = id := funext onPages_id
    rw [List.map_nil, hid, rearranged_id]
    rfl
  | cons step rest ih =>
    obtain ⟨hrow, hplace, htarget⟩ := hsteps step List.mem_cons_self
    have hrest : ∀ step ∈ rest, StepWithin shape.rows pivots step := fun step h =>
      hsteps step (List.mem_cons_of_mem _ h)
    rw [List.foldlM_cons, ExceptT.run_bind, run_makeInterchange_ofCells kind f hheight hlimit hstart
      hstop hrow hplace htarget]
    refine (ih _ hrest).trans ?_
    -- the rows that the rest puts into order are those that the first step has left
    rw [rearranged_rearranged, List.map_cons, orderAfter_cons]
    refine congrArg (fun order => Except.ok (Except.ok
      (ofCells shape kind height (rearranged start stop order f)))) (funext fun r => ?_)
    exact onPages_onPages (fun i hi => orderAfter_lt (exchanges_lt hrest) hi) (by omega) r

variable (kind f) in
/-- The first interchange with a row beyond the matrix is refused, after those before it. -/
theorem run_interchanges_refused {before : List (Nat × Nat)} (step : Nat × Nat)
    (rest : List (Nat × Nat)) (hheight : height = count * shape.rows)
    (hlimit : height < Size.limit) (hstart : start ≤ stop) (hstop : stop ≤ shape.cols)
    (hbefore : ∀ step ∈ before, StepWithin shape.rows pivots step)
    (hplace : step.2 < pivots.size) (htarget : shape.rows ≤ targetRow pivots step.2) :
    ((before ++ step :: rest).foldlM
        (makeInterchange ⟨shape.rows, shape.cols, count⟩ pivots start stop)
        (ofCells shape kind height f)).run =
      .ok (.error ⟨ofCells shape kind height (rearranged start stop
        (onPages shape.rows (orderAfter (before.map (exchangeOf pivots)))) f),
        .indexOutOfRange "laswp" (pivots.getD step.2 0) shape.rows⟩) := by
  rw [List.foldlM_append, ExceptT.run_bind,
    run_interchanges_ofCells kind f hheight hlimit hstart hstop hbefore]
  change ExceptT.run (List.foldlM _ _ _) = _
  rw [List.foldlM_cons, ExceptT.run_bind, run_makeInterchange hplace, if_pos htarget]
  rfl

/-! ## Calls -/

variable {firstRow lastRow : Nat} {stride : Int} {window : Option (Nat × Nat)}

/-- The place of the last pivot is computed if it is a machine word. -/
theorem run_lastPlace {β : Type} (plan : InterchangePlan)
    (f : Nat → ExceptT (Interrupted (PagedMatrix α)) (Except Fault) β) :
    (do
      let offset ← Size.mul (plan.count - 1) plan.step
      let place ← Size.add plan.first offset
      f place : ExceptT (Interrupted (PagedMatrix α)) (Except Fault) β).run =
      if Size.limit ≤ plan.lastPlace then .error .overflow else (f plan.lastPlace).run := by
  unfold InterchangePlan.lastPlace
  by_cases hmul : (plan.count - 1) * plan.step < Size.limit
  · rw [Size.mul_eq_ok hmul]
    change ExceptT.run (liftM (Size.add plan.first ((plan.count - 1) * plan.step)) >>= _) = _
    by_cases hadd : plan.first + (plan.count - 1) * plan.step < Size.limit
    · rw [Size.add_eq_ok hadd, if_neg (Nat.not_le.2 hadd)]
      rfl
    · rw [Size.add, if_neg hadd, if_pos (Nat.not_lt.1 hadd)]
      rfl
  · rw [Size.mul, if_neg hmul, if_pos (by omega)]
    rfl

/-- What a call for interchanges does: its arguments are looked at one after the other, and then its
steps are made. -/
theorem run_interchangeRows :
    (a.interchangeRows firstRow lastRow pivots stride window).run =
      if firstRow = 0 then
        .ok (.error ⟨a, .badArgument "laswp" "k1 is 1-based and must be at least 1"⟩)
      else if stride = 0 then
        .ok (.error ⟨a, .badArgument "laswp" "incx must be non-zero"⟩)
      else if lastRow < firstRow then
        .ok (.ok a)
      else a.layout >>= fun layout =>
        let plan := InterchangePlan.between firstRow lastRow stride
        let columns := window.getD (0, layout.cols)
        if layout.rows < lastRow then
          .ok (.error ⟨a, .indexOutOfRange "laswp" lastRow layout.rows⟩)
        else if columns.2 < columns.1 ∨ layout.cols < columns.2 then
          .ok (.error ⟨a, .indexOutOfRange "laswp" (max columns.2 columns.1) layout.cols⟩)
        else if Size.limit ≤ plan.lastPlace then
          .error .overflow
        else if pivots.size ≤ plan.lastPlace then
          .ok (.error ⟨a, .indexOutOfRange "laswp" plan.lastPlace pivots.size⟩)
        else
          (plan.steps.foldlM (makeInterchange layout pivots columns.1 columns.2) a).run := by
  unfold interchangeRows
  dsimp only
  by_cases hfirst : firstRow = 0
  · rw [if_pos hfirst, if_pos hfirst]
    rfl
  rw [if_neg hfirst, if_neg hfirst]
  by_cases hstride : stride = 0
  · rw [if_pos hstride, if_pos hstride]
    rfl
  rw [if_neg hstride, if_neg hstride]
  by_cases hnone : lastRow < firstRow
  · rw [if_pos hnone, if_pos hnone]
    rfl
  rw [if_neg hnone, if_neg hnone]
  cases a.layout with
  | error fault => rfl
  | ok layout =>
    rw [ok_bind]
    change ExceptT.run (if layout.rows < lastRow then _ else _) = _
    by_cases hrows : layout.rows < lastRow
    · rw [if_pos hrows, if_pos hrows]
      rfl
    rw [if_neg hrows, if_neg hrows]
    generalize window.getD (0, layout.cols) = columns
    by_cases hcolumns : columns.2 < columns.1 ∨ layout.cols < columns.2
    · rw [if_pos hcolumns, if_pos hcolumns]
      rfl
    rw [if_neg hcolumns, if_neg hcolumns]
    refine (run_lastPlace (InterchangePlan.between firstRow lastRow stride) _).trans ?_
    refine ite_congr rfl (fun _ => rfl) fun _ => ?_
    rw [← runInterchanges_eq_foldlM]
    split <;> rfl

/-- What an exchange of two rows does: it looks at the second row, makes room for a list of pivots up
to the first one, and looks at the first row. -/
theorem run_exchangeRows {r s : Nat} (hlayout : a.layout = .ok layout) :
    (a.exchangeRows r s).run =
      if a.rows ≤ s then
        .ok (.error ⟨a, .indexOutOfRange "laswp_rows" s a.rows⟩)
      else if Size.limit ≤ r + 1 then
        .error .overflow
      else if capacityLimit < sizeBytes * (r + 1) then
        .error .capacity
      else if layout.rows < r + 1 then
        .ok (.error ⟨a, .indexOutOfRange "laswp" (r + 1) layout.rows⟩)
      else if r = s then
        .ok (.ok a)
      else
        .ok <$> a.swapRowsOnPages layout r s 0 layout.cols := by
  unfold exchangeRows
  by_cases hs : a.rows ≤ s
  · rw [if_pos hs, if_pos hs]
    rfl
  rw [if_neg hs, if_neg hs]
  by_cases hword : Size.limit ≤ r + 1
  · rw [if_pos hword, Size.add, if_neg (Nat.not_lt.2 hword)]
    rfl
  rw [if_neg hword, Size.add_eq_ok (Nat.not_le.1 hword)]
  change ExceptT.run (liftM (allocate sizeBytes (r + 1)) >>= _) = _
  by_cases hroom : capacityLimit < sizeBytes * (r + 1)
  · rw [if_pos hroom, allocate, if_neg (Nat.not_le.2 hroom)]
    rfl
  rw [if_neg hroom, allocate, if_pos (Nat.not_lt.1 hroom), hlayout]
  change ExceptT.run (if layout.rows < r + 1 then _ else _) = _
  split_ifs <;> rfl

end Runs

end PagedMatrix

end DenseLinear
