import DenseLinear.Proofs.Frames
import DenseLinear.Proofs.InterchangeCalls

/-!
# Undoing interchanges

An exchange of two rows of every page is its own opposite (`makeInterchange_undone`), so that a
sequence of interchanges is undone by the same steps in the opposite order (`interchanges_undone`).
The call with the opposite stride makes these steps (`interchangeRows_undone`), also on pages
without any columns, whose stacked rows nothing counts.
-/

namespace DenseLinear

namespace PagedMatrix

section Undo

variable {α ρ : Type} [Scalar α ρ] {a b : PagedMatrix α} {pivots : Array Nat}
  {firstRow lastRow count row place start stop : Nat} {stride : Int} {window : Option (Nat × Nat)}

/-! ## One interchange -/

omit [Scalar α ρ] in
/-- Without any columns there is nothing to exchange. -/
theorem returnsOnly_swapRowsOnPages_self (layout : PageLayout) (r s start : Nat) :
    ReturnsOnly (a.swapRowsOnPages layout r s start start) (· = a) := by
  refine returnsOnly_ascend rfl ?_
  rintro page _ rfl
  refine returnsOnly_then fun r' => returnsOnly_then fun s' => ?_
  intro b hb
  unfold swapRowsWithin at hb
  rw [ascend_of_le (Nat.min_le_left _ _), ite_self] at hb
  exact Outcomes.of_returns_pure hb

/-- An interchange that has been made on a stored matrix is its own opposite. -/
theorem makeInterchange_undone (ha : a.Stored) (hpages : a.pages = .ok count) (hstart : start ≤ stop)
    (hstop : stop ≤ a.cols) (hrow : row < a.rows) (hplace : place < pivots.size)
    (h : (makeInterchange ⟨a.rows, a.cols, count⟩ pivots start stop a (row, place)).run =
      .ok (.ok b)) :
    (makeInterchange ⟨a.rows, a.cols, count⟩ pivots start stop b (row, place)).run =
      .ok (.ok a) := by
  have htarget : targetRow pivots place < a.rows := by
    by_contra hbeyond
    rw [run_makeInterchange hplace, if_pos (Nat.not_lt.1 hbeyond)] at h
    cases h
  rcases Nat.eq_zero_or_pos a.cols with hnone | hsome
  · -- the window is empty, so that the first interchange has changed nothing
    obtain rfl : start = stop := by omega
    suffices hsame : b = a by
      subst hsame
      exact h
    rw [run_makeInterchange hplace, if_neg (Nat.not_le.2 htarget)] at h
    split at h
    · exact (Except.ok.inj (Except.ok.inj h)).symm
    · cases hswap : a.swapRowsOnPages ⟨a.rows, a.cols, count⟩ row (targetRow pivots place) start
        start with
      | error fault =>
        rw [hswap] at h
        cases h
      | ok b' =>
        rw [hswap] at h
        obtain rfl := Except.ok.inj (Except.ok.inj h)
        exact returnsOnly_swapRowsOnPages_self _ _ _ _ b' hswap
  · have hheight := ha.height_of_pages hpages hsome
    obtain ⟨count', hpages', hcount, hlimit⟩ := exists_pages hheight
    have hmade (f : Nat → Nat → α) :=
      run_makeInterchange_ofCells a.kind f rfl hlimit hstart hstop hrow hplace htarget
    have hm : 0 < a.rows := by omega
    have hcells := ha.eq_ofCells hheight
    have hrun := hmade a.cell
    rw [← hcells] at hrun
    obtain rfl := Except.ok.inj (Except.ok.inj (h.symm.trans hrun))
    refine (hmade _).trans ?_
    -- an exchange of two rows of every page is its own inverse
    have horder : onPages a.shape.rows (Equiv.swap row (targetRow pivots place)) ∘
        onPages a.shape.rows (Equiv.swap row (targetRow pivots place)) = id := by
      funext r
      refine (onPages_onPages (fun i hi => swap_lt hrow htarget hi) hm r).trans ?_
      rw [← Equiv.coe_trans, Equiv.swap_swap]
      exact onPages_id r
    rw [rearranged_rearranged, horder, rearranged_id]
    exact congrArg (fun b => Except.ok (Except.ok b)) hcells.symm

/-! ## Sequences -/

/-- Interchanges that have been made on a stored matrix are undone in the opposite order. -/
theorem interchanges_undone {steps : List (Nat × Nat)} (ha : a.Stored) (hpages : a.pages = .ok count)
    (hstart : start ≤ stop) (hstop : stop ≤ a.cols)
    (hsteps : ∀ step ∈ steps, step.1 < a.rows ∧ step.2 < pivots.size)
    (h : (steps.foldlM (makeInterchange ⟨a.rows, a.cols, count⟩ pivots start stop) a).run =
      .ok (.ok b)) :
    (steps.reverse.foldlM (makeInterchange ⟨a.rows, a.cols, count⟩ pivots start stop) b).run =
      .ok (.ok a) := by
  induction steps generalizing a with
  | nil =>
    obtain rfl : a = b := Except.ok.inj (Except.ok.inj h)
    rfl
  | cons step rest ih =>
    rw [List.foldlM_cons, run_bind_eq_ok_iff] at h
    obtain ⟨first, hfirst, hrest⟩ := h
    obtain ⟨hrow, hplace⟩ := hsteps step List.mem_cons_self
    -- the first interchange leaves a matrix of the same frame, from which the rest is undone
    obtain ⟨hshape, hsize⟩ : SameFrame a first :=
      (a.keepsFrame_makeInterchange _ _ _ _ step).1 first hfirst
    have hrows : first.rows = a.rows := congrArg Shape.rows hshape
    have hcols : first.cols = a.cols := congrArg Shape.cols hshape
    have hpages' : first.pages = .ok count := (congrArg Shape.pages hshape).trans hpages
    have hundone := ih (ha.of_shape_eq hshape hsize) hpages' (hcols ▸ hstop)
      (fun step h => hrows ▸ hsteps step (List.mem_cons_of_mem _ h)) (by rw [hrows, hcols]; exact hrest)
    rw [hrows, hcols] at hundone
    rw [List.reverse_cons, List.foldlM_append, run_bind_eq_ok_iff]
    refine ⟨first, hundone, ?_⟩
    rw [List.foldlM_cons, run_bind_eq_ok_iff]
    exact ⟨a, makeInterchange_undone ha hpages hstart hstop hrow hplace hfirst, rfl⟩

/-- A call for interchanges that has been made on a stored matrix is undone by the call with the
opposite stride. -/
theorem interchangeRows_undone (ha : a.Stored)
    (h : (a.interchangeRows firstRow lastRow pivots stride window).run = .ok (.ok b)) :
    (b.interchangeRows firstRow lastRow pivots (-stride) window).run = .ok (.ok a) := by
  have hframe : SameFrame a b := (a.keepsFrame_interchangeRows _ _ _ _ _).1 b h
  have hlayout : b.layout = a.layout := congrArg Shape.layout hframe.shape
  rw [run_interchangeRows] at h ⊢
  rw [hlayout]
  split_ifs at h with hfirst hstride hnone
  · cases h
  · cases h
  · obtain rfl : a = b := Except.ok.inj (Except.ok.inj h)
    rw [if_neg hfirst, if_neg (Int.neg_ne_zero.2 hstride), if_pos hnone]
  rw [if_neg hfirst, if_neg (Int.neg_ne_zero.2 hstride), if_neg hnone]
  cases hlaid : a.layout with
  | error fault =>
    rw [hlaid] at h
    cases h
  | ok layout =>
    obtain ⟨count, hpages, hpaged⟩ := exists_pages_of_layout hlaid
    obtain rfl : layout = ⟨a.rows, a.cols, count⟩ := hpaged
    rw [hlaid, ok_bind] at h
    rw [ok_bind]
    dsimp only at h ⊢
    rw [InterchangePlan.lastPlace_neg, InterchangePlan.steps_neg hstride]
    split_ifs at h with hlast hcolumns hword hplace
    · cases h
    · cases h
    · cases h
    rw [if_neg hlast, if_neg hcolumns, if_neg hword, if_neg hplace]
    have hwithin : WithinMatrix a firstRow lastRow window :=
      ⟨by omega, by omega, by omega, by omega, by omega⟩
    exact interchanges_undone ha hpages hwithin.start_le hwithin.stop_le
      (fun step hmem => ⟨hwithin.row_lt hmem,
        (InterchangePlan.le_lastPlace hmem).trans_lt (Nat.not_le.1 hplace)⟩) h

end Undo

/-- Interchanges with a stride of two, of which the second one is with a row that the first one has
moved. -/
theorem interchangeRows_undone_twoPages :
    twoPages.Stored ∧ ∃ b, b.data = #[5, 6, 1, 2, 3, 4, 11, 12, 7, 8, 9, 10] ∧
      (twoPages.interchangeRows 1 2 #[3, 1, 3] 2 none).run = .ok (.ok b) ∧
      (b.interchangeRows 1 2 #[3, 1, 3] (-2) none).run = .ok (.ok twoPages) := by
  have hrun : (twoPages.interchangeRows 1 2 #[3, 1, 3] 2 none).run =
      .ok (.ok { twoPages with data := #[5, 6, 1, 2, 3, 4, 11, 12, 7, 8, 9, 10] }) := by
    with_unfolding_all rfl
  exact ⟨stored_twoPages, _, rfl, hrun, interchangeRows_undone stored_twoPages hrun⟩

end PagedMatrix

end DenseLinear
