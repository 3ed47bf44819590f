import DenseLinear.Proofs.ExactReals
import DenseLinear.Proofs.MultiplyAdd

/-!
# The update by a product over rings

Over entries that form a ring, commutative or not, `multiplyAdd` computes `alpha * A * B + beta * C`.
It has many ways to get there: an old entry is dropped or kept without a product, an empty product
is not formed at all, and a product is added entry by entry or tile by tile, on top of the old
entries or from a matrix of its own. Each way leaves the same sums (`updatedCells_eq_sum`), so the
blocking parameters, the surroundings and the special values of the factors do not matter
(`multiplyAdd_eq_sums`).
-/

namespace DenseLinear

namespace PagedMatrix

section Sums

variable {K R : Type} [RingScalar K R] {A B C : Nat → Nat → K} {m k n : Nat}

/-- Dropping or keeping an entry is multiplying it by zero or one. -/
theorem rescale_eq_mul (beta x : K) : Scalar.rescale beta x = beta * x := by
  unfold Scalar.rescale
  split
  · rename_i hzero
    rw [(RingScalar.beq_iff _ _).1 hzero, zero_mul]
  · split
    · rename_i hone
      rw [(RingScalar.beq_iff _ _).1 hone, one_mul]
    · rfl

/-- A cell that has taken all its terms one by one has taken their sum. -/
theorem progress_eq_sum (A B C : Nat → Nat → K) (k i j : Nat) :
    progress A B C (fun _ _ => k) i j = C i j + ∑ l ∈ Finset.range k, A i l * B l j :=
  RingScalar.accumulate_eq_sum (A i) (fun l => B l j) k (C i j)

/-- A cell takes `alpha` times the sum that was formed for it. -/
theorem withSums_eq_sum (alpha : K) (A B C : Nat → Nat → K) (k i j : Nat) :
    withSums alpha A B k C i j = C i j + alpha * ∑ l ∈ Finset.range k, A i l * B l j := by
  rw [withSums, Scalar.addMul, RingScalar.accumulate_eq_sum, zero_add]

/-- Both ways of adding a product add `alpha` times its sums. -/
theorem addedCells_eq_sum (alpha : K) (A B C : Nat → Nat → K) (blocking : Blocking) (i j : Nat) :
    addedCells alpha A B m k n C blocking i j =
      C i j + alpha * ∑ l ∈ Finset.range k, A i l * B l j := by
  unfold addedCells
  split
  · -- the terms were added as they are only because `alpha` is one
    rename_i h
    rw [progress_eq_sum, (RingScalar.beq_iff _ _).1 h.2, one_mul]
  · exact withSums_eq_sum alpha A B C k i j

/-- The cells after an update are those of `alpha * A * B + beta * C`, also where the product is left
out. -/
theorem updatedCells_eq_sum (alpha beta : K) (A B C : Nat → Nat → K) (blocking : Blocking)
    {i j : Nat} (hi : i < m) (hj : j < n) :
    updatedCells alpha A B m k n beta C blocking i j =
      alpha * ∑ l ∈ Finset.range k, A i l * B l j + beta * C i j := by
  unfold updatedCells
  split
  · rename_i hempty
    -- there is a cell, so the product was left out for a factor of zero or for want of terms
    have hzero : alpha * ∑ l ∈ Finset.range k, A i l * B l j = 0 := by
      simp only [Bool.or_eq_true, decide_eq_true_eq] at hempty
      rcases hempty with ((halpha | hm) | hn) | hk
      · rw [(RingScalar.beq_iff _ _).1 halpha, zero_mul]
      · omega
      · omega
      · rw [hk, Finset.sum_range_zero, mul_zero]
    rw [hzero, zero_add]
    exact rescale_eq_mul beta (C i j)
  · rw [addedCells_eq_sum, rescale_eq_mul, add_comm]

end Sums

section Update

variable {K R : Type} [RingScalar K R] [RealArith R] {a b c : PagedMatrix K} {m k n : Nat}

/-- The product by its definition has the sums of the products for its cells. -/
theorem product_eq_sums (ha : a.Stored) (hb : b.Stored) (hpage : a.SinglePage)
    (hpage' : b.SinglePage) (hinner : b.rows = a.cols) (hfits : Fits K (a.rows * b.cols)) :
    product a b = .ok (ofCells { rows := a.rows, cols := b.cols } .real a.rows fun i j =>
      ∑ l ∈ Finset.range a.cols, a.cell i l * b.cell l j).refreshKind := by
  have h : product (ofCells a.shape a.kind a.rows a.cell) (ofCells b.shape b.kind b.rows b.cell) =
      .ok _ := RingScalar.product_eq_ok hinner ha.rows_lt hfits fun _ _ _ _ => rfl
  rwa [← ha.eq_ofCells_of_singlePage hpage, ← hb.eq_ofCells_of_singlePage hpage'] at h

/-- In sound surroundings and under every valid choice of blocking parameters the update succeeds and
leaves `alpha * A * B + beta * C` in the cells, whichever way it takes. Without factors and without
an old entry, that is the product by its definition. -/
theorem multiplyAdd_eq_sums (alpha beta : K) {choice : BlockingChoice} {ambient : Ambient}
    (ha : a.Stored) (hb : b.Stored) (hc : c.Stored) (ha' : a.height = .ok m ∧ a.cols = k)
    (hb' : b.height = .ok k ∧ b.cols = n) (hc' : c.height = .ok m ∧ c.cols = n)
    (hchoice : choice.Valid) (hambient : ambient.Sound) :
    ∃ c' after, Runs (multiplyAdd alpha a m k b n beta c choice) ambient c' after ∧
      c'.shape = c.shape ∧
      (∀ i j, i < m → j < n → c'.get i j =
        .ok (alpha * ∑ l ∈ Finset.range k, a.cell i l * b.cell l j + beta * c.cell i j)) ∧
      (alpha = 1 → beta = 0 → a.SinglePage → b.SinglePage → c.SinglePage →
        ∃ p, product a b = .ok p ∧ c'.SameEntries p) := by
  obtain ⟨blocking, after, -, hrun⟩ := exists_runs_multiplyAdd alpha beta choice ha hb hc
    (requireOperands_eq_ok_iff.2 ⟨ha', hb', hc'⟩) hchoice hambient
  refine ⟨_, after, hrun, rfl, ?_, ?_⟩
  · intro i j hi hj
    rw [get_refreshKind, get_ofCells hi (Nat.lt_of_lt_of_eq hj hc'.2.symm),
      updatedCells_eq_sum alpha beta _ _ _ blocking hi hj]
  · rintro rfl rfl hpage hpage' hpage''
    -- of a single page the stacked rows are the rows
    have hma : a.rows = m := Except.ok.inj ((ha.height_eq hpage).symm.trans ha'.1)
    have hkb : b.rows = k := Except.ok.inj ((hb.height_eq hpage').symm.trans hb'.1)
    have hmc : c.rows = m := Except.ok.inj ((hc.height_eq hpage'').symm.trans hc'.1)
    have hfits : Fits K (a.rows * b.cols) := by
      have h := hc.fits_of_singlePage hpage''
      rwa [hmc, hc'.2, ← hb'.2, ← hma] at h
    refine ⟨_, product_eq_sums ha hb hpage hpage' (hkb.trans ha'.2.symm) hfits, ?_⟩
    have hentries : (ofCells c.shape c.kind m
        (updatedCells 1 a.cell b.cell m k n 0 c.cell blocking)).SameEntries
        (ofCells { rows := a.rows, cols := b.cols } .real m fun i j =>
          ∑ l ∈ Finset.range a.cols, a.cell i l * b.cell l j) := by
      refine sameEntries_ofCells (hmc.trans hma.symm) (hc'.2.trans hb'.2.symm) fun i j hi hj => ?_
      rw [updatedCells_eq_sum 1 0 _ _ _ blocking hi (Nat.lt_of_lt_of_eq hj hc'.2), one_mul, zero_mul,
        add_zero, ha'.2]
    rw [← hma] at hentries ⊢
    exact ⟨hentries.rows, hentries.cols, hentries.data⟩

end Update

/-- A square matrix of numbers. -/
def squareReals : PagedMatrix ℝ := { shape := { rows := 2, cols := 2 }, data := #[1, 5, 6, 9] }

/-- A column of numbers. -/
def columnReals : PagedMatrix ℝ := { shape := { rows := 2, cols := 1 }, data := #[5, 6] }

/-- Two pages of one entry each. -/
def pagedReals : PagedMatrix ℝ :=
  { shape := { rows := 1, cols := 1, trailing := [2] }, data := #[7, 8] }

/-- The update of two pages, tile by tile and with factors other than zero and one. -/
theorem multiplyAdd_eq_sums_pagedReals :
    squareReals.Stored ∧ columnReals.Stored ∧ pagedReals.Stored ∧
      (BlockingChoice.tiled 1).Valid ∧ ({} : Ambient).Sound ∧
      ∃ c' after, Runs (multiplyAdd 2 squareReals 2 2 columnReals 1 3 pagedReals (.tiled 1)) {}
        c' after ∧ c'.shape = pagedReals.shape ∧ c'.get 0 0 = .ok 91 ∧ c'.get 1 0 = .ok 192 := by
  have hsquare : squareReals.Stored := ⟨rfl, by decide, by decide, by decide⟩
  have hcolumn : columnReals.Stored := ⟨rfl, by decide, by decide, by decide⟩
  have hpaged : pagedReals.Stored := ⟨rfl, by decide, by decide, by decide⟩
  have hchoice : (BlockingChoice.tiled 1).Valid :=
    BlockingChoice.valid_tiled (Nat.le_refl 1) (by decide)
  have hfirst : 2 * ∑ l ∈ Finset.range 2, squareReals.cell 0 l * columnReals.cell l 0 +
      3 * pagedReals.cell 0 0 = (91 : ℝ) := by
    norm_num [Finset.sum_range_succ, squareReals, columnReals, pagedReals, cell]
  have hsecond : 2 * ∑ l ∈ Finset.range 2, squareReals.cell 1 l * columnReals.cell l 0 +
      3 * pagedReals.cell 1 0 = (192 : ℝ) := by
    norm_num [Finset.sum_range_succ, squareReals, columnReals, pagedReals, cell]
  obtain ⟨c', after, hrun, hshape, hcells, -⟩ := multiplyAdd_eq_sums 2 3 hsquare hcolumn hpaged
    (m := 2) (k := 2) (n := 1) ⟨rfl, rfl⟩ ⟨rfl, rfl⟩ ⟨rfl, rfl⟩ hchoice Ambient.sound_initial
  refine ⟨hsquare, hcolumn, hpaged, hchoice, Ambient.sound_initial, c', after, hrun, hshape, ?_, ?_⟩
  · rw [hcells 0 0 (by decide) (by decide), hfirst]
  · rw [hcells 1 0 (by decide) (by decide), hsecond]

end PagedMatrix

end DenseLinear
