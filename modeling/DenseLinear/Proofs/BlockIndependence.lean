import Mathlib.Tactic.Abel
import DenseLinear.Proofs.BlockedElimination
import DenseLinear.Proofs.ExactReals

/-!
# Independence of the blocks

Over exact scalars a blocked factorisation leaves what the elimination of the whole matrix as a
single panel leaves, whatever the edge length of its blocks and the way of its updates.

The two eliminate the same columns, one after the other. They differ to the right of the panel: the
blocked one leaves these columns for later, while the other one has updated them. The invariant
(`Delayed`) says what is missing there: the products of the multipliers so far by the finished rows
of the upper factor. Forward substitution makes up for it in the rows of the panel
(`Delayed.forwardSolved_eq`), the trailing update below them (`Delayed.blockStep`).
-/

namespace DenseLinear

namespace Lu

open PagedMatrix

/-! ## The pivot has the largest absolute value -/

section Pivots

variable {α ρ : Type} [LinearOrder ρ] [RealArith ρ] [LawfulOrder ρ] [Scalar α ρ]

theorem bestRow_spec (f : Nat → Nat → α) (i count : Nat) :
    (bestRow f i count).2 = Scalar.modulus (f (bestRow f i count).1 i) ∧
      ∀ r, i ≤ r → r ≤ i + count → Scalar.modulus (f r i) ≤ (bestRow f i count).2 := by
  induction count with
  | zero =>
    refine ⟨rfl, fun r hr hr' => ?_⟩
    obtain rfl : r = i := by omega
    exact le_refl _
  | succ count ih =>
    obtain ⟨hvalue, hbest⟩ := ih
    simp only [bestRow, LawfulOrder.lt_iff]
    split
    · -- the new row is better than all before it
      rename_i hlt
      refine ⟨rfl, fun r hr hr' => ?_⟩
      rcases Nat.lt_or_ge r (i + 1 + count) with h | h
      · exact (hbest r hr (by omega)).trans hlt.le
      · obtain rfl : r = i + 1 + count := by omega
        exact le_refl _
    · -- the best row so far stays the best one
      rename_i hge
      refine ⟨hvalue, fun r hr hr' => ?_⟩
      rcases Nat.lt_or_ge r (i + 1 + count) with h | h
      · exact hbest r hr (by omega)
      · obtain rfl : r = i + 1 + count := by omega
        exact not_lt.1 hge

/-- No entry from the diagonal down has a larger absolute value than the pivot. -/
theorem modulus_le_pivot {m i r : Nat} (f : Nat → Nat → α) (hi : i ≤ r) (hr : r < m) :
    (Scalar.modulus (Stage.pivoted m i f r i) : ρ) ≤ Scalar.modulus (Stage.pivoted m i f i i) := by
  have hspec := bestRow_spec f i (m - (i + 1))
  have hswap := swap_lt (i := r) (show i < m by omega) (pivotOf_lt f (show i < m by omega)) hr
  have hle := le_swap (le_pivotOf m f i) hi
  unfold Stage.pivoted exchanged
  -- after the exchange the diagonal holds what `bestRow` has found
  rw [Equiv.swap_apply_left]
  have h := hspec.2 (Equiv.swap i (pivotOf m f i) r) hle (by omega)
  rw [hspec.1] at h
  exact h

end Pivots

/-! ## What a panel leaves for later -/

variable {K R : Type} [LinearOrder R] [RealArith R] [ExactScalar K R]
  {m n k i stop : Nat}

/-- The cells `V` of a run on the panel `[k, stop)` beside the cells `W` of a run on all columns,
both before column `i`. The panel is the same; to the right of it the products of the multipliers by
the finished rows from row `k` on have not been taken off yet. -/
structure Delayed (m n k i stop : Nat) (V W : Nat → Nat → K) : Prop where
  /-- The columns up to the end of the panel are the same. -/
  left : ∀ r c, r < m → c < stop → V r c = W r c
  /-- The columns to the right of it are still to be updated. -/
  right : ∀ r c, r < m → stop ≤ c → c < n →
    V r c = W r c + ∑ l ∈ Finset.Ico k (min i r), W r l * W l c

/-- An entry to the right of the column loses the multiple of the pivot row that its multiplier
says, also if that is zero. -/
theorem eliminated_right {r c : Nat} (f : Nat → Nat → K) (hr : i < r) (hr' : r < m) (hc : i < c)
    (hc' : c < stop) :
    eliminated m stop i f r c = f r c - Scalar.quotient (f r i) (f i i) * f i c := by
  unfold eliminated
  dsimp only
  rw [if_pos ⟨hr, hr'⟩, if_neg (by omega)]
  split
  · rfl
  · rename_i hzero
    -- the kernel skips a multiplier of zero, where there is nothing to take off
    have hfactor : Scalar.quotient (f r i) (f i i) = 0 := by
      by_contra hne
      exact hzero ⟨⟨hc, hc'⟩, (RingScalar.beq_eq_false_iff _ _).2 hne⟩
    rw [hfactor, zero_mul, sub_zero]

namespace Delayed

variable {V W : Nat → Nat → K}

theorem start (k : Nat) (f : Nat → Nat → K) : Delayed m n k k stop f f := by
  refine ⟨fun _ _ _ _ => rfl, fun r c _ _ _ => ?_⟩
  rw [Finset.Ico_eq_empty (by omega), Finset.sum_empty, add_zero]

/-- Both runs find the same pivot. -/
theorem pivotOf_eq (h : Delayed m n k i stop V W) (hi : i < m) (hstop : i < stop) :
    pivotOf m V i = pivotOf m W i :=
  pivotOf_congr hi fun r _ hr => h.left r i hr hstop

/-- An exchange of rows from row `i` on keeps the relation. -/
theorem exchanged {p : Nat} (h : Delayed m n k i stop V W) (hi : i < m) (hp : i ≤ p) (hp' : p < m) :
    Delayed m n k i stop (exchanged i p V) (PagedMatrix.exchanged i p W) := by
  refine ⟨fun r c hr hc => h.left _ c (swap_lt hi hp' hr) hc, fun r c hr hc hc' => ?_⟩
  have hright := h.right (Equiv.swap i p r) c (swap_lt hi hp' hr) hc hc'
  -- no row crosses row `i`, so the sums keep their lengths
  have hrows : min i (Equiv.swap i p r) = min i r := by
    rcases Nat.lt_or_ge r i with hlt | hge
    · rw [Equiv.swap_apply_of_ne_of_ne (by omega) (by omega)]
    · rw [Nat.min_eq_left (le_swap hp hge), Nat.min_eq_left hge]
  rw [hrows] at hright
  refine hright.trans (congrArg _ (Finset.sum_congr rfl fun l hl => ?_))
  rw [Finset.mem_Ico] at hl
  rw [exchanged_of_lt W hp (by omega : l < i)]
  rfl

theorem pivoted (h : Delayed m n k i stop V W) (hi : i < m) (hstop : i < stop) :
    Delayed m n k i stop (Stage.pivoted m i V) (Stage.pivoted m i W) := by
  unfold Stage.pivoted
  rw [h.pivotOf_eq hi hstop]
  exact h.exchanged hi (le_pivotOf m W i) (pivotOf_lt W hi)

/-- The sum for row `r` grows by one term if the row is below row `i`. -/
theorem sum_succ (hk : k ≤ i) (r : Nat) (t : Nat → K) :
    ∑ l ∈ Finset.Ico k (min (i + 1) r), t l =
      ∑ l ∈ Finset.Ico k (min i r), t l + if i < r then t i else 0 := by
  split
  · rename_i hr
    rw [Nat.min_eq_left (by omega), Nat.min_eq_left (by omega), Finset.sum_Ico_succ_top hk]
  · rename_i hr
    rw [Nat.min_eq_right (by omega), Nat.min_eq_right (by omega), add_zero]

/-- A column without a pivot is passed over by both runs: its multipliers are zero. -/
theorem of_zero (h : Delayed m n k i stop V W) (hk : k ≤ i)
    (hzero : ∀ r, i < r → r < m → W r i = 0) : Delayed m n k (i + 1) stop V W := by
  refine ⟨h.left, fun r c hr hc hc' => ?_⟩
  rw [h.right r c hr hc hc', sum_succ hk r fun l => W r l * W l c]
  split
  · rename_i hlt
    rw [hzero r hlt hr, zero_mul, add_zero]
  · rw [add_zero]

/-- The elimination of column `i`: the multipliers are the same, and what the whole run takes off to
the right of the panel is what the panel run leaves for later. -/
theorem eliminated (h : Delayed m n k i stop V W) (hk : k ≤ i) (hi : i < stop) (hm : i < m)
    (hstop : stop ≤ n) :
    Delayed m n k (i + 1) stop (eliminated m stop i V) (Lu.eliminated m n i W) := by
  have hcol : ∀ r, r < m → V r i = W r i := fun r hr => h.left r i hr hi
  constructor
  · intro r c hr hc
    unfold Lu.eliminated
    dsimp only
    rw [hcol r hr, hcol i hm, h.left r c hr hc, h.left i c hm hc]
    have hrange : i < c ∧ c < stop ↔ i < c ∧ c < n := by omega
    simp only [hrange]
  · intro r c hr hc hc'
    -- finished rows and columns are not touched, so the old terms stay as they are
    have hsum : ∑ l ∈ Finset.Ico k (min i r), Lu.eliminated m n i W r l * Lu.eliminated m n i W l c =
        ∑ l ∈ Finset.Ico k (min i r), W r l * W l c := by
      refine Finset.sum_congr rfl fun l hl => ?_
      rw [Finset.mem_Ico] at hl
      rw [eliminated_of_lt W (by omega), eliminated_of_le W (by omega)]
    rw [eliminated_of_stop_le V hi hc, h.right r c hr hc hc',
      sum_succ hk r fun l => Lu.eliminated m n i W r l * Lu.eliminated m n i W l c, hsum]
    split
    · -- row `r` gains the term of column `i`, which is what the whole run has taken off
      rename_i hlt
      rw [eliminated_right W hlt hr (by omega) hc', eliminated_self W hlt hr,
        eliminated_of_le W (Nat.le_refl i)]
      abel
    · rename_i hge
      rw [eliminated_of_le W (by omega), add_zero]

/-- What a row of the solution of forward substitution is: the entry that the whole run has. -/
theorem forwardColumn_eq {stop c : Nat} (h : Delayed m n k stop stop V W)
    (hc : stop ≤ c) (hc' : c < n) {count : Nat} (hcount : k + count ≤ stop) {r : Nat} (hr : r < m) :
    forwardColumn V k (fun i => V i c) count r =
      if k ≤ r ∧ r < k + count then W r c else V r c := by
  induction count generalizing r with
  | zero =>
    rw [if_neg (by omega)]
    rfl
  | succ count ih =>
    have hcount' : k + count ≤ stop := by omega
    simp only [forwardColumn, Function.update_apply]
    by_cases hlast : r = k + count
    · -- the rows solved before agree with the whole run, so just the missing sum is taken off
      subst hlast
      have hsum : ∑ l ∈ Finset.Ico k (k + count),
          V (k + count) l * forwardColumn V k (fun i => V i c) count l =
          ∑ l ∈ Finset.Ico k (k + count), W (k + count) l * W l c := by
        refine Finset.sum_congr rfl fun l hl => ?_
        rw [Finset.mem_Ico] at hl
        rw [ih hcount' (by omega), if_pos (by omega), h.left _ l hr (by omega)]
      rw [if_pos rfl, if_pos (by omega), RingScalar.takeOff_eq_sum _ _ (by omega), hsum,
        ih hcount' hr, if_neg (by omega), h.right _ c hr hc hc', Nat.min_eq_right (by omega),
        add_sub_cancel_right]
    · have hrange : k ≤ r ∧ r < k + (count + 1) ↔ k ≤ r ∧ r < k + count := by omega
      rw [if_neg hlast, ih hcount' hr]
      simp only [hrange]

/-- Forward substitution and the trailing update make up for everything that the panel run has left
for later. -/
theorem trailing_eq {width : Nat} (h : Delayed m n k (k + width) (k + width) V W) :
    AgreeOn m n (trailing (· - ·) m n k width (forwardSolved k width V)) W := by
  intro r c hr hc
  have hleft : ∀ r' c', r' < m → c' < k + width → forwardSolved k width V r' c' = W r' c' := by
    intro r' c' hr' hc''
    unfold forwardSolved
    rw [if_neg (by omega), h.left r' c' hr' hc'']
  have hright : ∀ r', r' < m → k + width ≤ c → forwardSolved k width V r' c =
      if k ≤ r' ∧ r' < k + width then W r' c else V r' c := by
    intro r' hr' hc'
    unfold forwardSolved
    rw [if_pos hc', h.forwardColumn_eq hc' hc (Nat.le_refl _) hr']
  unfold trailing overwrite
  dsimp only
  by_cases hbelow : (k + width ≤ r ∧ r < m) ∧ k + width ≤ c ∧ c < n
  · obtain ⟨⟨hr', -⟩, hc', -⟩ := hbelow
    -- below the panel all terms are missing, and the update takes them all off
    have hsum : accumulate (fun l => forwardSolved k width V r (k + l))
        (fun l => forwardSolved k width V (k + l) c) width 0 =
        ∑ l ∈ Finset.Ico k (k + width), W r l * W l c := by
      rw [← RingScalar.accumulate_shift_eq_sum]
      refine accumulate_congr (fun l hl => hleft r _ hr (by omega)) (fun l hl => ?_) 0
      rw [hright _ (by omega) hc', if_pos (by omega)]
    rw [if_pos ⟨⟨hr', hr⟩, hc', hc⟩, hsum, hright r hr hc', if_neg (by omega), h.right r c hr hc' hc,
      Nat.min_eq_left hr', add_sub_cancel_right]
  · rw [if_neg hbelow]
    -- elsewhere the panel is the same, its rows are solved for, and above it nothing is missing
    rcases Nat.lt_or_ge c (k + width) with hc' | hc'
    · exact hleft r c hr hc'
    · rw [hright r hr hc']
      split
      · rfl
      · rw [h.right r c hr hc' hc, Finset.Ico_eq_empty (by omega), Finset.sum_empty, add_zero]

end Delayed

/-! ## Runs -/

section Runs

variable [LawfulOrder R]

/-- Two runs before the same column, one on a panel and one on all columns. -/
structure Beside (m n k i stop : Nat) (s t : Stage K) : Prop where
  /-- The cells. -/
  cells : Delayed m n k i stop s.cells t.cells
  /-- The pivots are the same. -/
  pivots : s.pivots = t.pivots
  /-- The status is the same. -/
  status : s.status = t.status

/-- If the pivot of a column is zero, the column is zero from the diagonal down. -/
theorem pivoted_eq_zero {f : Nat → Nat → K} (hnull : Scalar.isNull (Stage.pivoted m i f i i) = true)
    {r : Nat} (hi : i ≤ r) (hr : r < m) : Stage.pivoted m i f r i = 0 := by
  have hle := modulus_le_pivot f hi hr
  rw [(ExactScalar.isNull_iff _).1 hnull] at hle
  exact ExactScalar.eq_zero_of_modulus_le hle

theorem Beside.step {s t : Stage K} (h : Beside m n k i stop s t) (hk : k ≤ i) (hi : i < stop)
    (hm : i < m) (hstop : stop ≤ n) :
    Beside m n k (i + 1) stop (s.step m stop i) (t.step m n i) := by
  have hpivot := h.cells.pivotOf_eq hm hi
  have hcells := h.cells.pivoted hm hi
  -- both runs look at the same pivot, so they take the same branch
  have hdiagonal := hcells.left i i hm hi
  refine ⟨?_, ?_, ?_⟩
  · simp only [Stage.step, hdiagonal]
    split
    · rename_i hnull
      exact hcells.of_zero hk fun r hr hr' => pivoted_eq_zero hnull (by omega) hr'
    · exact hcells.eliminated hk hi hm hstop
  · simp only [Stage.step, hpivot, h.pivots]
  · simp only [Stage.step, hpivot, hdiagonal, h.status]

theorem Beside.run (s : Stage K) {width : Nat} (hm : k + width ≤ m) (hn : k + width ≤ n) {count : Nat}
    (hcount : count ≤ width) :
    Beside m n k (k + count) (k + width) (s.run m (k + width) k count) (s.run m n k count) := by
  induction count with
  | zero => exact ⟨Delayed.start k s.cells, rfl, rfl⟩
  | succ count ih => exact (ih (by omega)).step (by omega) (by omega) (by omega) hn

/-- A block leaves what the elimination of its columns in the whole matrix leaves. -/
theorem blockStep_sameOn (s : Stage K) {width : Nat} (hm : k + width ≤ m) (hn : k + width ≤ n) :
    (blockStep (· - ·) m n k width s).SameOn m n (s.run m n k width) := by
  have h := Beside.run s hm hn (Nat.le_refl width)
  rw [blockStep_eq]
  refine ⟨?_, h.pivots, h.status⟩
  dsimp only
  split
  · exact h.cells.trailing_eq
  · rename_i hright
    exact fun r c hr hc => h.cells.left r c hr (by omega)

/-- The blocks of a factorisation go through the stages of the elimination as a single panel. -/
theorem blocks_run (shape : Shape) (edge : Nat) (f : Nat → Nat → K) :
    Blocks (· - ·) shape shape.rows edge f
      fun k => (Stage.initial shape.rows shape.cols f).run shape.rows shape.cols 0 k where
  start := ⟨fun _ _ _ _ => rfl, rfl, rfl⟩
  block := by
    intro k hk _
    have hnext : min (k + edge) (min shape.rows shape.cols) =
        k + min edge (min shape.rows shape.cols - k) := by omega
    rw [hnext, Stage.run_add, Nat.zero_add]
    exact blockStep_sameOn _ (by omega) (by omega)
  size_pivots k := by
    rw [Stage.size_pivots_run]
    exact Array.size_replicate
  swaps_le k _ := (Stage.swaps_run_le _ _ _ _ _).trans (by simp [Stage.initial])

end Runs

/-! ## Factorisations -/

/-- An update by a product takes the sum of products off each entry, in any way that the blocking
parameters decide on; also where minus one is one. -/
theorem updatesBy_sub : UpdatesBy fun x s : K => x - s := by
  intro A B C m k n blocking i j hm hk hn
  have hzero : ((-1 : K) == 0) = false :=
    (RingScalar.beq_eq_false_iff _ _).2 (neg_ne_zero.2 one_ne_zero)
  have hpos : ¬(((-1 : K) == 0) || m = 0 || n = 0 || k = 0) = true := by
    simp only [hzero, Bool.false_or, Bool.or_eq_true, decide_eq_true_eq, not_or]
    omega
  unfold updatedCells addedCells
  rw [if_neg hpos]
  split
  · rename_i htiled
    -- tiles add to the old entry directly only where `-1 = 1`
    have hone : (-1 : K) = 1 := (RingScalar.beq_iff _ _).1 htiled.2
    simp only [progress, RingScalar.rescale_one, RingScalar.accumulate_eq_sum, zero_add]
    rw [sub_eq_add_neg, ← neg_one_mul, hone, one_mul]
  · simp only [withSums, Scalar.addMul, RingScalar.rescale_one, neg_one_mul, sub_eq_add_neg]

section Factorisations

variable [LawfulOrder R] {a : PagedMatrix K} {choice : BlockingChoice}

/-- The factorisation with products. -/
theorem ends_factorByProduct_exact (ha : a.Stored) (hpage : a.SinglePage) (hchoice : choice.Valid) :
    Ends (factorByProduct choice a) (· = factored a) := by
  have hrows : a.shape.rows < Size.limit := ha.rows_lt
  have hends := ends_factorByProduct a.kind (finalStage a) updatesBy_sub hchoice
    (fun edge _ _ => ⟨_, blocks_run a.shape edge a.cell, rfl⟩)
    (firstNull_finalStage a) (Nat.le_refl _) hrows
    ha.cols_lt (ha.fits_of_singlePage hpage)
  rw [← ha.eq_ofCells_of_singlePage hpage] at hends
  exact hends

/-- The factorisation with tiles, whatever their edge length is. -/
theorem ends_factorInTiles_exact (ha : a.Stored) (hpage : a.SinglePage) {edge : Nat}
    (hpos : 1 ≤ edge) : Ends (factorInTiles edge a) (· = factored a) := by
  have hrows : a.shape.rows < Size.limit := ha.rows_lt
  have hends := ends_factorInTiles a.kind (blocks_run a.shape edge a.cell) (Nat.le_refl _) hrows
    (ha.fits_of_singlePage hpage) hpos
  rwa [← ha.eq_ofCells_of_singlePage hpage] at hends

/-- The factorisation with tiles of the default edge length. -/
theorem ends_factorByTiles_exact (ha : a.Stored) (hpage : a.SinglePage) :
    Ends (factorByTiles a) (· = factored a) := by
  unfold factorByTiles
  refine ends_bind ends_edge ?_
  rintro edge ⟨hpos, -⟩
  exact ends_factorInTiles_exact ha hpage hpos

/-- The factorisation with tiles under a choice. -/
theorem ends_factorByTilesWith_exact (ha : a.Stored) (hpage : a.SinglePage)
    (hchoice : choice.Valid) : Ends (factorByTilesWith choice a) (· = factored a) := by
  unfold factorByTilesWith
  refine ends_bind (ends_adapt (ends_settle hchoice)) ?_
  rintro blocking ⟨⟨hpos, -⟩, -⟩
  exact ends_unrefused (ends_factorInTiles_exact ha hpage hpos)

/-- The factorisation with the default parameters. -/
theorem ends_factor_exact (ha : a.Stored) (hpage : a.SinglePage) (update : TrailingUpdate) :
    Ends (factor update a) (· = factored a) := by
  cases update with
  | product => exact ends_factorByProduct_exact ha hpage BlockingChoice.valid_default
  | tiles => exact ends_unrefused (ends_factorByTiles_exact ha hpage)

/-- Both factorisations leave and report what the elimination of the whole matrix as a single panel
does, under every choice of blocking parameters and in all surroundings. Only the kind of the
entries is brought up to date at the end. -/
theorem factorisations_eq_single_panel (ha : a.Stored) (hpage : a.SinglePage) :
    ∃ whole : Sweep K,
      eliminatePanel 0 a.cols ⟨a, Array.replicate (min a.rows a.cols) 0, {}⟩ = .ok whole ∧
      ∀ (choice : BlockingChoice) (ambient : Ambient), choice.Valid → ambient.Sound →
        (∃ ambient', Runs (factorByProduct choice a) ambient
          (whole.matrix.refreshKind, ⟨whole.pivots, whole.status.swaps, whole.status.firstNull⟩)
          ambient') ∧
        ∃ ambient', Runs (factorByTilesWith choice a) ambient
          (whole.matrix.refreshKind, ⟨whole.pivots, whole.status.swaps, whole.status.firstNull⟩)
          ambient' := by
  refine ⟨_, eliminatePanel_whole ha hpage, fun choice ambient hchoice hambient => ?_⟩
  obtain ⟨_, after, rfl, -, hproduct⟩ :=
    ends_iff_runs.1 (ends_factorByProduct_exact ha hpage hchoice) ambient hambient
  obtain ⟨_, after', rfl, -, htiles⟩ :=
    ends_iff_runs.1 (ends_factorByTilesWith_exact ha hpage hchoice) ambient hambient
  exact ⟨⟨after, hproduct⟩, ⟨after', htiles⟩⟩

end Factorisations

/-- A wide matrix of rank two whose first column has no pivot. -/
def pivotlessWide : PagedMatrix ℝ :=
  { shape := { rows := 2, cols := 3 }, data := #[0, 2, 1, 0, 4, 3] }

theorem stored_pivotlessWide : pivotlessWide.Stored :=
  ⟨rfl, by decide, by decide, by decide⟩

/-- The factorisations of a singular wide matrix, in blocks of a single column. -/
theorem factorisations_eq_single_panel_pivotlessWide :
    pivotlessWide.Stored ∧ pivotlessWide.SinglePage ∧ (BlockingChoice.tiled 1).Valid ∧
      ({} : Ambient).Sound ∧ ∃ whole : Sweep ℝ,
        eliminatePanel 0 3 ⟨pivotlessWide, Array.replicate 2 0, {}⟩ = .ok whole ∧
        (∃ ambient', Runs (factorByProduct (.tiled 1) pivotlessWide) {}
          (whole.matrix.refreshKind, ⟨whole.pivots, whole.status.swaps, whole.status.firstNull⟩)
          ambient') ∧
        ∃ ambient', Runs (factorByTilesWith (.tiled 1) pivotlessWide) {}
          (whole.matrix.refreshKind, ⟨whole.pivots, whole.status.swaps, whole.status.firstNull⟩)
          ambient' := by
  have hchoice : (BlockingChoice.tiled 1).Valid := BlockingChoice.valid_tiled (by decide) (by decide)
  obtain ⟨whole, hpanel, hruns⟩ :=
    factorisations_eq_single_panel stored_pivotlessWide (show pivotlessWide.SinglePage from rfl)
  exact ⟨stored_pivotlessWide, rfl, hchoice, Ambient.sound_initial, whole, hpanel,
    hruns (.tiled 1) {} hchoice Ambient.sound_initial⟩

end Lu

end DenseLinear
