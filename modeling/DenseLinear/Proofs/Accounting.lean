import DenseLinear.Proofs.BlockIndependence
import DenseLinear.Proofs.Unpacking

/-!
# What LU factors account for

Over exact scalars the triangular factors of a matrix `A` with its rows in the order of the pivots
have the product `A` (`lower_mul_upper`), also where columns have no pivot and where the matrix is
not square.

The invariant (`Accounts`) is about the elimination of the whole matrix as a single panel; every
factorisation leaves the same. Before column `i`, an entry of `A` is the sum of the products of the
multipliers by the finished rows of the upper factor, and of what is still to be eliminated. A column
without a pivot has zeros for multipliers, so it needs no case of its own after that.
-/

namespace DenseLinear

namespace Lu

open PagedMatrix

variable {K R : Type} [LinearOrder R] [RealArith R] [ExactScalar K R]

/-- The part of an entry that the multipliers of the first `i` columns account for. -/
def accounted (i : Nat) (W : Nat → Nat → K) (r c : Nat) : K :=
  ∑ l ∈ Finset.range (min i (min r (c + 1))), W r l * W l c

/-- Before column `i` the cells `W` account for the matrix `A` with its rows in the order `σ`. -/
structure Accounts (m n i : Nat) (A W : Nat → Nat → K) (σ : Nat → Nat) : Prop where
  /-- The factors so far and what is left add up to the matrix. -/
  sum : ∀ r c, r < m → c < n → A (σ r) c = accounted i W r c + clearBelow i W r c

namespace Accounts

variable {m n i : Nat} {A W : Nat → Nat → K} {σ : Nat → Nat}

theorem start (A : Nat → Nat → K) : Accounts m n 0 A A id := by
  -- without finished columns nothing is accounted for and nothing is cleared
  refine ⟨fun r c _ _ => ?_⟩
  simp [accounted, clearBelow]

/-- An exchange of rows from row `i` on is an exchange in the order of the rows. -/
theorem exchanged {p : Nat} (h : Accounts m n i A W σ) (hi : i < m) (hp : i ≤ p) (hp' : p < m) :
    Accounts m n i A (exchanged i p W) (σ ∘ Equiv.swap i p) := by
  refine ⟨fun r c hr hc => ?_⟩
  have hsum := h.sum (Equiv.swap i p r) c (swap_lt hi hp' hr) hc
  -- a row stays on its side of row `i`, so the conditions on it read the same
  have hcases : r < i ∧ Equiv.swap i p r = r ∨ i ≤ r ∧ i ≤ Equiv.swap i p r := by
    rcases Nat.lt_or_ge r i with hlt | hge
    · exact Or.inl ⟨hlt, Equiv.swap_apply_of_ne_of_ne (by omega) (by omega)⟩
    · exact Or.inr ⟨hge, le_swap hp hge⟩
  have hterms : min i (min (Equiv.swap i p r) (c + 1)) = min i (min r (c + 1)) := by omega
  have hmultiplier : c < i ∧ c < Equiv.swap i p r ↔ c < i ∧ c < r := by omega
  unfold accounted clearBelow at hsum
  simp only [hterms, hmultiplier] at hsum
  unfold accounted clearBelow
  rw [Function.comp_apply, hsum]
  refine congrArg₂ _ (Finset.sum_congr rfl fun l hl => ?_) rfl
  rw [Finset.mem_range] at hl
  have hfinished : PagedMatrix.exchanged i p W l = W l := exchanged_of_lt W hp (by omega)
  rw [hfinished]
  rfl

theorem pivoted (h : Accounts m n i A W σ) (hi : i < m) :
    Accounts m n i A (Stage.pivoted m i W) (σ ∘ Equiv.swap i (pivotOf m W i)) :=
  h.exchanged hi (le_pivotOf m W i) (pivotOf_lt W hi)

/-- Column `i` accounts for one more product in the rows below the diagonal. -/
theorem next (h : Accounts m n i A W σ) {V : Nat → Nat → K}
    (habove : ∀ r, r ≤ i → V r = W r) (hleft : ∀ r l, l < i → V r l = W r l)
    (hcolumn : ∀ r, i < r → r < m → W r i = V r i * W i i)
    (hright : ∀ r c, i < r → r < m → i < c → c < n → W r c = V r i * W i c + V r c) :
    Accounts m n (i + 1) A V σ := by
  refine ⟨fun r c hr hc => ?_⟩
  have hsum := h.sum r c hr hc
  -- the terms of the finished columns are the same before and after
  have hterms : ∀ d, d ≤ i →
      ∑ l ∈ Finset.range d, V r l * V l c = ∑ l ∈ Finset.range d, W r l * W l c := by
    intro d hd
    refine Finset.sum_congr rfl fun l hl => ?_
    rw [Finset.mem_range] at hl
    rw [hleft r l (by omega), habove l (by omega)]
  unfold accounted clearBelow at hsum ⊢
  -- only the rows below row `i` take part in anything new
  rcases Nat.lt_or_ge i r with hbelow | hfinished
  · rcases Nat.lt_trichotomy c i with hc' | rfl | hc'
    · -- in a finished column all terms are there already
      have hold : min i (min r (c + 1)) = c + 1 := by omega
      have hnew : min (i + 1) (min r (c + 1)) = c + 1 := by omega
      rw [hold, if_pos (by omega)] at hsum
      rw [hnew, if_pos (by omega), hterms _ (by omega), hsum]
    · -- in column `i` itself the entry becomes the term of its multiplier
      have hold : min c (min r (c + 1)) = c := by omega
      have hnew : min (c + 1) (min r (c + 1)) = c + 1 := by omega
      rw [hold, if_neg (by omega), hcolumn r hbelow hr] at hsum
      rw [hnew, if_pos (by omega), Finset.sum_range_succ, hterms _ (Nat.le_refl c), hsum, add_zero,
        habove c (Nat.le_refl c)]
    · -- to the right of it the multiple that is taken off becomes a term
      have hold : min i (min r (c + 1)) = i := by omega
      have hnew : min (i + 1) (min r (c + 1)) = i + 1 := by omega
      rw [hold, if_neg (by omega), hright r c hbelow hr hc' hc] at hsum
      rw [hnew, if_neg (by omega), Finset.sum_range_succ, hterms _ (Nat.le_refl i), hsum,
        habove i (Nat.le_refl i), add_assoc]
  · have hrange : min (i + 1) (min r (c + 1)) = min i (min r (c + 1)) := by omega
    have hmultiplier : c < i + 1 ∧ c < r ↔ c < i ∧ c < r := by omega
    rw [hrange, hterms _ (Nat.min_le_left _ _), habove r hfinished, hsum]
    simp only [hmultiplier]

/-- A column without a pivot is passed over: its multipliers are zero. -/
theorem of_zero (h : Accounts m n i A W σ) (hzero : ∀ r, i < r → r < m → W r i = 0) :
    Accounts m n (i + 1) A W σ := by
  refine h.next (fun r _ => rfl) (fun r l _ => rfl) ?_ ?_
  · intro r hr hr'
    rw [hzero r hr hr', zero_mul]
  · intro r c hr hr' _ _
    rw [hzero r hr hr', zero_mul, zero_add]

/-- The elimination of a column by an entry other than zero. -/
theorem eliminated (h : Accounts m n i A W σ) (hpivot : W i i ≠ 0) :
    Accounts m n (i + 1) A (eliminated m n i W) σ := by
  refine h.next (fun r hr => eliminated_of_le W hr) (fun r l hl => eliminated_of_lt W hl) ?_ ?_
  · intro r hr hr'
    rw [eliminated_self W hr hr', FieldScalar.quotient_mul_cancel _ hpivot]
  · intro r c hr hr' hc hc'
    rw [eliminated_self W hr hr', eliminated_right W hr hr' hc hc', add_sub_cancel]

end Accounts

/-! ## Runs -/

section Runs

variable [LawfulOrder R] {m n i : Nat} {A : Nat → Nat → K} {σ : Nat → Nat}

theorem Accounts.step {s : Stage K} (h : Accounts m n i A s.cells σ) (hm : i < m) :
    Accounts m n (i + 1) A (s.step m n i).cells (σ ∘ Equiv.swap i (pivotOf m s.cells i)) := by
  have hcells := h.pivoted hm
  unfold Stage.step
  dsimp only
  -- a null pivot means a column of zeros, so both branches are a next column
  split
  · rename_i hnull
    exact hcells.of_zero fun r hr hr' => pivoted_eq_zero hnull (by omega) hr'
  · rename_i hpivot
    exact hcells.eliminated fun h0 => hpivot ((ExactScalar.isNull_iff _).2 h0)

theorem Accounts.run (A : Nat → Nat → K) {count : Nat} (hcount : count ≤ m) :
    Accounts m n count A ((Stage.initial m n A).run m n 0 count).cells
      (interchanges (pivotsFound m n A) count) := by
  induction count with
  | zero => exact Accounts.start A
  | succ count ih =>
    have hstep := (ih (by omega)).step (by omega)
    rw [Stage.run, Nat.zero_add]
    exact hstep

/-- The cells that the elimination of a whole matrix leaves account for it. -/
theorem accounts_finalStage (a : PagedMatrix K) :
    Accounts a.rows a.cols (min a.rows a.cols) a.cell (finalStage a).cells
      (interchanges (pivotsFound a.rows a.cols a.cell) (min a.rows a.cols)) :=
  Accounts.run a.cell (Nat.min_le_left _ _)

end Runs

/-! ## Products of the factors -/

section Products

variable {m n : Nat} {A W : Nat → Nat → K} {σ : Nat → Nat}

/-- The product of the unpacked triangles is the matrix with its rows in order. -/
theorem lower_mul_upper (h : Accounts m n (min m n) A W σ) {r c : Nat} (hr : r < m) (hc : c < n) :
    ∑ l ∈ Finset.range (min m n), lowerCells W r l * upperCells W l c = A (σ r) c := by
  -- the diagonal of ones adds the entry of the upper factor to the accounted part
  have hterm : ∀ l, lowerCells W r l * upperCells W l c =
      (if l < min r (c + 1) then W r l * W l c else 0) + if r = l then upperCells W r c else 0 := by
    intro l
    unfold lowerCells upperCells
    rcases eq_or_ne r l with rfl | hne
    · simp only [Nat.lt_irrefl, if_false, if_true, one_mul]
      rw [if_neg (show ¬r < min r (c + 1) by omega), zero_add]
    · rw [if_neg hne, if_neg hne.symm, add_zero]
      split_ifs <;> first | omega | simp
  have hrange : (Finset.range (min m n)).filter (· < min r (c + 1)) =
      Finset.range (min (min m n) (min r (c + 1))) := by
    ext l
    simp only [Finset.mem_filter, Finset.mem_range]
    omega
  have hcleared : (if r ∈ Finset.range (min m n) then upperCells W r c else 0) =
      clearBelow (min m n) W r c := by
    unfold upperCells clearBelow
    simp only [Finset.mem_range]
    split_ifs <;> first | rfl | omega
  rw [Finset.sum_congr rfl fun l _ => hterm l, Finset.sum_add_distrib, ← Finset.sum_filter, hrange,
    Finset.sum_ite_eq, hcleared, h.sum r c hr hc, accounted]

/-- The product of the unpacked triangles depends on the cells of the matrix only. -/
theorem lower_mul_upper_congr {V : Nat → Nat → K} (h : AgreeOn m n V W) {r c : Nat} (hr : r < m)
    (hc : c < n) : ∑ l ∈ Finset.range (min m n), lowerCells V r l * upperCells V l c =
      ∑ l ∈ Finset.range (min m n), lowerCells W r l * upperCells W l c := by
  refine Finset.sum_congr rfl fun l hl => ?_
  obtain ⟨hlm, hln⟩ := lt_min_iff.1 (Finset.mem_range.1 hl)
  unfold lowerCells upperCells
  rw [h r l hr hln, h l c hlm hc]

/-- The product by the matrix of a permutation takes the rows in order. -/
theorem permutation_mul (hσ : ∀ r < m, σ r < m) {r c : Nat} (hr : r < m) :
    ∑ l ∈ Finset.range m, permutationCells σ r l * A l c = A (σ r) c := by
  simp only [permutationCells, ite_mul, one_mul, zero_mul]
  rw [Finset.sum_ite_eq', if_pos (Finset.mem_range.2 (hσ r hr))]

end Products

/-- The order of the rows of a matrix as a permutation of its rows. -/
theorem exists_perm {m count : Nat} {p : Nat → Nat} (hp : ∀ i < count, p i < m)
    (hcount : count ≤ m) :
    ∃ σ : Equiv.Perm (Fin m), ∀ i : Fin m, (σ i : Nat) = interchanges p count i := by
  -- a one-to-one map of finitely many rows to themselves is a permutation
  have hinjective : Function.Injective fun i : Fin m =>
      (⟨interchanges p count i, interchanges_lt hp hcount i.isLt⟩ : Fin m) := by
    intro i j h
    exact Fin.ext ((interchanges p count).injective (congrArg Fin.val h))
  exact ⟨Equiv.ofBijective _ (Finite.injective_iff_bijective.1 hinjective), fun i => rfl⟩

/-- The order of the rows that the elimination of a whole matrix leaves. -/
theorem exists_order {α ρ : Type} [RealArith ρ] [Scalar α ρ] (a : PagedMatrix α) :
    ∃ σ : Equiv.Perm (Fin a.rows), ∀ i : Fin a.rows, (σ i : Nat) =
      interchanges (pivotsFound a.rows a.cols a.cell) (min a.rows a.cols) i :=
  exists_perm (fun _ hi => (pivots_finalStage a hi).2) (Nat.min_le_left _ _)

end Lu

end DenseLinear
