import Mathlib.LinearAlgebra.Matrix.Block
import Mathlib.LinearAlgebra.Matrix.Rank
import DenseLinear.Proofs.ExactNorms

/-!
# Pivoting reveals the rank

Over real and complex numbers the factorisation with column pivoting satisfies `A * P = Q * R` with
a permutation matrix `P` and a unitary `Q`. Each diagonal entry of `R` dominates what is below and to
the right of it: its square is at least the sum of the squares of any later column from its row on
(`Dominated`). So the diagonal does not grow, it stays zero once it is zero, and the entries before
that are as many as the rank (`rank_of_dominated`).

The invariant is carried by two facts: a reflection keeps the lengths of the columns that it reaches,
and the column that is brought forward is the longest of those that are left.

Three arrays may be too large for memory: the order of the columns, without which there is no
factorisation at all, and the square matrices `Q` and `P` (`RankRevealing`).
-/

namespace DenseLinear

namespace Qr

open PagedMatrix

variable {K R : Type} [LinearOrder R] [ExactArith R] [HermitianScalar K R] {m n k : Nat}
  {f : Nat → Nat → K}

/-! ## Dominating diagonals -/

/-- Each of the first `count` diagonal entries is at least as large as every later column of `n` from
its row on, if the packed entries of the first `count` columns are cleared. -/
def Dominated (m n count : Nat) (f : Nat → Nat → K) : Prop :=
  ∀ i c, i < count → i < c → c < n →
    columnSquares (clearBelow count f) i m c ≤
      (Scalar.modulus (f i i) * Scalar.modulus (f i i) : R)

/-- Columns that are still to be reduced may be exchanged. -/
theorem Dominated.arranged (h : Dominated m n k f) {σ : Equiv.Perm Nat} (hσ : ∀ c < k, σ c = c)
    (hσ' : ∀ c, n ≤ c → σ c = c) : Dominated m n k (arranged σ f) := by
  intro i c hi hc hc'
  have hright : i < σ c := by
    rcases Nat.lt_or_ge c k with hck | hck
    · rw [hσ c hck]
      exact hc
    · exact Nat.lt_of_lt_of_le hi (le_apply_of_fixed hσ hck)
  -- cleared entries are those of the first columns, which stay in place
  have hcolumn : columnSquares (clearBelow k (PagedMatrix.arranged σ f)) i m c =
      (columnSquares (clearBelow k f) i m (σ c) : R) := by
    refine columnSquares_congr fun r _ _ => ?_
    unfold clearBelow
    rcases Nat.lt_or_ge c k with hck | hck
    · rw [PagedMatrix.arranged, hσ c hck]
    · have hσc := le_apply_of_fixed hσ hck
      rw [if_neg (by omega), if_neg (by omega)]
      rfl
  have hdiagonal : PagedMatrix.arranged σ f i i = f i i := by
    rw [PagedMatrix.arranged, hσ i hi]
  rw [hcolumn, hdiagonal]
  exact h i (σ c) hi hright (apply_lt_of_fixed hσ' hc')

/-- The reduction of the longest column that is left. -/
theorem Dominated.reduced [EuclideanArith R] (h : Dominated m n k f) (hk : k < m)
    (hlongest : ∀ c, k < c → c < n → (columnSquares f k m c : R) ≤ columnSquares f k m k) :
    Dominated m n (k + 1) (reduced .compact m k f) := by
  intro i c hi hc hc'
  rw [columnSquares_clearBelow_reduced hk (by omega)]
  rcases Nat.eq_or_lt_of_le (Nat.lt_succ_iff.1 hi) with rfl | hlt
  · -- the new diagonal entry has the length of the column that was the longest
    rw [modulus_reduced_diagonal hk]
    refine le_trans (le_of_eq (columnSquares_congr fun r _ _ => ?_)) (hlongest c hc hc')
    rw [clearBelow, if_neg (by omega)]
  · rw [reduced_of_lt_row hlt]
    exact h i c hlt hc hc'

namespace PivotedReduction

variable [EuclideanArith R] [MeasuredScalar K]

/-- The column that is brought forward is the longest of those that are left. -/
theorem Tracks.le_columnSquares_pivot {s : PivotedReduction K R} (h : Tracks m n k s) (hk : k ≤ m)
    (hk' : k < n) {c : Nat} (hc : k ≤ c) (hc' : c < n) :
    (columnSquares s.cells k m c : R) ≤ columnSquares s.cells k m (s.pivot n k) := by
  have hpivot := s.pivot_lt hk'
  have hle := le_leader_norm s.estimates.norms k (n - (k + 1)) hc (by omega)
  change s.estimates.norms c ≤ s.estimates.norms (s.pivot n k) at hle
  rw [h c hc hc', h _ (s.le_pivot n k) hpivot] at hle
  rw [← remainingNorm_mul_self _ _ hk, ← remainingNorm_mul_self _ _ hk]
  exact mul_self_le_mul_self (remainingNorm_nonneg _ _ hk) hle

theorem dominated_run [MaximalArith R] (f : Nat → Nat → K) {count : Nat} (hcount : count ≤ m)
    (hcount' : count ≤ n) :
    Dominated m n count (run .compact m n f count : PivotedReduction K R).cells := by
  induction count with
  | zero => exact fun i c hi => absurd hi (Nat.not_lt_zero i)
  | succ count ih =>
    have htracks := tracks_run .compact f (Nat.le_of_succ_le hcount) (Nat.le_of_succ_le hcount')
    have ih := ih (by omega) (by omega)
    generalize hs : (run .compact m n f count : PivotedReduction K R) = s at htracks ih
    rw [run, hs]
    have hpivot := s.pivot_lt hcount'
    have hpivot' := s.le_pivot n count
    have hfixed : ∀ c < count, Equiv.swap count (s.pivot n count) c = c := fun c hc =>
      s.swap_pivot_of_lt hc
    have hfixed' : ∀ c, n ≤ c → Equiv.swap count (s.pivot n count) c = c := fun c hc =>
      Equiv.swap_apply_of_ne_of_ne (by omega) (by omega)
    refine (ih.arranged hfixed hfixed').reduced hcount fun c hc hc' => ?_
    -- after the exchange the longest column stands at `count`
    have hleft : columnSquares (arranged (Equiv.swap count (s.pivot n count)) s.cells) count m count =
        (columnSquares s.cells count m (s.pivot n count) : R) :=
      columnSquares_congr fun r _ _ => by rw [arranged, Equiv.swap_apply_left]
    have hright : columnSquares (arranged (Equiv.swap count (s.pivot n count)) s.cells) count m c =
        (columnSquares s.cells count m (Equiv.swap count (s.pivot n count) c) : R) :=
      columnSquares_congr fun r _ _ => rfl
    rw [hleft, hright]
    exact htracks.le_columnSquares_pivot (by omega) hcount' (le_apply_of_fixed hfixed hc.le)
      (apply_lt_of_fixed hfixed' hc')

end PivotedReduction

/-! ## Ranks -/

/-- A property that is handed down to all earlier positions holds of the first ones. -/
theorem exists_first {P : Nat → Prop} {count : Nat}
    (hdown : ∀ i k, i ≤ k → k < count → P k → P i) :
    ∃ d ≤ count, ∀ k < count, P k ↔ k < d := by
  induction count with
  | zero => exact ⟨0, le_rfl, fun k hk => absurd hk (Nat.not_lt_zero k)⟩
  | succ count ih =>
    obtain ⟨d, hd, hfirst⟩ := ih fun i k hik hk => hdown i k hik (by omega)
    by_cases hlast : P count
    · exact ⟨count + 1, le_rfl, fun k hk =>
        iff_of_true (hdown k count (by omega) (by omega) hlast) hk⟩
    · refine ⟨d, by omega, fun k hk => ?_⟩
      rcases Nat.eq_or_lt_of_le (Nat.lt_succ_iff.1 hk) with rfl | hlt
      · exact iff_of_false hlast (by omega)
      · exact hfirst k hlt

/-- A matrix whose rows from `d` on are zero has a rank of at most `d`. -/
theorem rank_le_of_rows_zero {d : Nat} (hd : d ≤ m)
    (hzero : ∀ i j, d ≤ i → i < m → j < n → f i j = 0) :
    (toMatrix m n f).rank ≤ d := by
  have hcard : (Finset.univ.map (Fin.castLEEmb hd)).card = d := by simp
  rw [← hcard]
  refine Matrix.rank_le_card_of_support_subset _ _ fun i hi => ?_
  by_contra hnot
  refine hi (funext fun j => hzero i j ?_ i.isLt j.isLt)
  by_contra hlt
  refine hnot (Finset.mem_coe.2 (Finset.mem_map.2 ⟨⟨i, by omega⟩, Finset.mem_univ _, ?_⟩))
  exact Fin.ext rfl

/-- A matrix with an upper triangle in its first `d` rows and columns, and no zero on the diagonal of
that triangle, has a rank of at least `d`. -/
theorem le_rank_of_triangle {d : Nat} (hm : d ≤ m) (hn : d ≤ n)
    (hupper : ∀ i j, i < d → j < i → f i j = 0) (hdiagonal : ∀ k < d, f k k ≠ 0) :
    d ≤ (toMatrix m n f).rank := by
  have htriangle : (toMatrix d d f).rank = d := by
    have hdet : (toMatrix d d f).det = ∏ i : Fin d, f i i :=
      Matrix.det_of_isUpperTriangular fun i j hij => hupper i j i.isLt hij
    have hne : (toMatrix d d f).det ≠ 0 := by
      rw [hdet]
      exact Finset.prod_ne_zero_iff.2 fun i _ => hdiagonal i i.isLt
    rw [Matrix.rank_of_det_ne_zero hne, Fintype.card_fin]
  calc d = (toMatrix d d f).rank := htriangle.symm
    _ = ((toMatrix m n f).submatrix (Fin.castLE hm) (Fin.castLE hn)).rank := rfl
    _ ≤ (toMatrix m n f).rank := Matrix.rank_submatrix_le _ _ _

/-- An upper trapezoidal matrix whose diagonal entries dominate has as many diagonal entries other
than zero as its rank says. -/
theorem rank_of_dominated (hupper : ∀ i j, i < m → j < n → j < i → f i j = 0)
    (hdominated : ∀ k j, k < min m n → k < j → j < n →
      columnSquares f k m j ≤ (Scalar.modulus (f k k) * Scalar.modulus (f k k) : R)) :
    (toMatrix m n f).rank = Set.ncard {k | k < min m n ∧ f k k ≠ 0} := by
  -- from a zero on the diagonal on, everything below and to the right is zero
  have hzero : ∀ k i j, k < min m n → f k k = 0 → k ≤ i → i < m → k ≤ j → j < n → f i j = 0 := by
    intro k i j hk hkk hi hi' hj hj'
    rcases Nat.lt_or_ge j i with hlt | hge
    · exact hupper i j hi' hj' hlt
    rcases Nat.eq_or_lt_of_le hj with rfl | hlt
    · have hik : i = k := by omega
      rw [hik, hkk]
    · have h := hdominated k j hk hlt hj'
      rw [hkk, (ExactScalar.modulus_eq_zero (0 : K)).2 rfl, mul_zero] at h
      exact eq_zero_of_columnSquares_nonpos h hi hi'
  -- so the entries other than zero are the first ones
  obtain ⟨d, hd, hfirst⟩ : ∃ d ≤ min m n, ∀ k < min m n, f k k ≠ 0 ↔ k < d :=
    exists_first fun i k hik hk hkk hii =>
      hkk (hzero i k k (by omega) hii hik (by omega) hik (by omega))
  have hset : {k | k < min m n ∧ f k k ≠ 0} = ↑(Finset.range d) := by
    ext k
    rw [Set.mem_ofPred_eq, Finset.coe_range, Set.mem_Iio]
    constructor
    · rintro ⟨hk, hkk⟩
      exact (hfirst k hk).1 hkk
    · intro hk
      exact ⟨by omega, (hfirst k (by omega)).2 hk⟩
  have hrows : ∀ i j, d ≤ i → i < m → j < n → f i j = 0 := by
    intro i j hi hi' hj
    rcases Nat.lt_or_ge j i with hlt | hge
    · exact hupper i j hi' hj hlt
    · have hdiagonal : ¬f d d ≠ 0 := fun h => Nat.lt_irrefl d ((hfirst d (by omega)).1 h)
      exact hzero d i j (by omega) (not_not.1 hdiagonal) hi hi' (by omega) hj
  rw [hset, Set.ncard_coe_finset, Finset.card_range]
  exact le_antisymm (rank_le_of_rows_zero (by omega) hrows)
    (le_rank_of_triangle (by omega) (by omega)
      (fun i j hi hj => hupper i j (by omega) (by omega) hj) fun k hk => (hfirst k (by omega)).2 hk)

/-- The order of the columns does not change the rank. -/
theorem rank_arranged {σ : Equiv.Perm Nat} (hσ : ∀ c, n ≤ c → σ c = c) (f : Nat → Nat → K) :
    (toMatrix m n (arranged σ f)).rank = (toMatrix m n f).rank := by
  have hle : ∀ (τ : Equiv.Perm Nat) (g : Nat → Nat → K), (∀ c, n ≤ c → τ c = c) →
      (toMatrix m n (arranged τ g)).rank ≤ (toMatrix m n g).rank := fun τ g hτ =>
    Matrix.rank_submatrix_le (toMatrix m n g) id fun j : Fin n =>
      (⟨τ j, apply_lt_of_fixed hτ j.isLt⟩ : Fin n)
  have hinverse : arranged σ⁻¹ (arranged σ f) = f := by
    funext r c
    exact congrArg (f r) (σ.apply_symm_apply c)
  refine le_antisymm (hle σ f hσ) ?_
  have h := hle σ⁻¹ (arranged σ f) fun c hc => by
    rw [Equiv.Perm.inv_eq_iff_eq, hσ c hc]
  rwa [hinverse] at h

/-! ## The triangular factor -/

/-- The triangular factor `r` of a matrix `a` with its columns rearranged tells the rank of `a`. -/
structure Reveals (a r : PagedMatrix K) : Prop where
  /-- A diagonal entry dominates what is below and to the right of it. -/
  dominates : ∀ k j, k < min a.rows a.cols → k < j → j < a.cols →
    ∑ i ∈ Finset.Icc k (min j (a.rows - 1)), Scalar.modulus (r.cell i j) * Scalar.modulus (r.cell i j) ≤
      (Scalar.modulus (r.cell k k) * Scalar.modulus (r.cell k k) : R)
  /-- The diagonal does not grow. -/
  antitone : ∀ k j, k ≤ j → j < min a.rows a.cols →
    (Scalar.modulus (r.cell j j) : R) ≤ Scalar.modulus (r.cell k k)
  /-- The rank is the number of diagonal entries other than zero. -/
  rank : (toMatrix a.rows a.cols a.cell).rank =
    Set.ncard {k | k < min a.rows a.cols ∧ r.cell k k ≠ 0}

/-- A triangle whose diagonal dominates reveals its rank, and that of a matrix of the same rank. -/
theorem reveals_of_dominated {a : PagedMatrix K} {kind : NumericKind}
    (hupper : ∀ i j, i < a.rows → j < a.cols → j < i → f i j = 0)
    (hdominated : ∀ k j, k < min a.rows a.cols → k < j → j < a.cols →
      columnSquares f k a.rows j ≤ (Scalar.modulus (f k k) * Scalar.modulus (f k k) : R))
    (hrank : (toMatrix a.rows a.cols a.cell).rank = (toMatrix a.rows a.cols f).rank) :
    Reveals a (ofCells a.shape kind a.rows f) := by
  have hcell : ∀ i j, i < a.rows → j < a.cols → (ofCells a.shape kind a.rows f).cell i j = f i j :=
    fun i j hi hj => cell_ofCells hi hj
  refine ⟨?_, ?_, ?_⟩
  · intro k j hk hj hj'
    have hsubset : Finset.Icc k (min j (a.rows - 1)) ⊆ Finset.Ico k a.rows := by
      intro i hi
      rw [Finset.mem_Icc] at hi
      rw [Finset.mem_Ico]
      omega
    rw [hcell k k (by omega) (by omega)]
    calc ∑ i ∈ Finset.Icc k (min j (a.rows - 1)),
          Scalar.modulus ((ofCells a.shape kind a.rows f).cell i j) *
            Scalar.modulus ((ofCells a.shape kind a.rows f).cell i j)
        ≤ columnSquares (ofCells a.shape kind a.rows f).cell k a.rows j :=
          Finset.sum_le_sum_of_subset_of_nonneg hsubset fun _ _ _ => mul_self_nonneg _
      _ = columnSquares f k a.rows j := columnSquares_congr fun i _ hi => hcell i j hi hj'
      _ ≤ Scalar.modulus (f k k) * Scalar.modulus (f k k) := hdominated k j hk hj hj'
  · intro k j hkj hj
    rw [hcell j j (by omega) (by omega), hcell k k (by omega) (by omega)]
    rcases Nat.eq_or_lt_of_le hkj with rfl | hlt
    · exact le_rfl
    -- a diagonal entry is one of those that an earlier one dominates
    refine (mul_self_le_mul_self_iff (ExactScalar.modulus_nonneg _) (ExactScalar.modulus_nonneg _)).2
      (le_trans ?_ (hdominated k j (by omega) hlt (by omega)))
    rw [columnSquares_append f hkj (show j ≤ a.rows by omega),
      columnSquares_first f (show j < a.rows by omega) j]
    have hbefore : (0 : R) ≤ columnSquares f k j j := columnSquares_nonneg f k j j
    have hafter : (0 : R) ≤ columnSquares f (j + 1) a.rows j := columnSquares_nonneg f _ _ j
    linarith
  · rw [hrank, rank_of_dominated hupper hdominated]
    refine congrArg Set.ncard (Set.ext fun k => and_congr_right fun hk => ?_)
    rw [hcell k k (by omega) (by omega)]

/-- A matrix whose entries are the same is reduced in the same way. -/
theorem Reduced.congr {A B : Nat → Nat → K} {count : Nat} {s : Reduction K}
    (h : Reduced m n A count s) (hAB : AgreeOn m n A B) : Reduced m n B count s := by
  have hmatrix : toMatrix m n B = toMatrix m n A := by
    ext i j
    exact (hAB i j i.isLt j.isLt).symm
  exact ⟨h.product.trans hmatrix.symm, h.unitary⟩

/-- The product by the permutation matrix of an order rearranges the columns. -/
theorem product_permutation {a : PagedMatrix K} {σ : Equiv.Perm Nat} (ha : a.Stored)
    (hpage : a.SinglePage) (hσ : ∀ c, a.cols ≤ c → σ c = c) :
    product a (ofCells { rows := a.cols, cols := a.cols } .real a.cols (arranged σ identityCells)) =
      .ok (ofCells { rows := a.rows, cols := a.cols } .real a.rows
        (arranged σ a.cell)).refreshKind := by
  have h : product (ofCells a.shape a.kind a.rows a.cell)
      (ofCells { rows := a.cols, cols := a.cols } .real a.cols (arranged σ identityCells)) = .ok _ :=
    RingScalar.product_eq_ok rfl ha.rows_lt (ha.fits_of_singlePage hpage) fun i j _ hj => by
      simp only [arranged, identityCells, mul_ite, mul_one, mul_zero]
      rw [Finset.sum_ite_eq', if_pos (Finset.mem_range.2 (apply_lt_of_fixed hσ hj))]
  rwa [← ha.eq_ofCells_of_singlePage hpage] at h

/-! ## The factors -/

/-- The factors `f` of the matrix `a` reconstruct it with its columns rearranged, and their triangular
factor `r` reveals its rank. The unitary factor and the matrix of the order are made where memory has
room for them. -/
structure RankRevealing (a : PagedMatrix K) (f : PackedPivotedQr K) (r : PagedMatrix K) : Prop where
  /-- The triangular factor is unpacked. -/
  upper : upperFactor f.packed = .ok r
  /-- It tells the rank. -/
  reveals : Reveals a r
  /-- It is a factor of the rearranged matrix, and reconstructs it with the unitary factor. -/
  reconstruct : ∃ b, ColumnsOf a f.order b ∧ TriangularFactor b r ∧
    (Fits K (a.rows * a.rows) →
      ∃ q, unitaryFactor f.packed f.taus = .ok q ∧ Reconstruct q r b)
  /-- The product by the permutation matrix of the order is the product of the factors. -/
  product : Fits K (a.cols * a.cols) → ∃ p c, (columnPermutation f.order).run = .ok (.ok p) ∧
    PagedMatrix.product a p = .ok c ∧
    (Fits K (a.rows * a.rows) →
      ∃ q, unitaryFactor f.packed f.taus = .ok q ∧ PagedMatrix.product q r = .ok c)
  /-- Without room for the unitary factor there is none. -/
  no_unitary : ¬ Fits K (a.rows * a.rows) → ∃ fault, unitaryFactor f.packed f.taus = .error fault
  /-- Without room for the permutation matrix there is none. -/
  no_permutation : ¬ Fits K (a.cols * a.cols) →
    ∃ fault, (columnPermutation f.order : Fallible (PagedMatrix K)).run = .error fault

section Reduced

variable {a : PagedMatrix K} {s : PivotedReduction K R}

/-- The triangle of a reduced matrix whose diagonal dominates reveals the rank. -/
theorem reveals_of_reduced (kind : NumericKind) (horder : ∀ c, a.cols ≤ c → s.order c = c)
    (hreduced : Reduced a.rows a.cols (arranged s.order a.cell) (min a.rows a.cols) s.toReduction)
    (hdominated : Dominated a.rows a.cols (min a.rows a.cols) s.cells) :
    Reveals a (ofCells a.shape kind a.rows (clearBelow (min a.rows a.cols) s.cells)) := by
  have hdiagonal : ∀ k, clearBelow (min a.rows a.cols) s.cells k k = s.cells k k :=
    fun k => if_neg (by omega)
  refine reveals_of_dominated (fun i j hi hj hlt => if_pos (by omega)) (fun k j hk hj hj' => ?_) ?_
  · rw [hdiagonal]
    exact hdominated k j hk hj hj'
  · -- unitary factors and rearrangements keep the rank
    rw [← rank_arranged horder a.cell, ← hreduced.product]
    exact Matrix.rank_mul_eq_right_of_isUnit_det _ _
      (Matrix.UnitaryGroup.det_isUnit ⟨_, hreduced.unitary⟩)

/-- The triangle of a reduced matrix is a factor of the rearranged matrix, and reconstructs it with the
unitary factor. -/
theorem exists_reconstruct (kind kind' : NumericKind) (ha : a.Stored) (hpage : a.SinglePage)
    (horder : ∀ c, a.cols ≤ c → s.order c = c) (htaus : s.taus.size = min a.rows a.cols)
    (hreduced : Reduced a.rows a.cols (arranged s.order a.cell) (min a.rows a.cols) s.toReduction) :
    let r := ofCells a.shape kind' a.rows (clearBelow (min a.rows a.cols) s.cells)
    ∃ b, ColumnsOf a (listed a.cols s.order) b ∧ TriangularFactor b r ∧
      (Fits K (a.rows * a.rows) →
        ∃ q, unitaryFactor (ofCells a.shape kind a.rows s.cells) s.taus = .ok q ∧
          Reconstruct q r b) := by
  intro r
  have hheight := ha.height_eq hpage
  let b := ofCells a.shape a.kind a.rows (arranged s.order a.cell)
  have hcolumns : ColumnsOf (ofCells a.shape a.kind a.rows a.cell) (listed a.cols s.order) b :=
    (columnsOf_ofCells_iff horder).2 rfl
  rw [← ha.eq_ofCells hheight] at hcolumns
  have hstored : b.Stored := ha.of_shape_eq rfl (size_ofCells.trans (ha.size_eq hheight).symm)
  have hreduced' : Reduced a.rows a.cols b.cell (min a.rows a.cols) s.toReduction :=
    hreduced.congr fun i j hi hj => (cell_ofCells hi hj).symm
  refine ⟨b, hcolumns, triangularFactor_of_reduced _ hreduced', fun hroom => ?_⟩
  obtain ⟨_, g, hunitary, hg⟩ := exists_unitaryFactor kind ha.rows_lt hroom htaus
  exact ⟨_, hunitary, reconstruct_of_reduced hstored hpage hroom hreduced' hg⟩

/-- The product of the unitary factor and the triangle of a reduced matrix. -/
theorem exists_product (kind kind' : NumericKind) (ha : a.Stored) (hpage : a.SinglePage)
    (hroom : Fits K (a.rows * a.rows)) (htaus : s.taus.size = min a.rows a.cols)
    (hreduced : Reduced a.rows a.cols (arranged s.order a.cell) (min a.rows a.cols) s.toReduction) :
    ∃ q, unitaryFactor (ofCells a.shape kind a.rows s.cells) s.taus = .ok q ∧
      product q (ofCells a.shape kind' a.rows (clearBelow (min a.rows a.cols) s.cells)) =
        .ok (ofCells { rows := a.rows, cols := a.cols } .real a.rows
          (arranged s.order a.cell)).refreshKind := by
  obtain ⟨_, g, hunitary, hg⟩ := exists_unitaryFactor kind ha.rows_lt hroom htaus
  have hproduct := hreduced.product
  rw [← hg] at hproduct
  exact ⟨_, hunitary,
    RingScalar.product_eq_ok_of_mul rfl ha.rows_lt (ha.fits_of_singlePage hpage) hproduct⟩

/-- The factors that a reduction of a matrix with pivoting has packed. -/
theorem exists_rankRevealing (kind : NumericKind) (ha : a.Stored) (hpage : a.SinglePage)
    (horder : ∀ c, a.cols ≤ c → s.order c = c) (htaus : s.taus.size = min a.rows a.cols)
    (hreduced : Reduced a.rows a.cols (arranged s.order a.cell) (min a.rows a.cols) s.toReduction)
    (hdominated : Dominated a.rows a.cols (min a.rows a.cols) s.cells) :
    ∃ r, RankRevealing a
      { packed := ofCells a.shape kind a.rows s.cells
        taus := s.taus
        phis := s.phis
        order := listed a.cols s.order } r := by
  have hupper : upperFactor (ofCells a.shape kind a.rows s.cells) = .ok _ :=
    keepUpper_of_singlePage hpage ha.rows_lt
  rw [refreshKind_ofCells] at hupper
  refine ⟨_, hupper, reveals_of_reduced _ horder hreduced hdominated,
    exists_reconstruct kind _ ha hpage horder htaus hreduced, fun hroom => ?_, fun hroom => ?_,
    fun hroom => ?_⟩
  · exact ⟨_, _, columnPermutation_listed horder ha.cols_lt hroom,
      product_permutation ha hpage horder, fun hroom' =>
        exists_product kind _ ha hpage hroom' htaus hreduced⟩
  · exact unitaryFactor_eq_error _ ha.rows_lt ha.fits.bytes_pos hroom
  · refine columnPermutation_eq_error ?_ ha.fits.bytes_pos ?_
    · rw [size_listed]
      exact ha.cols_lt
    · rwa [size_listed]

end Reduced

/-! ## The factorisation -/

variable [EuclideanArith R] [MeasuredScalar K] [MaximalArith R]

/-- The factorisation of a single page ends with the steps for the matrix in its final order, and with
a diagonal that dominates. -/
theorem exists_pivotedReduction {a : PagedMatrix K} (ha : a.Stored) (hpage : a.SinglePage)
    (hroom : sizeBytes * a.cols ≤ capacityLimit) :
    ∃ (s : PivotedReduction K R) (recomputed : Array (Nat × Nat)),
      pivotedSweep .compact a = .ok
        ({ packed := (ofCells a.shape a.kind a.rows s.cells).refreshKind
           taus := s.taus
           phis := s.phis
           order := listed a.cols s.order }, recomputed) ∧
      (∀ c, a.cols ≤ c → s.order c = c) ∧ s.taus.size = min a.rows a.cols ∧
      Reduced a.rows a.cols (arranged s.order a.cell) (min a.rows a.cols) s.toReduction ∧
      Dominated a.rows a.cols (min a.rows a.cols) s.cells := by
  have hsteps := Nat.min_le_left a.rows a.cols
  have hsteps' := Nat.min_le_right a.rows a.cols
  have hsweep : pivotedSweep .compact (ofCells a.shape a.kind a.rows a.cell) = .ok _ :=
    pivotedSweep_ofCells (Nat.le_refl _) ha.rows_lt (ha.fits_rows_of_singlePage hpage) hroom
      fun _ _ => ha.height_eq hpage
  rw [← ha.eq_ofCells_of_singlePage hpage] at hsweep
  have hrun := PivotedReduction.toReduction_run .compact a.rows a.cols a.cell (min a.rows a.cols)
  rw [ColumnPivoting.packing, Reduction.runWith_compact] at hrun
  refine ⟨.run .compact a.rows a.cols a.cell (min a.rows a.cols), _, hsweep,
    fun c => PivotedReduction.order_run_of_le a.cell hsteps', ?_, ?_,
    PivotedReduction.dominated_run a.cell hsteps hsteps'⟩
  · rw [hrun]
    exact Reduction.size_taus_run a.rows _ _
  · rw [hrun]
    exact Reduced.run _ hsteps

/-- QR factorisation with pivoting succeeds on every matrix `a` with a single page, if memory has room
for the order of its columns. Its factors reconstruct the matrix with its columns rearranged, which is
the product of `a` by the permutation matrix of the order that is returned, and the triangular factor
reveals the rank of `a`. What memory has no room for is not made: without room for the order there is
no factorisation. -/
theorem factorPivoted_reveals_rank {a : PagedMatrix K} (ha : a.Stored) (hpage : a.SinglePage)
    (ambient : Ambient) :
    (sizeBytes * a.cols ≤ capacityLimit →
      ∃ f after r, (factorPivoted .compact a).run ambient = .ok (f, after) ∧
        RankRevealing a f r) ∧
    (capacityLimit < sizeBytes * a.cols →
      (factorPivoted .compact a).run ambient = .error .capacity) := by
  refine ⟨fun hroom => ?_, fun hfull => run_factorPivoted_eq_error .compact hfull ambient⟩
  obtain ⟨s, _, hsweep, horder, htaus, hreduced, hdominated⟩ :=
    exists_pivotedReduction ha hpage hroom
  rw [refreshKind_ofCells] at hsweep
  obtain ⟨r, hr⟩ := exists_rankRevealing _ ha hpage horder htaus hreduced hdominated
  exact ⟨_, _, r, run_factorPivoted hsweep ambient, hr⟩

/-- The rank of a matrix with two equal columns, for a real and for a complex entry, and matrices with
too many rows for the unitary factor and too many columns for their order. -/
theorem factorPivoted_reveals_rank_equalColumns :
    ((equalColumns (2 : ℝ)).Stored ∧ (equalColumns (2 : ℝ)).SinglePage ∧ Fits ℝ (3 * 3) ∧
      Fits ℝ (2 * 2) ∧ ∃ f after r,
        (factorPivoted .compact (equalColumns (2 : ℝ))).run {} = .ok (f, after) ∧
        RankRevealing (equalColumns (2 : ℝ)) f r ∧ ∃ p q c,
          (columnPermutation f.order).run = .ok (.ok p) ∧ unitaryFactor f.packed f.taus = .ok q ∧
          product (equalColumns (2 : ℝ)) p = .ok c ∧ product q r = .ok c) ∧
    ((equalColumns (⟨0, 1⟩ : Cartesian ℝ)).Stored ∧
      (equalColumns (⟨0, 1⟩ : Cartesian ℝ)).SinglePage ∧ Fits (Cartesian ℝ) (3 * 3) ∧
      Fits (Cartesian ℝ) (2 * 2) ∧ ∃ f after r,
        (factorPivoted .compact (equalColumns (⟨0, 1⟩ : Cartesian ℝ))).run {} = .ok (f, after) ∧
        RankRevealing (equalColumns (⟨0, 1⟩ : Cartesian ℝ)) f r ∧ ∃ p q c,
          (columnPermutation f.order).run = .ok (.ok p) ∧ unitaryFactor f.packed f.taus = .ok q ∧
          product (equalColumns (⟨0, 1⟩ : Cartesian ℝ)) p = .ok c ∧ product q r = .ok c) ∧
    ((withoutColumns : PagedMatrix ℝ).Stored ∧ (withoutColumns : PagedMatrix ℝ).SinglePage ∧
      ¬ Fits ℝ (2 ^ 40 * 2 ^ 40) ∧ ∃ f after r fault,
        (factorPivoted .compact (withoutColumns : PagedMatrix ℝ)).run {} = .ok (f, after) ∧
        RankRevealing withoutColumns f r ∧ unitaryFactor f.packed f.taus = .error fault) ∧
    (withoutRows : PagedMatrix ℝ).Stored ∧ (withoutRows : PagedMatrix ℝ).SinglePage ∧
      capacityLimit < sizeBytes * 2 ^ 61 ∧
      (factorPivoted .compact (withoutRows : PagedMatrix ℝ)).run {} = .error .capacity := by
  have hreal : (equalColumns (2 : ℝ)).Stored := ⟨rfl, by decide, by decide, by decide⟩
  have hsquare : Fits ℝ (3 * 3) := ⟨by decide, by decide⟩
  have hsquare' : Fits ℝ (2 * 2) := ⟨by decide, by decide⟩
  have hcomplex : (equalColumns (⟨0, 1⟩ : Cartesian ℝ)).Stored :=
    ⟨rfl, by decide, by decide, by decide⟩
  have hsquare_complex : Fits (Cartesian ℝ) (3 * 3) := ⟨by decide, by decide⟩
  have hsquare_complex' : Fits (Cartesian ℝ) (2 * 2) := ⟨by decide, by decide⟩
  have htall : (withoutColumns : PagedMatrix ℝ).Stored := stored_withoutColumns (by decide)
  have hlarge : ¬ Fits ℝ (2 ^ 40 * 2 ^ 40) := not_fits_withoutColumns
  have hwide : (withoutRows : PagedMatrix ℝ).Stored := stored_withoutRows (by decide)
  have hfull : capacityLimit < sizeBytes * 2 ^ 61 := by decide
  obtain ⟨f, after, r, hrun, hf⟩ := (factorPivoted_reveals_rank hreal rfl {}).1 (by decide)
  obtain ⟨p, c, hp, hc, hproduct⟩ := hf.product hsquare'
  obtain ⟨q, hq, hc'⟩ := hproduct hsquare
  obtain ⟨f', after', r', hrun', hf'⟩ := (factorPivoted_reveals_rank hcomplex rfl {}).1 (by decide)
  obtain ⟨p', c', hp', hd, hproduct'⟩ := hf'.product hsquare_complex'
  obtain ⟨q', hq', hd'⟩ := hproduct' hsquare_complex
  obtain ⟨g, after'', t, hrun'', hg⟩ := (factorPivoted_reveals_rank htall rfl {}).1 (by decide)
  obtain ⟨fault, hfault⟩ := hg.no_unitary hlarge
  exact ⟨⟨hreal, rfl, hsquare, hsquare', f, after, r, hrun, hf, p, q, c, hp, hq, hc, hc'⟩,
    ⟨hcomplex, rfl, hsquare_complex, hsquare_complex', f', after', r', hrun', hf', p', q', c', hp',
      hq', hd, hd'⟩,
    ⟨htall, rfl, hlarge, g, after'', t, fault, hrun'', hg, hfault⟩,
    hwide, rfl, hfull, (factorPivoted_reveals_rank hwide rfl {}).2 hfull⟩

end Qr

end DenseLinear
