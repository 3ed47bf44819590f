import DenseLinear.Proofs.QrReconstruction
import DenseLinear.Proofs.PivotedReduction

/-!
# Exact column norms

Over real and complex numbers a reflection keeps the length of every column that it reaches, so the
sums of squared absolute values (`columnSquares`) are known from one step of the QR factorisation to
the next (`columnSquares_clearBelow_reduced`).

The factorisation with pivoting never computes the norms of all columns twice; it takes off each norm
what the last step has finished. In exact arithmetic an estimate is the norm that a fresh computation
would give, whichever form of the update has been used (`PivotedReduction.tracks_run`). So
the column that is brought forward has the largest norm of all that are left (`le_leader_norm`).
-/

namespace DenseLinear

/-- The greater of two magnitudes is that of the order. -/
class MaximalArith (R : Type) [LinearOrder R] [ExactArith R] : Prop where
  /-- The greater of two numbers. -/
  max_eq (x y : R) : RealArith.max x y = max x y

/-- Entries whose squared absolute values and real parts are those of their magnitudes. -/
class MeasuredScalar (K : Type) {R : Type} [LinearOrder R] [ExactArith R] [HermitianScalar K R] :
    Prop where
  /-- The square of the absolute value. -/
  normSq_eq (x : K) : (Scalar.normSq x : R) = Scalar.modulus x * Scalar.modulus x
  /-- A magnitude is the real part of itself. -/
  rePart_ofReal (x : R) : Scalar.rePart (Scalar.ofReal x : K) = x

instance : MaximalArith ℝ where
  max_eq _ _ := rfl

section Instances

variable {F : Type} [LinearOrder F] [ExactArith F] [Measured F F] [SelfMeasured F] [MetricArith F]
  [EuclideanArith F]

instance : MeasuredScalar F where
  normSq_eq x := by
    rw [modulus_eq_abs, abs_mul_abs_self]
    exact SelfMeasured.widen_eq _
  rePart_ofReal x := by
    change Measured.widen (Measured.narrow x) = x
    rw [SelfMeasured.widen_eq, SelfMeasured.narrow_eq]

instance : MeasuredScalar (Cartesian F) where
  normSq_eq z := by
    rw [Cartesian.modulus_mul_self]
    exact SelfMeasured.widen_eq _
  rePart_ofReal x := by
    rw [Cartesian.ofReal_eq]
    exact SelfMeasured.widen_eq x

end Instances

/-- What a magnitude keeps when a part of its square is taken off. -/
theorem mul_sqrt_share {R : Type} [LinearOrder R] [ExactArith R] [MaximalArith R] [EuclideanArith R]
    {norm entry rest : R} (hnorm : 0 < norm) (hrest : 0 ≤ rest)
    (hsquare : norm * norm = entry * entry + rest) :
    0 ≤ norm * RealArith.sqrt (RealArith.max (1 - entry / norm * (entry / norm)) 0) ∧
      norm * RealArith.sqrt (RealArith.max (1 - entry / norm * (entry / norm)) 0) *
        (norm * RealArith.sqrt (RealArith.max (1 - entry / norm * (entry / norm)) 0)) = rest := by
  have hne : norm ≠ 0 := hnorm.ne'
  have hshare : 1 - entry / norm * (entry / norm) = rest / (norm * norm) := by
    field_simp
    linear_combination hsquare
  have hshare_nonneg : 0 ≤ rest / (norm * norm) := div_nonneg hrest (mul_self_nonneg norm)
  rw [hshare, MaximalArith.max_eq, max_eq_left hshare_nonneg]
  refine ⟨mul_nonneg hnorm.le (EuclideanArith.sqrt_nonneg _ hshare_nonneg), ?_⟩
  rw [mul_mul_mul_comm, EuclideanArith.sqrt_mul_self _ hshare_nonneg]
  field_simp

namespace Qr

open PagedMatrix

/-! ## Sums of squares -/

section Squares

variable {K R : Type} [LinearOrder R] [ExactArith R] [HermitianScalar K R] {m n k c lo hi : Nat}
  {f g : Nat → Nat → K}

/-- The squared absolute values of the rows `[lo, hi)` of column `c`, added up. -/
def columnSquares (f : Nat → Nat → K) (lo hi c : Nat) : R :=
  ∑ r ∈ Finset.Ico lo hi, Scalar.modulus (f r c) * Scalar.modulus (f r c)

theorem columnSquares_nonneg (f : Nat → Nat → K) (lo hi c : Nat) : 0 ≤ columnSquares f lo hi c :=
  Finset.sum_nonneg fun _ _ => mul_self_nonneg _

theorem columnSquares_congr {d : Nat} (h : ∀ r, lo ≤ r → r < hi → f r c = g r d) :
    columnSquares f lo hi c = columnSquares g lo hi d := by
  refine Finset.sum_congr rfl fun r hr => ?_
  rw [Finset.mem_Ico] at hr
  rw [h r hr.1 hr.2]

theorem columnSquares_first (f : Nat → Nat → K) (h : lo < hi) (c : Nat) :
    columnSquares f lo hi c =
      Scalar.modulus (f lo c) * Scalar.modulus (f lo c) + columnSquares f (lo + 1) hi c :=
  Finset.sum_eq_sum_Ico_succ_bot h _

theorem columnSquares_append (f : Nat → Nat → K) {mid : Nat} (h : lo ≤ mid) (h' : mid ≤ hi)
    (c : Nat) : columnSquares f lo hi c = columnSquares f lo mid c + columnSquares f mid hi c :=
  (Finset.sum_Ico_consecutive _ h h').symm

/-- A column is zero if its squares add up to zero. -/
theorem eq_zero_of_columnSquares_nonpos (h : columnSquares f lo hi c ≤ (0 : R)) {r : Nat}
    (hr : lo ≤ r) (hr' : r < hi) : f r c = 0 := by
  have hsum := le_antisymm h (columnSquares_nonneg f lo hi c)
  rw [columnSquares, Finset.sum_eq_zero_iff_of_nonneg fun _ _ => mul_self_nonneg _] at hsum
  exact (ExactScalar.modulus_eq_zero _).1 (mul_self_eq_zero.1 (hsum r (Finset.mem_Ico.2 ⟨hr, hr'⟩)))

/-- Unitary matrices keep the lengths of columns. -/
theorem columnSquares_of_unitary {U : Matrix (Fin m) (Fin m) K}
    (hU : U ∈ Matrix.unitaryGroup (Fin m) K) (h : U * toMatrix m n f = toMatrix m n g) (hc : c < n) :
    columnSquares g 0 m c = (columnSquares f 0 m c : R) := by
  have hcolumn : ∀ f : Nat → Nat → K,
      ((toMatrix m n f).conjTranspose * toMatrix m n f) ⟨c, hc⟩ ⟨c, hc⟩ =
        Scalar.ofReal (columnSquares f 0 m c : R) := by
    intro f
    rw [Matrix.mul_apply, columnSquares, ← HermitianScalar.sum_star_mul_self, ← Finset.range_eq_Ico,
      Finset.sum_range]
    rfl
  have hgram : (toMatrix m n g).conjTranspose * toMatrix m n g =
      (toMatrix m n f).conjTranspose * toMatrix m n f := by
    have hinverse : U.conjTranspose * U = 1 := Matrix.mem_unitaryGroup_iff'.1 hU
    rw [← h, Matrix.conjTranspose_mul, Matrix.mul_assoc, ← Matrix.mul_assoc _ U, hinverse,
      Matrix.one_mul]
  refine HermitianScalar.ofReal_injective (K := K) ?_
  rw [← hcolumn, ← hcolumn, hgram]

variable [EuclideanArith R]

/-- A step keeps the length of every column, from every row on up to its own. -/
theorem columnSquares_clearBelow_reduced (hk : k < m) (hlo : lo ≤ k) (f : Nat → Nat → K) (c : Nat) :
    columnSquares (clearBelow (k + 1) (reduced .compact m k f)) lo m c =
      (columnSquares (clearBelow k f) lo m c : R) := by
  have hwhole := columnSquares_of_unitary (columnReflection_mem (f := f) hk)
    (columnReflection_mul (n := c + 1) hk) (Nat.lt_succ_self c)
  have hrows : columnSquares (clearBelow (k + 1) (reduced .compact m k f)) 0 lo c =
      (columnSquares (clearBelow k f) 0 lo c : R) := by
    refine columnSquares_congr fun r _ hr => ?_
    -- a row before `k` is finished
    have hiff : c < k + 1 ∧ c < r ↔ c < k ∧ c < r := by omega
    unfold clearBelow
    rw [reduced_of_lt_row (by omega)]
    simp only [hiff]
  rw [columnSquares_append _ (Nat.zero_le lo) (hlo.trans hk.le), hrows,
    columnSquares_append (clearBelow k f) (Nat.zero_le lo) (hlo.trans hk.le)] at hwhole
  exact add_left_cancel hwhole

/-- The columns to the right keep their lengths, however the reflection is packed. -/
theorem columnSquares_reduced {packing : Packing} (hk : k < m) (hc : k < c) (f : Nat → Nat → K) :
    columnSquares (reduced packing m k f) k m c = (columnSquares f k m c : R) := by
  have h := columnSquares_clearBelow_reduced hk (Nat.le_refl k) f c
  have hcleared : columnSquares (reduced packing m k f) k m c =
      (columnSquares (clearBelow (k + 1) (reduced .compact m k f)) k m c : R) := by
    refine columnSquares_congr fun r _ _ => ?_
    rw [clearBelow, if_neg (by omega)]
    exact reduced_congr hk (fun _ _ _ => rfl) (by omega)
  rw [hcleared, h]
  refine columnSquares_congr fun r _ _ => ?_
  rw [clearBelow, if_neg (by omega)]

/-- The diagonal entry takes the length of its column. -/
theorem modulus_reduced_diagonal {packing : Packing} (hk : k < m) (f : Nat → Nat → K) :
    Scalar.modulus (reduced packing m k f k k) * Scalar.modulus (reduced packing m k f k k) =
      (columnSquares f k m k : R) := by
  have h := columnSquares_clearBelow_reduced hk (Nat.le_refl k) f k
  have hbefore : columnSquares (clearBelow k f) k m k = (columnSquares f k m k : R) :=
    columnSquares_congr fun r _ _ => by rw [clearBelow, if_neg (by omega)]
  -- of the cleared column only the first entry is left
  have hrest : columnSquares (clearBelow (k + 1) (reduced .compact m k f)) (k + 1) m k = (0 : R) := by
    refine Finset.sum_eq_zero fun r hr => ?_
    rw [Finset.mem_Ico] at hr
    rw [clearBelow, if_pos (by omega), (ExactScalar.modulus_eq_zero (0 : K)).2 rfl, mul_zero]
  have hfirst : clearBelow (k + 1) (reduced .compact m k f) k k = reduced packing m k f k k := by
    rw [clearBelow, if_neg (by omega), reduced_diagonal hk, reduced_diagonal hk]
  rwa [columnSquares_first _ hk, hrest, add_zero, hfirst, hbefore] at h

end Squares

/-! ## Norms -/

/-- No norm from `k` on is larger than that of the leader. -/
theorem le_leader_norm {R : Type} [LinearOrder R] [RealArith R] [LawfulOrder R] (norms : Nat → R)
    (k count : Nat) {j : Nat} (hj : k ≤ j) (hj' : j ≤ k + count) :
    norms j ≤ norms (leader norms k count) := by
  induction count with
  | zero =>
    have h : j = k := by omega
    rw [h]
    exact le_rfl
  | succ count ih =>
    rw [leader]
    split
    · rename_i hlt
      rw [LawfulOrder.lt_iff] at hlt
      rcases Nat.eq_or_lt_of_le hj' with heq | hlt'
      · have h : j = k + 1 + count := by omega
        rw [h]
      · exact (ih (by omega)).trans hlt.le
    · rename_i hnot
      rw [LawfulOrder.lt_iff, not_lt] at hnot
      rcases Nat.eq_or_lt_of_le hj' with heq | hlt'
      · have h : j = k + 1 + count := by omega
        rw [h]
        exact hnot
      · exact ih (by omega)

section Norms

variable {K R : Type} [LinearOrder R] [ExactArith R] [HermitianScalar K R] [MeasuredScalar K]
  [EuclideanArith R] {m n k j : Nat} {f : Nat → Nat → K}

omit [EuclideanArith R] in
theorem normSqSum_eq (f : Nat → Nat → K) (j start : Nat) {stop : Nat} (h : start ≤ stop) :
    normSqSum f j start (stop - start) = (columnSquares f start stop j : R) := by
  induction stop, h using Nat.le_induction with
  | base =>
    rw [Nat.sub_self, columnSquares, Finset.Ico_self, Finset.sum_empty]
    exact neg_zero
  | succ stop h ih =>
    have hcount : stop + 1 - start = (stop - start) + 1 := by omega
    have hplace : start + (stop - start) = stop := by omega
    rw [hcount, normSqSum_succ, ih, hplace, MeasuredScalar.normSq_eq, columnSquares, columnSquares,
      Finset.sum_Ico_succ_top h]

omit [EuclideanArith R] in
theorem remainingNorm_eq (f : Nat → Nat → K) (j : Nat) {start : Nat} (h : start ≤ m) :
    remainingNorm f m j start = RealArith.sqrt (columnSquares f start m j : R) := by
  rw [remainingNorm, normSqSum_eq f j start h,
    HermitianScalar.sqrt_ofReal _ (columnSquares_nonneg f start m j), MeasuredScalar.rePart_ofReal]

theorem remainingNorm_nonneg (f : Nat → Nat → K) (j : Nat) {start : Nat} (h : start ≤ m) :
    (0 : R) ≤ remainingNorm f m j start := by
  rw [remainingNorm_eq f j h]
  exact EuclideanArith.sqrt_nonneg _ (columnSquares_nonneg f start m j)

theorem remainingNorm_mul_self (f : Nat → Nat → K) (j : Nat) {start : Nat} (h : start ≤ m) :
    remainingNorm f m j start * remainingNorm f m j start = (columnSquares f start m j : R) := by
  rw [remainingNorm_eq f j h]
  exact EuclideanArith.sqrt_mul_self _ (columnSquares_nonneg f start m j)

/-- A norm is the magnitude with the right square. -/
theorem eq_remainingNorm {x : R} {start : Nat} (h : start ≤ m) (hx : 0 ≤ x)
    (hsquare : x * x = columnSquares f start m j) : x = remainingNorm f m j start := by
  rw [← remainingNorm_mul_self f j h] at hsquare
  exact (mul_self_inj hx (remainingNorm_nonneg f j h)).1 hsquare

/-! ## The norms that are kept -/

variable [MaximalArith R]

/-- An estimate that was right before a step is right after it: kept as it is, diminished or computed
afresh. -/
theorem norms_downdateAt (pivoting : ColumnPivoting) {e : Estimates R} (hk : k < m)
    (hnorm : e.norms j = remainingNorm f m j k) :
    (e.downdateAt pivoting f m k j).norms j = remainingNorm f m j (k + 1) := by
  have hnonneg : 0 ≤ e.norms j := by
    rw [hnorm]
    exact remainingNorm_nonneg f j hk.le
  -- the step has finished one entry of the column
  have hsquare : e.norms j * e.norms j = Scalar.modulus (f k j) * Scalar.modulus (f k j) +
      columnSquares f (k + 1) m j := by
    rw [hnorm, remainingNorm_mul_self f j hk.le, columnSquares_first f hk]
  have hrest : (0 : R) ≤ columnSquares f (k + 1) m j := columnSquares_nonneg f (k + 1) m j
  unfold Estimates.downdateAt
  cases hzero : e.norms j == 0 with
  | true =>
    have hnorm_zero : e.norms j = 0 := (ExactArith.beq_iff _ _).1 hzero
    rw [hnorm_zero, mul_zero] at hsquare
    have hrest_zero : columnSquares f (k + 1) m j = (0 : R) := by
      have hentry := mul_self_nonneg (Scalar.modulus (f k j) : R)
      linarith
    rw [if_pos rfl, hnorm_zero]
    exact eq_remainingNorm hk le_rfl (by rw [mul_zero, hrest_zero])
  | false =>
    have hne : e.norms j ≠ 0 := LawfulOrder.ne_of_beq_eq_false hzero
    rw [if_neg Bool.false_ne_true]
    cases hleft : pivoting.downdate (Scalar.modulus (f k j)) (e.norms j) (e.references j) with
    | none => exact Function.update_self _ _ _
    | some left =>
      have hshare := mul_sqrt_share (lt_of_le_of_ne hnonneg hne.symm) hrest hsquare
      rw [← eq_of_downdate hleft] at hshare
      exact (Function.update_self _ _ _).trans (eq_remainingNorm hk hshare.1 hshare.2)

/-- The columns after `k` are brought up to date one after the other. -/
theorem norms_downdate (pivoting : ColumnPivoting) {e : Estimates R} (hk : k < m)
    (hnorms : ∀ c, k < c → c < n → e.norms c = remainingNorm f m c k) (count : Nat)
    (hcount : k + 1 + count ≤ n) {c : Nat} (hc : k < c) (hc' : c < n) :
    (e.downdate pivoting f m k count).norms c =
      if c < k + 1 + count then remainingNorm f m c (k + 1) else remainingNorm f m c k := by
  induction count with
  | zero =>
    rw [if_neg (by omega)]
    exact hnorms c hc hc'
  | succ count ih =>
    have ih := ih (by omega)
    rw [Estimates.downdate]
    rcases eq_or_ne c (k + 1 + count) with rfl | hne
    · -- this column has not been looked at before
      rw [if_neg (by omega)] at ih
      rw [if_pos (by omega)]
      exact norms_downdateAt pivoting hk ih
    · have hiff : c < k + 1 + (count + 1) ↔ c < k + 1 + count := by omega
      rw [Estimates.norms_downdateAt_of_ne _ _ _ _ _ hne, ih]
      simp only [hiff]

namespace PivotedReduction

variable {pivoting : ColumnPivoting} {s : PivotedReduction K R}

/-- The estimates of the columns that are left are the norms of what is left of them. -/
def Tracks (m n k : Nat) (s : PivotedReduction K R) : Prop :=
  ∀ c, k ≤ c → c < n → s.estimates.norms c = remainingNorm s.cells m c k

omit [EuclideanArith R] [MeasuredScalar K] [MaximalArith R] in
theorem Tracks.exchange (h : Tracks m n k s) {p : Nat} (hp : k ≤ p) (hp' : p < n) :
    Tracks m n k (s.exchange k p) := by
  intro c hc hc'
  have hfixed : ∀ c < k, Equiv.swap k p c = c := fun c hc =>
    Equiv.swap_apply_of_ne_of_ne (by omega) (by omega)
  have hfixed' : ∀ c, n ≤ c → Equiv.swap k p c = c := fun c hc =>
    Equiv.swap_apply_of_ne_of_ne (by omega) (by omega)
  exact h _ (le_apply_of_fixed hfixed hc) (apply_lt_of_fixed hfixed' hc')

theorem Tracks.reduce (h : Tracks m n k s) (hk : k < m) (hk' : k < n) :
    Tracks m n (k + 1) (s.reduce pivoting m n k) := by
  intro c hc hc'
  -- the reflection has kept what is left of each column
  have hnorms : ∀ c, k < c → c < n →
      s.estimates.norms c = remainingNorm (reduced pivoting.packing m k s.cells) m c k := by
    intro c hc hc'
    rw [h c hc.le hc', remainingNorm_eq _ c hk.le, remainingNorm_eq _ c hk.le,
      columnSquares_reduced hk hc]
  have hfinal := norms_downdate pivoting hk hnorms (n - (k + 1)) (by omega) hc hc'
  rwa [if_pos (by omega)] at hfinal

theorem tracks_run (pivoting : ColumnPivoting) (f : Nat → Nat → K) {count : Nat} (hcount : count ≤ m)
    (hcount' : count ≤ n) :
    Tracks m n count (run pivoting m n f count : PivotedReduction K R) := by
  induction count with
  | zero => exact fun _ _ _ => rfl
  | succ count ih =>
    have hpivot := pivot_lt (run pivoting m n f count : PivotedReduction K R) (k := count) hcount'
    exact ((ih (by omega) (by omega)).exchange (le_pivot _ _ _) hpivot).reduce hcount hcount'

end PivotedReduction

end Norms

end Qr

end DenseLinear
