import DenseLinear.Proofs.ExactNorms

/-!
# The two forms of pivoting agree

The two forms of the QR factorisation with pivoting judge an estimated norm by different formulas and
pack their reflections differently. Over real and complex numbers they bring the same columns forward,
compute the same norms afresh, and leave the same factors but for what is packed
(`factorPivoted_forms_agree`).

Both formulas ask whether at most half of the reference is left of a norm
(`downdate_raw_eq_compact`), provided that the norm is not negative and the reference is not zero.
That is so at every column that is looked at (`Estimates.Sound`), ties and zero columns included,
and so no form ever divides by zero. The relation between the two runs (`PivotedReduction.Matches`)
asks for equal estimates, so the two take the same decisions in the next step.
-/

namespace DenseLinear

namespace Qr

open PagedMatrix

/-! ## Estimates -/

section Estimates

variable {R : Type} [LinearOrder R] [ExactArith R] [EuclideanArith R] [MaximalArith R]

/-- Either form computes a norm afresh exactly if at most half of the reference is left. -/
theorem downdate_raw_eq_compact (entry : R) {norm reference : R} (hnorm : 0 ≤ norm)
    (hreference : 0 < reference) :
    ColumnPivoting.raw.downdate entry norm reference =
      ColumnPivoting.compact.downdate entry norm reference := by
  unfold ColumnPivoting.downdate
  dsimp only
  have hshare : (0 : R) ≤ RealArith.max (1 - entry / norm * (entry / norm)) 0 := by
    rw [MaximalArith.max_eq]
    exact le_max_right _ _
  generalize RealArith.max (1 - entry / norm * (entry / norm)) 0 = share at hshare
  have hroot := EuclideanArith.sqrt_mul_self share hshare
  have hroot_nonneg := EuclideanArith.sqrt_nonneg share hshare
  generalize RealArith.sqrt share = root at hroot hroot_nonneg
  have htwo : (0 : R) < RealArith.two := add_pos one_pos one_pos
  have hleft : 0 ≤ norm * root / reference :=
    div_nonneg (mul_nonneg hnorm hroot_nonneg) hreference.le
  -- one form compares what is left, the other one its square
  have hsquare : share * (norm / reference) * (norm / reference) =
      norm * root / reference * (norm * root / reference) := by
    rw [← hroot]
    ring
  have hquarter : (RealArith.quarter : R) = 1 / RealArith.two * (1 / RealArith.two) :=
    (one_div_mul_one_div _ _).symm
  have hiff : norm * root ≤ reference / RealArith.two ↔
      share * (norm / reference) * (norm / reference) ≤ RealArith.quarter := by
    rw [hsquare, hquarter, ← mul_self_le_mul_self_iff hleft (one_div_nonneg.2 htwo.le),
      div_le_iff₀ hreference, one_div_mul_eq_div]
  have htest : RealArith.le (norm * root) (reference / RealArith.two) =
      RealArith.le (share * (norm / reference) * (norm / reference)) RealArith.quarter := by
    rw [Bool.eq_iff_iff, ExactArith.le_iff, ExactArith.le_iff, hiff]
  rw [htest]

/-- No norm is negative, and a norm that is not zero is compared with a reference that is not zero. -/
def Estimates.Sound (e : Estimates R) : Prop :=
  ∀ c, 0 ≤ e.norms c ∧ (e.norms c ≠ 0 → 0 < e.references c)

namespace Estimates.Sound

variable {e : Estimates R}

omit [EuclideanArith R] [MaximalArith R] in
theorem arranged (h : e.Sound) (σ : Equiv.Perm Nat) : (e.arranged σ).Sound := fun c => h (σ c)

omit [EuclideanArith R] [MaximalArith R] in
/-- A division that is right for every divisor but zero is as good as the quotient. -/
theorem divisibleBy (h : e.Sound) {divide : R → R → Checked R}
    (hdivide : ∀ x y, y ≠ 0 → divide x y = .ok (x / y)) (pivoting : ColumnPivoting) :
    e.DivisibleBy divide pivoting := by
  intro c entry hzero
  have hnorm : e.norms c ≠ 0 := LawfulOrder.ne_of_beq_eq_false hzero
  have hreference := (h c).2 hnorm
  exact ColumnPivoting.downdateBy_eq_ok (fun x => hdivide x _ hnorm)
    (fun x => hdivide x _ hreference.ne') pivoting entry

end Estimates.Sound

end Estimates

section Updates

variable {K R : Type} [LinearOrder R] [ExactArith R] [HermitianScalar K R] [MeasuredScalar K]
  [EuclideanArith R] [MaximalArith R] {m n k j : Nat} {f g : Nat → Nat → K} {e : Estimates R}

omit [EuclideanArith R] [MaximalArith R] in
theorem remainingNorm_congr {start : Nat} (hstart : start ≤ m)
    (h : ∀ r, start ≤ r → r < m → f r j = g r j) :
    (remainingNorm f m j start : R) = remainingNorm g m j start := by
  rw [remainingNorm_eq f j hstart, remainingNorm_eq g j hstart, columnSquares_congr h]

omit [MaximalArith R] in
theorem Estimates.sound_initial (f : Nat → Nat → K) (m : Nat) :
    (Estimates.initial f m : Estimates R).Sound := fun c =>
  have hnonneg := remainingNorm_nonneg f c (Nat.zero_le m)
  ⟨hnonneg, fun hne => lt_of_le_of_ne hnonneg hne.symm⟩

/-- An update keeps the estimates sound: what is kept of a norm is compared with the same reference, and
a norm that is computed afresh with itself. -/
theorem Estimates.Sound.downdateAt (h : e.Sound) (pivoting : ColumnPivoting) (f : Nat → Nat → K)
    (hk : k < m) (j : Nat) : (e.downdateAt pivoting f m k j).Sound := by
  intro c
  rcases eq_or_ne c j with rfl | hne
  · unfold Estimates.downdateAt
    cases hzero : e.norms c == 0 with
    | true => exact h c
    | false =>
      have hnorm : e.norms c ≠ 0 := LawfulOrder.ne_of_beq_eq_false hzero
      rw [if_neg Bool.false_ne_true]
      cases hleft : pivoting.downdate (Scalar.modulus (f k c)) (e.norms c) (e.references c) with
      | some left =>
        dsimp only
        rw [Function.update_self]
        refine ⟨?_, fun _ => (h c).2 hnorm⟩
        rw [eq_of_downdate hleft, MaximalArith.max_eq]
        exact mul_nonneg (h c).1 (EuclideanArith.sqrt_nonneg _ (le_max_right _ _))
      | none =>
        have hnonneg : (0 : R) ≤ remainingNorm f m c (k + 1) := remainingNorm_nonneg f c hk
        dsimp only
        rw [Function.update_self, Function.update_self]
        exact ⟨hnonneg, fun hne => lt_of_le_of_ne hnonneg hne.symm⟩
  · rw [e.norms_downdateAt_of_ne pivoting f m k hne, e.references_downdateAt_of_ne pivoting f m k hne]
    exact h c

theorem Estimates.Sound.downdate (h : e.Sound) (pivoting : ColumnPivoting) (f : Nat → Nat → K)
    (hk : k < m) (count : Nat) : (e.downdate pivoting f m k count).Sound := by
  induction count with
  | zero => exact h
  | succ count ih => exact ih.downdateAt pivoting f hk _

/-- The two forms bring a norm up to date in the same way, from cells that agree in its column. -/
theorem downdateAt_raw_eq_compact (h : e.Sound) (hk : k < m)
    (hcells : ∀ r, k ≤ r → r < m → f r j = g r j) :
    e.downdateAt .raw f m k j = e.downdateAt .compact g m k j := by
  unfold Estimates.downdateAt
  cases hzero : e.norms j == 0 with
  | true => rfl
  | false =>
    have hnorm : e.norms j ≠ 0 := LawfulOrder.ne_of_beq_eq_false hzero
    rw [downdate_raw_eq_compact _ (h j).1 ((h j).2 hnorm), hcells k (Nat.le_refl k) hk,
      remainingNorm_congr hk fun r hr hr' => hcells r (by omega) hr']

theorem downdate_raw_eq_compact_of_cells (h : e.Sound) (hk : k < m)
    (hcells : ∀ r c, k < c → k ≤ r → r < m → f r c = g r c) (count : Nat) :
    e.downdate .raw f m k count = e.downdate .compact g m k count := by
  induction count with
  | zero => rfl
  | succ count ih =>
    rw [Estimates.downdate, Estimates.downdate, ih]
    exact downdateAt_raw_eq_compact (h.downdate .compact g hk count) hk
      fun r hr hr' => hcells r _ (by omega) hr hr'

/-! ## The two runs -/

namespace PivotedReduction

theorem sound_run (pivoting : ColumnPivoting) (f : Nat → Nat → K) {count : Nat}
    (hcount : count ≤ m) :
    (run pivoting m n f count : PivotedReduction K R).estimates.Sound := by
  induction count with
  | zero => exact Estimates.sound_initial f m
  | succ count ih => exact ((ih (by omega)).arranged _).downdate pivoting _ hcount _

/-- After `k` steps the raw form is in the state `s` and the compact form in the state `t`. -/
structure Matches (m k : Nat) (s t : PivotedReduction K R) : Prop where
  /-- The factors are the same, but for what is packed. -/
  factors : Reduction.SameFactors m k s.toReduction t.toReduction
  /-- The same columns have been brought forward. -/
  order : s.order = t.order
  /-- The norms are the same, and so are those that have been computed afresh. -/
  estimates : s.estimates = t.estimates
  /-- There is a reflection for every step. -/
  size : t.taus.size = k
  /-- What the one form packs is scaled by the factor in the other one. -/
  packed : ∀ r c, c < k → c < r → r < m → t.cells r c = t.taus.getD c 0 * s.cells r c

namespace Matches

variable {s t : PivotedReduction K R}

omit [MeasuredScalar K] [EuclideanArith R] [MaximalArith R] in
/-- An exchange concerns columns that no step has reduced. -/
theorem exchange (h : Matches m k s t) {p : Nat} (hp : k ≤ p) :
    Matches m k (s.exchange k p) (t.exchange k p) := by
  have hfixed : ∀ c < k, Equiv.swap k p c = c := fun c hc =>
    Equiv.swap_apply_of_ne_of_ne (by omega) (by omega)
  refine ⟨⟨h.factors.taus, h.factors.phis, fun r c hrc => ?_⟩, ?_, ?_, h.size,
    fun r c hc hcr hr => ?_⟩
  · change s.cells r (Equiv.swap k p c) = t.cells r (Equiv.swap k p c)
    refine h.factors.cells r _ ?_
    rcases Nat.lt_or_ge c k with hc | hc
    · rw [hfixed c hc]
      exact hrc
    · exact Or.inr (Or.inr (le_apply_of_fixed hfixed hc))
  · exact congrArg (· * Equiv.swap k p) h.order
  · exact congrArg (Estimates.arranged (Equiv.swap k p)) h.estimates
  · change t.cells r (Equiv.swap k p c) = t.taus.getD c 0 * s.cells r (Equiv.swap k p c)
    rw [hfixed c hc]
    exact h.packed r c hc hcr hr

theorem reduce (h : Matches m k s t) (hsound : t.estimates.Sound) (hk : k < m) :
    Matches m (k + 1) (s.reduce .raw m n k) (t.reduce .compact m n k) := by
  have hcolumn : Reflection.atColumn s.cells m k = Reflection.atColumn t.cells m k :=
    Reflection.atColumn_congr hk fun r _ _ => h.factors.cells r k (by omega)
  have hfactors : Reduction.SameFactors m (k + 1) (s.toReduction.stepWith .raw m k)
      (t.toReduction.stepWith .compact m k) := h.factors.step hk
  refine ⟨hfactors, h.order, ?_, ?_, fun r c hc hcr hr => ?_⟩
  · change s.estimates.downdate .raw _ m k _ = t.estimates.downdate .compact _ m k _
    rw [h.estimates]
    exact downdate_raw_eq_compact_of_cells hsound hk
      (fun r c hc _ _ => hfactors.cells r c (by omega)) _
  · exact (Array.size_push _).trans (congrArg (· + 1) h.size)
  · change reduced .compact m k t.cells r c =
      (t.taus.push (Reflection.atColumn t.cells m k).tau).getD c 0 * reduced .raw m k s.cells r c
    rw [Array.getD_eq_getD_getElem?]
    rcases Nat.lt_or_ge c k with hlt | hge
    · -- an earlier column has been finished
      have hsize := h.size
      rw [reduced_of_lt_col hlt, reduced_of_lt_col hlt, Array.getElem?_push_lt (by omega),
        h.packed r c hlt hcr hr, Array.getD_eq_getD_getElem?, Array.getElem?_eq_getElem]
    · obtain rfl : c = k := by omega
      rw [reduced_column hcr hr, reduced_column hcr hr, hcolumn, ← h.size, Array.getElem?_push_size,
        h.size, packedScale, packedScale, one_mul]
      rfl

end Matches

/-- The two forms take the same decisions all along. -/
theorem matches_run (f : Nat → Nat → K) {count : Nat} (hcount : count ≤ m) :
    Matches m count (run .raw m n f count : PivotedReduction K R) (run .compact m n f count) := by
  induction count with
  | zero => exact ⟨⟨rfl, rfl, fun _ _ _ => rfl⟩, rfl, rfl, rfl, fun _ _ hc => absurd hc (by omega)⟩
  | succ count ih =>
    have h := ih (by omega)
    have hpivot : pivot n count (run .raw m n f count : PivotedReduction K R) =
        pivot n count (run .compact m n f count : PivotedReduction K R) := by
      rw [pivot, pivot, h.estimates]
    rw [run, run, step, step, hpivot]
    exact (h.exchange (le_pivot _ _ _)).reduce
      ((sound_run .compact f (Nat.le_of_succ_le hcount)).arranged _) hcount

end PivotedReduction

/-- The raw form leaves the factors `p` and the compact form the factors `q` of the matrix `a`, which
are the same but for what is packed. -/
structure FormsAgree (a : PagedMatrix K) (p q : PackedPivotedQr K) : Prop where
  /-- The columns come in the same order. -/
  order : p.order = q.order
  /-- The factors of the reflections are the same. -/
  taus : p.taus = q.taus
  /-- The phases are the same. -/
  phis : p.phis = q.phis
  /-- The factors have the shape of the matrix. -/
  shape : p.packed.shape = a.shape ∧ q.packed.shape = a.shape
  /-- The triangular factors are the same. -/
  upper : ∀ i j, i < a.rows → j < a.cols → i ≤ j →
    ∃ x, p.packed.get i j = .ok x ∧ q.packed.get i j = .ok x
  /-- Below the diagonal the compact form has scaled what the raw form has packed. -/
  packed : ∀ i k, i < a.rows → k < a.cols → k < i →
    ∃ x tau, p.packed.get i k = .ok x ∧ q.taus[k]? = some tau ∧ q.packed.get i k = .ok (tau * x)

/-- The process-wide state when the columns and steps at which norms were computed afresh have been
reported. -/
def afterReports (pivoting : ColumnPivoting) (recomputed : Array (Nat × Nat)) (before : Ambient) :
    Ambient :=
  { before with
    log := before.log ++ recomputed.map fun entry => .normRecomputed pivoting entry.1 entry.2 }

section Forms

variable {a : PagedMatrix K}

/-- With room for the order of its columns, a matrix with a single page is factored in both forms,
which take the same decisions. -/
theorem exists_formsAgree (ha : a.Stored) (hpage : a.SinglePage)
    (hroom : sizeBytes * a.cols ≤ capacityLimit) (before before' : Ambient) :
    ∃ (p q : PackedPivotedQr K) (recomputed : Array (Nat × Nat)),
      (factorPivoted .raw a).run before = .ok (p, afterReports .raw recomputed before) ∧
      (factorPivoted .compact a).run before' = .ok (q, afterReports .compact recomputed before') ∧
      FormsAgree a p q := by
  have hsweep : ∀ pivoting : ColumnPivoting,
      pivotedSweep pivoting (ofCells a.shape a.kind a.rows a.cell) = .ok _ := fun pivoting =>
    pivotedSweep_ofCells (Nat.le_refl _) ha.rows_lt (ha.fits_rows_of_singlePage hpage) hroom
      fun _ _ => ha.height_eq hpage
  have h := PivotedReduction.matches_run (n := a.cols) a.cell (Nat.min_le_left a.rows a.cols)
  have hraw := run_factorPivoted (hsweep .raw) before
  have hcompact := run_factorPivoted (hsweep .compact) before'
  rw [h.estimates] at hraw
  rw [← ha.eq_ofCells_of_singlePage hpage] at hraw hcompact
  refine ⟨_, _, _, hraw, hcompact, ⟨?_, h.factors.taus, h.factors.phis, ⟨rfl, rfl⟩, ?_, ?_⟩⟩
  · unfold pivotedFactors
    dsimp only
    rw [h.order]
  · intro i j hi hj hij
    have hentry := h.factors.cells i j (Or.inr (Or.inl hij))
    exact ⟨_, get_ofCells hi hj, (get_ofCells hi hj).trans (congrArg Except.ok hentry.symm)⟩
  · intro i k hi hk hki
    have hlt : k < min a.rows a.cols := lt_min (hki.trans hi) hk
    have hentry := h.packed i k hlt hki hi
    exact ⟨_, _, get_ofCells hi hk, getElem?_getD (h.size.symm ▸ hlt),
      (get_ofCells hi hk).trans (congrArg Except.ok hentry)⟩

/-- No form divides by a norm that is zero: what a division does with zero makes no difference. -/
theorem pivotedSweepBy_eq (ha : a.Stored) (hpage : a.SinglePage) {divide : R → R → Checked R}
    (hdivide : ∀ x y, y ≠ 0 → divide x y = .ok (x / y)) (pivoting : ColumnPivoting) :
    pivotedSweepBy divide pivoting a = pivotedSweep pivoting a := by
  rcases Nat.lt_or_ge capacityLimit (sizeBytes * a.cols) with hfull | hroom
  · rw [pivotedSweepBy_eq_error divide pivoting hfull, pivotedSweep_eq_error pivoting hfull]
  · have hheight : 0 < a.shape.rows → 0 < a.shape.cols → a.shape.height = .ok a.rows :=
      fun _ _ => ha.height_eq hpage
    have hsweep : pivotedSweep pivoting (ofCells a.shape a.kind a.rows a.cell) = .ok _ :=
      pivotedSweep_ofCells (Nat.le_refl _) ha.rows_lt (ha.fits_rows_of_singlePage hpage) hroom hheight
    rw [ha.eq_ofCells_of_singlePage hpage, hsweep]
    refine pivotedSweepBy_ofCells (fun k hk => ?_) (Nat.le_refl _) ha.rows_lt
      (ha.fits_rows_of_singlePage hpage) hroom hheight
    exact (PivotedReduction.sound_run pivoting a.cell
      (hk.le.trans (Nat.min_le_left _ _))).divisibleBy hdivide pivoting

/-- The two forms of the factorisation with pivoting agree on every matrix with a single page, whatever
the process-wide state: they leave the same factors but for what is packed, and report the same columns
and steps at which a norm is computed afresh. Where memory has no room for the order of the columns,
both end with the same fault. No form ever divides by a norm that is zero: a division that is right for
all other divisors, and may fail for zero, leads to the same result. -/
theorem factorPivoted_forms_agree (ha : a.Stored) (hpage : a.SinglePage)
    (before before' : Ambient) :
    (sizeBytes * a.cols ≤ capacityLimit →
      ∃ (p q : PackedPivotedQr K) (recomputed : Array (Nat × Nat)),
        (factorPivoted .raw a).run before = .ok (p, afterReports .raw recomputed before) ∧
        (factorPivoted .compact a).run before' = .ok (q, afterReports .compact recomputed before') ∧
        FormsAgree a p q) ∧
    (capacityLimit < sizeBytes * a.cols →
      (factorPivoted .raw a).run before = .error .capacity ∧
      (factorPivoted .compact a).run before' = .error .capacity) ∧
    ∀ divide : R → R → Checked R, (∀ x y, y ≠ 0 → divide x y = .ok (x / y)) →
      ∀ pivoting, pivotedSweepBy divide pivoting a = pivotedSweep pivoting a :=
  ⟨fun hroom => exists_formsAgree ha hpage hroom before before',
    fun hfull => ⟨run_factorPivoted_eq_error .raw hfull before,
      run_factorPivoted_eq_error .compact hfull before'⟩,
    fun _ hdivide pivoting => pivotedSweepBy_eq ha hpage hdivide pivoting⟩

end Forms

/-- The two forms on a matrix of rank one, for a real and for a complex entry, and on too many
columns. -/
theorem factorPivoted_forms_agree_equalColumns :
    ((equalColumns (2 : ℝ)).Stored ∧ (equalColumns (2 : ℝ)).SinglePage ∧
      sizeBytes * 2 ≤ capacityLimit ∧
      (∃ (p q : PackedPivotedQr ℝ) (recomputed : Array (Nat × Nat)),
        (factorPivoted .raw (equalColumns (2 : ℝ))).run {} =
          .ok (p, afterReports .raw recomputed {}) ∧
        (factorPivoted .compact (equalColumns (2 : ℝ))).run {} =
          .ok (q, afterReports .compact recomputed {}) ∧
        FormsAgree (equalColumns (2 : ℝ)) p q) ∧
      ∀ divide : ℝ → ℝ → Checked ℝ, (∀ x y, y ≠ 0 → divide x y = .ok (x / y)) →
        ∀ pivoting, pivotedSweepBy divide pivoting (equalColumns (2 : ℝ)) =
          pivotedSweep pivoting (equalColumns 2)) ∧
    ((equalColumns (⟨0, 1⟩ : Cartesian ℝ)).Stored ∧
      (equalColumns (⟨0, 1⟩ : Cartesian ℝ)).SinglePage ∧ sizeBytes * 2 ≤ capacityLimit ∧
      (∃ (p q : PackedPivotedQr (Cartesian ℝ)) (recomputed : Array (Nat × Nat)),
        (factorPivoted .raw (equalColumns (⟨0, 1⟩ : Cartesian ℝ))).run {} =
          .ok (p, afterReports .raw recomputed {}) ∧
        (factorPivoted .compact (equalColumns (⟨0, 1⟩ : Cartesian ℝ))).run {} =
          .ok (q, afterReports .compact recomputed {}) ∧
        FormsAgree (equalColumns (⟨0, 1⟩ : Cartesian ℝ)) p q) ∧
      ∀ divide : ℝ → ℝ → Checked ℝ, (∀ x y, y ≠ 0 → divide x y = .ok (x / y)) →
        ∀ pivoting, pivotedSweepBy divide pivoting (equalColumns (⟨0, 1⟩ : Cartesian ℝ)) =
          pivotedSweep pivoting (equalColumns ⟨0, 1⟩)) ∧
    (withoutRows : PagedMatrix ℝ).Stored ∧ (withoutRows : PagedMatrix ℝ).SinglePage ∧
      capacityLimit < sizeBytes * 2 ^ 61 ∧
      (factorPivoted .raw (withoutRows : PagedMatrix ℝ)).run {} = .error .capacity ∧
      (factorPivoted .compact (withoutRows : PagedMatrix ℝ)).run {} = .error .capacity := by
  have hreal : (equalColumns (2 : ℝ)).Stored := ⟨rfl, by decide, by decide, by decide⟩
  have hcomplex : (equalColumns (⟨0, 1⟩ : Cartesian ℝ)).Stored :=
    ⟨rfl, by decide, by decide, by decide⟩
  have hroom : sizeBytes * 2 ≤ capacityLimit := by decide
  have hwide : (withoutRows : PagedMatrix ℝ).Stored := stored_withoutRows (by decide)
  have hfull : capacityLimit < sizeBytes * 2 ^ 61 := by decide
  obtain ⟨hforms, -, hdivide⟩ := factorPivoted_forms_agree hreal rfl {} {}
  obtain ⟨hforms', -, hdivide'⟩ := factorPivoted_forms_agree hcomplex rfl {} {}
  obtain ⟨-, hfault, -⟩ := factorPivoted_forms_agree hwide rfl {} {}
  exact ⟨⟨hreal, rfl, hroom, hforms hroom, hdivide⟩,
    ⟨hcomplex, rfl, hroom, hforms' hroom, hdivide'⟩, hwide, rfl, hfull, hfault hfull⟩

end Updates

end Qr

end DenseLinear
