import DenseLinear.Proofs.Arrangements
import DenseLinear.Proofs.NormDivisions
import DenseLinear.Proofs.Surroundings
import DenseLinear.Real.Machine

/-!
# QR factorisation with column pivoting, cell by cell

What the factorisation with pivoting computes, as a function of the cells of its matrix
(`PivotedReduction.run`): a step exchanges two columns, reduces the one that has come forward and
brings the norms up to date. Nothing is asked of the entries or of the order of their norms, so the
choice of the columns may be driven by values that are not numbers.

Every exchange concerns columns that no step has reduced yet. So an exchange might as well have been
made before the first step, and the factorisation is the one without pivoting of the rearranged
matrix (`PivotedReduction.toReduction_run`). The only thing that can go wrong is that memory has no
room for the order of the columns (`pivotedSweepBy_eq_error`).
-/

namespace DenseLinear

namespace Qr

open PagedMatrix

variable {α ρ : Type} [RealArith ρ]

/-! ## Norms -/

/-- The first position among the `count + 1` from `k` on with the largest norm, as the comparison
sees it. -/
def leader (norms : Nat → ρ) (k : Nat) : Nat → Nat
  | 0 => k
  | count + 1 =>
    if RealArith.lt (norms (leader norms k count)) (norms (k + 1 + count)) then k + 1 + count
    else leader norms k count

theorem le_leader (norms : Nat → ρ) (k count : Nat) : k ≤ leader norms k count := by
  induction count with
  | zero => exact Nat.le_refl k
  | succ count ih =>
    rw [leader]
    split
    · omega
    · exact ih

theorem leader_le (norms : Nat → ρ) (k count : Nat) : leader norms k count ≤ k + count := by
  induction count with
  | zero => exact Nat.le_refl k
  | succ count ih =>
    rw [leader]
    split
    · omega
    · omega

theorem largestFrom_listed {n k : Nat} (norms : Nat → ρ) (hk : k < n) :
    largestFrom (listed n norms) k = .ok (leader norms k (n - (k + 1))) := by
  unfold largestFrom
  rw [size_listed]
  refine ascend_eq_ok (fun j => leader norms k (j - (k + 1))) hk (by simp [leader]) rfl ?_
  intro j hj hj'
  have hcount : j + 1 - (k + 1) = (j - (k + 1)) + 1 := by omega
  have hplace : k + 1 + (j - (k + 1)) = j := by omega
  have hbest := leader_le norms k (j - (k + 1))
  rw [readAt_listed hj', ok_bind, readAt_listed (by omega), ok_bind, hcount, leader, hplace]
  rfl

/-- What is known of the norms of all columns while they are reduced. -/
structure Estimates (ρ : Type) where
  /-- The estimated norm of the rest of each column. -/
  norms : Nat → ρ
  /-- The norm of each column when it was last computed. -/
  references : Nat → ρ
  /-- The columns and steps at which a norm was computed afresh. -/
  recomputed : Array (Nat × Nat)

namespace Estimates

/-- The table of the norms of the first `n` columns. -/
def table (n : Nat) (e : Estimates ρ) : NormTable ρ :=
  { norms := listed n e.norms, references := listed n e.references, recomputed := e.recomputed }

/-- The norms when the columns are rearranged. -/
def arranged (σ : Equiv.Perm Nat) (e : Estimates ρ) : Estimates ρ :=
  { e with norms := fun c => e.norms (σ c), references := fun c => e.references (σ c) }

end Estimates

section Norms

variable [Scalar α ρ]

/-- The squared absolute values of `count` rows from `start` on of column `j`, added one by one. -/
def normSqSum (f : Nat → Nat → α) (j start count : Nat) : ρ :=
  (List.range count).foldl (fun sum l => sum + Scalar.normSq (f (start + l) j)) (-0)

theorem normSqSum_succ (f : Nat → Nat → α) (j start count : Nat) :
    normSqSum f j start (count + 1) =
      normSqSum f j start count + Scalar.normSq (f (start + count) j) := by
  simp [normSqSum, List.range_succ]

/-- The norm of the rows from `start` on of column `j` of a page of `m` rows. -/
def remainingNorm (f : Nat → Nat → α) (m j start : Nat) : ρ :=
  Scalar.rePart (Scalar.sqrt (Scalar.ofReal (normSqSum f j start (m - start)) : α))

/-- The norms before any step. -/
def Estimates.initial (f : Nat → Nat → α) (m : Nat) : Estimates ρ :=
  ⟨fun j => remainingNorm f m j 0, fun j => remainingNorm f m j 0, #[]⟩

/-- The norm of column `j` is brought up to date with the reduction of column `k`. -/
def Estimates.downdateAt (pivoting : ColumnPivoting) (f : Nat → Nat → α) (m k j : Nat)
    (e : Estimates ρ) : Estimates ρ :=
  if e.norms j == 0 then e
  else
    match pivoting.downdate (Scalar.modulus (f k j)) (e.norms j) (e.references j) with
    | some left => { e with norms := Function.update e.norms j left }
    | none =>
      { norms := Function.update e.norms j (remainingNorm f m j (k + 1))
        references := Function.update e.references j (remainingNorm f m j (k + 1))
        recomputed := e.recomputed.push (j, k) }

/-- The norms of the first `count` columns after `k` are brought up to date. -/
def Estimates.downdate (pivoting : ColumnPivoting) (f : Nat → Nat → α) (m k : Nat)
    (e : Estimates ρ) : Nat → Estimates ρ
  | 0 => e
  | count + 1 => (e.downdate pivoting f m k count).downdateAt pivoting f m k (k + 1 + count)

omit [Scalar α ρ] in
/-- Both forms of the factorisation take the same part off an estimate that they keep. -/
theorem eq_of_downdate {pivoting : ColumnPivoting} {entry norm reference left : ρ}
    (h : pivoting.downdate entry norm reference = some left) :
    left = norm * RealArith.sqrt (RealArith.max (1 - entry / norm * (entry / norm)) 0) := by
  cases pivoting with
  | raw =>
    simp only [ColumnPivoting.downdate] at h
    split at h
    · contradiction
    · exact (Option.some.inj h).symm
  | compact =>
    simp only [ColumnPivoting.downdate] at h
    split at h
    · contradiction
    · exact (Option.some.inj h).symm

theorem Estimates.norms_downdateAt_of_ne (pivoting : ColumnPivoting) (f : Nat → Nat → α) (m k : Nat)
    (e : Estimates ρ) {j c : Nat} (hc : c ≠ j) :
    (e.downdateAt pivoting f m k j).norms c = e.norms c := by
  unfold downdateAt
  split
  · rfl
  · split
    · exact Function.update_of_ne hc _ _
    · exact Function.update_of_ne hc _ _

theorem Estimates.references_downdateAt_of_ne (pivoting : ColumnPivoting) (f : Nat → Nat → α)
    (m k : Nat) (e : Estimates ρ) {j c : Nat} (hc : c ≠ j) :
    (e.downdateAt pivoting f m k j).references c = e.references c := by
  unfold downdateAt
  split
  · rfl
  · split
    · rfl
    · exact Function.update_of_ne hc _ _

/-- The norms of a column are left alone until it is its turn. -/
theorem Estimates.downdate_of_le (pivoting : ColumnPivoting) (f : Nat → Nat → α) (m k : Nat)
    (e : Estimates ρ) {count c : Nat} (hc : k + 1 + count ≤ c) :
    (e.downdate pivoting f m k count).norms c = e.norms c ∧
      (e.downdate pivoting f m k count).references c = e.references c := by
  induction count with
  | zero => exact ⟨rfl, rfl⟩
  | succ count ih =>
    obtain ⟨hnorm, hreference⟩ := ih (by omega)
    have hne : c ≠ k + 1 + count := by omega
    rw [downdate, norms_downdateAt_of_ne _ _ _ _ _ hne, references_downdateAt_of_ne _ _ _ _ _ hne]
    exact ⟨hnorm, hreference⟩

omit [Scalar α ρ] in
/-- The norms may be brought up to date with `divide`: at every column that is not passed over it is as
good as the quotient. -/
def Estimates.DivisibleBy (divide : ρ → ρ → Checked ρ) (pivoting : ColumnPivoting) (e : Estimates ρ) :
    Prop :=
  ∀ c entry, (e.norms c == 0) = false →
    pivoting.downdateBy divide entry (e.norms c) (e.references c) =
      .ok (pivoting.downdate entry (e.norms c) (e.references c))

omit [Scalar α ρ] in
/-- Columns that are rearranged take their divisors with them. -/
theorem Estimates.DivisibleBy.arranged {divide : ρ → ρ → Checked ρ} {pivoting : ColumnPivoting}
    {e : Estimates ρ} (h : e.DivisibleBy divide pivoting) (σ : Equiv.Perm Nat) :
    (e.arranged σ).DivisibleBy divide pivoting :=
  fun c => h (σ c)

variable {shape : Shape} {kind : NumericKind} {height : Nat} {f : Nat → Nat → α}

theorem restNorm_ofCells {j start : Nat} (hstart : start ≤ shape.rows)
    (hrows : shape.rows ≤ height) (hj : j < shape.cols) :
    restNorm (ofCells shape kind height f) j start = .ok (remainingNorm f shape.rows j start) := by
  have hsum : ascend start shape.rows (-0 : ρ) (fun i sum => do
      return sum + Scalar.normSq (← (ofCells shape kind height f).get i j)) =
      (.ok (normSqSum f j start (shape.rows - start)) : Checked ρ) := by
    refine ascend_eq_ok (fun i => normSqSum f j start (i - start)) hstart (by simp [normSqSum]) rfl ?_
    intro i hi hi'
    have hcount : i + 1 - start = (i - start) + 1 := by omega
    have hplace : start + (i - start) = i := by omega
    rw [get_ofCells (by omega) hj, ok_bind, hcount, normSqSum_succ, hplace]
    rfl
  unfold restNorm columnNorm columnNormSq
  rw [rows_ofCells, hsum]
  rfl

theorem allNorms_ofCells (hrows : shape.rows ≤ height) :
    allNorms (ofCells shape kind height f) =
      .ok ((Estimates.initial f shape.rows).table shape.cols) := by
  have hnorms : ascend 0 shape.cols #[] (fun j norms => do
      return norms.push (← restNorm (ofCells shape kind height f) j 0)) =
      .ok (listed shape.cols fun j => remainingNorm f shape.rows j 0) := by
    refine (ascend_push (fun j => remainingNorm f shape.rows j 0) (Nat.zero_le _) ?_).trans
      (by simp [listed])
    intro j v _ hj
    rw [restNorm_ofCells (Nat.zero_le _) hrows hj, ok_bind]
    rfl
  unfold allNorms
  rw [cols_ofCells, hnorms]
  rfl

/-- The norms of the columns after `k` are brought up to date one after the other. -/
theorem downdateNormsBy_ofCells {divide : ρ → ρ → Checked ρ} {pivoting : ColumnPivoting} {k : Nat}
    {e : Estimates ρ} (hdivide : e.DivisibleBy divide pivoting) (hk : k < shape.rows)
    (hrows : shape.rows ≤ height) (hk' : k < shape.cols) :
    downdateNormsBy divide pivoting (ofCells shape kind height f) k (e.table shape.cols) =
      .ok ((e.downdate pivoting f shape.rows k (shape.cols - (k + 1))).table shape.cols) := by
  unfold downdateNormsBy
  rw [cols_ofCells]
  refine ascend_eq_ok (fun j => (e.downdate pivoting f shape.rows k (j - (k + 1))).table shape.cols)
    hk' (by simp [Estimates.downdate]) rfl ?_
  intro j hj hj'
  have hcount : j + 1 - (k + 1) = (j - (k + 1)) + 1 := by omega
  have hplace : k + 1 + (j - (k + 1)) = j := by omega
  -- this column has not been looked at before
  have hbefore := e.downdate_of_le pivoting f shape.rows k hplace.le
  have hdivide := hdivide j
  rw [← hbefore.1, ← hbefore.2] at hdivide
  rw [hcount, Estimates.downdate, hplace]
  generalize e.downdate pivoting f shape.rows k (j - (k + 1)) = e at hdivide
  unfold Estimates.downdateAt Estimates.table
  dsimp only
  rw [readAt_listed hj', ok_bind]
  cases hzero : e.norms j == 0 with
  | true => rfl
  | false =>
    rw [if_neg Bool.false_ne_true, if_neg Bool.false_ne_true, readAt_listed hj', ok_bind,
      get_ofCells (by omega) hj', ok_bind, hdivide _ hzero, ok_bind]
    cases pivoting.downdate (Scalar.modulus (f k j)) (e.norms j) (e.references j) with
    | some left =>
      dsimp only
      rw [writeAt_listed hj', ok_bind]
      rfl
    | none =>
      dsimp only
      rw [restNorm_ofCells hk hrows hj', ok_bind, writeAt_listed hj', ok_bind, writeAt_listed hj',
        ok_bind]
      rfl

end Norms

/-! ## The factorisation -/

variable [Scalar α ρ]

/-- The state of the factorisation with pivoting. -/
structure PivotedReduction (α ρ : Type) extends Reduction α where
  /-- The column of the matrix that has come to each position. -/
  order : Equiv.Perm Nat
  /-- The norms that guide the choice of the next column. -/
  estimates : Estimates ρ

namespace PivotedReduction

/-- The state before any step. -/
def initial (m : Nat) (f : Nat → Nat → α) : PivotedReduction α ρ :=
  { Reduction.initial f with order := 1, estimates := .initial f m }

/-- The column that is brought forward at step `k`. -/
def pivot (n k : Nat) (s : PivotedReduction α ρ) : Nat :=
  leader s.estimates.norms k (n - (k + 1))

/-- The state when columns `k` and `p` have been exchanged. -/
def exchange (k p : Nat) (s : PivotedReduction α ρ) : PivotedReduction α ρ :=
  { s with
    cells := arranged (Equiv.swap k p) s.cells
    order := s.order * Equiv.swap k p
    estimates := s.estimates.arranged (Equiv.swap k p) }

/-- The state when column `k` has been reduced. -/
def reduce (pivoting : ColumnPivoting) (m n k : Nat) (s : PivotedReduction α ρ) :
    PivotedReduction α ρ :=
  let t := s.toReduction.stepWith pivoting.packing m k
  { t with
    order := s.order
    estimates := s.estimates.downdate pivoting t.cells m k (n - (k + 1)) }

/-- One step: the column with the largest norm is brought forward and reduced. -/
def step (pivoting : ColumnPivoting) (m n k : Nat) (s : PivotedReduction α ρ) :
    PivotedReduction α ρ :=
  (s.exchange k (s.pivot n k)).reduce pivoting m n k

/-- The first `count` steps on a page of `m` rows and `n` columns. -/
def run (pivoting : ColumnPivoting) (m n : Nat) (f : Nat → Nat → α) :
    Nat → PivotedReduction α ρ
  | 0 => initial m f
  | count + 1 => (run pivoting m n f count).step pivoting m n count

omit [Scalar α ρ] in
theorem pivot_lt {n k : Nat} (s : PivotedReduction α ρ) (hk : k < n) : s.pivot n k < n := by
  have h := leader_le s.estimates.norms k (n - (k + 1))
  unfold pivot
  omega

omit [Scalar α ρ] in
theorem le_pivot (n k : Nat) (s : PivotedReduction α ρ) : k ≤ s.pivot n k :=
  le_leader _ _ _

omit [Scalar α ρ] in
/-- An exchange leaves the columns that are reduced in place. -/
theorem swap_pivot_of_lt {n k c : Nat} (s : PivotedReduction α ρ) (hc : c < k) :
    Equiv.swap k (s.pivot n k) c = c := by
  have h := s.le_pivot n k
  exact Equiv.swap_apply_of_ne_of_ne (by omega) (by omega)

variable {pivoting : ColumnPivoting} {m n count : Nat}

theorem order_run_of_le (f : Nat → Nat → α) (hcount : count ≤ n) {c : Nat} (hc : n ≤ c) :
    (run pivoting m n f count : PivotedReduction α ρ).order c = c := by
  induction count with
  | zero => rfl
  | succ count ih =>
    have hlt := (run pivoting m n f count : PivotedReduction α ρ).pivot_lt (k := count) hcount
    change (run pivoting m n f count).order (Equiv.swap _ _ c) = c
    rw [Equiv.swap_apply_of_ne_of_ne (by omega) (by omega)]
    exact ih (by omega)

/-- The factorisation with pivoting runs the steps without pivoting on the rearranged cells: an
exchange may as well be made before the steps that it follows. -/
theorem toReduction_run (pivoting : ColumnPivoting) (m n : Nat) (f : Nat → Nat → α) (count : Nat) :
    (run pivoting m n f count : PivotedReduction α ρ).toReduction =
      Reduction.runWith pivoting.packing m
        (arranged (run pivoting m n f count : PivotedReduction α ρ).order f) count := by
  induction count with
  | zero => rfl
  | succ count ih =>
    generalize hs : (run pivoting m n f count : PivotedReduction α ρ) = s at ih
    rw [run, hs]
    -- the exchange concerns columns that no step has reduced
    have hexchange : (s.exchange count (s.pivot n count)).toReduction =
        Reduction.runWith pivoting.packing m
          (arranged (s.order * Equiv.swap count (s.pivot n count)) f) count := by
      rw [← arranged_arranged, Reduction.runWith_arranged fun c hc => s.swap_pivot_of_lt hc, ← ih]
      rfl
    rw [Reduction.runWith]
    change (s.exchange count (s.pivot n count)).toReduction.stepWith pivoting.packing m count = _
    rw [hexchange]
    rfl

end PivotedReduction

variable {shape : Shape} {kind : NumericKind} {height : Nat} {f : Nat → Nat → α}

omit [Scalar α ρ] in
/-- The column with the largest norm is exchanged with column `k`, unless it is that column. -/
theorem bringForward_ofCells {k : Nat} (s : PivotedReduction α ρ) (hk : k < shape.cols)
    (hheight : shape.height = .ok height) :
    bringForward (ofCells shape kind height s.cells) (listed shape.cols s.order)
        (s.estimates.table shape.cols) k =
      .ok (ofCells shape kind height (s.exchange k (s.pivot shape.cols k)).cells,
        listed shape.cols (s.exchange k (s.pivot shape.cols k)).order,
        (s.exchange k (s.pivot shape.cols k)).estimates.table shape.cols) := by
  have hp := s.pivot_lt hk
  have hlargest : largestFrom (listed shape.cols s.estimates.norms) k = .ok (s.pivot shape.cols k) :=
    largestFrom_listed _ hk
  unfold bringForward Estimates.table
  dsimp only
  rw [hlargest, ok_bind]
  by_cases hpivot : s.pivot shape.cols k = k
  · rw [if_pos hpivot, hpivot]
    unfold PivotedReduction.exchange Estimates.arranged
    rw [Equiv.swap_self]
    rfl
  · rw [if_neg hpivot, swapCols_ofCells hheight hk hp, ok_bind, swapAt_listed hk hp, ok_bind,
      swapAt_listed hk hp, ok_bind, swapAt_listed hk hp, ok_bind]
    rfl

/-- The packed factors that the factorisation with pivoting leaves. -/
def pivotedFactors (pivoting : ColumnPivoting) (shape : Shape) (kind : NumericKind) (height : Nat)
    (f : Nat → Nat → α) : PackedPivotedQr α :=
  let s : PivotedReduction α ρ := .run pivoting shape.rows shape.cols f (min shape.rows shape.cols)
  { packed := (ofCells shape kind height s.cells).refreshKind
    taus := s.taus
    phis := s.phis
    order := listed shape.cols s.order }

/-- The factorisation with pivoting of a matrix that holds at least the rows of its first page, with
the quotients by norms taken by `divide`. -/
theorem pivotedSweepBy_ofCells {divide : ρ → ρ → Checked ρ} {pivoting : ColumnPivoting}
    (hdivide : ∀ k < min shape.rows shape.cols,
      (PivotedReduction.run pivoting shape.rows shape.cols f k).estimates.DivisibleBy divide pivoting)
    (hrows : shape.rows ≤ height) (hlimit : shape.rows < Size.limit)
    (hfits : 0 < shape.cols → Fits α shape.rows) (hroom : sizeBytes * shape.cols ≤ capacityLimit)
    (hheight : 0 < shape.rows → 0 < shape.cols → shape.height = .ok height) :
    pivotedSweepBy divide pivoting (ofCells shape kind height f) =
      .ok (pivotedFactors pivoting shape kind height f,
        (PivotedReduction.run pivoting shape.rows shape.cols f
          (min shape.rows shape.cols)).estimates.recomputed) := by
  have hallocate : allocate sizeBytes shape.cols = .ok () := if_pos hroom
  unfold pivotedSweepBy pivotedFactors
  rw [cols_ofCells, rows_ofCells, hallocate, ok_bind, allNorms_ofCells hrows, ok_bind]
  generalize hsteps : min shape.rows shape.cols = steps at hdivide
  refine bind_eq_ok (b :=
    let s : PivotedReduction α ρ := .run pivoting shape.rows shape.cols f steps
    (ofCells shape kind height s.cells, s.taus, s.phis, listed shape.cols s.order,
      s.estimates.table shape.cols)) ?_ rfl
  -- the state before step `k` is that of the run
  refine ascend_eq_ok (fun k =>
    let s : PivotedReduction α ρ := .run pivoting shape.rows shape.cols f k
    (ofCells shape kind height s.cells, s.taus, s.phis, listed shape.cols s.order,
      s.estimates.table shape.cols)) (Nat.zero_le _) ?_ rfl ?_
  · have horder : listed shape.cols (1 : Equiv.Perm Nat) = Array.range shape.cols := by
      simp [listed]
    change (_, _, _, listed shape.cols (1 : Equiv.Perm Nat), _) = _
    rw [horder]
    rfl
  intro k _ hk
  dsimp only
  rw [bringForward_ofCells _ (by omega) (hheight (by omega) (by omega)), ok_bind]
  dsimp only
  rw [reduceAt_ofCells (by omega) hrows (by omega) hlimit (hfits (by omega)), ok_bind]
  dsimp only
  rw [downdateNormsBy_ofCells (e := (PivotedReduction.exchange k _ _).estimates)
    ((hdivide k hk).arranged _) (by omega) hrows (by omega), ok_bind]
  rfl

/-- The factorisation with pivoting of a matrix that holds at least the rows of its first page. -/
theorem pivotedSweep_ofCells {pivoting : ColumnPivoting} (hrows : shape.rows ≤ height)
    (hlimit : shape.rows < Size.limit) (hfits : 0 < shape.cols → Fits α shape.rows)
    (hroom : sizeBytes * shape.cols ≤ capacityLimit)
    (hheight : 0 < shape.rows → 0 < shape.cols → shape.height = .ok height) :
    pivotedSweep pivoting (ofCells shape kind height f) =
      .ok (pivotedFactors pivoting shape kind height f,
        (PivotedReduction.run pivoting shape.rows shape.cols f
          (min shape.rows shape.cols)).estimates.recomputed) := by
  rw [← pivotedSweepBy_div]
  exact pivotedSweepBy_ofCells (fun _ _ _ _ _ => pivoting.downdateBy_div _ _ _) hrows hlimit hfits
    hroom hheight

/-- Without room for the order of the columns there is no factorisation, however norms are divided. -/
theorem pivotedSweepBy_eq_error (divide : ρ → ρ → Checked ρ) (pivoting : ColumnPivoting)
    {a : PagedMatrix α} (hroom : capacityLimit < sizeBytes * a.cols) :
    pivotedSweepBy divide pivoting a = .error .capacity := by
  have hallocate : allocate sizeBytes a.cols = .error .capacity := if_neg (Nat.not_le_of_lt hroom)
  unfold pivotedSweepBy
  rw [hallocate]
  rfl

theorem pivotedSweep_eq_error (pivoting : ColumnPivoting) {a : PagedMatrix α}
    (hroom : capacityLimit < sizeBytes * a.cols) :
    pivotedSweep pivoting a = .error .capacity := by
  rw [← pivotedSweepBy_div]
  exact pivotedSweepBy_eq_error _ pivoting hroom

theorem run_factorPivoted_eq_error (pivoting : ColumnPivoting) {a : PagedMatrix α}
    (hroom : capacityLimit < sizeBytes * a.cols) (ambient : Ambient) :
    (factorPivoted pivoting a).run ambient = .error .capacity := by
  unfold factorPivoted
  rw [pivotedSweep_eq_error pivoting hroom]
  rfl

/-- Every norm that is computed afresh is reported. -/
theorem run_factorPivoted {pivoting : ColumnPivoting} {a : PagedMatrix α} {p : PackedPivotedQr α}
    {recomputed : Array (Nat × Nat)} (h : pivotedSweep pivoting a = .ok (p, recomputed))
    (ambient : Ambient) :
    (factorPivoted pivoting a).run ambient = .ok (p, { ambient with
      log := ambient.log ++ recomputed.map fun entry =>
        .normRecomputed pivoting entry.1 entry.2 }) := by
  unfold factorPivoted
  rw [h]
  change ((recomputed.forM fun entry =>
    Ambient.report (.normRecomputed pivoting entry.1 entry.2)) >>= fun _ => pure p).run ambient = _
  rw [StateT.run_bind, run_forM_report]
  rfl

/-! ## Pivoting as a rearrangement -/

/-- The columns of the matrix `b` are those of the matrix `a` in the given order, in every stacked
row. -/
structure ColumnsOf (a : PagedMatrix α) (order : Array Nat) (b : PagedMatrix α) : Prop where
  /-- The matrices have the same shape. -/
  shape : b.shape = a.shape
  /-- They have the same kind. -/
  kind : b.kind = a.kind
  /-- They have equally many entries. -/
  size : b.data.size = a.data.size
  /-- An entry of the one is an entry of the other in the same stacked row. -/
  entry : ∀ r c source, c < a.cols → order[c]? = some source → b.get r c = a.get r source

omit [RealArith ρ] [Scalar α ρ] in
/-- There is one matrix whose columns are those of another one in the order of a permutation. -/
theorem columnsOf_ofCells_iff {σ : Equiv.Perm Nat} {b : PagedMatrix α}
    (hσ : ∀ c, shape.cols ≤ c → σ c = c) :
    ColumnsOf (ofCells shape kind height f) (listed shape.cols σ) b ↔
      b = ofCells shape kind height (arranged σ f) := by
  have hlt : ∀ c < shape.cols, σ c < shape.cols := fun c => apply_lt_of_fixed hσ
  constructor
  · intro h
    have hshape : b.shape = shape := h.shape
    have hsize : b.data.size = height * shape.cols := h.size.trans size_ofCells
    refine eq_ofCells hshape h.kind fun i => ?_
    split
    · rename_i hi
      -- the place is read as a cell of its row and column
      obtain ⟨hr, hc⟩ := div_lt_of_place hi
      have hentry := h.entry (i / shape.cols) (i % shape.cols) (σ (i % shape.cols)) hc
        (by rw [getElem?_listed, if_pos hc])
      have hplace : i / shape.cols * b.cols + i % shape.cols = i := by
        rw [PagedMatrix.cols, hshape, Nat.mul_comm]
        exact Nat.div_add_mod i shape.cols
      rw [get_ofCells hr (hlt _ hc), PagedMatrix.get, hplace] at hentry
      exact getElem?_of_readAt hentry
    · rename_i hi
      exact Array.getElem?_eq_none (by omega)
  · rintro rfl
    refine ⟨rfl, rfl, by simp, fun r c source hc hsource => ?_⟩
    rw [cols_ofCells] at hc
    rw [getElem?_listed, if_pos hc] at hsource
    cases hsource
    exact get_ofCells_congr hc (hlt c hc) fun _ => rfl

section Agreement

variable (kind : NumericKind) (f : Nat → Nat → α)

/-- The order in which the factorisation with pivoting leaves the columns. -/
def finalOrder (pivoting : ColumnPivoting) (shape : Shape) : Equiv.Perm Nat :=
  (PivotedReduction.run pivoting shape.rows shape.cols f (min shape.rows shape.cols)).order

theorem finalOrder_of_le (pivoting : ColumnPivoting) {c : Nat} (hc : shape.cols ≤ c) :
    finalOrder f pivoting shape c = c :=
  PivotedReduction.order_run_of_le f (Nat.min_le_right _ _) hc

/-- The compact form leaves the factors of the rearranged matrix. -/
theorem factor_arranged_compact (hrows : shape.rows ≤ height) (hlimit : shape.rows < Size.limit)
    (hfits : 0 < shape.cols → Fits α shape.rows) :
    factor (ofCells shape kind height (arranged (finalOrder f .compact shape) f)) =
      .ok (pivotedFactors .compact shape kind height f).toPackedQr := by
  have hrun := PivotedReduction.toReduction_run .compact shape.rows shape.cols f
    (min shape.rows shape.cols)
  rw [ColumnPivoting.packing, Reduction.runWith_compact] at hrun
  rw [factor_ofCells_of_cols hrows hlimit hfits]
  unfold finalOrder pivotedFactors
  rw [← hrun]

/-- The raw form leaves the factors of the rearranged matrix, with the reflections packed in another
way. -/
theorem factor_arranged_raw (hrows : shape.rows ≤ height) (hlimit : shape.rows < Size.limit)
    (hfits : 0 < shape.cols → Fits α shape.rows) :
    ∃ t, factor (ofCells shape kind height (arranged (finalOrder f .raw shape) f)) = .ok t ∧
      (pivotedFactors .raw shape kind height f).taus = t.taus ∧
      (pivotedFactors .raw shape kind height f).phis = t.phis ∧
      (pivotedFactors .raw shape kind height f).packed.shape = t.packed.shape ∧
      ∀ r c, c < shape.cols → r ≤ c ∨ shape.rows ≤ r →
        (pivotedFactors .raw shape kind height f).packed.get r c = t.packed.get r c := by
  have hrun := PivotedReduction.toReduction_run .raw shape.rows shape.cols f
    (min shape.rows shape.cols)
  have hsame := Reduction.sameFactors_runWith .raw .compact
    (arranged (finalOrder f .raw shape) f) (Nat.min_le_left shape.rows shape.cols)
  rw [Reduction.runWith_compact] at hsame
  unfold pivotedFactors
  rw [finalOrder] at hsame ⊢
  rw [ColumnPivoting.packing] at hrun
  rw [← hrun] at hsame
  refine ⟨_, factor_ofCells_of_cols hrows hlimit hfits, hsame.taus, hsame.phis, rfl, ?_⟩
  intro r c hc hrc
  dsimp only
  rw [get_refreshKind, get_refreshKind]
  exact get_ofCells_congr hc hc fun _ => hsame.cells r c (by omega)

end Agreement

/-- QR factorisation with pivoting is QR factorisation without pivoting of the matrix with its
columns in the order that is returned, which is a permutation of all columns: exactly so for the
compact form, and up to what is packed below the diagonal for the raw one. Both forms end with a
fault where memory has no room for the order of the columns. -/
theorem factorPivoted_eq_factor {a : PagedMatrix α} (ha : a.Stored) (hpage : a.HasPage)
    (ambient : Ambient) :
    (sizeBytes * a.cols ≤ capacityLimit →
      (∃ p after b, (factorPivoted .compact a).run ambient = .ok (p, after) ∧
        p.order.Perm (Array.range a.cols) ∧ (∀ b', ColumnsOf a p.order b' ↔ b' = b) ∧
        factor b = .ok p.toPackedQr) ∧
      ∃ p after b f, (factorPivoted .raw a).run ambient = .ok (p, after) ∧
        p.order.Perm (Array.range a.cols) ∧ (∀ b', ColumnsOf a p.order b' ↔ b' = b) ∧
        factor b = .ok f ∧ p.taus = f.taus ∧ p.phis = f.phis ∧ p.packed.shape = f.packed.shape ∧
        ∀ r c, c < a.cols → r ≤ c ∨ a.rows ≤ r → p.packed.get r c = f.packed.get r c) ∧
    (capacityLimit < sizeBytes * a.cols →
      ∀ pivoting, (factorPivoted pivoting a).run ambient = .error .capacity) := by
  refine ⟨fun hroom => ?_, fun hroom pivoting =>
    run_factorPivoted_eq_error pivoting hroom ambient⟩
  obtain ⟨shape, kind, height, f, rfl, hrows, hlimit, hheight⟩ := ha.exists_ofCells hpage
  have hrows' : shape.rows < Size.limit := by omega
  have hfits := ha.fits_rows hrows
  have hsweep : ∀ pivoting : ColumnPivoting, pivotedSweep pivoting (ofCells shape kind height f) =
      .ok (pivotedFactors pivoting shape kind height f, _) := fun pivoting =>
    pivotedSweep_ofCells hrows hrows' hfits hroom hheight
  have hcolumns : ∀ (pivoting : ColumnPivoting) b',
      ColumnsOf (ofCells shape kind height f) (pivotedFactors pivoting shape kind height f).order b' ↔
        b' = ofCells shape kind height (arranged (finalOrder f pivoting shape) f) :=
    fun pivoting b' => columnsOf_ofCells_iff fun c => finalOrder_of_le f pivoting
  have hperm : ∀ pivoting : ColumnPivoting,
      (pivotedFactors pivoting shape kind height f).order.Perm (Array.range shape.cols) :=
    fun pivoting => listed_perm fun c => finalOrder_of_le f pivoting
  obtain ⟨t, ht, htaus, hphis, hshape, hcells⟩ := factor_arranged_raw kind f hrows hrows' hfits
  exact ⟨⟨_, _, _, run_factorPivoted (hsweep .compact) ambient, hperm .compact, hcolumns .compact,
    factor_arranged_compact kind f hrows hrows' hfits⟩,
    ⟨_, _, _, t, run_factorPivoted (hsweep .raw) ambient, hperm .raw, hcolumns .raw,
      ht, htaus, hphis, hshape, hcells⟩⟩

/-- Two pages of two rows, with entries that are infinite or not a number on the first. -/
def unorderedPages : PagedMatrix Float :=
  { shape := { rows := 2, cols := 3, trailing := [2] }
    data := #[1.0, 0.0 / 0.0, 3.0, 2.0, 4.0, 1.0 / 0.0, 5.0, 6.0, 7.0, 8.0, 9.0, 10.0] }

/-- Pivoting is a rearrangement also where norms are not numbers. Too many columns are not even put in
an order. -/
theorem factorPivoted_eq_factor_unorderedPages :
    (unorderedPages.Stored ∧ unorderedPages.HasPage ∧ sizeBytes * 3 ≤ capacityLimit ∧
      (∃ p after b, (factorPivoted .compact unorderedPages).run {} = .ok (p, after) ∧
        p.order.Perm (Array.range 3) ∧ (∀ b', ColumnsOf unorderedPages p.order b' ↔ b' = b) ∧
        factor b = .ok p.toPackedQr) ∧
      ∃ p after b f, (factorPivoted .raw unorderedPages).run {} = .ok (p, after) ∧
        p.order.Perm (Array.range 3) ∧ (∀ b', ColumnsOf unorderedPages p.order b' ↔ b' = b) ∧
        factor b = .ok f ∧ p.taus = f.taus ∧ p.phis = f.phis ∧ p.packed.shape = f.packed.shape ∧
        ∀ r c, c < 3 → r ≤ c ∨ 2 ≤ r → p.packed.get r c = f.packed.get r c) ∧
    (withoutRows : PagedMatrix Float).Stored ∧ (withoutRows : PagedMatrix Float).HasPage ∧
      capacityLimit < sizeBytes * 2 ^ 61 ∧
      ∀ pivoting, (factorPivoted pivoting (withoutRows : PagedMatrix Float)).run {} =
        .error .capacity := by
  have hstored : unorderedPages.Stored := ⟨rfl, by decide, by decide, by decide⟩
  have hpage : unorderedPages.HasPage := by decide
  have hroom : sizeBytes * 3 ≤ capacityLimit := by decide
  have hstored' : (withoutRows : PagedMatrix Float).Stored := stored_withoutRows (by decide)
  have hpage' : (withoutRows : PagedMatrix Float).HasPage := by
    intro d hd
    cases hd
  have hroom' : capacityLimit < sizeBytes * 2 ^ 61 := by decide
  exact ⟨⟨hstored, hpage, hroom, (factorPivoted_eq_factor hstored hpage {}).1 hroom⟩,
    hstored', hpage', hroom', (factorPivoted_eq_factor hstored' hpage' {}).2 hroom'⟩

end Qr

end DenseLinear
