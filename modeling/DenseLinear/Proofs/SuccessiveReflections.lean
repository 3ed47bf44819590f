import DenseLinear.Proofs.Arrangements
import DenseLinear.Proofs.ReflectionSteps

/-!
# Factorisation as reflections one after the other

The factorisation packs every reflection below the diagonal of its own column, where
`reflectStep` writes zeros, or leaves the entries alone if the reflection is passed over. No later
step reads these cells. So the two runs agree on what is still read (`SameSteps.rest`), whatever the
entries are, and all reflections are the same.

The diagonal is read by no later step either, and there the two differ in what they do: the
factorisation always writes `alpha`, and a step that passes over its reflection leaves the entry that
the reflection was built for (`PacksSteps.diagonal`). The entries are the same if a reflection is
passed over only where `alpha` is that entry (`SkipsOnlyIdentities`). This is no algebraic law, but it
fails where the factor of a proper reflection can vanish, as under quotients that are rounded to
integers.
-/

namespace DenseLinear

open PagedMatrix

namespace Reflection

/-- A reflection of a column is passed over only if it leaves the diagonal entry as it is. -/
def SkipsOnlyIdentities (α : Type) {ρ : Type} [Scalar α ρ] : Prop :=
  ∀ (f : Nat → Nat → α) (m k : Nat), k < m → (atColumn f m k).isTrivial = true →
    (atColumn f m k).alpha = f k k

/-- In exact arithmetic a reflection with the factor zero is an identity. -/
theorem skipsOnlyIdentities_exact {K R : Type} [LinearOrder R] [ExactArith R] [HermitianScalar K R]
    [EuclideanArith R] : SkipsOnlyIdentities K := by
  intro f m k hk htrivial
  have htau : (atColumn f m k).tau = 0 := (RingScalar.beq_iff _ _).1 htrivial
  have hleading := (atColumn_annihilates f hk).leading
  rw [htau, zero_mul, mul_zero, sub_zero] at hleading
  exact hleading.symm

end Reflection

namespace Qr

variable {α ρ : Type} [Scalar α ρ]

/-- The first columns reflected one after the other, each by the step for its own, together with the
reflections. -/
def reflectSteps (a : PagedMatrix α) (count : Nat) :
    Checked (PagedMatrix α × Array (Reflection α)) :=
  ascend 0 count (a, #[]) fun k s => do
    let (a, h) ← reflectStep .left s.1 k
    return (a, s.2.push h)

/-- The cells of a matrix whose first columns are reflected, and the reflections. -/
structure Reflected (α : Type) where
  /-- The cells. -/
  cells : Nat → Nat → α
  /-- The reflections. -/
  reflections : Array (Reflection α)

namespace Reflected

/-- The reflection of column `k`. -/
def step (m k : Nat) (s : Reflected α) : Reflected α :=
  ⟨columnStep m k s.cells, s.reflections.push (Reflection.atColumn s.cells m k)⟩

/-- The reflection of the first `count` columns. -/
def run (m : Nat) (f : Nat → Nat → α) : Nat → Reflected α
  | 0 => ⟨f, #[]⟩
  | count + 1 => (run m f count).step m count

end Reflected

/-- The steps one after the other. -/
theorem reflectSteps_ofCells {shape : Shape} {kind : NumericKind} {height : Nat}
    {f : Nat → Nat → α} {count : Nat} (hcount : count ≤ min shape.rows shape.cols)
    (hrows : shape.rows ≤ height) (hlimit : shape.rows < Size.limit)
    (hfits : 0 < shape.cols → Fits α shape.rows) :
    reflectSteps (ofCells shape kind height f) count = .ok
      (ofCells shape kind height (Reflected.run shape.rows f count).cells,
        (Reflected.run shape.rows f count).reflections) := by
  refine ascend_eq_ok (fun k => (ofCells shape kind height (Reflected.run shape.rows f k).cells,
    (Reflected.run shape.rows f k).reflections)) (Nat.zero_le _) rfl rfl ?_
  intro k _ hk
  dsimp only
  rw [reflectStep_left_ofCells (by omega) hrows (by omega) hlimit (hfits (by omega)), ok_bind]
  rfl

/-! ## Agreement of the two runs -/

/-- Column `k` is finished in both runs, after the reflection of the column of some cells `g`. -/
structure FinishedColumn (m k : Nat) (s : Reduction α) (t : Reflected α) (g : Nat → Nat → α) :
    Prop where
  /-- The reflection is that of the column of `g`. -/
  reflection : t.reflections[k]? = some (Reflection.atColumn g m k)
  /-- The factorisation leaves `alpha` on the diagonal. -/
  alpha : s.cells k k = (Reflection.atColumn g m k).alpha
  /-- The steps leave it there unless the reflection is passed over. -/
  diagonal : t.cells k k =
    if (Reflection.atColumn g m k).isTrivial then g k k else (Reflection.atColumn g m k).alpha
  /-- Below the diagonal the factorisation leaves the direction, scaled by the factor. -/
  packed : ∀ r, k < r → r < m → s.cells r k =
    (Reflection.atColumn g m k).tau * (Reflection.atColumn g m k).v.getD (r - k) 0

/-- The factorisation and the steps after `count` columns, of which each was reflected where the steps
had left the cells `before`. -/
structure SameSteps (m count : Nat) (before : Nat → Nat → Nat → α) (s : Reduction α)
    (t : Reflected α) : Prop where
  /-- As many reflections have been built. -/
  size : t.reflections.size = count
  /-- The factors of the reflections are the same. -/
  taus : s.taus = t.reflections.map Reflection.tau
  /-- The phases are the same. -/
  phis : s.phis = t.reflections.map Reflection.phi
  /-- The cells above the diagonal and in the columns to come are the same. -/
  rest : ∀ r c, r < c ∨ count ≤ c → s.cells r c = t.cells r c
  /-- What is known of the other cells. -/
  finished : ∀ k < count, FinishedColumn m k s t (before k)

section Steps

variable {m k r c : Nat} {f : Nat → Nat → α}

theorem columnStep_of_lt_row (h : r < k) : columnStep m k f r c = f r c :=
  if_pos (Or.inr (Or.inl h))

theorem columnStep_of_lt_col (h : c < k) : columnStep m k f r c = f r c :=
  if_pos (Or.inr (Or.inr (Or.inr h)))

theorem columnStep_diagonal (h : k < m) : columnStep m k f k k =
    if (Reflection.atColumn f m k).isTrivial then f k k else (Reflection.atColumn f m k).alpha := by
  have hinside : ¬(k < k ∨ m ≤ k ∨ k < k) := by omega
  unfold columnStep
  cases htrivial : (Reflection.atColumn f m k).isTrivial with
  | true => rw [if_pos (Or.inl rfl), if_pos rfl]
  | false =>
    simp only [Bool.false_eq_true, false_or, if_false]
    rw [if_neg hinside, if_neg (Nat.lt_irrefl k), if_pos trivial]

/-- To the right of its column a step does what a step of the factorisation does: it reflects. -/
theorem columnStep_right (h : k < c) :
    columnStep m k f r c = reduced .compact m k f r c := by
  unfold columnStep reduced
  cases htrivial : (Reflection.atColumn f m k).isTrivial with
  | true =>
    rw [if_pos (Or.inl rfl), reflected_of_isTrivial htrivial, if_pos h, ite_self]
  | false =>
    simp only [Bool.false_eq_true, false_or, if_pos h]

variable {s : Reduction α} {t : Reflected α} {g : Nat → Nat → α}

/-- Columns that are finished stay as they are. -/
theorem FinishedColumn.step {j : Nat} (h : FinishedColumn m j s t g) (hj : j < k)
    (hsize : t.reflections.size = k) : FinishedColumn m j (s.step m k) (t.step m k) g := by
  refine ⟨?_, ?_, ?_, fun r hr hr' => ?_⟩
  · rw [Reflected.step, Array.getElem?_push_lt (by omega), ← h.reflection,
      Array.getElem?_eq_getElem]
  · exact (reduced_of_lt_col hj).trans h.alpha
  · exact (columnStep_of_lt_col hj).trans h.diagonal
  · exact (reduced_of_lt_col hj).trans (h.packed r hr hr')

/-- The two runs leave the same diagonal entry, if only identities are passed over. -/
theorem FinishedColumn.diagonal_eq (h : FinishedColumn m k s t g)
    (hskips : Reflection.SkipsOnlyIdentities α) (hk : k < m) : t.cells k k = s.cells k k := by
  rw [h.diagonal, h.alpha]
  split
  · -- a reflection that is passed over leaves the entry it was built for, which is `alpha`
    rename_i htrivial
    exact (hskips g m k hk htrivial).symm
  · rfl

theorem SameSteps.step {before : Nat → Nat → Nat → α} (h : SameSteps m k before s t) (hk : k < m)
    (hbefore : before k = t.cells) : SameSteps m (k + 1) before (s.step m k) (t.step m k) := by
  have hcolumn : Reflection.atColumn s.cells m k = Reflection.atColumn t.cells m k :=
    Reflection.atColumn_congr hk fun r _ _ => h.rest r k (Or.inr (Nat.le_refl k))
  refine ⟨?_, ?_, ?_, fun r c hrc => ?_, fun j hj => ?_⟩
  · rw [Reflected.step, Array.size_push, h.size]
  · rw [Reflected.step, Array.map_push, ← h.taus, ← hcolumn]
    rfl
  · rw [Reflected.step, Array.map_push, ← h.phis, ← hcolumn]
    rfl
  · change reduced .compact m k s.cells r c = columnStep m k t.cells r c
    rcases Nat.lt_trichotomy c k with hlt | rfl | hgt
    · rw [reduced_of_lt_col hlt, columnStep_of_lt_col hlt, h.rest r c (by omega)]
    · rw [reduced_of_lt_row (by omega), columnStep_of_lt_row (by omega), h.rest r c (by omega)]
    · -- a column to the right has not been packed into, so the same is taken off it
      rw [columnStep_right hgt]
      unfold reduced
      rw [hcolumn, if_pos hgt, if_pos hgt, h.rest r c (by omega),
        reflected_congr (fun r' _ _ => h.rest r' c (by omega)) (h.rest r c (by omega))]
  · rcases Nat.lt_or_eq_of_le (Nat.le_of_lt_succ hj) with hlt | rfl
    · exact (h.finished j hlt).step hlt h.size
    rw [hbefore]
    refine ⟨?_, ?_, columnStep_diagonal hk, fun r hr hr' => ?_⟩
    · rw [Reflected.step, ← h.size, Array.getElem?_push_size]
    · exact (reduced_diagonal hk).trans (congrArg Reflection.alpha hcolumn)
    · rw [← hcolumn]
      exact reduced_column hr hr'

/-- The factorisation agrees with the steps that are taken one after the other. -/
theorem sameSteps_run (f : Nat → Nat → α) {count : Nat} (hcount : count ≤ m) :
    SameSteps m count (fun k => (Reflected.run m f k).cells) (Reduction.run m f count)
      (Reflected.run m f count) := by
  induction count with
  | zero =>
    exact ⟨rfl, Array.map_empty.symm, Array.map_empty.symm, fun _ _ _ => rfl,
      fun k hk => absurd hk (Nat.not_lt_zero k)⟩
  | succ count ih => exact (ih (by omega)).step (by omega) rfl

end Steps

/-! ## Agreement of the factorisation with the steps -/

variable {a : PagedMatrix α}

/-- The factorisation `f` of `a` has packed the reflections `hs` and what they leave, `b`. -/
structure PacksSteps (a : PagedMatrix α) (f : PackedQr α) (b : PagedMatrix α)
    (hs : Array (Reflection α)) : Prop where
  /-- The factors are those of the reflections. -/
  taus : f.taus = hs.map Reflection.tau
  /-- The phases are those of the reflections. -/
  phis : f.phis = hs.map Reflection.phi
  /-- The entries above the diagonal are the same. -/
  upper : ∀ r c, r < c → r < a.rows → c < a.cols →
    ∃ x, f.packed.get r c = .ok x ∧ b.get r c = .ok x
  /-- On the diagonal the factorisation has `alpha`. So have the steps, but that a step which passes
  over its reflection leaves the entry `x` that it has found there. -/
  diagonal : ∀ k < min a.rows a.cols, ∃ before h x, reflectSteps a k = .ok before ∧
    before.1.get k k = .ok x ∧ hs[k]? = some h ∧ f.packed.get k k = .ok h.alpha ∧
    b.get k k = .ok (if h.isTrivial then x else h.alpha)
  /-- The entries on the diagonal are the same, if only identities are passed over. -/
  same_diagonal : Reflection.SkipsOnlyIdentities α → ∀ k < min a.rows a.cols,
    ∃ x, f.packed.get k k = .ok x ∧ b.get k k = .ok x
  /-- Below the diagonal of its column, each direction is packed, scaled by its factor. -/
  packed : ∀ k < min a.rows a.cols, ∃ h, hs[k]? = some h ∧ h.v.size = a.rows - k ∧
    ∀ i, 0 < i → k + i < a.rows → ∃ x, h.v[i]? = some x ∧
      f.packed.get (k + i) k = .ok (h.tau * x)

/-- The factorisation of a matrix with a single page packs the steps that are taken one after the
other. -/
theorem factor_packs_steps [RealArith ρ] (ha : a.Stored) (hpage : a.SinglePage) :
    ∃ f b hs, factor a = .ok f ∧ reflectSteps a (min a.rows a.cols) = .ok (b, hs) ∧
      PacksSteps a f b hs := by
  have hroom := ha.fits_rows_of_singlePage hpage
  have hcells := ha.eq_ofCells_of_singlePage hpage
  have hfactor : factor (ofCells a.shape a.kind a.rows a.cell) = .ok _ :=
    factor_ofCells_of_cols (Nat.le_refl a.rows) ha.rows_lt hroom
  have hsteps : ∀ k ≤ min a.rows a.cols,
      reflectSteps (ofCells a.shape a.kind a.rows a.cell) k = .ok _ := fun k hk =>
    reflectSteps_ofCells hk (Nat.le_refl a.rows) ha.rows_lt hroom
  rw [← hcells] at hfactor hsteps
  have hsame := sameSteps_run a.cell (Nat.min_le_left a.rows a.cols)
  refine ⟨_, _, _, hfactor, hsteps _ (Nat.le_refl _), hsame.taus, hsame.phis, ?_, ?_, ?_, ?_⟩
  · intro r c hrc hr hc
    refine ⟨_, get_ofCells hr hc, ?_⟩
    rw [hsame.rest r c (Or.inl hrc)]
    exact get_ofCells hr hc
  · intro k hk
    obtain ⟨hrow, hcol⟩ := lt_min_iff.1 hk
    have hfinished := hsame.finished k hk
    exact ⟨_, _, _, hsteps k hk.le, get_ofCells hrow hcol, hfinished.reflection,
      (get_ofCells hrow hcol).trans (congrArg Except.ok hfinished.alpha),
      (get_ofCells hrow hcol).trans (congrArg Except.ok hfinished.diagonal)⟩
  · intro hskips k hk
    obtain ⟨hrow, hcol⟩ := lt_min_iff.1 hk
    have hentry := (hsame.finished k hk).diagonal_eq hskips hrow
    exact ⟨_, get_ofCells hrow hcol, (get_ofCells hrow hcol).trans (congrArg Except.ok hentry)⟩
  · intro k hk
    obtain ⟨hrow, hcol⟩ := lt_min_iff.1 hk
    have hfinished := hsame.finished k hk
    have hsize := Reflection.size_atColumn (Reflected.run a.rows a.cell k).cells hrow
    refine ⟨_, hfinished.reflection, hsize, fun i hi hi' => ?_⟩
    have hpacked := hfinished.packed (k + i) (by omega) hi'
    rw [Nat.add_sub_cancel_left] at hpacked
    refine ⟨_, getElem?_getD (by omega), ?_⟩
    rw [← hpacked]
    exact get_ofCells hi' hcol

end Qr

end DenseLinear
