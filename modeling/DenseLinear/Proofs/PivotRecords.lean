import Mathlib.Data.Nat.Count
import DenseLinear.Proofs.UpdateAgreement

/-!
# Records of the pivots

Every factorisation records its pivots well, for entries without any laws: there is a pivot for each
column of the shorter side, no pivot is above its row or below the last one, and the interchanges that
were counted are those of two different rows (`WellRecorded`).

`Recorded` says this of the columns before column `k`. The elimination of a column keeps it, whatever
the comparisons of absolute values answer, and nothing else in a block touches the pivots. So it holds
after all blocks, also where the products of the trailing blocks are formed in ways that leave
different entries (`keptByBlocks_recorded`).
-/

namespace DenseLinear

namespace Lu

open PagedMatrix

/-- The pivots of the columns before column `k` of a matrix with `m` rows, and the number of their
interchanges, are well recorded. -/
structure Recorded (m k : Nat) (pivots : Array Nat) (swaps : Nat) : Prop where
  /-- A pivot comes from the diagonal or from below it. -/
  pivot : ∀ i < k, ∃ p, pivots[i]? = some p ∧ i ≤ p ∧ p < m
  /-- The interchanges are those of two different rows. -/
  swaps : swaps = Nat.count (fun i => pivots[i]? ≠ some i) k

/-- A record of a factorisation of `m × n` entries is well formed. -/
structure WellRecorded (m n : Nat) (record : Record) : Prop where
  /-- There is a pivot for each column of the shorter side. -/
  size : record.pivots.size = min m n
  /-- A pivot comes from the diagonal or from below it. -/
  pivot : ∀ (k : Nat) (hk : k < record.pivots.size), k ≤ record.pivots[k] ∧ record.pivots[k] < m
  /-- The interchanges are those of two different rows. -/
  swaps : record.swaps = Nat.count (fun k => record.pivots[k]? ≠ some k) record.pivots.size

namespace Recorded

variable {m k : Nat} {pivots pivots' : Array Nat} {swaps : Nat}

theorem start (pivots : Array Nat) : Recorded m 0 pivots 0 :=
  ⟨fun i hi => absurd hi (Nat.not_lt_zero i), (Nat.count_zero _).symm⟩

/-- The next pivot is added to the record, and counted if it is in another row. -/
theorem add (h : Recorded m k pivots swaps) {p : Nat} (hsame : ∀ i < k, pivots'[i]? = pivots[i]?)
    (hnext : pivots'[k]? = some p) (hle : k ≤ p) (hlt : p < m) :
    Recorded m (k + 1) pivots' (swaps + if p = k then 0 else 1) := by
  constructor
  · intro i hi
    rcases Nat.lt_succ_iff_lt_or_eq.1 hi with hi | rfl
    · rw [hsame i hi]
      exact h.pivot i hi
    · exact ⟨p, hnext, hle, hlt⟩
  · have hbefore : Nat.count (fun i => pivots'[i]? ≠ some i) k =
        Nat.count (fun i => pivots[i]? ≠ some i) k :=
      le_antisymm (Nat.count_mono_left fun i hi => by simp [hsame i hi])
        (Nat.count_mono_left fun i hi => by simp [hsame i hi])
    rw [Nat.count_succ, hbefore, ← h.swaps, hnext]
    simp

/-- A complete record is well formed. -/
theorem wellRecorded {record : Record} {n : Nat}
    (h : Recorded m (min m n) record.pivots record.swaps) (hsize : record.pivots.size = min m n) :
    WellRecorded m n record := by
  refine ⟨hsize, fun k hk => ?_, hsize ▸ h.swaps⟩
  obtain ⟨p, hp, hle, hlt⟩ := h.pivot k (hsize ▸ hk)
  rw [Array.getElem?_eq_getElem hk, Option.some.injEq] at hp
  exact hp ▸ ⟨hle, hlt⟩

end Recorded

section Stages

variable {α ρ : Type} [RealArith ρ] [Scalar α ρ] {m n k : Nat}

/-- The record that a stage has before column `k`. -/
def Stage.Recorded (m k : Nat) (s : Stage α) : Prop :=
  Lu.Recorded m k s.pivots s.status.swaps

/-- The elimination of a column adds its pivot to the record. -/
theorem Stage.Recorded.step {s : Stage α} (h : s.Recorded m k) (stop : Nat) (hk : k < m)
    (hsize : k < s.pivots.size) : (s.step m stop k).Recorded m (k + 1) := by
  refine Lu.Recorded.add h (p := pivotOf m s.cells k) ?_ ?_ (le_pivotOf m s.cells k)
    (pivotOf_lt s.cells hk)
  · intro i hi
    exact Array.getElem?_setIfInBounds_ne (by omega)
  · exact Array.getElem?_setIfInBounds_self_of_lt hsize

theorem Stage.Recorded.run {s : Stage α} (h : s.Recorded m k) (stop : Nat) {count : Nat}
    (hm : k + count ≤ m) (hsize : k + count ≤ s.pivots.size) :
    (s.run m stop k count).Recorded m (k + count) := by
  induction count with
  | zero => exact h
  | succ count ih =>
    have hpivots := Stage.size_pivots_run m stop k s count
    exact (ih (by omega) (by omega)).step stop (by omega) (by omega)

/-- The pivots that the elimination of a whole matrix as a single panel records. -/
theorem recorded_finalStage (a : PagedMatrix α) :
    (finalStage a).Recorded a.rows (min a.rows a.cols) := by
  have hstart : (Stage.initial a.rows a.cols a.cell).Recorded a.rows 0 :=
    Lu.Recorded.start _
  have h := hstart.run a.cols (show 0 + min a.rows a.cols ≤ a.rows by omega)
    (by simp [Stage.initial])
  rwa [Nat.zero_add] at h

end Stages

/-! ## All blocks -/

section Blocks

variable {α ρ : Type} [RealArith ρ] [Scalar α ρ] {T : α → α → α} {m n edge : Nat}

/-- A block only adds the pivots of its panel to the record, however its trailing block is
updated. -/
theorem recorded_blockRun (s : Stage α) (hs : s.Recorded m 0) (hsize : s.pivots.size = min m n)
    (count : Nat) :
    (blockRun T m n edge s count).Recorded m (blockStart (min m n) edge count) := by
  induction count with
  | zero =>
    have hzero : blockStart (min m n) edge 0 = 0 := by simp [blockStart]
    rw [hzero]
    exact hs
  | succ count ih =>
    have hpivots := size_pivots_blockRun T m n edge s count
    rw [blockRun, blockStart_succ, blockStep_eq]
    have hle : blockStart (min m n) edge count ≤ min m n := Nat.min_le_right _ _
    exact ih.run _ (by omega) (by omega)

/-- The stages of a factorisation with products record their pivots. -/
theorem keptByBlocks_recorded (shape : Shape) (height edge : Nat) (f : Nat → Nat → α) :
    KeptByBlocks shape height edge f fun k s =>
      s.pivots.size = min shape.rows shape.cols ∧ s.Recorded shape.rows k where
  start := ⟨_, ⟨fun _ _ _ _ => rfl, rfl, rfl⟩, Array.size_replicate, Recorded.start _⟩
  block := by
    rintro k s blocking hk hdvd ⟨hsize, hs⟩
    have hnext : min (k + edge) (min shape.rows shape.cols) =
        k + min edge (min shape.rows shape.cols - k) := by omega
    refine ⟨_, ⟨fun _ _ _ _ => rfl, rfl, rfl⟩, (Stage.size_pivots_run _ _ _ _ _).trans hsize, ?_⟩
    rw [hnext]
    exact hs.run _ (by omega) (by omega)
  size_pivots _ _ h := h.1
  swaps_le k s _ h := h.2.swaps.trans_le (Nat.count_le _)

end Blocks

/-! ## Factorisations -/

section Factorisations

variable {α ρ : Type} [RealArith ρ] [Scalar α ρ] {shape : Shape} (kind : NumericKind)
  {height : Nat} {f : Nat → Nat → α} {choice : BlockingChoice}

/-- What a factorisation leaves and reports is a matrix of the same shape and a record of its pivots
that is well formed. -/
def LeavesRecord (shape : Shape) (height : Nat) (found : PagedMatrix α × Record) : Prop :=
  (∃ kind g, found.1 = ofCells shape kind height g) ∧ WellRecorded shape.rows shape.cols found.2

/-- The factorisation with products. -/
theorem ends_factorByProduct_leavesRecord (hchoice : choice.Valid) (hrows : shape.rows ≤ height)
    (hheight : height < Size.limit) (hcols : shape.cols < Size.limit)
    (hfits : Fits α (height * shape.cols)) :
    Ends (factorByProduct choice (ofCells shape kind height f)) (LeavesRecord shape height) := by
  refine ends_iff_runs.2 fun ambient hambient => ?_
  obtain ⟨blocking, settled, ⟨⟨hpos, -⟩, -⟩, hsettled, hsettle⟩ :=
    ends_iff_runs.1 (ends_settle hchoice) ambient hambient
  obtain ⟨s, after, ⟨hsize, hs⟩, hsound, hrun⟩ := runs_factorByProduct kind hchoice hsettle hsettled
    hpos (keptByBlocks_recorded shape height blocking.edge f) hrows hheight hcols hfits
  have hrecord : WellRecorded shape.rows shape.cols (s.factorsByDiagonal shape kind height).2 :=
    Recorded.wellRecorded hs hsize
  exact ⟨_, after, ⟨⟨_, _, rfl⟩, hrecord⟩, hsound, hrun⟩

/-- The factorisation with tiles of a given edge length. -/
theorem ends_factorInTiles_leavesRecord {edge : Nat} (hpos : 1 ≤ edge) (hrows : shape.rows ≤ height)
    (hheight : height < Size.limit) (hfits : Fits α (height * shape.cols)) :
    Ends (factorInTiles edge (ofCells shape kind height f)) (LeavesRecord shape height) := by
  intro ambient hambient
  obtain ⟨_, after, rfl, hafter, hrun⟩ := ends_factorInTiles kind
    (blocks_blockRun shape height f hpos) hrows hheight hfits hpos ambient hambient
  have hstart : (Stage.initial shape.rows shape.cols f).Recorded shape.rows 0 := Recorded.start _
  have hsize : (Stage.initial shape.rows shape.cols f).pivots.size = min shape.rows shape.cols :=
    Array.size_replicate
  have hs : (blockedStage (· - ·) shape edge f).Recorded shape.rows _ :=
    recorded_blockRun _ hstart hsize (blocksBefore edge (min shape.rows shape.cols))
  rw [blockStart_blocksBefore hpos] at hs
  have hrecord : WellRecorded shape.rows shape.cols
      ((blockedStage (· - ·) shape edge f).factors shape kind height).2 :=
    Recorded.wellRecorded hs ((size_pivots_blockRun _ _ _ _ _ _).trans hsize)
  exact ⟨_, after, ⟨⟨_, _, rfl⟩, hrecord⟩, hafter, hrun⟩

/-- The factorisation with tiles of a chosen edge length. -/
theorem ends_factorByTilesWith_leavesRecord (hchoice : choice.Valid) (hrows : shape.rows ≤ height)
    (hheight : height < Size.limit) (hfits : Fits α (height * shape.cols)) :
    Ends (factorByTilesWith choice (ofCells shape kind height f)) (LeavesRecord shape height) := by
  unfold factorByTilesWith
  refine ends_bind (ends_adapt (ends_settle hchoice)) ?_
  rintro blocking ⟨⟨hpos, -⟩, -⟩
  exact ends_unrefused (ends_factorInTiles_leavesRecord kind hpos hrows hheight hfits)

/-- The factorisation with tiles of the default edge length. -/
theorem ends_factorByTiles_leavesRecord (hrows : shape.rows ≤ height)
    (hheight : height < Size.limit) (hfits : Fits α (height * shape.cols)) :
    Ends (factorByTiles (ofCells shape kind height f)) (LeavesRecord shape height) :=
  ends_bind ends_edge fun _ hedge =>
    ends_factorInTiles_leavesRecord kind hedge.1 hrows hheight hfits

end Factorisations

end Lu

end DenseLinear
