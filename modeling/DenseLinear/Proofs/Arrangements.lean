import Mathlib.Algebra.Group.End
import Mathlib.Data.List.Nodup
import Mathlib.Data.List.Perm.Subperm
import DenseLinear.Proofs.Reduction
import DenseLinear.Proofs.Transposes

/-!
# Columns in another order

A rearrangement of columns is a permutation of all column numbers (`arranged`), so an exchange of two
columns is a transposition (`swapCols_ofCells`), and exchanges one after the other are a product.
Buffers that are kept beside the columns are described by what they hold at each position (`listed`).

A reduction step does not care for the order of the columns after its own: it commutes with every
rearrangement that leaves the columns up to its own in place (`reduced_arranged`), and so do the
steps up to some column (`Reduction.runWith_arranged`). Entries need no laws for that.
-/

namespace DenseLinear

/-! ## Buffers by their entries -/

section Listed

variable {β : Type} {n i j : Nat} {g : Nat → β}

/-- The buffer of the values of `g` at the first `n` positions. -/
def listed (n : Nat) (g : Nat → β) : Array β := (Array.range n).map g

@[simp]
theorem size_listed : (listed n g).size = n := by
  simp [listed]

theorem getElem?_listed : (listed n g)[i]? = if i < n then some (g i) else none := by
  simp only [listed, Array.getElem?_map, Array.getElem?_range]
  split <;> rfl

theorem getD_listed (hi : i < n) (x : β) : (listed n g).getD i x = g i := by
  rw [Array.getD_eq_getD_getElem?, getElem?_listed, if_pos hi, Option.getD_some]

/-- A buffer is given by its entries. -/
theorem eq_listed {v : Array β} (h : ∀ i, v[i]? = if i < n then some (g i) else none) :
    v = listed n g := by
  apply Array.ext_getElem?
  intro i
  rw [h, getElem?_listed]

theorem readAt_listed (hi : i < n) : readAt (listed n g) i = .ok (g i) :=
  readAt_of_getElem? (by rw [getElem?_listed, if_pos hi])

theorem writeAt_listed (hi : i < n) (x : β) :
    writeAt (listed n g) i x = .ok (listed n (Function.update g i x)) := by
  rw [writeAt_eq_ok (by simpa using hi)]
  refine congrArg Except.ok (eq_listed fun l => ?_)
  rw [Array.getElem?_set, getElem?_listed, Function.update_apply]
  rcases eq_or_ne l i with rfl | hne
  · rw [if_pos rfl, if_pos hi, if_pos rfl]
  · rw [if_neg hne.symm, if_neg hne]

theorem swapAt_listed (hi : i < n) (hj : j < n) :
    swapAt (listed n g) i j = .ok (listed n fun l => g (Equiv.swap i j l)) := by
  rw [swapAt_eq_ok (by simpa using hi) (by simpa using hj)]
  refine congrArg Except.ok (eq_listed fun l => ?_)
  have hread : ∀ l (hl : l < (listed n g).size), (listed n g)[l] = g l := by
    intro l hl
    simp [listed]
  rw [Array.getElem?_swap, hread, hread, getElem?_listed]
  rcases eq_or_ne l j with rfl | hlj
  · rw [if_pos rfl, if_pos hj, Equiv.swap_apply_right]
  rcases eq_or_ne l i with rfl | hli
  · rw [if_neg hlj.symm, if_pos rfl, if_pos hi, Equiv.swap_apply_left]
  · rw [if_neg hlj.symm, if_neg hli.symm, Equiv.swap_apply_of_ne_of_ne hli hlj]

/-- A permutation that leaves all later positions in place keeps the first `n` among themselves. -/
theorem apply_lt_of_fixed {σ : Equiv.Perm Nat} {c : Nat} (hσ : ∀ c, n ≤ c → σ c = c) (hc : c < n) :
    σ c < n := by
  -- a position that went beyond would be the image of another one there
  by_contra hge
  have hfixed : σ (σ c) = σ c := hσ _ (Nat.le_of_not_lt hge)
  have h : σ c = c := σ.injective hfixed
  omega

/-- A permutation that leaves the first positions in place keeps the others apart from them. -/
theorem le_apply_of_fixed {σ : Equiv.Perm Nat} {c : Nat} (hσ : ∀ c < n, σ c = c) (hc : n ≤ c) :
    n ≤ σ c := by
  by_contra hlt
  have hfixed : σ (σ c) = σ c := hσ _ (Nat.lt_of_not_le hlt)
  have h : σ c = c := σ.injective hfixed
  omega

/-- A permutation that leaves all later positions in place permutes the first `n`. -/
theorem listed_perm {σ : Equiv.Perm Nat} (hσ : ∀ c, n ≤ c → σ c = c) :
    (listed n σ).Perm (Array.range n) := by
  have hsubset : (List.range n).map σ ⊆ List.range n := by
    intro x hx
    obtain ⟨c, hc, rfl⟩ := List.mem_map.1 hx
    rw [List.mem_range] at hc ⊢
    exact apply_lt_of_fixed hσ hc
  have hnodup : ((List.range n).map σ).Nodup := List.Nodup.map σ.injective List.nodup_range
  have hlist : (listed n σ).toList = (List.range n).map σ := by
    simp [listed]
  rw [Array.perm_iff_toList_perm, hlist, Array.toList_range]
  exact (hnodup.subperm hsubset).perm_of_length_le (by simp)

end Listed

namespace PagedMatrix

variable {α : Type} {shape : Shape} {kind : NumericKind} {height : Nat} {f : Nat → Nat → α}

/-- The cells `f` with column `σ c` at column `c`. -/
def arranged (σ : Equiv.Perm Nat) (f : Nat → Nat → α) : Nat → Nat → α :=
  fun r c => f r (σ c)

theorem arranged_arranged (σ τ : Equiv.Perm Nat) (f : Nat → Nat → α) :
    arranged τ (arranged σ f) = arranged (σ * τ) f := rfl

/-- Two columns of every stacked row are exchanged. -/
theorem swapCols_ofCells {c d : Nat} (hheight : shape.height = .ok height) (hc : c < shape.cols)
    (hd : d < shape.cols) :
    swapCols (ofCells shape kind height f) c d =
      .ok (ofCells shape kind height (arranged (Equiv.swap c d) f)) := by
  unfold swapCols
  rcases eq_or_ne c d with rfl | hne
  · rw [if_pos rfl, Equiv.swap_self]
    rfl
  rw [if_neg hne, height_ofCells, hheight, ok_bind]
  refine ascend_ofCells (fun i r j => if r < i then f r (Equiv.swap c d j) else f r j)
    (Nat.zero_le _) (fun r j _ _ => (if_neg (Nat.not_lt_zero r)).symm) (fun r j hr _ => if_pos hr) ?_
  intro i _ hi
  rw [swapCells_ofCells hi hc hi hd]
  refine congrArg Except.ok (ofCells_congr fun r j _ _ => ?_)
  unfold setCell
  rcases eq_or_ne r i with rfl | hr
  · -- the row that is exchanged in this step
    rw [if_pos (Nat.lt_succ_self r), if_neg (Nat.lt_irrefl r), if_neg (Nat.lt_irrefl r)]
    rcases eq_or_ne j d with rfl | hjd
    · rw [if_pos ⟨rfl, rfl⟩, Equiv.swap_apply_right]
    rcases eq_or_ne j c with rfl | hjc
    · rw [if_neg fun h => hjd h.2, if_pos ⟨rfl, rfl⟩, Equiv.swap_apply_left]
    · rw [if_neg fun h => hjd h.2, if_neg fun h => hjc h.2, Equiv.swap_apply_of_ne_of_ne hjc hjd]
      exact if_neg (Nat.lt_irrefl r)
  · have hiff : r < i + 1 ↔ r < i := by omega
    rw [if_neg fun h => hr h.1, if_neg fun h => hr h.1]
    simp only [hiff]

/-- The matrix that rearranges columns is the identity with its columns rearranged. -/
theorem columnPermutation_listed {ρ : Type} [Scalar α ρ] {n : Nat} {σ : Equiv.Perm Nat}
    (hσ : ∀ c, n ≤ c → σ c = c) (hlimit : n < Size.limit) (hfits : Fits α (n * n)) :
    (columnPermutation (listed n σ) : Fallible (PagedMatrix α)).run =
      .ok (.ok (ofCells { rows := n, cols := n } .real n (arranged σ identityCells))) := by
  -- before step `j` the columns before column `j` are written
  let written (j : Nat) : PagedMatrix α := ofCells { rows := n, cols := n } .real n
    fun r c => if c < j then arranged σ identityCells r c else 0
  have hall : written n = ofCells { rows := n, cols := n } .real n (arranged σ identityCells) :=
    ofCells_congr fun r c _ hc => if_pos hc
  rw [← hall]
  refine ends_run_eq_iff.1 ?_
  unfold columnPermutation
  rw [size_listed]
  refine ends_bind (P := (written 0 = ·)) (ends_fallible ⟨_, zeros_eq_ok hlimit hfits, rfl⟩) ?_
  rintro _ rfl
  refine ends_ascend (fun j a => a = written j) (Nat.zero_le n) rfl ?_
  rintro j _ - hj rfl
  have hsource : σ j < n := apply_lt_of_fixed hσ hj
  refine ends_bind (P := (σ j = ·)) (ends_fallible ⟨_, readAt_listed hj, rfl⟩) ?_
  rintro _ rfl
  rw [if_neg (by omega)]
  refine ends_fallible ⟨_, set_ofCells hsource hj 1, ofCells_congr fun r c _ _ => ?_⟩
  unfold setCell arranged identityCells
  dsimp only
  rcases eq_or_ne c j with rfl | hne
  · split_ifs <;> first | rfl | omega
  · have hiff : c < j + 1 ↔ c < j := by omega
    rw [if_neg fun h => hne h.2]
    simp only [hiff]

/-- Without room for the matrix that rearranges columns there is none. -/
theorem columnPermutation_eq_error {ρ : Type} [Scalar α ρ] {sources : Array Nat}
    (hlimit : sources.size < Size.limit) (hbytes : 0 < Scalar.bytes α)
    (h : ¬ Fits α (sources.size * sources.size)) :
    ∃ fault, (columnPermutation sources : Fallible (PagedMatrix α)).run = .error fault := by
  obtain ⟨fault, hfault⟩ := zeros_eq_error hlimit hbytes h
  refine ⟨fault, ?_⟩
  unfold columnPermutation
  dsimp only
  rw [hfault]
  rfl

end PagedMatrix

namespace Reflection

variable {α ρ : Type} [Scalar α ρ] {f g : Nat → Nat → α} {stop k : Nat}

/-- The reflection of a column depends on the rows from its diagonal on. -/
theorem atColumn_congr (hk : k < stop) (h : ∀ r, k ≤ r → r < stop → f r k = g r k) :
    atColumn f stop k = atColumn g stop k := by
  have hsum : tailNormSq f stop k = tailNormSq g stop k :=
    PagedMatrix.accumulate_congr (fun l hl => congrArg Scalar.conj (h _ (by omega) (by omega)))
      (fun l hl => h _ (by omega) (by omega)) 0
  have htail : columnTail f stop k = columnTail g stop k := by
    refine Array.map_congr_left fun l hl => ?_
    rw [Array.mem_range] at hl
    exact h _ (by omega) (by omega)
  rw [atColumn, atColumn, h k (Nat.le_refl k) hk, hsum, htail]

end Reflection

namespace Qr

open PagedMatrix

variable {α ρ : Type} [Scalar α ρ] {packing : Packing} {m k : Nat} {f g : Nat → Nat → α}

/-- A step commutes with a rearrangement of the columns after its own. -/
theorem reduced_arranged {σ : Equiv.Perm Nat} (hσ : ∀ c < k + 1, σ c = c) :
    reduced packing m k (arranged σ f) = arranged σ (reduced packing m k f) := by
  have hk : σ k = k := hσ k (Nat.lt_succ_self k)
  have hcolumn : Reflection.atColumn (arranged σ f) m k = Reflection.atColumn f m k := by
    simp only [Reflection.atColumn, Reflection.tailNormSq, Reflection.columnTail, arranged, hk]
  funext r c
  change reduced packing m k (arranged σ f) r c = reduced packing m k f r (σ c)
  unfold reduced
  rw [hcolumn]
  rcases Nat.lt_trichotomy c k with hlt | rfl | hgt
  · rw [hσ c (by omega), if_pos (by omega), if_pos (by omega), arranged, hσ c (by omega)]
  · rw [hk, arranged, hk, if_neg (Nat.lt_irrefl c), if_neg (Nat.lt_irrefl c)]
  · -- the columns to the right stay to the right, and each is reflected by itself
    have hright : k + 1 ≤ σ c := le_apply_of_fixed hσ hgt
    have hleft : (r < k ∨ m ≤ r ∨ c < k) ↔ (r < k ∨ m ≤ r ∨ σ c < k) := by omega
    simp only [hleft, if_pos hgt, if_pos (show k < σ c by omega)]
    rfl

/-- Cells that agree, up to what is packed in earlier columns, still do after a step, also if the two
steps pack their reflections differently. -/
theorem reduced_congr {packing' : Packing} (hk : k < m)
    (h : ∀ r c, m ≤ r ∨ r ≤ c ∨ k ≤ c → f r c = g r c) {r c : Nat}
    (hrc : m ≤ r ∨ r ≤ c ∨ k + 1 ≤ c) :
    reduced packing m k f r c = reduced packing' m k g r c := by
  have hcolumn : Reflection.atColumn f m k = Reflection.atColumn g m k :=
    Reflection.atColumn_congr hk fun r _ _ => h r k (by omega)
  unfold reduced
  rw [hcolumn]
  by_cases hkept : r < k ∨ m ≤ r ∨ c < k
  · rw [if_pos hkept, if_pos hkept]
    exact h r c (by omega)
  rw [if_neg hkept, if_neg hkept]
  rcases Nat.lt_or_ge k c with hright | hleft
  · rw [if_pos hright, if_pos hright]
    exact reflected_congr (fun r' _ _ => h r' c (by omega)) (h r c (by omega))
  · -- of the own column only the diagonal entry counts
    have hright : ¬k < c := by omega
    have hdiagonal : r = k := by omega
    rw [if_neg hright, if_neg hright, if_pos hdiagonal, if_pos hdiagonal]

namespace Reduction

/-- The reduction of column `k` with a given packing. -/
def stepWith (packing : Packing) (m k : Nat) (s : Reduction α) : Reduction α :=
  let h := Reflection.atColumn s.cells m k
  ⟨reduced packing m k s.cells, s.taus.push h.tau, s.phis.push h.phi⟩

/-- The reduction of the first `count` columns with a given packing. -/
def runWith (packing : Packing) (m : Nat) (f : Nat → Nat → α) : Nat → Reduction α
  | 0 => initial f
  | count + 1 => (runWith packing m f count).stepWith packing m count

/-- The reduction that the factorisation without pivoting runs packs the scaled directions. -/
theorem runWith_compact (m : Nat) (f : Nat → Nat → α) (count : Nat) :
    runWith .compact m f count = run m f count := by
  induction count with
  | zero => rfl
  | succ count ih =>
    rw [runWith, ih]
    rfl

/-- The first steps commute with a rearrangement of the columns that they have not reached. -/
theorem runWith_arranged {σ : Equiv.Perm Nat} {count : Nat} (hσ : ∀ c < count, σ c = c) :
    runWith packing m (arranged σ f) count =
      { runWith packing m f count with cells := arranged σ (runWith packing m f count).cells } := by
  induction count with
  | zero => rfl
  | succ count ih =>
    have hcolumn : Reflection.atColumn (arranged σ (runWith packing m f count).cells) m count =
        Reflection.atColumn (runWith packing m f count).cells m count := by
      simp only [Reflection.atColumn, Reflection.tailNormSq, Reflection.columnTail, arranged,
        hσ count (Nat.lt_succ_self count)]
    rw [runWith, ih fun c hc => hσ c (by omega)]
    simp only [runWith, stepWith, hcolumn, reduced_arranged hσ]

/-- Two runs with the same reflections, which may pack them differently below the diagonal of the
columns that are reduced. -/
structure SameFactors (m count : Nat) (s t : Reduction α) : Prop where
  /-- The factors of the reflections are the same. -/
  taus : s.taus = t.taus
  /-- The phases are the same. -/
  phis : s.phis = t.phis
  /-- The cells are the same, but for what is packed. -/
  cells : ∀ r c, m ≤ r ∨ r ≤ c ∨ count ≤ c → s.cells r c = t.cells r c

theorem SameFactors.step {packing' : Packing} {s t : Reduction α} (h : SameFactors m k s t)
    (hk : k < m) : SameFactors m (k + 1) (s.stepWith packing m k) (t.stepWith packing' m k) := by
  have hcolumn : Reflection.atColumn s.cells m k = Reflection.atColumn t.cells m k :=
    Reflection.atColumn_congr hk fun r _ _ => h.cells r k (by omega)
  refine ⟨?_, ?_, fun r c hrc => reduced_congr hk h.cells hrc⟩
  · simp only [stepWith, hcolumn, h.taus]
  · simp only [stepWith, hcolumn, h.phis]

/-- The packing has no part in the factorisation. -/
theorem sameFactors_runWith (packing packing' : Packing) (f : Nat → Nat → α) {count : Nat}
    (hcount : count ≤ m) :
    SameFactors m count (runWith packing m f count) (runWith packing' m f count) := by
  induction count with
  | zero => exact ⟨rfl, rfl, fun _ _ _ => rfl⟩
  | succ count ih => exact (ih (by omega)).step (by omega)

end Reduction

end Qr

end DenseLinear
