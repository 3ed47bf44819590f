import Mathlib.LinearAlgebra.UnitaryGroup
import DenseLinear.Proofs.ExactReals
import DenseLinear.Proofs.ExactReflections
import DenseLinear.Proofs.Reduction
import DenseLinear.Proofs.Transposes

/-!
# Reconstruction from QR factors

Over real and complex numbers the factors of a matrix `A` satisfy `Q * R = A` with a unitary `Q` and
an upper trapezoidal `R`, also where columns are zero or depend on each other.

Packed reflections stand for a product of matrices (`unitaryProduct`). Over every field with a
conjugation `unitaryFactor` computes that product, whatever is packed (`ends_unitaryFactor`). The
invariant of the factorisation (`Reduced`) is that the product of the reflections so far is unitary
and takes the cells, with the packed entries cleared, back to `A`. A reflection that is unpacked is
the one that was packed, for its factor is either zero or can be divided out.

The factorisation works in place and always succeeds, so there is a `TriangularFactor` also where
memory has no room for the square matrix `Q`.
-/

namespace DenseLinear

namespace Qr

open PagedMatrix

/-! ## Steps of the unitary factor -/

section Steps

variable {α ρ : Type} [Scalar α ρ]

/-- One step of `unitaryFactor`: the reflection that is packed below the diagonal of column `k` is
applied to the rows and columns of `q` from `k` on. -/
def reflectPacked (packed : PagedMatrix α) (taus : Array α) (k : Nat) (q : PagedMatrix α) :
    Checked (PagedMatrix α) := do
  let tau ← readAt taus k
  if tau == 0 then
    return q
  else
    let v ← unpackColumn packed k tau
    q.reflectLeft v tau k k

/-- The steps are made from the last one back. -/
theorem unitaryFactor_eq_descend [RealArith ρ] (packed : PagedMatrix α) (taus : Array α) :
    unitaryFactor packed taus = (do
      let q ← identity packed.rows
      let q ← descend 0 (min (min taus.size packed.rows) packed.cols) q (reflectPacked packed taus)
      return q.refreshKind) := rfl

/-- Without room for the unitary factor there is none. -/
theorem unitaryFactor_eq_error [RealArith ρ] {packed : PagedMatrix α} (taus : Array α)
    (hlimit : packed.rows < Size.limit) (hbytes : 0 < Scalar.bytes α)
    (h : ¬ Fits α (packed.rows * packed.rows)) :
    ∃ fault, unitaryFactor packed taus = .error fault := by
  obtain ⟨fault, hfault⟩ := identity_eq_error hlimit hbytes h
  refine ⟨fault, ?_⟩
  rw [unitaryFactor_eq_descend, hfault]
  rfl

end Steps

/-! ## Products of packed reflections -/

section Products

variable {K R : Type} [StarScalar K R] {m n k count : Nat} {f g : Nat → Nat → K} {tau : K}

/-- The reflection that is packed with the factor `tau` below the diagonal of column `k`. -/
def packedReflection (m : Nat) (f : Nat → Nat → K) (tau : K) (k : Nat) :
    Matrix (Fin m) (Fin m) K :=
  householder m tau (direction (unpackedColumn f m k tau) k)

/-- The product of the first packed reflections. -/
def unitaryProduct (m : Nat) (f : Nat → Nat → K) (taus : Array K) (count : Nat) :
    Matrix (Fin m) (Fin m) K :=
  ((List.range count).map fun k => packedReflection m f (taus.getD k 0) k).prod

theorem unitaryProduct_zero (m : Nat) (f : Nat → Nat → K) (taus : Array K) :
    unitaryProduct m f taus 0 = 1 := rfl

theorem unitaryProduct_succ (m : Nat) (f : Nat → Nat → K) (taus : Array K) (count : Nat) :
    unitaryProduct m f taus (count + 1) =
      unitaryProduct m f taus count * packedReflection m f (taus.getD count 0) count :=
  List.prod_range_succ ..

/-- A packed reflection depends on its own column only. -/
theorem packedReflection_congr (h : ∀ r, r < m → f r k = g r k) :
    packedReflection m f tau k = packedReflection m g tau k := by
  have hcolumn : unpackedColumn f m k tau = unpackedColumn g m k tau := by
    unfold unpackedColumn
    refine congrArg _ (Array.map_congr_left fun l hl => ?_)
    rw [Array.mem_range] at hl
    rw [h (k + 1 + l) (by omega)]
  rw [packedReflection, packedReflection, hcolumn]

/-- Later steps do not change what is packed. -/
theorem unitaryProduct_congr {taus taus' : Array K} (h : ∀ r c, r < m → c < count → f r c = g r c)
    (h' : ∀ k < count, taus.getD k 0 = taus'.getD k 0) :
    unitaryProduct m f taus count = unitaryProduct m g taus' count := by
  unfold unitaryProduct
  refine congrArg List.prod (List.map_congr_left fun k hk => ?_)
  rw [List.mem_range] at hk
  rw [h' k hk, packedReflection_congr fun r hr => h r k hr hk]

/-- A packed reflection meets zeros in the columns before its own and may leave them out. -/
theorem packedReflection_mul (hk : k < m)
    (hbefore : ∀ r c, r < m → c < k → g r c = identityCells r c) :
    packedReflection m f tau k * toMatrix m m g =
      toMatrix m m (overwrite k m k m (reflected (unpackedColumn f m k tau) tau k g) g) := by
  have hsize := size_unpackedColumn f hk tau
  ext i j
  unfold packedReflection
  simp only [toMatrix, Matrix.of_apply, overwrite]
  -- the matrix acts on all rows and columns, the kernel on those from `k` on
  rcases Nat.lt_or_ge i k with habove | hbelow
  · rw [if_neg (by omega)]
    exact householder_mul_above g i j habove
  rcases Nat.lt_or_ge j k with hleft | hright
  · have hzero : ∑ l ∈ Finset.range m,
        star (direction (unpackedColumn f m k tau) k l) * g l j = 0 := by
      refine Finset.sum_eq_zero fun l hl => ?_
      rw [hbefore l j (Finset.mem_range.1 hl) hleft, identityCells]
      split
      · rw [direction_of_lt (by omega), star_zero, zero_mul]
      · rw [mul_zero]
    rw [if_neg (by omega)]
    refine (householder_mul_toMatrix g i j).trans ?_
    rw [hzero, mul_zero, mul_zero, sub_zero]
  · rw [if_pos (by omega)]
    exact (reflected_eq_mul (by omega) g i j hbelow).symm

variable [RealArith R]

/-- Packed reflections are multiplied, the first one leftmost, whatever they are. -/
theorem ends_unitaryFactor {shape : Shape} (kind : NumericKind) {height : Nat} (taus : Array K)
    (hrows : shape.rows ≤ height) (hlimit : shape.rows < Size.limit)
    (hfits : Fits K (shape.rows * shape.rows)) :
    Ends (unitaryFactor (ofCells shape kind height f) taus) fun q => ∃ g,
      q = (ofCells { rows := shape.rows, cols := shape.rows } .real shape.rows g).refreshKind ∧
      toMatrix shape.rows shape.rows g =
        unitaryProduct shape.rows f taus (min (min taus.size shape.rows) shape.cols) := by
  unfold unitaryFactor
  rw [rows_ofCells, cols_ofCells]
  dsimp only
  rw [identity_eq_ok hlimit hfits, ok_bind]
  generalize hsteps : min (min taus.size shape.rows) shape.cols = steps
  -- the reflections before `k` are still missing, and the columns before `k` are those of the identity
  refine ends_bind (ends_descend (fun k q => ∃ g,
    q = ofCells { rows := shape.rows, cols := shape.rows } .real shape.rows g ∧
      unitaryProduct shape.rows f taus k * toMatrix shape.rows shape.rows g =
        unitaryProduct shape.rows f taus steps ∧
      ∀ r c, r < shape.rows → c < k → g r c = identityCells r c) (Nat.zero_le _)
    ⟨identityCells, rfl, by rw [RingScalar.toMatrix_identityCells, Matrix.mul_one],
      fun _ _ _ _ => rfl⟩ ?_) ?_
  · rintro k _ - hk ⟨g, rfl, hproduct, hbefore⟩
    have htau : taus[k]? = some (taus.getD k 0) := getElem?_getD (by omega)
    refine ends_iff.2 ⟨_, applyPacked_ofCells htau (by omega) hrows (by omega), _, rfl, ?_, ?_⟩
    · -- the reflection that is applied is the last one that is missing
      rw [← packedReflection_mul (by omega) fun r c hr hc => hbefore r c hr (by omega),
        ← Matrix.mul_assoc, ← unitaryProduct_succ, hproduct]
    · intro r c hr hc
      unfold overwrite
      rw [if_neg (by omega), hbefore r c hr (by omega)]
  · rintro _ ⟨g, rfl, hproduct, -⟩
    rw [unitaryProduct_zero, Matrix.one_mul] at hproduct
    exact ends_pure ⟨g, rfl, hproduct⟩

end Products

/-! ## The factorisation -/

section Factorisation

variable {K R : Type} [LinearOrder R] [ExactArith R] [HermitianScalar K R] {m n k count : Nat}
  {A f : Nat → Nat → K}

/-- The first `count` columns of the matrix `A` have been reduced, as recorded in `s`. -/
structure Reduced (m n : Nat) (A : Nat → Nat → K) (count : Nat) (s : Reduction K) : Prop where
  /-- The reflections so far take what is left back to the matrix. -/
  product : unitaryProduct m s.cells s.taus count * toMatrix m n (clearBelow count s.cells) =
    toMatrix m n A
  /-- The product of the reflections so far is unitary. -/
  unitary : unitaryProduct m s.cells s.taus count ∈ Matrix.unitaryGroup (Fin m) K

variable [EuclideanArith R]

/-- The matrix of the reflection of column `k`. -/
def columnReflection (m : Nat) (f : Nat → Nat → K) (k : Nat) : Matrix (Fin m) (Fin m) K :=
  householder m (Reflection.atColumn f m k).tau (direction (Reflection.atColumn f m k).v k)

/-- The reflection that is unpacked from a column is the one that was packed into it. -/
theorem packedReflection_reduced (hk : k < m) :
    packedReflection m (reduced .compact m k f) (Reflection.atColumn f m k).tau k =
      columnReflection m f k := by
  have hatColumn := Reflection.atColumn_annihilates f hk
  unfold packedReflection columnReflection
  generalize hh : Reflection.atColumn f m k = h at hatColumn
  -- an identity has the factor zero; nothing is divided by it
  rcases eq_or_ne h.tau 0 with hzero | hne
  · rw [hzero, householder_zero, householder_zero]
  -- otherwise the factor that was multiplied in is divided out
  have hentry : ∀ i, (unpackedColumn (reduced .compact m k f) m k h.tau).getD i 0 =
      h.v.getD i 0 := by
    rintro (_ | l)
    · rw [getD_unpackedColumn_zero, hatColumn.lead]
    rcases Nat.lt_or_ge l (m - (k + 1)) with hl | hl
    · have hplace : k + 1 + l - k = l + 1 := by omega
      rw [getD_unpackedColumn_succ _ hl, reduced_column (by omega) (by omega), hh, packedScale,
        hplace, FieldScalar.quotient_eq _ _ hne, mul_div_cancel_left₀ _ hne]
    · have hsize := size_unpackedColumn (reduced .compact m k f) hk h.tau
      have hsize' := hatColumn.size
      rw [Array.getD_eq_getD_getElem?, Array.getD_eq_getD_getElem?,
        Array.getElem?_eq_none (by omega), Array.getElem?_eq_none (by omega)]
  have hdirection : direction (unpackedColumn (reduced .compact m k f) m k h.tau) k =
      direction h.v k := by
    funext r
    simp only [direction, hentry]
  rw [hdirection]

/-- The factor of a column's reflection is zero, or two over the square of its direction. -/
theorem columnReflection_square (hk : k < m) :
    (Reflection.atColumn f m k).tau = 0 ∨ (Reflection.atColumn f m k).tau *
      ∑ l ∈ Finset.range m, star (direction (Reflection.atColumn f m k).v k l) *
        direction (Reflection.atColumn f m k).v k l = 2 := by
  have h := Reflection.atColumn_annihilates f hk
  have hsize := h.size
  refine h.square.imp id fun hsquare => ?_
  rw [sum_direction (by omega), ← hsquare, hsize]
  refine congrArg _ (Finset.sum_congr rfl fun l _ => ?_)
  rw [direction_of_le (Nat.le_add_right k l), Nat.add_sub_cancel_left]

theorem columnReflection_mul_self (hk : k < m) :
    columnReflection m f k * columnReflection m f k = 1 :=
  householder_mul_self (columnReflection_square hk)

theorem columnReflection_mem (hk : k < m) :
    columnReflection m f k ∈ Matrix.unitaryGroup (Fin m) K := by
  rw [Matrix.mem_unitaryGroup_iff, Matrix.star_eq_conjTranspose, columnReflection,
    conjTranspose_householder (Reflection.atColumn_annihilates f hk).real]
  exact columnReflection_mul_self hk

/-- The reflection of a column takes what is left before its step to what is left after it. -/
theorem columnReflection_mul (hk : k < m) :
    columnReflection m f k * toMatrix m n (clearBelow k f) =
      toMatrix m n (clearBelow (k + 1) (reduced .compact m k f)) := by
  have h := Reflection.atColumn_annihilates f hk
  have hsize := h.size
  have hreach : k + (Reflection.atColumn f m k).v.size ≤ m := by omega
  ext i j
  unfold columnReflection
  change _ = clearBelow (k + 1) (reduced .compact m k f) i j
  rcases Nat.lt_or_ge i k with habove | hbelow
  · rw [householder_mul_above _ i j habove]
    unfold clearBelow
    rw [reduced_of_lt_row habove]
    split_ifs <;> first | rfl | omega
  rcases Nat.lt_trichotomy j k with hleft | hcolumn | hright
  · -- a finished column is zero in all rows that the reflection reaches
    have hzero : ∑ l ∈ Finset.range (Reflection.atColumn f m k).v.size,
        star ((Reflection.atColumn f m k).v.getD l 0) * clearBelow k f (k + l) j = 0 := by
      refine Finset.sum_eq_zero fun l _ => ?_
      rw [clearBelow, if_pos (by omega), mul_zero]
    rw [householder_mul_toMatrix, sum_direction hreach, hzero, mul_zero, mul_zero, sub_zero,
      clearBelow, clearBelow, if_pos (by omega), if_pos (by omega)]
  · -- column `k` itself becomes `alpha` followed by zeros
    have hsum : ∑ l ∈ Finset.range (Reflection.atColumn f m k).v.size,
        star ((Reflection.atColumn f m k).v.getD l 0) * clearBelow k f (k + l) j =
        ∑ l ∈ Finset.range (m - k), star ((Reflection.atColumn f m k).v.getD l 0) * f (k + l) k := by
      rw [hsize]
      refine Finset.sum_congr rfl fun l _ => ?_
      rw [clearBelow, if_neg (by omega), hcolumn]
    rw [householder_mul_toMatrix, sum_direction hreach, hsum, direction_of_le hbelow, clearBelow,
      clearBelow, if_neg (by omega), hcolumn]
    rcases Nat.eq_or_lt_of_le hbelow with heq | hlt
    · rw [if_neg (by omega), ← heq, reduced_diagonal hk, Nat.sub_self]
      exact h.leading
    · have hplace : k + (i - k) = i := by omega
      have hrest := h.rest (i - k) (by omega) (by omega)
      rw [hplace] at hrest
      rw [if_pos (by omega), hrest]
  · -- the columns to the right are reflected by the kernel as well
    have hsame : ∀ r, clearBelow k f r j = f r j := fun r => if_neg (by omega)
    rw [← reflected_eq_mul hreach _ i j hbelow, clearBelow, if_neg (by omega),
      reduced_right hbelow i.isLt hright]
    exact reflected_congr (fun r _ _ => hsame r) (hsame i)

/-- The reflections before a step stay as they are packed, and its own becomes the last one. -/
theorem unitaryProduct_step {s : Reduction K} (hsize : s.taus.size = k) (hk : k < m) :
    unitaryProduct m (s.step m k).cells (s.step m k).taus (k + 1) =
      unitaryProduct m s.cells s.taus k * columnReflection m s.cells k := by
  have hbefore : unitaryProduct m (s.step m k).cells (s.step m k).taus k =
      unitaryProduct m s.cells s.taus k := by
    refine unitaryProduct_congr (fun r c _ hc => reduced_of_lt_col hc) fun j hj => ?_
    rw [Reduction.step, Array.getD_eq_getD_getElem?, Array.getElem?_push_lt (by omega),
      Array.getD_eq_getD_getElem?, Array.getElem?_eq_getElem]
  have htau : (s.step m k).taus.getD k 0 = (Reflection.atColumn s.cells m k).tau := by
    rw [Reduction.step, Array.getD_eq_getD_getElem?, ← hsize, Array.getElem?_push_size]
    rfl
  have hlast : packedReflection m (s.step m k).cells ((s.step m k).taus.getD k 0) k =
      columnReflection m s.cells k := by
    rw [htau]
    exact packedReflection_reduced hk
  rw [unitaryProduct_succ, hbefore, hlast]

/-- The reduction of the next column. -/
theorem Reduced.step {s : Reduction K} (h : Reduced m n A k s) (hsize : s.taus.size = k)
    (hk : k < m) : Reduced m n A (k + 1) (s.step m k) := by
  constructor
  · -- a reflection and its inverse are put in between
    have hinverse : columnReflection m s.cells k * (columnReflection m s.cells k *
        toMatrix m n (clearBelow k s.cells)) = toMatrix m n (clearBelow k s.cells) := by
      rw [← Matrix.mul_assoc, columnReflection_mul_self hk, Matrix.one_mul]
    rw [unitaryProduct_step hsize hk, Reduction.step, ← columnReflection_mul hk,
      Matrix.mul_assoc, hinverse, h.product]
  · rw [unitaryProduct_step hsize hk]
    exact mul_mem h.unitary (columnReflection_mem hk)

theorem Reduced.run (A : Nat → Nat → K) (hcount : count ≤ m) :
    Reduced m n A count (Reduction.run m A count) := by
  induction count with
  | zero =>
    refine ⟨?_, one_mem _⟩
    rw [unitaryProduct_zero, Matrix.one_mul]
    rfl
  | succ count ih =>
    exact (ih (by omega)).step (Reduction.size_taus_run m A count) (by omega)

end Factorisation

/-! ## The factors -/

section Factors

variable {K R : Type} [LinearOrder R] [ExactArith R] [HermitianScalar K R] {a : PagedMatrix K}

/-- The factors `q` and `r` reconstruct the matrix `a`: `Q * R = A` with a unitary `Q` and an upper
trapezoidal `R`. -/
structure Reconstruct (q r a : PagedMatrix K) : Prop where
  /-- The product of the factors is the matrix. -/
  product : ∃ c, PagedMatrix.product q r = .ok c ∧ c.SameEntries a
  /-- The unitary factor is square. -/
  shape_unitary : q.shape = { rows := a.rows, cols := a.rows }
  /-- The conjugate transpose of the unitary factor is its inverse from both sides. -/
  unitary : ∃ p e, adjoint q = .ok p ∧ identity a.rows = .ok e ∧
    (∃ c, PagedMatrix.product p q = .ok c ∧ c.SameEntries e) ∧
    ∃ c, PagedMatrix.product q p = .ok c ∧ c.SameEntries e
  /-- The upper factor has the shape of the matrix. -/
  shape_upper : r.shape = a.shape
  /-- The upper factor is zero below its diagonal. -/
  upper : ∀ i j, i < a.rows → j < a.cols → j < i → r.get i j = .ok 0

/-- The cells of a reduced matrix reconstruct it, if those of the unitary factor are the product of
its reflections. -/
theorem reconstruct_of_reduced {s : Reduction K} {g : Nat → Nat → K} {kind kind' : NumericKind}
    (ha : a.Stored) (hpage : a.SinglePage) (hroom : Fits K (a.rows * a.rows))
    (h : Reduced a.rows a.cols a.cell (min a.rows a.cols) s)
    (hg : toMatrix a.rows a.rows g =
      unitaryProduct a.rows s.cells s.taus (min a.rows a.cols)) :
    Reconstruct (ofCells { rows := a.rows, cols := a.rows } kind a.rows g)
      (ofCells a.shape kind' a.rows (clearBelow (min a.rows a.cols) s.cells)) a := by
  have hrows : a.rows < Size.limit := ha.rows_lt
  have hproduct := h.product
  have hunitary := h.unitary
  rw [← hg] at hproduct hunitary
  have hadjoint : toMatrix a.rows a.rows (fun r c => Scalar.conj (g c r)) =
      star (toMatrix a.rows a.rows g) := by
    ext i j
    exact StarScalar.conj_eq _
  have hleft : toMatrix a.rows a.rows (fun r c => Scalar.conj (g c r)) * toMatrix a.rows a.rows g =
      toMatrix a.rows a.rows identityCells := by
    rw [hadjoint, RingScalar.toMatrix_identityCells]
    exact Matrix.mem_unitaryGroup_iff'.1 hunitary
  have hright : toMatrix a.rows a.rows g * toMatrix a.rows a.rows (fun r c => Scalar.conj (g c r)) =
      toMatrix a.rows a.rows identityCells := by
    rw [hadjoint, RingScalar.toMatrix_identityCells]
    exact Matrix.mem_unitaryGroup_iff.1 hunitary
  refine ⟨⟨_, RingScalar.product_eq_ok_of_mul rfl hrows (ha.fits_of_singlePage hpage) hproduct,
    rfl, rfl, ?_⟩, rfl, ?_, rfl, ?_⟩
  · exact (congrArg PagedMatrix.data (ha.eq_ofCells_of_singlePage hpage)).symm
  · have hp : adjoint (ofCells { rows := a.rows, cols := a.rows } kind a.rows g) = .ok _ :=
      adjoint_ofCells (Nat.le_refl _) hrows hroom
    rw [refreshKind_ofCells] at hp
    refine ⟨_, _, hp, identity_eq_ok hrows hroom, ?_, ?_⟩
    · exact ⟨_, RingScalar.product_eq_ok_of_mul rfl hrows hroom hleft, rfl, rfl, rfl⟩
    · exact ⟨_, RingScalar.product_eq_ok_of_mul rfl hrows hroom hright, rfl, rfl, rfl⟩
  · exact fun i j => get_clearBelow

/-- The matrix `r` is a triangular factor of the matrix `a`: for some unitary matrix `Q`, whether or
not memory has room for it, `Q * R = A`. -/
structure TriangularFactor (a r : PagedMatrix K) : Prop where
  /-- The factor has the shape of the matrix. -/
  shape : r.shape = a.shape
  /-- It is zero below its diagonal. -/
  upper : ∀ i j, i < a.rows → j < a.cols → j < i → r.get i j = .ok 0
  /-- A unitary matrix takes it to the matrix. -/
  product : ∃ Q ∈ Matrix.unitaryGroup (Fin a.rows) K,
    Q * toMatrix a.rows a.cols r.cell = toMatrix a.rows a.cols a.cell

/-- What is left of a reduced matrix is a triangular factor. -/
theorem triangularFactor_of_reduced {s : Reduction K} (kind : NumericKind)
    (h : Reduced a.rows a.cols a.cell (min a.rows a.cols) s) :
    TriangularFactor a
      (ofCells a.shape kind a.rows (clearBelow (min a.rows a.cols) s.cells)) := by
  have hcells : toMatrix a.rows a.cols (ofCells a.shape kind a.rows
      (clearBelow (min a.rows a.cols) s.cells)).cell =
      toMatrix a.rows a.cols (clearBelow (min a.rows a.cols) s.cells) := by
    ext i j
    exact cell_ofCells i.isLt j.isLt
  refine ⟨rfl, fun i j => get_clearBelow, _, h.unitary, ?_⟩
  rw [hcells, h.product]

/-- The reflections of a matrix that has been reduced are unpacked, if memory has room for their
product. -/
theorem exists_unitaryFactor {shape : Shape} {s : Reduction K} (kind : NumericKind)
    (hlimit : shape.rows < Size.limit) (hroom : Fits K (shape.rows * shape.rows))
    (htaus : s.taus.size = min shape.rows shape.cols) :
    ∃ kind' g,
      unitaryFactor (ofCells shape kind shape.rows s.cells) s.taus =
        .ok (ofCells { rows := shape.rows, cols := shape.rows } kind' shape.rows g) ∧
      toMatrix shape.rows shape.rows g =
        unitaryProduct shape.rows s.cells s.taus (min shape.rows shape.cols) := by
  obtain ⟨_, hunitary, g, rfl, hg⟩ := ends_iff.1
    (ends_unitaryFactor (f := s.cells) kind s.taus (Nat.le_refl shape.rows) hlimit hroom)
  have hsteps : min (min s.taus.size shape.rows) shape.cols = min shape.rows shape.cols := by omega
  rw [refreshKind_ofCells] at hunitary
  exact ⟨_, g, hunitary, by rw [hg, hsteps]⟩

/-- The QR factorisation of a matrix with a single page succeeds and leaves a triangular factor. If
memory has room for the unitary factor, the two reconstruct the matrix, also where columns are zero or
depend on each other; otherwise the unitary factor is not unpacked. -/
theorem factor_reconstructs [EuclideanArith R] (ha : a.Stored) (hpage : a.SinglePage) :
    ∃ f r, factor a = .ok f ∧ upperFactor f.packed = .ok r ∧ TriangularFactor a r ∧
      (Fits K (a.rows * a.rows) →
        ∃ q, unitaryFactor f.packed f.taus = .ok q ∧ Reconstruct q r a) ∧
      (¬ Fits K (a.rows * a.rows) → ∃ fault, unitaryFactor f.packed f.taus = .error fault) := by
  have hrows : a.rows < Size.limit := ha.rows_lt
  have hreduced := Reduced.run (n := a.cols) a.cell (Nat.min_le_left a.rows a.cols)
  have htaus := Reduction.size_taus_run a.rows a.cell (min a.rows a.cols)
  have hfactor : factor (ofCells a.shape a.kind a.rows a.cell) = .ok _ :=
    factor_ofCells_of_cols (Nat.le_refl _) hrows (ha.fits_rows_of_singlePage hpage)
  rw [← ha.eq_ofCells_of_singlePage hpage, refreshKind_ofCells] at hfactor
  generalize Reduction.run a.rows a.cell (min a.rows a.cols) = s at hreduced htaus hfactor
  generalize kindOf a.kind (ofCells a.shape a.kind a.rows s.cells).data = kind at hfactor
  have hupper : upperFactor (ofCells a.shape kind a.rows s.cells) = .ok _ :=
    keepUpper_of_singlePage hpage hrows
  rw [refreshKind_ofCells] at hupper
  refine ⟨_, _, hfactor, hupper, triangularFactor_of_reduced _ hreduced, fun hroom => ?_,
    fun hroom => ?_⟩
  · obtain ⟨_, g, hunitary, hg⟩ := exists_unitaryFactor kind hrows hroom htaus
    exact ⟨_, hunitary, reconstruct_of_reduced ha hpage hroom hreduced hg⟩
  · exact unitaryFactor_eq_error _ hrows ha.fits.bytes_pos hroom

end Factors

/-- A tall matrix with two equal columns. -/
def equalColumns {K : Type} [Zero K] [One K] (x : K) : PagedMatrix K :=
  { shape := { rows := 3, cols := 2 }, data := #[x, x, 1, 1, 0, 0] }

/-- The factors of a matrix of rank one, for a real and for a complex entry, and of a matrix whose
unitary factor memory has no room for. -/
theorem factor_reconstructs_equalColumns :
    ((equalColumns (2 : ℝ)).Stored ∧ (equalColumns (2 : ℝ)).SinglePage ∧ Fits ℝ (3 * 3) ∧
      ∃ f r q, factor (equalColumns (2 : ℝ)) = .ok f ∧ upperFactor f.packed = .ok r ∧
        unitaryFactor f.packed f.taus = .ok q ∧ Reconstruct q r (equalColumns 2)) ∧
    ((equalColumns (⟨0, 1⟩ : Cartesian ℝ)).Stored ∧
      (equalColumns (⟨0, 1⟩ : Cartesian ℝ)).SinglePage ∧ Fits (Cartesian ℝ) (3 * 3) ∧
      ∃ f r q, factor (equalColumns (⟨0, 1⟩ : Cartesian ℝ)) = .ok f ∧
        upperFactor f.packed = .ok r ∧ unitaryFactor f.packed f.taus = .ok q ∧
        Reconstruct q r (equalColumns ⟨0, 1⟩)) ∧
    (withoutColumns : PagedMatrix ℝ).Stored ∧ (withoutColumns : PagedMatrix ℝ).SinglePage ∧
      ¬ Fits ℝ (2 ^ 40 * 2 ^ 40) ∧
      ∃ f fault, factor (withoutColumns : PagedMatrix ℝ) = .ok f ∧
        unitaryFactor f.packed f.taus = .error fault := by
  have hreal : (equalColumns (2 : ℝ)).Stored := ⟨rfl, by decide, by decide, by decide⟩
  have hroom : Fits ℝ (3 * 3) := ⟨by decide, by decide⟩
  have hcomplex : (equalColumns (⟨0, 1⟩ : Cartesian ℝ)).Stored :=
    ⟨rfl, by decide, by decide, by decide⟩
  have hroom' : Fits (Cartesian ℝ) (3 * 3) := ⟨by decide, by decide⟩
  have hempty : (withoutColumns : PagedMatrix ℝ).Stored := stored_withoutColumns (by decide)
  have hlarge : ¬ Fits ℝ (2 ^ 40 * 2 ^ 40) := not_fits_withoutColumns
  obtain ⟨f, r, hf, hr, -, hfits, -⟩ := factor_reconstructs hreal rfl
  obtain ⟨q, hq, hreconstruct⟩ := hfits hroom
  obtain ⟨f', r', hf', hr', -, hfits', -⟩ := factor_reconstructs hcomplex rfl
  obtain ⟨q', hq', hreconstruct'⟩ := hfits' hroom'
  obtain ⟨f'', -, hf'', -, -, -, hrefused⟩ := factor_reconstructs hempty rfl
  obtain ⟨fault, hfault⟩ := hrefused hlarge
  exact ⟨⟨hreal, rfl, hroom, f, r, q, hf, hr, hq, hreconstruct⟩,
    ⟨hcomplex, rfl, hroom', f', r', q', hf', hr', hq', hreconstruct'⟩,
    hempty, rfl, hlarge, f'', fault, hf'', hfault⟩

end Qr

end DenseLinear
