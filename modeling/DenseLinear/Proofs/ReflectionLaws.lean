import DenseLinear.Proofs.ReflectionDuality

/-!
# The laws of reflections

What a reflection is promised to be, over real and complex numbers (`Reflection.Lawful`): its
direction begins with one, its phase has the absolute value one, its factor is zero or between one
and two, and its matrix is its own conjugate transpose and its own inverse. Applied to its own
column or row it leaves `alpha` followed by zeros, and applied twice it restores whatever it is
applied to (`reflections_reduce_and_restore`).

Reflecting rows from the right is reflecting the columns of the conjugate transpose from the left
with the conjugate factor (`reflectedRows_eq_adjoint`), and the factor that is built is real. So the
laws are proved of columns, and those of rows follow.
-/

namespace DenseLinear

open PagedMatrix

/-! ## Applying a reflection twice -/

namespace PagedMatrix

section Columns

variable {K R : Type} [StarScalar K R] {v : Array K} {tau : K} {row col : Nat}
  {f : Nat → Nat → K}

/-- The direction `v` and the factor `tau` are those of a map that is its own inverse. -/
structure IsInvolution (v : Array K) (tau : K) : Prop where
  /-- The factor is zero, or two over the square of the direction. -/
  square : tau = 0 ∨ tau * ∑ l ∈ Finset.range v.size, star (v.getD l 0) * v.getD l 0 = 2

/-- In the reflected column the share of the direction has changed its sign. -/
theorem columnFactor_reflected (h : IsInvolution v tau) (f : Nat → Nat → K) (c : Nat) :
    columnFactor v tau row (reflected v tau row f) c = -columnFactor v tau row f c := by
  rcases h.square with rfl | hsquare
  · rw [columnFactor_eq_dot, columnFactor_eq_dot, zero_mul, zero_mul, neg_zero]
  have hentry : ∀ l, reflected v tau row f (row + l) c =
      f (row + l) c - v.getD l 0 * columnFactor v tau row f c := by
    intro l
    rw [reflected_eq_sub, Nat.add_sub_cancel_left]
  rw [columnFactor_eq_dot]
  simp only [hentry, mul_sub, Finset.sum_sub_distrib, ← mul_assoc]
  rw [← Finset.sum_mul, ← mul_assoc, hsquare, ← columnFactor_eq_dot]
  ring

theorem reflected_reflected (h : IsInvolution v tau) (f : Nat → Nat → K) :
    reflected v tau row (reflected v tau row f) = f := by
  funext r c
  rw [reflected_eq_sub, columnFactor_reflected h, reflected_eq_sub, mul_neg, sub_neg_eq_add,
    sub_add_cancel]

/-- A reflection from the left that is applied twice restores every matrix that holds the rows it
reaches. -/
theorem reflectLeft_restores (h : IsInvolution v tau) {c : PagedMatrix K} (hc : c.WellFormed)
    (hreach : (row + v.size) * c.cols ≤ c.size) (col : Nat) :
    ∃ d, c.reflectLeft v tau row col = .ok d ∧ d.reflectLeft v tau row col = .ok c := by
  obtain ⟨height, hheight, hcells⟩ := hc.exists_ofCells hreach
  generalize c.cell = f at hcells
  rw [hcells]
  unfold reflectLeft
  refine ⟨_, reflectColumns_ofCells hheight, (reflectColumns_ofCells hheight).trans
    (congrArg Except.ok (ofCells_congr fun r j _ _ => ?_))⟩
  unfold overwrite
  split
  · rename_i hreached
    -- in a column that is reached, the second reflection meets the cells of the first one
    rw [reflected_congr (g := reflected v tau row f), reflected_reflected h]
    · intro r hr hr'
      exact if_pos ⟨⟨hr, hr'⟩, hreached.2⟩
    · exact if_pos hreached
  · rename_i hskipped
    exact if_neg hskipped

end Columns

section Rows

variable {K R : Type} [StarScalar K R] {v : Array K} {tau : K} {row col : Nat}
  {f : Nat → Nat → K}

theorem reflectedRows_reflectedRows (hreal : star tau = tau) (h : IsInvolution v tau)
    (f : Nat → Nat → K) :
    reflectedRows v tau col (reflectedRows v tau col f) = f := by
  rw [reflectedRows_eq_adjoint, reflectedRows_eq_adjoint, hreal, adjointCells_adjointCells,
    reflected_reflected h, adjointCells_adjointCells]

/-- A reflection from the right that is applied twice restores every matrix that has the columns it
reaches. -/
theorem reflectRight_restores (hreal : star tau = tau) (h : IsInvolution v tau) {c : PagedMatrix K}
    (hc : c.Stored) (hpage : c.HasPage) (hreach : col + v.size ≤ c.cols) (row : Nat) :
    ∃ d, c.reflectRight v tau row col = .ok d ∧ d.reflectRight v tau row col = .ok c := by
  obtain ⟨height, hrows, hheight, hsize, -⟩ := hc.exists_height hpage
  have hcells := eq_ofCells_cell hsize
  generalize c.cell = f at hcells
  rw [hcells]
  unfold reflectRight
  refine ⟨_, reflectRows_ofCells hreach hrows hc.cols_lt hheight,
    (reflectRows_ofCells hreach hrows hc.cols_lt hheight).trans
      (congrArg Except.ok (ofCells_congr fun i j _ _ => ?_))⟩
  unfold overwrite
  split
  · rename_i hreached
    -- in a row that is reached, the second reflection meets the cells of the first one
    rw [reflectedRows_congr (g := reflectedRows v tau col f), reflectedRows_reflectedRows hreal h]
    · intro j hj hj'
      exact if_pos ⟨hreached.1, hj, hj'⟩
    · exact if_pos hreached
  · rename_i hskipped
    exact if_neg hskipped

end Rows

end PagedMatrix

/-! ## What a reflection is -/

namespace Reflection

variable {K R : Type} [LinearOrder R] [ExactArith R] [HermitianScalar K R]

/-- The matrix of a reflection of vectors of the given length. -/
def matrix (h : Reflection K) (length : Nat) : Matrix (Fin length) (Fin length) K :=
  householder length h.tau fun l => h.v.getD l 0

/-- What is promised of the reflection `h` of the first `length` entries of the vector `x`. -/
structure Lawful (h : Reflection K) (x : Nat → K) (length : Nat) : Prop where
  /-- The direction has as many entries as the vector. -/
  size : h.v.size = length
  /-- The direction begins with one. -/
  lead : h.v[0]? = some 1
  /-- The phase has the absolute value one. -/
  phase : (Scalar.modulus h.phi : R) = 1
  /-- The absolute value of `alpha` is the norm of the vector. -/
  alpha : (Scalar.modulus h.alpha : R) = RealArith.sqrt
    (∑ l ∈ Finset.range length, Scalar.modulus (x l) * Scalar.modulus (x l))
  /-- The factor is real, and zero or between one and two. -/
  factor : ∃ t : R, h.tau = Scalar.ofReal t ∧ (t = 0 ∨ 1 ≤ t ∧ t ≤ 2)
  /-- The factor is zero exactly if all entries after the first are. -/
  trivial_iff : h.tau = 0 ↔ ∀ l, 0 < l → l < length → x l = 0
  /-- The matrix is its own conjugate transpose. -/
  hermitian : (h.matrix length).conjTranspose = h.matrix length
  /-- The matrix is its own inverse. -/
  involutive : h.matrix length * h.matrix length = 1

theorem Annihilates.isInvolution {h : Reflection K} {x : Nat → K} {length : Nat}
    (ha : Annihilates h x length) : IsInvolution h.v h.tau := by
  constructor
  rw [ha.size]
  exact ha.square

theorem modulus_phase (x0 : K) : (Scalar.modulus (phase x0) : R) = 1 := by
  have hunit : star (phase x0) * phase x0 = star (1 : K) * 1 := by
    rw [(phase_spec x0).2, star_one, one_mul]
  rw [HermitianScalar.modulus_congr hunit, ExactScalar.modulus_one]

variable [EuclideanArith R]

theorem modulus_alpha (x0 : K) {t : R} (ht : 0 ≤ t) :
    (Scalar.modulus (-(phase x0 * norm x0 (Scalar.ofReal t))) : R) =
      RealArith.sqrt (Scalar.modulus x0 * Scalar.modulus x0 + t) := by
  have hsum : (0 : R) ≤ Scalar.modulus x0 * Scalar.modulus x0 + t :=
    add_nonneg (mul_self_nonneg _) ht
  rw [HermitianScalar.modulus_neg, MultiplicativeModulus.modulus_mul, modulus_phase, one_mul,
    norm_eq_ofReal x0 ht, HermitianScalar.modulus_ofReal (EuclideanArith.sqrt_nonneg _ hsum)]

/-- The factor of a reflection that is not the identity lies between one and two, as the leading entry
is not longer than the whole vector. -/
theorem factor_properOf (x : Nat → K) (n : Nat) {t : R} (ht : 0 < t) :
    ∃ u : R, (properOf x n (Scalar.ofReal t)).tau = Scalar.ofReal u ∧ 1 ≤ u ∧ u ≤ 2 := by
  have hfactor := tau_properOf (n := n) (polar (x 0) ht.le ht.ne')
  have hs : (0 : R) ≤ Scalar.modulus (x 0) := ExactScalar.modulus_nonneg (x 0)
  rw [norm_eq_ofReal (x 0) ht.le, HermitianScalar.absolute_eq] at hfactor
  generalize (Scalar.modulus (x 0) : R) = s at hfactor hs
  have hsum : 0 < s * s + t := add_pos_of_nonneg_of_pos (mul_self_nonneg s) ht
  have hroot := EuclideanArith.sqrt_mul_self _ hsum.le
  have hpos := EuclideanArith.sqrt_pos hsum
  generalize RealArith.sqrt (s * s + t) = norm at hfactor hroot hpos
  have hle : s ≤ norm := (mul_self_le_mul_self_iff hs hpos.le).2 (by linarith)
  refine ⟨(s + norm) / norm, ?_, ?_, ?_⟩
  · rw [hfactor, ← HermitianScalar.ofReal_add]
    exact (map_div₀ (HermitianScalar.ofRealHom : R →+* K) _ _).symm
  · rw [le_div_iff₀ hpos]
    linarith
  · rw [div_le_iff₀ hpos]
    linarith

omit [EuclideanArith R] in
/-- The laws of a reflection that does what it is built for, from its phase, its `alpha` and its
factor. -/
theorem Annihilates.lawful {h : Reflection K} {x : Nat → K} {n : Nat} {u : R}
    (ha : Annihilates h x (n + 1)) (hphase : (Scalar.modulus h.phi : R) = 1)
    (halpha : (Scalar.modulus h.alpha : R) =
      RealArith.sqrt (Scalar.modulus (x 0) * Scalar.modulus (x 0) +
        ∑ l ∈ Finset.range n, Scalar.modulus (x (l + 1)) * Scalar.modulus (x (l + 1))))
    (hu : h.tau = Scalar.ofReal u)
    (hcases : (∀ l, 0 < l → l < n + 1 → x l = 0) ∧ u = 0 ∨
      ¬(∀ l, 0 < l → l < n + 1 → x l = 0) ∧ 1 ≤ u ∧ u ≤ 2) : Lawful h x (n + 1) := by
  refine ⟨ha.size, ?_, hphase, ?_, ⟨u, hu, hcases.imp And.right And.right⟩, ?_,
    conjTranspose_householder ha.real, householder_mul_self ha.square⟩
  · rw [getElem?_getD (by rw [ha.size]; exact Nat.succ_pos n), ha.lead]
  · rw [halpha, Finset.sum_range_succ' fun l => (Scalar.modulus (x l) * Scalar.modulus (x l) : R),
      add_comm]
  · rw [hu, HermitianScalar.ofReal_eq_zero_iff]
    rcases hcases with ⟨htail, rfl⟩ | ⟨htail, hle, -⟩
    · exact iff_of_true rfl htail
    · exact iff_of_false (by linarith) htail

/-- Every reflection that is built is what it is promised to be. -/
theorem built_lawful (x : Nat → K) {n : Nat} {sigma : K}
    (hsigma : ∑ l ∈ Finset.range n, star (x (l + 1)) * x (l + 1) = sigma) :
    Lawful (built (x 0) sigma ((Array.range n).map fun l => x (l + 1))) x (n + 1) := by
  have ha := built_annihilates x hsigma
  have hsum := HermitianScalar.sum_star_mul_self (Finset.range n) fun l => x (l + 1)
  have hnonneg : (0 : R) ≤ ∑ l ∈ Finset.range n,
      Scalar.modulus (x (l + 1)) * Scalar.modulus (x (l + 1)) :=
    Finset.sum_nonneg fun l _ => mul_self_nonneg _
  have htail := sigma_eq_zero_iff hsigma
  rw [hsigma] at hsum
  generalize ht : (∑ l ∈ Finset.range n,
    Scalar.modulus (x (l + 1)) * Scalar.modulus (x (l + 1)) : R) = t at hsum hnonneg
  have hbuilt : built (x 0) sigma ((Array.range n).map fun l => x (l + 1)) =
      if n = 0 || sigma == 0 then identityOn (n + 1) (x 0) else properOf x n sigma := by
    rw [built, Array.size_map, Array.size_range]
    rfl
  rw [hbuilt] at ha ⊢
  by_cases htrivial : sigma = 0
  · have hzero : t = 0 := HermitianScalar.ofReal_eq_zero_iff.1 (hsum.symm.trans htrivial)
    rw [if_pos (by rw [(RingScalar.beq_iff _ _).2 htrivial, Bool.or_true])] at ha ⊢
    refine ha.lawful ExactScalar.modulus_one ?_ (HermitianScalar.ofReal_eq_zero_iff.2 rfl).symm
      (Or.inl ⟨htail.1 htrivial, rfl⟩)
    rw [ht, hzero, add_zero, EuclideanArith.sqrt_square (ExactScalar.modulus_nonneg _)]
    rfl
  · have hn : n ≠ 0 := by
      rintro rfl
      exact htrivial (by rw [← hsigma, Finset.sum_range_zero])
    have hpos : 0 < t := by
      refine lt_of_le_of_ne hnonneg fun h => htrivial ?_
      rw [hsum, ← h]
      exact HermitianScalar.ofReal_eq_zero_iff.2 rfl
    obtain ⟨u, hu, hbounds⟩ := factor_properOf x n hpos
    rw [← hsum] at hu
    rw [if_neg (by simp [hn, (RingScalar.beq_eq_false_iff _ _).2 htrivial])] at ha ⊢
    refine ha.lawful (modulus_phase (x 0)) ?_ hu (Or.inr ⟨fun h => htrivial (htail.2 h), hbounds⟩)
    rw [ht, hsum]
    exact modulus_alpha (x 0) hpos.le

/-! ## Columns and rows -/

theorem atColumn_lawful (f : Nat → Nat → K) {m k : Nat} (hk : k < m) :
    Lawful (atColumn f m k) (fun l => f (k + l) k) (m - k) := by
  have hlength : m - (k + 1) + 1 = m - k := by omega
  have h := built_lawful (fun l => f (k + l) k) (sum_column_eq_tailNormSq f m k)
  rw [hlength] at h
  rw [atColumn_eq_built]
  exact h

/-- The reflection of a row keeps the laws: absolute values are those of the conjugates. -/
theorem atRow_lawful (f : Nat → Nat → K) {n k : Nat} (hk : k < n) :
    Lawful (atRow f n k) (fun l => f k (k + l)) (n - k) := by
  have h := atColumn_lawful (adjointCells f) hk
  have hentry : ∀ l, adjointCells f (k + l) k = star (f k (k + l)) :=
    fun l => StarScalar.conj_eq _
  rw [atRow_eq]
  refine ⟨h.size, h.lead, h.phase, ?_, h.factor, ?_, h.hermitian, h.involutive⟩
  · rw [HermitianScalar.modulus_star, h.alpha]
    simp only [hentry, HermitianScalar.modulus_star]
  · rw [h.trivial_iff]
    simp only [hentry, star_eq_zero]

/-- A column becomes `alpha` followed by zeros. -/
theorem reflected_atColumn (f : Nat → Nat → K) {m k : Nat} (hk : k < m) :
    reflected (atColumn f m k).v (atColumn f m k).tau k f k k = (atColumn f m k).alpha ∧
      ∀ i, k < i → i < m → reflected (atColumn f m k).v (atColumn f m k).tau k f i k = 0 := by
  have h := atColumn_annihilates f hk
  have hsize := h.size
  refine ⟨?_, fun i hi hi' => ?_⟩
  · rw [reflected_eq_sub, columnFactor_eq_dot, hsize, Nat.sub_self]
    exact h.leading
  · have hplace : k + (i - k) = i := by omega
    have hrest := h.rest (i - k) (by omega) (by omega)
    rw [hplace] at hrest
    rw [reflected_eq_sub, columnFactor_eq_dot, hsize]
    exact hrest

/-- A row becomes `alpha` followed by zeros. -/
theorem reflectedRows_atRow (f : Nat → Nat → K) {n k : Nat} (hk : k < n) :
    reflectedRows (atRow f n k).v (atRow f n k).tau k f k k = (atRow f n k).alpha ∧
      ∀ j, k < j → j < n → reflectedRows (atRow f n k).v (atRow f n k).tau k f k j = 0 := by
  obtain ⟨hleading, hrest⟩ := reflected_atColumn (adjointCells f) hk
  have hreal := (atColumn_annihilates (adjointCells f) hk).real
  rw [atRow_eq]
  dsimp only
  rw [reflectedRows_eq_adjoint, hreal]
  refine ⟨?_, fun j hj hj' => ?_⟩
  · rw [adjointCells, hleading, StarScalar.conj_eq]
  · rw [adjointCells, hrest j hj hj', StarScalar.conj_eq, star_zero]

/-- The reflection `h` does what it is built for in column `k` of the matrix `a`. -/
structure ReflectsColumn (h : Reflection K) (a : PagedMatrix K) (k : Nat) : Prop where
  /-- It is a reflection of the column from the diagonal down. -/
  lawful : h.Lawful (fun l => a.cell (k + l) k) (a.rows - k)
  /-- Applied from the left it leaves `alpha` on the diagonal and zeros below it. -/
  reduces : ∃ b, a.reflectLeft h.v h.tau k k = .ok b ∧ b.get k k = .ok h.alpha ∧
    ∀ i, k < i → i < a.rows → b.get i k = .ok 0
  /-- Applied twice from the left, at any place, it restores every matrix that has the rows it
  reaches. -/
  restores : ∀ (c : PagedMatrix K) row col, c.WellFormed → (row + h.v.size) * c.cols ≤ c.size →
    ∃ d, c.reflectLeft h.v h.tau row col = .ok d ∧ d.reflectLeft h.v h.tau row col = .ok c

/-- The reflection `h` does what it is built for in row `k` of the matrix `a`. -/
structure ReflectsRow (h : Reflection K) (a : PagedMatrix K) (k : Nat) : Prop where
  /-- It is a reflection of the row from the diagonal on. -/
  lawful : h.Lawful (fun l => a.cell k (k + l)) (a.cols - k)
  /-- Applied from the right it leaves `alpha` on the diagonal and zeros after it. -/
  reduces : ∃ b, a.reflectRight h.v h.tau k k = .ok b ∧ b.get k k = .ok h.alpha ∧
    ∀ j, k < j → j < a.cols → b.get k j = .ok 0
  /-- Applied twice from the right, at any place, it restores every matrix that has the columns it
  reaches. -/
  restores : ∀ (c : PagedMatrix K) row col, c.Stored → c.HasPage → col + h.v.size ≤ c.cols →
    ∃ d, c.reflectRight h.v h.tau row col = .ok d ∧ d.reflectRight h.v h.tau row col = .ok c

theorem atColumn_reflectsColumn {a : PagedMatrix K} (ha : a.Stored) (hpage : a.SinglePage) {k : Nat}
    (hrows : k < a.rows) (hcols : k < a.cols) : ReflectsColumn (atColumn a.cell a.rows k) a k := by
  have hannihilates := atColumn_annihilates a.cell hrows
  obtain ⟨hleading, hrest⟩ := reflected_atColumn a.cell hrows
  have hend : k + (atColumn a.cell a.rows k).v.size = a.rows := by
    rw [hannihilates.size]
    omega
  have happlied : (ofCells a.shape a.kind a.rows a.cell).reflectColumns
      (atColumn a.cell a.rows k).v (atColumn a.cell a.rows k).tau k k a.cols = .ok _ :=
    reflectColumns_ofCells hend.le
  rw [← ha.eq_ofCells_of_singlePage hpage] at happlied
  refine ⟨atColumn_lawful a.cell hrows, ⟨_, happlied, ?_, ?_⟩,
    fun c row col hc hreach => reflectLeft_restores hannihilates.isInvolution hc hreach col⟩
  · have hreached : k < k + (atColumn a.cell a.rows k).v.size := hrows.trans_eq hend.symm
    rw [get_ofCells hrows hcols, overwrite,
      if_pos ⟨⟨Nat.le_refl k, hreached⟩, Nat.le_refl k, lt_min hcols hcols⟩, hleading]
  · intro i hi hi'
    rw [get_ofCells hi' hcols, overwrite,
      if_pos ⟨⟨hi.le, hi'.trans_eq hend.symm⟩, Nat.le_refl k, lt_min hcols hcols⟩, hrest i hi hi']

theorem atRow_reflectsRow {a : PagedMatrix K} (ha : a.Stored) (hpage : a.SinglePage) {k : Nat}
    (hrows : k < a.rows) (hcols : k < a.cols) : ReflectsRow (atRow a.cell a.cols k) a k := by
  have hannihilates := atColumn_annihilates (adjointCells a.cell) hcols
  obtain ⟨hleading, hrest⟩ := reflectedRows_atRow a.cell hcols
  -- the direction and the factor are those of the column of the conjugate transpose
  have hreal : star (atRow a.cell a.cols k).tau = (atRow a.cell a.cols k).tau := by
    rw [atRow_eq]
    exact hannihilates.real
  have hinvolution : IsInvolution (atRow a.cell a.cols k).v (atRow a.cell a.cols k).tau := by
    rw [atRow_eq]
    exact hannihilates.isInvolution
  have hend : k + (atRow a.cell a.cols k).v.size = a.cols := by
    rw [(atRow_lawful a.cell hcols).size]
    omega
  have happlied : (ofCells a.shape a.kind a.rows a.cell).reflectRows
      (atRow a.cell a.cols k).v (atRow a.cell a.cols k).tau k a.rows k = .ok _ :=
    reflectRows_ofCells hend.le (Nat.le_refl _) ha.cols_lt ha.rows_lt
  rw [← ha.eq_ofCells_of_singlePage hpage] at happlied
  refine ⟨atRow_lawful a.cell hcols, ⟨_, happlied, ?_, ?_⟩,
    fun c row col hc hpage' hreach => reflectRight_restores hreal hinvolution hc hpage' hreach row⟩
  · rw [get_ofCells hrows hcols, overwrite, if_pos (by omega), hleading]
  · intro j hj hj'
    rw [get_ofCells hrows hj', overwrite, if_pos (by omega), hrest j hj hj']

/-- The reflections of a column and of a row of a matrix with a single page are built, are their own
conjugate transposes and inverses, and reduce their column or row. -/
theorem reflections_reduce_and_restore {a : PagedMatrix K} (ha : a.Stored) (hpage : a.SinglePage)
    {k : Nat} (hk : k < min a.rows a.cols) :
    (∃ h, ofColumn a a.rows k = .ok h ∧ h.ReflectsColumn a k) ∧
      ∃ h, ofRow a a.cols k = .ok h ∧ h.ReflectsRow a k := by
  obtain ⟨hrows, hcols⟩ := lt_min_iff.1 hk
  have hfits := ha.fits_of_singlePage hpage
  have hcolumn : ofColumn (ofCells a.shape a.kind a.rows a.cell) a.rows k = .ok _ :=
    ofColumn_ofCells hrows (Nat.le_refl _) hcols ha.rows_lt
      (hfits.mono (Nat.le_mul_of_pos_right _ (Nat.zero_lt_of_lt hcols)))
  have hrow : ofRow (ofCells a.shape a.kind a.rows a.cell) a.cols k = .ok _ :=
    ofRow_ofCells hcols (Nat.le_refl _) hrows ha.cols_lt ha.rows_lt
      (hfits.mono (Nat.le_mul_of_pos_left _ (Nat.zero_lt_of_lt hrows)))
  rw [← ha.eq_ofCells_of_singlePage hpage] at hcolumn hrow
  exact ⟨⟨_, hcolumn, atColumn_reflectsColumn ha hpage hrows hcols⟩,
    _, hrow, atRow_reflectsRow ha hpage hrows hcols⟩

/-- The first reflections of a complex matrix, and those of a real one whose second column is zero
below the diagonal. -/
theorem reflections_reduce_and_restore_equalColumns :
    ((Qr.equalColumns (⟨0, 1⟩ : Cartesian ℝ)).Stored ∧
      (Qr.equalColumns (⟨0, 1⟩ : Cartesian ℝ)).SinglePage ∧ 0 < min 3 2 ∧
      (∃ h, ofColumn (Qr.equalColumns (⟨0, 1⟩ : Cartesian ℝ)) 3 0 = .ok h ∧
        h.ReflectsColumn (Qr.equalColumns ⟨0, 1⟩) 0) ∧
      ∃ h, ofRow (Qr.equalColumns (⟨0, 1⟩ : Cartesian ℝ)) 2 0 = .ok h ∧
        h.ReflectsRow (Qr.equalColumns ⟨0, 1⟩) 0) ∧
    (Qr.equalColumns (2 : ℝ)).Stored ∧ (Qr.equalColumns (2 : ℝ)).SinglePage ∧ 1 < min 3 2 ∧
      (∃ h, ofColumn (Qr.equalColumns (2 : ℝ)) 3 1 = .ok h ∧
        h.ReflectsColumn (Qr.equalColumns 2) 1) ∧
      ∃ h, ofRow (Qr.equalColumns (2 : ℝ)) 2 1 = .ok h ∧ h.ReflectsRow (Qr.equalColumns 2) 1 := by
  have hcomplex : (Qr.equalColumns (⟨0, 1⟩ : Cartesian ℝ)).Stored :=
    ⟨rfl, by decide, by decide, by decide⟩
  have hreal : (Qr.equalColumns (2 : ℝ)).Stored := ⟨rfl, by decide, by decide, by decide⟩
  exact ⟨⟨hcomplex, rfl, by decide, reflections_reduce_and_restore hcomplex rfl (k := 0) (by decide)⟩,
    hreal, rfl, by decide, reflections_reduce_and_restore hreal rfl (k := 1) (by decide)⟩

end Reflection

end DenseLinear
