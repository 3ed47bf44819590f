import DenseLinear.Proofs.ReflectionLaws
import DenseLinear.Reflection.Paged

/-!
# Steps that write down what a reflection makes of its vector

`reflectStep` does not compute what its reflection makes of the column or row it was built for: it
writes `alpha` and zeros, and reflects the rest only. What it leaves in each cell is given for
entries without any laws (`columnStep`, `rowStep`). Over real and complex numbers it is what the
reflection itself leaves in the whole trailing block, and what is left by the reflection that is
built and applied page by page, if there is a single page (`reflectStep_eq_reflect`).
-/

namespace DenseLinear

namespace PagedMatrix

/-! ## The steps cell by cell -/

section Cells

variable {α ρ : Type} [Scalar α ρ] {shape : Shape} {kind : NumericKind} {height k : Nat}
  {f : Nat → Nat → α}

/-- The cells `f` of a page of `m` rows after column `k` has been replaced by `alpha` and zeros, and
the columns to its right have been reflected. -/
def columnStep (m k : Nat) (f : Nat → Nat → α) : Nat → Nat → α :=
  let h := Reflection.atColumn f m k
  fun r c =>
    if h.isTrivial ∨ r < k ∨ m ≤ r ∨ c < k then f r c
    else if k < c then reflected h.v h.tau k f r c
    else if r = k then h.alpha
    else 0

/-- The cells `f` of a page of `m` rows and `n` columns after row `k` has been replaced by `alpha`
and zeros, and the rows below it have been reflected. -/
def rowStep (m n k : Nat) (f : Nat → Nat → α) : Nat → Nat → α :=
  let h := Reflection.atRow f n k
  fun r c =>
    if h.isTrivial ∨ r < k ∨ m ≤ r ∨ c < k then f r c
    else if k < r then reflectedRows h.v h.tau k f r c
    else if c = k then h.alpha
    else 0

/-- A part of a column is cleared. -/
theorem clearColumn_ofCells {col start stop : Nat} (hcol : col < shape.cols) (hle : start ≤ stop)
    (hstop : stop ≤ height) :
    ascend start stop (ofCells shape kind height f) (fun i a => a.set i col 0) =
      .ok (ofCells shape kind height (overwrite start stop col (col + 1) (fun _ _ => 0) f)) := by
  refine ascend_ofCells (fun i => overwrite start i col (col + 1) (fun _ _ => 0) f) hle
    (fun r c _ _ => (if_neg (by omega)).symm) (fun r c _ _ => rfl) ?_
  intro i hi hi'
  rw [set_ofCells (by omega) hcol]
  refine congrArg Except.ok (ofCells_congr fun r c _ _ => ?_)
  unfold setCell overwrite
  split_ifs <;> first | rfl | omega

theorem reflectStep_left_ofCells (hk : k < shape.rows) (hrows : shape.rows ≤ height)
    (hk' : k < shape.cols) (hlimit : shape.rows < Size.limit) (hfits : Fits α shape.rows) :
    (ofCells shape kind height f).reflectStep .left k =
      .ok (ofCells shape kind height (columnStep shape.rows k f),
        Reflection.atColumn f shape.rows k) := by
  have hsize := Reflection.size_atColumn f hk
  unfold reflectStep columnStep
  dsimp only
  rw [rows_ofCells, Reflection.ofColumn_ofCells hk hrows hk' hlimit hfits, ok_bind]
  generalize Reflection.atColumn f shape.rows k = h at hsize
  cases htrivial : h.isTrivial with
  | true => simp only [if_true, true_or]; rfl
  | false =>
    rw [if_neg Bool.false_ne_true, set_ofCells (by omega) hk', ok_bind, rows_ofCells,
      clearColumn_ofCells hk' hk hrows, ok_bind]
    unfold reflectLeft
    rw [reflectColumns_ofCells (by omega), ok_bind, cols_ofCells, Nat.min_self]
    simp only [Bool.false_eq_true, false_or]
    refine congrArg (fun a => Except.ok (a, h)) (ofCells_congr fun r c _ hc => ?_)
    -- the columns to the right are reflected as they were
    have hright : ∀ r' c', k < c' → overwrite (k + 1) shape.rows k (k + 1) (fun _ _ => 0)
        (setCell f k k h.alpha) r' c' = f r' c' := by
      intro r' c' hc'
      unfold overwrite setCell
      rw [if_neg (by omega), if_neg (by omega)]
    rcases Nat.lt_or_ge k c with hgt | hle
    · rw [overwrite, reflected_congr (fun r' _ _ => hright r' c hgt) (hright r c hgt),
        hright r c hgt]
      split_ifs <;> first | rfl | omega
    · unfold overwrite setCell
      dsimp only
      split_ifs <;> first | rfl | omega

theorem reflectStep_right_ofCells (hk : k < shape.rows) (hrows : shape.rows ≤ height)
    (hk' : k < shape.cols) (hcols : shape.cols < Size.limit) (hheight : height < Size.limit)
    (hfits : Fits α shape.cols) :
    (ofCells shape kind height f).reflectStep .right k =
      .ok (ofCells shape kind height (rowStep shape.rows shape.cols k f),
        Reflection.atRow f shape.cols k) := by
  have hsize := Reflection.size_atRow f hk'
  unfold reflectStep rowStep
  dsimp only
  rw [cols_ofCells, Reflection.ofRow_ofCells hk' (Nat.le_refl _) (by omega) hcols hheight hfits,
    ok_bind]
  generalize Reflection.atRow f shape.cols k = h at hsize
  cases htrivial : h.isTrivial with
  | true => simp only [if_true, true_or]; rfl
  | false =>
    rw [if_neg Bool.false_ne_true, set_ofCells (by omega) hk', ok_bind, cols_ofCells,
      clearRow_ofCells (by omega) hk' (Nat.le_refl _), ok_bind]
    unfold reflectRight
    rw [rows_ofCells, reflectRows_ofCells (by omega) hrows hcols hheight, ok_bind]
    simp only [Bool.false_eq_true, false_or]
    refine congrArg (fun a => Except.ok (a, h)) (ofCells_congr fun r c _ hc => ?_)
    -- the rows below are reflected as they were
    have hbelow : ∀ r' c', k < r' → (if r' = k ∧ k + 1 ≤ c' ∧ c' < shape.cols then 0
        else setCell f k k h.alpha r' c') = f r' c' := by
      intro r' c' hr'
      unfold setCell
      rw [if_neg (by omega), if_neg (by omega)]
    rcases Nat.lt_or_ge k r with hgt | hle
    · rw [overwrite, reflectedRows_congr (fun c' _ _ => hbelow r c' hgt) (hbelow r c hgt),
        hbelow r c hgt]
      split_ifs <;> first | rfl | omega
    · unfold overwrite setCell
      dsimp only
      split_ifs <;> first | rfl | omega

/-- On a single page, reflecting every page is reflecting the matrix. -/
theorem reflectPages_of_singlePage {a : PagedMatrix α} (hpage : a.SinglePage)
    (hrows : a.rows < Size.limit) (side : Side) (v : Array α) (tau : α) {row : Nat}
    (hrow : row < Size.limit) (col : Nat) :
    reflectPages side a v tau row col = reflect side a v tau row col := by
  have hlayout : a.layout = .ok ⟨a.rows, a.cols, 1⟩ := layout_of_pages hpage
  have honce : ∀ step : Nat → PagedMatrix α → Checked (PagedMatrix α),
      ascend 0 1 a step = step 0 a := by
    intro step
    rw [ascend_of_lt Nat.one_pos]
    simp only [Nat.zero_add, ascend_self, bind_pure]
  cases side with
  | left =>
    unfold reflectPages reflect reflectPagesLeft
    dsimp only
    rw [hlayout, ok_bind, honce, rowOf_eq_ok (by simpa using hrow), ok_bind, Nat.zero_mul,
      Nat.zero_add]
  | right =>
    unfold reflectPages reflect reflectPagesRight reflectRight
    dsimp only
    rw [hlayout, ok_bind, honce, rowsOf_eq_ok (by simpa using hrows), ok_bind]
    dsimp only
    rw [Nat.zero_mul, Size.add_eq_ok (by simpa using hrow), ok_bind, Nat.zero_add, Nat.zero_add]

/-- The number of rows (`left`) or columns (`right`) of a page: the extent of a vector that reaches
its end. -/
def fullExtent (side : Side) (a : PagedMatrix α) : Nat :=
  match side with
  | .left => a.rows
  | .right => a.cols

/-- On a single page, a reflection that is built to the end of the page and applied to every page is
one that is built and applied once. -/
theorem reflectPagesStep_of_singlePage {a b : PagedMatrix α} {h : Reflection α} {side : Side}
    (hpage : a.SinglePage) (hrows : a.rows < Size.limit) (hk : k < Size.limit)
    (hbuilt : Reflection.ofSide side a (fullExtent side a) k = .ok h)
    (happlied : reflect side a h.v h.tau k k = .ok b) :
    reflectPagesStep side a (fullExtent side a) k = .ok (b, h) := by
  have hlayout : a.layout = .ok ⟨a.rows, a.cols, 1⟩ := layout_of_pages hpage
  have hcut : cutExtent side ⟨a.rows, a.cols, 1⟩ (fullExtent side a) = fullExtent side a := by
    cases side <;> exact Nat.min_self _
  unfold reflectPagesStep
  rw [hlayout, ok_bind, hcut, hbuilt, ok_bind, reflectPages_of_singlePage hpage hrows side _ _ hk,
    happlied, ok_bind]
  rfl

/-- A reflection that counts as the identity leaves every cell as it is. -/
theorem reflected_of_isTrivial {h : Reflection α} (htrivial : h.isTrivial = true) (row : Nat)
    (f : Nat → Nat → α) : reflected h.v h.tau row f = f := by
  funext r c
  unfold Reflection.isTrivial at htrivial
  rw [reflected, htrivial, Bool.true_or, if_pos rfl]

theorem reflectedRows_of_isTrivial {h : Reflection α} (htrivial : h.isTrivial = true) (col : Nat)
    (f : Nat → Nat → α) : reflectedRows h.v h.tau col f = f := by
  funext r c
  unfold Reflection.isTrivial at htrivial
  rw [reflectedRows, htrivial, Bool.true_or, if_pos rfl]

end Cells

/-! ## Agreement with the whole reflection -/

section Exact

variable {K R : Type} [LinearOrder R] [ExactArith R] [HermitianScalar K R] [EuclideanArith R]

theorem columnStep_eq_reflected (f : Nat → Nat → K) {m n k : Nat} (hk : k < m) :
    AgreeOn m n (columnStep m k f) (overwrite k (k + (Reflection.atColumn f m k).v.size) k n
      (reflected (Reflection.atColumn f m k).v (Reflection.atColumn f m k).tau k f) f) := by
  obtain ⟨hleading, hrest⟩ := Reflection.reflected_atColumn f hk
  have hsize := Reflection.size_atColumn f hk
  intro r c hr hc
  unfold columnStep overwrite
  generalize Reflection.atColumn f m k = h at hleading hrest hsize
  cases htrivial : h.isTrivial with
  | true =>
    rw [if_pos (Or.inl rfl), reflected_of_isTrivial htrivial, ite_self]
  | false =>
    simp only [Bool.false_eq_true, false_or]
    by_cases hblock : k ≤ r ∧ k ≤ c
    · have hreached : ¬(r < k ∨ m ≤ r ∨ c < k) := by omega
      have hinside : (k ≤ r ∧ r < k + h.v.size) ∧ k ≤ c ∧ c < n := by omega
      rw [if_neg hreached, if_pos hinside]
      -- the column that is written down is the one that the reflection was built for
      rcases Nat.lt_or_eq_of_le hblock.2 with hright | rfl
      · rw [if_pos hright]
      rw [if_neg (Nat.lt_irrefl k)]
      rcases Nat.lt_or_eq_of_le hblock.1 with hbelow | rfl
      · rw [if_neg (by omega), hrest r hbelow hr]
      · rw [if_pos rfl, hleading]
    · rw [if_pos (by omega), if_neg (by omega)]

theorem rowStep_eq_reflectedRows (f : Nat → Nat → K) {m n k : Nat} (hk : k < n) :
    AgreeOn m n (rowStep m n k f) (overwrite k m k (k + (Reflection.atRow f n k).v.size)
      (reflectedRows (Reflection.atRow f n k).v (Reflection.atRow f n k).tau k f) f) := by
  obtain ⟨hleading, hrest⟩ := Reflection.reflectedRows_atRow f hk
  have hsize := Reflection.size_atRow f hk
  intro r c hr hc
  unfold rowStep overwrite
  generalize Reflection.atRow f n k = h at hleading hrest hsize
  cases htrivial : h.isTrivial with
  | true =>
    rw [if_pos (Or.inl rfl), reflectedRows_of_isTrivial htrivial, ite_self]
  | false =>
    simp only [Bool.false_eq_true, false_or]
    by_cases hblock : k ≤ r ∧ k ≤ c
    · have hreached : ¬(r < k ∨ m ≤ r ∨ c < k) := by omega
      have hinside : (k ≤ r ∧ r < m) ∧ k ≤ c ∧ c < k + h.v.size := by omega
      rw [if_neg hreached, if_pos hinside]
      -- the row that is written down is the one that the reflection was built for
      rcases Nat.lt_or_eq_of_le hblock.1 with hbelow | rfl
      · rw [if_pos hbelow]
      rw [if_neg (Nat.lt_irrefl k)]
      rcases Nat.lt_or_eq_of_le hblock.2 with hright | rfl
      · rw [if_neg (by omega), hrest c hright hc]
      · rw [if_pos rfl, hleading]
    · rw [if_pos (by omega), if_neg (by omega)]

/-- On a single page a step leaves what the reflection that it has built leaves in the whole
trailing block, and the reflection that is applied to every page leaves the same. -/
theorem reflectStep_eq_reflect {a : PagedMatrix K} (ha : a.Stored) (hpage : a.SinglePage)
    (side : Side) {k : Nat} (hk : k < min a.rows a.cols) :
    ∃ b h, reflectStep side a k = .ok (b, h) ∧ reflect side a h.v h.tau k k = .ok b ∧
      reflectPagesStep side a (fullExtent side a) k = .ok (b, h) := by
  obtain ⟨hrows, hcols⟩ := lt_min_iff.1 hk
  have hfits := ha.fits_of_singlePage hpage
  have hcells := ha.eq_ofCells_of_singlePage hpage
  cases side with
  | left =>
    have hroom : Fits K a.rows := hfits.mono (Nat.le_mul_of_pos_right _ (Nat.zero_lt_of_lt hcols))
    have hsize := Reflection.size_atColumn a.cell hrows
    have hbuilt : Reflection.ofColumn (ofCells a.shape a.kind a.rows a.cell) a.rows k = .ok _ :=
      Reflection.ofColumn_ofCells hrows (Nat.le_refl _) hcols ha.rows_lt hroom
    have hstep : (ofCells a.shape a.kind a.rows a.cell).reflectStep .left k = .ok _ :=
      reflectStep_left_ofCells hrows (Nat.le_refl _) hcols ha.rows_lt hroom
    have hreach : k + (Reflection.atColumn a.cell a.rows k).v.size ≤ a.rows := by omega
    have hwhole : (ofCells a.shape a.kind a.rows a.cell).reflectColumns
        (Reflection.atColumn a.cell a.rows k).v (Reflection.atColumn a.cell a.rows k).tau k k
        a.cols = .ok _ := reflectColumns_ofCells hreach
    rw [Nat.min_self, ← ofCells_congr (columnStep_eq_reflected a.cell hrows)] at hwhole
    rw [← hcells] at hbuilt hstep hwhole
    exact ⟨_, _, hstep, hwhole,
      reflectPagesStep_of_singlePage hpage ha.rows_lt (hrows.trans ha.rows_lt) hbuilt hwhole⟩
  | right =>
    have hroom : Fits K a.cols := hfits.mono (Nat.le_mul_of_pos_left _ (Nat.zero_lt_of_lt hrows))
    have hsize := Reflection.size_atRow a.cell hcols
    have hbuilt : Reflection.ofRow (ofCells a.shape a.kind a.rows a.cell) a.cols k = .ok _ :=
      Reflection.ofRow_ofCells hcols (Nat.le_refl _) hrows ha.cols_lt ha.rows_lt hroom
    have hstep : (ofCells a.shape a.kind a.rows a.cell).reflectStep .right k = .ok _ :=
      reflectStep_right_ofCells hrows (Nat.le_refl _) hcols ha.cols_lt ha.rows_lt hroom
    have hreach : k + (Reflection.atRow a.cell a.cols k).v.size ≤ a.cols := by omega
    have hwhole : (ofCells a.shape a.kind a.rows a.cell).reflectRows
        (Reflection.atRow a.cell a.cols k).v (Reflection.atRow a.cell a.cols k).tau k a.rows k =
          .ok _ := reflectRows_ofCells hreach (Nat.le_refl _) ha.cols_lt ha.rows_lt
    rw [← ofCells_congr (rowStep_eq_reflectedRows a.cell hcols)] at hwhole
    rw [← hcells] at hbuilt hstep hwhole
    exact ⟨_, _, hstep, hwhole,
      reflectPagesStep_of_singlePage hpage ha.rows_lt (hrows.trans ha.rows_lt) hbuilt hwhole⟩

/-- Both sides of a complex matrix, and the last column of a real one, which is zero below the
diagonal. -/
theorem reflectStep_eq_reflect_equalColumns :
    ((Qr.equalColumns (⟨0, 1⟩ : Cartesian ℝ)).Stored ∧
      (Qr.equalColumns (⟨0, 1⟩ : Cartesian ℝ)).SinglePage ∧ 0 < min 3 2 ∧
      (∃ b h, reflectStep .left (Qr.equalColumns (⟨0, 1⟩ : Cartesian ℝ)) 0 = .ok (b, h) ∧
        reflect .left (Qr.equalColumns ⟨0, 1⟩) h.v h.tau 0 0 = .ok b ∧
        reflectPagesStep .left (Qr.equalColumns ⟨0, 1⟩) 3 0 = .ok (b, h)) ∧
      ∃ b h, reflectStep .right (Qr.equalColumns (⟨0, 1⟩ : Cartesian ℝ)) 0 = .ok (b, h) ∧
        reflect .right (Qr.equalColumns ⟨0, 1⟩) h.v h.tau 0 0 = .ok b ∧
        reflectPagesStep .right (Qr.equalColumns ⟨0, 1⟩) 2 0 = .ok (b, h)) ∧
    (Qr.equalColumns (2 : ℝ)).Stored ∧ (Qr.equalColumns (2 : ℝ)).SinglePage ∧ 1 < min 3 2 ∧
      ∃ b h, reflectStep .left (Qr.equalColumns (2 : ℝ)) 1 = .ok (b, h) ∧
        reflect .left (Qr.equalColumns 2) h.v h.tau 1 1 = .ok b ∧
        reflectPagesStep .left (Qr.equalColumns 2) 3 1 = .ok (b, h) := by
  have hcomplex : (Qr.equalColumns (⟨0, 1⟩ : Cartesian ℝ)).Stored :=
    ⟨rfl, by decide, by decide, by decide⟩
  have hreal : (Qr.equalColumns (2 : ℝ)).Stored := ⟨rfl, by decide, by decide, by decide⟩
  exact ⟨⟨hcomplex, rfl, by decide, reflectStep_eq_reflect hcomplex rfl .left (by decide),
    reflectStep_eq_reflect hcomplex rfl .right (by decide)⟩,
    hreal, rfl, by decide, reflectStep_eq_reflect hreal rfl .left (by decide)⟩

end Exact

end PagedMatrix

end DenseLinear
