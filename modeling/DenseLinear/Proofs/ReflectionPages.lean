import DenseLinear.Proofs.InterchangeCalls
import DenseLinear.Proofs.ReflectingRows
import DenseLinear.Reflection.Paged

/-!
# Reflecting every page

The reflections of all pages, for entries without any laws. Each page of a matrix (`pageAt`) becomes
what reflecting it as a matrix of its own makes of it (`Pagewise`).

The pages share one buffer. The argument is that a step of the loop over the pages changes its own
page only, and that what it leaves there is computed from that page only (`ActsOnPage`); so the loop
does to every page what its step does to one (`pagewise_ascend`).
-/

namespace DenseLinear

namespace PagedMatrix

variable {α : Type}

/-! ## Pages as matrices -/

/-- A page of a matrix, as a matrix of its own. -/
def pageAt (a : PagedMatrix α) (page : Nat) : PagedMatrix α :=
  { shape := { rows := a.rows, cols := a.cols }, kind := a.kind
    data := a.data.extract (page * (a.rows * a.cols)) ((page + 1) * (a.rows * a.cols)) }

/-- The matrix `b` is `a` with the step taken on each of its first `count` pages, as a matrix of its
own. -/
structure Pagewise (count : Nat) (step : PagedMatrix α → Checked (PagedMatrix α))
    (a b : PagedMatrix α) : Prop where
  /-- The shape is kept. -/
  shape : b.shape = a.shape
  /-- The kind is kept. -/
  kind : b.kind = a.kind
  /-- The size of the buffer is kept. -/
  size : b.data.size = a.data.size
  /-- The step is taken on each page. -/
  page : ∀ page < count, step (a.pageAt page) = .ok (b.pageAt page)

/-- The cells of one of the pages of `rows` rows that are stacked in `f`. -/
def pageCells (rows : Nat) (f : Nat → Nat → α) (page : Nat) : Nat → Nat → α :=
  fun r c => f (page * rows + r) c

/-- The stacked cells `f` after the cells of each page of `rows` rows have been transformed. -/
def onEachPage (rows : Nat) (transform : (Nat → Nat → α) → Nat → Nat → α) (f : Nat → Nat → α) :
    Nat → Nat → α :=
  fun r c => transform (pageCells rows f (r / rows)) (r % rows) c

section Cells

variable {shape : Shape} {kind : NumericKind} {height count page : Nat} {f : Nat → Nat → α}
  {transform : (Nat → Nat → α) → Nat → Nat → α}

theorem pageAt_ofCells (hpage : page < count) :
    (ofCells shape kind (count * shape.rows) f).pageAt page =
      ofCells { rows := shape.rows, cols := shape.cols } kind shape.rows
        (pageCells shape.rows f page) := by
  refine eq_ofCells rfl rfl fun i => ?_
  have hlast : (page + 1) * (shape.rows * shape.cols) ≤ count * shape.rows * shape.cols := by
    rw [Nat.mul_assoc]
    exact Nat.mul_le_mul_right _ hpage
  have hsize : (page + 1) * (shape.rows * shape.cols) - page * (shape.rows * shape.cols) =
      shape.rows * shape.cols := by
    rw [Nat.succ_mul, Nat.add_sub_cancel_left]
  unfold pageAt
  dsimp only
  rw [Array.getElem?_extract, size_ofCells, rows_ofCells, cols_ofCells, Nat.min_eq_left hlast,
    hsize]
  split
  · rename_i hi
    -- the place in the page is that many whole rows further on in the buffer
    obtain ⟨hr, hc⟩ := div_lt_of_place hi
    have hplace : page * (shape.rows * shape.cols) + i =
        (page * shape.rows + i / shape.cols) * shape.cols + i % shape.cols := by
      rw [Nat.add_mul, Nat.mul_assoc, Nat.add_assoc, Nat.div_add_mod']
    rw [hplace]
    exact getElem?_place (place_lt hpage hr) hc
  · rfl

theorem pageCells_onEachPage {r : Nat} (hr : r < shape.rows) (c : Nat) :
    pageCells shape.rows (onEachPage shape.rows transform f) page r c =
      transform (pageCells shape.rows f page) r c := by
  rw [pageCells, onEachPage, place_div hr, place_mod hr]

/-- The step at a page replaces the cells of that page by what it makes of them, and keeps all other
cells. -/
def ActsOnPage (shape : Shape) (kind : NumericKind) (height : Nat)
    (transform : (Nat → Nat → α) → Nat → Nat → α) (step : PagedMatrix α → Checked (PagedMatrix α))
    (page : Nat) : Prop :=
  ∀ f, step (ofCells shape kind height f) = .ok (ofCells shape kind height
    fun r c => if page * shape.rows ≤ r ∧ r < (page + 1) * shape.rows then
      transform (pageCells shape.rows f page) (r - page * shape.rows) c else f r c)

/-- A loop over the pages, each step of which acts on its own page, transforms every page. -/
theorem ascend_pages {step : Nat → PagedMatrix α → Checked (PagedMatrix α)}
    (hstep : ∀ page < count,
      ActsOnPage shape kind (count * shape.rows) transform (step page) page) :
    ascend 0 count (ofCells shape kind (count * shape.rows) f) step =
      .ok (ofCells shape kind (count * shape.rows) (onEachPage shape.rows transform f)) := by
  -- before `page`, the pages up to it are transformed and the others are not
  refine ascend_ofCells (fun page r c =>
    if r < page * shape.rows then onEachPage shape.rows transform f r c else f r c)
    (Nat.zero_le _) ?_ ?_ ?_
  · intro r c _ _
    exact (if_neg (by omega)).symm
  · intro r c hr _
    exact if_pos hr
  intro page _ hpage
  rw [hstep page hpage]
  refine congrArg Except.ok (ofCells_congr fun r c _ _ => ?_)
  have hnext : (page + 1) * shape.rows = page * shape.rows + shape.rows := Nat.succ_mul _ _
  have hcells : pageCells shape.rows (fun r c =>
      if r < page * shape.rows then onEachPage shape.rows transform f r c else f r c) page =
      pageCells shape.rows f page := by
    funext r c
    exact if_neg (by omega)
  rw [hcells]
  rcases Nat.lt_or_ge r (page * shape.rows) with hbefore | hge
  · rw [if_neg (by omega), if_pos hbefore, if_pos (by omega)]
  rcases Nat.lt_or_ge r ((page + 1) * shape.rows) with hin | hafter
  · obtain ⟨i, rfl⟩ : ∃ i, r = page * shape.rows + i := ⟨r - page * shape.rows, by omega⟩
    have hi : i < shape.rows := by omega
    rw [if_pos ⟨hge, hin⟩, if_pos hin, Nat.add_sub_cancel_left]
    exact (pageCells_onEachPage hi c).symm
  · rw [if_neg (by omega), if_neg (by omega), if_neg (by omega)]

/-- A loop over the pages takes on every page the step that its own steps take on their pages. -/
theorem pagewise_ascend {step : Nat → PagedMatrix α → Checked (PagedMatrix α)}
    {own : PagedMatrix α → Checked (PagedMatrix α)}
    (hstep : ∀ page < count, ActsOnPage shape kind (count * shape.rows) transform (step page) page)
    (hown : ∀ g, own (ofCells { rows := shape.rows, cols := shape.cols } kind shape.rows g) =
      .ok (ofCells { rows := shape.rows, cols := shape.cols } kind shape.rows (transform g))) :
    ∃ b, ascend 0 count (ofCells shape kind (count * shape.rows) f) step = .ok b ∧
      Pagewise count own (ofCells shape kind (count * shape.rows) f) b := by
  refine ⟨_, ascend_pages hstep, rfl, rfl, by simp, fun page hpage => ?_⟩
  rw [pageAt_ofCells hpage, pageAt_ofCells hpage, hown]
  exact congrArg Except.ok (ofCells_congr fun r c hr _ => (pageCells_onEachPage hr c).symm)

end Cells

/-! ## Reflections act on their page -/

section Reflections

variable {ρ : Type} [Scalar α ρ] {shape : Shape} {kind : NumericKind} {count page : Nat}
  {v : Array α} {tau : α} {row col : Nat}

/-- What a reflection from the left makes of the cells of a page. -/
def pageReflected (v : Array α) (tau : α) (row col cols : Nat) (g : Nat → Nat → α) :
    Nat → Nat → α :=
  overwrite row (row + v.size) col cols (reflected v tau row g) g

/-- What a reflection from the right makes of the cells of a page of the given number of rows. -/
def pageReflectedRows (v : Array α) (tau : α) (row rows col : Nat) (g : Nat → Nat → α) :
    Nat → Nat → α :=
  overwrite row rows col (col + v.size) (reflectedRows v tau col g) g

/-- A reflection from the left that begins further down on a page is one of the page. -/
theorem reflected_pageCells (v : Array α) (tau : α) (row : Nat) (f : Nat → Nat → α)
    (rows r c : Nat) :
    reflected v tau (page * rows + row) f (page * rows + r) c =
      reflected v tau row (pageCells rows f page) r c := by
  have hfactor : columnFactor v tau (page * rows + row) f c =
      columnFactor v tau row (pageCells rows f page) c := by
    unfold columnFactor pageCells
    simp only [Nat.add_assoc]
  rw [reflected, reflected, hfactor, Nat.add_sub_add_left]
  rfl

/-- A page of a reflection of every page from the left. -/
theorem reflectLeft_actsOnPage (hpage : page < count) (hrow : row + v.size ≤ shape.rows)
    (hlimit : page * shape.rows + row < Size.limit) :
    ActsOnPage shape kind (count * shape.rows) (pageReflected v tau row col shape.cols)
      (fun a => do
        a.reflectLeft v tau
          (← PageLayout.rowOf ⟨shape.rows, shape.cols, count⟩ page row) col) page := by
  intro f
  have hnext : (page + 1) * shape.rows = page * shape.rows + shape.rows := Nat.succ_mul _ _
  have hend : (page + 1) * shape.rows ≤ count * shape.rows := Nat.mul_le_mul_right _ hpage
  unfold reflectLeft
  dsimp only
  rw [rowOf_eq_ok hlimit, ok_bind, reflectColumns_ofCells (by dsimp only; omega), cols_ofCells,
    Nat.min_self]
  refine congrArg Except.ok (ofCells_congr fun r c _ _ => ?_)
  dsimp only
  by_cases hin : page * shape.rows ≤ r ∧ r < (page + 1) * shape.rows
  · obtain ⟨i, rfl⟩ : ∃ i, r = page * shape.rows + i := ⟨r - page * shape.rows, by omega⟩
    rw [if_pos hin, Nat.add_sub_cancel_left]
    unfold pageReflected overwrite
    rw [reflected_pageCells]
    split_ifs <;> first | rfl | omega
  · rw [if_neg hin]
    exact if_neg (by omega)

/-- A page of a reflection of every page from the right. -/
theorem reflectRows_actsOnPage (hpage : page < count) (hcol : col + v.size ≤ shape.cols)
    (hcols : shape.cols < Size.limit) (hheight : count * shape.rows < Size.limit)
    (hlimit : page * shape.rows + row < Size.limit) :
    ActsOnPage shape kind (count * shape.rows) (pageReflectedRows v tau row shape.rows col)
      (fun a => do
        let rows ← PageLayout.rowsOf ⟨shape.rows, shape.cols, count⟩ page
        a.reflectRows v tau (← Size.add rows.1 row) rows.2 col) page := by
  intro f
  have hnext : (page + 1) * shape.rows = page * shape.rows + shape.rows := Nat.succ_mul _ _
  have hend : (page + 1) * shape.rows ≤ count * shape.rows := Nat.mul_le_mul_right _ hpage
  dsimp only
  rw [rowsOf_eq_ok (by dsimp only; omega), ok_bind]
  dsimp only
  rw [Size.add_eq_ok hlimit, ok_bind, reflectRows_ofCells hcol (by omega) hcols hheight]
  refine congrArg Except.ok (ofCells_congr fun r c _ _ => ?_)
  by_cases hin : page * shape.rows ≤ r ∧ r < (page + 1) * shape.rows
  · obtain ⟨i, rfl⟩ : ∃ i, r = page * shape.rows + i := ⟨r - page * shape.rows, by omega⟩
    rw [if_pos hin, Nat.add_sub_cancel_left]
    unfold pageReflectedRows overwrite
    split_ifs <;> first | rfl | omega
  · rw [if_neg hin]
    exact if_neg (by omega)

/-- The stacked rows at which a reflection of every page begins, and from the right those after the
last one of each page, are machine words. -/
structure Addressable (side : Side) (a : PagedMatrix α) (count row : Nat) : Prop where
  /-- So is the row where the reflection begins on the last page. -/
  begins : (count - 1) * a.rows + row < Size.limit
  /-- So is the number of all rows, if the reflection is applied from the right. -/
  stops : side = .right → count * a.rows < Size.limit

/-- The rows or columns that a reflection reaches are those of a page. -/
def WithinPage (side : Side) (a : PagedMatrix α) (v : Array α) (row col : Nat) : Prop :=
  match side with
  | .left => row + v.size ≤ a.rows
  | .right => col + v.size ≤ a.cols

variable {a : PagedMatrix α} {side : Side}

theorem reflectPages_pagewise (ha : a.Stored) (hpages : a.pages = .ok count)
    (haddress : Addressable side a count row) (hreach : WithinPage side a v row col) :
    ∃ b, reflectPages side a v tau row col = .ok b ∧
      Pagewise count (fun page => reflect side page v tau row col) a b := by
  obtain ⟨hbegins, hstops⟩ := haddress
  have hproduct : count = a.shape.trailing.foldl (· * ·) 1 := Size.foldlM_mul_eq_ok hpages
  have hsize : a.data.size = count * a.rows * a.cols := by
    rw [ha.wellFormed.data_size, ← hproduct, Nat.mul_comm, Nat.mul_assoc]
  have hlayout : a.layout = .ok ⟨a.rows, a.cols, count⟩ := layout_of_pages hpages
  have hcells := eq_ofCells_cell hsize
  have hrow : ∀ page < count, page * a.rows + row < Size.limit := by
    intro page hpage
    have hle : page * a.rows ≤ (count - 1) * a.rows := Nat.mul_le_mul_right _ (by omega)
    omega
  generalize a.cell = f at hcells
  cases side with
  | left =>
    unfold reflectPages reflectPagesLeft
    dsimp only
    rw [hlayout, ok_bind, hcells]
    refine pagewise_ascend (fun page hpage =>
      reflectLeft_actsOnPage hpage hreach (hrow page hpage)) fun g => ?_
    unfold reflect reflectLeft
    dsimp only
    rw [reflectColumns_ofCells hreach, cols_ofCells, Nat.min_self]
    rfl
  | right =>
    have hheight := hstops rfl
    unfold reflectPages reflectPagesRight
    dsimp only
    rw [hlayout, ok_bind, hcells]
    refine pagewise_ascend (fun page hpage =>
      reflectRows_actsOnPage hpage hreach ha.cols_lt hheight (hrow page hpage)) fun g => ?_
    exact reflectRows_ofCells hreach (Nat.le_refl _) ha.cols_lt ha.rows_lt

/-- The reflection of a column or row is built from the first page alone. It begins at `k` and
reaches the end of the page at most. -/
theorem ofSide_pageAt {extent k : Nat} (ha : a.Stored) (hheight : a.height = .ok (count * a.rows))
    (hlimit : count * a.rows < Size.limit) (hcount : 0 < count) (hextent : k < extent)
    (hk : k < min a.rows a.cols) :
    ∃ h, Reflection.ofSide side a (cutExtent side ⟨a.rows, a.cols, count⟩ extent) k = .ok h ∧
      Reflection.ofSide side (a.pageAt 0) (cutExtent side ⟨a.rows, a.cols, count⟩ extent) k =
        .ok h ∧ WithinPage side a h.v k k := by
  obtain ⟨hrows, hcols⟩ := lt_min_iff.1 hk
  have hfirst : a.rows ≤ count * a.rows := Nat.le_mul_of_pos_left _ hcount
  have hcells := ha.eq_ofCells hheight
  have hpage : a.pageAt 0 = ofCells { rows := a.rows, cols := a.cols } a.kind a.rows a.cell := by
    have hstart : pageCells a.rows a.cell 0 = a.cell := by
      funext r c
      rw [pageCells, Nat.zero_mul, Nat.zero_add]
    have h : (ofCells a.shape a.kind (count * a.rows) a.cell).pageAt 0 = _ :=
      pageAt_ofCells hcount
    rwa [← hcells, hstart] at h
  have hfits : Fits α (a.rows * a.cols) := by
    refine ha.fits.mono ?_
    rw [PagedMatrix.size, ha.size_eq hheight]
    exact Nat.mul_le_mul_right _ hfirst
  rw [hpage]
  cases side with
  | left =>
    have hstop : k < min extent a.rows := lt_min hextent hrows
    have hend : min extent a.rows ≤ a.rows := Nat.min_le_right _ _
    have hroom : Fits α (min extent a.rows) :=
      hfits.mono (hend.trans (Nat.le_mul_of_pos_right _ (Nat.zero_lt_of_lt hcols)))
    have hbuilt : Reflection.ofColumn (ofCells a.shape a.kind (count * a.rows) a.cell)
        (min extent a.rows) k = .ok _ :=
      Reflection.ofColumn_ofCells hstop (hend.trans hfirst) hcols (hend.trans_lt ha.rows_lt) hroom
    rw [← hcells] at hbuilt
    refine ⟨_, hbuilt,
      Reflection.ofColumn_ofCells hstop hend hcols (hend.trans_lt ha.rows_lt) hroom, ?_⟩
    have hsize := Reflection.size_atColumn a.cell hstop
    unfold WithinPage
    dsimp only
    omega
  | right =>
    have hstop : k < min extent a.cols := lt_min hextent hcols
    have hend : min extent a.cols ≤ a.cols := Nat.min_le_right _ _
    have hroom : Fits α (min extent a.cols) :=
      hfits.mono (hend.trans (Nat.le_mul_of_pos_left _ (Nat.zero_lt_of_lt hrows)))
    have hbuilt : Reflection.ofRow (ofCells a.shape a.kind (count * a.rows) a.cell)
        (min extent a.cols) k = .ok _ :=
      Reflection.ofRow_ofCells hstop hend (hrows.trans_le hfirst) (hend.trans_lt ha.cols_lt) hlimit
        hroom
    rw [← hcells] at hbuilt
    refine ⟨_, hbuilt, Reflection.ofRow_ofCells hstop hend hrows (hend.trans_lt ha.cols_lt)
      ha.rows_lt hroom, ?_⟩
    have hsize := Reflection.size_atRow a.cell hstop
    unfold WithinPage
    dsimp only
    omega

/-- Every page is reflected as it would be as a matrix of its own, by a reflection that is given or
by that of a column or row of the first page. -/
theorem reflections_pagewise (ha : a.Stored) :
    (∀ side count v tau row col, a.pages = .ok count → Addressable side a count row →
      WithinPage side a v row col → ∃ b, reflectPages side a v tau row col = .ok b ∧
        Pagewise count (fun page => reflect side page v tau row col) a b) ∧
    (a.HasPage → ∀ side extent k, k < extent → k < min a.rows a.cols →
      ∃ count h b, a.pages = .ok count ∧ reflectPagesStep side a extent k = .ok (b, h) ∧
        Reflection.ofSide side (a.pageAt 0) (cutExtent side ⟨a.rows, a.cols, count⟩ extent) k =
          .ok h ∧
        Pagewise count (fun page => reflect side page h.v h.tau k k) a b) := by
  refine ⟨fun side count v tau row col => reflectPages_pagewise ha,
    fun hpage side extent k hextent hk => ?_⟩
  obtain ⟨hrows, hcols⟩ := lt_min_iff.1 hk
  obtain ⟨height, hfirst, -, -, hheight⟩ := ha.exists_height hpage
  have hheight := hheight (Nat.zero_lt_of_lt hrows) (Nat.zero_lt_of_lt hcols)
  obtain ⟨count, hpages, rfl, hlimit⟩ := exists_pages hheight
  have hcount : 0 < count := Nat.pos_of_mul_pos_right (Nat.zero_lt_of_lt (hrows.trans_le hfirst))
  have hlayout : a.layout = .ok ⟨a.rows, a.cols, count⟩ := layout_of_pages hpages
  obtain ⟨h, hbuilt, hfirstPage, hreach⟩ :
      ∃ h, Reflection.ofSide side a (cutExtent side ⟨a.rows, a.cols, count⟩ extent) k = .ok h ∧ _ :=
    ofSide_pageAt ha hheight hlimit hcount hextent hk
  have haddress : Addressable side a count k := by
    refine ⟨?_, fun _ => hlimit⟩
    have hlast : (count - 1) * a.rows + k < count * a.rows := place_lt (by omega) hrows
    exact hlast.trans hlimit
  obtain ⟨b, hb, hpagewise⟩ : ∃ b, reflectPages side a h.v h.tau k k = .ok b ∧ _ :=
    reflectPages_pagewise ha hpages haddress hreach
  refine ⟨count, h, b, hpages, ?_, hfirstPage, hpagewise⟩
  unfold reflectPagesStep
  rw [hlayout, ok_bind, hbuilt, ok_bind, hb, ok_bind]
  rfl

/-- Reflections of two pages of three rows and two columns, and of every page by that of the second
row of the first page. -/
theorem reflections_pagewise_twoPages :
    twoPages.Stored ∧ twoPages.pages = .ok 2 ∧
      (∃ b, reflectPages .left twoPages #[1, 2] 3 1 0 = .ok b ∧
        Pagewise 2 (fun page => reflect .left page #[1, 2] 3 1 0) twoPages b) ∧
      (∃ b, reflectPages .right twoPages #[1, 2] 3 2 0 = .ok b ∧
        Pagewise 2 (fun page => reflect .right page #[1, 2] 3 2 0) twoPages b) ∧
      twoPages.HasPage ∧ ∃ count h b, twoPages.pages = .ok count ∧
        reflectPagesStep .right twoPages 5 1 = .ok (b, h) ∧
        Reflection.ofSide .right (twoPages.pageAt 0) (cutExtent .right ⟨3, 2, count⟩ 5) 1 = .ok h ∧
        Pagewise count (fun page => reflect .right page h.v h.tau 1 1) twoPages b := by
  obtain ⟨hgiven, hbuilt⟩ := reflections_pagewise stored_twoPages
  have hpage : twoPages.HasPage := by decide
  exact ⟨stored_twoPages, rfl,
    hgiven .left 2 #[1, 2] 3 1 0 rfl ⟨by decide, fun _ => by decide⟩ (by decide : 1 + 2 ≤ 3),
    hgiven .right 2 #[1, 2] 3 2 0 rfl ⟨by decide, fun _ => by decide⟩ (by decide : 0 + 2 ≤ 2),
    hpage, hbuilt hpage .right 5 1 (by decide) (by decide)⟩

/-- Where the pages cannot be counted, or the row at which the reflection would begin on the second
page is not a machine word, there is an overflow, although no page has anything to reflect. -/
theorem reflectPages_overflow :
    (Lu.uncountedPages.Stored ∧ WithinPage .left Lu.uncountedPages #[1] 0 0 ∧
      Lu.uncountedPages.reflectPagesLeft #[1] 1 0 0 = .error .overflow) ∧
    twoPages.Stored ∧ twoPages.pages = .ok 2 ∧ WithinPage .right twoPages #[1] (2 ^ 64 - 1) 0 ∧
      (∀ page, (twoPages.pageAt page).reflectRight #[1] 2 (2 ^ 64 - 1) 0 =
        .ok (twoPages.pageAt page)) ∧
      twoPages.reflectPagesRight #[1] 2 (2 ^ 64 - 1) 0 = .error .overflow := by
  -- a page has no row that far down
  have hskip : ∀ page, (twoPages.pageAt page).reflectRight #[1] 2 (2 ^ 64 - 1) 0 =
      .ok (twoPages.pageAt page) := by
    intro page
    have hbeyond : (twoPages.pageAt page).rows ≤ 2 ^ 64 - 1 := by
      change 3 ≤ 2 ^ 64 - 1
      decide
    unfold reflectRight reflectRows
    rw [ascend_of_le hbeyond]
    exact ite_self _
  refine ⟨⟨⟨rfl, by decide, by decide, by decide⟩, (by decide : 0 + 1 ≤ 1), rfl⟩, stored_twoPages,
    rfl, (by decide : 0 + 1 ≤ 2), hskip, ?_⟩
  rfl

end Reflections

end PagedMatrix

end DenseLinear
