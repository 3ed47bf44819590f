import DenseLinear.Lu.Solve
import DenseLinear.Proofs.Unpacking

/-!
# Substitution cell by cell

What solving with packed factors leaves in each cell, for entries without any laws. Each column of
the right-hand side goes its own way: it is put into the order of the rows of the factors, forward
substitution replaces its rows from the first one on (`lowerColumn`), and back substitution from the
last one on (`upperColumn`). A row takes off the products with the rows that are solved already,
except where the entry of the triangle is zero (`takeOffSkipping`).

`solveFactored_ofCells` puts the three together (`solvedColumn`).
-/

namespace DenseLinear

namespace Lu

open PagedMatrix

variable {α ρ : Type} [Scalar α ρ]

/-! ## Columns -/

/-- The value `acc` less the products `x l * y l` for `l = start, …, stop - 1` with `x l` other than
zero, taken off one after the other. -/
def takeOffSkipping (x y : Nat → α) (start stop : Nat) (acc : α) : α :=
  (List.range' start (stop - start)).foldl
    (fun acc l => if x l == 0 then acc else acc - x l * y l) acc

theorem takeOffSkipping_self (x y : Nat → α) (start : Nat) (acc : α) :
    takeOffSkipping x y start start acc = acc := by
  simp [takeOffSkipping]

theorem takeOffSkipping_succ (x y : Nat → α) {start stop : Nat} (h : start ≤ stop) (acc : α) :
    takeOffSkipping x y start (stop + 1) acc =
      if x stop == 0 then takeOffSkipping x y start stop acc
      else takeOffSkipping x y start stop acc - x stop * y stop := by
  unfold takeOffSkipping
  rw [Nat.sub_add_comm h, List.range'_concat, List.foldl_append, Nat.one_mul,
    Nat.add_sub_cancel' h]
  rfl

/-- A column of right-hand sides after its first `count` rows have been replaced by the solution of
`L * x = b`, where `L` has ones on its diagonal. -/
def lowerColumn (L : Nat → Nat → α) (b : Nat → α) : Nat → Nat → α
  | 0 => b
  | count + 1 =>
    let x := lowerColumn L b count
    Function.update x count (takeOffSkipping (L count) x 0 count (x count))

/-- A column of `n` right-hand sides after its last `count` rows have been replaced by the solution
of `U * x = y`. -/
def upperColumn (U : Nat → Nat → α) (n : Nat) (y : Nat → α) : Nat → Nat → α
  | 0 => y
  | count + 1 =>
    let x := upperColumn U n y count
    let i := n - (count + 1)
    Function.update x i (Scalar.quotient (takeOffSkipping (U i) x (i + 1) n (x i)) (U i i))

theorem takeOffSkipping_congr {x y y' : Nat → α} {start stop : Nat}
    (hy : ∀ l, start ≤ l → l < stop → y l = y' l) (acc : α) :
    takeOffSkipping x y start stop acc = takeOffSkipping x y' start stop acc := by
  unfold takeOffSkipping
  refine List.foldl_ext _ _ _ fun acc l hl => ?_
  rw [List.mem_range'_1] at hl
  rw [hy l hl.1 (by omega)]

/-- Forward substitution leaves the rows alone that it has not come to. -/
theorem lowerColumn_of_le (L : Nat → Nat → α) (b : Nat → α) {count r : Nat} (hr : count ≤ r) :
    lowerColumn L b count r = b r := by
  induction count with
  | zero => rfl
  | succ count ih =>
    rw [lowerColumn, Function.update_of_ne (by omega), ih (by omega)]

/-- A row of the solution takes off the products with the rows of the solution before it. -/
theorem lowerColumn_of_lt (L : Nat → Nat → α) (b : Nat → α) {count r : Nat} (hr : r < count) :
    lowerColumn L b count r = takeOffSkipping (L r) (lowerColumn L b count) 0 r (b r) := by
  induction count with
  | zero => omega
  | succ count ih =>
    -- the rows before row `r` are the same before and after the last step
    have hbefore : ∀ l, 0 ≤ l → l < r →
        lowerColumn L b count l = lowerColumn L b (count + 1) l := fun l _ hl => by
      rw [lowerColumn, Function.update_of_ne (by omega)]
    rw [← takeOffSkipping_congr hbefore, lowerColumn]
    rcases Nat.lt_or_ge r count with hlt | hge
    · rw [Function.update_of_ne (by omega), ih hlt]
    · obtain rfl : r = count := by omega
      rw [Function.update_self, lowerColumn_of_le L b (Nat.le_refl r)]

/-- Back substitution leaves the rows alone that it has not come to. -/
theorem upperColumn_of_lt (U : Nat → Nat → α) (y : Nat → α) {n count r : Nat} (hr : r < n - count) :
    upperColumn U n y count r = y r := by
  induction count with
  | zero => rfl
  | succ count ih =>
    rw [upperColumn, Function.update_of_ne (by omega), ih (by omega)]

/-- A row of the solution takes off the products with the rows of the solution after it, and is
divided by the entry on the diagonal. -/
theorem upperColumn_of_le (U : Nat → Nat → α) (y : Nat → α) {n count r : Nat} (hcount : count ≤ n)
    (hr : n - count ≤ r) (hr' : r < n) :
    upperColumn U n y count r =
      Scalar.quotient (takeOffSkipping (U r) (upperColumn U n y count) (r + 1) n (y r)) (U r r) := by
  induction count with
  | zero => omega
  | succ count ih =>
    -- the rows after row `r` are the same before and after the last step
    have hafter : ∀ l, r + 1 ≤ l → l < n →
        upperColumn U n y count l = upperColumn U n y (count + 1) l := fun l hl _ => by
      rw [upperColumn, Function.update_of_ne (by omega)]
    rw [← takeOffSkipping_congr hafter, upperColumn]
    rcases Nat.lt_or_ge (n - (count + 1)) r with hlt | hge
    · rw [Function.update_of_ne (by omega), ih (by omega) (by omega)]
    · obtain rfl : r = n - (count + 1) := by omega
      rw [Function.update_self, upperColumn_of_lt U y (by omega)]

/-- The solution for a column of `n` right-hand sides, with the factors packed in `f` and the
pivots `p`. -/
def solvedColumn (n : Nat) (f : Nat → Nat → α) (p : Nat → Nat) (b : Nat → α) : Nat → α :=
  upperColumn f n (lowerColumn f (fun r => b (interchanges p n r)) n) n

/-! ## Rows -/

section Rows

variable {shape : Shape} {kind : NumericKind} {height : Nat} {f : Nat → Nat → α}

/-- A multiple of a row is taken off another one, unless the factor is zero. -/
theorem subtractRow_ofCells {i l : Nat} {factor : α} (hi : i < height) (hl : l < height)
    (hne : l ≠ i) :
    subtractRow (ofCells shape kind height f) i l shape.cols factor =
      .ok (ofCells shape kind height fun r c =>
        if r = i then if factor == 0 then f i c else f i c - factor * f l c else f r c) := by
  unfold subtractRow
  by_cases hzero : (factor == 0) = true
  · rw [if_pos hzero]
    refine congrArg Except.ok (ofCells_congr fun r c _ _ => ?_)
    rw [if_pos hzero]
    split
    · rename_i h
      rw [h]
    · rfl
  · rw [if_neg hzero]
    simp only [hzero, Bool.false_eq_true, if_false]
    -- the columns before `j` have lost the multiple of the other row
    refine ascend_ofCells
      (fun j r c => if r = i ∧ c < j then f i c - factor * f l c else f r c) (Nat.zero_le _)
      (fun r c _ _ => (if_neg (by omega)).symm) ?_ ?_
    · intro r c _ hc
      simp only [hc, and_true]
    intro j _ hj
    rw [get_ofCells hl hj, ok_bind, get_ofCells hi hj, ok_bind, set_ofCells hi hj]
    refine congrArg Except.ok (ofCells_congr fun r c _ _ => ?_)
    rw [if_neg (by omega), if_neg (by omega)]
    unfold setCell
    by_cases h : r = i ∧ c = j
    · obtain ⟨rfl, rfl⟩ := h
      rw [if_pos ⟨rfl, rfl⟩, if_pos (by omega)]
    · have h' : r = i ∧ c < j + 1 ↔ r = i ∧ c < j := by omega
      rw [if_neg h]
      simp only [h']

/-- The products with the rows `[start, stop)` are taken off row `i`. -/
theorem subtractRows_ofCells {luShape : Shape} {luKind : NumericKind} {luHeight : Nat}
    {g : Nat → Nat → α} {i start stop : Nat} (hi : i < height) (hi' : i < luHeight)
    (hle : start ≤ stop) (hstop : stop ≤ height) (hcols : stop ≤ luShape.cols)
    (hout : i < start ∨ stop ≤ i) :
    ascend start stop (ofCells shape kind height f) (fun l x => do
        subtractRow x i l x.cols (← (ofCells luShape luKind luHeight g).get i l)) =
      .ok (ofCells shape kind height fun r c =>
        if r = i then takeOffSkipping (g i) (fun l => f l c) start stop (f i c) else f r c) := by
  refine ascend_ofCells (fun l r c => if r = i then
    takeOffSkipping (g i) (fun l => f l c) start l (f i c) else f r c) hle ?_ (fun r c _ _ => rfl) ?_
  · intro r c _ _
    dsimp only
    rw [takeOffSkipping_self]
    split
    · rename_i h
      rw [h]
    · rfl
  intro l hl hl'
  rw [get_ofCells hi' (by omega), ok_bind, cols_ofCells,
    subtractRow_ofCells hi (by omega) (by omega)]
  refine congrArg Except.ok (ofCells_congr fun r c _ _ => ?_)
  -- row `l` is another row, so it holds what it held before
  rw [if_pos rfl, if_neg (show l ≠ i by omega), takeOffSkipping_succ _ _ hl]
  split <;> rfl

/-- A row is divided by the entry on the diagonal. -/
theorem divideRow_ofCells {i : Nat} {pivot : α} (hi : i < height) :
    ascend 0 shape.cols (ofCells shape kind height f) (fun j x => do
        x.set i j (Scalar.quotient (← x.get i j) pivot)) =
      .ok (ofCells shape kind height fun r c =>
        if r = i then Scalar.quotient (f i c) pivot else f r c) := by
  refine ascend_ofCells
    (fun j r c => if r = i ∧ c < j then Scalar.quotient (f i c) pivot else f r c) (Nat.zero_le _)
    (fun r c _ _ => (if_neg (by omega)).symm) ?_ ?_
  · intro r c _ hc
    simp only [hc, and_true]
  intro j _ hj
  rw [get_ofCells hi hj, ok_bind, set_ofCells hi hj, if_neg (by omega)]
  refine congrArg Except.ok (ofCells_congr fun r c _ _ => ?_)
  unfold setCell
  by_cases h : r = i ∧ c = j
  · obtain ⟨rfl, rfl⟩ := h
    rw [if_pos ⟨rfl, rfl⟩, if_pos (by omega)]
  · have h' : r = i ∧ c < j + 1 ↔ r = i ∧ c < j := by omega
    rw [if_neg h]
    simp only [h']

end Rows

/-! ## Triangles -/

section Triangles

variable {shape luShape : Shape} {kind luKind : NumericKind} {height n : Nat}
  {f g : Nat → Nat → α}

/-- Forward substitution solves one row after the other, in all columns. -/
theorem solveLowerRows_ofCells (hheight : n ≤ height) (hcols : n ≤ luShape.cols) :
    solveLowerRows (ofCells luShape luKind n g) n (ofCells shape kind height f) =
      .ok (ofCells shape kind height fun r c => lowerColumn g (fun i => f i c) n r) := by
  refine ascend_ofCells (fun i r c => lowerColumn g (fun r => f r c) i r) (Nat.zero_le _)
    (fun r c _ _ => rfl) (fun r c _ _ => rfl) ?_
  intro i _ hi
  rw [subtractRows_ofCells (by omega) hi (Nat.zero_le i) (by omega) (by omega) (.inr (Nat.le_refl i))]
  refine congrArg Except.ok (ofCells_congr fun r c _ _ => ?_)
  simp only [lowerColumn, Function.update_apply]

/-- Back substitution solves one row after the other, from the last one on. -/
theorem solveUpperRows_ofCells (hheight : n ≤ height) (hcols : n ≤ luShape.cols) :
    solveUpperRows (ofCells luShape luKind n g) n (ofCells shape kind height f) =
      .ok (ofCells shape kind height fun r c => upperColumn g n (fun i => f i c) n r) := by
  unfold solveUpperRows
  refine descend_eq_ok
    (fun i => ofCells shape kind height fun r c => upperColumn g n (fun r => f r c) (n - i) r)
    (Nat.zero_le _) (by rw [Nat.sub_self]; rfl) rfl ?_
  intro i _ hi
  have hcount : n - i = n - (i + 1) + 1 := by omega
  have hrow : n - (n - (i + 1) + 1) = i := by omega
  refine bind_eq_ok (subtractRows_ofCells (by omega) hi (by omega) hheight hcols
    (.inl (Nat.lt_succ_self i))) ?_
  rw [get_ofCells hi (by omega), ok_bind, cols_ofCells, divideRow_ofCells (by omega)]
  refine congrArg Except.ok (ofCells_congr fun r c _ _ => ?_)
  simp only [hcount, upperColumn, hrow, Function.update_apply, if_true]
  split <;> rfl

end Triangles

/-! ## Solutions -/

section Solutions

variable {shape : Shape} {kind : NumericKind} {n : Nat} {f : Nat → Nat → α} {pivots : Array Nat}
  {p : Nat → Nat}

omit [Scalar α ρ] in
/-- One interchange of the right-hand sides, with a pivot that is a row. -/
theorem ends_interchange {i : Nat} (hi : i < n) (hread : pivots[i]? = some (p i)) (hlt : p i < n) :
    Ends (do
      let q ← checked (readAt pivots i)
      if n ≤ q then
        throw (.indexOutOfRange "getrs" q n)
      checked ((ofCells shape kind n fun r c => f (interchanges p i r) c).swapRows i q) :
        Fallible (PagedMatrix α))
      (· = ofCells shape kind n fun r c => f (interchanges p (i + 1) r) c) := by
  refine ends_bind (P := (p i = ·)) (ends_fallible ⟨_, readAt_of_getElem? hread, rfl⟩) ?_
  rintro _ rfl
  rw [if_neg (by omega)]
  exact ends_fallible ⟨_, swapRows_ofCells hi hlt, rfl⟩

omit [Scalar α ρ] in
/-- The rows of the right-hand sides are put into the order of the rows of the factors. -/
theorem interchangeAll_ofCells (hsize : pivots.size = n)
    (hp : ∀ i < n, pivots[i]? = some (p i) ∧ p i < n) :
    (interchangeAll pivots n (ofCells shape kind n f)).run =
      .ok (.ok (ofCells shape kind n fun r c => f (interchanges p n r) c)) := by
  refine ends_run_eq_iff.1 ?_
  unfold interchangeAll
  rw [hsize]
  refine ends_ascend (fun i x => x = ofCells shape kind n fun r c => f (interchanges p i r) c)
    (Nat.zero_le _) rfl ?_
  rintro i _ - hi rfl
  exact ends_interchange hi (hp i hi).1 (hp i hi).2

omit [Scalar α ρ] in
/-- A square matrix with a single page is admitted. -/
theorem requireSquare_eq_ok {routine : String} {a : PagedMatrix α} (hpage : a.SinglePage)
    (hsquare : a.cols = a.rows) : (requireSquare routine a).run = .ok (.ok ()) := by
  have hpages : a.pages = .ok 1 := hpage
  unfold requireSquare
  dsimp only
  rw [if_neg (not_not.2 hsquare), hpages]
  rfl

/-- Solving with packed factors solves each column of the right-hand sides. -/
theorem solveFactored_ofCells [RealArith ρ] {luShape : Shape} {luKind : NumericKind}
    {g : Nat → Nat → α} (hpages : luShape.pages = .ok 1) (hrows : luShape.rows = n)
    (hcols : luShape.cols = n) (hheight : shape.height = .ok n) (hsize : pivots.size = n)
    (hp : ∀ i < n, pivots[i]? = some (p i) ∧ p i < n) :
    (solveFactored (ofCells luShape luKind n g) pivots (ofCells shape kind n f)).run =
      .ok (.ok (ofCells shape kind n
        fun r c => solvedColumn n g p (fun i => f i c) r).refreshKind) := by
  refine ends_run_eq_iff.1 ?_
  unfold solveFactored
  refine ends_bind (ends_run_eq_iff.2 (requireSquare_eq_ok hpages (hcols.trans hrows.symm)))
    fun _ _ => ?_
  refine ends_bind (P := (n = ·)) (ends_fallible ⟨n, hheight, rfl⟩) ?_
  rintro _ rfl
  dsimp only
  rw [rows_ofCells, hrows, if_neg (not_not.2 rfl), if_neg (not_not.2 hsize)]
  refine ends_bind (ends_run_eq_iff.2 (interchangeAll_ofCells hsize hp)) ?_
  rintro _ rfl
  refine ends_bind (P := (_ = ·)) (ends_fallible ⟨_, solveLowerRows_ofCells (Nat.le_refl n)
    hcols.ge, rfl⟩) ?_
  rintro _ rfl
  refine ends_bind (P := (_ = ·)) (ends_fallible ⟨_, solveUpperRows_ofCells (Nat.le_refl n)
    hcols.ge, rfl⟩) ?_
  rintro _ rfl
  exact ends_pure rfl

/-- The solution that the factors of a square matrix give for right-hand sides. -/
def solution [RealArith ρ] (a b : PagedMatrix α) : PagedMatrix α :=
  (ofCells b.shape b.kind a.rows fun r c =>
    solvedColumn a.rows (finalStage a).cells (pivotsFound a.rows a.cols a.cell)
      (fun i => b.cell i c) r).refreshKind

/-- Solving with the factors of a square matrix. -/
theorem solveFactored_factored [RealArith ρ] {a b : PagedMatrix α} (hpage : a.SinglePage)
    (hsquare : a.cols = a.rows) (hb : b.Stored) (hheight : b.height = .ok a.rows) :
    (solveFactored (factored a).1 (factored a).2.pivots b).run = .ok (.ok (solution a b)) := by
  have hmin : min a.rows a.cols = a.rows := by omega
  calc (solveFactored (factored a).1 (factored a).2.pivots b).run
    _ = (solveFactored (factored a).1 (factored a).2.pivots
          (ofCells b.shape b.kind a.rows b.cell)).run := by
        rw [← hb.eq_ofCells hheight]
    _ = .ok (.ok (solution a b)) :=
        solveFactored_ofCells hpage rfl hsquare hheight ((size_pivots_finalStage a).trans hmin)
          fun _ hi => pivots_finalStage a (hmin.symm ▸ hi)

end Solutions

end Lu

end DenseLinear
