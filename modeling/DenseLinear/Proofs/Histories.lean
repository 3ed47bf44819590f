import DenseLinear.Proofs.Cells
import DenseLinear.Proofs.Frames
import DenseLinear.Real.Machine
import Mathlib.Algebra.BigOperators.Group.List.Basic
import Mathlib.Logic.Function.Basic
import Mathlib.Logic.Relation
import Mathlib.Tactic.Ring

/-!
# Histories of calls

A program holds matrices. A call either makes a new one (`Makes`) or works on one in place
(`Edits`); a call in place may be refused, and then leaves what it has made of its target so far. A
`History` is any sequence of such calls, with any arguments.

Whatever the history, a matrix that is held has a buffer of as many entries as its shape has cells:
a call that makes a matrix builds it so (`wellFormed_of_makes`), and a call in place keeps the shape
and the number of entries (`sameFrame_of_edits`). So where the stacked rows can be counted, the
cells of the shape are the entries of the buffer, one for one (`cells_of_wellFormed`).
-/

namespace DenseLinear

namespace PagedMatrix

variable {α ρ : Type} [RealArith ρ] [Scalar α ρ]

/-- A matrix that a call makes, from matrices that are held. -/
inductive Makes (held : List (PagedMatrix α)) : PagedMatrix α → Prop
  /-- From a single entry. -/
  | replicate {rows cols : Nat} {x : α} {b : PagedMatrix α} :
    Returns (replicate rows cols x) b → Makes held b
  /-- A zero matrix, of two dimensions or more. -/
  | zerosOf {shape : Shape} {b : PagedMatrix α} : Returns (zerosOf shape) b → Makes held b
  /-- An identity matrix. -/
  | identity {n : Nat} {b : PagedMatrix α} : Returns (identity n) b → Makes held b
  /-- An array of identity matrices. -/
  | identityOf {shape : Shape} {b : PagedMatrix α} : Returns (identityOf shape) b → Makes held b
  /-- From rows. -/
  | ofRows {rows : Array (Array α)} {b : PagedMatrix α} : Returns (ofRows rows) b → Makes held b
  /-- From pages. -/
  | ofPages {pages : Array (Array (Array α))} {b : PagedMatrix α} :
    Returns (ofPages pages) b → Makes held b
  /-- From a buffer. -/
  | ofBuffer {shape : Shape} {data : Array α} {b : PagedMatrix α} :
    Returns (ofBuffer shape data) b → Makes held b
  /-- From a column. -/
  | ofColumn {entries : Array α} : Makes held (ofColumn entries)
  /-- From a row. -/
  | ofRow {entries : Array α} : Makes held (ofRow entries)
  /-- From the sources of the columns. -/
  | columnPermutation {sources : Array Nat} {b : PagedMatrix α} :
    Returns (columnPermutation sources) b → Makes held b
  /-- A copy. -/
  | copy {a : PagedMatrix α} : a ∈ held → Makes held a
  /-- A rectangular block. -/
  | block {a b : PagedMatrix α} {r0 r1 c0 c1 : Nat} :
    a ∈ held → Returns (a.block r0 r1 c0 c1) b → Makes held b
  /-- The transpose. -/
  | transpose {a b : PagedMatrix α} : a ∈ held → Returns a.transpose b → Makes held b
  /-- The conjugate transpose. -/
  | adjoint {a b : PagedMatrix α} : a ∈ held → Returns a.adjoint b → Makes held b
  /-- A product. -/
  | product {a b c : PagedMatrix α} :
    a ∈ held → b ∈ held → Returns (a.product b) c → Makes held c
  /-- The packed factors of a QR factorisation. -/
  | factor {a : PagedMatrix α} {f : PackedQr α} :
    a ∈ held → Returns (Qr.factor a) f → Makes held f.packed
  /-- The packed factors of a pivoted QR factorisation of a copy. -/
  | factorPivoted {a : PagedMatrix α} {f : PackedPivotedQr α} :
    a ∈ held → Returns (Qr.factorPivoted .compact a) f → Makes held f.packed
  /-- The triangular factor of packed factors. -/
  | upperFactor {a b : PagedMatrix α} : a ∈ held → Returns (Qr.upperFactor a) b → Makes held b
  /-- The unitary factor of packed factors. -/
  | unitaryFactor {a b : PagedMatrix α} {taus : Array α} :
    a ∈ held → Returns (Qr.unitaryFactor a taus) b → Makes held b
  /-- The lower factor of packed factors. -/
  | lowerPart {a : PagedMatrix α} {pivots : Array Nat} {f : Lu.Factors α} :
    a ∈ held → Returns (Lu.unpack a pivots) f → Makes held f.lower
  /-- The upper factor of packed factors. -/
  | upperPart {a : PagedMatrix α} {pivots : Array Nat} {f : Lu.Factors α} :
    a ∈ held → Returns (Lu.unpack a pivots) f → Makes held f.upper
  /-- The permutation of packed factors. -/
  | permutation {a : PagedMatrix α} {pivots : Array Nat} {f : Lu.Factors α} :
    a ∈ held → Returns (Lu.unpack a pivots) f → Makes held f.permutation
  /-- The solution of a system by packed factors. -/
  | solveFactored {a b x : PagedMatrix α} {pivots : Array Nat} :
    a ∈ held → b ∈ held → Returns (Lu.solveFactored a pivots b) x → Makes held x
  /-- The solution of a system. -/
  | solve {a b x : PagedMatrix α} :
    a ∈ held → b ∈ held → Returns (Lu.solve a b) x → Makes held x
  /-- An inverse. -/
  | inverse {a x : PagedMatrix α} : a ∈ held → Returns (Lu.inverse a) x → Makes held x

/-- What a call in place that brings the kind of its target up to date makes of the target `a`. -/
inductive Refreshes (held : List (PagedMatrix α)) (a : PagedMatrix α) : PagedMatrix α → Prop
  /-- An update by a matrix product. -/
  | multiplyAdd {alpha beta : α} {x y b : PagedMatrix α} {m k n : Nat} {choice : BlockingChoice} :
    x ∈ held → y ∈ held → Returns (multiplyAdd alpha x m k y n beta a choice) b →
      Refreshes held a b
  /-- A rank-one update by plain vectors. -/
  | addConjOuter {x y : Array α} {b : PagedMatrix α} :
    Returns (addConjOuter x y a) b → Refreshes held a b
  /-- A rank-one update by vector-shaped matrices that are gathered first. -/
  | addConjOuterGathered {x y b : PagedMatrix α} :
    x ∈ held → y ∈ held → Returns (addConjOuterGathered x y a) b → Refreshes held a b
  /-- A rank-one update by vector-shaped matrices that are read where they are. -/
  | addConjOuterInPlace {x y b : PagedMatrix α} :
    x ∈ held → y ∈ held → Returns (addConjOuterInPlace x y a) b → Refreshes held a b
  /-- What lies below the diagonal is cleared. -/
  | keepUpper {b : PagedMatrix α} : Returns a.keepUpper b → Refreshes held a b
  /-- What lies above the diagonal is cleared. -/
  | keepLower {b : PagedMatrix α} : Returns a.keepLower b → Refreshes held a b
  /-- A pivoted QR factorisation. -/
  | factorPivoted {f : PackedPivotedQr α} :
    Returns (Qr.factorPivoted .raw a) f → Refreshes held a f.packed
  /-- An LU factorisation with updates by matrix products. -/
  | factorByProduct {choice : BlockingChoice} {f : PagedMatrix α × Lu.Record} :
    Returns (Lu.factorByProduct choice a) f → Refreshes held a f.1
  /-- An LU factorisation with updates in tiles. -/
  | factorByTiles {f : PagedMatrix α × Lu.Record} :
    Returns (Lu.factorByTiles a) f → Refreshes held a f.1
  /-- An LU factorisation with updates in tiles of a chosen edge length. -/
  | factorByTilesWith {choice : BlockingChoice} {f : PagedMatrix α × Lu.Record} :
    Returns (Lu.factorByTilesWith choice a) f → Refreshes held a f.1
  /-- An LU factorisation with a chosen update. -/
  | factor {update : Lu.TrailingUpdate} {f : PagedMatrix α × Lu.Record} :
    Returns (Lu.factor update a) f → Refreshes held a f.1

/-- What a call in place makes of its target `a`, whether it returns or is refused. -/
inductive Edits (held : List (PagedMatrix α)) (a : PagedMatrix α) : PagedMatrix α → Prop
  /-- A call that brings the kind up to date. -/
  | refreshed {b : PagedMatrix α} : Refreshes held a b → Edits held a b
  /-- The kind is brought up to date on its own. -/
  | refreshKind : Edits held a a.refreshKind
  /-- The matrix is marked as logical. -/
  | markLogical : Edits held a a.markLogical
  /-- The entries are overwritten at will. -/
  | overwrite {data : Array α} : data.size = a.size → Edits held a { a with data }
  /-- A cell is written. -/
  | set {r c : Nat} {x : α} {b : PagedMatrix α} : Returns (a.set r c x) b → Edits held a b
  /-- A row is written. -/
  | setRow {r : Nat} {entries : Array α} {b : PagedMatrix α} :
    Returns (a.setRow r entries) b → Edits held a b
  /-- Two rows are exchanged. -/
  | swapRows {r s : Nat} {b : PagedMatrix α} : Returns (a.swapRows r s) b → Edits held a b
  /-- Two rows are exchanged in some columns. -/
  | swapRowsWithin {r s start stop : Nat} {b : PagedMatrix α} :
    Returns (a.swapRowsWithin r s start stop) b → Edits held a b
  /-- Two columns are exchanged. -/
  | swapCols {c d : Nat} {b : PagedMatrix α} : Returns (a.swapCols c d) b → Edits held a b
  /-- A block is put in. -/
  | setBlock {r0 c0 : Nat} {part b : PagedMatrix α} :
    part ∈ held → Returns (a.setBlock r0 c0 part) b → Edits held a b
  /-- A segment of a column is scaled. -/
  | scaleColumn {alpha : α} {start stop col : Nat} {b : PagedMatrix α} :
    Returns (scaleColumn alpha a start stop col) b → Edits held a b
  /-- A rank-one update that leaves the kind as it is. -/
  | addOuter {x y : Array α} {b : PagedMatrix α} : Returns (addOuter x y a) b → Edits held a b
  /-- A rank-one update of a block by columns of other matrices. -/
  | addOuterBlock {row col m n : Nat} {alpha : α} {xs ys b : PagedMatrix α} {x y : ColumnStart} :
    xs ∈ held → ys ∈ held → Returns (a.addOuterBlock row col m n alpha xs x ys y) b →
      Edits held a b
  /-- The product of two tiles is added. -/
  | addTile {x y b : PagedMatrix α} {rows cols inner : Span} :
    x ∈ held → y ∈ held → Returns (addTile x y a rows cols inner) b → Edits held a b
  /-- A triangular system is solved by back substitution. -/
  | solveUpper {k width : Nat} {b : PagedMatrix α} :
    Returns (a.solveUpper k width) b → Edits held a b
  /-- A triangular system is solved by forward substitution. -/
  | solveUnitLower {k width : Nat} {b : PagedMatrix α} :
    Returns (a.solveUnitLower k width) b → Edits held a b
  /-- Recorded interchanges are made. -/
  | interchangeRows {first last : Nat} {pivots : Array Nat} {stride : Int}
    {window : Option (Nat × Nat)} {b : PagedMatrix α} :
    Returns (a.interchangeRows first last pivots stride window) b → Edits held a b
  /-- Recorded interchanges are made until one of them is refused. -/
  | interruptedInterchange {first last : Nat} {pivots : Array Nat} {stride : Int}
    {window : Option (Nat × Nat)} {stop : Interrupted (PagedMatrix α)} :
    Refused (a.interchangeRows first last pivots stride window) stop → Edits held a stop.target
  /-- Two rows of every page are exchanged. -/
  | exchangeRows {r s : Nat} {b : PagedMatrix α} : Returns (a.exchangeRows r s) b → Edits held a b
  /-- Such an exchange is refused. -/
  | refusedRows {r s : Nat} {stop : Interrupted (PagedMatrix α)} :
    Refused (a.exchangeRows r s) stop → Edits held a stop.target
  /-- Two columns are exchanged after a check. -/
  | exchangeCols {c d : Nat} {b : PagedMatrix α} : Returns (a.exchangeCols c d) b → Edits held a b
  /-- Such an exchange is refused. -/
  | refusedCols {c d : Nat} {stop : Interrupted (PagedMatrix α)} :
    Refused (a.exchangeCols c d) stop → Edits held a stop.target
  /-- A reflection is applied to some columns. -/
  | reflectColumns {v : Array α} {tau : α} {row start stop : Nat} {b : PagedMatrix α} :
    Returns (a.reflectColumns v tau row start stop) b → Edits held a b
  /-- A reflection is applied from one side. -/
  | reflect {side : Side} {v : Array α} {tau : α} {row col : Nat} {b : PagedMatrix α} :
    Returns (reflect side a v tau row col) b → Edits held a b
  /-- A reflection is applied to every page from one side. -/
  | reflectPages {side : Side} {v : Array α} {tau : α} {row col : Nat} {b : PagedMatrix α} :
    Returns (reflectPages side a v tau row col) b → Edits held a b
  /-- A reflection is built and applied. -/
  | reflectStep {side : Side} {k : Nat} {found : PagedMatrix α × Reflection α} :
    Returns (reflectStep side a k) found → Edits held a found.1
  /-- A reflection is built and applied to every page. -/
  | reflectPagesStep {side : Side} {extent k : Nat} {found : PagedMatrix α × Reflection α} :
    Returns (reflectPagesStep side a extent k) found → Edits held a found.1
  /-- A panel is eliminated. -/
  | eliminatePanel {k width : Nat} {pivots : Array Nat} {status : Lu.SweepStatus}
    {found : Lu.Sweep α} :
    Returns (Lu.eliminatePanel k width ⟨a, pivots, status⟩) found → Edits held a found.matrix
  /-- A panel is eliminated, and a missing pivot reported. -/
  | factorPanel {k width : Nat} {pivots : Array Nat} {status : Lu.SweepStatus}
    {found : Lu.Sweep α} :
    Returns (Lu.factorPanel k width ⟨a, pivots, status⟩) found → Edits held a found.matrix
  /-- The trailing block of a panel is updated in tiles. -/
  | updateByTiles {k width edge : Nat} {b : PagedMatrix α} :
    Returns (Lu.updateByTiles a k width edge) b → Edits held a b
  /-- An update by a matrix product is refused. -/
  | refusedProduct {alpha beta : α} {x y : PagedMatrix α} {m k n : Nat} {choice : BlockingChoice}
    {stop : Interrupted (PagedMatrix α)} :
    x ∈ held → y ∈ held → Refused (multiplyAdd alpha x m k y n beta a choice) stop →
      Edits held a stop.target
  /-- A rank-one update is refused. -/
  | refusedGathered {x y : PagedMatrix α} {stop : Interrupted (PagedMatrix α)} :
    x ∈ held → y ∈ held → Refused (addConjOuterGathered x y a) stop → Edits held a stop.target
  /-- A rank-one update is refused. -/
  | refusedInPlace {x y : PagedMatrix α} {stop : Interrupted (PagedMatrix α)} :
    x ∈ held → y ∈ held → Refused (addConjOuterInPlace x y a) stop → Edits held a stop.target
  /-- An LU factorisation is refused. -/
  | refusedByProduct {choice : BlockingChoice} {stop : Interrupted (PagedMatrix α)} :
    Refused (Lu.factorByProduct choice a) stop → Edits held a stop.target
  /-- An LU factorisation is refused. -/
  | refusedByTiles {choice : BlockingChoice} {stop : Interrupted (PagedMatrix α)} :
    Refused (Lu.factorByTilesWith choice a) stop → Edits held a stop.target
  /-- An LU factorisation is refused. -/
  | refusedFactor {update : Lu.TrailingUpdate} {stop : Interrupted (PagedMatrix α)} :
    Refused (Lu.factor update a) stop → Edits held a stop.target

/-- One call: a matrix is made, or one of those that are held is worked on in place. -/
inductive Call (held : List (PagedMatrix α)) : List (PagedMatrix α) → Prop
  /-- A new matrix is held from now on. -/
  | make {b : PagedMatrix α} : Makes held b → Call held (held ++ [b])
  /-- The matrix at a place is replaced by what the call makes of it. -/
  | edit {i : Nat} {a b : PagedMatrix α} :
    held[i]? = some a → Edits held a b → Call held (held.set i b)

/-- The matrices can be held after some sequence of calls. -/
def History (held : List (PagedMatrix α)) : Prop := Relation.ReflTransGen Call [] held

/-! ## What is made -/

section Made

omit [RealArith ρ] [Scalar α ρ] in
/-- A matrix with the frame of a well-formed one is well formed. -/
theorem wellFormed_of_sameFrame {m : Type → Type} {ε : Type} [Monad m]
    [MonadLiftT (Except Fault) m] [Outcomes m ε] {a : PagedMatrix α} {x : m (PagedMatrix α)}
    (ha : a.WellFormed) (h : ReturnsOnly x (SameFrame a)) : ReturnsOnly x WellFormed :=
  returnsOnly_mono h fun _ hb => hb.wellFormed ha

theorem returnsOnly_replicate (rows cols : Nat) (x : α) :
    ReturnsOnly (replicate rows cols x) WellFormed := by
  refine returnsOnly_bind (P := fun count => count = rows * cols) ?_ fun count hcount =>
    returnsOnly_then fun _ => returnsOnly_pure ?_
  · exact fun _ h => (Size.mul_eq_ok_iff.1 h).1
  · subst hcount
    simp [WellFormed, refreshKind, Shape.size, Shape.dims]

omit [RealArith ρ] in
theorem returnsOnly_zerosOf (shape : Shape) :
    ReturnsOnly (zerosOf shape : Checked (PagedMatrix α)) WellFormed :=
  fun _ h => (wellFormed_zerosOf h).1

omit [RealArith ρ] in
/-- What is written into a zero matrix is well formed. -/
theorem returnsOnly_zeros_bind {m : Type → Type} {ε : Type} [Monad m]
    [MonadLiftT (Except Fault) m] [Outcomes m ε] {rows cols : Nat}
    {f : PagedMatrix α → m (PagedMatrix α)} (hf : ∀ a, ReturnsOnly (f a) (SameFrame a)) :
    ReturnsOnly (checked (zeros rows cols) >>= f) WellFormed :=
  returnsOnly_bind (returnsOnly_checked (returnsOnly_zerosOf _))
    fun a ha => wellFormed_of_sameFrame ha (hf a)

omit [RealArith ρ] in
theorem returnsOnly_identity (n : Nat) :
    ReturnsOnly (identity n : Checked (PagedMatrix α)) WellFormed :=
  returnsOnly_zeros_bind fun _ => sameFrame_ascend fun i b => b.sameFrame_set i i 1

omit [RealArith ρ] in
theorem returnsOnly_identityOf (shape : Shape) :
    ReturnsOnly (identityOf shape : Checked (PagedMatrix α)) WellFormed :=
  returnsOnly_bind (returnsOnly_zerosOf shape) fun _ ha => wellFormed_of_sameFrame ha <|
    returnsOnly_then fun _ => sameFrame_ascend fun _ _ => sameFrame_ascend fun i b =>
      returnsOnly_then fun r => b.sameFrame_set r i 1

theorem returnsOnly_ofRows (rows : Array (Array α)) : ReturnsOnly (ofRows rows) WellFormed :=
  returnsOnly_zeros_bind fun _ => sameFrame_refreshKind <| sameFrame_ascend fun i _ =>
    returnsOnly_then fun _ => sameFrame_ascend fun j b => returnsOnly_then fun x =>
      b.sameFrame_set i j x

/-- A stack of pages is built row by row: every page has as many rows as the first one, and every
row as many entries as the first one of all. -/
theorem returnsOnly_ofPages (pages : Array (Array (Array α))) :
    ReturnsOnly (ofPages pages) WellFormed := by
  unfold ofPages
  refine returnsOnly_then fun _ => returnsOnly_then fun _ => returnsOnly_then fun _ => ?_
  simp only [← Array.foldlM_toList]
  generalize (pages[0]?.getD #[]).size = rows
  generalize ((pages[0]?.getD #[])[0]?.map Array.size).getD 0 = cols
  -- `Filled` counts the entries of whole pages, and `Extended` those of whole rows after them
  let Filled (k : Nat) (data : Array α) : Prop := data.size = k * (rows * cols)
  refine returnsOnly_bind (P := Filled (0 + pages.toList.length)) ?_
    fun data hdata => returnsOnly_pure ?_
  · refine returnsOnly_foldlM (by simp [Filled]) fun k data page hdata => ?_
    refine returnsOnly_ite (fun _ => returnsOnly_throw) fun hpage => ?_
    let Extended (k : Nat) (data' : Array α) : Prop := data'.size = data.size + k * cols
    refine returnsOnly_mono (P := Extended (0 + page.toList.length)) ?_ fun data' hdata' => ?_
    · refine returnsOnly_foldlM (by simp [Extended]) fun k data' row hdata' => ?_
      refine returnsOnly_ite (fun _ => returnsOnly_throw) fun hrow => returnsOnly_pure ?_
      have hsize : row.size = cols := by simpa using hrow
      change (data' ++ row).size = data.size + (k + 1) * cols
      rw [Array.size_append, show data'.size = data.size + k * cols from hdata', hsize]
      ring
    · have hlength : page.toList.length = rows := by simpa using hpage
      change data'.size = (k + 1) * (rows * cols)
      rw [show data'.size = data.size + (0 + page.toList.length) * cols from hdata',
        show data.size = k * (rows * cols) from hdata, hlength]
      ring
  · have hlength : data.size = pages.size * (rows * cols) := by simpa [Filled] using hdata
    simp only [WellFormed, refreshKind, Shape.size, Shape.dims, List.foldl_cons, List.foldl_nil]
    rw [hlength]
    ring

theorem returnsOnly_ofBuffer (shape : Shape) (data : Array α) :
    ReturnsOnly (ofBuffer shape data) WellFormed :=
  fun _ h => (wellFormed_ofBuffer h).1

theorem wellFormed_ofColumn (entries : Array α) : (ofColumn entries).WellFormed := by
  simp [WellFormed, ofColumn, refreshKind, Shape.size, Shape.dims]

theorem wellFormed_ofRow (entries : Array α) : (ofRow entries).WellFormed := by
  simp [WellFormed, ofRow, refreshKind, Shape.size, Shape.dims]

omit [RealArith ρ] in
theorem returnsOnly_columnPermutation (sources : Array Nat) :
    ReturnsOnly (columnPermutation sources : Fallible (PagedMatrix α)) WellFormed :=
  returnsOnly_zeros_bind fun _ => sameFrame_ascend fun j b => returnsOnly_then fun source =>
    returnsOnly_ite (fun _ => returnsOnly_throw) fun _ =>
      returnsOnly_checked (b.sameFrame_set source j 1)

variable (a b : PagedMatrix α)

omit [RealArith ρ] in
theorem returnsOnly_block (r0 r1 c0 c1 : Nat) :
    ReturnsOnly (a.block r0 r1 c0 c1) WellFormed := by
  refine returnsOnly_then fun height => returnsOnly_then fun width => ?_
  refine returnsOnly_zeros_bind fun out => ?_
  refine returnsOnly_bind (P := SameFrame out) ?_ fun _ hb => returnsOnly_pure ⟨hb.shape, hb.size⟩
  exact sameFrame_ascend fun i _ => returnsOnly_then fun _ => sameFrame_ascend fun j b =>
    returnsOnly_then fun x => b.sameFrame_set (i - r0) j x

omit [RealArith ρ] in
theorem returnsOnly_transposeWith (f : α → α) : ReturnsOnly (a.transposeWith f) WellFormed :=
  returnsOnly_zeros_bind fun _ => sameFrame_ascend fun i _ => sameFrame_ascend fun j b =>
    returnsOnly_then fun _ => b.sameFrame_set j i _

omit [RealArith ρ] in
theorem returnsOnly_transpose : ReturnsOnly a.transpose WellFormed :=
  returnsOnly_bind (a.returnsOnly_transposeWith id) fun _ h => returnsOnly_pure h

theorem returnsOnly_adjoint : ReturnsOnly a.adjoint WellFormed :=
  returnsOnly_bind (a.returnsOnly_transposeWith Scalar.conj) fun _ h => returnsOnly_pure h

theorem returnsOnly_product : ReturnsOnly (a.product b) WellFormed :=
  returnsOnly_ite (fun _ => returnsOnly_fault) fun _ =>
    returnsOnly_zeros_bind fun _ => sameFrame_refreshKind <| sameFrame_ascend fun i _ =>
      sameFrame_ascend fun j c => returnsOnly_then fun x => c.sameFrame_set i j x

/-- Reflections are applied to an identity matrix. -/
theorem returnsOnly_unitaryFactor (taus : Array α) :
    ReturnsOnly (Qr.unitaryFactor a taus) WellFormed :=
  returnsOnly_bind (returnsOnly_identity a.rows) fun _ hq => wellFormed_of_sameFrame hq <|
    sameFrame_refreshKind <| sameFrame_descend fun k q => returnsOnly_then fun tau =>
      returnsOnly_ite (fun _ => sameFrame_pure) fun _ => returnsOnly_then fun v =>
        q.sameFrame_reflect .left v tau k k

/-- The three factors are written into zero matrices. -/
theorem returnsOnly_unpack (pivots : Array Nat) :
    ReturnsOnly (Lu.unpack a pivots)
      fun f => f.lower.WellFormed ∧ f.upper.WellFormed ∧ f.permutation.WellFormed := by
  refine returnsOnly_bind (returnsOnly_zerosOf _) fun lower hlower => ?_
  refine returnsOnly_bind (returnsOnly_zerosOf _) fun upper hupper => ?_
  refine returnsOnly_bind (P := fun f => f.1.WellFormed ∧ f.2.WellFormed) ?_ fun f hf => ?_
  · refine returnsOnly_ascend ⟨hlower, hupper⟩ fun i parts hparts => ?_
    obtain ⟨lower, upper⟩ := parts
    obtain ⟨hlower, hupper⟩ := hparts
    refine returnsOnly_bind (wellFormed_of_sameFrame hlower (sameFrame_ascend fun j b =>
      returnsOnly_then fun x => b.sameFrame_set i j x)) fun lower hlower => ?_
    refine returnsOnly_ite (fun _ => ?_) fun _ => returnsOnly_pure ⟨hlower, hupper⟩
    refine returnsOnly_bind (wellFormed_of_sameFrame hlower (lower.sameFrame_set i i 1))
      fun lower hlower => ?_
    refine returnsOnly_bind (wellFormed_of_sameFrame hupper (sameFrame_ascend fun j b =>
      returnsOnly_then fun x => b.sameFrame_set i j x)) fun upper hupper => ?_
    exact returnsOnly_pure ⟨hlower, hupper⟩
  · obtain ⟨lower, upper⟩ := f
    refine returnsOnly_then fun order => ?_
    refine returnsOnly_bind (returnsOnly_zerosOf _) fun p hp => ?_
    refine returnsOnly_bind (wellFormed_of_sameFrame hp (sameFrame_ascend fun i b =>
      returnsOnly_then fun r => b.sameFrame_set i r 1)) fun p hp => ?_
    exact returnsOnly_pure ⟨hf.1, hf.2, hp⟩

end Made

/-- An inverse takes the place of an identity matrix. -/
theorem returnsOnly_inverse (a : PagedMatrix α) : ReturnsOnly (Lu.inverse a) WellFormed :=
  returnsOnly_then fun _ => returnsOnly_bind (returnsOnly_checked (returnsOnly_identity a.rows))
    fun one hone => wellFormed_of_sameFrame hone (Lu.sameFrame_solve a one)

variable {held : List (PagedMatrix α)} {a b : PagedMatrix α}

/-- What is made from well-formed matrices is well formed. -/
theorem wellFormed_of_makes (hheld : ∀ a ∈ held, a.WellFormed) (h : Makes held b) :
    b.WellFormed := by
  cases h with
  | replicate h => exact returnsOnly_replicate _ _ _ b h
  | zerosOf h => exact returnsOnly_zerosOf _ b h
  | identity h => exact returnsOnly_identity _ b h
  | identityOf h => exact returnsOnly_identityOf _ b h
  | ofRows h => exact returnsOnly_ofRows _ b h
  | ofPages h => exact returnsOnly_ofPages _ b h
  | ofBuffer h => exact returnsOnly_ofBuffer _ _ b h
  | ofColumn => exact wellFormed_ofColumn _
  | ofRow => exact wellFormed_ofRow _
  | columnPermutation h => exact returnsOnly_columnPermutation _ b h
  | copy ha => exact hheld b ha
  | block _ h => exact returnsOnly_block _ _ _ _ _ b h
  | transpose _ h => exact returnsOnly_transpose _ b h
  | adjoint _ h => exact returnsOnly_adjoint _ b h
  | product _ _ h => exact returnsOnly_product _ _ b h
  | factor ha h => exact (Qr.sameFrame_factor _ _ h).wellFormed (hheld _ ha)
  | factorPivoted ha h => exact (Qr.sameFrame_factorPivoted _ _ _ h).wellFormed (hheld _ ha)
  | upperFactor ha h => exact (sameFrame_keepUpper _ b h).wellFormed (hheld _ ha)
  | unitaryFactor _ h => exact returnsOnly_unitaryFactor _ _ b h
  | lowerPart _ h => exact (returnsOnly_unpack _ _ _ h).1
  | upperPart _ h => exact (returnsOnly_unpack _ _ _ h).2.1
  | permutation _ h => exact (returnsOnly_unpack _ _ _ h).2.2
  | solveFactored _ hb h => exact (Lu.sameFrame_solveFactored _ _ _ b h).wellFormed (hheld _ hb)
  | solve _ hb h => exact (Lu.sameFrame_solve _ _ b h).wellFormed (hheld _ hb)
  | inverse _ h => exact returnsOnly_inverse _ b h

/-! ## What is edited -/

theorem sameFrame_of_refreshes (h : Refreshes held a b) : SameFrame a b := by
  cases h with
  | multiplyAdd _ _ h => exact a.sameFrame_multiplyAdd _ _ _ _ _ _ _ _ b h
  | addConjOuter h => exact a.sameFrame_addConjOuter _ _ b h
  | addConjOuterGathered _ _ h => exact a.sameFrame_addConjOuterGathered _ _ b h
  | addConjOuterInPlace _ _ h => exact a.sameFrame_addConjOuterInPlace _ _ b h
  | keepUpper h => exact a.sameFrame_keepUpper b h
  | keepLower h => exact a.sameFrame_keepLower b h
  | factorPivoted h => exact Qr.sameFrame_factorPivoted a _ _ h
  | factorByProduct h => exact (Lu.keepsFrame_factorByProduct a _).1 _ h
  | factorByTiles h => exact Lu.sameFrame_factorByTiles a _ h
  | factorByTilesWith h => exact Lu.sameFrame_factorByTilesWith a _ _ h
  | factor h => exact (Lu.keepsFrame_factor a _).1 _ h

/-- A call in place keeps the shape of its target and the number of its entries, also where it is
refused. -/
theorem sameFrame_of_edits (h : Edits held a b) : SameFrame a b := by
  cases h with
  | refreshed h => exact sameFrame_of_refreshes h
  | refreshKind => exact (SameFrame.refl a).refreshKind
  | markLogical => exact ⟨rfl, rfl⟩
  | overwrite h => exact ⟨rfl, h⟩
  | set h => exact a.sameFrame_set _ _ _ b h
  | setRow h => exact a.sameFrame_setRow _ _ b h
  | swapRows h => exact a.sameFrame_swapRows _ _ b h
  | swapRowsWithin h => exact a.sameFrame_swapRowsWithin _ _ _ _ b h
  | swapCols h => exact a.sameFrame_swapCols _ _ b h
  | setBlock _ h => exact a.sameFrame_setBlock _ _ _ b h
  | scaleColumn h => exact a.sameFrame_scaleColumn _ _ _ _ b h
  | addOuter h => exact a.sameFrame_addOuterWith _ _ _ b h
  | addOuterBlock _ _ h => exact a.sameFrame_addOuterBlock _ _ _ _ _ _ _ _ _ b h
  | addTile _ _ h => exact a.sameFrame_addTile _ _ _ _ _ b h
  | solveUpper h => exact a.sameFrame_solveUpper _ _ b h
  | solveUnitLower h => exact a.sameFrame_solveUnitLower _ _ b h
  | interchangeRows h => exact (a.keepsFrame_interchangeRows _ _ _ _ _).1 b h
  | interruptedInterchange h => exact (a.keepsFrame_interchangeRows _ _ _ _ _).2 _ h
  | exchangeRows h => exact (a.keepsFrame_exchangeRows _ _).1 b h
  | refusedRows h => exact (a.keepsFrame_exchangeRows _ _).2 _ h
  | exchangeCols h => exact (a.keepsFrame_exchangeCols _ _).1 b h
  | refusedCols h => exact (a.keepsFrame_exchangeCols _ _).2 _ h
  | reflectColumns h => exact a.sameFrame_reflectColumns _ _ _ _ _ b h
  | reflect h => exact a.sameFrame_reflect _ _ _ _ _ b h
  | reflectPages h => exact a.sameFrame_reflectPages _ _ _ _ _ b h
  | reflectStep h => exact a.sameFrame_reflectStep _ _ _ h
  | reflectPagesStep h => exact a.sameFrame_reflectPagesStep _ _ _ _ h
  | eliminatePanel h => exact Lu.sameFrame_eliminatePanel _ _ _ _ h
  | factorPanel h => exact Lu.sameFrame_factorPanel _ _ _ _ h
  | updateByTiles h => exact Lu.sameFrame_updateByTiles a _ _ _ b h
  | refusedProduct _ _ h => rw [a.refusedOnly_multiplyAdd _ _ _ _ _ _ _ _ _ h]; exact .refl a
  | refusedGathered _ _ h => rw [a.refusedOnly_addConjOuterGathered _ _ _ h]; exact .refl a
  | refusedInPlace _ _ h => rw [a.refusedOnly_addConjOuterInPlace _ _ _ h]; exact .refl a
  | refusedByProduct h => exact (Lu.keepsFrame_factorByProduct a _).2 _ h
  | refusedByTiles h => rw [Lu.refusedOnly_factorByTilesWith a _ _ h]; exact .refl a
  | refusedFactor h => exact (Lu.keepsFrame_factor a _).2 _ h

/-! ## Histories -/

/-- A call leaves well-formed matrices. -/
theorem wellFormed_of_call {held' : List (PagedMatrix α)} (hheld : ∀ a ∈ held, a.WellFormed)
    (h : Call held held') : ∀ a ∈ held', a.WellFormed := by
  cases h with
  | make hmakes =>
    intro a ha
    rcases List.mem_append.1 ha with ha | ha
    · exact hheld a ha
    · rw [List.mem_singleton.1 ha]
      exact wellFormed_of_makes hheld hmakes
  | edit hi hedits =>
    intro c hc
    rcases List.mem_or_eq_of_mem_set hc with hc | rfl
    · exact hheld c hc
    · exact (sameFrame_of_edits hedits).wellFormed (hheld _ (List.mem_of_getElem? hi))

/-- Every sequence of calls leaves well-formed matrices. -/
theorem wellFormed_of_history (h : History held) : ∀ a ∈ held, a.WellFormed := by
  induction h with
  | refl => simp
  | tail _ hcall ih => exact wellFormed_of_call ih hcall

omit [RealArith ρ] [Scalar α ρ] in
/-- Where the stacked rows of a well-formed matrix can be counted, every one of them is a window of
the buffer, and the cells of the shape are distinct entries of it. -/
theorem cells_of_wellFormed (ha : a.WellFormed) {height : Nat} (hheight : a.height = .ok height) :
    a.size = height * a.cols ∧
      (∀ r < height, a.row r = .ok (a.data.extract (r * a.cols) ((r + 1) * a.cols))) ∧
      ∃ place : Fin height → Fin a.cols → Fin a.size, Function.Injective2 place ∧
        ∀ (r : Fin height) (c : Fin a.cols), a.get r c = .ok a.data[place r c] ∧
          ∀ x, a.set r c x = .ok { a with data := a.data.set (place r c) x (place r c).isLt } := by
  have hsize := ha.size_eq hheight
  have hlimit : height < Size.limit := by
    obtain ⟨count, -, -, hlimit⟩ := exists_pages hheight
    exact hlimit
  have hplace (r : Fin height) (c : Fin a.cols) : r.val * a.cols + c.val < a.data.size := by
    rw [hsize]
    exact place_lt r.isLt c.isLt
  refine ⟨hsize, fun r hr => ?_, fun r c => ⟨r.val * a.cols + c.val, hplace r c⟩, ?_, fun r c =>
    ⟨get_eq_ok (hplace r c), set_eq_ok (hplace r c)⟩⟩
  · unfold row
    rw [checkRow_eq_ok hsize hr hlimit]
    rfl
  · intro r r' c c' h
    have h := place_eq_iff (r := r.val) c.isLt |>.1 (Fin.val_eq_of_eq h).symm
    rw [place_div c'.isLt, place_mod c'.isLt] at h
    exact ⟨Fin.ext h.1.symm, Fin.ext h.2.symm⟩

/-- After any sequence of calls, refused ones included, every matrix that is held has at least two
dimensions and as many entries as their product says, and every call in place keeps its dimensions.
Where its stacked rows can be counted, they are its rows, and its cells are distinct entries. -/
theorem history_keeps_representation (h : History held) :
    ∀ a ∈ held, 2 ≤ a.shape.dims.length ∧ a.size = a.shape.dims.prod ∧
      (∀ b, Edits held a b → b.shape.dims = a.shape.dims) ∧
      ∀ height, a.height = .ok height →
        a.size = height * a.cols ∧
        (∀ r < height, a.row r = .ok (a.data.extract (r * a.cols) ((r + 1) * a.cols))) ∧
        ∃ place : Fin height → Fin a.cols → Fin a.size, Function.Injective2 place ∧
          ∀ (r : Fin height) (c : Fin a.cols), a.get r c = .ok a.data[place r c] ∧
            ∀ x, a.set r c x =
              .ok { a with data := a.data.set (place r c) x (place r c).isLt } := by
  intro a ha
  have hwell := wellFormed_of_history h a ha
  refine ⟨by simp [Shape.dims], ?_, ?_, fun height => cells_of_wellFormed hwell⟩
  · rw [PagedMatrix.size, hwell, Shape.size, List.prod_eq_foldl]
  · intro b hb
    rw [(sameFrame_of_edits hb).shape]

/-- A matrix of three rows, before a sequence of interchanges whose second pivot is out of range. -/
def threeRows : PagedMatrix Float :=
  refreshKind { shape := { rows := 3, cols := 2 }, data := #[1.0, 2.0, 3.0, 4.0, 5.0, 6.0] }

/-- What the refused sequence leaves: its first interchange has been made. -/
def threeRowsInterrupted : PagedMatrix Float :=
  { threeRows with data := #[3.0, 4.0, 1.0, 2.0, 5.0, 6.0] }

/-- The matrix is held after a refused call, and still has three rows of two entries. -/
theorem history_keeps_representation_threeRowsInterrupted :
    History [threeRowsInterrupted] ∧ threeRowsInterrupted.height = .ok 3 ∧
      threeRowsInterrupted.size = 3 * 2 ∧
      ∀ r < 3, ∃ entries, threeRowsInterrupted.row r = .ok entries := by
  have hbuilt : (ofBuffer threeRows.shape threeRows.data).run = .ok (.ok threeRows) := rfl
  have hmade : Makes [] threeRows := .ofBuffer hbuilt
  have hstop : (threeRows.interchangeRows 1 2 #[2, 9] 1 none).run =
      .ok (.error ⟨threeRowsInterrupted, .indexOutOfRange "laswp" 9 3⟩) := by
    with_unfolding_all rfl
  have hstopped : Edits [threeRows] threeRows threeRowsInterrupted :=
    .interruptedInterchange hstop
  have hheld : History [threeRows] := .single (.make hmade)
  have h : History [threeRowsInterrupted] := .tail hheld (.edit (i := 0) rfl hstopped)
  obtain ⟨-, -, -, hcells⟩ := history_keeps_representation h _ (List.mem_singleton_self _)
  obtain ⟨hsize, hrows, -⟩ := hcells 3 rfl
  exact ⟨h, rfl, hsize, fun r hr => ⟨_, hrows r hr⟩⟩

end PagedMatrix

end DenseLinear
