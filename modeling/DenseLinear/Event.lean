/-!
# Events

What the kernels report about their decisions: which path a matrix product took, where a column
norm had to be computed afresh, and where an elimination met a column without a pivot. An event is
data; `Event.line` is its wording. Columns are counted from zero in an event, and from one where a
log line speaks of pivots.
-/

namespace DenseLinear

/-- How much an event matters to a reader of the log. -/
inductive Level where
  /-- A decision within a kernel. -/
  | trace
  /-- A property of the operands that a caller may want to know of. -/
  | debug
deriving DecidableEq, Repr

/-- The name of a level in a log line. -/
def Level.name : Level → String
  | .trace => "TRACE"
  | .debug => "DEBUG"

/-- The two forms of the factorisation with column pivoting. -/
inductive ColumnPivoting where
  /-- In place, with the reflections packed as they are. -/
  | raw
  /-- On a copy, with the reflections packed in scaled form. -/
  | compact
deriving DecidableEq, Repr

/-- The name of a pivoted factorisation in a log line. -/
def ColumnPivoting.routine : ColumnPivoting → String
  | .raw => "geqp2"
  | .compact => "geqp3"

/-- A decision or finding of a kernel. -/
inductive Event where
  /-- A product of `m × k` by `k × n` entries was formed directly. -/
  | directProduct (m k n volume limit : Nat)
  /-- A product of `m × k` by `k × n` entries was formed tile by tile. -/
  | tiledProduct (m k n volume limit edge : Nat)
  /-- The norm of a column was computed afresh, because its estimate had become too small. -/
  | normRecomputed (pivoting : ColumnPivoting) (column step : Nat)
  /-- A sweep over panels met its first column without a pivot. -/
  | panelWithoutPivot (column : Nat)
  /-- The finished factors have their first zero on the diagonal in a column. -/
  | factorsWithoutPivot (column : Nat)
deriving DecidableEq, Repr

namespace Event

/-- The level of an event. -/
def level : Event → Level
  | directProduct .. => .trace
  | tiledProduct .. => .trace
  | normRecomputed .. => .trace
  | panelWithoutPivot _ => .debug
  | factorsWithoutPivot _ => .debug

/-- The wording of an event. -/
def text : Event → String
  | directProduct m k n volume limit =>
    s!"gemm {m}x{k}x{n}: naive (volume {volume} <= {limit})"
  | tiledProduct m k n volume limit edge =>
    s!"gemm {m}x{k}x{n}: blocked (volume {volume} > {limit}), block size {edge}"
  | normRecomputed pivoting column step =>
    let routine := pivoting.routine
    s!"{routine}: recomputed norm of column {column} at step {step}"
  | panelWithoutPivot column =>
    let ordinal := column + 1
    s!"getf2: zero pivot in column {ordinal}"
  | factorsWithoutPivot column =>
    let ordinal := column + 1
    s!"getrf: zero pivot in column {ordinal}"

/-- The log line of an event. -/
def line (event : Event) : String :=
  event.level.name ++ " " ++ event.text

end Event

end DenseLinear
