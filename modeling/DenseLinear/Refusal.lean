import DenseLinear.Checked

/-!
# Refusals

A kernel refuses operands that violate its contract on shapes or arguments. Numerical degeneracy,
such as a zero pivot, is never refused. `Refusal.message` is the wording of a refusal.

A computation that may be refused is `Fallible`. A kernel that works in place and may be refused
halfway answers an `Interrupted` target: what had become of it, and why the kernel stopped.
-/

namespace DenseLinear

/-- A violated contract on shapes or arguments. -/
inductive Refusal where
  /-- The extents of operands do not agree. -/
  | extentMismatch (routine : String) (expected actual : Nat × Nat)
  /-- A list of entries or pivots has the wrong length. -/
  | lengthMismatch (routine : String) (expected actual : Nat)
  /-- A row, column or pivot lies outside its operand. -/
  | indexOutOfRange (routine : String) (index bound : Nat)
  /-- Any other argument that is not allowed. -/
  | badArgument (routine : String) (text : String)
  /-- The edge length of a block is too small. -/
  | edgeTooSmall (edge : Nat)
deriving DecidableEq, Repr

namespace Refusal

/-- A pair of extents as it stands in a message. -/
def extentsText (extents : Nat × Nat) : String :=
  let rows := extents.1
  let cols := extents.2
  s!"({rows}, {cols})"

/-- The wording of a refusal. -/
def message : Refusal → String
  | extentMismatch routine expected actual =>
    let wanted := extentsText expected
    let got := extentsText actual
    s!"{routine}: dimension mismatch: expected {wanted}, got {got}"
  | lengthMismatch routine expected actual =>
    s!"{routine}: length mismatch: expected {expected}, got {actual}"
  | indexOutOfRange routine index bound =>
    s!"{routine}: index {index} is out of bounds for extent {bound}"
  | badArgument routine text => s!"{routine}: {text}"
  | edgeTooSmall edge =>
    s!"Invalid block size: {edge}. Block size must be at least 1."

end Refusal

/-- Computations that may fault or be refused. -/
abbrev Fallible (β : Type) : Type := ExceptT Refusal (Except Fault) β

/-- The target of an in-place kernel that stopped with a refusal. -/
structure Interrupted (σ : Type) where
  /-- The target at the point where the kernel stopped. -/
  target : σ
  /-- Why the kernel stopped. -/
  refusal : Refusal

section Targets

variable {m : Type → Type} [Monad m] {σ τ β : Type}

/-- Runs a computation on behalf of an in-place kernel whose target is, at this point, `target`. -/
def onBehalfOf (target : σ) (action : ExceptT Refusal m β) : ExceptT (Interrupted σ) m β :=
  ExceptT.adapt (fun refusal => ⟨target, refusal⟩) action

/-- Runs an in-place kernel on a part of `target`: if it stops, the whole `target` is reported. -/
def onPartOf (target : σ) (action : ExceptT (Interrupted τ) m β) : ExceptT (Interrupted σ) m β :=
  ExceptT.adapt (fun stop => ⟨target, stop.refusal⟩) action

end Targets

end DenseLinear
