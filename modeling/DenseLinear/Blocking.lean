import DenseLinear.Event
import DenseLinear.Refusal

/-!
# Blocking

A kernel that works block by block has two parameters: the edge length of a block and the volume up
to which a product is formed directly. Both have process-wide defaults, each a `Setting` that
refuses values below its least one, and a caller may choose either (`BlockingChoice`).

The defaults belong to an `Ambient` state, which kernels read and other callers may change:
`Ambient.pending` lists the requests of other callers that arrive before each coming read. A kernel
reads a default where it needs it and writes none. By `Setting.assign_eq_ok_iff` a setting never
falls below its least value, whatever is requested.
-/

namespace DenseLinear

/-- A process-wide value with a least admissible value. -/
structure Setting where
  /-- The value. -/
  value : Nat
  /-- The least value that may be assigned. -/
  least : Nat := 0
deriving DecidableEq, Repr

namespace Setting

/-- A setting with a new value, which is refused if it is less than the least one. -/
def assign (s : Setting) (value : Nat) : Except Refusal Setting :=
  if value < s.least then .error (.edgeTooSmall value) else .ok { s with value := value }

theorem assign_eq_ok_iff {s t : Setting} {value : Nat} :
    s.assign value = .ok t ↔ s.least ≤ value ∧ t = { s with value := value } := by
  unfold assign
  split
  · simp
    omega
  · simp [eq_comm]
    omega

end Setting

/-- The edge length of a block and the volume up to which products are formed directly. -/
structure Blocking where
  /-- The edge length of a block. -/
  edge : Nat
  /-- The volume up to which a product is formed directly. -/
  directVolume : Nat
deriving DecidableEq, Repr

/-- The parameters in force before anybody changes a default. -/
def Blocking.standard : Blocking :=
  { edge := 64, directVolume := 100000 }

/-- The process-wide defaults. -/
structure Defaults where
  /-- The default edge length of a block, at least one. -/
  edge : Setting := { value := Blocking.standard.edge, least := 1 }
  /-- The default volume up to which products are formed directly. -/
  directVolume : Setting := { value := Blocking.standard.directVolume }
deriving DecidableEq, Repr

/-- A request to change a process-wide default. -/
inductive DefaultRequest where
  /-- Change the default edge length of a block. -/
  | edge (value : Nat)
  /-- Change the default volume up to which products are formed directly. -/
  | directVolume (value : Nat)
deriving DecidableEq, Repr

namespace Defaults

/-- The defaults after a request, which may be refused. -/
def assign (d : Defaults) : DefaultRequest → Except Refusal Defaults
  | .edge value => (d.edge.assign value).map fun s => { d with edge := s }
  | .directVolume value =>
    (d.directVolume.assign value).map fun s => { d with directVolume := s }

/-- The defaults after a request whose caller takes no notice of a refusal. -/
def serve (d : Defaults) (request : DefaultRequest) : Defaults :=
  match d.assign request with
  | .ok d => d
  | .error _ => d

end Defaults

/-- What surrounds a kernel call: the defaults, what other callers are about to do with them, and
the log. -/
structure Ambient where
  /-- The process-wide defaults. -/
  defaults : Defaults := {}
  /-- The requests of other callers that arrive before each of the coming reads of a default. -/
  pending : List (List DefaultRequest) := []
  /-- The events reported so far. -/
  log : Array Event := #[]

/-- Computations that read the defaults and report events. -/
abbrev Ambience (β : Type) : Type := StateT Ambient (Except Fault) β

/-- Runs a computation that is never refused within one that may be. -/
def unrefused {ε β : Type} (action : Ambience β) : ExceptT ε Ambience β :=
  ExceptT.lift action

/-- Runs a computation that neither reads the defaults nor reports an event within one that does. -/
def unobserved {ε β : Type} (action : ExceptT ε (Except Fault) β) : ExceptT ε Ambience β :=
  ExceptT.mk (checked action.run)

namespace Ambient

/-- The surroundings after the requests that arrive before the next read. -/
def advance (ambient : Ambient) : Ambient :=
  match ambient.pending with
  | [] => ambient
  | requests :: rest =>
    { ambient with defaults := requests.foldl Defaults.serve ambient.defaults, pending := rest }

/-- One read of the defaults. -/
def read {β : Type} (field : Defaults → β) : Ambience β := do
  modify advance
  return field (← get).defaults

/-- The default edge length of a block. -/
def edge : Ambience Nat :=
  read fun d => d.edge.value

/-- The default volume up to which products are formed directly. -/
def directVolume : Ambience Nat :=
  read fun d => d.directVolume.value

/-- Reports an event. -/
def report (event : Event) : Ambience Unit :=
  modify fun ambient => { ambient with log := ambient.log.push event }

/-- Changes a default. -/
def assign (request : DefaultRequest) : ExceptT Refusal Ambience Unit := do
  match (← get).defaults.assign request with
  | .ok defaults => modify fun ambient => { ambient with defaults := defaults }
  | .error refusal => throw refusal

end Ambient

/-- The defaults as they are now, read one after the other. -/
def Blocking.now : Ambience Blocking := do
  let edge ← Ambient.edge
  let directVolume ← Ambient.directVolume
  return { edge, directVolume }

/-- A caller's choice of blocking parameters; what is left open falls back to the defaults. -/
structure BlockingChoice where
  /-- The edge length of a block, if chosen. -/
  edge : Option Nat := none
  /-- The volume up to which products are formed directly, if chosen. -/
  directVolume : Option Nat := none
deriving DecidableEq, Repr

namespace BlockingChoice

/-- Every product is formed tile by tile, with the given edge length. -/
def tiled (edge : Nat) : BlockingChoice :=
  { edge := some edge, directVolume := some 0 }

/-- Every product is formed directly. -/
def direct : BlockingChoice :=
  { directVolume := some (Size.limit - 1) }

/-- The parameters of one call. An edge length of zero is refused before the volume is read. -/
def settle (choice : BlockingChoice) : ExceptT Refusal Ambience Blocking := do
  let edge ← match choice.edge with
    | some edge => pure edge
    | none => unrefused Ambient.edge
  if edge = 0 then
    throw (.edgeTooSmall edge)
  let directVolume ← match choice.directVolume with
    | some volume => pure volume
    | none => unrefused Ambient.directVolume
  return { edge, directVolume }

end BlockingChoice

end DenseLinear
