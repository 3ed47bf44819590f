/-!
# Checked computation

Every size, index, window and allocation of the library is checked before it is used. A
computation that cannot be carried out ends in a `Fault`; `Checked` is the monad of such
computations.

Sizes are natural numbers below `Size.limit`. The operations of `Size` answer exactly when
their result is such a number (`Size.add_eq_ok_iff`, `Size.sub_eq_ok_iff`,
`Size.mul_eq_ok_iff`), so a size that was computed needs no further bound.
-/

namespace DenseLinear

/-- Why a computation cannot be carried out. -/
inductive Fault where
  /-- A cell, an index or a window lies outside the buffer it is taken from. -/
  | outOfRange
  /-- A size leaves the range of machine words. -/
  | overflow
  /-- A buffer would need more bytes than can be addressed. -/
  | capacity
  /-- A loop would never leave its first position. -/
  | zeroStep
  /-- Two operands that must share an extent do not. -/
  | extent
deriving DecidableEq, Repr

/-- Computations that may end in a fault. -/
abbrev Checked (β : Type) : Type := Except Fault β

/-- Runs a checked computation within a larger one. -/
@[inline]
def checked {m : Type → Type} [MonadLiftT (Except Fault) m] {β : Type} (action : Checked β) : m β :=
  liftM action

namespace Size

/-- The number of machine words; every size lies below it. -/
def limit : Nat := 18446744073709551616

/-- The sum of two sizes. -/
def add (a b : Nat) : Checked Nat :=
  if a + b < limit then .ok (a + b) else .error .overflow

/-- The difference of two sizes. -/
def sub (a b : Nat) : Checked Nat :=
  if b ≤ a then .ok (a - b) else .error .overflow

/-- The product of two sizes. -/
def mul (a b : Nat) : Checked Nat :=
  if a * b < limit then .ok (a * b) else .error .overflow

/-- The product of a list of sizes, taken from the left: every partial product is a size too,
also when a later factor is zero. -/
def product (sizes : List Nat) : Checked Nat :=
  sizes.foldlM mul 1

/-- The product of two sizes, cut off at the largest size. -/
def saturatingMul (a b : Nat) : Nat :=
  min (a * b) (limit - 1)

theorem add_eq_ok_iff {a b c : Nat} : add a b = .ok c ↔ c = a + b ∧ a + b < limit := by
  unfold add
  split <;> simp_all [eq_comm]

theorem sub_eq_ok_iff {a b c : Nat} : sub a b = .ok c ↔ c = a - b ∧ b ≤ a := by
  unfold sub
  split <;> simp_all [eq_comm]

theorem mul_eq_ok_iff {a b c : Nat} : mul a b = .ok c ↔ c = a * b ∧ a * b < limit := by
  unfold mul
  split <;> simp_all [eq_comm]

theorem add_eq_ok {a b : Nat} (h : a + b < limit) : add a b = .ok (a + b) :=
  add_eq_ok_iff.2 ⟨rfl, h⟩

theorem sub_eq_ok {a b : Nat} (h : b ≤ a) : sub a b = .ok (a - b) :=
  sub_eq_ok_iff.2 ⟨rfl, h⟩

theorem mul_eq_ok {a b : Nat} (h : a * b < limit) : mul a b = .ok (a * b) :=
  mul_eq_ok_iff.2 ⟨rfl, h⟩

end Size

/-- The largest number of bytes that one buffer may occupy. -/
def capacityLimit : Nat := 9223372036854775807

/-- Admits a new buffer of `count` entries of `bytes` bytes each. -/
def allocate (bytes count : Nat) : Checked Unit :=
  if bytes * count ≤ capacityLimit then .ok () else .error .capacity

/-- The width in bytes of a stored size. -/
def sizeBytes : Nat := 8

/-- Admits the window `[start, stop)` of a buffer with `size` entries. -/
def checkWindow (start stop size : Nat) : Checked Unit :=
  if start ≤ stop ∧ stop ≤ size then .ok () else .error .outOfRange

/-- The entry of `v` at `i`. -/
def readAt {β : Type} (v : Array β) (i : Nat) : Checked β :=
  if h : i < v.size then .ok v[i] else .error .outOfRange

/-- The buffer `v` with `x` at `i`. -/
def writeAt {β : Type} (v : Array β) (i : Nat) (x : β) : Checked (Array β) :=
  if h : i < v.size then .ok (v.set i x h) else .error .outOfRange

/-- The buffer `v` with its entries at `i` and `j` exchanged. -/
def swapAt {β : Type} (v : Array β) (i j : Nat) : Checked (Array β) :=
  if h : i < v.size ∧ j < v.size then .ok (v.swap i j h.1 h.2) else .error .outOfRange

theorem readAt_eq_ok {β : Type} {v : Array β} {i : Nat} (h : i < v.size) :
    readAt v i = .ok v[i] := by
  simp [readAt, h]

theorem writeAt_eq_ok {β : Type} {v : Array β} {i : Nat} (h : i < v.size) (x : β) :
    writeAt v i x = .ok (v.set i x h) := by
  simp [writeAt, h]

theorem swapAt_eq_ok {β : Type} {v : Array β} {i j : Nat} (hi : i < v.size) (hj : j < v.size) :
    swapAt v i j = .ok (v.swap i j hi hj) := by
  simp [swapAt, hi, hj]

theorem checkWindow_eq_ok {start stop size : Nat} (h : start ≤ stop) (h' : stop ≤ size) :
    checkWindow start stop size = .ok () := by
  simp [checkWindow, h, h']

end DenseLinear
