import DenseLinear.Checked

/-!
# Bounded loops

The kernels run over index intervals: upwards (`ascend`), downwards (`descend`) or in strides
(`strides`). A loop visits its positions one at a time and stops at the first fault, so an
interval may be far longer than the part of it that is reached.
-/

namespace DenseLinear

section Loops

variable {m : Type → Type} [Monad m] {σ : Type}

/-- Runs `step` at the `count` positions from `i` upwards. -/
@[specialize]
def ascendFrom (step : Nat → σ → m σ) : Nat → Nat → σ → m σ
  | 0, _, s => pure s
  | count + 1, i, s => step i s >>= ascendFrom step count (i + 1)

/-- Runs `step` at `lo, lo + 1, …, hi - 1`. -/
@[inline]
def ascend (lo hi : Nat) (s : σ) (step : Nat → σ → m σ) : m σ :=
  ascendFrom step (hi - lo) lo s

/-- Runs `step` at the `count` positions above `lo`, the highest first. -/
@[specialize]
def descendTo (step : Nat → σ → m σ) (lo : Nat) : Nat → σ → m σ
  | 0, s => pure s
  | count + 1, s => step (lo + count) s >>= descendTo step lo count

/-- Runs `step` at `hi - 1, …, lo + 1, lo`. -/
@[inline]
def descend (lo hi : Nat) (s : σ) (step : Nat → σ → m σ) : m σ :=
  descendTo step lo (hi - lo) s

/-- Runs `step` at `count` positions, `width` apart, from `i` upwards. -/
@[specialize]
def strideFrom (step : Nat → σ → m σ) (width : Nat) : Nat → Nat → σ → m σ
  | 0, _, s => pure s
  | count + 1, i, s => step i s >>= strideFrom step width count (i + width)

/-- Runs `step` at `lo, lo + width, lo + 2 * width, …` below `hi`; a width of zero is a fault. -/
@[inline]
def strides [MonadLiftT (Except Fault) m] (lo hi width : Nat) (s : σ) (step : Nat → σ → m σ) :
    m σ :=
  if width = 0 then
    liftM (Except.error Fault.zeroStep : Checked σ)
  else
    strideFrom step width ((hi - lo + (width - 1)) / width) lo s

@[simp]
theorem ascend_self (lo : Nat) (s : σ) (step : Nat → σ → m σ) : ascend lo lo s step = pure s := by
  simp [ascend, ascendFrom]

theorem ascend_of_le {lo hi : Nat} (h : hi ≤ lo) (s : σ) (step : Nat → σ → m σ) :
    ascend lo hi s step = pure s := by
  simp [ascend, Nat.sub_eq_zero_of_le h, ascendFrom]

/-- A loop over a non-empty interval begins with its first position. -/
theorem ascend_of_lt {lo hi : Nat} (h : lo < hi) (s : σ) (step : Nat → σ → m σ) :
    ascend lo hi s step = step lo s >>= fun t => ascend (lo + 1) hi t step := by
  obtain ⟨d, rfl⟩ : ∃ d, hi = lo + 1 + d := ⟨hi - (lo + 1), by omega⟩
  have h1 : lo + 1 + d - lo = d + 1 := by omega
  have h2 : lo + 1 + d - (lo + 1) = d := by omega
  unfold ascend
  rw [h1, h2]
  rfl

theorem descend_of_le {lo hi : Nat} (h : hi ≤ lo) (s : σ) (step : Nat → σ → m σ) :
    descend lo hi s step = pure s := by
  simp [descend, Nat.sub_eq_zero_of_le h, descendTo]

/-- A downward loop over a non-empty interval begins with its last position. -/
theorem descend_succ {lo hi : Nat} (h : lo ≤ hi) (s : σ) (step : Nat → σ → m σ) :
    descend lo (hi + 1) s step = step hi s >>= fun t => descend lo hi t step := by
  obtain ⟨d, rfl⟩ : ∃ d, hi = lo + d := ⟨hi - lo, by omega⟩
  have h1 : lo + d + 1 - lo = d + 1 := by omega
  have h2 : lo + d - lo = d := by omega
  unfold descend
  rw [h1, h2]
  rfl

end Loops

end DenseLinear
