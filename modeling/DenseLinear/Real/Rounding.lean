/-!
# Correct rounding of a hypotenuse

Binary floating point numbers are read as `m * 2 ^ q` with a natural number `m`, computed with
exactly, and rounded once.

The length of a hypotenuse is the square root of a sum of two squares. `isqrt` gives the whole
part of that root, one binary digit at a time (`isqrt_le`, `lt_isqrt`), with at least two more
digits than the format keeps. Where digits are cut off, one further digit that is not zero stands
for all of them: it decides every rounding to the nearest number as the full expansion would.
-/

namespace DenseLinear

/-- A binary interchange format, without the sign. -/
structure BinaryFormat where
  /-- The number of digits of a significand, the leading one included. -/
  precision : Nat
  /-- The exponent of the least positive number. -/
  leastExponent : Int
  /-- The bits of infinity. -/
  infinity : Nat

namespace BinaryFormat

/-- The format of 64 bits. -/
def double : BinaryFormat :=
  { precision := 53, leastExponent := -1074, infinity := 0x7ff0000000000000 }

/-- The format of 32 bits. -/
def single : BinaryFormat :=
  { precision := 24, leastExponent := -149, infinity := 0x7f800000 }

/-- The significand and exponent of a finite number without sign, given by its bits. -/
def decode (f : BinaryFormat) (bits : Nat) : Nat × Int :=
  let scale := 1 <<< (f.precision - 1)
  let field := bits / scale
  let fraction := bits % scale
  if field = 0 then
    (fraction, f.leastExponent)
  else
    (scale + fraction, f.leastExponent + (field - 1 : Nat))

/-- The bits of the number nearest to `m * 2 ^ q`; of two that are equally near, the even one. -/
def encode (f : BinaryFormat) (m : Nat) (q : Int) : Nat :=
  if m = 0 then
    0
  else
    let cut := max ((m.log2 + 1 : Nat) - (f.precision : Int)) (f.leastExponent - q)
    let kept :=
      if cut ≤ 0 then
        m <<< (-cut).toNat
      else
        let unit := 1 <<< cut.toNat
        let whole := m / unit
        let rest := m % unit
        if 2 * rest > unit ∨ 2 * rest = unit ∧ whole % 2 = 1 then whole + 1 else whole
    let steps := (q + cut - f.leastExponent).toNat
    min ((steps <<< (f.precision - 1)) + kept) f.infinity

end BinaryFormat

/-- Completes the binary digits below `digits` of a root of `n` that begins with `root`. -/
def isqrtDigits (n : Nat) : Nat → Nat → Nat
  | 0, root => root
  | digits + 1, root =>
    let next := root + 1 <<< digits
    isqrtDigits n digits (if next * next ≤ n then next else root)

/-- The whole part of the square root of `n`. -/
def isqrt (n : Nat) : Nat :=
  isqrtDigits n (n.log2 / 2 + 1) 0

theorem isqrtDigits_le {n : Nat} (digits : Nat) {root : Nat} (h : root * root ≤ n) :
    isqrtDigits n digits root * isqrtDigits n digits root ≤ n := by
  induction digits generalizing root with
  | zero => exact h
  | succ digits ih =>
    unfold isqrtDigits
    apply ih
    split
    · assumption
    · exact h

theorem lt_isqrtDigits {n : Nat} (digits : Nat) {root : Nat}
    (h : n < (root + 1 <<< digits) * (root + 1 <<< digits)) :
    n < (isqrtDigits n digits root + 1) * (isqrtDigits n digits root + 1) := by
  induction digits generalizing root with
  | zero => simpa [isqrtDigits] using h
  | succ digits ih =>
    unfold isqrtDigits
    apply ih
    split
    · have hdigit : root + 1 <<< digits + 1 <<< digits = root + 1 <<< (digits + 1) := by
        rw [Nat.shiftLeft_succ]
        omega
      rw [hdigit]
      exact h
    · rename_i hlt
      exact Nat.lt_of_not_le hlt

/-- The root is not too large. -/
theorem isqrt_le (n : Nat) : isqrt n * isqrt n ≤ n :=
  isqrtDigits_le _ (by omega)

/-- The root is not too small. -/
theorem lt_isqrt (n : Nat) : n < (isqrt n + 1) * (isqrt n + 1) := by
  apply lt_isqrtDigits
  rw [Nat.zero_add, Nat.one_shiftLeft, ← Nat.pow_add]
  have hlog : n < 2 ^ (n.log2 + 1) := Nat.lt_log2_self
  have hle : 2 ^ (n.log2 + 1) ≤ 2 ^ (n.log2 / 2 + 1 + (n.log2 / 2 + 1)) :=
    Nat.pow_le_pow_right (by omega) (by omega)
  omega

namespace BinaryFormat

/-- The bits of the correctly rounded hypotenuse over two finite legs, given by the bits of their
absolute values. -/
def hypotenuse (f : BinaryFormat) (x y : Nat) : Nat :=
  let a := f.decode x
  let b := f.decode y
  let q := min a.2 b.2
  let m := a.1 <<< (a.2 - q).toNat
  let n := b.1 <<< (b.2 - q).toNat
  let square := m * m + n * n
  let extra := f.precision + 2 - square.log2 / 2
  let scaled := square <<< (2 * extra)
  let root := isqrt scaled
  let inexact := if root * root = scaled then 0 else 1
  f.encode (2 * root + inexact) (q - extra - 1)

end BinaryFormat

end DenseLinear
