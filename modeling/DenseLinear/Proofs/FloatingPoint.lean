import Mathlib
import DenseLinear.Real.Machine

/-!
# Subtraction of floating point numbers

The product of minus one and a floating point number is its negative, and the sum with a negative is
a difference. Neither rounds, so `c + (-1) * s` and `c - s` are the same number, for signed zeros,
infinities and values that are not numbers too (`double_add_neg_one_mul`, `single_add_neg_one_mul`).

A number is told by its sign, its exponent field and its mantissa field (`decode`). Up to the sign
there are four kinds of numbers (`Kind`). A finite one already has the exponent that rounding aims
at, which is why a power of two passes through a product.
-/

namespace DenseLinear

namespace FloatingPoint

open Float.Model (Format totalExponent UnpackedFloat)
open Float.Model.UnpackedFloat

variable {spec : Format}

/-! ## Numbers by their fields -/

/-- The number with a sign, an exponent field and a mantissa field. -/
def decode (spec : Format) (sign : Sign) (exponent : BitVec spec.exponentBits)
    (mantissa : BitVec spec.mantissaBitsWithoutImplicit) : UnpackedFloat :=
  unpack spec (packComponents spec sign exponent mantissa)

/-- Every number is told by its fields. -/
theorem unpack_eq_decode (b : BitVec spec.numBits) :
    unpack spec b =
      decode spec (Sign.ofBitVec (unpackSign b)) (unpackExponent b) (unpackMantissa b) := by
  rw [decode, packComponents_unpackSign_unpackExponent_unpackMantissa]

theorem decode_eq (sign : Sign) (exponent : BitVec spec.exponentBits)
    (mantissa : BitVec spec.mantissaBitsWithoutImplicit) :
    decode spec sign exponent mantissa =
      if exponent = -1#(spec.exponentBits) then
        if mantissa = 0#(spec.mantissaBitsWithoutImplicit) then .infinity sign else .notANumber
      else if exponent = 0#(spec.exponentBits) then
        if h : mantissa = 0#(spec.mantissaBitsWithoutImplicit) then .zero sign
        else .finite sign mantissa.toNat
          (exponent.toNat - (spec.exponentBias + spec.mantissaBitsWithoutImplicit) + 1)
          (Nat.pos_of_ne_zero fun h' => h (BitVec.eq_of_toNat_eq h'))
      else .finite sign (1#1 ++ mantissa).toNat
        (exponent.toNat - (spec.exponentBias + spec.mantissaBitsWithoutImplicit))
        (by simp [BitVec.toNat_append]) := by
  unfold decode unpack
  simp only [unpackSign_packComponents, Sign.ofBitVec_toBitVec, unpackExponent_packComponents,
    unpackMantissa_packComponents]

/-- What the fields of a number tell of it, up to its sign. -/
inductive Kind (spec : Format) (number : Sign → UnpackedFloat) : Prop
  /-- It is not a number. -/
  | notANumber (h : ∀ sign, number sign = .notANumber)
  /-- It is infinite. -/
  | infinity (h : ∀ sign, number sign = .infinity sign)
  /-- It is zero. -/
  | zero (h : ∀ sign, number sign = .zero sign)
  /-- It is finite, and has the exponent that rounding aims at. -/
  | finite (m : Nat) (e : Int) (pos : 0 < m) (h : ∀ sign, number sign = .finite sign m e pos)
    (target : spec.targetExponent (totalExponent m e) = e)

theorem toNat_one_append {width : Nat} (v : BitVec width) :
    (1#1 ++ v).toNat = 2 ^ width + v.toNat := by
  rw [BitVec.toNat_append, ← Nat.shiftLeft_add_eq_or_of_lt v.isLt, Nat.shiftLeft_eq]
  simp

theorem log2_one_append {width : Nat} (v : BitVec width) : (1#1 ++ v).toNat.log2 = width := by
  have hlt := v.isLt
  rw [toNat_one_append, Nat.log2_eq_iff (by have := Nat.two_pow_pos width; omega), Nat.pow_succ]
  omega

theorem log2_toNat_lt {w : Nat} {v : BitVec w} (h : v ≠ 0#w) : v.toNat.log2 < w :=
  (Nat.log2_lt fun h' => h (BitVec.eq_of_toNat_eq h')).2 v.isLt

/-- The least exponent of a finite number. -/
theorem minExponent_eq (spec : Format) :
    spec.minExponent = 1 - (spec.exponentBias + spec.mantissaBitsWithoutImplicit : Int) := by
  have hpow := Nat.two_pow_pos (spec.exponentBits - 1)
  unfold Format.minExponent Format.exponentBias Format.mantissaBits
  push_cast [Nat.one_le_two_pow]
  omega

theorem kind_decode (exponent : BitVec spec.exponentBits)
    (mantissa : BitVec spec.mantissaBitsWithoutImplicit) :
    Kind spec fun sign => decode spec sign exponent mantissa := by
  have hmin := minExponent_eq spec
  simp only [decode_eq]
  by_cases hspecial : exponent = -1#(spec.exponentBits)
  · simp only [if_pos hspecial]
    by_cases hmant : mantissa = 0#(spec.mantissaBitsWithoutImplicit)
    · exact .infinity fun _ => if_pos hmant
    · exact .notANumber fun _ => if_neg hmant
  simp only [if_neg hspecial]
  by_cases hexp : exponent = 0#(spec.exponentBits)
  · simp only [if_pos hexp]
    by_cases hmant : mantissa = 0#(spec.mantissaBitsWithoutImplicit)
    · exact .zero fun _ => dif_pos hmant
    · -- a number without the leading digit has the least exponent
      refine .finite _ _ _ (fun _ => dif_neg hmant) ?_
      have hlog := log2_toNat_lt hmant
      have hzero : exponent.toNat = 0 := by rw [hexp]; rfl
      unfold Format.targetExponent totalExponent Format.mantissaBits
      omega
  · simp only [if_neg hexp]
    refine .finite _ _ _ (fun _ => rfl) ?_
    have hpos : exponent.toNat ≠ 0 := fun h => hexp (BitVec.eq_of_toNat_eq h)
    unfold Format.targetExponent totalExponent Format.mantissaBits
    rw [log2_one_append]
    omega

/-- Packing keeps a number, for there is a single pattern for values that are not numbers. -/
theorem unpack_pack_unpack (hbits : 2 ≤ spec.exponentBits) (b : BitVec spec.numBits) :
    unpack spec (pack spec (unpack spec b)) = unpack spec b := by
  rw [pack_unpack b hbits]
  split
  · rename_i hnan
    have hfields : unpackExponent b = -1#_ ∧ unpackMantissa b ≠ 0#_ := of_decide_eq_true hnan
    rw [unpack_packedNaN, unpack_eq_decode b, decode_eq, if_pos hfields.1, if_neg hfields.2]
  · rfl

/-! ## The product with minus one -/

/-- A shift takes off the zero digits of a multiple of a power of two. -/
theorem ofMantissa_shift (m count : Nat) :
    ExtendedMantissa.ofMantissaAndAccuracy (2 ^ count * m) .exact >>> count =
      ExtendedMantissa.ofMantissaAndAccuracy m .exact := by
  change Nat.repeat ExtendedMantissa.shiftRightOne count _ = _
  induction count generalizing m with
  | zero => rw [Nat.pow_zero, Nat.one_mul]; rfl
  | succ count ih =>
    rw [Nat.repeat, Nat.pow_succ, Nat.mul_assoc, ih]
    simp [ExtendedMantissa.shiftRightOne, ExtendedMantissa.ofMantissaAndAccuracy]

theorem log2_two_pow_mul {m : Nat} (count : Nat) (hm : 0 < m) :
    (2 ^ count * m).log2 = count + m.log2 := by
  induction count with
  | zero => rw [Nat.pow_zero, Nat.one_mul, Nat.zero_add]
  | succ count ih =>
    have hpos : 0 < 2 ^ count * m := Nat.mul_pos (Nat.two_pow_pos count) hm
    rw [Nat.pow_succ', Nat.mul_assoc, Nat.log2_two_mul (by omega), ih, Nat.add_right_comm]

/-- Rounding takes a power of two off the mantissa of a number with the exponent that it aims at. -/
theorem roundWithAccuracy_two_pow_mul (sign : Sign) {m : Nat} {e : Int} (pos : 0 < m)
    (target : spec.targetExponent (totalExponent m e) = e) (count : Nat) :
    roundWithAccuracy spec sign (2 ^ count * m) (-count + e) .exact = .finite sign m e pos := by
  have htotal : totalExponent (2 ^ count * m) (-count + e) = totalExponent m e := by
    unfold totalExponent
    rw [log2_two_pow_mul count pos]
    omega
  have hcount : (e - (-count + e)).toNat = count := by omega
  have hfirst : shiftToTargetExponent spec (2 ^ count * m) (-count + e) .exact =
      (ExtendedMantissa.ofMantissaAndAccuracy m .exact, e) := by
    unfold shiftToTargetExponent shiftToExponent
    dsimp only
    rw [htotal, target, hcount, ofMantissa_shift]
    congr 1
    omega
  have hsecond : shiftToTargetExponent spec m e .exact =
      (ExtendedMantissa.ofMantissaAndAccuracy m .exact, e) := by
    unfold shiftToTargetExponent shiftToExponent
    dsimp only
    rw [target, Int.sub_self, Int.toNat_zero, Int.natCast_zero, Int.add_zero]
    rfl
  have hrounded : (ExtendedMantissa.ofMantissaAndAccuracy m .exact).roundedMantissa = m := rfl
  unfold roundWithAccuracy
  rw [hfirst]
  dsimp only
  rw [hrounded, hsecond]
  exact dif_neg (Nat.pos_iff_ne_zero.1 pos)

/-- The product with minus one is the negative. -/
theorem mul_decode (sign : Sign) (exponent : BitVec spec.exponentBits)
    (mantissa : BitVec spec.mantissaBitsWithoutImplicit) {count : Nat} (hone : 0 < 2 ^ count) :
    UnpackedFloat.mul spec (.finite .negative (2 ^ count) (-count) hone)
      (decode spec sign exponent mantissa) = decode spec (-sign) exponent mantissa := by
  have hsign : Sign.negative * sign = -sign := by cases sign <;> rfl
  cases kind_decode exponent mantissa with
  | notANumber h =>
    rw [h, h]
    rfl
  | infinity h =>
    rw [h, h, ← hsign]
    rfl
  | zero h =>
    rw [h, h, ← hsign]
    rfl
  | finite m e pos h target =>
    rw [h, h, ← hsign]
    exact roundWithAccuracy_two_pow_mul _ pos target count

/-- The sum with the negative of a number is a difference. -/
theorem add_neg (x y : UnpackedFloat) :
    UnpackedFloat.add spec x (UnpackedFloat.neg y) = UnpackedFloat.sub spec x y := by
  cases y with
  | finite sign m e pos =>
    have happly : (-sign).apply = fun n => -sign.apply n := by
      funext n
      cases sign with
      | positive => rfl
      | negative => exact (Int.neg_neg n).symm
    cases x with
    | finite sign' m' e' pos' =>
      unfold UnpackedFloat.add UnpackedFloat.sub UnpackedFloat.neg
      dsimp only
      rw [happly]
      rfl
    | _ => rfl
  | _ => cases x <;> rfl

/-- The negative of a number differs from it in the sign only. -/
theorem neg_decode (sign : Sign) (exponent : BitVec spec.exponentBits)
    (mantissa : BitVec spec.mantissaBitsWithoutImplicit) :
    UnpackedFloat.neg (decode spec sign exponent mantissa) =
      decode spec (-sign) exponent mantissa := by
  cases kind_decode exponent mantissa with
  | notANumber h | infinity h | zero h | finite _ _ _ h =>
    rw [h, h]
    rfl

/-- The sum with the packed product of minus one and a number is a difference. -/
theorem add_unpack_pack_mul (spec : Format) (hbits : 2 ≤ spec.exponentBits) (x : UnpackedFloat)
    (b : BitVec spec.numBits) {count : Nat} (hone : 0 < 2 ^ count) :
    UnpackedFloat.add spec x (unpack spec (pack spec (UnpackedFloat.mul spec
      (.finite .negative (2 ^ count) (-count) hone) (unpack spec b)))) =
      UnpackedFloat.sub spec x (unpack spec b) := by
  rw [unpack_eq_decode b, mul_decode, decode, unpack_pack_unpack hbits, ← decode, ← neg_decode,
    add_neg]

/-- Taking a number of double width off is adding its product with minus one. -/
theorem double_add_neg_one_mul (c s : Float) : c + (-1) * s = c - s :=
  congrArg (fun x => Float.ofModel (Float.Model.pack x))
    (add_unpack_pack_mul .binary64 (by decide) c.toModel.unpack s.toModel.toBits.toBitVec
      (Nat.two_pow_pos 52))

/-- Taking a number of single width off is adding its product with minus one. -/
theorem single_add_neg_one_mul (c s : Float32) : c + (-1) * s = c - s :=
  congrArg (fun x => Float32.ofModel (Float32.Model.pack x))
    (add_unpack_pack_mul .binary32 (by decide) c.toModel.unpack s.toModel.toBits.toBitVec
      (Nat.two_pow_pos 23))

end FloatingPoint

end DenseLinear
