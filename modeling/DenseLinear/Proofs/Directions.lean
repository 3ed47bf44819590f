import DenseLinear.Proofs.Rounding

/-!
# Directions of floating point numbers

What sums, products, quotients and square roots say of the signs and of the order of magnitude of
their results, infinities and values that are not numbers included.

Adding a number along the same sign takes a number no nearer to zero (`Reaches`), and sums and
products keep that relation. A quotient of a number by one that it reaches beyond does not vanish,
however its operands were rounded (`not_vanishes_div`).
-/

namespace DenseLinear

namespace FloatingPoint

open Float.Model (Format totalExponent UnpackedFloat)
open Float.Model.UnpackedFloat

variable {spec : Format} {s t : Sign} {n n' : ℕ∞} {x y : UnpackedFloat}

/-! ## Numbers with a sign -/

/-- The numbers with a sign, among them one of the two zeros. -/
inductive Signed (s : Sign) : UnpackedFloat → Prop
  /-- A zero. -/
  | zero : Signed s (.zero s)
  /-- A finite number. -/
  | finite (m : Nat) (e : Int) (pos : 0 < m) : Signed s (.finite s m e pos)
  /-- An infinite number. -/
  | infinity : Signed s (.infinity s)

/-- Not a number, or one that lies along a sign. -/
def Tends (spec : Format) (s : Sign) (x : UnpackedFloat) : Prop :=
  x = .notANumber ∨ ∃ n, Along spec s n x

theorem signed_roundWithAccuracy (m : Nat) (e : Int) (acc : Accuracy) :
    Signed s (roundWithAccuracy spec s m e acc) := by
  unfold roundWithAccuracy
  dsimp only
  split
  · exact .zero
  · exact .finite _ _ _

/-- The bits of a number tell its sign. -/
theorem signed_decode (exponent : BitVec spec.exponentBits)
    (mantissa : BitVec spec.mantissaBitsWithoutImplicit) :
    decode spec s exponent mantissa = .notANumber ∨ Signed s (decode spec s exponent mantissa) := by
  cases kind_decode exponent mantissa with
  | notANumber h => exact .inl (h s)
  | infinity h =>
    rw [h]
    exact .inr .infinity
  | zero h =>
    rw [h]
    exact .inr .zero
  | finite m e pos h =>
    rw [h]
    exact .inr (.finite m e pos)

/-- A number of the format lies along its sign. -/
theorem tends_decode (exponent : BitVec spec.exponentBits)
    (mantissa : BitVec spec.mantissaBitsWithoutImplicit) :
    Tends spec s (decode spec s exponent mantissa) := by
  cases kind_decode exponent mantissa with
  | notANumber h => exact .inl (h s)
  | infinity h =>
    rw [h]
    exact .inr ⟨_, .infinity⟩
  | zero h =>
    rw [h]
    exact .inr ⟨_, .zero s⟩
  | finite m e pos h target =>
    rw [h]
    exact .inr ⟨_, .finite pos target⟩

theorem settle_notANumber : settle spec .notANumber = .notANumber := unpack_packedNaN

/-- The bits keep the sign. -/
theorem Signed.settle_eq_decode (h : Signed s x) :
    ∃ exponent mantissa, settle spec x = decode spec s exponent mantissa := by
  cases h with
  | zero => exact ⟨_, _, rfl⟩
  | infinity => exact ⟨_, _, rfl⟩
  | finite m e pos =>
    unfold settle pack
    dsimp only
    split_ifs <;> exact ⟨_, _, rfl⟩

theorem Signed.tends_settle (h : Signed s x) : Tends spec s (settle spec x) := by
  obtain ⟨exponent, mantissa, hdecode⟩ := h.settle_eq_decode
  rw [hdecode]
  exact tends_decode exponent mantissa

theorem Signed.signed_settle (h : Signed s x) :
    settle spec x = .notANumber ∨ Signed s (settle spec x) := by
  obtain ⟨exponent, mantissa, hdecode⟩ := h.settle_eq_decode
  rw [hdecode]
  exact signed_decode exponent mantissa

/-! ## Sums -/

/-- Rounding a whole number of units with a sign. -/
theorem normalize_apply (sign zero : Sign) {m : Nat} (hm : 0 < m) (e : Int) :
    UnpackedFloat.normalize spec (sign.apply m) e zero = UnpackedFloat.round spec sign m e := by
  unfold UnpackedFloat.normalize
  cases sign with
  | positive =>
    have hcompare : compare (Sign.positive.apply m) 0 = .gt :=
      Int.compare_eq_gt.2 (Int.natCast_pos.2 hm)
    rw [hcompare]
    rfl
  | negative =>
    have hcompare : compare (Sign.negative.apply m) 0 = .lt :=
      Int.compare_eq_lt.2 (Int.neg_neg_of_pos (Int.natCast_pos.2 hm))
    rw [hcompare]
    exact congrArg (UnpackedFloat.round spec .negative · e) (by simp [Sign.apply])

theorem le_of_target {m : Nat} {e : Int} (target : spec.targetExponent (totalExponent m e) = e) :
    spec.minExponent ≤ e := by
  rw [← target]
  exact le_max_right _ _

/-- A sum of two finite numbers with the same sign. -/
theorem along_add_finite {m m' : Nat} {e e' : Int} (pos : 0 < m) (pos' : 0 < m')
    (hmin : spec.minExponent ≤ e) (hmin' : spec.minExponent ≤ e') :
    Along spec s (nearest spec 0 (units spec m e + units spec m' e') : ℕ)
      (UnpackedFloat.add spec (.finite s m e pos) (.finite s m' e' pos')) := by
  have hsum : UnpackedFloat.add spec (.finite s m e pos) (.finite s m' e' pos') =
      UnpackedFloat.round spec s (m * 2 ^ (e - min e e').toNat + m' * 2 ^ (e' - min e e').toNat)
        (min e e') := by
    have happly : ∀ k k' : Nat, s.apply k + s.apply k' = s.apply (k + k' : Nat) := by
      intro k k'
      cases s with
      | positive => rfl
      | negative => simp only [Sign.apply]; omega
    unfold UnpackedFloat.add decreaseExponent
    dsimp only
    rw [Nat.shiftLeft_eq, Nat.shiftLeft_eq, happly]
    exact normalize_apply s .positive
      (Nat.add_pos_left (Nat.mul_pos pos (Nat.two_pow_pos _)) _) _
  have hpos : 0 < m * 2 ^ (e - min e e').toNat + m' * 2 ^ (e' - min e e').toNat :=
    Nat.add_pos_left (Nat.mul_pos pos (Nat.two_pow_pos _)) _
  have hround : Along spec s _ (UnpackedFloat.round spec s _ (min e e')) :=
    along_round hpos (le_min hmin hmin') (le_refl _)
  rw [Nat.add_mul, Nat.mul_assoc, Nat.mul_assoc, ← Nat.pow_add, ← Nat.pow_add,
    Int.sub_self] at hround
  have hexp : (e - min e e').toNat + (min e e' - spec.minExponent).toNat =
      (e - spec.minExponent).toNat := by omega
  have hexp' : (e' - min e e').toNat + (min e e' - spec.minExponent).toNat =
      (e' - spec.minExponent).toNat := by omega
  rw [hexp, hexp', ← hsum] at hround
  exact hround

/-- A sum of numbers along the same sign. -/
theorem along_add (hbits : 2 ≤ spec.exponentBits) (hx : settle spec x = x) (hy : settle spec y = y)
    (h : Along spec s n x) (h' : Along spec s n' y) :
    Along spec s (rounded spec 0 (n + n')) (settle spec (UnpackedFloat.add spec x y)) := by
  cases h with
  | infinity =>
    have hsum : UnpackedFloat.add spec (.infinity s) y = .infinity s := by
      cases h' <;> cases s <;> rfl
    rw [hsum, top_add]
    exact along_settle hbits .infinity
  | zero s' =>
    rw [zero_add, rounded_along hbits h' hy]
    cases h' with
    | zero s'' =>
      have hsum : ∃ z, UnpackedFloat.add spec (.zero s') (.zero s'') = .zero z := by
        cases s' <;> cases s'' <;> exact ⟨_, rfl⟩
      obtain ⟨z, hz⟩ := hsum
      rw [hz, settle_zero]
      exact .zero z
    | infinity =>
      change Along spec s ⊤ (settle spec (.infinity s))
      rw [settle_infinity]
      exact .infinity
    | finite pos target =>
      change Along spec s _ (settle spec (.finite s _ _ pos))
      rw [hy]
      exact .finite pos target
  | @finite m e pos target =>
    cases h' with
    | infinity =>
      rw [add_top]
      exact along_settle hbits .infinity
    | zero s' =>
      rw [add_zero, rounded_along hbits (.finite pos target) hx]
      change Along spec s _ (settle spec (.finite s m e pos))
      rw [hx]
      exact .finite pos target
    | @finite m' e' pos' target' =>
      have hsum := along_settle hbits
        (along_add_finite (s := s) pos pos' (le_of_target target) (le_of_target target'))
      exact hsum

/-- A sum of numbers that lie as far along opposite signs leaves nothing. -/
theorem add_opposite (h : Along spec s n x) (h' : Along spec (-s) n' y) (hn : n = n') :
    UnpackedFloat.add spec x y = .notANumber ∨ ∃ z, UnpackedFloat.add spec x y = .zero z := by
  cases h with
  | infinity =>
    cases h' with
    | infinity => cases s <;> exact .inl rfl
    | zero s' => exact absurd hn ENat.top_ne_zero
    | finite pos' target' => exact absurd hn (ENat.top_ne_natCast _)
  | zero s' =>
    cases h' with
    | infinity => exact absurd hn.symm ENat.top_ne_zero
    | zero s'' => cases s' <;> cases s'' <;> exact .inr ⟨_, rfl⟩
    | finite pos' target' =>
      exact absurd (Nat.cast_inj.1 hn).symm (units_pos pos' _).ne'
  | @finite m e pos target =>
    cases h' with
    | infinity => exact absurd hn (ENat.natCast_ne_top _)
    | zero s' => exact absurd (Nat.cast_inj.1 hn) (units_pos pos e).ne'
    | @finite m' e' pos' target' =>
      have hmin := le_of_target target
      have hmin' := le_of_target target'
      have hunits : units spec m e = units spec m' e' := Nat.cast_inj.1 hn
      have hexp : (e - spec.minExponent).toNat =
          (e - min e e').toNat + (min e e' - spec.minExponent).toNat := by omega
      have hexp' : (e' - spec.minExponent).toNat =
          (e' - min e e').toNat + (min e e' - spec.minExponent).toNat := by omega
      have hsame : m * 2 ^ (e - min e e').toNat = m' * 2 ^ (e' - min e e').toNat := by
        rw [units, units, hexp, hexp', Nat.pow_add, Nat.pow_add, ← Nat.mul_assoc,
          ← Nat.mul_assoc] at hunits
        exact Nat.eq_of_mul_eq_mul_right (Nat.two_pow_pos _) hunits
      refine .inr ⟨.positive, ?_⟩
      unfold UnpackedFloat.add decreaseExponent
      dsimp only
      rw [Nat.shiftLeft_eq, Nat.shiftLeft_eq, hsame]
      have happly : ∀ k : Int, s.apply k + (-s).apply k = 0 := by
        intro k
        cases s with
        | positive => exact Int.add_right_neg k
        | negative => exact Int.add_left_neg k
      rw [happly]
      rfl

/-! ## Products -/

theorem minExponent_nonpos (spec : Format) : spec.minExponent ≤ 0 := by
  have hmin := minExponent_eq spec
  have hm := spec.hm
  omega

/-- A product of two finite numbers. -/
theorem along_mul_finite {m m' : Nat} {e e' : Int} (pos : 0 < m)
    (pos' : 0 < m') (htarget : aim spec m e = e) (htarget' : aim spec m' e' = e') :
    Along spec (s * t)
      (nearest spec (-spec.minExponent).toNat (units spec m e * units spec m' e') : ℕ)
      (UnpackedFloat.mul spec (.finite s m e pos) (.finite t m' e' pos')) := by
  have hnonpos := minExponent_nonpos spec
  have hlog : m.log2 + m'.log2 ≤ (m * m').log2 := by
    rw [Nat.le_log2 (Nat.mul_pos pos pos').ne', Nat.pow_add]
    exact Nat.mul_le_mul (Nat.log2_self_le pos.ne') (Nat.log2_self_le pos'.ne')
  have hle : e + e' ≤ aim spec (m * m') (e + e') := by
    unfold aim Format.targetExponent totalExponent Format.mantissaBits at *
    omega
  have hmin := le_of_target htarget
  have hmin' := le_of_target htarget'
  have hround : Along spec (s * t) _ (roundWithAccuracy spec (s * t) (m * m') (e + e') .exact) :=
    along_roundWithAccuracy_exact (Nat.mul_pos pos pos')
      (by omega : 2 * spec.minExponent ≤ e + e') (by omega) hle
  have hunits : m * m' * 2 ^ (e + e' - 2 * spec.minExponent).toNat =
      units spec m e * units spec m' e' := by
    have hexp : (e + e' - 2 * spec.minExponent).toNat =
        (e - spec.minExponent).toNat + (e' - spec.minExponent).toNat := by omega
    rw [units, units, hexp, Nat.pow_add, Nat.mul_mul_mul_comm]
  have hleast : (spec.minExponent - 2 * spec.minExponent).toNat = (-spec.minExponent).toNat := by
    omega
  rw [hunits, hleast] at hround
  exact hround

/-- A product of numbers along signs. -/
theorem along_mul (hbits : 2 ≤ spec.exponentBits) (h : Along spec s n x) (h' : Along spec t n' y) :
    UnpackedFloat.mul spec x y = .notANumber ∨
      Along spec (s * t) (rounded spec (-spec.minExponent).toNat (n * n'))
        (settle spec (UnpackedFloat.mul spec x y)) := by
  cases h with
  | infinity =>
    cases h' with
    | zero s' => exact .inl rfl
    | infinity => exact .inr (along_settle hbits .infinity)
    | @finite m' e' pos' target' =>
      refine .inr ?_
      rw [ENat.top_mul (Nat.cast_ne_zero.2 (units_pos pos' e').ne')]
      exact along_settle hbits .infinity
  | zero s' =>
    rw [zero_mul, rounded_zero]
    cases h' with
    | infinity => exact .inl rfl
    | zero s'' =>
      refine .inr ?_
      change Along spec (s * t) 0 (settle spec (.zero (s' * s'')))
      rw [settle_zero]
      exact .zero _
    | finite pos' target' =>
      refine .inr ?_
      change Along spec (s * t) 0 (settle spec (.zero (s' * t)))
      rw [settle_zero]
      exact .zero _
  | @finite m e pos target =>
    cases h' with
    | infinity =>
      refine .inr ?_
      rw [ENat.mul_top (Nat.cast_ne_zero.2 (units_pos pos e).ne')]
      exact along_settle hbits .infinity
    | zero s' =>
      refine .inr ?_
      rw [mul_zero, rounded_zero]
      change Along spec (s * t) 0 (settle spec (.zero (s * s')))
      rw [settle_zero]
      exact .zero _
    | finite pos' target' =>
      exact .inr (along_settle hbits (along_mul_finite pos pos' target target'))

/-! ## Square roots, negatives and quotients -/

/-- A square root is not negative. -/
theorem tends_sqrt (x : UnpackedFloat) :
    Tends spec .positive (settle spec (UnpackedFloat.sqrt spec x)) := by
  cases x with
  | notANumber => exact .inl settle_notANumber
  | infinity s =>
    cases s with
    | positive => exact (Signed.infinity (s := .positive)).tends_settle
    | negative => exact .inl settle_notANumber
  | zero s =>
    refine .inr ⟨0, ?_⟩
    change Along spec .positive 0 (settle spec (.zero s))
    rw [settle_zero]
    exact .zero s
  | finite s m e pos =>
    cases s with
    | positive => exact (signed_roundWithAccuracy _ _ _).tends_settle
    | negative => exact .inl settle_notANumber

/-- The bits keep the negative of what they keep. -/
theorem settle_neg (hbits : 2 ≤ spec.exponentBits) (hx : settle spec x = x) :
    settle spec (UnpackedFloat.neg x) = UnpackedFloat.neg x := by
  have hneg : UnpackedFloat.neg (settle spec x) = UnpackedFloat.neg x := congrArg _ hx
  rw [settle, unpack_eq_decode, neg_decode] at hneg
  rw [← hneg]
  exact unpack_pack_unpack hbits _

theorem Along.neg (h : Along spec s n x) : Along spec (-s) n (UnpackedFloat.neg x) := by
  cases h with
  | zero s' => exact .zero (-s')
  | infinity => exact .infinity
  | finite pos target => exact .finite pos target

theorem Along.abs (h : Along spec s n x) : Along spec .positive n (UnpackedFloat.abs x) := by
  cases h with
  | zero s' => exact .zero .positive
  | infinity => exact .infinity
  | finite pos target => exact .finite pos target

/-- A quotient by a number with a sign. -/
theorem tends_div (h : Along spec s n x) (h' : Signed t y) :
    Tends spec (s / t) (settle spec (UnpackedFloat.div spec x y)) := by
  have hzero : ∀ z, Tends spec (s / t) (settle spec (.zero z)) := by
    intro z
    rw [settle_zero]
    exact .inr ⟨0, .zero z⟩
  cases h with
  | zero s' =>
    cases h' with
    | zero => exact .inl settle_notANumber
    | infinity => exact hzero _
    | finite m e pos => exact hzero _
  | infinity =>
    cases h' with
    | infinity => exact .inl settle_notANumber
    | zero => exact Signed.infinity.tends_settle
    | finite m e pos => exact Signed.infinity.tends_settle
  | finite pos target =>
    cases h' with
    | infinity => exact hzero _
    | zero => exact Signed.infinity.tends_settle
    | finite m' e' pos' => exact (signed_roundWithAccuracy _ _ _).tends_settle

/-- A quotient has as many digits as its operands differ by, or one less. -/
theorem log2_le_log2_div (m k : Nat) (hk : 0 < k) : m.log2 ≤ (m / k).log2 + k.log2 + 1 := by
  rcases Nat.eq_zero_or_pos m with rfl | hm
  · exact Nat.zero_le _
  refine Nat.le_of_lt_succ ((Nat.log2_lt hm.ne').2 ?_)
  calc m < k * (m / k + 1) := Nat.lt_mul_div_succ m hk
    _ ≤ 2 ^ (k.log2 + 1) * 2 ^ ((m / k).log2 + 1) :=
      Nat.mul_le_mul Nat.lt_log2_self.le Nat.lt_log2_self
    _ = 2 ^ ((m / k).log2 + k.log2 + 1).succ := by
      rw [← Nat.pow_add]
      congr 1
      omega

/-- The quotient that division computes before it rounds. If the dividend is not the smaller one, it
has a digit in front of the point. -/
theorem divCore_spec {m m' : Nat} {e e' : Int} (pos : 0 < m)
    (hmin : spec.minExponent ≤ e) (hmin' : spec.minExponent ≤ e')
    (hle : units spec m e ≤ units spec m' e') :
    ∃ q f acc, divCore spec m' e' m e = (q, f, acc) ∧ 0 < q ∧ 0 ≤ q.log2 + f ∧
      f ≤ aim spec q f := by
  have hnonpos := minExponent_nonpos spec
  have hm := spec.hm
  have pos' : 0 < m' := Nat.pos_of_mul_pos_right ((units_pos pos e).trans_le hle)
  obtain ⟨f, hf⟩ : ∃ f, f = min (e' - e)
      (spec.targetExponent (totalExponent m' e' - totalExponent m e)) := ⟨_, rfl⟩
  have hcore : divCore spec m' e' m e = (2 ^ (e' - e - f).toNat * m' / m, f,
      accuracyOfFraction (2 ^ (e' - e - f).toNat * m' % m) m) := by
    rw [hf, Nat.mul_comm, ← Nat.shiftLeft_eq]
    rfl
  have hlog := log2_two_pow_mul (e' - e - f).toNat pos'
  have hquotient := log2_le_log2_div (2 ^ (e' - e - f).toNat * m') m pos
  unfold Format.targetExponent totalExponent Format.mantissaBits at hf
  refine ⟨_, _, _, hcore, ?_⟩
  unfold aim Format.targetExponent totalExponent Format.mantissaBits
  generalize hdividend : 2 ^ (e' - e - f).toNat * m' = dividend at *
  rcases Int.lt_or_le 0 f with hpositive | hnegative
  · -- the dividend has more digits than the format keeps
    have hpos : 0 < dividend / m := by
      refine Nat.pos_of_ne_zero fun hzero => ?_
      rw [hzero, Nat.log2_zero] at hquotient
      omega
    exact ⟨hpos, by omega, by omega⟩
  · -- the dividend is at least the power of two that makes up for the exponent
    have hlow : 2 ^ (-f).toNat ≤ dividend / m := by
      rw [Nat.le_div_iff_mul_le pos]
      refine Nat.le_of_mul_le_mul_right ?_ (Nat.two_pow_pos (e - spec.minExponent).toNat)
      have hexp : (e' - e - f).toNat + (e - spec.minExponent).toNat =
          (-f).toNat + (e' - spec.minExponent).toNat := by omega
      calc 2 ^ (-f).toNat * m * 2 ^ (e - spec.minExponent).toNat
          = 2 ^ (-f).toNat * units spec m e := by rw [units, Nat.mul_assoc]
        _ ≤ 2 ^ (-f).toNat * units spec m' e' := Nat.mul_le_mul_left _ hle
        _ = dividend * 2 ^ (e - spec.minExponent).toNat := by
          rw [units, ← hdividend, Nat.mul_comm m', ← Nat.mul_assoc, ← Nat.pow_add, ← hexp,
            Nat.pow_add]
          ring
    have hpos : 0 < dividend / m := (Nat.two_pow_pos _).trans_le hlow
    have hdigits : (-f).toNat ≤ (dividend / m).log2 := (Nat.le_log2 hpos.ne').2 hlow
    exact ⟨hpos, by omega, by omega⟩

/-- Rounding leaves a digit in front of the point. -/
theorem roundedDigits_pos {q : Nat} {f : Int} (acc : Accuracy) (hq : 0 < q)
    (hpoint : 0 ≤ q.log2 + f) : 0 < roundedDigits spec q f acc := by
  have hnonpos := minExponent_nonpos spec
  refine lt_of_lt_of_le ?_ (roundedDigits_bounds acc).1
  refine Nat.div_pos ((Nat.pow_le_pow_right (by omega) ?_).trans (Nat.log2_self_le hq.ne'))
    (Nat.two_pow_pos _)
  unfold aim Format.targetExponent totalExponent Format.mantissaBits
  omega

theorem Along.ne_zero (h : Along spec s n x) (hn : n ≠ 0) (z : Sign) : x ≠ .zero z := by
  rintro rfl
  cases h
  exact hn rfl

theorem Along.exists_eq_zero (h : Along spec s n x) (hn : n = 0) : ∃ z, x = .zero z := by
  cases h with
  | zero z => exact ⟨z, rfl⟩
  | infinity => exact absurd hn ENat.top_ne_zero
  | finite pos target => exact absurd (Nat.cast_eq_zero.1 hn) (units_pos pos _).ne'

theorem capped_ne_zero (hn : n ≠ 0) : capped spec n ≠ 0 := by
  unfold capped
  split_ifs
  · exact ENat.top_ne_zero
  · exact hn

/-- A quotient by a number that does not reach further along the same sign does not vanish. -/
theorem div_not_zero (hbits : 2 ≤ spec.exponentBits) (h : Along spec s n x)
    (h' : Along spec s n' y) (hle : n ≤ n') (z : Sign) :
    settle spec (UnpackedFloat.div spec y x) ≠ .zero z := by
  have hnan : settle spec .notANumber ≠ .zero z := by
    rw [settle_notANumber]
    exact nofun
  have hinfinite : ∀ s, settle spec (.infinity s) ≠ .zero z := by
    intro s
    rw [settle_infinity]
    exact nofun
  cases h with
  | zero s' => cases h' with
    | zero s'' => exact hnan
    | infinity => exact hinfinite _
    | finite pos' target' => exact hinfinite _
  | infinity =>
    obtain rfl : n' = ⊤ := top_le_iff.1 hle
    cases h'
    exact hnan
  | @finite m e pos target =>
    cases h' with
    | infinity => exact hinfinite _
    | zero s' =>
      have hzero : units spec m e ≤ 0 := by exact_mod_cast hle
      exact absurd hzero (units_pos pos e).not_ge
    | @finite m' e' pos' target' =>
      obtain ⟨q, f, acc, hcore, hq, hpoint, hexp⟩ := divCore_spec pos (le_of_target target)
        (le_of_target target') (Nat.cast_le.1 hle)
      have hdiv : UnpackedFloat.div spec (.finite s m' e' pos') (.finite s m e pos) =
          roundWithAccuracy spec (s / s) q f acc := by
        unfold UnpackedFloat.div
        dsimp only
        rw [hcore]
      rw [hdiv]
      refine (along_settle hbits (along_roundWithAccuracy hq acc hexp)).ne_zero
        (capped_ne_zero (Nat.cast_ne_zero.2 (units_pos ?_ _).ne')) z
      exact roundedDigits_pos acc hq hpoint

end FloatingPoint

end DenseLinear
