import DenseLinear.Proofs.FloatingPoint

/-!
# Rounding of floating point numbers

Sums and products are computed exactly and rounded once. Here the numbers without their signs are
counted in units of the least positive number, so that rounding is a function on natural numbers
(`nearest`) followed by the overflow to infinity (`capped`).

Two facts about it carry everything that is said of sums and products elsewhere: rounding keeps the
order (`rounded_mono`), and it keeps the numbers of the format (`rounded_along`). `Along` tells how
far a number lies along a sign; `along_round` and `along_settle` say where the operations of the
format arrive.
-/

namespace DenseLinear

namespace FloatingPoint

open Float.Model (Format totalExponent UnpackedFloat)
open Float.Model.UnpackedFloat

/-! ## Cutting digits off -/

/-- The number `n` without its last binary digits, rounded to the nearest, of two equally near ones
to the even one. -/
def cutDigits (n count : Nat) : Nat :=
  (ExtendedMantissa.ofMantissaAndAccuracy n .exact >>> count).roundedMantissa

theorem mantissa_shift (em : ExtendedMantissa) (count : Nat) :
    (em >>> count).mantissa = em.mantissa / 2 ^ count := by
  change (Nat.repeat ExtendedMantissa.shiftRightOne count em).mantissa = _
  induction count with
  | zero => exact (Nat.div_one _).symm
  | succ count ih =>
    rw [Nat.repeat, ExtendedMantissa.shiftRightOne, ih, Nat.pow_succ, Nat.div_div_eq_div_mul]

/-- What the two residual bits tell of the digits of `n` that are shifted out. -/
structure Keeps (n count : Nat) (em : ExtendedMantissa) : Prop where
  /-- They are at least one half. -/
  roundBit : em.roundBit = decide (2 ^ count ≤ 2 * (n % 2 ^ count))
  /-- They are neither zero nor one half. -/
  stickyBit : em.stickyBit = decide (n % 2 ^ count ≠ 0 ∧ 2 * (n % 2 ^ count) ≠ 2 ^ count)

theorem keeps_shift (n count : Nat) :
    Keeps n count (ExtendedMantissa.ofMantissaAndAccuracy n .exact >>> count) := by
  change Keeps n count (Nat.repeat ExtendedMantissa.shiftRightOne count _)
  induction count with
  | zero => exact ⟨by simp [Nat.repeat, ExtendedMantissa.ofMantissaAndAccuracy, Nat.mod_one],
      by simp [Nat.repeat, ExtendedMantissa.ofMantissaAndAccuracy, Nat.mod_one]⟩
  | succ count ih =>
    obtain ⟨hround, hsticky⟩ := ih
    have hmantissa : (Nat.repeat ExtendedMantissa.shiftRightOne count
        (ExtendedMantissa.ofMantissaAndAccuracy n .exact)).mantissa = n / 2 ^ count :=
      mantissa_shift _ count
    have hlt := Nat.mod_lt n (Nat.two_pow_pos count)
    have hrest := Nat.mod_pow_succ (x := n) (b := 2) (k := count)
    have hdigit : n / 2 ^ count % 2 = 0 ∨ n / 2 ^ count % 2 = 1 := by omega
    rw [Nat.repeat]
    refine ⟨?_, ?_⟩ <;> dsimp only [ExtendedMantissa.shiftRightOne]
    · rw [hmantissa, hrest, Nat.pow_succ]
      rcases hdigit with h | h <;> rw [h] <;> simp <;> omega
    · rw [hround, hsticky, hrest, Nat.pow_succ, ← Bool.decide_or, decide_eq_decide]
      rcases hdigit with h | h <;> rw [h] <;> omega

theorem cutDigits_eq (n count : Nat) :
    cutDigits n count = n / 2 ^ count +
      if 2 * (n % 2 ^ count) < 2 ^ count then 0
      else if 2 * (n % 2 ^ count) = 2 ^ count then n / 2 ^ count % 2 else 1 := by
  obtain ⟨hround, hsticky⟩ := keeps_shift n count
  have hmantissa := mantissa_shift (ExtendedMantissa.ofMantissaAndAccuracy n .exact) count
  have hpos := Nat.two_pow_pos count
  unfold cutDigits
  generalize ExtendedMantissa.ofMantissaAndAccuracy n .exact >>> count = em at *
  obtain ⟨m, half, rest⟩ := em
  dsimp only [ExtendedMantissa.ofMantissaAndAccuracy] at hmantissa hround hsticky
  rw [← hmantissa]
  cases half <;> cases rest <;> simp at hround hsticky <;>
    simp only [ExtendedMantissa.roundedMantissa, ExtendedMantissa.accuracy,
      Accuracy.roundToNearestEven] <;>
    grind

theorem cutDigits_mono {n n' : Nat} (h : n ≤ n') (count : Nat) :
    cutDigits n count ≤ cutDigits n' count := by
  have hdiv : n / 2 ^ count ≤ n' / 2 ^ count := Nat.div_le_div_right h
  have hsplit := Nat.div_add_mod n (2 ^ count)
  have hsplit' := Nat.div_add_mod n' (2 ^ count)
  rw [cutDigits_eq, cutDigits_eq]
  rcases Nat.eq_or_lt_of_le hdiv with heq | hlt
  · -- the same digits are left, so it is those cut off that grow
    rw [← heq] at hsplit' ⊢
    have hrest : n % 2 ^ count ≤ n' % 2 ^ count := by omega
    split_ifs <;> omega
  · split_ifs <;> omega

/-- A multiple of a power of two loses no digit to that power. -/
theorem cutDigits_two_pow_mul (n count extra : Nat) :
    cutDigits (2 ^ extra * n) (extra + count) = cutDigits n count := by
  have hpos := Nat.two_pow_pos extra
  rw [cutDigits_eq, cutDigits_eq, Nat.pow_add, Nat.mul_div_mul_left _ _ hpos,
    Nat.mul_mod_mul_left, Nat.mul_left_comm 2]
  simp only [Nat.mul_lt_mul_left hpos, Nat.mul_right_inj hpos.ne']

theorem roundedMantissa_bounds (em : ExtendedMantissa) :
    em.mantissa ≤ em.roundedMantissa ∧ em.roundedMantissa ≤ em.mantissa + 1 := by
  obtain ⟨m, half, rest⟩ := em
  cases half <;> cases rest <;>
    simp only [ExtendedMantissa.roundedMantissa, ExtendedMantissa.accuracy,
      Accuracy.roundToNearestEven] <;>
    omega

/-! ## The nearest number of a format -/

/-- How many of the digits of `n` are cut off if at least the last `least` ones are. -/
def surplus (spec : Format) (least n : Nat) : Nat :=
  max (n.log2 + 1 - spec.mantissaBits) least

/-- The number nearest to `n`, which is counted in units that are `2 ^ least` times smaller than the
least positive number, in units of that number. -/
def nearest (spec : Format) (least n : Nat) : Nat :=
  cutDigits n (surplus spec least n) * 2 ^ (surplus spec least n - least)

theorem log2_mono {n n' : Nat} (h : n ≤ n') : n.log2 ≤ n'.log2 := by
  rcases Nat.eq_zero_or_pos n with rfl | hpos
  · exact Nat.zero_le _
  · exact (Nat.le_log2 (by omega)).2 ((Nat.log2_self_le (by omega)).trans h)

/-- Rounding keeps the order. -/
theorem nearest_mono (least : Nat) : Monotone (nearest spec least) := by
  intro n n' h
  have hlog := log2_mono h
  have hbits : spec.mantissaBits = spec.mantissaBitsWithoutImplicit + 1 := Nat.add_comm _ _
  unfold nearest
  rcases Nat.lt_or_ge (surplus spec least n) (surplus spec least n') with hlt | hge
  · -- a power of two lies between the two
    generalize hcut : surplus spec least n = cut at *
    generalize hcut' : surplus spec least n' = cut' at *
    unfold surplus at hcut hcut'
    have hlog' : n'.log2 = cut' + spec.mantissaBitsWithoutImplicit := by omega
    have hpositive : n' ≠ 0 := by
      rintro rfl
      have := spec.hm
      rw [Nat.log2_zero] at hlog'
      omega
    have hlow : n / 2 ^ cut < 2 ^ spec.mantissaBits := by
      refine Nat.div_lt_of_lt_mul (Nat.lt_log2_self.trans_le ?_)
      rw [← Nat.pow_add]
      exact Nat.pow_le_pow_right (by omega) (by omega)
    have hhigh : 2 ^ spec.mantissaBitsWithoutImplicit ≤ n' / 2 ^ cut' := by
      rw [Nat.le_div_iff_mul_le (Nat.two_pow_pos _), ← Nat.pow_add, Nat.add_comm, ← hlog']
      exact Nat.log2_self_le hpositive
    calc cutDigits n cut * 2 ^ (cut - least)
        ≤ 2 ^ spec.mantissaBits * 2 ^ (cut - least) := by
          refine Nat.mul_le_mul_right _ ?_
          have h := (roundedMantissa_bounds
            (ExtendedMantissa.ofMantissaAndAccuracy n .exact >>> cut)).2
          rw [mantissa_shift] at h
          exact h.trans hlow
      _ = 2 ^ spec.mantissaBitsWithoutImplicit * 2 ^ (cut - least + 1) := by
          rw [← Nat.pow_add, ← Nat.pow_add]
          congr 1
          omega
      _ ≤ cutDigits n' cut' * 2 ^ (cut' - least) := by
          refine Nat.mul_le_mul ?_ (Nat.pow_le_pow_right (by omega) (by omega))
          have h := (roundedMantissa_bounds
            (ExtendedMantissa.ofMantissaAndAccuracy n' .exact >>> cut')).1
          rw [mantissa_shift] at h
          exact hhigh.trans h
  · have heq : surplus spec least n' = surplus spec least n := by
      unfold surplus at hge ⊢
      omega
    rw [heq]
    exact Nat.mul_le_mul_right _ (cutDigits_mono h _)

/-! ## Where rounding arrives -/

/-- The number `m * 2 ^ e` in units of the least positive number. -/
def units (spec : Format) (m : Nat) (e : Int) : Nat := m * 2 ^ (e - spec.minExponent).toNat

theorem units_pos {m : Nat} (hm : 0 < m) (e : Int) : 0 < units spec m e :=
  Nat.mul_pos hm (Nat.two_pow_pos _)

/-- The numbers that lie along a sign, and how far in units of the least positive number. A zero
lies along both signs, whichever its own is. -/
inductive Along (spec : Format) (sign : Sign) : ℕ∞ → UnpackedFloat → Prop
  /-- A zero. -/
  | zero (s : Sign) : Along spec sign 0 (.zero s)
  /-- A finite number with the exponent that rounding aims at. -/
  | finite {m : Nat} {e : Int} (pos : 0 < m)
      (target : spec.targetExponent (totalExponent m e) = e) :
      Along spec sign (units spec m e : ℕ) (.finite sign m e pos)
  /-- An infinite number. -/
  | infinity : Along spec sign ⊤ (.infinity sign)

variable {sign : Sign} {m : Nat} {e base : Int}

/-- The exponent that rounding aims at. -/
abbrev aim (spec : Format) (m : Nat) (e : Int) : Int :=
  spec.targetExponent (totalExponent m e)

/-- The mantissa after rounding, for the exponent that rounding aims at. -/
def roundedDigits (spec : Format) (m : Nat) (e : Int) (acc : Accuracy) : Nat :=
  (ExtendedMantissa.ofMantissaAndAccuracy m acc >>> (aim spec m e - e).toNat).roundedMantissa

theorem roundedDigits_bounds (acc : Accuracy) :
    m / 2 ^ (aim spec m e - e).toNat ≤ roundedDigits spec m e acc ∧
      roundedDigits spec m e acc ≤ m / 2 ^ (aim spec m e - e).toNat + 1 := by
  have hleft : (ExtendedMantissa.ofMantissaAndAccuracy m acc >>>
      (aim spec m e - e).toNat).mantissa = m / 2 ^ (aim spec m e - e).toNat := by
    rw [mantissa_shift]
    rcases acc with _ | _ | _ | _ <;> rfl
  rw [← hleft]
  exact roundedMantissa_bounds _

/-- Rounding leaves no more digits than the format has, or their number is a power of two. -/
theorem roundedDigits_le (acc : Accuracy) (hle : e ≤ aim spec m e) :
    roundedDigits spec m e acc ≤ 2 ^ spec.mantissaBits := by
  refine (roundedDigits_bounds acc).2.trans (Nat.succ_le_of_lt ?_)
  refine Nat.div_lt_of_lt_mul (Nat.lt_log2_self.trans_le ?_)
  rw [← Nat.pow_add]
  refine Nat.pow_le_pow_right (by omega) ?_
  unfold aim Format.targetExponent totalExponent at *
  omega

/-- Rounding leaves all digits of the format, unless the exponent is the least one. -/
theorem le_roundedDigits (acc : Accuracy) (hm : 0 < m) (hle : e ≤ aim spec m e) :
    aim spec m e = spec.minExponent ∨
      2 ^ spec.mantissaBitsWithoutImplicit ≤ roundedDigits spec m e acc := by
  refine Classical.or_iff_not_imp_left.2 fun hexp => le_trans ?_ (roundedDigits_bounds acc).1
  rw [Nat.le_div_iff_mul_le (Nat.two_pow_pos _), ← Nat.pow_add]
  refine le_trans (Nat.pow_le_pow_right (by omega) ?_) (Nat.log2_self_le hm.ne')
  unfold aim Format.targetExponent totalExponent Format.mantissaBits at *
  omega

/-- A mantissa of a power of two too many is shifted once more. -/
theorem along_carried {r : Nat} {t : Int} (hmin : spec.minExponent ≤ t)
    (hle : r ≤ 2 ^ spec.mantissaBits)
    (hfull : t = spec.minExponent ∨ 2 ^ spec.mantissaBitsWithoutImplicit ≤ r) :
    Along spec sign (units spec r t : ℕ)
      (if h : (shiftToTargetExponent spec r t .exact).1.mantissa = 0 then .zero sign
        else .finite sign (shiftToTargetExponent spec r t .exact).1.mantissa
          (shiftToTargetExponent spec r t .exact).2 (Nat.pos_of_ne_zero h)) := by
  have hbits : spec.mantissaBits = spec.mantissaBitsWithoutImplicit + 1 := Nat.add_comm _ _
  have hshifted : (shiftToTargetExponent spec r t .exact).1.mantissa =
      r / 2 ^ (aim spec r t - t).toNat := mantissa_shift _ _
  have hexp : (shiftToTargetExponent spec r t .exact).2 = t + (aim spec r t - t).toNat := rfl
  generalize shiftToTargetExponent spec r t .exact = final at *
  obtain ⟨em, e'⟩ := final
  dsimp only at hshifted hexp ⊢
  generalize em.mantissa = m' at *
  rcases Nat.eq_zero_or_pos r with rfl | hpos
  · rw [Nat.zero_div] at hshifted
    rw [dif_pos hshifted, units, Nat.zero_mul]
    exact .zero sign
  rcases Nat.eq_or_lt_of_le hle with rfl | hlt
  · have htarget : aim spec (2 ^ spec.mantissaBits) t = t + 1 := by
      unfold aim Format.targetExponent totalExponent
      rw [Nat.log2_two_pow]
      omega
    have hone : (t + 1 - t).toNat = 1 := by omega
    rw [htarget, hone, hbits, Nat.pow_div (by omega) (by omega), Nat.add_sub_cancel] at hshifted
    rw [htarget, hone] at hexp
    have hcarried : 0 < 2 ^ spec.mantissaBitsWithoutImplicit := Nat.two_pow_pos _
    subst hshifted hexp
    rw [dif_neg hcarried.ne']
    have hunits : units spec (2 ^ spec.mantissaBits) t =
        units spec (2 ^ spec.mantissaBitsWithoutImplicit) (t + (1 : Nat)) := by
      unfold units
      rw [← Nat.pow_add, ← Nat.pow_add]
      congr 1
      omega
    rw [hunits]
    refine .finite hcarried ?_
    unfold Format.targetExponent totalExponent
    rw [Nat.log2_two_pow]
    omega
  · have hlog : r.log2 + 1 ≤ spec.mantissaBits := (Nat.log2_lt hpos.ne').2 hlt
    have hlog' : t = spec.minExponent ∨ spec.mantissaBitsWithoutImplicit ≤ r.log2 :=
      hfull.imp_right (Nat.le_log2 hpos.ne').2
    have htarget : aim spec r t = t := by
      unfold aim Format.targetExponent totalExponent
      omega
    rw [htarget, Int.sub_self, Int.toNat_zero, Nat.pow_zero, Nat.div_one] at hshifted
    rw [htarget, Int.sub_self, Int.toNat_zero, Int.natCast_zero, Int.add_zero] at hexp
    subst hshifted hexp
    rw [dif_neg hpos.ne']
    exact .finite hpos htarget

/-- Where rounding arrives, whatever is known of the digits that are missing. -/
theorem along_roundWithAccuracy (hm : 0 < m) (acc : Accuracy) (hle : e ≤ aim spec m e) :
    Along spec sign (units spec (roundedDigits spec m e acc) (aim spec m e) : ℕ)
      (roundWithAccuracy spec sign m e acc) := by
  have hfirst : shiftToTargetExponent spec m e acc =
      (ExtendedMantissa.ofMantissaAndAccuracy m acc >>> (aim spec m e - e).toNat,
        aim spec m e) := by
    refine Prod.ext rfl ?_
    change e + ((aim spec m e - e).toNat : Int) = aim spec m e
    omega
  unfold roundWithAccuracy
  rw [hfirst]
  exact along_carried (le_max_right _ _) (roundedDigits_le acc hle) (le_roundedDigits acc hm hle)

/-- Rounding an exact number arrives at the nearest one, in whatever unit it is counted. -/
theorem along_roundWithAccuracy_exact (hm : 0 < m) (hbase : base ≤ e)
    (hmin : base ≤ spec.minExponent) (hle : e ≤ aim spec m e) :
    Along spec sign
      (nearest spec (spec.minExponent - base).toNat (m * 2 ^ (e - base).toNat) : ℕ)
      (roundWithAccuracy spec sign m e .exact) := by
  have hbits : spec.mantissaBits = spec.mantissaBitsWithoutImplicit + 1 := Nat.add_comm _ _
  have hlog := log2_two_pow_mul (e - base).toNat hm
  have hcut : surplus spec (spec.minExponent - base).toNat (2 ^ (e - base).toNat * m) =
      (e - base).toNat + (aim spec m e - e).toNat := by
    unfold surplus aim Format.targetExponent totalExponent at *
    omega
  have hnearest : nearest spec (spec.minExponent - base).toNat (m * 2 ^ (e - base).toNat) =
      units spec (roundedDigits spec m e .exact) (aim spec m e) := by
    unfold nearest units
    rw [Nat.mul_comm m, hcut, cutDigits_two_pow_mul]
    congr 2
    have : spec.minExponent ≤ aim spec m e := le_max_right _ _
    omega
  rw [hnearest]
  exact along_roundWithAccuracy hm .exact hle

/-- Rounding arrives at the nearest number. -/
theorem along_round (hm : 0 < m) (hbase : base ≤ e) (hmin : base ≤ spec.minExponent) :
    Along spec sign
      (nearest spec (spec.minExponent - base).toNat (m * 2 ^ (e - base).toNat) : ℕ)
      (UnpackedFloat.round spec sign m e) := by
  have hpow := Nat.two_pow_pos (e - aim spec m e).toNat
  have hlog := log2_two_pow_mul (e - aim spec m e).toNat hm
  have htarget : spec.minExponent ≤ aim spec m e := le_max_right _ _
  have hsame : m * 2 ^ (e - base).toNat = 2 ^ (e - aim spec m e).toNat * m *
      2 ^ (e - (e - aim spec m e).toNat - base).toNat := by
    rw [Nat.mul_comm _ m, Nat.mul_assoc, ← Nat.pow_add]
    congr 2
    omega
  have hdecreased : UnpackedFloat.round spec sign m e = roundWithAccuracy spec sign
      (2 ^ (e - aim spec m e).toNat * m) (e - (e - aim spec m e).toNat) .exact := by
    rw [Nat.mul_comm, ← Nat.shiftLeft_eq]
    rfl
  rw [hsame, hdecreased]
  refine along_roundWithAccuracy_exact (Nat.mul_pos hpow hm) (by omega) hmin ?_
  unfold aim Format.targetExponent totalExponent at *
  omega

/-! ## Overflow -/

/-- A number as the bits of the format keep it. -/
def settle (spec : Format) (x : UnpackedFloat) : UnpackedFloat := unpack spec (pack spec x)

/-- The least number of units that is not finite any more, as an exponent of two. -/
def limitExponent (spec : Format) : Nat :=
  spec.mantissaBitsWithoutImplicit + (2 ^ spec.exponentBits - 2)

/-- A number of units, or infinity from a limit on. -/
def capped (spec : Format) (n : ℕ∞) : ℕ∞ :=
  if ((2 ^ limitExponent spec : ℕ) : ℕ∞) ≤ n then ⊤ else n

theorem capped_mono : Monotone (capped spec) := by
  intro n n' h
  unfold capped
  split_ifs with hn hn'
  · exact le_rfl
  · exact absurd (hn.trans h) hn'
  · exact le_top
  · exact h

theorem capped_zero : capped spec 0 = 0 := by
  refine if_neg fun h => ?_
  have hpos := Nat.two_pow_pos (limitExponent spec)
  have hle : 2 ^ limitExponent spec ≤ 0 := by exact_mod_cast h
  omega

theorem capped_top : capped spec ⊤ = ⊤ := if_pos le_top

/-- A finite number overflows if it has too many units. -/
theorem limit_le_units_iff (hbits : 2 ≤ spec.exponentBits) (hm : 0 < m)
    (htarget : aim spec m e = e) :
    2 ^ limitExponent spec ≤ units spec m e ↔
      2 ^ spec.exponentBits ≤
        (e + spec.exponentBias + spec.mantissaBitsWithoutImplicit).toNat + 1 := by
  have hmin := minExponent_eq spec
  have hfour : 2 ^ 2 ≤ 2 ^ spec.exponentBits := Nat.pow_le_pow_right (by decide) hbits
  unfold aim Format.targetExponent totalExponent Format.mantissaBits at htarget
  unfold units limitExponent
  generalize 2 ^ spec.exponentBits = count at *
  constructor
  · intro h
    by_contra hlt
    refine absurd h (Nat.not_le_of_lt ?_)
    calc m * 2 ^ (e - spec.minExponent).toNat
        < 2 ^ (m.log2 + 1) * 2 ^ (e - spec.minExponent).toNat :=
          Nat.mul_lt_mul_of_pos_right Nat.lt_log2_self (Nat.two_pow_pos _)
      _ ≤ 2 ^ (spec.mantissaBitsWithoutImplicit + (count - 2)) := by
          rw [← Nat.pow_add]
          exact Nat.pow_le_pow_right (by omega) (by omega)
  · intro h
    calc 2 ^ (spec.mantissaBitsWithoutImplicit + (count - 2))
        ≤ 2 ^ m.log2 * 2 ^ (e - spec.minExponent).toNat := by
          rw [← Nat.pow_add]
          exact Nat.pow_le_pow_right (by omega) (by omega)
      _ ≤ m * 2 ^ (e - spec.minExponent).toNat :=
          Nat.mul_le_mul_right _ (Nat.log2_self_le hm.ne')

theorem settle_infinity (sign : Sign) : settle spec (.infinity sign) = .infinity sign := by
  change decode spec sign (-1#_) 0#_ = _
  rw [decode_eq, if_pos rfl, if_pos rfl]

theorem settle_zero (sign : Sign) : settle spec (.zero sign) = .zero sign := unpack_packedZero

theorem toNat_ofNat {width k : Nat} (hk : k < 2 ^ width) : (BitVec.ofNat width k).toNat = k := by
  rw [BitVec.toNat_ofNat, Nat.mod_eq_of_lt hk]

theorem ofNat_ne_zero {width k : Nat} (hk : k < 2 ^ width) (hpos : 0 < k) :
    BitVec.ofNat width k ≠ 0#(width) := by
  intro h
  have hzero := toNat_ofNat hk
  rw [h, BitVec.toNat_ofNat, Nat.zero_mod] at hzero
  omega

theorem ofNat_ne_neg_one {width k : Nat} (hk : k + 1 < 2 ^ width) :
    BitVec.ofNat width k ≠ -1#(width) := by
  intro h
  have hones := toNat_ofNat (by omega : k < 2 ^ width)
  rw [h, BitVec.neg_one_eq_allOnes, BitVec.toNat_allOnes] at hones
  omega

/-- The leading digit of a mantissa with all digits is not among the bits. -/
theorem decode_full {field : Nat} (pos : 0 < m) (hlog : m.log2 = spec.mantissaBitsWithoutImplicit)
    (hfield : 0 < field) (hlt : field + 1 < 2 ^ spec.exponentBits) :
    decode spec sign (BitVec.ofNat _ field) (BitVec.ofNat _ m) = .finite sign m
      (field - (spec.exponentBias + spec.mantissaBitsWithoutImplicit)) pos := by
  obtain ⟨hlow, hhigh⟩ := (Nat.log2_eq_iff pos.ne').1 hlog
  have hmantissa : (1#1 ++ BitVec.ofNat spec.mantissaBitsWithoutImplicit m).toNat = m := by
    rw [Nat.pow_succ] at hhigh
    rw [toNat_one_append, BitVec.toNat_ofNat, Nat.mod_eq_sub_mod hlow,
      Nat.mod_eq_of_lt (by omega)]
    omega
  rw [decode_eq, if_neg (ofNat_ne_neg_one hlt), if_neg (ofNat_ne_zero (by omega) hfield)]
  congr 1
  rw [toNat_ofNat (by omega)]

/-- A mantissa with fewer digits has the exponent field zero. -/
theorem decode_partial (pos : 0 < m) (hlt : m < 2 ^ spec.mantissaBitsWithoutImplicit)
    (hfour : 2 ^ 2 ≤ 2 ^ spec.exponentBits) :
    decode spec sign 0#_ (BitVec.ofNat _ m) = .finite sign m
      (1 - (spec.exponentBias + spec.mantissaBitsWithoutImplicit)) pos := by
  have hspecial : (0#(spec.exponentBits)) ≠ -1#(spec.exponentBits) := ofNat_ne_neg_one (by omega)
  rw [decode_eq, if_neg hspecial, if_pos rfl, dif_neg (ofNat_ne_zero hlt pos)]
  congr 1
  · exact toNat_ofNat hlt
  · rw [BitVec.toNat_ofNat, Nat.zero_mod]
    omega

/-- A finite number that does not overflow is kept by the bits. -/
theorem settle_finite (hbits : 2 ≤ spec.exponentBits) (pos : 0 < m) (htarget : aim spec m e = e)
    (hlt : (e + spec.exponentBias + spec.mantissaBitsWithoutImplicit).toNat + 1 <
      2 ^ spec.exponentBits) :
    settle spec (.finite sign m e pos) = .finite sign m e pos := by
  have hmin := minExponent_eq spec
  have hfour : 2 ^ 2 ≤ 2 ^ spec.exponentBits := Nat.pow_le_pow_right (by decide) hbits
  unfold aim Format.targetExponent totalExponent Format.mantissaBits at htarget
  unfold settle pack Format.mantissaBits
  dsimp only
  rw [if_neg (by omega)]
  split
  · rw [← decode, decode_full pos (by omega) (by omega) hlt]
    congr 1
    omega
  · rw [← decode, decode_partial pos ((Nat.log2_lt pos.ne').1 (by omega)) hfour]
    congr 1
    omega

/-- What the bits keep of a number. -/
theorem along_settle (hbits : 2 ≤ spec.exponentBits) {n : ℕ∞} {x : UnpackedFloat}
    (h : Along spec sign n x) : Along spec sign (capped spec n) (settle spec x) := by
  cases h with
  | zero s =>
    rw [capped_zero, settle_zero]
    exact .zero s
  | infinity =>
    rw [capped_top, settle_infinity]
    exact .infinity
  | @finite m e pos htarget =>
    have hlimit := limit_le_units_iff hbits pos htarget
    unfold capped
    split_ifs with h
    all_goals rw [Nat.cast_le] at h
    · have hsettled : settle spec (.finite sign m e pos) = settle spec (.infinity sign) := by
        unfold settle pack
        dsimp only
        rw [if_pos (hlimit.1 h)]
      rw [hsettled, settle_infinity]
      exact .infinity
    · rw [settle_finite hbits pos htarget (by omega)]
      exact .finite pos htarget

/-! ## Rounding within the format -/

/-- What an operation of the format makes of an exact result, which is counted in units that are
`2 ^ least` times smaller than the least positive number. -/
def rounded (spec : Format) (least : Nat) (n : ℕ∞) : ℕ∞ :=
  capped spec (ENat.recTopCoe ⊤ (fun k => (nearest spec least k : ℕ)) n)

theorem rounded_natCast (least k : Nat) :
    rounded spec least (k : ℕ) = capped spec (nearest spec least k : ℕ) := rfl

theorem rounded_top (least : Nat) : rounded spec least ⊤ = ⊤ := capped_top

theorem rounded_mono (least : Nat) : Monotone (rounded spec least) := by
  intro n n' h
  induction n' with
  | top => exact le_top.trans (rounded_top least).ge
  | coe k' =>
    induction n with
    | top => exact absurd h (by simp)
    | coe k =>
      exact capped_mono (Nat.cast_le.2 (nearest_mono least (Nat.cast_le.1 h)))

theorem rounded_zero (least : Nat) : rounded spec least 0 = 0 := by
  have hnearest : nearest spec least 0 = 0 := by
    unfold nearest
    rw [cutDigits_eq, Nat.zero_mod, if_pos (by simp), Nat.zero_div, Nat.add_zero, Nat.zero_mul]
  have hrounded : rounded spec least (0 : ℕ) = capped spec (nearest spec least 0 : ℕ) := rfl
  rw [hnearest, Nat.cast_zero, capped_zero] at hrounded
  exact hrounded

theorem along_inj {n n' : ℕ∞} {x : UnpackedFloat} (h : Along spec sign n x)
    (h' : Along spec sign n' x) : n = n' := by
  cases h <;> cases h' <;> rfl

/-- A number of the format is not rounded. -/
theorem rounded_along (hbits : 2 ≤ spec.exponentBits) {n : ℕ∞} {x : UnpackedFloat}
    (h : Along spec sign n x) (hsettled : settle spec x = x) : rounded spec 0 n = n := by
  have hcapped : capped spec n = n := by
    have hkept := along_settle hbits h
    rw [hsettled] at hkept
    exact along_inj hkept h
  cases h with
  | zero s => exact rounded_zero 0
  | infinity => exact hcapped
  | @finite m e pos htarget =>
    have hlog := log2_two_pow_mul (e - spec.minExponent).toNat pos
    have hcut : surplus spec 0 (2 ^ (e - spec.minExponent).toNat * m) =
        (e - spec.minExponent).toNat + 0 := by
      unfold surplus
      unfold Format.targetExponent totalExponent at htarget
      omega
    have hnearest : nearest spec 0 (units spec m e) = units spec m e := by
      unfold units
      rw [Nat.mul_comm, nearest, hcut, cutDigits_two_pow_mul, Nat.add_zero, Nat.sub_zero,
        Nat.mul_comm]
      rfl
    rw [rounded_natCast, hnearest, hcapped]

end FloatingPoint

end DenseLinear
