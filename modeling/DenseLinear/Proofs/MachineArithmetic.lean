import DenseLinear.Proofs.Directions

/-!
# Machine arithmetic

`BinaryArith F` says that `F` computes with the numbers of a binary format and settles every result
to its bits. Both widths do. The rules for directions are put here in terms of the operations of
such a type. None of them excludes a value: `Toward s x` holds of whatever is not a number too, and
`Wild x` collects these values and the infinities.
-/

namespace DenseLinear

namespace FloatingPoint

open Float.Model (Format UnpackedFloat)
open Float.Model.UnpackedFloat

/-- Not a number, or infinite. -/
inductive Unbounded : UnpackedFloat → Prop
  /-- Not a number. -/
  | notANumber : Unbounded .notANumber
  /-- Infinite. -/
  | infinity (s : Sign) : Unbounded (.infinity s)

/-- Arithmetic with the numbers of a binary format. -/
class BinaryArith (F : Type) [RealArith F] where
  /-- The format. -/
  format : Format
  /-- It tells infinite numbers from finite ones. -/
  exponentBits : 2 ≤ format.exponentBits
  /-- The number that is kept. -/
  read : F → UnpackedFloat
  /-- It is one of the format. -/
  settle_read : ∀ x, settle format (read x) = read x
  /-- Zero is the positive one. -/
  read_zero : read 0 = .zero .positive
  /-- One is positive. -/
  read_one : Signed .positive (read 1)
  /-- Sums are rounded once. -/
  read_add : ∀ x y, read (x + y) = settle format (UnpackedFloat.add format (read x) (read y))
  /-- So are differences. -/
  read_sub : ∀ x y, read (x - y) = settle format (UnpackedFloat.sub format (read x) (read y))
  /-- So are products. -/
  read_mul : ∀ x y, read (x * y) = settle format (UnpackedFloat.mul format (read x) (read y))
  /-- So are quotients. -/
  read_div : ∀ x y, read (x / y) = settle format (UnpackedFloat.div format (read x) (read y))
  /-- So are square roots. -/
  read_sqrt : ∀ x, read (RealArith.sqrt x) = settle format (UnpackedFloat.sqrt format (read x))
  /-- Negation changes the sign. -/
  read_neg : ∀ x, read (-x) = settle format (UnpackedFloat.neg (read x))
  /-- The absolute value drops it. -/
  read_abs : ∀ x, read (RealArith.abs x) = settle format (UnpackedFloat.abs (read x))
  /-- Numbers are compared for equality by what is kept. -/
  beq_eq : ∀ x y, (x == y) = (read x).beq (read y)
  /-- So they are for their order. -/
  le_eq : ∀ x y, RealArith.le x y = (read x).le (read y)
  /-- A hypotenuse has no negative sign. -/
  read_hypot : ∀ x y, read (RealArith.hypot x y) = .notANumber ∨
    Signed .positive (read (RealArith.hypot x y))
  /-- It is not a finite number if a leg is not a number. -/
  hypot_unbounded : ∀ x y, read y = .notANumber → Unbounded (read (RealArith.hypot x y))

/-! ## The hypotenuse -/

/-- The bits of a rounded number are at most those of infinity. -/
theorem encode_le (f : BinaryFormat) (m : Nat) (q : Int) : f.encode m q ≤ f.infinity := by
  unfold BinaryFormat.encode
  split
  · exact Nat.zero_le _
  · exact min_le_right _ _

theorem hypotenuse_le (f : BinaryFormat) (x y : Nat) : f.hypotenuse x y ≤ f.infinity :=
  encode_le _ _ _

/-- Bits without the one of the sign are not those of a number with a negative sign. -/
theorem signed_unpack {spec : Format} (b : BitVec spec.numBits)
    (h : b.toNat < 2 ^ (spec.mantissaBitsWithoutImplicit + spec.exponentBits)) :
    unpack spec b = .notANumber ∨ Signed .positive (unpack spec b) := by
  have hsign : Sign.ofBitVec (unpackSign b) = .positive := by
    refine if_pos (BitVec.eq_of_toNat_eq ?_)
    simp [unpackSign, Nat.shiftRight_eq_div_pow, Nat.div_eq_of_lt h]
  rw [unpack_eq_decode, hsign]
  exact signed_decode _ _

theorem double_hypot_signed (x y : Float) :
    (Double.hypot x y).toModel.unpack = .notANumber ∨
      Signed .positive (Double.hypot x y).toModel.unpack := by
  unfold Double.hypot
  split_ifs
  · exact .inr .infinity
  · exact .inl rfl
  · have hbits := hypotenuse_le .double x.abs.toBits.toNat y.abs.toBits.toNat
    generalize BinaryFormat.double.hypotenuse x.abs.toBits.toNat y.abs.toBits.toNat = bits at *
    have hread : (Float.ofBits (.ofNat bits)).toModel.unpack =
        unpack .binary64 (UInt64.ofNat bits).toBitVec :=
      @unpack_pack_unpack .binary64 (by decide) (UInt64.ofNat bits).toBitVec
    rw [hread]
    refine signed_unpack _ ?_
    change bits % 2 ^ 64 < 2 ^ 63
    change bits ≤ 0x7ff0000000000000 at hbits
    omega

theorem double_hypot_unbounded (x y : Float) (h : y.toModel.unpack = .notANumber) :
    Unbounded (Double.hypot x y).toModel.unpack := by
  have hnan : y.isNaN = true := congrArg UnpackedFloat.isNaN h
  unfold Double.hypot
  split_ifs with hinf hlegs
  · exact .infinity .positive
  · exact .notANumber
  · rw [hnan, Bool.or_true] at hlegs
    exact absurd rfl hlegs

theorem single_hypot_signed (x y : Float32) :
    (Single.hypot x y).toModel.unpack = .notANumber ∨
      Signed .positive (Single.hypot x y).toModel.unpack := by
  unfold Single.hypot
  split_ifs
  · exact .inr .infinity
  · exact .inl rfl
  · have hbits := hypotenuse_le .single x.abs.toBits.toNat y.abs.toBits.toNat
    generalize BinaryFormat.single.hypotenuse x.abs.toBits.toNat y.abs.toBits.toNat = bits at *
    have hread : (Float32.ofBits (.ofNat bits)).toModel.unpack =
        unpack .binary32 (UInt32.ofNat bits).toBitVec :=
      @unpack_pack_unpack .binary32 (by decide) (UInt32.ofNat bits).toBitVec
    rw [hread]
    refine signed_unpack _ ?_
    change bits % 2 ^ 32 < 2 ^ 31
    change bits ≤ 0x7f800000 at hbits
    omega

theorem single_hypot_unbounded (x y : Float32) (h : y.toModel.unpack = .notANumber) :
    Unbounded (Single.hypot x y).toModel.unpack := by
  have hnan : y.isNaN = true := congrArg UnpackedFloat.isNaN h
  unfold Single.hypot
  split_ifs with hinf hlegs
  · exact .infinity .positive
  · exact .notANumber
  · rw [hnan, Bool.or_true] at hlegs
    exact absurd rfl hlegs

instance : BinaryArith Float where
  format := .binary64
  exponentBits := by decide
  read x := x.toModel.unpack
  settle_read x := @unpack_pack_unpack .binary64 (by decide) x.toModel.toBits.toBitVec
  read_zero := rfl
  read_one := .finite (2 ^ 52) (-52) (by decide)
  read_add _ _ := rfl
  read_sub _ _ := rfl
  read_mul _ _ := rfl
  read_div _ _ := rfl
  read_sqrt _ := rfl
  read_neg _ := rfl
  read_abs _ := rfl
  beq_eq _ _ := rfl
  le_eq x y := (Bool.decide_coe (x.le y)).trans (Bool.decide_coe (x.toModel.le y.toModel))
  read_hypot := double_hypot_signed
  hypot_unbounded := double_hypot_unbounded

instance : BinaryArith Float32 where
  format := .binary32
  exponentBits := by decide
  read x := x.toModel.unpack
  settle_read x := @unpack_pack_unpack .binary32 (by decide) x.toModel.toBits.toBitVec
  read_zero := rfl
  read_one := .finite (2 ^ 23) (-23) (by decide)
  read_add _ _ := rfl
  read_sub _ _ := rfl
  read_mul _ _ := rfl
  read_div _ _ := rfl
  read_sqrt _ := rfl
  read_neg _ := rfl
  read_abs _ := rfl
  beq_eq _ _ := rfl
  le_eq x y := (Bool.decide_coe (x.le y)).trans (Bool.decide_coe (x.toModel.le y.toModel))
  read_hypot := single_hypot_signed
  hypot_unbounded := single_hypot_unbounded

/-! ## Values that are not numbers, and infinities -/

section Rules

variable {spec : Format} {u v : UnpackedFloat}

theorem Unbounded.settle (h : Unbounded u) : Unbounded (settle spec u) := by
  cases h with
  | notANumber =>
    rw [settle_notANumber]
    exact .notANumber
  | infinity s =>
    rw [settle_infinity]
    exact .infinity s

theorem Unbounded.neg (h : Unbounded u) : Unbounded (UnpackedFloat.neg u) := by
  cases h with
  | notANumber => exact .notANumber
  | infinity s => exact .infinity (-s)

theorem Unbounded.sqrt (h : Unbounded u) : Unbounded (UnpackedFloat.sqrt spec u) := by
  cases h with
  | notANumber => exact .notANumber
  | infinity s =>
    cases s with
    | positive => exact .infinity .positive
    | negative => exact .notANumber

theorem unbounded_add (h : Unbounded u ∨ Unbounded v) : Unbounded (UnpackedFloat.add spec u v) := by
  rcases h with h | h
  · cases h with
    | notANumber => exact .notANumber
    | infinity s =>
      cases v with
      | infinity s' => cases s <;> cases s' <;> constructor
      | _ => constructor
  · cases h with
    | notANumber => cases u <;> exact .notANumber
    | infinity s =>
      cases u with
      | infinity s' => cases s <;> cases s' <;> constructor
      | _ => constructor

theorem unbounded_mul (h : Unbounded u ∨ Unbounded v) : Unbounded (UnpackedFloat.mul spec u v) := by
  rcases h with h | h
  · cases h <;> cases v <;> constructor
  · cases h <;> cases u <;> constructor

variable {F : Type} [RealArith F] [BinaryArith F] {s t : Sign} {x x' y y' : F}

open BinaryArith

/-- Not a number. -/
def Lost (x : F) : Prop := read x = .notANumber

/-- Not a number, or infinite. -/
def Wild (x : F) : Prop := Unbounded (read x)

theorem Lost.wild (h : Lost x) : Wild x := by
  unfold Wild
  rw [h]
  exact .notANumber

theorem lost_add (h : Lost x ∨ Lost y) : Lost (x + y) := by
  unfold Lost at *
  rw [read_add]
  rcases h with h | h <;> rw [h]
  · exact settle_notANumber
  · cases read x <;> exact settle_notANumber

theorem lost_mul (h : Lost x ∨ Lost y) : Lost (x * y) := by
  unfold Lost at *
  rw [read_mul]
  rcases h with h | h <;> rw [h]
  · exact settle_notANumber
  · cases read x <;> exact settle_notANumber

theorem lost_div (h : Lost x ∨ Lost y) : Lost (x / y) := by
  unfold Lost at *
  rw [read_div]
  rcases h with h | h <;> rw [h]
  · exact settle_notANumber
  · cases read x <;> exact settle_notANumber

theorem Lost.neg (h : Lost x) : Lost (-x) := by
  unfold Lost at *
  rw [read_neg, h]
  exact settle_notANumber

theorem Lost.sqrt (h : Lost x) : Lost (RealArith.sqrt x) := by
  unfold Lost at *
  rw [read_sqrt, h]
  exact settle_notANumber

theorem Lost.abs (h : Lost x) : Lost (RealArith.abs x) := by
  unfold Lost at *
  rw [read_abs, h]
  exact settle_notANumber

/-- The negative of a number differs from it in the sign only. -/
theorem read_neg_eq (x : F) : read (-x) = UnpackedFloat.neg (read x) := by
  rw [read_neg, settle_neg exponentBits (settle_read x)]

/-- A difference is the sum with the negative. -/
theorem read_sub_eq (x y : F) : read (x - y) = read (x + -y) := by
  rw [read_sub, read_add, read_neg_eq, add_neg]

theorem lost_sub (h : Lost x ∨ Lost y) : Lost (x - y) := by
  unfold Lost
  rw [read_sub_eq]
  exact lost_add (h.imp_right Lost.neg)

theorem wild_add (h : Wild x ∨ Wild y) : Wild (x + y) := by
  unfold Wild
  rw [read_add]
  exact (unbounded_add h).settle

theorem wild_mul (h : Wild x ∨ Wild y) : Wild (x * y) := by
  unfold Wild
  rw [read_mul]
  exact (unbounded_mul h).settle

theorem Wild.neg (h : Wild x) : Wild (-x) := by
  unfold Wild
  rw [read_neg]
  exact (Unbounded.neg h).settle

theorem Wild.sqrt (h : Wild x) : Wild (RealArith.sqrt x) := by
  unfold Wild
  rw [read_sqrt]
  exact (Unbounded.sqrt h).settle

theorem wild_sub (h : Wild x ∨ Wild y) : Wild (x - y) := by
  unfold Wild
  rw [read_sub_eq]
  exact wild_add (h.imp_right Wild.neg)

theorem wild_hypot (h : Lost y) (x : F) : Wild (RealArith.hypot x y) := hypot_unbounded x y h

/-- A quotient of infinities is not a number. -/
theorem Wild.lost_div (hx : Wild x) (hy : Wild y) : Lost (x / y) := by
  unfold Wild Lost at *
  rw [read_div]
  generalize read x = u at hx
  generalize read y = v at hy
  cases hx <;> cases hy <;> exact settle_notANumber

/-! ## Comparisons -/

/-- A number is equal to zero only if it is one of the zeros. -/
theorem beq_zero_iff : (x == 0) = true ↔ ∃ z, read x = .zero z := by
  rw [beq_eq, read_zero]
  have hother : ∀ u : UnpackedFloat, (∀ z, u ≠ .zero z) → u.beq (.zero .positive) = false := by
    intro u hu
    cases u with
    | zero z => exact absurd rfl (hu z)
    | notANumber => rfl
    | infinity z => cases z <;> rfl
    | finite z m e pos => cases z <;> rfl
  constructor
  · intro h
    by_contra hzero
    rw [hother (read x) fun z hz => hzero ⟨z, hz⟩] at h
    exact absurd h Bool.false_ne_true
  · rintro ⟨z, hz⟩
    rw [hz]
    rfl

theorem beq_zero_eq_false_iff : (x == 0) = false ↔ ∀ z, read x ≠ .zero z := by
  rw [← Bool.not_eq_true, beq_zero_iff, not_exists]

theorem Wild.beq_zero (h : Wild x) : (x == 0) = false := by
  rw [beq_zero_eq_false_iff]
  intro z hz
  unfold Wild at h
  rw [hz] at h
  cases h

theorem Lost.beq_zero (h : Lost x) : (x == 0) = false := h.wild.beq_zero

/-! ## Directions -/

/-- Not a number, or one along a sign. -/
def Toward (s : Sign) (x : F) : Prop := Tends (format F) s (read x)

theorem Lost.toward (h : Lost x) (s : Sign) : Toward s x := .inl h

theorem exists_toward (x : F) : ∃ s, Toward s x := by
  unfold Toward
  rw [← settle_read, settle, unpack_eq_decode]
  exact ⟨_, tends_decode _ _⟩

theorem toward_of_beq_zero (h : (x == 0) = true) (s : Sign) : Toward s x := by
  obtain ⟨z, hz⟩ := beq_zero_iff.1 h
  unfold Toward
  rw [hz]
  exact .inr ⟨0, .zero z⟩

theorem toward_zero (s : Sign) : Toward s (0 : F) :=
  toward_of_beq_zero (beq_zero_iff.2 ⟨_, read_zero⟩) s

theorem toward_one : Toward .positive (1 : F) := by
  unfold Toward
  rw [← settle_read]
  exact read_one.tends_settle

theorem toward_add (hx : Toward s x) (hy : Toward s y) : Toward s (x + y) := by
  rcases hx with hx | ⟨n, hx⟩
  · exact (lost_add (.inl hx)).toward s
  rcases hy with hy | ⟨n', hy⟩
  · exact (lost_add (.inr hy)).toward s
  unfold Toward
  rw [read_add]
  exact .inr ⟨_, along_add exponentBits (settle_read x) (settle_read y) hx hy⟩

theorem Toward.neg (hx : Toward s x) : Toward (-s) (-x) := by
  unfold Toward
  rw [read_neg_eq]
  rcases hx with hx | ⟨n, hx⟩
  · rw [hx]
    exact .inl rfl
  · exact .inr ⟨n, hx.neg⟩

theorem toward_sub (hx : Toward s x) (hy : Toward (-s) y) : Toward s (x - y) := by
  have hneg : - -s = s := by cases s <;> rfl
  have hsum := toward_add hx (hneg ▸ hy.neg)
  unfold Toward at *
  rw [read_sub_eq]
  exact hsum

/-- How far a product lies. -/
theorem lost_or_along_mul {n n' : ℕ∞} (hx : Along (format F) s n (read x))
    (hy : Along (format F) t n' (read y)) :
    Lost (x * y) ∨ Along (format F) (s * t)
      (rounded (format F) (-(format F).minExponent).toNat (n * n')) (read (x * y)) := by
  unfold Lost
  rw [read_mul]
  refine (along_mul exponentBits hx hy).imp_left fun hnan => ?_
  rw [hnan, settle_notANumber]

theorem toward_mul (hx : Toward s x) (hy : Toward t y) : Toward (s * t) (x * y) := by
  rcases hx with hx | ⟨n, hx⟩
  · exact (lost_mul (.inl hx)).toward _
  rcases hy with hy | ⟨n', hy⟩
  · exact (lost_mul (.inr hy)).toward _
  exact (lost_or_along_mul hx hy).imp_right fun h => ⟨_, h⟩

theorem toward_mul_self (x : F) : Toward .positive (x * x) := by
  obtain ⟨s, hs⟩ := exists_toward x
  have hsquare : s * s = .positive := by cases s <;> rfl
  exact hsquare ▸ toward_mul hs hs

/-- The product of a number by its negative. -/
theorem toward_neg_mul_self (x : F) : Toward .negative (-x * x) := by
  obtain ⟨s, hs⟩ := exists_toward x
  have hsquare : -s * s = .negative := by cases s <;> rfl
  exact hsquare ▸ toward_mul hs.neg hs

theorem toward_sqrt (x : F) : Toward .positive (RealArith.sqrt x) := by
  unfold Toward
  rw [read_sqrt]
  exact tends_sqrt (read x)

theorem toward_div (hx : Toward s x) (hy : Lost y ∨ Signed t (read y)) :
    Toward (s / t) (x / y) := by
  rcases hx with hx | ⟨n, hx⟩
  · exact (lost_div (.inl hx)).toward _
  rcases hy with hy | hy
  · exact (lost_div (.inr hy)).toward _
  unfold Toward
  rw [read_div]
  exact tends_div hx hy

/-- A number that is not negative is at least zero. -/
theorem Toward.zero_le (h : Toward .positive x) : Lost x ∨ RealArith.le 0 x = true := by
  refine h.imp_right fun ⟨n, hx⟩ => ?_
  rw [le_eq, read_zero]
  generalize read x = u at hx
  cases hx <;> rfl

theorem Lost.le_eq_false (h : Lost x) (y : F) : RealArith.le y x = false := by
  unfold Lost at h
  rw [le_eq, h]
  cases read y <;> rfl

/-- Nothing but zero has an absolute value that is no greater than that of zero. -/
theorem beq_zero_of_le_abs (hle : RealArith.le (RealArith.abs y) (RealArith.abs x) = true)
    (hx : (x == 0) = true) : (y == 0) = true := by
  obtain ⟨z, hz⟩ := beq_zero_iff.1 hx
  rw [le_eq, read_abs x, hz, UnpackedFloat.abs, settle_zero] at hle
  obtain ⟨s, hy | ⟨n, hy⟩⟩ := exists_toward y
  · have hlost : read (RealArith.abs y) = .notANumber := Lost.abs hy
    rw [hlost] at hle
    exact absurd hle Bool.false_ne_true
  have habs := along_settle exponentBits hy.abs
  rw [← read_abs] at habs
  have hzero : capped (format F) n = 0 := by
    generalize read (RealArith.abs y) = u at hle habs
    generalize capped (format F) n = k at habs
    cases habs with
    | zero z => rfl
    | infinity => exact absurd hle Bool.false_ne_true
    | finite pos target => exact absurd hle Bool.false_ne_true
  exact beq_zero_iff.2 (hy.exists_eq_zero (by_contra fun hn => capped_ne_zero hn hzero))

/-- An absolute value has no negative sign. -/
theorem signed_abs (x : F) :
    Lost (RealArith.abs x) ∨ Signed .positive (read (RealArith.abs x)) := by
  unfold Lost
  rw [read_abs]
  cases read x with
  | notANumber => exact .inl settle_notANumber
  | zero z => exact Signed.zero.signed_settle
  | infinity z => exact Signed.infinity.signed_settle
  | finite z m e pos => exact (Signed.finite m e pos).signed_settle

/-- A number other than zero has the sign that it lies along. -/
theorem Toward.signed (hx : Toward s x) (hzero : (x == 0) = false) :
    Lost x ∨ Signed s (read x) := by
  rcases hx with hx | ⟨n, hx⟩
  · exact .inl hx
  rw [beq_zero_eq_false_iff] at hzero
  refine .inr ?_
  generalize read x = u at *
  cases hx with
  | zero z => exact absurd rfl (hzero z)
  | infinity => exact .infinity
  | finite pos target => exact .finite _ _ pos

/-- Not a number, or zero: it lies along both signs. -/
def Null (x : F) : Prop := ∀ s, Toward s x

theorem null_zero : Null (0 : F) := toward_zero

theorem null_add (hx : Null x) (hy : Null y) : Null (x + y) := fun s => toward_add (hx s) (hy s)

theorem null_mul (h : Null x ∨ Null y) : Null (x * y) := by
  intro s
  obtain ⟨sx, hx⟩ := exists_toward x
  obtain ⟨sy, hy⟩ := exists_toward y
  rcases h with h | h
  · have hsign : s * sy * sy = s := by cases s <;> cases sy <;> rfl
    exact hsign ▸ toward_mul (h (s * sy)) hy
  · have hsign : sx * (sx * s) = s := by cases s <;> cases sx <;> rfl
    exact hsign ▸ toward_mul hx (h (sx * s))

/-- A null value is zero, or not a number. -/
theorem Null.lost_or_beq_zero (h : Null x) : Lost x ∨ (x == 0) = true := by
  rw [beq_zero_iff]
  rcases h .positive with hx | ⟨n, hx⟩
  · exact .inl hx
  rcases h .negative with hy | ⟨n', hy⟩
  · exact .inl hy
  refine .inr ?_
  generalize read x = u at *
  cases hx <;> cases hy
  exact ⟨_, rfl⟩

/-- The imaginary part of the product of a number by its conjugate cancels. -/
theorem null_cancel (x y : F) : Null (x * y + -y * x) := by
  intro s
  obtain ⟨sx, hx | ⟨n, hx⟩⟩ := exists_toward x
  · exact (lost_add (.inl (lost_mul (.inl hx)))).toward s
  obtain ⟨sy, hy | ⟨n', hy⟩⟩ := exists_toward y
  · exact (lost_add (.inl (lost_mul (.inr hy)))).toward s
  have hneg : Along (format F) (-sy) n' (read (-y)) := by
    rw [read_neg_eq]
    exact hy.neg
  rcases lost_or_along_mul hx hy with h | h
  · exact (lost_add (.inl h)).toward s
  rcases lost_or_along_mul hneg hx with h' | h'
  · exact (lost_add (.inr h')).toward s
  have hsign : -sy * sx = -(sx * sy) := by cases sx <;> cases sy <;> rfl
  rw [hsign, mul_comm] at h'
  unfold Toward
  rw [read_add]
  rcases add_opposite h h' rfl with hsum | ⟨z, hsum⟩
  · rw [hsum]
    exact .inl settle_notANumber
  · rw [hsum, settle_zero]
    exact .inr ⟨0, .zero z⟩

/-! ## Magnitudes -/

/-- If both are numbers, they lie along a sign, the second at least as far as the first. -/
def Reaches (s : Sign) (x x' : F) : Prop :=
  Lost x ∨ Lost x' ∨ ∃ n n', n ≤ n' ∧ Along (format F) s n (read x) ∧
    Along (format F) s n' (read x')

/-- Taking off a number along the opposite sign leads further. -/
theorem reaches_sub (hx : Toward s x) (hy : Toward (-s) y) : Reaches s x (x - y) := by
  rcases hx with hx | ⟨n, hx⟩
  · exact .inl hx
  rcases hy with hy | ⟨n', hy⟩
  · exact .inr (.inl (lost_sub (.inr hy)))
  have hneg : - -s = s := by cases s <;> rfl
  have hback : Along (format F) s n' (read (-y)) := by
    rw [read_neg_eq, ← hneg]
    exact hy.neg
  have hsum := along_add exponentBits (settle_read x) (settle_read (-y)) hx hback
  rw [← read_add, ← read_sub_eq] at hsum
  refine .inr (.inr ⟨n, _, ?_, hx, hsum⟩)
  calc n = rounded (format F) 0 n := (rounded_along exponentBits hx (settle_read x)).symm
    _ ≤ rounded (format F) 0 (n + n') := rounded_mono 0 le_self_add

theorem reaches_add (hx : Reaches s x x') (hy : Reaches s y y') :
    Reaches s (x + y) (x' + y') := by
  rcases hx with hx | hx | ⟨n, n', hle, hx, hx'⟩
  · exact .inl (lost_add (.inl hx))
  · exact .inr (.inl (lost_add (.inl hx)))
  rcases hy with hy | hy | ⟨k, k', hle', hy, hy'⟩
  · exact .inl (lost_add (.inr hy))
  · exact .inr (.inl (lost_add (.inr hy)))
  have hsum := along_add exponentBits (settle_read x) (settle_read y) hx hy
  have hsum' := along_add exponentBits (settle_read x') (settle_read y') hx' hy'
  rw [← read_add] at hsum hsum'
  exact .inr (.inr ⟨_, _, rounded_mono 0 (add_le_add hle hle'), hsum, hsum'⟩)

theorem reaches_mul (hx : Reaches s x x') (hy : Toward t y) : Reaches (s * t) (x * y) (x' * y) := by
  rcases hx with hx | hx | ⟨n, n', hle, hx, hx'⟩
  · exact .inl (lost_mul (.inl hx))
  · exact .inr (.inl (lost_mul (.inl hx)))
  rcases hy with hy | ⟨k, hy⟩
  · exact .inl (lost_mul (.inr hy))
  rcases lost_or_along_mul hx hy with h | h
  · exact .inl h
  rcases lost_or_along_mul hx' hy with h' | h'
  · exact .inr (.inl h')
  exact .inr (.inr ⟨_, _, rounded_mono _ (mul_le_mul_left hle k), h, h'⟩)

/-- A quotient of numbers does not vanish if the dividend reaches beyond the divisor. -/
theorem div_beq_zero (h : Reaches s x x') : (x' / x == 0) = false := by
  rcases h with h | h | ⟨n, n', hle, hx, hx'⟩
  · exact (lost_div (.inr h)).beq_zero
  · exact (lost_div (.inl h)).beq_zero
  rw [beq_zero_eq_false_iff, read_div]
  exact div_not_zero exponentBits hx hx' hle

end Rules

end FloatingPoint

end DenseLinear
