import DenseLinear.Proofs.ExactReals
import DenseLinear.Proofs.HomomorphicElimination
import DenseLinear.Proofs.HomomorphicReflections
import DenseLinear.Proofs.Kinds

/-!
# Real data

Over an ordered field, the numbers with no imaginary part are the image of a homomorphism of scalars
(`Cartesian.ofRe`), provided that the hypotenuse over a single leg is the absolute value of the leg
(`AxisArith`). Nothing is asked of square roots: a kernel that takes the root of a complex number
without an imaginary part takes that of its real part.

So kernels for complex numbers that are given real data compute what the kernels for real numbers
compute, and every imaginary part stays zero (`real_data_stays_real`).
-/

namespace DenseLinear

/-- Magnitudes for which a point on the axis is as far from zero as its absolute value says. -/
class AxisArith (R : Type) [RealArith R] : Prop where
  /-- The hypotenuse over a single leg. -/
  hypot_zero (x : R) : RealArith.hypot x 0 = RealArith.abs x

instance {R : Type} [LinearOrder R] [ExactArith R] [MetricArith R] [EuclideanArith R] :
    AxisArith R where
  hypot_zero x := by
    rw [EuclideanArith.hypot_eq, mul_zero, add_zero, ← abs_mul_abs_self,
      EuclideanArith.sqrt_square (abs_nonneg x), MetricArith.abs_eq]

namespace Cartesian

/-- The complex number with the given real part and no imaginary part. -/
def ofRe {F : Type} [Zero F] (x : F) : Cartesian F := ⟨x, 0⟩

variable {F : Type} [LinearOrder F] [ExactArith F]

theorem ofRe_re {z : Cartesian F} (h : z.im = 0) : ofRe z.re = z :=
  ext rfl h.symm

/-- Real numbers divide as they do among complex numbers. -/
theorem quotient_ofRe (x y : F) : (ofRe x).quotient (ofRe y) = ofRe (x / y) := by
  have hzero : ((0 : F) == 0) = true := (ExactArith.beq_iff _ _).2 rfl
  simp only [quotient, ofRe, hzero, if_true]

/-- Among complex numbers the root of a real number that is not negative is its real root. -/
theorem sqrt_ofRe {x : F} (hx : 0 ≤ x) : (ofRe x).sqrt = ofRe (RealArith.sqrt x) := by
  have hzero : ((0 : F) == 0) = true := (ExactArith.beq_iff _ _).2 rfl
  have hle : RealArith.le 0 x = true := (ExactArith.le_iff _ _).2 hx
  simp only [sqrt, ofRe, hzero, hle, Bool.and_self, if_true]

variable [AxisArith F] [Measured F F] [SelfMeasured F]

/-- Real numbers keep everything that is computed with them when they become complex. -/
instance : ScalarHom F (Cartesian F) where
  hom := ofRe
  hom_zero := rfl
  hom_one := rfl
  hom_add x y := ext rfl (add_zero 0).symm
  hom_sub x y := ext rfl (sub_zero 0).symm
  hom_mul x y := by
    refine ext ?_ ?_
    · change x * y = x * y - 0 * 0
      rw [mul_zero, sub_zero]
    · change (0 : F) = x * 0 + 0 * y
      rw [mul_zero, zero_mul, add_zero]
  hom_neg x := ext rfl neg_zero.symm
  beq_hom x y := by
    change (x == y && (0 : F) == 0) = (x == y)
    rw [(ExactArith.beq_iff (0 : F) 0).2 rfl, Bool.and_true]
  hom_conj x := ext rfl neg_zero.symm
  hom_absolute x := ext (AxisArith.hypot_zero x).symm rfl
  hom_quotient x y := (quotient_ofRe x y).symm
  hom_ofReal r := rfl
  normSq_hom x := by
    change Measured.widen (x * x + 0 * 0) = Measured.widen (x * x)
    rw [mul_zero, add_zero]
  modulus_hom x := congrArg Measured.widen (AxisArith.hypot_zero x)
  rePart_hom x := rfl
  isReal_hom x := by
    change (Measured.widen (0 : F) == 0) = ((0 : F) == 0)
    rw [SelfMeasured.widen_eq]
  IsNonneg x := 0 ≤ x
  isNonneg_zero := le_refl (0 : F)
  isNonneg_addNormSq x h := add_nonneg h (mul_self_nonneg x)
  isNonneg_radius x h := add_nonneg (mul_self_nonneg _) h
  isNonneg_ofReal_zero := by
    change 0 ≤ Measured.narrow (-0 : F)
    rw [SelfMeasured.narrow_eq, neg_zero]
  isNonneg_ofReal_add {r} x h := by
    change 0 ≤ Measured.narrow r at h
    change 0 ≤ Measured.narrow (r + Measured.widen (x * x))
    rw [SelfMeasured.narrow_eq] at h ⊢
    rw [SelfMeasured.widen_eq]
    exact add_nonneg h (mul_self_nonneg x)
  hom_sqrt h := (sqrt_ofRe h).symm
  bytes_le := Nat.le_mul_of_pos_left _ Nat.two_pos

end Cartesian

open PagedMatrix

section RealData

variable {F : Type} [LinearOrder F] [ExactArith F] [AxisArith F] [Measured F F] [SelfMeasured F]

namespace PagedMatrix

/-- No entry has an imaginary part. -/
def IsReal (a : PagedMatrix (Cartesian F)) : Prop := ∀ z ∈ a.data, z.im = 0

/-- The matrix of the real parts. -/
def realParts (a : PagedMatrix (Cartesian F)) : PagedMatrix F :=
  { shape := a.shape, data := a.data.map Cartesian.re, kind := a.kind }

theorem map_hom_re {v : Array (Cartesian F)} (hv : ∀ z ∈ v, z.im = 0) :
    (v.map Cartesian.re).map hom = v := by
  rw [Array.map_map]
  exact (Array.map_congr_left fun z hz => Cartesian.ofRe_re (hv z hz)).trans (Array.map_id v)

/-- A matrix without imaginary parts is the image of its real parts. -/
theorem image_realParts {a : PagedMatrix (Cartesian F)} (ha : a.IsReal) :
    a.realParts.image = a :=
  congrArg (PagedMatrix.mk a.shape · a.kind) (map_hom_re ha)

theorem realParts_image (a : PagedMatrix F) :
    (a.image : PagedMatrix (Cartesian F)).realParts = a := by
  refine congrArg (PagedMatrix.mk a.shape · a.kind) ?_
  rw [image, Array.map_map]
  exact Array.map_id a.data

theorem isReal_image (a : PagedMatrix F) : (a.image : PagedMatrix (Cartesian F)).IsReal := by
  intro z hz
  obtain ⟨x, -, rfl⟩ := Array.mem_map.1 hz
  rfl

omit [AxisArith F] [SelfMeasured F] in
/-- Real numbers are never of the complex kind. -/
theorem Consistent.kind_ne_complex {a : PagedMatrix F} (ha : a.Consistent) : a.kind ≠ .complex := by
  intro hkind
  obtain ⟨x, -, hx⟩ := ha.complex_iff.1 hkind
  have hreal : Scalar.isReal x = true := (ExactArith.beq_iff (0 : F) 0).2 rfl
  rw [hreal] at hx
  contradiction

end PagedMatrix

/-! ## Calls on real data -/

section Calls

variable {m n : Type → Type} {ε ε' : Type} [Monad m] [Monad n] [MonadLiftT (Except Fault) m]
  [MonadLiftT (Except Fault) n] [Outcomes m ε'] [Outcomes n ε] [Mirroring m n] {β γ : Type}

/-- The call `x` on complex numbers does what the call `y` on real numbers does: it faults and is
refused where that one is, and it returns the image under `g` of what that one returns. The matrices
among its results have no imaginary parts and are not of the complex kind. If the memory cannot hold
`room` complex numbers, the call may exhaust it instead. -/
structure StaysReal (room : Nat) (g : β → γ) (results : γ → List (PagedMatrix (Cartesian F)))
    (x : m γ) (y : n β) : Prop where
  mirrors : Mirrors (capacityLimit < Scalar.bytes (Cartesian F) * room) g x y
  real : ReturnsOnly x fun c => ∀ a ∈ results c, a.IsReal ∧ a.kind ≠ .complex

/-- A mirror of a call on real numbers stays real if the kinds of the results follow the contents. -/
theorem StaysReal.of_mirrors {room : Nat} {g : β → γ}
    {results : γ → List (PagedMatrix (Cartesian F))} {sources : β → List (PagedMatrix F)}
    {x : m γ} {y : n β} (hxy : Mirrors (capacityLimit < Scalar.bytes (Cartesian F) * room) g x y)
    (hy : ReturnsOnly y fun b => ∀ a ∈ sources b, a.Consistent)
    (hresults : ∀ b, results (g b) = (sources b).map image) : StaysReal room g results x y where
  mirrors := hxy
  real := by
    refine returnsOnly_mono (returnsOnly_of_mirrors hxy hy) ?_
    rintro c ⟨b, hb, rfl⟩ a ha
    rw [hresults] at ha
    obtain ⟨source, hsource, rfl⟩ := List.mem_map.1 ha
    exact ⟨isReal_image source, (hb source hsource).kind_ne_complex⟩

end Calls

omit [AxisArith F] [SelfMeasured F] in
/-- As many numbers as the memory can hold have room in it. -/
theorem hasRoom_of_le {room count : Nat} (h : count ≤ room) :
    HasRoom (Cartesian F) (capacityLimit < Scalar.bytes (Cartesian F) * room) count :=
  fun hroom => Nat.le_trans (Nat.mul_le_mul_left _ h) (Nat.not_lt.1 hroom)

omit [AxisArith F] [SelfMeasured F] in
theorem consistent_singleton {m : Type → Type} {ε β : Type} [Monad m]
    [MonadLiftT (Except Fault) m] [Outcomes m ε] {x : m β} {result : β → PagedMatrix F}
    (h : ReturnsOnly x fun b => (result b).Consistent) :
    ReturnsOnly x fun b => ∀ a ∈ [result b], a.Consistent :=
  returnsOnly_mono h fun _ => List.forall_mem_singleton.2

/-! ### Products and elimination -/

variable (a b c : PagedMatrix F)

theorem staysReal_multiplyAdd (alpha beta : F) (m k n : Nat) (choice : BlockingChoice) :
    StaysReal (m * n) (image : PagedMatrix F → PagedMatrix (Cartesian F)) (fun r => [r])
      (multiplyAdd (hom alpha) a.image m k b.image n (hom beta) c.image choice)
      (multiplyAdd alpha a m k b n beta c choice) :=
  .of_mirrors (mirrors_multiplyAdd a b alpha k beta c choice (hasRoom_of_le le_rfl))
    (consistent_singleton (consistent_multiplyAdd c alpha a m k b n beta choice)) fun _ => rfl

theorem staysReal_factorByProduct (choice : BlockingChoice) :
    StaysReal (a.rows * a.cols) (Lu.imageFactored (β := Cartesian F)) (fun f => [f.1])
      (Lu.factorByProduct choice a.image) (Lu.factorByProduct choice a) :=
  .of_mirrors (Lu.mirrors_factorByProduct choice a (hasRoom_of_le le_rfl))
    (consistent_singleton (consistent_factorByProduct a choice)) fun _ => rfl

theorem staysReal_factorByTilesWith (choice : BlockingChoice) :
    StaysReal 0 (Lu.imageFactored (β := Cartesian F)) (fun f => [f.1])
      (Lu.factorByTilesWith choice a.image) (Lu.factorByTilesWith choice a) :=
  .of_mirrors (Lu.mirrors_factorByTilesWith choice a)
    (consistent_singleton (consistent_factorByTilesWith a choice)) fun _ => rfl

theorem staysReal_unpack (pivots : Array Nat) :
    StaysReal (a.rows * max a.rows a.cols) (Lu.Factors.image (β := Cartesian F))
      (fun f => [f.lower, f.upper, f.permutation]) (Lu.unpack a.image pivots)
      (Lu.unpack a pivots) := by
  have : RealUnits F := realUnits_ofReals ((ExactArith.beq_iff _ _).2 rfl)
    ((ExactArith.beq_iff _ _).2 (SelfMeasured.widen_eq 0))
  have hfactors : ReturnsOnly (Lu.unpack a pivots)
      fun f => ∀ x ∈ [f.lower, f.upper, f.permutation], x.Consistent :=
    returnsOnly_mono (consistent_unpack a pivots) fun f hf => by simpa using hf
  refine .of_mirrors (Lu.mirrors_unpack a pivots ?_ ?_) hfactors fun _ => rfl
  · exact hasRoom_of_le (Nat.mul_le_mul_left _ (Nat.le_max_right _ _))
  · exact hasRoom_of_le (Nat.mul_le_mul_left _ (Nat.le_max_left _ _))

theorem staysReal_solveFactored (pivots : Array Nat) :
    StaysReal 0 (image : PagedMatrix F → PagedMatrix (Cartesian F)) (fun x => [x])
      (Lu.solveFactored a.image pivots b.image) (Lu.solveFactored a pivots b) :=
  .of_mirrors (Lu.mirrors_solveFactored a pivots b)
    (consistent_singleton (consistent_solveFactored a b pivots)) fun _ => rfl

theorem staysReal_determinant :
    StaysReal 0 (Cartesian.ofRe : F → Cartesian F)
      (fun _ => ([] : List (PagedMatrix (Cartesian F)))) (Lu.determinant a.image)
      (Lu.determinant a) where
  mirrors := Lu.mirrors_determinant a
  real := fun _ _ => nofun

theorem staysReal_inverse :
    StaysReal (a.rows * a.rows) (image : PagedMatrix F → PagedMatrix (Cartesian F)) (fun x => [x])
      (Lu.inverse a.image) (Lu.inverse a) :=
  .of_mirrors (Lu.mirrors_inverse a (hasRoom_of_le le_rfl))
    (consistent_singleton (returnsOnly_then fun _ => returnsOnly_then fun one =>
      consistent_solve a one)) fun _ => rfl

/-! ### Reflections -/

theorem staysReal_factor :
    StaysReal (a.rows * a.cols) (Qr.imagePacked (β := Cartesian F)) (fun f => [f.packed])
      (Qr.factor a.image) (Qr.factor a) :=
  .of_mirrors (Qr.mirrors_factor a (hasRoom_of_le le_rfl))
    (consistent_singleton (consistent_factor a)) fun _ => rfl

theorem staysReal_factorPivoted (pivoting : ColumnPivoting) :
    StaysReal (a.rows * a.cols) (Qr.imagePivoted (β := Cartesian F)) (fun f => [f.packed])
      (Qr.factorPivoted pivoting a.image) (Qr.factorPivoted pivoting a) :=
  .of_mirrors (Qr.mirrors_factorPivoted pivoting a (hasRoom_of_le le_rfl))
    (consistent_singleton (consistent_factorPivoted a pivoting)) fun _ => rfl

theorem staysReal_unitaryFactor (taus : Array F) :
    StaysReal (a.rows * a.rows) (image : PagedMatrix F → PagedMatrix (Cartesian F)) (fun q => [q])
      (Qr.unitaryFactor a.image (taus.map hom)) (Qr.unitaryFactor a taus) :=
  .of_mirrors (Qr.mirrors_unitaryFactor a taus (hasRoom_of_le le_rfl))
    (consistent_singleton (consistent_unitaryFactor a taus)) fun _ => rfl

omit a b c in
/-- Kernels that are given complex numbers without imaginary parts do what they do with the real
parts: the results have no imaginary parts and are not of the complex kind, their real parts are the
results for the real parts, and the interchanges, the columns without a pivot and the orders of the
columns are the same. So are the surroundings that a kernel leaves, and what it is refused for. -/
theorem real_data_stays_real {a b c : PagedMatrix (Cartesian F)} {alpha beta : Cartesian F}
    {taus : Array (Cartesian F)} (ha : a.IsReal) (hb : b.IsReal) (hc : c.IsReal)
    (halpha : alpha.im = 0) (hbeta : beta.im = 0) (htaus : ∀ tau ∈ taus, tau.im = 0) :
    (∀ m k n choice, StaysReal (m * n) (image : PagedMatrix F → PagedMatrix (Cartesian F))
      (fun r => [r]) (multiplyAdd alpha a m k b n beta c choice)
      (multiplyAdd alpha.re a.realParts m k b.realParts n beta.re c.realParts choice)) ∧
    (∀ choice, StaysReal (a.rows * a.cols) (Lu.imageFactored (β := Cartesian F)) (fun f => [f.1])
      (Lu.factorByProduct choice a) (Lu.factorByProduct choice a.realParts)) ∧
    (∀ choice, StaysReal 0 (Lu.imageFactored (β := Cartesian F)) (fun f => [f.1])
      (Lu.factorByTilesWith choice a) (Lu.factorByTilesWith choice a.realParts)) ∧
    (∀ pivots, StaysReal (a.rows * max a.rows a.cols) (Lu.Factors.image (β := Cartesian F))
      (fun f => [f.lower, f.upper, f.permutation]) (Lu.unpack a pivots)
      (Lu.unpack a.realParts pivots)) ∧
    (∀ pivots, StaysReal 0 (image : PagedMatrix F → PagedMatrix (Cartesian F)) (fun x => [x])
      (Lu.solveFactored a pivots b) (Lu.solveFactored a.realParts pivots b.realParts)) ∧
    StaysReal 0 (Cartesian.ofRe : F → Cartesian F)
      (fun _ => ([] : List (PagedMatrix (Cartesian F)))) (Lu.determinant a)
      (Lu.determinant a.realParts) ∧
    StaysReal (a.rows * a.rows) (image : PagedMatrix F → PagedMatrix (Cartesian F)) (fun x => [x])
      (Lu.inverse a) (Lu.inverse a.realParts) ∧
    StaysReal (a.rows * a.cols) (Qr.imagePacked (β := Cartesian F)) (fun f => [f.packed])
      (Qr.factor a) (Qr.factor a.realParts) ∧
    (∀ pivoting, StaysReal (a.rows * a.cols) (Qr.imagePivoted (β := Cartesian F))
      (fun f => [f.packed]) (Qr.factorPivoted pivoting a)
      (Qr.factorPivoted pivoting a.realParts)) ∧
    StaysReal (a.rows * a.rows) (image : PagedMatrix F → PagedMatrix (Cartesian F)) (fun q => [q])
      (Qr.unitaryFactor a taus) (Qr.unitaryFactor a.realParts (taus.map Cartesian.re)) := by
  -- real data are images, and the real parts of an image are what it is the image of
  obtain ⟨a, rfl⟩ : ∃ x : PagedMatrix F, x.image = a := ⟨_, image_realParts ha⟩
  obtain ⟨b, rfl⟩ : ∃ x : PagedMatrix F, x.image = b := ⟨_, image_realParts hb⟩
  obtain ⟨c, rfl⟩ : ∃ x : PagedMatrix F, x.image = c := ⟨_, image_realParts hc⟩
  obtain ⟨alpha, rfl⟩ : ∃ x : F, hom x = alpha := ⟨_, Cartesian.ofRe_re halpha⟩
  obtain ⟨beta, rfl⟩ : ∃ x : F, hom x = beta := ⟨_, Cartesian.ofRe_re hbeta⟩
  have htaus' := staysReal_unitaryFactor a (taus.map Cartesian.re)
  rw [map_hom_re htaus] at htaus'
  simp only [realParts_image]
  exact ⟨staysReal_multiplyAdd a b c alpha beta, staysReal_factorByProduct a,
    staysReal_factorByTilesWith a, staysReal_unpack a, staysReal_solveFactored a b,
    staysReal_determinant a, staysReal_inverse a, staysReal_factor a, staysReal_factorPivoted a,
    htaus'⟩

end RealData

/-- A matrix of real numbers that is marked as complex. -/
def markedTable (F : Type) [Zero F] [One F] : PagedMatrix (Cartesian F) :=
  { shape := { rows := 2, cols := 2 }, data := #[⟨1, 0⟩, ⟨1, 0⟩, ⟨1, 0⟩, ⟨0, 0⟩],
    kind := .complex }

/-- The mark does not last: the factors and the inverse of the table are real. -/
theorem real_data_stays_real_markedTable :
    (markedTable ℝ).IsReal ∧
      Qr.factor (markedTable ℝ) = (Qr.factor (markedTable ℝ).realParts).map Qr.imagePacked ∧
      (ReturnsOnly (Qr.factor (markedTable ℝ)) fun f => f.packed.kind ≠ .complex) ∧
      ReturnsOnly (Lu.inverse (markedTable ℝ)) fun x => x.IsReal ∧ x.kind ≠ .complex := by
  have htable : (markedTable ℝ).IsReal := by simp [IsReal, markedTable]
  have hscale : (1 : Cartesian ℝ).im = 0 := rfl
  have htaus : ∀ tau ∈ (#[1] : Array (Cartesian ℝ)), tau.im = 0 := by simp
  obtain ⟨-, -, -, -, -, -, hinverse, hfactor, -, -⟩ :=
    real_data_stays_real htable htable htable hscale hscale htaus
  have hfits : ¬ capacityLimit <
      Scalar.bytes (Cartesian ℝ) * ((markedTable ℝ).rows * (markedTable ℝ).cols) := by
    change ¬ capacityLimit < 16 * (2 * 2)
    decide
  refine ⟨htable, ?_, ?_, ?_⟩
  · exact hfactor.mirrors.resolve_right fun h => hfits h.1
  · exact returnsOnly_mono hfactor.real fun f hf => (hf f.packed (List.mem_singleton.2 rfl)).2
  · exact returnsOnly_mono hinverse.real fun x hx => hx x (List.mem_singleton.2 rfl)

end DenseLinear
