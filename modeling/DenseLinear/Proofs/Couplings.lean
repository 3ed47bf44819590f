import DenseLinear.Proofs.Outcomes
import DenseLinear.Proofs.Surroundings

/-!
# Two runs side by side

Two computations are coupled by a relation if they end alike: both return related values, or both
stop for the same reason (`Alike`). In surroundings they must do so wherever they start, and leave
the same surroundings behind. Where a computation is refused, its report tells the reason, and may
tell other things besides (`Reason`).

The rules follow the structure of computations (`coupled_bind`, `coupled_ite`, `coupled_ascend`,
`coupled_strides`), so that two runs of a kernel are coupled because their steps are. The relation
stands for what the two runs share.
-/

namespace DenseLinear

/-- The reason that a fault or a report gives. -/
class Reason (ε : Type) (κ : outParam Type) where
  /-- Why the computation stopped. -/
  reason : ε → κ

export Reason (reason)

instance : Reason Fault Fault := ⟨id⟩

instance : Reason Refusal Refusal := ⟨id⟩

/-- Where a kernel stopped, its target does not matter. -/
instance {σ : Type} : Reason (Interrupted σ) Refusal := ⟨Interrupted.refusal⟩

/-- Two answers are related values, or give the same reason why there is no value. -/
inductive Alike {ε κ β γ : Type} [Reason ε κ] (R : β → γ → Prop) : Except ε β → Except ε γ → Prop
  /-- The values are related. -/
  | value {b : β} {c : γ} : R b c → Alike R (.ok b) (.ok c)
  /-- The reasons are the same. -/
  | stop {e e' : ε} : reason e = reason e' → Alike R (.error e) (.error e')

/-- Computations of which two can be run side by side. -/
class Coupling (m : Type → Type) {ε : outParam Type} [Monad m] [MonadLiftT (Except Fault) m]
    [Outcomes m ε] where
  /-- The computations return related values, or stop for the same reason. -/
  Coupled {β γ : Type} (R : β → γ → Prop) (x : m β) (y : m γ) : Prop
  /-- Related values are coupled. -/
  coupled_pure {β γ : Type} {R : β → γ → Prop} {b : β} {c : γ} : R b c → Coupled R (pure b) (pure c)
  /-- Computations are coupled one after the other; of the second ones this need be known only after
  what the first ones may return. -/
  coupled_bind_of {β γ δ η : Type} {R : β → γ → Prop} {S : δ → η → Prop} {x : m β} {y : m γ}
    {f : β → m δ} {g : γ → m η} : Coupled R x y →
    (∀ b c, R b c → Returns x b → Returns y c → Coupled S (f b) (g c)) →
    Coupled S (x >>= f) (y >>= g)
  /-- Checked computations are coupled within larger ones. -/
  coupled_lift {β γ : Type} {R : β → γ → Prop} {x : Checked β} {y : Checked γ} :
    Alike R x y → Coupled R (liftM x : m β) (liftM y : m γ)
  /-- A computation is coupled with itself. -/
  coupled_refl {β : Type} {x : m β} : Coupled Eq x x

export Coupling (Coupled coupled_pure coupled_bind_of coupled_refl)

theorem alike_refl {ε κ β : Type} [Reason ε κ] (x : Except ε β) : Alike Eq x x := by
  cases x with
  | error e => exact .stop rfl
  | ok b => exact .value rfl

instance : Coupling (Except Fault) where
  Coupled := Alike
  coupled_pure := .value
  coupled_bind_of := by
    intro β γ δ η R S x y f g hx hf
    cases hx with
    | value h => exact hf _ _ h rfl rfl
    | stop h => exact .stop h
  coupled_lift h := h
  coupled_refl := alike_refl _

instance : Coupling (StateT Ambient (Except Fault)) where
  Coupled R x y := ∀ ambient : Ambient,
    Alike (fun found found' => R found.1 found'.1 ∧ found.2 = found'.2) (x.run ambient)
      (y.run ambient)
  coupled_pure h ambient := .value ⟨h, rfl⟩
  coupled_bind_of := by
    intro β γ δ η R S x y f g hx hf ambient
    rw [StateT.run_bind, StateT.run_bind]
    refine coupled_bind_of (m := Except Fault) (hx ambient) ?_
    rintro ⟨b, after⟩ ⟨c, _⟩ ⟨hbc, rfl⟩ hb hc
    exact hf b c hbc ⟨ambient, after, hb⟩ ⟨ambient, after, hc⟩ after
  coupled_lift := by
    intro β γ R x y h ambient
    cases h with
    | value h => exact .value ⟨h, rfl⟩
    | stop h => exact .stop h
  coupled_refl := by
    intro β x ambient
    cases x.run ambient with
    | error fault => exact .stop rfl
    | ok found => exact .value ⟨rfl, rfl⟩

section Lawful

variable {m : Type → Type} {ε : Type} [Monad m] [LawfulMonad m] [MonadLiftT (Except Fault) m]
  [Outcomes m ε] [Coupling m] {β γ : Type} {R S : β → γ → Prop} {x : m β} {y : m γ}

/-- What the values share includes whatever follows from it. -/
theorem coupled_mono (h : Coupled R x y) (hS : ∀ b c, R b c → S b c) : Coupled S x y := by
  rw [← bind_pure x, ← bind_pure y]
  exact coupled_bind_of h fun b c hbc _ _ => coupled_pure (hS b c hbc)

/-- It also includes whatever is known of the values of the first computation. -/
theorem coupled_of_returnsOnly {P : β → Prop} (h : Coupled R x y) (hP : ReturnsOnly x P) :
    Coupled (fun b c => R b c ∧ P b) x y := by
  rw [← bind_pure x, ← bind_pure y]
  exact coupled_bind_of h fun b c hbc hb _ => coupled_pure ⟨hbc, hP b hb⟩

end Lawful

instance {ε κ : Type} [Reason ε κ] {m : Type → Type} [Monad m] [LawfulMonad m]
    [MonadLiftT (Except Fault) m] [Outcomes m Empty] [Coupling m] : Coupling (ExceptT ε m) where
  Coupled R x y := Coupled (Alike R) x.run y.run
  coupled_pure h := coupled_pure (m := m) (.value h)
  coupled_bind_of := by
    intro β γ δ η R S x y f g hx hf
    rw [ExceptT.run_bind, ExceptT.run_bind]
    refine coupled_bind_of hx fun found found' h hfound hfound' => ?_
    cases h with
    | value h => exact hf _ _ h hfound hfound'
    | stop h => exact coupled_pure (.stop h)
  coupled_lift := by
    intro β γ R x y h
    change Coupled (Alike R) (ExceptT.lift (liftM x : m β) : ExceptT ε m β).run
      (ExceptT.lift (liftM y : m γ) : ExceptT ε m γ).run
    rw [ExceptT.run_lift, ExceptT.run_lift, ← bind_pure_comp, ← bind_pure_comp]
    exact coupled_bind_of (Coupling.coupled_lift h) fun b c hbc _ _ => coupled_pure (.value hbc)
  coupled_refl := by
    intro β x
    refine coupled_mono (m := m) coupled_refl ?_
    rintro found _ rfl
    exact alike_refl found

section Rules

variable {m : Type → Type} {ε : Type} [Monad m] [MonadLiftT (Except Fault) m] [Outcomes m ε]
  [Coupling m] {β γ δ η σ τ : Type} {R : β → γ → Prop} {S : δ → η → Prop} {I : σ → τ → Prop}
  {x x' : m β} {y y' : m γ} {step : Nat → σ → m σ} {step' : Nat → τ → m τ} {s : σ} {t : τ}

/-- Computations are coupled one after the other. -/
theorem coupled_bind {f : β → m δ} {g : γ → m η} (hx : Coupled R x y)
    (hf : ∀ b c, R b c → Coupled S (f b) (g c)) : Coupled S (x >>= f) (y >>= g) :=
  coupled_bind_of hx fun b c hbc _ _ => hf b c hbc

/-- Both runs begin in the same way. -/
theorem coupled_bind_eq {f : β → m δ} {g : β → m η} (hx : x = x')
    (hf : ∀ b, Coupled S (f b) (g b)) : Coupled S (x >>= f) (x' >>= g) := by
  subst hx
  refine coupled_bind coupled_refl ?_
  rintro b _ rfl
  exact hf b

/-- Both runs decide in the same way. -/
theorem coupled_ite {c c' : Prop} [Decidable c] [Decidable c'] (hc : c ↔ c')
    (hx : c → Coupled R x y) (hx' : ¬ c → Coupled R x' y') :
    Coupled R (if c then x else x') (if c' then y else y') := by
  by_cases h : c
  · rw [if_pos h, if_pos (hc.1 h)]
    exact hx h
  · rw [if_neg h, if_neg (mt hc.2 h)]
    exact hx' h

/-- Checked computations are coupled within larger ones. -/
theorem coupled_checked {x : Checked β} {y : Checked γ} (h : Coupled R x y) :
    Coupled R (checked x : m β) (checked y : m γ) :=
  Coupling.coupled_lift h

/-! ## Loops -/

/-- Upward loops are coupled while their steps are. -/
theorem coupled_ascend {lo hi : Nat} (hs : I s t)
    (hstep : ∀ i s t, lo ≤ i → i < hi → I s t → Coupled I (step i s) (step' i t)) :
    Coupled I (ascend lo hi s step) (ascend lo hi t step') := by
  -- the induction is on the number of positions that are left
  generalize hleft : hi - lo = left
  induction left generalizing lo s t with
  | zero =>
    have hle : hi ≤ lo := by omega
    rw [ascend_of_le hle, ascend_of_le hle]
    exact coupled_pure hs
  | succ left ih =>
    rw [ascend_of_lt (by omega), ascend_of_lt (by omega)]
    apply coupled_bind (hstep lo s t (Nat.le_refl _) (by omega) hs)
    intro s' t' hs'
    exact ih hs' (fun i u v hi => hstep i u v (by omega)) (by omega)

theorem coupled_strideFrom {lo hi width : Nat}
    (hstep : ∀ i s t, lo ≤ i → i < hi → I s t → Coupled I (step i s) (step' i t)) (count i : Nat)
    (hlo : lo ≤ i) (hlast : count = 0 ∨ i + (count - 1) * width < hi) (hs : I s t) :
    Coupled I (strideFrom step width count i s) (strideFrom step' width count i t) := by
  induction count generalizing i s t with
  | zero => exact coupled_pure hs
  | succ count ih =>
    have hstart : i < hi := by
      have h0 : 0 ≤ (count + 1 - 1) * width := Nat.zero_le _
      omega
    apply coupled_bind (hstep i s t hlo hstart hs)
    intro s' t' hs'
    refine ih (i + width) (by omega) ?_ hs'
    cases count with
    | zero => exact Or.inl rfl
    | succ count =>
      have h : (count + 1 + 1 - 1) * width = (count + 1 - 1) * width + width := by
        simp only [Nat.add_sub_cancel]
        ring
      omega

/-- Loops in strides are coupled while their steps are. -/
theorem coupled_strides {lo hi width : Nat} (hs : I s t)
    (hstep : ∀ i s t, lo ≤ i → i < hi → I s t → Coupled I (step i s) (step' i t)) :
    Coupled I (strides lo hi width s step) (strides lo hi width t step') := by
  apply coupled_ite Iff.rfl
  · intro _
    exact Coupling.coupled_lift (.stop rfl)
  · intro hwidth
    exact coupled_strideFrom hstep _ lo (Nat.le_refl _)
      (last_stride_lt lo hi (Nat.pos_of_ne_zero hwidth)) hs

end Rules

/-! ## Refusals -/

section Refusals

variable {m : Type → Type} [Monad m] [LawfulMonad m] [MonadLiftT (Except Fault) m] [Outcomes m Empty]
  [Coupling m] {ε ε' κ β γ : Type} [Reason ε κ] [Reason ε' κ] {R : β → γ → Prop}

/-- Reports may be renamed in ways that keep the reason. -/
theorem coupled_adapt {f g : ε → ε'} {x : ExceptT ε m β} {y : ExceptT ε m γ}
    (hf : ∀ e e', reason e = reason e' → reason (f e) = reason (g e')) (h : Coupled R x y) :
    Coupled R (ExceptT.adapt f x) (ExceptT.adapt g y) := by
  change Coupled (Alike R) (ExceptT.adapt f x).run (ExceptT.adapt g y).run
  rw [run_adapt, run_adapt]
  refine coupled_bind h fun found found' hfound => ?_
  cases hfound with
  | value h => exact coupled_pure (.value h)
  | stop h => exact coupled_pure (.stop (hf _ _ h))

/-- Two kernels ask on behalf of different targets. -/
theorem coupled_onBehalfOf {σ : Type} (s t : σ) {x : ExceptT Refusal m β} :
    Coupled Eq (onBehalfOf s x) (onBehalfOf t x) :=
  coupled_adapt (fun _ _ h => h) coupled_refl

/-- Two kernels run others on parts of their targets. -/
theorem coupled_onPartOf {σ τ : Type} (s t : σ) {x : ExceptT (Interrupted τ) m β}
    {y : ExceptT (Interrupted τ) m γ} (h : Coupled R x y) :
    Coupled R (onPartOf s x) (onPartOf t y) :=
  coupled_adapt (fun _ _ h => h) h

theorem coupled_unrefused {x : Ambience β} {y : Ambience γ} (h : Coupled R x y) :
    Coupled R (unrefused x : ExceptT ε Ambience β) (unrefused y : ExceptT ε Ambience γ) := by
  change Coupled (Alike R) (ExceptT.lift x : ExceptT ε Ambience β).run
    (ExceptT.lift y : ExceptT ε Ambience γ).run
  rw [ExceptT.run_lift, ExceptT.run_lift, ← bind_pure_comp, ← bind_pure_comp]
  exact coupled_bind h fun b c hbc => coupled_pure (.value hbc)

/-- A run is matched by one that ends in the same surroundings with a related value. -/
theorem Runs.coupled {x : ExceptT ε Ambience β} {y : ExceptT ε Ambience γ} {b : β}
    {ambient after : Ambient} (hrun : Runs x ambient b after) (h : Coupled R x y) :
    ∃ c, Runs y ambient c after ∧ R b c := by
  have hends : Alike _ (x.run.run ambient) (y.run.run ambient) := h ambient
  unfold Runs at hrun ⊢
  rw [hrun] at hends
  generalize y.run.run ambient = other at hends ⊢
  cases hends with
  | @value _ found h =>
    rcases found with ⟨found, after'⟩
    rcases h with ⟨hfound, rfl⟩
    cases hfound with
    | value h => exact ⟨_, rfl, h⟩

end Refusals

end DenseLinear
