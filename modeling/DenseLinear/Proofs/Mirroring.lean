import DenseLinear.Proofs.Outcomes

/-!
# Computations that mirror others

A computation over one type of entries mirrors a computation over another if it does to the images
of some values what the other does to the values: it faults and is refused where the other one is,
and it returns the image of what the other one returns. Entries that need more space may exhaust the
memory earlier; `tight` says whether that can happen, and where it cannot, both agree in everything.

The rules follow the structure of computations (`mirrors_bind`, `mirrors_ite`, `mirrors_ascend`), so
that kernels mirror each other because their steps do. A rule may use what the mirrored computation
is known to return (`mirrors_bind_of`, `mirrors_ascend_of`).
-/

namespace DenseLinear

/-- The image of a report. -/
class Reported (ε ε' : Type) where
  /-- The report as it is made of the images. -/
  report : ε → ε'

/-- Refusals do not speak of entries. -/
instance : Reported Refusal Refusal := ⟨id⟩

/-- The image of an answer that is a value or a report. -/
def imageOf {ε ε' β γ : Type} [Reported ε ε'] (g : β → γ) : Except ε β → Except ε' γ
  | .ok b => .ok (g b)
  | .error e => .error (Reported.report e)

/-- Computations of `m` as mirrors of computations of `n`. -/
class Mirroring (m n : Type → Type) {ε ε' : outParam Type} [Monad m] [Monad n]
    [MonadLiftT (Except Fault) m] [MonadLiftT (Except Fault) n] [Outcomes m ε'] [Outcomes n ε] where
  /-- The computation `x` does to images under `g` what `y` does, unless memory is `tight` and it is
  exhausted. -/
  Mirrors {β γ : Type} (tight : Prop) (g : β → γ) (x : m γ) (y : n β) : Prop
  /-- A value is mirrored by its image. -/
  mirrors_pure {β γ : Type} {tight : Prop} {g : β → γ} {b : β} :
    Mirrors tight g (pure (g b)) (pure b)
  /-- Two computations are mirrored one after the other; of the second this need be known only after
  what the first one may return. -/
  mirrors_bind_of {β γ δ η : Type} {tight : Prop} {g : β → γ} {h : δ → η} {x : m γ} {y : n β}
    {f' : γ → m η} {f : β → n δ} : Mirrors tight g x y →
    (∀ b, Returns y b → Mirrors tight h (f' (g b)) (f b)) → Mirrors tight h (x >>= f') (y >>= f)
  /-- Checked computations are mirrored within larger ones. -/
  mirrors_lift {β γ : Type} {tight : Prop} {g : β → γ} {x : Checked γ} {y : Checked β} :
    x = y.map g ∨ tight ∧ x = .error .capacity → Mirrors tight g (liftM x : m γ) (liftM y)
  /-- A mirror returns nothing but images. -/
  of_mirrors {β γ : Type} {tight : Prop} {g : β → γ} {x : m γ} {y : n β} {c : γ} :
    Mirrors tight g x y → Returns x c → ∃ b, Returns y b ∧ c = g b

export Mirroring (Mirrors mirrors_pure mirrors_bind_of)

instance : Mirroring (Except Fault) (Except Fault) where
  Mirrors tight g x y := x = y.map g ∨ tight ∧ x = .error .capacity
  mirrors_pure := .inl rfl
  mirrors_bind_of := by
    rintro β γ δ η tight g h x y f' f (rfl | ⟨htight, rfl⟩) hf
    · cases y with
      | error fault => exact .inl rfl
      | ok b => exact hf b rfl
    · -- the memory is exhausted before the second computation begins
      exact .inr ⟨htight, rfl⟩
  mirrors_lift h := h
  of_mirrors := by
    rintro β γ tight g x y c (rfl | ⟨-, rfl⟩) hc
    · cases y with
      | error fault => contradiction
      | ok b =>
        cases hc
        exact ⟨b, rfl, rfl⟩
    · contradiction

instance : Mirroring (StateT Ambient (Except Fault)) (StateT Ambient (Except Fault)) where
  Mirrors tight g x y := ∀ ambient, Mirrors tight (Prod.map g id) (x.run ambient) (y.run ambient)
  mirrors_pure _ := .inl rfl
  mirrors_bind_of := by
    intro β γ δ η tight g h x y f' f hx hf ambient
    exact mirrors_bind_of (hx ambient) fun b hb => hf b.1 ⟨ambient, b.2, hb⟩ b.2
  mirrors_lift := by
    rintro β γ tight g x y (rfl | ⟨htight, rfl⟩) ambient
    · cases y with
      | error fault => exact .inl rfl
      | ok b => exact .inl rfl
    · exact .inr ⟨htight, rfl⟩
  of_mirrors := by
    rintro β γ tight g x y c h ⟨ambient, after, hc⟩
    obtain ⟨found, hfound, heq⟩ := Mirroring.of_mirrors (h ambient) hc
    cases heq
    exact ⟨found.1, ⟨ambient, found.2, hfound⟩, rfl⟩

instance {ε ε' : Type} {m n : Type → Type} [Monad m] [LawfulMonad m] [Monad n] [LawfulMonad n]
    [MonadLiftT (Except Fault) m] [MonadLiftT (Except Fault) n] [Outcomes m Empty]
    [Outcomes n Empty] [Mirroring m n] [Reported ε ε'] :
    Mirroring (ExceptT ε' m) (ExceptT ε n) where
  Mirrors tight g x y := Mirrors tight (imageOf g) x.run y.run
  mirrors_pure := mirrors_pure (m := m) (n := n) (g := imageOf _) (b := Except.ok _)
  mirrors_bind_of := by
    intro β γ δ η tight g h x y f' f hx hf
    rw [ExceptT.run_bind, ExceptT.run_bind]
    refine mirrors_bind_of hx fun found hfound => ?_
    cases found with
    | ok b => exact hf b hfound
    | error e =>
      -- both computations end here, with the report and its image
      exact mirrors_pure (g := imageOf h) (b := Except.error e)
  mirrors_lift := by
    intro β γ tight g x y h
    change Mirrors tight (imageOf g) (ExceptT.lift (liftM x : m γ) : ExceptT ε' m γ).run
      (ExceptT.lift (liftM y : n β) : ExceptT ε n β).run
    rw [ExceptT.run_lift, ExceptT.run_lift, ← bind_pure_comp, ← bind_pure_comp]
    exact mirrors_bind_of (Mirroring.mirrors_lift h) fun b _ =>
      mirrors_pure (g := imageOf g) (b := Except.ok b)
  of_mirrors := by
    intro β γ tight g x y c h hc
    obtain ⟨found, hfound, heq⟩ := Mirroring.of_mirrors h hc
    cases found with
    | ok b =>
      cases heq
      exact ⟨b, hfound, rfl⟩
    | error e => cases heq

section Rules

variable {m n : Type → Type} {ε ε' : Type} [Monad m] [Monad n] [MonadLiftT (Except Fault) m]
  [MonadLiftT (Except Fault) n] [Outcomes m ε'] [Outcomes n ε] [Mirroring m n]
  {β γ δ η σ τ : Type} {tight : Prop} {g : β → γ} {h : δ → η} {e : σ → τ} {x : m γ} {y : n β}

/-- Two computations are mirrored one after the other. -/
theorem mirrors_bind {f' : γ → m η} {f : β → n δ} (hx : Mirrors tight g x y)
    (hf : ∀ b, Mirrors tight h (f' (g b)) (f b)) : Mirrors tight h (x >>= f') (y >>= f) :=
  mirrors_bind_of hx fun b _ => hf b

/-- What the first computation is known to return may be used of the second. -/
theorem mirrors_bind_returns {P : β → Prop} {f' : γ → m η} {f : β → n δ}
    (hx : Mirrors tight g x y) (hy : ReturnsOnly y P)
    (hf : ∀ b, P b → Mirrors tight h (f' (g b)) (f b)) : Mirrors tight h (x >>= f') (y >>= f) :=
  mirrors_bind_of hx fun b hb => hf b (hy b hb)

/-- A value is mirrored by what is equal to its image. -/
theorem mirrors_value {b : β} {c : γ} (hc : c = g b) :
    Mirrors tight g (pure c : m γ) (pure b : n β) := by
  rw [hc]
  exact mirrors_pure

/-- Both computations decide in the same way. -/
theorem mirrors_ite {c c' : Prop} [Decidable c] [Decidable c'] {x' : m γ} {y' : n β}
    (hc : c' ↔ c) (hx : c → Mirrors tight g x y) (hx' : ¬ c → Mirrors tight g x' y') :
    Mirrors tight g (if c' then x else x') (if c then y else y') := by
  by_cases h : c
  · rw [if_pos h, if_pos (hc.2 h)]
    exact hx h
  · rw [if_neg h, if_neg (mt hc.1 h)]
    exact hx' h

/-- Checked computations are mirrored within larger ones. -/
theorem mirrors_checked {x : Checked γ} {y : Checked β} (h : Mirrors tight g x y) :
    Mirrors tight g (checked x : m γ) (checked y : n β) :=
  Mirroring.mirrors_lift h

/-- A mirror returns nothing but images of what has the property. -/
theorem returnsOnly_of_mirrors {P : β → Prop} (hx : Mirrors tight g x y) (hy : ReturnsOnly y P) :
    ReturnsOnly x fun c => ∃ b, P b ∧ c = g b := by
  intro c hc
  obtain ⟨b, hb, heq⟩ := Mirroring.of_mirrors hx hc
  exact ⟨b, hy b hb, heq⟩

/-! ## Loops -/

variable {I : σ → Prop} {step : Nat → σ → n σ} {step' : Nat → τ → m τ} {s : σ}

theorem mirrors_ascendFrom {hi : Nat} (hreturns : ∀ i t, I t → ReturnsOnly (step i t) I)
    (hstep : ∀ i t, i < hi → I t → Mirrors tight e (step' i (e t)) (step i t)) (count i : Nat)
    (hcount : count ≤ hi - i) (hs : I s) :
    Mirrors tight e (ascendFrom step' count i (e s)) (ascendFrom step count i s) := by
  -- `I` is carried along, because a step is known to be mirrored on such states only
  induction count generalizing i s with
  | zero => exact mirrors_pure
  | succ count ih =>
    exact mirrors_bind_returns (hstep i s (by omega) hs) (hreturns i s hs)
      fun t ht => ih (i + 1) (by omega) ht

/-- Upward loops are mirrored while their steps are, on what the steps may return. They may begin
with what is equal to the image of a state. -/
theorem mirrors_ascend_of {lo hi : Nat} {t : τ} (ht : t = e s) (hs : I s)
    (hreturns : ∀ i t, I t → ReturnsOnly (step i t) I)
    (hstep : ∀ i t, i < hi → I t → Mirrors tight e (step' i (e t)) (step i t)) :
    Mirrors tight e (ascend lo hi t step') (ascend lo hi s step) := by
  rw [ht]
  exact mirrors_ascendFrom hreturns hstep _ _ (Nat.le_refl _) hs

theorem mirrors_ascend_from {lo hi : Nat} {t : τ} (ht : t = e s)
    (hstep : ∀ i t, Mirrors tight e (step' i (e t)) (step i t)) :
    Mirrors tight e (ascend lo hi t step') (ascend lo hi s step) :=
  mirrors_ascend_of (I := fun _ => True) ht trivial (fun _ _ _ _ _ => trivial)
    fun i t _ _ => hstep i t

theorem mirrors_ascend {lo hi : Nat} (hstep : ∀ i t, Mirrors tight e (step' i (e t)) (step i t)) :
    Mirrors tight e (ascend lo hi (e s) step') (ascend lo hi s step) :=
  mirrors_ascend_from rfl hstep

theorem mirrors_descend {lo hi : Nat} (hstep : ∀ i t, Mirrors tight e (step' i (e t)) (step i t)) :
    Mirrors tight e (descend lo hi (e s) step') (descend lo hi s step) := by
  unfold descend
  generalize hi - lo = count
  induction count generalizing s with
  | zero => exact mirrors_pure
  | succ count ih => exact mirrors_bind (hstep (lo + count) s) fun t => ih

theorem mirrors_strideFrom (hreturns : ∀ i t, I t → ReturnsOnly (step i t) I)
    (hstep : ∀ i t, I t → Mirrors tight e (step' i (e t)) (step i t)) (width count i : Nat)
    (hs : I s) :
    Mirrors tight e (strideFrom step' width count i (e s)) (strideFrom step width count i s) := by
  induction count generalizing i s with
  | zero => exact mirrors_pure
  | succ count ih =>
    exact mirrors_bind_returns (hstep i s hs) (hreturns i s hs) fun t ht => ih (i + width) ht

/-- Loops in strides are mirrored while their steps are, on what the steps may return. -/
theorem mirrors_strides_of {lo hi width : Nat} (hs : I s)
    (hreturns : ∀ i t, I t → ReturnsOnly (step i t) I)
    (hstep : ∀ i t, I t → Mirrors tight e (step' i (e t)) (step i t)) :
    Mirrors tight e (strides lo hi width (e s) step') (strides lo hi width s step) :=
  mirrors_ite Iff.rfl (fun _ => Mirroring.mirrors_lift (.inl rfl))
    fun _ => mirrors_strideFrom hreturns hstep _ _ _ hs

theorem mirrors_strides {lo hi width : Nat}
    (hstep : ∀ i t, Mirrors tight e (step' i (e t)) (step i t)) :
    Mirrors tight e (strides lo hi width (e s) step') (strides lo hi width s step) :=
  mirrors_strides_of (I := fun _ => True) trivial (fun _ _ _ _ _ => trivial) fun i t _ => hstep i t

end Rules

/-! ## Computations without entries -/

section Same

variable {β : Type} {tight : Prop}

/-- A checked computation without entries mirrors itself. -/
theorem mirrors_same {x : Checked β} : Mirrors tight id x x :=
  .inl (by cases x <;> rfl)

/-- A computation in some surroundings without entries mirrors itself. -/
theorem mirrors_ambience {x : Ambience β} : Mirrors tight id x x := fun ambient =>
  .inl (by cases x.run ambient <;> rfl)

end Same

section Refusals

variable {m n : Type → Type} [Monad m] [LawfulMonad m] [Monad n] [LawfulMonad n]
  [MonadLiftT (Except Fault) m] [MonadLiftT (Except Fault) n] [Outcomes m Empty] [Outcomes n Empty]
  [Mirroring m n] {ε ε' β γ : Type} [Reported ε ε'] {tight : Prop} {g : β → γ}

theorem mirrors_throw {e : ε} :
    Mirrors tight g (throw (Reported.report e) : ExceptT ε' m γ) (throw e : ExceptT ε n β) :=
  mirrors_pure (m := m) (n := n) (g := imageOf g) (b := Except.error e)

/-- Mirrors whose reports are renamed are mirrors, if the new reports are images again. -/
theorem mirrors_adapt {δ δ' : Type} [Reported δ δ'] {f : ε → δ} {f' : ε' → δ'}
    {x : ExceptT ε' m γ} {y : ExceptT ε n β}
    (hf : ∀ e, Reported.report (f e) = f' (Reported.report e)) (h : Mirrors tight g x y) :
    Mirrors tight g (ExceptT.adapt f' x) (ExceptT.adapt f y) := by
  change Mirrors tight (imageOf g) (ExceptT.adapt f' x).run (ExceptT.adapt f y).run
  rw [run_adapt, run_adapt]
  refine mirrors_bind (g := imageOf g) h fun found => ?_
  cases found with
  | ok b => exact mirrors_pure (g := imageOf g) (b := Except.ok b)
  | error e =>
    have hpure : Mirrors tight (imageOf g) (pure (.error (Reported.report (f e))) : m (Except δ' γ))
        (pure (.error (f e)) : n (Except δ β)) :=
      mirrors_pure (g := imageOf g) (b := Except.error (f e))
    rwa [hf] at hpure

theorem mirrors_unrefused {x : Ambience γ} {y : Ambience β} (h : Mirrors tight g x y) :
    Mirrors tight g (unrefused x : ExceptT ε' Ambience γ) (unrefused y : ExceptT ε Ambience β) := by
  change Mirrors tight (imageOf g) (ExceptT.lift x : ExceptT ε' Ambience γ).run
    (ExceptT.lift y : ExceptT ε Ambience β).run
  rw [ExceptT.run_lift, ExceptT.run_lift, ← bind_pure_comp, ← bind_pure_comp]
  exact mirrors_bind h fun b => mirrors_pure (g := imageOf g) (b := Except.ok b)

theorem mirrors_unobserved {x : ExceptT ε' (Except Fault) γ} {y : ExceptT ε (Except Fault) β}
    (h : Mirrors tight g x y) :
    Mirrors tight g (unobserved x : ExceptT ε' Ambience γ) (unobserved y) :=
  mirrors_checked (m := Ambience) (n := Ambience) (g := imageOf g) h

/-- A computation that is refused without regard to entries mirrors itself. -/
theorem mirrors_fallible {x : Fallible β} : Mirrors tight id x x := .inl (by
  cases h : x.run with
  | error fault => rfl
  | ok found => cases found <;> rfl)

/-- So does one that reads the defaults besides. -/
theorem mirrors_refusable {x : ExceptT Refusal Ambience β} : Mirrors tight id x x := fun ambient =>
  .inl (by
    cases h : x.run.run ambient with
    | error fault => rfl
    | ok found =>
      obtain ⟨found, after⟩ := found
      cases found <;> rfl)

end Refusals

end DenseLinear
