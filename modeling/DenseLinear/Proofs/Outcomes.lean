import DenseLinear.Blocking
import DenseLinear.Loop

/-!
# What a computation may answer

A computation either returns a value, or is refused with a report, or ends in a fault. `Outcomes`
says which values and reports are possible, for every monad that kernels run in; a computation that
reads the defaults may answer what it does from some surroundings.

`ReturnsOnly x P` and `RefusedOnly x E` say that every value that `x` may return has the property
`P`, and every report that it may be refused with the property `E`. A computation that always ends
in a fault has both, so nothing is said here about success. A loop keeps what each step keeps
(`returnsOnly_ascend`, `returnsOnly_descend`, `returnsOnly_strides`).
-/

namespace DenseLinear

/-- The values that the computations of a monad may return, and the reports that they may be refused
with. -/
class Outcomes (m : Type → Type) (ε : outParam Type) [Monad m] [MonadLiftT (Except Fault) m] where
  /-- The computation may return the value. -/
  Returns {β : Type} : m β → β → Prop
  /-- The computation may be refused with the report. -/
  Refused {β : Type} : m β → ε → Prop
  /-- A computation that does nothing else returns its value. -/
  of_returns_pure {β : Type} {b c : β} : Returns (pure b) c → c = b
  /-- It is not refused. -/
  not_refused_pure {β : Type} {b : β} {e : ε} : ¬ Refused (pure b) e
  /-- What two computations return one after the other. -/
  of_returns_bind {β γ : Type} {x : m β} {f : β → m γ} {c : γ} :
    Returns (x >>= f) c → ∃ b, Returns x b ∧ Returns (f b) c
  /-- Either of the two may be refused. -/
  of_refused_bind {β γ : Type} {x : m β} {f : β → m γ} {e : ε} :
    Refused (x >>= f) e → Refused x e ∨ ∃ b, Returns x b ∧ Refused (f b) e
  /-- What a checked computation returns within a larger one. -/
  of_returns_lift {β : Type} {x : Checked β} {b : β} : Returns (liftM x : m β) b → x = .ok b
  /-- A checked computation is not refused. -/
  not_refused_lift {β : Type} {x : Checked β} {e : ε} : ¬ Refused (liftM x : m β) e

export Outcomes (Returns Refused)

/-- A checked computation has one outcome. -/
instance : Outcomes (Except Fault) Empty where
  Returns x b := x = .ok b
  Refused _ _ := False
  of_returns_pure h := (Except.ok.inj h).symm
  not_refused_pure h := h
  of_returns_bind := by
    intro β γ x f c h
    cases x with
    | error fault => contradiction
    | ok b => exact ⟨b, rfl, h⟩
  of_refused_bind h := h.elim
  of_returns_lift h := h
  not_refused_lift h := h

/-- A computation that reads the defaults may answer what it does from some surroundings. -/
instance : Outcomes (StateT Ambient (Except Fault)) Empty where
  Returns x b := ∃ ambient after, x.run ambient = .ok (b, after)
  Refused _ _ := False
  of_returns_pure := by
    rintro β b c ⟨ambient, after, h⟩
    cases h
    rfl
  not_refused_pure h := h
  of_returns_bind := by
    rintro β γ x f c ⟨ambient, after, h⟩
    rw [StateT.run_bind] at h
    cases hx : x.run ambient with
    | error fault =>
      rw [hx] at h
      contradiction
    | ok found =>
      rw [hx] at h
      exact ⟨found.1, ⟨ambient, found.2, hx⟩, found.2, after, h⟩
  of_refused_bind h := h.elim
  of_returns_lift := by
    rintro β x b ⟨ambient, after, h⟩
    cases x with
    | error fault => contradiction
    | ok c =>
      cases h
      rfl
  not_refused_lift h := h

/-- A computation that may be refused returns its successes, and reports its refusals. -/
instance {ε : Type} {m : Type → Type} [Monad m] [LawfulMonad m] [MonadLiftT (Except Fault) m]
    [Outcomes m Empty] : Outcomes (ExceptT ε m) ε where
  Returns x b := Returns x.run (.ok b)
  Refused x e := Returns x.run (.error e)
  of_returns_pure h := Except.ok.inj (Outcomes.of_returns_pure h)
  not_refused_pure h := nomatch Outcomes.of_returns_pure h
  of_returns_bind := by
    intro β γ x f c h
    rw [ExceptT.run_bind] at h
    obtain ⟨found, hx, hf⟩ := Outcomes.of_returns_bind h
    cases found with
    | error e => cases Outcomes.of_returns_pure hf
    | ok b => exact ⟨b, hx, hf⟩
  of_refused_bind := by
    intro β γ x f e h
    rw [ExceptT.run_bind] at h
    obtain ⟨found, hx, hf⟩ := Outcomes.of_returns_bind h
    cases found with
    | error e' =>
      cases Outcomes.of_returns_pure hf
      exact .inl hx
    | ok b => exact .inr ⟨b, hx, hf⟩
  of_returns_lift := by
    intro β x b h
    change Returns (ExceptT.lift (liftM x : m β) : ExceptT ε m β).run _ at h
    rw [ExceptT.run_lift, ← bind_pure_comp] at h
    obtain ⟨c, hx, hc⟩ := Outcomes.of_returns_bind h
    cases Outcomes.of_returns_pure hc
    exact Outcomes.of_returns_lift hx
  not_refused_lift := by
    intro β x e h
    change Returns (ExceptT.lift (liftM x : m β) : ExceptT ε m β).run _ at h
    rw [ExceptT.run_lift, ← bind_pure_comp] at h
    obtain ⟨c, -, hc⟩ := Outcomes.of_returns_bind h
    cases Outcomes.of_returns_pure hc

section Rules

variable {m : Type → Type} {ε : Type} [Monad m] [MonadLiftT (Except Fault) m] [Outcomes m ε]
  {β γ σ : Type} {P : β → Prop} {Q : γ → Prop} {x : m β} {f : β → m γ}

/-- Every value that the computation may return has the property. -/
def ReturnsOnly (x : m β) (P : β → Prop) : Prop := ∀ b, Returns x b → P b

/-- Every report that the computation may be refused with has the property. -/
def RefusedOnly (x : m β) (E : ε → Prop) : Prop := ∀ e, Refused x e → E e

theorem returnsOnly_pure {b : β} (h : P b) : ReturnsOnly (pure b : m β) P := by
  intro c hc
  rw [Outcomes.of_returns_pure hc]
  exact h

theorem returnsOnly_bind (hx : ReturnsOnly x P) (hf : ∀ b, P b → ReturnsOnly (f b) Q) :
    ReturnsOnly (x >>= f) Q := by
  intro c hc
  obtain ⟨b, hb, hc⟩ := Outcomes.of_returns_bind hc
  exact hf b (hx b hb) c hc

/-- The rest of a computation decides, where nothing need be known of the first value. -/
theorem returnsOnly_then (hf : ∀ b, ReturnsOnly (f b) Q) : ReturnsOnly (x >>= f) Q :=
  returnsOnly_bind (P := fun _ => True) (fun _ _ => trivial) fun b _ => hf b

theorem returnsOnly_mono {P' : β → Prop} (h : ReturnsOnly x P) (hP : ∀ b, P b → P' b) :
    ReturnsOnly x P' :=
  fun b hb => hP b (h b hb)

theorem returnsOnly_ite {c : Prop} [Decidable c] {y : m β} (hx : c → ReturnsOnly x P)
    (hy : ¬ c → ReturnsOnly y P) : ReturnsOnly (if c then x else y) P := by
  split
  · exact hx ‹c›
  · exact hy ‹¬ c›

/-- A checked computation returns what it does on its own. -/
theorem returnsOnly_checked {y : Checked β} (h : ∀ b, y = .ok b → P b) :
    ReturnsOnly (checked y : m β) P :=
  fun b hb => h b (Outcomes.of_returns_lift hb)

/-- A fault is no value. -/
theorem returnsOnly_fault {fault : Fault} : ReturnsOnly (throw fault : Checked β) P :=
  fun _ h => nomatch h

theorem refusedOnly_pure {b : β} {E : ε → Prop} : RefusedOnly (pure b : m β) E :=
  fun _ he => absurd he Outcomes.not_refused_pure

theorem refusedOnly_bind {E : ε → Prop} (hx : RefusedOnly x E) (hP : ReturnsOnly x P)
    (hf : ∀ b, P b → RefusedOnly (f b) E) : RefusedOnly (x >>= f) E := by
  intro e he
  rcases Outcomes.of_refused_bind he with he | ⟨b, hb, he⟩
  · exact hx e he
  · exact hf b (hP b hb) e he

theorem refusedOnly_ite {c : Prop} [Decidable c] {y : m β} {E : ε → Prop}
    (hx : c → RefusedOnly x E) (hy : ¬ c → RefusedOnly y E) :
    RefusedOnly (if c then x else y) E := by
  split
  · exact hx ‹c›
  · exact hy ‹¬ c›

theorem refusedOnly_checked {y : Checked β} {E : ε → Prop} : RefusedOnly (checked y : m β) E :=
  fun _ he => absurd he Outcomes.not_refused_lift

/-! ## Loops -/

variable {I : σ → Prop} {E : ε → Prop} {step : Nat → σ → m σ} {s : σ}

theorem returnsOnly_ascendFrom (hstep : ∀ i t, I t → ReturnsOnly (step i t) I) (count i : Nat)
    (hs : I s) : ReturnsOnly (ascendFrom step count i s) I := by
  induction count generalizing i s with
  | zero => exact returnsOnly_pure hs
  | succ count ih => exact returnsOnly_bind (hstep i s hs) fun t ht => ih (i + 1) ht

/-- An upward loop returns what each of its steps keeps. -/
theorem returnsOnly_ascend {lo hi : Nat} (hs : I s)
    (hstep : ∀ i t, I t → ReturnsOnly (step i t) I) : ReturnsOnly (ascend lo hi s step) I :=
  returnsOnly_ascendFrom hstep _ _ hs

/-- A downward loop returns what each of its steps keeps. -/
theorem returnsOnly_descend {lo hi : Nat} (hs : I s)
    (hstep : ∀ i t, I t → ReturnsOnly (step i t) I) : ReturnsOnly (descend lo hi s step) I := by
  unfold descend
  generalize hi - lo = count
  induction count generalizing s with
  | zero => exact returnsOnly_pure hs
  | succ count ih => exact returnsOnly_bind (hstep (lo + count) s hs) fun t ht => ih ht

theorem returnsOnly_strideFrom (hstep : ∀ i t, I t → ReturnsOnly (step i t) I) (width count i : Nat)
    (hs : I s) : ReturnsOnly (strideFrom step width count i s) I := by
  induction count generalizing i s with
  | zero => exact returnsOnly_pure hs
  | succ count ih => exact returnsOnly_bind (hstep i s hs) fun t ht => ih (i + width) ht

/-- A loop in strides returns what each of its steps keeps. -/
theorem returnsOnly_strides {lo hi width : Nat} (hs : I s)
    (hstep : ∀ i t, I t → ReturnsOnly (step i t) I) :
    ReturnsOnly (strides lo hi width s step) I :=
  returnsOnly_ite (fun _ => returnsOnly_checked fun _ h => nomatch h)
    fun _ => returnsOnly_strideFrom hstep _ _ _ hs

/-- An upward loop is refused only as its steps are. -/
theorem refusedOnly_ascend {lo hi : Nat} (hs : I s)
    (hstep : ∀ i t, I t → ReturnsOnly (step i t) I)
    (hrefused : ∀ i t, I t → RefusedOnly (step i t) E) :
    RefusedOnly (ascend lo hi s step) E := by
  unfold ascend
  generalize hi - lo = count
  induction count generalizing lo s with
  | zero => exact refusedOnly_pure
  | succ count ih =>
    exact refusedOnly_bind (hrefused lo s hs) (hstep lo s hs) fun t ht => ih ht

/-- A loop in strides is refused only as its steps are. -/
theorem refusedOnly_strides {lo hi width : Nat} (hs : I s)
    (hstep : ∀ i t, I t → ReturnsOnly (step i t) I)
    (hrefused : ∀ i t, I t → RefusedOnly (step i t) E) :
    RefusedOnly (strides lo hi width s step) E := by
  unfold strides
  split
  · exact refusedOnly_checked
  · generalize (hi - lo + (width - 1)) / width = count
    induction count generalizing lo s with
    | zero => exact refusedOnly_pure
    | succ count ih =>
      exact refusedOnly_bind (hrefused lo s hs) (hstep lo s hs) fun t ht => ih ht

/-- A fold over a list returns what each of its steps keeps. -/
theorem returnsOnly_foldlM {ι : Type} {step : σ → ι → m σ} {I : Nat → σ → Prop} {l : List ι}
    {k : Nat} (hs : I k s) (hstep : ∀ k t x, I k t → ReturnsOnly (step t x) (I (k + 1))) :
    ReturnsOnly (l.foldlM step s) (I (k + l.length)) := by
  induction l generalizing k s with
  | nil => exact returnsOnly_pure hs
  | cons x rest ih =>
    rw [List.foldlM_cons, List.length_cons, ← Nat.add_assoc, Nat.add_right_comm]
    exact returnsOnly_bind (hstep k s x hs) fun t ht => ih ht

end Rules

/-! ## Refusals and surroundings -/

section Refusals

variable {m : Type → Type} [Monad m] [LawfulMonad m] [MonadLiftT (Except Fault) m]
  [Outcomes m Empty] {ε β σ τ : Type} {P : β → Prop} {E : ε → Prop}

theorem returnsOnly_throw {e : ε} : ReturnsOnly (throw e : ExceptT ε m β) P :=
  fun _ h => nomatch Outcomes.of_returns_pure h

theorem refusedOnly_throw {e : ε} (h : E e) : RefusedOnly (throw e : ExceptT ε m β) E := by
  intro e' he
  cases Outcomes.of_returns_pure he
  exact h

omit [MonadLiftT (Except Fault) m] [Outcomes m Empty] in
/-- Renaming the reports of a computation is a last step. -/
theorem run_adapt {f : σ → ε} (x : ExceptT σ m β) :
    (ExceptT.adapt f x).run = x.run >>= fun found => pure (found.mapError f) :=
  (bind_pure_comp _ _).symm

/-- The renamed reports are the only ones. -/
theorem refusedOnly_adapt {f : σ → ε} (x : ExceptT σ m β) (h : ∀ e, E (f e)) :
    RefusedOnly (ExceptT.adapt f x) E := by
  intro e he
  change Returns (ExceptT.adapt f x).run (.error e) at he
  rw [run_adapt] at he
  obtain ⟨found, -, he⟩ := Outcomes.of_returns_bind he
  cases found with
  | error e' =>
    cases Outcomes.of_returns_pure he
    exact h e'
  | ok c => cases Outcomes.of_returns_pure he

/-- A computation that is never refused returns what it does on its own. -/
theorem returnsOnly_unrefused {x : Ambience β} (h : ReturnsOnly x P) :
    ReturnsOnly (unrefused x : ExceptT ε Ambience β) P := by
  intro b hb
  change Returns (ExceptT.lift x : ExceptT ε Ambience β).run (.ok b) at hb
  rw [ExceptT.run_lift, ← bind_pure_comp] at hb
  obtain ⟨c, hc, hb⟩ := Outcomes.of_returns_bind hb
  cases Outcomes.of_returns_pure hb
  exact h _ hc

theorem refusedOnly_unrefused {x : Ambience β} :
    RefusedOnly (unrefused x : ExceptT ε Ambience β) E := by
  intro e he
  change Returns (ExceptT.lift x : ExceptT ε Ambience β).run (.error e) at he
  rw [ExceptT.run_lift, ← bind_pure_comp] at he
  obtain ⟨c, -, he⟩ := Outcomes.of_returns_bind he
  cases Outcomes.of_returns_pure he

omit [LawfulMonad m] [MonadLiftT (Except Fault) m] [Outcomes m Empty] [Monad m] in
/-- A computation that observes nothing returns what it does on its own. -/
theorem returnsOnly_unobserved {x : ExceptT ε (Except Fault) β} (h : ReturnsOnly x P) :
    ReturnsOnly (unobserved x) P := by
  intro b hb
  exact h b (Outcomes.of_returns_lift (m := Ambience) hb)

end Refusals

end DenseLinear
