import Mathlib.Tactic.Ring
import DenseLinear.Loop

/-!
# Success of computations and of loops

`Ends x P` says that the computation `x` succeeds with a value that has the property `P`. What
success means depends on the monad (`Ending`): a checked computation must end without a fault, and
a computation that reads process-wide state must succeed whatever it reads.

A loop keeps what each of its steps keeps (`ends_ascend`, `ends_descend`, `ends_strides`). The
kernels are deterministic, so more can be said of a checked loop: if `S i` is the state before
position `i`, a loop from `S lo` ends in `S hi` (`ascend_eq_ok`, `descend_eq_ok`, `strides_eq_ok`).
A loop that collects values is a special case (`ascend_push`).
-/

namespace DenseLinear

/-- What it means for the computations of a monad to succeed with a property. -/
class Ending (m : Type → Type) [Monad m] where
  /-- The computation succeeds with a value that has the property. -/
  Ends {β : Type} : m β → (β → Prop) → Prop
  /-- A value is the success of the computation that does nothing else. -/
  ends_pure {β : Type} {P : β → Prop} {b : β} : P b → Ends (pure b) P
  /-- Computations succeed one after the other. -/
  ends_bind {β γ : Type} {x : m β} {f : β → m γ} {P : β → Prop} {Q : γ → Prop} :
    Ends x P → (∀ b, P b → Ends (f b) Q) → Ends (x >>= f) Q

export Ending (Ends ends_pure ends_bind)

/-- A checked computation succeeds if it ends without a fault. -/
instance : Ending (Except Fault) where
  Ends x P := ∃ b, x = .ok b ∧ P b
  ends_pure h := ⟨_, rfl, h⟩
  ends_bind := by
    rintro β γ x f P Q ⟨b, rfl, hb⟩ hf
    exact hf b hb

/-- A checked computation that may be refused succeeds if it ends without a fault and is not
refused. -/
instance {ε : Type} : Ending (ExceptT ε (Except Fault)) where
  Ends x P := ∃ b, x.run = .ok (.ok b) ∧ P b
  ends_pure h := ⟨_, rfl, h⟩
  ends_bind := by
    rintro β γ x f P Q ⟨b, hx, hb⟩ hf
    obtain ⟨c, hc, hQ⟩ := hf b hb
    refine ⟨c, ?_, hQ⟩
    rw [ExceptT.run_bind, hx]
    exact hc

/-- A checked computation that succeeds is not refused. -/
theorem ends_fallible {ε β : Type} {x : Checked β} {P : β → Prop} (h : Ends x P) :
    Ends (checked x : ExceptT ε (Except Fault) β) P := by
  obtain ⟨b, rfl, hb⟩ := h
  exact ⟨b, rfl, hb⟩

theorem ends_iff {β : Type} {x : Checked β} {P : β → Prop} :
    Ends x P ↔ ∃ b, x = .ok b ∧ P b := Iff.rfl

theorem ends_eq_iff {β : Type} {x : Checked β} {b : β} : Ends x (· = b) ↔ x = .ok b := by
  rw [ends_iff]
  constructor
  · rintro ⟨_, h, rfl⟩
    exact h
  · intro h
    exact ⟨b, h, rfl⟩

theorem ends_run_eq_iff {ε β : Type} {x : ExceptT ε (Except Fault) β} {b : β} :
    Ends x (· = b) ↔ x.run = .ok (.ok b) := by
  constructor
  · rintro ⟨_, h, rfl⟩
    exact h
  · intro h
    exact ⟨b, h, rfl⟩

@[simp]
theorem ok_bind {β γ : Type} (b : β) (f : β → Checked γ) : (Except.ok b >>= f) = f b := rfl

theorem bind_of_ok {β γ : Type} {x : Checked β} {f : β → Checked γ} {b : β} (hx : x = .ok b) :
    (x >>= f) = f b := by
  rw [hx, ok_bind]

theorem bind_eq_ok {β γ : Type} {x : Checked β} {f : β → Checked γ} {b : β} {c : γ}
    (hx : x = .ok b) (hf : f b = .ok c) : (x >>= f) = .ok c :=
  (bind_of_ok hx).trans hf

theorem readAt_of_getElem? {β : Type} {v : Array β} {i : Nat} {b : β} (h : v[i]? = some b) :
    readAt v i = .ok b := by
  obtain ⟨hi, rfl⟩ := Array.getElem?_eq_some_iff.1 h
  exact readAt_eq_ok hi

theorem getElem?_of_readAt {β : Type} {v : Array β} {i : Nat} {b : β} (h : readAt v i = .ok b) :
    v[i]? = some b := by
  unfold readAt at h
  split at h
  · rename_i hi
    rw [Array.getElem?_eq_getElem hi]
    exact congrArg some (Except.ok.inj h)
  · contradiction

theorem getElem?_getD {β : Type} [Zero β] {v : Array β} {i : Nat} (hi : i < v.size) :
    v[i]? = some (v.getD i 0) := by
  rw [Array.getD_eq_getD_getElem?, Array.getElem?_eq_getElem hi, Option.getD_some]

theorem readAt_getD {β : Type} [Zero β] {v : Array β} {i : Nat} (hi : i < v.size) :
    readAt v i = .ok (v.getD i 0) :=
  readAt_of_getElem? (getElem?_getD hi)

section Folds

variable {m : Type → Type} [Monad m] {σ : Type}

theorem ascendFrom_eq_foldlM (step : Nat → σ → m σ) (count i : Nat) (s : σ) :
    ascendFrom step count i s = (List.range' i count).foldlM (fun s i => step i s) s := by
  induction count generalizing i s with
  | zero => rfl
  | succ count ih =>
    rw [List.range'_succ, List.foldlM_cons]
    exact congrArg (step i s >>= ·) (funext fun t => ih (i + 1) t)

/-- A loop is a fold over its positions. -/
theorem ascend_zero_eq_foldlM (step : Nat → σ → m σ) (count : Nat) (s : σ) :
    ascend 0 count s step = (List.range count).foldlM (fun s i => step i s) s := by
  rw [List.range_eq_range']
  exact ascendFrom_eq_foldlM step count 0 s

end Folds

/-- Rounding up the number of strides leaves the last one short of `hi` before it starts. -/
theorem last_stride_lt (lo hi : Nat) {width : Nat} (hwidth : 0 < width) :
    (hi - lo + (width - 1)) / width = 0 ∨
      lo + ((hi - lo + (width - 1)) / width - 1) * width < hi := by
  have hcount := Nat.div_mul_le_self (hi - lo + (width - 1)) width
  generalize (hi - lo + (width - 1)) / width = count at hcount ⊢
  cases count with
  | zero => exact Or.inl rfl
  | succ count =>
    have hsucc : (count + 1) * width = count * width + width := by ring
    rw [Nat.add_sub_cancel]
    omega

section Rules

variable {m : Type → Type} [Monad m] [Ending m] {σ : Type} {step : Nat → σ → m σ} {s : σ}

/-- An upward loop keeps an invariant that is indexed by the position. -/
theorem ends_ascend (I : Nat → σ → Prop) {lo hi : Nat} (hle : lo ≤ hi) (hlo : I lo s)
    (hstep : ∀ i t, lo ≤ i → i < hi → I i t → Ends (step i t) (I (i + 1))) :
    Ends (ascend lo hi s step) (I hi) := by
  -- the induction is on the number of positions that are left; the first step is taken off in front
  obtain ⟨d, rfl⟩ : ∃ d, hi = lo + d := ⟨hi - lo, by omega⟩
  clear hle
  induction d generalizing lo s with
  | zero =>
    have h : ascend lo (lo + 0) s step = pure s := ascend_of_le (Nat.le_refl _) _ _
    rw [h]
    exact ends_pure hlo
  | succ d ih =>
    rw [ascend_of_lt (by omega)]
    refine ends_bind (hstep lo s (Nat.le_refl _) (by omega) hlo) fun t ht => ?_
    have hd : lo + (d + 1) = lo + 1 + d := by omega
    rw [hd] at hstep ⊢
    exact ih ht fun i u h h' => hstep i u (by omega) h'

/-- A downward loop keeps an invariant that is indexed by the position. -/
theorem ends_descend (I : Nat → σ → Prop) {lo hi : Nat} (hle : lo ≤ hi) (hhi : I hi s)
    (hstep : ∀ i t, lo ≤ i → i < hi → I (i + 1) t → Ends (step i t) (I i)) :
    Ends (descend lo hi s step) (I lo) := by
  -- as for `ends_ascend`, but the last position comes first
  obtain ⟨d, rfl⟩ : ∃ d, hi = lo + d := ⟨hi - lo, by omega⟩
  clear hle
  induction d generalizing s with
  | zero =>
    have h : descend lo (lo + 0) s step = pure s := descend_of_le (Nat.le_refl _) _ _
    rw [h]
    exact ends_pure hhi
  | succ d ih =>
    have hd : lo + (d + 1) = lo + d + 1 := by omega
    rw [hd, descend_succ (by omega)]
    refine ends_bind (hstep (lo + d) s (by omega) (by omega) hhi) fun t ht => ?_
    exact ih ht fun i u h h' => hstep i u h (by omega)

/-- The remaining strides of a loop, if `count` of them reach past `hi` and one less does not. -/
theorem ends_strideFrom (I : Nat → σ → Prop) {lo hi width : Nat}
    (hstep : ∀ i t, lo ≤ i → i < hi → width ∣ i - lo → I i t →
      Ends (step i t) (I (min (i + width) hi)))
    (count i : Nat) (hlo : lo ≤ i) (hdvd : width ∣ i - lo) (hreach : hi ≤ i + count * width)
    (hlast : count = 0 ∨ i + (count - 1) * width < hi) (hs : I (min i hi) s) :
    Ends (strideFrom step width count i s) (I hi) := by
  -- `hreach` and `hlast` say that `count` is the number of strides that are left
  induction count generalizing i s with
  | zero =>
    rw [Nat.min_eq_right (by omega)] at hs
    exact ends_pure hs
  | succ count ih =>
    have hi' : i < hi := by
      have h0 : 0 ≤ (count + 1 - 1) * width := Nat.zero_le _
      omega
    have hsucc : (count + 1) * width = count * width + width := by ring
    rw [Nat.min_eq_left (by omega)] at hs
    refine ends_bind (hstep i s hlo hi' hdvd hs) fun t ht => ?_
    refine ih (i + width) (by omega) ?_ (by omega) ?_ ht
    · have h : i + width - lo = (i - lo) + width := by omega
      rw [h]
      exact Nat.dvd_add hdvd (Nat.dvd_refl width)
    · cases count with
      | zero => exact Or.inl rfl
      | succ count =>
        have h : (count + 1 + 1 - 1) * width = (count + 1 - 1) * width + width := by
          simp only [Nat.add_sub_cancel]
          ring
        omega

/-- A striding loop keeps an invariant that is indexed by the position; the position after the last
one is `hi`, where the last stride is cut off. -/
theorem ends_strides [MonadLiftT (Except Fault) m] (I : Nat → σ → Prop) {lo hi width : Nat}
    (hwidth : 0 < width) (hle : lo ≤ hi) (hlo : I lo s)
    (hstep : ∀ i t, lo ≤ i → i < hi → width ∣ i - lo → I i t →
      Ends (step i t) (I (min (i + width) hi))) :
    Ends (strides lo hi width s step) (I hi) := by
  have hcount := Nat.div_add_mod (hi - lo + (width - 1)) width
  have hmod := Nat.mod_lt (hi - lo + (width - 1)) hwidth
  have hlast := last_stride_lt lo hi hwidth
  unfold strides
  rw [if_neg (by omega)]
  generalize (hi - lo + (width - 1)) / width = count at hcount hlast ⊢
  have hcomm : width * count = count * width := Nat.mul_comm _ _
  rw [← Nat.min_eq_left hle] at hlo
  exact ends_strideFrom I hstep count lo (Nat.le_refl _) (by simp) (by omega) hlast hlo

end Rules

section KnownStates

variable {σ : Type} {step : Nat → σ → Checked σ} {lo hi : Nat} {s t : σ}

/-- A loop that goes from `S i` to `S (i + 1)` at every position goes from `S lo` to `S hi`. -/
theorem ascend_eq_ok (S : Nat → σ) (hle : lo ≤ hi) (hlo : S lo = s) (hhi : S hi = t)
    (hstep : ∀ i, lo ≤ i → i < hi → step i (S i) = .ok (S (i + 1))) :
    ascend lo hi s step = .ok t := by
  subst hlo hhi
  refine ends_eq_iff.1 (ends_ascend (fun i t => t = S i) hle rfl ?_)
  rintro i t h h' rfl
  exact ends_eq_iff.2 (hstep i h h')

/-- A downward loop that goes from `S (i + 1)` to `S i` at every position goes from `S hi` to
`S lo`. -/
theorem descend_eq_ok (S : Nat → σ) (hle : lo ≤ hi) (hhi : S hi = s) (hlo : S lo = t)
    (hstep : ∀ i, lo ≤ i → i < hi → step i (S (i + 1)) = .ok (S i)) :
    descend lo hi s step = .ok t := by
  subst hlo hhi
  refine ends_eq_iff.1 (ends_descend (fun i t => t = S i) hle rfl ?_)
  rintro i t h h' rfl
  exact ends_eq_iff.2 (hstep i h h')

/-- A striding loop that goes from `S i` to the state at the next position, or at `hi` if that is
nearer, goes from `S lo` to `S hi`. -/
theorem strides_eq_ok (S : Nat → σ) {width : Nat} (hwidth : 0 < width) (hle : lo ≤ hi)
    (hlo : S lo = s) (hhi : S hi = t)
    (hstep : ∀ i, lo ≤ i → i < hi → width ∣ i - lo →
      step i (S i) = .ok (S (min (i + width) hi))) :
    strides lo hi width s step = .ok t := by
  subst hlo hhi
  refine ends_eq_iff.1 (ends_strides (fun i t => t = S i) hwidth hle rfl ?_)
  rintro i t h h' hd rfl
  exact ends_eq_iff.2 (hstep i h h' hd)

end KnownStates

section Faults

variable {σ : Type} {step : Nat → σ → Checked σ} {fault : Fault}

/-- Strides that end in a fault at the first position where one step does. -/
theorem strideFrom_eq_error (S : Nat → σ) {width lo before : Nat}
    (hstep : ∀ t < before, step (lo + t * width) (S t) = .ok (S (t + 1)))
    (hfault : step (lo + before * width) (S before) = .error fault) {count : Nat}
    (hcount : before < count) : strideFrom step width count lo (S 0) = .error fault := by
  -- the first stride is taken off in front, so the states are shifted along with the positions
  induction before generalizing lo count S with
  | zero =>
    obtain ⟨rest, rfl⟩ : ∃ rest, count = rest + 1 := ⟨count - 1, by omega⟩
    rw [Nat.zero_mul, Nat.add_zero] at hfault
    unfold strideFrom
    rw [hfault]
    rfl
  | succ before ih =>
    obtain ⟨rest, rfl⟩ : ∃ rest, count = rest + 1 := ⟨count - 1, by omega⟩
    have hshift (t : Nat) : lo + width + t * width = lo + (t + 1) * width := by ring
    have hfirst := hstep 0 (Nat.succ_pos before)
    rw [Nat.zero_mul, Nat.add_zero] at hfirst
    unfold strideFrom
    rw [hfirst, ok_bind]
    refine ih (fun t => S (t + 1)) ?_ ?_ (by omega)
    · intro t ht
      rw [hshift]
      exact hstep (t + 1) (by omega)
    · rw [hshift]
      exact hfault

/-- A striding loop ends in the fault of the first step that has one. -/
theorem strides_eq_error (S : Nat → σ) {lo hi width before : Nat} (hwidth : 0 < width)
    (hstep : ∀ t < before, step (lo + t * width) (S t) = .ok (S (t + 1)))
    (hfault : step (lo + before * width) (S before) = .error fault)
    (hbefore : lo + before * width < hi) : strides lo hi width (S 0) step = .error fault := by
  unfold strides
  rw [if_neg (by omega)]
  refine strideFrom_eq_error S hstep hfault ?_
  have hsucc : (before + 1) * width = before * width + width := by ring
  have hcount : before + 1 ≤ (hi - lo + (width - 1)) / width :=
    (Nat.le_div_iff_mul_le hwidth).2 (by omega)
  exact hcount

/-- An upward loop whose steps each end in the fault as soon as a growing quantity reaches a bound goes
to the end if the quantity stays below the bound, and else ends in the fault. -/
theorem ascend_bounded (S : Nat → σ) (quantity : Nat → Nat) {bound lo hi : Nat} (hle : lo ≤ hi)
    (hmono : Monotone quantity) (hlo : quantity lo < bound)
    (hstep : ∀ i, lo ≤ i → i < hi → quantity i < bound →
      step i (S i) = if quantity (i + 1) < bound then .ok (S (i + 1)) else .error fault) :
    ascend lo hi (S lo) step = if quantity hi < bound then .ok (S hi) else .error fault := by
  -- the induction is on the number of positions that are left
  obtain ⟨d, rfl⟩ : ∃ d, hi = lo + d := ⟨hi - lo, by omega⟩
  clear hle
  induction d generalizing lo with
  | zero =>
    have h : ascend lo (lo + 0) (S lo) step = pure (S lo) := ascend_of_le (Nat.le_refl _) _ _
    exact h.trans (if_pos hlo).symm
  | succ d ih =>
    have hd : lo + (d + 1) = lo + 1 + d := by omega
    rw [ascend_of_lt (by omega), hstep lo (Nat.le_refl _) (by omega) hlo]
    rw [hd] at hstep ⊢
    by_cases hnext : quantity (lo + 1) < bound
    · rw [if_pos hnext, ok_bind]
      exact ih hnext fun i h h' => hstep i (by omega) h'
    · have hend : quantity (lo + 1) ≤ quantity (lo + 1 + d) := hmono (Nat.le_add_right _ _)
      rw [if_neg hnext, if_neg (by omega)]
      rfl

end Faults

/-- A loop that appends a value at every position appends all of them. -/
theorem ascend_push {β : Type} {lo hi : Nat} {step : Nat → Array β → Checked (Array β)}
    {start : Array β} (x : Nat → β) (hle : lo ≤ hi)
    (hstep : ∀ i v, lo ≤ i → i < hi → step i v = .ok (v.push (x i))) :
    ascend lo hi start step =
      .ok (start ++ (Array.range (hi - lo)).map fun l => x (lo + l)) := by
  refine ascend_eq_ok (fun i => start ++ (Array.range (i - lo)).map fun l => x (lo + l)) hle
    (by simp) rfl ?_
  intro i hi1 hi2
  have hsize : i + 1 - lo = (i - lo) + 1 := by omega
  have hplace : lo + (i - lo) = i := by omega
  rw [hstep i _ hi1 hi2, hsize, Array.range_succ]
  simp [hplace]

end DenseLinear
