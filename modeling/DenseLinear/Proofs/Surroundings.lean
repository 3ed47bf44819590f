import DenseLinear.Blocking
import DenseLinear.Proofs.Loops

/-!
# Surroundings

A kernel reads the process-wide defaults while other callers change them. `Ambient.Sound` is what a
kernel can rely on: an edge length that is read is a machine word and never zero, whatever was
requested before and whatever is requested between two reads (`Ambient.Sound.advance`).

With respect to sound surroundings a computation that reads the defaults succeeds (`Ends`) if it
does so from all of them, and leaves them sound.
-/

namespace DenseLinear

/-- The default edge length is a machine word, and not less than a positive least value. -/
structure Defaults.Sound (d : Defaults) : Prop where
  /-- No assignment makes the edge length zero. -/
  least_pos : 1 ≤ d.edge.least
  /-- The edge length has not been made less than its least value. -/
  least_le : d.edge.least ≤ d.edge.value
  /-- The edge length is a machine word. -/
  value_lt : d.edge.value < Size.limit

/-- The defaults are sound, and whatever other callers are about to request are machine words. -/
structure Ambient.Sound (ambient : Ambient) : Prop where
  /-- The defaults as they are now. -/
  defaults : ambient.defaults.Sound
  /-- The requests that are to come. -/
  pending : ∀ requests ∈ ambient.pending, ∀ edge, DefaultRequest.edge edge ∈ requests →
    edge < Size.limit

/-- A caller's choice with an edge length, if there is one, that is a machine word and not zero. -/
def BlockingChoice.Valid (choice : BlockingChoice) : Prop :=
  ∀ edge, choice.edge = some edge → 1 ≤ edge ∧ edge < Size.limit

/-- An edge length that a choice can be settled on: its own, if it has one. -/
def BlockingChoice.Admits (choice : BlockingChoice) (edge : Nat) : Prop :=
  ∀ edge', choice.edge = some edge' → edge' = edge

theorem BlockingChoice.valid_default : ({} : BlockingChoice).Valid := by
  intro edge h
  cases h

theorem BlockingChoice.valid_direct : BlockingChoice.direct.Valid := by
  intro edge h
  cases h

theorem BlockingChoice.valid_tiled {edge : Nat} (hpos : 1 ≤ edge) (hlimit : edge < Size.limit) :
    (BlockingChoice.tiled edge).Valid := by
  intro edge' h
  cases h
  exact ⟨hpos, hlimit⟩

theorem Defaults.sound_initial : ({} : Defaults).Sound :=
  ⟨by decide, by decide, by decide⟩

/-- The surroundings that nobody has changed are sound. -/
theorem Ambient.sound_initial : ({} : Ambient).Sound :=
  ⟨Defaults.sound_initial, by simp⟩

theorem Defaults.serve_edge (d : Defaults) (value : Nat) :
    d.serve (.edge value) =
      if value < d.edge.least then d else { d with edge := { d.edge with value := value } } := by
  simp only [Defaults.serve, Defaults.assign, Setting.assign]
  by_cases h : value < d.edge.least
  · rw [if_pos h, if_pos h]
    rfl
  · rw [if_neg h, if_neg h]
    rfl

theorem Defaults.edge_serve_directVolume (d : Defaults) (value : Nat) :
    (d.serve (.directVolume value)).edge = d.edge := by
  simp only [Defaults.serve, Defaults.assign, Setting.assign]
  by_cases h : value < d.directVolume.least
  · rw [if_pos h]
    rfl
  · rw [if_neg h]
    rfl

/-- A request that is a machine word leaves the defaults sound, served or refused. -/
theorem Defaults.Sound.serve {d : Defaults} (hd : d.Sound) {request : DefaultRequest}
    (hword : ∀ edge, request = .edge edge → edge < Size.limit) : (d.serve request).Sound := by
  -- only a request for an edge length can move it
  cases request with
  | directVolume value =>
    have hedge := d.edge_serve_directVolume value
    exact ⟨hedge ▸ hd.least_pos, hedge ▸ hd.least_le, hedge ▸ hd.value_lt⟩
  | edge value =>
    rw [Defaults.serve_edge]
    split
    · exact hd
    · rename_i hle
      -- the request was not refused, so the new value is not below the least one
      exact ⟨hd.least_pos, Nat.le_of_not_lt hle, hword value rfl⟩

theorem Defaults.Sound.foldl_serve {requests : List DefaultRequest} {d : Defaults} (hd : d.Sound)
    (hword : ∀ edge, .edge edge ∈ requests → edge < Size.limit) :
    (requests.foldl Defaults.serve d).Sound := by
  induction requests generalizing d with
  | nil => exact hd
  | cons request rest ih =>
    refine ih (hd.serve ?_) fun edge h => hword edge (List.mem_cons_of_mem _ h)
    rintro edge rfl
    exact hword edge List.mem_cons_self

/-- The requests before a read leave the surroundings sound. -/
theorem Ambient.Sound.advance {ambient : Ambient} (h : ambient.Sound) : ambient.advance.Sound := by
  unfold Ambient.advance
  split
  · exact h
  · rename_i requests rest hpending
    have hwords := h.pending
    rw [hpending] at hwords
    exact ⟨h.defaults.foldl_serve (hwords requests List.mem_cons_self),
      fun requests' h' => hwords requests' (List.mem_cons_of_mem _ h')⟩

theorem Ambient.Sound.report {ambient : Ambient} (h : ambient.Sound) (event : Event) :
    Ambient.Sound { ambient with log := ambient.log.push event } :=
  ⟨h.defaults, h.pending⟩

/-- Events that are reported one after the other are added to the log in this order. -/
theorem run_forM_report {β : Type} (entries : Array β) (event : β → Event) (ambient : Ambient) :
    (entries.forM fun entry => Ambient.report (event entry)).run ambient =
      .ok ((), { ambient with log := ambient.log ++ entries.map event }) := by
  obtain ⟨l⟩ := entries
  rw [List.forM_toArray' _ _ rfl]
  induction l generalizing ambient with
  | nil =>
    simp only [List.map_toArray, List.map_nil, Array.append_empty]
    rfl
  | cons entry l ih =>
    change (l.forM fun entry => Ambient.report (event entry)).run
      { ambient with log := ambient.log.push (event entry) } = _
    rw [ih]
    simp

/-! ## Success in sound surroundings -/

/-- A computation that reads the defaults succeeds if it does so in all sound surroundings. -/
instance : Ending (StateT Ambient (Except Fault)) where
  Ends x P := ∀ ambient : Ambient, ambient.Sound →
    ∃ b ambient', P b ∧ ambient'.Sound ∧ x.run ambient = .ok (b, ambient')
  ends_pure h ambient hambient := ⟨_, ambient, h, hambient, rfl⟩
  ends_bind := by
    intro β γ x f P Q hx hf ambient hambient
    obtain ⟨b, ambient', hb, hambient', hrun⟩ := hx ambient hambient
    obtain ⟨c, ambient'', hc, hambient'', hrun'⟩ := hf b hb ambient' hambient'
    refine ⟨c, ambient'', hc, hambient'', ?_⟩
    rw [StateT.run_bind, hrun]
    exact hrun'

/-- A computation that may be refused succeeds if it does so and is not refused. -/
instance {ε : Type} : Ending (ExceptT ε (StateT Ambient (Except Fault))) where
  Ends x P := Ends x.run fun r => ∃ b, r = .ok b ∧ P b
  ends_pure h := ends_pure ⟨_, rfl, h⟩
  ends_bind := by
    intro β γ x f P Q hx hf
    rw [ExceptT.run_bind]
    refine ends_bind hx ?_
    rintro _ ⟨b, rfl, hb⟩
    exact hf b hb

/-- From some surroundings the computation succeeds with a value and leaves other surroundings. -/
def Runs {ε β : Type} (x : ExceptT ε Ambience β) (ambient : Ambient) (b : β) (ambient' : Ambient) :
    Prop :=
  x.run.run ambient = .ok (.ok b, ambient')

namespace Runs

variable {ε β γ : Type} {x : ExceptT ε Ambience β} {b : β} {ambient ambient' : Ambient}

theorem bind (h : Runs x ambient b ambient') {f : β → ExceptT ε Ambience γ} {c : γ}
    {ambient'' : Ambient} (h' : Runs (f b) ambient' c ambient'') :
    Runs (x >>= f) ambient c ambient'' := by
  unfold Runs at h h' ⊢
  rw [ExceptT.run_bind, StateT.run_bind, h]
  exact h'

theorem adapt {ε' : Type} {f : ε → ε'} (h : Runs x ambient b ambient') :
    Runs (ExceptT.adapt f x) ambient b ambient' := by
  unfold Runs at h ⊢
  change (Except.mapError f <$> x.run).run ambient = _
  rw [StateT.run_map, h]
  rfl

theorem unobserved {y : ExceptT ε (Except Fault) β} (h : y.run = .ok (.ok b)) :
    Runs (DenseLinear.unobserved y) ambient b ambient := by
  unfold Runs DenseLinear.unobserved
  rw [ExceptT.run_mk, h]
  rfl

/-- A run has one outcome. -/
theorem unique (h : Runs x ambient b ambient') {c : β} {ambient'' : Ambient}
    (h' : Runs x ambient c ambient'') : b = c ∧ ambient' = ambient'' := by
  unfold Runs at h h'
  rw [h] at h'
  simp only [Except.ok.injEq, Prod.mk.injEq] at h'
  exact h'

end Runs

section Lifting

variable {ε β σ τ : Type} {P : β → Prop}

/-- A computation succeeds if it has a run from all sound surroundings. -/
theorem ends_iff_runs {x : ExceptT ε Ambience β} :
    Ends x P ↔ ∀ ambient : Ambient, ambient.Sound →
      ∃ b ambient', P b ∧ ambient'.Sound ∧ Runs x ambient b ambient' := by
  constructor
  · intro h ambient hambient
    obtain ⟨_, ambient', ⟨b, rfl, hb⟩, hambient', hrun⟩ := h ambient hambient
    exact ⟨b, ambient', hb, hambient', hrun⟩
  · intro h ambient hambient
    obtain ⟨b, ambient', hb, hambient', hrun⟩ := h ambient hambient
    exact ⟨.ok b, ambient', ⟨b, rfl, hb⟩, hambient', hrun⟩

/-- A computation with one result has it in all sound surroundings. -/
theorem exists_runs {x : ExceptT ε Ambience β} {b : β} {ambient : Ambient} (h : Ends x (· = b))
    (hambient : ambient.Sound) : ∃ after, Runs x ambient b after := by
  obtain ⟨_, after, rfl, -, hrun⟩ := ends_iff_runs.1 h ambient hambient
  exact ⟨after, hrun⟩

/-- A success has every property that follows from the one it has. -/
theorem ends_mono {Q : β → Prop} {x : ExceptT ε Ambience β} (h : Ends x P)
    (hPQ : ∀ b, P b → Q b) : Ends x Q := by
  refine ends_iff_runs.2 fun ambient hambient => ?_
  obtain ⟨b, after, hb, hafter, hrun⟩ := ends_iff_runs.1 h ambient hambient
  exact ⟨b, after, hPQ b hb, hafter, hrun⟩

/-- A computation that has a run is followed by one that succeeds in all sound surroundings. -/
theorem Runs.bind_ends {γ : Type} {x : ExceptT ε Ambience β} {b : β} {ambient ambient' : Ambient}
    (h : Runs x ambient b ambient') (hambient' : ambient'.Sound) {f : β → ExceptT ε Ambience γ}
    {Q : γ → Prop} (hf : Ends (f b) Q) :
    ∃ c after, Q c ∧ after.Sound ∧ Runs (x >>= f) ambient c after := by
  obtain ⟨c, after, hc, hsound, hrun⟩ := ends_iff_runs.1 hf ambient' hambient'
  exact ⟨c, after, hc, hsound, h.bind hrun⟩

theorem ends_run_iff {x : ExceptT ε Ambience β} :
    Ends x P ↔ Ends x.run fun r => ∃ b, r = .ok b ∧ P b := Iff.rfl

/-- A checked computation that succeeds does so in any surroundings. -/
theorem ends_checked {x : Checked β} (h : Ends x P) : Ends (checked x : Ambience β) P := by
  obtain ⟨b, rfl, hb⟩ := h
  exact fun ambient hambient => ⟨b, ambient, hb, hambient, rfl⟩

theorem ends_unrefused {x : Ambience β} (h : Ends x P) :
    Ends (unrefused x : ExceptT ε Ambience β) P := by
  have hrun : (unrefused x : ExceptT ε Ambience β).run = x >>= fun b => pure (.ok b) := by
    simp [unrefused]
  rw [ends_run_iff, hrun]
  exact ends_bind h fun b hb => ends_pure ⟨b, rfl, hb⟩

/-- A checked computation that succeeds is not refused. -/
theorem ends_checkedT {x : Checked β} (h : Ends x P) :
    Ends (checked x : ExceptT ε Ambience β) P :=
  ends_unrefused (ends_checked h)

theorem ends_unobserved {y : ExceptT ε (Except Fault) β} {b : β} (h : y.run = .ok (.ok b)) :
    Ends (unobserved y) (· = b) :=
  ends_iff_runs.2 fun ambient hambient => ⟨b, ambient, rfl, hambient, Runs.unobserved h⟩

theorem ends_report {event : Event} : Ends (Ambient.report event) fun _ => True :=
  fun _ hambient => ⟨(), _, trivial, hambient.report event, rfl⟩

/-- Renaming refusals does not touch a success. -/
theorem ends_adapt {ε' : Type} {f : ε → ε'} {x : ExceptT ε Ambience β} (h : Ends x P) :
    Ends (ExceptT.adapt f x) P := by
  intro ambient hambient
  obtain ⟨_, ambient', ⟨b, rfl, hb⟩, hambient', hrun⟩ := h ambient hambient
  exact ⟨.ok b, ambient', ⟨b, rfl, hb⟩, hambient', Runs.adapt hrun⟩

end Lifting

/-- A computation that may be refused is not if none of its parts is. -/
theorem run_bind_eq_ok_iff {ε β γ : Type} {x : ExceptT ε (Except Fault) β}
    {f : β → ExceptT ε (Except Fault) γ} {c : γ} :
    (x >>= f).run = .ok (.ok c) ↔ ∃ b, x.run = .ok (.ok b) ∧ (f b).run = .ok (.ok c) := by
  rw [ExceptT.run_bind]
  constructor
  · intro h
    -- a fault or a refusal of the first part is one of the whole
    cases hx : x.run with
    | error fault =>
      rw [hx] at h
      contradiction
    | ok r =>
      rw [hx] at h
      cases r with
      | error e => cases h
      | ok b => exact ⟨b, rfl, h⟩
  · rintro ⟨b, hx, hf⟩
    rw [hx]
    exact hf

/-! ## The blocking parameters -/

theorem ends_edge : Ends Ambient.edge fun edge => 1 ≤ edge ∧ edge < Size.limit := by
  intro ambient hambient
  have h := hambient.advance
  exact ⟨_, _, ⟨h.defaults.least_pos.trans h.defaults.least_le, h.defaults.value_lt⟩, h, rfl⟩

theorem ends_directVolume : Ends Ambient.directVolume fun _ => True :=
  fun _ hambient => ⟨_, _, trivial, hambient.advance, rfl⟩

/-- The rest of settling a choice, once the edge length is known. -/
theorem ends_settle_volume {edge : Nat} {P : Nat → Prop} (hedge : P edge) (volume : Option Nat) :
    Ends (match volume with
      | some volume => pure volume >>= fun v => pure { edge, directVolume := v }
      | none => unrefused Ambient.directVolume >>= fun v => pure { edge, directVolume := v } :
        ExceptT Refusal Ambience Blocking)
      fun blocking => P blocking.edge := by
  cases volume with
  | some volume =>
    exact ends_bind (P := fun _ => True) (ends_pure trivial) fun _ _ => ends_pure hedge
  | none => exact ends_bind (ends_unrefused ends_directVolume) fun _ _ => ends_pure hedge

/-- A valid choice is settled in all sound surroundings, on an edge length that it admits and that is
not zero. -/
theorem ends_settle {choice : BlockingChoice} (h : choice.Valid) :
    Ends choice.settle fun blocking =>
      (1 ≤ blocking.edge ∧ blocking.edge < Size.limit) ∧ choice.Admits blocking.edge := by
  unfold BlockingChoice.settle BlockingChoice.Admits
  -- an edge length that is not chosen is read from the surroundings
  cases hchoice : choice.edge with
  | none =>
    refine ends_bind (ends_unrefused ends_edge) fun edge hword => ?_
    have hne : edge ≠ 0 := by omega
    simp only [hne, if_false]
    exact ends_settle_volume (P := fun e => (1 ≤ e ∧ e < Size.limit) ∧ ∀ e', none = some e' → e' = e)
      ⟨hword, fun _ h' => by cases h'⟩ choice.directVolume
  | some edge =>
    have hword := h edge hchoice
    refine ends_bind (P := (edge = ·)) (ends_pure rfl) ?_
    rintro _ rfl
    have hne : edge ≠ 0 := by omega
    simp only [hne, if_false]
    exact ends_settle_volume
      (P := fun e => (1 ≤ e ∧ e < Size.limit) ∧ ∀ e', some edge = some e' → e' = e)
      ⟨hword, fun _ h' => (Option.some.inj h').symm⟩ choice.directVolume

end DenseLinear
