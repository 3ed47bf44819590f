import DenseLinear.Proofs.Totality

/-!
# Outcomes of the update by a product

An update `alpha * A * B + beta * C` has three outcomes, for entries without any laws. It is refused
if an operand does not have the rows and columns that are declared for it, and the first such
operand is named. Otherwise it is refused if the chosen edge length is zero. In both cases the
target is as it was, for nothing is written before all checks have passed. In every other case it
succeeds: no place outside a buffer is touched, no size overflows and no loop stands still, for all
shapes and for blocking parameters up to the largest machine word (`multiplyAdd_outcomes`).

The number of terms of the product may be far beyond all machine words, as one extent may be huge
where another one is small. It is only compared with a volume, and cut off for that.
-/

namespace DenseLinear

/-- A refused computation has one refusal. -/
theorem RefusedIn.iff_eq {ε β : Type} {x : ExceptT ε Ambience β} {ambient : Ambient} {e e' : ε}
    (h : RefusedIn x ambient e) : RefusedIn x ambient e' ↔ e' = e := by
  constructor
  · intro h'
    unfold RefusedIn at h h'
    rw [h] at h'
    cases h'
    rfl
  · rintro rfl
    exact h

/-- A refused computation does not succeed. -/
theorem RefusedIn.not_runs {ε β : Type} {x : ExceptT ε Ambience β} {ambient after : Ambient} {e : ε}
    {b : β} (h : RefusedIn x ambient e) : ¬ Runs x ambient b after := by
  intro h'
  unfold RefusedIn at h
  unfold Runs at h'
  rw [h] at h'
  cases h'

/-- What refuses without reading the defaults does so in all surroundings. -/
theorem RefusedIn.unobserved {ε β : Type} {x : ExceptT ε (Except Fault) β} {e : ε}
    (h : x.run = .ok (.error e)) (ambient : Ambient) :
    RefusedIn (DenseLinear.unobserved x) ambient e := by
  unfold RefusedIn DenseLinear.unobserved
  rw [ExceptT.run_mk, h]
  rfl

/-- What comes after a success and is refused. -/
theorem Runs.bind_refused {ε β γ : Type} {x : ExceptT ε Ambience β} {b : β}
    {ambient ambient' after : Ambient} (h : Runs x ambient b ambient')
    {f : β → ExceptT ε Ambience γ} {e : ε} (hf : (f b).run.run ambient' = .ok (.error e, after)) :
    (x >>= f).run.run ambient = .ok (.error e, after) := by
  unfold Runs at h
  rw [ExceptT.run_bind, StateT.run_bind, h]
  exact hf

namespace PagedMatrix

variable {α ρ : Type} [Scalar α ρ] {a b c : PagedMatrix α} {m k n ma mb mc : Nat}

/-! ## Operands -/

/-- The operands of an update by their rows and columns, first as they are declared and then as they
are, in the order in which they are looked at. -/
def operandExtents (a b c : PagedMatrix α) (ma mb mc m k n : Nat) :
    List ((Nat × Nat) × (Nat × Nat)) :=
  [((m, k), (ma, a.cols)), ((k, n), (mb, b.cols)), ((m, n), (mc, c.cols))]

/-- The first operand whose rows and columns are not the declared ones. -/
def firstMismatch (extents : List ((Nat × Nat) × (Nat × Nat))) :
    Option ((Nat × Nat) × (Nat × Nat)) :=
  extents.find? fun e => e.1 ≠ e.2

theorem firstMismatch_cons (e : (Nat × Nat) × (Nat × Nat))
    (rest : List ((Nat × Nat) × (Nat × Nat))) :
    firstMismatch (e :: rest) = if e.1 ≠ e.2 then some e else firstMismatch rest := by
  unfold firstMismatch
  rw [List.find?_cons]
  by_cases hsame : e.1 = e.2
  · simp [hsame]
  · simp [hsame]

theorem firstMismatch_eq_none_iff {extents : List ((Nat × Nat) × (Nat × Nat))} :
    firstMismatch extents = none ↔ ∀ e ∈ extents, e.1 = e.2 := by
  simp [firstMismatch]

omit [Scalar α ρ] in
/-- The check of one operand, once its stacked rows are counted. -/
theorem run_requireExtents (hheight : a.height = .ok ma) (rows cols : Nat) :
    (a.requireExtents rows cols).run =
      .ok (if (rows, cols) ≠ (ma, a.cols) then
        .error (.extentMismatch "gemm" (rows, cols) (ma, a.cols)) else .ok ()) := by
  have hrun : (a.requireExtents rows cols).run =
      (if ma ≠ rows ∨ a.cols ≠ cols then
        (throw (.extentMismatch "gemm" (rows, cols) (ma, a.cols)) : Fallible Unit) else
        pure ()).run := by
    unfold requireExtents
    rw [hheight]
    rfl
  rw [hrun]
  by_cases hsame : (rows, cols) = (ma, a.cols)
  · rw [Prod.mk.injEq] at hsame
    rw [if_neg (by omega), if_neg (by simp [hsame])]
    rfl
  · have hdiffer : ma ≠ rows ∨ a.cols ≠ cols := by
      rw [Prod.mk.injEq] at hsame
      omega
    rw [if_pos hdiffer, if_pos hsame]
    rfl

omit [Scalar α ρ] in
/-- The checks of the operands stop at the first one that is not as declared. -/
theorem run_requireOperands (hma : a.height = .ok ma) (hmb : b.height = .ok mb)
    (hmc : c.height = .ok mc) (m k n : Nat) :
    (requireOperands a b c m k n).run =
      .ok (match firstMismatch (operandExtents a b c ma mb mc m k n) with
        | some e => .error (.extentMismatch "gemm" e.1 e.2)
        | none => .ok ()) := by
  unfold requireOperands operandExtents
  rw [ExceptT.run_bind, run_requireExtents hma, firstMismatch_cons]
  split
  · rfl
  rw [ok_bind]
  dsimp only
  rw [ExceptT.run_bind, run_requireExtents hmb, firstMismatch_cons]
  split
  · rfl
  rw [ok_bind]
  dsimp only
  rw [run_requireExtents hmc, firstMismatch_cons]
  split
  · rfl
  · rfl

/-! ## The three outcomes -/

section Update

variable [RealArith ρ] {ambient : Ambient} {choice : BlockingChoice}

/-- What the checks refuse is refused before anything is written. -/
theorem refused_multiplyAdd_of_operands {refusal : Refusal} (alpha beta : α)
    (choice : BlockingChoice) (ambient : Ambient)
    (h : (requireOperands a b c m k n).run = .ok (.error refusal)) :
    RefusedIn (multiplyAdd alpha a m k b n beta c choice) ambient ⟨c, refusal⟩ :=
  (((RefusedIn.unobserved h ambient).bind fun _ => choice.settle).onBehalfOf c).bind _

/-- With operands as declared, an edge length of zero is refused before anything is written. -/
theorem refused_multiplyAdd_of_zero_edge (alpha beta : α) (ambient : Ambient)
    (h : (requireOperands a b c m k n).run = .ok (.ok ())) (hzero : choice.edge = some 0) :
    RefusedIn (multiplyAdd alpha a m k b n beta c choice) ambient ⟨c, .edgeTooSmall 0⟩ := by
  have hchecks : RefusedIn (do
      unobserved (requireOperands a b c m k n)
      choice.settle) ambient (.edgeTooSmall 0) :=
    (Runs.unobserved h).bind_refused (BlockingChoice.refused_settle hzero ambient)
  exact (hchecks.onBehalfOf c).bind _

/-- An update refuses the first operand that is not as declared, or else an edge length of zero, and
leaves the target and the surroundings as they are. In every other case it succeeds, and the target
keeps its dimensions. The three cases exclude one another. -/
theorem multiplyAdd_outcomes (alpha beta : α) (ha : a.Stored) (hb : b.Stored) (hc : c.Stored)
    (hma : a.height = .ok ma) (hmb : b.height = .ok mb) (hmc : c.height = .ok mc) (m k n : Nat)
    (hword : ∀ edge, choice.edge = some edge → edge < Size.limit) (hambient : ambient.Sound) :
    let call := multiplyAdd alpha a m k b n beta c choice
    let extents := operandExtents a b c ma mb mc m k n
    (∀ target declared actual,
      RefusedIn call ambient ⟨target, .extentMismatch "gemm" declared actual⟩ ↔
        firstMismatch extents = some (declared, actual) ∧ target = c) ∧
    (∀ target, RefusedIn call ambient ⟨target, .edgeTooSmall 0⟩ ↔
      ((∀ e ∈ extents, e.1 = e.2) ∧ choice.edge = some 0) ∧ target = c) ∧
    ((∃ c' after, c'.shape = c.shape ∧ Runs call ambient c' after) ↔
      (∀ e ∈ extents, e.1 = e.2) ∧ choice.edge ≠ some 0) := by
  intro call extents
  have hoperands := run_requireOperands hma hmb hmc m k n
  rw [← firstMismatch_eq_none_iff]
  rcases hfirst : firstMismatch extents with _ | ⟨declared, actual⟩
  · rw [hfirst] at hoperands
    by_cases hzero : choice.edge = some 0
    · have hrefused : RefusedIn call ambient ⟨c, .edgeTooSmall 0⟩ :=
        refused_multiplyAdd_of_zero_edge alpha beta ambient hoperands hzero
      simp [hrefused.iff_eq, hrefused.not_runs, hzero]
    · obtain ⟨blocking, after, -, hrun⟩ := exists_runs_multiplyAdd alpha beta choice ha hb hc
        hoperands (BlockingChoice.valid_of_ne_zero hzero hword) hambient
      have hnot : ∀ stop, ¬ RefusedIn call ambient stop := fun stop h => h.not_runs hrun
      refine ⟨by simp [hnot], by simp [hnot, hzero], fun _ => ⟨rfl, hzero⟩, fun _ => ?_⟩
      exact ⟨_, after, by rw [refreshKind_ofCells, shape_ofCells], hrun⟩
  · rw [hfirst] at hoperands
    have hrefused : RefusedIn call ambient ⟨c, .extentMismatch "gemm" declared actual⟩ :=
      refused_multiplyAdd_of_operands alpha beta choice ambient hoperands
    simp only [hrefused.iff_eq, hrefused.not_runs]
    grind

/-- The same operands, declared wrongly and rightly, with an edge length of zero and with the largest
one, among callers who keep changing the defaults. -/
theorem multiplyAdd_outcomes_nan :
    nanColumn.Stored ∧ shortRow.Stored ∧ nanPages.Stored ∧ Lu.contended.Sound ∧
      RefusedIn (multiplyAdd 2 nanColumn 2 1 shortRow 3 0 nanPages (.tiled 0)) Lu.contended
        ⟨nanPages, .extentMismatch "gemm" (1, 3) (1, 2)⟩ ∧
      RefusedIn (multiplyAdd 2 nanColumn 2 1 shortRow 2 0 nanPages (.tiled 0)) Lu.contended
        ⟨nanPages, .edgeTooSmall 0⟩ ∧
      ∃ c' after, c'.shape = nanPages.shape ∧
        Runs (multiplyAdd 2 nanColumn 2 1 shortRow 2 0 nanPages (.tiled (Size.limit - 1)))
          Lu.contended c' after := by
  have hleft : nanColumn.Stored := ⟨rfl, by decide, by decide, by decide⟩
  have hright : shortRow.Stored := ⟨rfl, by decide, by decide, by decide⟩
  have htarget : nanPages.Stored := ⟨rfl, by decide, by decide, by decide⟩
  have hsound : Lu.contended.Sound :=
    Ambient.sound_amid (by simp [Size.limit]) (by simp [Size.limit])
  have hzero : ∀ edge, (BlockingChoice.tiled 0).edge = some edge → edge < Size.limit := by
    rintro _ ⟨⟩
    decide
  have hlargest : ∀ edge, (BlockingChoice.tiled (Size.limit - 1)).edge = some edge →
      edge < Size.limit := by
    rintro _ ⟨⟩
    decide
  have hall : ∀ e ∈ operandExtents nanColumn shortRow nanPages 2 1 2 2 1 2, e.1 = e.2 := by
    decide
  have hwrong := multiplyAdd_outcomes 2 0 hleft hright htarget rfl rfl rfl 2 1 3 hzero hsound
  have hempty := multiplyAdd_outcomes 2 0 hleft hright htarget rfl rfl rfl 2 1 2 hzero hsound
  have hgood := multiplyAdd_outcomes 2 0 hleft hright htarget rfl rfl rfl 2 1 2 hlargest hsound
  exact ⟨hleft, hright, htarget, hsound,
    (hwrong.1 nanPages (1, 3) (1, 2)).2 ⟨rfl, rfl⟩,
    (hempty.2.1 nanPages).2 ⟨⟨hall, rfl⟩, rfl⟩, hgood.2.2.2 ⟨hall, by decide⟩⟩

end Update

end PagedMatrix

end DenseLinear
