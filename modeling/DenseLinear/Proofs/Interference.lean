import DenseLinear.Proofs.UpdateAgreement

/-!
# Interference with a factorisation in progress

A factorisation with products settles its blocking parameters when it starts, and each of its
products settles parameters again. In between, other callers may change the process-wide defaults.
This never has an effect on a factorisation whose own parameters were accepted: it leaves the same
matrix and the same record as in surroundings that are calm from then on (`Ambient.calmAfter`).

Two facts carry this. No history of requests makes the default edge length zero, so every product
accepts its parameters (`Ambient.sound_amid`). And where minus one is neither one nor zero, a product
is the same under all blocking parameters (`updatesBy_of_neg_one`), so the blocks depend on nothing
but the edge length that the factorisation has settled on.
-/

namespace DenseLinear

/-! ## Surroundings -/

namespace Ambient

/-- The surroundings after the requests `history`, with the requests `coming` before each of the
coming reads of a default. -/
def amid (history : List DefaultRequest) (coming : List (List DefaultRequest)) : Ambient :=
  { defaults := history.foldl Defaults.serve {}, pending := coming }

/-- The same surroundings, but without any requests after the next `count` reads. -/
def calmAfter (count : Nat) (ambient : Ambient) : Ambient :=
  { ambient with pending := ambient.pending.take count }

/-- What is chosen, or else the default that is read in its place, and the surroundings afterwards. -/
def answer (field : Defaults → Nat) (chosen : Option Nat) (ambient : Ambient) : Nat × Ambient :=
  chosen.elim (field ambient.advance.defaults, ambient.advance) fun value => (value, ambient)

theorem advance_calmAfter (count : Nat) (ambient : Ambient) :
    (ambient.calmAfter (count + 1)).advance = ambient.advance.calmAfter count := by
  obtain ⟨defaults, pending, log⟩ := ambient
  cases pending with
  | nil => cases count <;> rfl
  | cons requests rest => rfl

/-- A choice takes at most one read, and none if it was made. -/
theorem answer_calmAfter (field : Defaults → Nat) (chosen : Option Nat) (ambient : Ambient)
    (count : Nat) :
    answer field chosen (ambient.calmAfter (chosen.elim 1 (fun _ => 0) + count)) =
      ((answer field chosen ambient).1, (answer field chosen ambient).2.calmAfter count) := by
  cases chosen with
  | none =>
    simp only [answer, Option.elim_none, Nat.add_comm 1 count, advance_calmAfter]
    rfl
  | some value =>
    simp only [answer, Option.elim_some, Nat.zero_add]

theorem Sound.calmAfter {ambient : Ambient} (h : ambient.Sound) (count : Nat) :
    (ambient.calmAfter count).Sound :=
  ⟨h.defaults, fun requests hmem => h.pending requests (List.mem_of_mem_take hmem)⟩

/-- Requests for machine words leave the surroundings sound, accepted or refused. -/
theorem sound_amid {history : List DefaultRequest} {coming : List (List DefaultRequest)}
    (hhistory : ∀ edge, .edge edge ∈ history → edge < Size.limit)
    (hcoming : ∀ requests ∈ coming, ∀ edge, .edge edge ∈ requests → edge < Size.limit) :
    (amid history coming).Sound :=
  ⟨Defaults.sound_initial.foldl_serve hhistory, hcoming⟩

end Ambient

namespace BlockingChoice

/-- The number of defaults that are read to settle a choice. -/
def reads (choice : BlockingChoice) : Nat :=
  choice.edge.elim 1 (fun _ => 0) + choice.directVolume.elim 1 fun _ => 0

/-- A choice is settled by at most two reads, and refused after the first one if the edge length is
zero. -/
theorem run_settle (choice : BlockingChoice) (ambient : Ambient) :
    choice.settle.run.run ambient =
      let edge := ambient.answer (fun d => d.edge.value) choice.edge
      let volume := edge.2.answer (fun d => d.directVolume.value) choice.directVolume
      .ok (if edge.1 = 0 then (.error (.edgeTooSmall edge.1), edge.2)
        else (.ok { edge := edge.1, directVolume := volume.1 }, volume.2)) := by
  obtain ⟨chosen, chosen'⟩ := choice
  cases chosen with
  | none =>
    change StateT.run (ExceptT.run (if ambient.advance.defaults.edge.value = 0 then _ else _))
      ambient.advance = Except.ok (if ambient.advance.defaults.edge.value = 0 then _ else _)
    split
    · rfl
    · cases chosen' <;> rfl
  | some edge =>
    change StateT.run (ExceptT.run (if edge = 0 then _ else _)) ambient =
      Except.ok (if edge = 0 then _ else _)
    split
    · rfl
    · cases chosen' <;> rfl

variable {choice : BlockingChoice} {blocking : Blocking} {ambient settled : Ambient}

theorem runs_settle_iff : Runs choice.settle ambient blocking settled ↔
    ∃ between, blocking.edge ≠ 0 ∧
      ambient.answer (fun d => d.edge.value) choice.edge = (blocking.edge, between) ∧
      between.answer (fun d => d.directVolume.value) choice.directVolume =
        (blocking.directVolume, settled) := by
  obtain ⟨edge, volume⟩ := blocking
  unfold Runs
  rw [run_settle]
  dsimp only
  split
  · rename_i hzero
    constructor
    · intro h
      cases h
    · rintro ⟨between, hne, hedge, -⟩
      rw [hedge] at hzero
      exact absurd hzero hne
  · rename_i hne
    constructor
    · intro h
      cases h
      exact ⟨_, hne, rfl, rfl⟩
    · rintro ⟨between, -, hedge, hvolume⟩
      rw [hedge, hvolume]

/-- A choice of a machine word that is settled is valid. -/
theorem valid_of_runs_settle (h : Runs choice.settle ambient blocking settled)
    (hword : ∀ edge, choice.edge = some edge → edge < Size.limit) : choice.Valid := by
  obtain ⟨between, hne, hedge, -⟩ := runs_settle_iff.1 h
  intro edge hchosen
  rw [hchosen] at hedge
  cases hedge
  exact ⟨Nat.one_le_iff_ne_zero.2 hne, hword _ hchosen⟩

/-- What arrives after the reads of a choice does not matter to what it is settled on. -/
theorem runs_settle_calmAfter (h : Runs choice.settle ambient blocking settled) :
    Runs choice.settle (ambient.calmAfter choice.reads) blocking (settled.calmAfter 0) := by
  obtain ⟨between, hne, hedge, hvolume⟩ := runs_settle_iff.1 h
  refine runs_settle_iff.2
    ⟨between.calmAfter (choice.directVolume.elim 1 (fun _ => 0) + 0), hne, ?_, ?_⟩
  · rw [reads, ← Nat.add_zero (choice.directVolume.elim 1 _), Ambient.answer_calmAfter, hedge]
  · rw [Ambient.answer_calmAfter, hvolume]

end BlockingChoice

namespace Lu

open PagedMatrix BlockingChoice

variable {α ρ : Type} [RealArith ρ] [Scalar α ρ] {a : PagedMatrix α} {choice : BlockingChoice}
  {blocking : Blocking} {settled : Ambient}

/-! ## Factorisations -/

/-- What a factorisation leaves and reports depends on nothing but the edge length that it has
settled on. -/
theorem exists_factors_of_edge (ha : a.Stored) (hpage : a.HasPage) (hone : ((-1 : α) == 1) = false)
    (hzero : ((-1 : α) == 0) = false) (edge : Nat) :
    ∃ (lu : PagedMatrix α) (record : Record),
      ∀ (choice : BlockingChoice) (blocking : Blocking) (ambient settled : Ambient),
        choice.Valid → ambient.Sound → Runs choice.settle ambient blocking settled →
          blocking.edge = edge →
          ∃ after, Runs (factorByProduct choice a) ambient (lu, record) after := by
  have hcols := ha.cols_lt
  have hfits := ha.fits
  obtain ⟨shape, kind, height, f, rfl, hrows, hheight, -⟩ := ha.exists_ofCells hpage
  rw [cols_ofCells] at hcols
  rw [PagedMatrix.size, size_ofCells] at hfits
  let last := (blockedStage (fun x s : α => Scalar.addMul (Scalar.rescale 1 x) (-1) s) shape edge
    f).factors shape kind height
  refine ⟨last.1, last.2, ?_⟩
  rintro choice blocking ambient settled hchoice hambient hsettle rfl
  obtain ⟨blocking', settled', ⟨⟨hpos, -⟩, -⟩, hsettled, hsettle'⟩ :=
    ends_iff_runs.1 (ends_settle hchoice) ambient hambient
  obtain ⟨rfl, rfl⟩ := hsettle'.unique hsettle
  obtain ⟨after, -, hrun⟩ := runs_factorByProduct_of_blocks kind (updatesBy_of_neg_one hone hzero)
    hchoice hsettle hsettled hpos (blocks_blockRun shape height f hpos)
    (firstNull_blockedStage shape f hpos) hrows hheight hcols hfits
  exact ⟨after, hrun⟩

/-- A factorisation whose parameters are accepted leaves the same matrix and reports the same pivots,
interchanges and first column without a pivot as if no default changed after that, whatever is
requested before each of its reads and whether or not it is refused. -/
theorem factorByProduct_undisturbed (ha : a.Stored) (hpage : a.HasPage)
    (hone : ((-1 : α) == 1) = false) (hzero : ((-1 : α) == 0) = false)
    {history : List DefaultRequest} {coming : List (List DefaultRequest)}
    (hhistory : ∀ edge, .edge edge ∈ history → edge < Size.limit)
    (hcoming : ∀ requests ∈ coming, ∀ edge, .edge edge ∈ requests → edge < Size.limit)
    (hword : ∀ edge, choice.edge = some edge → edge < Size.limit)
    (haccepted : Runs choice.settle (.amid history coming) blocking settled) :
    ∃ (lu : PagedMatrix α) (record : Record),
      (∃ after, Runs (factorByProduct choice a) (.amid history coming) (lu, record) after) ∧
      Runs choice.settle ((Ambient.amid history coming).calmAfter choice.reads) blocking
        (settled.calmAfter 0) ∧
      ∃ after, Runs (factorByProduct choice a)
        ((Ambient.amid history coming).calmAfter choice.reads) (lu, record) after := by
  have hsound := Ambient.sound_amid hhistory hcoming
  have hchoice := valid_of_runs_settle haccepted hword
  have hcalm := runs_settle_calmAfter haccepted
  obtain ⟨lu, record, hruns⟩ := exists_factors_of_edge ha hpage hone hzero blocking.edge
  exact ⟨lu, record, hruns _ _ _ _ hchoice hsound haccepted rfl, hcalm,
    hruns _ _ _ _ hchoice (hsound.calmAfter _) hcalm rfl⟩

/-- Surroundings in which other callers change the defaults before every read, and twice ask for an
edge length of zero. -/
def contended : Ambient :=
  .amid [.edge 1, .edge 0, .directVolume 0]
    [[.edge 0], [.directVolume 3, .edge 2], [.edge 5], [.directVolume 100, .edge 7]]

/-- The factorisation of floating point numbers, in blocks of a single column that nobody asks for
any more when the first product is formed. -/
theorem factorByProduct_undisturbed_pivotlessPages :
    pivotlessPages.Stored ∧ pivotlessPages.HasPage ∧ ((-1 : Float) == 1) = false ∧
      ((-1 : Float) == 0) = false ∧
      Runs ({} : BlockingChoice).settle contended { edge := 1, directVolume := 3 }
        contended.advance.advance ∧
      ∃ (lu : PagedMatrix Float) (record : Record),
        (∃ after, Runs (factorByProduct {} pivotlessPages) contended (lu, record) after) ∧
        Runs ({} : BlockingChoice).settle (contended.calmAfter 2) { edge := 1, directVolume := 3 }
          (contended.advance.advance.calmAfter 0) ∧
        ∃ after, Runs (factorByProduct {} pivotlessPages) (contended.calmAfter 2) (lu, record)
          after := by
  have hpage : pivotlessPages.HasPage := by decide
  have hone : ((-1 : Float) == 1) = false := SubtractsByProduct.neg_one_beq_one
  have hzero : ((-1 : Float) == 0) = false := SubtractsByProduct.neg_one_beq_zero
  have hsettle : Runs ({} : BlockingChoice).settle contended { edge := 1, directVolume := 3 }
      contended.advance.advance := rfl
  exact ⟨stored_pivotlessPages, hpage, hone, hzero, hsettle,
    factorByProduct_undisturbed stored_pivotlessPages hpage hone hzero (by simp [Size.limit])
      (by simp [Size.limit]) (fun _ h => by cases h) hsettle⟩

end Lu

end DenseLinear
