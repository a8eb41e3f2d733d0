import PerceptronSoc.Lib.Online
import PerceptronSoc.Spec.Processor

/-! The three predictor modes as online predictors over the same pair of predictors:
the hybrid is the two stand-alone modes in lock-step, with `chooseHybrid` as the rule
that picks one of the two guesses. -/

namespace PerceptronSoc

/-- `predict` before `train`, as `note_conditional_branch` calls them. -/
def Perceptron.online : Online Perceptron UInt64 := ⟨Perceptron.predict, Perceptron.train⟩

def Tage.online : Online Tage UInt64 := ⟨Tage.predict, Tage.train⟩

/-- What each mode does with the two predictors of a hart. -/
def BranchPredictorKind.online : BranchPredictorKind → Online (Tage × Perceptron) UInt64
  | .perceptron => Perceptron.online.onSnd
  | .tage => Tage.online.onFst
  | .hybrid => Tage.online.choose Perceptron.online Processor.chooseHybrid

namespace Processor

def predictors (p : Processor) : Tage × Perceptron := (p.tagePredictor, p.perceptronPredictor)

def mispredicts (p : Processor) (b : UInt64 × Bool) : Bool := (p.predictBranch b.1).1 != b.2

def noteBranches (p : Processor) (bs : List (UInt64 × Bool)) : Processor :=
  bs.foldl (fun p b => p.noteConditionalBranch b.1 b.2) p

/-- The hart right after a start marker, in the given mode: whatever happened to it
before, both predictors have been reset. -/
def startRoi (p : Processor) (kind : BranchPredictorKind) : Processor :=
  (handleRoiEbreak { p with perceptronStatsEnabled := true, branchPredictorKind := kind }
    roiStartMarker).2

theorem chooseHybrid_picks : Online.Picks chooseHybrid := by
  intro tage perceptron a b
  unfold chooseHybrid
  split_ifs
  · exact .inl rfl
  · exact .inr rfl
  · exact .inl rfl

theorem mispredicts_eq (p : Processor) (b : UInt64 × Bool) :
    p.mispredicts b = p.branchPredictorKind.online.mispredicts p.predictors b := by
  unfold mispredicts predictBranch
  cases p.branchPredictorKind <;> rfl

theorem noteConditionalBranch_of_inactive {p : Processor}
    (h : (p.perceptronStatsEnabled && p.roiActive) = false) (pc : UInt64) (taken : Bool) :
    p.noteConditionalBranch pc taken = p := by
  unfold noteConditionalBranch
  rcases Bool.and_eq_false_iff.mp h with h | h <;> simp [h]

theorem countMiss_eq (p : Processor) (miss : Bool) :
    (if miss then { p with perceptronMispredictions := p.perceptronMispredictions + 1 } else p) =
      { p with
        perceptronMispredictions := p.perceptronMispredictions + if miss then 1 else 0 } := by
  cases miss <;> rfl

/-- One noted branch of an active region: one more branch, its own miss, and one step
of the selected mode. Nothing else changes. -/
theorem noteConditionalBranch_eq {p : Processor} (hs : p.perceptronStatsEnabled = true)
    (ha : p.roiActive = true) (b : UInt64 × Bool) :
    p.noteConditionalBranch b.1 b.2 = { p with
      perceptronBranchCount := p.perceptronBranchCount + 1
      perceptronMispredictions :=
        p.perceptronMispredictions + if p.mispredicts b then 1 else 0
      tagePredictor := (p.branchPredictorKind.online.step p.predictors b).1
      perceptronPredictor := (p.branchPredictorKind.online.step p.predictors b).2 } := by
  unfold noteConditionalBranch
  rw [hs, ha, if_neg (by simp), if_neg (by simp)]
  dsimp only
  rw [countMiss_eq]
  obtain ⟨stats, active, kind, perceptron, tage, branches, misses, roi, start, minstret⟩ := p
  cases kind <;> rfl

/-- A whole run inside an active region, from what one noted branch does. -/
theorem noteBranches_eq {p : Processor} (hs : p.perceptronStatsEnabled = true)
    (ha : p.roiActive = true) (bs : List (UInt64 × Bool)) :
    p.noteBranches bs = { p with
      perceptronBranchCount := p.perceptronBranchCount + bs.length
      perceptronMispredictions :=
        p.perceptronMispredictions + p.branchPredictorKind.online.misses p.predictors bs
      tagePredictor := (p.branchPredictorKind.online.after p.predictors bs).1
      perceptronPredictor := (p.branchPredictorKind.online.after p.predictors bs).2 } := by
  induction bs using List.reverseRecOn with
  | nil => rfl
  | append_singleton bs b ih =>
    have hstep : p.noteBranches (bs ++ [b]) =
        (p.noteBranches bs).noteConditionalBranch b.1 b.2 := by
      simp [noteBranches]
    rw [hstep, ih, noteConditionalBranch_eq (by exact hs) (by exact ha), mispredicts_eq,
      Online.misses_snoc, Online.after_snoc, List.length_append, ← Nat.add_assoc, ← Nat.add_assoc]
    rfl

/-- The marker of a start resets the counts and both predictors. -/
theorem handleRoiEbreak_start {p : Processor} (h : p.perceptronStatsEnabled = true) :
    (p.handleRoiEbreak roiStartMarker).2 = { p with
      roiActive := true
      perceptronBranchCount := 0
      perceptronMispredictions := 0
      perceptronRoiInstructions := 0
      perceptronRoiStartInstructions := p.minstret
      perceptronPredictor := p.perceptronPredictor.reset
      tagePredictor := p.tagePredictor.reset } := by
  simp [handleRoiEbreak, h]

theorem startRoi_eq (p : Processor) (kind : BranchPredictorKind) :
    p.startRoi kind = { p with
      perceptronStatsEnabled := true
      branchPredictorKind := kind
      roiActive := true
      perceptronBranchCount := 0
      perceptronMispredictions := 0
      perceptronRoiInstructions := 0
      perceptronRoiStartInstructions := p.minstret
      perceptronPredictor := p.perceptronPredictor.reset
      tagePredictor := p.tagePredictor.reset } := by
  unfold startRoi
  exact handleRoiEbreak_start rfl

/-- After `bs`, from the common reset state, in the given mode. -/
theorem noteBranches_startRoi (p : Processor) (kind : BranchPredictorKind)
    (bs : List (UInt64 × Bool)) :
    let r := (p.tagePredictor.reset, p.perceptronPredictor.reset)
    let q := (p.startRoi kind).noteBranches bs
    q.branchPredictorKind = kind ∧ q.predictors = kind.online.after r bs ∧
    q.perceptronMispredictions = kind.online.misses r bs := by
  intro r q
  have hq : q = _ := noteBranches_eq (by rw [startRoi_eq]) (by rw [startRoi_eq]) bs
  rw [hq, startRoi_eq]
  exact ⟨rfl, rfl, Nat.zero_add _⟩

def mispredictsAt (p : Processor) (kind : BranchPredictorKind) (bs : List (UInt64 × Bool))
    (k : ℕ) : Bool :=
  match bs[k]? with
  | some b => ((p.startRoi kind).noteBranches (bs.take k)).mispredicts b
  | none => false

theorem mispredictsAt_eq (p : Processor) (kind : BranchPredictorKind)
    (bs : List (UInt64 × Bool)) (k : ℕ) :
    p.mispredictsAt kind bs k =
      kind.online.missAt (p.tagePredictor.reset, p.perceptronPredictor.reset) bs k := by
  obtain ⟨hk, hp, -⟩ := noteBranches_startRoi p kind (bs.take k)
  unfold mispredictsAt Online.missAt
  simp only [mispredicts_eq, hk, hp]
  cases bs[k]? <;> rfl

/-- Over every sequence of branches from a common reset state the hybrid keeps the
states of the two stand-alone runs, is wrong on a branch only if one of them is and
whenever both are, and its misses lie between those bounds. -/
theorem hybrid_lockstep (p : Processor) (bs : List (UInt64 × Bool)) :
    let after (kind : BranchPredictorKind) (k : ℕ) := (p.startRoi kind).noteBranches (bs.take k)
    let misses (kind : BranchPredictorKind) :=
      ((p.startRoi kind).noteBranches bs).perceptronMispredictions
    (∀ k, (after .hybrid k).tagePredictor = (after .tage k).tagePredictor ∧
      (after .hybrid k).perceptronPredictor = (after .perceptron k).perceptronPredictor) ∧
    (∀ k, p.mispredictsAt .hybrid bs k = true →
      p.mispredictsAt .tage bs k = true ∨ p.mispredictsAt .perceptron bs k = true) ∧
    (∀ k, p.mispredictsAt .tage bs k = true → p.mispredictsAt .perceptron bs k = true →
      p.mispredictsAt .hybrid bs k = true) ∧
    Nat.count (fun k => p.mispredictsAt .tage bs k && p.mispredictsAt .perceptron bs k) bs.length
      ≤ misses .hybrid ∧
    misses .hybrid ≤ misses .tage + misses .perceptron := by
  intro after misses
  have hstate : ∀ kind k, (after kind k).predictors =
      kind.online.after (p.tagePredictor.reset, p.perceptronPredictor.reset) (bs.take k) :=
    fun kind k => (noteBranches_startRoi p kind (bs.take k)).2.1
  have hmisses : ∀ kind, misses kind =
      kind.online.misses (p.tagePredictor.reset, p.perceptronPredictor.reset) bs :=
    fun kind => (noteBranches_startRoi p kind bs).2.2
  have heq : ∀ k, p.mispredictsAt .hybrid bs k = p.mispredictsAt .tage bs k ∨
      p.mispredictsAt .hybrid bs k = p.mispredictsAt .perceptron bs k := by
    intro k
    simp only [mispredictsAt_eq, BranchPredictorKind.online, Online.onFst_missAt,
      Online.onSnd_missAt]
    exact Online.choose_missAt_eq chooseHybrid_picks _ _ bs k
  refine ⟨fun k => ⟨?_, ?_⟩, fun k hk => ?_, fun k ht hp => ?_, ?_, ?_⟩
  · have h := congrArg Prod.fst (hstate .hybrid k)
    have h' := congrArg Prod.fst (hstate .tage k)
    simp only [BranchPredictorKind.online, Online.choose_after, Online.onFst_after] at h h'
    exact h.trans h'.symm
  · have h := congrArg Prod.snd (hstate .hybrid k)
    have h' := congrArg Prod.snd (hstate .perceptron k)
    simp only [BranchPredictorKind.online, Online.choose_after, Online.onSnd_after] at h h'
    exact h.trans h'.symm
  · rcases heq k with he | he
    · exact .inl (he ▸ hk)
    · exact .inr (he ▸ hk)
  · rcases heq k with he | he
    · rwa [he]
    · rwa [he]
  · simp only [hmisses, mispredictsAt_eq, BranchPredictorKind.online, Online.onFst_missAt,
      Online.onSnd_missAt]
    exact Online.bothMiss_le chooseHybrid_picks _ _ bs
  · simp only [hmisses, BranchPredictorKind.online, Online.onFst_misses, Online.onSnd_misses]
    exact Online.misses_choose_le chooseHybrid_picks _ _ bs

end Processor

end PerceptronSoc
