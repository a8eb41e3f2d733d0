import PerceptronSoc.Lib.Region
import PerceptronSoc.Proofs.Hybrid
import PerceptronSoc.Proofs.PerceptronRange
import PerceptronSoc.Proofs.TageBounds

/-! What the branch statistics of a whole run depend on: only the branches between the
last start marker and the first end marker after it. `reset` must restore the constructed
predictors from every state a run can reach, and unmatched or repeated markers must
leave no trace. -/

namespace PerceptronSoc

namespace Processor

def isStart (e : Event) : Bool := e = .ebreak roiStartMarker

def isEnd (e : Event) : Bool := e = .ebreak roiEndMarker

def branchOf : Event → Option (UInt64 × Bool)
  | .branch pc taken => some (pc, taken)
  | .ebreak _ => none

/-- The branches between the last start marker and the first end marker after it, or
the end of the run. -/
def roiBranches (es : List Event) : List (UInt64 × Bool) :=
  (Region.last isStart isEnd es).filterMap branchOf

def freshMisses (kind : BranchPredictorKind) (bs : List (UInt64 × Bool)) : ℕ :=
  match kind with
  | .perceptron => Perceptron.online.misses Perceptron.default bs
  | .tage => Tage.online.misses Tage.default bs
  | .hybrid =>
    (Tage.online.choose Perceptron.online chooseHybrid).misses
      (Tage.default, Perceptron.default) bs

theorem isEnd_of_isStart (e : Event) (h : isStart e = true) : isEnd e = false := by
  rw [of_decide_eq_true h]
  rfl

theorem roiBranches_snoc (es : List Event) (e : Event) :
    roiBranches (es ++ [e]) =
      if isStart e then []
      else roiBranches es ++ if Region.isOpen isStart isEnd es then (branchOf e).toList else [] := by
  unfold roiBranches
  rw [Region.last_snoc isEnd_of_isStart]
  cases e with
  | branch pc taken => cases Region.isOpen isStart isEnd es <;> simp [isStart, isEnd, branchOf]
  | ebreak a0 =>
    cases isStart (.ebreak a0) <;> cases isEnd (.ebreak a0) <;>
      cases Region.isOpen isStart isEnd es <;> simp [branchOf]

/-- Both predictors are ones their constructors' invariants hold of, so that `reset`
brings back the constructed ones. -/
structure Resettable (p : Processor) : Prop where
  perceptron : Perceptron.Inv 1024 48 8 p.perceptronPredictor
  tage : Tage.Shaped TageParams.boomLikeDefault p.tagePredictor

theorem Resettable.perceptron_reset {p : Processor} (h : p.Resettable) :
    p.perceptronPredictor.reset = Perceptron.default := h.perceptron.reset_eq

theorem Resettable.tage_reset {p : Processor} (h : p.Resettable) :
    p.tagePredictor.reset = Tage.default := h.tage.reset_eq

theorem Resettable.predictBranch {p : Processor} (h : p.Resettable) (pc : UInt64) :
    (p.predictBranch pc).2.Resettable := by
  have hp := h.perceptron.predict pc
  have ht := h.tage.predict Tage.boomLikeDefault_inRange.toSized pc
  unfold Processor.predictBranch
  cases p.branchPredictorKind with
  | perceptron => exact ⟨hp, h.tage⟩
  | tage => exact ⟨h.perceptron, ht⟩
  | hybrid => exact ⟨hp, ht⟩

theorem Resettable.trainBranch {p : Processor} (h : p.Resettable) (pc : UInt64) (taken : Bool) :
    (p.trainBranch pc taken).Resettable := by
  have hp := h.perceptron.train pc taken
  have ht := h.tage.train Tage.boomLikeDefault_inRange.toSized pc taken
  unfold Processor.trainBranch
  cases p.branchPredictorKind with
  | perceptron => exact ⟨hp, h.tage⟩
  | tage => exact ⟨h.perceptron, ht⟩
  | hybrid => exact ⟨hp, ht⟩

theorem Resettable.noteConditionalBranch {p : Processor} (h : p.Resettable) (pc : UInt64)
    (taken : Bool) : (p.noteConditionalBranch pc taken).Resettable := by
  unfold Processor.noteConditionalBranch
  split_ifs
  · exact h
  · exact h
  · apply Resettable.trainBranch
    dsimp only
    have hp : Resettable { p with perceptronBranchCount := p.perceptronBranchCount + 1 } :=
      ⟨h.perceptron, h.tage⟩
    have hq := hp.predictBranch pc
    split
    · exact ⟨hq.perceptron, hq.tage⟩
    · exact hq

theorem Resettable.handleRoiEbreak {p : Processor} (h : p.Resettable) (a0 : UInt64) :
    (p.handleRoiEbreak a0).2.Resettable := by
  unfold Processor.handleRoiEbreak
  split
  · exact h
  split
  · exact ⟨h.perceptron.reset, h.tage.reset⟩
  split
  · exact ⟨h.perceptron, h.tage⟩
  · exact h

/-- The state after the events `es`, in terms of the region they end with. -/
structure Tracks (kind : BranchPredictorKind) (es : List Event) (p : Processor) : Prop where
  stats : p.perceptronStatsEnabled = true
  mode : p.branchPredictorKind = kind
  resettable : p.Resettable
  count : p.perceptronBranchCount = (roiBranches es).length
  misses : p.perceptronMispredictions =
    kind.online.misses (Tage.default, Perceptron.default) (roiBranches es)
  active : p.roiActive = Region.isOpen isStart isEnd es
  predictors : p.roiActive = true →
    p.predictors = kind.online.after (Tage.default, Perceptron.default) (roiBranches es)

variable {kind : BranchPredictorKind} {es : List Event} {p : Processor}

theorem new_tracks (kind : BranchPredictorKind) : Tracks kind [] (new true kind) where
  stats := rfl
  mode := rfl
  resettable := ⟨Perceptron.new_inv 1024 48 8, Tage.new_shaped _⟩
  count := rfl
  misses := rfl
  active := rfl
  predictors := by simp [new]

theorem Tracks.branch (ht : Tracks kind es p) (pc : UInt64) (taken : Bool) :
    Tracks kind (es ++ [.branch pc taken]) (p.noteConditionalBranch pc taken) := by
  have hres := ht.resettable.noteConditionalBranch pc taken
  have hopen : Region.isOpen isStart isEnd (es ++ [.branch pc taken]) = p.roiActive := by
    rw [Region.isOpen_snoc isEnd_of_isStart, ht.active]
    simp [isStart, isEnd]
  have hb := roiBranches_snoc es (.branch pc taken)
  rw [if_neg (by simp [isStart]), ← ht.active] at hb
  cases ha : p.roiActive with
  | false =>
    have hp := noteConditionalBranch_of_inactive (p := p) (by simp [ha]) pc taken
    rw [ha, if_neg (by simp), List.append_nil] at hb
    rw [hp]
    exact { ht with count := hb ▸ ht.count, misses := hb ▸ ht.misses, active := hopen.symm,
                    predictors := hb ▸ ht.predictors }
  | true =>
    rw [ha, if_pos rfl, show (branchOf (.branch pc taken)).toList = [(pc, taken)] from rfl] at hb
    have hnote := noteConditionalBranch_eq ht.stats ha (pc, taken)
    rw [hnote] at hres ⊢
    refine ⟨ht.stats, ht.mode, hres, ?_, ?_, hopen.symm, fun _ => ?_⟩
    · rw [hb]
      simp [ht.count]
    · rw [hb, Online.misses_snoc, ← ht.predictors ha, ← ht.misses, mispredicts_eq, ht.mode]
    · rw [hb, Online.after_snoc, ← ht.predictors ha, ht.mode]
      rfl

theorem Tracks.start (ht : Tracks kind es p) :
    Tracks kind (es ++ [.ebreak roiStartMarker]) (p.handleRoiEbreak roiStartMarker).2 := by
  have hres := ht.resettable.handleRoiEbreak roiStartMarker
  have hb : roiBranches (es ++ [.ebreak roiStartMarker]) = [] := roiBranches_snoc es _
  have hopen : Region.isOpen isStart isEnd (es ++ [.ebreak roiStartMarker]) = true := by
    rw [Region.isOpen_snoc isEnd_of_isStart]
    rfl
  rw [Processor.handleRoiEbreak_start ht.stats] at hres ⊢
  refine ⟨ht.stats, ht.mode, hres, by rw [hb]; rfl, by rw [hb]; rfl, hopen.symm, fun _ => ?_⟩
  rw [hb, Online.after_nil, ← ht.resettable.tage_reset, ← ht.resettable.perceptron_reset]
  rfl

/-- Any other `ebreak`: an end marker closes the region, and a number that is no
marker changes nothing. -/
theorem Tracks.ebreak (ht : Tracks kind es p) {a0 : UInt64} (h0 : a0 ≠ roiStartMarker) :
    Tracks kind (es ++ [.ebreak a0]) (p.handleRoiEbreak a0).2 := by
  have hs : isStart (.ebreak a0) = false := by simpa [isStart] using h0
  have hb : roiBranches (es ++ [.ebreak a0]) = roiBranches es := by
    simp [roiBranches_snoc, hs, branchOf]
  have hopen : Region.isOpen isStart isEnd (es ++ [.ebreak a0]) =
      (p.roiActive && !isEnd (.ebreak a0)) := by
    rw [Region.isOpen_snoc isEnd_of_isStart, hs, ht.active, Bool.false_or]
  by_cases h1 : a0 = roiEndMarker
  · have hp : (p.handleRoiEbreak a0).2 = { p with
        perceptronRoiInstructions :=
          if p.roiActive then
            p.perceptronRoiInstructions + (p.minstret - p.perceptronRoiStartInstructions)
          else p.perceptronRoiInstructions
        roiActive := false } := by
      subst h1
      simp [Processor.handleRoiEbreak, ht.stats, h0]
    rw [hp]
    refine ⟨ht.stats, ht.mode, ⟨ht.resettable.perceptron, ht.resettable.tage⟩, hb ▸ ht.count,
      hb ▸ ht.misses, ?_, by simp⟩
    rw [hopen]
    simp [isEnd, h1]
  · have hp : (p.handleRoiEbreak a0).2 = p := by
      simp [Processor.handleRoiEbreak, ht.stats, h0, h1]
    rw [hp]
    refine { ht with count := hb ▸ ht.count, misses := hb ▸ ht.misses, active := ?_,
                     predictors := hb ▸ ht.predictors }
    rw [hopen]
    simp [isEnd, h1]

theorem Tracks.exec (ht : Tracks kind es p) (e : Event) : Tracks kind (es ++ [e]) (p.exec e) := by
  cases e with
  | branch pc taken => exact ht.branch pc taken
  | ebreak a0 =>
    by_cases h0 : a0 = roiStartMarker
    · rw [h0]
      exact ht.start
    · exact ht.ebreak h0

theorem run_tracks (kind : BranchPredictorKind) (es : List Event) :
    Tracks kind es ((new true kind).run es) := by
  induction es using List.reverseRecOn with
  | nil => exact new_tracks kind
  | append_singleton es e ih =>
    have hrun : (new true kind).run (es ++ [e]) = ((new true kind).run es).exec e := by
      simp [run]
    rw [hrun]
    exact ih.exec e

theorem freshMisses_eq (kind : BranchPredictorKind) (bs : List (UInt64 × Bool)) :
    freshMisses kind bs = kind.online.misses (Tage.default, Perceptron.default) bs := by
  cases kind with
  | perceptron => exact (Online.onSnd_misses _ _ bs).symm
  | tage => exact (Online.onFst_misses _ _ bs).symm
  | hybrid => rfl

/-- The two counters of every run are those of a fresh predictor over the last region
alone; runs that agree there report the same. -/
theorem run_counts_last_region (kind : BranchPredictorKind) (es : List Event) :
    ((new true kind).run es).perceptronBranchCount = (roiBranches es).length ∧
    ((new true kind).run es).perceptronMispredictions = freshMisses kind (roiBranches es) ∧
    (Event.ebreak roiStartMarker ∉ es →
      ((new true kind).run es).perceptronBranchCount = 0 ∧
      ((new true kind).run es).perceptronMispredictions = 0) ∧
    ∀ es', roiBranches es' = roiBranches es →
      ((new true kind).run es').perceptronBranchCount =
        ((new true kind).run es).perceptronBranchCount ∧
      ((new true kind).run es').perceptronMispredictions =
        ((new true kind).run es).perceptronMispredictions := by
  have hcount : ∀ es, ((new true kind).run es).perceptronBranchCount = (roiBranches es).length :=
    fun es => (run_tracks kind es).count
  have hmiss : ∀ es, ((new true kind).run es).perceptronMispredictions =
      freshMisses kind (roiBranches es) :=
    fun es => (run_tracks kind es).misses.trans (freshMisses_eq kind _).symm
  have hnone : Event.ebreak roiStartMarker ∉ es → roiBranches es = [] := by
    intro hn
    have hstart : ∀ e ∈ es, isStart e = false := fun e he =>
      decide_eq_false fun hc => hn (hc ▸ he)
    rw [roiBranches, Region.last_eq_nil hstart]
    rfl
  refine ⟨hcount es, hmiss es, fun hn => ?_, fun es' he => ?_⟩
  · rw [hcount, hmiss, hnone hn, freshMisses_eq]
    exact ⟨rfl, rfl⟩
  · rw [hcount, hcount, hmiss, hmiss, he]
    exact ⟨rfl, rfl⟩

end PerceptronSoc.Processor
