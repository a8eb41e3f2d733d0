import PerceptronSoc.Spec.Perceptron
import PerceptronSoc.Spec.Tage

/-! The branch-statistics part of `processor_t`: the region-of-interest (ROI)
markers, the predictor dispatch and the figures the destructor prints. The two event
counters are natural numbers, as the `uint64_t` members are below 2^64 counted branches;
`minstret` and the ROI instruction counts keep their 64-bit arithmetic, because their
differences may wrap. -/

namespace PerceptronSoc

inductive BranchPredictorKind where
  | perceptron
  | tage
  | hybrid
deriving DecidableEq

structure Processor where
  perceptronStatsEnabled : Bool
  roiActive : Bool
  branchPredictorKind : BranchPredictorKind
  perceptronPredictor : Perceptron
  tagePredictor : Tage
  perceptronBranchCount : ℕ
  perceptronMispredictions : ℕ
  perceptronRoiInstructions : UInt64
  perceptronRoiStartInstructions : UInt64
  /-- `state.minstret->read()` -/
  minstret : UInt64
deriving DecidableEq

namespace Processor

def roiStartMarker : UInt64 := 1

def roiEndMarker : UInt64 := 2

/-- A constructed hart after `set_perceptron_stats(stats)` and
`set_branch_predictor(kind)`. -/
def new (stats : Bool) (kind : BranchPredictorKind) : Processor where
  perceptronStatsEnabled := stats
  roiActive := false
  branchPredictorKind := kind
  perceptronPredictor := Perceptron.default
  tagePredictor := Tage.default
  perceptronBranchCount := 0
  perceptronMispredictions := 0
  perceptronRoiInstructions := 0
  perceptronRoiStartInstructions := 0
  minstret := 0

/-- `handle_roi_ebreak()`, reading the marker from `a0`. -/
def handleRoiEbreak (p : Processor) (a0 : UInt64) : Bool × Processor :=
  if !p.perceptronStatsEnabled then (false, p)
  else if a0 = roiStartMarker then
    (true, { p with
      roiActive := true
      perceptronBranchCount := 0
      perceptronMispredictions := 0
      perceptronRoiInstructions := 0
      perceptronRoiStartInstructions := p.minstret
      perceptronPredictor := p.perceptronPredictor.reset
      tagePredictor := p.tagePredictor.reset })
  else if a0 = roiEndMarker then
    (true, { p with
      perceptronRoiInstructions :=
        if p.roiActive then
          p.perceptronRoiInstructions + (p.minstret - p.perceptronRoiStartInstructions)
        else p.perceptronRoiInstructions
      roiActive := false })
  else (false, p)

/-- The hybrid's choice between the two predictions, after both `predict` calls. -/
def chooseHybrid (tage : Tage) (perceptron : Perceptron) (tagePred perceptronPred : Bool) : Bool :=
  if tage.lastPredictionHighConfidence then tagePred
  else if perceptron.lastPredictionHighConfidence then perceptronPred
  else tagePred

/-- The first `switch` of `note_conditional_branch`. -/
def predictBranch (p : Processor) (pc : UInt64) : Bool × Processor :=
  match p.branchPredictorKind with
  | .perceptron =>
    let (pred, perceptron) := p.perceptronPredictor.predict pc
    (pred, { p with perceptronPredictor := perceptron })
  | .tage =>
    let (pred, tage) := p.tagePredictor.predict pc
    (pred, { p with tagePredictor := tage })
  | .hybrid =>
    let (tagePred, tage) := p.tagePredictor.predict pc
    let (perceptronPred, perceptron) := p.perceptronPredictor.predict pc
    (chooseHybrid tage perceptron tagePred perceptronPred,
      { p with tagePredictor := tage, perceptronPredictor := perceptron })

/-- The second `switch` of `note_conditional_branch`. -/
def trainBranch (p : Processor) (pc : UInt64) (actualTaken : Bool) : Processor :=
  match p.branchPredictorKind with
  | .perceptron => { p with perceptronPredictor := p.perceptronPredictor.train pc actualTaken }
  | .tage => { p with tagePredictor := p.tagePredictor.train pc actualTaken }
  | .hybrid =>
    { p with
      tagePredictor := p.tagePredictor.train pc actualTaken
      perceptronPredictor := p.perceptronPredictor.train pc actualTaken }

def noteConditionalBranch (p : Processor) (pc : UInt64) (actualTaken : Bool) : Processor :=
  if !p.perceptronStatsEnabled then p
  else if !p.roiActive then p
  else
    let p := { p with perceptronBranchCount := p.perceptronBranchCount + 1 }
    let (predictedTaken, p) := p.predictBranch pc
    let p :=
      if predictedTaken != actualTaken then
        { p with perceptronMispredictions := p.perceptronMispredictions + 1 }
      else p
    p.trainBranch pc actualTaken

/-- The numbers of the destructor's statistics line. The two quotients are the exact
values the printed doubles round. -/
structure Report where
  branches : ℕ
  mispredictions : ℕ
  missRate : ℚ
  instructions : UInt64
  roiInstructions : UInt64
  mpki : ℚ
deriving DecidableEq

/-- `~processor_t`; `none` when statistics are off. -/
def report (p : Processor) : Option Report :=
  if !p.perceptronStatsEnabled then none
  else
    let instructions := p.minstret
    some {
      branches := p.perceptronBranchCount
      mispredictions := p.perceptronMispredictions
      missRate :=
        if p.perceptronBranchCount = 0 then 0
        else 100 * p.perceptronMispredictions / p.perceptronBranchCount
      instructions := instructions
      roiInstructions :=
        if p.roiActive then
          p.perceptronRoiInstructions + (instructions - p.perceptronRoiStartInstructions)
        else p.perceptronRoiInstructions
      mpki :=
        if instructions = 0 then 0
        else 1000 * p.perceptronMispredictions / (instructions.toNat : ℚ) }

/-- What reaches the statistics code of a hart: a conditional branch, or an
`ebreak`/`c.ebreak` with its `a0`. -/
inductive Event where
  | branch (pc : UInt64) (taken : Bool)
  | ebreak (a0 : UInt64)
deriving DecidableEq

def exec (p : Processor) : Event → Processor
  | .branch pc taken => p.noteConditionalBranch pc taken
  | .ebreak a0 => (p.handleRoiEbreak a0).2

def run (p : Processor) (events : List Event) : Processor := events.foldl exec p

end Processor

end PerceptronSoc
