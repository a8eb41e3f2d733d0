import PerceptronSoc.Lib.Saturate
import PerceptronSoc.Spec.Words

/-! `perceptron_predictor_t`. `int` values are integers here; that none of them
leaves the 32-bit range is a theorem about runs and not part of the model. -/

namespace PerceptronSoc

structure Perceptron where
  histLen : ℕ
  theta : ℤ
  maxWeight : ℤ
  minWeight : ℤ
  bias : List ℤ
  weights : List (List ℤ)
  history : List Bool
  lastScore : ℤ
deriving DecidableEq

namespace Perceptron

/-- The constructor `perceptron_predictor_t(n_entries, hist_len, w_bits)`. -/
def new (nEntries histLen wBits : ℕ) : Perceptron where
  histLen := histLen
  theta := 76
  maxWeight := 2 ^ (wBits - 1) - 1
  minWeight := -2 ^ (wBits - 1)
  bias := List.replicate nEntries 0
  weights := List.replicate nEntries (List.replicate histLen 0)
  history := List.replicate histLen false
  lastScore := 0

/-- The constructor's default arguments. -/
def default : Perceptron := new 1024 48 8

def foldHistory (s : Perceptron) (histLen width : ℕ) : UInt64 :=
  PerceptronSoc.foldHistory s.history histLen width

def index (s : Perceptron) (pc : UInt64) : ℤ :=
  let idxBits := log2Pow2 s.bias.length
  let hash := (pc >>> 2) ^^^ s.foldHistory s.histLen idxBits
  let hash := hash ^^^ mix64 pc
  castInt (maskIndex hash s.bias.length)

def satInc (s : Perceptron) (x : ℤ) : ℤ := Saturate.up s.maxWeight x

def satDec (s : Perceptron) (x : ℤ) : ℤ := Saturate.down s.minWeight x

def biasAt (s : Perceptron) (idx : ℤ) : ℤ := s.bias.getD (sizeT idx) 0

def weightAt (s : Perceptron) (idx : ℤ) (i : ℕ) : ℤ :=
  (s.weights.getD (sizeT idx) []).getD i 0

/-- What iteration `i` of the score loop adds. -/
def term (s : Perceptron) (idx : ℤ) (i : ℕ) : ℤ :=
  if s.history.getD i false then s.weightAt idx i else -s.weightAt idx i

/-- The score after the first `k` iterations of the loop. -/
def partialScore (s : Perceptron) (idx : ℤ) (k : ℕ) : ℤ :=
  (List.range k).foldl (fun score i => score + s.term idx i) (s.biasAt idx)

def score (s : Perceptron) (idx : ℤ) : ℤ := s.partialScore idx s.histLen

/-- `predict` is `const`, but stores the score it computed in `last_score`. -/
def predict (s : Perceptron) (pc : UInt64) : Bool × Perceptron :=
  let score := s.score (s.index pc)
  (decide (0 ≤ score), { s with lastScore := score })

def shouldTrain (s : Perceptron) (pc : UInt64) (actualTaken : Bool) : Bool :=
  let score := s.score (s.index pc)
  let predictedTaken := decide (0 ≤ score)
  predictedTaken != actualTaken || decide (|score| ≤ s.theta)

/-- The row of weights after the update loop. -/
def trainRow (s : Perceptron) (actualTaken : Bool) (row : List ℤ) : List ℤ :=
  row.mapIdx fun i w =>
    if s.history.getD i false == actualTaken then s.satInc w else s.satDec w

def trainWeights (s : Perceptron) (pc : UInt64) (actualTaken : Bool) : Perceptron :=
  let idx := sizeT (s.index pc)
  { s with
    bias := s.bias.modify idx fun b => if actualTaken then s.satInc b else s.satDec b
    weights := s.weights.modify idx (s.trainRow actualTaken) }

/-- `history.insert(history.begin(), taken); history.pop_back();` -/
def pushHistory (s : Perceptron) (taken : Bool) : Perceptron :=
  { s with history := (taken :: s.history).dropLast }

def train (s : Perceptron) (pc : UInt64) (actualTaken : Bool) : Perceptron :=
  let s := if s.shouldTrain pc actualTaken then s.trainWeights pc actualTaken else s
  s.pushHistory actualTaken

def reset (s : Perceptron) : Perceptron :=
  { s with
    bias := s.bias.map fun _ => 0
    weights := s.weights.map fun row => row.map fun _ => 0
    history := s.history.map fun _ => false
    lastScore := 0 }

def lastPredictionHighConfidence (s : Perceptron) : Bool := decide (s.theta < |s.lastScore|)

def lastAbsScore (s : Perceptron) : ℤ := |s.lastScore|

def exec (s : Perceptron) : PredictorCall → Perceptron
  | .predict pc => (s.predict pc).2
  | .train pc taken => s.train pc taken
  | .reset => s.reset

def run (s : Perceptron) (calls : List PredictorCall) : Perceptron := calls.foldl exec s

end Perceptron

end PerceptronSoc
