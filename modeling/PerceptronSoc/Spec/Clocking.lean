import Mathlib.Data.List.MinMax
import Mathlib.Data.Nat.Log
import Mathlib.Data.Rat.Floor
import Mathlib.Tactic

/-! The clocks of the test harness: `ClockDividerN`, and the choice of the reference
frequency that the dividers divide. Frequencies are exact rationals in MHz; the integer
types that `Math.round` and `toInt` return keep their width. -/

namespace PerceptronSoc

/-! ### The divider -/

/-- The output and the counter of a `ClockDividerN` with `DIV = div`. -/
structure ClockDividerN (div : ℕ) where
  clkOut : Bool
  count : BitVec (Nat.clog 2 div)
deriving DecidableEq

namespace ClockDividerN

variable {div : ℕ}

/-- `HIGH_TRANSITION[CWIDTH-1:0]` -/
def highTransition (div : ℕ) : BitVec (Nat.clog 2 div) := BitVec.ofNat _ (div / 2 - 1)

/-- `LOW_TRANSITION[CWIDTH-1:0]` -/
def lowTransition (div : ℕ) : BitVec (Nat.clog 2 div) := BitVec.ofNat _ (div - 1)

def init (div : ℕ) : ClockDividerN div := ⟨false, highTransition div⟩

/-- `always @(posedge clk_in)` -/
def posedge (s : ClockDividerN div) : ClockDividerN div :=
  if s.count = lowTransition div then ⟨false, 0⟩
  else ⟨if s.count = highTransition div then true else s.clkOut, s.count + 1⟩

/-- A change of `clk_in`; a divider by one follows its input. -/
def change (s : ClockDividerN div) (clkIn : Bool) : ClockDividerN div :=
  if div = 1 then { s with clkOut := clkIn }
  else if clkIn then s.posedge
  else s

/-- The divider after `n` cycles of its input. -/
def cycles (div : ℕ) : ℕ → ClockDividerN div
  | 0 => init div
  | n + 1 => ((cycles div n).change true).change false

end ClockDividerN

/-! ### The reference -/

/-- `Math.round` of a `Double`, a `Long`: the nearest integer, halves upwards. -/
def roundLong (x : ℚ) : ℤ := max (-2 ^ 63) (min (2 ^ 63 - 1) ⌊x + 1 / 2⌋)

/-- `toInt` of a `Long` keeps the low 32 bits. -/
def longToInt (n : ℤ) : ℤ := (BitVec.ofInt 32 n).toInt

/-- `toInt` of an integral `Double` saturates. -/
def doubleToInt (n : ℤ) : ℤ := max (-2 ^ 31) (min (2 ^ 31 - 1) n)

namespace FrequencyUtils

def squaredError (refMHz : ℚ) : List ℚ → ℚ → ℚ
  | [], sum => sum
  | desired :: xs, sum =>
    let divider := roundLong (refMHz / desired)
    let termError := (refMHz / divider - desired) / desired
    squaredError refMHz xs (sum + termError * termError)

/-- How many multiples of the fastest clock are tried. -/
def candidateCount (fastestFreq maximumAllowableFreqMHz : ℚ) : ℕ :=
  (doubleToInt ⌈maximumAllowableFreqMHz / fastestFreq⌉).toNat

def candidateFreqs (fastestFreq maximumAllowableFreqMHz : ℚ) : List ℚ :=
  (List.range (candidateCount fastestFreq maximumAllowableFreqMHz)).map
    fun i : ℕ => ((i : ℚ) + 1) * fastestFreq

/-- The square of the RMS error. The thresholds are applied to errors, which are not
rational; for thresholds that are not negative, their squares compare alike. -/
def meanSquare (requestedFreqs : List ℚ) (refMHz : ℚ) : ℚ :=
  squaredError refMHz requestedFreqs 0 / requestedFreqs.length

def relativeThreshold : ℚ := 11 / 10

def absoluteThreshold : ℚ := 1 / 100

/-- `(error <= minError * relativeThreshold) || (minError > 0 && error < absoluteThreshold)` -/
def viable (minError error : ℚ) : Bool :=
  decide (error ≤ minError * relativeThreshold ^ 2) ||
    (decide (0 < minError) && decide (error < absoluteThreshold ^ 2))

/-- `None` stands for a failed `require`. That no output is zero is not checked: the list
of `ClockParameters` is asked for a number. -/
def computeReferenceAsMultipleOfFastestClock (requestedFreqs : List ℚ)
    (maximumAllowableFreqMHz : ℚ) : Option ℚ :=
  requestedFreqs.max?.bind fun fastestFreq =>
    if fastestFreq ≤ maximumAllowableFreqMHz then
      let candidates := candidateFreqs fastestFreq maximumAllowableFreqMHz
      (candidates.map (meanSquare requestedFreqs)).min?.bind fun minError =>
        (candidates.filter fun f => viable minError (meanSquare requestedFreqs f)).min?
    else none

end FrequencyUtils

/-- `sinkDividerMap` of a `SimplePllConfiguration`: each requested frequency with its
divider. -/
def sinkDividerMap (referenceFreqMHz : ℚ) (requestedFreqs : List ℚ) : List (ℚ × ℤ) :=
  requestedFreqs.map fun f => (f, longToInt (roundLong (referenceFreqMHz / f)))

end PerceptronSoc
