import Mathlib.Data.BitVec
import PerceptronSoc.Lib.Clocked

/-! `PerceptronBranchPredictorBank`, one clock cycle at a time. The base class belongs to
BOOM: `fetchIdx` is a parameter, `s1_update` is `io.update` one cycle later. A read of the
`SyncReadMem` shows its word in the next cycle; what it shows when it is not enabled, runs
past the table or meets a write of the same word is an input. -/

namespace PerceptronSoc

/-! ### Signed arithmetic -/

/-- `*` on `SInt`s: the widths add up. -/
def mulS {m n : ℕ} (x : BitVec m) (y : BitVec n) : BitVec (m + n) :=
  x.signExtend (m + n) * y.signExtend (m + n)

def maxS (x y : BitVec 8) : BitVec 8 := if x.slt y then y else x

def minS (x y : BitVec 8) : BitVec 8 := if x.slt y then x else y

/-- `(w + delta).max(-127.S).min(127.S)`; the sum keeps the width of the weight. -/
def clipped {n : ℕ} (w : BitVec 8) (delta : BitVec n) : BitVec 8 :=
  minS (maxS (w + delta.signExtend 8) (-127)) 127

/-- `Mux(actual_taken, bit, -bit)`; the negation keeps the width of the bit. -/
def delta {n : ℕ} (actualTaken : Bool) (bit : BitVec n) : BitVec n :=
  if actualTaken then bit else -bit

/-- `BoomPerceptronParams` and `fetchIdx`. -/
structure PerceptronBank where
  nSets : ℕ
  histLength : ℕ
  threshold : ℤ
  fetchIdx : UInt64 → ℕ

namespace PerceptronBank

variable (b : PerceptronBank)

/-- The weights of a row, the bias last. -/
abbrev Row := Fin (b.histLength + 1) → BitVec 8

/-- The bits of a global history that the bank reads. -/
abbrev History := Fin b.histLength → Bool

structure PerceptronMeta where
  idx : ℕ
  pred : Bool
deriving DecidableEq

/-- The fields of `io.update` that the bank reads. -/
structure Update where
  valid : Bool
  updateMeta : PerceptronMeta
  ghist : b.History
  cfiTaken : Bool
deriving DecidableEq

structure Inputs where
  f0Valid : Bool
  f0Pc : UInt64
  f1Ghist : b.History
  update : b.Update
  /-- What the two reads of this cycle show if they are undefined. -/
  predictUndef : b.Row
  updateUndef : b.Row

structure Regs where
  perceptronTable : ℕ → b.Row
  s1Weights : b.Row
  f2Taken : Bool
  f3Taken : Bool
  s1Update : b.Update
  updateWeights : b.Row

structure Outputs where
  f2Taken : Bool
  f3Taken : Bool
  f3Meta : PerceptronMeta
deriving DecidableEq

variable {b}

/-- An index in the width of the table's address. -/
def row (pc : UInt64) : ℕ := b.fetchIdx pc % 2 ^ Nat.clog 2 b.nSets

/-! ### Prediction -/

/-- A history bit read as a signed number of one bit: zero or minus one. The products of
the history are nine bits wide and so is their sum; the bias makes it ten. -/
def s1Sum (weights : b.Row) (hist : b.History) : BitVec 10 :=
  let sum := (List.ofFn fun i : Fin b.histLength =>
    mulS (weights i.castSucc) (BitVec.ofBool (hist i))).sum
  sum.signExtend 10 + mulS (weights (Fin.last _)) 1#2

def taken (weights : b.Row) (hist : b.History) : Bool := b.threshold ≤ (s1Sum weights hist).toInt

/-! ### Update -/

def newWeights (weights : b.Row) (ghist : b.History) (actualTaken : Bool) : b.Row := fun i =>
  if h : i.val < b.histLength then
    clipped (weights i) (delta actualTaken (BitVec.ofBool (ghist ⟨i, h⟩)))
  else clipped (weights i) (delta actualTaken 1#2)

/-- The table has no row past its end. -/
def writeRow (t : ℕ → b.Row) (idx : ℕ) (weights : b.Row) : ℕ → b.Row :=
  if idx < b.nSets then Function.update t idx weights else t

/-- `io.update.valid && wrong` -/
def writes (r : b.Regs) (i : b.Inputs) : Bool :=
  i.update.valid && r.s1Update.updateMeta.pred != i.update.cfiTaken

/-- A read port of the table. -/
def readRow (r : b.Regs) (i : b.Inputs) (en : Bool) (idx : ℕ) (undef : b.Row) : b.Row :=
  if en ∧ idx < b.nSets ∧ ¬ (writes r i ∧ r.s1Update.updateMeta.idx = idx) then r.perceptronTable idx
  else undef

def step (r : b.Regs) (i : b.Inputs) : b.Regs where
  perceptronTable :=
    if writes r i then
      writeRow r.perceptronTable r.s1Update.updateMeta.idx
        (newWeights r.updateWeights r.s1Update.ghist i.update.cfiTaken)
    else r.perceptronTable
  s1Weights := readRow r i i.f0Valid (b.row i.f0Pc) i.predictUndef
  f2Taken := taken r.s1Weights i.f1Ghist
  f3Taken := r.f2Taken
  s1Update := i.update
  updateWeights := readRow r i true r.s1Update.updateMeta.idx i.updateUndef

def outputs (r : b.Regs) (i : b.Inputs) : Outputs where
  f2Taken := r.f2Taken
  f3Taken := r.f3Taken
  f3Meta := ⟨b.row i.f0Pc, taken r.s1Weights i.f1Ghist⟩

/-- The registers in cycle `k`, starting with `r` in cycle zero. -/
def regsAt (r : b.Regs) (ins : ℕ → b.Inputs) (k : ℕ) : b.Regs := Clocked.stateAt step r ins k

end PerceptronBank

end PerceptronSoc
