import PerceptronSoc.Lib.Clocked

/-! `SramBist`: the built-in self test of an SRAM. In each cycle it drives the SRAM's port
and looks at the word that came back for the address of the cycle before. -/

namespace PerceptronSoc

/-- `W0` and `W1` write the first or the second data word to every address; `R0` and `R1`
read every address and compare. -/
inductive Pattern where
  | w0
  | w1
  | r0
  | r1
deriving DecidableEq

structure SramBist where
  numWords : ℕ
  dataWidth : ℕ
  patterns : List Pattern
  numWords_pos : 0 < numWords
  patterns_ne_nil : patterns ≠ []

namespace SramBist

variable (b : SramBist)

structure Inputs where
  dout : BitVec b.dataWidth
  data0 : BitVec b.dataWidth
  data1 : BitVec b.dataWidth
deriving DecidableEq

structure Outputs where
  we : Bool
  addr : ℕ
  din : BitVec b.dataWidth
  done : Bool
  fail : Bool
deriving DecidableEq

structure Regs where
  ctr : ℕ
  addrCnt : ℕ
  doneReg : Bool
  failReg : Bool
  /-- The next cycle compares; otherwise it reads. -/
  checkNext : Bool
  expReg : BitVec b.dataWidth
deriving DecidableEq

def reset : b.Regs := ⟨0, 0, false, false, false, 0⟩

/-- `addrW` -/
def addrW : ℕ := Nat.clog 2 b.numWords

def ctrW : ℕ := Nat.clog 2 (max b.patterns.length 1)

variable {b} (r : b.Regs)

def lastAddr : Bool := r.addrCnt = b.numWords - 1

def lastPat : Bool := r.ctr = b.patterns.length - 1

def pattern : Option Pattern := b.patterns[r.ctr]?

/-- `addrCnt + 1.U` in the width of the register. -/
def nextAddr : ℕ := (r.addrCnt + 1) % 2 ^ b.addrW

def nextCtr : ℕ := (r.ctr + 1) % 2 ^ b.ctrW

/-- The registers after a cycle of `W0` or `W1`. -/
def write : b.Regs :=
  if lastAddr r then
    if lastPat r then { r with addrCnt := 0, doneReg := true, failReg := false }
    else { r with addrCnt := 0, ctr := nextCtr r, checkNext := false }
  else { r with addrCnt := nextAddr r }

/-- The registers after a cycle of `R0` or `R1`. The expected word is taken once, before
the first comparison. -/
def read (dout data : BitVec b.dataWidth) : b.Regs :=
  if !r.checkNext then { r with expReg := data, checkNext := true }
  else if dout ≠ r.expReg then { r with doneReg := true, failReg := true }
  else if lastAddr r then
    if lastPat r then
      { r with addrCnt := 0, checkNext := false, doneReg := true, failReg := false }
    else { r with addrCnt := 0, checkNext := false, ctr := nextCtr r }
  else { r with addrCnt := nextAddr r }

def step (r : b.Regs) (i : b.Inputs) : b.Regs :=
  match pattern r with
  | some .w0 => write r
  | some .w1 => write r
  | some .r0 => read r i.dout i.data0
  | some .r1 => read r i.dout i.data1
  | none => r

/-- The address while reading: a word that passed moves on to the next at once. -/
def readAddr (dout : BitVec b.dataWidth) : ℕ :=
  if r.checkNext && dout = r.expReg && !lastAddr r then nextAddr r else r.addrCnt

def outputs (i : b.Inputs) : b.Outputs :=
  match pattern r with
  | some .w0 => ⟨true, r.addrCnt, i.data0, r.doneReg, r.failReg⟩
  | some .w1 => ⟨true, r.addrCnt, i.data1, r.doneReg, r.failReg⟩
  | some .r0 => ⟨false, readAddr r i.dout, 0, r.doneReg, r.failReg⟩
  | some .r1 => ⟨false, readAddr r i.dout, 0, r.doneReg, r.failReg⟩
  | none => ⟨false, r.addrCnt, 0, r.doneReg, r.failReg⟩

/-- The registers in cycle `k` after a reset. -/
def regsAt (ins : ℕ → b.Inputs) (k : ℕ) : b.Regs := Clocked.stateAt step b.reset ins k

/-! ### The SRAM behind the port

A synchronous memory: a cycle with `we` writes `din`, and a cycle without it shows the word
at `addr` in the next cycle. What it shows after a write is arbitrary. -/

/-- The contents in cycle `k`, `mem` in cycle zero. -/
def memAt (mem : ℕ → BitVec b.dataWidth) (ins : ℕ → b.Inputs) : ℕ → ℕ → BitVec b.dataWidth
  | 0 => mem
  | k + 1 =>
    let o := outputs (regsAt ins k) (ins k)
    if o.we then Function.update (memAt mem ins k) o.addr o.din else memAt mem ins k

/-- Every read shows what the memory holds. -/
def FaultFree (mem : ℕ → BitVec b.dataWidth) (ins : ℕ → b.Inputs) : Prop :=
  ∀ k, (outputs (regsAt ins k) (ins k)).we = false →
    (ins (k + 1)).dout = memAt mem ins k (outputs (regsAt ins k) (ins k)).addr

end SramBist

end PerceptronSoc
