import PerceptronSoc.Spec.SramBist
import Mathlib.Logic.Function.Basic

/-! `SramBistTop`: the self test behind its memory-mapped registers, in front of the
`sram22_64x32m4w32_macro`. A write of the `EX` register resets the test, and nothing else
does: what the test's registers hold after power-on is whatever their flip-flops hold. -/

namespace PerceptronSoc.SramBistTop

open SramBist

/-- `new SramBist(64, 32, Seq(Pattern.W0, Pattern.R0, Pattern.W1, Pattern.R1))` -/
abbrev test : SramBist := ⟨64, 32, [.w0, .r0, .w1, .r1], by decide, by decide⟩

/-- The macro's memory and its output register. -/
structure Sram where
  mem : ℕ → BitVec 32
  dout : BitVec 32

/-- A clock edge of the macro. It does not write one word to one address. What it shows after
a write is arbitrary, here `x`. -/
def Sram.step (s : Sram) (we wmask : Bool) (addr : ℕ) (din x : BitVec 32) : Sram :=
  if we then
    { mem :=
        if wmask && !(addr = 63 && din = 0xcafef00d#32) then Function.update s.mem addr din
        else s.mem
      dout := x }
  else { s with dout := s.mem addr }

structure Regs where
  data0 : BitVec 32
  data1 : BitVec 32
  pastValid : Bool
  bist : test.Regs
  sram : Sram

/-- The register writes of a cycle, and what the macro shows if it is written. -/
structure Access where
  data0 : Option (BitVec 32)
  data1 : Option (BitVec 32)
  ex : Bool
  x : BitVec 32

namespace Regs

variable (r : Regs)

def inputs : test.Inputs := ⟨r.sram.dout, r.data0, r.data1⟩

/-- The `DONE` register. -/
def done : Bool := (outputs r.bist r.inputs).done

/-- The `FAIL` register. -/
def fail : Bool := (outputs r.bist r.inputs).fail

def bistReset (a : Access) : Bool := a.ex || r.pastValid

/-- The test drives the macro also while it is held in reset. -/
def step (a : Access) : Regs :=
  let o := outputs r.bist r.inputs
  { data0 := a.data0.getD r.data0
    data1 := a.data1.getD r.data1
    pastValid := a.ex
    bist := if r.bistReset a then test.reset else SramBist.step r.bist r.inputs
    sram := r.sram.step o.we true o.addr o.din a.x }

def run (as : List Access) : Regs := as.foldl step r

/-- After power-on with the memory filled with zeros, as the macro's model does it: any test
registers of their widths. -/
structure PowerOn : Prop where
  mem : ∀ addr, r.sram.mem addr = 0
  pastValid : r.pastValid = false
  ctr : r.bist.ctr < 2 ^ test.ctrW
  addrCnt : r.bist.addrCnt < 2 ^ test.addrW

end Regs

/-- A cycle without register writes. -/
def Access.quiet (x : BitVec 32) : Access := ⟨none, none, false, x⟩

end PerceptronSoc.SramBistTop
