import PerceptronSoc.Spec.Hart

/-! Where an `ebreak` meets the debugger. A hart with the bit of its mode set in `dcsr`
enters Debug Mode; in Debug Mode the breakpoint sends it back to the debug ROM. Outside
Debug Mode a trap goes to software, and what it leaves behind is an input. -/

namespace PerceptronSoc

def debugRomEntry : UInt64 := 0x800

def debugRomTvec : UInt64 := 0x808

def dcsrCauseSwbp : UInt8 := 1

def dcsrCauseStep : UInt8 := 4

inductive SingleStep where
  | stepNone
  | stepStepping
  | stepStepped
deriving DecidableEq

/-- The part of the hart that `enter_debug_mode` writes. -/
structure DebugHart where
  arch : Arch
  prevPrv : Prv
  prevV : Bool
  prvChanged : Bool
  vChanged : Bool
  dpc : UInt64
  dcsrCause : UInt8
  dcsrPrv : Prv
  dcsrV : Bool
  singleStep : SingleStep
  inWfi : Bool

def Trap.isBreakpoint : Trap → Bool
  | .breakpoint _ _ => true
  | _ => false

namespace DebugHart

/-- `set_privilege(PRV_M, false)`; `legalize_privilege` keeps machine mode. -/
def setMachineMode (h : DebugHart) : DebugHart :=
  { h with
    prevPrv := h.arch.prv
    prevV := h.arch.v
    arch := { h.arch with prv := .m, v := false }
    prvChanged := h.arch.prv ≠ .m
    vChanged := h.arch.v }

def setDebugPc (h : DebugHart) (pc : UInt64) (pcEven : pc &&& 1 = 0) : DebugHart :=
  { h with arch := { h.arch with pc := pc, pcEven := pcEven } }

def enterDebugMode (h : DebugHart) (cause : UInt8) : DebugHart :=
  let h := { h with
    arch := { h.arch with debugMode := true }
    dcsrCause := cause
    dcsrPrv := h.arch.prv
    dcsrV := h.arch.v }
  let h := h.setMachineMode
  let h := { h with dpc := h.arch.pc &&& ~~~1 }
  { h.setDebugPc debugRomEntry (by decide) with inWfi := false }

/-- `take_trap` in Debug Mode. -/
def takeTrap (h : DebugHart) (t : Trap) : DebugHart :=
  if t.isBreakpoint then h.setDebugPc debugRomEntry (by decide)
  else h.setDebugPc debugRomTvec (by decide)

/-- The handler of `trap_t` around the loop of `step`. In Debug Mode no trigger matches;
otherwise `handler` is what the trap, a trigger and a single step make of the hart. -/
def catchTrap (h : DebugHart) (t : Trap) (handler : DebugHart) : DebugHart :=
  if h.arch.debugMode then
    let h := h.takeTrap t
    if h.singleStep = .stepStepped then
      enterDebugMode { h with singleStep := .stepNone } dcsrCauseStep
    else h
  else handler

end DebugHart

/-- The two encodings. -/
inductive Ebreak where
  | ebreak
  | cEbreak
deriving DecidableEq

def Ebreak.opcode : Ebreak → Opcode
  | .ebreak => .ebreak
  | .cEbreak => .cEbreak

/-- What became of an instruction: what it threw, the hart after the handlers (`none` is
`abort()`) and the statistics. -/
structure Effect where
  thrown : Option Thrown
  hart : Option DebugHart
  proc : Processor

def DebugHart.execEbreak (h : DebugHart) (e : Ebreak) (insn : UInt64) (handler : DebugHart)
    (p : Processor) : Effect :=
  match e.opcode.exec h.arch insn p with
  | (.ok npc, p) =>
    ⟨none, (Hart.advancePc h.arch npc).map fun (_, a) => { h with arch := a }, p⟩
  | (.error (.trap t), p) => ⟨some (.trap t), some (h.catchTrap t handler), p⟩
  | (.error .trapDebugMode, p) =>
    ⟨some .trapDebugMode, some (h.enterDebugMode dcsrCauseSwbp), p⟩

end PerceptronSoc
