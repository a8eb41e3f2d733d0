import PerceptronSoc.Spec.Processor

/-! The fetch/decode/execute loop of `processor_t::step` around the branch statistics,
with the bodies of the instructions that reach them: the eight conditional branches and
the two `ebreak`s. Every other instruction, the page walker, the interrupt logic and the
debugger appear only as what they do to the loop: the state they leave and the way they
end a pass. A run may choose them freely, so what is proved holds whatever they do. -/

namespace PerceptronSoc

inductive Prv where
  | u
  | s
  | m
deriving DecidableEq

/-- The architectural state the modelled instructions read. An odd `pc` is one of the
loop's sentinels, never an address. -/
structure Arch where
  pc : UInt64
  pcEven : pc &&& 1 = 0
  xpr : ℕ → UInt64
  /-- `xlen == 64` -/
  rv64 : Bool
  /-- Only sixteen registers: `CHECK_REG` of the `e` variants. -/
  rve : Bool
  /-- `extension_enabled(EXT_ZCA)` -/
  zca : Bool
  prv : Prv
  v : Bool
  debugMode : Bool
  ebreakm : Bool
  ebreaks : Bool
  ebreaku : Bool
  ebreakvs : Bool
  ebreakvu : Bool

inductive Trap where
  | illegalInstruction (tval : UInt64)
  | instructionAddressMisaligned (gva : Bool) (tval : UInt64)
  | breakpoint (gva : Bool) (tval : UInt64)
deriving DecidableEq

/-- What an instruction body throws. -/
inductive Thrown where
  | trap (t : Trap)
  | trapDebugMode
deriving DecidableEq

namespace Insn

/-! ### Fields of `insn_t` -/

def x (b : UInt64) (lo len : UInt64) : UInt64 := (b >>> lo) &&& ((1 <<< len) - 1)

/-- The one-bit case of `xs`: all ones or zero. -/
def xs1 (b : UInt64) (lo : UInt64) : UInt64 := 0 - x b lo 1

def immSign (b : UInt64) : UInt64 := xs1 b 31

def sbImm (b : UInt64) : UInt64 :=
  (x b 8 4 <<< 1) + (x b 25 6 <<< 5) + (x b 7 1 <<< 11) + (immSign b <<< 12)

def rvcBImm (b : UInt64) : UInt64 :=
  (x b 3 2 <<< 1) + (x b 10 2 <<< 3) + (x b 2 1 <<< 5) + (x b 5 2 <<< 6) + (xs1 b 12 <<< 8)

def rs1 (b : UInt64) : ℕ := (x b 15 5).toNat

def rs2 (b : UInt64) : ℕ := (x b 20 5).toNat

def rvcRs1s (b : UInt64) : ℕ := 8 + (x b 7 3).toNat

end Insn

namespace Arch

def sextXlen (a : Arch) (x : UInt64) : UInt64 :=
  if a.rv64 then x else UInt64.ofBitVec ((x.toBitVec.setWidth 32).signExtend 64)

def pcAlignmentMask (a : Arch) : UInt64 :=
  let ialign := if a.zca then 16 else 32
  ~~~(if ialign = 16 then 0 else 2)

def checkPcAlignment (a : Arch) (pc : UInt64) : Except Thrown Unit :=
  if pc &&& ~~~a.pcAlignmentMask ≠ 0 then
    .error (.trap (.instructionAddressMisaligned a.v pc))
  else .ok ()

/-- `set_pc(x)`: the new `npc`. -/
def setPc (a : Arch) (x : UInt64) : Except Thrown UInt64 := do
  a.checkPcAlignment x
  return a.sextXlen x

/-- `READ_REG(reg)` -/
def readReg (a : Arch) (insn : UInt64) (reg : ℕ) : Except Thrown UInt64 :=
  if a.rve ∧ 16 ≤ reg then .error (.trap (.illegalInstruction insn)) else .ok (a.xpr reg)

def requireZca (a : Arch) (insn : UInt64) : Except Thrown Unit :=
  if a.zca then .ok () else .error (.trap (.illegalInstruction insn))

end Arch

/-! ### Instruction bodies -/

/-- What a conditional branch compares and where it would go. -/
structure Comparison where
  taken : Bool
  target : UInt64
  length : UInt64
deriving DecidableEq

/-- The 32-bit branches differ in the comparison only. -/
def compareRegs (cond : UInt64 → UInt64 → Bool) (a : Arch) (insn : UInt64) :
    Except Thrown Comparison := do
  let x ← a.readReg insn (Insn.rs1 insn)
  let y ← a.readReg insn (Insn.rs2 insn)
  return ⟨cond x y, a.pc + Insn.sbImm insn, 4⟩

/-- The compressed branches compare one register with zero. -/
def compareZero (cond : UInt64 → Bool) (a : Arch) (insn : UInt64) : Except Thrown Comparison := do
  a.requireZca insn
  let x ← a.readReg insn (Insn.rvcRs1s insn)
  return ⟨cond x, a.pc + Insn.rvcBImm insn, 2⟩

def beq : Arch → UInt64 → Except Thrown Comparison := compareRegs fun x y => x == y

def bne : Arch → UInt64 → Except Thrown Comparison := compareRegs fun x y => x != y

def blt : Arch → UInt64 → Except Thrown Comparison := compareRegs fun x y => x.toInt64 < y.toInt64

def bge : Arch → UInt64 → Except Thrown Comparison := compareRegs fun x y => y.toInt64 ≤ x.toInt64

def bltu : Arch → UInt64 → Except Thrown Comparison := compareRegs fun x y => x < y

def bgeu : Arch → UInt64 → Except Thrown Comparison := compareRegs fun x y => y ≤ x

def cBeqz : Arch → UInt64 → Except Thrown Comparison := compareZero fun x => x == 0

def cBnez : Arch → UInt64 → Except Thrown Comparison := compareZero fun x => x != 0

inductive BranchOp where
  | beq
  | bne
  | blt
  | bge
  | bltu
  | bgeu
  | cBeqz
  | cBnez
deriving DecidableEq

def BranchOp.compare : BranchOp → Arch → UInt64 → Except Thrown Comparison
  | .beq => PerceptronSoc.beq
  | .bne => PerceptronSoc.bne
  | .blt => PerceptronSoc.blt
  | .bge => PerceptronSoc.bge
  | .bltu => PerceptronSoc.bltu
  | .bgeu => PerceptronSoc.bgeu
  | .cBeqz => PerceptronSoc.cBeqz
  | .cBnez => PerceptronSoc.cBnez

/-- The common tail of the branch bodies: the outcome is noted first, then a taken
branch sets the `pc`. What was noted stays noted when `set_pc` throws. -/
def branchTail (a : Arch) (c : Comparison) (p : Processor) : Except Thrown UInt64 × Processor :=
  (if c.taken then a.setPc c.target else .ok (a.sextXlen (a.pc + c.length)),
    p.noteConditionalBranch a.pc c.taken)

def BranchOp.exec (op : BranchOp) (a : Arch) (insn : UInt64) (p : Processor) :
    Except Thrown UInt64 × Processor :=
  match op.compare a insn with
  | .error t => (.error t, p)
  | .ok c => branchTail a c p

/-- `ebreak` is handed to the debugger in this mode. -/
def Arch.ebreakToDebug (a : Arch) : Bool :=
  !a.debugMode &&
    ((!a.v && a.prv = .m && a.ebreakm) || (!a.v && a.prv = .s && a.ebreaks) ||
     (!a.v && a.prv = .u && a.ebreaku) || (a.v && a.prv = .s && a.ebreakvs) ||
     (a.v && a.prv = .u && a.ebreakvu))

/-- The body the two `ebreak`s share: a marker is consumed, anything else is a
breakpoint. -/
def ebreakTail (length : UInt64) (a : Arch) (p : Processor) : Except Thrown UInt64 × Processor :=
  match p.handleRoiEbreak (a.xpr 10) with
  | (true, p) => (a.setPc (a.pc + length), p)
  | (false, p) =>
    if a.ebreakToDebug then (.error .trapDebugMode, p)
    else (.error (.trap (.breakpoint a.v a.pc)), p)

def ebreak (a : Arch) (_insn : UInt64) (p : Processor) : Except Thrown UInt64 × Processor :=
  ebreakTail 4 a p

def cEbreak (a : Arch) (insn : UInt64) (p : Processor) : Except Thrown UInt64 × Processor :=
  match a.requireZca insn with
  | .error t => (.error t, p)
  | .ok () => ebreakTail 2 a p

inductive Opcode where
  | branch (op : BranchOp)
  | ebreak
  | cEbreak
deriving DecidableEq

def Opcode.exec : Opcode → Arch → UInt64 → Processor → Except Thrown UInt64 × Processor
  | .branch op => op.exec
  | .ebreak => PerceptronSoc.ebreak
  | .cEbreak => PerceptronSoc.cEbreak

/-! ### The loop of `step` -/

/-- How one pass through the loop body ends. -/
inductive Outcome where
  /-- A valid next `pc`. -/
  | next
  /-- `PC_SERIALIZE_BEFORE`: nothing executed, the batch ends. -/
  | serializeBefore
  /-- `PC_SERIALIZE_AFTER`: executed, the batch ends. -/
  | serializeAfter
  /-- `trap_t`, from an instruction, a fetch or a pending interrupt. -/
  | trap
  /-- A trigger match, `trap_debug_mode` or the end of a single step. -/
  | leave
  /-- `wait_for_interrupt_t` thrown by the instruction itself. -/
  | wfi
  /-- `wait_for_interrupt_t` thrown because the hart is still waiting. -/
  | poll
deriving DecidableEq

/-- What one pass does. `after` is the architectural state it leaves; for a modelled
instruction, the one its trap handler or the debugger starts from if it throws. -/
inductive Action where
  | modelled (op : Opcode) (insn : UInt64) (handler : Arch)
  | other (outcome : Outcome) (after : Arch)
  /-- A CSR instruction that writes `minstret`; it serializes. -/
  | writeMinstret (value : UInt64) (after : Arch)

structure Pass where
  action : Action
  /-- What `is_counting_enabled` answers during this pass. -/
  counting : Bool

/-- A hart between two passes: `n` is what is left of the current `step(n)` call (zero
between calls) and `instret` the instructions of the open batch. -/
structure Hart where
  arch : Arch
  proc : Processor
  n : ℕ
  instret : ℕ

namespace Processor

/-- `wide_counter_csr_t::bump` -/
def bump (p : Processor) (counting : Bool) (howmuch : ℕ) : Processor :=
  if counting then { p with minstret := p.minstret + UInt64.ofNat howmuch } else p

/-- `wide_counter_csr_t::unlogged_write` -/
def writeMinstret (p : Processor) (counting : Bool) (val : UInt64) : Processor :=
  { p with minstret := if counting then val - 1 else val }

end Processor

namespace Hart

def new (arch : Arch) (stats : Bool) (kind : BranchPredictorKind) : Hart :=
  ⟨arch, Processor.new stats kind, 0, 0⟩

/-- The end of a batch: `bump(instret)` and `n -= instret`. -/
def close (h : Hart) (counting : Bool) (n instret : ℕ) : Hart :=
  { h with proc := h.proc.bump counting instret, n := n - instret, instret := 0 }

/-- The loop variables after a pass. A trap and a wait end the whole `step` call; the
other exits end the batch only. -/
def finish (h : Hart) (counting : Bool) : Outcome → Hart
  | .next =>
    if h.instret + 1 < h.n then { h with instret := h.instret + 1 }
    else h.close counting h.n (h.instret + 1)
  | .serializeBefore => h.close counting h.n h.instret
  | .serializeAfter => h.close counting h.n (h.instret + 1)
  | .trap => h.close counting h.instret h.instret
  | .leave => h.close counting h.n h.instret
  | .wfi => h.close counting (h.instret + 1) (h.instret + 1)
  | .poll => h.close counting (h.instret + 1) (h.instret + 1)

/-- `advance_pc()`; `none` is its `abort()`. -/
def advancePc (a : Arch) (npc : UInt64) : Option (Outcome × Arch) :=
  if h : npc &&& 1 = 0 then some (.next, { a with pc := npc, pcEven := h })
  else if npc = 3 then some (.serializeBefore, a)
  else if npc = 5 then some (.serializeAfter, a)
  else none

/-- One pass up to the loop variables. -/
def perform (h : Hart) (x : Pass) : Option (Outcome × Arch × Processor) :=
  match x.action with
  | .modelled op insn handler =>
    match op.exec h.arch insn h.proc with
    | (.ok npc, p) => (advancePc h.arch npc).map fun (o, a) => (o, a, p)
    | (.error (.trap _), p) => some (.trap, handler, p)
    | (.error .trapDebugMode, p) => some (.leave, handler, p)
  | .other outcome after => some (outcome, after, h.proc)
  | .writeMinstret value after =>
    some (.serializeAfter, after, h.proc.writeMinstret x.counting value)

/-- What happens to a hart: a `step(n)` call, which a halt request may begin by entering
debug mode, or one pass of the call under way. -/
inductive Event where
  | step (n : ℕ) (entry : Option Arch)
  | pass (x : Pass)

def exec (h : Hart) : Event → Option Hart
  | .step n entry =>
    if h.n = 0 then some { h with n := n, instret := 0, arch := entry.getD h.arch } else none
  | .pass x =>
    if h.n = 0 then none
    else (h.perform x).map fun (o, a, p) => finish { h with arch := a, proc := p } x.counting o

/-- A whole run; `none` when the events do not fit the calls. -/
def run (h : Hart) (es : List Event) : Option Hart := es.foldlM exec h

end Hart

end PerceptronSoc
