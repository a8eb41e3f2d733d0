import PerceptronSoc.Spec.Pmp

/-! Privilege modes of a hart: the status, interrupt, delegation, trap and memory protection
registers with the windows that supervisors and guests have on them, `take_interrupt`, `take_trap`,
and the instructions that return from a trap. The hart is an RV64 one. -/

namespace PerceptronSoc.Privilege

abbrev Reg : Type := BitVec 64

/-! ### Fields of registers -/

/-- The lowest bit of a field. -/
def lowBit (mask : Reg) : Reg := mask &&& ~~~(mask <<< 1)

def getField (reg mask : Reg) : Reg := (reg &&& mask) / lowBit mask

def setField (reg mask val : Reg) : Reg := (reg &&& ~~~mask) ||| ((val * lowBit mask) &&& mask)

/-- `(reg & ~mask) | (val & mask)`, how a register takes the bits that can be written. -/
def writeMasked (reg mask val : Reg) : Reg := (reg &&& ~~~mask) ||| (val &&& mask)

def mstatusSie : Reg := 0x2

def mstatusMie : Reg := 0x8

def mstatusSpie : Reg := 0x20

def mstatusUbe : Reg := 0x40

def mstatusMpie : Reg := 0x80

def mstatusSpp : Reg := 0x100

def mstatusVs : Reg := 0x600

def mstatusMpp : Reg := 0x1800

def mstatusFs : Reg := 0x6000

def mstatusXs : Reg := 0x18000

def mstatusMprv : Reg := 0x20000

def mstatusSum : Reg := 0x40000

def mstatusMxr : Reg := 0x80000

def mstatusTvm : Reg := 0x100000

def mstatusTw : Reg := 0x200000

def mstatusTsr : Reg := 0x400000

def mstatusUxl : Reg := 0x300000000

def mstatusSxl : Reg := 0xC00000000

def mstatusGva : Reg := 0x4000000000

def mstatusMpv : Reg := 0x8000000000

/-- `SSTATUS64_SD` -/
def sdBit : Reg := 0x8000000000000000

def hstatusVtsr : Reg := 0x400000

def hstatusVtw : Reg := 0x200000

def hstatusVtvm : Reg := 0x100000

def hstatusHu : Reg := 0x200

def hstatusSpvp : Reg := 0x100

def hstatusSpv : Reg := 0x80

def hstatusGva : Reg := 0x40

def hstatusVsxl : Reg := 0x300000000

def mnstatusNmie : Reg := 0x8

def mnstatusMnpv : Reg := 0x80

def mnstatusMnpp : Reg := 0x1800

def menvcfgStce : Reg := 0x8000000000000000

def menvcfgCbie : Reg := 0x30

/-- `MIP_SSIP | MIP_STIP | MIP_SEIP` -/
def mipSMask : Reg := 0x222

/-- `MIP_VSSIP | MIP_VSTIP | MIP_VSEIP` -/
def mipVsMask : Reg := 0x444

/-- `MIP_VS_MASK | MIP_SGEIP`, which is also `MIDELEG_FORCED_MASK`. -/
def mipHsMask : Reg := 0x1444

/-- `MIP_MSIP | MIP_MTIP | MIP_MEIP` -/
def mipMMask : Reg := 0x888

def mipLcofip : Reg := 0x2000

/-- `1 << IRQ_COP` -/
def mipCop : Reg := 0x1000

/-- `PRV_U`, `PRV_S` and `PRV_M` -/
def prvReg : Priv → Reg
  | .prvU => 0
  | .prvS => 1
  | .prvM => 3

/-! ### The hart -/

structure PrivConfig where
  /-- `misa` at reset: the extensions there are. -/
  maxIsa : Reg
  /-- `isa->extension_enabled(EXT_ZCA)` -/
  zca : Bool
  /-- `supports_impl(IMPL_MMU)` -/
  mmu : Bool
  zfinx : Bool
  /-- `any_custom_extensions()` -/
  custom : Bool
  sscofpmf : Bool
  smrnmi : Bool
  menvcfgMask : Reg
  menvcfgInit : Reg
  zicntr : Bool
  zihpm : Bool
  smepmp : Bool
  nPmp : ℕ
  lgPmpGranularity : ℕ

/-- Bit of `misa` for an extension letter. -/
def extension (misa : Reg) (letter : Char) : Bool := misa.getLsbD (letter.toNat - 'A'.toNat)

structure State where
  pc : Reg
  prv : Priv
  v : Bool
  debugMode : Bool
  /-- `dcsr->prv`, `dcsr->v` and `dpc` -/
  dcsrPrv : Reg
  dcsrV : Bool
  dpc : Reg
  misa : Reg
  /-- `extension_enabled(EXT_ZCA)` -/
  zca : Bool
  mstatus : Reg
  vsstatus : Reg
  hstatus : Reg
  mnstatus : Reg
  mie : Reg
  mip : Reg
  medeleg : Reg
  mideleg : Reg
  hedeleg : Reg
  hideleg : Reg
  menvcfg : Reg
  mcounteren : Reg
  mscratch : Reg
  mnscratch : Reg
  pmp : Pmp
  mtvec : Reg
  stvec : Reg
  vstvec : Reg
  mepc : Reg
  sepc : Reg
  vsepc : Reg
  mnepc : Reg
  mcause : Reg
  scause : Reg
  vscause : Reg
  mtval : Reg
  stval : Reg
  vstval : Reg
  mtval2 : Reg
  mtinst : Reg
  htval : Reg
  htinst : Reg

/-- `trap_t` -/
structure Trap where
  cause : Reg
  tval : Reg
  gva : Bool
  tval2 : Reg
  tinst : Reg

def illegalInstruction (insn : Reg) : Trap := ⟨2, insn, false, 0, 0⟩

def virtualInstruction (insn : Reg) : Trap := ⟨22, insn, false, 0, 0⟩

/-- The interrupt bit of a cause. -/
def interruptBit : Reg := 0x8000000000000000

namespace Trap

def interrupt (t : Trap) : Bool := t.cause &&& interruptBit != 0

/-- The cause without its interrupt bit. -/
def bit (t : Trap) : Reg := if t.interrupt then t.cause &&& ~~~interruptBit else t.cause

end Trap

namespace PrivConfig

variable (c : PrivConfig)

/-- `extension_enabled_const`: these bits of `misa` cannot be written. -/
def hasU : Bool := extension c.maxIsa 'U'

def hasS : Bool := extension c.maxIsa 'S'

def hasPage : Bool := c.hasS && c.mmu

/-- `compute_sstatus_write_mask`, at reset -/
def sstatusWriteMask : Reg :=
  let hasFs := (c.hasS || extension c.maxIsa 'F' || extension c.maxIsa 'V') && !c.zfinx
  let hasVs := extension c.maxIsa 'V'
  (if c.hasS then mstatusSie ||| mstatusSpie ||| mstatusSpp else 0) |||
    (if c.hasPage then mstatusSum ||| mstatusMxr else 0) |||
    (if hasFs then mstatusFs else 0) |||
    (if c.custom then mstatusXs else 0) |||
    (if hasVs then mstatusVs else 0)

def sstatusReadMask : Reg := c.sstatusWriteMask ||| mstatusUbe ||| mstatusUxl ||| sdBit

def legalizePrivilege (prv : Reg) : Priv :=
  if !c.hasU then .prvM
  else if prv = 2 ∨ (prv = 1 ∧ !c.hasS) then .prvU
  else if prv = 0 then .prvU
  else if prv = 1 then .prvS
  else .prvM

/-- The bits of `misa` that can be modified: `MAFDQCHV`. -/
def misaWriteMask : Reg := c.maxIsa &&& 0x2110ad

def hstatusMask : Reg :=
  hstatusVtsr ||| hstatusVtw ||| (if c.mmu then hstatusVtvm else 0) ||| hstatusHu |||
    hstatusSpvp ||| hstatusSpv ||| hstatusGva

/-- `counteren_mask` -/
def counterenMask : Reg := (if c.zicntr then 0x7 else 0) ||| (if c.zihpm then 0xfffffff8 else 0)

def delegableInts : Reg :=
  (if c.hasS then mipSMask else 0) ||| (if c.custom then mipCop else 0) |||
    (if c.sscofpmf then mipLcofip else 0)

end PrivConfig

/-- `hypervisor_exceptions` -/
def hypervisorExceptions : Reg := 0xf00400

/-- The exceptions that `medeleg` can always delegate. -/
def delegableExceptions : Reg := 0xb3ff

def hedelegMask : Reg := 0xb1ff

namespace State

variable (c : PrivConfig) (s : State)

def hasH : Bool := extension s.misa 'H'

def pcAlignmentMask : Reg := ~~~(if s.zca then 0 else 2)

/-! ### Status registers -/

def adjustSd (val : Reg) : Reg :=
  if val &&& mstatusFs = mstatusFs ∨ val &&& mstatusVs = mstatusVs ∨ val &&& mstatusXs = mstatusXs
  then val ||| sdBit else val &&& ~~~sdBit

def mstatusWriteMask : Reg :=
  c.sstatusWriteMask ||| mstatusMie ||| mstatusMpie |||
    (if c.hasU then mstatusMprv else 0) ||| mstatusMpp ||| mstatusTw |||
    (if c.hasS then mstatusTsr else 0) ||| (if c.hasPage then mstatusTvm else 0) |||
    (if s.hasH then mstatusGva ||| mstatusMpv else 0)

def writeMstatus (val : Reg) : State :=
  let requestedMpp := c.legalizePrivilege (getField val mstatusMpp)
  let adjustedVal := setField val mstatusMpp (prvReg requestedMpp)
  { s with mstatus := adjustSd (writeMasked s.mstatus (s.mstatusWriteMask c) adjustedVal) }

def writeVsstatus (val : Reg) : State :=
  { s with vsstatus := adjustSd (writeMasked s.vsstatus c.sstatusWriteMask val) }

/-- `sstatus_proxy_csr_t`: the window that a supervisor has on `mstatus`. -/
def nonvirtualSstatus : Reg := s.mstatus &&& c.sstatusReadMask

def writeNonvirtualSstatus (val : Reg) : State :=
  s.writeMstatus c (writeMasked s.mstatus c.sstatusWriteMask val)

def sstatus : Reg := if s.v then s.vsstatus else s.nonvirtualSstatus c

def writeSstatus (val : Reg) : State :=
  if s.v then s.writeVsstatus c val else s.writeNonvirtualSstatus c val

/-- `sstatus_csr_t::enabled` -/
def statusEnabled (which : Reg) : Bool :=
  (s.nonvirtualSstatus c &&& which != 0 && (!s.v || s.vsstatus &&& which != 0)) ||
    c.sstatusWriteMask &&& which == 0

/-- `sstatus_csr_t::dirty`; `none` is its `abort()`. -/
def dirty (dirties : Reg) : Option State :=
  if s.nonvirtualSstatus c &&& dirties = dirties ∧ (!s.v ∨ s.vsstatus &&& dirties = dirties) then
    some s
  else if !s.statusEnabled c dirties then none
  else
    let s := s.writeNonvirtualSstatus c (s.nonvirtualSstatus c ||| dirties)
    some (if s.v then s.writeVsstatus c (s.vsstatus ||| dirties) else s)

def writeMnstatus (val : Reg) : State :=
  let mask := (~~~s.mnstatus &&& mnstatusNmie) ||| (if s.hasH then mnstatusMnpv else 0) |||
    mnstatusMnpp
  let requestedMnpp := c.legalizePrivilege (getField val mnstatusMnpp)
  let adjustedVal := setField val mnstatusMnpp (prvReg requestedMnpp)
  { s with mnstatus := writeMasked s.mnstatus mask adjustedVal }

/-- `nmie` of `take_interrupt` and `take_trap`. -/
def nmie : Bool := !(c.smrnmi && getField s.mnstatus mnstatusNmie == 0)

/-! ### Interrupt registers -/

def midelegRead : Reg := if s.hasH then s.mideleg ||| mipHsMask else s.mideleg

def hidelegRead : Reg := s.hideleg &&& s.midelegRead

def mipWriteMask : Reg :=
  let supervisorInts : Reg :=
    if c.hasS then
      0x202 ||| (if s.menvcfg &&& menvcfgStce = 0 then 0x20 else 0)
    else 0
  let lscofInt := if c.sscofpmf then mipLcofip else 0
  let vssipInt : Reg := if s.hasH then 0x4 else 0
  let hypervisorInts := if s.hasH then mipHsMask else 0
  (supervisorInts ||| hypervisorInts ||| lscofInt) &&& (mipSMask ||| mipLcofip ||| vssipInt)

def mieWriteMask : Reg :=
  c.delegableInts ||| (if s.hasH then mipHsMask else 0) ||| mipMMask

def writeMip (mask val : Reg) : State := { s with mip := writeMasked s.mip mask val }

def writeMie (mask val : Reg) : State := { s with mie := writeMasked s.mie mask val }

/-- How a `generic_int_accessor_t` is masked. -/
inductive MaskMode where
  | none
  | mideleg
  | hideleg
deriving DecidableEq

structure IntAccessor where
  ipWriteMask : Reg
  ieWriteMask : Reg
  maskMode : MaskMode
  shiftamt : ℕ

def delegMask : MaskMode → Reg
  | .none => ~~~0
  | .mideleg => s.midelegRead
  | .hideleg => s.hidelegRead

def ipWrite (a : IntAccessor) (val : Reg) : State :=
  s.writeMip (s.delegMask a.maskMode &&& a.ipWriteMask) (val <<< a.shiftamt)

def ieWrite (a : IntAccessor) (val : Reg) : State :=
  s.writeMie (s.delegMask a.maskMode &&& a.ieWriteMask) (val <<< a.shiftamt)

/-- `MIP_SSIP | MIP_LCOFIP` can be written through `sip`. -/
def sipSieAccr : IntAccessor := ⟨0x2002, ~~~mipHsMask, .mideleg, 0⟩

def hipHieAccr : IntAccessor := ⟨0x4, mipHsMask, .mideleg, 0⟩

def hvipAccr : IntAccessor := ⟨mipVsMask, mipVsMask, .none, 0⟩

def vsipVsieAccr : IntAccessor := ⟨0x4, mipVsMask, .hideleg, 1⟩

/-! ### Delegation registers and `misa` -/

def writeMedeleg (val : Reg) : State :=
  let mask := delegableExceptions ||| (if s.hasH then hypervisorExceptions else 0)
  { s with medeleg := writeMasked s.medeleg mask val }

def writeHstatus (val : Reg) : State :=
  { s with hstatus := writeMasked s.hstatus c.hstatusMask val }

/-- A feature goes with what it depends on. -/
def dependency (val : Reg) (feature dependsOn : Char) : Reg :=
  if extension val dependsOn then val else val &&& ~~~(1#64 <<< (feature.toNat - 'A'.toNat))

/-- What goes when the hypervisor extension is turned off. -/
def dropHypervisor : State :=
  let s := s.writeMedeleg (s.medeleg &&& ~~~hypervisorExceptions)
  let s := if c.smrnmi then s.writeMnstatus c (s.mnstatus &&& ~~~mnstatusMnpv) else s
  let s := s.writeMstatus c (s.mstatus &&& ~~~(mstatusGva ||| mstatusMpv))
  ((s.writeMie mipHsMask 0).writeMip mipHsMask 0).writeHstatus c 0

def writeMisa (val : Reg) : State :=
  if !extension val 'C' ∧ extension s.misa 'C' ∧ s.pc &&& 2 ≠ 0 then s
  else
    let adjustedVal := dependency (dependency (dependency val 'D' 'F') 'Q' 'D') 'V' 'D'
    let newMisa := writeMasked s.misa c.misaWriteMask adjustedVal
    let zca := (extension newMisa 'C' || !extension c.maxIsa 'C') && c.zca
    if !extension newMisa 'H' ∧ s.hasH then
      { s.dropHypervisor c with zca := zca, misa := newMisa }
    else { s with zca := zca, misa := newMisa }

/-! ### Traps -/

def setPrivilege (prv : Reg) (virt : Bool) : State :=
  let prv := c.legalizePrivilege prv
  { s with prv := prv, v := virt && prv != .prvM }

/-- Where a trap vector sends a trap. -/
def vectorOf (tvec : Reg) (interrupt : Bool) (bit : Reg) : Reg :=
  (tvec &&& ~~~1#64) + (if tvec &&& 1 ≠ 0 ∧ interrupt then 4 * bit else 0)

/-- `(deleg >> bit) & 1`, for a bit below `max_xlen`. -/
def delegated (deleg bit : Reg) : Bool := bit.toNat < 64 && deleg.getLsbD bit.toNat

def bitReg (b : Bool) : Reg := if b then 1 else 0

/-- The previous-interrupt-enable stack of `sstatus` when a trap is taken. -/
def pushSstatus (status : Reg) (prv : Priv) : Reg :=
  let x := setField status mstatusSpie (getField status mstatusSie)
  let x := setField x mstatusSpp (prvReg prv)
  setField x mstatusSie 0

/-- `vsdeleg` of `take_trap`, at the bit of the trap. -/
def vsDelegated (t : Trap) : Bool :=
  let deleg := if t.interrupt then s.hidelegRead else s.medeleg &&& s.hedeleg
  s.v && s.prv != .prvM && delegated deleg t.bit

/-- `hsdeleg` of `take_trap`, at the bit of the trap. -/
def hsDelegated (t : Trap) : Bool :=
  let deleg := if t.interrupt then s.midelegRead else s.medeleg
  s.prv != .prvM && delegated deleg t.bit

def recordVs (t : Trap) (epc : Reg) : State :=
  { s with
    pc := vectorOf s.vstvec t.interrupt t.bit
    vscause := if t.interrupt then t.cause - 1 else t.cause
    vsepc := epc &&& ~~~1#64
    vstval := t.tval }

/-- Handle the trap in VS-mode. -/
def trapToVs (t : Trap) (epc : Reg) : State :=
  ((s.recordVs t epc).writeSstatus c (pushSstatus (s.sstatus c) s.prv)).setPrivilege c 1 true

/-- What a trap from this mode leaves in `hstatus`. -/
def hstatusOf (t : Trap) : Reg :=
  let x := if s.v then setField s.hstatus hstatusSpvp (prvReg s.prv) else s.hstatus
  let x := setField x hstatusSpv (bitReg s.v)
  setField x hstatusGva (bitReg t.gva)

def recordHs (t : Trap) (epc : Reg) : State :=
  { s with
    pc := vectorOf s.stvec t.interrupt t.bit
    scause := t.cause
    sepc := epc &&& ~~~1#64
    stval := t.tval
    htval := t.tval2
    htinst := t.tinst }

/-- Handle the trap in HS-mode. -/
def trapToHs (t : Trap) (epc : Reg) : State :=
  let s' := (s.recordHs t epc).writeNonvirtualSstatus c (pushSstatus (s.nonvirtualSstatus c) s.prv)
  let s' := if s.hasH then s'.writeHstatus c (s.hstatusOf t) else s'
  s'.setPrivilege c 1 false

/-- What a trap from this mode writes to `mstatus`. -/
def mstatusOf (t : Trap) : Reg :=
  let x := setField s.mstatus mstatusMpie (getField s.mstatus mstatusMie)
  let x := setField x mstatusMpp (prvReg s.prv)
  let x := setField x mstatusMie 0
  let x := setField x mstatusMpv (bitReg s.v)
  setField x mstatusGva (bitReg t.gva)

/-- Where a trap is handled in M-mode. -/
def machineVector (t : Trap) : Reg := if s.nmie c then vectorOf s.mtvec t.interrupt t.bit else 0

def recordM (t : Trap) (epc : Reg) : State :=
  { s with
    pc := s.machineVector c t
    mepc := epc &&& ~~~1#64
    mcause := t.cause
    mtval := t.tval
    mtval2 := t.tval2
    mtinst := t.tinst }

/-- Handle the trap in M-mode. -/
def trapToM (t : Trap) (epc : Reg) : State :=
  ((s.recordM c t epc).writeMstatus c (s.mstatusOf t)).setPrivilege c 3 false

/-- `take_trap`: by default to M-mode, unless delegated to HS-mode or VS-mode. -/
def takeTrap (t : Trap) (epc : Reg) : State :=
  if s.debugMode then { s with pc := if t.cause = 3 then 0x800 else 0x808 }
  else if s.vsDelegated t then s.trapToVs c t epc
  else if s.hsDelegated t then s.trapToHs c t epc
  else s.trapToM c t epc

/-- `ctz` -/
def ctz (x : Reg) : ℕ := ((List.range 64).find? fun i => x.getLsbD i).getD 64

/-- The interrupts of one level that `take_interrupt` chooses from. -/
def enabledInterrupts (pending : Reg) : Reg :=
  let mEnabled := s.prv != .prvM || getField s.mstatus mstatusMie != 0
  let enabled := if mEnabled then pending &&& ~~~s.midelegRead else 0
  if enabled = 0 then
    let delegToHs := s.midelegRead &&& ~~~s.hidelegRead
    let sie := getField (s.sstatus c) mstatusSie != 0
    let hsEnabled := s.v || s.prv = .prvU || (s.prv = .prvS && sie)
    let enabled := if hsEnabled then pending &&& delegToHs else 0
    if s.v ∧ enabled = 0 then
      if s.prv = .prvU ∨ (s.prv = .prvS ∧ sie) then pending &&& s.hidelegRead else 0
    else enabled
  else enabled

/-- The one it takes: nonstandard interrupts first, then MEI, MSI, MTI, SEI, SSI, STI, and the
guest's in the same order; `none` is its `abort()`. -/
def highestPriority (enabled : Reg) : Option Reg :=
  if enabled >>> 12 ≠ 0 then some (enabled >>> 12 <<< 12)
  else [11, 3, 7, 9, 1, 5, 13, 10, 2, 6].findSome? fun i : ℕ =>
    if enabled.getLsbD i then some (1#64 <<< i) else none

/-- `take_interrupt`: the trap it throws, if any. -/
def takeInterrupt (pending : Reg) : Option (Option Trap) :=
  if pending = 0 then some none
  else
    let enabled := s.enabledInterrupts c pending
    if !s.debugMode ∧ s.nmie c ∧ enabled ≠ 0 then
      (highestPriority enabled).map fun x =>
        some ⟨interruptBit ||| BitVec.ofNat 64 (ctz x), 0, false, 0, 0⟩
    else some none

/-- `enter_debug_mode` -/
def enterDebugMode : State :=
  let s := { s with debugMode := true, dcsrPrv := prvReg s.prv, dcsrV := s.v }
  let s := s.setPrivilege c 3 false
  { s with dpc := s.pc &&& ~~~1#64, pc := 0x800 }

end State

/-! ### Control and status registers -/

/-- The registers of `csrmap` that decide about traps, and those that machine mode keeps its own
data and the protection of its memory in. -/
inductive Csr where
  | mstatus | sstatus | vsstatus | hstatus | mnstatus
  | mie | mip | sie | sip | hie | hip | hvip | vsie | vsip
  | medeleg | mideleg | hedeleg | hideleg | misa | menvcfg | mcounteren
  | mscratch | mnscratch | mseccfg
  | pmpaddr (i : Fin 64)
  | pmpcfg (i : Fin 16)
  | mtvec | stvec | vstvec | mepc | sepc | vsepc | mnepc
  | mcause | scause | vscause | mtval | stval | vstval | mtval2 | mtinst | htval | htinst
  | dcsr | dpc
deriving DecidableEq

namespace Csr

def address : Csr → BitVec 12
  | mstatus => 0x300
  | sstatus => 0x100
  | vsstatus => 0x200
  | hstatus => 0x600
  | mnstatus => 0x744
  | mie => 0x304
  | mip => 0x344
  | sie => 0x104
  | sip => 0x144
  | hie => 0x604
  | hip => 0x644
  | hvip => 0x645
  | vsie => 0x204
  | vsip => 0x244
  | medeleg => 0x302
  | mideleg => 0x303
  | hedeleg => 0x602
  | hideleg => 0x603
  | misa => 0x301
  | menvcfg => 0x30a
  | mcounteren => 0x306
  | mscratch => 0x340
  | mnscratch => 0x740
  | mseccfg => 0x747
  | pmpaddr i => 0x3b0 + BitVec.ofNat 12 i
  | pmpcfg i => 0x3a0 + BitVec.ofNat 12 i
  | mtvec => 0x305
  | stvec => 0x105
  | vstvec => 0x205
  | mepc => 0x341
  | sepc => 0x141
  | vsepc => 0x241
  | mnepc => 0x741
  | mcause => 0x342
  | scause => 0x142
  | vscause => 0x242
  | mtval => 0x343
  | stval => 0x143
  | vstval => 0x243
  | mtval2 => 0x34b
  | mtinst => 0x34a
  | htval => 0x643
  | htinst => 0x64a
  | dcsr => 0x7b0
  | dpc => 0x7b1

/-- `csr_priv`: 0 for `PRV_U`, 1 for `PRV_S`, 2 for `PRV_HS` and 3 for `PRV_M`. -/
def csrPriv (csr : Csr) : ℕ := (csr.address.toNat / 0x100) % 4

def csrReadOnly (csr : Csr) : Bool := csr.address.toNat / 0x400 == 3

/-- In `csrmap` at all. -/
def inCsrmap (csr : Csr) (c : PrivConfig) : Bool :=
  match csr with
  | mnstatus | mnepc | mnscratch => c.smrnmi
  | menvcfg | mcounteren => c.hasU
  -- One register configures the eight entries from `4 * i` on.
  | pmpcfg i => i.val % 2 == 0
  | _ => true

end Csr

namespace State

variable (c : PrivConfig) (s : State)

/-- The privilege that `verify_permissions` compares: a supervisor outside of a guest counts as
`PRV_HS`. -/
def csrLevel : ℕ :=
  match s.prv with
  | .prvU => 0
  | .prvS => if s.v then 1 else 2
  | .prvM => 3

/-- `csr_t::verify_permissions`, with what single registers add to it. -/
def verifyPermissions (csr : Csr) (write : Bool) (insn : Reg) : Except Trap Unit := do
  if (csr.csrPriv = 1 ∧ !c.hasS) ∨ (csr.csrPriv = 2 ∧ !s.hasH) then
    throw (illegalInstruction insn)
  if write ∧ csr.csrReadOnly then throw (illegalInstruction insn)
  if s.csrLevel < csr.csrPriv then
    if s.v ∧ csr.csrPriv ≤ 2 then throw (virtualInstruction insn)
    throw (illegalInstruction insn)
  match csr with
  | .medeleg | .mideleg => if !c.hasS then throw (illegalInstruction insn)
  | .mtval2 | .mtinst => if !s.hasH then throw (illegalInstruction insn)
  | .dcsr | .dpc => if !s.debugMode then throw (illegalInstruction insn)
  | .pmpaddr _ | .pmpcfg _ => if s.pmp.nPmp = 0 then throw (illegalInstruction insn)
  | .mseccfg => if !c.smepmp then throw (illegalInstruction insn)
  | _ => pure ()

/-- A write that is turned down changes nothing. -/
def writePmp (w : Pmp.Write) : State := { s with pmp := (s.pmp.write 64 w).getD s.pmp }

/-- `unlogged_write` of each register. -/
def writeCsr (csr : Csr) (val : Reg) : State :=
  match csr with
  | .mstatus => s.writeMstatus c val
  | .sstatus => s.writeSstatus c val
  | .vsstatus => s.writeVsstatus c val
  | .hstatus => s.writeHstatus c val
  | .mnstatus => s.writeMnstatus c val
  | .mie => s.writeMie (s.mieWriteMask c) val
  | .mip => s.writeMip (s.mipWriteMask c) val
  | .sie => if s.v then s.ieWrite vsipVsieAccr val else s.ieWrite sipSieAccr val
  | .sip => if s.v then s.ipWrite vsipVsieAccr val else s.ipWrite sipSieAccr val
  | .hie => s.ieWrite hipHieAccr val
  | .hip => s.ipWrite hipHieAccr val
  | .hvip => s.ipWrite hvipAccr val
  | .vsie => s.ieWrite vsipVsieAccr val
  | .vsip => s.ipWrite vsipVsieAccr val
  | .medeleg => s.writeMedeleg val
  | .mideleg => { s with mideleg := val &&& c.delegableInts }
  | .hedeleg => { s with hedeleg := writeMasked s.hedeleg hedelegMask val }
  | .hideleg => { s with hideleg := writeMasked s.hidelegRead mipVsMask val }
  | .misa => s.writeMisa c val
  | .menvcfg =>
    let adjustedVal := if getField val menvcfgCbie = 2 then setField val menvcfgCbie 0 else val
    { s with menvcfg := writeMasked s.menvcfg c.menvcfgMask adjustedVal }
  | .mcounteren => { s with mcounteren := writeMasked s.mcounteren c.counterenMask val }
  | .mscratch => { s with mscratch := val }
  | .mnscratch => { s with mnscratch := val }
  | .mseccfg => s.writePmp (.mseccfg val)
  | .pmpaddr i => s.writePmp (.pmpaddr i val)
  | .pmpcfg i => s.writePmp (.pmpcfg i val)
  | .mtvec => { s with mtvec := val &&& ~~~2#64 }
  | .stvec =>
    if s.v then { s with vstvec := val &&& ~~~2#64 } else { s with stvec := val &&& ~~~2#64 }
  | .vstvec => { s with vstvec := val &&& ~~~2#64 }
  | .mepc => { s with mepc := val &&& ~~~1#64 }
  | .sepc =>
    if s.v then { s with vsepc := val &&& ~~~1#64 } else { s with sepc := val &&& ~~~1#64 }
  | .vsepc => { s with vsepc := val &&& ~~~1#64 }
  | .mnepc => { s with mnepc := val &&& ~~~1#64 }
  | .mcause => { s with mcause := val }
  | .scause => if s.v then { s with vscause := val } else { s with scause := val }
  | .vscause => { s with vscause := val }
  | .mtval => { s with mtval := val }
  | .stval => if s.v then { s with vstval := val } else { s with stval := val }
  | .vstval => { s with vstval := val }
  | .mtval2 => { s with mtval2 := val }
  | .mtinst => { s with mtinst := val }
  | .htval => { s with htval := val }
  | .htinst => { s with htinst := val }
  | .dcsr => { s with dcsrPrv := val &&& 3, dcsrV := s.hasH && val &&& 0x20 != 0 }
  | .dpc => { s with dpc := val &&& ~~~1#64 }

/-! ### Instructions -/

/-- `set_pc_and_serialize` -/
def setPcAndSerialize (x : Reg) : State := { s with pc := x &&& s.pcAlignmentMask }

/-- A CSR instruction: `write` unless it only reads, and `val` is what it computed to write. -/
def csrInsn (csr : Csr) (write : Bool) (val insn : Reg) : Except Trap State := do
  if !csr.inCsrmap c then throw (illegalInstruction insn)
  s.verifyPermissions c csr write insn
  let s' := if write then s.writeCsr c csr val else s
  return s'.setPcAndSerialize (s.pc + 4)

/-- `require_novirt()` -/
def requireNovirt (insn : Reg) : Except Trap Unit :=
  if s.v then throw (virtualInstruction insn) else return ()

/-- What `mret` writes to `mstatus`. -/
def popMstatus (status : Reg) : Reg :=
  let x := if getField status mstatusMpp ≠ 3 then setField status mstatusMprv 0 else status
  let x := setField x mstatusMie (getField x mstatusMpie)
  let x := setField x mstatusMpie 1
  let x := setField x mstatusMpp (if c.hasU then 0 else 3)
  setField x mstatusMpv 0

/-- `mret` where it is permitted. -/
def returnM : State :=
  let s' := s.setPcAndSerialize (s.mepc &&& s.pcAlignmentMask)
  (s'.writeMstatus c (popMstatus c s.mstatus)).setPrivilege c (getField s.mstatus mstatusMpp)
    (getField s.mstatus mstatusMpv != 0)

def mret (insn : Reg) : Except Trap State :=
  if s.prv ≠ .prvM then throw (illegalInstruction insn) else return s.returnM c

/-- Who may execute `sret`. -/
def requireSret (insn : Reg) : Except Trap Unit := do
  if !c.hasS then throw (illegalInstruction insn)
  if s.v then
    if s.prv = .prvU ∨ getField s.hstatus hstatusVtsr ≠ 0 then s.requireNovirt insn
  else if getField s.mstatus mstatusTsr ≠ 0 then
    if s.prv ≠ .prvM then throw (illegalInstruction insn)
  else if s.prv = .prvU then throw (illegalInstruction insn)

/-- What `sret` leaves in `sstatus`. -/
def popSstatus (status : Reg) : Reg :=
  let x := setField status mstatusSie (getField status mstatusSpie)
  let x := setField x mstatusSpie 1
  setField x mstatusSpp 0

def clearMprv : State := s.writeMstatus c (setField s.mstatus mstatusMprv 0)

/-- `sepc->read()` -/
def sepcRead : Reg := (if s.v then s.vsepc else s.sepc) &&& s.pcAlignmentMask

/-- `sret` where it is permitted. -/
def returnS : State :=
  let s' := s.setPcAndSerialize s.sepcRead
  let prevPrv := getField (s.sstatus c) mstatusSpp
  let s' := s'.writeSstatus c (popSstatus (s.sstatus c))
  if s.v then s'.setPrivilege c prevPrv true
  else if s.hasH then
    let s' := (s'.writeHstatus c (setField s.hstatus hstatusSpv 0)).clearMprv c
    s'.setPrivilege c prevPrv (getField s.hstatus hstatusSpv != 0)
  else (s'.clearMprv c).setPrivilege c prevPrv false

def sret (insn : Reg) : Except Trap State := do
  s.requireSret c insn
  return s.returnS c

/-- `mnret` where it is permitted. -/
def returnMn : State :=
  let s' := s.setPcAndSerialize (s.mnepc &&& s.pcAlignmentMask)
  let prevPrv := getField s.mnstatus mnstatusMnpp
  let s' := if prevPrv ≠ 3 then s'.clearMprv c else s'
  (s'.writeMnstatus c (setField s.mnstatus mnstatusNmie 1)).setPrivilege c prevPrv
    (getField s.mnstatus mnstatusMnpv != 0)

def mnret (insn : Reg) : Except Trap State :=
  if !c.smrnmi ∨ s.prv ≠ .prvM then throw (illegalInstruction insn) else return s.returnMn c

/-- `dret` where it is permitted. -/
def returnDebug : State :=
  let s' := s.setPcAndSerialize (s.dpc &&& s.pcAlignmentMask)
  let s' := s'.setPrivilege c s.dcsrPrv s.dcsrV
  let s' := if s'.prv ≠ .prvM then s'.writeMstatus c (s'.mstatus &&& ~~~mstatusMprv) else s'
  { s' with debugMode := false }

def dret (insn : Reg) : Except Trap State :=
  if !s.debugMode then throw (illegalInstruction insn) else return s.returnDebug c

/-! ### Runs -/

/-- What happens to a hart. -/
inductive Event where
  | csr (csr : Csr) (write : Bool) (val insn : Reg)
  | mret (insn : Reg)
  | sret (insn : Reg)
  | mnret (insn : Reg)
  | dret (insn : Reg)
  /-- An instruction of an extension whose state `sstatus` tracks: `FS`, `VS` or `XS`. -/
  | extensionInsn (which : Reg) (pc insn : Reg)
  /-- Every other instruction, or one that throws. -/
  | insn (pc : Reg)
  | exception (t : Trap)
  /-- `take_pending_interrupt` -/
  | pending
  /-- A device sets lines of `mip`. -/
  | device (mask val : Reg)
  /-- A halt request, a trigger or `ebreak` into debug mode. -/
  | halt

/-- The catch clause of `step`. -/
def catchTrap : Except Trap State → State
  | .ok s' => s'
  | .error t => s.takeTrap c t s.pc

/-- `none` where the source would abort. -/
def exec : Event → Option State
  | .csr csr write val insn => some (s.catchTrap c (s.csrInsn c csr write val insn))
  | .mret insn => some (s.catchTrap c (s.mret c insn))
  | .sret insn => some (s.catchTrap c (s.sret c insn))
  | .mnret insn => some (s.catchTrap c (s.mnret c insn))
  | .dret insn => some (s.catchTrap c (s.dret c insn))
  | .extensionInsn which pc insn =>
    if which = mstatusFs ∨ which = mstatusVs ∨ which = mstatusXs then
      if s.statusEnabled c which then (s.dirty c which).map fun s => { s with pc := pc }
      else some (s.takeTrap c (illegalInstruction insn) s.pc)
    else some s
  | .insn pc => some { s with pc := pc }
  | .exception t => some (s.takeTrap c t s.pc)
  | .pending =>
    (s.takeInterrupt c (s.mip &&& s.mie)).map fun
      | none => s
      | some t => s.takeTrap c t s.pc
  | .device mask val => some (s.writeMip mask val)
  | .halt => if s.debugMode then some s else some (s.enterDebugMode c)

def run (s : State) (es : List Event) : Option State := es.foldlM (exec c) s

/-- `compute_mstatus_initial_value`, for a little-endian hart -/
def mstatusInitial : Reg :=
  setField 0 mstatusMpp (if c.hasU then 0 else 3) |||
    (if c.hasU then setField 0 mstatusUxl 2 else 0) ||| (if c.hasS then setField 0 mstatusSxl 2 else 0)

/-- `processor_t::reset` lets the lower modes use all of memory. -/
def pmpInitial : Pmp :=
  (Pmp.new c.nPmp c.lgPmpGranularity).writes 64 [.pmpaddr 0 (~~~0), .pmpcfg 0 0x1f]

/-- `processor_t::reset` -/
def reset : State where
  pc := 0x1000
  prv := .prvM
  v := false
  debugMode := false
  dcsrPrv := 0
  dcsrV := false
  dpc := 0
  misa := c.maxIsa
  zca := c.zca
  mstatus := mstatusInitial c
  vsstatus := mstatusInitial c &&& c.sstatusReadMask
  hstatus := setField 0 hstatusVsxl 2
  mnstatus := 0
  mie := 0
  mip := 0
  medeleg := 0
  mideleg := 0
  hedeleg := 0
  hideleg := 0
  menvcfg := c.menvcfgInit
  mcounteren := 0
  mscratch := 0
  mnscratch := 0
  pmp := pmpInitial c
  mtvec := 0
  stvec := 0
  vstvec := 0
  mepc := 0
  sepc := 0
  vsepc := 0
  mnepc := 0
  mcause := 0
  scause := 0
  vscause := 0
  mtval := 0
  stval := 0
  vstval := 0
  mtval2 := 0
  mtinst := 0
  htval := 0
  htinst := 0

end State

end PerceptronSoc.Privilege
