import PerceptronSoc.Spec.Pmp

/-! `mmu_t` with its TLB, for a hart without the hypervisor extension: the fast and slow
paths of loads, stores and fetches up to the physical address they use, and every event that
changes what a translation depends on. The page table walk is a parameter; what the TLB
relies on about it is part of its type. Triggers are followed only in the tag bit that sends
an access to the slow path. -/

namespace PerceptronSoc

inductive Fault where
  | pageFault
  | accessFault
  | misaligned
deriving DecidableEq

/-- `mmu_t::walk` as it stands in the current page tables: the physical page number for a
virtual one. -/
structure PageTable (hasPage : Bool) where
  walk : Pmp → AccessType → Priv → (mxr sum : Bool) → ℕ → Except Fault ℕ
  /-- A walk yields a physical page. -/
  walk_lt : ∀ {p t m x s v n}, walk p t m x s v = .ok n → n < 2 ^ 52
  /-- The kind of access decides whether a walk succeeds, not where it leads. -/
  walk_agree : ∀ {p t t' m x s v n n'}, walk p t m x s v = .ok n → walk p t' m x s v = .ok n' → n = n'
  /-- Without virtual memory the bits of `mstatus` for it do not matter. -/
  walk_bare : hasPage = false → ∀ p t m x s x' s' v, walk p t m x s v = walk p t m x' s' v

/-- What does not change while the hart runs. -/
structure MmuConfig where
  hasPage : Bool
  misaligned : Bool
  xlen : ℕ
  /-- `sim->addr_to_mem(paddr)` is not null. -/
  addrToMem : BitVec 64 → Bool
  /-- `sim->reservable(paddr)` -/
  reservable : BitVec 64 → Bool

/-- The registers and tables that a translation depends on. -/
structure MmuRegs (c : MmuConfig) where
  pmp : Pmp
  prv : Priv
  mprv : Bool
  mpp : Priv
  mxr : Bool
  sum : Bool
  /-- There is no `mnstatus`, or its `NMIE` is set. -/
  nmie : Bool
  debugMode : Bool
  table : PageTable c.hasPage

/-- A tag that is not `-1`: the page number, and the bit `TLB_CHECK_TRIGGERS`. -/
structure TlbTag where
  vpn : ℕ
  checkTriggers : Bool
deriving DecidableEq

/-- `tag type` is `tlb_insn_tag`, `tlb_load_tag` or `tlb_store_tag`; the offset of an entry is
`target_offset`, and `host_offset` with it. -/
structure Tlb where
  tag : AccessType → ℕ → Option TlbTag
  targetOffset : ℕ → BitVec 64

structure Mmu (c : MmuConfig) where
  regs : MmuRegs c
  tlb : Tlb
  checkTriggers : AccessType → Bool

/-- The types that `load` and `store` are used at. -/
inductive Width where
  | uint8
  | uint16
  | uint32
  | uint64
deriving DecidableEq

/-- `sizeof` -/
def Width.bytes : Width → ℕ
  | .uint8 => 1
  | .uint16 => 2
  | .uint32 => 4
  | .uint64 => 8

def tlbEntries : ℕ := 256

/-- `addr >> PGSHIFT` -/
def vpnOf (addr : BitVec 64) : ℕ := addr.toNat / 4096

def Tlb.flush (t : Tlb) : Tlb := { t with tag := fun _ _ => none }

namespace MmuRegs

variable {c : MmuConfig}

def inMprv (r : MmuRegs c) : Bool := r.nmie && !r.debugMode && r.mprv

/-- The mode of `generate_access_info`. -/
def effectivePriv (r : MmuRegs c) (type : AccessType) : Priv :=
  if type = .fetch then r.prv else if r.inMprv then r.mpp else r.prv

/-- `walk(access_info) | (addr & (PGSIZE-1))`, then the check of the physical access. -/
def translate (r : MmuRegs c) (type : AccessType) (vaddr : BitVec 64) (len : ℕ) :
    Except Fault (BitVec 64) := do
  let mode := r.effectivePriv type
  let ppn ← r.table.walk r.pmp type mode r.mxr r.sum (vpnOf vaddr)
  let paddr := BitVec.ofNat 64 (ppn * 4096 + vaddr.toNat % 4096)
  if r.pmp.pmpOk paddr len type mode then return paddr else throw .accessFault

end MmuRegs

namespace Mmu

variable {c : MmuConfig}

/-- The constructor, with the registers at reset. -/
def new (regs : MmuRegs c) : Mmu c := ⟨regs, ⟨fun _ _ => none, fun _ => 0⟩, fun _ => false⟩

def flushTlb (m : Mmu c) : Mmu c := { m with tlb := m.tlb.flush }

/-- `refill_tlb` -/
def refillTlb (m : Mmu c) (vaddr paddr : BitVec 64) (type : AccessType) : Mmu c :=
  if m.regs.inMprv then m
  else
    let vpn := vpnOf vaddr
    let idx := vpn % tlbEntries
    let kept := fun t => (m.tlb.tag t idx).filter fun tag => tag.vpn == vpn
    let page := paddr &&& ~~~(4096 - 1)
    let tags := fun t =>
      if m.regs.pmp.pmpHomogeneous page 4096 ∧ t = type then some ⟨vpn, m.checkTriggers type⟩
      else kept t
    { m with tlb := {
        tag := fun t i => if i = idx then tags t else m.tlb.tag t i
        targetOffset := Function.update m.tlb.targetOffset idx (paddr - vaddr) } }

/-- The two ways to reach memory that `load_slow_path_intrapage`, `store_slow_path_intrapage`
and `fetch_slow_path` share: the TLB, whether or not triggers are to be checked, or a
translation, which fills the TLB if the access may. A load that reserves (`lr`) uses neither
and needs memory that can be reserved. -/
def intrapage (m : Mmu c) (type : AccessType) (vaddr : BitVec 64) (len : ℕ) (lr fills : Bool) :
    Except Fault (BitVec 64) × Mmu c :=
  let idx := vpnOf vaddr % tlbEntries
  if !lr && (m.tlb.tag type idx).any (fun tag => tag.vpn == vpnOf vaddr) then
    (.ok (m.tlb.targetOffset idx + vaddr), m)
  else
    match m.regs.translate type vaddr len with
    | .ok paddr =>
      if lr && !c.reservable paddr then (.error .accessFault, m)
      else
        (.ok paddr, if c.addrToMem paddr && fills && !lr then m.refillTlb vaddr paddr type else m)
    | .error f => (.error f, m)

/-- `load_slow_path` and `store_slow_path`: an access that is not aligned is refused or split
at the page boundary, and a fault of the first part ends it. `strict` is `lr`, or
`require_alignment`. -/
def slowPath (m : Mmu c) (type : AccessType) (addr : BitVec 64) (len : ℕ)
    (lr strict fills : Bool) : List (Except Fault (BitVec 64)) × Mmu c :=
  if addr.toNat % len = 0 then
    let (out, m) := m.intrapage type addr len lr fills
    ([out], m)
  else if !c.misaligned then ([.error .misaligned], m)
  else if strict then ([.error .accessFault], m)
  else
    let lenPage0 := min len (4096 - addr.toNat % 4096)
    match m.intrapage type addr lenPage0 lr fills with
    | (.error f, m) => ([.error f], m)
    | (.ok paddr, m) =>
      if lenPage0 = len then ([.ok paddr], m)
      else
        let (out, m) := m.intrapage type (addr + BitVec.ofNat 64 lenPage0) (len - lenPage0)
          lr fills
        ([.ok paddr, out], m)

/-- `load<T>` and `store<T>` for a type of that size: an aligned access with a tag that
needs no trigger check never enters the slow path. -/
def access (m : Mmu c) (type : AccessType) (addr : BitVec 64) (width : Width)
    (lr strict fills : Bool) : List (Except Fault (BitVec 64)) × Mmu c :=
  let idx := vpnOf addr % tlbEntries
  let aligned := addr.toNat % width.bytes = 0
  if !lr && decide aligned && m.tlb.tag type idx == some ⟨vpnOf addr, false⟩ then
    ([.ok (m.tlb.targetOffset idx + addr)], m)
  else m.slowPath type addr width.bytes lr strict fills

/-- `translate_insn_addr` with `fetch_slow_path`, which translate two bytes. -/
def fetch (m : Mmu c) (addr : BitVec 64) : List (Except Fault (BitVec 64)) × Mmu c :=
  let (out, m) := m.intrapage .fetch addr 2 false true
  ([out], m)

/-! ### Events -/

inductive Event (c : MmuConfig) where
  /-- `load<T>`, `lr` for `load_reserved`; `traced` if a memory tracer wants the page. -/
  | load (addr : BitVec 64) (width : Width) (lr traced : Bool)
  | store (addr : BitVec 64) (width : Width) (traced : Bool)
  /-- The probe of an AMO: `store_slow_path` with `actually_store` false. -/
  | amoProbe (addr : BitVec 64) (width : Width)
  /-- A half-word of an instruction; every `pc` is even. -/
  | fetch (addr : BitVec 64) (even : addr.toNat % 2 = 0)
  | pmpWrite (w : Pmp.Write)
  | setPrivilege (prv : Priv)
  | writeMstatus (mprv : Bool) (mpp : Priv) (mxr sum : Bool)
  /-- `NMIE` can be set but not cleared. -/
  | writeMnstatus (nmie : Bool)
  | sfenceVma
  | triggerUpdated (checks : AccessType → Bool)
  /-- Entering or leaving debug mode, with the privilege that goes with it. -/
  | debug (on : Bool) (prv : Priv)
  /-- A write to `satp` that changes it. -/
  | writeSatp (table : PageTable c.hasPage)
  /-- The page tables change, by whatever writes memory. -/
  | remap (table : PageTable c.hasPage)

/-- `maybe_flush_tlb` of a write to `mstatus`. -/
def mstatusFlushes (r : MmuRegs c) (mprv : Bool) (mpp : Priv) (mxr sum : Bool) : Bool :=
  decide (mprv ≠ r.mprv) || decide (mpp ≠ r.mpp) ||
    (c.hasPage && (decide (mxr ≠ r.mxr) || decide (sum ≠ r.sum)))

/-- What one event answers, and the state it leaves. -/
def step (m : Mmu c) : Event c → List (Except Fault (BitVec 64)) × Mmu c
  | .load addr width lr traced => m.access .load addr width lr lr (!traced)
  | .store addr width traced => m.access .store addr width false false (!traced)
  | .amoProbe addr width => m.slowPath .store addr width.bytes false true false
  | .fetch addr _ => m.fetch addr
  | .pmpWrite w =>
    match m.regs.pmp.write c.xlen w with
    | some pmp => ([], { m with regs := { m.regs with pmp := pmp } }.flushTlb)
    | none => ([], m)
  | .setPrivilege prv => ([], { m with regs := { m.regs with prv := prv } }.flushTlb)
  | .writeMstatus mprv mpp mxr sum =>
    let m' : Mmu c :=
      { m with regs := { m.regs with mprv := mprv, mpp := mpp, mxr := mxr, sum := sum } }
    ([], if mstatusFlushes m.regs mprv mpp mxr sum then m'.flushTlb else m')
  | .writeMnstatus nmie => ([], { m with regs := { m.regs with nmie := m.regs.nmie || nmie } })
  | .sfenceVma => ([], m.flushTlb)
  | .triggerUpdated checks => ([], { m.flushTlb with checkTriggers := checks })
  | .debug on prv =>
    ([], { m with regs := { m.regs with debugMode := on, prv := prv } }.flushTlb)
  | .writeSatp table => ([], { m with regs := { m.regs with table := table } }.flushTlb)
  | .remap table => ([], { m with regs := { m.regs with table := table } })

def run (m : Mmu c) : List (Event c) → List (List (Except Fault (BitVec 64)))
  | [] => []
  | e :: es => (m.step e).1 :: (m.step e).2.run es

end Mmu

end PerceptronSoc
