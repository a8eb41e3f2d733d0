import Mathlib.Data.BitVec
import Mathlib.Tactic

/-! Physical memory protection: the `pmpaddr`, `pmpcfg` and `mseccfg` registers and the
checks that `mmu_t` makes with them. A `reg_t` is 64 bits wide. -/

namespace PerceptronSoc

inductive Priv where
  | prvU
  | prvS
  | prvM
deriving DecidableEq

inductive AccessType where
  | load
  | store
  | fetch
deriving DecidableEq

/-- `(reg_t(1) << k) - 1` -/
def lowMask (k : ℕ) : BitVec 64 := (1 : BitVec 64) <<< k - 1

/-- The members of `pmpaddr_csr_t`. -/
structure PmpEntry where
  val : BitVec 64
  cfg : BitVec 8
deriving DecidableEq

namespace PmpEntry

def pmpR : BitVec 8 := 0x01
def pmpW : BitVec 8 := 0x02
def pmpX : BitVec 8 := 0x04
def pmpA : BitVec 8 := 0x18
def pmpL : BitVec 8 := 0x80
def pmpTor : BitVec 8 := 0x08
def pmpNa4 : BitVec 8 := 0x10
def pmpNapot : BitVec 8 := 0x18

/-- A flag of the configuration byte, as a C++ condition. -/
def has (cfg flag : BitVec 8) : Bool := cfg &&& flag != 0

def isLocked (e : PmpEntry) : Bool := has e.cfg pmpL

end PmpEntry

/-- `entries i` is `state.pmpaddr[i]`; only the first `nPmp` are implemented. -/
structure Pmp where
  nPmp : ℕ
  lgPmpGranularity : ℕ
  entries : ℕ → PmpEntry
  mseccfg : BitVec 64

namespace Pmp

open PmpEntry

def maxPmp : ℕ := 64

/-- The registers at reset, before `processor_t::reset` opens entry 0. -/
def new (nPmp lgPmpGranularity : ℕ) : Pmp where
  nPmp := nPmp
  lgPmpGranularity := lgPmpGranularity
  entries _ := ⟨0, 0⟩
  mseccfg := 0

def getMml (p : Pmp) : Bool := p.mseccfg &&& 1 != 0

def getMmwp (p : Pmp) : Bool := p.mseccfg &&& 2 != 0

def getRlb (p : Pmp) : Bool := p.mseccfg &&& 4 != 0

/-- `pmp_tor_mask()` -/
def torMask (p : Pmp) : BitVec 64 := -((1 : BitVec 64) <<< (p.lgPmpGranularity - 2))

/-! ### Matching -/

def torPaddr (p : Pmp) (i : ℕ) : BitVec 64 := ((p.entries i).val &&& p.torMask) <<< 2

def torBasePaddr (p : Pmp) (i : ℕ) : BitVec 64 := if i = 0 then 0 else p.torPaddr (i - 1)

/-- `mask` of `napot_mask`: the address with its low ones made explicit. -/
def napotOnes (p : Pmp) (i : ℕ) : BitVec 64 :=
  let e := p.entries i
  let isNa4 := e.cfg &&& pmpA == pmpNa4
  (e.val <<< 1) ||| (if isNa4 then 0 else 1) ||| ~~~p.torMask

def napotMask (p : Pmp) (i : ℕ) : BitVec 64 :=
  let mask := p.napotOnes i
  ~~~(mask &&& ~~~(mask + 1)) <<< 2

def match4 (p : Pmp) (i : ℕ) (addr : BitVec 64) : Bool :=
  let a := (p.entries i).cfg &&& pmpA
  if a = 0 then false
  else if a = pmpTor then decide (p.torBasePaddr i ≤ addr) && decide (addr < p.torPaddr i)
  else (addr ^^^ p.torPaddr i) &&& p.napotMask i == 0

/-- `subset_match`; its `abort` is for a range that is not an aligned power of two. -/
def subsetMatch (p : Pmp) (i : ℕ) (addr len : BitVec 64) : Bool :=
  let base := p.torBasePaddr i
  let tor := p.torPaddr i
  let a := (p.entries i).cfg &&& pmpA
  if a = 0 then false
  else
    let isTor := a == pmpTor
    let beginsAfterLower := decide (base ≤ addr)
    let beginsAfterUpper := decide (tor ≤ addr)
    let endsBeforeLower := decide (addr &&& -len < base &&& -len)
    let endsBeforeUpper := decide (addr &&& -len < tor &&& -len)
    let torHomogeneous :=
      endsBeforeLower || beginsAfterUpper || (beginsAfterLower && endsBeforeUpper)
    let maskHomogeneous := ~~~(p.napotMask i <<< 1) &&& len != 0
    let napotHomogeneous := maskHomogeneous || (addr ^^^ tor) / len != 0
    !(if isTor then torHomogeneous else napotHomogeneous)

/-! ### Permissions -/

def accessOk (p : Pmp) (i : ℕ) (type : AccessType) (mode : Priv) : Bool :=
  let cfg := (p.entries i).cfg
  let cfgx := has cfg pmpX
  let cfgw := has cfg pmpW
  let cfgr := has cfg pmpR
  let cfgl := has cfg pmpL
  let prvm := mode == .prvM
  let typer := type == .load
  let typex := type == .fetch
  let typew := type == .store
  let normalRwx := (typer && cfgr) || (typew && cfgw) || (typex && cfgx)
  if p.getMml then
    if cfgx && cfgw && cfgr && cfgl then typer
    else
      let mmlSharedRegion := !cfgr && cfgw
      let mmlChkNormal := (prvm == cfgl) && normalRwx
      let mmlChkShared :=
        (!cfgl && cfgx && (typer || typew)) ||
        (!cfgl && !cfgx && (typer || (typew && prvm))) ||
        (cfgl && typex) ||
        (cfgl && typer && cfgx && prvm)
      if mmlSharedRegion then mmlChkShared else mmlChkNormal
  else
    let mBypass := prvm && !cfgl
    mBypass || normalRwx

/-- The 4-byte sectors of an access: `for (offset = 0; offset < len; offset += 4)`. -/
def sectors (addr : BitVec 64) (len : ℕ) : List (BitVec 64) :=
  (List.range ((len + 3) / 4)).map fun k => addr + BitVec.ofNat 64 (4 * k)

/-- The decision where no entry matches. -/
def defaultOk (p : Pmp) (type : AccessType) (mode : Priv) : Bool :=
  mode == .prvM && !p.getMmwp && (!p.getMml || (type == .load || type == .store))

/-- The loop of `pmp_ok`, from entry `i` on with `n` left. -/
def pmpLoop (p : Pmp) (addr : BitVec 64) (len : ℕ) (type : AccessType) (mode : Priv) :
    ℕ → ℕ → Bool
  | _, 0 => p.defaultOk type mode
  | i, n + 1 =>
    let anyMatch := (sectors addr len).any (p.match4 i)
    let allMatch := (sectors addr len).all (p.match4 i)
    if anyMatch then
      if !allMatch then false else p.accessOk i type mode
    else p.pmpLoop addr len type mode (i + 1) n

def pmpOk (p : Pmp) (addr : BitVec 64) (len : ℕ) (type : AccessType) (mode : Priv) : Bool :=
  if p.nPmp = 0 then true else p.pmpLoop addr len type mode 0 p.nPmp

def pmpHomogeneous (p : Pmp) (addr len : BitVec 64) : Bool :=
  (List.range p.nPmp).all fun i => !p.subsetMatch i addr len

/-! ### Register writes

A write that the source turns down before it flushes the TLB is `none`. -/

def setEntry (p : Pmp) (i : ℕ) (e : PmpEntry) : Pmp :=
  { p with entries := Function.update p.entries i e }

def nextLockedAndTor (p : Pmp) (i : ℕ) : Bool :=
  if maxPmp ≤ i + 1 then false
  else
    let nextLocked := !p.getRlb && has (p.entries (i + 1)).cfg pmpL
    let nextTor := (p.entries (i + 1)).cfg &&& pmpA == pmpTor
    nextLocked && nextTor

/-- `pmpaddr_csr_t::unlogged_write` -/
def writePmpaddr (p : Pmp) (i : ℕ) (val : BitVec 64) : Option Pmp :=
  if p.nPmp = 0 then none
  else
    let locked := !p.getRlb && has (p.entries i).cfg pmpL
    if decide (i < p.nPmp) && !locked && !p.nextLockedAndTor i then
      some (p.setEntry i { p.entries i with val := val &&& lowMask (56 - 2) })
    else none

/-- The value that one byte written to `pmpcfg` is turned into. -/
def legalizeCfg (p : Pmp) (byte : BitVec 8) : BitVec 8 :=
  let cfg := byte &&& (pmpR ||| pmpW ||| pmpX ||| pmpA ||| pmpL)
  let cfg := if p.getMml then cfg else cfg &&& (~~~pmpW ||| if has cfg pmpR then pmpW else 0)
  if p.lgPmpGranularity ≠ 2 ∧ cfg &&& pmpA = pmpNa4 then cfg ||| pmpNapot else cfg

/-- One iteration of `pmpcfg_csr_t::unlogged_write`. -/
def writeCfg (p : Pmp) (i : ℕ) (byte : BitVec 8) : Pmp :=
  if i < p.nPmp then
    let locked := has (p.entries i).cfg pmpL
    if p.getRlb || !locked then
      let cfg := p.legalizeCfg byte
      let cfgx := has cfg pmpX
      let cfgw := has cfg pmpW
      let cfgr := has cfg pmpR
      if p.getRlb || !(p.getMml && (has cfg pmpL && !(cfgx && cfgw && cfgr) &&
          (cfgx || (cfgw && !cfgr)))) then
        p.setEntry i { p.entries i with cfg := cfg }
      else p
    else p
  else p

/-- `pmpcfg_csr_t::unlogged_write` of register `pmpcfg<reg>`. -/
def writePmpcfg (p : Pmp) (xlen reg : ℕ) (val : BitVec 64) : Option Pmp :=
  if p.nPmp = 0 then none
  else some ((List.range (xlen / 8)).foldl
    (fun p k => p.writeCfg (reg * 4 + k) ((val >>> (8 * k)).setWidth 8)) p)

/-- `mseccfg_csr_t::unlogged_write` -/
def writeMseccfg (p : Pmp) (val : BitVec 64) : Option Pmp :=
  if p.nPmp = 0 then none
  else
    let pmplockRecorded := (List.range p.nPmp).any fun i => (p.entries i).isLocked
    let newVal := p.mseccfg
    let newVal := if !(pmplockRecorded && p.mseccfg &&& 4 == 0) then
      (newVal &&& ~~~4) ||| (val &&& 4) else newVal
    some { p with mseccfg := newVal ||| (val &&& 2) ||| (val &&& 1) }

/-- A write of one of the three kinds of registers. -/
inductive Write where
  | pmpaddr (i : ℕ) (val : BitVec 64)
  | pmpcfg (reg : ℕ) (val : BitVec 64)
  | mseccfg (val : BitVec 64)
deriving DecidableEq

def write (p : Pmp) (xlen : ℕ) : Write → Option Pmp
  | .pmpaddr i val => p.writePmpaddr i val
  | .pmpcfg reg val => p.writePmpcfg xlen reg val
  | .mseccfg val => p.writeMseccfg val

/-- A write that is turned down changes nothing. -/
def writes (p : Pmp) (xlen : ℕ) (ws : List Write) : Pmp :=
  ws.foldl (fun p w => (p.write xlen w).getD p) p

end Pmp

end PerceptronSoc
