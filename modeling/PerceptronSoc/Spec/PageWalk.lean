import PerceptronSoc.Spec.Mmu

/-! `mmu_t::walk` for a hart without the hypervisor extension. Besides its result a walk has
one effect, the update of the accessed and dirty bits of the leaf entry. -/

namespace PerceptronSoc

/-- `vm_info` -/
structure VmInfo where
  levels : ℕ
  idxbits : ℕ
  ptesize : ℕ
  ptbase : BitVec 64
deriving DecidableEq

namespace VmInfo

def off : VmInfo := ⟨0, 0, 0, 0⟩

/-- `decode_vm_info` for the first stage. A mode that `satp` cannot hold aborts. -/
def decode (xlen : ℕ) (prv : Priv) (satp : BitVec 64) : Option VmInfo :=
  if prv = .prvM then some off
  else if xlen = 32 then
    let ptbase := (satp &&& 0x003FFFFF) <<< 12
    if satp.getLsbD 31 then some ⟨2, 10, 4, ptbase⟩ else some off
  else
    let ptbase := (satp &&& 0x00000FFFFFFFFFFF) <<< 12
    match (satp >>> 60).toNat with
    | 0 => some off
    | 8 => some ⟨3, 9, 8, ptbase⟩
    | 9 => some ⟨4, 9, 8, ptbase⟩
    | 10 => some ⟨5, 9, 8, ptbase⟩
    | 11 => some ⟨6, 9, 8, ptbase⟩
    | _ => none

end VmInfo

namespace Pte

def v : BitVec 64 := 0x001
def r : BitVec 64 := 0x002
def w : BitVec 64 := 0x004
def x : BitVec 64 := 0x008
def u : BitVec 64 := 0x010
def a : BitVec 64 := 0x040
def d : BitVec 64 := 0x080
def rsvd : BitVec 64 := 0x1FC0000000000000
def pbmt : BitVec 64 := 0x6000000000000000
def n : BitVec 64 := 0x8000000000000000
def attr : BitVec 64 := 0xFFC0000000000000

/-- A set of flags of an entry, as a C++ condition. -/
def has (pte flags : BitVec 64) : Bool := pte &&& flags != 0

/-- `PTE_TABLE` -/
def isTable (pte : BitVec 64) : Bool := pte &&& (v ||| r ||| w ||| x) == v

def ppn (pte : BitVec 64) : BitVec 64 := (pte &&& ~~~attr) >>> 10

end Pte

/-- `ctz` of `arith.h` -/
def ctz (val : BitVec 64) : ℕ :=
  if val = 0 then 0
  else ([32, 16, 8, 4, 2, 1].foldl (fun (st : ℕ × BitVec 64) k =>
    if st.2 <<< (64 - k) = 0 then (st.1 + k, st.2 >>> k) else st) (0, val)).1

/-- What a walk reads besides the protection registers and `mstatus`. -/
structure WalkEnv where
  xlen : ℕ
  satp : BitVec 64
  /-- The entry of `ptesize` bytes at a physical address, where there is memory or a device
  that answers. Reading it has no effect. -/
  pte : BitVec 64 → Option (BitVec 64)
  /-- Whether an entry can be stored at an address: a device may turn it down. -/
  takes : BitVec 64 → BitVec 64 → Bool
  extSvnapot : Bool
  pbmte : Bool
  hade : Bool

namespace WalkEnv

/-- What an access asks of the leaf entry. -/
structure Request where
  type : AccessType
  mode : Priv
  mxr : Bool
  sum : Bool

/-- The tests of an entry before it is looked at as a table or a leaf. -/
def reserved (env : WalkEnv) (pte : BitVec 64) : Bool :=
  Pte.has pte Pte.rsvd || (!env.extSvnapot && Pte.has pte Pte.n) ||
    (!env.pbmte && Pte.has pte Pte.pbmt) || (pte &&& Pte.pbmt == Pte.pbmt)

/-- The tests of a leaf that end the walk with a page fault, in the order of the source. -/
def refuses (q : Request) (pte : BitVec 64) (ptshift : ℕ) : Bool :=
  (if Pte.has pte Pte.u then q.mode == .prvS && (q.type == .fetch || !q.sum)
    else !(q.mode == .prvS)) ||
  (!Pte.has pte Pte.v || (!Pte.has pte Pte.r && Pte.has pte Pte.w)) ||
  (match q.type with
    | .fetch => !Pte.has pte Pte.x
    | .load => !Pte.has pte Pte.r && !(q.mxr && Pte.has pte Pte.x)
    | .store => !(Pte.has pte Pte.r && Pte.has pte Pte.w)) ||
  (Pte.ppn pte &&& lowMask ptshift != 0)

/-- `PTE_A | ((type == STORE) * PTE_D)` -/
def adBits (q : Request) : BitVec 64 := Pte.a ||| if q.type = .store then Pte.d else 0

def napotBits (pte : BitVec 64) : ℕ := if Pte.has pte Pte.n then ctz (Pte.ppn pte) + 1 else 0

/-- The tests of a NAPOT leaf at level `i`. -/
def napotRefuses (pte : BitVec 64) (i : ℕ) : Bool :=
  (Pte.has pte Pte.n && (Pte.ppn pte == 0 || i != 0)) || (napotBits pte != 0 && napotBits pte != 4)

/-- `page_base`: the leaf's page number with the low bits of the virtual one. -/
def pageBase (addr pte : BitVec 64) (ptshift : ℕ) : BitVec 64 :=
  let vpn := addr >>> 12
  let napot := lowMask (napotBits pte)
  ((Pte.ppn pte &&& ~~~napot) ||| (vpn &&& napot) ||| (vpn &&& lowMask ptshift)) <<< 12

def ptePaddr (vm : VmInfo) (addr base : BitVec 64) (i : ℕ) : BitVec 64 :=
  base + ((addr >>> (12 + i * vm.idxbits)) &&& lowMask vm.idxbits) * BitVec.ofNat 64 vm.ptesize

/-- The loop over the levels, with `i` of them left: the page, and the entry that is written
back with its new bits, which is so even where the leaf is then refused. -/
def walkLoop (env : WalkEnv) (p : Pmp) (q : Request) (vm : VmInfo) (addr : BitVec 64) :
    BitVec 64 → ℕ → Except Fault (BitVec 64) × Option (BitVec 64 × BitVec 64)
  | _, 0 => (.error .pageFault, none)
  | base, i + 1 =>
    let pa := ptePaddr vm addr base i
    if !p.pmpOk pa vm.ptesize .load .prvS then (.error .accessFault, none)
    else
      match env.pte pa with
      | none => (.error .accessFault, none)
      | some pte =>
        if env.reserved pte then (.error .pageFault, none)
        else if Pte.isTable pte then
          if Pte.has pte (Pte.d ||| Pte.a ||| Pte.u ||| Pte.n ||| Pte.pbmt) then
            (.error .pageFault, none)
          else env.walkLoop p q vm addr (Pte.ppn pte <<< 12) i
        else if refuses q pte (i * vm.idxbits) then (.error .pageFault, none)
        else
          let ad := adBits q
          if pte &&& ad ≠ ad ∧ env.hade = false then (.error .pageFault, none)
          else if pte &&& ad ≠ ad ∧ p.pmpOk pa vm.ptesize .store .prvS = false then
            (.error .accessFault, none)
          else if pte &&& ad ≠ ad ∧ env.takes pa (pte ||| ad) = false then
            (.error .accessFault, none)
          else
            (if napotRefuses pte i then .error .pageFault
              else .ok (pageBase addr pte (i * vm.idxbits)),
              if pte &&& ad ≠ ad then some (pa, pte ||| ad) else none)

/-- The levels to walk: none where bits `xlen-1:va_bits-1` are not all equal. -/
def levelsOf (xlen : ℕ) (vm : VmInfo) (addr : BitVec 64) : ℕ :=
  let vaBits := 12 + vm.levels * vm.idxbits
  let mask := lowMask (xlen - (vaBits - 1))
  let maskedMsbs := (addr >>> (vaBits - 1)) &&& mask
  if maskedMsbs ≠ 0 ∧ maskedMsbs ≠ mask then 0 else vm.levels

/-- `walk`: the physical page, as a page number. -/
def walk (env : WalkEnv) (p : Pmp) (q : Request) (addr : BitVec 64) :
    Option (Except Fault ℕ × Option (BitVec 64 × BitVec 64)) := do
  let vm ← VmInfo.decode env.xlen q.mode env.satp
  if vm.levels = 0 then
    -- zero-extend from xlen
    return (.ok (vpnOf (addr &&& ((2 : BitVec 64) <<< (env.xlen - 1) - 1))), none)
  else
    let (page, update) := env.walkLoop p q vm addr vm.ptbase (levelsOf env.xlen vm addr)
    return (page.map vpnOf, update)

end WalkEnv

end PerceptronSoc
