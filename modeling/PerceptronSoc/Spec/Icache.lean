import Mathlib.Tactic
import Mathlib.Data.UInt

/-! The instruction cache of `mmu_t` and the two loops of `processor_t::step`. The cache keeps
decoded instructions, and the fast loop follows a cached instruction straight to the slot of
the one behind it. What the instructions, the page walker, the triggers and the interrupts do
to the hart is left to a `Core`; each of them may empty the cache. -/

namespace PerceptronSoc.Icache

/-- What a call leaves: what it returned or threw, the hart, and whether it emptied the
instruction cache (`flush_icache`, alone or by `flush_tlb`). -/
structure Reply (σ ε α : Type) where
  result : Except ε α
  hart : σ
  flushed : Bool

/-- A call on a hart. -/
def Call (σ ε α : Type) : Type := σ → Reply σ ε α

namespace Call

variable {σ ε α β : Type}

def pure (a : α) : Call σ ε α := fun s => ⟨.ok a, s, false⟩

def throw (e : ε) : Call σ ε α := fun s => ⟨.error e, s, false⟩

def bind (x : Call σ ε α) (f : α → Call σ ε β) : Call σ ε β := fun s =>
  match x s with
  | ⟨.error e, s, flushed⟩ => ⟨.error e, s, flushed⟩
  | ⟨.ok a, s, flushed⟩ =>
    let r := f a s
    ⟨r.result, r.hart, flushed || r.flushed⟩

/-- A change that throws nothing. -/
def effect (f : σ → σ × Bool) : Call σ ε Unit := fun s => ⟨.ok (), (f s).1, (f s).2⟩

instance : Monad (Call σ ε) where
  pure := pure
  bind := bind

end Call

/-- `insn_fetch_t` -/
structure InsnFetch (φ : Type) where
  func : φ
  insn : UInt64
deriving DecidableEq

/-- How an exception thrown in a batch leaves the loop counters. -/
inductive Catch where
  /-- `n = instret` -/
  | trap
  /-- The counters stay: a trigger or `trap_debug_mode`. -/
  | debug
  /-- `n = ++instret` -/
  | waitForInterrupt
deriving DecidableEq

/-- What the loop calls: the hart is everything but the instruction cache. -/
structure Core (σ ε φ : Type) where
  /-- `state.pc` -/
  pc : σ → UInt64
  setPc : UInt64 → σ → σ
  /-- `state.serialized = true` -/
  setSerialized : σ → σ
  /-- The start of a batch, with `take_pending_interrupt`. -/
  takePendingInterrupt : Call σ ε Unit
  slowPath : σ → Bool
  /-- What the slow loop does before it fetches: single step, `icount` triggers and a pending
  `wfi`. It breaks out of the loop on `false`. -/
  slowCheck : Call σ ε Bool
  executeInsnLogged : InsnFetch φ → UInt64 → Call σ ε UInt64
  matchedTrigger : σ → Option ε
  /-- `translate_insn_addr`: the parcel at an address, and its physical address. -/
  translateInsnAddr : UInt64 → Call σ ε (UInt16 × UInt64)
  decodeInsn : UInt64 → σ → φ × σ
  /-- `tracer.interested_in_range(paddr, paddr + 1, FETCH)` -/
  interested : UInt64 → σ → Bool
  trace : UInt64 → ℕ → σ → σ
  /-- `fetch.func(p, fetch.insn, pc)` -/
  executeInsnFast : InsnFetch φ → UInt64 → Call σ ε UInt64
  kind : ε → Catch
  /-- The body of the catch clause, for the exception and the loop's `pc`. -/
  handle : ε → UInt64 → σ → σ × Bool
  /-- `minstret->bump(instret)` and `mcycle->bump(instret)` -/
  bump : ℕ → σ → σ

/-- `icache_entry_t`; `next` is the index of the entry it points to. -/
structure IcacheEntry (φ : Type) where
  tag : UInt64
  next : ℕ
  data : InsnFetch φ

/-- A fetch from the memory of a hart, or another call that emptied the cache. -/
inductive Fetched (σ : Type) where
  | fetch (addr : UInt64) (hart : σ)
  | flush

/-- A hart with its instruction cache. `log` is what it fetched and where else the cache was
emptied; nothing reads it. -/
structure Machine (σ φ : Type) where
  hart : σ
  icache : ℕ → IcacheEntry φ
  log : List (Fetched σ)

def icacheEntries : ℕ := 1024

def pcAlign : ℕ := 2

def icacheIndex (addr : UInt64) : ℕ := addr.toNat / pcAlign % icacheEntries

/-- The tag of an empty slot, `-1`. -/
def noTag : UInt64 := 0xffffffffffffffff

def pcSerializeBefore : UInt64 := 3

def pcSerializeAfter : UInt64 := 5

def invalidPc (pc : UInt64) : Bool := pc &&& 1 != 0

def insnLength (insn : UInt64) : ℕ :=
  if insn &&& 0x03 < 0x03 then 2
  else if insn &&& 0x1f < 0x1f then 4
  else if insn &&& 0x3f < 0x3f then 6
  else 8

namespace Core

variable {σ ε φ : Type} (c : Core σ ε φ)

/-- `*translate_insn_addr_to_host(addr)`, shifted into its place. -/
def parcelAt (addr : UInt64) (shift : UInt64) : Call σ ε UInt64 := do
  let (parcel, _) ← c.translateInsnAddr addr
  return parcel.toUInt64 <<< shift

/-- The parcels of an instruction behind its first. -/
def otherParcels (addr : UInt64) (length : ℕ) : Call σ ε UInt64 :=
  if length = 4 then c.parcelAt (addr + 2) 16
  else if length = 2 then return 0
  else if length = 6 then do
    let x ← c.parcelAt (addr + 2) 16
    let y ← c.parcelAt (addr + 4) 32
    return x ||| y
  else do
    let x ← c.parcelAt (addr + 2) 16
    let y ← c.parcelAt (addr + 4) 32
    let z ← c.parcelAt (addr + 6) 48
    return x ||| y ||| z

/-- `{proc->decode_insn(insn), insn}` -/
def decodeFetch (insn : UInt64) : Call σ ε (InsnFetch φ) := fun s =>
  ⟨.ok ⟨(c.decodeInsn insn s).1, insn⟩, (c.decodeInsn insn s).2, false⟩

/-- The entry for an instruction. A traced one leaves its slot empty, so that its next fetch is
traced as well. -/
def entryFor (addr paddr : UInt64) (length : ℕ) (fetch : InsnFetch φ) :
    Call σ ε (IcacheEntry φ) := fun s =>
  let next := icacheIndex (addr + UInt64.ofNat length)
  if c.interested paddr s then ⟨.ok ⟨noTag, next, fetch⟩, c.trace paddr length s, false⟩
  else ⟨.ok ⟨addr, next, fetch⟩, s, false⟩

/-- What `refill_icache` fetches: the entry it writes. -/
def refillIcache (addr : UInt64) : Call σ ε (IcacheEntry φ) := fun s =>
  match c.matchedTrigger s with
  | some e => ⟨.error e, s, false⟩
  | none =>
    (do
      let (parcel, paddr) ← c.translateInsnAddr addr
      let length := insnLength parcel.toUInt64
      let rest ← c.otherParcels addr length
      let fetch ← c.decodeFetch (parcel.toUInt64 ||| rest)
      c.entryFor addr paddr length fetch : Call σ ε (IcacheEntry φ)) s

end Core

namespace Machine

variable {σ ε φ α : Type}

def flushIcache (m : Machine σ φ) : Machine σ φ :=
  { m with icache := fun i => { m.icache i with tag := noTag } }

/-- The machine a call leaves, which may have emptied the cache on its way. -/
def leave (m : Machine σ φ) (r : Reply σ ε α) : Machine σ φ :=
  if r.flushed then flushIcache { m with hart := r.hart } else { m with hart := r.hart }

def call (m : Machine σ φ) (x : Call σ ε α) : Except ε α × Machine σ φ :=
  let r := x m.hart
  (r.result, { m.leave r with log := if r.flushed then m.log ++ [.flush] else m.log })

def setPc (c : Core σ ε φ) (pc : UInt64) (m : Machine σ φ) : Machine σ φ :=
  { m with hart := c.setPc pc m.hart }

/-- `refill_icache`, up to the slot that the entry is written to. -/
def refill (c : Core σ ε φ) (addr : UInt64) (m : Machine σ φ) :
    Except ε (IcacheEntry φ) × Machine σ φ :=
  let r := c.refillIcache addr m.hart
  (r.result, { m.leave r with log := m.log ++ [.fetch addr m.hart] })

/-- `access_icache`: the index of the entry. -/
def accessIcache (c : Core σ ε φ) (addr : UInt64) (m : Machine σ φ) : Except ε ℕ × Machine σ φ :=
  let i := icacheIndex addr
  if (m.icache i).tag = addr then (.ok i, m)
  else
    match m.refill c addr with
    | (.error e, m) => (.error e, m)
    | (.ok entry, m) => (.ok i, { m with icache := Function.update m.icache i entry })

/-- The entry the fast loop executes: the one it followed, or the one of `pc`. -/
def entryOf (c : Core σ ε φ) (slot : Option ℕ) (pc : UInt64) (m : Machine σ φ) :
    Except ε ℕ × Machine σ φ :=
  match slot with
  | some i => (.ok i, m)
  | none => m.accessIcache c pc

/-- `load_insn` refills an entry of its own. -/
def loadInsn (c : Core σ ε φ) (addr : UInt64) (m : Machine σ φ) :
    Except ε (InsnFetch φ) × Machine σ φ :=
  match m.refill c addr with
  | (.error e, m) => (.error e, m)
  | (.ok entry, m) => (.ok entry.data, m)

end Machine

/-- Where a batch ends: what was thrown, if anything, and the loop's variables. -/
structure Batch (σ ε φ : Type) where
  thrown : Option ε
  pc : UInt64
  instret : ℕ
  machine : Machine σ φ

namespace Core

variable {σ ε φ : Type} (c : Core σ ε φ)

/-- `advance_pc()`, with the loop that goes on behind it; `none` is its `abort()`. -/
def advancePc (npc : UInt64) (instret : ℕ) (m : Machine σ φ)
    (loop : UInt64 → ℕ → Machine σ φ → Option (Batch σ ε φ)) : Option (Batch σ ε φ) :=
  if invalidPc npc then
    if npc = pcSerializeBefore then
      some ⟨none, c.pc m.hart, instret, { m with hart := c.setSerialized m.hart }⟩
    else if npc = pcSerializeAfter then some ⟨none, c.pc m.hart, instret + 1, m⟩
    else none
  else loop npc (instret + 1) (m.setPc c npc)

/-- The fast loop, for the `n - instret` instructions that are left. `slot` is the entry that
the inner loop goes on with; without one the outer loop looks its `pc` up. -/
def fastLoop : ℕ → Option ℕ → UInt64 → ℕ → Machine σ φ → Option (Batch σ ε φ)
  | 0, _, pc, instret, m => some ⟨none, pc, instret, m⟩
  | k + 1, slot, pc, instret, m =>
    match m.entryOf c slot pc with
    | (.error e, m) => some ⟨some e, pc, instret, m⟩
    | (.ok i, m) =>
      match m.call (c.executeInsnFast (m.icache i).data pc) with
      | (.error e, m) => some ⟨some e, pc, instret, m⟩
      | (.ok npc, m) =>
        let next := (m.icache i).next
        -- both breaks of the inner loop lead to `advance_pc()`
        if (m.icache next).tag = npc ∧ k ≠ 0 then
          fastLoop k (some next) npc (instret + 1) (m.setPc c npc)
        else c.advancePc npc instret m (fastLoop k none)

/-- The loop without a cache: fetch, execute, advance. -/
def plainLoop : ℕ → UInt64 → ℕ → Machine σ φ → Option (Batch σ ε φ)
  | 0, pc, instret, m => some ⟨none, pc, instret, m⟩
  | k + 1, pc, instret, m =>
    match m.loadInsn c pc with
    | (.error e, m) => some ⟨some e, pc, instret, m⟩
    | (.ok fetch, m) =>
      match m.call (c.executeInsnFast fetch pc) with
      | (.error e, m) => some ⟨some e, pc, instret, m⟩
      | (.ok npc, m) => c.advancePc npc instret m (plainLoop k)

/-- The slow loop. -/
def slowLoop : ℕ → UInt64 → ℕ → Machine σ φ → Option (Batch σ ε φ)
  | 0, pc, instret, m => some ⟨none, pc, instret, m⟩
  | k + 1, pc, instret, m =>
    match m.call c.slowCheck with
    | (.error e, m) => some ⟨some e, pc, instret, m⟩
    | (.ok false, m) => some ⟨none, pc, instret, m⟩
    | (.ok true, m) =>
      match m.loadInsn c pc with
      | (.error e, m) => some ⟨some e, pc, instret, m⟩
      | (.ok fetch, m) =>
        match m.call (c.executeInsnLogged fetch pc) with
        | (.error e, m) => some ⟨some e, pc, instret, m⟩
        | (.ok npc, m) => c.advancePc npc instret m (slowLoop k)

/-- The catch clauses: what is left of `n`, the instructions to count and the machine. -/
def catchThrown (n : ℕ) (b : Batch σ ε φ) : ℕ × ℕ × Machine σ φ :=
  match b.thrown with
  | none => (n, b.instret, b.machine)
  | some e =>
    let m := (b.machine.call (Call.effect (ε := ε) (c.handle e b.pc))).2
    match c.kind e with
    | .trap => (b.instret, b.instret, m)
    | .debug => (n, b.instret, m)
    | .waitForInterrupt => (b.instret + 1, b.instret + 1, m)

/-- A loop of `step`, started with the `n` instructions it may execute. -/
abbrev Loop (σ ε φ : Type) : Type := ℕ → UInt64 → ℕ → Machine σ φ → Option (Batch σ ε φ)

/-- One turn of `while (n > 0)`, with `loop` where the source has its fast loop. -/
def turn (loop : Loop σ ε φ) (n : ℕ) (m : Machine σ φ) : Option (ℕ × Machine σ φ) := do
  let pc := c.pc m.hart
  let b ←
    match m.call c.takePendingInterrupt with
    | (.error e, m) => some ⟨some e, pc, 0, m⟩
    | (.ok (), m) => if c.slowPath m.hart then c.slowLoop n pc 0 m else loop n pc 0 m
  let (n, instret, m) := c.catchThrown n b
  return (n - instret, { m with hart := c.bump instret m.hart })

/-- `step(n)` with at most `fuel` turns of its outer loop; a hart that is stopped in the
debugger or at a trigger may turn forever. -/
def step (loop : Loop σ ε φ) : ℕ → ℕ → Machine σ φ → Option (Machine σ φ)
  | _, 0, m => some m
  | 0, _ + 1, _ => none
  | fuel + 1, n + 1, m => do
    let (n, m) ← c.turn loop (n + 1) m
    step loop fuel n m

/-- What happens to a hart from outside: a `step` call, or whatever the other harts, the
devices and the debugger do to it and to memory between two calls. -/
inductive Event (σ : Type) where
  | step (fuel n : ℕ)
  | outside (change : σ → σ × Bool)

def exec (loop : Loop σ ε φ) (m : Machine σ φ) : Event σ → Option (Machine σ φ)
  | .step fuel n => c.step loop fuel n m
  | .outside change =>
    some (m.call (Call.effect (ε := ε) change)).2

def run (loop : Loop σ ε φ) (m : Machine σ φ) (es : List (Event σ)) : Option (Machine σ φ) :=
  es.foldlM (c.exec loop) m

end Core

/-- A hart whose `mmu_t` has just been built: `flush_tlb` has emptied the cache. -/
def Machine.new {σ φ : Type} (hart : σ) (icache : ℕ → IcacheEntry φ) : Machine σ φ :=
  Machine.flushIcache ⟨hart, icache, []⟩

end PerceptronSoc.Icache
