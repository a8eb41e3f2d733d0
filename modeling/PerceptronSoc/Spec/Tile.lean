import Mathlib.Data.UInt
import Mathlib.Tactic
import Mathlib.Logic.Function.Basic

/-! The caches of `chipyard_simif_t`: instruction and data cache with their miss queues
and in-flight tables, the writeback queue, the store queue and the TileLink channel
functions. An address is a natural number below `2 ^ 64`; only the sums of the
store-queue scan and of the region checks can wrap, and they do so explicitly. The
random replacement way is an argument. -/

namespace PerceptronSoc

inductive Transfer where
  | nToB
  | nToT
  | bToT
deriving DecidableEq

inductive CacheState where
  | none
  | branch
  | trunk
  | dirty
deriving DecidableEq

/-- `addr >> 6` -/
def blockOf (addr : ℕ) : ℕ := addr / 64

/-- The 64 bytes of `uint64_t data[8]`. -/
abbrev Block := Fin 64 → UInt8

namespace Block

def byte (b : Block) (i : ℕ) : UInt8 := if h : i < 64 then b ⟨i, h⟩ else 0

/-- `memcpy(out, data + offset, len)`. The memory system splits what is not naturally
aligned (`mmu_t::mmio`), so an access never leaves its block. -/
def read (b : Block) (offset len : ℕ) : List UInt8 :=
  (List.range len).map fun i => b.byte (offset + i)

/-- `memcpy(data + offset, bytes, len)` -/
def write (b : Block) (offset : ℕ) (bytes : List UInt8) : Block := fun i =>
  if offset ≤ i ∧ i < offset + bytes.length then bytes.getD (i - offset) 0 else b i

end Block

structure CacheLine where
  state : CacheState
  addr : ℕ
  data : Block

structure CacheMiss where
  valid : Bool
  addr : ℕ
  way : ℕ
  type : Transfer
deriving DecidableEq

structure Writeback where
  line : CacheLine
  desired : CacheState
  sourceid : ℕ
  voluntary : Bool

/-- `len` is the length of `bytes`. -/
structure StqEntry where
  addr : ℕ
  bytes : List UInt8
deriving DecidableEq

def StqEntry.len (s : StqEntry) : ℕ := s.bytes.length

/-! ### One cache with its misses -/

/-- The members that `icache` and `dcache` have each of. `lines way set` is
`cache[way][set]`. -/
structure CacheUnit where
  ways : ℕ
  sets : ℕ
  lines : ℕ → ℕ → CacheLine
  missq : List CacheMiss
  /-- Indexed by source id, `nIds` of them. -/
  inflight : ℕ → CacheMiss
  nIds : ℕ
  sourceids : List ℕ

namespace CacheUnit

def new (ways sets nIds : ℕ) : CacheUnit where
  ways := ways
  sets := sets
  lines _ _ := ⟨.none, 0, fun _ => 0⟩
  missq := []
  inflight _ := ⟨false, 0, 0, .nToB⟩
  nIds := nIds
  sourceids := List.range nIds

/-- `SETIDX(addr)` -/
def setIdx (u : CacheUnit) (addr : ℕ) : ℕ := blockOf addr &&& (u.sets - 1)

/-- The ways the lookup loop finds. Its `assert(!cache_hit)` fails at the second. -/
def hitWays (u : CacheUnit) (addr : ℕ) : List ℕ :=
  (List.range u.ways).filter fun i =>
    let line := u.lines i (u.setIdx addr)
    blockOf line.addr == blockOf addr && line.state != .none

/-- `hit_way`, if `cache_hit`: the last one found. -/
def hitWay (u : CacheUnit) (addr : ℕ) : Option ℕ := (u.hitWays addr).getLast?

def setLine (u : CacheUnit) (way set : ℕ) (line : CacheLine) : CacheUnit :=
  { u with lines := fun w s => if w = way ∧ s = set then line else u.lines w s }

def setState (u : CacheUnit) (way set : ℕ) (state : CacheState) : CacheUnit :=
  u.setLine way set { u.lines way set with state := state }

def enqueue (u : CacheUnit) (m : CacheMiss) : CacheUnit := { u with missq := u.missq ++ [m] }

/-- The loops over `wb_q`, `missq` and `inflight` that find the block already under
way. -/
def blockBusy (u : CacheUnit) (wbq : List Writeback) (addr : ℕ) : Bool :=
  wbq.any (fun e => blockOf e.line.addr == blockOf addr) ||
  u.missq.any (fun m => blockOf m.addr == blockOf addr) ||
  (List.range u.nIds).any fun i => blockOf (u.inflight i).addr == blockOf addr && (u.inflight i).valid

/-- The two loops of `do_repl` that find a miss of the same set. -/
def setBusy (u : CacheUnit) (addr : ℕ) : Bool :=
  u.missq.any (fun m => u.setIdx m.addr == u.setIdx addr) ||
  (List.range u.nIds).any fun i => (u.inflight i).valid && u.setIdx (u.inflight i).addr == u.setIdx addr

/-- The miss path of `handle_cache_access`. `upgrade` is the hit way of a store to a
`BRANCH` line; otherwise `replWay` is emptied, and written back if it was dirty. -/
def miss (u : CacheUnit) (wbq : List Writeback) (addr : ℕ) (type : Transfer) (upgrade : Option ℕ)
    (replWay : ℕ) : CacheUnit × List Writeback :=
  let set := u.setIdx addr
  if u.blockBusy wbq addr then (u, wbq)
  else
    match upgrade with
    | some way =>
      ((u.enqueue ⟨true, addr, way, .bToT⟩).setState way set .none, wbq)
    | none =>
      if u.setBusy addr then (u, wbq)
      else
        let repl := u.lines replWay set
        ((u.enqueue ⟨true, addr, replWay, type⟩).setState replWay set .none,
          if repl.state = .dirty then wbq ++ [⟨repl, .none, 0, true⟩] else wbq)

/-- `icache_a` and the queue part of `dcache_a`: the oldest miss takes the first free
source id. -/
def send (u : CacheUnit) : Option (ℕ × CacheMiss × CacheUnit) :=
  match u.missq, u.sourceids with
  | m :: missq, id :: ids =>
    some (id, m, { u with
      inflight := Function.update u.inflight id m
      sourceids := ids
      missq := missq })
  | _, _ => none

/-- `icache_d` and the grant part of `dcache_d`. -/
def fill (u : CacheUnit) (id : ℕ) (state : CacheState) (data : Option Block) : CacheUnit :=
  let m := u.inflight id
  let set := u.setIdx m.addr
  let line := u.lines m.way set
  { u.setLine m.way set ⟨state, m.addr, data.getD line.data⟩ with
    inflight := Function.update u.inflight id { m with valid := false }
    sourceids := u.sourceids ++ [id] }

end CacheUnit

/-! ### The tile -/

structure MemRegion where
  base : ℕ
  size : ℕ

structure Tile where
  icache : CacheUnit
  dcache : CacheUnit
  wbq : List Writeback
  stq : List StqEntry
  /-- The free source ids of voluntary releases, and how many there are. -/
  dcacheCSourceids : List ℕ
  nCIds : ℕ
  useStq : Bool
  tcm : MemRegion
  cacheables : List MemRegion
  uncacheables : List MemRegion

/-- The constructor's arguments that the caches depend on. -/
structure TileConfig where
  icacheWays : ℕ
  icacheSets : ℕ
  dcacheWays : ℕ
  dcacheSets : ℕ
  icSourceids : ℕ
  dcSourceids : ℕ
  useStq : Bool
  tcm : MemRegion
  cacheables : List MemRegion
  uncacheables : List MemRegion

namespace Tile

def new (c : TileConfig) : Tile where
  icache := CacheUnit.new c.icacheWays c.icacheSets c.icSourceids
  dcache := CacheUnit.new c.dcacheWays c.dcacheSets c.dcSourceids
  wbq := []
  stq := []
  dcacheCSourceids := List.range c.dcSourceids
  nCIds := c.dcSourceids
  useStq := c.useStq
  tcm := c.tcm
  cacheables := c.cacheables
  uncacheables := c.uncacheables

/-- What the scan of the store queue decides about a load. -/
inductive Scan where
  | forward (bytes : List UInt8)
  | wait
  | pass
deriving DecidableEq

/-- The scan at the top of `handle_cache_access`, oldest store first. -/
def scanStq (addr len : ℕ) : List StqEntry → Scan
  | [] => .pass
  | s :: rest =>
    if addr = s.addr ∧ len < s.len then .forward (s.bytes.take len)
    else if addr < s.addr ∧ s.addr < (addr + len) % 2 ^ 64 then .wait
    else if s.addr < addr ∧ addr < (s.addr + s.len) % 2 ^ 64 then .wait
    else scanStq addr len rest

/-- The loop that drops the stored block from the instruction cache, in the set of the
data cache's geometry. -/
def invalidateIcache (t : Tile) (addr : ℕ) : Tile :=
  let set := t.dcache.setIdx addr
  { t with icache := { t.icache with lines := fun w s =>
      let line := t.icache.lines w s
      if w < t.icache.ways ∧ s = set ∧ blockOf line.addr = blockOf addr then
        { line with state := .none }
      else line } }

/-- A miss of the instruction cache. -/
def icacheMiss (t : Tile) (addr replWay : ℕ) : Tile :=
  let (u, wbq) := t.icache.miss t.wbq addr .nToB none replWay
  { t with icache := u, wbq := wbq }

/-- A miss of the data cache. -/
def dcacheMiss (t : Tile) (addr : ℕ) (type : Transfer) (upgrade : Option ℕ) (replWay : ℕ) : Tile :=
  let (u, wbq) := t.dcache.miss t.wbq addr type upgrade replWay
  { t with dcache := u, wbq := wbq }

/-- `handle_cache_access` for a `FETCH`. The result is what a completed access returns,
`none` when it has to be tried again. -/
def fetch (t : Tile) (addr len rand : ℕ) : Option (List UInt8) × Tile :=
  match t.icache.hitWay addr with
  | some way => (some ((t.icache.lines way (t.icache.setIdx addr)).data.read (addr % 64) len), t)
  | none => (none, t.icacheMiss addr (rand % t.icache.ways))

/-- `handle_cache_access` for a `LOAD`. -/
def load (t : Tile) (addr len rand : ℕ) : Option (List UInt8) × Tile :=
  match scanStq addr len t.stq with
  | .forward bytes => (some bytes, t)
  | .wait => (none, t)
  | .pass =>
    match t.dcache.hitWay addr with
    | some way => (some ((t.dcache.lines way (t.dcache.setIdx addr)).data.read (addr % 64) len), t)
    | none => (none, t.dcacheMiss addr .nToB none (rand % t.dcache.ways))

/-- `handle_cache_access` for a `STORE`; `true` when it completes. -/
def store (t : Tile) (addr : ℕ) (bytes : List UInt8) (rand : ℕ) : Bool × Tile :=
  let hit := t.dcache.hitWay addr
  let set := t.dcache.setIdx addr
  let t := t.invalidateIcache addr
  match hit with
  | some way =>
    let line := t.dcache.lines way set
    if line.state ≠ .branch then
      let line := { line with state := .dirty, data := line.data.write (addr % 64) bytes }
      (true, { t with dcache := t.dcache.setLine way set line })
    else (false, t.dcacheMiss addr .bToT (some way) (rand % t.dcache.ways))
  | none => (false, t.dcacheMiss addr .nToT none (rand % t.dcache.ways))

/-- The arguments of `handle_cache_access`. -/
inductive Access where
  | fetch (addr len : ℕ)
  | load (addr len : ℕ)
  | store (addr : ℕ) (bytes : List UInt8)
deriving DecidableEq

/-- What the access returned, if it completed (nothing for a store), and the new
state. -/
def handleCacheAccess (t : Tile) (a : Access) (rand : ℕ) : Option (List UInt8) × Tile :=
  match a with
  | .fetch addr len => t.fetch addr len rand
  | .load addr len => t.load addr len rand
  | .store addr bytes =>
    let (done, t) := t.store addr bytes rand
    (if done then some [] else none, t)

def flushIcache (t : Tile) : Tile :=
  { t with icache := { t.icache with lines := fun w s =>
      let line := t.icache.lines w s
      if w < t.icache.ways ∧ s < t.icache.sets then { line with state := .none } else line } }

/-! ### Channels -/

structure AMessage where
  address : ℕ
  source : ℕ
  stateOld : ℕ
  stateNew : ℕ
deriving DecidableEq

structure CMessage where
  address : ℕ
  source : ℕ
  param : ℕ
  voluntary : Bool
  hasData : Bool
  data : Block

def icacheA (t : Tile) : Option (ℕ × ℕ) × Tile :=
  match t.icache.send with
  | some (id, m, u) => (some (blockOf m.addr * 64, id), { t with icache := u })
  | none => (none, t)

def icacheD (t : Tile) (sourceid : ℕ) (data : Block) : Tile :=
  { t with icache := t.icache.fill sourceid .branch (some data) }

def dcacheA (t : Tile) : Option AMessage × Tile :=
  match t.dcache.send with
  | some (id, m, u) =>
    let (old, new) := match m.type with
      | .nToB => (0, 0)
      | .nToT => (0, 1)
      | .bToT => (1, 1)
    (some ⟨blockOf m.addr * 64, id, old, new⟩, { t with dcache := u })
  | none => (none, t)

/-- The state a probe asks for: `toT`, `toB`, `toN`. -/
def probeDesired : Fin 3 → CacheState
  | 0 => .trunk
  | 1 => .branch
  | 2 => .none

def dcacheB (t : Tile) (address source : ℕ) (param : Fin 3) : Tile :=
  let set := t.dcache.setIdx address
  let desired := probeDesired param
  match t.dcache.hitWay address with
  | none =>
    { t with wbq := t.wbq ++ [⟨⟨.none, address, fun _ => 0⟩, desired, source, false⟩] }
  | some way =>
    let line := t.dcache.lines way set
    let state := if desired = .trunk ∧ line.state = .branch then .branch else desired
    { t with
      wbq := t.wbq ++ [⟨line, desired, source, false⟩]
      dcache := t.dcache.setState way set state }

/-- The `SHRINK` table: `has_data` and `param`, by desired and old state. A desired
state is never `DIRTY`; the outputs would keep whatever they held. -/
def shrink : CacheState → CacheState → Option (Bool × ℕ)
  | .trunk, .dirty => some (true, 3)
  | .trunk, .trunk => some (false, 3)
  | .trunk, .branch => some (false, 4)
  | .trunk, .none => some (false, 5)
  | .branch, .dirty => some (true, 0)
  | .branch, .trunk => some (false, 0)
  | .branch, .branch => some (false, 4)
  | .branch, .none => some (false, 5)
  | .none, .dirty => some (true, 1)
  | .none, .trunk => some (false, 1)
  | .none, .branch => some (false, 2)
  | .none, .none => some (false, 5)
  | .dirty, _ => none

/-- The message for a queued writeback, sent under the given source id. -/
def Writeback.message (e : Writeback) (source : ℕ) : CMessage :=
  let (hasData, param) := (shrink e.desired e.line.state).getD (false, 0)
  ⟨blockOf e.line.addr * 64, source, param, e.voluntary, hasData, e.line.data⟩

def dcacheC (t : Tile) : Option CMessage × Tile :=
  match t.wbq with
  | [] => (none, t)
  | e :: wbq =>
    if e.voluntary then
      match t.dcacheCSourceids with
      | [] => (none, t)
      | id :: ids => (some (Writeback.message e id), { t with wbq := wbq, dcacheCSourceids := ids })
    else (some (Writeback.message e e.sourceid), { t with wbq := wbq })

def dcacheD (t : Tile) (sourceid : ℕ) (data : Block) (hasData grantack : Bool) : Tile :=
  if grantack then
    let state := if (t.dcache.inflight sourceid).type = .nToB then .branch else .trunk
    { t with dcache := t.dcache.fill sourceid state (if hasData then some data else none) }
  else { t with dcacheCSourceids := t.dcacheCSourceids ++ [sourceid] }

/-! ### The store queue -/

/-- `mmio_store` on a cacheable address with the store queue in use. -/
def mmioStore (t : Tile) (addr : ℕ) (bytes : List UInt8) : Tile :=
  { t with stq := t.stq ++ [⟨addr, bytes⟩] }

/-- One attempt of `drain_stq` to write its oldest store; only a completed one leaves
the queue. -/
def drainStq (t : Tile) (rand : ℕ) : Tile :=
  match t.stq with
  | [] => t
  | s :: rest =>
    match t.handleCacheAccess (.store s.addr s.bytes) rand with
    | (some _, t') => { t' with stq := rest }
    | (none, t') => t'

def inRegion (addr len : ℕ) (r : MemRegion) : Bool :=
  decide (r.base ≤ addr) && decide ((addr + len) % 2 ^ 64 ≤ (r.base + r.size) % 2 ^ 64)

def inTcm (t : Tile) (addr : ℕ) : Bool :=
  decide (t.tcm.base ≤ addr) && decide (addr < (t.tcm.base + t.tcm.size) % 2 ^ 64)

/-- `mmio_load` takes its cacheable path. -/
def loadCacheable (t : Tile) (addr len : ℕ) : Bool :=
  !t.inTcm addr && t.cacheables.any (inRegion addr len)

/-- `mmio_store` takes its cacheable path; unlike `mmio_load` it looks at the
uncacheable regions even after a cacheable one has matched. -/
def storeCacheable (t : Tile) (addr len : ℕ) : Bool :=
  !t.inTcm addr && t.cacheables.any (inRegion addr len) &&
    !t.uncacheables.any (inRegion addr len)

/-! ### Runs -/

/-- One call of a function of the tile, by the hart, the drain loop or a channel. -/
inductive Call where
  | access (a : Access) (rand : ℕ)
  | mmioStore (addr : ℕ) (bytes : List UInt8)
  | drainStq (rand : ℕ)
  | flushIcache
  | icacheA
  | icacheD (sourceid : ℕ) (data : Block)
  | dcacheA
  | dcacheB (address source : ℕ) (param : Fin 3)
  | dcacheC
  | dcacheD (sourceid : ℕ) (data : Block) (hasData grantack : Bool)

def exec (t : Tile) : Call → Tile
  | .access a rand => (t.handleCacheAccess a rand).2
  | .mmioStore addr bytes => t.mmioStore addr bytes
  | .drainStq rand => t.drainStq rand
  | .flushIcache => t.flushIcache
  | .icacheA => t.icacheA.2
  | .icacheD sourceid data => t.icacheD sourceid data
  | .dcacheA => t.dcacheA.2
  | .dcacheB address source param => t.dcacheB address source param
  | .dcacheC => t.dcacheC.2
  | .dcacheD sourceid data hasData grantack => t.dcacheD sourceid data hasData grantack

/-- The D channel answers outstanding source ids only: a grant an in-flight miss, a
release acknowledgement an id in use. -/
def Legal (t : Tile) : Call → Prop
  | .icacheD sourceid _ => sourceid < t.icache.nIds ∧ (t.icache.inflight sourceid).valid = true
  | .dcacheD sourceid _ _ true =>
    sourceid < t.dcache.nIds ∧ (t.dcache.inflight sourceid).valid = true
  | .dcacheD sourceid _ _ false => sourceid < t.nCIds ∧ sourceid ∉ t.dcacheCSourceids
  | _ => True

/-- Any interleaving of legal calls. -/
inductive Run (t₀ : Tile) : List Call → Tile → Prop
  | nil : Run t₀ [] t₀
  | snoc {cs : List Call} {t : Tile} {c : Call} :
      Run t₀ cs t → t.Legal c → Run t₀ (cs ++ [c]) (t.exec c)

end Tile

end PerceptronSoc
