import PerceptronSoc.Spec.Tile

/-! `spike_tile`, the call that `SpikeBlackBox` makes at every clock edge, and the
registers through which the black box shows what the call handed out. The instructions
that the hart executes in a cycle are an input: any accesses they can make. -/

namespace PerceptronSoc

/-! ### The MMIO port -/

structure MmioMessage where
  address : ℕ
  data : UInt64
  store : Bool
  size : ℕ
deriving DecidableEq

structure MmioPort where
  valid : Bool
  inflight : Bool
  addr : ℕ
  st : Bool
  stdata : UInt64
  len : ℕ
  lddata : UInt64
deriving DecidableEq

namespace MmioPort

def new : MmioPort := ⟨false, false, 0, false, 0, 0, 0⟩

/-- `handle_mmio_access` up to its wait. A load leaves the store data as it was. -/
def request (p : MmioPort) (addr len : ℕ) (store : Option UInt64) : MmioPort :=
  { p with
    valid := true
    inflight := false
    addr := addr
    st := store.isSome
    stdata := store.getD p.stdata
    len := len }

def mmioA (p : MmioPort) : Option MmioMessage × MmioPort :=
  if !p.valid || p.inflight then (none, p)
  else (some ⟨p.addr, p.stdata, p.st, p.len⟩, { p with inflight := true })

def mmioD (p : MmioPort) (data : UInt64) : MmioPort :=
  { p with
    valid := false
    inflight := false
    lddata := data >>> UInt64.ofNat (p.addr % 8 * 8) }

end MmioPort

/-! ### One cycle -/

/-- `chipyard_simif_t`: the caches and the MMIO port. -/
structure SimIf where
  tile : Tile
  mmio : MmioPort

/-- What the hart's coroutine does before it yields. -/
inductive HartStep where
  | access (a : Tile.Access) (rand : ℕ)
  | mmioStore (addr : ℕ) (bytes : List UInt8)
  | flushIcache
  | mmioAccess (addr len : ℕ) (store : Option UInt64)

/-- The inputs of the black box in one cycle, with what the hart and the drain do in
it. -/
structure CycleIn where
  hart : List HartStep
  drain : List ℕ
  icacheAReady : Bool
  icacheD : Option (ℕ × Block)
  dcacheAReady : Bool
  dcacheB : Option (ℕ × ℕ × Fin 3)
  dcacheCReady : Bool
  dcacheD : Option (ℕ × Block × Bool × Bool)
  mmioAReady : Bool
  mmioD : Option UInt64

/-- The four channels on which the black box sends. -/
inductive Channel where
  | icacheA
  | dcacheA
  | dcacheC
  | mmioA
deriving DecidableEq

def Channel.Msg : Channel → Type
  | .icacheA => ℕ × ℕ
  | .dcacheA => Tile.AMessage
  | .dcacheC => Tile.CMessage
  | .mmioA => MmioMessage

def CycleIn.ready (i : CycleIn) : Channel → Bool
  | .icacheA => i.icacheAReady
  | .dcacheA => i.dcacheAReady
  | .dcacheC => i.dcacheCReady
  | .mmioA => i.mmioAReady

/-- The message of each channel with its valid bit, as the call returns them and as the
registers hold them. -/
structure Outputs where
  icacheA : Option (ℕ × ℕ)
  dcacheA : Option Tile.AMessage
  dcacheC : Option Tile.CMessage
  mmioA : Option MmioMessage

def Outputs.none : Outputs := ⟨.none, .none, .none, .none⟩

def Outputs.on (o : Outputs) : (ch : Channel) → Option ch.Msg
  | .icacheA => o.icacheA
  | .dcacheA => o.dcacheA
  | .dcacheC => o.dcacheC
  | .mmioA => o.mmioA

namespace SimIf

def hartStep (σ : SimIf) : HartStep → SimIf
  | .access a rand => { σ with tile := (σ.tile.handleCacheAccess a rand).2 }
  | .mmioStore addr bytes => { σ with tile := σ.tile.mmioStore addr bytes }
  | .flushIcache => { σ with tile := σ.tile.flushIcache }
  | .mmioAccess addr len store => { σ with mmio := σ.mmio.request addr len store }

def drainStep (σ : SimIf) (rand : ℕ) : SimIf := { σ with tile := σ.tile.drainStq rand }

/-- A channel function is called only when the channel is ready; its valid bit is zero
otherwise. -/
def offer {β : Type} (σ : SimIf) (ready : Bool) (f : SimIf → Option β × SimIf) :
    Option β × SimIf :=
  if ready then f σ else (.none, σ)

def icacheA (σ : SimIf) : Option (ℕ × ℕ) × SimIf :=
  (σ.tile.icacheA.1, { σ with tile := σ.tile.icacheA.2 })

def dcacheA (σ : SimIf) : Option Tile.AMessage × SimIf :=
  (σ.tile.dcacheA.1, { σ with tile := σ.tile.dcacheA.2 })

def dcacheC (σ : SimIf) : Option Tile.CMessage × SimIf :=
  (σ.tile.dcacheC.1, { σ with tile := σ.tile.dcacheC.2 })

def mmioA (σ : SimIf) : Option MmioMessage × SimIf :=
  (σ.mmio.mmioA.1, { σ with mmio := σ.mmio.mmioA.2 })

/-! The body of `spike_tile` up to each of its four channel calls. -/

def beforeIcacheA (σ : SimIf) (i : CycleIn) : SimIf :=
  let σ := i.hart.foldl hartStep σ
  if σ.tile.useStq then i.drain.foldl drainStep σ else σ

def beforeDcacheA (σ : SimIf) (i : CycleIn) : SimIf :=
  let σ := ((σ.beforeIcacheA i).offer i.icacheAReady icacheA).2
  match i.icacheD with
  | some (sourceid, data) => { σ with tile := σ.tile.icacheD sourceid data }
  | .none => σ

def beforeDcacheC (σ : SimIf) (i : CycleIn) : SimIf :=
  let σ := ((σ.beforeDcacheA i).offer i.dcacheAReady dcacheA).2
  match i.dcacheB with
  | some (address, source, param) => { σ with tile := σ.tile.dcacheB address source param }
  | .none => σ

def beforeMmioA (σ : SimIf) (i : CycleIn) : SimIf :=
  let σ := ((σ.beforeDcacheC i).offer i.dcacheCReady dcacheC).2
  match i.dcacheD with
  | some (sourceid, data, hasData, grantack) =>
    { σ with tile := σ.tile.dcacheD sourceid data hasData grantack }
  | .none => σ

def spikeTile (σ : SimIf) (i : CycleIn) : Outputs × SimIf :=
  let σ' := ((σ.beforeMmioA i).offer i.mmioAReady mmioA).2
  ({ icacheA := ((σ.beforeIcacheA i).offer i.icacheAReady icacheA).1
     dcacheA := ((σ.beforeDcacheA i).offer i.dcacheAReady dcacheA).1
     dcacheC := ((σ.beforeDcacheC i).offer i.dcacheCReady dcacheC).1
     mmioA := ((σ.beforeMmioA i).offer i.mmioAReady mmioA).1 },
    match i.mmioD with
    | some data => { σ' with mmio := σ'.mmio.mmioD data }
    | .none => σ')

end SimIf

/-! ### The registers -/

/-- `SpikeBlackBox`: what `spike_tile` returned at the last edge is what the ports show. -/
structure BlackBox where
  sim : SimIf
  reg : Outputs

namespace BlackBox

/-- The state in which a reset leaves the registers. -/
def reset (sim : SimIf) : BlackBox := ⟨sim, Outputs.none⟩

def step (b : BlackBox) (i : CycleIn) : BlackBox where
  sim := (b.sim.spikeTile i).2
  reg := (b.sim.spikeTile i).1

end BlackBox

end PerceptronSoc
