import PerceptronSoc.Lib.Clocked
import PerceptronSoc.Spec.Memory

/-! The tightly coupled memory of the tile: `tcm_a` and `tcm_d` behind its TileLink port,
the hart's own accesses to it, and the port of `SpikeTile` with the response header that
the port makes up. -/

namespace PerceptronSoc

/-- The eight bytes of a `uint64_t`, lane 0 first, as `memcpy` copies them. -/
abbrev Beat := Fin 8 → UInt8

/-- Where the TCM is. A TileLink manager is aligned to its largest transfer, here of
eight bytes. -/
structure TcmRegion extends MemRegion where
  base_aligned : base % 8 = 0
  size_aligned : size % 8 = 0
  size_pos : 0 < size

/-- `WithSpikeTCM` puts it where the external memory is by default. -/
def TcmRegion.extMem : TcmRegion where
  base := 0x80000000
  size := 0x10000000
  base_aligned := rfl
  size_aligned := rfl
  size_pos := by decide

/-- The bits of channel A. -/
structure TcmRequest where
  opcode : Fin 8
  size : ℕ
  source : ℕ
  address : ℕ
  mask : BitVec 8
  data : Beat
deriving DecidableEq

namespace TcmRequest

/-- `TLMessages.Get`, the `4` of `tcm_a`. -/
def isGet (r : TcmRequest) : Bool := r.opcode == 4

/-- The lanes of the bytes that a request is about. -/
def Lane (r : TcmRequest) (i : ℕ) : Prop :=
  r.address % 8 ≤ i ∧ i < r.address % 8 + 2 ^ r.size

/-- What TileLink promises of a request that reaches the manager: a `PutFullData`, a
`PutPartialData` or a `Get` of up to eight bytes, aligned to its size, inside the region
and with a mask that only a partial put may leave holes in. -/
structure Legal (g : TcmRegion) (r : TcmRequest) : Prop where
  opcode : r.opcode = 0 ∨ r.opcode = 1 ∨ r.opcode = 4
  size : r.size ≤ 3
  aligned : r.address % 2 ^ r.size = 0
  lower : g.base ≤ r.address
  upper : r.address + 2 ^ r.size ≤ g.base + g.size
  lane : ∀ i : Fin 8, r.mask[i] = true → r.Lane i
  full : r.opcode ≠ 1 → ∀ i : Fin 8, r.Lane i → r.mask[i] = true

end TcmRequest

/-- The memory, byte `a` being the one at `tcm + a - tcm_base`, and the queue of the
words that `tcm_a` has read. Only the bytes of the region belong to the TCM. -/
structure Tcm where
  bytes : ℕ → UInt8
  q : List Beat

namespace Tcm

def readBeat (t : Tcm) (address : ℕ) : Beat := fun i => t.bytes (address + i)

/-- One turn of the loop over the mask. -/
def writeLane (r : TcmRequest) (bytes : ℕ → UInt8) (i : Fin 8) : ℕ → UInt8 :=
  if r.mask[i] then Function.update bytes (r.address + i) (r.data i) else bytes

/-- The word is read for a put as well, before its bytes are written. -/
def tcmA (t : Tcm) (r : TcmRequest) : Tcm where
  bytes := if r.isGet then t.bytes else (List.finRange 8).foldl (writeLane r) t.bytes
  q := t.q ++ [t.readBeat r.address]

def tcmD (t : Tcm) : Option Beat × Tcm :=
  match t.q with
  | [] => (none, t)
  | d :: q => (some d, { t with q := q })

/-- `mmio_load`, and `mmio_fetch` alike, of an address in the TCM. -/
def mmioLoad (t : Tcm) (addr len : ℕ) : List UInt8 :=
  (List.range len).map fun i => t.bytes (addr + i)

/-- `mmio_store` to an address in the TCM. -/
def mmioStore (t : Tcm) (addr : ℕ) (bytes : List UInt8) : Tcm :=
  { t with bytes := fun a =>
      if addr ≤ a ∧ a < addr + bytes.length then bytes.getD (a - addr) 0 else t.bytes a }

end Tcm

/-! ### Runs -/

/-- One access to the TCM, by the port or by the hart. -/
inductive TcmCall where
  | tcmA (r : TcmRequest)
  | tcmD
  | mmioLoad (addr len : ℕ)
  | mmioStore (addr : ℕ) (bytes : List UInt8)

def Tcm.exec (t : Tcm) : TcmCall → Tcm
  | .tcmA r => t.tcmA r
  | .tcmD => t.tcmD.2
  | .mmioLoad _ _ => t
  | .mmioStore addr bytes => t.mmioStore addr bytes

namespace TcmCall

/-- The test by which `mmio_load` and `mmio_store` take the TCM's branch, with the last
byte of the access in the TCM too. -/
def HartLegal (g : TcmRegion) (addr len : ℕ) : Prop :=
  g.base ≤ addr ∧ addr < (g.base + g.size) % 2 ^ 64 ∧ addr + len ≤ g.base + g.size

def Legal (g : TcmRegion) : TcmCall → Prop
  | .tcmA r => r.Legal g
  | .tcmD => True
  | .mmioLoad addr len => HartLegal g addr len
  | .mmioStore addr bytes => HartLegal g addr bytes.length

/-- The bytes that a call copies lie in the block that `malloc(tcm_size)` returned. -/
def InBounds (g : TcmRegion) : TcmCall → Prop
  | .tcmA r => g.base ≤ r.address ∧ r.address + 8 ≤ g.base + g.size
  | .tcmD => True
  | .mmioLoad addr len => g.base ≤ addr ∧ addr + len ≤ g.base + g.size
  | .mmioStore addr bytes => g.base ≤ addr ∧ addr + bytes.length ≤ g.base + g.size

/-! ### Byte-addressed memory

What the TCM is for, in TileLink's terms: lanes are numbered from the aligned word. -/

/-- The bytes that a call is to write. -/
def patch : TcmCall → ℕ → Option UInt8
  | .tcmA r => fun a =>
    if r.isGet = false ∧ a / 8 = r.address / 8 ∧ r.mask.getLsbD (a % 8) = true then
      some (r.data ⟨a % 8, Nat.mod_lt a (by decide)⟩)
    else none
  | .mmioStore addr bytes => StqEntry.byteAt ⟨addr, bytes⟩
  | _ => fun _ => none

/-- The byte that the youngest writer of an address left there. -/
def lastWritten (init : ℕ → UInt8) (cs : List TcmCall) (a : ℕ) : UInt8 :=
  (cs.reverse.findSome? fun c => c.patch a).getD (init a)

/-- A call that reads gets the bytes of `mem`: a `Get` those of its aligned word, each in
its lane, the hart those of its access. -/
def ReadsFrom (mem : ℕ → UInt8) (t : Tcm) : TcmCall → Prop
  | .tcmA r => r.isGet = true →
      (t.tcmA r).q = t.q ++ [fun i : Fin 8 => mem (r.address / 8 * 8 + i)]
  | .mmioLoad addr len => t.mmioLoad addr len = (List.range len).map fun i => mem (addr + i)
  | _ => True

end TcmCall

/-- At each of its calls, the run stays inside the TCM, writes the bytes of the call and
no others, and reads what was written last. -/
def Tcm.IsByteMemory (g : TcmRegion) (t₀ : Tcm) (cs : List TcmCall) : Prop :=
  ∀ cs₁ c cs₂, cs = cs₁ ++ c :: cs₂ →
    c.InBounds g ∧
    ((cs₁ ++ [c]).foldl exec t₀).bytes = TcmCall.lastWritten t₀.bytes (cs₁ ++ [c]) ∧
    c.ReadsFrom (TcmCall.lastWritten t₀.bytes cs₁) (cs₁.foldl exec t₀)

/-! ### The port -/

inductive AckOpcode where
  | accessAck
  | accessAckData
deriving DecidableEq

/-- The bits of channel D that a master looks at. -/
structure TcmResponse where
  opcode : AckOpcode
  size : ℕ
  source : ℕ
  data : Beat
deriving DecidableEq

/-- `AccessAck(a)`, an `AccessAckData` for a `Get`, with the data of the black box. -/
def TcmRequest.response (r : TcmRequest) (data : Beat) : TcmResponse where
  opcode := if r.isGet then .accessAckData else .accessAck
  size := r.size
  source := r.source
  data := data

/-- The inputs of the port in one cycle, with the stores that the hart makes to the TCM
before `spike_tile` looks at the port. The bits of channel A are there also in a cycle
without a request. -/
structure TcmIn where
  aValid : Bool
  aBits : TcmRequest
  dReady : Bool
  stores : List StqEntry

/-- `__tcm_d_valid_reg` and `__tcm_d_data_reg` take at each edge what `spike_tile` leaves
in `__tcm_d_valid` and `__tcm_d_data`, so one copy stands for both. -/
structure TcmPort where
  tcm : Tcm
  dValid : Bool
  dData : Beat
  /-- `RegNext(tcm_tl.a.bits)` -/
  aReg : TcmRequest

namespace TcmPort

/-- After a reset the contents of the memory and of `RegNext` are not known. -/
def reset (bytes : ℕ → UInt8) (aReg : TcmRequest) : TcmPort := ⟨⟨bytes, []⟩, false, fun _ => 0, aReg⟩

/-- The TCM after the hart's turn. -/
def afterHart (p : TcmPort) (i : TcmIn) : Tcm :=
  i.stores.foldl (fun t s => t.mmioStore s.addr s.bytes) p.tcm

def afterA (p : TcmPort) (i : TcmIn) : Tcm :=
  if i.aValid then (p.afterHart i).tcmA i.aBits else p.afterHart i

/-- One clock edge. `spike_tile` asks `tcm_d` only when channel D is ready and leaves the
valid bit and the data as they were otherwise. -/
def step (p : TcmPort) (i : TcmIn) : TcmPort :=
  if i.dReady then
    let (d, t) := (p.afterA i).tcmD
    { tcm := t, dValid := d.isSome, dData := d.getD p.dData, aReg := i.aBits }
  else { p with tcm := p.afterA i, aReg := i.aBits }

/-- The response that the master accepts in a cycle. -/
def accepted (p : TcmPort) (i : TcmIn) : Option TcmResponse :=
  if p.dValid && i.dReady then some (p.aReg.response p.dData) else none

/-- The response to the request of a cycle: its own header and the word that `tcm_a`
reads for it. -/
def owed (p : TcmPort) (i : TcmIn) : Option TcmResponse :=
  if i.aValid then some (i.aBits.response ((p.afterHart i).readBeat i.aBits.address)) else none

/-- What one of the two logs above holds after `n` cycles. -/
def logged (f : TcmPort → TcmIn → Option TcmResponse) (p₀ : TcmPort) (ins : ℕ → TcmIn) (n : ℕ) :
    List TcmResponse :=
  (List.range n).filterMap fun k => f (Clocked.stateAt step p₀ ins k) (ins k)

/-- Each request gets its own response, once and in order: at any time the accepted
responses are the oldest of those owed, and a master that keeps coming back gets all. -/
def Answered (p₀ : TcmPort) (ins : ℕ → TcmIn) : Prop :=
  (∀ n, logged accepted p₀ ins n <+: logged owed p₀ ins n) ∧
  ((∀ n, ∃ k, n ≤ k ∧ (ins k).dReady = true) →
    ∀ n, ∃ m, logged owed p₀ ins n <+: logged accepted p₀ ins m)

end TcmPort

end PerceptronSoc
