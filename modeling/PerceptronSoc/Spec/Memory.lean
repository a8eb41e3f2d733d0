import PerceptronSoc.Lib.Overlay
import PerceptronSoc.Spec.Tile

/-! The tile in front of a memory that no other agent writes. The memory takes the data
of a writeback when `dcache_c` sends it, and answers a miss with its block. Stores reach
the caches through the store queue only. -/

namespace PerceptronSoc

/-- The block of an address, as memory holds it. -/
def blockAt (mem : ℕ → UInt8) (addr : ℕ) : Block := fun i => mem (blockOf addr * 64 + i)

/-- The bytes of a block, at their places in memory. -/
def Block.patch (b : Block) (addr : ℕ) : ℕ → Option UInt8 := fun a =>
  if blockOf a = blockOf addr then some (b ⟨a % 64, Nat.mod_lt a (by decide)⟩) else none

/-- The byte that a store has for an address. -/
def StqEntry.byteAt (s : StqEntry) (a : ℕ) : Option UInt8 :=
  if s.addr ≤ a then s.bytes[a - s.addr]? else none

/-- Sequential memory: the byte of the youngest store that covers the address, the
initial one where there is none. -/
def valueAt (init : ℕ → UInt8) (stores : List StqEntry) (a : ℕ) : UInt8 :=
  (stores.reverse.findSome? fun s => s.byteAt a).getD (init a)

namespace Tile

def CMessage.received (msg : CMessage) (mem : ℕ → UInt8) : ℕ → UInt8 :=
  if msg.hasData then Overlay.apply mem (msg.data.patch msg.address) else mem

/-- The stores of a run, in program order. -/
def storesOf (cs : List Call) : List StqEntry :=
  cs.filterMap fun
    | .mmioStore addr bytes => some ⟨addr, bytes⟩
    | _ => none

end Tile

structure MemSys where
  tile : Tile
  mem : ℕ → UInt8

namespace MemSys

open Tile

def new (cfg : TileConfig) (init : ℕ → UInt8) : MemSys := ⟨Tile.new cfg, init⟩

def exec (σ : MemSys) (c : Call) : MemSys where
  tile := σ.tile.exec c
  mem := match c with
    | .dcacheC =>
      match σ.tile.dcacheC.1 with
      | some msg => CMessage.received msg σ.mem
      | none => σ.mem
    | _ => σ.mem

/-- What the callers promise. `mmu_t::mmio` passes on naturally aligned powers of two
only, so no access leaves its block; a grant without data answers an upgrade. -/
def Legal (σ : MemSys) (c : Call) : Prop :=
  σ.tile.Legal c ∧
  match c with
  | .access (.load addr len) _ => σ.tile.loadCacheable addr len = true ∧ addr % 64 + len ≤ 64
  | .access (.store _ _) _ => False
  | .mmioStore addr bytes =>
    σ.tile.useStq = true ∧ σ.tile.storeCacheable addr bytes.length = true ∧ bytes.length ≤ 8 ∧
      addr % 64 + bytes.length ≤ 64
  | .dcacheD id data true true => data = blockAt σ.mem (σ.tile.dcache.inflight id).addr
  | .dcacheD id _ false true => (σ.tile.dcache.inflight id).type = .bToT
  | _ => True

/-- Any interleaving of the program's loads and stores with the drain, the refills and
the probes. -/
inductive Run (σ₀ : MemSys) : List Call → MemSys → Prop
  | nil : Run σ₀ [] σ₀
  | snoc {cs : List Call} {σ : MemSys} {c : Call} :
      Run σ₀ cs σ → σ.Legal c → Run σ₀ (cs ++ [c]) (σ.exec c)

end MemSys

end PerceptronSoc
