import PerceptronSoc.Proofs.ReleaseOrder
import PerceptronSoc.Spec.Memory

/-! Several tiles behind one coherence manager. The tiles are the ones of `spiketile.cc`;
the manager is the other side of their TileLink edges and is any that keeps the rules
below. It records the permission that each tile may have on each block, grants only what
the other records allow, waits for every answer to a Probe before it grants the block to
that tile again, and for every Grant to arrive before it probes. The four channels are
queues, and every step of a tile or of the manager can come between any two others. -/

namespace PerceptronSoc

/-- TileLink's permissions `N`, `B` and `T` on a block. -/
inductive Perm where
  | none
  | branch
  | trunk
deriving DecidableEq

def Perm.level : Perm → ℕ
  | none => 0
  | branch => 1
  | trunk => 2

theorem Perm.level_injective : Function.Injective Perm.level := by
  intro p q h
  cases p <;> cases q <;> first | rfl | cases h

instance : LinearOrder Perm := LinearOrder.lift' Perm.level Perm.level_injective

/-- A dirty line is one with permission to write. -/
def CacheState.perm : CacheState → Perm
  | .none => .none
  | .branch => .branch
  | .trunk => .trunk
  | .dirty => .trunk

/-- What `dcache_d` makes of a grant. -/
def Transfer.perm : Transfer → Perm
  | .nToB => .branch
  | .nToT => .trunk
  | .bToT => .trunk

namespace Tile

/-- The permission that the sender of a message is left with: `TtoB`, `TtoN`, `BtoN`, `TtoT`,
`BtoB`, `NtoN`. -/
def CMessage.perm (msg : CMessage) : Perm :=
  match msg.param with
  | 0 => .branch
  | 3 => .trunk
  | 4 => .branch
  | _ => .none

/-- The calls that the hart, the drain and the other channels make, as opposed to the ones
that take or send a message on B, C or, for a grant, D. -/
def Call.Own : Call → Prop
  | .dcacheB _ _ _ => False
  | .dcacheC => False
  | .dcacheD _ _ _ grantack => grantack = false
  | _ => True

instance : (c : Call) → Decidable c.Own
  | .dcacheB _ _ _ => isFalse id
  | .dcacheC => isFalse id
  | .dcacheD _ _ _ grantack => inferInstanceAs (Decidable (grantack = false))
  | .access _ _ | .mmioStore _ _ | .drainStq _ | .flushIcache | .icacheA | .icacheD _ _
  | .dcacheA => isTrue trivial

/-- `mmu_t::mmio` passes on naturally aligned powers of two only, so no store leaves its
block. -/
def Call.Fits : Call → Prop
  | .access (.store addr bytes) _ => addr % 64 + bytes.length ≤ 64
  | .mmioStore addr bytes => addr % 64 + bytes.length ≤ 64
  | _ => True

instance : (c : Call) → Decidable c.Fits
  | .access (.store addr bytes) _ => inferInstanceAs (Decidable (addr % 64 + bytes.length ≤ 64))
  | .mmioStore addr bytes => inferInstanceAs (Decidable (addr % 64 + bytes.length ≤ 64))
  | .access (.fetch _ _) _ | .access (.load _ _) _ | .drainStq _ | .flushIcache | .icacheA
  | .icacheD _ _ | .dcacheA | .dcacheB _ _ _ | .dcacheC | .dcacheD _ _ _ _ => isTrue trivial

instance (t : Tile) : (c : Call) → Decidable (t.Legal c)
  | .icacheD sourceid _ => inferInstanceAs (Decidable
      (sourceid < t.icache.nIds ∧ (t.icache.inflight sourceid).valid = true))
  | .dcacheD sourceid _ _ true => inferInstanceAs (Decidable
      (sourceid < t.dcache.nIds ∧ (t.dcache.inflight sourceid).valid = true))
  | .dcacheD sourceid _ _ false => inferInstanceAs (Decidable
      (sourceid < t.nCIds ∧ sourceid ∉ t.dcacheCSourceids))
  | .access _ _ | .mmioStore _ _ | .drainStq _ | .flushIcache | .icacheA | .dcacheA
  | .dcacheB _ _ _ | .dcacheC => isTrue trivial

/-- The store that a call completes, if it does. -/
def completes (t : Tile) : Call → List StqEntry
  | .access (.store addr bytes) rand => if (t.store addr bytes rand).1 then [⟨addr, bytes⟩] else []
  | .drainStq rand =>
    match t.stq with
    | [] => []
    | s :: _ => if (t.store s.addr s.bytes rand).1 then [s] else []
  | _ => []

end Tile

open Tile

/-- A Grant on its way, with the block's data or without. -/
structure Grant where
  source : ℕ
  data : Option Block

structure Probe where
  address : ℕ
  source : ℕ
  param : Fin 3

/-- A tile, what is on its way between it and the manager, and what the manager has
recorded about it. -/
structure Port where
  tile : Tile
  grants : List Grant
  probes : List Probe
  releases : List CMessage
  /-- The permission that the manager lets the tile have on a block. -/
  record : ℕ → Perm
  /-- The blocks of the Probes that the tile has not answered. -/
  probed : List ℕ

namespace Port

def new (cfg : TileConfig) : Port where
  tile := Tile.new cfg
  grants := []
  probes := []
  releases := []
  record _ := .none
  probed := []

/-- The block that a source id in flight asks for. -/
def wants (p : Port) (source : ℕ) : ℕ := blockOf (p.tile.dcache.inflight source).addr

/-- The voluntary Releases that the manager has not received. -/
def released (p : Port) : List Release :=
  (p.releases.filter fun msg => msg.voluntary).map fun msg => ⟨msg.source, blockOf msg.address⟩

end Port

/-- A step of one tile or of the manager towards it. -/
inductive Event where
  | call (c : Call)
  | dcacheC
  | takeProbe
  | takeGrant
  | sendProbe (probe : Probe)
  | sendGrant (source : ℕ) (perm : Perm) (withData : Bool)
  | receive

namespace Port

/-- One step; `mem` is the manager's memory. -/
def exec (p : Port) (mem : ℕ → UInt8) : Event → Port
  | .call c => { p with tile := p.tile.exec c }
  | .dcacheC =>
    { p with
      tile := p.tile.exec .dcacheC
      releases := p.releases ++ p.tile.dcacheC.1.toList }
  | .takeProbe =>
    match p.probes with
    | [] => p
    | b :: probes =>
      { p with tile := p.tile.exec (.dcacheB b.address b.source b.param), probes := probes }
  | .takeGrant =>
    match p.grants with
    | [] => p
    | g :: grants =>
      { p with
        tile := p.tile.exec (.dcacheD g.source (g.data.getD fun _ => 0) g.data.isSome true)
        grants := grants }
  | .sendProbe b =>
    { p with probes := p.probes ++ [b], probed := p.probed ++ [blockOf b.address] }
  | .sendGrant source perm withData =>
    let data := if withData then some (blockAt mem (p.tile.dcache.inflight source).addr) else none
    { p with
      grants := p.grants ++ [⟨source, data⟩]
      record := Function.update p.record (p.wants source) perm }
  | .receive =>
    match p.releases with
    | [] => p
    | msg :: releases =>
      let b := blockOf msg.address
      { p with
        releases := releases
        record := Function.update p.record b (min (p.record b) (CMessage.perm msg))
        probed := if msg.voluntary then p.probed else p.probed.erase b }

/-- What a step does to the manager's memory. -/
def memory (p : Port) (mem : ℕ → UInt8) : Event → ℕ → UInt8
  | .receive =>
    match p.releases with
    | [] => mem
    | msg :: _ => CMessage.received msg mem
  | _ => mem

/-- The store that a step completes, if it does. -/
def completes (p : Port) : Event → List StqEntry
  | .call c => p.tile.completes c
  | _ => []

end Port

structure Soc (ι : Type*) where
  port : ι → Port
  mem : ℕ → UInt8

namespace Soc

variable {ι : Type*} [DecidableEq ι]

def new (cfg : ι → TileConfig) (init : ℕ → UInt8) : Soc ι := ⟨fun i => Port.new (cfg i), init⟩

def exec (σ : Soc ι) (i : ι) (e : Event) : Soc ι where
  port := Function.update σ.port i ((σ.port i).exec σ.mem e)
  mem := (σ.port i).memory σ.mem e

/-- One tile may write a block, or any number may read it. -/
def Compatible : Perm → Perm → Prop
  | .trunk, q => q = .none
  | .branch, q => q ≠ .trunk
  | .none, _ => True

instance : (p q : Perm) → Decidable (Compatible p q)
  | .trunk, q => inferInstanceAs (Decidable (q = .none))
  | .branch, q => inferInstanceAs (Decidable (q ≠ .trunk))
  | .none, _ => isTrue trivial

/-- A tile makes its own calls, and does not miss on a block whose Release is still on its
way. The manager grants what is asked for at least, once, compatibly with the other records
and with no answer outstanding; it leaves out the data only where the tile may have it. It
does not probe while a grant of the block is on its way. -/
def Legal (σ : Soc ι) (i : ι) : Event → Prop
  | .call c => c.Own ∧ c.Fits ∧ (σ.port i).tile.Legal c ∧
      (σ.port i).tile.Patient (σ.port i).released c
  | .sendGrant source perm withData =>
    source < (σ.port i).tile.dcache.nIds ∧
    ((σ.port i).tile.dcache.inflight source).valid = true ∧
    (∀ g ∈ (σ.port i).grants, g.source ≠ source) ∧
    (σ.port i).wants source ∉ (σ.port i).probed ∧
    ((σ.port i).tile.dcache.inflight source).type.perm ≤ perm ∧
    (∀ j, j ≠ i → Compatible perm ((σ.port j).record ((σ.port i).wants source))) ∧
    (withData = false → ((σ.port i).tile.dcache.inflight source).type = .bToT ∧
      (σ.port i).record ((σ.port i).wants source) ≠ .none)
  | .sendProbe b => ∀ g ∈ (σ.port i).grants, (σ.port i).wants g.source ≠ blockOf b.address
  | _ => True

instance [Fintype ι] (σ : Soc ι) (i : ι) : (e : Event) → Decidable (σ.Legal i e)
  | .call c => inferInstanceAs (Decidable (c.Own ∧ c.Fits ∧ (σ.port i).tile.Legal c ∧
      (σ.port i).tile.Patient (σ.port i).released c))
  | .sendGrant source perm withData => inferInstanceAs (Decidable
      (source < (σ.port i).tile.dcache.nIds ∧
      ((σ.port i).tile.dcache.inflight source).valid = true ∧
      (∀ g ∈ (σ.port i).grants, g.source ≠ source) ∧
      (σ.port i).wants source ∉ (σ.port i).probed ∧
      ((σ.port i).tile.dcache.inflight source).type.perm ≤ perm ∧
      (∀ j, j ≠ i → Compatible perm ((σ.port j).record ((σ.port i).wants source))) ∧
      (withData = false → ((σ.port i).tile.dcache.inflight source).type = .bToT ∧
        (σ.port i).record ((σ.port i).wants source) ≠ .none)))
  | .sendProbe b => inferInstanceAs (Decidable
      (∀ g ∈ (σ.port i).grants, (σ.port i).wants g.source ≠ blockOf b.address))
  | .dcacheC | .takeProbe | .takeGrant | .receive => isTrue trivial

/-- Any interleaving of legal steps. -/
inductive Run (σ₀ : Soc ι) : List (ι × Event) → Soc ι → Prop
  | nil : Run σ₀ [] σ₀
  | snoc {es : List (ι × Event)} {σ : Soc ι} {i : ι} {e : Event} :
      Run σ₀ es σ → σ.Legal i e → Run σ₀ (es ++ [(i, e)]) (σ.exec i e)

/-- Every step is legal in the state it finds. -/
def AllLegal (σ : Soc ι) : List (ι × Event) → Prop
  | [] => True
  | (i, e) :: es => σ.Legal i e ∧ (σ.exec i e).AllLegal es

instance decidableAllLegal [Fintype ι] :
    (σ : Soc ι) → (es : List (ι × Event)) → Decidable (σ.AllLegal es)
  | _, [] => isTrue trivial
  | σ, (i, e) :: es =>
    have := decidableAllLegal (σ.exec i e) es
    inferInstanceAs (Decidable (σ.Legal i e ∧ (σ.exec i e).AllLegal es))

end Soc

end PerceptronSoc
