import PerceptronSoc.Lib.Handshake
import PerceptronSoc.Proofs.TileRun
import PerceptronSoc.Spec.BlackBox

/-! Which messages get through. `spike_tile` hands a message out on the ready signal of one
cycle and the registers show it in the next, so it arrives if the channel is still ready
then. -/

namespace PerceptronSoc

/-- The channel has a message when `spike_tile` comes to its call. -/
def SimIf.Waiting (σ : SimIf) (i : CycleIn) : Channel → Prop
  | .icacheA =>
    let u := (σ.beforeIcacheA i).tile.icache
    u.missq ≠ [] ∧ u.sourceids ≠ []
  | .dcacheA =>
    let u := (σ.beforeDcacheA i).tile.dcache
    u.missq ≠ [] ∧ u.sourceids ≠ []
  | .dcacheC =>
    let t := (σ.beforeDcacheC i).tile
    ∃ e ∈ t.wbq.head?, e.voluntary = true → t.dcacheCSourceids ≠ []
  | .mmioA =>
    let p := (σ.beforeMmioA i).mmio
    p.valid = true ∧ p.inflight = false

namespace BlackBox

variable {b : BlackBox} {ch : Channel} {i : CycleIn} {is : List CycleIn}

def handedOut (ch : Channel) (b : BlackBox) : List CycleIn → List ch.Msg
  | [] => []
  | i :: is => ((b.sim.spikeTile i).1.on ch).toList ++ (b.step i).handedOut ch is

def transferred (ch : Channel) (b : BlackBox) : List CycleIn → List ch.Msg
  | [] => []
  | i :: is => (if i.ready ch then (b.reg.on ch).toList else []) ++ (b.step i).transferred ch is

def Steady (ch : Channel) (b : BlackBox) : List CycleIn → Prop
  | i :: j :: is =>
    (i.ready ch = true → b.sim.Waiting i ch → j.ready ch = true) ∧ (b.step i).Steady ch (j :: is)
  | _ => True

def cycles (ch : Channel) (b : BlackBox) : List CycleIn → List (Handshake.Cycle ch.Msg)
  | [] => []
  | i :: is => ⟨i.ready ch, (b.sim.spikeTile i).1.on ch⟩ :: (b.step i).cycles ch is

theorem cycles_cons (ch : Channel) (b : BlackBox) (i : CycleIn) (is : List CycleIn) :
    b.cycles ch (i :: is) =
      ⟨i.ready ch, (b.sim.spikeTile i).1.on ch⟩ :: (b.step i).cycles ch is := rfl

theorem transferred_eq (ch : Channel) (b : BlackBox) (is : List CycleIn) :
    b.transferred ch is = Handshake.transfers (b.reg.on ch) (b.cycles ch is) := by
  induction is generalizing b with
  | nil => rfl
  | cons i is ih =>
    rw [transferred, cycles_cons, Handshake.transfers, ih]
    rfl

theorem handedOut_eq (ch : Channel) (b : BlackBox) (is : List CycleIn) :
    b.handedOut ch is = Handshake.handedOut (b.cycles ch is) := by
  induction is generalizing b with
  | nil => rfl
  | cons i is ih => rw [handedOut, cycles_cons, Handshake.handedOut_cons, ih]

theorem cycles_dropLast (ch : Channel) (b : BlackBox) (is : List CycleIn) :
    b.cycles ch is.dropLast = (b.cycles ch is).dropLast := by
  induction is generalizing b with
  | nil => rfl
  | cons i is ih =>
    cases is with
    | nil => rfl
    | cons j is =>
      rw [List.dropLast_cons_cons, cycles_cons, cycles_cons, ih]
      rfl

theorem send_isSome (u : CacheUnit) : u.send.isSome = true ↔ u.missq ≠ [] ∧ u.sourceids ≠ [] := by
  unfold CacheUnit.send
  split
  · next hq hs => simp [hq, hs]
  · next hne =>
    refine iff_of_false (by simp) fun ⟨hq, hs⟩ => ?_
    obtain ⟨m, missq, hq⟩ := List.exists_cons_of_ne_nil hq
    obtain ⟨id, ids, hs⟩ := List.exists_cons_of_ne_nil hs
    exact hne m missq id ids hq hs

theorem icacheA_isSome (t : Tile) : t.icacheA.1.isSome = t.icache.send.isSome := by
  unfold Tile.icacheA
  cases t.icache.send <;> rfl

theorem dcacheA_isSome (t : Tile) : t.dcacheA.1.isSome = t.dcache.send.isSome := by
  unfold Tile.dcacheA
  cases t.dcache.send <;> rfl

theorem dcacheC_isSome (t : Tile) : t.dcacheC.1.isSome = true ↔
    ∃ e ∈ t.wbq.head?, e.voluntary = true → t.dcacheCSourceids ≠ [] := by
  unfold Tile.dcacheC
  cases t.wbq with
  | nil => simp
  | cons e wbq =>
    cases hv : e.voluntary with
    | false => simp [hv]
    | true => cases hs : t.dcacheCSourceids <;> simp [hv]

theorem handed_isSome (ch : Channel) (σ : SimIf) (i : CycleIn) :
    ((σ.spikeTile i).1.on ch).isSome = true ↔ i.ready ch = true ∧ σ.Waiting i ch := by
  have hoffer : ∀ {β : Type} (τ : SimIf) (ready : Bool) (f : SimIf → Option β × SimIf),
      (τ.offer ready f).1.isSome = true ↔ ready = true ∧ (f τ).1.isSome = true := by
    intro β τ ready f
    unfold SimIf.offer
    cases ready <;> simp
  cases ch with
  | icacheA =>
    refine (hoffer (σ.beforeIcacheA i) i.icacheAReady SimIf.icacheA).trans (and_congr_right' ?_)
    rw [SimIf.icacheA, icacheA_isSome]
    exact send_isSome _
  | dcacheA =>
    refine (hoffer (σ.beforeDcacheA i) i.dcacheAReady SimIf.dcacheA).trans (and_congr_right' ?_)
    rw [SimIf.dcacheA, dcacheA_isSome]
    exact send_isSome _
  | dcacheC =>
    refine (hoffer (σ.beforeDcacheC i) i.dcacheCReady SimIf.dcacheC).trans (and_congr_right' ?_)
    exact dcacheC_isSome _
  | mmioA =>
    refine (hoffer (σ.beforeMmioA i) i.mmioAReady SimIf.mmioA).trans (and_congr_right' ?_)
    simp only [SimIf.mmioA, MmioPort.mmioA, SimIf.Waiting]
    cases (σ.beforeMmioA i).mmio.valid <;> cases (σ.beforeMmioA i).mmio.inflight <;> simp

theorem steady_iff (ch : Channel) (b : BlackBox) (is : List CycleIn) :
    b.Steady ch is ↔ Handshake.Steady (b.cycles ch is) := by
  unfold Handshake.Steady
  induction is generalizing b with
  | nil => simp [Steady, cycles]
  | cons i is ih =>
    cases is with
    | nil => simp [Steady, cycles]
    | cons j is =>
      rw [Steady, ih, cycles_cons ch b, cycles_cons ch (b.step i), List.isChain_cons_cons,
        handed_isSome, and_imp]

/-- On every channel and for every run from a reset, the messages transferred are those
handed out up to the cycle before, each once and in order, if and only if the channel
stays ready for each of them. -/
theorem transferred_eq_handedOut_iff (sim : SimIf) (ch : Channel) (is : List CycleIn) :
    (reset sim).transferred ch is = (reset sim).handedOut ch is.dropLast ↔
      (reset sim).Steady ch is := by
  rw [transferred_eq, handedOut_eq, steady_iff, cycles_dropLast]
  have hreg : (reset sim).reg.on ch = none := by
    cases ch <;> rfl
  cases is with
  | nil => simp [cycles, Handshake.transfers, Handshake.handedOut, Handshake.Steady]
  | cons i is =>
    rw [hreg, cycles_cons]
    have h := Handshake.transfers_eq_iff none (⟨i.ready ch, ((reset sim).sim.spikeTile i).1.on ch⟩ :
      Handshake.Cycle ch.Msg) (((reset sim).step i).cycles ch is)
    simpa using h

def quietCycle (hart : List HartStep) (dcacheAReady : Bool) : CycleIn where
  hart := hart
  drain := []
  icacheAReady := false
  icacheD := none
  dcacheAReady := dcacheAReady
  dcacheB := none
  dcacheCReady := false
  dcacheD := none
  mmioAReady := false
  mmioD := none

/-- A load misses while the channel is ready; in the next cycle it is not, and the Acquire
is gone. -/
theorem acquire_is_lost :
    let b := reset ⟨Tile.new Tile.smallTile, MmioPort.new⟩
    let is := [quietCycle [.access (.load 0x80000000 8) 0] true, quietCycle [] false,
      quietCycle [] true, quietCycle [] true]
    b.handedOut .dcacheA is.dropLast = [⟨0x80000000, 0, 0, 0⟩] ∧ b.transferred .dcacheA is = [] := by
  refine ⟨?_, ?_⟩ <;> rfl

end BlackBox

end PerceptronSoc
