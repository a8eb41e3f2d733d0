import PerceptronSoc.Lib.IdPool
import PerceptronSoc.Spec.Tile

/-! The invariant of one cache with its misses. Replacement picks any way, and upgrades
reuse the hit way without looking at other misses of the set; the targets stay distinct
because every outstanding miss has emptied its own line. -/

namespace PerceptronSoc.CacheUnit

variable {u : CacheUnit} {m : CacheMiss} {addr w s : ℕ}

def slot (u : CacheUnit) (id : ℕ) : Option CacheMiss :=
  if (u.inflight id).valid then some (u.inflight id) else none

/-- The outstanding misses: queued, then in flight. -/
def outstanding (u : CacheUnit) : List CacheMiss := u.missq ++ IdPool.inFlight u.slot u.nIds

def target (u : CacheUnit) (m : CacheMiss) : ℕ × ℕ := (m.way, u.setIdx m.addr)

def Holds (u : CacheUnit) (w s : ℕ) : Prop := (u.lines w s).state ≠ .none

structure Inv (u : CacheUnit) : Prop where
  ids : IdPool.Partition u.sourceids u.slot u.nIds
  queued : ∀ m ∈ u.missq, m.valid = true
  placed : ∀ w s, u.Holds w s → w < u.ways ∧ s = u.setIdx (u.lines w s).addr
  unique : ∀ w w' s s', u.Holds w s → u.Holds w' s' →
    blockOf (u.lines w s).addr = blockOf (u.lines w' s').addr → w = w'
  blocks : (u.outstanding.map fun m => blockOf m.addr).Nodup
  targets : (u.outstanding.map u.target).Nodup
  wayLt : ∀ m ∈ u.outstanding, m.way < u.ways
  empty : ∀ m ∈ u.outstanding, ¬u.Holds m.way (u.setIdx m.addr)
  absent : ∀ m ∈ u.outstanding, ∀ w s, u.Holds w s →
    blockOf (u.lines w s).addr ≠ blockOf m.addr

theorem outstanding_new (ways sets nIds : ℕ) : (CacheUnit.new ways sets nIds).outstanding = [] := by
  simp [outstanding, IdPool.inFlight, slot, CacheUnit.new]

theorem new_inv (ways sets nIds : ℕ) : (CacheUnit.new ways sets nIds).Inv := by
  have hout := outstanding_new ways sets nIds
  have hbusy : IdPool.busy (CacheUnit.new ways sets nIds).slot nIds = [] := by
    simp [IdPool.busy, slot, CacheUnit.new]
  refine ⟨?_, by simp [CacheUnit.new], ?_, ?_, by simp [hout], by simp [hout], by simp [hout],
    by simp [hout], by simp [hout]⟩
  · unfold IdPool.Partition
    rw [show (CacheUnit.new ways sets nIds).nIds = nIds from rfl, hbusy, List.append_nil]
    exact List.Perm.refl _
  · intro w s h
    exact absurd rfl h
  · intro w w' s s' h
    exact absurd rfl h

theorem setIdx_congr {u u' : CacheUnit} (h : u'.sets = u.sets) (addr : ℕ) :
    u'.setIdx addr = u.setIdx addr := by
  unfold setIdx
  rw [h]

theorem setIdx_block {a b : ℕ} (h : blockOf a = blockOf b) : u.setIdx a = u.setIdx b := by
  unfold setIdx
  rw [h]

theorem mem_hitWays : w ∈ u.hitWays addr ↔
    w < u.ways ∧ blockOf (u.lines w (u.setIdx addr)).addr = blockOf addr ∧
      u.Holds w (u.setIdx addr) := by
  simp [hitWays, Holds]

theorem hitWay_some (h : u.hitWay addr = some w) :
    w < u.ways ∧ blockOf (u.lines w (u.setIdx addr)).addr = blockOf addr ∧
      u.Holds w (u.setIdx addr) :=
  mem_hitWays.mp (List.mem_of_getLast? h)

theorem Inv.hitWay_none (hi : u.Inv) (h : u.hitWay addr = none) (hh : u.Holds w s) :
    blockOf (u.lines w s).addr ≠ blockOf addr := by
  intro hb
  obtain ⟨hw, hs⟩ := hi.placed w s hh
  have hset : s = u.setIdx addr := hs.trans (setIdx_block hb)
  have hmem : w ∈ u.hitWays addr := mem_hitWays.mpr ⟨hw, hset ▸ hb, hset ▸ hh⟩
  rw [hitWay, List.getLast?_eq_none_iff] at h
  rw [h] at hmem
  cases hmem

theorem Inv.hitWays_length (hi : u.Inv) (addr : ℕ) : (u.hitWays addr).length ≤ 1 := by
  have hnd : (u.hitWays addr).Nodup := List.nodup_range.filter _
  have hall : ∀ a ∈ u.hitWays addr, ∀ b ∈ u.hitWays addr, a = b := by
    intro a ha b hb
    obtain ⟨-, hab, hah⟩ := mem_hitWays.mp ha
    obtain ⟨-, hbb, hbh⟩ := mem_hitWays.mp hb
    exact hi.unique _ _ _ _ hah hbh (hab.trans hbb.symm)
  match hl : u.hitWays addr with
  | [] => simp
  | [_] => simp
  | a :: b :: rest =>
    rw [hl] at hnd hall
    have heq : a = b := hall a (by simp) b (by simp)
    simp [heq] at hnd

/-- Lines may change their data, and their state unless it was `NONE`. -/
structure Fades (u u' : CacheUnit) : Prop where
  ways : u'.ways = u.ways
  sets : u'.sets = u.sets
  nIds : u'.nIds = u.nIds
  missq : u'.missq = u.missq
  inflight : u'.inflight = u.inflight
  sourceids : u'.sourceids = u.sourceids
  addr : ∀ w s, (u'.lines w s).addr = (u.lines w s).addr
  holds : ∀ w s, u'.Holds w s → u.Holds w s

theorem Fades.refl (u : CacheUnit) : u.Fades u :=
  ⟨rfl, rfl, rfl, rfl, rfl, rfl, fun _ _ => rfl, fun _ _ h => h⟩

theorem Fades.outstanding {u u' : CacheUnit} (hf : u.Fades u') :
    u'.outstanding = u.outstanding := by
  have hslot : u'.slot = u.slot := by
    funext id
    simp only [slot, hf.inflight]
  simp only [CacheUnit.outstanding, hslot, hf.missq, hf.nIds]

theorem Inv.fades (hi : u.Inv) {u' : CacheUnit} (hf : u.Fades u') : u'.Inv := by
  have hout := hf.outstanding
  have hset := setIdx_congr hf.sets
  refine ⟨?_, hf.missq ▸ hi.queued, ?_, ?_, hout ▸ hi.blocks, ?_, ?_, ?_, ?_⟩
  · have hslot : u'.slot = u.slot := by
      funext id
      simp only [slot, hf.inflight]
    rw [hslot, hf.sourceids, hf.nIds]
    exact hi.ids
  · intro w s h
    rw [hf.ways, hset, hf.addr]
    exact hi.placed w s (hf.holds w s h)
  · intro w w' s s' h h' hb
    rw [hf.addr, hf.addr] at hb
    exact hi.unique w w' s s' (hf.holds w s h) (hf.holds w' s' h') hb
  · have ht : u'.target = u.target := by
      funext m
      simp only [target, hset]
    rw [hout, ht]
    exact hi.targets
  · intro m hm
    rw [hf.ways]
    exact hi.wayLt m (hout ▸ hm)
  · intro m hm h
    rw [hset] at h
    exact hi.empty m (hout ▸ hm) (hf.holds _ _ h)
  · intro m hm w s h
    rw [hf.addr]
    exact hi.absent m (hout ▸ hm) w s (hf.holds w s h)

theorem setLine_lines (u : CacheUnit) (way set : ℕ) (line : CacheLine) (w s : ℕ) :
    (u.setLine way set line).lines w s = if w = way ∧ s = set then line else u.lines w s := rfl

theorem setLine_self (u : CacheUnit) (way set : ℕ) (line : CacheLine) :
    (u.setLine way set line).lines way set = line := by
  simp [setLine_lines]

theorem setLine_fades (u : CacheUnit) (way set : ℕ) {line : CacheLine}
    (ha : line.addr = (u.lines way set).addr) (hh : line.state ≠ .none → u.Holds way set) :
    u.Fades (u.setLine way set line) := by
  refine ⟨rfl, rfl, rfl, rfl, rfl, rfl, ?_, ?_⟩
  · intro w s
    rw [setLine_lines]
    split
    · next h => rw [ha, h.1, h.2]
    · rfl
  · intro w s h
    unfold Holds at h
    rw [setLine_lines] at h
    split at h
    · next he => rw [he.1, he.2]; exact hh h
    · exact h

theorem setState_fades (u : CacheUnit) (way set : ℕ) {state : CacheState}
    (hh : state ≠ .none → u.Holds way set) : u.Fades (u.setState way set state) :=
  setLine_fades u way set rfl hh

theorem setState_data (u : CacheUnit) (way set : ℕ) (state : CacheState) (w s : ℕ) :
    ((u.setState way set state).lines w s).data = (u.lines w s).data := by
  rw [setState, setLine_lines]
  split
  · next h => rw [h.1, h.2]
  · rfl

theorem holds_of_dirty (h : (u.lines w s).state = .dirty) : u.Holds w s := by
  rw [Holds, h]
  simp

theorem not_holds_cleared (u : CacheUnit) (way set : ℕ) :
    ¬(u.setState way set .none).Holds way set := by
  unfold Holds setState
  rw [setLine_self]
  simp

/-- A miss that may join the outstanding ones: its line is empty, and neither its line
nor its block is taken. -/
structure Fresh (u : CacheUnit) (m : CacheMiss) : Prop where
  valid : m.valid = true
  wayLt : m.way < u.ways
  empty : ¬u.Holds m.way (u.setIdx m.addr)
  absent : ∀ w s, u.Holds w s → blockOf (u.lines w s).addr ≠ blockOf m.addr
  block : ∀ m' ∈ u.outstanding, blockOf m'.addr ≠ blockOf m.addr
  target : ∀ m' ∈ u.outstanding, u.target m' ≠ u.target m

theorem outstanding_enqueue (u : CacheUnit) (m : CacheMiss) :
    (u.enqueue m).outstanding.Perm (m :: u.outstanding) := by
  have he : (u.enqueue m).outstanding = u.missq ++ m :: IdPool.inFlight u.slot u.nIds := by
    unfold outstanding enqueue
    rw [List.append_assoc, List.singleton_append]
    rfl
  rw [he]
  exact List.perm_middle

theorem Inv.enqueue (hi : u.Inv) (hm : u.Fresh m) : (u.enqueue m).Inv := by
  have hp := outstanding_enqueue u m
  have hmem : ∀ {m'}, m' ∈ (u.enqueue m).outstanding → m' = m ∨ m' ∈ u.outstanding := by
    intro m' h
    exact List.mem_cons.mp (hp.mem_iff.mp h)
  refine ⟨hi.ids, ?_, hi.placed, hi.unique, ?_, ?_, ?_, ?_, ?_⟩
  · intro m' h
    rcases List.mem_append.mp h with h | h
    · exact hi.queued m' h
    · rw [List.mem_singleton.mp h]
      exact hm.valid
  · rw [(hp.map _).nodup_iff, List.map_cons, List.nodup_cons]
    refine ⟨?_, hi.blocks⟩
    intro h
    obtain ⟨m', h', hb⟩ := List.mem_map.mp h
    exact hm.block m' h' hb
  · rw [(hp.map _).nodup_iff, List.map_cons, List.nodup_cons]
    refine ⟨?_, hi.targets⟩
    intro h
    obtain ⟨m', h', hb⟩ := List.mem_map.mp h
    exact hm.target m' h' hb
  · intro m' h
    rcases hmem h with rfl | h
    · exact hm.wayLt
    · exact hi.wayLt m' h
  · intro m' h
    rcases hmem h with rfl | h
    · exact hm.empty
    · exact hi.empty m' h
  · intro m' h
    rcases hmem h with rfl | h
    · exact hm.absent
    · exact hi.absent m' h

theorem mem_outstanding : m ∈ u.outstanding ↔
    m ∈ u.missq ∨ ∃ i < u.nIds, (u.inflight i).valid = true ∧ u.inflight i = m := by
  unfold outstanding
  rw [List.mem_append, IdPool.mem_inFlight]
  simp only [slot, Option.ite_none_right_eq_some, Option.some.injEq]

theorem not_blockBusy {wbq : List Writeback} (h : u.blockBusy wbq addr = false) :
    (∀ e ∈ wbq, blockOf e.line.addr ≠ blockOf addr) ∧
    ∀ m ∈ u.outstanding, blockOf m.addr ≠ blockOf addr := by
  simp only [blockBusy, Bool.or_eq_false_iff, List.any_eq_false, beq_iff_eq, List.mem_range,
    Bool.and_eq_true] at h
  obtain ⟨⟨hw, hq⟩, hf⟩ := h
  refine ⟨hw, fun m hm => ?_⟩
  rcases mem_outstanding.mp hm with hm | ⟨i, hi, hv, rfl⟩
  · exact hq m hm
  · exact fun hb => hf i hi ⟨hb, hv⟩

theorem not_setBusy (h : u.setBusy addr = false) :
    ∀ m ∈ u.outstanding, u.setIdx m.addr ≠ u.setIdx addr := by
  simp only [setBusy, Bool.or_eq_false_iff, List.any_eq_false, beq_iff_eq, List.mem_range,
    Bool.and_eq_true] at h
  obtain ⟨hq, hf⟩ := h
  intro m hm
  rcases mem_outstanding.mp hm with hm | ⟨i, hi, hv, rfl⟩
  · exact hq m hm
  · exact fun hb => hf i hi ⟨hv, hb⟩

/-- Everything the miss path can do: nothing, an upgrade in place, or a replacement
whose dirty victim goes to the queue. -/
theorem miss_cases (u : CacheUnit) (wbq : List Writeback) (addr : ℕ) (type : Transfer)
    (upgrade : Option ℕ) (replWay : ℕ) :
    u.miss wbq addr type upgrade replWay = (u, wbq) ∨
    (u.blockBusy wbq addr = false ∧ ∃ way, upgrade = some way ∧
      u.miss wbq addr type upgrade replWay =
        ((u.setState way (u.setIdx addr) .none).enqueue ⟨true, addr, way, .bToT⟩, wbq)) ∨
    (u.blockBusy wbq addr = false ∧ u.setBusy addr = false ∧ upgrade = none ∧
      u.miss wbq addr type upgrade replWay =
        ((u.setState replWay (u.setIdx addr) .none).enqueue ⟨true, addr, replWay, type⟩,
          if (u.lines replWay (u.setIdx addr)).state = .dirty then
            wbq ++ [⟨u.lines replWay (u.setIdx addr), .none, 0, true⟩] else wbq)) := by
  unfold miss
  cases hb : u.blockBusy wbq addr with
  | true => exact .inl rfl
  | false =>
    cases upgrade with
    | some way => exact .inr (.inl ⟨rfl, way, rfl, rfl⟩)
    | none =>
      cases hs : u.setBusy addr with
      | true => exact .inl rfl
      | false => exact .inr (.inr ⟨rfl, rfl, rfl, rfl⟩)

/-- An upgrade empties the line it hit, so no other miss can have it as its target. -/
theorem Inv.upgrade_fresh (hi : u.Inv) {wbq : List Writeback} (hb : u.blockBusy wbq addr = false)
    {way : ℕ} (hw : u.hitWay addr = some way) (type : Transfer) :
    (u.setState way (u.setIdx addr) .none).Fresh ⟨true, addr, way, type⟩ := by
  obtain ⟨hlt, hblk, hold⟩ := hitWay_some hw
  have hf : u.Fades (u.setState way (u.setIdx addr) .none) :=
    setState_fades u _ _ fun h => absurd rfl h
  have hout := hf.outstanding
  refine ⟨rfl, hlt, ?_, ?_, ?_, ?_⟩
  · exact not_holds_cleared u _ _
  · intro w s h hab
    rw [hf.addr] at hab
    obtain rfl : w = way := hi.unique w way s _ (hf.holds w s h) hold (hab.trans hblk.symm)
    have hs : s = u.setIdx addr := (hi.placed w s (hf.holds w s h)).2.trans (setIdx_block hab)
    subst hs
    exact not_holds_cleared u _ _ h
  · rw [hout]
    exact (not_blockBusy hb).2
  · intro m hm heq
    rw [hout] at hm
    have hmw : m.way = way := congrArg Prod.fst heq
    have hms : u.setIdx m.addr = u.setIdx addr := congrArg Prod.snd heq
    exact hi.empty m hm (by rw [hmw, hms]; exact hold)

/-- A replacement happens only when its set has no other miss. -/
theorem Inv.replace_fresh (hi : u.Inv) {wbq : List Writeback} (hb : u.blockBusy wbq addr = false)
    (hs : u.setBusy addr = false) (hw : u.hitWay addr = none) {replWay : ℕ}
    (hlt : replWay < u.ways) (type : Transfer) :
    (u.setState replWay (u.setIdx addr) .none).Fresh ⟨true, addr, replWay, type⟩ := by
  have hf : u.Fades (u.setState replWay (u.setIdx addr) .none) :=
    setState_fades u _ _ fun h => absurd rfl h
  have hout := hf.outstanding
  refine ⟨rfl, hlt, ?_, ?_, ?_, ?_⟩
  · exact not_holds_cleared u _ _
  · intro w s h
    rw [hf.addr]
    exact hi.hitWay_none hw (hf.holds w s h)
  · rw [hout]
    exact (not_blockBusy hb).2
  · intro m hm heq
    rw [hout] at hm
    exact not_setBusy hs m hm (congrArg Prod.snd heq)

theorem Inv.miss (hi : u.Inv) {wbq : List Writeback} {type : Transfer} {upgrade : Option ℕ}
    {replWay : ℕ} (hlt : replWay < u.ways) (hu : upgrade = none → u.hitWay addr = none)
    (hs : ∀ way, upgrade = some way → u.hitWay addr = some way) :
    (u.miss wbq addr type upgrade replWay).1.Inv := by
  have hfades : ∀ way, (u.setState way (u.setIdx addr) .none).Inv := fun way =>
    hi.fades (setState_fades u way _ fun h => absurd rfl h)
  rcases miss_cases u wbq addr type upgrade replWay with he | ⟨hb, way, hup, he⟩ |
    ⟨hb, hset, hup, he⟩
  · rw [he]
    exact hi
  · rw [he]
    exact (hfades way).enqueue (hi.upgrade_fresh hb (hs way hup) .bToT)
  · rw [he]
    exact (hfades replWay).enqueue (hi.replace_fresh hb hset (hu hup) hlt type)

/-- The geometry and the number of source ids, which no operation changes. -/
def shape (u : CacheUnit) : ℕ × ℕ × ℕ := (u.ways, u.sets, u.nIds)

theorem Fades.shape {u' : CacheUnit} (hf : u.Fades u') : u'.shape = u.shape := by
  simp only [CacheUnit.shape, hf.ways, hf.sets, hf.nIds]

theorem miss_shape (u : CacheUnit) (wbq : List Writeback) (addr : ℕ) (type : Transfer)
    (upgrade : Option ℕ) (replWay : ℕ) :
    (u.miss wbq addr type upgrade replWay).1.shape = u.shape := by
  rcases miss_cases u wbq addr type upgrade replWay with he | ⟨-, way, -, he⟩ | ⟨-, -, -, he⟩ <;>
    rw [he] <;> rfl

theorem slot_update {u' : CacheUnit} {id : ℕ}
    (h : u'.inflight = Function.update u.inflight id m) :
    u'.slot = Function.update u.slot id (if m.valid then some m else none) := by
  funext i
  simp only [slot, h]
  by_cases hi : i = id
  · subst hi
    simp
  · simp [Function.update_of_ne hi, slot]

/-- A request moves the oldest miss from the queue into the slot of a free id. -/
theorem send_cases {id : ℕ} {u' : CacheUnit} (h : u.send = some (id, m, u')) :
    ∃ missq ids, u.missq = m :: missq ∧ u.sourceids = id :: ids ∧
      u'.inflight = Function.update u.inflight id m ∧ u'.sourceids = ids ∧ u'.missq = missq ∧
      u'.ways = u.ways ∧ u'.sets = u.sets ∧ u'.nIds = u.nIds ∧ u'.lines = u.lines := by
  unfold send at h
  split at h
  · next m' missq id' ids hq hs =>
    simp only [Option.some.injEq, Prod.mk.injEq] at h
    obtain ⟨rfl, rfl, rfl⟩ := h
    exact ⟨missq, ids, hq, hs, rfl, rfl, rfl, rfl, rfl, rfl, rfl⟩
  · cases h

theorem send_shape {id : ℕ} {u' : CacheUnit} (h : u.send = some (id, m, u')) :
    u'.shape = u.shape := by
  obtain ⟨missq, ids, -, -, -, -, -, hways, hsets, hn, -⟩ := send_cases h
  simp only [shape, hways, hsets, hn]

theorem Inv.send (hi : u.Inv) {id : ℕ} {u' : CacheUnit} (h : u.send = some (id, m, u')) :
    u'.Inv ∧ u'.outstanding.Perm u.outstanding := by
  obtain ⟨missq, ids, hq, hs, hfl, hids', hq', hways, hsets, hn, hlines⟩ := send_cases h
  have hvalid : m.valid = true := hi.queued m (hq ▸ List.mem_cons_self)
  have hids : IdPool.Partition (id :: ids) u.slot u.nIds := hs ▸ hi.ids
  obtain ⟨hlt, hempty⟩ := hids.free_empty List.mem_cons_self
  have hslot : u'.slot = Function.update u.slot id (some m) := by
    rw [slot_update hfl, if_pos hvalid]
  have hperm : u'.outstanding.Perm u.outstanding := by
    unfold CacheUnit.outstanding
    rw [hslot, hq, hq', hn]
    exact (List.Perm.append_left missq (IdPool.inFlight_fill hlt hempty m)).trans List.perm_middle
  have hset := setIdx_congr hsets
  have hholds : ∀ w s, u'.Holds w s ↔ u.Holds w s := by
    intro w s
    rw [Holds, Holds, hlines]
  refine ⟨⟨?_, ?_, ?_, ?_, ?_, ?_, ?_, ?_, ?_⟩, hperm⟩
  · rw [hslot, hids', hn]
    exact hids.issue m
  · intro m' hm'
    exact hi.queued m' (hq ▸ List.mem_cons_of_mem m (hq' ▸ hm'))
  · intro w s hh
    rw [hways, hset, hlines]
    exact hi.placed w s ((hholds w s).mp hh)
  · intro w w' s s' hh hh'
    rw [hlines]
    exact hi.unique w w' s s' ((hholds w s).mp hh) ((hholds w' s').mp hh')
  · exact (hperm.map _).nodup_iff.mpr hi.blocks
  · have ht : u'.target = u.target := by
      funext m'
      simp only [target, hset]
    rw [ht]
    exact (hperm.map _).nodup_iff.mpr hi.targets
  · intro m' hm'
    rw [hways]
    exact hi.wayLt m' (hperm.mem_iff.mp hm')
  · intro m' hm' hh
    rw [hset] at hh
    exact hi.empty m' (hperm.mem_iff.mp hm') ((hholds _ _).mp hh)
  · intro m' hm' w s hh
    rw [hlines]
    exact hi.absent m' (hperm.mem_iff.mp hm') w s ((hholds w s).mp hh)

theorem slot_of_valid {id : ℕ} (hv : (u.inflight id).valid = true) :
    u.slot id = some (u.inflight id) := by
  simp [slot, hv]

theorem mem_outstanding_of_valid {id : ℕ} (hlt : id < u.nIds) (hv : (u.inflight id).valid = true) :
    u.inflight id ∈ u.outstanding :=
  mem_outstanding.mpr (.inr ⟨id, hlt, hv, rfl⟩)

theorem fill_lines (u : CacheUnit) (id : ℕ) (state : CacheState) (data : Option Block) (w s : ℕ) :
    (u.fill id state data).lines w s =
      if (w, s) = u.target (u.inflight id) then
        ⟨state, (u.inflight id).addr, data.getD (u.lines w s).data⟩
      else u.lines w s := by
  simp only [fill, setLine_lines, target, Prod.mk.injEq]
  split
  · next h => rw [← h.1, ← h.2]
  · rfl

/-- A line in use after a refill is the filled one, or was in use before. -/
theorem fill_holds_cases {id : ℕ} {state : CacheState} {data : Option Block} {w s : ℕ}
    (h : (u.fill id state data).Holds w s) :
    (w, s) = u.target (u.inflight id) ∧
      ((u.fill id state data).lines w s).addr = (u.inflight id).addr ∨
    u.Holds w s ∧ (u.fill id state data).lines w s = u.lines w s := by
  unfold Holds at h ⊢
  rw [fill_lines] at h ⊢
  split
  · next ht => exact .inl ⟨ht, rfl⟩
  · next ht =>
    rw [if_neg ht] at h
    exact .inr ⟨h, rfl⟩

theorem fill_slot (u : CacheUnit) (id : ℕ) (state : CacheState) (data : Option Block) :
    (u.fill id state data).slot = Function.update u.slot id none := by
  have hfl : (u.fill id state data).inflight =
      Function.update u.inflight id { u.inflight id with valid := false } := rfl
  rw [slot_update hfl]
  rfl

theorem fill_outstanding {id : ℕ} (hlt : id < u.nIds) (hv : (u.inflight id).valid = true)
    (state : CacheState) (data : Option Block) :
    u.outstanding.Perm (u.inflight id :: (u.fill id state data).outstanding) := by
  have hsid := slot_of_valid hv
  unfold outstanding
  rw [fill_slot]
  exact (List.Perm.append_left u.missq (IdPool.inFlight_clear hlt hsid)).trans List.perm_middle

/-- An answer retires its miss and brings its block into the line it had emptied. -/
theorem Inv.fill (hi : u.Inv) {id : ℕ} (hlt : id < u.nIds) (hv : (u.inflight id).valid = true)
    (state : CacheState) (data : Option Block) :
    (u.fill id state data).Inv ∧
    u.outstanding.Perm (u.inflight id :: (u.fill id state data).outstanding) := by
  have hperm := fill_outstanding hlt hv state data
  have hmem : u.inflight id ∈ u.outstanding := mem_outstanding_of_valid hlt hv
  have hrest : ∀ m' ∈ (u.fill id state data).outstanding, m' ∈ u.outstanding := fun m' hm' =>
    hperm.mem_iff.mpr (List.mem_cons_of_mem _ hm')
  have hblocks := hi.blocks
  rw [(hperm.map _).nodup_iff, List.map_cons, List.nodup_cons] at hblocks
  have htargets := hi.targets
  rw [(hperm.map _).nodup_iff, List.map_cons, List.nodup_cons] at htargets
  refine ⟨⟨?_, hi.queued, ?_, ?_, hblocks.2, htargets.2, ?_, ?_, ?_⟩, hperm⟩
  · rw [fill_slot]
    exact hi.ids.retire hlt (slot_of_valid hv)
  · intro w s h
    rcases fill_holds_cases h with ⟨ht, ha⟩ | ⟨h', he⟩
    · rw [ha]
      have hw : w = (u.inflight id).way := congrArg Prod.fst ht
      exact ⟨hw ▸ hi.wayLt _ hmem, congrArg Prod.snd ht⟩
    · rw [he]
      exact hi.placed w s h'
  · intro w w' s s' h h' hb
    rcases fill_holds_cases h with ⟨ht, ha⟩ | ⟨h1, he⟩
    · rcases fill_holds_cases h' with ⟨ht', -⟩ | ⟨h1', he'⟩
      · exact (congrArg Prod.fst ht).trans (congrArg Prod.fst ht').symm
      · rw [ha, he'] at hb
        exact absurd hb.symm (hi.absent _ hmem w' s' h1')
    · rcases fill_holds_cases h' with ⟨ht', ha'⟩ | ⟨h1', he'⟩
      · rw [he, ha'] at hb
        exact absurd hb (hi.absent _ hmem w s h1)
      · rw [he, he'] at hb
        exact hi.unique w w' s s' h1 h1' hb
  · intro m' hm'
    exact hi.wayLt m' (hrest m' hm')
  · intro m' hm' h
    rcases fill_holds_cases h with ⟨ht, -⟩ | ⟨h1, -⟩
    · exact htargets.1 (List.mem_map.mpr ⟨m', hm', ht⟩)
    · exact hi.empty m' (hrest m' hm') h1
  · intro m' hm' w s h hb
    rcases fill_holds_cases h with ⟨-, ha⟩ | ⟨h1, he⟩
    · rw [ha] at hb
      exact hblocks.1 (List.mem_map.mpr ⟨m', hm', hb.symm⟩)
    · rw [he] at hb
      exact hi.absent m' (hrest m' hm') w s h1 hb

end PerceptronSoc.CacheUnit
