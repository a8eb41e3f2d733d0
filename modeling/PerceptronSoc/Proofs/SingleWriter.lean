import PerceptronSoc.Spec.Soc

/-! A tile never has more permission on a block than the manager has recorded for it, so the
manager's bookkeeping excludes a writer beside any other holder. What carries this through
every interleaving is that the answers of a tile, queued and in flight, are one queue, and
that no grant of a block is under way while an answer for it is. -/

namespace PerceptronSoc

namespace Tile

variable {t : Tile} {cfg : TileConfig} {c : Call} {d d' : CacheUnit}

/-- Source ids in flight keep their misses, and no line gains permission. -/
structure Calm (d d' : CacheUnit) : Prop where
  nIds : d'.nIds = d.nIds
  inflight : ∀ id < d.nIds, (d.inflight id).valid = true → d'.inflight id = d.inflight id
  held : ∀ w s, d'.Holds w s → d.Holds w s ∧ (d'.lines w s).addr = (d.lines w s).addr ∧
    (d'.lines w s).state.perm ≤ (d.lines w s).state.perm

theorem Calm.refl (d : CacheUnit) : Calm d d :=
  ⟨rfl, fun _ _ _ => rfl, fun _ _ h => ⟨h, rfl, le_rfl⟩⟩

theorem calm_of_fades (hf : d.Fades d')
    (hp : ∀ w s, (d'.lines w s).state.perm ≤ (d.lines w s).state.perm) : Calm d d' :=
  ⟨hf.nIds, fun id _ _ => congrFun hf.inflight id, fun w s h => ⟨hf.holds w s h, hf.addr w s, hp w s⟩⟩

theorem perm_none_le (p : Perm) : CacheState.perm .none ≤ p := by
  cases p <;> decide

theorem setLine_perm_le {way set : ℕ} {line : CacheLine}
    (hp : line.state.perm ≤ (d.lines way set).state.perm) (w s : ℕ) :
    ((d.setLine way set line).lines w s).state.perm ≤ (d.lines w s).state.perm := by
  rw [CacheUnit.setLine_lines]
  split
  · next h => rw [h.1, h.2]; exact hp
  · exact le_rfl

theorem calm_setState {way set : ℕ} {state : CacheState} (hh : state ≠ .none → d.Holds way set)
    (hp : state.perm ≤ (d.lines way set).state.perm) : Calm d (d.setState way set state) :=
  calm_of_fades (CacheUnit.setState_fades d way set hh) (setLine_perm_le hp)

/-- A line that is emptied, and a miss that joins the queue. -/
theorem calm_enqueue (d : CacheUnit) (way set : ℕ) (m : CacheMiss) :
    Calm d ((d.setState way set .none).enqueue m) := by
  have hc : Calm d (d.setState way set .none) :=
    calm_setState (fun h => absurd rfl h) (perm_none_le _)
  exact ⟨hc.nIds, hc.inflight, hc.held⟩

theorem calm_write {way set : ℕ} {data : Block} (hh : d.Holds way set)
    (hst : (d.lines way set).state ≠ .branch) :
    Calm d (d.setLine way set ⟨.dirty, (d.lines way set).addr, data⟩) := by
  refine calm_of_fades (CacheUnit.setLine_fades d way set rfl fun _ => hh) (setLine_perm_le ?_)
  cases hs : (d.lines way set).state with
  | none => exact absurd hs hh
  | branch => exact absurd hs hst
  | trunk => exact le_rfl
  | dirty => exact le_rfl

theorem calm_send (hi : d.Inv) {id : ℕ} {m : CacheMiss} (hs : d.send = some (id, m, d')) :
    Calm d d' := by
  obtain ⟨missq, ids, -, hids, hfl, -, -, -, -, hn, hlines⟩ := CacheUnit.send_cases hs
  have hpart : IdPool.Partition (id :: ids) d.slot d.nIds := hids ▸ hi.ids
  obtain ⟨-, hempty⟩ := hpart.free_empty List.mem_cons_self
  refine ⟨hn, fun id' _ hv => ?_, fun w s h => ?_⟩
  · have hne : id' ≠ id := by
      rintro rfl
      rw [CacheUnit.slot_of_valid hv] at hempty
      cases hempty
    rw [hfl, Function.update_of_ne hne]
  · unfold CacheUnit.Holds at h ⊢
    rw [hlines] at h ⊢
    exact ⟨h, rfl, le_rfl⟩

/-- Two ids in flight ask for different blocks. -/
theorem inflight_block_injective (hi : d.Inv) {id id' : ℕ} (hlt : id < d.nIds)
    (hv : (d.inflight id).valid = true) (hlt' : id' < d.nIds)
    (hv' : (d.inflight id').valid = true)
    (hb : blockOf (d.inflight id).addr = blockOf (d.inflight id').addr) : id = id' := by
  by_contra hne
  -- take the first miss out; the second is still among the rest
  have hperm := CacheUnit.fill_outstanding hlt hv .none none
  have hfl : (d.fill id .none none).inflight id' = d.inflight id' :=
    Function.update_of_ne (Ne.symm hne) _ _
  have hmem : d.inflight id' ∈ (d.fill id .none none).outstanding := by
    rw [← hfl]
    exact CacheUnit.mem_outstanding_of_valid hlt' (hfl ▸ hv')
  have hnd := (hperm.map fun m => blockOf m.addr).nodup_iff.mp hi.blocks
  rw [List.map_cons, List.nodup_cons] at hnd
  exact hnd.1 (hb ▸ List.mem_map_of_mem hmem)

/-- What a queued writeback or a message on the C channel tells the manager. -/
structure Answer where
  block : ℕ
  perm : Perm
  voluntary : Bool
  data : Option Block

def Writeback.answer (e : Writeback) : Answer :=
  ⟨blockOf e.line.addr, min e.desired.perm e.line.state.perm, e.voluntary,
    if e.line.state = .dirty then some e.line.data else none⟩

def CMessage.answer (msg : CMessage) : Answer :=
  ⟨blockOf msg.address, CMessage.perm msg, msg.voluntary,
    if msg.hasData then some msg.data else none⟩

theorem blockOf_aligned (b : ℕ) : blockOf (b * 64) = b := by
  unfold blockOf
  omega

/-- The parameters of the `SHRINK` table say what the tile is left with, and the dirty lines
are the ones sent with their data. -/
theorem message_answer {e : Writeback} (hd : e.desired ≠ .dirty) (source : ℕ) :
    CMessage.answer (Writeback.message e source) = Writeback.answer e := by
  have hperm : CMessage.perm (Writeback.message e source) =
      min e.desired.perm e.line.state.perm := by
    unfold CMessage.perm Writeback.message
    cases hdes : e.desired <;> cases hst : e.line.state <;>
      first | rfl | exact absurd hdes hd
  have hdata : (if (Writeback.message e source).hasData then
      some (Writeback.message e source).data else none) =
      if e.line.state = .dirty then some e.line.data else none := by
    unfold Writeback.message
    cases hdes : e.desired <;> cases hst : e.line.state <;>
      first | rfl | exact absurd hdes hd
  have hblock : blockOf (Writeback.message e source).address = blockOf e.line.addr := by
    simp only [Writeback.message]
    exact blockOf_aligned _
  unfold CMessage.answer Writeback.answer
  rw [hperm, hblock, hdata]
  rfl

/-- A probe leaves the tile with what its answer says. -/
theorem dcacheB_answer (hi : t.dcache.Inv) (address source : ℕ) (param : Fin 3) :
    Calm t.dcache (t.dcacheB address source param).dcache ∧
    ∃ e : Writeback, (t.dcacheB address source param).wbq = t.wbq ++ [e] ∧ e.desired ≠ .dirty ∧
      blockOf e.line.addr = blockOf address ∧ e.voluntary = false ∧
      ∀ w s, (t.dcacheB address source param).dcache.Holds w s →
        blockOf ((t.dcacheB address source param).dcache.lines w s).addr = blockOf address →
        ((t.dcacheB address source param).dcache.lines w s).state.perm ≤
          (Writeback.answer e).perm := by
  have hne := probeDesired_ne_dirty param
  unfold dcacheB
  cases hh : t.dcache.hitWay address with
  | none =>
    refine ⟨.refl _, _, rfl, hne, rfl, rfl, fun w s h hb => ?_⟩
    exact absurd hb (hi.hitWay_none hh h)
  | some way =>
    obtain ⟨-, hblk, hold⟩ := CacheUnit.hitWay_some hh
    set set := t.dcache.setIdx address with hset
    set line := t.dcache.lines way set with hline
    set desired := probeDesired param with hdes
    have hst : line.state ≠ .none := hold
    -- the new state has the permission of the answer
    have hperm : (if desired = .trunk ∧ line.state = .branch then CacheState.branch
        else desired).perm ≤ min desired.perm line.state.perm := by
      cases hd : desired <;> cases hl : line.state <;>
        first | exact absurd hl hst | exact absurd hd hne | decide
    refine ⟨calm_setState (fun _ => hold) (hperm.trans (min_le_right _ _)), _, rfl, hne, hblk, rfl,
      fun w s h hb => ?_⟩
    have hf : t.dcache.Fades (t.dcache.setState way set (if desired = .trunk ∧
        line.state = .branch then .branch else desired)) :=
      CacheUnit.setState_fades t.dcache way set fun _ => hold
    dsimp only at h hb ⊢
    rw [hf.addr] at hb
    have hwh := hf.holds w s h
    obtain rfl := hi.unique w way s set hwh hold (hb.trans hblk.symm)
    have hs : s = set := by
      rw [(hi.placed w s hwh).2, CacheUnit.setIdx_block hb]
    subst hs
    unfold CacheUnit.setState
    rw [CacheUnit.setLine_self]
    exact hperm

/-- The misses of the data cache queue nothing but their victims. -/
theorem dcacheMiss_wbq (t : Tile) (addr : ℕ) (type : Transfer) (upgrade : Option ℕ) (way : ℕ) :
    ∃ es, (t.dcacheMiss addr type upgrade way).wbq = t.wbq ++ es ∧
      ∀ e ∈ es, Writeback.voluntary e = true := by
  unfold dcacheMiss
  rcases t.dcache.miss_cases t.wbq addr type upgrade way with he | ⟨-, w, -, he⟩ | ⟨-, -, -, he⟩ <;>
    rw [he]
  · exact ⟨[], by simp⟩
  · exact ⟨[], by simp⟩
  · dsimp only
    split
    · exact ⟨_, rfl, by simp⟩
    · exact ⟨[], by simp⟩

theorem store_wbq (t : Tile) (addr : ℕ) (bytes : List UInt8) (rand : ℕ) :
    ∃ es, (t.store addr bytes rand).2.wbq = t.wbq ++ es ∧
      ∀ e ∈ es, Writeback.voluntary e = true := by
  rcases t.store_cases addr bytes rand with ⟨_, -, -, he⟩ | ⟨_, -, -, he⟩ | ⟨-, he⟩ <;> rw [he]
  · exact ⟨[], (List.append_nil _).symm, by simp⟩
  · exact dcacheMiss_wbq (t.invalidateIcache addr) _ _ _ _
  · exact dcacheMiss_wbq (t.invalidateIcache addr) _ _ _ _

theorem exec_own_wbq (hclean : t.IcacheClean) (ho : c.Own) :
    ∃ es, (t.exec c).wbq = t.wbq ++ es ∧ ∀ e ∈ es, Writeback.voluntary e = true := by
  have hsame : ∀ {q : List Writeback}, q = t.wbq →
      ∃ es, q = t.wbq ++ es ∧ ∀ e ∈ es, Writeback.voluntary e = true := fun h => ⟨[], by simpa, by simp⟩
  cases c with
  | access a rand =>
    cases a with
    | fetch addr len =>
      refine hsame ?_
      simp only [exec, handleCacheAccess, fetch]
      split
      · rfl
      · exact icacheMiss_wbq hclean addr _
    | load addr len =>
      simp only [exec, handleCacheAccess, load]
      split
      · exact hsame rfl
      · exact hsame rfl
      · split
        · exact hsame rfl
        · exact dcacheMiss_wbq t addr _ _ _
    | store addr bytes => exact store_wbq t addr bytes rand
  | drainStq rand =>
    simp only [exec]
    rcases t.drainStq_eq rand with ⟨-, he⟩ | ⟨s, rest, -, he⟩ <;> rw [he]
    · exact hsame rfl
    · exact store_wbq t s.addr s.bytes rand
  | icacheA =>
    refine hsame ?_
    simp only [exec, icacheA]
    split <;> rfl
  | dcacheA =>
    refine hsame ?_
    simp only [exec, dcacheA]
    split <;> rfl
  | dcacheB => exact absurd ho id
  | dcacheC => exact absurd ho id
  | dcacheD id data hasData grantack =>
    cases grantack with
    | false => exact hsame rfl
    | true => cases ho
  | mmioStore | flushIcache | icacheD => exact hsame rfl

theorem kind_own (ho : c.Own) (id : ℕ) (data : Option Block) : t.kind c ≠ .grant id data := by
  intro hk
  cases c with
  | access a rand =>
    cases a with
    | store addr bytes =>
      simp only [kind, storeKind] at hk
      split at hk <;> cases hk
    | fetch | load => cases hk
  | drainStq rand =>
    simp only [kind, storeKind] at hk
    split at hk
    · cases hk
    · split at hk <;> cases hk
  | dcacheD id data hasData grantack =>
    cases grantack with
    | false => cases hk
    | true => cases ho
  | mmioStore | flushIcache | icacheA | icacheD | dcacheA | dcacheB | dcacheC => cases hk

theorem Effect.calm {q q' : List Writeback} {k : Kind} (he : Effect d q d' q' k) (hi : d.Inv)
    (hk : ∀ id data, k ≠ .grant id data)
    (hv : ∃ es, q' = q ++ es ∧ ∀ e ∈ es, Writeback.voluntary e = true) : Calm d d' := by
  -- what a probe queues is no victim
  have hprobe : ∀ {e : Writeback}, e.voluntary = false → q' ≠ q ++ [e] := by
    intro e hf hq
    obtain ⟨es, hes, hall⟩ := hv
    obtain rfl := List.append_cancel_left (hes.symm.trans hq)
    rw [hall e List.mem_cons_self] at hf
    cases hf
  cases he with
  | same hd hq => exact hd ▸ .refl d
  | upgrade addr way hhit hst hb hd hq => exact hd ▸ calm_enqueue d way _ _
  | replace addr way type hhit hb hs hw ht hd hq => exact hd ▸ calm_enqueue d way _ _
  | write addr way bytes hhit hst hd hq =>
    exact hd ▸ calm_write (CacheUnit.hitWay_some hhit).2.2 hst
  | send id m hs hq => exact calm_send hi hs
  | probeMiss address source desired hne hd hq => exact absurd hq (hprobe rfl)
  | probe address source way desired state hne hhit hst hto hd hq => exact absurd hq (hprobe rfl)
  | grant id state data hlt hv' hst hd hq => exact absurd rfl (hk id data)

theorem exec_own (hi : Inv cfg t) (hw : 0 < cfg.icacheWays ∧ 0 < cfg.dcacheWays) (hl : t.Legal c)
    (ho : c.Own) :
    Calm t.dcache (t.exec c).dcache ∧
    ∃ es, (t.exec c).wbq = t.wbq ++ es ∧ ∀ e ∈ es, e.desired ≠ .dirty ∧ e.voluntary = true ∧
      (e ∈ t.wbq ∨ Gone (t.exec c).dcache (blockOf e.line.addr)) := by
  have hc : c ≠ .dcacheC := by
    rintro rfl
    exact ho
  have he := exec_effect hi.clean (hi.ways_pos hw).2 hl hc
  obtain ⟨es, hq, hv⟩ := exec_own_wbq hi.clean ho
  refine ⟨he.calm hi.dcache (kind_own ho) ⟨es, hq, hv⟩, es, hq, fun e hmem => ?_⟩
  obtain ⟨es', hq', hdes⟩ := he.appends
  obtain rfl := List.append_cancel_left (hq'.symm.trans hq)
  exact ⟨hdes e hmem, hv e hmem,
    he.victim_gone hi.dcache (hq ▸ List.mem_append_right _ hmem) (hv e hmem)⟩

/-- A patient call does not bring back what is gone. -/
theorem Gone.own {b : ℕ} {rs : List Release} (hg : Gone t.dcache b) (hi : Inv cfg t)
    (hw : 0 < cfg.icacheWays ∧ 0 < cfg.dcacheWays) (hl : t.Legal c) (hp : t.Patient rs c)
    (hb : (∃ e ∈ t.wbq, blockOf e.line.addr = b) ∨ ∃ r ∈ rs, r.block = b) :
    Gone (t.exec c).dcache b := by
  refine hg.exec hi hw hl fun addr ha hreq hab => ?_
  rcases hb with ⟨e, he, rfl⟩ | ⟨r, hr, rfl⟩
  · exact (CacheUnit.not_blockBusy hreq.1).1 e he hab.symm
  · have hmiss : t.dcache.hitWay addr = none := by
      cases hh : t.dcache.hitWay addr with
      | none => rfl
      | some way =>
        obtain ⟨-, hblk, hold⟩ := CacheUnit.hitWay_some hh
        exact absurd (hblk.trans hab) (hg.lines _ _ hold)
    rcases hp addr ha ⟨r, hr, hab.symm⟩ with hbusy | hbusy
    · rw [hreq.1] at hbusy
      cases hbusy
    · rw [hreq.2 hmiss] at hbusy
      cases hbusy

end Tile

open Tile

namespace Port

variable {p : Port} {cfg : TileConfig} {mem : ℕ → UInt8}

/-- What the tile has told the manager and the manager has not received, oldest first. -/
def answers (p : Port) : List Answer :=
  p.releases.map CMessage.answer ++ p.tile.wbq.map Writeback.answer

def answered (as : List Answer) : List ℕ := (as.filter fun a => !a.voluntary).map Answer.block

structure Inv (cfg : TileConfig) (p : Port) : Prop where
  tile : Tile.Inv cfg p.tile
  desired : ∀ e ∈ p.tile.wbq, e.desired ≠ .dirty
  held : ∀ w s, p.tile.dcache.Holds w s →
    (p.tile.dcache.lines w s).state.perm ≤ p.record (blockOf (p.tile.dcache.lines w s).addr)
  granted : ∀ g ∈ p.grants, g.source < p.tile.dcache.nIds ∧
    (p.tile.dcache.inflight g.source).valid = true ∧
    (p.tile.dcache.inflight g.source).type.perm ≤ p.record (p.wants g.source)
  once : (p.grants.map Grant.source).Nodup
  bound : ∀ a ∈ p.answers, ∀ w s, p.tile.dcache.Holds w s →
    blockOf (p.tile.dcache.lines w s).addr = a.block →
    (p.tile.dcache.lines w s).state.perm ≤ a.perm
  gone : ∀ a ∈ p.answers, a.voluntary = true → Gone p.tile.dcache a.block
  apart : ∀ g ∈ p.grants, p.wants g.source ∉ p.probed
  awaited : p.probed.Perm (p.probes.map (fun b => blockOf b.address) ++ answered p.answers)

theorem new_inv (cfg : TileConfig) : Inv cfg (Port.new cfg) where
  tile := Tile.new_inv cfg
  desired := by simp [Port.new, Tile.new]
  held := by
    intro w s h
    exact absurd rfl h
  granted := by simp [Port.new]
  once := by simp [Port.new]
  bound := by simp [answers, Port.new, Tile.new]
  gone := by simp [answers, Port.new, Tile.new]
  apart := by simp [Port.new]
  awaited := by simp [answers, answered, Port.new, Tile.new]

/-- A block that is in flight and not probed has no answer under way. -/
theorem Inv.wants_ne (hi : Inv cfg p) {source : ℕ} (hlt : source < p.tile.dcache.nIds)
    (hv : (p.tile.dcache.inflight source).valid = true) (hprobed : p.wants source ∉ p.probed)
    {a : Answer} (ha : a ∈ p.answers) : p.wants source ≠ a.block := by
  intro hb
  cases hvol : a.voluntary with
  | true =>
    exact (hi.gone a ha hvol).outstanding _ (CacheUnit.mem_outstanding_of_valid hlt hv) hb
  | false =>
    refine hprobed (hi.awaited.mem_iff.mpr (List.mem_append_right _ ?_))
    rw [hb]
    exact List.mem_map_of_mem (List.mem_filter.mpr ⟨ha, by simp [hvol]⟩)

theorem Inv.granted_ne (hi : Inv cfg p) {g : Grant} (hg : g ∈ p.grants) {a : Answer}
    (ha : a ∈ p.answers) : p.wants g.source ≠ a.block :=
  hi.wants_ne (hi.granted g hg).1 (hi.granted g hg).2.1 (hi.apart g hg) ha

theorem exec_takeProbe {b : Probe} {probes : List Probe} (h : p.probes = b :: probes) :
    p.exec mem .takeProbe =
      { p with tile := p.tile.exec (.dcacheB b.address b.source b.param), probes := probes } := by
  simp only [exec, h]

theorem exec_takeGrant {g : Grant} {grants : List Grant} (h : p.grants = g :: grants) :
    p.exec mem .takeGrant = { p with
      tile := p.tile.exec (.dcacheD g.source (g.data.getD fun _ => 0) g.data.isSome true)
      grants := grants } := by
  simp only [exec, h]

theorem exec_receive {msg : CMessage} {releases : List CMessage} (h : p.releases = msg :: releases) :
    p.exec mem .receive = { p with
      releases := releases
      record := Function.update p.record (blockOf msg.address)
        (min (p.record (blockOf msg.address)) (CMessage.perm msg))
      probed := if msg.voluntary then p.probed else p.probed.erase (blockOf msg.address) } := by
  simp only [exec, h]

/-- With nothing on its channel, a step that takes a message does nothing. -/
theorem exec_nil : (p.probes = [] → p.exec mem .takeProbe = p) ∧
    (p.grants = [] → p.exec mem .takeGrant = p) ∧ (p.releases = [] → p.exec mem .receive = p) := by
  refine ⟨fun h => ?_, fun h => ?_, fun h => ?_⟩ <;> simp only [exec, h]

theorem mem_released {a : Answer} (ha : a ∈ p.releases.map CMessage.answer)
    (hv : a.voluntary = true) : ∃ r ∈ p.released, r.block = a.block := by
  obtain ⟨msg, hmsg, rfl⟩ := List.mem_map.mp ha
  exact ⟨_, List.mem_map_of_mem (List.mem_filter.mpr ⟨hmsg, hv⟩), rfl⟩

theorem answered_voluntary {as : List Answer} (h : ∀ a ∈ as, a.voluntary = true) :
    answered as = [] := by
  unfold answered
  rw [List.map_eq_nil_iff, List.filter_eq_nil_iff]
  intro a ha
  simp [h a ha]

theorem answered_append (as as' : List Answer) :
    answered (as ++ as') = answered as ++ answered as' := by
  unfold answered
  rw [List.filter_append, List.map_append]

/-- A step of the tile that gives it no permission and only adds answers. -/
theorem Inv.calm (hi : Inv cfg p) {p' : Port} (ht : Tile.Inv cfg p'.tile)
    (hc : Calm p.tile.dcache p'.tile.dcache) (hgrants : p'.grants = p.grants)
    (hrecord : p'.record = p.record) (hprobed : p'.probed = p.probed)
    (hdes : ∀ e ∈ p'.tile.wbq, e.desired ≠ .dirty) {as : List Answer}
    (has : p'.answers = p.answers ++ as)
    (hbound : ∀ a ∈ as, ∀ w s, p'.tile.dcache.Holds w s →
      blockOf (p'.tile.dcache.lines w s).addr = a.block →
      (p'.tile.dcache.lines w s).state.perm ≤ a.perm)
    (hgone : ∀ a ∈ p'.answers, a.voluntary = true → Gone p'.tile.dcache a.block)
    (hawaited : (p.probes.map (fun b => blockOf b.address)).Perm
      (p'.probes.map (fun b => blockOf b.address) ++ answered as)) : Inv cfg p' := by
  have hsame : ∀ g ∈ p.grants, p'.tile.dcache.inflight g.source = p.tile.dcache.inflight g.source :=
    fun g hg => hc.inflight _ (hi.granted g hg).1 (hi.granted g hg).2.1
  have hwants : ∀ g ∈ p.grants, p'.wants g.source = p.wants g.source := fun g hg => by
    unfold wants
    rw [hsame g hg]
  refine ⟨ht, hdes, fun w s h => ?_, fun g hg => ?_, hgrants ▸ hi.once, fun a ha w s h hb => ?_,
    hgone, fun g hg => ?_, ?_⟩
  · obtain ⟨hold, haddr, hle⟩ := hc.held w s h
    rw [hrecord, haddr]
    exact hle.trans (hi.held w s hold)
  · rw [hgrants] at hg
    rw [hsame g hg, hwants g hg, hrecord, hc.nIds]
    exact hi.granted g hg
  · rw [has] at ha
    rcases List.mem_append.mp ha with ha | ha
    · obtain ⟨hold, haddr, hle⟩ := hc.held w s h
      exact hle.trans (hi.bound a ha w s hold (haddr ▸ hb))
    · exact hbound a ha w s h hb
  · rw [hgrants] at hg
    rw [hwants g hg, hprobed]
    exact hi.apart g hg
  · rw [hprobed, has, answered_append]
    refine hi.awaited.trans ((hawaited.append_right _).trans ?_)
    rw [List.append_assoc]
    exact List.Perm.append_left _ List.perm_append_comm

theorem Inv.call {c : Call} (hi : Inv cfg p) (hw : 0 < cfg.icacheWays ∧ 0 < cfg.dcacheWays)
    (ho : c.Own) (hl : p.tile.Legal c) (hp : p.tile.Patient p.released c) :
    Inv cfg (p.exec mem (.call c)) := by
  obtain ⟨hc, es, hq, hes⟩ := exec_own hi.tile hw hl ho
  have has : (p.exec mem (.call c)).answers = p.answers ++ es.map Writeback.answer := by
    simp only [answers, exec, hq, List.map_append, List.append_assoc]
  -- what was gone stays gone, queued or sent
  have hstay : ∀ a ∈ p.answers, a.voluntary = true → Gone (p.tile.exec c).dcache a.block := by
    intro a ha hv
    refine (hi.gone a ha hv).own hi.tile hw hl hp ?_
    rcases List.mem_append.mp ha with ha | ha
    · exact .inr (mem_released ha hv)
    · obtain ⟨e, he, rfl⟩ := List.mem_map.mp ha
      exact .inl ⟨e, he, rfl⟩
  have hnew : ∀ e ∈ es, Gone (p.tile.exec c).dcache (blockOf e.line.addr) := by
    intro e he
    obtain ⟨-, hv, hmem | hg⟩ := hes e he
    · exact hstay (Writeback.answer e) (List.mem_append_right _ (List.mem_map_of_mem hmem)) hv
    · exact hg
  refine hi.calm (hi.tile.exec hw hl) hc rfl rfl rfl (fun e he => ?_) has ?_ ?_ ?_
  · change e ∈ (p.tile.exec c).wbq at he
    rw [hq] at he
    rcases List.mem_append.mp he with he | he
    · exact hi.desired e he
    · exact (hes e he).1
  · intro a ha w s h hb
    obtain ⟨e, he, rfl⟩ := List.mem_map.mp ha
    exact absurd hb ((hnew e he).lines w s h)
  · intro a ha hv
    rw [has] at ha
    rcases List.mem_append.mp ha with ha | ha
    · exact hstay a ha hv
    · obtain ⟨e, he, rfl⟩ := List.mem_map.mp ha
      exact hnew e he
  · rw [answered_voluntary, List.append_nil]
    · rfl
    · intro a ha
      obtain ⟨e, he, rfl⟩ := List.mem_map.mp ha
      exact (hes e he).2.1

theorem answers_dcacheC (hi : Inv cfg p) (mem : ℕ → UInt8) :
    (p.exec mem .dcacheC).answers = p.answers := by
  simp only [answers, exec, Tile.exec]
  rcases p.tile.dcacheC_cases with he | ⟨e, rest, source, ids, hq, he⟩ <;> rw [he]
  · simp
  · have hd := hi.desired e (hq ▸ List.mem_cons_self)
    rw [hq, Option.toList_some, List.map_append, List.map_singleton, List.map_cons,
      message_answer hd, List.append_assoc, List.singleton_append]

theorem Inv.dcacheC (hi : Inv cfg p) (hw : 0 < cfg.icacheWays ∧ 0 < cfg.dcacheWays) :
    Inv cfg (p.exec mem .dcacheC) := by
  have has : (p.exec mem .dcacheC).answers = p.answers ++ [] :=
    (answers_dcacheC hi mem).trans (List.append_nil _).symm
  have hd : (p.exec mem .dcacheC).tile.dcache = p.tile.dcache := dcacheC_dcache p.tile
  have ht : Tile.Inv cfg (p.tile.exec .dcacheC) := hi.tile.exec hw trivial
  refine hi.calm ht (hd ▸ .refl _) rfl rfl rfl (fun e he => ?_) has (by simp) ?_
    (by simp [answered, exec])
  · refine hi.desired e ?_
    simp only [exec, Tile.exec] at he
    rcases p.tile.dcacheC_cases with hc | ⟨e', rest, source, ids, hq, hc⟩ <;> rw [hc] at he
    · exact he
    · exact hq ▸ List.mem_cons_of_mem e' he
  · rw [has, hd, List.append_nil]
    exact hi.gone

theorem Inv.takeProbe (hi : Inv cfg p) (hw : 0 < cfg.icacheWays ∧ 0 < cfg.dcacheWays) :
    Inv cfg (p.exec mem .takeProbe) := by
  cases hb : p.probes with
  | nil => exact (exec_nil.1 hb).symm ▸ hi
  | cons b probes =>
    rw [exec_takeProbe hb]
    obtain ⟨hc, e, hq, hd, hblk, hv, hle⟩ :=
      dcacheB_answer hi.tile.dcache b.address b.source b.param
    have hl : p.tile.Legal (.dcacheB b.address b.source b.param) := trivial
    set p' : Port := { p with
      tile := p.tile.exec (.dcacheB b.address b.source b.param), probes := probes } with hp'
    have has : p'.answers = p.answers ++ [Writeback.answer e] := by
      simp only [answers, hp', Tile.exec, hq, List.map_append, List.map_singleton,
        List.append_assoc]
    refine hi.calm (hi.tile.exec hw hl) hc rfl rfl rfl (fun e' he => ?_) has ?_ ?_ ?_
    · change e' ∈ (p.tile.dcacheB b.address b.source b.param).wbq at he
      rw [hq] at he
      rcases List.mem_append.mp he with he | he
      · exact hi.desired e' he
      · rw [List.mem_singleton.mp he]
        exact hd
    · intro a ha w s h hblock
      rw [List.mem_singleton.mp ha] at hblock ⊢
      exact hle w s h (hblock.trans hblk)
    · intro a ha hvol
      rw [has] at ha
      rcases List.mem_append.mp ha with ha | ha
      · exact (hi.gone a ha hvol).exec hi.tile hw hl fun addr hwant => by cases hwant
      · rw [List.mem_singleton.mp ha] at hvol
        exact absurd (hvol.symm.trans hv) (by decide)
    · have hone : answered [Writeback.answer e] = [blockOf b.address] := by
        simp [answered, Writeback.answer, hv, hblk]
      rw [hb, hone]
      exact (List.perm_append_singleton _ _).symm

theorem Inv.sendProbe (hi : Inv cfg p) {b : Probe}
    (hl : ∀ g ∈ p.grants, p.wants g.source ≠ blockOf b.address) :
    Inv cfg (p.exec mem (.sendProbe b)) := by
  refine ⟨hi.tile, hi.desired, hi.held, hi.granted, hi.once, hi.bound, hi.gone, ?_, ?_⟩
  · intro g hg hmem
    rcases List.mem_append.mp hmem with hmem | hmem
    · exact hi.apart g hg hmem
    · exact hl g hg (List.mem_singleton.mp hmem)
  · change (p.probed ++ [blockOf b.address]).Perm
      ((p.probes ++ [b]).map (fun b => blockOf b.address) ++ answered p.answers)
    rw [List.map_append, List.map_singleton, List.append_assoc]
    refine (hi.awaited.append_right _).trans ?_
    rw [List.append_assoc]
    exact List.Perm.append_left _ List.perm_append_comm

theorem Inv.receive (hi : Inv cfg p) : Inv cfg (p.exec mem .receive) := by
  cases hr : p.releases with
  | nil => exact (exec_nil.2.2 hr).symm ▸ hi
  | cons msg releases =>
    rw [exec_receive hr]
    have has : p.answers = CMessage.answer msg ::
        (releases.map CMessage.answer ++ p.tile.wbq.map Writeback.answer) := by
      simp only [answers, hr, List.map_cons, List.cons_append]
    have hhead : CMessage.answer msg ∈ p.answers := has ▸ List.mem_cons_self
    -- the record goes down to what the message says, and the tile is there already
    have hrec : ∀ {b : ℕ} {q : Perm}, q ≤ p.record b →
        (b = blockOf msg.address → q ≤ CMessage.perm msg) →
        q ≤ Function.update p.record (blockOf msg.address)
          (min (p.record (blockOf msg.address)) (CMessage.perm msg)) b := by
      intro b q hq hm
      by_cases hb : b = blockOf msg.address
      · subst hb
        rw [Function.update_self]
        exact le_min hq (hm rfl)
      · rw [Function.update_of_ne hb]
        exact hq
    refine ⟨hi.tile, hi.desired, fun w s h => ?_, fun g hg => ?_, hi.once, ?_, ?_, ?_, ?_⟩
    · exact hrec (hi.held w s h) fun hb => hi.bound _ hhead w s h hb
    · obtain ⟨hlt, hv, hle⟩ := hi.granted g hg
      exact ⟨hlt, hv, hrec hle fun hb => absurd hb (hi.granted_ne hg hhead)⟩
    · exact fun a ha => hi.bound a (has ▸ List.mem_cons_of_mem _ ha)
    · exact fun a ha => hi.gone a (has ▸ List.mem_cons_of_mem _ ha)
    · intro g hg hmem
      refine hi.apart g hg ?_
      dsimp only at hmem
      split at hmem
      · exact hmem
      · exact List.mem_of_mem_erase hmem
    · have haw := hi.awaited
      rw [has] at haw
      dsimp only
      split
      · next hv =>
        have : answered (CMessage.answer msg :: (releases.map CMessage.answer ++
            p.tile.wbq.map Writeback.answer)) = answered (releases.map CMessage.answer ++
            p.tile.wbq.map Writeback.answer) := by
          simp [answered, CMessage.answer, hv]
        rw [this] at haw
        exact haw
      · next hv =>
        have : answered (CMessage.answer msg :: (releases.map CMessage.answer ++
            p.tile.wbq.map Writeback.answer)) = blockOf msg.address ::
            answered (releases.map CMessage.answer ++ p.tile.wbq.map Writeback.answer) := by
          simp [answered, CMessage.answer, hv]
        rw [this] at haw
        have he := (haw.trans List.perm_middle).erase (blockOf msg.address)
        rw [List.erase_cons_head] at he
        exact he

/-- A grant goes out for an outstanding miss, so the tile has no line of the block, and no
answer for it is under way. -/
theorem Inv.sendGrant (hi : Inv cfg p) {source : ℕ} {perm : Perm} {withData : Bool}
    (hlt : source < p.tile.dcache.nIds) (hv : (p.tile.dcache.inflight source).valid = true)
    (hnew : ∀ g ∈ p.grants, g.source ≠ source) (hprobed : p.wants source ∉ p.probed)
    (hperm : (p.tile.dcache.inflight source).type.perm ≤ perm) :
    Inv cfg (p.exec mem (.sendGrant source perm withData)) := by
  have hout := CacheUnit.mem_outstanding_of_valid hlt hv
  -- two ids in flight ask for different blocks
  have hother : ∀ g ∈ p.grants, p.wants g.source ≠ p.wants source := by
    intro g hg hb
    obtain ⟨hlt', hv', -⟩ := hi.granted g hg
    exact hnew g hg (inflight_block_injective hi.tile.dcache hlt' hv' hlt hv hb)
  refine ⟨hi.tile, hi.desired, fun w s h => ?_, fun g hg => ?_, ?_, hi.bound, hi.gone, fun g hg => ?_,
    hi.awaited⟩
  · have hne : blockOf (p.tile.dcache.lines w s).addr ≠ p.wants source :=
      hi.tile.dcache.absent _ hout w s h
    exact (hi.held w s h).trans_eq (Function.update_of_ne hne _ _).symm
  · change _ ∧ _ ∧ _ ≤ Function.update p.record (p.wants source) perm (p.wants g.source)
    rcases List.mem_append.mp hg with hg | hg
    · rw [Function.update_of_ne (hother g hg)]
      exact hi.granted g hg
    · rw [List.mem_singleton.mp hg, Function.update_self]
      exact ⟨hlt, hv, hperm⟩
  · change ((p.grants ++ [_]).map Grant.source).Nodup
    rw [List.map_append, List.map_singleton, List.nodup_append]
    refine ⟨hi.once, List.nodup_singleton _, fun id hid id' hid' => ?_⟩
    obtain ⟨g, hg, rfl⟩ := List.mem_map.mp hid
    rw [List.mem_singleton.mp hid']
    exact hnew g hg
  · rcases List.mem_append.mp hg with hg | hg
    · exact hi.apart g hg
    · rw [List.mem_singleton.mp hg]
      exact hprobed

/-- The state that `dcache_d` gives a line has the permission its miss asked for. -/
theorem grant_perm (m : CacheMiss) :
    (if m.type = .nToB then CacheState.branch else .trunk).perm = m.type.perm := by
  cases m.type <;> rfl

theorem Inv.takeGrant (hi : Inv cfg p) (hw : 0 < cfg.icacheWays ∧ 0 < cfg.dcacheWays) :
    Inv cfg (p.exec mem .takeGrant) := by
  cases hg : p.grants with
  | nil => exact (exec_nil.2.1 hg).symm ▸ hi
  | cons g grants =>
    rw [exec_takeGrant hg]
    have hmem : g ∈ p.grants := hg ▸ List.mem_cons_self
    have hsub : ∀ g' ∈ grants, g' ∈ p.grants := fun g' h => hg ▸ List.mem_cons_of_mem g h
    obtain ⟨hlt, hv, hle⟩ := hi.granted g hmem
    have honce := hi.once
    rw [hg, List.map_cons, List.nodup_cons] at honce
    set m := p.tile.dcache.inflight g.source with hm
    set data := if g.data.isSome then some (g.data.getD fun _ => 0) else none with hdata
    set u := p.tile.dcache.fill g.source (if m.type = .nToB then .branch else .trunk) data with hu
    have hl : p.tile.Legal (.dcacheD g.source (g.data.getD fun _ => 0) g.data.isSome true) :=
      ⟨hlt, hv⟩
    -- a line is the one granted or an old one
    have hcases : ∀ w s, u.Holds w s →
        (blockOf (u.lines w s).addr = p.wants g.source ∧ (u.lines w s).state.perm = m.type.perm) ∨
        p.tile.dcache.Holds w s ∧ u.lines w s = p.tile.dcache.lines w s := by
      intro w s h
      rcases CacheUnit.fill_holds_cases h with ⟨htarget, haddr⟩ | hold
      · refine .inl ⟨congrArg blockOf haddr, ?_⟩
        rw [hu, CacheUnit.fill_lines, if_pos htarget]
        exact grant_perm m
      · exact .inr hold
    have hsame : ∀ g' ∈ grants, u.inflight g'.source = p.tile.dcache.inflight g'.source := by
      intro g' hg'
      have hne : g'.source ≠ g.source := fun he => honce.1 (he ▸ List.mem_map_of_mem hg')
      exact Function.update_of_ne hne _ _
    have hwants : ∀ g' ∈ grants, blockOf (u.inflight g'.source).addr = p.wants g'.source :=
      fun g' hg' => congrArg (fun m => blockOf m.addr) (hsame g' hg')
    refine ⟨hi.tile.exec hw hl, hi.desired, fun w s h => ?_, fun g' hg' => ?_, honce.2, fun a ha w s h hb => ?_,
      fun a ha hvol => ?_, fun g' hg' => ?_, hi.awaited⟩
    · change (u.lines w s).state.perm ≤ p.record (blockOf (u.lines w s).addr)
      rcases hcases w s h with ⟨hb, hperm⟩ | ⟨hold, he⟩
      · rw [hb, hperm]
        exact hle
      · rw [he]
        exact hi.held w s hold
    · change g'.source < p.tile.dcache.nIds ∧ (u.inflight g'.source).valid = true ∧
        (u.inflight g'.source).type.perm ≤ p.record (blockOf (u.inflight g'.source).addr)
      rw [hwants g' hg', hsame g' hg']
      exact hi.granted g' (hsub g' hg')
    · change (u.lines w s).state.perm ≤ a.perm
      rcases hcases w s h with ⟨hb', -⟩ | ⟨hold, he⟩
      · exact absurd (hb'.symm.trans hb) (hi.granted_ne hmem ha)
      · rw [he]
        refine hi.bound a ha w s hold ?_
        rw [← he]
        exact hb
    · have hgone := hi.gone a ha hvol
      refine ⟨fun m' hm' => hgone.outstanding m' ?_, fun w s h => ?_⟩
      · exact (CacheUnit.fill_outstanding hlt hv _ _).mem_iff.mpr (List.mem_cons_of_mem _ hm')
      · rcases hcases w s h with ⟨hb, -⟩ | ⟨hold, he⟩
        · exact fun hc => hi.granted_ne hmem ha (hb.symm.trans hc)
        · change blockOf (u.lines w s).addr ≠ a.block
          rw [he]
          exact hgone.lines w s hold
    · change blockOf (u.inflight g'.source).addr ∉ p.probed
      rw [hwants g' hg']
      exact hi.apart g' (hsub g' hg')

/-- Only a grant raises the record. -/
theorem record_exec_le (p : Port) (mem : ℕ → UInt8) {e : Event}
    (he : ∀ source perm withData, e ≠ .sendGrant source perm withData) (b : ℕ) :
    (p.exec mem e).record b ≤ p.record b := by
  cases e with
  | sendGrant source perm withData => exact absurd rfl (he source perm withData)
  | receive =>
    cases hr : p.releases with
    | nil => rw [exec_nil.2.2 hr]
    | cons msg releases =>
      rw [exec_receive hr]
      by_cases hb : b = blockOf msg.address
      · subst hb
        exact (Function.update_self _ _ _).trans_le (min_le_left _ _)
      · exact (Function.update_of_ne hb _ _).le
  | takeProbe =>
    cases hb : p.probes with
    | nil => rw [exec_nil.1 hb]
    | cons b probes => rw [exec_takeProbe hb]
  | takeGrant =>
    cases hg : p.grants with
    | nil => rw [exec_nil.2.1 hg]
    | cons g grants => rw [exec_takeGrant hg]
  | call | dcacheC | sendProbe => exact le_rfl

end Port

namespace Soc

variable {ι : Type*} {cfg : ι → TileConfig} {init : ℕ → UInt8} {σ : Soc ι}
  {es : List (ι × Event)} {i : ι} {e : Event}

structure Inv (cfg : ι → TileConfig) (σ : Soc ι) : Prop where
  port : ∀ i, (σ.port i).Inv (cfg i)
  exclusive : ∀ i j b, i ≠ j → (σ.port i).record b = .trunk → (σ.port j).record b = .none

theorem new_inv (cfg : ι → TileConfig) (init : ℕ → UInt8) : Inv cfg (Soc.new cfg init) :=
  ⟨fun i => Port.new_inv (cfg i), fun _ _ _ _ _ => rfl⟩

theorem trunk_of_le {p q : Perm} (h : p ≤ q) (hp : p = .trunk) : q = .trunk := by
  subst hp
  cases q <;> first | rfl | exact absurd h (by decide)

theorem none_of_le {p q : Perm} (h : p ≤ q) (hq : q = .none) : p = .none := by
  subst hq
  cases p <;> first | rfl | exact absurd h (by decide)

theorem Inv.exec_port (hi : Inv cfg σ) (hw : ∀ i, 0 < (cfg i).icacheWays ∧ 0 < (cfg i).dcacheWays)
    (hl : σ.Legal i e) : ((σ.port i).exec σ.mem e).Inv (cfg i) := by
  have hp := hi.port i
  cases e with
  | call c =>
    obtain ⟨ho, -, hl, hpat⟩ := hl
    exact hp.call (hw i) ho hl hpat
  | dcacheC => exact hp.dcacheC (hw i)
  | takeProbe => exact hp.takeProbe (hw i)
  | takeGrant => exact hp.takeGrant (hw i)
  | sendProbe b => exact hp.sendProbe hl
  | sendGrant source perm withData =>
    obtain ⟨hlt, hv, hnew, hprobed, hperm, -, -⟩ := hl
    exact hp.sendGrant hlt hv hnew hprobed hperm
  | receive => exact hp.receive

/-- A record that goes down cannot make two records incompatible. -/
theorem Inv.exclusive_le (hi : Inv cfg σ) (record : ι → ℕ → Perm)
    (hle : ∀ k b, record k b ≤ (σ.port k).record b) (k j : ι) (b : ℕ) (hkj : k ≠ j)
    (hk : record k b = .trunk) : record j b = .none :=
  none_of_le (hle j b) (hi.exclusive k j b hkj (trunk_of_le (hle k b) hk))

variable [DecidableEq ι]

theorem exec_port_self (σ : Soc ι) (i : ι) (e : Event) :
    (σ.exec i e).port i = (σ.port i).exec σ.mem e :=
  Function.update_self i _ σ.port

theorem exec_port_of_ne (σ : Soc ι) {i k : ι} (h : k ≠ i) (e : Event) :
    (σ.exec i e).port k = σ.port k :=
  Function.update_of_ne h _ σ.port

theorem Inv.exec_exclusive (hi : Inv cfg σ) (hl : σ.Legal i e) (k j : ι) (b : ℕ) (hkj : k ≠ j)
    (hk : ((σ.exec i e).port k).record b = .trunk) : ((σ.exec i e).port j).record b = .none := by
  have hother : ∀ k, k ≠ i → (σ.exec i e).port k = σ.port k := fun k h => σ.exec_port_of_ne h e
  by_cases hg : ∃ source perm withData, e = .sendGrant source perm withData
  · obtain ⟨source, perm, withData, rfl⟩ := hg
    obtain ⟨-, -, -, -, -, hcomp, -⟩ := hl
    have hrec : ∀ b, ((σ.exec i (.sendGrant source perm withData)).port i).record b =
        Function.update (σ.port i).record ((σ.port i).wants source) perm b := fun b => by
      rw [exec_port_self]
      rfl
    by_cases hb : b = (σ.port i).wants source
    · subst hb
      -- the new permission is compatible with all the others
      by_cases hki : k = i
      · subst hki
        rw [hrec, Function.update_self] at hk
        have hc := hcomp j (Ne.symm hkj)
        rw [hother j (Ne.symm hkj)]
        rw [hk] at hc
        exact hc
      · rw [hother k hki] at hk
        by_cases hji : j = i
        · subst hji
          have hc := hcomp k hki
          rw [hrec, Function.update_self]
          rw [hk] at hc
          cases perm with
          | none => rfl
          | branch => exact absurd rfl hc
          | trunk => cases hc
        · rw [hother j hji]
          exact hi.exclusive k j _ hkj hk
    · have hsame : ∀ k, ((σ.exec i (.sendGrant source perm withData)).port k).record b =
          (σ.port k).record b := by
        intro k
        by_cases hki : k = i
        · subst hki
          rw [hrec, Function.update_of_ne hb]
        · rw [hother k hki]
      rw [hsame] at hk ⊢
      exact hi.exclusive k j b hkj hk
  · push Not at hg
    refine hi.exclusive_le (fun k => ((σ.exec i e).port k).record) (fun k b => ?_) k j b hkj hk
    by_cases hki : k = i
    · subst hki
      rw [exec_port_self]
      exact Port.record_exec_le _ _ hg b
    · rw [hother k hki]

theorem Inv.exec (hi : Inv cfg σ) (hw : ∀ i, 0 < (cfg i).icacheWays ∧ 0 < (cfg i).dcacheWays)
    (hl : σ.Legal i e) : Inv cfg (σ.exec i e) := by
  refine ⟨fun k => ?_, hi.exec_exclusive hl⟩
  by_cases hki : k = i
  · subst hki
    rw [exec_port_self]
    exact hi.exec_port hw hl
  · rw [exec_port_of_ne σ hki]
    exact hi.port k

theorem run_inv (hw : ∀ i, 0 < (cfg i).icacheWays ∧ 0 < (cfg i).dcacheWays)
    (hr : Run (Soc.new cfg init) es σ) : Inv cfg σ := by
  induction hr with
  | nil => exact new_inv cfg init
  | snoc _ hl ih => exact ih.exec hw hl

theorem Run.append {σ₀ : Soc ι} {es₀ : List (ι × Event)} (hr : Run σ₀ es₀ σ) (h : σ.AllLegal es) :
    Run σ₀ (es₀ ++ es) (es.foldl (fun σ x => σ.exec x.1 x.2) σ) := by
  induction es generalizing es₀ σ with
  | nil =>
    rw [List.append_nil]
    exact hr
  | cons x es ih =>
    have hrest := ih (hr.snoc h.1) h.2
    rw [List.append_assoc] at hrest
    exact hrest

end Soc

end PerceptronSoc
