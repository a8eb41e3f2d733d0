import PerceptronSoc.Proofs.StoreQueue
import PerceptronSoc.Proofs.SingleWriter

/-! The tiles and the manager's memory are one memory. Every byte has one value, what the
completed stores have made of the initial memory, and every copy that a load can hit has it.
Where the manager has recorded no writer, its memory has it too; where it has recorded one,
the memory has it once that tile's answers have arrived, unless the tile has a dirty line. -/

namespace PerceptronSoc

open Tile

variable {value mem : ℕ → UInt8} {d d' : CacheUnit} {cfg : TileConfig} {p : Port}

/-- No line changes its data. A new upgrade is for a line that was held. What is queued, at
most one writeback, holds the only line that stops being dirty. -/
structure Sheds (d d' : CacheUnit) (es : List Writeback) : Prop where
  sets : d'.sets = d.sets
  data : ∀ w s, (d'.lines w s).data = (d.lines w s).data
  outstanding : ∀ m ∈ d'.outstanding, m ∈ d.outstanding ∨
    (m.type = .bToT → d.Holds m.way (d.setIdx m.addr) ∧
      blockOf (d.lines m.way (d.setIdx m.addr)).addr = blockOf m.addr)
  one : es.length ≤ 1
  queued : ∀ e ∈ es, e.line.state = .dirty → ∃ w s, e.line = d.lines w s
  dirty : ∀ w s, (d.lines w s).state = .dirty →
    d'.lines w s = d.lines w s ∨ ∃ e ∈ es, e.line = d.lines w s

theorem Sheds.refl (d : CacheUnit) {es : List Writeback} (hone : es.length ≤ 1)
    (hclean : ∀ e ∈ es, e.line.state ≠ .dirty) : Sheds d d es :=
  ⟨rfl, fun _ _ => rfl, fun _ h => .inl h, hone, fun e he h => absurd h (hclean e he),
    fun _ _ _ => .inl rfl⟩

theorem sheds_setState (way set : ℕ) (state : CacheState) (hh : state ≠ .none → d.Holds way set)
    {es : List Writeback} (hes : (d.lines way set).state ≠ .dirty ∧ es = [] ∨
      ∃ e, es = [e] ∧ e.line = d.lines way set) :
    Sheds d (d.setState way set state) es := by
  have hf := CacheUnit.setState_fades d way set hh
  refine ⟨hf.sets, CacheUnit.setState_data d way set state, fun m hm => .inl (hf.outstanding ▸ hm),
    ?_, fun e he _ => ?_, fun w s hd => ?_⟩
  · rcases hes with ⟨-, rfl⟩ | ⟨e, rfl, -⟩ <;> simp
  · rcases hes with ⟨-, rfl⟩ | ⟨e', rfl, hline⟩
    · cases he
    · exact ⟨way, set, List.mem_singleton.mp he ▸ hline⟩
  · by_cases hws : w = way ∧ s = set
    · obtain ⟨rfl, rfl⟩ := hws
      rcases hes with ⟨hne, -⟩ | ⟨e, rfl, hline⟩
      · exact absurd hd hne
      · exact .inr ⟨e, List.mem_cons_self, hline⟩
    · left
      rw [CacheUnit.setState, CacheUnit.setLine_lines, if_neg hws]

theorem Sheds.enqueue {es : List Writeback} (hs : Sheds d d' es) {m : CacheMiss}
    (hm : m.type = .bToT → d.Holds m.way (d.setIdx m.addr) ∧
      blockOf (d.lines m.way (d.setIdx m.addr)).addr = blockOf m.addr) :
    Sheds d (d'.enqueue m) es := by
  refine ⟨hs.sets, hs.data, fun m' hm' => ?_, hs.one, hs.queued, hs.dirty⟩
  rcases List.mem_cons.mp ((CacheUnit.outstanding_enqueue d' m).mem_iff.mp hm') with rfl | hm'
  · exact .inr hm
  · exact hs.outstanding m' hm'

theorem Tile.Effect.sheds {q q' : List Writeback} {k : Kind} (he : Effect d q d' q' k) (hi : d.Inv)
    (hw : ∀ addr bytes, k ≠ .write addr bytes) (hg : ∀ id data, k ≠ .grant id data) :
    ∃ es, q' = q ++ es ∧ Sheds d d' es := by
  have hnil : Sheds d d [] := .refl d (by simp) (by simp)
  cases he with
  | same hd hq => exact ⟨[], by rw [hq, List.append_nil], hd ▸ hnil⟩
  | upgrade addr way hhit hst hb hd hq =>
    subst hd
    obtain ⟨-, hblk, hold⟩ := CacheUnit.hitWay_some hhit
    refine ⟨[], by rw [hq, List.append_nil], Sheds.enqueue (sheds_setState way _ .none
      (fun h => absurd rfl h) (.inl ⟨?_, rfl⟩)) fun _ => ⟨hold, hblk⟩⟩
    rw [hst]
    simp
  | replace addr way type hhit hb hs hw' ht hd hq =>
    subst hd
    split at hq
    · next hdirty =>
      exact ⟨_, hq, Sheds.enqueue (sheds_setState way _ .none (fun h => absurd rfl h)
        (.inr ⟨_, rfl, rfl⟩)) fun h => absurd h ht⟩
    · next hdirty =>
      exact ⟨[], by rw [hq, List.append_nil], Sheds.enqueue (sheds_setState way _ .none
        (fun h => absurd rfl h) (.inl ⟨hdirty, rfl⟩)) fun h => absurd h ht⟩
  | write addr way bytes hhit hst hd hq => exact absurd rfl (hw addr bytes)
  | send id m hs hq =>
    obtain ⟨-, hperm⟩ := hi.send hs
    obtain ⟨_, _, -, -, -, -, -, -, hsets, -, hlines⟩ := CacheUnit.send_cases hs
    exact ⟨[], by rw [hq, List.append_nil], hsets, fun w s => by rw [hlines],
      fun m' hm' => .inl (hperm.mem_iff.mp hm'), by simp, by simp, fun w s _ => .inl (by rw [hlines])⟩
  | probeMiss address source desired hne hd hq =>
    exact ⟨_, hq, hd ▸ .refl d (by simp) (by simp)⟩
  | probe address source way desired state hne hhit hst hto hd hq =>
    subst hd
    exact ⟨_, hq, sheds_setState way _ state (fun _ => (CacheUnit.hitWay_some hhit).2.2)
      (.inr ⟨_, rfl, rfl⟩)⟩
  | grant id state data hlt hv hst hd hq => exact absurd rfl (hg id data)

/-- What an answer brings to the manager's memory. -/
def Tile.Answer.patch (a : Answer) : ℕ → Option UInt8 :=
  match a.data with
  | some data => data.patch (a.block * 64)
  | none => fun _ => none

theorem Tile.Answer.patch_of_ne {a : Answer} {x : ℕ} (h : a.data ≠ none → blockOf x ≠ a.block) :
    a.patch x = none := by
  unfold Answer.patch
  cases hd : a.data with
  | none => rfl
  | some data =>
    refine if_neg ?_
    rw [blockOf_aligned]
    exact h (by simp [hd])

theorem Tile.Answer.patch_eq {a : Answer} {x : ℕ} (addr : ℕ) (hx : blockOf x = a.block)
    (hd : a.data = some (blockAt value addr)) (ha : blockOf addr = a.block) :
    a.patch x = some (value x) := by
  unfold Answer.patch
  rw [hd]
  dsimp only
  have hb : blockAt value addr = blockAt value (a.block * 64) :=
    blockAt_congr (by rw [ha, blockOf_aligned])
  rw [hb]
  exact blockAt_patch (by rw [hx, blockOf_aligned])

theorem received_eq (msg : CMessage) (mem : ℕ → UInt8) :
    CMessage.received msg mem = Overlay.apply mem (CMessage.answer msg).patch := by
  unfold CMessage.received Answer.patch CMessage.answer
  split
  · funext x
    unfold Overlay.apply Block.patch
    dsimp only
    rw [blockOf_aligned]
  · rfl

namespace Port

/-- Every copy that a load can hit, or that a grant on its way will bring, has the block's
value. Data on its way to the manager comes from the recorded writer, and nothing sent before
it gives that permission up. -/
structure Shared (value : ℕ → UInt8) (p : Port) : Prop where
  line : ∀ w s, p.tile.dcache.Holds w s →
    (p.tile.dcache.lines w s).data = blockAt value (p.tile.dcache.lines w s).addr
  upgrade : ∀ m ∈ p.tile.dcache.outstanding, m.type = .bToT → p.record (blockOf m.addr) ≠ .none →
    (∀ g ∈ p.grants, p.wants g.source ≠ blockOf m.addr) →
    (p.tile.dcache.lines m.way (p.tile.dcache.setIdx m.addr)).data = blockAt value m.addr
  grant : ∀ g ∈ p.grants, ∀ m, p.tile.dcache.inflight g.source = m →
    g.data.getD (p.tile.dcache.lines m.way (p.tile.dcache.setIdx m.addr)).data =
      blockAt value m.addr
  carried : ∀ a ∈ p.answers, a.data ≠ none → p.record a.block = .trunk
  order : p.answers.Pairwise fun a a' => a'.data ≠ none → a'.block = a.block → a.perm = .trunk

def patches (p : Port) : List (ℕ → Option UInt8) := p.answers.map Answer.patch

/-- The recorded writer of a byte has its value, in a dirty line or on the way to memory. -/
def Owns (value mem : ℕ → UInt8) (p : Port) : Prop :=
  ∀ x, p.record (blockOf x) = .trunk →
    (∀ w s, (p.tile.dcache.lines w s).state = .dirty →
      blockOf (p.tile.dcache.lines w s).addr ≠ blockOf x) →
    Overlay.applyAll mem p.patches x = value x

/-- A dirty line is the recorded writer's, and no answer under way gives it up. -/
theorem Inv.of_dirty (hi : Inv cfg p) {w s : ℕ}
    (hd : (p.tile.dcache.lines w s).state = .dirty) :
    p.record (blockOf (p.tile.dcache.lines w s).addr) = .trunk ∧
    ∀ a ∈ p.answers, blockOf (p.tile.dcache.lines w s).addr = a.block → a.perm = .trunk := by
  have hold := CacheUnit.holds_of_dirty hd
  have hperm : (p.tile.dcache.lines w s).state.perm = .trunk := by rw [hd]; rfl
  exact ⟨Soc.trunk_of_le (hi.held w s hold) hperm,
    fun a ha hb => Soc.trunk_of_le (hi.bound a ha w s hold hb) hperm⟩

section Sheds

variable {p' : Port} {es : List Writeback}

theorem Shared.sheds (hs : p.Shared value) (hi : Inv cfg p)
    (hc : Calm p.tile.dcache p'.tile.dcache) (hsh : Sheds p.tile.dcache p'.tile.dcache es)
    (hgrants : p'.grants = p.grants) (hrecord : p'.record = p.record)
    (has : p'.answers = p.answers ++ es.map Writeback.answer) : p'.Shared value := by
  have hset := CacheUnit.setIdx_congr hsh.sets
  have hsame : ∀ g ∈ p.grants, p'.tile.dcache.inflight g.source = p.tile.dcache.inflight g.source :=
    fun g hg => hc.inflight _ (hi.granted g hg).1 (hi.granted g hg).2.1
  -- data that is queued comes from a dirty line
  have hfrom : ∀ a ∈ es.map Writeback.answer, a.data ≠ none →
      ∃ w s, (p.tile.dcache.lines w s).state = .dirty ∧
        blockOf (p.tile.dcache.lines w s).addr = a.block := by
    intro a ha hdata
    obtain ⟨e, he, rfl⟩ := List.mem_map.mp ha
    have hdirty : e.line.state = .dirty := by
      by_contra hne
      exact hdata (if_neg hne)
    obtain ⟨w, s, hline⟩ := hsh.queued e he hdirty
    exact ⟨w, s, hline ▸ hdirty, congrArg (fun l => blockOf l.addr) hline.symm⟩
  refine ⟨fun w s h => ?_, fun m hm ht hrec hg => ?_, fun g hg m hm => ?_, fun a ha hdata => ?_, ?_⟩
  · obtain ⟨hold, haddr, -⟩ := hc.held w s h
    rw [hsh.data, haddr]
    exact hs.line w s hold
  · rw [hsh.data, hset]
    rw [hrecord] at hrec
    rcases hsh.outstanding m hm with hm | hnew
    · refine hs.upgrade m hm ht hrec fun g hmem => ?_
      have := hg g (hgrants ▸ hmem)
      unfold wants at this ⊢
      rwa [hsame g hmem] at this
    · obtain ⟨hold, hb⟩ := hnew ht
      rw [hs.line _ _ hold, blockAt_congr hb]
  · rw [hgrants] at hg
    rw [hsame g hg] at hm
    rw [hsh.data, hset]
    exact hs.grant g hg m hm
  · rw [hrecord]
    rw [has] at ha
    rcases List.mem_append.mp ha with ha | ha
    · exact hs.carried a ha hdata
    · obtain ⟨w, s, hd, hb⟩ := hfrom a ha hdata
      exact hb ▸ (hi.of_dirty hd).1
  · rw [has, List.pairwise_append]
    refine ⟨hs.order, ?_, fun a ha a' ha' hdata hb => ?_⟩
    · have hlen : (es.map Writeback.answer).length ≤ 1 := by
        rw [List.length_map]
        exact hsh.one
      match hes : es.map Writeback.answer with
      | [] => exact List.Pairwise.nil
      | [a] => exact List.pairwise_singleton _ a
      | a :: a' :: as => simp [hes] at hlen
    · obtain ⟨w, s, hd, hb'⟩ := hfrom a' ha' hdata
      exact (hi.of_dirty hd).2 a ha (hb'.trans hb)

theorem Owns.sheds (ho : p.Owns value mem) (hs : p.Shared value)
    (hsh : Sheds p.tile.dcache p'.tile.dcache es)
    (hrecord : p'.record = p.record) (has : p'.answers = p.answers ++ es.map Writeback.answer) :
    p'.Owns value mem := by
  intro x hrec hclean
  rw [hrecord] at hrec
  unfold patches
  rw [has, List.map_append, Overlay.applyAll_append]
  by_cases hdirty : ∃ w s, (p.tile.dcache.lines w s).state = .dirty ∧
      blockOf (p.tile.dcache.lines w s).addr = blockOf x
  · -- the dirty line is the one that has been queued
    obtain ⟨w, s, hd, hb⟩ := hdirty
    rcases hsh.dirty w s hd with he | ⟨e, he, hline⟩
    · refine absurd ?_ (hclean w s ?_)
      · rw [he]
        exact hb
      · rw [he]
        exact hd
    · obtain rfl : es = [e] := by
        match es, hsh.one, he with
        | [e'], _, he => rw [List.mem_singleton.mp he]
      refine Overlay.apply_some (Answer.patch_eq (p.tile.dcache.lines w s).addr ?_ ?_ ?_)
      · rw [← hb, ← hline]
        rfl
      · rw [← hs.line w s (CacheUnit.holds_of_dirty hd), ← hline]
        exact if_pos (hline ▸ hd)
      · rw [← hline]
        rfl
  · rw [Overlay.applyAll_none]
    · exact ho x hrec fun w s hd hb => hdirty ⟨w, s, hd, hb⟩
    · intro f hf
      obtain ⟨a, ha, rfl⟩ := List.mem_map.mp hf
      obtain ⟨e, he, rfl⟩ := List.mem_map.mp ha
      refine Answer.patch_of_ne fun hdata hb => ?_
      have hd : e.line.state = .dirty := by
        by_contra hne
        exact hdata (if_neg hne)
      obtain ⟨w, s, hline⟩ := hsh.queued e he hd
      exact hdirty ⟨w, s, hline ▸ hd, by rw [← hline]; exact hb.symm⟩

end Sheds

section Store

variable {s : StqEntry}

theorem value_of_ne (hs : s.InBlock) {x : ℕ} (h : blockOf x ≠ blockOf s.addr) :
    Overlay.apply value s.byteAt x = value x :=
  Overlay.apply_none (hs.byteAt_none h)

theorem blockAt_of_ne (hs : s.InBlock) {addr : ℕ} (h : blockOf addr ≠ blockOf s.addr) :
    blockAt (Overlay.apply value s.byteAt) addr = blockAt value addr := by
  funext i
  exact value_of_ne hs (by rwa [blockOf_byte])

/-- A store of a block that the manager lets a tile have nothing of does not concern it. -/
theorem Shared.elsewhere (hp : p.Shared value) (hi : Inv cfg p) (hs : s.InBlock)
    (hrec : p.record (blockOf s.addr) = .none) :
    p.Shared (Overlay.apply value s.byteAt) := by
  have hne : ∀ {q : Perm} {b : ℕ}, q ≠ .none → q ≤ p.record b → b ≠ blockOf s.addr := by
    rintro q b hq hle rfl
    exact hq (Soc.none_of_le hle hrec)
  refine ⟨fun w t h => ?_, fun m hm ht hr hg => ?_, fun g hg m hm => ?_, hp.carried, hp.order⟩
  · rw [blockAt_of_ne hs]
    · exact hp.line w t h
    · refine hne ?_ (hi.held w t h)
      intro hperm
      refine h ?_
      cases hst : (p.tile.dcache.lines w t).state <;> rw [hst] at hperm <;> first | rfl | cases hperm
  · rw [blockAt_of_ne hs (fun hb => hr (hb ▸ hrec))]
    exact hp.upgrade m hm ht hr hg
  · rw [blockAt_of_ne hs]
    · exact hp.grant g hg m hm
    · have hle := (hi.granted g hg).2.2
      unfold wants at hle
      rw [hm] at hle
      refine hne ?_ hle
      cases m.type <;> simp [Transfer.perm]

theorem Owns.elsewhere (ho : p.Owns value mem) (hs : s.InBlock)
    (hrec : p.record (blockOf s.addr) = .none) : p.Owns (Overlay.apply value s.byteAt) mem := by
  intro x hx hclean
  rw [value_of_ne hs]
  · exact ho x hx hclean
  · intro hb
    rw [hb, hrec] at hx
    cases hx

variable {way : ℕ} {p' : Port}

def storeLine (d : CacheUnit) (way : ℕ) (s : StqEntry) : CacheUnit :=
  d.setLine way (d.setIdx s.addr) ⟨.dirty, (d.lines way (d.setIdx s.addr)).addr,
    (d.lines way (d.setIdx s.addr)).data.write (s.addr % 64) s.bytes⟩

theorem storeLine_of_ne {w t : ℕ} (h : ¬(w = way ∧ t = d.setIdx s.addr)) :
    (storeLine d way s).lines w t = d.lines w t := by
  rw [storeLine, CacheUnit.setLine_lines, if_neg h]

/-- A store writes the only line of its block. -/
theorem Shared.store (hp : p.Shared value) (hi : Inv cfg p) (hs : s.InBlock)
    (hhit : p.tile.dcache.hitWay s.addr = some way)
    (hd : p'.tile.dcache = storeLine p.tile.dcache way s) (hgrants : p'.grants = p.grants)
    (hrecord : p'.record = p.record) (has : p'.answers = p.answers) :
    p'.Shared (Overlay.apply value s.byteAt) := by
  obtain ⟨-, hblk, hold⟩ := CacheUnit.hitWay_some hhit
  have hf : p.tile.dcache.Fades (storeLine p.tile.dcache way s) :=
    CacheUnit.setLine_fades _ way _ rfl fun _ => hold
  have hdi := hi.tile.dcache
  -- an outstanding miss has another block and another line
  have hmiss : ∀ m ∈ p.tile.dcache.outstanding, blockOf m.addr ≠ blockOf s.addr ∧
      ¬(m.way = way ∧ p.tile.dcache.setIdx m.addr = p.tile.dcache.setIdx s.addr) := by
    intro m hm
    refine ⟨fun hb => hdi.absent m hm way _ hold (hblk.trans hb.symm), ?_⟩
    rintro ⟨hw, hset⟩
    refine hdi.empty m hm ?_
    rw [hw, hset]
    exact hold
  have hwants : ∀ source, p'.wants source = p.wants source := fun source => by
    unfold wants
    rw [hd, hf.inflight]
  refine ⟨fun w t h => ?_, fun m hm ht hr hg => ?_, fun g hg m hm => ?_, ?_, has ▸ hp.order⟩
  · rw [hd] at h ⊢
    by_cases hwt : w = way ∧ t = p.tile.dcache.setIdx s.addr
    · obtain ⟨rfl, rfl⟩ := hwt
      rw [storeLine, CacheUnit.setLine_self]
      dsimp only
      rw [hp.line _ _ hold, blockAt_congr hblk, blockAt_congr hblk, s.write_blockAt]
    · have h' := hf.holds w t h
      rw [storeLine_of_ne hwt, blockAt_of_ne hs]
      · exact hp.line w t h'
      · intro hb
        have hw := hdi.unique w way t _ h' hold (hb.trans hblk.symm)
        have ht := (hdi.placed w t h').2.trans (CacheUnit.setIdx_block hb)
        exact hwt ⟨hw, ht⟩
  · rw [hd, hf.outstanding] at hm
    rw [hrecord] at hr
    rw [hd, CacheUnit.setIdx_congr hf.sets, storeLine_of_ne (hmiss m hm).2,
      blockAt_of_ne hs (hmiss m hm).1]
    refine hp.upgrade m hm ht hr fun g hmem => ?_
    rw [← hwants]
    exact hg g (hgrants ▸ hmem)
  · rw [hgrants] at hg
    rw [hd, hf.inflight] at hm
    obtain ⟨hlt, hv, -⟩ := hi.granted g hg
    have hout : m ∈ p.tile.dcache.outstanding := hm ▸ CacheUnit.mem_outstanding_of_valid hlt hv
    rw [hd, CacheUnit.setIdx_congr hf.sets, storeLine_of_ne (hmiss m hout).2,
      blockAt_of_ne hs (hmiss m hout).1]
    exact hp.grant g hg m hm
  · rw [has, hrecord]
    exact hp.carried

theorem Owns.store (ho : p.Owns value mem) (hs : s.InBlock)
    (hhit : p.tile.dcache.hitWay s.addr = some way)
    (hd : p'.tile.dcache = storeLine p.tile.dcache way s) (hrecord : p'.record = p.record)
    (has : p'.answers = p.answers) : p'.Owns (Overlay.apply value s.byteAt) mem := by
  obtain ⟨-, hblk, -⟩ := CacheUnit.hitWay_some hhit
  intro x hx hclean
  have hne : blockOf x ≠ blockOf s.addr := by
    intro hb
    refine hclean way (p.tile.dcache.setIdx s.addr) ?_ ?_ <;>
      rw [hd, storeLine, CacheUnit.setLine_self]
    exact hblk.trans hb.symm
  rw [value_of_ne hs hne]
  unfold patches
  rw [has]
  refine ho x (hrecord ▸ hx) fun w t h hb => ?_
  by_cases hwt : w = way ∧ t = p.tile.dcache.setIdx s.addr
  · obtain ⟨rfl, rfl⟩ := hwt
    exact hne (hb.symm.trans hblk)
  · have hline : p'.tile.dcache.lines w t = p.tile.dcache.lines w t := by
      rw [hd, storeLine_of_ne hwt]
    exact hclean w t (hline ▸ h) (hline ▸ hb)

end Store

theorem Shared.sendGrant (hp : p.Shared value) (hi : Inv cfg p) {source : ℕ} {perm : Perm}
    {withData : Bool} (hlt : source < p.tile.dcache.nIds)
    (hv : (p.tile.dcache.inflight source).valid = true)
    (hnew : ∀ g ∈ p.grants, g.source ≠ source) (hprobed : p.wants source ∉ p.probed)
    (hmem : blockAt mem (p.tile.dcache.inflight source).addr =
      blockAt value (p.tile.dcache.inflight source).addr)
    (hdata : withData = false → (p.tile.dcache.inflight source).type = .bToT ∧
      p.record (p.wants source) ≠ .none) :
    (p.exec mem (.sendGrant source perm withData)).Shared value := by
  have hout := CacheUnit.mem_outstanding_of_valid hlt hv
  have hother : ∀ g ∈ p.grants, p.wants g.source ≠ p.wants source := by
    intro g hg hb
    obtain ⟨hlt', hv', -⟩ := hi.granted g hg
    exact hnew g hg (inflight_block_injective hi.tile.dcache hlt' hv' hlt hv hb)
  refine ⟨hp.line, fun m hm ht hr hg => ?_, fun g hg m hm => ?_, fun a ha hd => ?_, hp.order⟩
  · -- the new grant is for another block
    have hne : blockOf m.addr ≠ p.wants source := fun hb =>
      hg _ (List.mem_append_right _ (List.mem_singleton_self _)) hb.symm
    refine hp.upgrade m hm ht ?_ fun g hmem => hg g (List.mem_append_left _ hmem)
    change Function.update p.record (p.wants source) perm (blockOf m.addr) ≠ .none at hr
    rwa [Function.update_of_ne hne] at hr
  · rcases List.mem_append.mp hg with hg | hg
    · exact hp.grant g hg m hm
    · rw [List.mem_singleton.mp hg] at hm ⊢
      obtain rfl : p.tile.dcache.inflight source = m := hm
      cases withData with
      | true => exact hmem
      | false =>
        obtain ⟨ht, hr⟩ := hdata rfl
        exact hp.upgrade _ hout ht hr hother
  · change Function.update p.record (p.wants source) perm a.block = .trunk
    rw [Function.update_of_ne (hi.wants_ne hlt hv hprobed ha).symm]
    exact hp.carried a ha hd

theorem Owns.sendGrant (ho : p.Owns value mem) (hi : Inv cfg p) {source : ℕ} {perm : Perm}
    {withData : Bool} (hlt : source < p.tile.dcache.nIds)
    (hv : (p.tile.dcache.inflight source).valid = true) (hprobed : p.wants source ∉ p.probed)
    (hmem : ∀ x, blockOf x = p.wants source → mem x = value x) :
    (p.exec mem (.sendGrant source perm withData)).Owns value mem := by
  intro x hx hclean
  by_cases hb : blockOf x = p.wants source
  · refine (Overlay.applyAll_none fun f hf => ?_).trans (hmem x hb)
    obtain ⟨a, ha, rfl⟩ := List.mem_map.mp hf
    exact Answer.patch_of_ne fun _ => hb ▸ hi.wants_ne hlt hv hprobed ha
  · change Function.update p.record (p.wants source) perm (blockOf x) = .trunk at hx
    rw [Function.update_of_ne hb] at hx
    exact ho x hx hclean

theorem getD_isSome (o : Option Block) (b : Block) :
    (if o.isSome then some (o.getD b) else none) = o := by
  cases o <;> rfl

/-- `dcache_d` puts a grant into the line that was emptied for it. -/
theorem exec_takeGrant_fill {g : Grant} {grants : List Grant} (h : p.grants = g :: grants) :
    p.exec mem .takeGrant = { p with
      tile := { p.tile with
        dcache := p.tile.dcache.fill g.source
          (if (p.tile.dcache.inflight g.source).type = .nToB then .branch else .trunk) g.data }
      grants := grants } := by
  rw [exec_takeGrant h]
  simp only [Tile.exec, dcacheD, if_true, getD_isSome]

theorem fill_other (hi : d.Inv) {id : ℕ} (hlt : id < d.nIds) (hv : (d.inflight id).valid = true)
    {state : CacheState} {data : Option Block} {m : CacheMiss}
    (hm : m ∈ (d.fill id state data).outstanding) :
    m ∈ d.outstanding ∧ blockOf m.addr ≠ blockOf (d.inflight id).addr ∧
      d.target m ≠ d.target (d.inflight id) := by
  have hperm := CacheUnit.fill_outstanding hlt hv state data
  refine ⟨hperm.mem_iff.mpr (List.mem_cons_of_mem _ hm), fun hb => ?_, fun ht => ?_⟩
  · have hnd := (hperm.map fun m => blockOf m.addr).nodup_iff.mp hi.blocks
    rw [List.map_cons, List.nodup_cons] at hnd
    exact hnd.1 (hb ▸ List.mem_map_of_mem hm)
  · have hnd := (hperm.map d.target).nodup_iff.mp hi.targets
    rw [List.map_cons, List.nodup_cons] at hnd
    exact hnd.1 (ht ▸ List.mem_map_of_mem hm)

theorem Shared.takeGrant (hp : p.Shared value) (hi : Inv cfg p) :
    (p.exec mem .takeGrant).Shared value := by
  cases hg : p.grants with
  | nil => exact (exec_nil.2.1 hg).symm ▸ hp
  | cons g grants =>
    rw [exec_takeGrant_fill hg]
    have hmem : g ∈ p.grants := hg ▸ List.mem_cons_self
    have hsub : ∀ g' ∈ grants, g' ∈ p.grants := fun g' h => hg ▸ List.mem_cons_of_mem g h
    obtain ⟨hlt, hv, -⟩ := hi.granted g hmem
    have honce := hi.once
    rw [hg, List.map_cons, List.nodup_cons] at honce
    set m₀ := p.tile.dcache.inflight g.source with hm₀
    set u := p.tile.dcache.fill g.source (if m₀.type = .nToB then .branch else .trunk) g.data with hu
    have hsame : ∀ g' ∈ grants, u.inflight g'.source = p.tile.dcache.inflight g'.source := by
      intro g' hg'
      have hne : g'.source ≠ g.source := fun he => honce.1 (he ▸ List.mem_map_of_mem hg')
      exact Function.update_of_ne hne _ _
    -- the line of another miss is not the one filled
    have hline : ∀ m ∈ u.outstanding,
        u.lines m.way (u.setIdx m.addr) =
          p.tile.dcache.lines m.way (p.tile.dcache.setIdx m.addr) := fun m hm =>
      (CacheUnit.fill_lines ..).trans (if_neg (fill_other hi.tile.dcache hlt hv hm).2.2)
    refine ⟨fun w s h => ?_, fun m hm ht hr hgr => ?_, fun g' hg' m hm => ?_, hp.carried, hp.order⟩
    · change (u.lines w s).data = blockAt value (u.lines w s).addr
      rw [hu, CacheUnit.fill_lines]
      split
      · next htarget =>
        obtain ⟨rfl, rfl⟩ := Prod.mk.injEq .. ▸ htarget
        exact hp.grant g hmem m₀ rfl
      · next htarget =>
        rcases CacheUnit.fill_holds_cases h with ⟨ht, -⟩ | ⟨hold, -⟩
        · exact absurd ht htarget
        · exact hp.line w s hold
    · change m ∈ u.outstanding at hm
      change (u.lines m.way (u.setIdx m.addr)).data = _
      obtain ⟨hm', hb, -⟩ := fill_other hi.tile.dcache hlt hv hm
      rw [hline m hm]
      refine hp.upgrade m hm' ht hr fun g' hg' => ?_
      rw [hg] at hg'
      rcases List.mem_cons.mp hg' with rfl | hg'
      · exact hb.symm
      · have hne := hgr g' hg'
        change blockOf (u.inflight g'.source).addr ≠ _ at hne
        rwa [hsame g' hg'] at hne
    · change u.inflight g'.source = m at hm
      change g'.data.getD (u.lines m.way (u.setIdx m.addr)).data = _
      obtain ⟨hlt', hv', -⟩ := hi.granted g' (hsub g' hg')
      have hm' := hm
      rw [hsame g' hg'] at hm'
      rw [hline m]
      · exact hp.grant g' (hsub g' hg') m hm'
      · rw [← hm]
        refine CacheUnit.mem_outstanding_of_valid hlt' ?_
        rw [hsame g' hg']
        exact hv'

theorem Owns.takeGrant (ho : p.Owns value mem) (hi : Inv cfg p) :
    (p.exec mem .takeGrant).Owns value mem := by
  cases hg : p.grants with
  | nil => exact (exec_nil.2.1 hg).symm ▸ ho
  | cons g grants =>
    rw [exec_takeGrant_fill hg]
    obtain ⟨hlt, hv, -⟩ := hi.granted g (hg ▸ List.mem_cons_self)
    intro x hx hclean
    refine ho x hx fun w s hd hb => ?_
    -- a dirty line is not the one that was emptied
    have hne : (w, s) ≠ p.tile.dcache.target (p.tile.dcache.inflight g.source) := by
      intro htarget
      obtain ⟨rfl, rfl⟩ := Prod.mk.injEq .. ▸ htarget
      exact hi.tile.dcache.empty _ (CacheUnit.mem_outstanding_of_valid hlt hv)
        (CacheUnit.holds_of_dirty hd)
    have hline := CacheUnit.fill_lines p.tile.dcache g.source
      (if (p.tile.dcache.inflight g.source).type = .nToB then .branch else .trunk) g.data w s
    rw [if_neg hne] at hline
    refine hclean w s ?_ ?_
    · exact (congrArg CacheLine.state hline).trans hd
    · exact (congrArg (fun l => blockOf l.addr) hline).trans hb

theorem Shared.receive (hp : p.Shared value) : (p.exec mem .receive).Shared value := by
  cases hr : p.releases with
  | nil => exact (exec_nil.2.2 hr).symm ▸ hp
  | cons msg releases =>
    have has : p.answers = CMessage.answer msg :: (p.exec mem .receive).answers := by
      rw [exec_receive hr]
      simp only [answers, hr, List.map_cons, List.cons_append]
    have horder := hp.order
    rw [has, List.pairwise_cons] at horder
    have hle : ∀ b, (p.exec mem .receive).record b ≤ p.record b := record_exec_le p mem (by simp)
    refine ⟨?_, fun m hm ht hrec hgr => ?_, ?_, fun a ha hd => ?_, horder.2⟩
    · rw [exec_receive hr]
      exact hp.line
    · have hnone : p.record (blockOf m.addr) ≠ .none := fun h => hrec (Soc.none_of_le (hle _) h)
      rw [exec_receive hr] at hm hgr ⊢
      exact hp.upgrade m hm ht hnone hgr
    · rw [exec_receive hr]
      exact hp.grant
    · have htrunk := hp.carried a (has ▸ List.mem_cons_of_mem _ ha) hd
      rw [exec_receive hr]
      by_cases hb : a.block = blockOf msg.address
      · have hm : CMessage.perm msg = .trunk := horder.1 a ha hd hb
        change Function.update _ _ _ _ = _
        rw [hb, Function.update_self, hm, ← hb, htrunk]
        rfl
      · exact (Function.update_of_ne hb _ _).trans htrunk

theorem Owns.receive (ho : p.Owns value mem) :
    (p.exec mem .receive).Owns value (p.memory mem .receive) := by
  cases hr : p.releases with
  | nil =>
    simp only [memory, hr]
    exact (exec_nil.2.2 hr).symm ▸ ho
  | cons msg releases =>
    have hle : ∀ b, (p.exec mem .receive).record b ≤ p.record b := record_exec_le p mem (by simp)
    intro x hx hclean
    have hown := ho x (Soc.trunk_of_le (hle _) hx)
    rw [exec_receive hr] at hclean ⊢
    simp only [memory, hr, received_eq]
    simp only [patches, answers, hr, List.map_cons, List.cons_append, Overlay.applyAll_cons] at hown
    exact hown hclean

/-- The memory changes where the recorded writer's data arrives, and nowhere else. -/
theorem memory_of_ne (hp : p.Shared value) {e : Event} {x : ℕ}
    (hx : p.record (blockOf x) ≠ .trunk) : p.memory mem e x = mem x := by
  cases e with
  | receive =>
    cases hr : p.releases with
    | nil => simp only [memory, hr]
    | cons msg releases =>
      simp only [memory, hr, received_eq]
      refine Overlay.apply_none (Answer.patch_of_ne fun hd hb => hx ?_)
      rw [hb]
      refine hp.carried _ (List.mem_append_left _ ?_) hd
      rw [hr]
      exact List.mem_cons_self
  | call | dcacheC | takeProbe | takeGrant | sendProbe | sendGrant => rfl

/-- The answer with which the recorded writer of a byte gives up writing it brings the
byte's value. -/
theorem memory_of_lowered (hp : p.Shared value) (ho : p.Owns value mem) (hi : Inv cfg p) {x : ℕ}
    (hx : p.record (blockOf x) = .trunk)
    (hx' : (p.exec mem .receive).record (blockOf x) ≠ .trunk) :
    p.memory mem .receive x = value x := by
  cases hr : p.releases with
  | nil =>
    rw [exec_nil.2.2 hr] at hx'
    exact absurd hx hx'
  | cons msg releases =>
    rw [exec_receive hr] at hx'
    have hb : blockOf x = blockOf msg.address := by
      by_contra hne
      exact hx' ((Function.update_of_ne hne _ _).trans hx)
    have hperm : CMessage.perm msg ≠ .trunk := by
      intro hm
      refine hx' ?_
      change Function.update _ _ _ _ = _
      rw [hb, Function.update_self, hm, ← hb, hx]
      rfl
    have hhead : CMessage.answer msg ∈ p.answers := by
      unfold answers
      rw [hr]
      exact List.mem_cons_self
    -- no line is dirty, since the message has given up the permission
    have hown := ho x hx fun w s hd hblk =>
      hperm ((hi.of_dirty hd).2 _ hhead (hblk.trans hb))
    have horder := hp.order
    simp only [answers, hr, List.map_cons, List.cons_append, List.pairwise_cons] at horder
    simp only [patches, answers, hr, List.map_cons, List.cons_append, Overlay.applyAll_cons] at hown
    simp only [memory, hr, received_eq]
    rw [← hown, Overlay.applyAll_none]
    intro f hf
    obtain ⟨a, ha, rfl⟩ := List.mem_map.mp hf
    exact Answer.patch_of_ne fun hd hab => hperm (horder.1 a ha hd (hab.symm.trans hb))

theorem completes_eq (t : Tile) (c : Call) :
    t.completes c = (t.kind c).written := by
  cases c with
  | access a rand =>
    cases a with
    | store addr bytes =>
      simp only [Tile.completes, kind, storeKind]
      split <;> rfl
    | fetch | load => rfl
  | drainStq rand =>
    simp only [Tile.completes, kind]
    cases t.stq with
    | nil => rfl
    | cons s rest =>
      simp only [storeKind]
      split <;> rfl
  | dcacheD id data hasData grantack => cases grantack <;> rfl
  | mmioStore | flushIcache | icacheA | icacheD | dcacheA | dcacheB | dcacheC => rfl

/-- An own call sheds lines, or completes a store in a line that may be written. -/
theorem call_cases {c : Call} (mem : ℕ → UInt8) (hi : Inv cfg p) (hw : 0 < cfg.icacheWays ∧ 0 < cfg.dcacheWays)
    (ho : c.Own) (hl : p.tile.Legal c) :
    (p.tile.completes c = [] ∧ Calm p.tile.dcache (p.tile.exec c).dcache ∧
      ∃ es, Sheds p.tile.dcache (p.tile.exec c).dcache es ∧
        (p.exec mem (.call c)).answers = p.answers ++ es.map Writeback.answer) ∨
    ∃ s way, p.tile.completes c = [s] ∧ p.tile.dcache.hitWay s.addr = some way ∧
      (p.tile.dcache.lines way (p.tile.dcache.setIdx s.addr)).state ≠ .branch ∧
      (p.tile.exec c).dcache = storeLine p.tile.dcache way s ∧
      (p.exec mem (.call c)).answers = p.answers := by
  have hc : c ≠ .dcacheC := by
    rintro rfl
    exact ho
  have he := exec_effect hi.tile.clean (hi.tile.ways_pos hw).2 hl hc
  have hcompletes := completes_eq p.tile c
  cases hk : p.tile.kind c with
  | quiet =>
    rw [hk] at he hcompletes
    obtain ⟨es, hq, hsh⟩ := he.sheds hi.tile.dcache (by simp) (by simp)
    refine .inl ⟨hcompletes, (exec_own hi.tile hw hl ho).1, es, hsh, ?_⟩
    simp only [answers, exec, hq, List.map_append, List.append_assoc]
  | write addr bytes =>
    rw [hk] at he hcompletes
    cases he with
    | write addr way bytes hhit hst hd hq =>
      refine .inr ⟨⟨addr, bytes⟩, way, hcompletes, hhit, hst, hd, ?_⟩
      simp only [answers, exec, hq]
  | grant id data => exact absurd hk (kind_own ho id data)

def Fits (p : Port) : Prop := ∀ s ∈ p.tile.stq, s.InBlock

theorem Fits.call {c : Call} (hf : p.Fits) (mem : ℕ → UInt8) (hc : c.Fits) :
    (p.exec mem (.call c)).Fits ∧ ∀ s ∈ p.tile.completes c, s.InBlock := by
  rw [completes_eq]
  by_cases hs : ∃ addr bytes rand, c = .access (.store addr bytes) rand
  · obtain ⟨addr, bytes, rand, rfl⟩ := hs
    refine ⟨fun s hs => hf s ?_, fun s hs => ?_⟩
    · change s ∈ (p.tile.store addr bytes rand).2.stq at hs
      rwa [store_stq] at hs
    · simp only [kind, storeKind] at hs
      split at hs
      · rw [List.mem_singleton.mp hs]
        exact hc
      · cases hs
  · push Not at hs
    have hstq := exec_stq p.tile hs
    -- what the call issues is a store that fits
    have hissued : ∀ s ∈ storesOf [c], s.InBlock := by
      intro s hs
      cases c with
      | mmioStore addr bytes =>
        obtain rfl : s = ⟨addr, bytes⟩ := List.mem_singleton.mp hs
        exact hc
      | access | drainStq | flushIcache | icacheA | icacheD | dcacheA | dcacheB | dcacheC
      | dcacheD => cases hs
    have hall : ∀ s ∈ (p.tile.kind c).written ++ (p.tile.exec c).stq, s.InBlock := by
      rw [hstq]
      intro s hs
      rcases List.mem_append.mp hs with hs | hs
      · exact hf s hs
      · exact hissued s hs
    exact ⟨fun s hs => hall s (List.mem_append_right _ hs),
      fun s hs => hall s (List.mem_append_left _ hs)⟩

theorem Fits.exec {e : Event} (hf : p.Fits) (he : ∀ c, e ≠ .call c) : (p.exec mem e).Fits := by
  cases e with
  | call c => exact absurd rfl (he c)
  | dcacheC =>
    intro s hs
    refine hf s ?_
    simp only [Port.exec, Tile.exec] at hs
    rcases p.tile.dcacheC_cases with hc | ⟨e, rest, source, ids, -, hc⟩ <;> rwa [hc] at hs
  | takeProbe =>
    cases hb : p.probes with
    | nil => exact (exec_nil.1 hb).symm ▸ hf
    | cons b probes =>
      rw [exec_takeProbe hb]
      intro s hs
      refine hf s ?_
      simp only [Tile.exec, dcacheB] at hs
      split at hs <;> exact hs
  | takeGrant =>
    cases hg : p.grants with
    | nil => exact (exec_nil.2.1 hg).symm ▸ hf
    | cons g grants =>
      rw [exec_takeGrant_fill hg]
      exact hf
  | receive =>
    cases hr : p.releases with
    | nil => exact (exec_nil.2.2 hr).symm ▸ hf
    | cons msg releases =>
      rw [exec_receive hr]
      exact hf
  | sendProbe | sendGrant => exact hf

end Port

namespace Soc

variable {ι : Type*} {cfg : ι → TileConfig} {init : ℕ → UInt8} {σ : Soc ι}
  {es : List (ι × Event)} {i : ι} {e : Event}

/-- `value` is the one value of every byte: every copy that can be read or granted has it, and
what the manager's memory lacks of it is in a dirty line or on the way there. -/
structure Shared (value : ℕ → UInt8) (σ : Soc ι) : Prop where
  port : ∀ i, (σ.port i).Shared value
  owner : ∀ i, (σ.port i).Owns value σ.mem
  memory : ∀ x, (∀ i, (σ.port i).record (blockOf x) ≠ .trunk) → σ.mem x = value x
  fits : ∀ i, (σ.port i).Fits

/-- The manager has the value of a block that it may grant. -/
theorem Shared.mem_of_grant (hs : σ.Shared value) (hi : Inv cfg σ) {source : ℕ} {perm : Perm}
    {withData : Bool} (hl : σ.Legal i (.sendGrant source perm withData)) {x : ℕ}
    (hx : blockOf x = (σ.port i).wants source) : σ.mem x = value x := by
  obtain ⟨hlt, hv, -, hprobed, hperm, hcomp, -⟩ := hl
  have hout := CacheUnit.mem_outstanding_of_valid hlt hv
  -- no other tile is recorded as the writer
  have hother : ∀ j, j ≠ i → (σ.port j).record (blockOf x) ≠ .trunk := by
    intro j hj htrunk
    have hc := hcomp j hj
    rw [← hx, htrunk] at hc
    cases perm with
    | none =>
      cases ht : ((σ.port i).tile.dcache.inflight source).type <;> rw [ht] at hperm <;>
        exact absurd hperm (by decide)
    | branch => exact absurd rfl hc
    | trunk => cases hc
  by_cases hself : (σ.port i).record (blockOf x) = .trunk
  · rw [← hs.owner i x hself, Overlay.applyAll_none]
    · intro f hf
      obtain ⟨a, ha, rfl⟩ := List.mem_map.mp hf
      exact Answer.patch_of_ne fun _ => hx ▸ (hi.port i).wants_ne hlt hv hprobed ha
    · intro w s hd
      rw [hx]
      exact (hi.port i).tile.dcache.absent _ hout w s (CacheUnit.holds_of_dirty hd)
  · refine hs.memory x fun j => ?_
    by_cases hj : j = i
    · rw [hj]
      exact hself
    · exact hother j hj

variable [DecidableEq ι]

/-- A step that completes no store, given what it does to its own port and to the memory. -/
theorem Shared.step (hs : σ.Shared value) (hi : Inv cfg σ)
    (hport : ((σ.port i).exec σ.mem e).Shared value)
    (howner : ((σ.port i).exec σ.mem e).Owns value ((σ.port i).memory σ.mem e))
    (hmemory : ∀ x, (∀ j, j ≠ i → (σ.port j).record (blockOf x) ≠ .trunk) →
      ((σ.port i).exec σ.mem e).record (blockOf x) ≠ .trunk →
      (σ.port i).memory σ.mem e x = value x)
    (hfits : ((σ.port i).exec σ.mem e).Fits) : (σ.exec i e).Shared value := by
  refine ⟨fun k => ?_, fun k => ?_, fun x hx => ?_, fun k => ?_⟩
  · by_cases hk : k = i
    · subst hk
      rw [exec_port_self]
      exact hport
    · rw [exec_port_of_ne σ hk]
      exact hs.port k
  · by_cases hk : k = i
    · subst hk
      rw [exec_port_self]
      exact howner
    · rw [exec_port_of_ne σ hk]
      intro x hx hclean
      have hself : (σ.port i).record (blockOf x) ≠ .trunk := by
        rw [hi.exclusive k i _ hk hx]
        decide
      exact (Overlay.applyAll_congr (Port.memory_of_ne (hs.port i) hself)).trans
        (hs.owner k x hx hclean)
  · refine hmemory x (fun j hj => ?_) ?_
    · rw [← exec_port_of_ne σ hj e]
      exact hx j
    · rw [← exec_port_self]
      exact hx i
  · by_cases hk : k = i
    · subst hk
      rw [exec_port_self]
      exact hfits
    · rw [exec_port_of_ne σ hk]
      exact hs.fits k

/-- A step that neither grants nor receives leaves the memory and the records alone. -/
theorem Shared.keeps_memory (hs : σ.Shared value)
    (hrec : ((σ.port i).exec σ.mem e).record = (σ.port i).record)
    (hmem : (σ.port i).memory σ.mem e = σ.mem) {x : ℕ}
    (hother : ∀ j, j ≠ i → (σ.port j).record (blockOf x) ≠ .trunk)
    (hself : ((σ.port i).exec σ.mem e).record (blockOf x) ≠ .trunk) :
    (σ.port i).memory σ.mem e x = value x := by
  rw [hmem]
  refine hs.memory x fun j => ?_
  by_cases hj : j = i
  · rw [hj, ← hrec]
    exact hself
  · exact hother j hj

/-- The tile that completes a store is the recorded writer, so that it concerns no other. -/
theorem Shared.store (hs : σ.Shared value) (hi : Inv cfg σ) {c : Call} {s : StqEntry} {way : ℕ}
    (hb : s.InBlock) (hhit : (σ.port i).tile.dcache.hitWay s.addr = some way)
    (hst : ((σ.port i).tile.dcache.lines way ((σ.port i).tile.dcache.setIdx s.addr)).state ≠ .branch)
    (hd : ((σ.port i).tile.exec c).dcache = Port.storeLine (σ.port i).tile.dcache way s)
    (has : ((σ.port i).exec σ.mem (.call c)).answers = (σ.port i).answers)
    (hfits : ((σ.port i).exec σ.mem (.call c)).Fits) :
    (σ.exec i (.call c)).Shared (Overlay.apply value s.byteAt) := by
  obtain ⟨-, hblk, hold⟩ := CacheUnit.hitWay_some hhit
  have hrec : (σ.port i).record (blockOf s.addr) = .trunk := by
    have hle := (hi.port i).held _ _ hold
    rw [hblk] at hle
    refine trunk_of_le hle ?_
    cases hstate : ((σ.port i).tile.dcache.lines way
        ((σ.port i).tile.dcache.setIdx s.addr)).state with
    | none => exact absurd hstate hold
    | branch => exact absurd hstate hst
    | trunk => rfl
    | dirty => rfl
  have hother : ∀ j, j ≠ i → (σ.port j).record (blockOf s.addr) = .none := fun j hj =>
    hi.exclusive i j _ (Ne.symm hj) hrec
  refine ⟨fun k => ?_, fun k => ?_, fun x hx => ?_, fun k => ?_⟩
  · by_cases hk : k = i
    · subst hk
      rw [exec_port_self]
      exact (hs.port k).store (hi.port k) hb hhit hd rfl rfl has
    · rw [exec_port_of_ne σ hk]
      exact (hs.port k).elsewhere (hi.port k) hb (hother k hk)
  · by_cases hk : k = i
    · subst hk
      rw [exec_port_self]
      exact (hs.owner k).store hb hhit hd rfl has
    · rw [exec_port_of_ne σ hk]
      exact (hs.owner k).elsewhere hb (hother k hk)
  · have hsame : ∀ k, ((σ.exec i (.call c)).port k).record = (σ.port k).record := by
      intro k
      by_cases hk : k = i
      · subst hk
        rw [exec_port_self]
        rfl
      · rw [exec_port_of_ne σ hk]
    rw [Port.value_of_ne hb]
    · exact hs.memory x fun k => hsame k ▸ hx k
    · intro hbx
      have := hx i
      rw [hsame, hbx] at this
      exact this hrec
  · by_cases hk : k = i
    · subst hk
      rw [exec_port_self]
      exact hfits
    · rw [exec_port_of_ne σ hk]
      exact hs.fits k

theorem Shared.call (hs : σ.Shared value) (hi : Inv cfg σ)
    (hw : ∀ i, 0 < (cfg i).icacheWays ∧ 0 < (cfg i).dcacheWays) {c : Call}
    (hl : σ.Legal i (.call c)) :
    (σ.exec i (.call c)).Shared (afterStores value ((σ.port i).tile.completes c)) := by
  obtain ⟨ho, hfit, hleg, -⟩ := hl
  obtain ⟨hfits, hb⟩ := (hs.fits i).call σ.mem hfit
  rcases Port.call_cases σ.mem (hi.port i) (hw i) ho hleg with
    ⟨hnone, hc, es, hsh, has⟩ | ⟨s, way, hone, hhit, hst, hd, has⟩
  · rw [hnone]
    exact hs.step hi ((hs.port i).sheds (hi.port i) hc hsh rfl rfl has)
      ((hs.owner i).sheds (hs.port i) hsh rfl has)
      (fun x => hs.keeps_memory rfl rfl) hfits
  · rw [hone]
    exact hs.store hi (hb s (hone ▸ List.mem_cons_self)) hhit hst hd has hfits

theorem Shared.takeProbe (hs : σ.Shared value) (hi : Inv cfg σ) :
    (σ.exec i .takeProbe).Shared value := by
  have hp := hi.port i
  have hfits : ((σ.port i).exec σ.mem .takeProbe).Fits := (hs.fits i).exec (by simp)
  have hrec : ((σ.port i).exec σ.mem .takeProbe).record = (σ.port i).record := by
    cases hb : (σ.port i).probes with
    | nil => rw [Port.exec_nil.1 hb]
    | cons b probes => rw [Port.exec_takeProbe hb]
  suffices h : ((σ.port i).exec σ.mem .takeProbe).Shared value ∧
      ((σ.port i).exec σ.mem .takeProbe).Owns value σ.mem from
    hs.step hi h.1 h.2 (fun x => hs.keeps_memory hrec rfl) hfits
  cases hb : (σ.port i).probes with
  | nil =>
    rw [Port.exec_nil.1 hb]
    exact ⟨hs.port i, hs.owner i⟩
  | cons b probes =>
    rw [Port.exec_takeProbe hb]
    obtain ⟨hc, -⟩ := dcacheB_answer hp.tile.dcache b.address b.source b.param
    obtain ⟨es, hq, hsh⟩ := (dcacheB_effect (σ.port i).tile b.address b.source b.param).sheds
      hp.tile.dcache (by simp) (by simp)
    have has : Port.answers { σ.port i with
        tile := (σ.port i).tile.exec (.dcacheB b.address b.source b.param), probes := probes } =
        (σ.port i).answers ++ es.map Writeback.answer := by
      simp only [Port.answers, Tile.exec, hq, List.map_append, List.append_assoc]
    exact ⟨(hs.port i).sheds hp hc hsh rfl rfl has, (hs.owner i).sheds (hs.port i) hsh rfl has⟩

theorem Shared.exec (hs : σ.Shared value) (hi : Inv cfg σ)
    (hw : ∀ i, 0 < (cfg i).icacheWays ∧ 0 < (cfg i).dcacheWays) (hl : σ.Legal i e) :
    (σ.exec i e).Shared (afterStores value ((σ.port i).completes e)) := by
  have hp := hi.port i
  cases e with
  | call c => exact hs.call hi hw hl
  | dcacheC =>
    have hd : ((σ.port i).exec σ.mem .dcacheC).tile.dcache = (σ.port i).tile.dcache :=
      dcacheC_dcache (σ.port i).tile
    have has : ((σ.port i).exec σ.mem .dcacheC).answers =
        (σ.port i).answers ++ List.map Writeback.answer [] :=
      (Port.answers_dcacheC hp σ.mem).trans (List.append_nil _).symm
    have hsh : Sheds (σ.port i).tile.dcache ((σ.port i).exec σ.mem .dcacheC).tile.dcache [] :=
      hd ▸ .refl _ (by simp) (by simp)
    exact hs.step hi ((hs.port i).sheds hp (hd ▸ .refl _) hsh rfl rfl has)
      ((hs.owner i).sheds (hs.port i) hsh rfl has) (fun x => hs.keeps_memory rfl rfl)
      ((hs.fits i).exec (by simp))
  | takeProbe => exact hs.takeProbe hi
  | takeGrant =>
    have hrec : ((σ.port i).exec σ.mem .takeGrant).record = (σ.port i).record := by
      cases hg : (σ.port i).grants with
      | nil => rw [Port.exec_nil.2.1 hg]
      | cons g grants => rw [Port.exec_takeGrant hg]
    exact hs.step hi ((hs.port i).takeGrant hp) ((hs.owner i).takeGrant hp)
      (fun x => hs.keeps_memory hrec rfl) ((hs.fits i).exec (by simp))
  | sendProbe b =>
    refine hs.step hi ?_ ?_ (fun x => hs.keeps_memory rfl rfl) (hs.fits i)
    · exact ⟨(hs.port i).line, (hs.port i).upgrade, (hs.port i).grant, (hs.port i).carried,
        (hs.port i).order⟩
    · exact hs.owner i
  | sendGrant source perm withData =>
    have hmem : ∀ x, blockOf x = (σ.port i).wants source → σ.mem x = value x := fun x hx =>
      hs.mem_of_grant hi hl hx
    obtain ⟨hlt, hv, hnew, hprobed, hperm, hcomp, hdata⟩ := hl
    refine hs.step hi ((hs.port i).sendGrant hp hlt hv hnew hprobed ?_ hdata)
      ((hs.owner i).sendGrant hp hlt hv hprobed hmem) (fun x hother hself => ?_) (hs.fits i)
    · funext k
      exact hmem _ (blockOf_byte k)
    · change σ.mem x = value x
      by_cases hx : blockOf x = (σ.port i).wants source
      · exact hmem x hx
      · refine hs.memory x fun j => ?_
        by_cases hj : j = i
        · rw [hj]
          exact fun h => hself ((Function.update_of_ne hx _ _).trans h)
        · exact hother j hj
  | receive =>
    refine hs.step hi (hs.port i).receive (hs.owner i).receive (fun x hother hself => ?_)
      ((hs.fits i).exec (by simp))
    by_cases hx : (σ.port i).record (blockOf x) = .trunk
    · exact Port.memory_of_lowered (hs.port i) (hs.owner i) hp hx hself
    · rw [Port.memory_of_ne (hs.port i) hx]
      refine hs.memory x fun j => ?_
      by_cases hj : j = i
      · rw [hj]
        exact hx
      · exact hother j hj

theorem Run.eq_foldl {σ₀ : Soc ι} (hr : Run σ₀ es σ) :
    σ = es.foldl (fun σ x => σ.exec x.1 x.2) σ₀ := by
  induction hr with
  | nil => rfl
  | snoc _ _ ih => rw [List.foldl_append, ← ih]; rfl

end Soc

end PerceptronSoc
