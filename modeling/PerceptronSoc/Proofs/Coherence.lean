import PerceptronSoc.Proofs.Writeback
import PerceptronSoc.Spec.Memory

/-! The data cache, the writeback queue and the memory behind them hold one value for
each byte. It is what the drained stores have made of the initial memory, and every way
to reach a byte leads to it: a line in use, the line of an upgrade under way, or, when no
line is `DIRTY`, the memory once the queue has been sent. -/

namespace PerceptronSoc

open Tile

variable {addr a : ℕ}

theorem blockOf_byte {b : ℕ} (i : Fin 64) : blockOf (b * 64 + i) = b := by
  unfold blockOf
  omega

theorem block_offset (a : ℕ) : blockOf a * 64 + a % 64 = a := by
  unfold blockOf
  omega

theorem blockAt_congr {mem : ℕ → UInt8} {b : ℕ} (h : blockOf addr = blockOf b) :
    blockAt mem addr = blockAt mem b := by
  unfold blockAt
  rw [h]

theorem blockAt_patch {mem : ℕ → UInt8} (h : blockOf a = blockOf addr) :
    (blockAt mem addr).patch addr a = some (mem a) := by
  unfold Block.patch blockAt
  rw [if_pos h]
  dsimp only
  rw [← h, block_offset]

def StqEntry.InBlock (s : StqEntry) : Prop := s.addr % 64 + s.len ≤ 64

theorem StqEntry.byteAt_eq_none {s : StqEntry} (h : a < s.addr ∨ s.addr + s.len ≤ a) :
    s.byteAt a = none := by
  unfold byteAt
  split
  · next hle =>
    rw [List.getElem?_eq_none_iff]
    unfold len at h
    omega
  · rfl

theorem StqEntry.InBlock.byteAt_none {s : StqEntry} (hs : s.InBlock)
    (h : blockOf a ≠ blockOf s.addr) : s.byteAt a = none := by
  apply StqEntry.byteAt_eq_none
  unfold StqEntry.InBlock at hs
  unfold blockOf at h
  omega

theorem StqEntry.write_blockAt (s : StqEntry) (mem : ℕ → UInt8) :
    (blockAt mem s.addr).write (s.addr % 64) s.bytes =
      blockAt (Overlay.apply mem s.byteAt) s.addr := by
  funext i
  have ha := block_offset s.addr
  simp only [Block.write, blockAt, Overlay.apply, StqEntry.byteAt]
  by_cases hle : s.addr % 64 ≤ i
  · rw [if_pos (show s.addr ≤ blockOf s.addr * 64 + i by omega),
      show blockOf s.addr * 64 + i - s.addr = i - s.addr % 64 by omega]
    by_cases hlt : (i : ℕ) < s.addr % 64 + s.bytes.length
    · have hlt' : i - s.addr % 64 < s.bytes.length := by omega
      simp [hle, hlt, List.getElem?_eq_getElem hlt']
    · rw [if_neg (by omega), List.getElem?_eq_none (by omega)]
      rfl
  · rw [if_neg (by omega), if_neg (by omega)]
    rfl

namespace Tile

/-- What memory will take from a queued writeback. -/
def Writeback.patch (e : Writeback) : ℕ → Option UInt8 :=
  if e.line.state = .dirty then e.line.data.patch e.line.addr else fun _ => none

structure Coherent (value mem : ℕ → UInt8) (d : CacheUnit) (q : List Writeback) : Prop where
  line : ∀ w s, d.Holds w s → (d.lines w s).data = blockAt value (d.lines w s).addr
  upgrade : ∀ m ∈ d.outstanding, m.type = .bToT →
    (d.lines m.way (d.setIdx m.addr)).data = blockAt value m.addr
  memory : ∀ a, (∀ w s, (d.lines w s).state = .dirty → blockOf (d.lines w s).addr ≠ blockOf a) →
    Overlay.applyAll mem (q.map Writeback.patch) a = value a
  pending : ∀ m ∈ d.outstanding, ∀ e ∈ q, e.line.state = .dirty →
    blockOf e.line.addr ≠ blockOf m.addr

variable {value mem : ℕ → UInt8} {d d' : CacheUnit} {q q' : List Writeback}

theorem new_coherent (init : ℕ → UInt8) (ways sets nIds : ℕ) :
    Coherent init init (CacheUnit.new ways sets nIds) [] := by
  have hout := CacheUnit.outstanding_new ways sets nIds
  refine ⟨?_, by simp [hout], fun _ _ => rfl, by simp [hout]⟩
  intro w s h
  exact absurd rfl h

theorem Coherent.blockAt_mem (hc : Coherent value mem d q) (hi : d.Inv) {m : CacheMiss}
    (hm : m ∈ d.outstanding) : blockAt mem m.addr = blockAt value m.addr := by
  funext i
  unfold blockAt
  have hblk := blockOf_byte (b := blockOf m.addr) i
  rw [← hc.memory (blockOf m.addr * 64 + i), Overlay.applyAll_none]
  · intro p hp
    obtain ⟨e, he, rfl⟩ := List.mem_map.mp hp
    unfold Writeback.patch
    split
    · next hd =>
      unfold Block.patch
      rw [hblk, if_neg (hc.pending m hm e he hd).symm]
    · rfl
  · intro w s hd
    rw [hblk]
    exact hi.absent m hm w s (CacheUnit.holds_of_dirty hd)

/-- A line loses its state; if it was `DIRTY`, it goes to the queue as it was. -/
theorem Coherent.demote (hc : Coherent value mem d q) (hi : d.Inv) (way set : ℕ)
    {state : CacheState} (hh : state ≠ .none → d.Holds way set)
    {es : List Writeback} (hes : (d.lines way set).state ≠ .dirty ∧ es = [] ∨
      ∃ e, es = [e] ∧ e.line = d.lines way set) :
    Coherent value mem (d.setState way set state) (q ++ es) := by
  have hf := CacheUnit.setState_fades d way set hh
  -- a line that is no longer `DIRTY` is the demoted one
  have hdirty : ∀ w s, (d.lines w s).state = .dirty →
      ((d.setState way set state).lines w s).state = .dirty ∨ w = way ∧ s = set := by
    intro w s h
    rw [CacheUnit.setState, CacheUnit.setLine_lines]
    split
    · next he => exact .inr he
    · exact .inl h
  refine ⟨?_, ?_, ?_, ?_⟩
  · intro w s h
    rw [CacheUnit.setState_data, hf.addr]
    exact hc.line w s (hf.holds w s h)
  · intro m hm ht
    rw [hf.outstanding] at hm
    rw [CacheUnit.setState_data, CacheUnit.setIdx_congr hf.sets]
    exact hc.upgrade m hm ht
  · intro a ha
    rw [List.map_append, Overlay.applyAll_append]
    by_cases hv : (d.lines way set).state = .dirty ∧ blockOf (d.lines way set).addr = blockOf a
    · obtain ⟨hvd, hvb⟩ := hv
      rcases hes with ⟨hne, -⟩ | ⟨e, rfl, he⟩
      · exact absurd hvd hne
      · refine Overlay.apply_some ?_
        rw [Writeback.patch, he, if_pos hvd, hc.line way set (CacheUnit.holds_of_dirty hvd)]
        exact blockAt_patch hvb.symm
    · have hnone : ∀ p ∈ es.map Writeback.patch, p a = none := by
        rcases hes with ⟨-, rfl⟩ | ⟨e, rfl, he⟩
        · simp
        · intro p hp
          obtain rfl : p = Writeback.patch e := by simpa using hp
          unfold Writeback.patch Block.patch
          rw [he]
          split
          · next hd => exact if_neg fun h => hv ⟨hd, h.symm⟩
          · rfl
      rw [Overlay.applyAll_none hnone]
      refine hc.memory a fun w s h hb => ?_
      rcases hdirty w s h with h' | ⟨rfl, rfl⟩
      · exact ha w s h' (hf.addr w s ▸ hb)
      · exact hv ⟨h, hb⟩
  · intro m hm e he hd
    rw [hf.outstanding] at hm
    rcases List.mem_append.mp he with he | he
    · exact hc.pending m hm e he hd
    · rcases hes with ⟨-, rfl⟩ | ⟨e', rfl, hline⟩
      · cases he
      · rw [List.mem_singleton.mp he, hline] at hd ⊢
        exact hi.absent m hm way set (CacheUnit.holds_of_dirty hd)

theorem Coherent.enqueue (hc : Coherent value mem d q) {m : CacheMiss}
    (hup : m.type = .bToT → (d.lines m.way (d.setIdx m.addr)).data = blockAt value m.addr)
    (hq : ∀ e ∈ q, e.line.state = .dirty → blockOf e.line.addr ≠ blockOf m.addr) :
    Coherent value mem (d.enqueue m) q := by
  have hmem : ∀ {m'}, m' ∈ (d.enqueue m).outstanding → m' = m ∨ m' ∈ d.outstanding := by
    intro m' h
    exact List.mem_cons.mp ((CacheUnit.outstanding_enqueue d m).mem_iff.mp h)
  refine ⟨hc.line, ?_, hc.memory, ?_⟩
  · intro m' hm'
    rcases hmem hm' with rfl | hm'
    · exact hup
    · exact hc.upgrade m' hm'
  · intro m' hm'
    rcases hmem hm' with rfl | hm'
    · exact hq
    · exact hc.pending m' hm'

/-- A drained store writes the only line of its block. -/
theorem Coherent.write (hc : Coherent value mem d q) (hi : d.Inv) {s : StqEntry} (hs : s.InBlock)
    {way : ℕ} (hhit : d.hitWay s.addr = some way) :
    Coherent (Overlay.apply value s.byteAt) mem
      (d.setLine way (d.setIdx s.addr)
        ⟨.dirty, (d.lines way (d.setIdx s.addr)).addr,
          (d.lines way (d.setIdx s.addr)).data.write (s.addr % 64) s.bytes⟩) q := by
  obtain ⟨-, hblk, hold⟩ := CacheUnit.hitWay_some hhit
  set line := d.lines way (d.setIdx s.addr) with hline
  set d' := d.setLine way (d.setIdx s.addr) ⟨.dirty, line.addr, line.data.write (s.addr % 64) s.bytes⟩
    with hd'
  have hf : d.Fades d' := CacheUnit.setLine_fades d way _ rfl fun _ => hold
  have hself : d'.lines way (d.setIdx s.addr) =
      ⟨.dirty, line.addr, line.data.write (s.addr % 64) s.bytes⟩ := CacheUnit.setLine_self ..
  have hother : ∀ w t, ¬(w = way ∧ t = d.setIdx s.addr) → d'.lines w t = d.lines w t := by
    intro w t h
    rw [hd', CacheUnit.setLine_lines, if_neg h]
  have hsame : ∀ a, blockOf a ≠ blockOf s.addr → Overlay.apply value s.byteAt a = value a :=
    fun a h => Overlay.apply_none (hs.byteAt_none h)
  have hsameBlock : ∀ addr, blockOf addr ≠ blockOf s.addr →
      blockAt (Overlay.apply value s.byteAt) addr = blockAt value addr := by
    intro addr h
    funext i
    exact hsame _ (by rwa [blockOf_byte])
  refine ⟨?_, ?_, ?_, ?_⟩
  · intro w t h
    by_cases hwt : w = way ∧ t = d.setIdx s.addr
    · obtain ⟨rfl, rfl⟩ := hwt
      rw [hself]
      dsimp only
      rw [hc.line _ _ hold, ← hline, blockAt_congr hblk, blockAt_congr hblk, s.write_blockAt]
    · have h' := hf.holds w t h
      rw [hother w t hwt, hsameBlock]
      · exact hc.line w t h'
      · intro hb
        have hw := hi.unique w way t _ h' hold (hb.trans hblk.symm)
        have ht := (hi.placed w t h').2.trans (CacheUnit.setIdx_block hb)
        exact hwt ⟨hw, ht⟩
  · intro m hm ht
    rw [hf.outstanding] at hm
    rw [CacheUnit.setIdx_congr hf.sets, hother, hsameBlock]
    · exact hc.upgrade m hm ht
    · intro hb
      exact hi.absent m hm way _ hold (hblk.trans hb.symm)
    · rintro ⟨hw, hset⟩
      refine hi.empty m hm ?_
      rw [hw, hset]
      exact hold
  · intro a ha
    have hne : blockOf a ≠ blockOf s.addr := by
      intro hb
      refine ha way (d.setIdx s.addr) (by rw [hself]) ?_
      rw [hself]
      exact hblk.trans hb.symm
    rw [hsame a hne]
    refine hc.memory a fun w t h hb => ?_
    by_cases hwt : w = way ∧ t = d.setIdx s.addr
    · obtain ⟨rfl, rfl⟩ := hwt
      exact hne (hb.symm.trans hblk)
    · exact ha w t (by rw [hother w t hwt]; exact h) (by rw [hother w t hwt]; exact hb)
  · intro m hm
    rw [hf.outstanding] at hm
    exact hc.pending m hm

def GrantOk (mem : ℕ → UInt8) (m : CacheMiss) : Option Block → Prop
  | some data => data = blockAt mem m.addr
  | none => m.type = .bToT

theorem Coherent.grant (hc : Coherent value mem d q) (hi : d.Inv) {id : ℕ} {state : CacheState}
    {data : Option Block} (hlt : id < d.nIds) (hv : (d.inflight id).valid = true)
    (hok : GrantOk mem (d.inflight id) data) :
    Coherent value mem (d.fill id state data) q := by
  have hmem := CacheUnit.mem_outstanding_of_valid hlt hv
  obtain ⟨-, hperm⟩ := hi.fill hlt hv state data
  have hrest : ∀ m ∈ (d.fill id state data).outstanding, m ∈ d.outstanding := fun m hm =>
    hperm.mem_iff.mpr (List.mem_cons_of_mem _ hm)
  have htargets := hi.targets
  rw [(hperm.map _).nodup_iff, List.map_cons, List.nodup_cons] at htargets
  refine ⟨?_, ?_, ?_, ?_⟩
  · intro w s h
    unfold CacheUnit.Holds at h
    rw [CacheUnit.fill_lines] at h ⊢
    split
    · next ht =>
      cases data with
      | some b => exact hok.trans (hc.blockAt_mem hi hmem)
      | none =>
        have hup := hc.upgrade _ hmem hok
        obtain ⟨rfl, rfl⟩ := Prod.mk.inj ht
        exact hup
    · next ht =>
      rw [if_neg ht] at h
      exact hc.line w s h
  · intro m hm ht
    have hne : (m.way, d.setIdx m.addr) ≠ d.target (d.inflight id) := fun he =>
      htargets.1 (List.mem_map.mpr ⟨m, hm, he⟩)
    rw [CacheUnit.fill_lines]
    refine (congrArg CacheLine.data (if_neg hne)).trans ?_
    exact hc.upgrade m (hrest m hm) ht
  · intro a ha
    refine hc.memory a fun w s h hb => ?_
    have hne : (w, s) ≠ d.target (d.inflight id) := by
      intro ht
      obtain ⟨rfl, rfl⟩ := Prod.mk.inj ht
      exact hi.empty _ hmem (CacheUnit.holds_of_dirty h)
    have hl := d.fill_lines id state data w s
    rw [if_neg hne] at hl
    exact ha w s (hl ▸ h) (hl ▸ hb)
  · exact fun m hm => hc.pending m (hrest m hm)

theorem Coherent.send (hc : Coherent value mem d q) (hi : d.Inv) {id : ℕ} {m : CacheMiss}
    (hs : d.send = some (id, m, d')) : Coherent value mem d' q := by
  obtain ⟨-, hperm⟩ := hi.send hs
  obtain ⟨_, _, -, -, -, -, -, -, hsets, -, hlines⟩ := CacheUnit.send_cases hs
  refine ⟨?_, ?_, ?_, ?_⟩
  · intro w s h
    rw [CacheUnit.Holds, hlines] at h
    rw [hlines]
    exact hc.line w s h
  · intro m' hm'
    rw [hlines, CacheUnit.setIdx_congr hsets]
    exact hc.upgrade m' (hperm.mem_iff.mp hm')
  · rw [hlines]
    exact hc.memory
  · exact fun m' hm' => hc.pending m' (hperm.mem_iff.mp hm')

theorem Coherent.snoc_clean (hc : Coherent value mem d q) {e : Writeback}
    (he : e.line.state ≠ .dirty) : Coherent value mem d (q ++ [e]) := by
  refine ⟨hc.line, hc.upgrade, ?_, ?_⟩
  · intro a ha
    rw [List.map_append, List.map_singleton, Overlay.applyAll_snoc, Overlay.apply_none]
    · exact hc.memory a ha
    · rw [Writeback.patch, if_neg he]
  · intro m hm e' he' hd
    rcases List.mem_append.mp he' with he' | he'
    · exact hc.pending m hm e' he' hd
    · rw [List.mem_singleton.mp he'] at hd
      exact absurd hd he

def Kind.written : Kind → List StqEntry
  | .write addr bytes => [⟨addr, bytes⟩]
  | _ => []

def afterStores (value : ℕ → UInt8) (stores : List StqEntry) : ℕ → UInt8 :=
  Overlay.applyAll value (stores.map StqEntry.byteAt)

theorem afterStores_append (value : ℕ → UInt8) (l l' : List StqEntry) :
    afterStores value (l ++ l') = afterStores (afterStores value l) l' := by
  unfold afterStores
  rw [List.map_append, Overlay.applyAll_append]

/-- Stores stay in their blocks, and grants come from memory. -/
def Kind.Ok (mem : ℕ → UInt8) (d : CacheUnit) : Kind → Prop
  | .quiet => True
  | .write addr bytes => (StqEntry.mk addr bytes).InBlock
  | .grant id data => GrantOk mem (d.inflight id) data

theorem Effect.coherent {k : Kind} (he : Effect d q d' q' k) (hi : d.Inv)
    (hc : Coherent value mem d q) (hk : k.Ok mem d) :
    Coherent (afterStores value k.written) mem d' q' := by
  have hclear : ∀ {way set : ℕ}, CacheState.none ≠ .none → d.Holds way set := fun h => absurd rfl h
  cases he with
  | same hd hq =>
    subst hd hq
    exact hc
  | upgrade addr way hhit hst hb hd hq =>
    subst hd hq
    obtain ⟨-, hblk, hold⟩ := CacheUnit.hitWay_some hhit
    have hdem := hc.demote hi way (d.setIdx addr) hclear (.inl ⟨by rw [hst]; simp, rfl⟩)
    rw [List.append_nil] at hdem
    refine hdem.enqueue (fun _ => ?_) fun e h _ => (CacheUnit.not_blockBusy hb).1 e h
    rw [CacheUnit.setState_data]
    exact (hc.line _ _ hold).trans (blockAt_congr hblk)
  | replace addr way type hhit hb hs hw ht hd hq =>
    subst hd
    have hbusy := (CacheUnit.not_blockBusy hb).1
    by_cases hdirty : (d.lines way (d.setIdx addr)).state = .dirty
    · rw [if_pos hdirty] at hq
      subst hq
      refine (hc.demote hi way _ hclear (.inr ⟨_, rfl, rfl⟩)).enqueue (fun h => absurd h ht) ?_
      intro e he _
      rcases List.mem_append.mp he with he | he
      · exact hbusy e he
      · rw [List.mem_singleton.mp he]
        exact hi.hitWay_none hhit (CacheUnit.holds_of_dirty hdirty)
    · rw [if_neg hdirty] at hq
      subst hq
      have hdem := hc.demote hi way (d.setIdx addr) hclear (.inl ⟨hdirty, rfl⟩)
      rw [List.append_nil] at hdem
      exact hdem.enqueue (fun h => absurd h ht) fun e h _ => hbusy e h
  | write addr way bytes hhit hst hd hq =>
    subst hd hq
    exact hc.write hi (s := ⟨addr, bytes⟩) hk hhit
  | send id m hs hq =>
    subst hq
    exact hc.send hi hs
  | probeMiss address source desired hne hd hq =>
    subst hd hq
    exact hc.snoc_clean (by simp)
  | probe address source way desired state hne hhit hst hto hd hq =>
    subst hd hq
    exact hc.demote hi way _ (fun _ => (CacheUnit.hitWay_some hhit).2.2) (.inr ⟨_, rfl, rfl⟩)
  | grant id state data hlt hv hst hd hq =>
    subst hd hq
    exact hc.grant hi hlt hv hk

theorem message_received {e : Writeback} (hd : e.desired ≠ .dirty) (source : ℕ) (mem : ℕ → UInt8) :
    CMessage.received (Writeback.message e source) mem = Overlay.apply mem (Writeback.patch e) := by
  have haddr : blockOf (blockOf e.line.addr * 64) = blockOf e.line.addr := by
    unfold blockOf
    omega
  have hpatch : e.line.data.patch (blockOf e.line.addr * 64) = e.line.data.patch e.line.addr := by
    unfold Block.patch
    rw [haddr]
  have hnone : Overlay.apply mem (fun _ => none) = mem := rfl
  unfold CMessage.received Writeback.message Writeback.patch
  cases hst : e.line.state <;> cases hdes : e.desired <;>
    first | exact absurd hdes hd | simp [shrink, hpatch, hnone]

theorem Coherent.sent {e : Writeback} (hc : Coherent value mem d (e :: q)) :
    Coherent value (Overlay.apply mem (Writeback.patch e)) d q :=
  ⟨hc.line, hc.upgrade, hc.memory, fun m hm e' he' => hc.pending m hm e' (List.mem_cons_of_mem e he')⟩

theorem store_stq (t : Tile) (addr : ℕ) (bytes : List UInt8) (rand : ℕ) :
    (t.store addr bytes rand).2.stq = t.stq := by
  rcases t.store_cases addr bytes rand with ⟨_, _, _, he⟩ | ⟨_, _, _, he⟩ | ⟨_, he⟩ <;> rw [he] <;> rfl

theorem drainStq_stq (t : Tile) (rand : ℕ) :
    (t.kind (.drainStq rand)).written ++ (t.drainStq rand).stq = t.stq := by
  simp only [kind]
  rcases t.drainStq_eq rand with ⟨hs, he⟩ | ⟨s, rest, hs, he⟩ <;> rw [he, hs]
  · rfl
  · simp only [storeKind, store_stq, hs]
    cases (t.store s.addr s.bytes rand).1 <;> rfl

/-- What is written leaves the front of the queue, what is issued joins its end. -/
theorem exec_stq (t : Tile) {c : Call} (hc : ∀ addr bytes rand, c ≠ .access (.store addr bytes) rand) :
    (t.kind c).written ++ (t.exec c).stq = t.stq ++ storesOf [c] := by
  have hquiet : ∀ {l : List StqEntry}, l = t.stq → [] ++ l = t.stq ++ [] := by
    rintro l rfl
    exact (List.append_nil _).symm
  cases c with
  | access a rand =>
    cases a with
    | fetch addr len =>
      refine hquiet ?_
      simp only [exec, handleCacheAccess, fetch]
      split <;> rfl
    | load addr len =>
      refine hquiet ?_
      simp only [exec, handleCacheAccess, load]
      split
      · rfl
      · rfl
      · split <;> rfl
    | store addr bytes => exact absurd rfl (hc addr bytes rand)
  | mmioStore addr bytes => rfl
  | drainStq rand => exact (drainStq_stq t rand).trans (List.append_nil _).symm
  | flushIcache => exact hquiet rfl
  | icacheA =>
    refine hquiet ?_
    simp only [exec, icacheA]
    split <;> rfl
  | icacheD id data => exact hquiet rfl
  | dcacheA =>
    refine hquiet ?_
    simp only [exec, dcacheA]
    split <;> rfl
  | dcacheB address source param =>
    refine hquiet ?_
    simp only [exec, dcacheB]
    split <;> rfl
  | dcacheC =>
    refine hquiet ?_
    simp only [exec]
    rcases t.dcacheC_cases with he | ⟨e, rest, source, ids, -, he⟩ <;> rw [he]
  | dcacheD id data hasData grantack => cases grantack <;> exact hquiet rfl

end Tile

namespace MemSys

variable {cfg : TileConfig} {init : ℕ → UInt8} {cs : List Call} {σ : MemSys}

theorem Run.tile {σ₀ : MemSys} (hr : Run σ₀ cs σ) : Tile.Run σ₀.tile cs σ.tile := by
  induction hr with
  | nil => exact .nil
  | snoc _ hl ih => exact .snoc ih hl.1

/-- The stores issued so far are the drained ones, whose effect the caches and the memory
hold, then the queue. -/
structure Drained (init : ℕ → UInt8) (cs : List Call) (σ : MemSys) (drained : List StqEntry) :
    Prop where
  order : storesOf cs = drained ++ σ.tile.stq
  coherent : Coherent (afterStores init drained) σ.mem σ.tile.dcache σ.tile.wbq
  inBlock : ∀ s ∈ σ.tile.stq, s.InBlock

theorem kind_ok {c : Call} (hl : σ.Legal c) (hs : ∀ s ∈ σ.tile.stq, s.InBlock) :
    (σ.tile.kind c).Ok σ.mem σ.tile.dcache := by
  cases c with
  | access a rand =>
    cases a with
    | store addr bytes => exact absurd hl.2 id
    | fetch | load => trivial
  | drainStq rand =>
    simp only [kind]
    split
    · trivial
    · next s rest hq =>
      unfold storeKind
      split
      · exact hs s (hq ▸ List.mem_cons_self)
      · trivial
  | dcacheD id data hasData grantack =>
    cases grantack with
    | false => trivial
    | true => cases hasData <;> exact hl.2
  | mmioStore | flushIcache | icacheA | icacheD | dcacheA | dcacheB | dcacheC => trivial

theorem exec_mem {c : Call} (hc : c ≠ .dcacheC) : (σ.exec c).mem = σ.mem := by
  cases c <;> first | rfl | exact absurd rfl hc

theorem inBlock_of_legal {c : Call} (hl : σ.Legal c) {s : StqEntry} (hs : s ∈ storesOf [c]) :
    s.InBlock := by
  cases c with
  | mmioStore addr bytes =>
    obtain rfl : s = ⟨addr, bytes⟩ := List.mem_singleton.mp hs
    exact hl.2.2.2.2
  | access | drainStq | flushIcache | icacheA | icacheD | dcacheA | dcacheB | dcacheC | dcacheD =>
    cases hs

theorem Drained.coherent_dcacheC {drained : List StqEntry} (hd : Drained init cs σ drained)
    (hdes : ∀ e ∈ σ.tile.wbq, e.desired ≠ .dirty) :
    Coherent (afterStores init (drained ++ [])) (σ.exec .dcacheC).mem (σ.exec .dcacheC).tile.dcache
      (σ.exec .dcacheC).tile.wbq := by
  have hc := hd.coherent
  simp only [MemSys.exec, Tile.exec, List.append_nil]
  rcases σ.tile.dcacheC_cases with he | ⟨e, rest, source, ids, hq, he⟩ <;> rw [he]
  · exact hc
  · rw [hq] at hc hdes
    simp only [message_received (hdes e List.mem_cons_self)]
    exact hc.sent

theorem Drained.exec {drained : List StqEntry} (hd : Drained init cs σ drained)
    (hi : Tile.Inv cfg σ.tile) (hw : 0 < cfg.icacheWays ∧ 0 < cfg.dcacheWays)
    (hdes : ∀ e ∈ σ.tile.wbq, e.desired ≠ .dirty) {c : Call} (hl : σ.Legal c) :
    Drained init (cs ++ [c]) (σ.exec c) (drained ++ (σ.tile.kind c).written) := by
  have hstq : (σ.tile.kind c).written ++ (σ.tile.exec c).stq = σ.tile.stq ++ storesOf [c] := by
    refine exec_stq σ.tile ?_
    rintro addr bytes rand rfl
    exact hl.2
  refine ⟨?_, ?_, ?_⟩
  · rw [List.append_assoc]
    simp only [MemSys.exec]
    rw [hstq, ← List.append_assoc, ← hd.order]
    simp only [storesOf, List.filterMap_append]
  · by_cases hc : c = .dcacheC
    · subst hc
      exact hd.coherent_dcacheC hdes
    · rw [afterStores_append, exec_mem hc]
      exact (exec_effect hi.clean (hi.ways_pos hw).2 hl.1 hc).coherent hi.dcache hd.coherent
        (kind_ok hl hd.inBlock)
  · intro s hs
    have hmem : s ∈ σ.tile.stq ++ storesOf [c] := hstq ▸ List.mem_append_right _ hs
    rcases List.mem_append.mp hmem with hs | hs
    · exact hd.inBlock s hs
    · exact inBlock_of_legal hl hs

theorem run_drained (hw : 0 < cfg.icacheWays ∧ 0 < cfg.dcacheWays)
    (hr : Run (MemSys.new cfg init) cs σ) : ∃ drained, Drained init cs σ drained := by
  induction hr with
  | nil => exact ⟨[], rfl, new_coherent init _ _ _, by simp [MemSys.new, Tile.new]⟩
  | snoc hr hl ih =>
    obtain ⟨drained, hd⟩ := ih
    exact ⟨_, hd.exec (run_inv hw hr.tile) hw (run_fifo hw hr.tile).desired hl⟩

end MemSys

end PerceptronSoc
