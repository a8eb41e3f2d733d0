import PerceptronSoc.Proofs.CacheUnit

/-! What one call can do to the tile, and the invariant that every interleaving of calls
keeps. -/

namespace PerceptronSoc.Tile

/-- What a call brings into the data cache: bytes of a store, a grant's block, or
nothing. -/
inductive Kind where
  | quiet
  | write (addr : ℕ) (bytes : List UInt8)
  | grant (id : ℕ) (data : Option Block)

/-- Everything a call other than `dcache_c` can do to the data cache `d` and the writeback
queue `q`. -/
inductive Effect (d : CacheUnit) (q : List Writeback) (d' : CacheUnit) (q' : List Writeback) :
    Kind → Prop
  | same (hd : d' = d) (hq : q' = q) : Effect d q d' q' .quiet
  | upgrade (addr way : ℕ) (hhit : d.hitWay addr = some way)
      (hst : (d.lines way (d.setIdx addr)).state = .branch) (hb : d.blockBusy q addr = false)
      (hd : d' = (d.setState way (d.setIdx addr) .none).enqueue ⟨true, addr, way, .bToT⟩)
      (hq : q' = q) : Effect d q d' q' .quiet
  | replace (addr way : ℕ) (type : Transfer) (hhit : d.hitWay addr = none)
      (hb : d.blockBusy q addr = false) (hs : d.setBusy addr = false)
      (hw : way < d.ways) (ht : type ≠ .bToT)
      (hd : d' = (d.setState way (d.setIdx addr) .none).enqueue ⟨true, addr, way, type⟩)
      (hq : q' = if (d.lines way (d.setIdx addr)).state = .dirty then
        q ++ [⟨d.lines way (d.setIdx addr), .none, 0, true⟩] else q) : Effect d q d' q' .quiet
  | write (addr way : ℕ) (bytes : List UInt8) (hhit : d.hitWay addr = some way)
      (hst : (d.lines way (d.setIdx addr)).state ≠ .branch)
      (hd : d' = d.setLine way (d.setIdx addr)
        ⟨.dirty, (d.lines way (d.setIdx addr)).addr,
          (d.lines way (d.setIdx addr)).data.write (addr % 64) bytes⟩)
      (hq : q' = q) : Effect d q d' q' (.write addr bytes)
  | send (id : ℕ) (m : CacheMiss) (hs : d.send = some (id, m, d')) (hq : q' = q) : Effect d q d' q' .quiet
  | probeMiss (address source : ℕ) (desired : CacheState) (hne : desired ≠ .dirty) (hd : d' = d)
      (hq : q' = q ++ [⟨⟨.none, address, fun _ => 0⟩, desired, source, false⟩]) : Effect d q d' q' .quiet
  | probe (address source way : ℕ) (desired state : CacheState) (hne : desired ≠ .dirty)
      (hhit : d.hitWay address = some way) (hst : state ≠ .dirty)
      (hto : (d.lines way (d.setIdx address)).state = .dirty → state = desired)
      (hd : d' = d.setState way (d.setIdx address) state)
      (hq : q' = q ++ [⟨d.lines way (d.setIdx address), desired, source, false⟩]) :
      Effect d q d' q' .quiet
  | grant (id : ℕ) (state : CacheState) (data : Option Block) (hlt : id < d.nIds)
      (hv : (d.inflight id).valid = true) (hst : state ≠ .none ∧ state ≠ .dirty)
      (hd : d' = d.fill id state data) (hq : q' = q) : Effect d q d' q' (.grant id data)

variable {t : Tile}

/-- The instruction cache is only ever read or refilled. -/
def IcacheClean (t : Tile) : Prop := ∀ w s, (t.icache.lines w s).state ≠ .dirty

theorem dcacheMiss_effect (t : Tile) (addr : ℕ) (type : Transfer) (upgrade : Option ℕ) (way : ℕ)
    (hw : way < t.dcache.ways) (hnone : upgrade = none → t.dcache.hitWay addr = none ∧ type ≠ .bToT)
    (hsome : ∀ w, upgrade = some w → t.dcache.hitWay addr = some w ∧
      (t.dcache.lines w (t.dcache.setIdx addr)).state = .branch) :
    Effect t.dcache t.wbq (t.dcacheMiss addr type upgrade way).dcache
      (t.dcacheMiss addr type upgrade way).wbq .quiet := by
  unfold dcacheMiss
  rcases t.dcache.miss_cases t.wbq addr type upgrade way with he | ⟨hb, w, hup, he⟩ |
    ⟨hb, hs, hup, he⟩ <;> rw [he]
  · exact .same rfl rfl
  · exact .upgrade addr w (hsome w hup).1 (hsome w hup).2 hb rfl rfl
  · exact .replace addr way type (hnone hup).1 hb hs hw (hnone hup).2 rfl rfl

/-- A fetch leaves the data cache's side alone: its victims are clean. -/
theorem icacheMiss_wbq (hclean : t.IcacheClean) (addr way : ℕ) :
    (t.icacheMiss addr way).wbq = t.wbq := by
  unfold icacheMiss
  rcases t.icache.miss_cases t.wbq addr .nToB none way with he | ⟨-, w, hup, -⟩ | ⟨-, -, -, he⟩
  · rw [he]
  · cases hup
  · rw [he]
    exact if_neg (hclean _ _)

theorem fetch_effect (hclean : t.IcacheClean) (addr len rand : ℕ) :
    Effect t.dcache t.wbq (t.fetch addr len rand).2.dcache (t.fetch addr len rand).2.wbq .quiet := by
  unfold fetch
  split
  · exact .same rfl rfl
  · exact .same rfl (icacheMiss_wbq hclean addr _)

theorem load_effect (hw : 0 < t.dcache.ways) (addr len rand : ℕ) :
    Effect t.dcache t.wbq (t.load addr len rand).2.dcache (t.load addr len rand).2.wbq .quiet := by
  unfold load
  split
  · exact .same rfl rfl
  · exact .same rfl rfl
  · split
    · exact .same rfl rfl
    · next hh =>
      exact dcacheMiss_effect t addr .nToB none _ (Nat.mod_lt _ hw) (fun _ => ⟨hh, by simp⟩)
        (fun w h => by cases h)

/-- A store either completes in the line it hits or takes the miss path. -/
theorem store_cases (t : Tile) (addr : ℕ) (bytes : List UInt8) (rand : ℕ) :
    (∃ way, t.dcache.hitWay addr = some way ∧
      (t.dcache.lines way (t.dcache.setIdx addr)).state ≠ .branch ∧
      t.store addr bytes rand = (true, { t.invalidateIcache addr with
        dcache := t.dcache.setLine way (t.dcache.setIdx addr)
          ⟨.dirty, (t.dcache.lines way (t.dcache.setIdx addr)).addr,
            (t.dcache.lines way (t.dcache.setIdx addr)).data.write (addr % 64) bytes⟩ })) ∨
    (∃ way, t.dcache.hitWay addr = some way ∧
      (t.dcache.lines way (t.dcache.setIdx addr)).state = .branch ∧
      t.store addr bytes rand = (false, (t.invalidateIcache addr).dcacheMiss addr .bToT (some way)
        (rand % t.dcache.ways))) ∨
    (t.dcache.hitWay addr = none ∧
      t.store addr bytes rand = (false, (t.invalidateIcache addr).dcacheMiss addr .nToT none
        (rand % t.dcache.ways))) := by
  simp only [store]
  cases hh : t.dcache.hitWay addr with
  | none => exact .inr (.inr ⟨rfl, rfl⟩)
  | some way =>
    by_cases hst : (t.dcache.lines way (t.dcache.setIdx addr)).state = .branch
    · exact .inr (.inl ⟨way, rfl, hst, if_neg (not_not.mpr hst)⟩)
    · exact .inl ⟨way, rfl, hst, if_pos hst⟩

/-- Only a store that completes brings its bytes. -/
def storeKind (t : Tile) (addr : ℕ) (bytes : List UInt8) (rand : ℕ) : Kind :=
  if (t.store addr bytes rand).1 then .write addr bytes else .quiet

theorem store_effect (hw : 0 < t.dcache.ways) (addr : ℕ) (bytes : List UInt8) (rand : ℕ) :
    Effect t.dcache t.wbq (t.store addr bytes rand).2.dcache (t.store addr bytes rand).2.wbq
      (t.storeKind addr bytes rand) := by
  unfold storeKind
  rcases t.store_cases addr bytes rand with ⟨way, hh, hst, he⟩ | ⟨way, hh, hst, he⟩ | ⟨hh, he⟩ <;>
    rw [he]
  · exact .write addr way bytes hh hst rfl rfl
  · refine dcacheMiss_effect (t.invalidateIcache addr) addr .bToT (some way) _ (Nat.mod_lt rand hw)
      (fun h => by cases h) (fun w h => ?_)
    cases h
    exact ⟨hh, hst⟩
  · exact dcacheMiss_effect (t.invalidateIcache addr) addr .nToT none _ (Nat.mod_lt _ hw)
      (fun _ => ⟨hh, by simp⟩) (fun w h => by cases h)

theorem drainStq_eq (t : Tile) (rand : ℕ) :
    t.stq = [] ∧ t.drainStq rand = t ∨
    ∃ s rest, t.stq = s :: rest ∧
      t.drainStq rand = { (t.store s.addr s.bytes rand).2 with
        stq := if (t.store s.addr s.bytes rand).1 then rest
          else (t.store s.addr s.bytes rand).2.stq } := by
  unfold drainStq
  cases hs : t.stq with
  | nil => exact .inl ⟨rfl, rfl⟩
  | cons s rest =>
    refine .inr ⟨s, rest, rfl, ?_⟩
    simp only [handleCacheAccess]
    rcases hr : t.store s.addr s.bytes rand with ⟨_ | _, t'⟩ <;> rfl

theorem probeDesired_ne_dirty (param : Fin 3) : probeDesired param ≠ .dirty := by
  fin_cases param <;> simp [probeDesired]

theorem dcacheB_effect (t : Tile) (address source : ℕ) (param : Fin 3) :
    Effect t.dcache t.wbq (t.dcacheB address source param).dcache
      (t.dcacheB address source param).wbq .quiet := by
  have hne := probeDesired_ne_dirty param
  unfold dcacheB
  cases hh : t.dcache.hitWay address with
  | none => exact .probeMiss address source _ hne rfl rfl
  | some way =>
    refine .probe address source way _ _ hne hh ?_ (fun h => ?_) rfl rfl
    · split
      · simp
      · exact hne
    · rw [h, if_neg (by simp)]

/-- Either nothing can be sent, or the oldest entry is, under its own or a free source
id. -/
theorem dcacheC_cases (t : Tile) :
    t.dcacheC = (none, t) ∨
    ∃ e rest source ids, t.wbq = e :: rest ∧
      t.dcacheC = (some (Writeback.message e source),
        { t with wbq := rest, dcacheCSourceids := ids }) := by
  unfold dcacheC
  split
  · exact .inl rfl
  · next e rest hq =>
    by_cases hv : e.voluntary = true
    · rw [if_pos hv]
      split
      · exact .inl rfl
      · next id ids hs => exact .inr ⟨e, rest, id, ids, hq, rfl⟩
    · rw [if_neg hv]
      exact .inr ⟨e, rest, e.sourceid, t.dcacheCSourceids, hq, rfl⟩

theorem dcacheC_dcache (t : Tile) : (t.exec .dcacheC).dcache = t.dcache := by
  simp only [exec]
  rcases t.dcacheC_cases with he | ⟨e, rest, source, ids, -, he⟩ <;> rw [he]

/-- The drain writes the oldest store, if it completes. -/
def kind (t : Tile) : Call → Kind
  | .access (.store addr bytes) rand => t.storeKind addr bytes rand
  | .drainStq rand =>
    match t.stq with
    | [] => .quiet
    | s :: _ => t.storeKind s.addr s.bytes rand
  | .dcacheD id data hasData true => .grant id (if hasData then some data else none)
  | _ => .quiet

/-- The one place where the calls are taken apart for the data cache. -/
theorem exec_effect (hclean : t.IcacheClean) (hw : 0 < t.dcache.ways) {c : Call} (hl : t.Legal c)
    (hc : c ≠ .dcacheC) :
    Effect t.dcache t.wbq (t.exec c).dcache (t.exec c).wbq (t.kind c) := by
  cases c with
  | access a rand =>
    cases a with
    | fetch addr len => exact fetch_effect hclean addr len rand
    | load addr len => exact load_effect hw addr len rand
    | store addr bytes => exact store_effect hw addr bytes rand
  | mmioStore addr bytes => exact .same rfl rfl
  | drainStq rand =>
    simp only [exec, kind]
    rcases t.drainStq_eq rand with ⟨hs, he⟩ | ⟨s, rest, hs, he⟩ <;> rw [he, hs]
    · exact .same rfl rfl
    · exact store_effect hw s.addr s.bytes rand
  | flushIcache => exact .same rfl rfl
  | icacheA =>
    simp only [exec, icacheA]
    split <;> exact .same rfl rfl
  | icacheD id data => exact .same rfl rfl
  | dcacheA =>
    simp only [exec, dcacheA]
    split
    · next id m u hs => exact .send id m hs rfl
    · exact .same rfl rfl
  | dcacheB address source param => exact dcacheB_effect t address source param
  | dcacheC => exact absurd rfl hc
  | dcacheD id data hasData grantack =>
    cases grantack with
    | false => exact .same rfl rfl
    | true =>
      refine .grant id _ _ hl.1 hl.2 ?_ rfl rfl
      split <;> simp

structure Inv (c : TileConfig) (t : Tile) : Prop where
  icache : t.icache.Inv
  dcache : t.dcache.Inv
  icacheShape : t.icache.shape = (c.icacheWays, c.icacheSets, c.icSourceids)
  dcacheShape : t.dcache.shape = (c.dcacheWays, c.dcacheSets, c.dcSourceids)
  clean : t.IcacheClean

variable {cfg : TileConfig}

theorem new_inv (cfg : TileConfig) : Inv cfg (Tile.new cfg) where
  icache := CacheUnit.new_inv _ _ _
  dcache := CacheUnit.new_inv _ _ _
  icacheShape := rfl
  dcacheShape := rfl
  clean := by
    intro w s
    simp [Tile.new, CacheUnit.new]

theorem Effect.inv {d d' : CacheUnit} {q q' : List Writeback} {k : Kind} (he : Effect d q d' q' k)
    (hi : d.Inv) : d'.Inv ∧ d'.shape = d.shape := by
  have hclear : ∀ way set, (d.setState way set .none).Inv := fun way set =>
    hi.fades (CacheUnit.setState_fades d way set fun h => absurd rfl h)
  cases he with
  | same hd hq =>
    subst hd
    exact ⟨hi, rfl⟩
  | upgrade addr way hhit hst hb hd hq =>
    subst hd
    exact ⟨(hclear way _).enqueue (hi.upgrade_fresh hb hhit .bToT), rfl⟩
  | replace addr way type hhit hb hs hw ht hd hq =>
    subst hd
    exact ⟨(hclear way _).enqueue (hi.replace_fresh hb hs hhit hw type), rfl⟩
  | write addr way bytes hhit hst hd hq =>
    subst hd
    exact ⟨hi.fades (CacheUnit.setLine_fades d way _ rfl
      fun _ => (CacheUnit.hitWay_some hhit).2.2), rfl⟩
  | send id m hs hq => exact ⟨(hi.send hs).1, CacheUnit.send_shape hs⟩
  | probeMiss address source desired hne hd hq =>
    subst hd
    exact ⟨hi, rfl⟩
  | probe address source way desired state hne hhit hst hto hd hq =>
    subst hd
    exact ⟨hi.fades (CacheUnit.setState_fades d way _
      fun _ => (CacheUnit.hitWay_some hhit).2.2), rfl⟩
  | grant id state data hlt hv hst hd hq =>
    subst hd
    exact ⟨(hi.fill hlt hv state data).1, rfl⟩

/-- Everything a call can do to the instruction cache: drop lines, start a replacement,
send a request, take an answer. -/
inductive IcacheEffect (i i' : CacheUnit) : Prop
  | fades (hf : i.Fades i') (hst : ∀ w s, (i'.lines w s).state = .dirty →
      (i.lines w s).state = .dirty)
  | miss (wbq : List Writeback) (addr way : ℕ) (hhit : i.hitWay addr = none)
      (hi : i' = (i.miss wbq addr .nToB none way).1) (hw : 0 < i.ways → way < i.ways)
  | send (id : ℕ) (m : CacheMiss) (hs : i.send = some (id, m, i'))
  | fill (id : ℕ) (data : Block) (hlt : id < i.nIds) (hv : (i.inflight id).valid = true)
      (hi : i' = i.fill id .branch (some data))

theorem IcacheEffect.refl (i : CacheUnit) : IcacheEffect i i :=
  .fades (CacheUnit.Fades.refl i) fun _ _ h => h

theorem icacheEffect_of_drop {i : CacheUnit} {lines : ℕ → ℕ → CacheLine}
    (hl : ∀ w s, lines w s = i.lines w s ∨ lines w s = { i.lines w s with state := .none }) :
    IcacheEffect i { i with lines := lines } := by
  refine .fades ⟨rfl, rfl, rfl, rfl, rfl, rfl, fun w s => ?_, fun w s h => ?_⟩ fun w s h => ?_
  · rcases hl w s with he | he <;> simp only [he]
  · unfold CacheUnit.Holds at h ⊢
    rcases hl w s with he | he <;> simp only [he] at h
    · exact h
    · exact absurd rfl h
  · rcases hl w s with he | he <;> simp only [he] at h
    · exact h
    · cases h

theorem invalidateIcache_effect (t : Tile) (addr : ℕ) :
    IcacheEffect t.icache (t.invalidateIcache addr).icache := by
  apply icacheEffect_of_drop
  intro w s
  dsimp only
  split
  · exact .inr rfl
  · exact .inl rfl

theorem flushIcache_effect (t : Tile) : IcacheEffect t.icache t.flushIcache.icache := by
  apply icacheEffect_of_drop
  intro w s
  dsimp only
  split
  · exact .inr rfl
  · exact .inl rfl

theorem store_icache (t : Tile) (addr : ℕ) (bytes : List UInt8) (rand : ℕ) :
    (t.store addr bytes rand).2.icache = (t.invalidateIcache addr).icache := by
  rcases t.store_cases addr bytes rand with ⟨_, _, _, he⟩ | ⟨_, _, _, he⟩ | ⟨_, he⟩ <;> rw [he] <;> rfl

theorem exec_icache {c : Call} (hl : t.Legal c) : IcacheEffect t.icache (t.exec c).icache := by
  have hstore : ∀ addr bytes rand, IcacheEffect t.icache (t.store addr bytes rand).2.icache := by
    intro addr bytes rand
    rw [store_icache]
    exact invalidateIcache_effect t addr
  cases c with
  | access a rand =>
    cases a with
    | fetch addr len =>
      simp only [exec, handleCacheAccess, fetch]
      split
      · exact .refl _
      · next hh => exact .miss t.wbq addr _ hh rfl fun hw => Nat.mod_lt _ hw
    | load addr len =>
      simp only [exec, handleCacheAccess, load]
      split
      · exact .refl _
      · exact .refl _
      · split <;> exact .refl _
    | store addr bytes => exact hstore addr bytes rand
  | mmioStore addr bytes => exact .refl _
  | drainStq rand =>
    simp only [exec]
    rcases t.drainStq_eq rand with ⟨-, he⟩ | ⟨s, rest, -, he⟩ <;> rw [he]
    · exact .refl _
    · exact hstore s.addr s.bytes rand
  | flushIcache => exact flushIcache_effect t
  | icacheA =>
    simp only [exec, icacheA]
    split
    · next id m u hs => exact .send id m hs
    · exact .refl _
  | icacheD id data => exact .fill id data hl.1 hl.2 rfl
  | dcacheA =>
    simp only [exec, dcacheA]
    split <;> exact .refl _
  | dcacheB address source param =>
    simp only [exec, dcacheB]
    split <;> exact .refl _
  | dcacheC =>
    simp only [exec, dcacheC]
    split
    · exact .refl _
    · split
      · split <;> exact .refl _
      · exact .refl _
  | dcacheD id data hasData grantack => cases grantack <;> exact .refl _

theorem IcacheEffect.inv {i i' : CacheUnit} (he : IcacheEffect i i') (hi : i.Inv)
    (hw : 0 < i.ways) (hc : ∀ w s, (i.lines w s).state ≠ .dirty) :
    i'.Inv ∧ i'.shape = i.shape ∧ ∀ w s, (i'.lines w s).state ≠ .dirty := by
  cases he with
  | fades hf hst => exact ⟨hi.fades hf, hf.shape, fun w s h => hc w s (hst w s h)⟩
  | miss wbq addr way hhit he hlt =>
    subst he
    refine ⟨hi.miss (hlt hw) (fun _ => hhit) (fun w h => by cases h), i.miss_shape _ _ _ _ _, ?_⟩
    intro w s
    rcases i.miss_cases wbq addr .nToB none way with h | ⟨-, w', hup, -⟩ | ⟨-, -, -, h⟩
    · rw [h]
      exact hc w s
    · cases hup
    · rw [h]
      simp only [CacheUnit.enqueue, CacheUnit.setState, CacheUnit.setLine_lines]
      split
      · simp
      · exact hc w s
  | send id m hs =>
    obtain ⟨missq, ids, -, -, -, -, -, -, -, -, hlines⟩ := CacheUnit.send_cases hs
    exact ⟨(hi.send hs).1, CacheUnit.send_shape hs, hlines ▸ hc⟩
  | fill id data hlt hv he =>
    subst he
    refine ⟨(hi.fill hlt hv _ _).1, rfl, fun w s => ?_⟩
    rw [CacheUnit.fill_lines]
    split
    · simp
    · exact hc w s

theorem Inv.ways_pos (hi : Inv cfg t) (hw : 0 < cfg.icacheWays ∧ 0 < cfg.dcacheWays) :
    0 < t.icache.ways ∧ 0 < t.dcache.ways := by
  rw [show t.icache.ways = cfg.icacheWays from congrArg Prod.fst hi.icacheShape,
    show t.dcache.ways = cfg.dcacheWays from congrArg Prod.fst hi.dcacheShape]
  exact hw

theorem Inv.exec (hi : Inv cfg t) (hw : 0 < cfg.icacheWays ∧ 0 < cfg.dcacheWays) {c : Call}
    (hl : t.Legal c) : Inv cfg (t.exec c) := by
  obtain ⟨hwi, hwd⟩ := hi.ways_pos hw
  obtain ⟨hi1, hi2, hi3⟩ := (exec_icache hl).inv hi.icache hwi hi.clean
  obtain ⟨hd1, hd2⟩ : (t.exec c).dcache.Inv ∧ (t.exec c).dcache.shape = t.dcache.shape := by
    by_cases hc : c = .dcacheC
    · subst hc
      rw [dcacheC_dcache]
      exact ⟨hi.dcache, rfl⟩
    · exact (exec_effect hi.clean hwd hl hc).inv hi.dcache
  exact ⟨hi1, hd1, hi2.trans hi.icacheShape, hd2.trans hi.dcacheShape, hi3⟩

theorem run_inv (hw : 0 < cfg.icacheWays ∧ 0 < cfg.dcacheWays) {cs : List Call}
    (hr : Run (Tile.new cfg) cs t) : Inv cfg t := by
  induction hr with
  | nil => exact new_inv cfg
  | snoc _ hl ih => exact ih.exec hw hl

/-- One cache with `n` source ids: a block is in one line at most, which is what the
lookup loop asserts; no two outstanding misses have the same block or the same line;
their lines exist and are `NONE`; and every source id is free or in flight, not both. -/
structure Consistent (u : CacheUnit) (n : ℕ) : Prop where
  unique : ∀ w w' s s', (u.lines w s).state ≠ .none → (u.lines w' s').state ≠ .none →
    blockOf (u.lines w s).addr = blockOf (u.lines w' s').addr → w = w' ∧ s = s'
  assertion : ∀ addr, (u.hitWays addr).length ≤ 1
  blocks : (u.outstanding.map fun m => blockOf m.addr).Nodup
  targets : (u.outstanding.map fun m => (m.way, u.setIdx m.addr)).Nodup
  emptied : ∀ m ∈ u.outstanding, m.way < u.ways ∧ u.setIdx m.addr < u.sets ∧
    (u.lines m.way (u.setIdx m.addr)).state = .none
  ids : (u.sourceids ++ (List.range n).filter fun id => (u.inflight id).valid).Perm (List.range n)

theorem setIdx_lt {u : CacheUnit} (h : 0 < u.sets) (addr : ℕ) : u.setIdx addr < u.sets := by
  have hle : u.setIdx addr ≤ u.sets - 1 := Nat.and_le_right
  omega

theorem consistent_of_inv {u : CacheUnit} (hi : u.Inv) (hs : 0 < u.sets) :
    Consistent u u.nIds := by
  refine ⟨?_, hi.hitWays_length, hi.blocks, hi.targets, ?_, ?_⟩
  · intro w w' s s' h h' hb
    have hset : s = s' := by
      rw [(hi.placed w s h).2, (hi.placed w' s' h').2]
      exact CacheUnit.setIdx_block hb
    exact ⟨hi.unique w w' s s' h h' hb, hset⟩
  · intro m hm
    exact ⟨hi.wayLt m hm, setIdx_lt hs _, not_not.mp (hi.empty m hm)⟩
  · have hbusy : IdPool.busy u.slot u.nIds =
        (List.range u.nIds).filter fun id => (u.inflight id).valid := by
      apply List.filter_congr
      intro id _
      unfold CacheUnit.slot
      cases (u.inflight id).valid <;> rfl
    rw [← hbusy]
    exact hi.ids

/-- Over every interleaving of calls, with D-channel answers for outstanding source ids
only, both caches stay consistent, and every set index, also the one by which stores
reach the instruction cache, is inside its cache. -/
theorem run_keeps_caches_consistent (cfg : TileConfig)
    (hw : 0 < cfg.icacheWays ∧ 0 < cfg.dcacheWays) (hpow : ∃ k, cfg.dcacheSets = 2 ^ k)
    (heq : cfg.icacheSets = cfg.dcacheSets) (cs : List Call) (t : Tile)
    (hrun : Run (Tile.new cfg) cs t) :
    Consistent t.icache cfg.icSourceids ∧ Consistent t.dcache cfg.dcSourceids ∧
    ∀ addr, t.dcache.setIdx addr < cfg.dcacheSets ∧ t.icache.setIdx addr = t.dcache.setIdx addr := by
  have hi := run_inv hw hrun
  have hpos : 0 < cfg.dcacheSets := by
    obtain ⟨k, hk⟩ := hpow
    rw [hk]
    positivity
  have hsi : t.icache.sets = cfg.icacheSets := congrArg (fun p => p.2.1) hi.icacheShape
  have hsd : t.dcache.sets = cfg.dcacheSets := congrArg (fun p => p.2.1) hi.dcacheShape
  have hni : t.icache.nIds = cfg.icSourceids := congrArg (fun p => p.2.2) hi.icacheShape
  have hnd : t.dcache.nIds = cfg.dcSourceids := congrArg (fun p => p.2.2) hi.dcacheShape
  refine ⟨hni ▸ consistent_of_inv hi.icache (by omega), hnd ▸ consistent_of_inv hi.dcache (by omega),
    fun addr => ⟨hsd ▸ setIdx_lt (by omega) addr, ?_⟩⟩
  exact CacheUnit.setIdx_congr (by omega) addr

def smallTile : TileConfig where
  icacheWays := 2
  icacheSets := 64
  dcacheWays := 2
  dcacheSets := 64
  icSourceids := 2
  dcSourceids := 2
  useStq := true
  tcm := ⟨0, 0⟩
  cacheables := [⟨0x80000000, 0x10000000⟩]
  uncacheables := []

theorem refill_keeps_caches_consistent :
    ∃ t, Run (Tile.new smallTile) [.access (.load 0x80000000 8) 0, .dcacheA,
        .dcacheD 0 (fun _ => 0) true true] t ∧
      Consistent t.icache 2 ∧ Consistent t.dcache 2 := by
  have hrun := Run.snoc (Run.snoc (Run.snoc (Run.nil : Run (Tile.new smallTile) [] _)
    (c := .access (.load 0x80000000 8) 0) trivial) (c := .dcacheA) trivial)
    (c := .dcacheD 0 (fun _ => 0) true true) ⟨by decide, by decide⟩
  have h := run_keeps_caches_consistent smallTile ⟨by decide, by decide⟩ ⟨6, rfl⟩ rfl _ _ hrun
  exact ⟨_, hrun, h.1, h.2.1⟩

end PerceptronSoc.Tile
