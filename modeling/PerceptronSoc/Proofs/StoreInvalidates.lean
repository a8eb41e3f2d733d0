import PerceptronSoc.Proofs.TileRun

/-! What a completed store leaves of its block in the instruction cache. The loop of
`handle_cache_access` that drops it visits the set of the data cache's geometry, while
`icache_d` has put the block in the set of the instruction cache's own. -/

namespace PerceptronSoc.Tile

variable {cfg : TileConfig} {t : Tile} {addr : ℕ}

structure PowerOfTwoSets (c : TileConfig) : Prop where
  icache : ∃ k, c.icacheSets = 2 ^ k
  dcache : ∃ k, c.dcacheSets = 2 ^ k

theorem icacheMiss_shape (t : Tile) (addr way : ℕ) :
    (t.icacheMiss addr way).icache.shape = t.icache.shape := by
  unfold icacheMiss
  exact t.icache.miss_shape t.wbq addr .nToB none way

theorem dcacheMiss_shape (t : Tile) (addr : ℕ) (type : Transfer) (upgrade : Option ℕ) (way : ℕ) :
    (t.dcacheMiss addr type upgrade way).dcache.shape = t.dcache.shape := by
  unfold dcacheMiss
  exact t.dcache.miss_shape t.wbq addr type upgrade way

theorem store_shapes (t : Tile) (addr : ℕ) (bytes : List UInt8) (rand : ℕ) :
    (t.store addr bytes rand).2.icache.shape = t.icache.shape ∧
    (t.store addr bytes rand).2.dcache.shape = t.dcache.shape := by
  rcases t.store_cases addr bytes rand with ⟨_, _, _, he⟩ | ⟨_, _, _, he⟩ | ⟨_, he⟩ <;> rw [he]
  · exact ⟨rfl, rfl⟩
  · exact ⟨rfl, dcacheMiss_shape _ _ _ _ _⟩
  · exact ⟨rfl, dcacheMiss_shape _ _ _ _ _⟩

theorem exec_shapes (t : Tile) (c : Call) :
    (t.exec c).icache.shape = t.icache.shape ∧ (t.exec c).dcache.shape = t.dcache.shape := by
  cases c with
  | access a rand =>
    cases a with
    | fetch addr len =>
      simp only [exec, handleCacheAccess, fetch]
      split
      · exact ⟨rfl, rfl⟩
      · exact ⟨t.icacheMiss_shape addr _, rfl⟩
    | load addr len =>
      simp only [exec, handleCacheAccess, load]
      split
      · exact ⟨rfl, rfl⟩
      · exact ⟨rfl, rfl⟩
      · split
        · exact ⟨rfl, rfl⟩
        · exact ⟨rfl, t.dcacheMiss_shape addr .nToB none _⟩
    | store addr bytes => exact t.store_shapes addr bytes rand
  | mmioStore addr bytes => exact ⟨rfl, rfl⟩
  | drainStq rand =>
    simp only [exec]
    rcases t.drainStq_eq rand with ⟨-, he⟩ | ⟨s, rest, -, he⟩ <;> rw [he]
    · exact ⟨rfl, rfl⟩
    · exact t.store_shapes s.addr s.bytes rand
  | flushIcache => exact ⟨rfl, rfl⟩
  | icacheA =>
    simp only [exec, icacheA]
    split
    · next id m u hs => exact ⟨CacheUnit.send_shape hs, rfl⟩
    · exact ⟨rfl, rfl⟩
  | icacheD id data => exact ⟨rfl, rfl⟩
  | dcacheA =>
    simp only [exec, dcacheA]
    split
    · next id m u hs => exact ⟨rfl, CacheUnit.send_shape hs⟩
    · exact ⟨rfl, rfl⟩
  | dcacheB address source param =>
    simp only [exec, dcacheB]
    split <;> exact ⟨rfl, rfl⟩
  | dcacheC =>
    simp only [exec]
    rcases t.dcacheC_cases with he | ⟨e, rest, source, ids, -, he⟩ <;> rw [he] <;> exact ⟨rfl, rfl⟩
  | dcacheD id data hasData grantack => cases grantack <;> exact ⟨rfl, rfl⟩

theorem run_shapes {cs : List Call} (hr : Run (Tile.new cfg) cs t) :
    t.icache.shape = (cfg.icacheWays, cfg.icacheSets, cfg.icSourceids) ∧
    t.dcache.shape = (cfg.dcacheWays, cfg.dcacheSets, cfg.dcSourceids) := by
  induction hr with
  | nil => exact ⟨rfl, rfl⟩
  | snoc _ _ ih => exact ⟨(exec_shapes _ _).1.trans ih.1, (exec_shapes _ _).2.trans ih.2⟩

def HasBlock (u : CacheUnit) (way set addr : ℕ) : Prop :=
  u.Holds way set ∧ blockOf (u.lines way set).addr = blockOf addr

/-- The store to `addr` took `t` to `t'`, and the instruction cache has lost the block
and nothing else; the set by which the store reached its ways is one of its sets. -/
structure Invalidates (t t' : Tile) (addr : ℕ) : Prop where
  dropped : ∀ w < t'.icache.ways, ∀ s < t'.icache.sets, ¬HasBlock t'.icache w s addr
  index : ∀ w < t.icache.ways, t.dcache.setIdx addr < t.icache.sets
  others : ∀ w s, blockOf (t.icache.lines w s).addr ≠ blockOf addr →
    t'.icache.lines w s = t.icache.lines w s

/-- The store's set is the one the block belongs in, or at least a set of the cache,
and then this way did not have the block. -/
def Reaches (t : Tile) (way addr : ℕ) : Prop :=
  t.dcache.setIdx addr = t.icache.setIdx addr ∨
  t.dcache.setIdx addr < t.icache.sets ∧ ¬HasBlock t.icache way (t.icache.setIdx addr) addr

theorem invalidateIcache_lines (t : Tile) (addr w s : ℕ) :
    (t.invalidateIcache addr).icache.lines w s =
      if w < t.icache.ways ∧ s = t.dcache.setIdx addr ∧
          blockOf (t.icache.lines w s).addr = blockOf addr then
        { t.icache.lines w s with state := .none }
      else t.icache.lines w s := rfl

theorem invalidateIcache_others {w s : ℕ}
    (h : blockOf (t.icache.lines w s).addr ≠ blockOf addr) :
    (t.invalidateIcache addr).icache.lines w s = t.icache.lines w s := by
  rw [invalidateIcache_lines, if_neg fun hc => h hc.2.2]

/-- The block stays exactly where it was outside the visited set. -/
theorem invalidateIcache_hasBlock {w s : ℕ} (hw : w < t.icache.ways) :
    HasBlock (t.invalidateIcache addr).icache w s addr ↔
      HasBlock t.icache w s addr ∧ s ≠ t.dcache.setIdx addr := by
  unfold HasBlock CacheUnit.Holds
  rw [invalidateIcache_lines]
  split
  · next hc => simp [hc.2.1]
  · next hc =>
    constructor
    · intro ⟨hst, hb⟩
      exact ⟨⟨hst, hb⟩, fun hs => hc ⟨hw, hs, hb⟩⟩
    · intro h
      exact h.1

/-- A valid line of the block is in the set of the cache's own geometry. -/
theorem HasBlock.set_eq {u : CacheUnit} {w s : ℕ} (hi : u.Inv) (h : HasBlock u w s addr) :
    s = u.setIdx addr :=
  (hi.placed w s h.1).2.trans (CacheUnit.setIdx_block h.2)

theorem invalidates_iff (hi : t.icache.Inv) (hs : 0 < t.icache.sets) (bytes : List UInt8)
    (rand : ℕ) :
    Invalidates t (t.store addr bytes rand).2 addr ↔ ∀ w < t.icache.ways, t.Reaches w addr := by
  have hlt : t.icache.setIdx addr < t.icache.sets := setIdx_lt hs addr
  have hic := t.store_icache addr bytes rand
  constructor
  · intro h w hw
    by_cases heq : t.dcache.setIdx addr = t.icache.setIdx addr
    · exact .inl heq
    · refine .inr ⟨h.index w hw, fun hb => ?_⟩
      have hkept : HasBlock (t.invalidateIcache addr).icache w (t.icache.setIdx addr) addr :=
        (invalidateIcache_hasBlock hw).mpr ⟨hb, Ne.symm heq⟩
      rw [← hic] at hkept
      exact h.dropped w (by rw [hic]; exact hw) _ (by rw [hic]; exact hlt) hkept
  · intro h
    refine ⟨fun w hw s _ hb => ?_, fun w hw => ?_, fun w s hne => ?_⟩
    · rw [hic] at hw hb
      obtain ⟨hold, hne⟩ := (invalidateIcache_hasBlock (t := t) hw).mp hb
      have hset := hold.set_eq hi
      rcases h w hw with heq | ⟨-, hno⟩
      · exact hne (hset.trans heq.symm)
      · exact hno (hset ▸ hold)
    · rcases h w hw with heq | ⟨hin, -⟩
      · rw [heq]
        exact hlt
      · exact hin
    · rw [hic]
      exact invalidateIcache_others hne

theorem invalidates_of_no_ways (h : t.icache.ways = 0) (bytes : List UInt8) (rand : ℕ) :
    Invalidates t (t.store addr bytes rand).2 addr := by
  have hic := t.store_icache addr bytes rand
  refine ⟨fun w hw => ?_, fun w hw => ?_, fun w s hne => ?_⟩
  · rw [hic] at hw
    exact absurd (h ▸ hw) (Nat.not_lt_zero w)
  · exact absurd (h ▸ hw) (Nat.not_lt_zero w)
  · rw [hic]
    exact invalidateIcache_others hne

/-- In every state of every run, a store that completes drops its block from the
instruction cache, by an index inside it and without touching another block, if and only
if its set in the data cache's geometry is the block's set in the instruction cache's, or
is at least inside it while no way had the block. -/
theorem store_invalidates_icache (cfg : TileConfig) (hsets : PowerOfTwoSets cfg) (cs : List Call)
    (t : Tile) (hrun : Run (Tile.new cfg) cs t) (addr : ℕ) (bytes : List UInt8) (rand : ℕ)
    (hdone : (t.handleCacheAccess (.store addr bytes) rand).1.isSome = true) :
    Invalidates t (t.handleCacheAccess (.store addr bytes) rand).2 addr ↔
      ∀ w < t.icache.ways, t.Reaches w addr := by
  obtain ⟨hsi, hsd⟩ := run_shapes hrun
  have hwi : t.icache.ways = cfg.icacheWays := congrArg Prod.fst hsi
  have hwd : t.dcache.ways = cfg.dcacheWays := congrArg Prod.fst hsd
  have hwdpos : 0 < t.dcache.ways := by
    simp only [handleCacheAccess] at hdone
    rcases t.store_cases addr bytes rand with ⟨way, hh, -, -⟩ | ⟨_, _, _, he⟩ | ⟨_, he⟩
    · exact Nat.zero_lt_of_lt (CacheUnit.hitWay_some hh).1
    · simp [he] at hdone
    · simp [he] at hdone
  rcases Nat.eq_zero_or_pos t.icache.ways with h0 | hpos
  · exact iff_of_true (invalidates_of_no_ways h0 bytes rand)
      fun w hw => absurd (h0 ▸ hw) (Nat.not_lt_zero w)
  · have hi := run_inv ⟨hwi ▸ hpos, hwd ▸ hwdpos⟩ hrun
    have hs : 0 < t.icache.sets := by
      obtain ⟨k, hk⟩ := hsets.icache
      rw [show t.icache.sets = cfg.icacheSets from congrArg (fun p => p.2.1) hsi, hk]
      positivity
    exact invalidates_iff hi.icache hs bytes rand

def icacheTile (sets : ℕ) : TileConfig := { smallTile with icacheSets := sets }

/-- A block is fetched, stored to and granted; the store that is then tried again
completes. -/
def fetchThenOwn : List Call :=
  [.access (.fetch 0x80001000 4) 0, .icacheA, .icacheD 0 (fun _ => 0),
    .access (.store 0x80001000 [1]) 0, .dcacheA, .dcacheD 0 (fun _ => 0) true true]

theorem fetchThenOwn_run {sets : ℕ} (h : sets = 64 ∨ sets = 128) :
    Run (Tile.new (icacheTile sets)) fetchThenOwn
      (fetchThenOwn.foldl exec (Tile.new (icacheTile sets))) := by
  have hfetched := Run.snoc (Run.snoc (Run.nil : Run (Tile.new (icacheTile sets)) [] _)
    (c := .access (.fetch 0x80001000 4) 0) trivial) (c := .icacheA) trivial
  have hstored := Run.snoc (Run.snoc (Run.snoc hfetched
    (c := .icacheD 0 (fun _ => 0)) (by rcases h with rfl | rfl <;> exact ⟨by decide, by decide⟩))
    (c := .access (.store 0x80001000 [1]) 0) trivial) (c := .dcacheA) trivial
  exact Run.snoc hstored (c := .dcacheD 0 (fun _ => 0) true true)
    (by rcases h with rfl | rfl <;> exact ⟨by decide, by decide⟩)

/-- Where the geometries agree the fetched block is dropped. -/
theorem store_drops_fetched_block :
    ∃ t, Run (Tile.new (icacheTile 64)) fetchThenOwn t ∧
      Invalidates t (t.handleCacheAccess (.store 0x80001000 [1]) 0).2 0x80001000 := by
  have hrun := fetchThenOwn_run (.inl rfl)
  refine ⟨_, hrun, ?_⟩
  rw [store_invalidates_icache (icacheTile 64) ⟨⟨6, rfl⟩, ⟨6, rfl⟩⟩ _ _ hrun 0x80001000 [1] 0
    (by decide)]
  exact fun w _ => .inl rfl

/-- The store completes by way of set 0 of the data cache's geometry, and set 64 of the
instruction cache keeps the block. -/
theorem store_leaves_fetched_block :
    ∃ t, Run (Tile.new (icacheTile 128)) fetchThenOwn t ∧ PowerOfTwoSets (icacheTile 128) ∧
      (t.handleCacheAccess (.store 0x80001000 [1]) 0).1 = some [] ∧
      ¬Invalidates t (t.handleCacheAccess (.store 0x80001000 [1]) 0).2 0x80001000 := by
  refine ⟨_, fetchThenOwn_run (.inr rfl), ⟨⟨7, rfl⟩, ⟨6, rfl⟩⟩, by decide, fun h => ?_⟩
  refine h.dropped 0 (by decide) 64 (by decide) ⟨?_, by decide⟩
  unfold CacheUnit.Holds
  decide

end PerceptronSoc.Tile
