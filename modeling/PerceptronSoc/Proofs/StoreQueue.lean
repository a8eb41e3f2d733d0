import PerceptronSoc.Proofs.Coherence

/-! When a load sees the stores before it. The scan of the store queue goes from the
oldest store to the youngest, forwards from a store at the load's own address only if it
is strictly longer than the load, and adds addresses modulo `2 ^ 64`. -/

namespace PerceptronSoc

open Tile

variable {addr len : ℕ} {q : List StqEntry} {bytes : List UInt8}

def StqEntry.overlaps (s : StqEntry) (addr len : ℕ) : Bool :=
  decide (s.addr < addr + len ∧ addr < s.addr + s.len)

/-- The scan stops at such a store: it starts at another address, and the end of the
lower access does not wrap; or it starts with the load and is longer. -/
def StqEntry.stops (s : StqEntry) (addr len : ℕ) : Bool :=
  decide (addr < s.addr ∧ addr + len < 2 ^ 64 ∨ s.addr < addr ∧ s.addr + s.len < 2 ^ 64 ∨
    s.addr = addr ∧ len < s.len)

namespace Tile

def sharing (q : List StqEntry) (addr len : ℕ) : List StqEntry :=
  q.filter fun s => s.overlaps addr len

/-- No queued store shares a byte with the load; or the scan stops at one of those that
do, and if that one starts with the load, it is the youngest of them. -/
def ScanOrdered (q : List StqEntry) (addr len : ℕ) : Prop :=
  match (sharing q addr len).dropWhile fun s => !s.stops addr len with
  | [] => sharing q addr len = []
  | s :: younger => s.addr = addr → younger = []

/-- A store that the scan steps over either shares no byte or is not one to stop at. -/
theorem not_stops_of_skipped {s : StqEntry} (hf : ¬(addr = s.addr ∧ len < s.len))
    (hl : ¬(addr < s.addr ∧ s.addr < (addr + len) % 2 ^ 64))
    (hr : ¬(s.addr < addr ∧ addr < (s.addr + s.len) % 2 ^ 64)) (ho : s.overlaps addr len = true) :
    s.stops addr len = false := by
  simp only [StqEntry.overlaps, StqEntry.stops, decide_eq_true_eq, decide_eq_false_iff_not] at ho ⊢
  rintro (⟨hlt, hw⟩ | ⟨hlt, hw⟩ | ⟨he, hlen⟩)
  · rw [Nat.mod_eq_of_lt hw] at hl
    omega
  · rw [Nat.mod_eq_of_lt hw] at hr
    omega
  · exact hf ⟨he.symm, hlen⟩

/-- What the scan does with its oldest store. -/
theorem scanStq_cons (addr len : ℕ) (s : StqEntry) (rest : List StqEntry) :
    (s.addr = addr ∧ len < s.len ∧ scanStq addr len (s :: rest) = .forward (s.bytes.take len)) ∨
    scanStq addr len (s :: rest) = .wait ∨
    ((s.overlaps addr len = true → s.stops addr len = false) ∧
      scanStq addr len (s :: rest) = scanStq addr len rest) := by
  rw [scanStq]
  split
  · next hs => exact .inl ⟨hs.1.symm, hs.2, rfl⟩
  · split
    · exact .inr (.inl rfl)
    · split
      · exact .inr (.inl rfl)
      · next hf hl hr => exact .inr (.inr ⟨not_stops_of_skipped hf hl hr, rfl⟩)

theorem scanStq_forward (h : scanStq addr len q = .forward bytes) :
    ∃ older s younger, q = older ++ s :: younger ∧ s.addr = addr ∧ len < s.len ∧
      bytes = s.bytes.take len ∧
      ∀ z ∈ older, z.overlaps addr len = true → z.stops addr len = false := by
  induction q with
  | nil => cases h
  | cons s rest ih =>
    rcases scanStq_cons addr len s rest with ⟨ha, hlen, he⟩ | he | ⟨hs, he⟩ <;> rw [he] at h
    · cases h
      exact ⟨[], s, rest, rfl, ha, hlen, rfl, by simp⟩
    · cases h
    · obtain ⟨older, s', younger, rfl, ha, hlen, hb, hold⟩ := ih h
      exact ⟨s :: older, s', younger, rfl, ha, hlen, hb, List.forall_mem_cons.mpr ⟨hs, hold⟩⟩

theorem scanStq_pass (h : scanStq addr len q = .pass) :
    ∀ z ∈ q, z.overlaps addr len = true → z.stops addr len = false := by
  induction q with
  | nil => simp
  | cons s rest ih =>
    rcases scanStq_cons addr len s rest with ⟨-, -, he⟩ | he | ⟨hs, he⟩ <;> rw [he] at h
    · cases h
    · cases h
    · exact List.forall_mem_cons.mpr ⟨hs, ih h⟩

theorem dropWhile_sharing {older : List StqEntry}
    (h : ∀ z ∈ older, z.overlaps addr len = true → z.stops addr len = false)
    (rest : List StqEntry) :
    ((sharing older addr len ++ rest).dropWhile fun s => !s.stops addr len) =
      rest.dropWhile fun s => !s.stops addr len := by
  apply List.dropWhile_append_of_pos
  intro z hz
  obtain ⟨hz, ho⟩ := List.mem_filter.mp hz
  rw [h z hz ho]
  rfl

/-- A forwarding store is the youngest that shares a byte with the load. -/
theorem ScanOrdered.forward {older younger : List StqEntry} {s : StqEntry}
    (hq : ScanOrdered (older ++ s :: younger) addr len) (ha : s.addr = addr) (hlen : len < s.len)
    (hpos : 0 < len) (hold : ∀ z ∈ older, z.overlaps addr len = true → z.stops addr len = false) :
    ∀ z ∈ younger, z.overlaps addr len = false := by
  have ho : s.overlaps addr len = true := by
    simp only [StqEntry.overlaps, decide_eq_true_eq]
    omega
  have hs : s.stops addr len = true := by
    simp only [StqEntry.stops, decide_eq_true_eq]
    exact .inr (.inr ⟨ha, hlen⟩)
  have hsplit : sharing (older ++ s :: younger) addr len =
      sharing older addr len ++ s :: sharing younger addr len := by
    simp [sharing, ho]
  unfold ScanOrdered at hq
  rw [hsplit, dropWhile_sharing hold, List.dropWhile_cons_of_neg (by simp [hs])] at hq
  intro z hz
  have hnone := List.filter_eq_nil_iff.mp (hq ha) z hz
  simpa using hnone

/-- Past the whole queue, no store shares a byte with the load. -/
theorem ScanOrdered.pass (hq : ScanOrdered q addr len)
    (hold : ∀ z ∈ q, z.overlaps addr len = true → z.stops addr len = false) :
    ∀ z ∈ q, z.overlaps addr len = false := by
  have hdrop := dropWhile_sharing hold []
  rw [List.append_nil, List.dropWhile_nil] at hdrop
  unfold ScanOrdered at hq
  rw [hdrop] at hq
  intro z hz
  have hnone := List.filter_eq_nil_iff.mp hq z hz
  simpa using hnone

/-- A completed load has its bytes from the queue or from the line it hit. -/
theorem load_cases {t : Tile} {rand : ℕ} (h : (t.load addr len rand).1 = some bytes) :
    scanStq addr len t.stq = .forward bytes ∨
    scanStq addr len t.stq = .pass ∧ ∃ way, t.dcache.hitWay addr = some way ∧
      bytes = (t.dcache.lines way (t.dcache.setIdx addr)).data.read (addr % 64) len := by
  unfold load at h
  split at h
  · next hs =>
    cases h
    exact .inl hs
  · cases h
  · next hs =>
    split at h
    · next way hh =>
      cases h
      exact .inr ⟨hs, way, hh, rfl⟩
    · cases h

end Tile

theorem byteAt_of_not_overlaps {s : StqEntry} (h : s.overlaps addr len = false) {i : ℕ}
    (hi : i < len) : s.byteAt (addr + i) = none := by
  apply StqEntry.byteAt_eq_none
  simp only [StqEntry.overlaps, decide_eq_false_iff_not] at h
  omega

theorem valueAt_eq (init : ℕ → UInt8) (stores : List StqEntry) (a : ℕ) :
    valueAt init stores a = afterStores init stores a := by
  unfold valueAt afterStores
  rw [Overlay.applyAll_eq_youngest, ← List.map_reverse, List.findSome?_map]
  rfl

/-- Stores that share no byte with the load can be left out. -/
theorem afterStores_of_not_overlaps {value : ℕ → UInt8} {stores : List StqEntry}
    (h : ∀ z ∈ stores, z.overlaps addr len = false) {i : ℕ} (hi : i < len) :
    afterStores value stores (addr + i) = value (addr + i) := by
  apply Overlay.applyAll_none
  intro p hp
  obtain ⟨z, hz, rfl⟩ := List.mem_map.mp hp
  exact byteAt_of_not_overlaps (h z hz) hi

/-- The forwarded bytes are those of a store with none after it. -/
theorem take_eq_afterStores {value : ℕ → UInt8} {s : StqEntry} {younger : List StqEntry}
    (ha : s.addr = addr) (hlen : len < s.len)
    (h : 0 < len → ∀ z ∈ younger, z.overlaps addr len = false) :
    s.bytes.take len = (List.range len).map fun i => afterStores value (s :: younger) (addr + i) := by
  have hle : len ≤ s.bytes.length := hlen.le
  apply List.ext_getElem
  · simpa using hle
  · intro i hi hi'
    have hil : i < len := by simpa using hi'
    have hbyte : s.byteAt (addr + i) = some s.bytes[i] := by
      unfold StqEntry.byteAt
      rw [if_pos (by omega), show addr + i - s.addr = i by omega]
      exact List.getElem?_eq_getElem (by omega)
    rw [List.getElem_take, List.getElem_map, List.getElem_range, ← List.singleton_append,
      afterStores_append, afterStores_of_not_overlaps (h (by omega)) hil]
    exact (Overlay.apply_some hbyte).symm

theorem read_blockAt (value : ℕ → UInt8) (h : addr % 64 + len ≤ 64) :
    (blockAt value addr).read (addr % 64) len = (List.range len).map fun i => value (addr + i) := by
  unfold Block.read
  apply List.map_congr_left
  intro i hi
  have hi := List.mem_range.mp hi
  unfold Block.byte blockAt
  rw [dif_pos (by omega)]
  dsimp only
  rw [← Nat.add_assoc, block_offset]

namespace MemSys

variable {cfg : TileConfig} {init : ℕ → UInt8} {cs : List Call} {σ : MemSys}

/-- Over every interleaving, a completed load whose scan is ordered returns, byte by
byte, the youngest store issued before it, and the initial memory where there is none. -/
theorem load_returns_youngest_store (cfg : TileConfig)
    (hw : 0 < cfg.icacheWays ∧ 0 < cfg.dcacheWays) (init : ℕ → UInt8) (cs : List Call) (σ : MemSys)
    (hrun : Run (MemSys.new cfg init) cs σ) (addr len rand : ℕ)
    (hl : σ.Legal (.access (.load addr len) rand)) (bytes : List UInt8)
    (hdone : (σ.tile.handleCacheAccess (.load addr len) rand).1 = some bytes)
    (hord : ScanOrdered σ.tile.stq addr len) :
    bytes = (List.range len).map fun i => valueAt init (storesOf cs) (addr + i) := by
  obtain ⟨drained, hd⟩ := run_drained hw hrun
  simp only [valueAt_eq, hd.order]
  rcases load_cases hdone with hs | ⟨hs, way, hhit, rfl⟩
  · obtain ⟨older, s, younger, hq, ha, hlen, rfl, hold⟩ := scanStq_forward hs
    rw [hq] at hord ⊢
    rw [← List.append_assoc, afterStores_append]
    exact take_eq_afterStores ha hlen fun hpos => hord.forward ha hlen hpos hold
  · have hnone := hord.pass (scanStq_pass hs)
    obtain ⟨-, hblk, hheld⟩ := CacheUnit.hitWay_some hhit
    rw [hd.coherent.line _ _ hheld, blockAt_congr hblk, read_blockAt _ hl.2.2]
    apply List.map_congr_left
    intro i hi
    rw [afterStores_append, afterStores_of_not_overlaps hnone (List.mem_range.mp hi)]

def twoStores : List Call :=
  [.access (.load 0x80000000 8) 0, .dcacheA, .dcacheD 0 (fun _ => 0) true true,
    .mmioStore 0x80000000 [1, 2, 3, 4, 5, 6, 7, 8], .mmioStore 0x80000008 [9, 10]]

theorem run_twoStores : ∃ σ, Run (MemSys.new smallTile fun _ => 0) twoStores σ ∧
    σ.tile = twoStores.foldl Tile.exec (Tile.new smallTile) := by
  refine ⟨_, Run.snoc (Run.snoc (Run.snoc (Run.snoc (Run.snoc (Run.nil :
    Run (MemSys.new smallTile fun _ => 0) [] _)
    (c := .access (.load 0x80000000 8) 0) ⟨trivial, by decide⟩) (c := .dcacheA) ⟨trivial, trivial⟩)
    (c := .dcacheD 0 (fun _ => 0) true true) ⟨⟨by decide, by decide⟩, rfl⟩)
    (c := .mmioStore 0x80000000 [1, 2, 3, 4, 5, 6, 7, 8]) ⟨trivial, by decide⟩)
    (c := .mmioStore 0x80000008 [9, 10]) ⟨trivial, by decide⟩, rfl⟩

theorem load_returns_first_half :
    ∃ σ, Run (MemSys.new smallTile fun _ => 0) twoStores σ ∧
      (σ.tile.handleCacheAccess (.load 0x80000000 4) 0).1 = some [1, 2, 3, 4] ∧
      [1, 2, 3, 4] = (List.range 4).map fun i =>
        valueAt (fun _ => 0) (storesOf twoStores) (0x80000000 + i) := by
  obtain ⟨σ, hrun, ht⟩ := run_twoStores
  have hdone : (σ.tile.handleCacheAccess (.load 0x80000000 4) 0).1 = some [1, 2, 3, 4] := by
    rw [ht]
    decide
  refine ⟨σ, hrun, hdone, load_returns_youngest_store smallTile ⟨by decide, by decide⟩ _ _ σ hrun
    0x80000000 4 0 ⟨trivial, ?_, by decide⟩ _ hdone ?_⟩
  · rw [ht]
    decide
  · rw [ht]
    intro _
    rfl

/-- A load as long as the first store steps over it and reads the line behind it. -/
theorem load_of_equal_length_is_stale :
    ∃ σ, Run (MemSys.new smallTile fun _ => 0) twoStores σ ∧
      σ.Legal (.access (.load 0x80000000 8) 0) ∧
      (σ.tile.handleCacheAccess (.load 0x80000000 8) 0).1 = some [0, 0, 0, 0, 0, 0, 0, 0] ∧
      ((List.range 8).map fun i => valueAt (fun _ => 0) (storesOf twoStores) (0x80000000 + i)) =
        [1, 2, 3, 4, 5, 6, 7, 8] := by
  obtain ⟨σ, hrun, ht⟩ := run_twoStores
  refine ⟨σ, hrun, ⟨trivial, ?_, by decide⟩, ?_, by decide⟩
  · rw [ht]
    decide
  · rw [ht]
    decide

end MemSys

end PerceptronSoc
