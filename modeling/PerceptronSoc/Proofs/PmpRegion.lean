import PerceptronSoc.Lib.BitBlocks
import PerceptronSoc.Spec.Pmp

/-! The addresses that an entry matches. A `TOR` entry matches an interval, the others an
aligned block; so a page that `subset_match` does not name lies wholly inside the region of
an entry or wholly outside it, and one check decides for the whole page. -/

namespace PerceptronSoc.Pmp

open PmpEntry

variable {p : Pmp} {i : ℕ}

/-- The size of the block that a `NAPOT` or `NA4` entry names, as a power of two. -/
def IsBlockBits (p : Pmp) (i s : ℕ) : Prop :=
  ∃ k, s = k + 2 ∧ (∀ j < k, (p.napotOnes i).getLsbD j = true) ∧ (p.napotOnes i).getLsbD k = false

theorem exists_blockBits (p : Pmp) (i : ℕ) : ∃ s, p.IsBlockBits i s := by
  obtain ⟨k, -, hones, hzero⟩ := BitBlocks.exists_lowestZero (p.napotOnes i)
  exact ⟨k + 2, k, rfl, hones, hzero⟩

theorem IsBlockBits.highMask {s : ℕ} (h : p.IsBlockBits i s) :
    BitBlocks.HighMask (p.napotMask i) s := by
  obtain ⟨k, rfl, hones, hzero⟩ := h
  intro j hj
  have hlow := BitBlocks.getLsbD_lowOnes hones hzero
  have hmask : p.napotMask i = ~~~(BitBlocks.lowOnes (p.napotOnes i)) <<< 2 := rfl
  rw [hmask, BitVec.getLsbD_shiftLeft, BitVec.getLsbD_not, hlow]
  by_cases h2 : j < 2
  · simp [h2]
    omega
  · have hlt : j - 2 < 64 := by omega
    have hiff : decide (j - 2 < k) = !decide (k + 2 ≤ j) := by
      by_cases hk : k + 2 ≤ j
      · simp [hk]
        omega
      · simp [hk]
        omega
    simp [hj, h2, hlt, hiff]

/-- The addresses of an entry: an interval below the entry's own address, or the aligned
block around it. -/
def InRegion (p : Pmp) (i addr : ℕ) : Prop :=
  if (p.entries i).cfg &&& pmpA = 0 then False
  else if (p.entries i).cfg &&& pmpA = pmpTor then
    (p.torBasePaddr i).toNat ≤ addr ∧ addr < (p.torPaddr i).toNat
  else ∀ s, p.IsBlockBits i s → addr / 2 ^ s = (p.torPaddr i).toNat / 2 ^ s

theorem match4_block {s : ℕ} (hs : p.IsBlockBits i s) (hoff : (p.entries i).cfg &&& pmpA ≠ 0)
    (htor : (p.entries i).cfg &&& pmpA ≠ pmpTor) (addr : BitVec 64) :
    p.match4 i addr = true ↔ addr.toNat / 2 ^ s = (p.torPaddr i).toNat / 2 ^ s := by
  unfold match4
  simp only [hoff, htor, if_false, beq_iff_eq]
  exact BitBlocks.xor_and_eq_zero_iff hs.highMask addr (p.torPaddr i)

theorem match4_tor (htor : (p.entries i).cfg &&& pmpA = pmpTor) (addr : BitVec 64) :
    p.match4 i addr = true ↔
      (p.torBasePaddr i).toNat ≤ addr.toNat ∧ addr.toNat < (p.torPaddr i).toNat := by
  have hoff : ¬ pmpTor = 0 := by decide
  unfold match4
  simp only [htor, hoff, if_false, if_true, Bool.and_eq_true, decide_eq_true_eq, BitVec.le_def,
    BitVec.lt_def]

theorem match4_iff (addr : BitVec 64) : p.match4 i addr = true ↔ p.InRegion i addr.toNat := by
  unfold InRegion
  split_ifs with hoff htor
  · simp [match4, hoff]
  · exact match4_tor htor addr
  · constructor
    · intro h s hs
      exact (match4_block hs hoff htor addr).mp h
    · intro h
      obtain ⟨s, hs⟩ := p.exists_blockBits i
      exact (match4_block hs hoff htor addr).mpr (h s hs)

theorem tor_homogeneous {base top a j x y : ℕ} (ha : a % 2 ^ j = 0)
    (h : a / 2 ^ j < base / 2 ^ j ∨ top ≤ a ∨ base ≤ a ∧ a / 2 ^ j < top / 2 ^ j)
    (hx : a ≤ x ∧ x < a + 2 ^ j) (hy : a ≤ y ∧ y < a + 2 ^ j) :
    base ≤ x ∧ x < top ↔ base ≤ y ∧ y < top := by
  -- a smaller block number is a smaller address
  have hbelow : ∀ z b, (a ≤ z ∧ z < a + 2 ^ j) → a / 2 ^ j < b / 2 ^ j → z < b := by
    intro z b hz hlt
    rw [← BitBlocks.div_eq_of_mem_block ha hz.1 hz.2] at hlt
    exact lt_of_not_ge fun hle => absurd (Nat.div_le_div_right hle) (not_le.mpr hlt)
  rcases h with h | h | ⟨h1, h2⟩
  · have hxb := hbelow x base hx h
    have hyb := hbelow y base hy h
    constructor <;> rintro ⟨h1, h2⟩ <;> omega
  · constructor <;> rintro ⟨h1, h2⟩ <;> omega
  · have hxt := hbelow x top hx h2
    have hyt := hbelow y top hy h2
    exact ⟨fun _ => ⟨by omega, hyt⟩, fun _ => ⟨by omega, hxt⟩⟩

theorem block_homogeneous {t a j s x y : ℕ} (ha : a % 2 ^ j = 0)
    (h : j ≤ s ∨ a / 2 ^ j ≠ t / 2 ^ j) (hx : a ≤ x ∧ x < a + 2 ^ j) (hy : a ≤ y ∧ y < a + 2 ^ j) :
    x / 2 ^ s = t / 2 ^ s ↔ y / 2 ^ s = t / 2 ^ s := by
  have hxa := BitBlocks.div_eq_of_mem_block ha hx.1 hx.2
  have hya := BitBlocks.div_eq_of_mem_block ha hy.1 hy.2
  rcases le_or_gt j s with hjs | hjs
  · rw [BitBlocks.div_eq_of_le (hxa.trans hya.symm) hjs]
  · have hne := h.resolve_left (not_le.mpr hjs)
    constructor
    · intro he
      exact absurd (hxa.symm.trans (BitBlocks.div_eq_of_le he hjs.le)) hne
    · intro he
      exact absurd (hya.symm.trans (BitBlocks.div_eq_of_le he hjs.le)) hne

/-- A range that `subset_match` does not name: the entry matches all of it or nothing. -/
theorem match4_eq_of_not_subsetMatch {j : ℕ} (hj : j < 64) {addr : BitVec 64}
    (ha : addr.toNat % 2 ^ j = 0) (h : p.subsetMatch i addr (BitVec.twoPow 64 j) = false)
    {x y : BitVec 64} (hx : addr.toNat ≤ x.toNat ∧ x.toNat < addr.toNat + 2 ^ j)
    (hy : addr.toNat ≤ y.toNat ∧ y.toNat < addr.toNat + 2 ^ j) :
    p.match4 i x = p.match4 i y := by
  rw [Bool.eq_iff_iff]
  by_cases hoff : (p.entries i).cfg &&& pmpA = 0
  · simp [match4, hoff]
  unfold subsetMatch at h
  by_cases htor : (p.entries i).cfg &&& pmpA = pmpTor
  · have hne : ¬ pmpTor = 0 := by decide
    simp only [htor, hne, if_false, beq_self_eq_true, if_true, Bool.not_eq_false', Bool.or_eq_true,
      Bool.and_eq_true, decide_eq_true_eq, BitBlocks.and_neg_lt_iff hj, BitVec.le_def] at h
    rw [match4_tor htor, match4_tor htor]
    exact tor_homogeneous ha (or_assoc.mp h) hx hy
  · obtain ⟨s, hs⟩ := p.exists_blockBits i
    have hbit : (~~~(p.napotMask i <<< 1)).getLsbD j = false ↔ ¬ j ≤ s := by
      rw [BitVec.getLsbD_not, BitVec.getLsbD_shiftLeft]
      by_cases h0 : j < 1
      · simp [hj, h0]
        omega
      · rw [hs.highMask (j - 1) (by omega)]
        simp [hj, h0]
        omega
    simp only [hoff, beq_false_of_ne htor, if_false, Bool.false_eq_true, Bool.not_eq_false'] at h
    rw [Bool.or_eq_true, bne_iff_ne, bne_iff_ne, ne_eq, ne_eq,
      BitBlocks.and_twoPow_eq_zero_iff hj, BitBlocks.xor_div_eq_zero_iff hj, hbit, not_not] at h
    rw [match4_block hs hoff htor, match4_block hs hoff htor]
    exact block_homogeneous ha h hx hy

theorem sectors_ne_nil {addr : BitVec 64} {len : ℕ} (hlen : 1 ≤ len) : sectors addr len ≠ [] := by
  unfold sectors
  rw [ne_eq, List.map_eq_nil_iff, List.range_eq_nil]
  omega

/-- A sector of an access starts inside it. -/
theorem toNat_mem_sectors {addr x : BitVec 64} {len : ℕ} (hend : addr.toNat + len ≤ 2 ^ 64)
    (hx : x ∈ sectors addr len) : ∃ k, 4 * k < len ∧ x.toNat = addr.toNat + 4 * k := by
  obtain ⟨k, hk, rfl⟩ := List.mem_map.mp hx
  rw [List.mem_range] at hk
  refine ⟨k, by omega, ?_⟩
  rw [BitVec.toNat_add, BitVec.toNat_ofNat, Nat.mod_eq_of_lt (by omega : 4 * k < 2 ^ 64),
    Nat.mod_eq_of_lt (by omega)]

theorem any_eq_of_const {α : Type*} {l : List α} {f : α → Bool} {b : Bool} (hne : l ≠ [])
    (h : ∀ x ∈ l, f x = b) : l.any f = b ∧ l.all f = b := by
  obtain ⟨x, l, rfl⟩ := List.exists_cons_of_ne_nil hne
  cases b with
  | true =>
    refine ⟨?_, List.all_eq_true.mpr h⟩
    rw [List.any_cons, h x List.mem_cons_self, Bool.true_or]
  | false =>
    refine ⟨by simpa using h, ?_⟩
    rw [List.all_cons, h x List.mem_cons_self, Bool.false_and]

/-- Entries that match all of one access and of another alike decide them alike. -/
theorem pmpLoop_congr {x y : BitVec 64} {len len' : ℕ} (hlen : 1 ≤ len) (hlen' : 1 ≤ len')
    (type : AccessType) (mode : Priv) {i n : ℕ}
    (h : ∀ e, i ≤ e → e < i + n → ∃ b, (∀ z ∈ sectors x len, p.match4 e z = b) ∧
      ∀ z ∈ sectors y len', p.match4 e z = b) :
    p.pmpLoop x len type mode i n = p.pmpLoop y len' type mode i n := by
  induction n generalizing i with
  | zero => rfl
  | succ n ih =>
    obtain ⟨b, hx, hy⟩ := h i le_rfl (by omega)
    obtain ⟨hxany, hxall⟩ := any_eq_of_const (sectors_ne_nil hlen) hx
    obtain ⟨hyany, hyall⟩ := any_eq_of_const (sectors_ne_nil hlen') hy
    rw [pmpLoop, pmpLoop, hxany, hxall, hyany, hyall]
    rw [ih (i := i + 1) fun e h1 h2 => h e (by omega) (by omega)]

/-- One check decides for every access inside a homogeneous range. -/
theorem pmpOk_eq_of_homogeneous {j : ℕ} (hj : j < 64) {page x y : BitVec 64} {len len' : ℕ}
    (ha : page.toNat % 2 ^ j = 0) (hh : p.pmpHomogeneous page (BitVec.twoPow 64 j) = true)
    (hlen : 1 ≤ len) (hx : page.toNat ≤ x.toNat ∧ x.toNat + len ≤ page.toNat + 2 ^ j)
    (hlen' : 1 ≤ len') (hy : page.toNat ≤ y.toNat ∧ y.toNat + len' ≤ page.toNat + 2 ^ j)
    (type : AccessType) (mode : Priv) : p.pmpOk x len type mode = p.pmpOk y len' type mode := by
  -- an aligned range does not reach past the last address
  have hfit : page.toNat + 2 ^ j ≤ 2 ^ 64 := by
    have hdvd : 2 ^ j ∣ 2 ^ 64 - page.toNat :=
      Nat.dvd_sub (Nat.pow_dvd_pow 2 hj.le) (Nat.dvd_of_mod_eq_zero ha)
    have hlt := page.isLt
    have := Nat.le_of_dvd (by omega) hdvd
    omega
  unfold pmpOk
  split_ifs with h0
  · rfl
  · apply pmpLoop_congr hlen hlen'
    intro e _ he
    have hsub : p.subsetMatch e page (BitVec.twoPow 64 j) = false := by
      simpa using List.all_eq_true.mp hh e (List.mem_range.mpr (by omega))
    refine ⟨p.match4 e page, fun z hz => ?_, fun z hz => ?_⟩
    · obtain ⟨k, hk, hzk⟩ := toNat_mem_sectors (by omega) hz
      exact match4_eq_of_not_subsetMatch hj ha hsub ⟨by omega, by omega⟩ ⟨le_rfl, by omega⟩
    · obtain ⟨k, hk, hzk⟩ := toNat_mem_sectors (by omega) hz
      exact match4_eq_of_not_subsetMatch hj ha hsub ⟨by omega, by omega⟩ ⟨le_rfl, by omega⟩

theorem torPaddr_dvd (p : Pmp) (i : ℕ) : 4 ∣ (p.torPaddr i).toNat := by
  unfold torPaddr
  rw [BitVec.toNat_shiftLeft, Nat.shiftLeft_eq]
  omega

theorem torBasePaddr_dvd (p : Pmp) (i : ℕ) : 4 ∣ (p.torBasePaddr i).toNat := by
  unfold torBasePaddr
  split_ifs
  · exact Nat.dvd_zero 4
  · exact p.torPaddr_dvd (i - 1)

/-- Every region is made of whole 4-byte sectors. -/
theorem inRegion_congr {x y : ℕ} (h : x / 4 = y / 4) : p.InRegion i x ↔ p.InRegion i y := by
  have hbase := p.torBasePaddr_dvd i
  have htop := p.torPaddr_dvd i
  unfold InRegion
  split_ifs
  · rfl
  · constructor <;> rintro ⟨h1, h2⟩ <;> omega
  · apply forall₂_congr
    rintro s ⟨k, rfl, -⟩
    rw [BitBlocks.div_eq_of_le (j := 2) (by simpa using h) (by omega : 2 ≤ k + 2)]

/-- The bytes that `load`, `store` and `fetch` ask for. -/
def Touches (addr : BitVec 64) (len b : ℕ) : Prop := addr.toNat ≤ b ∧ b < addr.toNat + len

/-- Every byte of the access lies in a sector that `pmp_ok` looks at: the access starts a
sector or stays inside one. -/
def Covered (addr : BitVec 64) (len : ℕ) : Prop :=
  addr.toNat % 4 = 0 ∨ addr.toNat % 4 + len ≤ 4

theorem Covered.exists_sector {addr : BitVec 64} {len b : ℕ} (hc : Covered addr len)
    (hend : addr.toNat + len ≤ 2 ^ 64) (hb : Touches addr len b) :
    ∃ x ∈ sectors addr len, x.toNat / 4 = b / 4 := by
  obtain ⟨h1, h2⟩ := hb
  have hmem : ∀ k, 4 * k < len → addr + BitVec.ofNat 64 (4 * k) ∈ sectors addr len := fun k hk =>
    List.mem_map.mpr ⟨k, List.mem_range.mpr (by omega), rfl⟩
  have hval : ∀ k, 4 * k < len →
      (addr + BitVec.ofNat 64 (4 * k)).toNat = addr.toNat + 4 * k := by
    intro k hk
    rw [BitVec.toNat_add, BitVec.toNat_ofNat, Nat.mod_eq_of_lt (by omega : 4 * k < 2 ^ 64),
      Nat.mod_eq_of_lt (by omega)]
  rcases hc with hc | hc
  · refine ⟨_, hmem ((b - addr.toNat) / 4) (by omega), ?_⟩
    rw [hval _ (by omega)]
    omega
  · refine ⟨_, hmem 0 (by omega), ?_⟩
    rw [hval _ (by omega)]
    omega

theorem any_match4_iff {addr : BitVec 64} {len : ℕ} (hc : Covered addr len)
    (hend : addr.toNat + len ≤ 2 ^ 64) :
    (sectors addr len).any (p.match4 i) = true ↔ ∃ b, Touches addr len b ∧ p.InRegion i b := by
  rw [List.any_eq_true]
  constructor
  · rintro ⟨x, hx, hm⟩
    obtain ⟨k, hk, hxk⟩ := toNat_mem_sectors hend hx
    exact ⟨x.toNat, ⟨by omega, by omega⟩, (match4_iff x).mp hm⟩
  · rintro ⟨b, hb, hr⟩
    obtain ⟨x, hx, he⟩ := hc.exists_sector hend hb
    exact ⟨x, hx, (match4_iff x).mpr ((inRegion_congr he).mpr hr)⟩

theorem all_match4_iff {addr : BitVec 64} {len : ℕ} (hc : Covered addr len)
    (hend : addr.toNat + len ≤ 2 ^ 64) :
    (sectors addr len).all (p.match4 i) = true ↔ ∀ b, Touches addr len b → p.InRegion i b := by
  rw [List.all_eq_true]
  constructor
  · intro h b hb
    obtain ⟨x, hx, he⟩ := hc.exists_sector hend hb
    exact (inRegion_congr he).mp ((match4_iff x).mp (h x hx))
  · intro h x hx
    obtain ⟨k, hk, hxk⟩ := toNat_mem_sectors hend hx
    exact (match4_iff x).mpr (h x.toNat ⟨by omega, by omega⟩)

theorem pmpLoop_of_first {addr : BitVec 64} {len : ℕ} (type : AccessType) (mode : Priv) {i n e : ℕ}
    (hi : i ≤ e) (he : e < i + n)
    (hbefore : ∀ k, i ≤ k → k < e → (sectors addr len).any (p.match4 k) = false)
    (hany : (sectors addr len).any (p.match4 e) = true) :
    p.pmpLoop addr len type mode i n =
      ((sectors addr len).all (p.match4 e) && p.accessOk e type mode) := by
  induction n generalizing i with
  | zero => omega
  | succ n ih =>
    rw [pmpLoop]
    rcases hi.eq_or_lt with rfl | hlt
    · rw [hany]
      cases (sectors addr len).all (p.match4 i) <;> simp
    · simp only [hbefore i le_rfl hlt, Bool.false_eq_true, if_false]
      exact ih hlt (by omega) fun k h1 h2 => hbefore k (by omega) h2

theorem pmpLoop_of_none {addr : BitVec 64} {len : ℕ} (type : AccessType) (mode : Priv) {i n : ℕ}
    (h : ∀ k, i ≤ k → k < i + n → (sectors addr len).any (p.match4 k) = false) :
    p.pmpLoop addr len type mode i n = p.defaultOk type mode := by
  induction n generalizing i with
  | zero => rfl
  | succ n ih =>
    rw [pmpLoop]
    simp only [h i le_rfl (by omega), Bool.false_eq_true, if_false]
    exact ih fun k h1 h2 => h k (by omega) (by omega)

/-- For every setting of the registers and every access whose sectors cover it: the entry
of lowest number that touches any byte of the access decides, and permits it only if it
holds all of its bytes; where no entry touches it, the mode decides. -/
theorem lowest_entry_decides (p : Pmp) (hn : p.nPmp ≠ 0) (addr : BitVec 64) (len : ℕ)
    (hend : addr.toNat + len ≤ 2 ^ 64) (hc : Covered addr len) (type : AccessType) (mode : Priv) :
    (∀ e < p.nPmp, (∀ k < e, ∀ b, Touches addr len b → ¬ p.InRegion k b) →
      (∃ b, Touches addr len b ∧ p.InRegion e b) →
      (p.pmpOk addr len type mode = true ↔
        (∀ b, Touches addr len b → p.InRegion e b) ∧ p.accessOk e type mode = true)) ∧
    ((∀ e < p.nPmp, ∀ b, Touches addr len b → ¬ p.InRegion e b) →
      p.pmpOk addr len type mode = p.defaultOk type mode) := by
  have hfalse : ∀ k, (∀ b, Touches addr len b → ¬ p.InRegion k b) →
      (sectors addr len).any (p.match4 k) = false := by
    intro k hk
    rw [← Bool.not_eq_true, any_match4_iff hc hend]
    rintro ⟨b, hb, hr⟩
    exact hk b hb hr
  unfold pmpOk
  rw [if_neg hn]
  refine ⟨fun e he hbefore htouch => ?_, fun hnone => ?_⟩
  · rw [pmpLoop_of_first type mode (Nat.zero_le e) (by omega) (fun k _ hk => hfalse k (hbefore k hk))
      ((any_match4_iff hc hend).mpr htouch), Bool.and_eq_true, all_match4_iff hc hend]
  · exact pmpLoop_of_none type mode fun k _ hk => hfalse k (hnone k (by omega))

def smallPmp : Pmp := ⟨1, 2, fun _ => ⟨0x20000001, 0x1b⟩, 0⟩

theorem lowest_entry_decides_block : smallPmp.pmpOk 0x80000008 8 .store .prvU = true := by
  have hc : Covered 0x80000008 8 := .inl (by decide)
  have hin : ∀ b, Touches 0x80000008 8 b → smallPmp.InRegion 0 b :=
    (all_match4_iff hc (by decide)).mp (by decide)
  have h := (lowest_entry_decides smallPmp (by decide) 0x80000008 8 (by decide) hc .store .prvU).1
    0 (by decide) (fun k hk => absurd hk (Nat.not_lt_zero k))
    ⟨0x80000008, ⟨by decide, by decide⟩, hin _ ⟨by decide, by decide⟩⟩
  exact h.mpr ⟨hin, by decide⟩

end PerceptronSoc.Pmp
