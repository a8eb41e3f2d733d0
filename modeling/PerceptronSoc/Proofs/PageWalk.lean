import PerceptronSoc.Proofs.TlbTransparent
import PerceptronSoc.Spec.PageWalk

/-! What a page table walk accepts. The loop stands against a declarative reading of the
tables: a chain of table entries from the root to one leaf, and what the leaf has to grant.
The chain does not depend on the kind of access, which is what the TLB relies on when loads,
stores and fetches share the offset of an entry. -/

namespace PerceptronSoc.WalkEnv

variable {env : WalkEnv} {p : Pmp} {q : Request} {vm : VmInfo} {addr base pa pte : BitVec 64}
  {i l : ℕ}

/-- An entry that the walk can read and that has no reserved bits. -/
structure Reads (env : WalkEnv) (p : Pmp) (vm : VmInfo) (pa pte : BitVec 64) : Prop where
  readable : p.pmpOk pa vm.ptesize .load .prvS = true
  entry : env.pte pa = some pte
  wellFormed : env.reserved pte = false

/-- From the table at `base`, with `i` levels left, the address leads to the leaf `pte` of
level `l`, which stands at `pa`. -/
inductive Leads (env : WalkEnv) (p : Pmp) (vm : VmInfo) (addr : BitVec 64) :
    BitVec 64 → ℕ → BitVec 64 → BitVec 64 → ℕ → Prop
  | leaf {base pte : BitVec 64} {i : ℕ} :
      Reads env p vm (ptePaddr vm addr base i) pte → Pte.isTable pte = false →
      Leads env p vm addr base (i + 1) (ptePaddr vm addr base i) pte i
  | table {base t pa pte : BitVec 64} {i l : ℕ} :
      Reads env p vm (ptePaddr vm addr base i) t → Pte.isTable t = true →
      Pte.has t (Pte.d ||| Pte.a ||| Pte.u ||| Pte.n ||| Pte.pbmt) = false →
      Leads env p vm addr (Pte.ppn t <<< 12) i pa pte l →
      Leads env p vm addr base (i + 1) pa pte l

structure Grants (env : WalkEnv) (p : Pmp) (q : Request) (vm : VmInfo) (pa pte : BitVec 64)
    (l : ℕ) : Prop where
  valid : Pte.has pte Pte.v = true
  /-- The supervisor uses user pages only for data, and only with `SUM`. -/
  supervisor : q.mode = .prvS → Pte.has pte Pte.u = true → q.type ≠ .fetch ∧ q.sum = true
  user : q.mode ≠ .prvS → Pte.has pte Pte.u = true
  writable_readable : Pte.has pte Pte.w = true → Pte.has pte Pte.r = true
  fetch : q.type = .fetch → Pte.has pte Pte.x = true
  load : q.type = .load → Pte.has pte Pte.r = true ∨ q.mxr = true ∧ Pte.has pte Pte.x = true
  store : q.type = .store → Pte.has pte Pte.w = true
  /-- A superpage is aligned. -/
  aligned : Pte.ppn pte &&& lowMask (l * vm.idxbits) = 0
  /-- The accessed and dirty bits are set, or can be. -/
  updated : pte &&& adBits q = adBits q ∨
    env.hade = true ∧ p.pmpOk pa vm.ptesize .store .prvS = true ∧
      env.takes pa (pte ||| adBits q) = true
  napot : napotRefuses pte l = false

theorem user_test (user supervisor fetch sum : Bool) :
    (if user then supervisor && (fetch || !sum) else !supervisor) = false ↔
      (supervisor = true → user = true → fetch = false ∧ sum = true) ∧
        (supervisor = false → user = true) := by
  cases user <;> cases supervisor <;> cases fetch <;> cases sum <;> decide

theorem permission_test (q : Request) (pte : BitVec 64)
    (hw : Pte.has pte Pte.w = true → Pte.has pte Pte.r = true) :
    (match q.type with
      | .fetch => !Pte.has pte Pte.x
      | .load => !Pte.has pte Pte.r && !(q.mxr && Pte.has pte Pte.x)
      | .store => !(Pte.has pte Pte.r && Pte.has pte Pte.w)) = false ↔
      (q.type = .fetch → Pte.has pte Pte.x = true) ∧
      (q.type = .load → Pte.has pte Pte.r = true ∨ q.mxr = true ∧ Pte.has pte Pte.x = true) ∧
      (q.type = .store → Pte.has pte Pte.w = true) := by
  cases q.type with
  | fetch => simp
  | load =>
    cases Pte.has pte Pte.r <;> simp
  | store =>
    cases hb : Pte.has pte Pte.w with
    | true => simp [hw hb]
    | false => simp

theorem refuses_eq_false_iff (q : Request) (pte : BitVec 64) (ptshift : ℕ) :
    refuses q pte ptshift = false ↔
      Pte.has pte Pte.v = true ∧
      (q.mode = .prvS → Pte.has pte Pte.u = true → q.type ≠ .fetch ∧ q.sum = true) ∧
      (q.mode ≠ .prvS → Pte.has pte Pte.u = true) ∧
      (Pte.has pte Pte.w = true → Pte.has pte Pte.r = true) ∧
      (q.type = .fetch → Pte.has pte Pte.x = true) ∧
      (q.type = .load → Pte.has pte Pte.r = true ∨ q.mxr = true ∧ Pte.has pte Pte.x = true) ∧
      (q.type = .store → Pte.has pte Pte.w = true) ∧
      Pte.ppn pte &&& lowMask ptshift = 0 := by
  have hvalid : (!Pte.has pte Pte.v || (!Pte.has pte Pte.r && Pte.has pte Pte.w)) = false ↔
      Pte.has pte Pte.v = true ∧ (Pte.has pte Pte.w = true → Pte.has pte Pte.r = true) := by
    cases Pte.has pte Pte.v <;> cases Pte.has pte Pte.r <;> cases Pte.has pte Pte.w <;> decide
  unfold refuses
  rw [Bool.or_eq_false_iff, Bool.or_eq_false_iff, Bool.or_eq_false_iff, bne_eq_false_iff_eq,
    user_test, hvalid]
  simp only [beq_iff_eq, beq_eq_false_iff_ne]
  constructor
  · rintro ⟨⟨⟨⟨h1, h2⟩, h3, h4⟩, h5⟩, h6⟩
    obtain ⟨h7, h8, h9⟩ := (permission_test q pte h4).mp h5
    exact ⟨h3, h1, h2, h4, h7, h8, h9, h6⟩
  · rintro ⟨h3, h1, h2, h4, h7, h8, h9, h6⟩
    exact ⟨⟨⟨⟨h1, h2⟩, h3, h4⟩, (permission_test q pte h4).mpr ⟨h7, h8, h9⟩⟩, h6⟩

theorem grants_iff : Grants env p q vm pa pte l ↔
    refuses q pte (l * vm.idxbits) = false ∧
      ¬ (pte &&& adBits q ≠ adBits q ∧ env.hade = false) ∧
      ¬ (pte &&& adBits q ≠ adBits q ∧ p.pmpOk pa vm.ptesize .store .prvS = false) ∧
      ¬ (pte &&& adBits q ≠ adBits q ∧ env.takes pa (pte ||| adBits q) = false) ∧
      napotRefuses pte l = false := by
  rw [refuses_eq_false_iff]
  constructor
  · rintro ⟨h1, h2, h3, h4, h5, h6, h7, h8, h9, h10⟩
    refine ⟨⟨h1, h2, h3, h4, h5, h6, h7, h8⟩, ?_, ?_, ?_, h10⟩
    · rintro ⟨hne, hoff⟩
      have hon := (h9.resolve_left hne).1
      rw [hoff] at hon
      cases hon
    · rintro ⟨hne, hoff⟩
      have hon := (h9.resolve_left hne).2.1
      rw [hoff] at hon
      cases hon
    · rintro ⟨hne, hoff⟩
      have hon := (h9.resolve_left hne).2.2
      rw [hoff] at hon
      cases hon
  · rintro ⟨⟨h1, h2, h3, h4, h5, h6, h7, h8⟩, h9, h10, h11, h12⟩
    refine ⟨h1, h2, h3, h4, h5, h6, h7, h8, ?_, h12⟩
    by_cases hset : pte &&& adBits q = adBits q
    · exact .inl hset
    · refine .inr ⟨?_, ?_, ?_⟩
      · simpa [hset] using h9
      · simpa [hset] using h10
      · simpa [hset] using h11

/-- The entry as the walk leaves it, if it has to set a bit. -/
def writeBack (q : Request) (pa pte : BitVec 64) : Option (BitVec 64 × BitVec 64) :=
  if pte &&& adBits q ≠ adBits q then some (pa, pte ||| adBits q) else none

/-- The loop finds a page exactly where the tables lead to a leaf that grants the access. -/
theorem walkLoop_eq_ok_iff (env : WalkEnv) (p : Pmp) (q : Request) (vm : VmInfo)
    (addr base : BitVec 64) (i : ℕ) (page : BitVec 64) (update : Option (BitVec 64 × BitVec 64)) :
    env.walkLoop p q vm addr base i = (.ok page, update) ↔
      ∃ pa pte l, Leads env p vm addr base i pa pte l ∧ Grants env p q vm pa pte l ∧
        page = pageBase addr pte (l * vm.idxbits) ∧ update = writeBack q pa pte := by
  induction i generalizing base with
  | zero =>
    constructor
    · intro h
      cases h
    · rintro ⟨pa, pte, l, hlead, -⟩
      cases hlead
  | succ i ih =>
    constructor
    · intro h
      unfold walkLoop at h
      simp only at h
      split_ifs at h with hread
      · cases h
      rw [Bool.not_eq_true', Bool.not_eq_false] at hread
      split at h
      · cases h
      · next pte hpte =>
        -- whether the leaf is written back or not, it is the end of the chain
        have hleaf : env.reserved pte = false → Pte.isTable pte = false →
            Grants env p q vm (ptePaddr vm addr base i) pte i →
            ∃ pa pte' l, Leads env p vm addr base (i + 1) pa pte' l ∧ Grants env p q vm pa pte' l ∧
              pageBase addr pte (i * vm.idxbits) = pageBase addr pte' (l * vm.idxbits) ∧
              writeBack q (ptePaddr vm addr base i) pte = writeBack q pa pte' :=
          fun hr ht hg => ⟨_, pte, i, .leaf ⟨hread, hpte, hr⟩ ht, hg, rfl, rfl⟩
        rw [← writeBack] at h
        split_ifs at h with h1 h2 h3 h4 h5 h6 h7 h8
        · cases h
        · cases h
        · obtain ⟨pa, pte', l, hlead, hg, hp⟩ := (ih _).mp h
          exact ⟨pa, pte', l, .table ⟨hread, hpte, by simpa using h1⟩ h2 (by simpa using h3) hlead,
            hg, hp⟩
        · cases h
        · cases h
        · cases h
        · cases h
        · cases h
        · obtain ⟨hpage, rfl⟩ := Prod.mk.inj h
          rw [← Except.ok.inj hpage]
          exact hleaf (by simpa using h1) (by simpa using h2)
            (grants_iff.mpr ⟨by simpa using h4, h5, h6, h7, by simpa using h8⟩)
    · rintro ⟨pa, pte, l, hlead, hg, rfl, rfl⟩
      cases hlead with
      | leaf hr ht =>
        obtain ⟨h1, h2, h3, h4, h5⟩ := grants_iff.mp hg
        unfold walkLoop writeBack
        simp only [hr.readable, hr.entry, hr.wellFormed, ht, h1, h2, h3, h4, h5, Bool.not_true,
          Bool.false_eq_true, if_false]
      | table hr ht hflags hlead =>
        unfold walkLoop
        simp only [hr.readable, hr.entry, hr.wellFormed, ht, hflags, Bool.not_true,
          Bool.false_eq_true, if_false, if_true]
        exact (ih _).mpr ⟨pa, pte, l, hlead, hg, rfl, rfl⟩

theorem Leads.unique {pa' pte' : BitVec 64} {l' : ℕ} (h : Leads env p vm addr base i pa pte l)
    (h' : Leads env p vm addr base i pa' pte' l') : pa = pa' ∧ pte = pte' ∧ l = l' := by
  have hsame : ∀ {b t t' : BitVec 64}, Reads env p vm b t → Reads env p vm b t' → t = t' :=
    fun hr hr' => Option.some.inj (hr.entry.symm.trans hr'.entry)
  induction h with
  | leaf hr ht =>
    cases h' with
    | leaf hr' ht' => exact ⟨rfl, hsame hr hr', rfl⟩
    | table hr' ht' _ _ =>
      rw [hsame hr hr', ht'] at ht
      cases ht
  | table hr ht _ _ ih =>
    cases h' with
    | leaf hr' ht' =>
      rw [← hsame hr hr', ht] at ht'
      cases ht'
    | table hr' _ _ hlead =>
      obtain rfl := hsame hr hr'
      exact ih hlead

theorem walk_of_decode_none {q : Request} (h : VmInfo.decode env.xlen q.mode env.satp = none) :
    env.walk p q addr = none := by
  unfold walk
  rw [h]
  rfl

theorem walk_bare (h : VmInfo.decode env.xlen q.mode env.satp = some vm) (hl : vm.levels = 0) :
    env.walk p q addr =
      some (.ok (vpnOf (addr &&& ((2 : BitVec 64) <<< (env.xlen - 1) - 1))), none) := by
  unfold walk
  rw [h]
  simp only [Option.bind_eq_bind, Option.bind_some, hl, if_true, Option.pure_def]

theorem walk_paged (h : VmInfo.decode env.xlen q.mode env.satp = some vm) (hl : vm.levels ≠ 0) :
    env.walk p q addr =
      some ((env.walkLoop p q vm addr vm.ptbase (levelsOf env.xlen vm addr)).1.map vpnOf,
        (env.walkLoop p q vm addr vm.ptbase (levelsOf env.xlen vm addr)).2) := by
  unfold walk
  rw [h]
  simp only [Option.bind_eq_bind, Option.bind_some, hl, if_false, Option.pure_def]

/-- The bits above the translated ones are all copies of the highest translated one. -/
def Canonical (xlen : ℕ) (vm : VmInfo) (addr : BitVec 64) : Prop :=
  ∀ j, 11 + vm.levels * vm.idxbits ≤ j → j < xlen →
    addr.getLsbD j = addr.getLsbD (11 + vm.levels * vm.idxbits)

theorem getLsbD_lowMask {k : ℕ} (hk : k < 64) (j : ℕ) :
    (lowMask k).getLsbD j = decide (j < k) := by
  have hpow : 2 ^ k < 2 ^ 64 := Nat.pow_lt_pow_right (by norm_num) hk
  have hpos : 0 < 2 ^ k := by positivity
  have hone : ((1 : BitVec 64) <<< k).toNat = 2 ^ k := by
    have h1 : (1 : BitVec 64).toNat = 1 := rfl
    rw [BitVec.toNat_shiftLeft, h1, Nat.shiftLeft_eq, one_mul, Nat.mod_eq_of_lt hpow]
  have hval : (lowMask k).toNat = 2 ^ k - 1 := by
    have h1 : (1 : BitVec 64).toNat = 1 := rfl
    rw [lowMask, BitVec.toNat_sub, hone, h1]
    omega
  rw [← BitVec.testBit_toNat, hval, Nat.testBit_two_pow_sub_one]

theorem canonical_iff {xlen s : ℕ} (hs : s < xlen) (hx : xlen ≤ 64) (h0 : 0 < s)
    (addr : BitVec 64) :
    ¬ ((addr >>> s) &&& lowMask (xlen - s) ≠ 0 ∧
      (addr >>> s) &&& lowMask (xlen - s) ≠ lowMask (xlen - s)) ↔
      ∀ j, s ≤ j → j < xlen → addr.getLsbD j = addr.getLsbD s := by
  have hmask := getLsbD_lowMask (by omega : xlen - s < 64)
  have hbit : ∀ j, ((addr >>> s) &&& lowMask (xlen - s)).getLsbD j =
      (decide (j < xlen - s) && addr.getLsbD (s + j)) := by
    intro j
    rw [BitVec.getLsbD_and, BitVec.getLsbD_ushiftRight, hmask, Bool.and_comm]
  have hzero : (addr >>> s) &&& lowMask (xlen - s) = 0 ↔
      ∀ j, s ≤ j → j < xlen → addr.getLsbD j = false := by
    constructor
    · intro h j h1 h2
      have hb := hbit (j - s)
      rw [h, Nat.add_sub_cancel' h1, decide_eq_true (by omega : j - s < xlen - s)] at hb
      simpa using hb.symm
    · intro h
      apply BitVec.eq_of_getLsbD_eq
      intro j hj
      rw [hbit]
      by_cases hlt : j < xlen - s
      · simp [h (s + j) (by omega) (by omega)]
      · simp [hlt]
  have hones : (addr >>> s) &&& lowMask (xlen - s) = lowMask (xlen - s) ↔
      ∀ j, s ≤ j → j < xlen → addr.getLsbD j = true := by
    constructor
    · intro h j h1 h2
      have hb := hbit (j - s)
      rw [h, hmask, Nat.add_sub_cancel' h1, decide_eq_true (by omega : j - s < xlen - s)] at hb
      simpa using hb.symm
    · intro h
      apply BitVec.eq_of_getLsbD_eq
      intro j hj
      rw [hbit, hmask]
      by_cases hlt : j < xlen - s
      · simp [h (s + j) (by omega) (by omega)]
      · simp [hlt]
  rw [not_and_or, not_not, not_not, hzero, hones]
  constructor
  · rintro (h | h) j h1 h2
    · rw [h j h1 h2, h s le_rfl hs]
    · rw [h j h1 h2, h s le_rfl hs]
  · intro h
    cases hb : addr.getLsbD s with
    | false => exact .inl fun j h1 h2 => (h j h1 h2).trans hb
    | true => exact .inr fun j h1 h2 => (h j h1 h2).trans hb

/-- `satp_valid` keeps the mode of a `satp` among those with at most 57 address bits. -/
def SatpValid (env : WalkEnv) : Prop :=
  env.xlen = 32 ∨ env.xlen = 64 ∧ (env.satp >>> 60).toNat ∈ [0, 8, 9, 10]

theorem SatpValid.va_lt {mode : Priv} (h : SatpValid env)
    (hvm : VmInfo.decode env.xlen mode env.satp = some vm) :
    11 + vm.levels * vm.idxbits < env.xlen ∧ env.xlen ≤ 64 := by
  unfold VmInfo.decode at hvm
  rcases h with hx | ⟨hx, hmode⟩
  · simp only [hx, if_true] at hvm ⊢
    split_ifs at hvm <;> cases hvm <;> simp only [VmInfo.off] <;> omega
  · have hne : ¬ env.xlen = 32 := by omega
    simp only [hne, if_false] at hvm
    rw [hx]
    split_ifs at hvm
    · cases hvm
      simp only [VmInfo.off]
      omega
    · simp only [List.mem_cons, List.not_mem_nil, or_false] at hmode
      rcases hmode with h | h | h | h <;> rw [h] at hvm <;> cases hvm <;> simp only [VmInfo.off] <;>
        omega

def pageAddr (v : ℕ) : BitVec 64 := BitVec.ofNat 64 (v * 4096)

theorem toNat_pageAddr (addr : BitVec 64) :
    (pageAddr (vpnOf addr)).toNat = addr.toNat / 4096 * 4096 := by
  have hlt := addr.isLt
  rw [pageAddr, vpnOf, BitVec.toNat_ofNat, Nat.mod_eq_of_lt (by omega)]

theorem ushiftRight_pageAddr (addr : BitVec 64) {k : ℕ} (hk : 12 ≤ k) :
    pageAddr (vpnOf addr) >>> k = addr >>> k := by
  obtain ⟨j, rfl⟩ := Nat.exists_eq_add_of_le hk
  apply BitVec.eq_of_toNat_eq
  rw [BitVec.toNat_ushiftRight, BitVec.toNat_ushiftRight, toNat_pageAddr,
    Nat.shiftRight_eq_div_pow, Nat.shiftRight_eq_div_pow, pow_add, ← Nat.div_div_eq_div_mul,
    ← Nat.div_div_eq_div_mul]
  norm_num

theorem walkLoop_pageAddr (env : WalkEnv) (p : Pmp) (q : Request) (vm : VmInfo)
    (addr base : BitVec 64) (i : ℕ) :
    env.walkLoop p q vm (pageAddr (vpnOf addr)) base i = env.walkLoop p q vm addr base i := by
  induction i generalizing base with
  | zero => rfl
  | succ i ih =>
    have hpa : ptePaddr vm (pageAddr (vpnOf addr)) base i = ptePaddr vm addr base i := by
      unfold ptePaddr
      rw [ushiftRight_pageAddr addr (by omega)]
    have hbase : ∀ pte s, pageBase (pageAddr (vpnOf addr)) pte s = pageBase addr pte s := by
      intro pte s
      unfold pageBase
      rw [ushiftRight_pageAddr addr le_rfl]
    unfold walkLoop
    simp only [hpa, hbase, ih]

theorem vpnOf_and_pageAddr (addr m : BitVec 64) :
    vpnOf (pageAddr (vpnOf addr) &&& m) = vpnOf (addr &&& m) := by
  unfold vpnOf
  apply Nat.eq_of_testBit_eq
  intro i
  have hdiv : addr.toNat / 4096 * 4096 / 2 ^ 12 = addr.toNat / 2 ^ 12 := by omega
  have hbit := congrArg (fun x => x.testBit i) hdiv
  simp only [Nat.testBit_div_two_pow] at hbit
  rw [BitVec.toNat_and, BitVec.toNat_and, show 4096 = 2 ^ 12 by norm_num, Nat.testBit_div_two_pow,
    Nat.testBit_div_two_pow, Nat.testBit_and, Nat.testBit_and]
  have hpage := toNat_pageAddr addr
  rw [vpnOf] at hpage
  rw [show (2 : ℕ) ^ 12 = 4096 by norm_num, hpage, hbit]

theorem decode_idxbits {xlen : ℕ} {mode : Priv} {satp : BitVec 64}
    (h : VmInfo.decode xlen mode satp = some vm) (hl : vm.levels ≠ 0) :
    1 ≤ vm.levels * vm.idxbits := by
  unfold VmInfo.decode at h
  simp only at h
  split_ifs at h
  · cases h
    exact absurd rfl hl
  · cases h
    norm_num
  · cases h
    exact absurd rfl hl
  · split at h <;> cases h
    · exact absurd rfl hl
    all_goals norm_num

theorem walk_pageAddr (env : WalkEnv) (p : Pmp) (q : Request) (addr : BitVec 64) :
    env.walk p q (pageAddr (vpnOf addr)) = env.walk p q addr := by
  cases hvm : VmInfo.decode env.xlen q.mode env.satp with
  | none => rw [walk_of_decode_none hvm, walk_of_decode_none hvm]
  | some vm =>
    by_cases hl : vm.levels = 0
    · rw [walk_bare hvm hl, walk_bare hvm hl, vpnOf_and_pageAddr]
    · have hpos := decode_idxbits hvm hl
      have hlevels : levelsOf env.xlen vm (pageAddr (vpnOf addr)) = levelsOf env.xlen vm addr := by
        unfold levelsOf
        simp only [ushiftRight_pageAddr addr (by omega : 12 ≤ 12 + vm.levels * vm.idxbits - 1)]
      rw [walk_paged hvm hl, walk_paged hvm hl, hlevels, walkLoop_pageAddr]

/-- Two kinds of access that a walk lets through end at one page. -/
theorem walk_agree {q q' : Request} {n n' : ℕ} {u u' : Option (BitVec 64 × BitVec 64)}
    (hm : q.mode = q'.mode) (h : env.walk p q addr = some (.ok n, u))
    (h' : env.walk p q' addr = some (.ok n', u')) : n = n' := by
  cases hvm : VmInfo.decode env.xlen q.mode env.satp with
  | none =>
    rw [walk_of_decode_none hvm] at h
    cases h
  | some vm =>
    have hvm' : VmInfo.decode env.xlen q'.mode env.satp = some vm := hm ▸ hvm
    by_cases hl : vm.levels = 0
    · rw [walk_bare hvm hl] at h
      rw [walk_bare hvm' hl] at h'
      cases h
      cases h'
      rfl
    · rw [walk_paged hvm hl] at h
      rw [walk_paged hvm' hl] at h'
      generalize levelsOf env.xlen vm addr = levels at h h'
      have hpage : ∀ {q : Request} {n : ℕ} {u : Option (BitVec 64 × BitVec 64)},
          some ((env.walkLoop p q vm addr vm.ptbase levels).1.map vpnOf,
            (env.walkLoop p q vm addr vm.ptbase levels).2) = some (.ok n, u) →
          ∃ pa pte l, Leads env p vm addr vm.ptbase levels pa pte l ∧
            n = vpnOf (pageBase addr pte (l * vm.idxbits)) := by
        intro q n u hq
        cases hw : env.walkLoop p q vm addr vm.ptbase levels with
        | mk page u =>
          rw [hw] at hq
          cases page with
          | error f => cases hq
          | ok page =>
            obtain ⟨pa, pte, l, hlead, -, rfl, -⟩ := (walkLoop_eq_ok_iff ..).mp hw
            exact ⟨pa, pte, l, hlead, (Except.ok.inj (Prod.mk.inj (Option.some.inj hq)).1).symm⟩
      obtain ⟨pa, pte, l, hlead, rfl⟩ := hpage h
      obtain ⟨pa', pte', l', hlead', rfl⟩ := hpage h'
      obtain ⟨-, rfl, rfl⟩ := hlead.unique hlead'
      rfl

theorem decode_zero (xlen : ℕ) (mode : Priv) :
    ∃ vm, VmInfo.decode xlen mode 0 = some vm ∧ vm.levels = 0 := by
  have hbit : (0 : BitVec 64).getLsbD 31 = false := by decide
  have hmode : ((0 : BitVec 64) >>> 60).toNat = 0 := by decide
  unfold VmInfo.decode
  simp only [hbit, hmode, Bool.false_eq_true, if_false]
  split_ifs <;> exact ⟨_, rfl, rfl⟩

/-- The tables as `mmu_t` sees them, for a hart that leaves the accessed and dirty bits to
software. Without virtual memory `satp` stays zero. -/
def table (hasPage : Bool)
    (env : { env : WalkEnv // env.hade = false ∧ (hasPage = false → env.satp = 0) }) :
    PageTable hasPage where
  walk p t mode mxr sum v :=
    match env.val.walk p ⟨t, mode, mxr, sum⟩ (pageAddr v) with
    | some (page, _) => page
    | none => .error .pageFault
  walk_lt {p t mode mxr sum v n} h := by
    split at h
    · next page u hw =>
      subst h
      have hlt : ∀ a, vpnOf a < 2 ^ 52 := fun a => by
        have := a.isLt
        unfold vpnOf
        omega
      cases hvm : VmInfo.decode env.val.xlen mode env.val.satp with
      | none =>
        rw [walk_of_decode_none hvm] at hw
        cases hw
      | some vm =>
        by_cases hl : vm.levels = 0
        · rw [walk_bare hvm hl] at hw
          cases hw
          exact hlt _
        · rw [walk_paged hvm hl] at hw
          have hpage := (Prod.mk.inj (Option.some.inj hw)).1
          revert hpage
          cases (env.val.walkLoop p ⟨t, mode, mxr, sum⟩ vm (pageAddr v) vm.ptbase _).1 with
          | error f =>
            intro hpage
            cases hpage
          | ok page =>
            intro hpage
            rw [← Except.ok.inj hpage]
            exact hlt _
    · cases h
  walk_agree {p t t' mode mxr sum v n n'} h h' := by
    split at h
    · next page u hw =>
      split at h'
      · next page' u' hw' =>
        subst h h'
        have hmode : (⟨t, mode, mxr, sum⟩ : Request).mode = (⟨t', mode, mxr, sum⟩ : Request).mode := rfl
        exact walk_agree hmode hw hw'
      · cases h'
    · cases h
  walk_bare hp p t mode mxr sum mxr' sum' v := by
    obtain ⟨vm, hvm, hl⟩ := decode_zero env.val.xlen mode
    have hvm' : VmInfo.decode env.val.xlen mode env.val.satp = some vm := by
      rw [env.property.2 hp]
      exact hvm
    rw [WalkEnv.walk_bare hvm' hl, WalkEnv.walk_bare hvm' hl]

theorem table_walk (hasPage : Bool) (he : env.hade = false ∧ (hasPage = false → env.satp = 0))
    {page : Except Fault ℕ} {u : Option (BitVec 64 × BitVec 64)}
    (h : env.walk p q addr = some (page, u)) :
    (table hasPage ⟨env, he⟩).walk p q.type q.mode q.mxr q.sum (vpnOf addr) = page := by
  unfold table
  dsimp only
  rw [walk_pageAddr, h]

/-- For every memory, with devices whose reads have no effect, every setting of `satp` and of the
protection registers, and every access in a mode with virtual memory: the walk yields a page
exactly if the address is canonical and the tables lead it to a leaf that grants the access, and
then it is the page of that leaf and the only entry written back is that leaf with its accessed
and dirty bits. All addresses of one page are walked alike, so an entry of the TLB can serve them
all, and where nothing is written back the tables of `mmu_t` lead to what the walk yields. -/
theorem walk_grants_iff (env : WalkEnv) (p : Pmp) (q : Request) (addr : BitVec 64) (vm : VmInfo)
    (hsatp : SatpValid env) (hvm : VmInfo.decode env.xlen q.mode env.satp = some vm)
    (hl : vm.levels ≠ 0) (n : ℕ) (update : Option (BitVec 64 × BitVec 64)) :
    (env.walk p q addr = some (.ok n, update) ↔
      Canonical env.xlen vm addr ∧
        ∃ pa pte l, Leads env p vm addr vm.ptbase vm.levels pa pte l ∧
          Grants env p q vm pa pte l ∧ n = vpnOf (pageBase addr pte (l * vm.idxbits)) ∧
          update = writeBack q pa pte) ∧
    env.walk p q (pageAddr (vpnOf addr)) = env.walk p q addr ∧
    ∀ hasPage he page, env.walk p q addr = some (page, update) →
      (table hasPage ⟨env, he⟩).walk p q.type q.mode q.mxr q.sum (vpnOf addr) = page := by
  refine ⟨?_, walk_pageAddr env p q addr, fun hasPage he page h => table_walk hasPage he h⟩
  obtain ⟨hlt, hx⟩ := hsatp.va_lt hvm
  have hcanon := canonical_iff hlt hx (by omega) addr
  have hs : 12 + vm.levels * vm.idxbits - 1 = 11 + vm.levels * vm.idxbits := by omega
  rw [walk_paged hvm hl]
  unfold levelsOf
  simp only [hs]
  split_ifs with hbad
  · -- no level is left, as for a page fault
    constructor
    · intro h
      cases h
    · rintro ⟨hc, -⟩
      exact absurd hbad (hcanon.mpr hc)
  · constructor
    · intro h
      obtain ⟨hpage, rfl⟩ := Prod.mk.inj (Option.some.inj h)
      cases hw : env.walkLoop p q vm addr vm.ptbase vm.levels with
      | mk page u =>
        rw [hw] at hpage
        cases page with
        | error f => cases hpage
        | ok page =>
          obtain ⟨pa, pte, l, hlead, hg, rfl, hu⟩ := (walkLoop_eq_ok_iff ..).mp hw
          exact ⟨hcanon.mp hbad, pa, pte, l, hlead, hg, (Except.ok.inj hpage).symm, hu⟩
    · rintro ⟨-, pa, pte, l, hlead, hg, rfl, rfl⟩
      rw [(walkLoop_eq_ok_iff ..).mpr ⟨pa, pte, l, hlead, hg, rfl, rfl⟩]
      rfl

/-- Sv39 with one table: its third entry maps a gigabyte at `0x80000000` for the supervisor,
never written so far. -/
def gigapageEnv : WalkEnv where
  xlen := 64
  satp := 0x8000000000080000
  pte := fun pa => if pa = 0x80000010 then some 0x20000047 else none
  takes := fun _ _ => true
  extSvnapot := false
  pbmte := false
  hade := true

/-- A store through the gigapage sets the dirty bit of its entry. -/
theorem walk_grants_iff_gigapage :
    Canonical 64 ⟨3, 9, 8, 0x80000000⟩ 0x80001234 ∧
      gigapageEnv.walk (Pmp.new 0 2) ⟨.store, .prvS, false, false⟩ 0x80001234 =
        some (.ok 0x80001, some (0x80000010, 0x200000c7)) := by
  have hwalk : gigapageEnv.walk (Pmp.new 0 2) ⟨.store, .prvS, false, false⟩ 0x80001234 =
      some (.ok 0x80001, some (0x80000010, 0x200000c7)) := by decide +kernel
  exact ⟨((walk_grants_iff gigapageEnv (Pmp.new 0 2) ⟨.store, .prvS, false, false⟩ 0x80001234
    ⟨3, 9, 8, 0x80000000⟩ (.inr ⟨rfl, by decide +kernel⟩) (by decide +kernel) (by decide) _ _).1.mp
    hwalk).1, hwalk⟩

end PerceptronSoc.WalkEnv
