import PerceptronSoc.Proofs.PmpRegion
import PerceptronSoc.Spec.Mmu

/-! The TLB cannot be observed. Against `mmu_t` stands the same unit without a TLB, which
walks the page tables and checks the physical access every time; they give the same answers
as long as no access meets a translation that new page tables, or `NMIE`, have changed since
the last fence. A tag is only set for a page that the protection registers treat alike, which
is why one check is enough for it. -/

namespace PerceptronSoc

namespace MmuRegs

variable {c : MmuConfig}

def intrapage (r : MmuRegs c) (type : AccessType) (vaddr : BitVec 64) (len : ℕ) (lr : Bool) :
    Except Fault (BitVec 64) :=
  match r.translate type vaddr len with
  | .ok paddr => if lr && !c.reservable paddr then .error .accessFault else .ok paddr
  | .error f => .error f

def access (r : MmuRegs c) (type : AccessType) (addr : BitVec 64) (len : ℕ) (lr strict : Bool) :
    List (Except Fault (BitVec 64)) :=
  if addr.toNat % len = 0 then [r.intrapage type addr len lr]
  else if !c.misaligned then [.error .misaligned]
  else if strict then [.error .accessFault]
  else
    let lenPage0 := min len (4096 - addr.toNat % 4096)
    match r.intrapage type addr lenPage0 lr with
    | .error f => [.error f]
    | .ok paddr =>
      if lenPage0 = len then [.ok paddr]
      else [.ok paddr, r.intrapage type (addr + BitVec.ofNat 64 lenPage0) (len - lenPage0) lr]

def step (r : MmuRegs c) : Mmu.Event c → List (Except Fault (BitVec 64)) × MmuRegs c
  | .load addr width lr _ => (r.access .load addr width.bytes lr lr, r)
  | .store addr width _ => (r.access .store addr width.bytes false false, r)
  | .amoProbe addr width => (r.access .store addr width.bytes false true, r)
  | .fetch addr _ => ([r.intrapage .fetch addr 2 false], r)
  | .pmpWrite w => ([], { r with pmp := (r.pmp.write c.xlen w).getD r.pmp })
  | .setPrivilege prv => ([], { r with prv := prv })
  | .writeMstatus mprv mpp mxr sum =>
    ([], { r with mprv := mprv, mpp := mpp, mxr := mxr, sum := sum })
  | .writeMnstatus nmie => ([], { r with nmie := r.nmie || nmie })
  | .sfenceVma => ([], r)
  | .triggerUpdated _ => ([], r)
  | .debug on prv => ([], { r with debugMode := on, prv := prv })
  | .writeSatp table => ([], { r with table := table })
  | .remap table => ([], { r with table := table })

def run (r : MmuRegs c) : List (Mmu.Event c) → List (List (Except Fault (BitVec 64)))
  | [] => []
  | e :: es => (r.step e).1 :: (r.step e).2.run es

/-- What the source changes without emptying the TLB. -/
structure Unfenced (c : MmuConfig) where
  table : PageTable c.hasPage
  nmie : Bool

def unfenced (r : MmuRegs c) : Unfenced c := ⟨r.table, r.nmie⟩

def withUnfenced (r : MmuRegs c) (u : Unfenced c) : MmuRegs c :=
  { r with table := u.table, nmie := u.nmie }

def lookup (r : MmuRegs c) (type : AccessType) (v : ℕ) : Priv × Except Fault ℕ :=
  (r.effectivePriv type, r.table.walk r.pmp type (r.effectivePriv type) r.mxr r.sum v)

end MmuRegs

namespace Mmu

open MmuRegs (Unfenced)

variable {c : MmuConfig} {m : Mmu c} {r : MmuRegs c} {type : AccessType} {vaddr paddr : BitVec 64}
  {len v ppn : ℕ} {off : BitVec 64} {since : List (Unfenced c)}

def Event.touches : Event c → AccessType → ℕ → Prop
  | .load addr width _ _, type, v =>
    type = .load ∧ ∃ k < width.bytes, v = vpnOf (addr + BitVec.ofNat 64 k)
  | .store addr width _, type, v =>
    type = .store ∧ ∃ k < width.bytes, v = vpnOf (addr + BitVec.ofNat 64 k)
  | .amoProbe addr width, type, v =>
    type = .store ∧ ∃ k < width.bytes, v = vpnOf (addr + BitVec.ofNat 64 k)
  | .fetch addr _, type, v => type = .fetch ∧ v = vpnOf addr
  | _, _, _ => False

/-- The tables and `NMIE` as they were before each change since the last fence. -/
def Event.unfencedAfter (r : MmuRegs c) (since : List (Unfenced c)) : Event c → List (Unfenced c)
  | .remap _ | .writeMnstatus _ => r.unfenced :: since
  | .sfenceVma | .setPrivilege _ | .debug .. | .triggerUpdated _ | .writeSatp _ => []
  | _ => since

/-- The present registers translate the page as they would with what stood there earlier. -/
def Current (since : List (Unfenced c)) (r : MmuRegs c) (type : AccessType) (v : ℕ) : Prop :=
  ∀ u ∈ since, (r.withUnfenced u).lookup type v = r.lookup type v

theorem current_nil (r : MmuRegs c) (type : AccessType) (v : ℕ) : Current [] r type v :=
  fun _ hu => absurd hu List.not_mem_nil

/-- No access meets a translation that has changed without a fence. -/
def Fenced (since : List (Unfenced c)) (r : MmuRegs c) : List (Event c) → Prop
  | [] => True
  | e :: es => (∀ type v, e.touches type v → Current since r type v) ∧
    Fenced (e.unfencedAfter r since) (r.step e).2 es

theorem translate_eq_ok (h : r.translate type vaddr len = .ok paddr) :
    ∃ ppn, r.table.walk r.pmp type (r.effectivePriv type) r.mxr r.sum (vpnOf vaddr) = .ok ppn ∧
      paddr = BitVec.ofNat 64 (ppn * 4096 + vaddr.toNat % 4096) ∧
      r.pmp.pmpOk paddr len type (r.effectivePriv type) = true := by
  unfold MmuRegs.translate at h
  simp only [bind, Except.bind] at h
  cases hw : r.table.walk r.pmp type (r.effectivePriv type) r.mxr r.sum (vpnOf vaddr) with
  | error f =>
    rw [hw] at h
    cases h
  | ok ppn =>
    rw [hw] at h
    simp only at h
    split_ifs at h with hok
    obtain rfl := Except.ok.inj h
    exact ⟨ppn, rfl, rfl, hok⟩

theorem effectivePriv_of_not_mprv (h : r.inMprv = false) (type : AccessType) :
    r.effectivePriv type = r.prv := by
  unfold MmuRegs.effectivePriv
  simp only [h, Bool.false_eq_true, if_false, ite_self]

theorem ofNat_vaddr (vaddr : BitVec 64) :
    vaddr = BitVec.ofNat 64 (vpnOf vaddr * 4096) + BitVec.ofNat 64 (vaddr.toNat % 4096) := by
  rw [← BitVec.ofNat_add, vpnOf, Nat.div_add_mod']
  simp

theorem add_offset {a v o : BitVec 64} (p : BitVec 64) (h : a = v + o) :
    p + o = p - v + a ∧ p + o - a = p - v := by
  subst h
  exact ⟨by ring, by ring⟩

theorem page_eq {o : ℕ} (hp : ppn < 2 ^ 52) (ho : o < 4096) :
    BitVec.ofNat 64 (ppn * 4096 + o) &&& ~~~(4096 - 1) = BitVec.ofNat 64 (ppn * 4096) := by
  have hmask : (~~~(4096 - 1) : BitVec 64) = -BitVec.twoPow 64 12 := by decide
  apply BitVec.eq_of_toNat_eq
  rw [hmask, BitBlocks.toNat_and_neg_twoPow (by norm_num), BitVec.toNat_ofNat, BitVec.toNat_ofNat,
    Nat.mod_eq_of_lt (by omega), Nat.mod_eq_of_lt (by omega)]
  omega

/-- Every access inside a homogeneous page is decided by its first byte. -/
theorem pmpOk_page {p : Pmp} {mode : Priv} {o : ℕ} (hp : ppn < 2 ^ 52)
    (hh : p.pmpHomogeneous (BitVec.ofNat 64 (ppn * 4096)) 4096 = true) (hlen : 1 ≤ len)
    (ho : o + len ≤ 4096) :
    p.pmpOk (BitVec.ofNat 64 (ppn * 4096 + o)) len type mode =
      p.pmpOk (BitVec.ofNat 64 (ppn * 4096)) 1 type mode := by
  have hsize : (4096 : BitVec 64) = BitVec.twoPow 64 12 := by decide
  have hbase : (BitVec.ofNat 64 (ppn * 4096)).toNat = ppn * 4096 := by
    rw [BitVec.toNat_ofNat, Nat.mod_eq_of_lt (by omega)]
  have haddr : (BitVec.ofNat 64 (ppn * 4096 + o)).toNat = ppn * 4096 + o := by
    rw [BitVec.toNat_ofNat, Nat.mod_eq_of_lt (by omega)]
  rw [hsize] at hh
  exact Pmp.pmpOk_eq_of_homogeneous (by norm_num) (by omega) hh hlen ⟨by omega, by omega⟩ le_rfl
    ⟨le_rfl, by omega⟩ type mode

/-- The entry of a page: where the walk leads for this kind of access, and that the
protection registers permit it for the whole page. There is none while `mstatus.MPRV`
redirects accesses. -/
structure Entry (r : MmuRegs c) (type : AccessType) (v : ℕ) (off : BitVec 64) (ppn : ℕ) : Prop where
  direct : r.inMprv = false
  walk : r.table.walk r.pmp type r.prv r.mxr r.sum v = .ok ppn
  offset : off = BitVec.ofNat 64 (ppn * 4096) - BitVec.ofNat 64 (v * 4096)
  homogeneous : r.pmp.pmpHomogeneous (BitVec.ofNat 64 (ppn * 4096)) 4096 = true
  permitted : r.pmp.pmpOk (BitVec.ofNat 64 (ppn * 4096)) 1 type r.prv = true

/-- Every tag stands for an entry of the present tables, or of earlier ones. -/
def Inv (since : List (Unfenced c)) (m : Mmu c) : Prop :=
  ∀ type idx tag, m.tlb.tag type idx = some tag → ∃ u ∈ m.regs.unfenced :: since,
    ∃ ppn, Entry (m.regs.withUnfenced u) type tag.vpn (m.tlb.targetOffset idx) ppn

theorem inv_of_empty (h : ∀ type idx, m.tlb.tag type idx = none) : Inv since m := by
  intro type idx tag ht
  rw [h] at ht
  cases ht

theorem Current.lookup {u : Unfenced c} (h : Current since r type v)
    (hu : u ∈ r.unfenced :: since) : (r.withUnfenced u).lookup type v = r.lookup type v := by
  obtain rfl | hu := List.mem_cons.mp hu
  · rfl
  · exact h u hu

theorem Entry.lookup (he : Entry r type v off ppn) : r.lookup type v = (r.prv, .ok ppn) := by
  unfold MmuRegs.lookup
  rw [effectivePriv_of_not_mprv he.direct, he.walk]

/-- An entry of earlier tables serves a page that the present ones translate alike. -/
theorem Entry.translate {r' : MmuRegs c} (he : Entry r' type (vpnOf vaddr) off ppn)
    (hp : r'.pmp = r.pmp) (hl : r'.lookup type (vpnOf vaddr) = r.lookup type (vpnOf vaddr))
    (hlen : 1 ≤ len) (hpage : vaddr.toNat % 4096 + len ≤ 4096) :
    r.translate type vaddr len = .ok (off + vaddr) := by
  have hok : r.pmp.pmpOk (BitVec.ofNat 64 (ppn * 4096 + vaddr.toNat % 4096)) len type r'.prv = true := by
    rw [← hp, pmpOk_page (r'.table.walk_lt he.walk) he.homogeneous hlen hpage]
    exact he.permitted
  have haddr : BitVec.ofNat 64 (ppn * 4096 + vaddr.toNat % 4096) = off + vaddr := by
    rw [BitVec.ofNat_add, he.offset]
    exact (add_offset _ (ofNat_vaddr vaddr)).1
  rw [he.lookup] at hl
  obtain ⟨hmode, hwalk⟩ := Prod.mk.inj hl
  rw [← hmode] at hwalk
  unfold MmuRegs.translate
  simp only [← hmode, ← hwalk, bind, Except.bind, hok, if_true]
  rw [haddr]
  rfl

theorem Inv.refillTlb (hi : Inv since m) (hc : Current since m.regs type (vpnOf vaddr))
    (hlen : 1 ≤ len) (hpage : vaddr.toNat % 4096 + len ≤ 4096)
    (ht : m.regs.translate type vaddr len = .ok paddr) :
    Inv since (m.refillTlb vaddr paddr type) := by
  unfold Mmu.refillTlb
  split_ifs with hm
  · exact hi
  rw [Bool.not_eq_true] at hm
  obtain ⟨ppn, hw, rfl, hok⟩ := translate_eq_ok ht
  rw [effectivePriv_of_not_mprv hm] at hw hok
  have hlt := m.regs.table.walk_lt hw
  have hoff : BitVec.ofNat 64 (ppn * 4096 + vaddr.toNat % 4096) - vaddr =
      BitVec.ofNat 64 (ppn * 4096) - BitVec.ofNat 64 (vpnOf vaddr * 4096) := by
    rw [BitVec.ofNat_add]
    exact (add_offset _ (ofNat_vaddr vaddr)).2
  rw [page_eq hlt (Nat.mod_lt _ (by norm_num)), hoff]
  intro t i tag htag
  simp only at htag ⊢
  by_cases hidx : i = vpnOf vaddr % tlbEntries
  · rw [if_pos hidx] at htag
    simp only [hidx, Function.update_self]
    split_ifs at htag with hnew
    · obtain rfl := Option.some.inj htag
      obtain ⟨hh, rfl⟩ := hnew
      refine ⟨_, List.mem_cons_self .., ppn, hm, hw, rfl, hh, ?_⟩
      rwa [pmpOk_page hlt hh hlen hpage] at hok
    · -- a tag that stays is one of the same page, so its entry leads to the same place
      rw [Option.filter_eq_some_iff] at htag
      obtain ⟨hold, hvpn⟩ := htag
      obtain ⟨u, hu, ppn', he⟩ := hi t _ tag hold
      rw [beq_iff_eq] at hvpn
      have hsame : ppn' = ppn := by
        have hnow : (m.regs.withUnfenced u).lookup type (vpnOf vaddr) = (m.regs.prv, .ok ppn) := by
          rw [hc.lookup hu, MmuRegs.lookup, effectivePriv_of_not_mprv hm, hw]
        rw [MmuRegs.lookup, effectivePriv_of_not_mprv he.direct] at hnow
        exact u.table.walk_agree he.walk (hvpn ▸ (Prod.mk.inj hnow).2)
      subst hsame
      exact ⟨u, hu, ppn', he.direct, he.walk, by rw [hvpn], he.homogeneous, he.permitted⟩
  · rw [if_neg hidx] at htag
    simp only [Function.update_of_ne hidx]
    exact hi t i tag htag

/-- Both units give one answer, and the registers stay. -/
structure Agrees (since : List (Unfenced c)) (m : Mmu c) {α : Type} (answer : α)
    (result : α × Mmu c) : Prop where
  answer : result.1 = answer
  inv : Inv since result.2
  regs : result.2.regs = m.regs

theorem refillTlb_regs (m : Mmu c) (vaddr paddr : BitVec 64) (type : AccessType) :
    (m.refillTlb vaddr paddr type).regs = m.regs := by
  unfold Mmu.refillTlb
  split_ifs <;> rfl

theorem Inv.intrapage (hi : Inv since m) (type : AccessType) (vaddr : BitVec 64) (len : ℕ)
    (hc : Current since m.regs type (vpnOf vaddr)) (hlen : 1 ≤ len)
    (hpage : vaddr.toNat % 4096 + len ≤ 4096) (lr fills : Bool) :
    Agrees since m (m.regs.intrapage type vaddr len lr) (m.intrapage type vaddr len lr fills) := by
  unfold Mmu.intrapage MmuRegs.intrapage
  simp only
  split_ifs with hhit
  · rw [Bool.and_eq_true, Bool.not_eq_true', Option.any_eq_true_iff_get] at hhit
    obtain ⟨hlr, hsome, hvpn⟩ := hhit
    obtain ⟨u, hu, ppn, he⟩ := hi type _ _ (Option.some_get hsome).symm
    rw [beq_iff_eq] at hvpn
    rw [hvpn] at he
    rw [he.translate (r := m.regs) rfl (hc.lookup hu) hlen hpage, hlr]
    exact ⟨rfl, hi, rfl⟩
  · cases ht : m.regs.translate type vaddr len with
    | error f => exact ⟨rfl, hi, rfl⟩
    | ok paddr =>
      simp only
      split_ifs
      · exact ⟨rfl, hi, rfl⟩
      · exact ⟨rfl, hi.refillTlb hc hlen hpage ht, refillTlb_regs ..⟩
      · exact ⟨rfl, hi, rfl⟩

theorem aligned_in_page {a : ℕ} (width : Width) (h : a % width.bytes = 0) :
    a % 4096 + width.bytes ≤ 4096 := by
  cases width <;> simp only [Width.bytes] at h ⊢ <;> omega

theorem width_pos (width : Width) : 1 ≤ width.bytes ∧ width.bytes ≤ 8 := by
  cases width <;> decide

/-- The pages of all bytes of an access are translated as they were at the last fence. -/
def CurrentBytes (since : List (Unfenced c)) (r : MmuRegs c) (type : AccessType)
    (addr : BitVec 64) (width : Width) : Prop :=
  ∀ k < width.bytes, Current since r type (vpnOf (addr + BitVec.ofNat 64 k))

theorem CurrentBytes.first {addr : BitVec 64} {width : Width}
    (h : CurrentBytes since r type addr width) : Current since r type (vpnOf addr) := by
  have h0 := h 0 (width_pos width).1
  rwa [BitVec.add_zero] at h0

theorem Inv.slowPath (hi : Inv since m) (type : AccessType) (addr : BitVec 64) (width : Width)
    (hc : CurrentBytes since m.regs type addr width) (lr strict fills : Bool) :
    Agrees since m (m.regs.access type addr width.bytes lr strict)
      (m.slowPath type addr width.bytes lr strict fills) := by
  obtain ⟨hpos, hsmall⟩ := width_pos width
  unfold Mmu.slowPath MmuRegs.access
  split_ifs with halign hmis hstrict
  · obtain ⟨h1, h2, h3⟩ :=
      hi.intrapage type addr _ hc.first hpos (aligned_in_page width halign) lr fills
    exact ⟨by simp only [h1], h2, h3⟩
  · exact ⟨rfl, hi, rfl⟩
  · exact ⟨rfl, hi, rfl⟩
  · simp only
    obtain ⟨h1, h2, h3⟩ := hi.intrapage type addr (min width.bytes (4096 - addr.toNat % 4096))
      hc.first (by omega) (by omega) lr fills
    generalize hlen0 : min width.bytes (4096 - addr.toNat % 4096) = len0 at h1 h2 h3 ⊢
    rcases hout : m.intrapage type addr len0 lr fills with ⟨out, m'⟩
    rw [hout] at h1 h2 h3
    simp only at h1 h2 h3
    rw [← h1]
    cases out with
    | error f => exact ⟨rfl, h2, h3⟩
    | ok paddr =>
      simp only
      split_ifs with hwhole
      · exact ⟨rfl, h2, h3⟩
      · -- the second part starts the next page
        have hnext : (addr + BitVec.ofNat 64 len0).toNat % 4096 = 0 := by
          rw [BitVec.toNat_add, BitVec.toNat_ofNat]
          omega
        have hc' := hc len0 (by omega)
        rw [← h3] at hc'
        obtain ⟨h4, h5, h6⟩ := h2.intrapage type (addr + BitVec.ofNat 64 len0) (width.bytes - len0)
          hc' (by omega) (by omega) lr fills
        rw [h3] at h4 h6
        exact ⟨by simp only [h4], h5, h6⟩

theorem Inv.access (hi : Inv since m) (type : AccessType) (addr : BitVec 64) (width : Width)
    (hc : CurrentBytes since m.regs type addr width) (lr strict fills : Bool) :
    Agrees since m (m.regs.access type addr width.bytes lr strict)
      (m.access type addr width lr strict fills) := by
  unfold Mmu.access
  simp only
  split_ifs with hfast
  · simp only [Bool.and_eq_true, Bool.not_eq_true', decide_eq_true_eq, beq_iff_eq] at hfast
    obtain ⟨⟨hlr, halign⟩, htag⟩ := hfast
    obtain ⟨u, hu, ppn, he⟩ := hi type _ _ htag
    refine ⟨?_, hi, rfl⟩
    unfold MmuRegs.access MmuRegs.intrapage
    rw [if_pos halign, he.translate (r := m.regs) rfl (hc.first.lookup hu) (width_pos width).1
      (aligned_in_page width halign), hlr]
    rfl
  · exact hi.slowPath type addr width hc lr strict fills

def Event.accesses : Event c → Bool
  | .load .. | .store .. | .amoProbe .. | .fetch .. => true
  | _ => false

theorem inv_flushTlb (m : Mmu c) : Inv since m.flushTlb := inv_of_empty fun _ _ => rfl

theorem Inv.unfenced {m' : Mmu c} {u : Unfenced c} (hi : Inv since m) (ht : m'.tlb = m.tlb)
    (hr : m'.regs = m.regs.withUnfenced u) : Inv (m.regs.unfenced :: since) m' := by
  intro type idx tag htag
  rw [ht] at htag ⊢
  obtain ⟨u', hu', ppn, he⟩ := hi type idx tag htag
  refine ⟨u', List.mem_cons_of_mem _ hu', ppn, ?_⟩
  rw [hr]
  exact he

/-- Without virtual memory no translation depends on the bits of `mstatus` for it. -/
theorem Inv.writeMstatus (hi : Inv since m) (mprv : Bool) (mpp : Priv) (mxr sum : Bool) :
    Inv since (m.step (.writeMstatus mprv mpp mxr sum)).2 := by
  simp only [Mmu.step]
  split_ifs with hflush
  · exact inv_flushTlb _
  · simp only [mstatusFlushes, Bool.or_eq_true, Bool.and_eq_true, decide_eq_true_eq, not_or,
      not_not, not_and] at hflush
    obtain ⟨⟨hmprv, hmpp⟩, hbits⟩ := hflush
    have hwalk : ∀ (table : PageTable c.hasPage) p t mode v, table.walk p t mode mxr sum v =
        table.walk p t mode m.regs.mxr m.regs.sum v := by
      intro table p t mode v
      by_cases hpage : c.hasPage = true
      · obtain ⟨hx, hs⟩ := hbits hpage
        rw [hx, hs]
      · exact table.walk_bare (Bool.not_eq_true _ ▸ hpage) ..
    intro t i tag htag
    obtain ⟨u, hu, ppn, he⟩ := hi t i tag htag
    refine ⟨u, hu, ppn, ?_, ?_, he.offset, he.homogeneous, he.permitted⟩
    · rw [← he.direct]
      unfold MmuRegs.inMprv MmuRegs.withUnfenced
      rw [hmprv]
    · rw [← he.walk]
      exact hwalk ..

/-- An event that is not an access: the registers change alike, and the TLB is emptied
wherever a register changes that is not left to a fence. -/
theorem Inv.step_of_not_access (hi : Inv since m) {e : Event c} (he : e.accesses = false) :
    Agrees (e.unfencedAfter m.regs since) { m with regs := (m.regs.step e).2 } (m.regs.step e).1
      (m.step e) := by
  cases e with
  | load | store | amoProbe | fetch => cases he
  | pmpWrite w =>
    cases hw : m.regs.pmp.write c.xlen w with
    | none =>
      simp only [Mmu.step, MmuRegs.step, hw]
      exact ⟨rfl, hi, rfl⟩
    | some pmp =>
      simp only [Mmu.step, MmuRegs.step, hw]
      exact ⟨rfl, inv_flushTlb _, rfl⟩
  | setPrivilege prv => exact ⟨rfl, inv_flushTlb _, rfl⟩
  | writeMstatus mprv mpp mxr sum =>
    refine ⟨rfl, hi.writeMstatus mprv mpp mxr sum, ?_⟩
    simp only [Mmu.step, MmuRegs.step]
    split_ifs <;> rfl
  | writeMnstatus nmie =>
    exact ⟨rfl, hi.unfenced (u := ⟨m.regs.table, m.regs.nmie || nmie⟩) rfl rfl, rfl⟩
  | sfenceVma => exact ⟨rfl, inv_flushTlb _, rfl⟩
  | triggerUpdated checks => exact ⟨rfl, inv_of_empty fun _ _ => rfl, rfl⟩
  | debug on prv => exact ⟨rfl, inv_flushTlb _, rfl⟩
  | writeSatp table => exact ⟨rfl, inv_flushTlb _, rfl⟩
  | remap table => exact ⟨rfl, hi.unfenced (u := ⟨table, m.regs.nmie⟩) rfl rfl, rfl⟩

theorem Inv.step_of_access (hi : Inv since m) {e : Event c} (he : e.accesses = true)
    (hc : ∀ type v, e.touches type v → Current since m.regs type v) :
    Agrees (e.unfencedAfter m.regs since) { m with regs := (m.regs.step e).2 } (m.regs.step e).1
      (m.step e) := by
  cases e with
  | load addr width lr traced =>
    exact hi.access .load addr width (fun k hk => hc _ _ ⟨rfl, k, hk, rfl⟩) lr lr (!traced)
  | store addr width traced =>
    exact hi.access .store addr width (fun k hk => hc _ _ ⟨rfl, k, hk, rfl⟩) false false (!traced)
  | amoProbe addr width =>
    exact hi.slowPath .store addr width (fun k hk => hc _ _ ⟨rfl, k, hk, rfl⟩) false true false
  | fetch addr even =>
    obtain ⟨h1, h2, h3⟩ :=
      hi.intrapage .fetch addr 2 (hc _ _ ⟨rfl, rfl⟩) (by norm_num) (by omega) false true
    exact ⟨by simp only [Mmu.step, Mmu.fetch, MmuRegs.step, h1], h2, h3⟩
  | pmpWrite | setPrivilege | writeMstatus | writeMnstatus | sfenceVma | triggerUpdated | debug
  | writeSatp | remap => cases he

theorem run_eq (m : Mmu c) (hi : Inv since m) {es : List (Event c)}
    (hf : Fenced since m.regs es) : m.run es = m.regs.run es := by
  induction es generalizing m since with
  | nil => rfl
  | cons e es ih =>
    obtain ⟨hc, hrest⟩ := hf
    have hstep : Agrees (e.unfencedAfter m.regs since) { m with regs := (m.regs.step e).2 }
        (m.regs.step e).1 (m.step e) := by
      cases he : e.accesses with
      | false => exact hi.step_of_not_access he
      | true => exact hi.step_of_access he hc
    have hregs : (m.step e).2.regs = (m.regs.step e).2 := hstep.regs
    rw [← hregs] at hrest
    rw [Mmu.run, MmuRegs.run, hstep.answer, ← hregs, ih (m.step e).2 hstep.inv hrest]

/-- For every configuration, every reset state and every sequence of loads, stores, fetches,
AMO probes and register writes in which no access meets a page whose translation has been
changed by new page tables, or by setting `NMIE`, since the last fence: each access gets the
physical address, or the fault, that walking the tables and checking the protection registers
at that moment gives. -/
theorem tlb_is_transparent (r : MmuRegs c) (es : List (Event c)) (hf : Fenced [] r es) :
    (Mmu.new r).run es = r.run es :=
  run_eq (Mmu.new r) (inv_of_empty fun _ _ => rfl) hf

/-- A machine-mode hart without virtual memory, the first of its protection entries open to
all; `mstatus` may redirect its loads to the user. -/
def bareRegs (mprv nmie : Bool) : MmuRegs ⟨false, false, 64, fun _ => true, fun _ => true⟩ where
  pmp := Pmp.new 16 2
  prv := .prvM
  mprv := mprv
  mpp := .prvU
  mxr := false
  sum := false
  nmie := nmie
  debugMode := false
  table := {
    walk := fun _ _ _ _ _ v => if v < 2 ^ 52 then .ok v else .error .pageFault
    walk_lt := fun h => by
      split_ifs at h with hv
      exact Except.ok.inj h ▸ hv
    walk_agree := fun h h' => Except.ok.inj (h.symm.trans h')
    walk_bare := fun _ _ _ _ _ _ _ _ _ => rfl }

/-- A store, the same store through the TLB, and once more after the user has taken over:
no entry is open to the user. -/
theorem tlb_is_transparent_bare :
    (Mmu.new (bareRegs false true)).run [.store 0x80000000 .uint64 false,
      .store 0x80000008 .uint64 false, .setPrivilege .prvU, .store 0x80000008 .uint64 false] =
      [[.ok 0x80000000], [.ok 0x80000008], [], [.error .accessFault]] := by
  refine (tlb_is_transparent (bareRegs false true) _ ?_).trans ?_
  · exact ⟨fun _ _ _ => current_nil _ _ _, fun _ _ _ => current_nil _ _ _,
      fun _ _ _ => current_nil _ _ _, fun _ _ _ => current_nil _ _ _, trivial⟩
  · decide +kernel

/-- Setting `NMIE` while `MPRV` is set needs the fence: the store is the user's now, but it
finds the tag of machine mode. -/
example : (Mmu.new (bareRegs true false)).run [.store 0x80000000 .uint64 false,
    .writeMnstatus true, .store 0x80000008 .uint64 false] ≠
    (bareRegs true false).run [.store 0x80000000 .uint64 false, .writeMnstatus true,
      .store 0x80000008 .uint64 false] := by
  decide +kernel

end Mmu

end PerceptronSoc
