import PerceptronSoc.Proofs.PmpRegion

/-! Locked entries. Without the bypass of `mseccfg.RLB` a locked entry keeps its
configuration and its address, and a locked `TOR` entry the address below it, through every
sequence of register writes; and the bypass cannot be switched on while an entry is locked.
So what a locked entry protects, it protects until reset. -/

namespace PerceptronSoc.Pmp

open PmpEntry

variable {p p' p'' : Pmp} {e xlen : ℕ}

/-- What writes leave of a locked entry and the registers it depends on. -/
structure Keeps (e : ℕ) (p p' : Pmp) : Prop where
  nPmp : p'.nPmp = p.nPmp
  granularity : p'.lgPmpGranularity = p.lgPmpGranularity
  entry : p'.entries e = p.entries e
  base : (p.entries e).cfg &&& pmpA = pmpTor → e ≠ 0 →
    (p'.entries (e - 1)).val = (p.entries (e - 1)).val
  rlb : p'.getRlb = false
  mml : p.getMml = true → p'.getMml = true
  mmwp : p.getMmwp = true → p'.getMmwp = true

theorem Keeps.refl (h : p.getRlb = false) : Keeps e p p :=
  ⟨rfl, rfl, rfl, fun _ _ => rfl, h, id, id⟩

theorem Keeps.trans (h : Keeps e p p') (h' : Keeps e p' p'') : Keeps e p p'' where
  nPmp := h'.nPmp.trans h.nPmp
  granularity := h'.granularity.trans h.granularity
  entry := h'.entry.trans h.entry
  base ht he := (h'.base (h.entry ▸ ht) he).trans (h.base ht he)
  rlb := h'.rlb
  mml := h'.mml ∘ h.mml
  mmwp := h'.mmwp ∘ h.mmwp

theorem keeps_setEntry {i : ℕ} {x : PmpEntry} (hr : p.getRlb = false) (hi : i ≠ e)
    (hval : (p.entries e).cfg &&& pmpA = pmpTor → e ≠ 0 → i = e - 1 → x.val = (p.entries i).val) :
    Keeps e p (p.setEntry i x) where
  nPmp := rfl
  granularity := rfl
  entry := Function.update_of_ne hi.symm _ _
  base ht he := by
    by_cases hie : e - 1 = i
    · subst hie
      exact (congrArg PmpEntry.val (Function.update_self ..)).trans (hval ht he rfl)
    · exact congrArg PmpEntry.val (Function.update_of_ne hie _ _)
  rlb := hr
  mml := id
  mmwp := id

theorem writeCfg_keeps (hr : p.getRlb = false) (hl : (p.entries e).isLocked = true) (i : ℕ)
    (byte : BitVec 8) : Keeps e p (p.writeCfg i byte) := by
  unfold writeCfg
  simp only
  split_ifs with h1 h2 h3
  · have hi : i ≠ e := by
      rintro rfl
      rw [isLocked] at hl
      rw [hr, hl] at h2
      cases h2
    exact keeps_setEntry hr hi fun _ _ _ => rfl
  · exact Keeps.refl hr
  · exact Keeps.refl hr
  · exact Keeps.refl hr

theorem writePmpcfg_keeps (hr : p.getRlb = false) (hl : (p.entries e).isLocked = true) {reg : ℕ}
    {val : BitVec 64} (h : p.writePmpcfg xlen reg val = some p') : Keeps e p p' := by
  unfold writePmpcfg at h
  split_ifs at h
  rw [Option.some.injEq] at h
  subst h
  refine List.foldlRecOn (motive := fun q => Keeps e p q) _ _ (Keeps.refl hr) ?_
  intro q hq k _
  exact hq.trans (writeCfg_keeps hq.rlb (hq.entry ▸ hl) _ _)

theorem writePmpaddr_keeps (hn : p.nPmp ≤ maxPmp) (he : e < p.nPmp) (hr : p.getRlb = false)
    (hl : (p.entries e).isLocked = true) {i : ℕ} {val : BitVec 64}
    (h : p.writePmpaddr i val = some p') : Keeps e p p' := by
  have hl' : has (p.entries e).cfg pmpL = true := hl
  unfold writePmpaddr at h
  simp only [hr, Bool.not_false, Bool.true_and] at h
  split_ifs at h with h0 hok
  rw [Option.some.injEq] at h
  subst h
  simp only [Bool.and_eq_true, decide_eq_true_eq, Bool.not_eq_true'] at hok
  obtain ⟨⟨hi, hfree⟩, hnext⟩ := hok
  apply keeps_setEntry hr
  · rintro rfl
    rw [hfree] at hl'
    cases hl'
  · intro ht hpos hie
    -- the entry below a locked `TOR` entry is refused
    exfalso
    have hsucc : i + 1 = e := by omega
    have hlt : ¬ maxPmp ≤ e := by omega
    unfold nextLockedAndTor at hnext
    rw [hsucc, if_neg hlt, hl', ht, hr] at hnext
    cases hnext

theorem getMml_eq (p : Pmp) : p.getMml = p.mseccfg.getLsbD 0 := by
  have h := BitBlocks.and_twoPow_eq_zero_iff (by decide : 0 < 64) p.mseccfg
  rw [Bool.eq_iff_iff, getMml, bne_iff_ne, ne_eq]
  exact (not_congr h).trans (by simp)

theorem getMmwp_eq (p : Pmp) : p.getMmwp = p.mseccfg.getLsbD 1 := by
  have h := BitBlocks.and_twoPow_eq_zero_iff (by decide : 1 < 64) p.mseccfg
  rw [Bool.eq_iff_iff, getMmwp, bne_iff_ne, ne_eq]
  exact (not_congr h).trans (by simp)

theorem getRlb_eq (p : Pmp) : p.getRlb = p.mseccfg.getLsbD 2 := by
  have h := BitBlocks.and_twoPow_eq_zero_iff (by decide : 2 < 64) p.mseccfg
  rw [Bool.eq_iff_iff, getRlb, bne_iff_ne, ne_eq]
  exact (not_congr h).trans (by simp)

theorem writeMseccfg_keeps (he : e < p.nPmp) (hr : p.getRlb = false)
    (hl : (p.entries e).isLocked = true) {val : BitVec 64} (h : p.writeMseccfg val = some p') :
    Keeps e p p' := by
  have hrec : (List.range p.nPmp).any (fun i => (p.entries i).isLocked) = true :=
    List.any_eq_true.mpr ⟨e, List.mem_range.mpr he, hl⟩
  have hzero : (p.mseccfg &&& 4 == 0) = true := by
    rw [getRlb, bne_eq_false_iff_eq] at hr
    rw [hr]
    rfl
  unfold writeMseccfg at h
  split_ifs at h
  rw [Option.some.injEq, hrec, hzero] at h
  subst h
  refine ⟨rfl, rfl, rfl, fun _ _ => rfl, ?_, ?_, ?_⟩
  · have h2 : (2 : BitVec 64).getLsbD 2 = false := by decide
    have h1 : (1 : BitVec 64).getLsbD 2 = false := by decide
    rw [getRlb_eq] at hr ⊢
    simp only [Bool.and_self, Bool.not_true, Bool.false_eq_true, if_false, BitVec.getLsbD_or,
      BitVec.getLsbD_and, hr, h1, h2, Bool.and_false, Bool.or_false]
  · rw [getMml_eq, getMml_eq]
    intro hm
    simp [hm]
  · rw [getMmwp_eq, getMmwp_eq]
    intro hm
    simp [hm]

theorem writes_keeps (hn : p.nPmp ≤ maxPmp) (he : e < p.nPmp) (hr : p.getRlb = false)
    (hl : (p.entries e).isLocked = true) (ws : List Write) : Keeps e p (p.writes xlen ws) := by
  refine List.foldlRecOn (motive := fun q => Keeps e p q) ws _ (Keeps.refl hr) ?_
  intro q hq w _
  have hl' : (q.entries e).isLocked = true := hq.entry ▸ hl
  have he' : e < q.nPmp := hq.nPmp ▸ he
  cases hw : q.write xlen w with
  | none => exact hq
  | some q' =>
    refine hq.trans ?_
    cases w with
    | pmpaddr i val => exact writePmpaddr_keeps (hq.nPmp ▸ hn) he' hq.rlb hl' hw
    | pmpcfg reg val => exact writePmpcfg_keeps hq.rlb hl' hw
    | mseccfg val => exact writeMseccfg_keeps he' hq.rlb hl' hw

theorem Keeps.torPaddr (h : Keeps e p p') : p'.torPaddr e = p.torPaddr e := by
  unfold Pmp.torPaddr torMask
  rw [h.entry, h.granularity]

theorem Keeps.torBasePaddr (h : Keeps e p p') (ht : (p.entries e).cfg &&& pmpA = pmpTor) :
    p'.torBasePaddr e = p.torBasePaddr e := by
  unfold Pmp.torBasePaddr
  split_ifs with h0
  · rfl
  · unfold Pmp.torPaddr torMask
    rw [h.base ht h0, h.granularity]

theorem Keeps.match4 (h : Keeps e p p') (addr : BitVec 64) : p'.match4 e addr = p.match4 e addr := by
  have hmask : p'.napotMask e = p.napotMask e := by
    unfold napotMask napotOnes torMask
    rw [h.entry, h.granularity]
  unfold Pmp.match4
  rw [h.entry, h.torPaddr, hmask]
  simp only
  split_ifs with h0 ht
  · rfl
  · rw [h.torBasePaddr ht]
  · rfl

theorem Keeps.accessOk (h : Keeps e p p') (hm : p'.getMml = p.getMml) (type : AccessType)
    (mode : Priv) : p'.accessOk e type mode = p.accessOk e type mode := by
  unfold Pmp.accessOk
  rw [h.entry, hm]

/-- The loop reads only the entries up to the first that matches. -/
theorem pmpLoop_eq_of_prefix {addr : BitVec 64} {len : ℕ} {type : AccessType} {mode : Priv}
    (hkeep : ∀ k ≤ e, Keeps k p p') (hm : p'.getMml = p.getMml) {i n : ℕ} (hie : i ≤ e)
    (hen : e < i + n) (htouch : ∃ k, i ≤ k ∧ k ≤ e ∧ (sectors addr len).any (p.match4 k) = true) :
    p'.pmpLoop addr len type mode i n = p.pmpLoop addr len type mode i n := by
  induction n generalizing i with
  | zero => omega
  | succ n ih =>
    have hmatch : p'.match4 i = p.match4 i := funext (hkeep i hie).match4
    rw [pmpLoop, pmpLoop, hmatch, (hkeep i hie).accessOk hm]
    by_cases hany : (sectors addr len).any (p.match4 i) = true
    · simp only [hany, if_true]
    · simp only [hany, Bool.false_eq_true, if_false]
      obtain ⟨k, h1, h2, hk⟩ := htouch
      have hne : i ≠ k := fun he => hany (he ▸ hk)
      exact ih (by omega) (by omega) ⟨k, by omega, h2, hk⟩

/-- For every setting of the registers in which entry `e` is locked and the bypass is off,
and every sequence of writes to `pmpaddr`, `pmpcfg` and `mseccfg`: the entry, the base of its
range if it is a `TOR` entry and the addresses it matches stay, the bypass stays off, and
`MML` and `MMWP` are never cleared. While `MML` has not been set the entry allows what it
allowed, and if the entries before it are locked too, every access that touches one of them
is decided as before. -/
theorem locked_entries_stay (p : Pmp) (xlen e : ℕ) (hn : p.nPmp ≤ maxPmp) (he : e < p.nPmp)
    (hr : p.getRlb = false) (hl : (p.entries e).isLocked = true) (ws : List Write) :
    (p.writes xlen ws).entries e = p.entries e ∧
    ((p.entries e).cfg &&& pmpA = pmpTor →
      (p.writes xlen ws).torBasePaddr e = p.torBasePaddr e) ∧
    (∀ addr, (p.writes xlen ws).match4 e addr = p.match4 e addr) ∧
    (p.writes xlen ws).getRlb = false ∧
    (p.getMml = true → (p.writes xlen ws).getMml = true) ∧
    (p.getMmwp = true → (p.writes xlen ws).getMmwp = true) ∧
    ((p.writes xlen ws).getMml = p.getMml →
      (∀ type mode, (p.writes xlen ws).accessOk e type mode = p.accessOk e type mode) ∧
      ((∀ k < e, (p.entries k).isLocked = true) → ∀ addr len type mode,
        (∃ k ≤ e, (sectors addr len).any (p.match4 k) = true) →
        (p.writes xlen ws).pmpOk addr len type mode = p.pmpOk addr len type mode)) := by
  have hke : Keeps e p (p.writes xlen ws) := writes_keeps hn he hr hl ws
  refine ⟨hke.entry, hke.torBasePaddr, hke.match4, hke.rlb, hke.mml, hke.mmwp,
    fun hm => ⟨hke.accessOk hm, ?_⟩⟩
  rintro hbefore addr len type mode ⟨k, hk, hany⟩
  have hkeep : ∀ k ≤ e, Keeps k p (p.writes xlen ws) := by
    intro k hk
    obtain rfl | hlt := hk.eq_or_lt
    · exact hke
    · exact writes_keeps hn (hlt.trans he) hr (hbefore k hlt) ws
  unfold pmpOk
  rw [hke.nPmp]
  split_ifs with h0
  · rfl
  · exact pmpLoop_eq_of_prefix hkeep hm (Nat.zero_le e) (by omega) ⟨k, Nat.zero_le k, hk, hany⟩

/-- A locked read-only block, against an attempt to unlock, move and bypass it. -/
theorem locked_entries_stay_block :
    ((⟨8, 2, fun _ => ⟨0x20000001, 0x99⟩, 0⟩ : Pmp).writes 64
      [.mseccfg 4, .pmpcfg 0 0, .pmpaddr 0 0]).pmpOk 0x80000008 8 .store .prvM = false := by
  obtain ⟨-, -, -, -, -, -, hdecide⟩ := locked_entries_stay
    ⟨8, 2, fun _ => ⟨0x20000001, 0x99⟩, 0⟩ 64 0 (by decide) (by decide) (by decide) (by decide)
    [.mseccfg 4, .pmpcfg 0 0, .pmpaddr 0 0]
  rw [(hdecide (by decide +kernel)).2 (fun k hk => absurd hk k.not_lt_zero) 0x80000008 8 .store
    .prvM ⟨0, le_rfl, by decide +kernel⟩]
  decide +kernel

end PerceptronSoc.Pmp
