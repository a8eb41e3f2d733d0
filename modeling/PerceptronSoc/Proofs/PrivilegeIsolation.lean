import PerceptronSoc.Proofs.PrivilegeInvariant

/-! Machine mode keeps control. Whatever supervisors, users and guests do, the part of the
registers that is the machine's stays as machine mode left it, machine mode is entered through
its own trap vector only, and an interrupt that it enabled and kept for itself is taken. -/

namespace PerceptronSoc.Privilege.State

open Masked

variable {c : PrivConfig} {s : State}

def Lower (s : State) : Prop := s.prv ≠ .prvM ∧ s.debugMode = false

/-- What is the machine's: its own registers, the bits of `mstatus` that are not a supervisor's,
and the enables of the interrupts that are not delegated. -/
structure MachineView where
  misa : Reg
  mstatus : Reg
  mie : Reg
  medeleg : Reg
  mideleg : Reg
  menvcfg : Reg
  mcounteren : Reg
  mscratch : Reg
  mnscratch : Reg
  pmp : Pmp
  mtvec : Reg
  mnstatus : Reg
  mnepc : Reg
  mepc : Reg
  mcause : Reg
  mtval : Reg
  mtval2 : Reg
  mtinst : Reg

def machineView (c : PrivConfig) (s : State) : MachineView where
  misa := s.misa
  mstatus := s.mstatus &&& machineBits c
  mie := s.mie &&& ~~~s.midelegRead
  medeleg := s.medeleg
  mideleg := s.mideleg
  menvcfg := s.menvcfg
  mcounteren := s.mcounteren
  mscratch := s.mscratch
  mnscratch := s.mnscratch
  pmp := s.pmp
  mtvec := s.mtvec
  mnstatus := s.mnstatus
  mnepc := s.mnepc
  mepc := s.mepc
  mcause := s.mcause
  mtval := s.mtval
  mtval2 := s.mtval2
  mtinst := s.mtinst

/-- The step stays below machine mode and does not touch what is the machine's. -/
structure Confined (c : PrivConfig) (s s' : State) : Prop where
  lower : s'.Lower
  view : s'.machineView c = s.machineView c

/-- The bits of `mstatus` that a trap into machine mode writes. -/
def trapBits : Reg := mstatusMie ||| mstatusMpie ||| mstatusMpp ||| mstatusGva ||| mstatusMpv

/-- The step is trap `t` into machine mode: control goes to its vector, the mode, the address and
the interrupt enable of where it came from are saved, interrupts are off, and the rest of what is
the machine's is untouched. -/
structure Entered (c : PrivConfig) (t : Trap) (s s' : State) : Prop where
  prv : s'.prv = .prvM
  v : s'.v = false
  pc : s'.pc = s.machineVector c t
  mpp : getField s'.mstatus mstatusMpp = prvReg s.prv
  mpie : getField s'.mstatus mstatusMpie = getField s.mstatus mstatusMie
  mie : getField s'.mstatus mstatusMie = 0
  view : s'.machineView c = { s.machineView c with
    mstatus := s'.mstatus &&& machineBits c
    mepc := s.pc &&& ~~~1#64
    mcause := t.cause
    mtval := t.tval
    mtval2 := t.tval2
    mtinst := t.tinst }
  mstatus : s'.mstatus &&& (machineBits c &&& ~~~trapBits) =
    s.mstatus &&& (machineBits c &&& ~~~trapBits)

theorem view_writeMstatus {val : Reg} (h : Inv c s)
    (hval : val &&& machineBits c = s.mstatus &&& machineBits c) :
    (s.writeMstatus c val).machineView c = s.machineView c := by
  have hbits := writeMstatus_machineBits h.mpp hval
  unfold machineView
  congr 1

theorem view_writeNonvirtualSstatus (h : Inv c s) (val : Reg) :
    (s.writeNonvirtualSstatus c val).machineView c = s.machineView c :=
  view_writeMstatus h (and_write_of_disjoint (sstatusWriteMask_and_machineBits c))

theorem view_writeSstatus (h : Inv c s) (val : Reg) :
    (s.writeSstatus c val).machineView c = s.machineView c := by
  unfold writeSstatus
  split
  · rfl
  · exact view_writeNonvirtualSstatus h val

theorem view_clearMprv (h : Inv c s) (hprv : s.prv ≠ .prvM) :
    (s.clearMprv c).machineView c = s.machineView c := by
  refine view_writeMstatus h ?_
  have hclear : setField s.mstatus mstatusMprv 0 = s.mstatus := by
    rw [setField, and_not_of_disjoint (h.mprv hprv)]
    simp
  rw [hclear]

/-- The windows on `mie` show delegated interrupts only. -/
theorem view_ieWrite {a : IntAccessor} (ha : a.maskMode ≠ .none) (val : Reg) :
    (s.ieWrite a val).machineView c = s.machineView c := by
  have hmask : (s.delegMask a.maskMode &&& a.ieWriteMask) &&& ~~~s.midelegRead = 0 := by
    rw [and_eq_zero_iff]
    intro i hi hk
    simp only [BitVec.getLsbD_not, hi, decide_true, Bool.true_and, Bool.not_eq_true'] at hk
    have hdeleg : (s.delegMask a.maskMode).getLsbD i = false := by
      cases hmode : a.maskMode with
      | none => exact absurd hmode ha
      | mideleg => exact hk
      | hideleg => simp only [delegMask, hidelegRead, BitVec.getLsbD_and, hk, Bool.and_false]
    simp only [BitVec.getLsbD_and, hdeleg, Bool.false_and]
  have hmie : writeMasked s.mie (s.delegMask a.maskMode &&& a.ieWriteMask) (val <<< a.shiftamt) &&&
      ~~~s.midelegRead = s.mie &&& ~~~s.midelegRead := and_write_of_disjoint hmask
  unfold machineView
  congr 1

theorem csrPriv_pmpaddr : ∀ i, (Csr.pmpaddr i).csrPriv = 3 := by decide

theorem csrPriv_pmpcfg : ∀ i, (Csr.pmpcfg i).csrPriv = 3 := by decide

theorem view_writeCsr (h : Inv c s) (hprv : s.prv ≠ .prvM) {csr : Csr}
    (hcsr : csr.csrPriv ≤ s.csrLevel) (val : Reg) :
    (s.writeCsr c csr val).machineView c = s.machineView c := by
  have hlt := Inv.csrLevel_lt hprv
  have hmachine : csr.csrPriv ≠ 3 := by omega
  cases csr with
  | sstatus => exact view_writeSstatus h val
  | sie =>
    unfold writeCsr
    dsimp only
    split
    · exact view_ieWrite (by decide) val
    · exact view_ieWrite (by decide) val
  | hie => exact view_ieWrite (by decide) val
  | vsie => exact view_ieWrite (by decide) val
  | sip => unfold writeCsr; dsimp only; split <;> rfl
  | stvec => unfold writeCsr; dsimp only; split <;> rfl
  | sepc => unfold writeCsr; dsimp only; split <;> rfl
  | scause => unfold writeCsr; dsimp only; split <;> rfl
  | stval => unfold writeCsr; dsimp only; split <;> rfl
  | pmpaddr i => exact absurd (csrPriv_pmpaddr i) hmachine
  | pmpcfg i => exact absurd (csrPriv_pmpcfg i) hmachine
  | _ => first | rfl | exact absurd (by decide) hmachine

theorem setPrivilege_lower {prv : Reg} {virt : Bool} (hprv : c.legalizePrivilege prv ≠ .prvM)
    (hdebug : s.debugMode = false) : (s.setPrivilege c prv virt).Lower := ⟨hprv, hdebug⟩

theorem writeSstatus_debugMode (val : Reg) : (s.writeSstatus c val).debugMode = s.debugMode := by
  unfold writeSstatus
  split <;> rfl

theorem trapToVs_confined (h : Inv c s) (hs : s.Lower) (t : Trap) (epc : Reg) :
    Confined c s (s.trapToVs c t epc) := by
  have hrecord : Inv c (s.recordVs t epc) := h.same rfl rfl rfl rfl rfl
  constructor
  · refine setPrivilege_lower (legalizePrivilege_one c (h.hasU hs.1)) ?_
    rw [writeSstatus_debugMode]
    exact hs.2
  · exact view_writeSstatus hrecord _

theorem trapToHs_confined (h : Inv c s) (hs : s.Lower) (t : Trap) (epc : Reg) :
    Confined c s (s.trapToHs c t epc) := by
  have hrecord : Inv c (s.recordHs t epc) := h.same rfl rfl rfl rfl rfl
  have hview := view_writeNonvirtualSstatus hrecord (pushSstatus (s.nonvirtualSstatus c) s.prv)
  have hone := legalizePrivilege_one c (h.hasU hs.1)
  unfold trapToHs
  dsimp only
  split
  · exact ⟨setPrivilege_lower hone hs.2, hview⟩
  · exact ⟨setPrivilege_lower hone hs.2, hview⟩

theorem mstatusOf_and {k : Reg} (t : Trap) (hk : trapBits &&& k = 0) :
    s.mstatusOf t &&& k = s.mstatus &&& k := by
  have hfield : ∀ m : Reg, m &&& trapBits = m → m &&& k = 0 := by
    intro m hm
    rw [BitVec.and_comm]
    refine and_eq_zero_mono ?_ hm
    rw [BitVec.and_comm]
    exact hk
  unfold mstatusOf
  rw [setField_and_of_disjoint (hfield _ (by decide)), setField_and_of_disjoint (hfield _ (by decide)),
    setField_and_of_disjoint (hfield _ (by decide)), setField_and_of_disjoint (hfield _ (by decide)),
    setField_and_of_disjoint (hfield _ (by decide))]

theorem mie_subset_mstatusWriteMask : mstatusMie &&& s.mstatusWriteMask c = mstatusMie := by
  unfold mstatusWriteMask
  refine subset_or_left (subset_or_left (subset_or_left (subset_or_left (subset_or_left
    (subset_or_left (subset_or_left ?_))))))
  rw [BitVec.or_comm]
  exact subset_or_left (BitVec.and_self)

theorem mpie_subset_mstatusWriteMask : mstatusMpie &&& s.mstatusWriteMask c = mstatusMpie := by
  unfold mstatusWriteMask
  refine subset_or_left (subset_or_left (subset_or_left (subset_or_left (subset_or_left
    (subset_or_left ?_)))))
  rw [BitVec.or_comm]
  exact subset_or_left (BitVec.and_self)

theorem getField_mstatusOf_mpp (t : Trap) : getField (s.mstatusOf t) mstatusMpp = prvReg s.prv := by
  rw [← getField_setField_mpp (setField s.mstatus mstatusMpie (getField s.mstatus mstatusMie))]
  apply getField_congr
  unfold mstatusOf
  rw [setField_and_of_disjoint (by decide), setField_and_of_disjoint (by decide),
    setField_and_of_disjoint (by decide)]

theorem getField_mstatusOf_mpie (t : Trap) :
    getField (s.mstatusOf t) mstatusMpie = getField s.mstatus mstatusMie := by
  have hbit := getField_bit (x := s.mstatus) (m := mstatusMie) (k := 3) (by decide) (by decide)
  rw [← getField_setField_bit (x := s.mstatus) (m := mstatusMpie) (k := 7) (by decide) (by decide)
    hbit]
  apply getField_congr
  unfold mstatusOf
  rw [setField_and_of_disjoint (by decide), setField_and_of_disjoint (by decide),
    setField_and_of_disjoint (by decide), setField_and_of_disjoint (by decide)]

theorem getField_mstatusOf_mie (t : Trap) : getField (s.mstatusOf t) mstatusMie = 0 := by
  rw [← getField_setField_bit (x := setField (setField s.mstatus mstatusMpie
    (getField s.mstatus mstatusMie)) mstatusMpp (prvReg s.prv)) (v := 0) (m := mstatusMie) (k := 3)
    (by decide) (by decide) (.inl rfl)]
  apply getField_congr
  unfold mstatusOf
  rw [setField_and_of_disjoint (by decide), setField_and_of_disjoint (by decide)]

theorem trapToM_entered (h : Inv c s) (t : Trap) : Entered c t s (s.trapToM c t s.pc) where
  prv := legalizePrivilege_three c
  v := rfl
  pc := rfl
  mpp := by
    have hmpp : getField (s.trapToM c t s.pc).mstatus mstatusMpp =
      prvReg (c.legalizePrivilege (getField (s.mstatusOf t) mstatusMpp)) :=
        getField_mpp_writeMstatus _
    rw [hmpp, getField_mstatusOf_mpp, h.prv]
  mpie := by
    rw [← getField_mstatusOf_mpie t]
    exact getField_congr (writeMstatus_and_of_subset (by decide) (by decide)
      mpie_subset_mstatusWriteMask)
  mie := by
    rw [← getField_mstatusOf_mie (s := s) t]
    exact getField_congr (writeMstatus_and_of_subset (by decide) (by decide)
      mie_subset_mstatusWriteMask)
  view := rfl
  mstatus := by
    have hdisjoint : ∀ m : Reg, m &&& trapBits = m → m &&& (machineBits c &&& ~~~trapBits) = 0 := by
      intro m hm
      rw [and_eq_zero_iff]
      intro i hi hk
      simp only [BitVec.getLsbD_and, BitVec.getLsbD_not, hi, decide_true, Bool.true_and,
        Bool.and_eq_true, Bool.not_eq_true'] at hk
      have hbit := congrArg (fun v => v.getLsbD i) hm
      simp only [BitVec.getLsbD_and, hk.2, Bool.and_false] at hbit
      exact hbit.symm
    have hsd : sdBit &&& (machineBits c &&& ~~~trapBits) = 0 := by
      rw [← BitVec.and_assoc, sdBit_and_machineBits]
      exact BitVec.zero_and
    refine (writeMstatus_and hsd).trans (and_write_of_agree ?_)
    rw [setField_and_of_disjoint (hdisjoint _ (by decide))]
    exact mstatusOf_and t (hdisjoint _ BitVec.and_self)

/-- A trap from a lower mode stays below machine mode or goes to the machine's vector. -/
theorem takeTrap_lower (h : Inv c s) (hs : s.Lower) (t : Trap) :
    Confined c s (s.takeTrap c t s.pc) ∨ Entered c t s (s.takeTrap c t s.pc) := by
  unfold takeTrap
  rw [hs.2]
  simp only [Bool.false_eq_true, if_false]
  split
  · exact .inl (trapToVs_confined h hs t s.pc)
  split
  · exact .inl (trapToHs_confined h hs t s.pc)
  · exact .inr (trapToM_entered h t)

/-- The debugger takes over: in debug mode at its ROM, with the address saved for `dret`. -/
structure Halted (c : PrivConfig) (s s' : State) : Prop where
  debugMode : s'.debugMode = true
  pc : s'.pc = 0x800
  dpc : s'.dpc = s.pc &&& ~~~1#64
  dcsrPrv : s'.dcsrPrv = prvReg s.prv
  view : s'.machineView c = s.machineView c

theorem catchTrap_lower (h : Inv c s) (hs : s.Lower) {r : Except Trap State}
    (hr : ∀ s', r = .ok s' → Confined c s s') :
    Confined c s (s.catchTrap c r) ∨ ∃ t, Entered c t s (s.catchTrap c r) := by
  cases r with
  | error t => exact (takeTrap_lower h hs t).imp_right fun ht => ⟨t, ht⟩
  | ok s' => exact .inl (hr s' rfl)

theorem writeCsr_lower (hs : s.Lower) {csr : Csr} (hcsr : csr.csrPriv ≤ s.csrLevel) (val : Reg) :
    (s.writeCsr c csr val).Lower := by
  have hlt := Inv.csrLevel_lt hs.1
  have hmachine : csr.csrPriv ≠ 3 := by omega
  cases csr with
  | sstatus =>
    refine ⟨?_, ?_⟩
    · exact fun hM => hs.1 ((writeSstatus_prv (c := c) val).symm.trans hM)
    · exact (writeSstatus_debugMode val).trans hs.2
  | sie => unfold writeCsr; dsimp only; split <;> exact hs
  | sip => unfold writeCsr; dsimp only; split <;> exact hs
  | stvec => unfold writeCsr; dsimp only; split <;> exact hs
  | sepc => unfold writeCsr; dsimp only; split <;> exact hs
  | scause => unfold writeCsr; dsimp only; split <;> exact hs
  | stval => unfold writeCsr; dsimp only; split <;> exact hs
  | _ => first | exact hs | exact absurd (by decide) hmachine

theorem returnS_confined (h : Inv c s) (hs : s.Lower) : Confined c s (s.returnS c) := by
  have hpc : Inv c (s.setPcAndSerialize s.sepcRead) := h.same rfl rfl rfl rfl rfl
  have hstatus := hpc.writeSstatus (popSstatus (s.sstatus c))
  have hview : ((s.setPcAndSerialize s.sepcRead).writeSstatus c
      (popSstatus (s.sstatus c))).machineView c = s.machineView c := view_writeSstatus hpc _
  have hprv : ((s.setPcAndSerialize s.sepcRead).writeSstatus c
      (popSstatus (s.sstatus c))).prv ≠ .prvM := by
    rw [writeSstatus_prv]
    exact hs.1
  have hdebug : ((s.setPcAndSerialize s.sepcRead).writeSstatus c
      (popSstatus (s.sstatus c))).debugMode = false := by
    rw [writeSstatus_debugMode]
    exact hs.2
  have hspp := legalizePrivilege_spp (h.hasU hs.1) (s.sstatus c)
  unfold returnS
  dsimp only
  split
  · exact ⟨setPrivilege_lower hspp hdebug, hview⟩
  split
  · refine ⟨setPrivilege_lower hspp hdebug, ?_⟩
    have hh : Inv c (((s.setPcAndSerialize s.sepcRead).writeSstatus c
      (popSstatus (s.sstatus c))).writeHstatus c (setField s.hstatus hstatusSpv 0)) :=
        hstatus.same rfl rfl rfl rfl rfl
    exact (view_clearMprv hh hprv).trans hview
  · exact ⟨setPrivilege_lower hspp hdebug, (view_clearMprv hstatus hprv).trans hview⟩

theorem dirty_confined (h : Inv c s) (hs : s.Lower) {dirties : Reg} {s' : State}
    (hd : s.dirty c dirties = some s') : Confined c s s' := by
  unfold dirty at hd
  split at hd
  · cases hd
    exact ⟨hs, rfl⟩
  split at hd
  · cases hd
  · cases hd
    have hview := view_writeNonvirtualSstatus h (s.nonvirtualSstatus c ||| dirties)
    split
    · exact ⟨hs, hview⟩
    · exact ⟨hs, hview⟩

theorem ctz_spec {x : Reg} (hx : x ≠ 0) : ctz x < 64 ∧ x.getLsbD (ctz x) = true := by
  unfold ctz
  cases hfind : (List.range 64).find? fun i => x.getLsbD i with
  | none =>
    rw [List.find?_eq_none] at hfind
    refine absurd (BitVec.eq_of_getLsbD_eq ?_) hx
    intro i hi
    have hbit := hfind i (List.mem_range.mpr hi)
    simpa using hbit
  | some i =>
    have hmem := List.mem_of_find?_eq_some hfind
    have hbit := List.find?_some hfind
    exact ⟨List.mem_range.mp hmem, hbit⟩

theorem getLsbD_of_highBits {x : Reg} {i : ℕ} (h : (x >>> 12 <<< 12).getLsbD i = true) :
    x.getLsbD i = true := by
  simp only [BitVec.getLsbD_shiftLeft, BitVec.getLsbD_ushiftRight, Bool.and_eq_true,
    decide_eq_true_eq, Bool.not_eq_true', decide_eq_false_iff_not, not_lt] at h
  rw [Nat.add_sub_cancel' h.1.2] at h
  exact h.2

theorem highBits_ne_zero {x : Reg} (h : x >>> 12 ≠ 0) : x >>> 12 <<< 12 ≠ 0 := by
  intro hzero
  refine h (BitVec.eq_of_getLsbD_eq fun i hi => ?_)
  rw [BitVec.getLsbD_ushiftRight]
  by_cases hi' : 12 + i < 64
  · have hbit := congrArg (fun v => v.getLsbD (12 + i)) hzero
    simpa [hi'] using hbit
  · rw [BitVec.getLsbD_of_ge _ _ (by omega)]
    simp

theorem exists_lowBit {x : Reg} (h : x ≠ 0) (hlow : x >>> 12 = 0) :
    ∃ i < 12, x.getLsbD i = true := by
  obtain ⟨i, hi⟩ : ∃ i, x.getLsbD i = true := by
    by_contra hnone
    push Not at hnone
    refine h (BitVec.eq_of_getLsbD_eq fun i _ => ?_)
    simpa using hnone i
  refine ⟨i, ?_, hi⟩
  by_contra hge
  have hbit := congrArg (fun v => v.getLsbD (i - 12)) hlow
  simp only [BitVec.getLsbD_ushiftRight, Nat.add_sub_cancel' (not_lt.mp hge), hi] at hbit
  simp at hbit

/-- `take_interrupt` finds one of the enabled interrupts, as long as none of a user's is among
them. -/
theorem highestPriority_spec {enabled : Reg} (h : enabled ≠ 0) (huser : enabled &&& 0x111 = 0) :
    ∃ x, highestPriority enabled = some x ∧ x ≠ 0 ∧
      ∀ i, x.getLsbD i = true → enabled.getLsbD i = true := by
  unfold highestPriority
  split
  · rename_i hhigh
    exact ⟨_, rfl, highBits_ne_zero hhigh, fun _ => getLsbD_of_highBits⟩
  · rename_i hlow
    obtain ⟨i, hi12, hi⟩ := exists_lowBit h (not_not.mp hlow)
    have hnot : (0x111 : Reg).getLsbD i = false := by
      have hbit := congrArg (fun v => v.getLsbD i) huser
      simpa [hi] using hbit
    have hmem : i ∈ [11, 3, 7, 9, 1, 5, 13, 10, 2, 6] := by
      interval_cases i <;> simp_all
    cases hfind : [11, 3, 7, 9, 1, 5, 13, 10, 2, 6].findSome? fun i : ℕ =>
        if enabled.getLsbD i then some (1#64 <<< i) else none with
    | none =>
      rw [List.findSome?_eq_none_iff] at hfind
      have hbit := hfind i hmem
      rw [hi] at hbit
      cases hbit
    | some x =>
      obtain ⟨j, hj, hx⟩ := List.exists_of_findSome?_eq_some hfind
      split at hx
      · rename_i hbit
        cases hx
        refine ⟨_, rfl, ?_, ?_⟩
        · simp only [List.mem_cons, List.not_mem_nil, or_false] at hj
          rcases hj with rfl | rfl | rfl | rfl | rfl | rfl | rfl | rfl | rfl | rfl <;> decide
        · intro i' hi'
          have heq : i' = j := by
            simp only [BitVec.getLsbD_shiftLeft, BitVec.getLsbD_one, Bool.and_eq_true,
              decide_eq_true_eq, Bool.not_eq_true', decide_eq_false_iff_not, not_lt] at hi'
            omega
          rw [heq]
          exact hbit
      · cases hx

theorem enabledInterrupts_subset {pending : Reg} {i : ℕ}
    (h : (s.enabledInterrupts c pending).getLsbD i = true) : pending.getLsbD i = true := by
  unfold enabledInterrupts at h
  dsimp only at h
  split_ifs at h <;> simp_all

theorem takeInterrupt_total (h : Inv c s) :
    ∃ r, s.takeInterrupt c (s.mip &&& s.mie) = some r := by
  unfold takeInterrupt
  split
  · exact ⟨none, rfl⟩
  dsimp only
  split
  · rename_i henabled
    have huser : s.enabledInterrupts c (s.mip &&& s.mie) &&& 0x111 = 0 := by
      rw [and_eq_zero_iff]
      intro i hi hk
      by_contra hbit
      have hpending := enabledInterrupts_subset (by simpa using hbit)
      rw [BitVec.getLsbD_and, Bool.and_eq_true] at hpending
      have hmie := and_eq_zero_iff.mp h.mie i hi hk
      rw [hpending.2] at hmie
      cases hmie
    obtain ⟨x, hx, -⟩ := highestPriority_spec henabled.2.2 huser
    rw [hx]
    exact ⟨_, rfl⟩
  · exact ⟨none, rfl⟩

def interruptTrap (i : ℕ) : Trap := ⟨interruptBit ||| BitVec.ofNat 64 i, 0, false, 0, 0⟩

theorem interruptTrap_interrupt {i : ℕ} (hi : i < 64) : (interruptTrap i).interrupt = true := by
  interval_cases i <;> decide

theorem interruptTrap_bit {i : ℕ} (hi : i < 64) : (interruptTrap i).bit.toNat = i := by
  interval_cases i <;> decide

/-- An interrupt that is pending, enabled and not delegated is taken from every lower mode, and
it goes to machine mode. -/
theorem machine_interrupt (h : Inv c s) (hs : s.Lower) (hnmie : s.nmie c = true)
    (hpending : s.mip &&& s.mie &&& ~~~s.midelegRead ≠ 0) :
    ∃ i, (s.mip &&& s.mie &&& ~~~s.midelegRead).getLsbD i = true ∧
      s.exec c .pending = some (s.takeTrap c (interruptTrap i) s.pc) ∧
      Entered c (interruptTrap i) s (s.takeTrap c (interruptTrap i) s.pc) := by
  have henabled : s.enabledInterrupts c (s.mip &&& s.mie) =
      s.mip &&& s.mie &&& ~~~s.midelegRead := by
    have hm : (s.prv != .prvM || getField s.mstatus mstatusMie != 0) = true := by
      simp [hs.1]
    unfold enabledInterrupts
    simp only [hm, if_true]
    exact if_neg hpending
  have huser : s.mip &&& s.mie &&& ~~~s.midelegRead &&& 0x111 = 0 := by
    rw [and_eq_zero_iff]
    intro i hi hk
    simp only [BitVec.getLsbD_and, and_eq_zero_iff.mp h.mie i hi hk, Bool.and_false, Bool.false_and]
  obtain ⟨x, hx, hne, hsubset⟩ := highestPriority_spec hpending huser
  obtain ⟨hlt, hbit⟩ := ctz_spec hne
  have hi := hsubset _ hbit
  refine ⟨ctz x, hi, ?_, ?_⟩
  · have hne' : s.mip &&& s.mie ≠ 0 := by
      intro hzero
      rw [hzero] at hpending
      exact hpending (BitVec.zero_and)
    have htake : s.takeInterrupt c (s.mip &&& s.mie) = some (some (interruptTrap (ctz x))) := by
      unfold takeInterrupt
      rw [if_neg hne']
      simp only [henabled, hs.2, hnmie, hx]
      rw [if_pos ⟨by simp, trivial, hpending⟩]
      rfl
    simp only [exec, htake]
    rfl
  · have hdeleg : s.midelegRead.getLsbD (ctz x) = false := by
      simp only [BitVec.getLsbD_and, BitVec.getLsbD_not, Bool.and_eq_true, Bool.not_eq_true'] at hi
      exact hi.2.2
    have hvs : s.vsDelegated (interruptTrap (ctz x)) = false := by
      unfold vsDelegated delegated
      rw [interruptTrap_interrupt hlt, interruptTrap_bit hlt]
      simp [hidelegRead, hdeleg]
    have hhs : s.hsDelegated (interruptTrap (ctz x)) = false := by
      unfold hsDelegated delegated
      rw [interruptTrap_interrupt hlt, interruptTrap_bit hlt]
      simp [hdeleg]
    unfold takeTrap
    rw [hs.2, hvs, hhs]
    exact trapToM_entered h _

theorem dirty_total {which : Reg} (h : s.statusEnabled c which = true) :
    ∃ s', s.dirty c which = some s' := by
  unfold dirty
  split
  · exact ⟨_, rfl⟩
  · rw [h]
    exact ⟨_, rfl⟩

/-- Whatever a lower mode does, the hart does not abort, and either the step is confined, or the
debugger has taken over, or it is a trap to the machine's vector. -/
theorem step_lower (h : Inv c s) (hs : s.Lower) (e : Event) :
    ∃ s', s.exec c e = some s' ∧ (Confined c s s' ∨ Halted c s s' ∨ ∃ t, Entered c t s s') := by
  cases e with
  | csr csr write val insn =>
    refine ⟨_, rfl, (catchTrap_lower h hs fun s' hs' => ?_).imp_right .inr⟩
    obtain ⟨hcsr, rfl⟩ := csrInsn_ok hs'
    cases write
    · exact ⟨hs, rfl⟩
    · exact ⟨writeCsr_lower hs hcsr val, view_writeCsr h hs.1 hcsr val⟩
  | mret insn =>
    refine ⟨_, rfl, (catchTrap_lower h hs fun s' hs' => ?_).imp_right .inr⟩
    exact absurd (mret_ok hs').1 hs.1
  | sret insn =>
    refine ⟨_, rfl, (catchTrap_lower h hs fun s' hs' => ?_).imp_right .inr⟩
    rw [sret_ok hs']
    exact returnS_confined h hs
  | mnret insn =>
    refine ⟨_, rfl, (catchTrap_lower h hs fun s' hs' => ?_).imp_right .inr⟩
    exact absurd (mnret_ok hs').1 hs.1
  | dret insn =>
    refine ⟨_, rfl, (catchTrap_lower h hs fun s' hs' => ?_).imp_right .inr⟩
    have hdebug := (dret_ok hs').1
    rw [hs.2] at hdebug
    cases hdebug
  | extensionInsn which pc insn =>
    simp only [exec]
    split
    · split
      · rename_i henabled
        obtain ⟨s', hs'⟩ := dirty_total henabled
        rw [hs']
        have hconfined := dirty_confined h hs hs'
        exact ⟨_, rfl, .inl ⟨hconfined.lower, hconfined.view⟩⟩
      · refine ⟨_, rfl, (takeTrap_lower h hs _).imp_right fun ht => .inr ⟨_, ht⟩⟩
    · exact ⟨s, rfl, .inl ⟨hs, rfl⟩⟩
  | insn pc => exact ⟨_, rfl, .inl ⟨hs, rfl⟩⟩
  | exception t => exact ⟨_, rfl, (takeTrap_lower h hs t).imp_right fun ht => .inr ⟨t, ht⟩⟩
  | pending =>
    obtain ⟨r, hr⟩ := takeInterrupt_total h
    simp only [exec, hr]
    cases r with
    | none => exact ⟨s, rfl, .inl ⟨hs, rfl⟩⟩
    | some t => exact ⟨_, rfl, (takeTrap_lower h hs t).imp_right fun ht => .inr ⟨t, ht⟩⟩
  | device mask val => exact ⟨_, rfl, .inl ⟨hs, rfl⟩⟩
  | halt =>
    simp only [exec, hs.2]
    exact ⟨_, rfl, .inr (.inl ⟨rfl, rfl, rfl, rfl, rfl⟩)⟩

def LowerStep (c : PrivConfig) (s s' : State) : Prop := ∃ e, s.exec c e = some s' ∧ s'.Lower

theorem Entered.not_lower {t : Trap} {s' : State} (h : Entered c t s s') : ¬s'.Lower :=
  fun hs => hs.1 h.prv

theorem Halted.not_lower {s' : State} (h : Halted c s s') : ¬s'.Lower := by
  intro hs
  have hdebug := hs.2
  rw [h.debugMode] at hdebug
  cases hdebug

theorem run_lower (h : Inv c s) (hs : s.Lower) {s' : State}
    (hrun : Relation.ReflTransGen (LowerStep c) s s') : Inv c s' ∧ Confined c s s' := by
  induction hrun with
  | refl => exact ⟨h, hs, rfl⟩
  | tail _ hstep ih =>
    obtain ⟨hinv, hconfined⟩ := ih
    obtain ⟨e, he, hlower⟩ := hstep
    refine ⟨hinv.exec he, hlower, ?_⟩
    obtain ⟨s₁, hs₁, hcases⟩ := step_lower hinv hconfined.lower e
    rw [he] at hs₁
    cases hs₁
    rcases hcases with hc | hh | ⟨t, ht⟩
    · exact hc.view.trans hconfined.view
    · exact absurd hlower hh.not_lower
    · exact absurd hlower ht.not_lower

/-- Machine mode keeps control, for every hart and every state it can reach below machine mode:
however long lower modes run, what is the machine's stays as it was; no step aborts, and one that
leaves the lower modes is a halt or a trap to the machine's vector; and as long as an interrupt
that the machine enabled and kept for itself is pending, the next one taken is such a trap. -/
theorem machine_keeps_control (c : PrivConfig) (s s' : State) (hreach : Reachable c s)
    (hs : s.Lower) (hrun : Relation.ReflTransGen (LowerStep c) s s') :
    s'.machineView c = s.machineView c ∧
    (∀ e, ∃ s'', s'.exec c e = some s'' ∧
      (Confined c s' s'' ∨ Halted c s' s'' ∨ ∃ t, Entered c t s' s'')) ∧
    (s.nmie c = true → s'.mip &&& (s.mie &&& ~~~s.midelegRead) ≠ 0 →
      ∃ i s'', (s'.mip &&& (s.mie &&& ~~~s.midelegRead)).getLsbD i = true ∧
        s'.exec c .pending = some s'' ∧ Entered c (interruptTrap i) s' s'') := by
  obtain ⟨hinv, hconfined⟩ := run_lower hreach.inv hs hrun
  refine ⟨hconfined.view, step_lower hinv hconfined.lower, fun hnmie hpending => ?_⟩
  have hmie : s.mie &&& ~~~s.midelegRead = s'.mie &&& ~~~s'.midelegRead :=
    (congrArg MachineView.mie hconfined.view).symm
  have hnmie' : s'.nmie c = true := by
    have hmn : s'.mnstatus = s.mnstatus := congrArg MachineView.mnstatus hconfined.view
    unfold nmie
    rw [hmn]
    exact hnmie
  rw [hmie, ← BitVec.and_assoc] at hpending ⊢
  obtain ⟨i, hi, hexec, hentered⟩ := machine_interrupt hinv hconfined.lower hnmie' hpending
  exact ⟨i, _, hi, hexec, hentered⟩

def twoModes : PrivConfig :=
  ⟨0x140000, true, true, false, false, false, false, 0, 0, true, false, false, 16, 2⟩

/-- Machine mode sets its vector, enables its timer interrupt and returns to supervisor mode. -/
def boot : List Event :=
  [.csr .mtvec true 0x100 0, .csr .mie true 0x80 0, .csr .mstatus true 0x800 0, .mret 0]

def booted : State := (run twoModes (reset twoModes) boot).getD (reset twoModes)

def silenced : State := (booted.exec twoModes (.csr .sie true 0 0)).getD booted

def ticked : State := (silenced.exec twoModes (.device 0x80 0x80)).getD silenced

theorem machine_keeps_control_timer : ∃ i s'', ticked.exec twoModes .pending = some s'' ∧
    Entered twoModes (interruptTrap i) ticked s'' := by
  have hreach : Reachable twoModes booted := ⟨boot, rfl⟩
  have hsilenced : LowerStep twoModes booted silenced := ⟨.csr .sie true 0 0, rfl, by decide, rfl⟩
  have hticked : LowerStep twoModes silenced ticked := ⟨.device 0x80 0x80, rfl, by decide, rfl⟩
  obtain ⟨-, -, hinterrupt⟩ := machine_keeps_control twoModes booted ticked hreach
    ⟨by decide, rfl⟩ (.tail (.single hsilenced) hticked)
  obtain ⟨i, s'', -, hexec, hentered⟩ := hinterrupt rfl (by decide)
  exact ⟨i, s'', hexec, hentered⟩

end PerceptronSoc.Privilege.State
