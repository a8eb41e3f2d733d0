import PerceptronSoc.Spec.Privilege
import PerceptronSoc.Lib.Masked

/-! What holds in every state that a hart can reach, whatever its modes do: the levels it is in
and can return to are ones it has, machine mode is never virtual, and `MPRV` is off below machine
mode. Each register write, trap and return is shown to keep this once. -/

namespace PerceptronSoc.Privilege

open Masked

theorem setField_and_of_disjoint {x m v k : Reg} (h : m &&& k = 0) :
    setField x m v &&& k = x &&& k := and_write_of_disjoint h

theorem getField_congr {x y m : Reg} (h : x &&& m = y &&& m) : getField x m = getField y m := by
  rw [getField, getField, h]

/-- A field is a mask and the position of its lowest bit. -/
theorem getField_eq_shift {x m : Reg} {k : ℕ} (hm : lowBit m = BitVec.twoPow 64 k) (hk : k < 64) :
    getField x m = (x &&& m) >>> k := by
  rw [getField, hm, BitVec.udiv_twoPow_eq_of_lt hk]

theorem setField_eq_shift {x m v : Reg} {k : ℕ} (hm : lowBit m = BitVec.twoPow 64 k) :
    setField x m v = (x &&& ~~~m) ||| ((v <<< k) &&& m) := by
  rw [setField, hm, BitVec.mul_twoPow_eq_shiftLeft]

theorem getField_setField {x m v : Reg} {k : ℕ} (hm : lowBit m = BitVec.twoPow 64 k) (hk : k < 64) :
    getField (setField x m v) m = ((v <<< k) &&& m) >>> k := by
  rw [getField_eq_shift hm hk, setField_eq_shift hm, and_write_of_subset (BitVec.and_self)]

/-- Writing a field back changes nothing. -/
theorem setField_getField {x m : Reg} {k : ℕ} (hm : lowBit m = BitVec.twoPow 64 k) (hk : k < 64)
    (hlow : ∀ i < k, m.getLsbD i = false) : setField x m (getField x m) = x := by
  rw [setField_eq_shift hm, getField_eq_shift hm hk]
  apply BitVec.eq_of_getLsbD_eq
  intro i hi
  simp only [BitVec.getLsbD_or, BitVec.getLsbD_and, BitVec.getLsbD_not, BitVec.getLsbD_shiftLeft,
    BitVec.getLsbD_ushiftRight, hi, decide_true, Bool.true_and]
  by_cases hik : i < k
  · simp [hik, hlow i hik]
  · rw [Nat.add_sub_cancel' (not_lt.mp hik)]
    cases m.getLsbD i <;> simp [hik]

theorem getField_setField_mpp (x : Reg) (p : Priv) :
    getField (setField x mstatusMpp (prvReg p)) mstatusMpp = prvReg p := by
  rw [getField_setField (k := 11) (by decide) (by decide)]
  cases p <;> decide

section Bit

variable {x v m : Reg} {k : ℕ}

theorem lowBit_twoPow (hm : m = BitVec.twoPow 64 k) (hk : k < 64) :
    lowBit m = BitVec.twoPow 64 k := by
  subst hm
  interval_cases k <;> decide

theorem getField_bit (hm : m = BitVec.twoPow 64 k) (hk : k < 64) :
    getField x m = 0 ∨ getField x m = 1 := by
  rw [getField_eq_shift (lowBit_twoPow hm hk) hk, hm, BitVec.and_twoPow]
  split
  · right
    interval_cases k <;> decide
  · left
    simp

theorem getField_setField_bit (hm : m = BitVec.twoPow 64 k) (hk : k < 64) (hv : v = 0 ∨ v = 1) :
    getField (setField x m v) m = v := by
  rw [getField_setField (lowBit_twoPow hm hk) hk, hm]
  rcases hv with rfl | rfl
  · simp
  · interval_cases k <;> decide

end Bit

def Legal (c : PrivConfig) (p : Priv) : Prop := c.legalizePrivilege (prvReg p) = p

theorem legal_legalizePrivilege (c : PrivConfig) (x : Reg) : Legal c (c.legalizePrivilege x) := by
  have hm : Legal c .prvM := by
    unfold Legal PrivConfig.legalizePrivilege
    cases c.hasU <;> simp [prvReg]
  conv => arg 2; unfold PrivConfig.legalizePrivilege
  split_ifs with hU h2 h0 h1
  · exact hm
  · simp_all [Legal, PrivConfig.legalizePrivilege, prvReg]
  · simp_all [Legal, PrivConfig.legalizePrivilege, prvReg]
  · simp_all [Legal, PrivConfig.legalizePrivilege, prvReg]
  · exact hm

theorem legalizePrivilege_three (c : PrivConfig) : c.legalizePrivilege 3 = .prvM := by
  unfold PrivConfig.legalizePrivilege
  cases c.hasU <;> simp

theorem legalizePrivilege_one (c : PrivConfig) (h : c.hasU = true) :
    c.legalizePrivilege 1 ≠ .prvM := by
  unfold PrivConfig.legalizePrivilege
  cases c.hasS <;> simp [h]

/-- Without user mode there is only machine mode. -/
theorem hasU_of_legal {c : PrivConfig} {p : Priv} (h : Legal c p) (hp : p ≠ .prvM) :
    c.hasU = true := by
  by_contra hU
  rw [Legal, PrivConfig.legalizePrivilege, Bool.eq_false_iff.mpr hU] at h
  exact hp h.symm

/-- What a supervisor may write of `mstatus`, at most: `SIE`, `SPIE`, `SPP`, `VS`, `FS`, `XS`,
`SUM` and `MXR`. -/
theorem sstatusWriteMask_subset (c : PrivConfig) :
    c.sstatusWriteMask &&& 0xde722 = c.sstatusWriteMask := by
  unfold PrivConfig.sstatusWriteMask
  dsimp only
  split_ifs <;> decide

/-- The bits of `mstatus` that are not a supervisor's. -/
def machineBits (c : PrivConfig) : Reg := ~~~(c.sstatusWriteMask ||| sdBit)

theorem sdBit_and_machineBits (c : PrivConfig) : sdBit &&& machineBits c = 0 := by
  rw [and_eq_zero_iff]
  intro i hi hk
  simp only [machineBits, BitVec.getLsbD_not, BitVec.getLsbD_or] at hk
  simp only [Bool.and_eq_true, Bool.not_eq_true', Bool.or_eq_false_iff] at hk
  exact hk.2.2

theorem sstatusWriteMask_and_machineBits (c : PrivConfig) :
    c.sstatusWriteMask &&& machineBits c = 0 := by
  rw [and_eq_zero_iff]
  intro i hi hk
  simp only [machineBits, BitVec.getLsbD_not, BitVec.getLsbD_or] at hk
  simp only [Bool.and_eq_true, Bool.not_eq_true', Bool.or_eq_false_iff] at hk
  exact hk.2.1

/-- A field that no supervisor can write is the machine's. -/
theorem subset_machineBits (c : PrivConfig) {k : Reg} (hk : k &&& (0xde722 ||| sdBit) = 0) :
    k &&& machineBits c = k := by
  apply BitVec.eq_of_getLsbD_eq
  intro i hi
  have hswm := congrArg (fun v => v.getLsbD i) (sstatusWriteMask_subset c)
  have hbit := congrArg (fun v => v.getLsbD i) hk
  simp only [BitVec.getLsbD_and, BitVec.getLsbD_or] at hswm hbit
  simp only [machineBits, BitVec.getLsbD_and, BitVec.getLsbD_not, BitVec.getLsbD_or, hi,
    decide_true, Bool.true_and]
  cases hki : k.getLsbD i
  · rfl
  · cases hs : (c.sstatusWriteMask).getLsbD i <;> cases hd : sdBit.getLsbD i <;> simp_all

namespace State

variable {c : PrivConfig} {s : State}

theorem adjustSd_and {x k : Reg} (hk : sdBit &&& k = 0) : adjustSd x &&& k = x &&& k := by
  unfold adjustSd
  split
  · rw [and_eq_and_iff]
    intro i hi hki
    rw [BitVec.getLsbD_or, and_eq_zero_iff.mp hk i hi hki, Bool.or_false]
  · rw [and_eq_and_iff]
    intro i hi hki
    rw [BitVec.getLsbD_and, BitVec.getLsbD_not, and_eq_zero_iff.mp hk i hi hki]
    simp [hi]

theorem mpp_subset_mstatusWriteMask (c : PrivConfig) (s : State) :
    mstatusMpp &&& s.mstatusWriteMask c = mstatusMpp := by
  unfold mstatusWriteMask
  refine subset_or_left (subset_or_left (subset_or_left (subset_or_left ?_)))
  rw [BitVec.or_comm]
  exact subset_or_left (BitVec.and_self)

theorem writeMstatus_and {val k : Reg} (hk : sdBit &&& k = 0) :
    (s.writeMstatus c val).mstatus &&& k =
      writeMasked s.mstatus (s.mstatusWriteMask c)
        (setField val mstatusMpp (prvReg (c.legalizePrivilege (getField val mstatusMpp)))) &&& k :=
  adjustSd_and hk

theorem getField_mpp_writeMstatus (val : Reg) :
    getField (s.writeMstatus c val).mstatus mstatusMpp =
      prvReg (c.legalizePrivilege (getField val mstatusMpp)) := by
  rw [← getField_setField_mpp val]
  apply getField_congr
  rw [writeMstatus_and (by decide)]
  exact and_write_of_subset (mpp_subset_mstatusWriteMask c s)

/-- Bits that can be written, other than `MPP`, are taken as they are. -/
theorem writeMstatus_and_of_subset {val k : Reg} (hk : sdBit &&& k = 0) (hmpp : mstatusMpp &&& k = 0)
    (hm : k &&& s.mstatusWriteMask c = k) : (s.writeMstatus c val).mstatus &&& k = val &&& k := by
  rw [writeMstatus_and hk, writeMasked, and_write_of_subset hm, setField_and_of_disjoint hmpp]

def MppLegal (c : PrivConfig) (s : State) : Prop :=
  ∃ p, Legal c p ∧ getField s.mstatus mstatusMpp = prvReg p

/-- Writing bits as they are, `MPP` among them, keeps them. -/
theorem writeMstatus_and_of_agree {val k : Reg} (h : MppLegal c s) (hk : sdBit &&& k = 0)
    (hm : mstatusMpp &&& k = mstatusMpp) (hval : val &&& k = s.mstatus &&& k) :
    (s.writeMstatus c val).mstatus &&& k = s.mstatus &&& k := by
  obtain ⟨p, hp, hmpp⟩ := h
  have hfield : getField val mstatusMpp = prvReg p := by
    rw [← hmpp]
    exact getField_congr (and_eq_mono hval hm)
  have hadjusted : setField val mstatusMpp
      (prvReg (c.legalizePrivilege (getField val mstatusMpp))) = val := by
    rw [hfield, hp, ← hfield]
    exact setField_getField (k := 11) (by decide) (by decide) (by decide)
  rw [writeMstatus_and hk, hadjusted]
  exact and_write_of_agree hval

theorem writeMstatus_machineBits {val : Reg} (h : MppLegal c s)
    (hval : val &&& machineBits c = s.mstatus &&& machineBits c) :
    (s.writeMstatus c val).mstatus &&& machineBits c = s.mstatus &&& machineBits c :=
  writeMstatus_and_of_agree h (sdBit_and_machineBits c) (subset_machineBits c (by decide)) hval

/-- The invariant of every run: levels are ones that the hart has, machine mode is not virtual,
`MPRV` is off below machine mode, and no user-level interrupt is enabled or delegated. -/
structure Inv (c : PrivConfig) (s : State) : Prop where
  mpp : MppLegal c s
  prv : Legal c s.prv
  virt : s.prv = .prvM → s.v = false
  mprv : s.prv ≠ .prvM → s.mstatus &&& mstatusMprv = 0
  mideleg : s.mideleg &&& 0x111 = 0
  mie : s.mie &&& 0x111 = 0

theorem writeSstatus_prv (val : Reg) : (s.writeSstatus c val).prv = s.prv := by
  unfold writeSstatus
  split <;> rfl

namespace Inv

theorem same {s' : State} (h : Inv c s) (hmstatus : s'.mstatus = s.mstatus) (hprv : s'.prv = s.prv)
    (hv : s'.v = s.v) (hmideleg : s'.mideleg = s.mideleg) (hmie : s'.mie = s.mie) : Inv c s' := by
  refine ⟨?_, ?_, ?_, ?_, ?_, ?_⟩
  · rw [MppLegal, hmstatus]
    exact h.mpp
  · rw [hprv]
    exact h.prv
  · rw [hprv, hv]
    exact h.virt
  · rw [hprv, hmstatus]
    exact h.mprv
  · rw [hmideleg]
    exact h.mideleg
  · rw [hmie]
    exact h.mie

theorem hasU (h : Inv c s) (hprv : s.prv ≠ .prvM) : c.hasU = true := hasU_of_legal h.prv hprv

theorem mprv_subset (hU : c.hasU = true) :
    mstatusMprv &&& s.mstatusWriteMask c = mstatusMprv := by
  unfold mstatusWriteMask
  refine subset_or_left (subset_or_left (subset_or_left (subset_or_left (subset_or_left ?_))))
  rw [hU, if_pos rfl, BitVec.or_comm]
  exact subset_or_left (BitVec.and_self)

theorem writeMstatus {val : Reg} (h : Inv c s)
    (hval : s.prv ≠ .prvM → val &&& mstatusMprv = 0) : Inv c (s.writeMstatus c val) := by
  refine ⟨?_, h.prv, h.virt, ?_, h.mideleg, h.mie⟩
  · exact ⟨_, legal_legalizePrivilege c _, getField_mpp_writeMstatus val⟩
  · intro hprv
    rw [writeMstatus_and_of_subset (by decide) (by decide) (mprv_subset (h.hasU hprv))]
    exact hval hprv

theorem writeNonvirtualSstatus (h : Inv c s) (val : Reg) :
    Inv c (s.writeNonvirtualSstatus c val) := by
  refine h.writeMstatus fun hprv => ?_
  rw [writeMasked, and_write_of_disjoint]
  · exact h.mprv hprv
  · exact and_eq_zero_mono (sstatusWriteMask_and_machineBits c) (subset_machineBits c (by decide))

theorem writeSstatus (h : Inv c s) (val : Reg) : Inv c (s.writeSstatus c val) := by
  unfold State.writeSstatus
  split
  · exact h.same rfl rfl rfl rfl rfl
  · exact h.writeNonvirtualSstatus val

theorem setPrivilege {prv : Reg} {virt : Bool} (h : Inv c s)
    (hmprv : c.legalizePrivilege prv ≠ .prvM → s.mstatus &&& mstatusMprv = 0) :
    Inv c (s.setPrivilege c prv virt) := by
  refine ⟨h.mpp, legal_legalizePrivilege c prv, ?_, hmprv, h.mideleg, h.mie⟩
  intro hM
  have hM' : c.legalizePrivilege prv = .prvM := hM
  simp [State.setPrivilege, hM']

theorem writeMie {mask val : Reg} (h : Inv c s) (hmask : mask &&& 0x111 = 0) :
    Inv c (s.writeMie mask val) := by
  refine ⟨h.mpp, h.prv, h.virt, h.mprv, h.mideleg, ?_⟩
  exact (and_write_of_disjoint hmask).trans h.mie

theorem midelegRead (h : Inv c s) : s.midelegRead &&& 0x111 = 0 := by
  unfold State.midelegRead
  split
  · rw [BitVec.and_or_distrib_right, h.mideleg]
    decide
  · exact h.mideleg

theorem ieWrite (h : Inv c s) {a : IntAccessor} (ha : a.ieWriteMask &&& 0x111 = 0 ∨
    a.maskMode = .mideleg) (val : Reg) : Inv c (s.ieWrite a val) := by
  refine h.writeMie ?_
  rcases ha with ha | ha
  · rw [BitVec.and_assoc, ha]
    exact BitVec.and_zero
  · rw [ha, BitVec.and_assoc, BitVec.and_comm a.ieWriteMask, ← BitVec.and_assoc]
    simp only [delegMask]
    rw [h.midelegRead]
    exact BitVec.zero_and

/-- To a level below machine mode from a state where `MPRV` is off. -/
theorem lower {prv : Reg} {virt : Bool} (h : Inv c s) (hprv : s.prv ≠ .prvM) :
    Inv c (s.setPrivilege c prv virt) := h.setPrivilege fun _ => h.mprv hprv

theorem toMachine (h : Inv c s) : Inv c (s.setPrivilege c 3 false) :=
  h.setPrivilege fun hM => absurd (legalizePrivilege_three c) hM

theorem trapToVs (h : Inv c s) (hprv : s.prv ≠ .prvM) (t : Trap) (epc : Reg) :
    Inv c (s.trapToVs c t epc) := by
  have hrecord : Inv c (s.recordVs t epc) := h.same rfl rfl rfl rfl rfl
  refine (hrecord.writeSstatus _).lower ?_
  rw [writeSstatus_prv]
  exact hprv

theorem trapToHs (h : Inv c s) (hprv : s.prv ≠ .prvM) (t : Trap) (epc : Reg) :
    Inv c (s.trapToHs c t epc) := by
  have hrecord : Inv c (s.recordHs t epc) := h.same rfl rfl rfl rfl rfl
  have hstatus := hrecord.writeNonvirtualSstatus (pushSstatus (s.nonvirtualSstatus c) s.prv)
  unfold State.trapToHs
  dsimp only
  split
  · refine lower ?_ hprv
    exact hstatus.same rfl rfl rfl rfl rfl
  · exact hstatus.lower hprv

theorem mstatusOf_mprv (s : State) (t : Trap) :
    s.mstatusOf t &&& mstatusMprv = s.mstatus &&& mstatusMprv := by
  unfold mstatusOf
  rw [setField_and_of_disjoint (by decide), setField_and_of_disjoint (by decide),
    setField_and_of_disjoint (by decide), setField_and_of_disjoint (by decide),
    setField_and_of_disjoint (by decide)]

theorem trapToM (h : Inv c s) (t : Trap) (epc : Reg) : Inv c (s.trapToM c t epc) := by
  have hrecord : Inv c (s.recordM c t epc) := h.same rfl rfl rfl rfl rfl
  refine toMachine (hrecord.writeMstatus fun hprv => ?_)
  rw [mstatusOf_mprv]
  exact h.mprv hprv

theorem takeTrap (h : Inv c s) (t : Trap) (epc : Reg) : Inv c (s.takeTrap c t epc) := by
  unfold State.takeTrap
  split
  · exact h.same rfl rfl rfl rfl rfl
  split
  · rename_i hvs
    simp only [vsDelegated, Bool.and_eq_true, bne_iff_ne] at hvs
    exact h.trapToVs hvs.1.2 t epc
  split
  · rename_i hhs
    simp only [hsDelegated, Bool.and_eq_true, bne_iff_ne] at hhs
    exact h.trapToHs hhs.1 t epc
  · exact h.trapToM t epc

theorem catchTrap (h : Inv c s) {r : Except Trap State} (hr : ∀ s', r = .ok s' → Inv c s') :
    Inv c (s.catchTrap c r) := by
  cases r with
  | error t => exact h.takeTrap t s.pc
  | ok s' => exact hr s' rfl

theorem mieWriteMask_and (c : PrivConfig) (s : State) : s.mieWriteMask c &&& 0x111 = 0 := by
  unfold State.mieWriteMask PrivConfig.delegableInts
  split_ifs <;> decide

theorem delegableInts_and (c : PrivConfig) : c.delegableInts &&& 0x111 = 0 := by
  unfold PrivConfig.delegableInts
  split_ifs <;> decide

theorem writeMnstatus (h : Inv c s) (val : Reg) : Inv c (s.writeMnstatus c val) :=
  h.same rfl rfl rfl rfl rfl

theorem dropHypervisor (h : Inv c s) : Inv c (s.dropHypervisor c) := by
  have hdeleg : Inv c (s.writeMedeleg (s.medeleg &&& ~~~hypervisorExceptions)) :=
    h.same rfl rfl rfl rfl rfl
  unfold State.dropHypervisor
  dsimp only
  set x := s.writeMedeleg (s.medeleg &&& ~~~hypervisorExceptions)
  have hmn : Inv c (if c.smrnmi then x.writeMnstatus c (x.mnstatus &&& ~~~mnstatusMnpv) else x) := by
    split
    · exact hdeleg.writeMnstatus _
    · exact hdeleg
  set y := if c.smrnmi then x.writeMnstatus c (x.mnstatus &&& ~~~mnstatusMnpv) else x
  have hstatus : Inv c (y.writeMstatus c (y.mstatus &&& ~~~(mstatusGva ||| mstatusMpv))) := by
    refine hmn.writeMstatus fun hprv => ?_
    rw [BitVec.and_assoc, BitVec.and_comm (~~~_), ← BitVec.and_assoc, hmn.mprv hprv]
    exact BitVec.zero_and
  have hmie : Inv c ((y.writeMstatus c (y.mstatus &&& ~~~(mstatusGva ||| mstatusMpv))).writeMie
    mipHsMask 0) := hstatus.writeMie (by decide)
  exact hmie.same rfl rfl rfl rfl rfl

theorem writeMisa (h : Inv c s) (val : Reg) : Inv c (s.writeMisa c val) := by
  unfold State.writeMisa
  split
  · exact h
  dsimp only
  split
  · exact h.dropHypervisor.same rfl rfl rfl rfl rfl
  · exact h.same rfl rfl rfl rfl rfl

theorem csrLevel_lt (hprv : s.prv ≠ .prvM) : s.csrLevel < 3 := by
  unfold csrLevel
  cases h : s.prv
  · simp
  · dsimp only
    split <;> simp
  · exact absurd h hprv

theorem writeCsr (h : Inv c s) {csr : Csr} (hcsr : csr.csrPriv ≤ s.csrLevel) (val : Reg) :
    Inv c (s.writeCsr c csr val) := by
  have hsame : ∀ s' : State, s'.mstatus = s.mstatus → s'.prv = s.prv → s'.v = s.v →
      s'.mideleg = s.mideleg → s'.mie = s.mie → Inv c s' := fun s' => h.same
  cases csr with
  | mstatus =>
    refine h.writeMstatus fun hprv => ?_
    have hlt := csrLevel_lt hprv
    have hthree : Csr.csrPriv .mstatus = 3 := by decide
    omega
  | sstatus => exact h.writeSstatus val
  | mie => exact h.writeMie (mieWriteMask_and c s)
  | sie =>
    unfold State.writeCsr
    dsimp only
    split
    · exact h.ieWrite (.inl (by decide)) val
    · exact h.ieWrite (.inr rfl) val
  | hie => exact h.ieWrite (.inr rfl) val
  | vsie => exact h.ieWrite (.inl (by decide)) val
  | sip =>
    unfold State.writeCsr
    dsimp only
    split <;> exact hsame _ rfl rfl rfl rfl rfl
  | mideleg =>
    refine ⟨h.mpp, h.prv, h.virt, h.mprv, ?_, h.mie⟩
    unfold State.writeCsr
    dsimp only
    rw [BitVec.and_assoc, delegableInts_and]
    exact BitVec.and_zero
  | misa => exact h.writeMisa val
  | stvec =>
    unfold State.writeCsr
    dsimp only
    split <;> exact hsame _ rfl rfl rfl rfl rfl
  | sepc =>
    unfold State.writeCsr
    dsimp only
    split <;> exact hsame _ rfl rfl rfl rfl rfl
  | scause =>
    unfold State.writeCsr
    dsimp only
    split <;> exact hsame _ rfl rfl rfl rfl rfl
  | stval =>
    unfold State.writeCsr
    dsimp only
    split <;> exact hsame _ rfl rfl rfl rfl rfl
  | _ => exact hsame _ rfl rfl rfl rfl rfl

end Inv

theorem verifyPermissions_ok {csr : Csr} {write : Bool} {insn : Reg}
    (h : s.verifyPermissions c csr write insn = .ok ()) : csr.csrPriv ≤ s.csrLevel := by
  by_contra hlt
  rw [not_le] at hlt
  unfold verifyPermissions at h
  simp only [hlt, if_true] at h
  split_ifs at h <;> cases h

theorem csrInsn_ok {csr : Csr} {write : Bool} {val insn : Reg} {s' : State}
    (h : s.csrInsn c csr write val insn = .ok s') : csr.csrPriv ≤ s.csrLevel ∧
      s' = (if write then s.writeCsr c csr val else s).setPcAndSerialize (s.pc + 4) := by
  unfold csrInsn at h
  cases hexists : csr.inCsrmap c
  · simp [hexists] at h
    cases h
  · rcases hverify : s.verifyPermissions c csr write insn with t | ⟨⟩
    · simp [hexists, hverify] at h
    · refine ⟨verifyPermissions_ok hverify, ?_⟩
      cases write <;> simp [hexists, hverify] at h <;> cases h <;> rfl

/-- `SPP` is one bit: no supervisor returns to machine mode. -/
theorem legalizePrivilege_spp (hU : c.hasU = true) (x : Reg) :
    c.legalizePrivilege (getField x mstatusSpp) ≠ .prvM := by
  rcases getField_bit (x := x) (m := mstatusSpp) (k := 8) (by decide) (by decide) with h | h
  · rw [h, PrivConfig.legalizePrivilege]
    simp [hU]
  · rw [h]
    exact legalizePrivilege_one c hU

theorem clearMprv_mprv (hU : c.hasU = true) : (s.clearMprv c).mstatus &&& mstatusMprv = 0 := by
  unfold clearMprv
  rw [writeMstatus_and_of_subset (by decide) (by decide) (Inv.mprv_subset hU), setField,
    and_write_of_subset (BitVec.and_self)]
  simp

theorem mret_ok {insn : Reg} {s' : State} (h : s.mret c insn = .ok s') :
    s.prv = .prvM ∧ s' = s.returnM c := by
  unfold mret at h
  split at h
  · cases h
  · rename_i hprv
    cases h
    exact ⟨not_not.mp hprv, rfl⟩

theorem sret_ok {insn : Reg} {s' : State} (h : s.sret c insn = .ok s') : s' = s.returnS c := by
  unfold sret at h
  rcases hr : s.requireSret c insn with t | ⟨⟩
  · rw [hr] at h
    cases h
  · rw [hr] at h
    cases h
    rfl

theorem mnret_ok {insn : Reg} {s' : State} (h : s.mnret c insn = .ok s') :
    s.prv = .prvM ∧ s' = s.returnMn c := by
  unfold mnret at h
  split at h
  · cases h
  · rename_i hprv
    cases h
    exact ⟨not_not.mp (not_or.mp hprv).2, rfl⟩

theorem dret_ok {insn : Reg} {s' : State} (h : s.dret c insn = .ok s') :
    s.debugMode = true ∧ s' = s.returnDebug c := by
  unfold dret at h
  split at h
  · cases h
  · rename_i hdebug
    cases h
    exact ⟨by simpa using hdebug, rfl⟩

namespace Inv

theorem popMstatus_mprv {x : Reg} (h : getField x mstatusMpp ≠ 3) :
    popMstatus c x &&& mstatusMprv = 0 := by
  unfold popMstatus
  rw [setField_and_of_disjoint (by decide), setField_and_of_disjoint (by decide),
    setField_and_of_disjoint (by decide), setField_and_of_disjoint (by decide), if_pos h, setField,
    and_write_of_subset (BitVec.and_self)]
  simp

theorem returnM (h : Inv c s) (hprv : s.prv = .prvM) : Inv c (s.returnM c) := by
  have hpc : Inv c (s.setPcAndSerialize (s.mepc &&& s.pcAlignmentMask)) :=
    h.same rfl rfl rfl rfl rfl
  refine (hpc.writeMstatus fun hne => absurd hprv hne).setPrivilege fun hM => ?_
  have hU := hasU_of_legal (legal_legalizePrivilege c _) hM
  rw [writeMstatus_and_of_subset (by decide) (by decide) (mprv_subset hU)]
  apply popMstatus_mprv
  intro hthree
  rw [hthree] at hM
  exact hM (legalizePrivilege_three c)

theorem clearMprv (h : Inv c s) : Inv c (s.clearMprv c) := by
  refine h.writeMstatus fun _ => ?_
  rw [setField, and_write_of_subset (BitVec.and_self)]
  simp

/-- To any level once `MPRV` is off. -/
theorem cleared {prv : Reg} {virt : Bool} (h : Inv c s) :
    Inv c ((s.clearMprv c).setPrivilege c prv virt) :=
  h.clearMprv.setPrivilege fun hM =>
    clearMprv_mprv (hasU_of_legal (legal_legalizePrivilege c _) hM)

theorem returnS (h : Inv c s) : Inv c (s.returnS c) := by
  have hpc : Inv c (s.setPcAndSerialize s.sepcRead) := h.same rfl rfl rfl rfl rfl
  have hstatus := hpc.writeSstatus (popSstatus (s.sstatus c))
  unfold State.returnS
  dsimp only
  split
  · rename_i hv
    refine hstatus.lower ?_
    rw [writeSstatus_prv]
    intro hM
    have hv' := h.virt hM
    rw [hv] at hv'
    cases hv'
  split
  · refine cleared ?_
    exact hstatus.same rfl rfl rfl rfl rfl
  · exact hstatus.cleared

theorem returnMn (h : Inv c s) : Inv c (s.returnMn c) := by
  have hpc : Inv c (s.setPcAndSerialize (s.mnepc &&& s.pcAlignmentMask)) :=
    h.same rfl rfl rfl rfl rfl
  unfold State.returnMn
  dsimp only
  split
  · refine (hpc.clearMprv.writeMnstatus _).setPrivilege fun hM => ?_
    exact clearMprv_mprv (hasU_of_legal (legal_legalizePrivilege c _) hM)
  · rename_i hthree
    refine (hpc.writeMnstatus _).setPrivilege fun hM => ?_
    rw [not_not.mp hthree] at hM
    exact absurd (legalizePrivilege_three c) hM

theorem returnDebug (h : Inv c s) : Inv c (s.returnDebug c) := by
  unfold State.returnDebug
  dsimp only
  split
  · rename_i hM
    refine ⟨?_, legal_legalizePrivilege c _, ?_, ?_, h.mideleg, h.mie⟩
    · exact ⟨_, legal_legalizePrivilege c _, getField_mpp_writeMstatus _⟩
    · intro hM'
      exact absurd hM' hM
    · intro _
      have hU := hasU_of_legal (legal_legalizePrivilege c _) hM
      rw [writeMstatus_and_of_subset (by decide) (by decide) (mprv_subset hU)]
      rw [BitVec.and_assoc]
      simp
  · rename_i hM
    refine same (s := (s.setPcAndSerialize (s.dpc &&& s.pcAlignmentMask)).setPrivilege c s.dcsrPrv
      s.dcsrV) ?_ rfl rfl rfl rfl rfl
    refine setPrivilege (h.same rfl rfl rfl rfl rfl) fun hne => ?_
    exact absurd hne hM

end Inv

namespace Inv

theorem dirty (h : Inv c s) {dirties : Reg} {s' : State} (hs : s.dirty c dirties = some s') :
    Inv c s' := by
  unfold State.dirty at hs
  split at hs
  · cases hs
    exact h
  split at hs
  · cases hs
  · cases hs
    have hstatus := h.writeNonvirtualSstatus (s.nonvirtualSstatus c ||| dirties)
    split
    · exact hstatus.same rfl rfl rfl rfl rfl
    · exact hstatus

theorem enterDebugMode (h : Inv c s) : Inv c (s.enterDebugMode c) := by
  have hdcsr : Inv c { s with debugMode := true, dcsrPrv := prvReg s.prv, dcsrV := s.v } :=
    h.same rfl rfl rfl rfl rfl
  exact hdcsr.toMachine.same rfl rfl rfl rfl rfl

theorem exec (h : Inv c s) {e : Event} {s' : State} (hs : s.exec c e = some s') : Inv c s' := by
  cases e with
  | csr csr write val insn =>
    cases hs
    refine h.catchTrap fun s' hs' => ?_
    obtain ⟨hcsr, rfl⟩ := csrInsn_ok hs'
    cases write
    · exact h.same rfl rfl rfl rfl rfl
    · exact (h.writeCsr hcsr val).same rfl rfl rfl rfl rfl
  | mret insn =>
    cases hs
    refine h.catchTrap fun s' hs' => ?_
    obtain ⟨hprv, rfl⟩ := mret_ok hs'
    exact h.returnM hprv
  | sret insn =>
    cases hs
    refine h.catchTrap fun s' hs' => ?_
    rw [sret_ok hs']
    exact h.returnS
  | mnret insn =>
    cases hs
    refine h.catchTrap fun s' hs' => ?_
    rw [(mnret_ok hs').2]
    exact h.returnMn
  | dret insn =>
    cases hs
    refine h.catchTrap fun s' hs' => ?_
    rw [(dret_ok hs').2]
    exact h.returnDebug
  | extensionInsn which pc insn =>
    simp only [State.exec] at hs
    split at hs
    · split at hs
      · rw [Option.map_eq_some_iff] at hs
        obtain ⟨s₁, hs₁, rfl⟩ := hs
        exact (h.dirty hs₁).same rfl rfl rfl rfl rfl
      · cases hs
        exact h.takeTrap _ _
    · cases hs
      exact h
  | insn pc =>
    cases hs
    exact h.same rfl rfl rfl rfl rfl
  | exception t =>
    cases hs
    exact h.takeTrap t s.pc
  | pending =>
    simp only [State.exec, Option.map_eq_some_iff] at hs
    obtain ⟨_ | t, -, rfl⟩ := hs
    · exact h
    · exact h.takeTrap t s.pc
  | device mask val =>
    cases hs
    exact h.same rfl rfl rfl rfl rfl
  | halt =>
    simp only [State.exec] at hs
    split at hs
    · cases hs
      exact h
    · cases hs
      exact h.enterDebugMode

theorem reset (c : PrivConfig) : Inv c (State.reset c) := by
  refine ⟨⟨if c.hasU then .prvU else .prvM, ?_, ?_⟩, ?_, fun _ => rfl, fun hM => absurd rfl hM, ?_, ?_⟩
  · unfold Legal PrivConfig.legalizePrivilege
    cases c.hasU <;> simp [prvReg]
  · unfold State.reset mstatusInitial
    dsimp only
    cases c.hasU <;> cases c.hasS <;> decide
  · exact legalizePrivilege_three c
  · exact BitVec.zero_and
  · exact BitVec.zero_and

theorem run : ∀ (es : List Event) {s s' : State}, Inv c s → State.run c s es = some s' → Inv c s' := by
  intro es
  induction es with
  | nil =>
    intro s s' h hs
    cases hs
    exact h
  | cons e es ih =>
    intro s s' h hs
    simp only [State.run, List.foldlM_cons, Option.bind_eq_bind, Option.bind_eq_some_iff] at hs
    obtain ⟨s₁, hs₁, hrun⟩ := hs
    exact ih (h.exec hs₁) hrun

end Inv

def Reachable (c : PrivConfig) (s : State) : Prop := ∃ es, State.run c (State.reset c) es = some s

theorem Reachable.inv (h : Reachable c s) : Inv c s := by
  obtain ⟨es, hes⟩ := h
  exact (Inv.reset c).run es hes

end State

end PerceptronSoc.Privilege
