import PerceptronSoc.Proofs.HartRun

/-! Which conditional branches the statistics see. Every branch body notes its outcome
before `set_pc` checks the target, so a taken branch to a misaligned target is noted
and then trapped. This is the only way the noted and the retired branches differ. -/

namespace PerceptronSoc

theorem even_iff (x : UInt64) : x &&& 1 = 0 ↔ x.toNat % 2 = 0 := by
  rw [← UInt64.toNat_inj]
  simp [Nat.and_one_is_mod]

theorem even_add {x y : UInt64} (hx : x &&& 1 = 0) (hy : y &&& 1 = 0) : (x + y) &&& 1 = 0 := by
  rw [even_iff] at hx hy ⊢
  rw [UInt64.toNat_add]
  omega

theorem even_shiftLeft (x k : UInt64) (hk : k.toNat % 64 ≠ 0) : (x <<< k) &&& 1 = 0 := by
  rw [even_iff, UInt64.toNat_shiftLeft, Nat.shiftLeft_eq]
  obtain ⟨m, hm⟩ := Nat.exists_eq_succ_of_ne_zero hk
  rw [hm, Nat.succ_eq_add_one, pow_succ, ← mul_assoc]
  omega

theorem sbImm_even (insn : UInt64) : Insn.sbImm insn &&& 1 = 0 := by
  unfold Insn.sbImm
  repeat apply even_add
  all_goals exact even_shiftLeft _ _ (by decide)

theorem rvcBImm_even (insn : UInt64) : Insn.rvcBImm insn &&& 1 = 0 := by
  unfold Insn.rvcBImm
  repeat apply even_add
  all_goals exact even_shiftLeft _ _ (by decide)

theorem Arch.sextXlen_even (a : Arch) {x : UInt64} (hx : x &&& 1 = 0) :
    a.sextXlen x &&& 1 = 0 := by
  unfold sextXlen
  split
  · exact hx
  · rw [even_iff] at hx ⊢
    simp only [UInt64.toNat_ofBitVec, BitVec.toNat_signExtend, BitVec.toNat_setWidth,
      UInt64.toNat_toBitVec]
    split <;> omega

theorem BranchOp.compare_even {op : BranchOp} {a : Arch} {insn : UInt64} {c : Comparison}
    (hc : op.compare a insn = .ok c) :
    c.target &&& 1 = 0 ∧ (a.pc + c.length) &&& 1 = 0 := by
  have hregs : ∀ cond, compareRegs cond a insn = .ok c →
      c.target &&& 1 = 0 ∧ (a.pc + c.length) &&& 1 = 0 := by
    intro cond h
    unfold compareRegs at h
    cases hx : a.readReg insn (Insn.rs1 insn) with
    | error t => rw [hx] at h; cases h
    | ok x =>
      cases hy : a.readReg insn (Insn.rs2 insn) with
      | error t => rw [hx, hy] at h; cases h
      | ok y =>
        rw [hx, hy] at h
        cases h
        exact ⟨even_add a.pcEven (sbImm_even insn), even_add a.pcEven (y := 4) (by decide)⟩
  have hzero : ∀ cond, compareZero cond a insn = .ok c →
      c.target &&& 1 = 0 ∧ (a.pc + c.length) &&& 1 = 0 := by
    intro cond h
    unfold compareZero at h
    cases hz : a.requireZca insn with
    | error t => rw [hz] at h; cases h
    | ok u =>
      cases hx : a.readReg insn (Insn.rvcRs1s insn) with
      | error t => rw [hz, hx] at h; cases h
      | ok x =>
        rw [hz, hx] at h
        cases h
        exact ⟨even_add a.pcEven (rvcBImm_even insn), even_add a.pcEven (y := 2) (by decide)⟩
  cases op with
  | cBeqz => exact hzero _ hc
  | cBnez => exact hzero _ hc
  | _ => exact hregs _ hc

/-- A taken branch to a target that is two modulo four, where instructions have to be
four-byte aligned. -/
def Arch.takenMisaligned (a : Arch) : Action → Bool
  | .modelled (.branch op) insn _ =>
    match op.compare a insn with
    | .ok c => c.taken && !a.zca && (c.target &&& 2 != 0)
    | .error _ => false
  | _ => false

theorem Arch.setPc_eq (a : Arch) (x : UInt64) :
    a.setPc x = if !a.zca && (x &&& 2 != 0) then
      .error (.trap (.instructionAddressMisaligned a.v x)) else .ok (a.sextXlen x) := by
  unfold setPc checkPcAlignment pcAlignmentMask
  cases hz : a.zca with
  | true => simp
  | false => by_cases hx : x &&& 2 = 0 <;> simp [hx]

theorem branchTail_eq {a : Arch} {op : BranchOp} {insn : UInt64} {c : Comparison} (p : Processor)
    (hc : op.compare a insn = .ok c) :
    (c.taken && !a.zca && (c.target &&& 2 != 0)) = true ∧ (∃ t, (branchTail a c p).1 =
      .error (.trap t)) ∨
    (c.taken && !a.zca && (c.target &&& 2 != 0)) = false ∧ ∃ npc, (branchTail a c p).1 = .ok npc ∧
      npc &&& 1 = 0 := by
  obtain ⟨ht, hl⟩ := BranchOp.compare_even hc
  unfold branchTail
  cases hk : c.taken with
  | false => exact .inr ⟨by simp, _, rfl, a.sextXlen_even hl⟩
  | true =>
    simp only [Bool.true_and, if_true, Arch.setPc_eq]
    split
    · next hm => exact .inl ⟨hm, _, rfl⟩
    · next hm => exact .inr ⟨by simpa using hm, _, rfl, a.sextXlen_even ht⟩

namespace Hart

/-- An executed branch retires unless it is taken to a misaligned target. -/
theorem branch_outcome (h : Hart) {x : Pass} {pc : UInt64} {taken : Bool}
    (hev : statEvent h.arch x.action = some (.branch pc taken)) :
    ∃ o a p, h.perform x = some (o, a, p) ∧ o.retires = !h.arch.takenMisaligned x.action := by
  obtain ⟨action, counting⟩ := x
  cases action with
  | other o after => cases hev
  | writeMinstret value after => cases hev
  | modelled op insn handler =>
    cases op with
    | ebreak => cases hev
    | cEbreak =>
      simp only [statEvent] at hev
      split at hev <;> cases hev
    | branch op =>
      simp only [statEvent] at hev
      cases hc : op.compare h.arch insn with
      | error t => rw [hc] at hev; cases hev
      | ok c =>
        simp only [perform, Opcode.exec, BranchOp.exec, Arch.takenMisaligned, hc]
        rcases branchTail_eq h.proc hc with ⟨hm, t, ht⟩ | ⟨hm, npc, hn, he⟩
        · rw [show branchTail h.arch c h.proc = (.error (.trap t), (branchTail h.arch c h.proc).2)
            from Prod.ext ht rfl, hm]
          exact ⟨_, _, _, rfl, rfl⟩
        · rw [show branchTail h.arch c h.proc = (.ok npc, (branchTail h.arch c h.proc).2)
            from Prod.ext hn rfl, hm]
          simp only [advancePc, he, dif_pos]
          exact ⟨_, _, _, rfl, rfl⟩

theorem event_of_takenMisaligned {a : Arch} {x : Action} (hm : a.takenMisaligned x = true) :
    ∃ taken, statEvent a x = some (.branch a.pc taken) := by
  cases x with
  | other o after => cases hm
  | writeMinstret value after => cases hm
  | modelled op insn handler =>
    cases op with
    | ebreak => cases hm
    | cEbreak => cases hm
    | branch op =>
      simp only [Arch.takenMisaligned] at hm
      simp only [statEvent]
      cases hc : op.compare a insn with
      | error t => rw [hc] at hm; cases hm
      | ok c => exact ⟨c.taken, rfl⟩

end Hart

/-- Everything of the statistics but the instruction counts. -/
def Processor.branchStats (p : Processor) :
    Bool × Bool × BranchPredictorKind × Perceptron × Tage × ℕ × ℕ :=
  (p.perceptronStatsEnabled, p.roiActive, p.branchPredictorKind, p.perceptronPredictor,
    p.tagePredictor, p.perceptronBranchCount, p.perceptronMispredictions)

/-- The call a retired instruction should make: a branch that did not retire makes
none. -/
def Hart.Entry.retiredEvent (e : Hart.Entry) : Option Processor.Event :=
  match e.event with
  | some (.branch pc taken) => if e.retires then some (.branch pc taken) else none
  | event => event

namespace Processor

theorem exec_branchStats {p q : Processor} (h : p.branchStats = q.branchStats) (e : Event) :
    (p.exec e).branchStats = (q.exec e).branchStats := by
  obtain ⟨stats, active, kind, perceptron, tage, branches, misses, roi, start, minstret⟩ := p
  obtain ⟨stats', active', kind', perceptron', tage', branches', misses', roi', start', minstret'⟩ := q
  simp only [branchStats, Prod.mk.injEq] at h
  obtain ⟨rfl, rfl, rfl, rfl, rfl, rfl, rfl⟩ := h
  cases e with
  | branch pc taken =>
    cases hq : stats && active with
    | false =>
      simp only [exec]
      rw [noteConditionalBranch_of_inactive (by exact hq),
        noteConditionalBranch_of_inactive (by exact hq)]
      rfl
    | true =>
      obtain ⟨hs, ha⟩ := Bool.and_eq_true_iff.mp hq
      simp only [exec]
      rw [noteConditionalBranch_eq (by exact hs) (by exact ha) (pc, taken),
        noteConditionalBranch_eq (by exact hs) (by exact ha) (pc, taken), mispredicts_eq,
        mispredicts_eq]
      rfl
  | ebreak a0 =>
    simp only [exec, handleRoiEbreak]
    split
    · rfl
    split
    · rfl
    split <;> rfl

theorem execOption_branchStats {p q : Processor} (h : p.branchStats = q.branchStats)
    (e : Option Event) : (p.execOption e).branchStats = (q.execOption e).branchStats := by
  cases e with
  | none => exact h
  | some e => exact exec_branchStats h e

theorem run_filterMap_snoc {α : Type*} (p : Processor) (f : α → Option Event) (l : List α)
    (x : α) : p.run ((l ++ [x]).filterMap f) = (p.run (l.filterMap f)).execOption (f x) := by
  rw [List.filterMap_append]
  cases hx : f x <;> simp [run, execOption, hx]

end Processor

namespace Hart

/-- Up to every point of the run, the statistics are those of the retired branches, each
noted once and in order, and of the markers between them. -/
def NotesRetired (h : Hart) (es : List Event) : Prop :=
  ∀ pre, pre <+: es → ∀ h', h.run pre = some h' →
    h'.proc.branchStats =
      (h.proc.run ((h.trail pre).filterMap Entry.retiredEvent)).branchStats

def NoMisalignedTaken (h : Hart) (es : List Event) : Prop :=
  ∀ pre x, pre ++ [.pass x] <+: es → ∀ h', h.run pre = some h' → 0 < h'.n →
    h'.proc.perceptronStatsEnabled = true → h'.proc.roiActive = true →
    h'.arch.takenMisaligned x.action = false

theorem exec_branchStats {h h' : Hart} {e : Event} (he : h.exec e = some h') :
    h'.proc.branchStats = (h.proc.execOption (h.entry e).event).branchStats := by
  rw [exec_proc he]
  rfl

/-- Dropping the call of a branch that did not retire changes nothing, unless the branch
is a misaligned taken one of an active region. -/
theorem retiredEvent_branchStats {h h' : Hart} {e : Event} (he : h.exec e = some h')
    (hok : ∀ x, e = .pass x → h.proc.perceptronStatsEnabled = true → h.proc.roiActive = true →
      h.arch.takenMisaligned x.action = false) :
    (h.proc.execOption (h.entry e).event).branchStats =
      (h.proc.execOption (h.entry e).retiredEvent).branchStats := by
  cases e with
  | step n entry => rfl
  | pass x =>
    rcases hev : statEvent h.arch x.action with _ | (⟨pc, taken⟩ | a0)
    · simp [entry, Entry.retiredEvent, hev]
    · cases hret : (h.outcome x).retires with
      | true => simp [entry, Entry.retiredEvent, hev, hret]
      | false =>
        have hdrop : (h.entry (.pass x)).retiredEvent = none := by
          simp [entry, Entry.retiredEvent, hev, hret]
        obtain ⟨-, o, a, p, hp, ho, -⟩ := exec_pass he
        obtain ⟨o', a', p', hp', hr⟩ := branch_outcome h hev
        obtain ⟨rfl, -⟩ : o' = o ∧ _ := by simpa [hp] using hp'.symm
        have hmis : h.arch.takenMisaligned x.action = true := by
          simpa [ho, hr] using hret
        have hoff : (h.proc.perceptronStatsEnabled && h.proc.roiActive) = false := by
          cases hs : h.proc.perceptronStatsEnabled with
          | false => rfl
          | true =>
            cases ha : h.proc.roiActive with
            | false => rfl
            | true => rw [hok x rfl hs ha] at hmis; cases hmis
        rw [hdrop, show (h.entry (.pass x)).event = _ from hev]
        exact congrArg _ (Processor.noteConditionalBranch_of_inactive hoff pc taken)
    · simp [entry, Entry.retiredEvent, hev]

theorem notesRetired_of_noMisaligned {h : Hart} {es : List Event} (hok : h.NoMisalignedTaken es) :
    h.NotesRetired es := by
  intro pre
  induction pre using List.reverseRecOn with
  | nil =>
    intro _ h' hr
    obtain rfl : h = h' := Option.some.inj hr
    rfl
  | append_singleton pre e ih =>
    intro hpre h'' hr
    obtain ⟨h', hr', he⟩ := run_snoc_eq_some hr
    have hq := ih ((List.prefix_append pre [e]).trans hpre) h' hr'
    rw [trail_snoc hr' e, Processor.run_filterMap_snoc, exec_branchStats he,
      retiredEvent_branchStats he ?_]
    · exact Processor.execOption_branchStats hq _
    · intro x hx hs ha
      subst hx
      exact hok pre x hpre h' hr' (exec_pass he).1 hs ha

/-- A misaligned taken branch of an active region is counted although it did not
retire. -/
theorem noMisaligned_of_notesRetired {h : Hart} {es : List Event} (hn : h.NotesRetired es) :
    h.NoMisalignedTaken es := by
  intro pre x hpre h' hr hpos hs ha
  by_contra hmis
  rw [Bool.not_eq_false] at hmis
  obtain ⟨taken, hev⟩ := event_of_takenMisaligned hmis
  obtain ⟨o, a, p, hp, hret⟩ := branch_outcome h' hev
  obtain ⟨h'', he⟩ : ∃ h'', h'.exec (.pass x) = some h'' := by
    simp [exec, hp, Nat.ne_of_gt hpos]
  have hr'' : h.run (pre ++ [.pass x]) = some h'' := by
    rw [run_snoc, hr]
    exact he
  have hbefore := hn pre ((List.prefix_append pre _).trans hpre) h' hr
  have hafter := hn _ hpre h'' hr''
  have hdrop : (h'.entry (.pass x)).retiredEvent = none := by
    simp [entry, Entry.retiredEvent, hev, outcome, hp, hret, hmis]
  rw [trail_snoc hr, Processor.run_filterMap_snoc, hdrop] at hafter
  have hsame : h''.proc.branchStats = h'.proc.branchStats := hafter.trans hbefore.symm
  have hcount : h''.proc.perceptronBranchCount = h'.proc.perceptronBranchCount + 1 := by
    have hstep := exec_branchStats he
    rw [show (h'.entry (.pass x)).event = some (.branch h'.arch.pc taken) from hev] at hstep
    have hnote := Processor.noteConditionalBranch_eq hs ha (h'.arch.pc, taken)
    have := congrArg (fun t => t.2.2.2.2.2.1) hstep
    simp only [Processor.branchStats, Processor.execOption, Processor.exec, hnote] at this
    exact this
  have := congrArg (fun t => t.2.2.2.2.2.1) hsame
  simp only [Processor.branchStats] at this
  omega

/-- Over every run from every state: the statistics are exactly those of the branches
that retired if and only if no branch of an active region is taken to a misaligned
target. -/
theorem notes_retired_iff_aligned (h : Hart) (es : List Event) :
    h.NotesRetired es ↔ h.NoMisalignedTaken es :=
  ⟨noMisaligned_of_notesRetired, notesRetired_of_noMisaligned⟩

/-- A start marker, then `beq x0, x0, 6`: the branch raises an exception and is counted. -/
theorem misaligned_beq_is_noted :
    ¬ (Hart.new (bareArch 0x80000000 1) true .perceptron).NotesRetired
      [.step 2 none, .pass ⟨.modelled .ebreak 0x100073 (bareArch 0 0), true⟩,
        .pass ⟨.modelled (.branch .beq) 0x363 (bareArch 0 0), true⟩] := by
  intro hn
  have hal := noMisaligned_of_notesRetired hn
    [.step 2 none, .pass ⟨.modelled .ebreak 0x100073 (bareArch 0 0), true⟩] _ List.prefix_rfl _ rfl
    (by decide) rfl rfl
  exact absurd hal (by decide)

end Hart

end PerceptronSoc
