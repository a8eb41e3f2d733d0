import PerceptronSoc.Spec.Debug
import PerceptronSoc.Proofs.HartRun

/-! When the statistics leave the debugger alone. The markers are looked for before the
mode is, so an `ebreak` meant for the debugger is lost whenever `a0` holds one. -/

namespace PerceptronSoc

def Ebreak.length : Ebreak → UInt64
  | .ebreak => 4
  | .cEbreak => 2

/-- The `ebreak` does with the statistics on what it does with them off: the same is
thrown, the hart ends up in Debug Mode at the ROM's entry, and the statistics do not
change. -/
structure DebugHart.Undisturbed (h : DebugHart) (e : Ebreak) (insn : UInt64)
    (handler : DebugHart) (p : Processor) : Prop where
  thrown : (h.execEbreak e insn handler { p with perceptronStatsEnabled := true }).thrown =
    (h.execEbreak e insn handler { p with perceptronStatsEnabled := false }).thrown
  hart : (h.execEbreak e insn handler { p with perceptronStatsEnabled := true }).hart =
    (h.execEbreak e insn handler { p with perceptronStatsEnabled := false }).hart
  proc : (h.execEbreak e insn handler { p with perceptronStatsEnabled := true }).proc =
    { p with perceptronStatsEnabled := true }
  procOff : (h.execEbreak e insn handler { p with perceptronStatsEnabled := false }).proc =
    { p with perceptronStatsEnabled := false }
  entered : h.arch.debugMode = false →
    (h.execEbreak e insn handler { p with perceptronStatsEnabled := true }).thrown =
      some .trapDebugMode
  atEntry : ∃ h', (h.execEbreak e insn handler { p with perceptronStatsEnabled := true }).hart =
    some h' ∧ h'.arch.debugMode = true ∧ h'.arch.pc = debugRomEntry

/-- What an `ebreak` throws when it is no marker. -/
def Arch.ebreakThrown (a : Arch) : Thrown :=
  if a.ebreakToDebug then .trapDebugMode else .trap (.breakpoint a.v a.pc)

theorem Ebreak.exec_eq {e : Ebreak} {a : Arch} (h : e = .cEbreak → a.zca = true) (insn : UInt64)
    (p : Processor) : e.opcode.exec a insn p = ebreakTail e.length a p := by
  cases e with
  | ebreak => rfl
  | cEbreak =>
    simp only [opcode, Opcode.exec, PerceptronSoc.cEbreak, Arch.requireZca, h rfl, if_true]
    rfl

theorem Processor.handleRoiEbreak_eq_false (p : Processor) (a0 : UInt64)
    (h : p.perceptronStatsEnabled = false ∨ a0 ≠ roiStartMarker ∧ a0 ≠ roiEndMarker) :
    p.handleRoiEbreak a0 = (false, p) := by
  unfold handleRoiEbreak
  obtain hoff | ⟨hs, he⟩ := h
  · rw [hoff]
    rfl
  · rw [if_neg hs, if_neg he, ite_self]

theorem Processor.handleRoiEbreak_fst {p : Processor} {a0 : UInt64}
    (hon : p.perceptronStatsEnabled = true) (h : a0 = roiStartMarker ∨ a0 = roiEndMarker) :
    (p.handleRoiEbreak a0).1 = true := by
  unfold handleRoiEbreak
  obtain rfl | rfl := h <;> rw [hon] <;> rfl

theorem ebreakTail_of_not_marker {length : UInt64} {a : Arch} {p : Processor}
    (h : p.handleRoiEbreak (a.xpr 10) = (false, p)) :
    ebreakTail length a p = (.error a.ebreakThrown, p) := by
  unfold ebreakTail Arch.ebreakThrown
  rw [h]
  dsimp only
  split <;> rfl

theorem ebreakTail_of_marker {length : UInt64} {a : Arch} {p : Processor}
    (h : (p.handleRoiEbreak (a.xpr 10)).1 = true) :
    (ebreakTail length a p).1 = a.setPc (a.pc + length) := by
  unfold ebreakTail
  split
  · rfl
  · next heq =>
    rw [heq] at h
    cases h

theorem Arch.setPc_ne_ebreakThrown (a : Arch) (x : UInt64) :
    a.setPc x ≠ .error a.ebreakThrown := by
  unfold setPc checkPcAlignment ebreakThrown
  split
  · split <;> simp [bind, Except.bind]
  · simp [bind, Except.bind, pure, Except.pure]

namespace DebugHart

variable {h handler : DebugHart} {e : Ebreak} {p : Processor}

theorem execEbreak_thrown (h : DebugHart) (e : Ebreak) (insn : UInt64) (handler : DebugHart)
    (p : Processor) : (h.execEbreak e insn handler p).thrown =
      match (e.opcode.exec h.arch insn p).1 with
      | .ok _ => none
      | .error t => some t := by
  unfold execEbreak
  rcases e.opcode.exec h.arch insn p with ⟨(_ | _) | _, _⟩ <;> rfl

/-- Outside the markers an `ebreak` is the debugger's, whatever the statistics say. -/
theorem execEbreak_of_not_marker (insn : UInt64) (handler : DebugHart)
    (hzca : e = .cEbreak → h.arch.zca = true)
    (hm : p.handleRoiEbreak (h.arch.xpr 10) = (false, p)) :
    h.execEbreak e insn handler p =
      ⟨some h.arch.ebreakThrown,
        some (if h.arch.ebreakToDebug then h.enterDebugMode dcsrCauseSwbp
          else h.catchTrap (.breakpoint h.arch.v h.arch.pc) handler), p⟩ := by
  unfold execEbreak
  rw [Ebreak.exec_eq hzca, ebreakTail_of_not_marker hm]
  unfold Arch.ebreakThrown
  cases h.arch.ebreakToDebug <;> rfl

theorem catchTrap_breakpoint (hd : h.arch.debugMode = true) (gva : Bool) (tval : UInt64) :
    (h.catchTrap (.breakpoint gva tval) handler).arch.debugMode = true ∧
      (h.catchTrap (.breakpoint gva tval) handler).arch.pc = debugRomEntry := by
  unfold catchTrap
  rw [if_pos hd]
  dsimp only
  split
  · exact ⟨rfl, rfl⟩
  · exact ⟨hd, rfl⟩

theorem not_debugMode_of_ebreakToDebug {a : Arch} (h : a.ebreakToDebug = true) :
    a.debugMode = false := by
  unfold Arch.ebreakToDebug at h
  cases hd : a.debugMode with
  | false => rfl
  | true => simp [hd] at h

/-- In Debug Mode, and in a mode whose `ebreak` bit is set, for both encodings: the
statistics leave the debugger alone if and only if `a0` holds no marker. -/
theorem ebreak_undisturbed_iff (h : DebugHart) (e : Ebreak) (insn : UInt64)
    (handler : DebugHart) (p : Processor) (hzca : e = .cEbreak → h.arch.zca = true)
    (hmode : h.arch.debugMode = true ∨ h.arch.ebreakToDebug = true) :
    h.Undisturbed e insn handler p ↔
      h.arch.xpr 10 ≠ Processor.roiStartMarker ∧ h.arch.xpr 10 ≠ Processor.roiEndMarker := by
  have hoff := execEbreak_of_not_marker insn handler hzca
    (Processor.handleRoiEbreak_eq_false { p with perceptronStatsEnabled := false }
      (h.arch.xpr 10) (.inl rfl))
  refine ⟨fun hu => ?_, fun hm => ?_⟩
  · by_contra hmark
    have hmark : h.arch.xpr 10 = Processor.roiStartMarker ∨
        h.arch.xpr 10 = Processor.roiEndMarker := by tauto
    have ht := hu.thrown
    rw [hoff, execEbreak_thrown, Ebreak.exec_eq hzca,
      ebreakTail_of_marker (Processor.handleRoiEbreak_fst rfl hmark)] at ht
    refine h.arch.setPc_ne_ebreakThrown (h.arch.pc + e.length) ?_
    cases hset : h.arch.setPc (h.arch.pc + e.length) with
    | ok npc => rw [hset] at ht; cases ht
    | error t => rw [hset] at ht; rw [Option.some.inj ht]
  · have hon := execEbreak_of_not_marker insn handler hzca
      (Processor.handleRoiEbreak_eq_false { p with perceptronStatsEnabled := true }
        (h.arch.xpr 10) (.inr hm))
    refine ⟨by rw [hon, hoff], by rw [hon, hoff], by rw [hon], by rw [hoff], fun hd => ?_, ?_⟩
    · have hbit := hmode.resolve_left (by simp [hd])
      rw [hon]
      simp only [Arch.ebreakThrown, hbit, if_true]
    · rw [hon]
      refine ⟨_, rfl, ?_⟩
      obtain hd | hbit := hmode
      · rw [if_neg fun hbit => by simp [not_debugMode_of_ebreakToDebug hbit] at hd]
        exact catchTrap_breakpoint hd _ _
      · rw [if_pos hbit]
        exact ⟨rfl, rfl⟩

def halted (a0 : UInt64) : DebugHart where
  arch := { Hart.bareArch 0x37c a0 with debugMode := true }
  prevPrv := .m
  prevV := false
  prvChanged := false
  vChanged := false
  dpc := 0x80000000
  dcsrCause := 3
  dcsrPrv := .m
  dcsrV := false
  singleStep := .stepNone
  inWfi := false

theorem halted_undisturbed : (halted 0).Undisturbed .ebreak 0x100073 (halted 0)
    (Processor.new true .tage) :=
  (ebreak_undisturbed_iff (halted 0) .ebreak 0x100073 (halted 0) (Processor.new true .tage)
    (fun h => by cases h) (.inl rfl)).mpr ⟨by decide, by decide⟩

/-- A debuggee with one in `a0`: the `ebreak` that should end the program buffer starts a
region instead, and the hart runs on behind it. -/
theorem halted_runs_on : ¬ (halted 1).Undisturbed .ebreak 0x100073 (halted 1)
      (Processor.new true .tage) ∧
    ((halted 1).execEbreak .ebreak 0x100073 (halted 1) (Processor.new true .tage)).hart.map
      (·.arch.pc) = some 0x380 ∧
    ((halted 1).execEbreak .ebreak 0x100073 (halted 1)
      (Processor.new true .tage)).proc.roiActive = true := by
  refine ⟨fun hu => ?_, rfl, rfl⟩
  have ht := hu.thrown
  cases ht

end DebugHart

end PerceptronSoc
