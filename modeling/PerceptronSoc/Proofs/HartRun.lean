import PerceptronSoc.Proofs.Hybrid
import PerceptronSoc.Spec.Hart

/-! What one pass of the `step` loop does, read once for all the results about whole
runs: which call reaches the statistics, and how `minstret` and the open batch together
account for the instruction that retired. -/

namespace PerceptronSoc

namespace Outcome

def adds : Outcome → ℕ
  | .next | .serializeAfter | .wfi | .poll => 1
  | .serializeBefore | .trap | .leave => 0

/-- Whether an instruction retired. A poll is counted by the loop, but executes
nothing. -/
def retires : Outcome → Bool
  | .next | .serializeAfter | .wfi => true
  | .serializeBefore | .trap | .leave | .poll => false

end Outcome

/-- The call into the statistics code that a pass makes, from the state before it. -/
def statEvent (a : Arch) : Action → Option Processor.Event
  | .modelled (.branch op) insn _ =>
    match op.compare a insn with
    | .ok c => some (.branch a.pc c.taken)
    | .error _ => none
  | .modelled .ebreak _ _ => some (.ebreak (a.xpr 10))
  | .modelled .cEbreak insn _ =>
    match a.requireZca insn with
    | .ok () => some (.ebreak (a.xpr 10))
    | .error _ => none
  | .other _ _ => none
  | .writeMinstret _ _ => none

namespace Processor

def execOption (p : Processor) : Option Event → Processor
  | some e => p.exec e
  | none => p

theorem noteConditionalBranch_minstret (p : Processor) (pc : UInt64) (taken : Bool) :
    (p.noteConditionalBranch pc taken).minstret = p.minstret := by
  cases hq : p.perceptronStatsEnabled && p.roiActive with
  | false => rw [noteConditionalBranch_of_inactive hq]
  | true =>
    obtain ⟨hs, ha⟩ := Bool.and_eq_true_iff.mp hq
    rw [noteConditionalBranch_eq hs ha (pc, taken)]

theorem handleRoiEbreak_minstret (p : Processor) (a0 : UInt64) :
    (p.handleRoiEbreak a0).2.minstret = p.minstret := by
  unfold handleRoiEbreak
  split
  · rfl
  split
  · rfl
  split <;> rfl

theorem execOption_minstret (p : Processor) (e : Option Event) :
    (p.execOption e).minstret = p.minstret := by
  cases e with
  | none => rfl
  | some e =>
    cases e with
    | branch pc taken => exact noteConditionalBranch_minstret p pc taken
    | ebreak a0 => exact handleRoiEbreak_minstret p a0

end Processor

/-- An instruction body changes the statistics by the one call it makes. -/
theorem Opcode.exec_snd (op : Opcode) (a handler : Arch) (insn : UInt64) (p : Processor) :
    (op.exec a insn p).2 = p.execOption (statEvent a (.modelled op insn handler)) := by
  cases op with
  | branch op =>
    simp only [Opcode.exec, BranchOp.exec, statEvent]
    cases op.compare a insn with
    | error t => rfl
    | ok c => rfl
  | ebreak =>
    simp only [Opcode.exec, PerceptronSoc.ebreak, ebreakTail, statEvent, Processor.execOption,
      Processor.exec]
    rcases p.handleRoiEbreak (a.xpr 10) with ⟨_ | _, q⟩
    · dsimp only
      split <;> rfl
    · rfl
  | cEbreak =>
    simp only [Opcode.exec, PerceptronSoc.cEbreak, ebreakTail, statEvent]
    cases a.requireZca insn with
    | error t => rfl
    | ok u =>
      simp only [Processor.execOption, Processor.exec]
      rcases p.handleRoiEbreak (a.xpr 10) with ⟨_ | _, q⟩
      · dsimp only
        split <;> rfl
      · rfl

namespace Hart

def outcome (h : Hart) (x : Pass) : Outcome :=
  match h.perform x with
  | some (o, _, _) => o
  | none => .leave

def closes (h : Hart) : Outcome → Bool
  | .next => decide (h.n ≤ h.instret + 1)
  | _ => true

/-- How far a write moves the counter. -/
def jump (h : Hart) (x : Pass) : UInt64 :=
  match x.action with
  | .writeMinstret value _ => (if x.counting then value - 1 else value) - h.proc.minstret
  | _ => 0

/-- What a pass does to the counters that no retired instruction explains: a poll counts
as one, a write jumps, and a batch that closes while counting is inhibited is lost. -/
def drift (h : Hart) (x : Pass) : UInt64 :=
  (if h.outcome x = .poll then 1 else 0) + h.jump x -
    (if h.closes (h.outcome x) && !x.counting then
      UInt64.ofNat (h.instret + (h.outcome x).adds) else 0)

/-- One line of a run's log, from the state before the event: the call it makes into
the statistics, whether an instruction retires, the instructions already in the open
batch, and the drift. -/
structure Entry where
  event : Option Processor.Event
  retires : Bool
  lag : ℕ
  drift : UInt64

def entry (h : Hart) : Event → Entry
  | .step _ _ => ⟨none, false, h.instret, 0⟩
  | .pass x => ⟨statEvent h.arch x.action, (h.outcome x).retires, h.instret, h.drift x⟩

def trail (h : Hart) : List Event → List Entry
  | [] => []
  | e :: es =>
    h.entry e ::
      match h.exec e with
      | some h' => h'.trail es
      | none => []

theorem run_snoc (h : Hart) (es : List Event) (e : Event) :
    h.run (es ++ [e]) = (h.run es).bind fun h' => h'.exec e := by
  unfold run
  rw [List.foldlM_append]
  congr 1
  funext h'
  simp [List.foldlM]

/-- Each prefix of a run is a run. -/
theorem run_snoc_eq_some {h h'' : Hart} {es : List Event} {e : Event}
    (hr : h.run (es ++ [e]) = some h'') : ∃ h', h.run es = some h' ∧ h'.exec e = some h'' := by
  rw [run_snoc] at hr
  exact Option.bind_eq_some_iff.mp hr

theorem trail_snoc {h h' : Hart} {es : List Event} (hr : h.run es = some h') (e : Event) :
    h.trail (es ++ [e]) = h.trail es ++ [h'.entry e] := by
  induction es generalizing h with
  | nil =>
    obtain rfl : h = h' := Option.some.inj hr
    simp only [List.nil_append, trail]
    cases h.exec e <;> rfl
  | cons e' es ih =>
    rw [run, List.foldlM_cons] at hr
    obtain ⟨h1, h1eq, hr1⟩ := Option.bind_eq_some_iff.mp hr
    simp only [List.cons_append, trail, h1eq]
    rw [ih hr1]

/-- Machine mode without compressed instructions, every register but `a0` zero. -/
def bareArch (pc a0 : UInt64) (pcEven : pc &&& 1 = 0 := by decide) : Arch where
  pc := pc
  pcEven := pcEven
  xpr r := if r = 10 then a0 else 0
  rv64 := true
  rve := false
  zca := false
  prv := .m
  v := false
  debugMode := false
  ebreakm := false
  ebreaks := false
  ebreaku := false
  ebreakvs := false
  ebreakvu := false

/-- A new call of `step` opens a batch, between calls only. -/
theorem exec_step {h h' : Hart} {n : ℕ} {entry : Option Arch}
    (he : h.exec (.step n entry) = some h') :
    h.n = 0 ∧ h' = { h with n := n, instret := 0, arch := entry.getD h.arch } := by
  simp only [exec] at he
  split at he
  · next hn => exact ⟨hn, (Option.some.inj he).symm⟩
  · cases he

theorem exec_pass {h h' : Hart} {x : Pass} (he : h.exec (.pass x) = some h') :
    0 < h.n ∧ ∃ o a p, h.perform x = some (o, a, p) ∧ h.outcome x = o ∧
      h' = finish { h with arch := a, proc := p } x.counting o := by
  simp only [exec] at he
  split at he
  · cases he
  · next hn =>
    obtain ⟨⟨o, a, p⟩, hp, rfl⟩ := Option.map_eq_some_iff.mp he
    exact ⟨Nat.pos_of_ne_zero hn, o, a, p, hp, by simp [outcome, hp], rfl⟩

/-- The statistics after a pass, up to the counter: the one call it makes. -/
theorem perform_proc {h : Hart} {x : Pass} {o : Outcome} {a : Arch} {p : Processor}
    (hp : h.perform x = some (o, a, p)) :
    p = { h.proc.execOption (statEvent h.arch x.action) with
          minstret := h.proc.minstret + h.jump x } := by
  have hsame : ∀ q : Processor, q.minstret = h.proc.minstret →
      q = { q with minstret := h.proc.minstret + 0 } := by
    intro q hq
    rw [UInt64.add_zero, ← hq]
  obtain ⟨action, counting⟩ := x
  cases action with
  | modelled op insn handler =>
    have hsnd := op.exec_snd h.arch handler insn h.proc
    have hmin := Processor.execOption_minstret h.proc (statEvent h.arch (.modelled op insn handler))
    suffices hpe : p = (op.exec h.arch insn h.proc).2 by
      rw [hpe, hsnd]
      exact hsame _ hmin
    simp only [perform] at hp
    rcases hx : op.exec h.arch insn h.proc with ⟨(_ | t) | npc, q⟩
    · rw [hx] at hp
      cases hp
      rfl
    · rw [hx] at hp
      cases hp
      rfl
    · rw [hx] at hp
      obtain ⟨⟨o', a'⟩, -, hq⟩ := Option.map_eq_some_iff.mp hp
      cases hq
      rfl
  | other outcome after =>
    cases hp
    exact hsame _ rfl
  | writeMinstret value after =>
    cases hp
    simp only [Processor.writeMinstret, statEvent, Processor.execOption, jump]
    congr 1
    grind

theorem finish_proc (h : Hart) (counting : Bool) (o : Outcome) :
    (h.finish counting o).proc = { h.proc with minstret := (h.finish counting o).proc.minstret } := by
  have hclose : ∀ n k, (h.close counting n k).proc =
      { h.proc with minstret := (h.close counting n k).proc.minstret } := by
    intro n k
    cases counting <;> rfl
  cases o with
  | next =>
    simp only [finish]
    split
    · rfl
    · exact hclose _ _
  | _ => exact hclose _ _

/-- The statistics after any event, up to the counter: the call that its log entry names. -/
theorem exec_proc {h h' : Hart} {e : Event} (he : h.exec e = some h') :
    h'.proc = { h.proc.execOption (h.entry e).event with minstret := h'.proc.minstret } := by
  cases e with
  | step n entry =>
    obtain ⟨-, rfl⟩ := exec_step he
    rfl
  | pass x =>
    obtain ⟨-, o, a, p, hp, -, rfl⟩ := exec_pass he
    rw [finish_proc, perform_proc hp]
    rfl

/-- The counter and the open batch together, over one pass of the loop variables. -/
theorem finish_account (h : Hart) (counting : Bool) (o : Outcome) :
    (h.finish counting o).proc.minstret + UInt64.ofNat (h.finish counting o).instret =
      h.proc.minstret + UInt64.ofNat (h.instret + o.adds) -
        (if h.closes o && !counting then UInt64.ofNat (h.instret + o.adds) else 0) := by
  have hclose : ∀ n k, (h.close counting n k).proc.minstret +
      UInt64.ofNat (h.close counting n k).instret =
        h.proc.minstret + UInt64.ofNat k - (if !counting then UInt64.ofNat k else 0) := by
    intro n k
    cases counting
    · simp only [close, Processor.bump, Bool.not_false, if_true, Bool.false_eq_true, if_false]
      grind
    · simp [close, Processor.bump]
  cases o with
  | next =>
    simp only [finish, closes, Outcome.adds]
    by_cases hlt : h.instret + 1 < h.n
    · have hd : decide (h.n ≤ h.instret + 1) = false := decide_eq_false (by omega)
      simp only [if_pos hlt, hd, Bool.false_and, Bool.false_eq_true, if_false, UInt64.sub_zero]
    · have hd : decide (h.n ≤ h.instret + 1) = true := decide_eq_true (by omega)
      simp only [if_neg hlt, hd, Bool.true_and]
      exact hclose _ _
  | _ => exact hclose _ _

/-- The step of the accounting argument: a pass moves the counter and the open batch
together by its retired instruction and its drift. -/
theorem exec_account {h h' : Hart} {x : Pass} (he : h.exec (.pass x) = some h') :
    h'.proc.minstret + UInt64.ofNat h'.instret =
      h.proc.minstret + UInt64.ofNat h.instret +
        (if (h.outcome x).retires then 1 else 0) + h.drift x := by
  obtain ⟨-, o, a, p, hp, ho, rfl⟩ := exec_pass he
  have hm : p.minstret = h.proc.minstret + h.jump x := by rw [perform_proc hp]
  have hf := finish_account { h with arch := a, proc := p } x.counting o
  rw [hf, drift, ho, hm]
  have hc : closes { h with arch := a, proc := p } o = h.closes o := by cases o <;> rfl
  rw [hc]
  have hadds : UInt64.ofNat (h.instret + o.adds) = UInt64.ofNat h.instret +
      (if o.retires then 1 else 0) + (if o = .poll then 1 else 0) := by
    cases o <;> simp [Outcome.adds, Outcome.retires]
  dsimp only
  generalize (if (h.closes o && !x.counting) = true then _ else _) = lost
  rw [hadds]
  grind

theorem exec_idle {h h' : Hart} {e : Event} (he : h.exec e = some h') (hn : h'.n = 0) :
    h'.instret = 0 := by
  cases e with
  | step n entry =>
    obtain ⟨-, rfl⟩ := exec_step he
    rfl
  | pass x =>
    obtain ⟨-, o, a, p, -, -, rfl⟩ := exec_pass he
    cases o with
    | next =>
      simp only [finish] at hn ⊢
      split at hn
      · next hlt => simp only at hn hlt; omega
      · next hge => rw [if_neg hge]; rfl
    | _ => rfl

end Hart

end PerceptronSoc
