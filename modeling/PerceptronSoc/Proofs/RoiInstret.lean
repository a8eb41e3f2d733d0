import PerceptronSoc.Proofs.HartRun
import PerceptronSoc.Proofs.Roi

/-! When the printed instruction figures describe the last region. The markers read
`minstret` in the middle of a batch, when the instructions of the open batch have not
been added yet, and `mpki` divides by the count of the whole run. -/

namespace PerceptronSoc.Hart

def Entry.isStart (e : Entry) : Bool := e.event = some (.ebreak Processor.roiStartMarker)

def Entry.isEnd (e : Entry) : Bool := e.event = some (.ebreak Processor.roiEndMarker)

/-- From the last start marker, inclusive, to the end marker after it, exclusive, or to
the end of the run. -/
def window (t : List Entry) : List Entry := Region.last Entry.isStart Entry.isEnd t

def retiredIn (t : List Entry) : ℕ := t.countP (·.retires)

def driftIn (t : List Entry) : UInt64 := (t.map (·.drift)).sum

/-- The instructions of the open batch that the start marker's reading misses. -/
def lagAtStart (t : List Entry) : UInt64 :=
  match Region.opening Entry.isStart t with
  | some e => UInt64.ofNat e.lag
  | none => 0

/-- The instructions that the end marker's reading misses; none at the end of a run. -/
def lagAtEnd (t : List Entry) : UInt64 :=
  match Region.closing Entry.isStart Entry.isEnd t with
  | some e => UInt64.ofNat e.lag
  | none => 0

/-- What the two figures are meant to be: the instructions retired in the window, and the
region's misses per thousand of them. -/
def FiguresRight (t : List Entry) (r : Processor.Report) : Prop :=
  r.roiInstructions.toNat = retiredIn (window t) ∧
  r.mpki = if retiredIn (window t) = 0 then 0
    else 1000 * r.mispredictions / (retiredIn (window t) : ℚ)

/-- The start marker misses as much of its batch as the end marker of its own, up to
what drifts in between. -/
def WindowCounted (t : List Entry) : Prop :=
  retiredIn (window t) < 2 ^ 64 ∧ lagAtStart t + driftIn (window t) = lagAtEnd t

/-- Nothing is mispredicted, or the whole run counts no more than the window. -/
def RunIsWindow (kind : BranchPredictorKind) (t : List Entry) : Prop :=
  Processor.freshMisses kind (Processor.roiBranches (t.filterMap (·.event))) = 0 ∨
  UInt64.ofNat (retiredIn t) + driftIn t = UInt64.ofNat (retiredIn (window t))

theorem Entry.isEnd_of_isStart (e : Entry) (h : e.isStart = true) : e.isEnd = false := by
  unfold isStart at h
  unfold isEnd
  rw [of_decide_eq_true h]
  rfl

theorem retiredIn_snoc (t : List Entry) (e : Entry) :
    UInt64.ofNat (retiredIn (t ++ [e])) =
      UInt64.ofNat (retiredIn t) + if e.retires then 1 else 0 := by
  unfold retiredIn
  rw [List.countP_append, List.countP_singleton]
  cases e.retires <;> simp

theorem driftIn_snoc (t : List Entry) (e : Entry) : driftIn (t ++ [e]) = driftIn t + e.drift := by
  simp [driftIn]

/-- The counters after a run with log `t`. -/
structure Accounts (t : List Entry) (h : Hart) : Prop where
  stats : h.proc.perceptronStatsEnabled = true
  idle : h.n = 0 → h.instret = 0
  total : h.proc.minstret + UInt64.ofNat h.instret = UInt64.ofNat (retiredIn t) + driftIn t
  active : h.proc.roiActive = Region.isOpen Entry.isStart Entry.isEnd t
  opened : h.proc.roiActive = true → h.proc.perceptronRoiInstructions = 0 ∧
    h.proc.minstret + UInt64.ofNat h.instret - h.proc.perceptronRoiStartInstructions =
      UInt64.ofNat (retiredIn (window t)) + driftIn (window t) + lagAtStart t
  closed : h.proc.roiActive = false → h.proc.perceptronRoiInstructions =
    UInt64.ofNat (retiredIn (window t)) + driftIn (window t) + lagAtStart t - lagAtEnd t

variable {t : List Entry} {h h' : Hart} {e : Event}

theorem new_accounts (arch : Arch) (kind : BranchPredictorKind) :
    Accounts [] (Hart.new arch true kind) where
  stats := rfl
  idle _ := rfl
  total := rfl
  active := rfl
  opened h := by cases h
  closed _ := rfl

theorem Accounts.total_exec (ha : Accounts t h) (he : h.exec e = some h') :
    h'.proc.minstret + UInt64.ofNat h'.instret = h.proc.minstret + UInt64.ofNat h.instret +
      (if (h.entry e).retires then 1 else 0) + (h.entry e).drift := by
  cases e with
  | pass x => exact exec_account he
  | step n entry =>
    obtain ⟨hn, rfl⟩ := exec_step he
    rw [ha.idle hn]
    simp [Hart.entry]

/-- A call that is no marker leaves the region's own fields alone. -/
theorem execOption_roi (p : Processor) {ev : Option Processor.Event}
    (h1 : ev ≠ some (.ebreak Processor.roiStartMarker))
    (h2 : ev ≠ some (.ebreak Processor.roiEndMarker)) :
    (p.execOption ev).perceptronStatsEnabled = p.perceptronStatsEnabled ∧
    (p.execOption ev).roiActive = p.roiActive ∧
    (p.execOption ev).perceptronRoiInstructions = p.perceptronRoiInstructions ∧
    (p.execOption ev).perceptronRoiStartInstructions = p.perceptronRoiStartInstructions := by
  rcases ev with _ | (⟨pc, taken⟩ | a0)
  · exact ⟨rfl, rfl, rfl, rfl⟩
  · simp only [Processor.execOption, Processor.exec]
    cases hq : p.perceptronStatsEnabled && p.roiActive with
    | false =>
      rw [Processor.noteConditionalBranch_of_inactive hq]
      exact ⟨rfl, rfl, rfl, rfl⟩
    | true =>
      obtain ⟨hs, ha⟩ := Bool.and_eq_true_iff.mp hq
      rw [Processor.noteConditionalBranch_eq hs ha (pc, taken)]
      exact ⟨rfl, rfl, rfl, rfl⟩
  · have h0 : a0 ≠ Processor.roiStartMarker := fun hc => h1 (by rw [hc])
    have h3 : a0 ≠ Processor.roiEndMarker := fun hc => h2 (by rw [hc])
    simp [Processor.execOption, Processor.exec, Processor.handleRoiEbreak, h0, h3]

theorem Accounts.exec_start (ha : Accounts t h) (he : h.exec e = some h')
    (hs : (h.entry e).isStart = true) : Accounts (t ++ [h.entry e]) h' := by
  have hp := exec_proc he
  have htot := ha.total_exec he
  have hev : (h.entry e).event = some (.ebreak Processor.roiStartMarker) := of_decide_eq_true hs
  have hopen : Region.isOpen Entry.isStart Entry.isEnd (t ++ [h.entry e]) = true := by
    rw [Region.isOpen_snoc Entry.isEnd_of_isStart, hs, Bool.true_or]
  have hwin : window (t ++ [h.entry e]) = [h.entry e] := by
    rw [window, Region.last_snoc Entry.isEnd_of_isStart, if_pos hs]
  have hlag : lagAtStart (t ++ [h.entry e]) = UInt64.ofNat h.instret := by
    rw [lagAtStart, Region.opening_snoc, if_pos hs]
    cases e <;> rfl
  simp only [hev, Processor.execOption, Processor.exec, Processor.handleRoiEbreak, ha.stats,
    Bool.not_true, Bool.false_eq_true, if_false, if_true] at hp
  have hact : h'.proc.roiActive = true := by rw [hp]
  refine ⟨by rw [hp], exec_idle he, ?_, ?_, fun _ => ?_, fun hc => ?_⟩
  · rw [htot, ha.total, retiredIn_snoc, driftIn_snoc]
    grind
  · rw [hopen, hact]
  · refine ⟨by rw [hp], ?_⟩
    have hstart : h'.proc.perceptronRoiStartInstructions = h.proc.minstret := by rw [hp]
    rw [htot, hstart, hwin, hlag, ← List.nil_append [h.entry e], retiredIn_snoc, driftIn_snoc]
    simp only [retiredIn, driftIn, List.countP_nil, List.map_nil, List.sum_nil]
    grind
  · rw [hact] at hc
    cases hc

theorem Accounts.exec_end (ha : Accounts t h) (he : h.exec e = some h')
    (hs : (h.entry e).isEnd = true) : Accounts (t ++ [h.entry e]) h' := by
  have hp := exec_proc he
  have htot := ha.total_exec he
  have hev : (h.entry e).event = some (.ebreak Processor.roiEndMarker) := of_decide_eq_true hs
  have hns : (h.entry e).isStart = false := by
    unfold Entry.isStart
    rw [hev]
    rfl
  have hwin : window (t ++ [h.entry e]) = window t := by
    rw [window, Region.last_snoc Entry.isEnd_of_isStart, hns, hs]
    simp [window]
  have hlag : lagAtStart (t ++ [h.entry e]) = lagAtStart t := by
    rw [lagAtStart, Region.opening_snoc, hns]
    rfl
  have hend : Region.closing Entry.isStart Entry.isEnd (t ++ [h.entry e]) =
      if h.proc.roiActive then some (h.entry e)
      else Region.closing Entry.isStart Entry.isEnd t := by
    rw [Region.closing_snoc Entry.isEnd_of_isStart, hns, hs, ← ha.active]
    simp
  have hne : Processor.roiEndMarker ≠ Processor.roiStartMarker := by decide
  simp only [hev, Processor.execOption, Processor.exec, Processor.handleRoiEbreak, ha.stats,
    Bool.not_true, Bool.false_eq_true, if_false, if_true, hne] at hp
  have hact : h'.proc.roiActive = false := by rw [hp]
  refine ⟨by rw [hp], exec_idle he, ?_, ?_, fun hc => ?_, fun _ => ?_⟩
  · rw [htot, ha.total, retiredIn_snoc, driftIn_snoc]
    grind
  · rw [hact, Region.isOpen_snoc Entry.isEnd_of_isStart, hns, hs]
    simp
  · rw [hact] at hc
    cases hc
  · have hroi : h'.proc.perceptronRoiInstructions = if h.proc.roiActive then
        h.proc.perceptronRoiInstructions +
          (h.proc.minstret - h.proc.perceptronRoiStartInstructions)
        else h.proc.perceptronRoiInstructions := by rw [hp]
    rw [hroi, hwin, hlag, lagAtEnd, hend]
    cases hc : h.proc.roiActive with
    | false => exact ha.closed hc
    | true =>
      obtain ⟨h0, hopen⟩ := ha.opened hc
      have hl : (h.entry e).lag = h.instret := by cases e <;> rfl
      simp only [if_true, h0, hl]
      grind

theorem Accounts.exec_other (ha : Accounts t h) (he : h.exec e = some h')
    (hs : (h.entry e).isStart = false) (hn : (h.entry e).isEnd = false) :
    Accounts (t ++ [h.entry e]) h' := by
  have hp := exec_proc he
  have htot := ha.total_exec he
  obtain ⟨hstats, hact, hroi, hstart⟩ := execOption_roi h.proc
    (of_decide_eq_false hs) (of_decide_eq_false hn)
  have hact' : h'.proc.roiActive = h.proc.roiActive := by rw [hp]; exact hact
  have hroi' : h'.proc.perceptronRoiInstructions = h.proc.perceptronRoiInstructions := by
    rw [hp]; exact hroi
  have hstart' : h'.proc.perceptronRoiStartInstructions =
      h.proc.perceptronRoiStartInstructions := by rw [hp]; exact hstart
  have hlag : lagAtStart (t ++ [h.entry e]) = lagAtStart t := by
    rw [lagAtStart, Region.opening_snoc, hs]
    rfl
  have hlag' : lagAtEnd (t ++ [h.entry e]) = lagAtEnd t := by
    rw [lagAtEnd, Region.closing_snoc Entry.isEnd_of_isStart, hs, hn]
    simp [lagAtEnd]
  have hwin : window (t ++ [h.entry e]) =
      window t ++ if h.proc.roiActive then [h.entry e] else [] := by
    rw [window, Region.last_snoc Entry.isEnd_of_isStart, hs, hn, ← ha.active]
    simp [window]
  refine ⟨by rw [hp]; exact hstats.trans ha.stats, exec_idle he, ?_, ?_, fun hc => ?_, fun hc => ?_⟩
  · rw [htot, ha.total, retiredIn_snoc, driftIn_snoc]
    grind
  · rw [hact', ha.active, Region.isOpen_snoc Entry.isEnd_of_isStart, hs, hn]
    simp
  · rw [hact'] at hc
    obtain ⟨h0, hopen⟩ := ha.opened hc
    refine ⟨hroi'.trans h0, ?_⟩
    rw [hwin, hc, if_pos rfl, retiredIn_snoc, driftIn_snoc, hlag, htot, hstart']
    grind
  · rw [hact'] at hc
    rw [hwin, hc, if_neg (by simp), List.append_nil, hlag, hlag', hroi']
    exact ha.closed hc

theorem Accounts.exec (ha : Accounts t h) (he : h.exec e = some h') :
    Accounts (t ++ [h.entry e]) h' := by
  cases hs : (h.entry e).isStart with
  | true => exact ha.exec_start he hs
  | false =>
    cases hn : (h.entry e).isEnd with
    | true => exact ha.exec_end he hn
    | false => exact ha.exec_other he hs hn

theorem tracks_minstret {kind : BranchPredictorKind} {es : List Processor.Event} {p : Processor}
    (ht : Processor.Tracks kind es p) (m : UInt64) :
    Processor.Tracks kind es { p with minstret := m } :=
  { ht with resettable := ⟨ht.resettable.perceptron, ht.resettable.tage⟩ }

theorem tracks_execOption {kind : BranchPredictorKind} {es : List Processor.Event} {p : Processor}
    (ht : Processor.Tracks kind es p) (ev : Option Processor.Event) :
    Processor.Tracks kind (es ++ ev.toList) (p.execOption ev) := by
  cases ev with
  | none =>
    rw [Option.toList_none, List.append_nil]
    exact ht
  | some ev => exact ht.exec ev

/-- A whole run keeps its accounts and its branch statistics together. -/
theorem run_accounts {arch : Arch} {kind : BranchPredictorKind} {es : List Event} {h : Hart}
    (hr : (Hart.new arch true kind).run es = some h) :
    Accounts ((Hart.new arch true kind).trail es) h ∧
    Processor.Tracks kind (((Hart.new arch true kind).trail es).filterMap (·.event)) h.proc := by
  induction es using List.reverseRecOn generalizing h with
  | nil =>
    obtain rfl : Hart.new arch true kind = h := Option.some.inj hr
    exact ⟨new_accounts arch kind, Processor.new_tracks kind⟩
  | append_singleton es e ih =>
    obtain ⟨h1, hr1, he⟩ := run_snoc_eq_some hr
    obtain ⟨ha, ht⟩ := ih hr1
    rw [trail_snoc hr1]
    refine ⟨ha.exec he, ?_⟩
    rw [List.filterMap_append, exec_proc he]
    have := tracks_minstret (tracks_execOption ht (h1.entry e).event) h.proc.minstret
    cases hev : (h1.entry e).event with
    | none => simpa [hev] using this
    | some ev => simpa [hev] using this

theorem quotient_eq_iff {m a b : ℕ} :
    (if a = 0 then (0 : ℚ) else 1000 * m / a) = (if b = 0 then 0 else 1000 * m / (b : ℚ)) ↔
      m = 0 ∨ a = b := by
  have hdiv : ∀ n : ℕ, (if n = 0 then (0 : ℚ) else 1000 * m / n) = 1000 * m * (n : ℚ)⁻¹ := by
    intro n
    split
    · next hn => simp [hn]
    · exact div_eq_mul_inv _ _
  rw [hdiv, hdiv, mul_eq_mul_left_iff, inv_inj, Nat.cast_inj]
  simp [or_comm]

theorem toNat_eq_iff (x : UInt64) (n : ℕ) : x.toNat = n ↔ n < 2 ^ 64 ∧ x = UInt64.ofNat n := by
  constructor
  · rintro rfl
    exact ⟨x.toNat_lt, by simp⟩
  · rintro ⟨hn, rfl⟩
    exact UInt64.toNat_ofNat_of_lt' hn

/-- What a complete run prints as the region's instruction count. -/
theorem report_roiInstructions {t : List Entry} {h : Hart} (ha : Accounts t h) (hn : h.n = 0) :
    (if h.proc.roiActive then h.proc.perceptronRoiInstructions +
        (h.proc.minstret - h.proc.perceptronRoiStartInstructions)
      else h.proc.perceptronRoiInstructions) =
      UInt64.ofNat (retiredIn (window t)) + driftIn (window t) + lagAtStart t - lagAtEnd t := by
  have hi := ha.idle hn
  cases hc : h.proc.roiActive with
  | false => exact ha.closed hc
  | true =>
    obtain ⟨h0, hopen⟩ := ha.opened hc
    have hl : lagAtEnd t = 0 := by
      have hopen' := ha.active.symm.trans hc
      unfold lagAtEnd Region.closing
      unfold Region.isOpen at hopen'
      cases hf : Region.fromLastStart Entry.isStart t with
      | none => rfl
      | some r =>
        rw [hf] at hopen'
        have : r.find? Entry.isEnd = none := by simpa using hopen'
        simp [this]
    rw [hi, show UInt64.ofNat 0 = 0 from rfl] at hopen
    simp only [if_true, h0, hl]
    grind

/-- Over every complete run, however it is divided into `step` calls: the region's
instruction count and `mpki` describe the last region if and only if both markers miss
equally much of their batches, up to drift, and the miss count is zero or the whole run
counts the same number of instructions as the window. -/
theorem figures_right_iff (arch : Arch) (kind : BranchPredictorKind) (es : List Event) (h : Hart)
    (hrun : (Hart.new arch true kind).run es = some h) (hdone : h.n = 0) :
    ∃ r, h.proc.report = some r ∧
      (FiguresRight ((Hart.new arch true kind).trail es) r ↔
        WindowCounted ((Hart.new arch true kind).trail es) ∧
        RunIsWindow kind ((Hart.new arch true kind).trail es)) := by
  obtain ⟨ha, ht⟩ := run_accounts hrun
  generalize (Hart.new arch true kind).trail es = t at ha ht ⊢
  refine ⟨_, by simp only [Processor.report, ha.stats]; rfl, ?_⟩
  have hroi := report_roiInstructions ha hdone
  have hcount : (UInt64.ofNat (retiredIn (window t)) + driftIn (window t) + lagAtStart t -
      lagAtEnd t).toNat = retiredIn (window t) ↔ WindowCounted t := by
    rw [toNat_eq_iff, WindowCounted]
    constructor
    · rintro ⟨hlt, heq⟩
      exact ⟨hlt, by grind⟩
    · rintro ⟨hlt, heq⟩
      exact ⟨hlt, by grind⟩
  have hmiss : h.proc.perceptronMispredictions =
      Processor.freshMisses kind (Processor.roiBranches (t.filterMap (·.event))) :=
    ht.misses.trans (Processor.freshMisses_eq kind _).symm
  have hmin : h.proc.minstret = UInt64.ofNat (retiredIn t) + driftIn t := by
    have := ha.total
    rw [ha.idle hdone] at this
    simpa using this
  unfold FiguresRight
  dsimp only
  rw [hroi, hcount]
  apply and_congr_right
  intro hw
  have hzero : h.proc.minstret = 0 ↔ h.proc.minstret.toNat = 0 := by
    rw [← UInt64.toNat_inj]
    rfl
  simp only [hzero]
  rw [quotient_eq_iff, RunIsWindow, hmiss, toNat_eq_iff, hmin]
  exact or_congr_right ⟨fun hc => hc.2, fun hc => ⟨hw.1, hc⟩⟩

/-- A start marker, one instruction that loads the other marker, an end marker. -/
def markedPasses : List Event :=
  [.pass ⟨.modelled .ebreak 0x100073 (bareArch 0 0), true⟩,
    .pass ⟨.other .next (bareArch 0x80000008 2), true⟩,
    .pass ⟨.modelled .ebreak 0x100073 (bareArch 0 0), true⟩]

/-- One instruction a call: both readings are exact. -/
theorem figures_right_one_by_one :
    ∃ h r, (Hart.new (bareArch 0x80000000 1) true .tage).run
        (markedPasses.flatMap fun e => [.step 1 none, e]) = some h ∧
      h.proc.report = some r ∧
      FiguresRight ((Hart.new (bareArch 0x80000000 1) true .tage).trail
        (markedPasses.flatMap fun e => [.step 1 none, e])) r := by
  obtain ⟨r, hr, hiff⟩ := figures_right_iff (bareArch 0x80000000 1) .tage
    (markedPasses.flatMap fun e => [.step 1 none, e]) _ rfl rfl
  exact ⟨_, r, rfl, hr, hiff.mpr ⟨⟨by decide, by decide⟩, .inl rfl⟩⟩

/-- The same three instructions in one call: both markers read zero, and the two
instructions of the region are lost. -/
theorem figures_wrong_in_one_batch :
    ∃ h r, (Hart.new (bareArch 0x80000000 1) true .tage).run
        (.step 3 none :: markedPasses) = some h ∧ h.n = 0 ∧ h.proc.report = some r ∧
      ¬ FiguresRight ((Hart.new (bareArch 0x80000000 1) true .tage).trail
        (.step 3 none :: markedPasses)) r :=
  ⟨_, _, rfl, rfl, rfl, fun hf => absurd hf.1 (by decide)⟩

end PerceptronSoc.Hart
