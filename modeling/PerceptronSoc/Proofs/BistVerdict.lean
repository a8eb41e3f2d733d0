import PerceptronSoc.Proofs.BistResult

/-! What the first result of the self test says. Up to the cycle that shows it, every word
of every pattern before the present one, and every word below the present address, has been
written or compared once, in order; the log of these events has a closed form, and the
result is a pass exactly when the log is that of all patterns. -/

namespace PerceptronSoc

def Pattern.word {α : Type*} (data0 data1 : α) : Pattern → α
  | .w0 => data0
  | .w1 => data1
  | .r0 => data0
  | .r1 => data1

namespace SramBist

/-- A word written in a cycle, or compared in it: the address and write enable are then
those of the cycle before. `ctr` is the number of the pattern. -/
inductive Event (b : SramBist) where
  | write (ctr addr : ℕ) (din : BitVec b.dataWidth)
  | check (ctr addr : ℕ) (we : Bool) (dout expected : BitVec b.dataWidth)
deriving DecidableEq

variable {b : SramBist}

def eventAt (ins : ℕ → b.Inputs) (k : ℕ) : Option b.Event :=
  let r := regsAt ins k
  let o := outputs r (ins k)
  let before := outputs (regsAt ins (k - 1)) (ins (k - 1))
  if o.we then some (.write r.ctr o.addr o.din)
  else if (pattern r).any Pattern.isRead && r.checkNext then
    some (.check r.ctr before.addr before.we (ins k).dout r.expReg)
  else none

/-- The events before cycle `k`. -/
def events (ins : ℕ → b.Inputs) (k : ℕ) : List b.Event := (List.range k).filterMap (eventAt ins)

/-- The comparisons of pattern `ctr`: address, write enable, word and expected word. -/
def checksOf (ctr : ℕ) (log : List b.Event) :
    List (ℕ × Bool × BitVec b.dataWidth × BitVec b.dataWidth) :=
  log.filterMap fun
    | .check c addr we dout expected => if c = ctr then some (addr, we, dout, expected) else none
    | .write .. => none

def writesOf (ctr : ℕ) (log : List b.Event) : List (ℕ × BitVec b.dataWidth) :=
  log.filterMap fun
    | .write c addr din => if c = ctr then some (addr, din) else none
    | .check .. => none

def cycles (b : SramBist) (p : Pattern) : ℕ := if p.isRead then b.numWords + 1 else b.numWords

def startOf (b : SramBist) (ctr : ℕ) : ℕ := ((b.patterns.take ctr).map b.cycles).sum

def goodEvent (data0 data1 : BitVec b.dataWidth) (ctr : ℕ) (p : Pattern) (addr : ℕ) : b.Event :=
  if p.isRead then .check ctr addr false (p.word data0 data1) (p.word data0 data1)
  else .write ctr addr (p.word data0 data1)

/-- The first `n` words of pattern `ctr`. -/
def passLog (data0 data1 : BitVec b.dataWidth) (ctr n : ℕ) : List b.Event :=
  match b.patterns[ctr]? with
  | some p => (List.range n).map (goodEvent data0 data1 ctr p)
  | none => []

/-- All patterns before `ctr` and the first `n` words of that. -/
def logUpTo (data0 data1 : BitVec b.dataWidth) (ctr n : ℕ) : List b.Event :=
  (List.range ctr).flatMap (fun c => passLog data0 data1 c b.numWords) ++ passLog data0 data1 ctr n

variable {ins : ℕ → b.Inputs} {data0 data1 : BitVec b.dataWidth} {k : ℕ} {p : Pattern}

/-- The registers after a word that was written or found right. -/
def finish (r : b.Regs) : b.Regs :=
  if lastAddr r then
    if lastPat r then
      { r with addrCnt := 0, checkNext := false, doneReg := true, failReg := false }
    else { r with addrCnt := 0, checkNext := false, ctr := nextCtr r }
  else { r with addrCnt := nextAddr r }

theorem write_eq_finish {r : b.Regs} (h : r.checkNext = false) : write r = finish r := by
  unfold write finish
  split_ifs
  · rw [← h]
  · rw [← h]
  · rfl

theorem read_eq_finish {r : b.Regs} {dout data : BitVec b.dataWidth} (h : r.checkNext = true)
    (hd : dout = r.expReg) : read r dout data = finish r := by
  unfold read finish
  simp [h, hd]

theorem step_of_write {r : b.Regs} {i : b.Inputs} (hp : pattern r = some p)
    (hw : p.isRead = false) : step r i = write r := by
  unfold step
  cases p with
  | w0 => rw [hp]
  | w1 => rw [hp]
  | r0 => cases hw
  | r1 => cases hw

theorem step_of_read {r : b.Regs} {i : b.Inputs} (hp : pattern r = some p)
    (hr : p.isRead = true) : step r i = read r i.dout (p.word i.data0 i.data1) := by
  unfold step
  cases p with
  | w0 => cases hr
  | w1 => cases hr
  | r0 => rw [hp]; rfl
  | r1 => rw [hp]; rfl

theorem outputs_of_write {r : b.Regs} {i : b.Inputs} (hp : pattern r = some p)
    (hw : p.isRead = false) : (outputs r i).we = true ∧ (outputs r i).addr = r.addrCnt ∧
      (outputs r i).din = p.word i.data0 i.data1 := by
  unfold outputs
  cases p with
  | w0 => rw [hp]; exact ⟨rfl, rfl, rfl⟩
  | w1 => rw [hp]; exact ⟨rfl, rfl, rfl⟩
  | r0 => cases hw
  | r1 => cases hw

theorem outputs_of_read {r : b.Regs} {i : b.Inputs} (hp : pattern r = some p)
    (hr : p.isRead = true) : (outputs r i).we = false ∧
      (outputs r i).addr = readAddr r i.dout := by
  unfold outputs
  cases p with
  | w0 => cases hr
  | w1 => cases hr
  | r0 => rw [hp]; exact ⟨rfl, rfl⟩
  | r1 => rw [hp]; exact ⟨rfl, rfl⟩

theorem regsAt_succ (ins : ℕ → b.Inputs) (k : ℕ) :
    regsAt ins (k + 1) = step (regsAt ins k) (ins k) := rfl

theorem events_succ (ins : ℕ → b.Inputs) (k : ℕ) :
    events ins (k + 1) = events ins k ++ (eventAt ins k).toList := by
  unfold events
  rw [List.range_succ, List.filterMap_append]
  cases h : eventAt ins k <;> simp [h]

theorem passLog_eq (hp : b.patterns[k]? = some p) (n : ℕ) :
    passLog data0 data1 k n = (List.range n).map (goodEvent data0 data1 k p) := by
  unfold passLog
  rw [hp]

theorem logUpTo_succ (hp : b.patterns[k]? = some p) (n : ℕ) :
    logUpTo data0 data1 k (n + 1) =
      logUpTo data0 data1 k n ++ [goodEvent data0 data1 k p n] := by
  unfold logUpTo
  rw [passLog_eq hp, passLog_eq hp, List.range_succ, List.map_append, List.append_assoc]
  rfl

theorem logUpTo_zero (ctr : ℕ) : logUpTo data0 data1 (ctr + 1) 0 =
    logUpTo data0 data1 ctr b.numWords := by
  unfold logUpTo
  have hnil : passLog data0 data1 (ctr + 1) 0 = ([] : List b.Event) := by
    unfold passLog
    split <;> rfl
  rw [hnil, List.range_succ, List.flatMap_append, List.append_nil, List.flatMap_singleton]

theorem startOf_succ (hp : b.patterns[k]? = some p) :
    b.startOf (k + 1) = b.startOf k + b.cycles p := by
  unfold startOf
  rw [List.take_add_one, hp, List.map_append, List.sum_append]
  simp

/-- The state of a test that has not ended: what is logged, how long it took, and which
word the next comparison is about. -/
structure Running (ins : ℕ → b.Inputs) (data0 data1 : BitVec b.dataWidth) (k : ℕ) : Prop where
  notDone : (regsAt ins k).doneReg = false
  time : k = b.startOf (regsAt ins k).ctr + (regsAt ins k).addrCnt +
    if (regsAt ins k).checkNext then 1 else 0
  log : events ins k = logUpTo data0 data1 (regsAt ins k).ctr (regsAt ins k).addrCnt
  checking : (regsAt ins k).checkNext = true → ∃ p, pattern (regsAt ins k) = some p ∧
    p.isRead = true ∧ (regsAt ins k).expReg = p.word data0 data1 ∧
    (outputs (regsAt ins (k - 1)) (ins (k - 1))).addr = (regsAt ins k).addrCnt ∧
    (outputs (regsAt ins (k - 1)) (ins (k - 1))).we = false
  fresh : (regsAt ins k).checkNext = false → ∀ p, pattern (regsAt ins k) = some p →
    p.isRead = true → (regsAt ins k).addrCnt = 0

/-- What a cycle of a running test does: it drives the first address of a read pattern, or
deals with a word, which may be wrong. -/
inductive Cycle (ins : ℕ → b.Inputs) (data0 data1 : BitVec b.dataWidth) (k : ℕ) : Prop where
  | opens (p : Pattern) (hp : pattern (regsAt ins k) = some p) (hr : p.isRead = true)
      (hcheck : (regsAt ins k).checkNext = false)
      (hstep : regsAt ins (k + 1) =
        { regsAt ins k with expReg := p.word data0 data1, checkNext := true })
      (hevent : eventAt ins k = none)
  | good (p : Pattern) (hp : pattern (regsAt ins k) = some p)
      (hread : p.isRead = (regsAt ins k).checkNext)
      (hdout : p.isRead = true → (ins k).dout = p.word data0 data1)
      (hstep : regsAt ins (k + 1) = finish (regsAt ins k))
      (hevent : eventAt ins k =
        some (goodEvent data0 data1 (regsAt ins k).ctr p (regsAt ins k).addrCnt))
  | bad (p : Pattern) (hp : pattern (regsAt ins k) = some p) (hr : p.isRead = true)
      (hcheck : (regsAt ins k).checkNext = true)
      (hdout : (ins k).dout ≠ p.word data0 data1)
      (hstep : regsAt ins (k + 1) = { regsAt ins k with doneReg := true, failReg := true })
      (hevent : eventAt ins k = some (.check (regsAt ins k).ctr (regsAt ins k).addrCnt false
        (ins k).dout (p.word data0 data1)))

theorem exists_pattern (ins : ℕ → b.Inputs) (k : ℕ) : ∃ p, pattern (regsAt ins k) = some p :=
  ⟨_, List.getElem?_eq_getElem (regsAt_inBounds ins k).ctr⟩

theorem Running.cycle (h : Running ins data0 data1 k)
    (hdata : ∀ k, (ins k).data0 = data0 ∧ (ins k).data1 = data1) :
    Cycle ins data0 data1 k := by
  obtain ⟨p, hp⟩ := exists_pattern ins k
  have hword : p.word (ins k).data0 (ins k).data1 = p.word data0 data1 := by
    rw [(hdata k).1, (hdata k).2]
  cases hr : p.isRead with
  | false =>
    have hcheck : (regsAt ins k).checkNext = false := by
      by_contra hne
      obtain ⟨p', hp', hr', -⟩ := h.checking (by simpa using hne)
      rw [hp, Option.some.injEq] at hp'
      rw [← hp', hr] at hr'
      cases hr'
    obtain ⟨hwe, haddr, hdin⟩ := outputs_of_write (i := ins k) hp hr
    refine .good p hp (by rw [hr, hcheck]) (by rw [hr]; exact fun h => absurd h Bool.false_ne_true)
      ?_ ?_
    · rw [regsAt_succ, step_of_write hp hr, write_eq_finish hcheck]
    · unfold eventAt goodEvent
      simp only [hwe, haddr, hdin, hword, hr, if_true, Bool.false_eq_true, if_false]
  | true =>
    have hwe := (outputs_of_read (i := ins k) hp hr).1
    have hstep : regsAt ins (k + 1) = read (regsAt ins k) (ins k).dout (p.word data0 data1) := by
      rw [regsAt_succ, step_of_read hp hr, hword]
    cases hcheck : (regsAt ins k).checkNext with
    | false =>
      refine .opens p hp hr hcheck ?_ ?_
      · rw [hstep]
        simp [read, hcheck]
      · unfold eventAt
        simp [hwe, hcheck]
    | true =>
      obtain ⟨p', hp', -, hexp, haddr, hbefore⟩ := h.checking hcheck
      obtain rfl : p = p' := by
        rw [hp] at hp'
        exact Option.some.inj hp'
      have hevent : eventAt ins k = some (.check (regsAt ins k).ctr (regsAt ins k).addrCnt false
          (ins k).dout (p.word data0 data1)) := by
        unfold eventAt
        simp [hwe, hp, hr, hcheck, haddr, hbefore, hexp]
      by_cases hd : (ins k).dout = p.word data0 data1
      · refine .good p hp (by rw [hr, hcheck]) (fun _ => hd) ?_ ?_
        · rw [hstep, read_eq_finish hcheck (hd.trans hexp.symm)]
        · rw [hevent, hd]
          simp [goodEvent, hr]
      · refine .bad p hp hr hcheck hd ?_ hevent
        rw [hstep]
        simp [read, hcheck, hexp, hd]

structure Passed (ins : ℕ → b.Inputs) (data0 data1 : BitVec b.dataWidth) (k : ℕ) : Prop where
  done : (regsAt ins k).doneReg = true
  pass : (regsAt ins k).failReg = false
  time : k = b.startOf b.patterns.length
  log : events ins k = logUpTo data0 data1 b.patterns.length 0

structure Failed (ins : ℕ → b.Inputs) (data0 data1 : BitVec b.dataWidth) (k : ℕ) : Prop where
  done : (regsAt ins k).doneReg = true
  failed : (regsAt ins k).failReg = true
  log : ∃ addr p dout, pattern (regsAt ins k) = some p ∧ p.isRead = true ∧
    dout ≠ p.word data0 data1 ∧
    events ins k = logUpTo data0 data1 (regsAt ins k).ctr addr ++
      [.check (regsAt ins k).ctr addr false dout (p.word data0 data1)]

/-- Where the test is after a word: at the next word, at the next pattern or at its end. -/
theorem finish_cases {r : b.Regs} (h : InBounds r) :
    (r.addrCnt + 1 < b.numWords ∧ finish r = { r with addrCnt := r.addrCnt + 1 }) ∨
    (r.addrCnt + 1 = b.numWords ∧
      finish r = { r with ctr := r.ctr + 1, addrCnt := 0, checkNext := false }) ∨
    (r.addrCnt + 1 = b.numWords ∧ r.ctr + 1 = b.patterns.length ∧
      finish r = { r with addrCnt := 0, checkNext := false, doneReg := true, failReg := false }) := by
  obtain ⟨hctr, haddr⟩ := h
  unfold finish
  by_cases hla : r.addrCnt = b.numWords - 1
  · have hlast : lastAddr r = true := by simpa [lastAddr] using hla
    rw [if_pos hlast]
    refine .inr ?_
    by_cases hlp : r.ctr = b.patterns.length - 1
    · have hlast : lastPat r = true := by simpa [lastPat] using hlp
      rw [if_pos hlast]
      exact .inr ⟨by omega, by omega, rfl⟩
    · have hlast : ¬ lastPat r = true := by simpa [lastPat] using hlp
      have hnext : nextCtr r = r.ctr + 1 := Nat.mod_eq_of_lt
        ((by omega : r.ctr + 1 < b.patterns.length).trans_le
          ((le_max_left _ 1).trans (Nat.le_pow_clog (by norm_num) _)))
      rw [if_neg hlast, hnext]
      exact .inl ⟨by omega, rfl⟩
  · have hlast : ¬ lastAddr r = true := by simpa [lastAddr] using hla
    have hnext : nextAddr r = r.addrCnt + 1 := Nat.mod_eq_of_lt
      ((by omega : r.addrCnt + 1 < b.numWords).trans_le (Nat.le_pow_clog (by norm_num) _))
    rw [if_neg hlast, hnext]
    exact .inl ⟨by omega, rfl⟩

theorem readAddr_of_good {r : b.Regs} {dout : BitVec b.dataWidth} (hcheck : r.checkNext = true)
    (hd : dout = r.expReg) (h : r.addrCnt + 1 < b.numWords) : readAddr r dout = r.addrCnt + 1 := by
  have hlast : lastAddr r = false := by
    simp only [lastAddr, decide_eq_false_iff_not]
    omega
  unfold readAddr
  rw [hcheck, hlast, hd]
  simp only [decide_true, Bool.and_self, Bool.not_false, if_true]
  exact Nat.mod_eq_of_lt (h.trans_le (Nat.le_pow_clog (by norm_num) _))

theorem running_zero (ins : ℕ → b.Inputs) (data0 data1 : BitVec b.dataWidth) :
    Running ins data0 data1 0 := by
  refine ⟨rfl, rfl, ?_, fun h => absurd h Bool.false_ne_true, fun _ _ _ _ => rfl⟩
  change [] = passLog data0 data1 0 0
  unfold passLog
  split <;> rfl

theorem Running.next_word (h : Running ins data0 data1 k)
    (hp : pattern (regsAt ins k) = some p) (hread : p.isRead = (regsAt ins k).checkNext)
    (hlt : (regsAt ins k).addrCnt + 1 < b.numWords)
    (hstep : regsAt ins (k + 1) = { regsAt ins k with addrCnt := (regsAt ins k).addrCnt + 1 })
    (hlog : events ins (k + 1) =
      logUpTo data0 data1 (regsAt ins k).ctr ((regsAt ins k).addrCnt + 1))
    (hdout : p.isRead = true → (ins k).dout = p.word data0 data1) :
    Running ins data0 data1 (k + 1) := by
  have htime := h.time
  refine ⟨?_, ?_, ?_, fun hcheck => ?_, fun hcheck p' hp' hr' => ?_⟩
  · rw [hstep]
    exact h.notDone
  · rw [hstep]
    simp only
    omega
  · rw [hlog, hstep]
  · -- the next address of the pattern was driven while this word was checked
    rw [hstep] at hcheck ⊢
    change (regsAt ins k).checkNext = true at hcheck
    obtain ⟨p', hp', hr', hexp, -⟩ := h.checking hcheck
    obtain rfl : p = p' := Option.some.inj (hp.symm.trans hp')
    obtain ⟨hwe, haddr⟩ := outputs_of_read (i := ins k) hp' hr'
    refine ⟨p, hp', hr', hexp, ?_, hwe⟩
    rw [Nat.add_sub_cancel, haddr, readAddr_of_good hcheck ((hdout hr').trans hexp.symm) hlt]
  · rw [hstep] at hcheck hp'
    obtain rfl : p = p' := Option.some.inj (hp.symm.trans hp')
    rw [hr'] at hread
    exact absurd (hread.trans hcheck) (by decide)

theorem Running.next_pattern (h : Running ins data0 data1 k)
    (hstep : regsAt ins (k + 1) =
      { regsAt ins k with ctr := (regsAt ins k).ctr + 1, addrCnt := 0, checkNext := false })
    (htime : k + 1 = b.startOf ((regsAt ins k).ctr + 1))
    (hlog : events ins (k + 1) = logUpTo data0 data1 ((regsAt ins k).ctr + 1) 0) :
    Running ins data0 data1 (k + 1) := by
  refine ⟨?_, ?_, ?_, fun hcheck => ?_, fun _ _ _ _ => ?_⟩
  · rw [hstep]
    exact h.notDone
  · rw [hstep]
    exact htime
  · rw [hlog, hstep]
  · rw [hstep] at hcheck
    cases hcheck
  · rw [hstep]

/-- A word that was written or found right moves the test on, or ends it. -/
theorem Running.good (h : Running ins data0 data1 k)
    (hp : pattern (regsAt ins k) = some p) (hread : p.isRead = (regsAt ins k).checkNext)
    (hstep : regsAt ins (k + 1) = finish (regsAt ins k))
    (hevent : eventAt ins k =
      some (goodEvent data0 data1 (regsAt ins k).ctr p (regsAt ins k).addrCnt))
    (hdout : p.isRead = true → (ins k).dout = p.word data0 data1) :
    Running ins data0 data1 (k + 1) ∨ Passed ins data0 data1 (k + 1) := by
  have hin := regsAt_inBounds ins k
  have hlog : events ins (k + 1) =
      logUpTo data0 data1 (regsAt ins k).ctr ((regsAt ins k).addrCnt + 1) := by
    rw [events_succ, h.log, hevent, logUpTo_succ hp]
    rfl
  have htime := h.time
  have hcycles : b.startOf ((regsAt ins k).ctr + 1) = b.startOf (regsAt ins k).ctr +
      b.numWords + if (regsAt ins k).checkNext then 1 else 0 := by
    rw [startOf_succ hp, cycles, hread]
    split_ifs <;> omega
  obtain ⟨hlt, hfinish⟩ | ⟨hlast, hfinish⟩ | ⟨hlast, hctr, hfinish⟩ := finish_cases hin
  · exact .inl (h.next_word hp hread hlt (hstep.trans hfinish) hlog hdout)
  · rw [hlast, ← logUpTo_zero] at hlog
    exact .inl (h.next_pattern (hstep.trans hfinish) (by omega) hlog)
  · rw [hfinish] at hstep
    rw [hlast, ← logUpTo_zero, hctr] at hlog
    rw [hctr] at hcycles
    refine .inr ⟨?_, ?_, by omega, hlog⟩
    · rw [hstep]
    · rw [hstep]

/-- A running test goes on running, or ends. -/
theorem Running.next (h : Running ins data0 data1 k)
    (hdata : ∀ k, (ins k).data0 = data0 ∧ (ins k).data1 = data1) :
    Running ins data0 data1 (k + 1) ∨ Passed ins data0 data1 (k + 1) ∨
      Failed ins data0 data1 (k + 1) := by
  cases h.cycle hdata with
  | opens p hp hr hcheck hstep hevent =>
    have hzero := h.fresh hcheck p hp hr
    have htime := h.time
    rw [hcheck] at htime
    obtain ⟨hwe, haddr⟩ := outputs_of_read (i := ins k) hp hr
    refine .inl ⟨?_, ?_, ?_, fun _ => ⟨p, ?_, hr, ?_, ?_, hwe⟩, fun hno => ?_⟩
    · rw [hstep]
      exact h.notDone
    · rw [hstep]
      simp only [if_true]
      simpa using htime
    · rw [events_succ, hevent, h.log, hstep]
      exact List.append_nil _
    · rw [hstep]
      exact hp
    · rw [hstep]
    · rw [hstep, Nat.add_sub_cancel, haddr, readAddr, hcheck]
      rfl
    · rw [hstep] at hno
      cases hno
  | good p hp hread hdout hstep hevent =>
    obtain hrun | hpass := h.good hp hread hstep hevent hdout
    · exact .inl hrun
    · exact .inr (.inl hpass)
  | bad p hp hr hcheck hdout hstep hevent =>
    refine .inr (.inr ⟨?_, ?_, (regsAt ins k).addrCnt, p, (ins k).dout, ?_, hr, hdout, ?_⟩)
    · rw [hstep]
    · rw [hstep]
    · rw [hstep]
      exact hp
    · rw [events_succ, hevent, h.log, hstep]
      rfl

theorem not_done_of_succ (hnot : (regsAt ins (k + 1)).doneReg = false) :
    (regsAt ins k).doneReg = false := by
  by_contra hne
  rw [regsAt_succ, step_doneReg _ _ (by simpa using hne)] at hnot
  cases hnot

/-- Up to the first result the test is running. -/
theorem running_of_not_done (hdata : ∀ k, (ins k).data0 = data0 ∧ (ins k).data1 = data1)
    (hnot : (regsAt ins k).doneReg = false) : Running ins data0 data1 k := by
  induction k with
  | zero => exact running_zero ins data0 data1
  | succ k ih =>
    obtain hrun | hpass | hfail := (ih (not_done_of_succ hnot)).next hdata
    · exact hrun
    · rw [hpass.done] at hnot
      cases hnot
    · rw [hfail.done] at hnot
      cases hnot

/-- The first result is a pass or a failure. -/
theorem first_result (hdata : ∀ k, (ins k).data0 = data0 ∧ (ins k).data1 = data1)
    (hdone : (regsAt ins k).doneReg = true) (hfirst : ∀ j < k, (regsAt ins j).doneReg = false) :
    Passed ins data0 data1 k ∨ Failed ins data0 data1 k := by
  cases k with
  | zero => cases hdone
  | succ k =>
    obtain hrun | hend := (running_of_not_done hdata (hfirst k k.lt_succ_self)).next hdata
    · rw [hrun.notDone] at hdone
      cases hdone
    · exact hend

def Event.ctr : b.Event → ℕ
  | .write ctr _ _ => ctr
  | .check ctr _ _ _ _ => ctr

theorem ctr_of_mem_passLog {ctr n : ℕ} {e : b.Event} (h : e ∈ passLog data0 data1 ctr n) :
    e.ctr = ctr := by
  unfold passLog at h
  split at h
  · obtain ⟨a, -, rfl⟩ := List.mem_map.mp h
    unfold goodEvent
    split_ifs <;> rfl
  · simp at h

/-- What a pattern's own events say, read off the log of all. -/
theorem filterMap_logUpTo {γ : Type*} {f : b.Event → Option γ} {c : ℕ}
    (hf : ∀ e : b.Event, e.ctr ≠ c → f e = none) (ctr n : ℕ) :
    (logUpTo data0 data1 ctr n).filterMap f =
      if c < ctr then (passLog data0 data1 c b.numWords).filterMap f
      else if c = ctr then (passLog data0 data1 c n).filterMap f else [] := by
  have hother : ∀ c' n, c' ≠ c → (passLog data0 data1 c' n).filterMap f = [] := by
    intro c' n hne
    rw [List.filterMap_eq_nil_iff]
    intro e he
    exact hf e (by rw [ctr_of_mem_passLog he]; exact hne)
  have hbefore : ∀ ctr, ((List.range ctr).flatMap fun c =>
      passLog data0 data1 c b.numWords).filterMap f =
        if c < ctr then (passLog data0 data1 c b.numWords).filterMap f else [] := by
    intro ctr
    induction ctr with
    | zero => rfl
    | succ ctr ih =>
      rw [List.range_succ, List.flatMap_append, List.filterMap_append, ih, List.flatMap_singleton]
      obtain hlt | rfl | hgt := lt_trichotomy c ctr
      · rw [if_pos hlt, if_pos (by omega), hother ctr _ hlt.ne', List.append_nil]
      · rw [if_neg (lt_irrefl c), if_pos c.lt_succ_self, List.nil_append]
      · rw [if_neg (by omega), if_neg (by omega), hother ctr _ hgt.ne, List.append_nil]
  unfold logUpTo
  rw [List.filterMap_append, hbefore]
  obtain hlt | rfl | hgt := lt_trichotomy c ctr
  · rw [if_pos hlt, if_pos hlt, hother ctr _ hlt.ne', List.append_nil]
  · rw [if_neg (lt_irrefl c), if_neg (lt_irrefl c), if_pos rfl, List.nil_append]
  · rw [if_neg (by omega), if_neg (by omega), if_neg hgt.ne', hother ctr _ hgt.ne,
      List.append_nil]

/-- What is to be seen of a read pattern: every address once, in order, each read with the
write enable low and found to hold the pattern's word. -/
def allChecked (b : SramBist) (word : BitVec b.dataWidth) :
    List (ℕ × Bool × BitVec b.dataWidth × BitVec b.dataWidth) :=
  (List.range b.numWords).map fun addr => (addr, false, word, word)

/-- And of a write pattern: its word to every address, once, in order. -/
def allWritten (b : SramBist) (word : BitVec b.dataWidth) : List (ℕ × BitVec b.dataWidth) :=
  (List.range b.numWords).map fun addr => (addr, word)

theorem checksOf_logUpTo {c : ℕ} (hp : b.patterns[c]? = some p) (hr : p.isRead = true) {ctr : ℕ}
    (hlt : c < ctr) (n : ℕ) :
    checksOf c (logUpTo data0 data1 ctr n) = b.allChecked (p.word data0 data1) := by
  have hf : ∀ e : b.Event, e.ctr ≠ c → (match e with
      | .check c' addr we dout expected => if c' = c then some (addr, we, dout, expected) else none
      | .write .. => none) = none := by
    intro e hne
    cases e with
    | write => rfl
    | check c' _ _ _ _ => exact if_neg hne
  unfold checksOf allChecked
  rw [filterMap_logUpTo hf, if_pos hlt, passLog_eq hp, List.filterMap_map,
    List.filterMap_eq_map_iff_forall_eq_some]
  intro a _
  simp [goodEvent, hr]

theorem writesOf_logUpTo {c : ℕ} (hp : b.patterns[c]? = some p) (hw : p.isRead = false)
    {ctr : ℕ} (hne : c ≠ ctr) (n : ℕ) :
    writesOf c (logUpTo data0 data1 ctr n) =
      if c < ctr then b.allWritten (p.word data0 data1) else [] := by
  have hf : ∀ e : b.Event, e.ctr ≠ c → (match e with
      | .write c' addr din => if c' = c then some (addr, din) else none
      | .check .. => none) = none := by
    intro e hne
    cases e with
    | check => rfl
    | write c' _ _ => exact if_neg hne
  unfold writesOf allWritten
  rw [filterMap_logUpTo hf, if_neg hne, passLog_eq hp, List.filterMap_map]
  refine if_congr Iff.rfl ?_ rfl
  rw [List.filterMap_eq_map_iff_forall_eq_some]
  intro a _
  simp [goodEvent, hw]

theorem Passed.checks (h : Passed ins data0 data1 k) {c : ℕ} (hp : b.patterns[c]? = some p)
    (hr : p.isRead = true) :
    checksOf c (events ins k) = b.allChecked (p.word data0 data1) := by
  rw [h.log]
  exact checksOf_logUpTo hp hr (List.getElem?_eq_some_iff.mp hp).1 0

theorem Failed.checks (h : Failed ins data0 data1 k) : ∃ c p, b.patterns[c]? = some p ∧
    p.isRead = true ∧ checksOf c (events ins k) ≠ b.allChecked (p.word data0 data1) := by
  obtain ⟨addr, p, dout, hp, hr, hne, hlog⟩ := h.log
  refine ⟨(regsAt ins k).ctr, p, hp, hr, fun heq => ?_⟩
  have hmem : (addr, false, dout, p.word data0 data1) ∈
      checksOf (regsAt ins k).ctr (events ins k) := by
    unfold checksOf
    rw [hlog, List.filterMap_append, List.mem_append]
    exact .inr (by simp)
  rw [heq] at hmem
  obtain ⟨a, -, ha⟩ := List.mem_map.mp hmem
  exact hne (congrArg (fun x => x.2.2.1) ha).symm

theorem Passed.writes (h : Passed ins data0 data1 k) {c : ℕ} (hp : b.patterns[c]? = some p)
    (hw : p.isRead = false) : writesOf c (events ins k) = b.allWritten (p.word data0 data1) := by
  have hlt := (List.getElem?_eq_some_iff.mp hp).1
  rw [h.log, writesOf_logUpTo hp hw hlt.ne, if_pos hlt]

/-- The write patterns before the one that failed are through, those after it have not begun. -/
theorem Failed.writes (h : Failed ins data0 data1 k) {c : ℕ} (hp : b.patterns[c]? = some p)
    (hw : p.isRead = false) : writesOf c (events ins k) =
      if c < (regsAt ins k).ctr then b.allWritten (p.word data0 data1) else [] := by
  obtain ⟨addr, p', dout, hp', hr', -, hlog⟩ := h.log
  have hne : c ≠ (regsAt ins k).ctr := by
    rintro rfl
    obtain rfl : p = p' := Option.some.inj (hp.symm.trans hp')
    rw [hw] at hr'
    cases hr'
  have hwrites : writesOf c (events ins k) =
      writesOf c (logUpTo data0 data1 (regsAt ins k).ctr addr) := by
    unfold writesOf
    rw [hlog, List.filterMap_append]
    exact List.append_nil _
  rw [hwrites, writesOf_logUpTo hp hw hne]

def contents (mem : ℕ → BitVec b.dataWidth) (data0 data1 : BitVec b.dataWidth) :
    ℕ → ℕ → BitVec b.dataWidth
  | 0 => mem
  | ctr + 1 =>
    match b.patterns[ctr]? with
    | some .w0 => fun _ => data0
    | some .w1 => fun _ => data1
    | _ => contents mem data0 data1 ctr

def Consistent (mem : ℕ → BitVec b.dataWidth) (data0 data1 : BitVec b.dataWidth) : Prop :=
  ∀ ctr p, b.patterns[ctr]? = some p → p.isRead = true →
    ∀ addr < b.numWords, contents mem data0 data1 ctr addr = p.word data0 data1

def held (mem : ℕ → BitVec b.dataWidth) (data0 data1 : BitVec b.dataWidth) (ctr n addr : ℕ) :
    BitVec b.dataWidth :=
  if addr < n then contents mem data0 data1 (ctr + 1) addr else contents mem data0 data1 ctr addr

variable {mem : ℕ → BitVec b.dataWidth}

theorem contents_of_read {ctr : ℕ} (hp : b.patterns[ctr]? = some p) (hr : p.isRead = true) :
    contents mem data0 data1 (ctr + 1) = contents mem data0 data1 ctr := by
  rw [contents]
  cases p with
  | w0 => cases hr
  | w1 => cases hr
  | r0 => rw [hp]
  | r1 => rw [hp]

theorem contents_of_write {ctr : ℕ} (hp : b.patterns[ctr]? = some p) (hw : p.isRead = false)
    (addr : ℕ) : contents mem data0 data1 (ctr + 1) addr = p.word data0 data1 := by
  rw [contents]
  cases p with
  | w0 => rw [hp]; rfl
  | w1 => rw [hp]; rfl
  | r0 => cases hw
  | r1 => cases hw

theorem held_of_read {ctr : ℕ} (hp : b.patterns[ctr]? = some p) (hr : p.isRead = true)
    (n addr : ℕ) : held mem data0 data1 ctr n addr = contents mem data0 data1 ctr addr := by
  unfold held
  rw [contents_of_read hp hr, ite_self]

/-- The memory and the words already compared, in a running test. -/
structure Remembers (mem : ℕ → BitVec b.dataWidth) (ins : ℕ → b.Inputs)
    (data0 data1 : BitVec b.dataWidth) (k ctr n : ℕ) : Prop where
  memory : ∀ addr < b.numWords, memAt mem ins k addr = held mem data0 data1 ctr n addr
  right : ∀ c p, b.patterns[c]? = some p → p.isRead = true →
    ∀ addr < b.numWords, c < ctr ∨ c = ctr ∧ addr < n →
      contents mem data0 data1 c addr = p.word data0 data1

theorem Remembers.next_pattern {ctr : ℕ}
    (h : Remembers mem ins data0 data1 k ctr b.numWords) :
    Remembers mem ins data0 data1 k (ctr + 1) 0 := by
  refine ⟨fun addr ha => ?_, fun c p hp hr addr ha hbefore => h.right c p hp hr addr ha (by omega)⟩
  rw [h.memory addr ha]
  unfold held
  rw [if_pos ha, if_neg (Nat.not_lt_zero addr)]

theorem memAt_of_not_we (h : (outputs (regsAt ins k) (ins k)).we = false) :
    memAt mem ins (k + 1) = memAt mem ins k := by
  simp only [memAt, h, Bool.false_eq_true, if_false]

/-- The word compared is the one the memory holds. -/
theorem Running.dout (h : Running ins data0 data1 k) (hfault : FaultFree mem ins)
    (hmem : Remembers mem ins data0 data1 k (regsAt ins k).ctr (regsAt ins k).addrCnt)
    (hcheck : (regsAt ins k).checkNext = true) :
    (ins k).dout = contents mem data0 data1 (regsAt ins k).ctr (regsAt ins k).addrCnt := by
  obtain ⟨p, hp, hr, -, haddr, hwe⟩ := h.checking hcheck
  cases k with
  | zero => cases hcheck
  | succ j =>
    rw [Nat.add_sub_cancel] at haddr hwe
    rw [hfault j hwe, haddr, ← memAt_of_not_we hwe,
      hmem.memory _ (regsAt_inBounds ins (j + 1)).addrCnt, held_of_read hp hr]

/-- A word that was written is held, and one that was found right was held. -/
theorem Remembers.good (hmem : Remembers mem ins data0 data1 k (regsAt ins k).ctr
      (regsAt ins k).addrCnt)
    (hp : pattern (regsAt ins k) = some p)
    (hdata : ∀ k, (ins k).data0 = data0 ∧ (ins k).data1 = data1)
    (hheld : p.isRead = true →
      contents mem data0 data1 (regsAt ins k).ctr (regsAt ins k).addrCnt = p.word data0 data1) :
    Remembers mem ins data0 data1 (k + 1) (regsAt ins k).ctr ((regsAt ins k).addrCnt + 1) := by
  have hword : p.word (ins k).data0 (ins k).data1 = p.word data0 data1 := by
    rw [(hdata k).1, (hdata k).2]
  refine ⟨fun addr ha => ?_, fun c p' hp' hr' addr ha hbefore => ?_⟩
  · cases hr : p.isRead with
    | true =>
      rw [memAt_of_not_we (outputs_of_read hp hr).1, hmem.memory addr ha, held_of_read hp hr,
        held_of_read hp hr]
    | false =>
      obtain ⟨hwe, haddr, hdin⟩ := outputs_of_write (i := ins k) hp hr
      have hwrite : memAt mem ins (k + 1) = Function.update (memAt mem ins k)
          (regsAt ins k).addrCnt (p.word data0 data1) := by
        simp only [memAt, hwe, haddr, hdin, hword, if_true]
      rw [hwrite]
      by_cases heq : addr = (regsAt ins k).addrCnt
      · subst heq
        unfold held
        rw [Function.update_self, if_pos (Nat.lt_succ_self _), contents_of_write hp hr]
      · rw [Function.update_of_ne heq, hmem.memory addr ha]
        unfold held
        exact if_congr (by omega) rfl rfl
  · by_cases heq : c = (regsAt ins k).ctr ∧ addr = (regsAt ins k).addrCnt
    · obtain ⟨rfl, rfl⟩ := heq
      obtain rfl : p = p' := Option.some.inj (hp.symm.trans hp')
      exact hheld hr'
    · exact hmem.right c p' hp' hr' addr ha (by omega)

/-- In front of a memory without faults a running test has read back what was written. -/
theorem remembers_of_running (hdata : ∀ k, (ins k).data0 = data0 ∧ (ins k).data1 = data1)
    (hfault : FaultFree mem ins) (hnot : (regsAt ins k).doneReg = false) :
    Remembers mem ins data0 data1 k (regsAt ins k).ctr (regsAt ins k).addrCnt := by
  induction k with
  | zero =>
    refine ⟨fun addr _ => ?_, fun c p _ _ addr _ h => absurd h (by simp [regsAt, Clocked.stateAt, reset])⟩
    change mem addr = held mem data0 data1 0 0 addr
    unfold held
    rw [if_neg (Nat.not_lt_zero addr)]
    rfl
  | succ k ih =>
    have hk := not_done_of_succ hnot
    have hrun := running_of_not_done hdata hk
    have hmem := ih hk
    cases hrun.cycle hdata with
    | opens p hp hr hcheck hstep hevent =>
      rw [hstep]
      refine ⟨fun addr ha => ?_, hmem.right⟩
      rw [memAt_of_not_we (outputs_of_read hp hr).1]
      exact hmem.memory addr ha
    | good p hp hread hdout hstep hevent =>
      have hnext := hmem.good hp hdata fun hr => by
        rw [← hrun.dout hfault hmem (hread ▸ hr)]
        exact hdout hr
      obtain ⟨-, hfinish⟩ | ⟨hlast, hfinish⟩ | ⟨-, -, hfinish⟩ :=
        finish_cases (regsAt_inBounds ins k)
      · rw [hstep, hfinish]
        exact hnext
      · rw [hlast] at hnext
        rw [hstep, hfinish]
        exact hnext.next_pattern
      · rw [hstep, hfinish] at hnot
        cases hnot
    | bad p hp hr hcheck hdout hstep hevent =>
      rw [hstep] at hnot
      cases hnot

theorem Running.lt_total (h : Running ins data0 data1 k) : k < b.startOf b.patterns.length := by
  have hin := regsAt_inBounds ins k
  obtain ⟨p, hp⟩ := exists_pattern ins k
  have hle : b.startOf ((regsAt ins k).ctr + 1) ≤ b.startOf b.patterns.length := by
    unfold startOf
    rw [List.take_length]
    exact ((List.take_sublist _ _).map _).sum_le_sum fun _ _ => Nat.zero_le _
  have htime := h.time
  have haddr := hin.addrCnt
  rw [startOf_succ hp, cycles] at hle
  cases hcheck : (regsAt ins k).checkNext with
  | false =>
    rw [hcheck, if_neg Bool.false_ne_true] at htime
    split_ifs at hle <;> omega
  | true =>
    obtain ⟨p', hp', hr, -⟩ := h.checking hcheck
    obtain rfl : p = p' := Option.some.inj (hp.symm.trans hp')
    rw [hcheck, if_pos rfl] at htime
    rw [if_pos hr] at hle
    omega

/-- In front of a memory without faults the first result is a pass exactly when every read
pattern expects what is there. -/
theorem consistent_iff_passed (hdata : ∀ k, (ins k).data0 = data0 ∧ (ins k).data1 = data1)
    (hfault : FaultFree mem ins) (hdone : (regsAt ins k).doneReg = true)
    (hfirst : ∀ j < k, (regsAt ins j).doneReg = false) :
    Consistent mem data0 data1 ↔ Passed ins data0 data1 k := by
  cases k with
  | zero => cases hdone
  | succ k =>
    have hnot := hfirst k k.lt_succ_self
    have hrun := running_of_not_done hdata hnot
    have hmem := remembers_of_running hdata hfault hnot
    cases hrun.cycle hdata with
    | opens p hp hr hcheck hstep hevent =>
      rw [hstep] at hdone
      exact absurd (hdone.symm.trans hrun.notDone) (by decide)
    | good p hp hread hdout hstep hevent =>
      have hnext := hmem.good hp hdata fun hr => by
        rw [← hrun.dout hfault hmem (hread ▸ hr)]
        exact hdout hr
      obtain hrun' | hpass := hrun.good hp hread hstep hevent hdout
      · exact absurd (hdone.symm.trans hrun'.notDone) (by decide)
      · refine ⟨fun _ => hpass, fun _ c p' hp' hr' addr ha => ?_⟩
        obtain ⟨-, hfinish⟩ | ⟨-, hfinish⟩ | ⟨hlast, hctr, -⟩ :=
          finish_cases (regsAt_inBounds ins k)
        · rw [hstep, hfinish] at hdone
          exact absurd (hdone.symm.trans hrun.notDone) (by decide)
        · rw [hstep, hfinish] at hdone
          exact absurd (hdone.symm.trans hrun.notDone) (by decide)
        · have hlt := (List.getElem?_eq_some_iff.mp hp').1
          exact hnext.right c p' hp' hr' addr ha (by omega)
    | bad p hp hr hcheck hdout hstep hevent =>
      refine ⟨fun hcons => ?_, fun hpass => ?_⟩
      · refine absurd ?_ hdout
        rw [hrun.dout hfault hmem hcheck]
        exact hcons _ p hp hr _ (regsAt_inBounds ins k).addrCnt
      · have hfail := hpass.pass
        rw [hstep] at hfail
        cases hfail

/-- For every SRAM size and width, every sequence of patterns, constant data words and
every sequence of read words. In the first cycle that shows a result, that is a pass if and
only if each read pattern has compared every address once, in ascending order, with what
came back in the cycle after the address was driven to be read, and has found its word. By
then every write pattern, or if it is a failure every write pattern before the one that
failed, has written its word to every address once, and no other has written. In front of a
memory without faults the test passes after its full count of cycles if and only if every
read pattern expects what the patterns before it have left there. -/
theorem verdict (b : SramBist) (ins : ℕ → b.Inputs) (data0 data1 : BitVec b.dataWidth)
    (hdata : ∀ k, (ins k).data0 = data0 ∧ (ins k).data1 = data1) :
    (∀ k, (outputs (regsAt ins k) (ins k)).done = true →
      (∀ j < k, (outputs (regsAt ins j) (ins j)).done = false) →
      ((outputs (regsAt ins k) (ins k)).fail = false ↔
        ∀ ctr p, b.patterns[ctr]? = some p → p.isRead = true →
          checksOf ctr (events ins k) = b.allChecked (p.word data0 data1)) ∧
      ∀ ctr p, b.patterns[ctr]? = some p → p.isRead = false →
        writesOf ctr (events ins k) =
          if (outputs (regsAt ins k) (ins k)).fail = false ∨ ctr < (regsAt ins k).ctr then
            b.allWritten (p.word data0 data1)
          else []) ∧
    ∀ mem, FaultFree mem ins →
      let total := (b.patterns.map b.cycles).sum
      (((outputs (regsAt ins total) (ins total)).done = true ∧
        (∀ j < total, (outputs (regsAt ins j) (ins j)).done = false) ∧
        (outputs (regsAt ins total) (ins total)).fail = false) ↔
      Consistent mem data0 data1) := by
  simp only [outputs_done, outputs_fail]
  refine ⟨fun k hdone hfirst => ?_, fun mem hfault => ?_⟩
  · have hend := first_result hdata hdone hfirst
    refine ⟨⟨fun hpass ctr p hp hr => ?_, fun hall => ?_⟩, fun ctr p hp hw => ?_⟩
    · obtain h | h := hend
      · exact h.checks hp hr
      · exact absurd (h.failed.symm.trans hpass) (by decide)
    · obtain h | h := hend
      · exact h.pass
      · obtain ⟨ctr, p, hp, hr, hne⟩ := h.checks
        exact absurd (hall ctr p hp hr) hne
    · obtain h | h := hend
      · rw [if_pos (.inl h.pass)]
        exact h.writes hp hw
      · rw [h.writes hp hw, h.failed]
        simp only [Bool.true_eq_false, false_or]
  · have htotal : (b.patterns.map b.cycles).sum = b.startOf b.patterns.length := by
      unfold startOf
      rw [List.take_length]
    simp only [htotal]
    constructor
    · rintro ⟨hdone, hfirst, hpass⟩
      rw [consistent_iff_passed hdata hfault hdone hfirst]
      obtain h | h := first_result hdata hdone hfirst
      · exact h
      · exact absurd (h.failed.symm.trans hpass) (by decide)
    · intro hcons
      -- the test cannot still be running when its cycles are used up
      have hsome : ∃ k, (regsAt ins k).doneReg = true := by
        refine ⟨b.startOf b.patterns.length, ?_⟩
        by_contra hno
        exact lt_irrefl _ (running_of_not_done hdata (by simpa using hno)).lt_total
      have hdone := Nat.find_spec hsome
      have hfirst : ∀ j < Nat.find hsome, (regsAt ins j).doneReg = false := fun j hj => by
        simpa using Nat.find_min hsome hj
      have hpass := (consistent_iff_passed hdata hfault hdone hfirst).mp hcons
      rw [← hpass.time]
      exact ⟨hdone, hfirst, hpass.pass⟩

def writeRead : SramBist := ⟨2, 1, [.w0, .r0], by decide, by decide⟩

def zeros (_ : ℕ) : writeRead.Inputs := ⟨0, 0, 0⟩

theorem zeros_faultFree : FaultFree (fun _ => 0) zeros := by
  have hmem : ∀ k addr, memAt (fun _ => 0) zeros k addr = 0 := by
    intro k
    induction k with
    | zero => exact fun _ => rfl
    | succ k ih =>
      intro addr
      have hdin : (outputs (regsAt zeros k) (zeros k)).din = 0 := by
        unfold outputs
        split <;> rfl
      rw [memAt]
      simp only [hdin]
      split_ifs
      · rw [Function.update_apply, ih, ite_self]
      · exact ih addr
  exact fun k _ => (hmem k _).symm

/-- Two cycles to write and three to read. -/
theorem writeRead_passes :
    (outputs (regsAt zeros 5) (zeros 5)).done = true ∧
      (∀ j < 5, (outputs (regsAt zeros j) (zeros j)).done = false) ∧
      (outputs (regsAt zeros 5) (zeros 5)).fail = false := by
  refine ((verdict writeRead zeros 0 0 fun _ => ⟨rfl, rfl⟩).2 (fun _ => 0) zeros_faultFree).mpr ?_
  intro ctr p hp hr addr ha
  match ctr with
  | 0 =>
    obtain rfl : Pattern.w0 = p := Option.some.inj hp
    cases hr
  | 1 =>
    obtain rfl : Pattern.r0 = p := Option.some.inj hp
    rfl
  | ctr + 2 => cases hp

def ones (_ : ℕ) : oneRead.Inputs := ⟨0, 1, 0⟩

/-- A test that begins with a read pattern can fail on a memory without faults. -/
theorem fault_free_memory_fails :
    FaultFree (fun _ => 0) ones ∧ (∀ k, (ones k).data0 = 1 ∧ (ones k).data1 = 0) ∧
    (∀ j < 2, (outputs (regsAt ones j) (ones j)).done = false) ∧
    (outputs (regsAt ones 2) (ones 2)).done = true ∧
    (outputs (regsAt ones 2) (ones 2)).fail = true := by
  refine ⟨?_, fun _ => ⟨rfl, rfl⟩, by decide, by decide, by decide⟩
  have hwe : ∀ k, (outputs (regsAt ones k) (ones k)).we = false := by
    intro k
    obtain ⟨p, hp⟩ := exists_pattern ones k
    obtain rfl : p = .r0 := by simpa [oneRead] using List.mem_of_getElem? hp
    exact (outputs_of_read hp rfl).1
  have hmem : ∀ k, memAt (fun _ => 0) ones k = fun _ => 0 := by
    intro k
    induction k with
    | zero => rfl
    | succ k ih => rw [memAt_of_not_we (hwe k), ih]
  intro k _
  rw [hmem]
  rfl

end SramBist

end PerceptronSoc
