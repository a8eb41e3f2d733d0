import PerceptronSoc.Proofs.BistVerdict
import PerceptronSoc.Spec.SramBistTop

/-! What software reads after it has started the self test. The macro drops one word at its
last address, so the test has to fail whenever it is to write that word, and must not fail
otherwise, whatever earlier or interrupted tests have left in the memory. -/

namespace PerceptronSoc.SramBistTop

open SramBist

def stored (old : BitVec 32) (addr : ℕ) (din : BitVec 32) : BitVec 32 :=
  if addr = 63 ∧ din = 0xcafef00d#32 then old else din

variable {r : Regs} {s : Sram} {m : ℕ → BitVec 32} {data0 data1 : BitVec 32} {p : Pattern} {k : ℕ}

theorem step_write (s : Sram) (addr : ℕ) (din x : BitVec 32) :
    (s.step true true addr din x).mem = Function.update s.mem addr (stored (s.mem addr) addr din) := by
  unfold Sram.step stored
  by_cases h : addr = 63 ∧ din = 0xcafef00d#32
  · simp [h]
  · rw [if_neg h]
    have hcond : (true && !(decide (addr = 63) && decide (din = 0xcafef00d#32))) = true := by
      simpa [imp_iff_not_or] using h
    simp only [if_true, hcond]

theorem step_read (s : Sram) (addr : ℕ) (din x : BitVec 32) :
    s.step false true addr din x = { s with dout := s.mem addr } := rfl

/-- What the memory holds when pattern `ctr` starts, `m` being what it held at first. -/
def left (m : ℕ → BitVec 32) (data0 data1 : BitVec 32) : ℕ → ℕ → BitVec 32
  | 0, addr => m addr
  | ctr + 1, addr =>
    match test.patterns[ctr]? with
    | some p =>
      if p.isRead then left m data0 data1 ctr addr
      else stored (left m data0 data1 ctr addr) addr (p.word data0 data1)
    | none => left m data0 data1 ctr addr

def Sound (m : ℕ → BitVec 32) (data0 data1 : BitVec 32) : Prop :=
  ∀ ctr p, test.patterns[ctr]? = some p → p.isRead = true →
    ∀ addr < 64, left m data0 data1 ctr addr = p.word data0 data1

theorem left_of_read (m : ℕ → BitVec 32) (data0 data1 : BitVec 32) {ctr : ℕ}
    (hp : test.patterns[ctr]? = some p) (hr : p.isRead = true) (addr : ℕ) : left m data0 data1 (ctr + 1) addr = left m data0 data1 ctr addr := by
  rw [left, hp]
  simp only [hr, if_true]

theorem left_of_write (m : ℕ → BitVec 32) (data0 data1 : BitVec 32) {ctr : ℕ}
    (hp : test.patterns[ctr]? = some p) (hw : p.isRead = false) (addr : ℕ) :
    left m data0 data1 (ctr + 1) addr =
      stored (left m data0 data1 ctr addr) addr (p.word data0 data1) := by
  rw [left, hp]
  simp only [hw, Bool.false_eq_true, if_false]

structure Testing (m : ℕ → BitVec 32) (data0 data1 : BitVec 32) (k : ℕ) (r : test.Regs) (s : Sram) :
    Prop where
  bounds : InBounds r
  notDone : r.doneReg = false
  time : k = test.startOf r.ctr + r.addrCnt + if r.checkNext then 1 else 0
  memory : ∀ addr < 64, s.mem addr =
    if addr < r.addrCnt then left m data0 data1 (r.ctr + 1) addr else left m data0 data1 r.ctr addr
  checking : r.checkNext = true → ∃ p, pattern r = some p ∧ p.isRead = true ∧
    r.expReg = p.word data0 data1 ∧ s.dout = left m data0 data1 r.ctr r.addrCnt
  opening : r.checkNext = false → ∀ p, pattern r = some p → p.isRead = true → r.addrCnt = 0
  right : ∀ c p, test.patterns[c]? = some p → p.isRead = true → ∀ addr < 64,
    c < r.ctr ∨ c = r.ctr ∧ addr < r.addrCnt → left m data0 data1 c addr = p.word data0 data1

/-- A test that has passed reads its last word for ever. -/
structure Passing (m : ℕ → BitVec 32) (data0 data1 : BitVec 32) (r : test.Regs) (s : Sram) : Prop where
  bounds : InBounds r
  done : r.doneReg = true
  pass : r.failReg = false
  ctr : r.ctr = 3
  memory : ∀ addr < 64, s.mem addr = data1
  checking : r.checkNext = true → r.expReg = data1 ∧ s.dout = data1
  sound : Sound m data0 data1

/-- A test that has failed reads the wrong word for ever. -/
structure Failing (m : ℕ → BitVec 32) (data0 data1 : BitVec 32) (r : test.Regs) (s : Sram) : Prop where
  done : r.doneReg = true
  failed : r.failReg = true
  checking : r.checkNext = true
  reading : ∃ p, pattern r = some p ∧ p.isRead = true
  memory : s.mem r.addrCnt ≠ r.expReg
  dout : s.dout ≠ r.expReg
  unsound : ¬Sound m data0 data1

def cycle (data0 data1 x : BitVec 32) (c : test.Regs × Sram) : test.Regs × Sram :=
  let i : test.Inputs := ⟨c.2.dout, data0, data1⟩
  let o := outputs c.1 i
  (SramBist.step c.1 i, c.2.step o.we true o.addr o.din x)

theorem cycle_of_write (data0 data1 x : BitVec 32) (s : Sram) {r : test.Regs}
    (hp : pattern r = some p) (hw : p.isRead = false) :
    (cycle data0 data1 x (r, s)).1 = write r ∧
      (cycle data0 data1 x (r, s)).2.mem = Function.update s.mem r.addrCnt
        (stored (s.mem r.addrCnt) r.addrCnt (p.word data0 data1)) := by
  obtain ⟨hwe, haddr, hdin⟩ := outputs_of_write (i := (⟨s.dout, data0, data1⟩ : test.Inputs)) hp hw
  unfold cycle
  dsimp only
  rw [hwe, haddr, hdin, step_write]
  exact ⟨step_of_write hp hw, rfl⟩

theorem cycle_of_read (data0 data1 x : BitVec 32) (s : Sram) {r : test.Regs}
    (hp : pattern r = some p) (hr : p.isRead = true) :
    (cycle data0 data1 x (r, s)).1 = read r s.dout (p.word data0 data1) ∧
      (cycle data0 data1 x (r, s)).2 = { s with dout := s.mem (readAddr r s.dout) } := by
  obtain ⟨hwe, haddr⟩ := outputs_of_read (i := (⟨s.dout, data0, data1⟩ : test.Inputs)) hp hr
  unfold cycle
  dsimp only
  rw [hwe, haddr, step_read]
  exact ⟨step_of_read hp hr, rfl⟩

section Cycle

variable {r : test.Regs} {x : BitVec 32}

theorem exists_pattern_of (h : InBounds r) : ∃ p, pattern r = some p :=
  ⟨_, List.getElem?_eq_getElem h.ctr⟩

/-- The last pattern reads the second word. -/
theorem pattern_last (h : r.ctr = 3) : pattern r = some .r1 := by
  unfold pattern
  rw [h]
  rfl

/-- The counters of a pattern that has gone through stay in bounds. -/
theorem ctr_succ_lt (h : InBounds r) {i : test.Inputs}
    (hstep : SramBist.step r i = { r with ctr := r.ctr + 1, addrCnt := 0, checkNext := false }) :
    r.ctr + 1 < 4 := by
  have hin := (h.step i).ctr
  rw [hstep] at hin
  exact hin

theorem Testing.right_succ (h : Testing m data0 data1 k r s) (hp : pattern r = some p)
    (hright : p.isRead = true → left m data0 data1 r.ctr r.addrCnt = p.word data0 data1)
    {c : ℕ} {p' : Pattern} (hp' : test.patterns[c]? = some p') (hr' : p'.isRead = true) {addr : ℕ}
    (ha : addr < 64) (hbefore : c < r.ctr ∨ c = r.ctr ∧ addr < r.addrCnt + 1) :
    left m data0 data1 c addr = p'.word data0 data1 := by
  by_cases heq : c = r.ctr ∧ addr = r.addrCnt
  · obtain ⟨rfl, rfl⟩ := heq
    obtain rfl : p = p' := Option.some.inj (hp.symm.trans hp')
    exact hright hr'
  · exact h.right c p' hp' hr' addr ha (by omega)

theorem Testing.next_pattern {s' : Sram} (h : Testing m data0 data1 k r s)
    (hp : pattern r = some p) (hread : p.isRead = r.checkNext) (hlast : r.addrCnt + 1 = 64)
    (hctr : r.ctr + 1 < 4) (hmem : ∀ addr < 64, s'.mem addr = left m data0 data1 (r.ctr + 1) addr)
    (hright : p.isRead = true → left m data0 data1 r.ctr r.addrCnt = p.word data0 data1) :
    Testing m data0 data1 (k + 1) { r with ctr := r.ctr + 1, addrCnt := 0, checkNext := false } s' := by
  have htime := h.time
  refine ⟨⟨hctr, test.numWords_pos⟩, h.notDone, ?_, fun addr ha => ?_, fun hc => ?_,
    fun _ _ _ _ => rfl, fun c p' hp' hr' addr ha hbefore => ?_⟩
  · have hstart := startOf_succ hp
    simp only [Bool.false_eq_true, if_false, Nat.add_zero]
    rw [hstart, cycles, hread]
    cases hc : r.checkNext <;> rw [hc] at htime <;> simp at htime ⊢ <;> omega
  · rw [if_neg (Nat.not_lt_zero addr)]
    exact hmem addr ha
  · cases hc
  · refine h.right_succ hp hright hp' hr' ha ?_
    dsimp only at hbefore
    omega

theorem Testing.write (h : Testing m data0 data1 k r s) (hp : pattern r = some p)
    (hw : p.isRead = false) :
    Testing m data0 data1 (k + 1) (cycle data0 data1 x (r, s)).1 (cycle data0 data1 x (r, s)).2 := by
  -- a pattern that writes does not compare
  have hother : ∀ {p'}, pattern r = some p' → p'.isRead ≠ true := by
    intro p' hp' hr'
    obtain rfl : p = p' := Option.some.inj (hp.symm.trans hp')
    rw [hw] at hr'
    cases hr'
  have hcheck : r.checkNext = false := by
    by_contra hne
    obtain ⟨p', hp', hr', -⟩ := h.checking (by simpa using hne)
    exact hother hp' hr'
  obtain ⟨hregs, hmem⟩ := cycle_of_write data0 data1 x s hp hw
  rw [write_eq_finish hcheck] at hregs
  -- the word is stored over what was left there
  have hnow : ∀ addr < 64, (cycle data0 data1 x (r, s)).2.mem addr =
      if addr < r.addrCnt + 1 then left m data0 data1 (r.ctr + 1) addr
      else left m data0 data1 r.ctr addr := by
    intro addr ha
    rw [hmem]
    by_cases heq : addr = r.addrCnt
    · subst heq
      rw [Function.update_self, h.memory _ ha, if_neg (lt_irrefl _), if_pos (Nat.lt_succ_self _),
        left_of_write _ _ _ hp hw]
    · rw [Function.update_of_ne heq, h.memory addr ha]
      exact if_congr (by omega) rfl rfl
  have htime := h.time
  rw [hcheck] at htime
  obtain ⟨hlt, hfin⟩ | ⟨hlast, hfin⟩ | ⟨-, hctr, -⟩ := finish_cases h.bounds
  · rw [hregs, hfin]
    refine ⟨⟨h.bounds.ctr, hlt⟩, h.notDone, ?_, hnow, fun hc => ?_, fun _ p' hp' hr' => ?_,
      fun c p' hp' hr' addr ha hbefore => ?_⟩
    · dsimp only
      rw [hcheck, htime]
      rfl
    · exact absurd (hc.symm.trans hcheck) (by decide)
    · exact absurd hr' (hother hp')
    · exact h.right_succ hp (fun hr => absurd hr (hother hp)) hp' hr' ha hbefore
  · have hin := ctr_succ_lt h.bounds (hregs.trans hfin)
    rw [hregs, hfin]
    refine h.next_pattern hp (hw.trans hcheck.symm) hlast hin (fun addr ha => ?_)
      fun hr => absurd hr (hother hp)
    rw [hnow addr ha, if_pos (hlast ▸ ha)]
  · exact absurd rfl (hother (pattern_last (Nat.succ_injective hctr)))

/-- The first cycle of a read pattern drives the first address. -/
theorem Testing.opens (h : Testing m data0 data1 k r s) (hp : pattern r = some p)
    (hr : p.isRead = true) (hcheck : r.checkNext = false) :
    Testing m data0 data1 (k + 1) (cycle data0 data1 x (r, s)).1 (cycle data0 data1 x (r, s)).2 := by
  obtain ⟨hregs, hsram⟩ := cycle_of_read data0 data1 x s hp hr
  have haddr : readAddr r s.dout = r.addrCnt := by
    unfold readAddr
    rw [hcheck]
    rfl
  have hzero := h.opening hcheck p hp hr
  have hread : read r s.dout (p.word data0 data1) =
      { r with expReg := p.word data0 data1, checkNext := true } := by
    unfold SramBist.read
    rw [hcheck]
    rfl
  have htime := h.time
  rw [hcheck] at htime
  rw [hregs, hsram, hread, haddr]
  refine ⟨⟨h.bounds.ctr, h.bounds.addrCnt⟩, h.notDone, ?_, h.memory,
    fun _ => ⟨p, hp, hr, rfl, ?_⟩, fun hc => ?_, h.right⟩
  · dsimp only
    rw [htime]
    rfl
  · dsimp only
    rw [h.memory _ h.bounds.addrCnt, if_neg (lt_irrefl _)]
  · cases hc

/-- A word that is wrong ends the test, and the address stays where it is. -/
theorem Testing.bad (h : Testing m data0 data1 k r s) (hp : pattern r = some p)
    (hr : p.isRead = true) (hcheck : r.checkNext = true) (hd : s.dout ≠ r.expReg) :
    Failing m data0 data1 (cycle data0 data1 x (r, s)).1 (cycle data0 data1 x (r, s)).2 := by
  obtain ⟨hregs, hsram⟩ := cycle_of_read data0 data1 x s hp hr
  obtain ⟨p', hp', -, hexp, hdout⟩ := h.checking hcheck
  obtain rfl : p = p' := Option.some.inj (hp.symm.trans hp')
  have haddr : readAddr r s.dout = r.addrCnt := by
    unfold readAddr
    rw [if_neg]
    simp [hd]
  have hread : read r s.dout (p.word data0 data1) = { r with doneReg := true, failReg := true } := by
    unfold SramBist.read
    simp [hcheck, hd]
  have hmem : s.mem r.addrCnt = s.dout := by
    rw [h.memory _ h.bounds.addrCnt, if_neg (lt_irrefl _), hdout]
  rw [hregs, hsram, hread, haddr]
  refine ⟨rfl, rfl, hcheck, ⟨p, hp, hr⟩, ?_, ?_, fun hsound => ?_⟩
  · exact hmem.symm ▸ hd
  · exact hmem.symm ▸ hd
  · refine hd ?_
    rw [hdout, hexp]
    exact hsound _ p hp hr _ h.bounds.addrCnt

/-- A word that is right moves the test on, or ends it. -/
theorem Testing.good (h : Testing m data0 data1 k r s) (hp : pattern r = some p)
    (hr : p.isRead = true) (hcheck : r.checkNext = true) (hd : s.dout = r.expReg) :
    Testing m data0 data1 (k + 1) (cycle data0 data1 x (r, s)).1 (cycle data0 data1 x (r, s)).2 ∨
    Passing m data0 data1 (cycle data0 data1 x (r, s)).1 (cycle data0 data1 x (r, s)).2 := by
  obtain ⟨hregs, hsram⟩ := cycle_of_read data0 data1 x s hp hr
  obtain ⟨p', hp', -, hexp, hdout⟩ := h.checking hcheck
  obtain rfl : p = p' := Option.some.inj (hp.symm.trans hp')
  rw [read_eq_finish hcheck hd] at hregs
  have hright : left m data0 data1 r.ctr r.addrCnt = p.word data0 data1 := by
    rw [← hdout, hd, hexp]
  -- reading leaves the memory alone
  have hmem : ∀ addr < 64, s.mem addr = left m data0 data1 r.ctr addr := by
    intro addr ha
    rw [h.memory addr ha, left_of_read _ _ _ hp hr, ite_self]
  have htime := h.time
  rw [hcheck] at htime
  obtain ⟨hlt, hfin⟩ | ⟨hlast, hfin⟩ | ⟨hlast, hctr, hfin⟩ := finish_cases h.bounds
  · refine .inl ?_
    rw [hregs, hsram, hfin, readAddr_of_good hcheck hd hlt]
    refine ⟨⟨h.bounds.ctr, hlt⟩, h.notDone, ?_, fun addr ha => ?_, fun _ => ⟨p, hp, hr, hexp, ?_⟩,
      fun hc => ?_, fun c p' hp' hr' addr ha hbefore => ?_⟩
    · dsimp only
      rw [hcheck, htime]
      simp only [if_true]
      omega
    · dsimp only
      rw [hmem addr ha, left_of_read _ _ _ hp hr, ite_self]
    · exact hmem _ hlt
    · exact absurd (hcheck.symm.trans hc) (by decide)
    · exact h.right_succ hp (fun _ => hright) hp' hr' ha hbefore
  · have hin := ctr_succ_lt h.bounds (hregs.trans hfin)
    refine .inl ?_
    rw [hregs, hsram, hfin]
    refine h.next_pattern hp (hr.trans hcheck.symm) hlast hin (fun addr ha => ?_) fun _ => hright
    dsimp only
    rw [hmem addr ha, left_of_read _ _ _ hp hr]
  · have hthree : r.ctr = 3 := Nat.succ_injective hctr
    have hsound : Sound m data0 data1 := by
      intro c p' hp' hr' addr ha
      have hc : c < 4 := (List.getElem?_eq_some_iff.mp hp').1
      refine h.right_succ hp (fun _ => hright) hp' hr' ha ?_
      have haddr : addr < r.addrCnt + 1 := hlast ▸ ha
      omega
    refine .inr ?_
    rw [hregs, hsram, hfin]
    refine ⟨⟨h.bounds.ctr, test.numWords_pos⟩, rfl, rfl, hthree, fun addr ha => ?_,
      fun hc => absurd hc Bool.false_ne_true, hsound⟩
    dsimp only
    rw [hmem addr ha, hthree]
    exact hsound 3 .r1 rfl rfl addr ha

theorem Testing.next (h : Testing m data0 data1 k r s) :
    Testing m data0 data1 (k + 1) (cycle data0 data1 x (r, s)).1 (cycle data0 data1 x (r, s)).2 ∨
    Passing m data0 data1 (cycle data0 data1 x (r, s)).1 (cycle data0 data1 x (r, s)).2 ∨
    Failing m data0 data1 (cycle data0 data1 x (r, s)).1 (cycle data0 data1 x (r, s)).2 := by
  obtain ⟨p, hp⟩ := exists_pattern_of h.bounds
  cases hr : p.isRead with
  | false => exact .inl (h.write hp hr)
  | true =>
    cases hcheck : r.checkNext with
    | false => exact .inl (h.opens hp hr hcheck)
    | true =>
      by_cases hd : s.dout = r.expReg
      · exact (h.good hp hr hcheck hd).imp_right .inl
      · exact .inr (.inr (h.bad hp hr hcheck hd))

theorem Passing.next (h : Passing m data0 data1 r s) :
    Passing m data0 data1 (cycle data0 data1 x (r, s)).1 (cycle data0 data1 x (r, s)).2 := by
  have hp := pattern_last h.ctr
  obtain ⟨hregs, hsram⟩ := cycle_of_read data0 data1 x s hp rfl
  have hin : InBounds (cycle data0 data1 x (r, s)).1 := h.bounds.step _
  have haddr : readAddr r s.dout < 64 := by
    unfold readAddr
    split
    · next hc =>
      simp only [Bool.and_eq_true, Bool.not_eq_true'] at hc
      exact nextAddr_lt h.bounds hc.2
    · exact h.bounds.addrCnt
  rw [hregs] at hin
  rw [hregs, hsram]
  cases hcheck : r.checkNext with
  | false =>
    have hread : read r s.dout (Pattern.word data0 data1 .r1) =
        { r with expReg := data1, checkNext := true } := by
      unfold SramBist.read
      rw [hcheck]
      rfl
    rw [hread] at hin ⊢
    exact ⟨hin, h.done, h.pass, h.ctr, h.memory, fun _ => ⟨rfl, h.memory _ haddr⟩, h.sound⟩
  | true =>
    obtain ⟨hexp, hdout⟩ := h.checking hcheck
    rw [read_eq_finish hcheck (hdout.trans hexp.symm)] at hin ⊢
    obtain ⟨-, hfin⟩ | ⟨-, hfin⟩ | ⟨-, -, hfin⟩ := finish_cases h.bounds <;> rw [hfin] at hin ⊢
    · exact ⟨hin, h.done, h.pass, h.ctr, h.memory, fun _ => ⟨hexp, h.memory _ haddr⟩, h.sound⟩
    · -- there is no pattern after the last
      have hlt : r.ctr + 1 < 4 := hin.ctr
      rw [h.ctr] at hlt
      exact absurd hlt (by decide)
    · exact ⟨hin, rfl, rfl, h.ctr, h.memory, fun hc => absurd hc Bool.false_ne_true, h.sound⟩

theorem Failing.next (h : Failing m data0 data1 r s) :
    Failing m data0 data1 (cycle data0 data1 x (r, s)).1 (cycle data0 data1 x (r, s)).2 := by
  obtain ⟨p, hp, hr⟩ := h.reading
  obtain ⟨hregs, hsram⟩ := cycle_of_read data0 data1 x s hp hr
  have haddr : readAddr r s.dout = r.addrCnt := by
    unfold readAddr
    rw [if_neg]
    simp [h.dout]
  have hread : read r s.dout (p.word data0 data1) = { r with doneReg := true, failReg := true } := by
    unfold SramBist.read
    simp [h.checking, h.dout]
  rw [hregs, hsram, hread, haddr]
  exact ⟨rfl, rfl, h.checking, ⟨p, hp, hr⟩, h.memory, h.memory, h.unsound⟩

theorem Testing.lt_total (h : Testing m data0 data1 k r s) : k < 258 := by
  have htime := h.time
  have hctr : r.ctr < 4 := h.bounds.ctr
  have haddr : r.addrCnt < 64 := h.bounds.addrCnt
  have hcheck : (if r.checkNext then 1 else 0) ≤ if r.ctr = 1 ∨ r.ctr = 3 then 1 else 0 := by
    split
    · next hc =>
      obtain ⟨p, hp, hr, -⟩ := h.checking hc
      unfold pattern at hp
      interval_cases hcc : r.ctr
      · obtain rfl : Pattern.w0 = p := Option.some.inj hp
        cases hr
      · simp
      · obtain rfl : Pattern.w1 = p := Option.some.inj hp
        cases hr
      · simp
    · exact Nat.zero_le _
  have hstart : test.startOf 0 = 0 ∧ test.startOf 1 = 64 ∧ test.startOf 2 = 129 ∧
      test.startOf 3 = 193 := by decide
  generalize (if r.checkNext then 1 else 0) = checked at htime hcheck
  interval_cases hcc : r.ctr <;> simp at hcheck <;> omega

end Cycle

/-- The word that the macro drops never gets to its last address. -/
theorem step_mem (hs : s.mem 63 ≠ 0xcafef00d#32) (we : Bool) (addr : ℕ) (din x : BitVec 32) :
    (s.step we true addr din x).mem 63 ≠ 0xcafef00d#32 := by
  cases we with
  | false => exact hs
  | true =>
    rw [step_write]
    by_cases ha : addr = 63
    · subst ha
      rw [Function.update_self, stored]
      split
      · exact hs
      · next h => exact fun hd => h ⟨rfl, hd⟩
    · rw [Function.update_of_ne (Ne.symm ha)]
      exact hs

theorem run_mem (h : r.sram.mem 63 ≠ 0xcafef00d#32) (as : List Access) :
    (r.run as).sram.mem 63 ≠ 0xcafef00d#32 := by
  induction as generalizing r with
  | nil => exact h
  | cons a as ih => exact ih (step_mem h _ _ _ _)

/-- Whether the test finds everything it expects. -/
theorem sound_iff (hm : m 63 ≠ 0xcafef00d#32) :
    Sound m data0 data1 ↔ data0 ≠ 0xcafef00d#32 ∧ data1 ≠ 0xcafef00d#32 := by
  have hone : ∀ addr, left m data0 data1 1 addr = stored (m addr) addr data0 := fun _ => rfl
  have hthree : ∀ addr, left m data0 data1 3 addr =
      stored (left m data0 data1 1 addr) addr data1 := fun _ => rfl
  have hother : ∀ {old din : BitVec 32} {addr : ℕ}, din ≠ 0xcafef00d#32 → stored old addr din = din :=
    fun h => if_neg fun hc => h hc.2
  constructor
  · intro h
    have hfirst := h 1 .r0 rfl rfl 63 (by decide)
    have hlast := h 3 .r1 rfl rfl 63 (by decide)
    rw [hone] at hfirst
    rw [hthree, hone] at hlast
    have h0 : data0 ≠ 0xcafef00d#32 := by
      rintro rfl
      exact hm hfirst
    refine ⟨h0, ?_⟩
    rintro rfl
    rw [hother h0] at hlast
    exact h0 hlast
  · rintro ⟨h0, h1⟩ ctr p hp hr addr -
    have hc : ctr < 4 := (List.getElem?_eq_some_iff.mp hp).1
    interval_cases ctr
    · obtain rfl : Pattern.w0 = p := Option.some.inj hp
      cases hr
    · obtain rfl : Pattern.r0 = p := Option.some.inj hp
      exact hother h0
    · obtain rfl : Pattern.w1 = p := Option.some.inj hp
      cases hr
    · obtain rfl : Pattern.r1 = p := Option.some.inj hp
      exact hother h1

def later (r : Regs) (x : ℕ → BitVec 32) : ℕ → Regs
  | 0 => r
  | k + 1 => (later r x k).step (.quiet (x k))

variable {x : ℕ → BitVec 32}

theorem later_data (r : Regs) (x : ℕ → BitVec 32) (k : ℕ) :
    (later r x (k + 1)).data0 = r.data0 ∧ (later r x (k + 1)).data1 = r.data1 ∧
      (later r x (k + 1)).pastValid = false := by
  induction k with
  | zero => exact ⟨rfl, rfl, rfl⟩
  | succ k ih => exact ⟨ih.1, ih.2.1, rfl⟩

theorem later_cycle (r : Regs) (x : ℕ → BitVec 32) (k : ℕ) :
    ((later r x (k + 2)).bist, (later r x (k + 2)).sram) =
      cycle r.data0 r.data1 (x (k + 1)) ((later r x (k + 1)).bist, (later r x (k + 1)).sram) := by
  obtain ⟨h0, h1, hpast⟩ := later_data r x k
  have hinputs : (later r x (k + 1)).inputs = ⟨(later r x (k + 1)).sram.dout, r.data0, r.data1⟩ := by
    unfold Regs.inputs
    rw [h0, h1]
  have hreset : (later r x (k + 1)).bistReset (.quiet (x (k + 1))) = false := by
    unfold Regs.bistReset
    rw [hpast]
    rfl
  change (((later r x (k + 1)).step (.quiet (x (k + 1)))).bist,
    ((later r x (k + 1)).step (.quiet (x (k + 1)))).sram) = _
  unfold Regs.step cycle
  simp only [hreset, hinputs, Bool.false_eq_true, if_false]
  rfl

/-- The write of `EX` holds the reset for one more cycle, and then the test begins. -/
theorem testing_start (h : r.pastValid = true) :
    Testing (later r x 1).sram.mem r.data0 r.data1 0 (later r x 1).bist (later r x 1).sram := by
  have hreset : (later r x 1).bist = test.reset := by
    change (if r.bistReset (.quiet (x 0)) then _ else _) = _
    unfold Regs.bistReset
    rw [h]
    rfl
  rw [hreset]
  refine ⟨⟨by decide, by decide⟩, rfl, rfl, fun addr _ => ?_, fun hc => absurd hc Bool.false_ne_true,
    fun _ _ _ _ => rfl, fun c p _ _ addr _ hc => ?_⟩
  · exact (if_neg (Nat.not_lt_zero addr)).symm
  · exact absurd hc (by simp [reset])

/-- In every cycle of the test it runs, or has come to its result. -/
theorem later_cases (h : r.pastValid = true) (k : ℕ) :
    let m := (later r x 1).sram.mem
    Testing m r.data0 r.data1 k (later r x (k + 1)).bist (later r x (k + 1)).sram ∨
    Passing m r.data0 r.data1 (later r x (k + 1)).bist (later r x (k + 1)).sram ∨
    Failing m r.data0 r.data1 (later r x (k + 1)).bist (later r x (k + 1)).sram := by
  intro m
  induction k with
  | zero => exact .inl (testing_start h)
  | succ k ih =>
    have hstep := later_cycle r x k
    rw [show (later r x (k + 1 + 1)).bist = _ from congrArg Prod.fst hstep,
      show (later r x (k + 1 + 1)).sram = _ from congrArg Prod.snd hstep]
    obtain h | h | h := ih
    · exact h.next
    · exact .inr (.inl h.next)
    · exact .inr (.inr h.next)

theorem done_eq (r : Regs) : r.done = r.bist.doneReg := outputs_done _ _

theorem fail_eq (r : Regs) : r.fail = r.bist.failReg := outputs_fail _ _

/-- For every history of register writes since power-on, with any number of tests started and
interrupted, and whatever the macro shows after a write: when `EX` is written and then no other
register, `DONE` is low, comes high after at most 259 cycles and stays high, and with it `FAIL`
is high if and only if one of the two data words is the one that the macro drops. -/
theorem self_test_result (r : Regs) (hr : r.PowerOn) (as : List Access) (a : Access)
    (ha : a.ex = true) (s : Regs) (hs : s = (r.run as).step a) (x : ℕ → BitVec 32) :
    ∃ n ≤ 259, (∀ j < n, (later s x j).done = false) ∧ ∀ j, n ≤ j →
      (later s x j).done = true ∧
      ((later s x j).fail = true ↔ s.data0 = 0xcafef00d#32 ∨ s.data1 = 0xcafef00d#32) := by
  have hpast : s.pastValid = true := by
    rw [hs]
    exact ha
  have hmem : (later s x 1).sram.mem 63 ≠ 0xcafef00d#32 := by
    refine step_mem ?_ _ _ _ _
    rw [hs]
    refine step_mem (run_mem ?_ as) _ _ _ _
    rw [hr.mem]
    decide
  have hsound : Sound _ s.data0 s.data1 ↔ _ := sound_iff hmem
  have hzero : (later s x 0).done = false := by
    change s.done = false
    rw [done_eq, hs]
    change (if (r.run as).bistReset a then test.reset else _).doneReg = false
    unfold Regs.bistReset
    rw [ha]
    rfl
  -- a result, once there, is the right one
  have hresult : ∀ k, (later s x (k + 1)).done = true →
      ((later s x (k + 1)).fail = true ↔ s.data0 = 0xcafef00d#32 ∨ s.data1 = 0xcafef00d#32) := by
    intro k hdone
    rw [done_eq] at hdone
    rw [fail_eq]
    obtain h | h | h := later_cases (x := x) hpast k
    · exact absurd (h.notDone.symm.trans hdone) (by decide)
    · obtain ⟨h0, h1⟩ := hsound.mp h.sound
      simp [h.pass, h0, h1]
    · have hbad := mt hsound.mpr h.unsound
      simp only [h.failed, true_iff]
      by_contra hc
      push Not at hc
      exact hbad hc
  have hlast : (later s x 259).done = true := by
    rw [done_eq]
    obtain h | h | h := later_cases (x := x) hpast 258
    · exact absurd h.lt_total (by decide)
    · exact h.done
    · exact h.done
  have hstays : ∀ k, (later s x (k + 1)).done = true → (later s x (k + 2)).done = true := by
    intro k hdone
    rw [done_eq] at hdone ⊢
    obtain h | h | h := later_cases (x := x) hpast k
    · exact absurd (h.notDone.symm.trans hdone) (by decide)
    · rw [show (later s x (k + 2)).bist = _ from congrArg Prod.fst (later_cycle s x k)]
      exact h.next.done
    · rw [show (later s x (k + 2)).bist = _ from congrArg Prod.fst (later_cycle s x k)]
      exact h.next.done
  have hsome : ∃ n, (later s x n).done = true := ⟨259, hlast⟩
  refine ⟨Nat.find hsome, Nat.find_min' hsome hlast, fun j hj => by simpa using Nat.find_min hsome hj,
    fun j hj => ?_⟩
  have hpos : 0 < Nat.find hsome := by
    rw [Nat.find_pos]
    simp [hzero]
  have hdone : (later s x j).done = true := by
    induction j, hj using Nat.le_induction with
    | base => exact Nat.find_spec hsome
    | succ j hj ih =>
      obtain ⟨i, rfl⟩ := Nat.exists_eq_succ_of_ne_zero (show j ≠ 0 by omega)
      exact hstays i ih
  obtain ⟨i, rfl⟩ := Nat.exists_eq_succ_of_ne_zero (show j ≠ 0 by omega)
  exact ⟨hdone, hresult i hdone⟩

def powerOn : Regs := ⟨0, 0, false, test.reset, ⟨fun _ => 0, 0⟩⟩

/-- The second test of `srambist.c` fails, and the third one passes on the same memory. -/
theorem self_test_result_srambist :
    (∃ n ≤ 259, ∀ j, n ≤ j → (later ((powerOn.run [⟨some 0xcafef00d#32, some 0xdeadbeef#32, false,
      0⟩]).step ⟨none, none, true, 0⟩) (fun _ => 0) j).fail = true) ∧
    ∃ n ≤ 259, ∀ j, n ≤ j → (later ((powerOn.run [⟨some 0xcafef00d#32, some 0xdeadbeef#32, false, 0⟩,
      ⟨none, none, true, 0⟩, ⟨some 0xdeadbeef#32, some 0xf00dd00d#32, false, 0⟩]).step
      ⟨none, none, true, 0⟩) (fun _ => 0) j).fail = false := by
  have hon : powerOn.PowerOn := ⟨fun _ => rfl, rfl, by decide, by decide⟩
  constructor
  · obtain ⟨n, hn, -, h⟩ := self_test_result powerOn hon [⟨some 0xcafef00d#32, some 0xdeadbeef#32,
      false, 0⟩] ⟨none, none, true, 0⟩ rfl _ rfl fun _ => 0
    exact ⟨n, hn, fun j hj => (h j hj).2.mpr (.inl rfl)⟩
  · obtain ⟨n, hn, -, h⟩ := self_test_result powerOn hon [⟨some 0xcafef00d#32, some 0xdeadbeef#32,
      false, 0⟩, ⟨none, none, true, 0⟩, ⟨some 0xdeadbeef#32, some 0xf00dd00d#32, false, 0⟩]
      ⟨none, none, true, 0⟩ rfl _ rfl fun _ => 0
    refine ⟨n, hn, fun j hj => ?_⟩
    have hfail := mt (h j hj).2.mp (by
      rintro (hd | hd)
      · exact absurd (show (0xdeadbeef#32) = 0xcafef00d#32 from hd) (by decide)
      · exact absurd (show (0xf00dd00d#32) = 0xcafef00d#32 from hd) (by decide))
    simpa using hfail

end PerceptronSoc.SramBistTop
