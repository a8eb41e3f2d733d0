import PerceptronSoc.Spec.SramBist

/-! When the result of the self test is final. Nothing stops the machine once `done` is
high: it goes on comparing and goes on completing its last pattern, and either can turn
the result round. -/

namespace PerceptronSoc

def Pattern.isRead : Pattern → Bool
  | .r0 => true
  | .r1 => true
  | _ => false

namespace SramBist

variable {b : SramBist}

def mismatches (r : b.Regs) (i : b.Inputs) : Bool :=
  (pattern r).any Pattern.isRead && r.checkNext && i.dout ≠ r.expReg

/-- The cycle completes the last pattern: it writes the last word, or compares it and
finds it right. -/
def completes (r : b.Regs) (i : b.Inputs) : Bool :=
  lastAddr r && lastPat r &&
    (pattern r).any fun p => !p.isRead || r.checkNext && i.dout = r.expReg

/-- What `fail` shows in the first cycle in which `done` is high it shows ever after. -/
def ResultFinal (b : SramBist) (ins : ℕ → b.Inputs) : Prop :=
  ∀ k m, k ≤ m → (outputs (regsAt ins k) (ins k)).done = true →
    (outputs (regsAt ins m) (ins m)).done = true ∧
    (outputs (regsAt ins m) (ins m)).fail = (outputs (regsAt ins k) (ins k)).fail

/-- The cycle does not turn a result round that is already shown. -/
structure LeavesResult (r : b.Regs) (i : b.Inputs) : Prop where
  pass : r.doneReg = true → r.failReg = false → mismatches r i = false
  failure : r.doneReg = true → r.failReg = true → completes r i = false

theorem outputs_done (r : b.Regs) (i : b.Inputs) : (outputs r i).done = r.doneReg := by
  unfold outputs
  split <;> rfl

theorem outputs_fail (r : b.Regs) (i : b.Inputs) : (outputs r i).fail = r.failReg := by
  unfold outputs
  split <;> rfl

theorem write_result (r : b.Regs) :
    (write r).doneReg = (r.doneReg || lastAddr r && lastPat r) ∧
    (write r).failReg = (r.failReg && !(lastAddr r && lastPat r)) := by
  unfold write
  cases lastAddr r <;> cases lastPat r <;> simp

theorem read_result (r : b.Regs) (dout data : BitVec b.dataWidth) :
    (read r dout data).doneReg = (r.doneReg || r.checkNext && dout ≠ r.expReg ||
      lastAddr r && lastPat r && (r.checkNext && dout = r.expReg)) ∧
    (read r dout data).failReg = (r.checkNext && dout ≠ r.expReg ||
      r.failReg && !(lastAddr r && lastPat r && (r.checkNext && dout = r.expReg))) := by
  unfold read
  cases r.checkNext <;> by_cases hd : dout = r.expReg <;> cases lastAddr r <;>
    cases lastPat r <;> simp [hd]

theorem step_result (r : b.Regs) (i : b.Inputs) :
    (step r i).doneReg = (r.doneReg || mismatches r i || completes r i) ∧
    (step r i).failReg = (mismatches r i || r.failReg && !completes r i) := by
  unfold step mismatches completes
  split <;> next hp => simp [hp, Pattern.isRead, write_result, read_result]

theorem step_doneReg (r : b.Regs) (i : b.Inputs) (h : r.doneReg = true) :
    (step r i).doneReg = true := by
  rw [(step_result r i).1, h]
  rfl

theorem completes_of_mismatches {r : b.Regs} {i : b.Inputs} (h : mismatches r i = true) :
    completes r i = false := by
  unfold mismatches at h
  unfold completes
  cases hp : pattern r <;> simp_all

theorem leavesResult_iff (r : b.Regs) (i : b.Inputs) :
    LeavesResult r i ↔ (r.doneReg = true → (step r i).failReg = r.failReg) := by
  rw [(step_result r i).2]
  refine ⟨fun h hd => ?_, fun h => ⟨fun hd hf => ?_, fun hd hf => ?_⟩⟩
  · cases hf : r.failReg with
    | false => simp [h.pass hd hf]
    | true => simp [h.failure hd hf]
  · simpa [hf] using h hd
  · have h := h hd
    cases hm : mismatches r i with
    | true => exact completes_of_mismatches hm
    | false => simpa [hf, hm] using h

structure InBounds (r : b.Regs) : Prop where
  ctr : r.ctr < b.patterns.length
  addrCnt : r.addrCnt < b.numWords

theorem nextAddr_lt {r : b.Regs} (h : InBounds r) (hl : lastAddr r = false) :
    nextAddr r < b.numWords := by
  have hne : r.addrCnt ≠ b.numWords - 1 := by simpa [lastAddr] using hl
  have := h.addrCnt
  exact (Nat.mod_le _ _).trans_lt (by omega)

theorem nextCtr_lt {r : b.Regs} (h : InBounds r) (hl : lastPat r = false) :
    nextCtr r < b.patterns.length := by
  have hne : r.ctr ≠ b.patterns.length - 1 := by simpa [lastPat] using hl
  have := h.ctr
  exact (Nat.mod_le _ _).trans_lt (by omega)

theorem InBounds.write {r : b.Regs} (h : InBounds r) : InBounds (SramBist.write r) := by
  unfold SramBist.write
  split
  · split
    · exact ⟨h.ctr, b.numWords_pos⟩
    · next hl => exact ⟨nextCtr_lt h (by simpa using hl), b.numWords_pos⟩
  · next hl => exact ⟨h.ctr, nextAddr_lt h (by simpa using hl)⟩

/-- Reading moves the counters as writing does, when it moves them at all. -/
theorem InBounds.read {r : b.Regs} (h : InBounds r) (dout data : BitVec b.dataWidth) :
    InBounds (SramBist.read r dout data) := by
  have hw := h.write
  unfold SramBist.write at hw
  unfold SramBist.read
  split
  · exact ⟨h.ctr, h.addrCnt⟩
  split
  · exact ⟨h.ctr, h.addrCnt⟩
  split_ifs at hw ⊢
  · exact ⟨hw.ctr, hw.addrCnt⟩
  · exact ⟨hw.ctr, hw.addrCnt⟩
  · exact hw

theorem InBounds.step {r : b.Regs} (h : InBounds r) (i : b.Inputs) :
    InBounds (SramBist.step r i) := by
  unfold SramBist.step
  split
  · exact h.write
  · exact h.write
  · exact h.read _ _
  · exact h.read _ _
  · exact h

/-- In every cycle a pattern is selected, and the address is one of the SRAM's. -/
theorem regsAt_inBounds (ins : ℕ → b.Inputs) (k : ℕ) : InBounds (regsAt ins k) :=
  Clocked.invariant ins ⟨List.length_pos_of_ne_nil b.patterns_ne_nil, b.numWords_pos⟩
    (fun _ i h => h.step i) k

theorem done_stays (ins : ℕ → b.Inputs) {k m : ℕ} (hkm : k ≤ m)
    (hk : (regsAt ins k).doneReg = true) : (regsAt ins m).doneReg = true :=
  Clocked.kept_from (P := fun r : b.Regs => r.doneReg = true) ins step_doneReg hkm hk

/-- For every SRAM, every sequence of patterns and every sequence of inputs after a reset:
`done` stays high, and the result shown with it is final if and only if no later cycle
finds a mismatch after a pass or completes the last pattern after a failure. -/
theorem result_final_iff (b : SramBist) (ins : ℕ → b.Inputs) :
    ResultFinal b ins ↔ ∀ k, LeavesResult (regsAt ins k) (ins k) := by
  unfold ResultFinal
  simp only [outputs_done, outputs_fail, leavesResult_iff]
  refine Iff.trans ?_ (Clocked.constant_iff (P := fun r : b.Regs => r.doneReg = true) ins
    (fun r => r.failReg) step_doneReg)
  refine ⟨fun h k m hkm hk => (h k m hkm hk).2, fun h k m hkm hk => ⟨?_, h k m hkm hk⟩⟩
  exact done_stays ins hkm hk

def oneRead : SramBist := ⟨1, 1, [.r0], by decide, by decide⟩

def wrongOnce (k : ℕ) : oneRead.Inputs := ⟨if k = 1 then 1 else 0, 0, 0⟩

/-- The failure reported in cycle 2 is gone in cycle 3. -/
theorem failure_is_cleared :
    outputs (regsAt wrongOnce 2) (wrongOnce 2) = ⟨false, 0, 0, true, true⟩ ∧
    outputs (regsAt wrongOnce 3) (wrongOnce 3) = ⟨false, 0, 0, true, false⟩ ∧
    ¬ ResultFinal oneRead wrongOnce := by
  refine ⟨by decide, by decide, fun h => ?_⟩
  have hf := (h 2 3 (by decide) (by decide)).2
  revert hf
  decide

end SramBist

end PerceptronSoc
