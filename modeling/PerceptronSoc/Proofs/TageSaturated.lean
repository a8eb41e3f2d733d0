import PerceptronSoc.Proofs.TageView
import PerceptronSoc.Spec.Processor

/-! How confident a saturated base counter is. The range of a two's-complement counter has
one more value below zero than above, and `counter_is_weak` looks at the absolute value, so
the two ends of the range need not be on the same side of it. -/

namespace PerceptronSoc.Tage

/-- The call predicts, or trains `pc` with `d` from a lookup that no table matched. -/
def drill (pc : UInt64) (d : Bool) (s : Tage) : PredictorCall → Bool
  | .predict _ => true
  | .train pc' d' => pc' == pc && d' == d && !(s.refresh pc).lastLookup.providerHit
  | .reset => false

def drills (pc : UInt64) (d : Bool) : Tage → List PredictorCall → Bool
  | _, [] => true
  | s, c :: calls => drill pc d s c && drills pc d (s.exec c) calls

variable {P : TageParams} {s : Tage} {pc : UInt64} {d : Bool} {bits : ℕ}

theorem trainCounters_baseTable_cases (s : Tage) (pc : UInt64) (d : Bool) :
    (s.trainCounters pc d).baseTable = s.baseTable ∨
      (s.trainCounters pc d).baseTable =
        s.baseTable.modify (sizeT (s.baseIndex pc)) (stepCtr s.params.baseCtrBits d) := by
  unfold trainCounters
  simp only
  split_ifs
  · rw [updateUsefulness_frame]
    exact .inl rfl
  · rw [updateUsefulness_frame]
    exact .inr rfl
  · rw [updateUsefulness_frame]
    exact .inl rfl
  · exact .inr rfl

/-- The counters of the base table are in range, whatever the other parameters are. -/
theorem baseTable_in_range (hbits : P.baseCtrBits ≤ 8) (calls : List PredictorCall) :
    ∀ c ∈ ((new P).run calls).baseTable,
      c.toInt ∈ Set.Icc (counterMin P.baseCtrBits) (counterMax P.baseCtrBits) := by
  refine (List.foldlRecOn (motive := fun s : Tage => s.params = P ∧ ∀ c ∈ s.baseTable,
    c.toInt ∈ Set.Icc (counterMin P.baseCtrBits) (counterMax P.baseCtrBits)) calls Tage.exec
    ⟨rfl, (new_ranged P).baseRange⟩ ?_).2
  rintro s ⟨hparams, hrange⟩ c -
  cases c with
  | predict pc => exact ⟨hparams, hrange⟩
  | reset =>
    refine ⟨hparams, fun c hc => ?_⟩
    obtain ⟨_, _, rfl⟩ := List.mem_map.mp hc
    exact zero_mem_counter _
  | train pc d =>
    have hrefresh : (s.refresh pc).params = P ∧ (s.refresh pc).baseTable = s.baseTable := by
      unfold refresh
      split_ifs <;> exact ⟨hparams, rfl⟩
    refine ⟨?_, ?_⟩
    · obtain ⟨tables, h⟩ := train_frame s pc d
      rw [exec, h]
      exact hrefresh.1
    · change ∀ c ∈ (s.train pc d).baseTable, _
      rw [train_baseTable]
      obtain h | h := trainCounters_baseTable_cases (s.refresh pc) pc d
      · rw [h, hrefresh.2]
        exact hrange
      · rw [h, hrefresh.2, hrefresh.1]
        exact Vectors.forall_mem_modify hrange fun c hc => stepCtr_mem hbits d hc

theorem train_of_no_provider (s : Tage) (pc : UInt64) (d : Bool)
    (h : (s.refresh pc).lastLookup.providerHit = false) :
    (s.train pc d).baseTable =
      s.baseTable.modify (sizeT (s.baseIndex pc)) (stepCtr s.params.baseCtrBits d) := by
  have hsame : (s.refresh pc).baseTable = s.baseTable ∧ (s.refresh pc).params = s.params := by
    unfold refresh
    split_ifs <;> exact ⟨rfl, rfl⟩
  rw [train_baseTable, trainCounters]
  simp only [h, Bool.false_eq_true, if_false]
  unfold trainBase baseIndex
  simp only [hsame]

/-- A drill steps the base counter of `pc` once for each training. -/
theorem Shaped.baseAt_drills (hs : Shaped P s) (hP : P.Sized) {calls : List PredictorCall}
    (h : drills pc d s calls = true) :
    (s.run calls).baseAt (s.baseIndex pc) =
      (stepCtr P.baseCtrBits d)^[calls.count (.train pc d)] (s.baseAt (s.baseIndex pc)) := by
  induction calls generalizing s with
  | nil => rfl
  | cons c calls ih =>
    rw [drills, Bool.and_eq_true] at h
    have hexec : Shaped P (s.exec c) := hs.exec hP c
    have hindex : (s.exec c).baseIndex pc = s.baseIndex pc := by
      unfold baseIndex
      rw [hexec.params, hs.params]
    have hrun := ih hexec h.2
    rw [hindex] at hrun
    change ((s.exec c).run calls).baseAt (s.baseIndex pc) = _
    rw [hrun]
    cases c with
    | reset => exact absurd h.1 Bool.false_ne_true
    | predict x =>
      rw [List.count_cons_of_ne (by simp)]
      rfl
    | train pc' d' =>
      simp only [drill, Bool.and_eq_true, beq_iff_eq, Bool.not_eq_true'] at h
      obtain ⟨⟨⟨rfl, rfl⟩, hhit⟩, -⟩ := h
      rw [List.count_cons_self, Function.iterate_succ_apply]
      congr 1
      change (s.train pc' d').baseAt (s.baseIndex pc') = _
      rw [baseAt, train_of_no_provider s pc' d' hhit,
        Vectors.getD_modify_self (hs.baseIndex_lt hP pc'), hs.params]
      rfl

theorem stepCtr_iterate_toInt (hbits : bits ≤ 8) (d : Bool) {c : Int8}
    (hc : c.toInt ∈ Set.Icc (counterMin bits) (counterMax bits)) (n : ℕ) :
    ((stepCtr bits d)^[n] c).toInt = (View.stepTo d bits)^[n] c.toInt := by
  induction n generalizing c with
  | zero => rfl
  | succ n ih =>
    rw [Function.iterate_succ_apply, Function.iterate_succ_apply, ih (stepCtr_mem hbits d hc),
      stepCtr_toInt hbits d hc]
    rfl

/-- A counter that fits its field is saturated after as many steps as it has values. -/
theorem stepCtr_saturates (hbits : bits ≤ 8) (hpos : 1 ≤ bits) (d : Bool) {c : Int8}
    (hc : c.toInt ∈ Set.Icc (counterMin bits) (counterMax bits)) :
    ((stepCtr bits d)^[2 ^ bits] c).toInt = if d then counterMax bits else counterMin bits := by
  have hpow : (2 : ℤ) ^ bits = 2 * 2 ^ (bits - 1) := by
    rw [← pow_succ', Nat.sub_add_cancel hpos]
  have hcast : ((2 ^ bits : ℕ) : ℤ) = 2 * 2 ^ (bits - 1) := by push_cast; exact hpow
  obtain ⟨h1, h2⟩ := id hc
  rw [stepCtr_iterate_toInt hbits d hc]
  cases d with
  | true =>
    change (Saturate.up (counterMax bits))^[2 ^ bits] c.toInt = counterMax bits
    rw [Saturate.up_iterate h2, hcast]
    unfold counterMin at h1
    unfold counterMax
    omega
  | false =>
    change (Saturate.down (counterMin bits))^[2 ^ bits] c.toInt = counterMin bits
    rw [Saturate.down_iterate h1, hcast]
    unfold counterMax at h2
    unfold counterMin
    omega

/-- A counter with more bits than its field never meets its bound and wraps around. -/
theorem stepCtr_wide (hbits : 9 ≤ bits) (d : Bool) (c : Int8) :
    stepCtr bits d c = Int8.ofInt (c.toInt + if d then 1 else -1) := by
  have hpow : (2 : ℤ) ^ 8 ≤ 2 ^ (bits - 1) := pow_le_pow_right₀ (by norm_num) (by omega)
  have hlt := Int8.toInt_lt c
  have hge := Int8.le_toInt c
  unfold stepCtr satInc satDec Saturate.up Saturate.down counterMax counterMin
  cases d with
  | true => rw [if_pos rfl, if_neg (by omega), if_pos rfl]
  | false => rw [if_neg Bool.false_ne_true, if_neg (by omega), if_neg Bool.false_ne_true]; rfl

theorem stepCtr_wide_iterate (hbits : 9 ≤ bits) (d : Bool) (c : Int8) (n : ℕ) :
    (stepCtr bits d)^[n] c = Int8.ofInt (c.toInt + n * if d then 1 else -1) := by
  induction n with
  | zero => simp
  | succ n ih =>
    rw [Function.iterate_succ_apply', ih, stepCtr_wide hbits, Int8.ofInt_add, Int8.ofInt_toInt,
      ← Int8.ofInt_add]
    congr 1
    push_cast
    ring

/-- After as many steps as the declared width has values it is back where it was. -/
theorem stepCtr_returns (hbits : 9 ≤ bits) (d : Bool) (c : Int8) :
    (stepCtr bits d)^[2 ^ bits] c = c := by
  obtain ⟨k, rfl⟩ : ∃ k, bits = 8 + k := ⟨bits - 8, by omega⟩
  have hzero : Int8.ofInt (((2 ^ (8 + k) : ℕ) : ℤ) * if d then 1 else -1) = 0 := by
    rw [Int8.ofInt_eq_iff_bmod_eq_toInt]
    push_cast
    rw [pow_add, mul_assoc]
    exact Int.mul_bmod_right _ _
  rw [stepCtr_wide_iterate hbits, Int8.ofInt_add, Int8.ofInt_toInt, hzero, Int8.add_zero]

/-- Without a matching table both are read off the base counter. -/
theorem predict_of_no_provider (s : Tage) (pc : UInt64)
    (h : (s.lookup pc).providerHit = false) :
    (s.predict pc).1 = counterPredictsTaken (s.baseAt (s.baseIndex pc)).toInt ∧
      (s.predict pc).2.lastPredictionHighConfidence =
        counterIsStrong (s.baseAt (s.baseIndex pc)).toInt s.params.baseCtrBits := by
  have hl := lookup_spec s pc
  have hd := lookup_decided s pc
  refine ⟨?_, ?_⟩
  · change (s.lookup pc).finalPrediction = _
    rw [hd.finalPrediction, hd.usedAlternate, hd.providerPrediction, h]
    rfl
  · unfold lastPredictionHighConfidence
    rw [lastLookup_predict]
    simp only [hl.valid, h, hl.atPc, Bool.not_true, Bool.not_false, Bool.false_eq_true, if_true,
      if_false]
    rfl

theorem strong_iff (hbits : 2 ≤ bits) (c : ℤ) : counterIsStrong c bits = true ↔ 2 ≤ |c| := by
  unfold counterIsStrong counterIsWeak
  rw [Bool.not_eq_true', decide_eq_false_iff_not, not_or]
  omega

/-- The ends of the range, judged by `counter_is_weak`: only the upper one can be weak. -/
theorem saturated_confident_iff (hbits : 2 ≤ bits) (d : Bool) :
    (counterPredictsTaken (if d then counterMax bits else counterMin bits) = d ∧
      2 ≤ |if d then counterMax bits else counterMin bits|) ↔ (d = true → 3 ≤ bits) := by
  have hpow : (2 : ℤ) ^ 1 ≤ 2 ^ (bits - 1) := pow_le_pow_right₀ (by norm_num) (by omega)
  unfold counterPredictsTaken counterMax counterMin
  cases d with
  | true =>
    have habs : |(2 : ℤ) ^ (bits - 1) - 1| = 2 ^ (bits - 1) - 1 := abs_of_nonneg (by omega)
    simp only [if_true, habs, true_imp_iff, decide_eq_true_eq]
    constructor
    · rintro ⟨-, h⟩
      by_contra hlt
      obtain rfl : bits = 2 := by omega
      norm_num at h
    · intro h
      have hpow' : (2 : ℤ) ^ 2 ≤ 2 ^ (bits - 1) := pow_le_pow_right₀ (by norm_num) (by omega)
      exact ⟨by omega, by omega⟩
  | false =>
    have habs : |-(2 : ℤ) ^ (bits - 1)| = 2 ^ (bits - 1) := by
      rw [abs_neg]
      exact abs_of_nonneg (by omega)
    simp only [Bool.false_eq_true, if_false, habs, false_imp_iff, iff_true,
      decide_eq_false_iff_not]
    exact ⟨by omega, by omega⟩

/-- For every parameter set, every state a run reaches and every drill of `pc` with as many
trainings as the base counter has values, and no table matching after it: the next
prediction is the drilled outcome with high confidence, which the hybrid then follows, if
and only if the counter has three bits for taken; or, where it is wider than the field it
is stored in, if it was so before the drill. -/
theorem drilled_base_confident_iff (P : TageParams) (hP : P.Sized) (hbits : 2 ≤ P.baseCtrBits)
    (calls drilled : List PredictorCall) (pc : UInt64) (d : Bool)
    (hdrill : drills pc d ((new P).run calls) drilled = true)
    (hcount : drilled.count (.train pc d) = 2 ^ P.baseCtrBits)
    (hnext : ((((new P).run calls).run drilled).predict pc).2.lastLookup.providerHit = false) :
    let s := (new P).run calls
    let p := (s.run drilled).predict pc
    (p.1 = d ∧ p.2.lastPredictionHighConfidence = true ∧
      ∀ perceptron other, Processor.chooseHybrid p.2 perceptron p.1 other = p.1) ↔
    if P.baseCtrBits ≤ 8 then d = true → 3 ≤ P.baseCtrBits
    else
      counterPredictsTaken (s.baseAt (s.baseIndex pc)).toInt = d ∧
        2 ≤ |(s.baseAt (s.baseIndex pc)).toInt| := by
  intro s p
  have hs : Shaped P s := (new_shaped P).run hP calls
  have hs' : Shaped P (s.run drilled) := hs.run hP drilled
  have hindex : (s.run drilled).baseIndex pc = s.baseIndex pc := by
    unfold baseIndex
    rw [hs'.params, hs.params]
  have hbase := hs.baseAt_drills hP hdrill
  rw [hcount] at hbase
  obtain ⟨hpred, hconf⟩ := predict_of_no_provider (s.run drilled) pc hnext
  rw [hindex, hbase] at hpred hconf
  rw [hs'.params] at hconf
  have hhybrid : p.2.lastPredictionHighConfidence = true →
      ∀ perceptron other, Processor.chooseHybrid p.2 perceptron p.1 other = p.1 := by
    intro h perceptron other
    unfold Processor.chooseHybrid
    rw [if_pos h]
  have hdrop : (p.1 = d ∧ p.2.lastPredictionHighConfidence = true ∧
      ∀ perceptron other, Processor.chooseHybrid p.2 perceptron p.1 other = p.1) ↔
      (p.1 = d ∧ p.2.lastPredictionHighConfidence = true) :=
    and_congr_right fun _ => and_iff_left_of_imp hhybrid
  rw [hdrop, hpred, hconf, strong_iff hbits]
  split_ifs with hfits
  · have hrange : (s.baseAt (s.baseIndex pc)).toInt ∈
        Set.Icc (counterMin P.baseCtrBits) (counterMax P.baseCtrBits) :=
      Vectors.getD_of_forall (P := fun c : Int8 => c.toInt ∈ Set.Icc _ _)
        (baseTable_in_range hfits calls) (zero_mem_counter _)
    rw [stepCtr_saturates hfits (by omega) d hrange]
    exact saturated_confident_iff hbits d
  · rw [stepCtr_returns (by omega)]

/-- Four trainings for taken, one for each value of the two-bit counter. -/
def fourTaken : List PredictorCall := List.replicate 4 (.train 0x80000000 true)

/-- The simulator's own base counters have two bits: saturated for taken, one is `1`, and
that is weak. -/
theorem saturated_taken_is_weak :
    2 ≤ TageParams.boomLikeDefault.baseCtrBits ∧
    drills 0x80000000 true default fourTaken = true ∧
    fourTaken.count (.train 0x80000000 true) = 2 ^ TageParams.boomLikeDefault.baseCtrBits ∧
    ((default.run fourTaken).predict 0x80000000).2.lastLookup.providerHit = false ∧
    ((default.run fourTaken).predict 0x80000000).1 = true ∧
    ((default.run fourTaken).predict 0x80000000).2.lastPredictionHighConfidence = false := by
  decide +kernel

/-- With three bits the same drill, twice as long, ends with high confidence. -/
theorem saturated_taken_three_bits :
    let P := { TageParams.boomLikeDefault with baseCtrBits := 3 }
    (((new P).run (fourTaken ++ fourTaken)).predict
      0x80000000).2.lastPredictionHighConfidence = true := by
  intro P
  have h := drilled_base_confident_iff P ⟨by decide, by decide⟩ (by decide) []
    (fourTaken ++ fourTaken) 0x80000000 true (by decide +kernel) (by decide) (by decide +kernel)
  exact (h.mpr (fun _ => by decide)).2.1

end PerceptronSoc.Tage
