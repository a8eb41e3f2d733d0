import PerceptronSoc.Proofs.TageAllocation

/-! What the stored lookup of a TAGE predictor is good for after the call that made it.
`train` trusts it whenever it is for the same `pc`, also when the last call was a `train`
that has moved the history and the counters since; and the confidence is read off the
provider, also when the alternate made the prediction. -/

namespace PerceptronSoc.Tage

variable {s : Tage}

/-- A record without the fields that `decideLookup` fills in. -/
def undecided (l : LastLookup) : LastLookup :=
  { l with
    finalPrediction := false
    providerPrediction := false
    alternatePrediction := false
    providerWeak := false
    usedAlternate := false }

theorem decideLookup_undecided (s : Tage) (pc : UInt64) (l : LastLookup) :
    s.decideLookup pc (undecided l) = s.decideLookup pc l := rfl

theorem scanTables_undecided (s : Tage) (t : ℕ) (l : LastLookup) (hp : l.providerHit = false)
    (ha : l.alternateHit = false) :
    s.scanTables t (undecided l) = undecided (s.scanTables t l) := by
  rw [scanTables_eq s t (undecided l) hp ha, scanTables_eq s t l hp ha]
  have hsame : s.hitTables (undecided l) t = s.hitTables l t := rfl
  rw [hsame]
  split <;> rfl

theorem lookup_eq_undecided (s : Tage) (pc : UInt64) :
    s.lookup pc = s.decideLookup pc
      (s.scanTables s.params.tableInfo.length (undecided (s.startLookup pc))) := by
  rw [scanTables_undecided s _ _ rfl rfl, decideLookup_undecided, lookup]

theorem scanTables_setLast (s : Tage) (stored : LastLookup) (t : ℕ) (l : LastLookup) :
    ({ s with lastLookup := stored } : Tage).scanTables t l = s.scanTables t l := by
  induction t generalizing l with
  | zero => rfl
  | succ t ih => simp only [scanTables, ih]; rfl

/-- What is stored does not matter to the next lookup. -/
theorem lookup_setLast (s : Tage) (stored : LastLookup) (pc : UInt64) :
    ({ s with lastLookup := stored } : Tage).lookup pc = s.lookup pc := by
  rw [lookup_eq_undecided, lookup_eq_undecided s, scanTables_setLast]
  rfl

theorem predict_lastLookup (s : Tage) (pc : UInt64) :
    (s.predict pc).2.lastLookup = (s.predict pc).2.lookup pc :=
  (lookup_setLast s (s.lookup pc) pc).symm

theorem refresh_of_current {pc : UInt64} (h : s.lastLookup = s.lookup pc) : s.refresh pc = (s.predict pc).2 := by
  unfold refresh predict
  split
  · rfl
  · rw [← h]

theorem refresh_predict (s : Tage) (pc : UInt64) :
    (s.predict pc).2.refresh pc = (s.predict pc).2 := by
  rw [refresh_of_current (predict_lastLookup s pc)]
  unfold predict
  simp only [lookup_setLast]

theorem refresh_pc (s : Tage) (pc : UInt64) : (s.refresh pc).lastLookup.pc = pc := by
  unfold refresh
  split_ifs with h
  · exact (lookup_spec s pc).atPc
  · simp only [Bool.or_eq_true, bne_iff_ne, not_or, not_not] at h
    exact h.2

/-- `train` leaves behind the record it trained from. -/
theorem train_lastLookup (s : Tage) (pc : UInt64) (taken : Bool) :
    (s.train pc taken).lastLookup = (s.refresh pc).lastLookup := by
  obtain ⟨tables, h⟩ := train_frame s pc taken
  rw [h]

/-- After any run the record is missing, or is what a lookup would find now, or is that of
the `pc` just trained. -/
theorem stored_cases (P : TageParams) (calls : List PredictorCall) :
    let s := (new P).run calls
    s.lastLookup.valid = false ∨ s.lastLookup = s.lookup s.lastLookup.pc ∨
      ∃ d, calls.getLast? = some (.train s.lastLookup.pc d) := by
  intro s
  rcases List.eq_nil_or_concat calls with rfl | ⟨calls, c, rfl⟩
  · exact .inl rfl
  rw [List.concat_eq_append, List.getLast?_concat]
  have hs : s = ((new P).run calls).exec c := by
    simp only [s, List.concat_eq_append, run_snoc]
  rw [hs]
  cases c with
  | predict pc =>
    refine .inr (.inl ?_)
    have hpc : (((new P).run calls).predict pc).2.lastLookup.pc = pc := (lookup_spec _ pc).atPc
    rw [exec, hpc]
    exact predict_lastLookup _ pc
  | train pc d =>
    refine .inr (.inr ⟨d, ?_⟩)
    rw [exec, train_lastLookup, refresh_pc]
  | reset => exact .inl rfl

/-- For every state reached by a run and every `pc` that the last call did not train:
`train` does to the predictor what `predict` and then `train` would do. -/
theorem train_uses_current_lookup (P : TageParams) (calls : List PredictorCall) (pc : UInt64)
    (taken : Bool) (hlast : ∀ d, calls.getLast? ≠ some (.train pc d)) :
    ((new P).run calls).train pc taken = (((new P).run calls).predict pc).2.train pc taken := by
  have hrefresh : ((new P).run calls).refresh pc = (((new P).run calls).predict pc).2 := by
    by_cases hpc : ((new P).run calls).lastLookup.pc = pc
    · obtain hv | hcur | ⟨d, hd⟩ := stored_cases P calls
      · unfold refresh
        rw [hv]
        rfl
      · rw [hpc] at hcur
        exact refresh_of_current hcur
      · rw [hpc] at hd
        exact absurd hd (hlast d)
    · unfold refresh
      rw [if_pos (by simp [hpc])]
  unfold train
  rw [refresh_predict, hrefresh]

theorem train_uses_current_lookup_default :
    (default.run [.train 0x80000000 false]).train 0x80000010 true =
      ((default.run [.train 0x80000000 false]).predict 0x80000010).2.train 0x80000010 true :=
  train_uses_current_lookup TageParams.boomLikeDefault [.train 0x80000000 false] 0x80000010 true
    (by simp)

/-- Two `train`s of one branch: the second allocates the entry again that the first has
allocated, where a lookup would have found it and trained it. -/
theorem second_train_is_stale :
    let s := default.run [.train 0x80000000 false]
    ((s.train 0x80000000 false).entryAt 0 134).ctr = -1 ∧
    (((s.predict 0x80000000).2.train 0x80000000 false).entryAt 0 134).ctr = -2 := by
  decide +kernel

/-- The counter that made the prediction of the stored lookup, with its width. -/
def decidingCounter (s : Tage) : ℤ × ℕ :=
  if s.lastLookup.usedAlternate then
    ((s.alternateEntry s.lastLookup).ctr.toInt, s.params.taggedCtrBits)
  else if s.lastLookup.providerHit then
    ((s.providerEntry s.lastLookup).ctr.toInt, s.params.taggedCtrBits)
  else ((s.baseAt (s.baseIndex s.lastLookup.pc)).toInt, s.params.baseCtrBits)

/-- `last_prediction_high_confidence()` answers for the counter that made the prediction. -/
def ConfidenceRight (s : Tage) : Prop :=
  s.lastPredictionHighConfidence = true ↔
    counterIsStrong s.decidingCounter.1 s.decidingCounter.2 = true

/-- The deciding counter does decide the prediction. -/
theorem predict_decidingCounter (s : Tage) (pc : UInt64) :
    (s.predict pc).1 = counterPredictsTaken (s.predict pc).2.decidingCounter.1 := by
  have hd := lookup_decided s pc
  have hpc := (lookup_spec s pc).atPc
  have hprovider := hd.providerPrediction
  have halternate := hd.alternatePrediction
  have hused := hd.usedAlternate
  change (s.lookup pc).finalPrediction = _
  rw [hd.finalPrediction]
  unfold decidingCounter
  change _ = counterPredictsTaken (if (s.lookup pc).usedAlternate then
      ((s.alternateEntry (s.lookup pc)).ctr.toInt, s.params.taggedCtrBits)
    else if (s.lookup pc).providerHit then
      ((s.providerEntry (s.lookup pc)).ctr.toInt, s.params.taggedCtrBits)
    else ((s.baseAt (s.baseIndex (s.lookup pc).pc)).toInt, s.params.baseCtrBits)).1
  cases hu : (s.lookup pc).usedAlternate with
  | true =>
    have ha : (s.lookup pc).alternateHit = true := by
      rw [hu] at hused
      exact (Bool.and_eq_true_iff.mp hused.symm).2
    rw [ha] at halternate
    exact halternate
  | false =>
    cases hp : (s.lookup pc).providerHit with
    | true =>
      rw [hp] at hprovider
      exact hprovider
    | false =>
      rw [hp] at hprovider
      rw [hpc]
      exact hprovider

theorem weak_of_usedAlternate (s : Tage) (pc : UInt64)
    (h : (s.lookup pc).usedAlternate = true) :
    (s.lookup pc).providerHit = true ∧
      counterIsWeak (s.providerEntry (s.lookup pc)).ctr.toInt s.params.taggedCtrBits = true := by
  have hd := lookup_decided s pc
  rw [hd.usedAlternate] at h
  simp only [Bool.and_eq_true] at h
  obtain ⟨⟨⟨hp, -⟩, hweak⟩, -⟩ := h
  refine ⟨hp, ?_⟩
  rw [hd.providerWeak, if_pos hp] at hweak
  exact hweak

/-- In every state right after a `predict`: the deciding counter has made the prediction, and the
confidence is that of this counter if and only if it is not a strong alternate's. -/
theorem confidence_right_iff (P : TageParams) (calls : List PredictorCall) (pc : UInt64) :
    let s := (((new P).run calls).predict pc).2
    s.lastLookup.finalPrediction = counterPredictsTaken s.decidingCounter.1 ∧
    (s.ConfidenceRight ↔
      ¬ (s.lastLookup.usedAlternate = true ∧
        counterIsStrong (s.alternateEntry s.lastLookup).ctr.toInt s.params.taggedCtrBits = true)) := by
  intro s
  refine ⟨predict_decidingCounter _ pc, ?_⟩
  have hvalid : s.lastLookup.valid = true := (lookup_spec _ pc).valid
  unfold ConfidenceRight lastPredictionHighConfidence decidingCounter
  simp only [hvalid, Bool.not_true, Bool.false_eq_true, if_false]
  cases hu : s.lastLookup.usedAlternate with
  | true =>
    obtain ⟨hp, hweak⟩ := weak_of_usedAlternate ((new P).run calls) pc hu
    change s.lastLookup.providerHit = true at hp
    change counterIsWeak (s.providerEntry s.lastLookup).ctr.toInt s.params.taggedCtrBits = true
      at hweak
    simp [hp, counterIsStrong, hweak]
  | false =>
    cases s.lastLookup.providerHit <;> simp

/-- Three runs of a branch not taken make the entry of table 0 strong; one taken allocates
above it, and eight branches elsewhere bring the history back. -/
def weakOverStrong : List PredictorCall :=
  (List.replicate 3 [.predict 0x80000000, .train 0x80000000 false]).flatten ++
    [.predict 0x80000000, .train 0x80000000 true] ++
    (List.replicate 8 [.predict 0x80000010, .train 0x80000010 false]).flatten

/-- The prediction is that of the alternate with counter `-2`, and is reported as weak. -/
theorem strong_alternate_is_reported_weak :
    let s := ((default.run weakOverStrong).predict 0x80000000).2
    s.lastLookup.usedAlternate = true ∧ s.decidingCounter = (-2, 3) ∧
      s.lastPredictionHighConfidence = false ∧ ¬ s.ConfidenceRight := by
  intro s
  have h : s.lastLookup.usedAlternate = true ∧ s.decidingCounter = (-2, 3) ∧
      s.lastPredictionHighConfidence = false := by decide +kernel
  refine ⟨h.1, h.2.1, h.2.2, fun hr => ?_⟩
  unfold ConfidenceRight at hr
  rw [h.2.1, h.2.2] at hr
  revert hr
  decide

end PerceptronSoc.Tage
