import PerceptronSoc.Proofs.PerceptronRange

/-! One learning step. Each element of a row, the bias and one weight for every history
bit, is pushed up or down by whether its input agrees with the outcome, and enters the
score with the sign of that same input; so in the direction of the outcome every push that
is not stopped by saturation counts one, whichever way it goes. -/

namespace PerceptronSoc.Perceptron

def signed (up : Bool) (x : ℤ) : ℤ := if up then x else -x

def movable (s : Perceptron) (up : Bool) (x : ℤ) : Bool :=
  if up then x != s.maxWeight else x != s.minWeight

/-- How far row `idx` speaks for the outcome `d` under the history `hist`. -/
def margin (s : Perceptron) (hist : List Bool) (idx : ℤ) (d : Bool) : ℤ :=
  signed d (({ s with history := hist } : Perceptron).score idx)

/-- How many of the bias and the weights of the row are not saturated in the direction
that `train(pc, d)` pushes them. -/
def unsaturated (s : Perceptron) (pc : UInt64) (d : Bool) : ℕ :=
  (if s.movable d (s.biasAt (s.index pc)) then 1 else 0) +
    ((Finset.range s.histLen).filter fun i =>
      s.movable (s.history.getD i false == d) (s.weightAt (s.index pc) i) = true).card

variable {n h w : ℕ} {s s' : Perceptron} {pc : UInt64} {d : Bool}

theorem signed_add (up : Bool) (x y : ℤ) : signed up (x + y) = signed up x + signed up y := by
  unfold signed
  split_ifs
  · rfl
  · ring

theorem signed_term (s : Perceptron) (idx : ℤ) (d : Bool) (i : ℕ) :
    signed d (s.term idx i) = signed (s.history.getD i false == d) (s.weightAt idx i) := by
  unfold signed term
  cases s.history.getD i false <;> cases d <;> simp

theorem signed_partialScore (s : Perceptron) (idx : ℤ) (d : Bool) (k : ℕ) :
    signed d (s.partialScore idx k) = signed d (s.biasAt idx) +
      ∑ i ∈ Finset.range k, signed (s.history.getD i false == d) (s.weightAt idx i) := by
  induction k with
  | zero => simp
  | succ k ih =>
    rw [partialScore_succ, signed_add, ih, signed_term, Finset.sum_range_succ, add_assoc]

theorem margin_eq (s : Perceptron) (hist : List Bool) (idx : ℤ) (d : Bool) :
    s.margin hist idx d = signed d (s.biasAt idx) +
      ∑ i ∈ Finset.range s.histLen, signed (hist.getD i false == d) (s.weightAt idx i) :=
  signed_partialScore { s with history := hist } idx d s.histLen

/-- A row speaks for the outcome it predicts. -/
theorem decide_score_eq_iff (x : ℤ) (d : Bool) :
    decide (0 ≤ x) = d ↔ if d then 0 ≤ signed d x else 0 < signed d x := by
  unfold signed
  cases d <;> simp

/-- A push counts one in its own direction, unless the element is saturated. -/
theorem signed_push (s : Perceptron) (up : Bool) (x : ℤ) :
    signed up (if up then s.satInc x else s.satDec x) =
      signed up x + if s.movable up x then 1 else 0 := by
  unfold signed movable satInc satDec Saturate.up Saturate.down
  cases up with
  | true =>
    by_cases hx : x = s.maxWeight
    · simp [hx]
    · simp [hx]
  | false =>
    by_cases hx : x = s.minWeight
    · simp [hx]
    · simp [hx]
      ring

theorem Inv.rowInBounds (hi : Inv n h w s) (hn : 1 ≤ n) (hn' : n < 2 ^ 31) (pc : UInt64) :
    sizeT (s.index pc) < n := by
  obtain ⟨k, hk, hidx⟩ := hi.index_eq hn hn' pc
  rw [hidx, sizeT_natCast]
  exact hk

section Trained

variable (hi : Inv n h w s) (hn : 1 ≤ n) (hn' : n < 2 ^ 31)

include hi hn hn'

theorem Inv.biasAt_trainWeights (pc : UInt64) (d : Bool) :
    (s.trainWeights pc d).biasAt (s.index pc) =
      if d then s.satInc (s.biasAt (s.index pc)) else s.satDec (s.biasAt (s.index pc)) := by
  have hlt : sizeT (s.index pc) < s.bias.length := by
    rw [hi.biasLength]
    exact hi.rowInBounds hn hn' pc
  unfold biasAt Perceptron.trainWeights
  exact Vectors.getD_modify_self hlt

theorem Inv.weightAt_trainWeights (pc : UInt64) (d : Bool) {i : ℕ} (hih : i < h) :
    (s.trainWeights pc d).weightAt (s.index pc) i =
      if s.history.getD i false == d then s.satInc (s.weightAt (s.index pc) i)
      else s.satDec (s.weightAt (s.index pc) i) := by
  have hlt : sizeT (s.index pc) < s.weights.length := by
    rw [hi.weightsLength]
    exact hi.rowInBounds hn hn' pc
  have hrow : i < (s.weights.getD (sizeT (s.index pc)) []).length := by
    rw [hi.rowLength _ (Vectors.getD_mem hlt)]
    exact hih
  unfold weightAt Perceptron.trainWeights
  simp only
  rw [Vectors.getD_modify_self hlt, Perceptron.trainRow,
    List.getD_eq_getElem _ _ (by simpa using hrow), List.getElem_mapIdx,
    List.getD_eq_getElem _ _ hrow]

/-- The margin grows by the pushes that are not stopped. -/
theorem Inv.margin_trainWeights (pc : UInt64) (d : Bool) :
    (s.trainWeights pc d).margin s.history (s.index pc) d =
      s.margin s.history (s.index pc) d + s.unsaturated pc d := by
  have hweights : ∀ i ∈ Finset.range s.histLen,
      signed (s.history.getD i false == d) ((s.trainWeights pc d).weightAt (s.index pc) i) =
        signed (s.history.getD i false == d) (s.weightAt (s.index pc) i) +
          if s.movable (s.history.getD i false == d) (s.weightAt (s.index pc) i) then 1 else 0 := by
    intro i hmem
    rw [hi.weightAt_trainWeights hn hn' pc d (hi.histLen ▸ Finset.mem_range.mp hmem), signed_push]
  have hlen : (s.trainWeights pc d).histLen = s.histLen := rfl
  rw [margin_eq, margin_eq, hlen, Finset.sum_congr rfl hweights, Finset.sum_add_distrib,
    hi.biasAt_trainWeights hn hn', signed_push, unsaturated, Finset.card_filter]
  push_cast
  ring

end Trained

theorem unsaturated_le (s : Perceptron) (pc : UInt64) (d : Bool) :
    s.unsaturated pc d ≤ s.histLen + 1 := by
  have hcard := Finset.card_filter_le (Finset.range s.histLen) fun i =>
    s.movable (s.history.getD i false == d) (s.weightAt (s.index pc) i) = true
  rw [Finset.card_range] at hcard
  unfold unsaturated
  split_ifs <;> omega

/-- No push counts only where every element is saturated. -/
theorem unsaturated_eq_zero_iff (s : Perceptron) (pc : UInt64) (d : Bool) :
    s.unsaturated pc d = 0 ↔ s.movable d (s.biasAt (s.index pc)) = false ∧
      ∀ i < s.histLen,
        s.movable (s.history.getD i false == d) (s.weightAt (s.index pc) i) = false := by
  unfold unsaturated
  rw [Nat.add_eq_zero_iff, Finset.card_eq_zero, Finset.filter_eq_empty_iff]
  simp only [Finset.mem_range, ite_eq_right_iff, one_ne_zero, imp_false, Bool.not_eq_true]

theorem shouldTrain_iff (s : Perceptron) (pc : UInt64) (d : Bool) :
    s.shouldTrain pc d = true ↔
      decide (0 ≤ s.score (s.index pc)) ≠ d ∨ |s.score (s.index pc)| ≤ s.theta := by
  unfold shouldTrain
  rw [Bool.or_eq_true, bne_iff_ne, decide_eq_true_eq]

/-- `train` changes bias and weights by the update loop or not at all. -/
theorem train_rows (s : Perceptron) (pc : UInt64) (d : Bool) :
    s.train pc d = (if s.shouldTrain pc d then s.trainWeights pc d else s).pushHistory d := rfl

theorem train_other_rows (s : Perceptron) (pc : UInt64) (d : Bool) {k : ℕ}
    (hk : k ≠ sizeT (s.index pc)) :
    (s.train pc d).bias.getD k 0 = s.bias.getD k 0 ∧
      (s.train pc d).weights.getD k [] = s.weights.getD k [] := by
  rw [train_rows]
  split_ifs
  · exact ⟨Vectors.getD_modify_ne hk.symm, Vectors.getD_modify_ne hk.symm⟩
  · exact ⟨rfl, rfl⟩

/-- For every size in range, every state a run reaches, every `pc` and every outcome: if
`train` updates, the margin of the row under the history of the lookup grows by exactly the
number of elements that are not saturated in the direction of their push; if it does not,
the row stays as it is. No other row changes, and a right prediction stays right. -/
theorem learning_step (n h w : ℕ) (hn : 1 ≤ n) (hn' : n < 2 ^ 31) (calls : List PredictorCall)
    (pc : UInt64) (d : Bool) :
    let s := (new n h w).run calls
    let s' := s.train pc d
    let r := s.index pc
    let before := s.margin s.history r d
    let after := s'.margin s.history r d
    let updates := decide (0 ≤ s.score r) ≠ d ∨ |s.score r| ≤ s.theta
    (updates →
      after = before + s.unsaturated pc d ∧ before ≤ after ∧ after ≤ before + (h + 1) ∧
      (before < after ↔ ¬ (s.movable d (s.biasAt r) = false ∧
        ∀ i < h, s.movable (s.history.getD i false == d) (s.weightAt r i) = false))) ∧
    (¬ updates → s'.biasAt r = s.biasAt r ∧
      s'.weights.getD (sizeT r) [] = s.weights.getD (sizeT r) []) ∧
    (∀ k ≠ sizeT r, s'.bias.getD k 0 = s.bias.getD k 0 ∧
      s'.weights.getD k [] = s.weights.getD k []) ∧
    (decide (0 ≤ s.score r) = d →
      decide (0 ≤ ({ s' with history := s.history } : Perceptron).score r) = d) := by
  intro s s' r before after updates
  have hi : Inv n h w s := (new_inv n h w).run calls
  have hgrow : updates → after = before + s.unsaturated pc d := by
    intro hup
    have htrain := (shouldTrain_iff s pc d).mpr hup
    have hafter : after = (s.trainWeights pc d).margin s.history r d := by
      simp only [after, s', train_rows, htrain, if_true]
      rfl
    rw [hafter]
    exact hi.margin_trainWeights hn hn' pc d
  have hkeep : ¬ updates → s' = s.pushHistory d := by
    intro hno
    have htrain : s.shouldTrain pc d = false := by
      rw [← Bool.not_eq_true]
      exact fun h => hno ((shouldTrain_iff s pc d).mp h)
    simp only [s', train_rows, htrain, Bool.false_eq_true, if_false]
  refine ⟨fun hup => ?_, fun hno => ?_, fun k hk => train_other_rows s pc d hk, fun hright => ?_⟩
  · have hle := unsaturated_le s pc d
    have hzero := unsaturated_eq_zero_iff s pc d
    rw [hi.histLen] at hle hzero
    rw [hgrow hup, ← hzero]
    exact ⟨rfl, by omega, by exact_mod_cast add_le_add_right (Nat.cast_le.mpr hle) before, by omega⟩
  · rw [hkeep hno]
    exact ⟨rfl, rfl⟩
  · have hle : before ≤ after := by
      by_cases hup : updates
      · rw [hgrow hup]
        omega
      · simp only [before, after, hkeep hup]
        rfl
    rw [decide_score_eq_iff] at hright ⊢
    change if d then 0 ≤ before else 0 < before at hright
    change if d then 0 ≤ after else 0 < after
    split_ifs at hright ⊢ <;> omega

/-- The simulator's own sizes: the first branch, not taken, is mispredicted with a score of
zero, and all 49 pushes count. -/
theorem learning_step_default :
    (default.train 0x80000000 false).margin default.history (default.index 0x80000000) false =
      default.margin default.history (default.index 0x80000000) false + 49 := by
  have h := (learning_step 1024 48 8 (by norm_num) (by norm_num) [] 0x80000000 false).1
    (.inl (by decide +kernel))
  have hcount : default.unsaturated 0x80000000 false = 49 := by decide +kernel
  rw [← Nat.cast_ofNat, ← hcount]
  exact h.1

end PerceptronSoc.Perceptron
