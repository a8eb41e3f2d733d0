import PerceptronSoc.Lib.Settle
import PerceptronSoc.Proofs.PerceptronStep

/-! A branch that always goes the same way. Once the history is full of its outcome the row
is fixed, and every weight of it, with the bias read towards the outcome, takes one
saturating step up whenever the row is trained. -/

namespace PerceptronSoc.Perceptron

def feed (pc : UInt64) (d : Bool) (s : Perceptron) : Perceptron := (s.predict pc).2.train pc d

def predictionAfter (s : Perceptron) (pc : UInt64) (d : Bool) (k : ℕ) : Bool :=
  (((feed pc d)^[k] s).predict pc).1

variable {n h w : ℕ} {s : Perceptron} {pc : UInt64} {d : Bool}

theorem feed_history (pc : UInt64) (d : Bool) (s : Perceptron) :
    (feed pc d s).history = (d :: s.history).dropLast := by
  unfold feed train
  simp only [pushHistory]
  split_ifs <;> rfl

theorem Inv.feed (hi : Inv n h w s) (pc : UInt64) (d : Bool) :
    Inv n h w (Perceptron.feed pc d s) := (hi.predict pc).train pc d

theorem Inv.feed_iterate_history (hi : Inv n h w s) (pc : UInt64) (d : Bool) {k : ℕ} (hk : h ≤ k) :
    ((Perceptron.feed pc d)^[k] s).history = List.replicate h d := by
  have hsemi : Function.Semiconj Perceptron.history (Perceptron.feed pc d)
      fun l => (d :: l).dropLast := feed_history pc d
  rw [(hsemi.iterate_right k).eq, Vectors.shift_iterate_of_le d s.history (hi.historyLength ▸ hk),
    hi.historyLength]

/-- A number read towards the outcome: it votes for `d` if it is not negative. -/
def towards (d : Bool) (x : ℤ) : ℤ := if d then x else -x - 1

theorem predict_eq_iff (s : Perceptron) (pc : UInt64) (d : Bool) :
    (s.predict pc).1 = d ↔ 0 ≤ towards d (s.score (s.index pc)) := by
  cases d with
  | false =>
    simp [predict, towards]
    omega
  | true => simp [predict, towards]

/-- A predictor whose history holds nothing but `d`. -/
structure Full (n h w : ℕ) (d : Bool) (s : Perceptron) : Prop extends Inv n h w s where
  full : s.history = List.replicate h d

theorem Full.term_eq (hf : Full n h w d s) (idx : ℤ) {i : ℕ} (hi : i < h) :
    s.term idx i = if d then s.weightAt idx i else -s.weightAt idx i := by
  unfold term
  rw [hf.full, List.getD_eq_getElem _ _ (by simpa using hi), List.getElem_replicate]

theorem Full.towards_partialScore (hf : Full n h w d s) (idx : ℤ) {k : ℕ} (hk : k ≤ h) :
    towards d (s.partialScore idx k) =
      towards d (s.biasAt idx) + ∑ i ∈ Finset.range k, s.weightAt idx i := by
  induction k with
  | zero => simp
  | succ k ih =>
    rw [partialScore_succ, hf.term_eq idx hk, Finset.sum_range_succ, ← add_assoc,
      ← ih (Nat.le_of_succ_le hk)]
    unfold towards
    cases d
    · simp only [Bool.false_eq_true, if_false]
      ring
    · rfl

theorem Full.towards_score (hf : Full n h w d s) (idx : ℤ) :
    towards d (s.score idx) =
      towards d (s.biasAt idx) + ∑ i ∈ Finset.range h, s.weightAt idx i := by
  rw [score, hf.histLen]
  exact hf.towards_partialScore idx le_rfl

theorem Full.feed (hf : Full n h w d s) (pc : UInt64) : Full n h w d (Perceptron.feed pc d s) where
  toInv := hf.toInv.feed pc d
  full := by rw [feed_history, hf.full, Vectors.shift_replicate]

theorem Full.index_feed (hf : Full n h w d s) (pc : UInt64) :
    (Perceptron.feed pc d s).index pc = s.index pc := by
  have hf' := hf.feed pc
  unfold index foldHistory
  rw [hf'.full, hf.full, hf'.biasLength, hf.biasLength, hf'.histLen, hf.histLen]

theorem feed_of_not_shouldTrain (h : s.shouldTrain pc d = false) (idx : ℤ) (i : ℕ) :
    (feed pc d s).biasAt idx = s.biasAt idx ∧ (feed pc d s).weightAt idx i = s.weightAt idx i := by
  have h' : (s.predict pc).2.shouldTrain pc d = false := h
  unfold feed train
  rw [h']
  exact ⟨rfl, rfl⟩

theorem feed_of_shouldTrain (h : s.shouldTrain pc d = true) :
    (feed pc d s).bias = (s.trainWeights pc d).bias ∧
      (feed pc d s).weights = (s.trainWeights pc d).weights := by
  have h' : (s.predict pc).2.shouldTrain pc d = true := h
  unfold feed train
  rw [h']
  exact ⟨rfl, rfl⟩

/-- A training step moves the bias towards the outcome, up to the largest weight. -/
theorem Inv.towards_satStep (hi : Inv n h w s) (d : Bool) (x : ℤ) :
    towards d (if d then s.satInc x else s.satDec x) =
      Saturate.up (2 ^ (w - 1) - 1) (towards d x) := by
  unfold towards satInc satDec Saturate.up Saturate.down
  rw [hi.maxWeight, hi.minWeight]
  cases d with
  | false =>
    simp only [Bool.false_eq_true, if_false]
    split_ifs <;> omega
  | true => rfl

variable (hn : 1 ≤ n) (hn' : n < 2 ^ 31)

include hn hn'

theorem Full.towards_biasAt_feed (hf : Full n h w d s) (htrain : s.shouldTrain pc d = true) :
    towards d ((Perceptron.feed pc d s).biasAt (s.index pc)) =
      Saturate.up (2 ^ (w - 1) - 1) (towards d (s.biasAt (s.index pc))) := by
  rw [biasAt, (feed_of_shouldTrain htrain).1]
  change towards d ((s.trainWeights pc d).biasAt (s.index pc)) = _
  rw [hf.toInv.biasAt_trainWeights hn hn', hf.towards_satStep]

theorem Full.weightAt_feed (hf : Full n h w d s) (htrain : s.shouldTrain pc d = true) {i : ℕ}
    (hi : i < h) :
    (Perceptron.feed pc d s).weightAt (s.index pc) i =
      Saturate.up (2 ^ (w - 1) - 1) (s.weightAt (s.index pc) i) := by
  rw [weightAt, (feed_of_shouldTrain htrain).2]
  change (s.trainWeights pc d).weightAt (s.index pc) i = _
  rw [hf.toInv.weightAt_trainWeights hn hn' pc d hi, hf.full,
    List.getD_eq_getElem _ _ (by simpa using hi), List.getElem_replicate, beq_self_eq_true,
    if_pos rfl, satInc, hf.maxWeight]

/-- A right prediction stays right. -/
theorem Full.predict_feed (hf : Full n h w d s) (hd : (s.predict pc).1 = d) :
    ((Perceptron.feed pc d s).predict pc).1 = d := by
  rw [predict_eq_iff] at hd ⊢
  rw [hf.towards_score] at hd
  rw [hf.index_feed, (hf.feed pc).towards_score]
  refine hd.trans (add_le_add ?_ (Finset.sum_le_sum fun i hi => ?_))
  · cases htrain : s.shouldTrain pc d with
    | false => rw [(feed_of_not_shouldTrain htrain _ 0).1]
    | true =>
      rw [hf.towards_biasAt_feed hn hn' htrain]
      exact Saturate.le_up _ _
  · cases htrain : s.shouldTrain pc d with
    | false => rw [(feed_of_not_shouldTrain htrain _ i).2]
    | true =>
      rw [hf.weightAt_feed hn hn' htrain (Finset.mem_range.mp hi)]
      exact Saturate.le_up _ _

omit hn hn'

/-- No vote of the branch's row is further than `m` on the wrong side. -/
structure Within (h : ℕ) (pc : UInt64) (d : Bool) (m : ℕ) (s : Perceptron) : Prop where
  bias : -(m : ℤ) ≤ towards d (s.biasAt (s.index pc))
  weight : ∀ i < h, -(m : ℤ) ≤ s.weightAt (s.index pc) i

theorem Inv.within (hi : Inv n h w s) (pc : UInt64) (d : Bool) :
    Within h pc d (2 ^ (w - 1)) s := by
  have hb : s.biasAt (s.index pc) ∈ Set.Icc (-2 ^ (w - 1) : ℤ) (2 ^ (w - 1) - 1) :=
    Vectors.getD_of_forall hi.biasRange (zero_mem_range w)
  refine ⟨?_, fun i _ => ?_⟩
  · obtain ⟨h1, h2⟩ := hb
    unfold towards
    push_cast
    split_ifs <;> omega
  · push_cast
    exact (hi.weightAt_mem _ i).1

theorem Full.predict_of_within_zero (hf : Full n h w d s) (hw : Within h pc d 0 s) :
    (s.predict pc).1 = d := by
  rw [predict_eq_iff, hf.towards_score]
  exact add_nonneg (by simpa using hw.bias)
    (Finset.sum_nonneg fun i hi => by simpa using hw.weight i (Finset.mem_range.mp hi))

/-- A wrong prediction is trained, and every vote comes closer. -/
theorem Full.within_feed (hn : 1 ≤ n) (hn' : n < 2 ^ 31) (hf : Full n h w d s) {m : ℕ}
    (hd : (s.predict pc).1 ≠ d) (hw : Within h pc d m s) :
    ∃ m' < m, Within h pc d m' (Perceptron.feed pc d s) := by
  have htrain : s.shouldTrain pc d = true := by
    unfold shouldTrain
    rw [Bool.or_eq_true, bne_iff_ne]
    exact .inl hd
  cases m with
  | zero => exact absurd (hf.predict_of_within_zero hw) hd
  | succ m =>
    have hmax : (0 : ℤ) ≤ 2 ^ (w - 1) - 1 := (zero_mem_range w).2
    refine ⟨m, m.lt_succ_self, ?_, fun i hi => ?_⟩
    · rw [hf.index_feed, hf.towards_biasAt_feed hn hn' htrain]
      exact Saturate.neg_le_up hmax m.cast_nonneg (by exact_mod_cast hw.bias)
    · rw [hf.index_feed, hf.weightAt_feed hn hn' htrain hi]
      exact Saturate.neg_le_up hmax m.cast_nonneg (by exact_mod_cast hw.weight i hi)

/-- For every size and width in range, from every state a run reaches, with one branch that
always goes the same way: every prediction after the first `h + 2 ^ (w - 1)` is right, and
no more than that many are ever wrong. -/
theorem constant_branch_learned (n h w : ℕ) (hn : 1 ≤ n) (hn' : n < 2 ^ 31)
    (_hw : 1 ≤ w ∧ w ≤ 31) (_hfit : ((h : ℤ) + 1) * 2 ^ (w - 1) ≤ 2 ^ 31 - 1)
    (calls : List PredictorCall) (pc : UInt64) (d : Bool) :
    let s := (new n h w).run calls
    (∀ k, h + 2 ^ (w - 1) ≤ k → s.predictionAfter pc d k = d) ∧
      {k | s.predictionAfter pc d k ≠ d}.encard ≤ h + 2 ^ (w - 1) := by
  intro s
  have hinv : Inv n h w s := (new_inv n h w).run calls
  have hfull : Full n h w d ((feed pc d)^[h] s) :=
    ⟨Settle.kept (I := Inv n h w) (fun _ hs => hs.feed pc d) hinv h, hinv.feed_iterate_history pc d le_rfl⟩
  have hlearned : ∀ k, h + 2 ^ (w - 1) ≤ k → s.predictionAfter pc d k = d := fun k hk =>
    Settle.good_after (I := Full n h w d) (G := fun s => (s.predict pc).1 = d)
      (W := Within h pc d) (fun _ hs => hs.feed pc) (fun _ hs => hs.predict_feed hn hn')
      (fun _ _ hs => hs.within_feed hn hn') hfull (hfull.toInv.within pc d) hk
  refine ⟨hlearned, ?_⟩
  have hsub : {k | s.predictionAfter pc d k ≠ d} ⊆ (Finset.range (h + 2 ^ (w - 1)) : Set ℕ) := by
    intro k hk
    by_contra hge
    exact hk (hlearned k (by simpa using hge))
  calc {k | s.predictionAfter pc d k ≠ d}.encard
      ≤ (Finset.range (h + 2 ^ (w - 1)) : Set ℕ).encard := Set.encard_le_encard hsub
    _ = h + 2 ^ (w - 1) := by
      rw [Set.encard_coe_eq_coe_finsetCard, Finset.card_range]
      push_cast
      rfl

/-- The simulator's own sizes. -/
theorem constant_branch_learned_default :
    default.predictionAfter 0x80000000 false 176 = false :=
  (constant_branch_learned 1024 48 8 (by norm_num) (by norm_num) (by norm_num) (by norm_num) []
    0x80000000 false).1 176 (by norm_num)

end PerceptronSoc.Perceptron
