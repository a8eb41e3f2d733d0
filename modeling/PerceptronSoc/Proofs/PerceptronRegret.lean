import PerceptronSoc.Proofs.History
import PerceptronSoc.Proofs.Hybrid
import PerceptronSoc.Proofs.PerceptronStep

/-! How many branches the perceptron can get wrong. The trained weights are measured
against a fixed setting of every row: an update moves the row it trains towards any setting
that speaks for the outcome, and the saturating steps never undo that, because the setting
lies in the same range. The squared distance to the setting therefore pays for the misses. -/

namespace PerceptronSoc.Perceptron

/-- A fixed setting of the bias and the weights of every row. -/
structure Setting where
  bias : ℕ → ℤ
  weight : ℕ → ℕ → ℤ

namespace Setting

def Fits (v : Setting) (w : ℕ) : Prop :=
  ∀ r, v.bias r ∈ Set.Icc (-2 ^ (w - 1) : ℤ) (2 ^ (w - 1) - 1) ∧
    ∀ i, v.weight r i ∈ Set.Icc (-2 ^ (w - 1) : ℤ) (2 ^ (w - 1) - 1)

/-- How far row `r` of the setting speaks for the outcome `d` under the history `hist`. -/
def margin (v : Setting) (h : ℕ) (hist : List Bool) (r : ℕ) (d : Bool) : ℤ :=
  signed d (v.bias r) + ∑ i ∈ Finset.range h, signed (hist.getD i false == d) (v.weight r i)

def normSq (v : Setting) (n h : ℕ) : ℤ :=
  ∑ r ∈ Finset.range n, (v.bias r ^ 2 + ∑ i ∈ Finset.range h, v.weight r i ^ 2)

end Setting

def rowOf (n h : ℕ) (hist : List Bool) (pc : UInt64) : ℕ :=
  sizeT (({ new n h 1 with history := hist } : Perceptron).index pc)

def historyAt (h : ℕ) (bs : List (UInt64 × Bool)) (k : ℕ) : List Bool :=
  window h ((bs.take k).map Prod.snd).reverse

/-- By how much the setting misses the margin `γ` on the `k`-th branch of a run. -/
def Setting.shortfall (v : Setting) (n h : ℕ) (γ : ℤ) (bs : List (UInt64 × Bool)) (k : ℕ) : ℤ :=
  match bs[k]? with
  | some (pc, d) => max 0 (γ - v.margin h (historyAt h bs k) (rowOf n h (historyAt h bs k) pc) d)
  | none => 0

/-- The squared distance of one row of the tables to the setting. -/
def rowDistSq (s : Perceptron) (v : Setting) (r : ℕ) : ℤ :=
  (s.bias.getD r 0 - v.bias r) ^ 2 +
    ∑ i ∈ Finset.range s.histLen, ((s.weights.getD r []).getD i 0 - v.weight r i) ^ 2

def distSq (s : Perceptron) (v : Setting) : ℤ := ∑ r ∈ Finset.range s.bias.length, s.rowDistSq v r

variable {n h w : ℕ} {s : Perceptron} {v : Setting} {pc : UInt64} {d : Bool}

theorem distSq_nonneg (s : Perceptron) (v : Setting) : 0 ≤ s.distSq v := by
  unfold distSq rowDistSq
  positivity

theorem distSq_new (n h w : ℕ) (v : Setting) : (new n h w).distSq v = v.normSq n h := by
  have hbias : (new n h w).bias.length = n := by simp [new]
  unfold distSq Setting.normSq
  rw [hbias]
  apply Finset.sum_congr rfl
  intro r hr
  have hr' : r < n := Finset.mem_range.mp hr
  have hrow : (new n h w).weights.getD r [] = List.replicate h 0 := by
    simp [new, hr']
  have hzero : (new n h w).bias.getD r 0 = 0 := by simp [new, hr']
  unfold rowDistSq
  rw [hrow, hzero, zero_sub, neg_sq]
  congr 1
  apply Finset.sum_congr rfl
  intro i hi
  have hi' : i < h := Finset.mem_range.mp hi
  simp [hi']

/-- A push goes towards every number of the range that is large in its direction. -/
theorem Inv.sq_push_sub_le (hi : Inv n h w s) (up : Bool) (x : ℤ) {y : ℤ}
    (hy : y ∈ Set.Icc (-2 ^ (w - 1) : ℤ) (2 ^ (w - 1) - 1)) :
    ((if up then s.satInc x else s.satDec x) - y) ^ 2 ≤
      (x - y) ^ 2 + 2 * (signed up x - signed up y) + 1 := by
  cases up with
  | true =>
    have hle := Saturate.sq_up_sub_le (hi.maxWeight ▸ hy.2) x
    simp only [signed, satInc, if_true]
    linarith
  | false =>
    have hle := Saturate.sq_down_sub_le (hi.minWeight ▸ hy.1) x
    simp only [signed, satDec, Bool.false_eq_true, if_false]
    linarith

section Trained

variable (hi : Inv n h w s) (hn : 1 ≤ n) (hn' : n < 2 ^ 31)

include hi hn hn'

/-- One update, on the row that it trains. -/
theorem Inv.rowDistSq_trainWeights (hv : v.Fits w) (pc : UInt64) (d : Bool) :
    (s.trainWeights pc d).rowDistSq v (sizeT (s.index pc)) ≤
      s.rowDistSq v (sizeT (s.index pc)) +
        2 * (s.margin s.history (s.index pc) d - v.margin h s.history (sizeT (s.index pc)) d) +
        (h + 1) := by
  set r := sizeT (s.index pc) with hr
  have hbias : ((s.trainWeights pc d).bias.getD r 0 - v.bias r) ^ 2 ≤
      (s.bias.getD r 0 - v.bias r) ^ 2 +
        2 * (signed d (s.bias.getD r 0) - signed d (v.bias r)) + 1 := by
    have htrained := hi.biasAt_trainWeights hn hn' pc d
    rw [biasAt, biasAt] at htrained
    rw [hr, htrained]
    exact hi.sq_push_sub_le d _ (hv _).1
  have hweight : ∀ i ∈ Finset.range h,
      (((s.trainWeights pc d).weights.getD r []).getD i 0 - v.weight r i) ^ 2 ≤
        ((s.weights.getD r []).getD i 0 - v.weight r i) ^ 2 +
          2 * (signed (s.history.getD i false == d) ((s.weights.getD r []).getD i 0) -
            signed (s.history.getD i false == d) (v.weight r i)) + 1 := by
    intro i hmem
    have htrained := hi.weightAt_trainWeights hn hn' pc d (Finset.mem_range.mp hmem)
    rw [weightAt, weightAt] at htrained
    rw [hr, htrained]
    exact hi.sq_push_sub_le _ _ ((hv _).2 i)
  have hsum := Finset.sum_le_sum hweight
  simp only [Finset.sum_add_distrib, ← Finset.mul_sum, Finset.sum_sub_distrib, Finset.sum_const,
    Finset.card_range, nsmul_eq_mul, mul_one] at hsum
  have hlen : (s.trainWeights pc d).histLen = h := hi.histLen
  rw [margin_eq, Setting.margin, rowDistSq, rowDistSq, hlen, hi.histLen]
  unfold biasAt weightAt
  rw [← hr]
  linarith

theorem Inv.distSq_trainWeights (hv : v.Fits w) (pc : UInt64) (d : Bool) :
    (s.trainWeights pc d).distSq v ≤ s.distSq v +
      2 * (s.margin s.history (s.index pc) d - v.margin h s.history (sizeT (s.index pc)) d) +
      (h + 1) := by
  have hlen : (s.trainWeights pc d).bias.length = n := (hi.trainWeights pc d).biasLength
  have hmem : sizeT (s.index pc) ∈ Finset.range n := Finset.mem_range.mpr (hi.rowInBounds hn hn' pc)
  have hother : ∀ r ∈ (Finset.range n).erase (sizeT (s.index pc)),
      (s.trainWeights pc d).rowDistSq v r = s.rowDistSq v r := by
    intro r hr
    have hne : sizeT (s.index pc) ≠ r := (Finset.ne_of_mem_erase hr).symm
    unfold rowDistSq Perceptron.trainWeights
    simp only
    rw [Vectors.getD_modify_ne hne, Vectors.getD_modify_ne hne]
  unfold distSq
  rw [hlen, hi.biasLength, ← Finset.add_sum_erase _ _ hmem, ← Finset.add_sum_erase _ _ hmem,
    Finset.sum_congr rfl hother]
  linarith [hi.rowDistSq_trainWeights hn hn' hv pc d]

end Trained

/-- A wrong guess has no margin for the outcome, and a right one that still trains has at
most the threshold. -/
theorem margin_le_of_shouldTrain (hs : s.shouldTrain pc d = true) (hθ : s.theta = 76) :
    s.margin s.history (s.index pc) d ≤
      if decide (0 ≤ s.score (s.index pc)) ≠ d then 0 else 76 := by
  rw [shouldTrain_iff, hθ] at hs
  have hmargin : s.margin s.history (s.index pc) d = signed d (s.score (s.index pc)) := rfl
  rw [hmargin]
  unfold signed
  split_ifs with hd hmiss hmiss
  · subst hd
    simp only [ne_eq, decide_eq_true_eq] at hmiss
    omega
  · exact (abs_le.mp (hs.resolve_left hmiss)).2
  · rw [Bool.not_eq_true] at hd
    subst hd
    simp only [ne_eq, decide_eq_false_iff_not, not_not] at hmiss
    omega
  · linarith [(abs_le.mp (hs.resolve_left hmiss)).1]

/-- The distance pays for a miss, up to what the setting falls short of the margin. -/
theorem Inv.distSq_step (hi : Inv n h w s) (hn : 1 ≤ n) (hn' : n < 2 ^ 31) (hv : v.Fits w) {γ : ℤ}
    (hγ : 2 * 76 + (h + 1) ≤ 2 * γ) (b : UInt64 × Bool) :
    (online.step s b).distSq v + (if online.mispredicts s b then 2 * γ - (h + 1) else 0) ≤
      s.distSq v +
        2 * max 0 (γ - v.margin h s.history (sizeT (s.index b.1)) b.2) := by
  obtain ⟨pc, d⟩ := b
  have hmiss : online.mispredicts s (pc, d) = true ↔ decide (0 ≤ s.score (s.index pc)) ≠ d :=
    bne_iff_ne
  have hdist : (online.step s (pc, d)).distSq v =
      (if s.shouldTrain pc d then s.trainWeights pc d else s).distSq v := by
    change ((s.predict pc).2.train pc d).distSq v = _
    have hsame : (s.predict pc).2.shouldTrain pc d = s.shouldTrain pc d := rfl
    rw [train_rows, hsame]
    split_ifs <;> rfl
  have hpos := le_max_left 0 (γ - v.margin h s.history (sizeT (s.index pc)) d)
  have hgap := le_max_right 0 (γ - v.margin h s.history (sizeT (s.index pc)) d)
  rw [hdist]
  by_cases hs : s.shouldTrain pc d = true
  · have hstep := hi.distSq_trainWeights hn hn' hv pc d
    have hle := margin_le_of_shouldTrain hs hi.theta
    rw [if_pos hs]
    split_ifs at hle ⊢ with h1 h2 h2
    · linarith
    · exact absurd (hmiss.mp h1) h2
    · exact absurd (hmiss.mpr h2) h1
    · linarith
  · have hright : ¬ online.mispredicts s (pc, d) = true := fun hm =>
      hs ((shouldTrain_iff s pc d).mpr (.inl (hmiss.mp hm)))
    rw [if_neg hs, if_neg hright]
    linarith

theorem Inv.after (hi : Inv n h w s) (bs : List (UInt64 × Bool)) :
    Inv n h w (online.after s bs) :=
  List.foldlRecOn bs online.step hi fun _ hs b _ => (hs.predict b.1).train b.1 b.2

theorem history_after (n h w : ℕ) (bs : List (UInt64 × Bool)) :
    (online.after (new n h w) bs).history = window h (bs.map Prod.snd).reverse := by
  induction bs using List.reverseRecOn with
  | nil => exact (window_nil h).symm
  | append_singleton bs b ih =>
    have hstep : (online.step (online.after (new n h w) bs) b).history =
        (b.2 :: (online.after (new n h w) bs).history).dropLast := by
      change (((online.after (new n h w) bs).predict b.1).2.train b.1 b.2).history = _
      rw [train_rows, Perceptron.pushHistory]
      split_ifs <;> rfl
    rw [Online.after_snoc, hstep, ih, window_cons]
    simp

theorem Inv.rowOf_eq (hi : Inv n h w s) (pc : UInt64) :
    sizeT (s.index pc) = rowOf n h s.history pc := by
  unfold rowOf index
  simp only [foldHistory, hi.biasLength, hi.histLen]
  simp [new]

/-- For every size in range, every sequence of branches, every setting of the rows that the
weights could hold and every margin `γ` that exceeds the training threshold by half a row:
each misprediction costs `2 * γ - (h + 1)`, and the whole run pays for them with the squared
size of the setting and twice what the setting itself falls short of `γ`. -/
theorem mispredictions_le_shortfall (n h w : ℕ) (hn : 1 ≤ n) (hn' : n < 2 ^ 31) (v : Setting)
    (hv : v.Fits w) (γ : ℤ) (hγ : 2 * 76 + ((h : ℤ) + 1) ≤ 2 * γ) (bs : List (UInt64 × Bool)) :
    (2 * γ - (h + 1)) * online.misses (new n h w) bs ≤
      v.normSq n h + 2 * ∑ k ∈ Finset.range bs.length, v.shortfall n h γ bs k := by
  have hpay : ∀ k b, bs[k]? = some b →
      (online.step (online.after (new n h w) (bs.take k)) b).distSq v +
        (if online.mispredicts (online.after (new n h w) (bs.take k)) b then 2 * γ - (h + 1) else 0) ≤
        (online.after (new n h w) (bs.take k)).distSq v + 2 * v.shortfall n h γ bs k := by
    intro k b hk
    have hi : Inv n h w (online.after (new n h w) (bs.take k)) := (new_inv n h w).after _
    have hstep := hi.distSq_step hn hn' hv hγ b
    rw [hi.rowOf_eq, history_after] at hstep
    have hloss : v.shortfall n h γ bs k = max 0 (γ - v.margin h (historyAt h bs k)
        (rowOf n h (historyAt h bs k) b.1) b.2) := by
      unfold Setting.shortfall
      rw [hk]
    rw [hloss]
    exact hstep
  have hrun := online.misses_mul_add_le (new n h w) bs (fun s => s.distSq v)
    (fun k => 2 * v.shortfall n h γ bs k) (2 * γ - (h + 1)) hpay
  rw [distSq_new, ← Finset.mul_sum] at hrun
  linarith [distSq_nonneg (online.after (new n h w) bs) v]

/-- A branch that alternates, in a table of one row: a setting that looks at the youngest
outcome only has margin 101 on every branch. -/
theorem mispredictions_le_shortfall_alternating :
    (2 * 101 - (48 + 1)) * (online.misses (new 1 48 8)
      [(0x80000000, true), (0x80000000, false), (0x80000000, true), (0x80000000, false)] : ℤ) ≤
      101 ^ 2 := by
  refine (mispredictions_le_shortfall 1 48 8 (by norm_num) (by norm_num)
    ⟨fun _ => 0, fun _ i => if i = 0 then -101 else 0⟩ ?_ 101 (by norm_num) _).trans ?_
  · intro r
    refine ⟨by norm_num, fun i => ?_⟩
    simp only
    split_ifs <;> norm_num
  · decide +kernel

end PerceptronSoc.Perceptron
