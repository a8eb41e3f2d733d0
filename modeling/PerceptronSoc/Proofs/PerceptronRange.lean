import PerceptronSoc.Lib.Vectors
import PerceptronSoc.Spec.Perceptron

/-! The perceptron's run invariant: sizes, the weight range and the bound on every
partial sum of the score loop. The saturation tests compare for equality only, so the
range has to be carried along the whole run. -/

namespace PerceptronSoc.Perceptron

def InInt (x : ℤ) : Prop := -2 ^ 31 ≤ x ∧ x < 2 ^ 31

/-- The state of a predictor built with `n` rows, `h` history bits and `w`-bit
weights, at any point of a run. -/
structure Inv (n h w : ℕ) (s : Perceptron) : Prop where
  histLen : s.histLen = h
  theta : s.theta = 76
  maxWeight : s.maxWeight = 2 ^ (w - 1) - 1
  minWeight : s.minWeight = -2 ^ (w - 1)
  biasLength : s.bias.length = n
  weightsLength : s.weights.length = n
  rowLength : ∀ row ∈ s.weights, row.length = h
  historyLength : s.history.length = h
  biasRange : ∀ b ∈ s.bias, b ∈ Set.Icc (-2 ^ (w - 1) : ℤ) (2 ^ (w - 1) - 1)
  weightRange : ∀ row ∈ s.weights, ∀ x ∈ row, x ∈ Set.Icc (-2 ^ (w - 1) : ℤ) (2 ^ (w - 1) - 1)
  lastScoreBound : |s.lastScore| ≤ (h + 1) * 2 ^ (w - 1)

variable {n h w : ℕ} {s : Perceptron}

theorem zero_mem_range (w : ℕ) : (0 : ℤ) ∈ Set.Icc (-2 ^ (w - 1) : ℤ) (2 ^ (w - 1) - 1) := by
  have : (0 : ℤ) < 2 ^ (w - 1) := by positivity
  exact ⟨by omega, by omega⟩

theorem new_inv (n h w : ℕ) : Inv n h w (new n h w) := by
  refine ⟨rfl, rfl, rfl, rfl, by simp [new], by simp [new], ?_, by simp [new], ?_, ?_, ?_⟩
  · intro row hrow
    rw [List.eq_of_mem_replicate hrow, List.length_replicate]
  · intro b hb
    rw [List.eq_of_mem_replicate hb]
    exact zero_mem_range w
  · intro row hrow x hx
    rw [List.eq_of_mem_replicate hrow] at hx
    rw [List.eq_of_mem_replicate hx]
    exact zero_mem_range w
  · simp only [new, abs_zero]
    positivity

theorem Inv.abs_biasAt_le (hi : Inv n h w s) (idx : ℤ) : |s.biasAt idx| ≤ 2 ^ (w - 1) := by
  have hb : s.biasAt idx ∈ Set.Icc (-2 ^ (w - 1) : ℤ) (2 ^ (w - 1) - 1) :=
    Vectors.getD_of_forall hi.biasRange (zero_mem_range w)
  exact abs_le.mpr ⟨hb.1, by linarith [hb.2]⟩

theorem Inv.weightAt_mem (hi : Inv n h w s) (idx : ℤ) (i : ℕ) :
    s.weightAt idx i ∈ Set.Icc (-2 ^ (w - 1) : ℤ) (2 ^ (w - 1) - 1) := by
  apply Vectors.getD_of_forall _ (zero_mem_range w)
  exact Vectors.getD_of_forall (P := fun row => ∀ x ∈ row, x ∈ Set.Icc _ _) hi.weightRange (by simp)

/-- The asymmetric range makes `-w` leave it, but never its absolute bound. -/
theorem Inv.abs_term_le (hi : Inv n h w s) (idx : ℤ) (i : ℕ) : |s.term idx i| ≤ 2 ^ (w - 1) := by
  have hw : |s.weightAt idx i| ≤ 2 ^ (w - 1) := by
    have := hi.weightAt_mem idx i
    exact abs_le.mpr ⟨this.1, by linarith [this.2]⟩
  unfold term
  split_ifs
  · exact hw
  · rwa [abs_neg]

@[simp] theorem partialScore_zero (s : Perceptron) (idx : ℤ) :
    s.partialScore idx 0 = s.biasAt idx := rfl

theorem partialScore_succ (s : Perceptron) (idx : ℤ) (k : ℕ) :
    s.partialScore idx (k + 1) = s.partialScore idx k + s.term idx k := by
  simp [partialScore, List.range_succ]

/-- After `k` iterations at most `k + 1` weights have been added up. -/
theorem Inv.abs_partialScore_le (hi : Inv n h w s) (idx : ℤ) (k : ℕ) :
    |s.partialScore idx k| ≤ (k + 1) * 2 ^ (w - 1) := by
  induction k with
  | zero => simpa using hi.abs_biasAt_le idx
  | succ k ih =>
    rw [partialScore_succ]
    calc |s.partialScore idx k + s.term idx k|
        ≤ |s.partialScore idx k| + |s.term idx k| := abs_add_le _ _
      _ ≤ (k + 1) * 2 ^ (w - 1) + 2 ^ (w - 1) := add_le_add ih (hi.abs_term_le idx k)
      _ = ((k + 1 : ℕ) + 1) * 2 ^ (w - 1) := by push_cast; ring

theorem Inv.abs_partialScore_le_of_le (hi : Inv n h w s) (idx : ℤ) {k : ℕ} (hk : k ≤ h) :
    |s.partialScore idx k| ≤ (h + 1) * 2 ^ (w - 1) := by
  refine (hi.abs_partialScore_le idx k).trans ?_
  gcongr

theorem Inv.abs_score_le (hi : Inv n h w s) (idx : ℤ) : |s.score idx| ≤ (h + 1) * 2 ^ (w - 1) :=
  hi.abs_partialScore_le_of_le idx (le_of_eq hi.histLen)

theorem Inv.satInc_mem (hi : Inv n h w s) {x : ℤ}
    (hx : x ∈ Set.Icc (-2 ^ (w - 1) : ℤ) (2 ^ (w - 1) - 1)) :
    s.satInc x ∈ Set.Icc (-2 ^ (w - 1) : ℤ) (2 ^ (w - 1) - 1) := by
  unfold satInc
  rw [hi.maxWeight]
  exact Saturate.up_mem hx

theorem Inv.satDec_mem (hi : Inv n h w s) {x : ℤ}
    (hx : x ∈ Set.Icc (-2 ^ (w - 1) : ℤ) (2 ^ (w - 1) - 1)) :
    s.satDec x ∈ Set.Icc (-2 ^ (w - 1) : ℤ) (2 ^ (w - 1) - 1) := by
  unfold satDec
  rw [hi.minWeight]
  exact Saturate.down_mem hx

theorem Inv.predict (hi : Inv n h w s) (pc : UInt64) : Inv n h w (s.predict pc).2 :=
  { hi with lastScoreBound := hi.abs_score_le _ }

theorem Inv.trainRow (hi : Inv n h w s) (taken : Bool) {row : List ℤ}
    (hrow : ∀ x ∈ row, x ∈ Set.Icc (-2 ^ (w - 1) : ℤ) (2 ^ (w - 1) - 1)) :
    ∀ x ∈ s.trainRow taken row, x ∈ Set.Icc (-2 ^ (w - 1) : ℤ) (2 ^ (w - 1) - 1) := by
  intro x hx
  obtain ⟨i, hlt, rfl⟩ := List.mem_iff_getElem.mp hx
  have hlt' : i < row.length := by simpa [Perceptron.trainRow] using hlt
  simp only [Perceptron.trainRow, List.getElem_mapIdx]
  split_ifs
  · exact hi.satInc_mem (hrow _ (List.getElem_mem hlt'))
  · exact hi.satDec_mem (hrow _ (List.getElem_mem hlt'))

theorem Inv.trainWeights (hi : Inv n h w s) (pc : UInt64) (taken : Bool) :
    Inv n h w (s.trainWeights pc taken) := by
  refine { hi with
    biasLength := ?_
    weightsLength := ?_
    rowLength := ?_
    biasRange := ?_
    weightRange := ?_ }
  · simpa [Perceptron.trainWeights] using hi.biasLength
  · simpa [Perceptron.trainWeights] using hi.weightsLength
  · apply Vectors.forall_mem_modify hi.rowLength
    intro row hrow
    simpa [Perceptron.trainRow] using hrow
  · apply Vectors.forall_mem_modify hi.biasRange
    intro b hb
    split_ifs
    · exact hi.satInc_mem hb
    · exact hi.satDec_mem hb
  · exact Vectors.forall_mem_modify hi.weightRange fun row hrow => hi.trainRow taken hrow

theorem Inv.pushHistory (hi : Inv n h w s) (taken : Bool) : Inv n h w (s.pushHistory taken) :=
  { hi with historyLength := (Vectors.length_shift _ _).trans hi.historyLength }

theorem Inv.train (hi : Inv n h w s) (pc : UInt64) (taken : Bool) :
    Inv n h w (s.train pc taken) := by
  unfold Perceptron.train
  apply Inv.pushHistory
  split_ifs
  · exact hi.trainWeights pc taken
  · exact hi

theorem Inv.reset_eq (hi : Inv n h w s) : s.reset = new n h w := by
  have hrows : s.weights.map (fun row => row.map fun _ => (0 : ℤ)) =
      List.replicate n (List.replicate h 0) := by
    rw [← hi.weightsLength, ← Vectors.map_const_eq_replicate s.weights]
    apply List.map_congr_left
    intro row hrow
    rw [Vectors.map_const_eq_replicate, hi.rowLength row hrow]
  unfold reset new
  rw [hrows, Vectors.map_const_eq_replicate, Vectors.map_const_eq_replicate, hi.biasLength,
    hi.historyLength, ← hi.histLen, hi.theta, hi.maxWeight, hi.minWeight]

theorem Inv.reset (hi : Inv n h w s) : Inv n h w s.reset := by
  refine { hi with
    biasLength := ?_
    weightsLength := ?_
    rowLength := ?_
    historyLength := ?_
    biasRange := ?_
    weightRange := ?_
    lastScoreBound := ?_ }
  · simpa [Perceptron.reset] using hi.biasLength
  · simpa [Perceptron.reset] using hi.weightsLength
  · intro row hrow
    obtain ⟨r, hr, rfl⟩ := List.mem_map.mp hrow
    simpa using hi.rowLength r hr
  · simpa [Perceptron.reset] using hi.historyLength
  · intro b hb
    obtain ⟨_, _, rfl⟩ := List.mem_map.mp hb
    exact zero_mem_range w
  · intro row hrow x hx
    obtain ⟨r, _, rfl⟩ := List.mem_map.mp hrow
    obtain ⟨_, _, rfl⟩ := List.mem_map.mp hx
    exact zero_mem_range w
  · simp only [Perceptron.reset, abs_zero]
    positivity

theorem Inv.exec (hi : Inv n h w s) (c : PredictorCall) : Inv n h w (s.exec c) := by
  cases c with
  | predict pc => exact hi.predict pc
  | train pc taken => exact hi.train pc taken
  | reset => exact hi.reset

theorem Inv.run (hi : Inv n h w s) (calls : List PredictorCall) : Inv n h w (s.run calls) :=
  List.foldlRecOn calls Perceptron.exec hi fun _ hs c _ => hs.exec c

theorem Inv.index_eq (hi : Inv n h w s) (h1 : 1 ≤ n) (h2 : n < 2 ^ 31) (pc : UInt64) :
    ∃ k < n, s.index pc = (k : ℤ) := by
  unfold index
  simp only [hi.biasLength]
  have hlt := maskIndex_lt
    ((pc >>> 2) ^^^ s.foldHistory s.histLen (log2Pow2 n) ^^^ mix64 pc) h1 (by omega : n < 2 ^ 64)
  exact ⟨_, hlt, castInt_of_lt (by omega)⟩

theorem inInt_of_abs_le {x b : ℤ} (hx : |x| ≤ b) (hb : b ≤ 2 ^ 31 - 1) : InInt x := by
  obtain ⟨h1, h2⟩ := abs_le.mp hx
  exact ⟨by omega, by omega⟩

/-- For every size and width that fits, over every sequence of calls: the weights keep
their range, the subscript stays inside the tables, the history keeps its length, and
no `int` operation of the score loops, the saturating steps or the confidence query
overflows. -/
theorem run_in_range (n h w : ℕ) (hn : 1 ≤ n) (hn' : n < 2 ^ 31) (_hw : 1 ≤ w ∧ w ≤ 31)
    (hfit : ((h : ℤ) + 1) * 2 ^ (w - 1) ≤ 2 ^ 31 - 1) (calls : List PredictorCall) :
    let s := (new n h w).run calls
    s.minWeight = -2 ^ (w - 1) ∧ s.maxWeight = 2 ^ (w - 1) - 1 ∧
    (∀ b ∈ s.bias, s.minWeight ≤ b ∧ b ≤ s.maxWeight) ∧
    (∀ row ∈ s.weights, ∀ x ∈ row, s.minWeight ≤ x ∧ x ≤ s.maxWeight) ∧
    s.bias.length = n ∧ s.weights.length = n ∧ (∀ row ∈ s.weights, row.length = h) ∧
    s.history.length = h ∧ s.histLen = h ∧
    (∀ pc, 0 ≤ s.index pc ∧ s.index pc < n) ∧
    (∀ pc, ∀ k ≤ s.histLen,
      |s.partialScore (s.index pc) k| ≤ ((h : ℤ) + 1) * 2 ^ (w - 1) ∧
      InInt (s.partialScore (s.index pc) k)) ∧
    (∀ pc i, InInt (-s.weightAt (s.index pc) i)) ∧
    (∀ pc, InInt |s.score (s.index pc)|) ∧ InInt |s.lastScore| ∧
    (∀ b ∈ s.bias, InInt (s.satInc b) ∧ InInt (s.satDec b)) ∧
    (∀ row ∈ s.weights, ∀ x ∈ row, InInt (s.satInc x) ∧ InInt (s.satDec x)) := by
  intro s
  have hi : Inv n h w s := (new_inv n h w).run calls
  have hpow : (2 : ℤ) ^ (w - 1) ≤ 2 ^ 31 - 1 := by
    have : (0 : ℤ) < 2 ^ (w - 1) := by positivity
    nlinarith
  have hrange : ∀ x ∈ Set.Icc (-2 ^ (w - 1) : ℤ) (2 ^ (w - 1) - 1), InInt x := fun x hx =>
    inInt_of_abs_le (abs_le.mpr ⟨hx.1, by linarith [hx.2]⟩) hpow
  have hstep : ∀ x ∈ Set.Icc (-2 ^ (w - 1) : ℤ) (2 ^ (w - 1) - 1),
      InInt (s.satInc x) ∧ InInt (s.satDec x) := fun x hx =>
    ⟨hrange _ (hi.satInc_mem hx), hrange _ (hi.satDec_mem hx)⟩
  refine ⟨hi.minWeight, hi.maxWeight, ?_, ?_, hi.biasLength, hi.weightsLength, hi.rowLength,
    hi.historyLength, hi.histLen, ?_, ?_, ?_, ?_, ?_, fun b hb => hstep b (hi.biasRange b hb),
    fun row hrow x hx => hstep x (hi.weightRange row hrow x hx)⟩
  · rw [hi.minWeight, hi.maxWeight]
    exact hi.biasRange
  · rw [hi.minWeight, hi.maxWeight]
    exact hi.weightRange
  · intro pc
    obtain ⟨k, hk, he⟩ := hi.index_eq hn hn' pc
    rw [he]
    exact ⟨by omega, by omega⟩
  · intro pc k hk
    have hb := hi.abs_partialScore_le_of_le (s.index pc) (hi.histLen ▸ hk)
    exact ⟨hb, inInt_of_abs_le hb hfit⟩
  · intro pc i
    have := hi.weightAt_mem (s.index pc) i
    exact inInt_of_abs_le (by rw [abs_neg]; exact abs_le.mpr ⟨this.1, by linarith [this.2]⟩) hpow
  · intro pc
    exact inInt_of_abs_le (by rw [abs_abs]; exact hi.abs_score_le _) hfit
  · exact inInt_of_abs_le (by rw [abs_abs]; exact hi.lastScoreBound) hfit

/-- A table of 1000 rows, not a power of two, trained twice. -/
theorem run_in_range_thousand :
    ((new 1000 48 8).run [.train 0x80000000 false, .train 0x80000004 true]).history.length = 48 ∧
    InInt |((new 1000 48 8).run [.train 0x80000000 false, .train 0x80000004 true]).lastScore| := by
  have h := run_in_range 1000 48 8 (by norm_num) (by norm_num) (by norm_num) (by norm_num)
    [.train 0x80000000 false, .train 0x80000004 true]
  exact ⟨h.2.2.2.2.2.2.2.1, h.2.2.2.2.2.2.2.2.2.2.2.2.2.1⟩

end PerceptronSoc.Perceptron
