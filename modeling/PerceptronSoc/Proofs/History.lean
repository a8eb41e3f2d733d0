import PerceptronSoc.Proofs.PerceptronRange
import PerceptronSoc.Proofs.TageShape

/-! The global history of both predictors, and the hash of it that their subscripts use.
The history is a window on the outcomes since the last reset; `fold_history` puts onto
each bit the parity of the outcomes that lie on it. -/

namespace PerceptronSoc

/-- How many of the first `n` outcomes lie on bit `j` and were taken. -/
def takenOn (history : List Bool) (width n j : ℕ) : ℕ :=
  (List.range n).countP fun i => decide (i % width = j) && history.getD i false

theorem takenOn_succ (history : List Bool) (width n j : ℕ) :
    takenOn history width (n + 1) j =
      takenOn history width n j + if n % width = j ∧ history.getD n false = true then 1 else 0 := by
  unfold takenOn
  rw [List.range_succ, List.countP_append, List.countP_singleton]
  simp only [Bool.and_eq_true, decide_eq_true_eq]

theorem toNat_one_shiftLeft {k : ℕ} (h : k < 64) :
    ((1 : UInt64) <<< UInt64.ofNat k).toNat = 2 ^ k := by
  have hk : (UInt64.ofNat k).toNat = k := UInt64.toNat_ofNat_of_lt' (h.trans (by decide))
  have hlt : 2 ^ k < 2 ^ 64 := Nat.pow_lt_pow_right (by decide) h
  rw [UInt64.toNat_shiftLeft, hk, Nat.mod_eq_of_lt h, Nat.shiftLeft_eq]
  simpa using Nat.mod_eq_of_lt hlt

/-- The loop of `fold_history`, bit by bit. -/
theorem testBit_foldLoop (history : List Bool) {width : ℕ} (h1 : 1 ≤ width) (h2 : width ≤ 64)
    (n j : ℕ) :
    (foldLoop history width n).toNat.testBit j =
      decide (takenOn history width n j % 2 = 1) := by
  induction n with
  | zero => simp [foldLoop, takenOn]
  | succ n ih =>
    have hstep : foldLoop history width (n + 1) =
        if history.getD n false then
          foldLoop history width n ^^^ (1 <<< UInt64.ofNat (n % width))
        else foldLoop history width n := by
      unfold foldLoop
      rw [List.range_succ, List.foldl_concat]
    have hlt : n % width < 64 := (Nat.mod_lt n h1).trans_le h2
    rw [hstep, takenOn_succ]
    cases hbit : history.getD n false with
    | false => simpa using ih
    | true =>
      rw [if_pos rfl, UInt64.toNat_xor, toNat_one_shiftLeft hlt, Nat.testBit_xor,
        Nat.testBit_two_pow, ih]
      by_cases hj : n % width = j
      · -- the outcome flips the bit, and the parity
        simp only [hj, and_self, if_true, decide_true, Bool.xor_true]
        rw [← decide_not, decide_eq_decide]
        omega
      · simp [hj]

theorem takenOn_eq_zero (history : List Bool) {width j : ℕ} (h1 : 1 ≤ width) (n : ℕ)
    (hj : width ≤ j) : takenOn history width n j = 0 := by
  unfold takenOn
  rw [List.countP_eq_zero]
  intro i _
  have hlt := Nat.mod_lt i h1
  simp only [Bool.and_eq_true, decide_eq_true_eq, not_and]
  intro h
  omega

/-- Each bit of the folded history is the parity of the outcomes on it. -/
theorem testBit_foldHistory (history : List Bool) (histLen : ℕ) {width : ℕ} (h1 : 1 ≤ width)
    (h2 : width ≤ 64) (j : ℕ) :
    (foldHistory history histLen width).toNat.testBit j =
      decide (takenOn history width (min histLen history.length) j % 2 = 1) := by
  unfold foldHistory
  split_ifs with hzero h64
  · obtain rfl : histLen = 0 := by omega
    simp [takenOn]
  · exact testBit_foldLoop history h1 h2 _ j
  · have hlt : width < 64 := by omega
    have hmask : ((1 : UInt64) <<< UInt64.ofNat width - 1).toNat = 2 ^ width - 1 := by
      have hpow := toNat_one_shiftLeft hlt
      rw [UInt64.toNat_sub_of_le, hpow]
      · rfl
      · rw [UInt64.le_iff_toNat_le, hpow]
        exact Nat.one_le_two_pow
    rw [UInt64.toNat_and, hmask, Nat.testBit_and, Nat.testBit_two_pow_sub_one,
      testBit_foldLoop history h1 h2]
    by_cases hj : j < width
    · simp [hj]
    · simp [hj, takenOn_eq_zero history h1 _ (not_lt.mp hj)]

/-- The last `n` outcomes, youngest first, and `false` for those there have not been. -/
def window (n : ℕ) (outcomes : List Bool) : List Bool :=
  (outcomes ++ List.replicate n false).take n

@[simp] theorem length_window (n : ℕ) (outcomes : List Bool) : (window n outcomes).length = n := by
  simp [window]

theorem window_nil (n : ℕ) : window n [] = List.replicate n false := by
  simp [window]

theorem window_cons (n : ℕ) (taken : Bool) (outcomes : List Bool) :
    (taken :: window n outcomes).dropLast = window n (taken :: outcomes) := by
  unfold window
  rw [Vectors.shift_take taken (by simp), List.cons_append]

theorem getD_window {n i : ℕ} (outcomes : List Bool) (h : i < n) :
    (window n outcomes).getD i false = outcomes.getD i false := by
  unfold window
  simp only [List.getD_eq_getElem?_getD]
  rw [List.getElem?_take_of_lt h, List.getElem?_append]
  split
  · rfl
  · next hge =>
    rw [List.getElem?_replicate, List.getElem?_eq_none (by omega)]
    split <;> rfl

/-- The outcomes that a run has trained since its last reset, youngest first. -/
def outcomes (calls : List PredictorCall) : List Bool :=
  calls.foldl (fun outs c => match c with
    | .predict _ => outs
    | .train _ taken => taken :: outs
    | .reset => []) []

theorem Perceptron.history_run (n h w : ℕ) (calls : List PredictorCall) :
    ((Perceptron.new n h w).run calls).history = window h (outcomes calls) := by
  induction calls using List.reverseRecOn with
  | nil => exact (window_nil h).symm
  | append_singleton calls c ih =>
    have hlen : ((Perceptron.new n h w).run calls).history.length = h := by rw [ih, length_window]
    rw [Perceptron.run, outcomes, List.foldl_concat, List.foldl_concat]
    rw [Perceptron.run] at ih hlen
    cases c with
    | predict pc => exact ih
    | train pc taken =>
      rw [← outcomes, ← window_cons, ← ih]
      simp only [Perceptron.exec, Perceptron.train, Perceptron.pushHistory]
      split_ifs <;> rfl
    | reset =>
      simp only [Perceptron.exec, Perceptron.reset, window_nil]
      rw [Vectors.map_const_eq_replicate, hlen]

theorem Tage.history_train (s : Tage) (pc : UInt64) (taken : Bool) :
    (s.train pc taken).history = (taken :: s.history).dropLast ∧
    (s.train pc taken).maxHistLen = s.maxHistLen := by
  obtain ⟨tables, h⟩ := train_frame s pc taken
  have hrefresh : (s.refresh pc).history = s.history ∧ (s.refresh pc).maxHistLen = s.maxHistLen := by
    unfold refresh
    split_ifs <;> exact ⟨rfl, rfl⟩
  rw [h, ← hrefresh.1, ← hrefresh.2]
  exact ⟨rfl, rfl⟩

theorem Tage.maxHistLen_run (s : Tage) (calls : List PredictorCall) :
    (s.run calls).maxHistLen = s.maxHistLen := by
  induction calls using List.reverseRecOn with
  | nil => rfl
  | append_singleton calls c ih =>
    rw [Tage.run, List.foldl_concat, ← ih]
    cases c with
    | predict pc => rfl
    | train pc taken => exact (Tage.history_train _ pc taken).2
    | reset => rfl

theorem Tage.history_run (P : TageParams) (calls : List PredictorCall) :
    ((Tage.new P).run calls).history = window (Tage.new P).maxHistLen (outcomes calls) := by
  induction calls using List.reverseRecOn with
  | nil =>
    rw [Tage.run, List.foldl_nil, outcomes, List.foldl_nil, window_nil]
    simp [Tage.new, Tage.reset]
  | append_singleton calls c ih =>
    have hlen : ((Tage.new P).run calls).history.length = (Tage.new P).maxHistLen := by
      rw [ih, length_window]
    rw [Tage.run, outcomes, List.foldl_concat, List.foldl_concat]
    rw [Tage.run] at ih hlen
    cases c with
    | predict pc => exact ih
    | train pc taken =>
      rw [← outcomes, ← window_cons, ← ih]
      exact (Tage.history_train _ pc taken).1
    | reset =>
      simp only [Tage.exec, Tage.reset, window_nil]
      rw [Vectors.map_const_eq_replicate, hlen]

/-- What `fold_history` returns for a history, bit by bit. -/
def Folds (history : List Bool) (fold : ℕ → ℕ → UInt64) : Prop :=
  (∀ histLen width, 1 ≤ width → width ≤ 64 →
    (∀ j < width, (fold histLen width).toNat.testBit j =
      decide (takenOn history width (min histLen history.length) j % 2 = 1)) ∧
    ∀ j, width ≤ j → (fold histLen width).toNat.testBit j = false) ∧
  ∀ histLen width, histLen = 0 ∨ width = 0 → fold histLen width = 0

theorem folds_foldHistory (history : List Bool) : Folds history (foldHistory history) := by
  refine ⟨fun histLen width h1 h2 => ⟨fun j _ => testBit_foldHistory history histLen h1 h2 j,
    fun j hj => ?_⟩, fun histLen width h => ?_⟩
  · rw [testBit_foldHistory history histLen h1 h2, takenOn_eq_zero history h1 _ hj]
    rfl
  · unfold foldHistory
    rw [if_pos h.symm]

/-- In any run of either predictor, position `i` of the history is the outcome of the
`i + 1`-th youngest `train` since the last reset, and `fold_history` is the bitwise parity of
the history, by the same function in both classes. -/
theorem history_and_folding (n h w : ℕ) (P : TageParams) (pcalls tcalls : List PredictorCall) :
    let p := (Perceptron.new n h w).run pcalls
    let t := (Tage.new P).run tcalls
    (p.history.length = h ∧
      ∀ i < h, p.history.getD i false = (outcomes pcalls).getD i false) ∧
    (t.history.length = t.maxHistLen ∧
      ∀ i < t.maxHistLen, t.history.getD i false = (outcomes tcalls).getD i false) ∧
    Folds p.history p.foldHistory ∧ Folds t.history t.foldHistory ∧
    (p.history = t.history → p.foldHistory = t.foldHistory) := by
  intro p t
  have hp : p.history = window h (outcomes pcalls) := Perceptron.history_run n h w pcalls
  have ht : t.history = window (Tage.new P).maxHistLen (outcomes tcalls) :=
    Tage.history_run P tcalls
  have hmax : t.maxHistLen = (Tage.new P).maxHistLen := Tage.maxHistLen_run _ tcalls
  refine ⟨⟨?_, fun i hi => ?_⟩, ⟨?_, fun i hi => ?_⟩, folds_foldHistory _, folds_foldHistory _,
    fun heq => ?_⟩
  · rw [hp, length_window]
  · rw [hp, getD_window _ hi]
  · rw [ht, hmax, length_window]
  · rw [ht, getD_window _ (hmax ▸ hi)]
  · unfold Perceptron.foldHistory Tage.foldHistory
    rw [heq]

end PerceptronSoc
