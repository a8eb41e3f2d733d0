import PerceptronSoc.Proofs.BankPipeline

/-! What the bank's fixed-width arithmetic computes. A history bit read as a signed number
of one bit is `0` or `-1`, and one bit has no `+1` to negate it to; sums and differences
wrap at the width of their operands, before anything is clipped. -/

namespace PerceptronSoc.PerceptronBank

variable {b : PerceptronBank}

/-- The integer that a perceptron compares with its threshold. -/
def perceptronSum (weights : b.Row) (hist : b.History) : ℤ :=
  (weights (Fin.last _)).toInt +
    ∑ i : Fin b.histLength,
      if hist i then (weights i.castSucc).toInt else -(weights i.castSucc).toInt

def setSum (weights : b.Row) (hist : b.History) : ℤ :=
  ∑ i : Fin b.histLength, if hist i then (weights i.castSucc).toInt else 0

def clearSum (weights : b.Row) (hist : b.History) : ℤ :=
  ∑ i : Fin b.histLength, if hist i then 0 else (weights i.castSucc).toInt

theorem perceptronSum_eq (weights : b.Row) (hist : b.History) :
    perceptronSum weights hist =
      (weights (Fin.last _)).toInt + (setSum weights hist - clearSum weights hist) := by
  unfold perceptronSum setSum clearSum
  rw [← Finset.sum_sub_distrib]
  congr 1
  refine Finset.sum_congr rfl fun i _ => ?_
  split_ifs <;> ring

theorem toInt_sum {w : ℕ} (l : List (BitVec w)) :
    l.sum.toInt = (l.map BitVec.toInt).sum.bmod (2 ^ w) := by
  induction l with
  | nil => simp
  | cons x l ih =>
    rw [List.sum_cons, BitVec.toInt_add, ih, List.map_cons, List.sum_cons, Int.add_bmod_bmod]

/-- A product by a history bit: a set bit turns the sign. -/
theorem toInt_mulS_ofBool (w : BitVec 8) (bit : Bool) :
    (mulS w (BitVec.ofBool bit)).toInt = if bit then -w.toInt else 0 := by
  have h1 := w.le_toInt
  have h2 := w.toInt_lt
  have hbit : (BitVec.ofBool bit).toInt = if bit then -1 else 0 := by cases bit <;> rfl
  unfold mulS
  rw [BitVec.toInt_mul, BitVec.toInt_signExtend_of_le (by omega),
    BitVec.toInt_signExtend_of_le (by omega), hbit]
  cases bit with
  | false => simp
  | true =>
    simp only [if_true, mul_neg, mul_one]
    exact Int.bmod_eq_of_le (by norm_num at h1 h2 ⊢; omega) (by norm_num at h1 h2 ⊢; omega)

theorem toInt_mulS_one (w : BitVec 8) : (mulS w 1#2).toInt = w.toInt := by
  have h1 := w.le_toInt
  have h2 := w.toInt_lt
  have hone : (1#2 : BitVec 2).toInt = 1 := rfl
  unfold mulS
  rw [BitVec.toInt_mul, BitVec.toInt_signExtend_of_le (by omega),
    BitVec.toInt_signExtend_of_le (by omega), hone, mul_one]
  exact Int.bmod_eq_of_le (by norm_num at h1 h2 ⊢; omega) (by norm_num at h1 h2 ⊢; omega)

/-- What the bank computes: the set bits count with the wrong sign, the clear ones not at
all, and their sum wraps at nine bits; adding the bias does not wrap. -/
theorem s1Sum_toInt (weights : b.Row) (hist : b.History) :
    (s1Sum weights hist).toInt =
      (weights (Fin.last _)).toInt + (-setSum weights hist).bmod 512 := by
  have hsum : (List.ofFn fun i : Fin b.histLength =>
      mulS (weights i.castSucc) (BitVec.ofBool (hist i))).sum.toInt =
        (-setSum weights hist).bmod 512 := by
    rw [toInt_sum, List.map_ofFn, List.sum_ofFn]
    congr 1
    unfold setSum
    rw [← Finset.sum_neg_distrib]
    refine Finset.sum_congr rfl fun i _ => ?_
    rw [Function.comp_apply, toInt_mulS_ofBool]
    split_ifs <;> simp
  have h1 := (weights (Fin.last _)).le_toInt
  have h2 := (weights (Fin.last _)).toInt_lt
  have h3 : -256 ≤ (-setSum weights hist).bmod 512 := Int.le_bmod (by norm_num)
  have h4 : (-setSum weights hist).bmod 512 < 256 := Int.bmod_lt (by norm_num)
  unfold s1Sum
  simp only
  rw [BitVec.toInt_add, BitVec.toInt_signExtend_of_le (by omega), hsum, toInt_mulS_one, add_comm]
  norm_num at h1 h2
  exact Int.bmod_eq_of_le (by norm_num; omega) (by norm_num; omega)

/-- For every bank, row and history: the bank's sum is the perceptron's, and it predicts
taken exactly when that reaches the threshold, if and only if the sum of the signed weights
fits nine bits and the weights happen to cancel modulo `512`. -/
theorem prediction_exact_iff (weights : b.Row) (hist : b.History) :
    ((s1Sum weights hist).toInt = perceptronSum weights hist ∧
      (taken weights hist = true ↔ b.threshold ≤ perceptronSum weights hist)) ↔
    (-256 ≤ setSum weights hist - clearSum weights hist ∧
      setSum weights hist - clearSum weights hist ≤ 255) ∧
      (512 : ℤ) ∣ 2 * setSum weights hist - clearSum weights hist := by
  have htaken : (s1Sum weights hist).toInt = perceptronSum weights hist →
      (taken weights hist = true ↔ b.threshold ≤ perceptronSum weights hist) := by
    intro h
    unfold taken
    rw [h, decide_eq_true_eq]
  rw [and_iff_left_of_imp htaken, s1Sum_toInt, perceptronSum_eq, add_right_inj,
    Int.bmod_eq_iff (by norm_num)]
  omega

/-- One weight of `1` and its history bit set: the bank computes `-1` and predicts not
taken, where the perceptron's sum is `1`. -/
theorem set_bit_counts_against :
    let weights : smallBank.Row := ![1, 0]
    let hist : smallBank.History := fun _ => true
    (s1Sum weights hist).toInt = -1 ∧ perceptronSum weights hist = 1 ∧
      taken weights hist = false ∧ smallBank.threshold ≤ perceptronSum weights hist := by
  decide

/-- The input of element `i` of a row: its history bit, and none for the bias. -/
def inputBit (hist : b.History) (i : Fin (b.histLength + 1)) : Option Bool :=
  if h : i.val < b.histLength then some (hist ⟨i, h⟩) else none

/-- An input as a number: `1` for a set bit and for the bias, `-1` for a clear bit. -/
def inputValue : Option Bool → ℤ
  | none => 1
  | some bit => if bit then 1 else -1

/-- An element moved by its input, up if the branch was taken, and clamped. -/
def saturated (bit : Option Bool) (actualTaken : Bool) (w : ℤ) : ℤ :=
  max (-127) (min 127 (w + if actualTaken then inputValue bit else -inputValue bit))

def Movable : Option Bool → Bool → ℤ → Prop
  | none, true, w => w ≠ 127
  | none, false, w => w ≠ -128
  | some true, true, _ => False
  | some true, false, w => w ≠ -128
  | some false, true, w => w ≤ -127
  | some false, false, w => w = 127 ∨ w = -128

theorem toInt_maxS (x y : BitVec 8) : (maxS x y).toInt = max x.toInt y.toInt := by
  unfold maxS
  simp only [BitVec.slt_iff_toInt_lt]
  split_ifs <;> omega

theorem toInt_minS (x y : BitVec 8) : (minS x y).toInt = min x.toInt y.toInt := by
  unfold minS
  simp only [BitVec.slt_iff_toInt_lt]
  split_ifs <;> omega

/-- The clip comes after a sum that has wrapped already. -/
theorem toInt_clipped {n : ℕ} (w : BitVec 8) (x : BitVec n) (hn : n ≤ 8) :
    (clipped w x).toInt = min (max ((w.toInt + x.toInt).bmod 256) (-127)) 127 := by
  have hlo : (-127 : BitVec 8).toInt = -127 := rfl
  have hhi : (127 : BitVec 8).toInt = 127 := rfl
  unfold clipped
  rw [toInt_minS, toInt_maxS, hlo, hhi, BitVec.toInt_add, BitVec.toInt_signExtend_of_le hn]

/-- The steps the bank takes: a set bit counts down for either outcome, since one bit holds
no `+1`, and a clear bit does not count. -/
def bankStep : Option Bool → Bool → ℤ
  | none, actualTaken => if actualTaken then 1 else -1
  | some bit, _ => if bit then -1 else 0

theorem toInt_delta_ofBool (actualTaken bit : Bool) :
    (delta actualTaken (BitVec.ofBool bit)).toInt = bankStep (some bit) actualTaken := by
  cases actualTaken <;> cases bit <;> rfl

theorem toInt_delta_one (actualTaken : Bool) :
    (delta actualTaken 1#2).toInt = bankStep none actualTaken := by
  cases actualTaken <;> rfl

theorem bmod_step {w x : ℤ} (h1 : -128 ≤ w) (h2 : w ≤ 127) (hx : -1 ≤ x) (hx' : x ≤ 1) :
    (w + x).bmod 256 = if w + x = 128 then -128 else if w + x = -129 then 127 else w + x := by
  split_ifs with h h'
  · rw [h]
    rfl
  · rw [h']
    rfl
  · exact Int.bmod_eq_of_le (by norm_num; omega) (by norm_num; omega)

theorem toInt_newWeights (weights : b.Row) (ghist : b.History) (actualTaken : Bool)
    (i : Fin (b.histLength + 1)) :
    (newWeights weights ghist actualTaken i).toInt =
      min (max (((weights i).toInt + bankStep (inputBit ghist i) actualTaken).bmod 256)
        (-127)) 127 := by
  unfold newWeights inputBit
  by_cases h : i.val < b.histLength
  · rw [dif_pos h, dif_pos h, toInt_clipped _ _ (by omega), toInt_delta_ofBool]
  · rw [dif_neg h, dif_neg h, toInt_clipped _ _ (by omega), toInt_delta_one]

/-- One element, by its input and the outcome. -/
theorem newWeights_right_iff (weights : b.Row) (ghist : b.History) (actualTaken : Bool)
    (i : Fin (b.histLength + 1)) :
    (newWeights weights ghist actualTaken i).toInt =
        saturated (inputBit ghist i) actualTaken (weights i).toInt ↔
      Movable (inputBit ghist i) actualTaken (weights i).toInt := by
  have h1 := (weights i).le_toInt
  have h2 := (weights i).toInt_lt
  norm_num at h1 h2
  rw [toInt_newWeights]
  generalize (weights i).toInt = w at h1 h2
  have hstep : -1 ≤ bankStep (inputBit ghist i) actualTaken ∧
      bankStep (inputBit ghist i) actualTaken ≤ 1 := by
    unfold bankStep
    split <;> split_ifs <;> norm_num
  rw [bmod_step (by omega) (by omega) hstep.1 hstep.2]
  clear hstep
  unfold saturated
  match inputBit ghist i, actualTaken with
  | none, true =>
    simp only [bankStep, inputValue, Movable, if_true]
    split_ifs <;> omega
  | none, false =>
    simp only [bankStep, inputValue, Movable, Bool.false_eq_true, if_false]
    split_ifs <;> omega
  | some true, true =>
    simp only [bankStep, inputValue, Movable, if_true, iff_false]
    split_ifs <;> omega
  | some true, false =>
    simp only [bankStep, inputValue, Movable, Bool.false_eq_true, if_true, if_false]
    split_ifs <;> omega
  | some false, true =>
    simp only [bankStep, inputValue, Movable, Bool.false_eq_true, if_true, if_false]
    split_ifs <;> omega
  | some false, false =>
    simp only [bankStep, inputValue, Movable, Bool.false_eq_true, if_false]
    split_ifs <;> omega

/-- For every bank, row, history and outcome: the update moves every element by its input
and clamps it if and only if no set bit meets a taken branch, every clear bit belongs to a
weight that the clamp holds in place, and no other element is at the end it is moved to. -/
theorem update_saturates_iff (weights : b.Row) (ghist : b.History) (actualTaken : Bool) :
    (∀ i, (newWeights weights ghist actualTaken i).toInt =
      saturated (inputBit ghist i) actualTaken (weights i).toInt) ↔
    ∀ i, Movable (inputBit ghist i) actualTaken (weights i).toInt :=
  forall_congr' (newWeights_right_iff weights ghist actualTaken)

/-- A bias of `127` on a taken branch: the sum wraps to `-128` and is clipped to `-127`. -/
theorem bias_changes_sign :
    let weights : smallBank.Row := ![0, 127]
    let hist : smallBank.History := fun _ => false
    (newWeights weights hist true 1).toInt = -127 ∧
      saturated (inputBit hist 1) true (weights 1).toInt = 127 := by
  decide

end PerceptronSoc.PerceptronBank
