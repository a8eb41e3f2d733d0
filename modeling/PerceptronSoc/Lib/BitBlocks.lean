import Mathlib.Data.BitVec
import Mathlib.Data.Nat.Bitwise
import Mathlib.Tactic

/-! Aligned blocks of machine addresses: the masks that pick a block of `2 ^ j` addresses
out of a word, and what comparing words under such a mask says about the blocks they lie
in. -/

namespace BitBlocks

variable {w : ℕ}

def HighMask (m : BitVec w) (s : ℕ) : Prop := ∀ j < w, m.getLsbD j = decide (s ≤ j)

theorem xor_and_eq_zero_iff {m : BitVec w} {s : ℕ} (hm : HighMask m s) (x y : BitVec w) :
    (x ^^^ y) &&& m = 0 ↔ x.toNat / 2 ^ s = y.toNat / 2 ^ s := by
  constructor
  · intro h
    apply Nat.eq_of_testBit_eq
    intro i
    rw [Nat.testBit_div_two_pow, Nat.testBit_div_two_pow, BitVec.testBit_toNat, BitVec.testBit_toNat]
    by_cases hi : i + s < w
    · have hbit := congrArg (fun v => v.getLsbD (i + s)) h
      simpa [hm _ hi] using hbit
    · rw [BitVec.getLsbD_of_ge x _ (by omega), BitVec.getLsbD_of_ge y _ (by omega)]
  · intro h
    apply BitVec.eq_of_getLsbD_eq
    intro j hj
    rw [BitVec.getLsbD_and, BitVec.getLsbD_xor, hm j hj]
    by_cases hs : s ≤ j
    · have hbit := congrArg (fun v => v.testBit (j - s)) h
      simp only [Nat.testBit_div_two_pow, Nat.sub_add_cancel hs, BitVec.testBit_toNat] at hbit
      simp [hbit]
    · simp [hs]

theorem highMask_neg_twoPow {j : ℕ} (hj : j < w) : HighMask (-BitVec.twoPow w j) j := by
  intro i hi
  have hpow : 2 ^ j < 2 ^ w := Nat.pow_lt_pow_right (by norm_num) hj
  have hpos : 0 < 2 ^ j := by positivity
  have hval : (-BitVec.twoPow w j).toNat = 2 ^ j * (2 ^ (w - j) - 1) := by
    rw [BitVec.toNat_neg, BitVec.toNat_twoPow_of_lt hj, Nat.mod_eq_of_lt (by omega), Nat.mul_sub,
      ← pow_add, Nat.add_sub_cancel' hj.le, mul_one]
  rw [← BitVec.testBit_toNat, hval, Nat.testBit_two_pow_mul, Nat.testBit_two_pow_sub_one]
  by_cases hij : j ≤ i
  · simp [hij]
    omega
  · simp [hij]

theorem toNat_and_neg_twoPow {j : ℕ} (hj : j < w) (x : BitVec w) :
    (x &&& -BitVec.twoPow w j).toNat = 2 ^ j * (x.toNat / 2 ^ j) := by
  apply Nat.eq_of_testBit_eq
  intro i
  rw [BitVec.testBit_toNat, BitVec.getLsbD_and, Nat.testBit_two_pow_mul, Nat.testBit_div_two_pow,
    BitVec.testBit_toNat]
  by_cases hi : i < w
  · rw [highMask_neg_twoPow hj i hi]
    by_cases hij : j ≤ i
    · simp [hij]
    · simp [hij]
  · rw [BitVec.getLsbD_of_ge x i (not_lt.mp hi), BitVec.getLsbD_of_ge x _ (by omega)]
    simp

theorem and_neg_lt_iff {j : ℕ} (hj : j < w) (x y : BitVec w) :
    x &&& -BitVec.twoPow w j < y &&& -BitVec.twoPow w j ↔ x.toNat / 2 ^ j < y.toNat / 2 ^ j := by
  rw [BitVec.lt_def, toNat_and_neg_twoPow hj, toNat_and_neg_twoPow hj]
  exact Nat.mul_lt_mul_left (by positivity)

theorem xor_div_eq_zero_iff {j : ℕ} (hj : j < w) (x y : BitVec w) :
    (x ^^^ y) / BitVec.twoPow w j = 0 ↔ x.toNat / 2 ^ j = y.toNat / 2 ^ j := by
  rw [← BitVec.toNat_inj, BitVec.toNat_udiv, BitVec.toNat_twoPow_of_lt hj, BitVec.toNat_xor,
    ← Nat.shiftRight_eq_div_pow, Nat.shiftRight_xor_distrib, Nat.shiftRight_eq_div_pow,
    Nat.shiftRight_eq_div_pow]
  exact Nat.xor_eq_zero_iff

theorem and_twoPow_eq_zero_iff {j : ℕ} (hj : j < w) (x : BitVec w) :
    x &&& BitVec.twoPow w j = 0 ↔ x.getLsbD j = false := by
  constructor
  · intro h
    have hbit := congrArg (fun v => v.getLsbD j) h
    simpa [BitVec.getLsbD_twoPow, hj] using hbit
  · intro h
    apply BitVec.eq_of_getLsbD_eq
    intro i hi
    rw [BitVec.getLsbD_and, BitVec.getLsbD_twoPow]
    by_cases he : j = i
    · subst he
      simp [h]
    · simp [he]

/-- The ones below the lowest zero. -/
def lowOnes (x : BitVec w) : BitVec w := x &&& ~~~(x + 1)

theorem exists_lowestZero (x : BitVec w) :
    ∃ k ≤ w, (∀ i < k, x.getLsbD i = true) ∧ x.getLsbD k = false := by
  have hex : ∃ k, x.getLsbD k = false := ⟨w, BitVec.getLsbD_of_ge x w le_rfl⟩
  refine ⟨Nat.find hex, Nat.find_le (BitVec.getLsbD_of_ge x w le_rfl), fun i hi => ?_, Nat.find_spec hex⟩
  simpa using Nat.find_min hex hi

/-- Where the lowest zero is at `k`, adding one turns the bits up to `k` over and leaves
those above. -/
theorem getLsbD_lowOnes {x : BitVec w} {k : ℕ} (hones : ∀ i < k, x.getLsbD i = true)
    (hzero : x.getLsbD k = false) (i : ℕ) : (lowOnes x).getLsbD i = decide (i < w ∧ i < k) := by
  have hlow : x.toNat % 2 ^ (k + 1) = 2 ^ k - 1 := by
    apply Nat.eq_of_testBit_eq
    intro j
    rw [Nat.testBit_mod_two_pow, Nat.testBit_two_pow_sub_one, BitVec.testBit_toNat]
    rcases lt_trichotomy j k with hj | rfl | hj
    · simp [hj, hones j hj, Nat.lt_succ_of_lt hj]
    · simp [hzero]
    · simp [not_lt.mpr hj.le, not_lt.mpr (Nat.succ_le_of_lt hj)]
  have hpow : 2 ^ k < 2 ^ (k + 1) := Nat.pow_lt_pow_right (by norm_num) (by omega)
  have hpos : 0 < 2 ^ k := by positivity
  have hx : x.toNat = 2 ^ (k + 1) * (x.toNat / 2 ^ (k + 1)) + (2 ^ k - 1) := by
    rw [← hlow, Nat.div_add_mod]
  have hsucc : x.toNat + 1 = 2 ^ (k + 1) * (x.toNat / 2 ^ (k + 1)) + 2 ^ k := by omega
  unfold lowOnes
  rw [BitVec.getLsbD_and, BitVec.getLsbD_not, ← BitVec.testBit_toNat x, ← BitVec.testBit_toNat,
    BitVec.toNat_add]
  by_cases hi : i < w
  · have hone : (1 : BitVec w).toNat = 1 := by
      have hw : 1 < 2 ^ w := Nat.one_lt_two_pow (by omega)
      exact (BitVec.toNat_ofNat 1 w).trans (Nat.mod_eq_of_lt hw)
    rw [hone, Nat.testBit_mod_two_pow, hsucc, hx,
      Nat.testBit_two_pow_mul_add _ (by omega : 2 ^ k - 1 < 2 ^ (k + 1)), ← hx,
      Nat.testBit_two_pow_mul_add _ hpow, Nat.testBit_two_pow_sub_one, Nat.testBit_two_pow]
    by_cases hik : i < k + 1
    · by_cases hlt : i < k
      · simp [hi, hik, hlt, hlt.ne']
      · simp [hik, hlt]
    · have hge : ¬ i < k := by omega
      simp [hi, hik, hge]
  · simp [hi]

theorem div_eq_of_mem_block {a x j : ℕ} (ha : a % 2 ^ j = 0) (h1 : a ≤ x) (h2 : x < a + 2 ^ j) :
    x / 2 ^ j = a / 2 ^ j := by
  have hpos : 0 < 2 ^ j := by positivity
  apply le_antisymm
  · rw [← Nat.lt_succ_iff, Nat.div_lt_iff_lt_mul hpos, Nat.succ_mul,
      Nat.div_mul_cancel (Nat.dvd_of_mod_eq_zero ha)]
    exact h2
  · exact Nat.div_le_div_right h1

/-- Words of one block lie in one larger block. -/
theorem div_eq_of_le {x y j s : ℕ} (h : x / 2 ^ j = y / 2 ^ j) (hjs : j ≤ s) :
    x / 2 ^ s = y / 2 ^ s := by
  obtain ⟨d, rfl⟩ := Nat.exists_eq_add_of_le hjs
  rw [pow_add, ← Nat.div_div_eq_div_mul, ← Nat.div_div_eq_div_mul, h]

end BitBlocks
