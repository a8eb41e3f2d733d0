import PerceptronSoc.Spec.Clocking
import Mathlib.Data.Nat.Periodic

/-! The counter of `ClockDividerN` runs through `0, …, DIV - 1` and the output is high in its
upper half. The rest follows from where the counter starts. -/

namespace PerceptronSoc.ClockDividerN

variable {div : ℕ}

theorem toNat_ofNat_clog {x : ℕ} (h : x < div) : (BitVec.ofNat (Nat.clog 2 div) x).toNat = x := by
  rw [BitVec.toNat_ofNat]
  exact Nat.mod_eq_of_lt (h.trans_le (Nat.le_pow_clog (by decide) div))

theorem toNat_highTransition (h : 2 ≤ div) : (highTransition div).toNat = div / 2 - 1 :=
  toNat_ofNat_clog (by omega)

theorem toNat_lowTransition (h : 2 ≤ div) : (lowTransition div).toNat = div - 1 :=
  toNat_ofNat_clog (by omega)

/-- The counter is below `DIV` and its upper half is the high phase. -/
structure Phase (s : ClockDividerN div) (c : ℕ) : Prop where
  count : s.count.toNat = c
  lt : c < div
  level : s.clkOut = decide (div / 2 ≤ c)

theorem posedge_phase (h : 2 ≤ div) {s : ClockDividerN div} {c : ℕ} (hs : Phase s c) :
    Phase s.posedge ((c + 1) % div) := by
  obtain ⟨hc, hlt, hlevel⟩ := hs
  have hlow : s.count = lowTransition div ↔ c = div - 1 := by
    rw [← BitVec.toNat_inj, hc, toNat_lowTransition h]
  have hhigh : s.count = highTransition div ↔ c = div / 2 - 1 := by
    rw [← BitVec.toNat_inj, hc, toNat_highTransition h]
  unfold posedge
  by_cases hl : c = div - 1
  · have hwrap : (c + 1) % div = 0 := by
      rw [hl, Nat.sub_add_cancel (by omega), Nat.mod_self]
    rw [if_pos (hlow.mpr hl), hwrap]
    refine ⟨rfl, by omega, ?_⟩
    simp only [Nat.le_zero_eq, Bool.false_eq, decide_eq_false_iff_not]
    omega
  · have hnext : (c + 1) % div = c + 1 := Nat.mod_eq_of_lt (by omega)
    rw [if_neg (hlow.not.mpr hl), hnext]
    refine ⟨?_, by omega, ?_⟩
    · have hpow : div ≤ 2 ^ Nat.clog 2 div := Nat.le_pow_clog (by decide) div
      have hone : (1 : BitVec (Nat.clog 2 div)).toNat = 1 := toNat_ofNat_clog h
      rw [BitVec.toNat_add, hc, hone]
      exact Nat.mod_eq_of_lt (by omega)
    · simp only [hhigh, hlevel]
      split
      · simp only [Bool.true_eq, decide_eq_true_eq]
        omega
      · rw [decide_eq_decide]
        omega

theorem change_of_two_le (h : 2 ≤ div) (s : ClockDividerN div) :
    s.change true = s.posedge ∧ s.change false = s := by
  have hne : div ≠ 1 := by omega
  simp [change, hne]

theorem cycles_phase (h : 2 ≤ div) (n : ℕ) : Phase (cycles div n) ((div / 2 - 1 + n) % div) := by
  induction n with
  | zero =>
    have hmod : (div / 2 - 1 + 0) % div = div / 2 - 1 := Nat.mod_eq_of_lt (by omega)
    rw [hmod]
    refine ⟨toNat_highTransition h, by omega, ?_⟩
    simp only [cycles, init, Bool.false_eq, decide_eq_false_iff_not]
    omega
  | succ n ih =>
    have hstep := posedge_phase h ih
    rw [Nat.mod_add_mod, Nat.add_assoc] at hstep
    rw [cycles, (change_of_two_le h _).1, (change_of_two_le h _).2]
    exact hstep

theorem cycles_level (h : 2 ≤ div) (n : ℕ) :
    (cycles div n).clkOut = decide (div / 2 ≤ (div / 2 - 1 + n) % div) :=
  (cycles_phase h n).level

/-- The counter steps by one, or from `DIV - 1` to zero. -/
theorem mod_succ_cases (h : 2 ≤ div) (n : ℕ) :
    (n % div + 1 < div ∧ (n + 1) % div = n % div + 1) ∨
    (n % div = div - 1 ∧ (n + 1) % div = 0) := by
  have hlt : n % div < div := Nat.mod_lt n (by omega)
  rw [← Nat.mod_add_mod]
  by_cases hl : n % div + 1 < div
  · exact .inl ⟨hl, Nat.mod_eq_of_lt hl⟩
  · have heq : n % div + 1 = div := by omega
    rw [heq, Nat.mod_self]
    exact .inr ⟨by omega, rfl⟩

theorem mod_eq_iff_exists {c n : ℕ} (hc : c < div) :
    n % div = c ↔ ∃ k, n = c + k * div := by
  constructor
  · intro h
    exact ⟨n / div, by rw [← h, Nat.mul_comm, Nat.mod_add_div]⟩
  · rintro ⟨k, rfl⟩
    rw [Nat.add_mul_mod_self_right, Nat.mod_eq_of_lt hc]

/-- An edge raises the output when the counter enters its upper half. -/
theorem raises_iff (h : 2 ≤ div) (n : ℕ) :
    (cycles div n).clkOut = false ∧ (cycles div (n + 1)).clkOut = true ↔ ∃ k, n = k * div := by
  have hcount : (div / 2 - 1 + n) % div = div / 2 - 1 ↔ ∃ k, n = k * div := by
    rw [mod_eq_iff_exists (by omega)]
    exact exists_congr fun k => Nat.add_left_cancel_iff
  rw [← hcount, cycles_level h, cycles_level h, ← Nat.add_assoc]
  simp only [decide_eq_true_eq, decide_eq_false_iff_not]
  obtain ⟨hlt, hnext⟩ | ⟨hlast, hnext⟩ := mod_succ_cases h (div / 2 - 1 + n)
  · rw [hnext]
    omega
  · rw [hnext]
    omega

/-- An edge lowers it when the counter returns to zero. -/
theorem lowers_iff (h : 2 ≤ div) (n : ℕ) :
    (cycles div n).clkOut = true ∧ (cycles div (n + 1)).clkOut = false ↔
      ∃ k, n = (div + 1) / 2 + k * div := by
  have hcount : (div / 2 - 1 + n) % div = div - 1 ↔ ∃ k, n = (div + 1) / 2 + k * div := by
    rw [mod_eq_iff_exists (by omega)]
    refine exists_congr fun k => ?_
    have hhalf : div / 2 + (div + 1) / 2 = div := by omega
    omega
  rw [← hcount, cycles_level h, cycles_level h, ← Nat.add_assoc]
  simp only [decide_eq_true_eq, decide_eq_false_iff_not]
  obtain ⟨hlt, hnext⟩ | ⟨hlast, hnext⟩ := mod_succ_cases h (div / 2 - 1 + n)
  · rw [hnext]
    omega
  · rw [hnext]
    omega

theorem cycles_periodic (h : 2 ≤ div) : Function.Periodic (fun n => (cycles div n).clkOut) div := by
  intro n
  simp only [cycles_level h, ← Nat.add_assoc, Nat.add_mod_right]

/-- Any `DIV` cycles in a row have the same number of high ones. -/
theorem card_high (h : 2 ≤ div) (n : ℕ) :
    ((Finset.Ico n (n + div)).filter fun k => (cycles div k).clkOut = true).card =
      (div + 1) / 2 := by
  have hperiodic : Function.Periodic (fun k => (cycles div k).clkOut = true) div := fun k =>
    congrArg (· = true) (cycles_periodic h k)
  rw [Nat.filter_Ico_card_eq_of_periodic n div _ hperiodic,
    ← Nat.filter_Ico_card_eq_of_periodic 1 div _ hperiodic]
  -- the period that starts with the first edge is high in its first cycles
  have hhigh : (Finset.Ico 1 (1 + div)).filter (fun k => (cycles div k).clkOut = true) =
      Finset.Ico 1 (1 + (div + 1) / 2) := by
    ext k
    simp only [Finset.mem_filter, Finset.mem_Ico, cycles_level h, decide_eq_true_eq]
    by_cases hk : div / 2 - 1 + k < div
    · rw [Nat.mod_eq_of_lt hk]
      omega
    · constructor
      · rintro ⟨⟨-, hle⟩, hmod⟩
        rw [Nat.mod_eq_sub_mod (by omega), Nat.mod_eq_of_lt (by omega)] at hmod
        omega
      · rintro ⟨-, hlt⟩
        omega
  rw [hhigh, Nat.card_Ico, Nat.add_sub_cancel_left]

/-- Edge `n + 1` of the input, for every `n`: where the output rises and falls, that it does
nothing else, and the range of the counter; hence the period and the duty cycle. -/
theorem divides (div : ℕ) (h : 2 ≤ div) (n : ℕ) :
    ((cycles div n).clkOut = false ∧ ((cycles div n).change true).clkOut = true ↔
      ∃ k, n + 1 = 1 + k * div) ∧
    ((cycles div n).clkOut = true ∧ ((cycles div n).change true).clkOut = false ↔
      ∃ k, n + 1 = 1 + (div + 1) / 2 + k * div) ∧
    (((cycles div n).change true).change false).clkOut = ((cycles div n).change true).clkOut ∧
    (cycles div n).count.toNat ≤ div - 1 ∧ ((cycles div n).change true).count.toNat ≤ div - 1 ∧
    (cycles div (n + div)).clkOut = (cycles div n).clkOut ∧
    ((Finset.Ico n (n + div)).filter fun k => (cycles div k).clkOut = true).card =
      (div + 1) / 2 := by
  have hfalling := (change_of_two_le h ((cycles div n).change true)).2
  have hrising : (cycles div n).change true = cycles div (n + 1) := hfalling.symm
  have hcount : ∀ m, (cycles div m).count.toNat ≤ div - 1 := fun m => by
    have hphase := cycles_phase h m
    have hlt := hphase.lt
    rw [hphase.count]
    omega
  refine ⟨?_, ?_, by rw [hfalling], hcount n, by rw [hrising]; exact hcount (n + 1),
    cycles_periodic h n, card_high h n⟩
  · rw [hrising, raises_iff h n]
    exact exists_congr fun k => by omega
  · rw [hrising, lowers_iff h n]
    exact exists_congr fun k => by omega

/-- By five: the output falls on the fourth edge, after three high cycles. -/
theorem divides_five :
    (cycles 5 3).clkOut = true ∧ ((cycles 5 3).change true).clkOut = false :=
  (divides 5 (by decide) 3).2.1.mpr ⟨0, rfl⟩

end PerceptronSoc.ClockDividerN
