import Mathlib.Tactic

/-! Saturating steps on the integers, stopped by equality with a bound. The
equality test is only sound for a value that is already inside its range, so the
range lemmas below carry that hypothesis. -/

namespace Saturate

variable {lo hi x : ℤ}

def up (hi x : ℤ) : ℤ := if x = hi then x else x + 1

def down (lo x : ℤ) : ℤ := if x = lo then x else x - 1

theorem up_mem (h : x ∈ Set.Icc lo hi) : up hi x ∈ Set.Icc lo hi := by
  obtain ⟨h1, h2⟩ := h
  unfold up
  split_ifs with he
  · exact ⟨h1, h2⟩
  · exact ⟨by omega, by omega⟩

theorem down_mem (h : x ∈ Set.Icc lo hi) : down lo x ∈ Set.Icc lo hi := by
  obtain ⟨h1, h2⟩ := h
  unfold down
  split_ifs with he
  · exact ⟨h1, h2⟩
  · exact ⟨by omega, by omega⟩

theorem le_up (hi x : ℤ) : x ≤ up hi x := by
  unfold up
  split_ifs <;> omega

theorem down_le (lo x : ℤ) : down lo x ≤ x := by
  unfold down
  split_ifs <;> omega

/-- Below a bound that is not negative, a step up leaves less than it found below zero. -/
theorem neg_le_up {m : ℤ} (hhi : 0 ≤ hi) (hm : 0 ≤ m) (h : -(m + 1) ≤ x) : -m ≤ up hi x := by
  unfold up
  split_ifs <;> omega

/-- Steps up from below `hi` end at `hi`. -/
theorem up_iterate (h : x ≤ hi) (n : ℕ) : (up hi)^[n] x = min (x + n) hi := by
  induction n with
  | zero => simpa using h
  | succ n ih =>
    rw [Function.iterate_succ_apply', ih, up]
    split_ifs <;> push_cast <;> omega

/-- Steps down from above `lo` end at `lo`. -/
theorem down_iterate (h : lo ≤ x) (n : ℕ) : (down lo)^[n] x = max (x - n) lo := by
  induction n with
  | zero => simpa using h
  | succ n ih =>
    rw [Function.iterate_succ_apply', ih, down]
    split_ifs <;> push_cast <;> omega

theorem sq_up_sub_le {v : ℤ} (hv : v ≤ hi) (x : ℤ) :
    (up hi x - v) ^ 2 ≤ (x - v) ^ 2 + 2 * (x - v) + 1 := by
  unfold up
  split_ifs with he
  · subst he
    linarith
  · linarith [add_sq (x - v) 1, show (x + 1 - v) ^ 2 = (x - v + 1) ^ 2 by ring]

theorem sq_down_sub_le {v : ℤ} (hv : lo ≤ v) (x : ℤ) :
    (down lo x - v) ^ 2 ≤ (x - v) ^ 2 - 2 * (x - v) + 1 := by
  unfold down
  split_ifs with he
  · subst he
    linarith
  · linarith [sub_sq (x - v) 1, show (x - 1 - v) ^ 2 = (x - v - 1) ^ 2 by ring]

end Saturate
