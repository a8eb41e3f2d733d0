import Mathlib.Tactic

/-! Iterated steps that settle. A good state, one with `G`, stays good, and every step
from a bad one uses up some of a budget, so a state with `W m` is good after `m` steps. -/

namespace Settle

variable {S : Type*} {step : S → S} {I G : S → Prop} {W : ℕ → S → Prop}

theorem kept (hI : ∀ s, I s → I (step s)) {s : S} (hs : I s) (k : ℕ) : I (step^[k] s) := by
  induction k with
  | zero => exact hs
  | succ k ih =>
    rw [Function.iterate_succ_apply']
    exact hI _ ih

section Good

variable (hI : ∀ s, I s → I (step s)) (hkeep : ∀ s, I s → G s → G (step s))

include hI hkeep

theorem good_stays {s : S} (hs : I s) (hgood : G s) (k : ℕ) : G (step^[k] s) :=
  (kept (I := fun s => I s ∧ G s) (fun s h => ⟨hI s h.1, hkeep s h.1 h.2⟩) ⟨hs, hgood⟩ k).2

/-- The budget bounds the number of steps until the states are good for ever. -/
theorem good_of_le (hspend : ∀ s m, I s → ¬ G s → W m s → ∃ m' < m, W m' (step s)) {s : S}
    (hs : I s) {m k : ℕ} (hm : W m s) (hk : m ≤ k) : G (step^[k] s) := by
  induction m using Nat.strong_induction_on generalizing s k with
  | _ m ih =>
    by_cases hgood : G s
    · exact good_stays hI hkeep hs hgood k
    · obtain ⟨m', hlt, hm'⟩ := hspend s m hs hgood hm
      obtain ⟨k, rfl⟩ : ∃ j, k = j + 1 := ⟨k - 1, by omega⟩
      rw [Function.iterate_succ_apply]
      exact ih m' hlt (hI s hs) hm' (by omega)

theorem good_from {s : S} {k m : ℕ} (hs : I (step^[k] s)) (hgood : G (step^[k] s)) (hkm : k ≤ m) :
    G (step^[m] s) := by
  have h := good_stays hI hkeep hs hgood (m - k)
  rwa [← Function.iterate_add_apply, Nat.sub_add_cancel hkm] at h

theorem good_after (hspend : ∀ s m, I s → ¬ G s → W m s → ∃ m' < m, W m' (step s)) {s : S}
    {j m k : ℕ} (hs : I (step^[j] s)) (hm : W m (step^[j] s)) (hk : j + m ≤ k) :
    G (step^[k] s) := by
  have h := good_of_le hI hkeep hspend hs hm (Nat.le_sub_of_add_le' hk)
  rwa [← Function.iterate_add_apply, Nat.sub_add_cancel (le_of_add_le_left hk)] at h

end Good

end Settle
