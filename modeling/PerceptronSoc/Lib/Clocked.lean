import Mathlib.Tactic

/-! Synchronous circuits. The state is what the registers hold in a cycle; the inputs of
the cycle decide what they hold in the next one. -/

namespace Clocked

variable {S I β : Type*} (step : S → I → S) (s₀ : S) (ins : ℕ → I)

/-- The registers in cycle `k` after a reset to `s₀`. -/
def stateAt : ℕ → S
  | 0 => s₀
  | k + 1 => step (stateAt k) (ins k)

theorem stateAt_succ (k : ℕ) :
    stateAt step s₀ ins (k + 1) = step (stateAt step s₀ ins k) (ins k) := rfl

variable {step s₀}

theorem invariant {P : S → Prop} (h0 : P s₀) (hstep : ∀ s i, P s → P (step s i)) (k : ℕ) :
    P (stateAt step s₀ ins k) := by
  induction k with
  | zero => exact h0
  | succ k ih => exact hstep _ _ ih

/-- A value that is set once and that every step keeps while it is set. -/
theorem kept_from {P : S → Prop} (hstep : ∀ s i, P s → P (step s i)) {k m : ℕ} (hkm : k ≤ m)
    (hk : P (stateAt step s₀ ins k)) : P (stateAt step s₀ ins m) := by
  induction m, hkm using Nat.le_induction with
  | base => exact hk
  | succ m _ ih => exact hstep _ _ ih

/-- While a lasting `P` holds, an output is constant if and only if no single step
changes it. -/
theorem constant_iff {P : S → Prop} (f : S → β) (hstep : ∀ s i, P s → P (step s i)) :
    (∀ k m, k ≤ m → P (stateAt step s₀ ins k) →
      f (stateAt step s₀ ins m) = f (stateAt step s₀ ins k)) ↔
    ∀ k, P (stateAt step s₀ ins k) →
      f (step (stateAt step s₀ ins k) (ins k)) = f (stateAt step s₀ ins k) := by
  refine ⟨fun h k hk => h k (k + 1) k.le_succ hk, fun h k m hkm hk => ?_⟩
  induction m, hkm using Nat.le_induction with
  | base => rfl
  | succ m hkm ih => rw [stateAt_succ, h m (kept_from ins hstep hkm hk), ih]

end Clocked
