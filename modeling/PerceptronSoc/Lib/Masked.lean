import Mathlib.Data.BitVec
import Mathlib.Tactic

/-! Words written under a mask. `(a &&& ~~~m) ||| (x &&& m)` takes the bits of `m` from `x` and
the others from `a`; two words are compared on the bits of a mask `k` by `a &&& k = b &&& k`. -/

namespace Masked

variable {w : ℕ} {a b x m k : BitVec w}

theorem and_eq_and_iff :
    a &&& k = b &&& k ↔ ∀ i < w, k.getLsbD i = true → a.getLsbD i = b.getLsbD i := by
  constructor
  · intro h i _ hk
    have hbit := congrArg (fun v => v.getLsbD i) h
    simpa [hk] using hbit
  · intro h
    apply BitVec.eq_of_getLsbD_eq
    intro i hi
    rw [BitVec.getLsbD_and, BitVec.getLsbD_and]
    cases hk : k.getLsbD i with
    | false => simp
    | true => rw [h i hi hk]

theorem and_eq_zero_iff :
    m &&& k = 0 ↔ ∀ i < w, k.getLsbD i = true → m.getLsbD i = false := by
  have h := @and_eq_and_iff w m (0#w) k
  rw [BitVec.zero_and] at h
  simpa using h

/-- Comparing on more bits says more. -/
theorem and_eq_mono {k' : BitVec w} (h : a &&& k = b &&& k) (hk : k' &&& k = k') :
    a &&& k' = b &&& k' := by
  rw [← hk, BitVec.and_comm k' k, ← BitVec.and_assoc, ← BitVec.and_assoc, h]

theorem and_eq_zero_mono {k' : BitVec w} (h : m &&& k = 0) (hk : k' &&& k = k') : m &&& k' = 0 := by
  rw [and_eq_zero_iff] at h ⊢
  intro i hi hki
  refine h i hi ?_
  have hbit := congrArg (fun v => v.getLsbD i) hk
  simpa [hki] using hbit

theorem subset_or_left (h : k &&& a = k) : k &&& (a ||| b) = k := by
  apply BitVec.eq_of_getLsbD_eq
  intro i _
  have hbit := congrArg (fun v => v.getLsbD i) h
  simp only [BitVec.getLsbD_and, BitVec.getLsbD_or] at hbit ⊢
  cases hk : k.getLsbD i with
  | false => rfl
  | true =>
    rw [hk, Bool.true_and] at hbit
    simp [hbit]

/-- Bits that cannot be written stay. -/
theorem and_write_of_disjoint (hm : m &&& k = 0) :
    ((a &&& ~~~m) ||| (x &&& m)) &&& k = a &&& k := by
  rw [and_eq_and_iff]
  intro i hi hk
  simp only [BitVec.getLsbD_or, BitVec.getLsbD_and, BitVec.getLsbD_not, and_eq_zero_iff.mp hm i hi hk]
  simp [hi]

/-- Bits that are written as they were stay. -/
theorem and_write_of_agree (hx : x &&& k = a &&& k) :
    ((a &&& ~~~m) ||| (x &&& m)) &&& k = a &&& k := by
  rw [and_eq_and_iff] at hx ⊢
  intro i hi hk
  cases hm : m.getLsbD i with
  | false =>
    simp only [BitVec.getLsbD_or, BitVec.getLsbD_and, BitVec.getLsbD_not, hm]
    simp [hi]
  | true => simp [hm, hx i hi hk]

/-- Bits under the mask are the written ones. -/
theorem and_write_of_subset (hk : k &&& m = k) :
    ((a &&& ~~~m) ||| (x &&& m)) &&& k = x &&& k := by
  rw [and_eq_and_iff]
  intro i hi hki
  have hm : m.getLsbD i = true := by
    have hbit := congrArg (fun v => v.getLsbD i) hk
    simpa [hki] using hbit
  simp [hm]

theorem and_not_of_disjoint (h : a &&& m = 0) : a &&& ~~~m = a := by
  apply BitVec.eq_of_getLsbD_eq
  intro i hi
  cases hm : m.getLsbD i with
  | false =>
    simp only [BitVec.getLsbD_and, BitVec.getLsbD_not, hm]
    simp [hi]
  | true => simp [hm, and_eq_zero_iff.mp h i hi hm]

end Masked
