import Mathlib.Tactic

/-! A total map and a sequence of partial updates of it, oldest first. Reading a point
after all of them gives the youngest update that covers the point. -/

namespace Overlay

variable {α β : Type*} {m m' : α → β} {p : α → Option β} {ps qs : List (α → Option β)} {a : α}

def apply (m : α → β) (p : α → Option β) : α → β := fun a => (p a).getD (m a)

def applyAll (m : α → β) (ps : List (α → Option β)) : α → β := ps.foldl apply m

theorem apply_none (h : p a = none) : apply m p a = m a := by
  simp [apply, h]

theorem apply_some {b : β} (h : p a = some b) : apply m p a = b := by
  simp [apply, h]

theorem applyAll_cons : applyAll m (p :: ps) = applyAll (apply m p) ps := rfl

theorem applyAll_append : applyAll m (ps ++ qs) = applyAll (applyAll m ps) qs :=
  List.foldl_append

theorem applyAll_snoc : applyAll m (ps ++ [p]) = apply (applyAll m ps) p :=
  applyAll_append

theorem applyAll_none (h : ∀ p ∈ ps, p a = none) : applyAll m ps a = m a := by
  induction ps generalizing m with
  | nil => rfl
  | cons p ps ih =>
    rw [applyAll_cons, ih fun q hq => h q (List.mem_cons_of_mem p hq)]
    exact apply_none (h p List.mem_cons_self)

theorem applyAll_congr (h : m a = m' a) : applyAll m ps a = applyAll m' ps a := by
  induction ps generalizing m m' with
  | nil => exact h
  | cons p ps ih =>
    rw [applyAll_cons, applyAll_cons]
    apply ih
    unfold apply
    rw [h]

/-- The youngest update decides, where one covers the point. -/
theorem applyAll_eq_youngest (m : α → β) (ps : List (α → Option β)) (a : α) :
    applyAll m ps a = (ps.reverse.findSome? fun p => p a).getD (m a) := by
  induction ps using List.reverseRecOn with
  | nil => rfl
  | append_singleton ps p ih =>
    rw [applyAll_snoc, List.reverse_append, List.reverse_singleton, List.singleton_append,
      List.findSome?_cons]
    cases h : p a with
    | none => rw [apply_none h, ih]
    | some b => rw [apply_some h, Option.getD_some]

end Overlay
