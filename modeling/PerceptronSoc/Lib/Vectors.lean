import Mathlib.Data.List.GetD
import Mathlib.Tactic

/-! Lists as mutable vectors: reads with a default, updates in place, and the facts
about every element that survive them. -/

namespace Vectors

variable {α : Type*} {P : α → Prop} {l : List α} {i j : ℕ} {f : α → α} {d : α}

theorem forall_mem_modify (h : ∀ x ∈ l, P x) (hf : ∀ x, P x → P (f x)) :
    ∀ x ∈ l.modify i f, P x := by
  intro x hx
  obtain ⟨k, hk, rfl⟩ := List.mem_iff_getElem.mp hx
  have hk' : k < l.length := by simpa using hk
  rw [List.getElem_modify]
  split_ifs
  · exact hf _ (h _ (List.getElem_mem hk'))
  · exact h _ (List.getElem_mem hk')

theorem getD_of_forall (h : ∀ x ∈ l, P x) (hd : P d) : P (l.getD i d) := by
  by_cases hi : i < l.length
  · rw [List.getD_eq_getElem _ _ hi]
    exact h _ (List.getElem_mem hi)
  · rw [List.getD_eq_default _ _ (by omega)]
    exact hd

theorem getD_mem (h : i < l.length) : l.getD i d ∈ l := by
  rw [List.getD_eq_getElem _ _ h]
  exact List.getElem_mem h

theorem getD_modify_self (h : i < l.length) : (l.modify i f).getD i d = f (l.getD i d) := by
  rw [List.getD_eq_getElem _ _ (by simpa using h), List.getElem_modify_eq,
    List.getD_eq_getElem _ _ h]

theorem getD_modify_ne (h : i ≠ j) : (l.modify i f).getD j d = l.getD j d := by
  simp only [List.getD_eq_getElem?_getD, List.getElem?_modify_ne f l h]

theorem length_shift (x : α) (l : List α) : ((x :: l).dropLast).length = l.length := by
  simp

theorem shift_replicate (x : α) (k : ℕ) :
    (x :: List.replicate k x).dropLast = List.replicate k x := by
  rw [← List.replicate_succ, List.replicate_succ', List.dropLast_concat]

theorem shift_iterate (x : α) (l : List α) (k : ℕ) :
    (fun l => (x :: l).dropLast)^[k] l = (List.replicate k x ++ l).take l.length := by
  induction k with
  | zero => simp
  | succ k ih =>
    rw [Function.iterate_succ_apply', ih, List.dropLast_eq_take, List.replicate_succ,
      List.cons_append]
    cases hl : l.length with
    | zero => simp
    | succ n => simp [hl, List.take_take]

/-- A vector that has been shifted its whole length holds one value. -/
theorem shift_iterate_of_le (x : α) (l : List α) {k : ℕ} (hk : l.length ≤ k) :
    (fun l => (x :: l).dropLast)^[k] l = List.replicate l.length x := by
  rw [shift_iterate, List.take_append_of_le_length (by simpa using hk), List.take_replicate,
    min_eq_left hk]

/-- A shift of a window on a list is the window on the longer list. -/
theorem shift_take (x : α) {l : List α} {n : ℕ} (h : n ≤ l.length) :
    (x :: l.take n).dropLast = (x :: l).take n := by
  rw [List.dropLast_eq_take]
  cases n with
  | zero => rfl
  | succ n => simp [List.take_take, min_eq_left h]

theorem map_const_eq_replicate {β : Type*} (l : List α) (b : β) :
    l.map (fun _ => b) = List.replicate l.length b := by
  simp

end Vectors
