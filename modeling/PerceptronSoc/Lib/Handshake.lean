import Mathlib.Tactic

/-! A producer behind a register. In each cycle the consumer is ready or not, and the
producer may hand out a message; the register shows it in the next cycle and only there.
A message is transferred in a cycle in which the register holds it and the consumer is
ready. -/

namespace Handshake

variable {α : Type*}

structure Cycle (α : Type*) where
  ready : Bool
  handed : Option α

/-- What is transferred, starting with `reg` in the register. -/
def transfers : Option α → List (Cycle α) → List α
  | _, [] => []
  | reg, c :: cs => (if c.ready then reg.toList else []) ++ transfers c.handed cs

def handedOut (cs : List (Cycle α)) : List α := cs.filterMap Cycle.handed

/-- Whoever is handed a message is ready in the next cycle. -/
def Steady (cs : List (Cycle α)) : Prop :=
  cs.IsChain fun c c' => c.handed.isSome = true → c'.ready = true

theorem handedOut_cons (c : Cycle α) (cs : List (Cycle α)) :
    handedOut (c :: cs) = c.handed.toList ++ handedOut cs := by
  unfold handedOut
  cases h : c.handed <;> simp [h]

theorem length_transfers_le (reg : Option α) (c : Cycle α) (cs : List (Cycle α)) :
    (transfers reg (c :: cs)).length ≤
      reg.toList.length + (handedOut (c :: cs).dropLast).length := by
  induction cs generalizing reg c with
  | nil =>
    cases h : c.ready <;> simp [transfers, handedOut, h]
  | cons c' cs ih =>
    have hrest := ih c.handed c'
    rw [transfers, List.length_append, List.dropLast_cons_cons, handedOut_cons, List.length_append]
    split
    · omega
    · simp only [List.length_nil]
      omega

/-- Every message is transferred, once and in order, if and only if the consumer stays
ready for it. -/
theorem transfers_eq_iff (reg : Option α) (c : Cycle α) (cs : List (Cycle α)) :
    transfers reg (c :: cs) = reg.toList ++ handedOut (c :: cs).dropLast ↔
      (reg.isSome = true → c.ready = true) ∧ Steady (c :: cs) := by
  induction cs generalizing reg c with
  | nil =>
    cases hr : reg <;> cases h : c.ready <;> simp [transfers, handedOut, Steady, h]
  | cons c' cs ih =>
    have hle := length_transfers_le c.handed c' cs
    rw [transfers, List.dropLast_cons_cons, handedOut_cons]
    unfold Steady
    rw [List.isChain_cons_cons]
    by_cases hlost : reg.isSome = true ∧ c.ready = false
    · -- a lost message leaves one too few
      obtain ⟨hsome, hready⟩ := hlost
      obtain ⟨a, rfl⟩ := Option.isSome_iff_exists.mp hsome
      refine iff_of_false (fun he => ?_) fun h => ?_
      · have hlen := congrArg List.length he
        simp only [hready, List.length_append, Option.toList_some, List.length_singleton] at hlen
        simp at hlen
        omega
      · rw [h.1 rfl] at hready
        cases hready
    · have hkept : (if c.ready then reg.toList else []) = reg.toList := by
        cases hr : reg <;> cases h : c.ready <;> simp_all
      have himp : reg.isSome = true → c.ready = true := by
        intro h
        by_contra hn
        exact hlost ⟨h, by simpa using hn⟩
      rw [hkept, List.append_cancel_left_eq, ih]
      exact ⟨fun h => ⟨himp, h⟩, fun h => h.2⟩

end Handshake
