import Mathlib.Tactic

/-! Events `(p, c)`: `c` is renewed, and what was entered under it is gone; then, the
first time for this `p` and `c`, it is entered under `p`. Only the members of `S` are
renewed and entered. Entries are not made again, so one that is lost stays lost. -/

namespace Renewal

variable {α : Type*} {S : α → Prop} {vs : List (Option α × α)} {m c : α}

/-- `c` was entered under `m` and `m` has not been renewed since. -/
def Kept (S : α → Prop) (vs : List (Option α × α)) (m c : α) : Prop :=
  S c ∧ ∃ l r, vs = l ++ (some m, c) :: r ∧ (some m, c) ∉ l ∧ (S m → ∀ p, (p, m) ∉ r)

theorem mem_snoc {p q : Option α} {x y : α} :
    (q, y) ∈ vs ++ [(p, x)] ↔ (q, y) ∈ vs ∨ q = p ∧ y = x := by
  rw [List.mem_append, List.mem_singleton, Prod.mk.injEq]

theorem not_kept_nil : ¬Kept S [] m c := by
  rintro ⟨-, l, r, h, -⟩
  simp at h

theorem Kept.mem (h : Kept S vs m c) : (some m, c) ∈ vs := by
  obtain ⟨-, l, r, rfl, -⟩ := h
  simp

theorem kept_snoc {p : Option α} {x : α} :
    Kept S (vs ++ [(p, x)]) m c ↔
      Kept S vs m c ∧ ¬(S m ∧ x = m) ∨ p = some m ∧ x = c ∧ S c ∧ (some m, c) ∉ vs := by
  constructor
  · rintro ⟨hc, l, r, heq, hl, hr⟩
    -- the entry is the last event or an earlier one
    rcases List.eq_nil_or_concat r with rfl | ⟨r', y, rfl⟩
    · obtain ⟨hvs, hlast⟩ := List.append_inj' heq rfl
      simp only [List.cons.injEq, Prod.mk.injEq, and_true] at hlast
      exact .inr ⟨hlast.1, hlast.2, hc, hvs ▸ hl⟩
    · rw [List.concat_eq_append, ← List.cons_append, ← List.append_assoc] at heq
      obtain ⟨hvs, hlast⟩ := List.append_inj' heq rfl
      simp only [List.cons.injEq, and_true] at hlast
      subst hlast
      refine .inl ⟨⟨hc, l, r', hvs, hl, fun hm q hq => hr hm q (by simp [hq])⟩, ?_⟩
      rintro ⟨hm, rfl⟩
      exact hr hm p (by simp)
  · rintro (⟨⟨hc, l, r, rfl, hl, hr⟩, hx⟩ | ⟨rfl, rfl, hc, hl⟩)
    · refine ⟨hc, l, r ++ [(p, x)], by simp, hl, fun hm q hq => ?_⟩
      rcases mem_snoc.mp hq with hq | ⟨-, hq⟩
      · exact hr hm q hq
      · exact hx ⟨hm, hq.symm⟩
    · exact ⟨hc, vs, [], rfl, hl, by simp⟩

theorem kept_snoc_member {p : Option α} {x : α} (hx : S x) :
    Kept S (vs ++ [(p, x)]) m c ↔
      Kept S vs m c ∧ m ≠ x ∨ p = some m ∧ x = c ∧ (some m, c) ∉ vs := by
  rw [kept_snoc]
  constructor
  · rintro (⟨hk, hne⟩ | ⟨hp, hxc, -, hnot⟩)
    · exact .inl ⟨hk, fun h => hne ⟨h ▸ hx, h.symm⟩⟩
    · exact .inr ⟨hp, hxc, hnot⟩
  · rintro (⟨hk, hne⟩ | ⟨hp, hxc, hnot⟩)
    · exact .inl ⟨hk, fun h => hne h.2.symm⟩
    · exact .inr ⟨hp, hxc, hxc ▸ hx, hnot⟩

/-- `y` renews what `x` has been entered under. -/
def Loses (S : α → Prop) (x y : Option α × α) : Prop := x.1 = some y.2 ∧ S x.2 ∧ S y.2

/-- An entry lasts if no renewal follows any of its events. -/
theorem kept_of_pairwise (h : vs.Pairwise fun x y => ¬Loses S x y) (hmem : (some m, c) ∈ vs)
    (hc : S c) : Kept S vs m c := by
  obtain ⟨l, r, rfl, hl⟩ := List.eq_append_cons_of_mem hmem
  refine ⟨hc, l, r, rfl, hl, fun hm p hp => ?_⟩
  have hafter := List.rel_of_pairwise_cons (List.pairwise_append.mp h).2.1 hp
  exact hafter ⟨rfl, hc, hm⟩

theorem not_loses_of_kept (hk : Kept S vs m c) {p : Option α}
    (hsub : [(some m, c), (p, m)].Sublist vs) : ¬S m := by
  obtain ⟨-, l, r, rfl, hl, hr⟩ := hk
  intro hm
  obtain ⟨l₁, l₂, heq, h₁, h₂⟩ := List.sublist_append_iff.mp hsub
  cases l₁ with
  | nil =>
    rw [List.nil_append] at heq
    subst heq
    have hlast : (p, m) ∈ r := by
      rcases List.sublist_cons_iff.mp h₂ with h | ⟨r', hr', h⟩
      · exact h.subset (by simp)
      · simp only [List.cons.injEq] at hr'
        exact h.subset (by simp [← hr'.2])
    exact hr hm p hlast
  | cons x l₁ =>
    rw [List.cons_append, List.cons.injEq] at heq
    exact hl (heq.1 ▸ h₁.subset List.mem_cons_self)

/-- Every entry lasts exactly if no renewal comes after one. -/
theorem kept_iff_pairwise :
    (∀ m c, (some m, c) ∈ vs → S m → S c → Kept S vs m c) ↔
      vs.Pairwise fun x y => ¬Loses S x y := by
  constructor
  · intro h
    rw [List.pairwise_iff_forall_sublist]
    rintro ⟨q, c⟩ ⟨p, m⟩ hsub ⟨hq, hc, hm⟩
    dsimp only at hq hc hm
    subst hq
    exact not_loses_of_kept (h m c (hsub.subset (by simp)) hm hc) hsub hm
  · intro h m c hmem _ hc
    exact kept_of_pairwise h hmem hc

end Renewal
