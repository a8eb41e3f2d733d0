import Mathlib.Tactic
import Mathlib.Data.List.Sort

/-! Priority lists. The entries of one key stand together and in order of rank; a search
that only ever compares entries of one key against each other then finds the entry of
highest rank, and an entry whose neighbours have other keys can be moved anywhere. -/

namespace Grouped

open scoped List

variable {α κ ρ : Type*} [LinearOrder ρ] {key : α → κ} {rank : α → ρ} {l l' : List α}

/-- Between two entries of one key there are only entries of that key, and none of them is
followed by one of higher rank. -/
structure Ordered (key : α → κ) (rank : α → ρ) (l : List α) : Prop where
  together : ∀ a b c, [a, b, c] <+ l → key a = key c → key b = key a
  ranked : l.Pairwise fun a b => key a = key b → rank b ≤ rank a

theorem Ordered.sublist (h : Ordered key rank l) (hl : l' <+ l) : Ordered key rank l' :=
  ⟨fun a b c hs => h.together a b c (hs.trans hl), h.ranked.sublist hl⟩

/-- An entry whose two neighbours have other keys is the only one of its key. -/
theorem Ordered.key_ne {pre post : List α} {p e q : α}
    (h : Ordered key rank (pre ++ p :: e :: q :: post)) (hp : key e ≠ key p) (hq : key e ≠ key q)
    {a : α} (ha : a ∈ pre ++ p :: q :: post) : key a ≠ key e := by
  intro hk
  rcases List.mem_append.mp ha with ha | ha
  · have hs : [a, p, e] <+ pre ++ p :: e :: q :: post := by
      have htail : [p, e] <+ p :: e :: q :: post := by simp
      exact (List.singleton_sublist.mpr ha).append htail
    exact hp (hk.symm.trans (h.together a p e hs hk).symm)
  · rcases List.mem_cons.mp ha with rfl | ha
    · exact hp hk.symm
    · rcases List.mem_cons.mp ha with rfl | ha
      · exact hq hk.symm
      · have hs : [e, q, a] <+ pre ++ p :: e :: q :: post := by
          have htail : [e, q, a] <+ e :: q :: post := by simpa using ha
          exact (htail.cons p).trans (List.sublist_append_right _ _)
        exact hq (h.together e q a hs hk.symm).symm

theorem Ordered.cons_of_key_ne {e : α} (h : Ordered key rank l) (he : ∀ a ∈ l, key a ≠ key e) :
    Ordered key rank (e :: l) := by
  refine ⟨fun a b c hs hk => ?_, List.pairwise_cons.mpr ⟨fun a ha hk => ?_, h.ranked⟩⟩
  · rcases List.sublist_cons_iff.mp hs with hs | ⟨r, hr, hs⟩
    · exact h.together a b c hs hk
    · obtain ⟨rfl, rfl⟩ := List.cons.inj hr
      exact absurd hk.symm (he c (hs.subset (by simp)))
  · exact absurd hk.symm (he a ha)

theorem Ordered.move {pre post : List α} {p e q : α}
    (h : Ordered key rank (pre ++ p :: e :: q :: post)) (hp : key e ≠ key p) (hq : key e ≠ key q) :
    Ordered key rank (e :: (pre ++ p :: q :: post)) := by
  refine Ordered.cons_of_key_ne (h.sublist ?_) fun a ha => h.key_ne hp hq ha
  exact (List.Sublist.refl pre).append ((List.sublist_cons_self e _).cons_cons p)

/-- Sorting by key, then by rank, puts a list in order. -/
theorem ordered_of_sorted [LinearOrder κ] (h : l.Pairwise fun a b => key b < key a ∨
    key a = key b ∧ rank b ≤ rank a) : Ordered key rank l := by
  refine ⟨fun a b c hs hk => ?_, h.imp fun hab hk => ?_⟩
  · have htriple := h.sublist hs
    simp only [List.pairwise_cons, List.mem_cons, List.not_mem_nil, or_false, forall_eq_or_imp,
      forall_eq] at htriple
    obtain ⟨⟨hab, -⟩, hbc, -⟩ := htriple
    have h1 : key b ≤ key a := hab.elim le_of_lt fun h => h.1.ge
    have h2 : key c ≤ key b := hbc.elim le_of_lt fun h => h.1.ge
    exact le_antisymm h1 (hk ▸ h2)
  · exact hab.elim (fun hlt => absurd hk hlt.ne') fun h => h.2

/-- The first entry that a search finds has the highest rank among those it could have
found, if they all have one key. -/
theorem Ordered.rank_le_first {pre post : List α} {e : α} {p : α → Prop}
    (h : Ordered key rank (pre ++ e :: post)) (hpre : ∀ a ∈ pre, ¬ p a) (he : p e)
    (hone : ∀ a ∈ pre ++ e :: post, ∀ b ∈ pre ++ e :: post, p a → p b → key a = key b) {a : α}
    (ha : a ∈ pre ++ e :: post) (hpa : p a) : rank a ≤ rank e := by
  have hmem : e ∈ pre ++ e :: post := by simp
  have hkey := hone e hmem a ha he hpa
  rcases List.mem_append.mp ha with hin | hin
  · exact absurd hpa (hpre a hin)
  · rcases List.mem_cons.mp hin with rfl | hin
    · exact le_rfl
    · exact (List.pairwise_cons.mp (List.pairwise_append.mp h.ranked).2.1).1 a hin hkey

end Grouped
