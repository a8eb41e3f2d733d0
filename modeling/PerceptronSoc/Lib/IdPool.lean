import Mathlib.Tactic

/-! A pool of transaction ids `0 … n - 1`: a list of free ids and a slot for each id
that holds what the id is in use for. Issuing takes a free id and fills its slot;
retiring empties the slot and returns the id. -/

namespace IdPool

variable {α : Type*} {n id : ℕ} {slot : ℕ → Option α} {free : List ℕ} {a : α}

def busy (slot : ℕ → Option α) (n : ℕ) : List ℕ := (List.range n).filter fun i => (slot i).isSome

/-- What the ids in use are used for. -/
def inFlight (slot : ℕ → Option α) (n : ℕ) : List α := (List.range n).filterMap slot

/-- Free and busy ids are all the ids, each once. -/
def Partition (free : List ℕ) (slot : ℕ → Option α) (n : ℕ) : Prop :=
  (free ++ busy slot n).Perm (List.range n)

theorem mem_busy : id ∈ busy slot n ↔ id < n ∧ (slot id).isSome := by
  simp [busy]

theorem mem_inFlight : a ∈ inFlight slot n ↔ ∃ i < n, slot i = some a := by
  simp [inFlight]

theorem range_split (h : id < n) :
    ∃ l r : List ℕ, List.range n = l ++ id :: r ∧ id ∉ l ∧ id ∉ r := by
  obtain ⟨l, r, he⟩ := List.append_of_mem (List.mem_range.mpr h)
  have hnd : (l ++ id :: r).Nodup := he ▸ List.nodup_range
  rw [List.nodup_append, List.nodup_cons] at hnd
  exact ⟨l, r, he, fun hc => hnd.2.2 id hc id List.mem_cons_self rfl, hnd.2.1.1⟩

theorem filter_update_of_notMem {l : List ℕ} (h : id ∉ l) (x : Option α) :
    l.filter (fun i => (Function.update slot id x i).isSome) = l.filter fun i => (slot i).isSome := by
  apply List.filter_congr
  intro i hi
  have hne : i ≠ id := fun hc => h (hc ▸ hi)
  rw [Function.update_of_ne hne]

theorem filterMap_update_of_notMem {l : List ℕ} (h : id ∉ l) (x : Option α) :
    l.filterMap (Function.update slot id x) = l.filterMap slot := by
  apply List.filterMap_congr
  intro i hi
  have hne : i ≠ id := fun hc => h (hc ▸ hi)
  rw [Function.update_of_ne hne]

theorem inFlight_fill (h : id < n) (hs : slot id = none) (a : α) :
    (inFlight (Function.update slot id (some a)) n).Perm (a :: inFlight slot n) := by
  obtain ⟨l, r, he, hl, hr⟩ := range_split h
  unfold inFlight
  rw [he, List.filterMap_append, List.filterMap_append, List.filterMap_cons, List.filterMap_cons,
    filterMap_update_of_notMem hl, filterMap_update_of_notMem hr, Function.update_self, hs]
  exact List.perm_middle

theorem inFlight_clear (h : id < n) (hs : slot id = some a) :
    (inFlight slot n).Perm (a :: inFlight (Function.update slot id none) n) := by
  have hf : (inFlight (Function.update (Function.update slot id none) id (some a)) n).Perm _ :=
    inFlight_fill h (by simp) a
  rwa [Function.update_idem, ← hs, Function.update_eq_self] at hf

theorem busy_fill (h : id < n) (hs : slot id = none) (a : α) :
    (busy (Function.update slot id (some a)) n).Perm (id :: busy slot n) := by
  obtain ⟨l, r, he, hl, hr⟩ := range_split h
  unfold busy
  rw [he, List.filter_append, List.filter_append, List.filter_cons, List.filter_cons,
    filter_update_of_notMem hl, filter_update_of_notMem hr, Function.update_self, hs]
  exact List.perm_middle

theorem busy_clear (h : id < n) (hs : slot id = some a) :
    (busy slot n).Perm (id :: busy (Function.update slot id none) n) := by
  have hf : (busy (Function.update (Function.update slot id none) id (some a)) n).Perm _ :=
    busy_fill h (by simp) a
  rwa [Function.update_idem, ← hs, Function.update_eq_self] at hf

theorem Partition.nodup (hp : Partition free slot n) : (free ++ busy slot n).Nodup :=
  hp.nodup_iff.mpr List.nodup_range

/-- A free id is a real one and its slot is empty. -/
theorem Partition.free_empty (hp : Partition free slot n) (h : id ∈ free) :
    id < n ∧ slot id = none := by
  have hlt : id < n := List.mem_range.mp (hp.mem_iff.mp (List.mem_append_left _ h))
  refine ⟨hlt, ?_⟩
  cases hs : slot id with
  | none => rfl
  | some a =>
    have hb : id ∈ busy slot n := mem_busy.mpr ⟨hlt, by simp [hs]⟩
    exact absurd rfl ((List.nodup_append.mp hp.nodup).2.2 id h id hb)

theorem Partition.issue (hp : Partition (id :: free) slot n) (a : α) :
    Partition free (Function.update slot id (some a)) n := by
  obtain ⟨hlt, hs⟩ := hp.free_empty List.mem_cons_self
  refine List.Perm.trans ?_ hp
  refine (List.Perm.append_left free (busy_fill hlt hs a)).trans ?_
  exact List.perm_middle

theorem Partition.retire (hp : Partition free slot n) (h : id < n) (hs : slot id = some a) :
    Partition (free ++ [id]) (Function.update slot id none) n := by
  refine List.Perm.trans ?_ hp
  rw [List.append_assoc, List.singleton_append]
  exact List.Perm.append_left free (busy_clear h hs).symm

end IdPool
