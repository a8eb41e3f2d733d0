import PerceptronSoc.Proofs.TageBounds

/-! Where a tag in the tables comes from. Entries carry no valid bit and `reset` writes
tag `0`, so a hit is the work of an allocation, or a match with that `0`. -/

namespace PerceptronSoc.Tage

structure Allocation where
  table : ℕ
  index : ℕ
  tag : UInt16
deriving DecidableEq

def allocation (s : Tage) (pc : UInt64) (taken : Bool) : Option Allocation :=
  let s₁ := (s.refresh pc).trainCounters pc taken
  if s₁.lastLookup.finalPrediction != taken then
    s₁.allocationTable.map fun t =>
      ⟨t, s₁.lastLookup.indices.getD t 0, s₁.lastLookup.tags.getD t 0⟩
  else none

/-- Some `train` of the run, with no `reset` after it, put `tag` into entry `index` of
table `table`. -/
def AllocatedSince (P : TageParams) (calls : List PredictorCall) (a : Allocation) : Prop :=
  ∃ pre pc taken post, calls = pre ++ .train pc taken :: post ∧ .reset ∉ post ∧
    ((new P).run pre).allocation pc taken = some a

variable {P : TageParams} {s : Tage}

theorem entryAt_modifyEntry_self {t i : ℕ} {f : TaggedEntry → TaggedEntry}
    (h : s.EntryInBounds t i) : (s.modifyEntry t i f).entryAt t i = f (s.entryAt t i) := by
  unfold entryAt modifyEntry
  simp only
  rw [Vectors.getD_modify_self h.1, Vectors.getD_modify_self h.2]

theorem entryAt_modifyEntry_ne {t i t' i' : ℕ} {f : TaggedEntry → TaggedEntry}
    (h : ¬ (t = t' ∧ i = i')) : (s.modifyEntry t i f).entryAt t' i' = s.entryAt t' i' := by
  unfold entryAt modifyEntry
  simp only
  by_cases ht : t = t'
  · subst ht
    by_cases hb : t < s.taggedTables.length
    · rw [Vectors.getD_modify_self hb, Vectors.getD_modify_ne fun hi => h ⟨rfl, hi⟩]
    · rw [List.modify_eq_self (by omega)]
  · rw [Vectors.getD_modify_ne ht]

theorem entryAt_modifyEntry_keeps {α : Type} {g : TaggedEntry → α} {f : TaggedEntry → TaggedEntry}
    (hf : ∀ e, g (f e) = g e) (t i t' i' : ℕ) :
    g ((s.modifyEntry t i f).entryAt t' i') = g (s.entryAt t' i') := by
  by_cases h : t = t' ∧ i = i'
  · obtain ⟨rfl, rfl⟩ := h
    by_cases hb : s.EntryInBounds t i
    · rw [entryAt_modifyEntry_self hb, hf]
    · congr 1
      unfold entryAt modifyEntry
      simp only
      by_cases ht : t < s.taggedTables.length
      · have hi : (s.taggedTables.getD t []).length ≤ i := by
          by_contra hlt
          exact hb ⟨ht, by omega⟩
        rw [Vectors.getD_modify_self ht, List.modify_eq_self hi]
      · rw [List.modify_eq_self (by omega)]
  · rw [entryAt_modifyEntry_ne h]

/-- A reading of an entry that does not depend on how useful it is. -/
def UsefulBlind {α : Type} (g : TaggedEntry → α) : Prop :=
  ∀ e u, g { e with useful := u } = g e

theorem tag_blind : UsefulBlind TaggedEntry.tag := fun _ _ => rfl

section Blind

variable {α : Type} {g : TaggedEntry → α} (hg : UsefulBlind g)

include hg

theorem UsefulBlind.decUseful (e : TaggedEntry) : g (Tage.decUseful e) = g e := by
  unfold Tage.decUseful
  split_ifs
  · exact hg e _
  · rfl

theorem UsefulBlind.incUseful (m : UInt8) (e : TaggedEntry) : g (Tage.incUseful m e) = g e := by
  unfold Tage.incUseful
  split_ifs
  · exact hg e _
  · rfl

theorem UsefulBlind.updateUsefulness (s : Tage) (pc ac : Bool) (t i : ℕ) :
    g ((s.updateUsefulness pc ac).entryAt t i) = g (s.entryAt t i) := by
  unfold Tage.updateUsefulness
  simp only
  split_ifs
  · rfl
  · rfl
  · exact entryAt_modifyEntry_keeps (hg.incUseful _) _ _ _ _
  · exact entryAt_modifyEntry_keeps hg.decUseful _ _ _ _

theorem UsefulBlind.ageUsefulness (s : Tage) (t i : ℕ) :
    g (s.ageUsefulness.entryAt t i) = g (s.entryAt t i) := by
  unfold Tage.ageUsefulness
  split_ifs
  · rfl
  · rfl
  · simp only [entryAt, List.getD_eq_getElem?_getD, List.getElem?_map]
    cases s.taggedTables[t]? with
    | none => rfl
    | some table =>
      simp only [Option.map_some, Option.getD_some, List.getElem?_map]
      cases table[i]? with
      | none => rfl
      | some e => exact hg e _

end Blind

theorem trainTagged_tag (s : Tage) (bank index : ℤ) (taken : Bool) (t i : ℕ) :
    ((s.trainTagged bank index taken).entryAt t i).tag = (s.entryAt t i).tag :=
  entryAt_modifyEntry_keeps (fun _ => by rfl) _ _ _ _

theorem trainBase_entryAt (s : Tage) (pc : UInt64) (taken : Bool) (t i : ℕ) :
    (s.trainBase pc taken).entryAt t i = s.entryAt t i := rfl

theorem trainCounters_tag (s : Tage) (pc : UInt64) (taken : Bool) (t i : ℕ) :
    ((s.trainCounters pc taken).entryAt t i).tag = (s.entryAt t i).tag := by
  unfold trainCounters
  simp only
  split_ifs
  · rw [tag_blind.updateUsefulness, trainTagged_tag, trainTagged_tag]
  · rw [tag_blind.updateUsefulness, trainBase_entryAt, trainTagged_tag]
  · rw [tag_blind.updateUsefulness, trainTagged_tag]
  · rfl

theorem pushHistory_entryAt (s : Tage) (taken : Bool) (t i : ℕ) :
    (s.pushHistory taken).entryAt t i = s.entryAt t i := by
  unfold pushHistory
  split_ifs <;> rfl

theorem refresh_entryAt (s : Tage) (pc : UInt64) (t i : ℕ) :
    (s.refresh pc).entryAt t i = s.entryAt t i := by
  unfold refresh
  split_ifs <;> rfl

theorem mem_allocationRange {s : Tage} {t : ℕ} (h : t ∈ s.allocationRange) :
    startTable s.lastLookup ≤ t ∧ t < s.params.tableInfo.length := by
  obtain ⟨h1, h2⟩ := List.mem_range'_1.mp h
  exact ⟨h1, by omega⟩

/-- Allocation replaces one looked-up entry, or only lowers `useful`. -/
theorem UsefulBlind.allocateEntries {α : Type} {g : TaggedEntry → α} (hg : UsefulBlind g)
    (hs : Shaped P s) (hv : s.lastLookup.valid = true) (taken : Bool) (t i : ℕ) :
    g ((s.allocateEntries taken).entryAt t i) =
      match s.allocationTable with
      | some b =>
        if b = t ∧ s.lastLookup.indices.getD b 0 = i then
          g ⟨s.lastLookup.tags.getD b 0, if taken then 0 else -1, 0⟩
        else g (s.entryAt t i)
      | none => g (s.entryAt t i) := by
  unfold Tage.allocateEntries
  cases hb : s.allocationTable with
  | some b =>
    have hlt : b < P.tableInfo.length := by
      have hmem : b ∈ s.allocationRange := List.mem_of_find?_eq_some hb
      rw [← hs.params]
      exact (mem_allocationRange hmem).2
    have hin : s.EntryInBounds b (s.lastLookup.indices.getD b 0) :=
      hs.entryInBounds hlt ((hs.lookup hv).index b hlt)
    simp only
    by_cases h : b = t ∧ s.lastLookup.indices.getD b 0 = i
    · rw [if_pos h]
      obtain ⟨rfl, rfl⟩ := h
      rw [entryAt_modifyEntry_self hin]
    · rw [if_neg h, entryAt_modifyEntry_ne h]
  | none =>
    refine List.foldlRecOn (motive := fun s' : Tage => g (s'.entryAt t i) = g (s.entryAt t i))
      _ _ rfl fun s' hs' b _ => ?_
    rw [entryAt_modifyEntry_keeps hg.decUseful]
    exact hs'

/-- The entries after `train`: those of its counter updates, but for its allocation. -/
theorem UsefulBlind.train {α : Type} {g : TaggedEntry → α} (hg : UsefulBlind g) (hs : Shaped P s)
    (hP : P.Sized) (pc : UInt64) (taken : Bool) (t i : ℕ) :
    g ((s.train pc taken).entryAt t i) =
      match s.allocation pc taken with
      | some a =>
        if a.table = t ∧ a.index = i then g ⟨a.tag, if taken then 0 else -1, 0⟩
        else g (((s.refresh pc).trainCounters pc taken).entryAt t i)
      | none => g (((s.refresh pc).trainCounters pc taken).entryAt t i) := by
  have hc := (hs.refresh hP pc).trainCounters pc taken
  have hv : ((s.refresh pc).trainCounters pc taken).lastLookup.valid = true := by
    rw [trainCounters_lastLookup]
    exact refresh_valid s pc
  have hbump : ∀ (s' : Tage) (n : UInt64),
      ({ s' with branchUpdates := n } : Tage).entryAt t i = s'.entryAt t i := fun _ _ => rfl
  unfold Tage.train allocation
  simp only
  rw [hg.ageUsefulness, hbump, pushHistory_entryAt]
  by_cases hmiss :
      (((s.refresh pc).trainCounters pc taken).lastLookup.finalPrediction != taken) = true
  · rw [if_pos hmiss, if_pos hmiss, hg.allocateEntries hc hv]
    cases ((s.refresh pc).trainCounters pc taken).allocationTable <;> rfl
  · rw [if_neg hmiss, if_neg hmiss]

/-- The tags after `train`: its allocation, and nothing else. -/
theorem train_tag (hs : Shaped P s) (hP : P.Sized) (pc : UInt64) (taken : Bool) (t i : ℕ) :
    ((s.train pc taken).entryAt t i).tag =
      match s.allocation pc taken with
      | some a => if a.table = t ∧ a.index = i then a.tag else (s.entryAt t i).tag
      | none => (s.entryAt t i).tag := by
  rw [tag_blind.train hs hP]
  simp only [trainCounters_tag, refresh_entryAt]

@[simp] theorem run_snoc (s : Tage) (calls : List PredictorCall) (c : PredictorCall) :
    s.run (calls ++ [c]) = (s.run calls).exec c := by
  simp [run]

theorem not_allocatedSince_nil (a : Allocation) : ¬ AllocatedSince P [] a := by
  rintro ⟨pre, pc, taken, post, h, -⟩
  simp at h

theorem allocatedSince_snoc {calls : List PredictorCall} {c : PredictorCall} {a : Allocation} :
    AllocatedSince P (calls ++ [c]) a ↔
      (∃ pc taken, c = .train pc taken ∧ ((new P).run calls).allocation pc taken = some a) ∨
      (c ≠ .reset ∧ AllocatedSince P calls a) := by
  constructor
  · rintro ⟨pre, pc, taken, post, h, hreset, ha⟩
    rcases List.eq_nil_or_concat post with rfl | ⟨post', c', rfl⟩
    · obtain ⟨rfl, hc⟩ := List.append_inj' h rfl
      exact Or.inl ⟨pc, taken, by simpa using hc, ha⟩
    · rw [List.concat_eq_append, ← List.cons_append, ← List.append_assoc] at h
      obtain ⟨rfl, hc⟩ := List.append_inj' h rfl
      obtain rfl : c = c' := by simpa using hc
      refine Or.inr ⟨fun he => hreset (by simp [he]), pre, pc, taken, post', rfl, ?_, ha⟩
      exact fun hm => hreset (by simp [hm])
  · rintro (⟨pc, taken, rfl, ha⟩ | ⟨hne, pre, pc, taken, post, rfl, hreset, ha⟩)
    · exact ⟨calls, pc, taken, [], rfl, by simp, ha⟩
    · refine ⟨pre, pc, taken, post ++ [c], by simp, ?_, ha⟩
      simp only [List.mem_append, List.mem_singleton, not_or]
      exact ⟨hreset, fun h => hne h.symm⟩

theorem reset_entryAt (s : Tage) (t i : ℕ) : s.reset.entryAt t i = TaggedEntry.zero := by
  simp only [entryAt, reset, List.getD_eq_getElem?_getD, List.getElem?_map]
  cases s.taggedTables[t]? with
  | none => rfl
  | some table =>
    simp only [Option.map_some, Option.getD_some, List.getElem?_map]
    cases table[i]? <;> rfl

theorem new_entryAt (P : TageParams) (t i : ℕ) : (new P).entryAt t i = TaggedEntry.zero :=
  reset_entryAt _ t i

/-- Every stored tag was put there by an allocation since the last reset, or is the `0`
of an entry that none has replaced. -/
theorem tag_origin (hP : P.Sized) (calls : List PredictorCall) (t i : ℕ) :
    AllocatedSince P calls ⟨t, i, (((new P).run calls).entryAt t i).tag⟩ ∨
      ((((new P).run calls).entryAt t i).tag = 0 ∧ ∀ tag, ¬ AllocatedSince P calls ⟨t, i, tag⟩) := by
  induction calls using List.reverseRecOn with
  | nil => exact Or.inr ⟨by rw [run, List.foldl_nil, new_entryAt]; rfl,
      fun tag => not_allocatedSince_nil _⟩
  | append_singleton calls c ih =>
    have hs : Shaped P ((new P).run calls) := (new_shaped P).run hP calls
    simp only [run_snoc, allocatedSince_snoc]
    cases c with
    | predict pc =>
      have hsame : (((new P).run calls).exec (.predict pc)).entryAt t i =
          ((new P).run calls).entryAt t i := rfl
      simpa [hsame] using ih
    | reset =>
      refine Or.inr ⟨by rw [exec, reset_entryAt]; rfl, ?_⟩
      rintro tag (⟨pc, taken, h, -⟩ | ⟨h, -⟩)
      · cases h
      · exact h rfl
    | train pc taken =>
      have htag := train_tag hs hP pc taken t i
      change ((((new P).run calls).exec (.train pc taken)).entryAt t i).tag = _ at htag
      -- either this call replaced the entry, or its tag and its past are as before
      by_cases ha : ∃ tag, ((new P).run calls).allocation pc taken = some ⟨t, i, tag⟩
      · obtain ⟨tag, ha⟩ := ha
        rw [ha] at htag
        simp only [and_self, if_true] at htag
        rw [htag]
        exact Or.inl (Or.inl ⟨pc, taken, rfl, ha⟩)
      · have hold : ((((new P).run calls).exec (.train pc taken)).entryAt t i).tag =
            (((new P).run calls).entryAt t i).tag := by
          rw [htag]
          cases halloc : ((new P).run calls).allocation pc taken with
          | none => rfl
          | some a =>
            have hne : ¬ (a.table = t ∧ a.index = i) := by
              rintro ⟨rfl, rfl⟩
              exact ha ⟨a.tag, halloc⟩
            simp only [if_neg hne]
        rw [hold]
        rcases ih with h | ⟨h0, h⟩
        · exact Or.inl (Or.inr ⟨by simp, h⟩)
        · refine Or.inr ⟨h0, ?_⟩
          rintro tag (⟨pc', taken', he, ha'⟩ | ⟨-, h'⟩)
          · cases he
            exact ha ⟨tag, ha'⟩
          · exact h tag h'

/-- A hit is genuine unless it matches the tag `0` that `reset` left in an entry: a
provider or alternate entry was allocated since the last reset with the matched tag, or
the matched tag is `0` and no allocation has touched the entry. -/
theorem hit_is_allocated_or_zero (P : TageParams) (hP : P.Sized) (calls : List PredictorCall)
    (pc : UInt64) :
    let l := (((new P).run calls).predict pc).2.lastLookup
    (l.providerHit = true →
      AllocatedSince P calls ⟨sizeT l.providerBank, sizeT l.providerIndex, l.providerTag⟩ ∨
      (l.providerTag = 0 ∧
        ∀ tag, ¬ AllocatedSince P calls ⟨sizeT l.providerBank, sizeT l.providerIndex, tag⟩)) ∧
    (l.alternateHit = true →
      AllocatedSince P calls ⟨sizeT l.alternateBank, sizeT l.alternateIndex, l.alternateTag⟩ ∨
      (l.alternateTag = 0 ∧
        ∀ tag, ¬ AllocatedSince P calls ⟨sizeT l.alternateBank, sizeT l.alternateIndex, tag⟩)) := by
  intro l
  have hs : Shaped P ((new P).run calls) := (new_shaped P).run hP calls
  have hl : LookupSpec ((new P).run calls) pc l := lookup_spec _ pc
  have horigin : ∀ b ∈ ((new P).run calls).hits pc,
      sizeT (castInt (((new P).run calls).tableIndex b pc)) =
        ((new P).run calls).tableIndex b pc ∧
      (((new P).run calls).entryAt b (((new P).run calls).tableIndex b pc)).tag =
        ((new P).run calls).tableTag b pc := by
    intro b hb
    obtain ⟨hbt, htag⟩ := mem_hits.mp hb
    rw [hs.params] at hbt
    have hidx := hs.tableIndex_lt hP hbt pc
    exact ⟨sizeT_castInt (lt_of_lt_of_le hidx (tableSize_range hP hbt).2), htag⟩
  refine ⟨fun hp => ?_, fun ha => ?_⟩
  · obtain ⟨b, hb, hbank, hindex, htag, -⟩ := hl.provider hp
    obtain ⟨hcast, hentry⟩ := horigin b hb
    have h := tag_origin hP calls b (((new P).run calls).tableIndex b pc)
    rw [hentry] at h
    rw [hbank, hindex, htag, sizeT_natCast, hcast]
    exact h
  · obtain ⟨-, -, a, hmem, -, -, -, hbank, hindex, htag, -⟩ := hl.alternate ha
    obtain ⟨hcast, hentry⟩ := horigin a hmem
    have h := tag_origin hP calls a (((new P).run calls).tableIndex a pc)
    rw [hentry] at h
    rw [hbank, hindex, htag, sizeT_natCast, hcast]
    exact h

theorem hit_is_allocated_or_zero_default :
    TageParams.boomLikeDefault.Sized ∧
    (((new TageParams.boomLikeDefault).run []).predict 0x800000bc).2.lastLookup.providerTag = 0 := by
  have h := (hit_is_allocated_or_zero _ boomLikeDefault_inRange.toSized [] 0x800000bc).1
    (by decide +kernel)
  refine ⟨boomLikeDefault_inRange.toSized, ?_⟩
  rcases h with h | h
  · exact absurd h (not_allocatedSince_nil _)
  · exact h.1

/-- Straight after construction the simulator's predictor reports a provider hit for
this branch, in table 1 at index 83, with nothing allocated anywhere. -/
theorem fresh_entry_provides :
    ((default.run []).predict 0x800000bc).2.lastLookup.providerHit = true ∧
    ((default.run []).predict 0x800000bc).2.lastLookup.providerBank = 1 ∧
    ((default.run []).predict 0x800000bc).2.lastLookup.providerIndex = 83 ∧
    ¬ ∃ a, AllocatedSince TageParams.boomLikeDefault [] a := by
  refine ⟨by decide +kernel, by decide +kernel, by decide +kernel, ?_⟩
  rintro ⟨a, h⟩
  exact not_allocatedSince_nil a h

end PerceptronSoc.Tage
