import PerceptronSoc.Spec.Tage

/-! What the downward table scan of `predict` finds: the provider is the highest
table whose tag matches, the alternate the next one below it. Everything later said
about a lookup goes through `scanTables_eq`. -/

namespace PerceptronSoc.Tage

/-- Every tagged table is non-empty and its subscripts fit an `int`. -/
def TablesFit (P : TageParams) : Prop :=
  ∀ info ∈ P.tableInfo, 1 ≤ info.nEntries ∧ info.nEntries ≤ 2 ^ 31

instance (P : TageParams) : Decidable (TablesFit P) :=
  inferInstanceAs (Decidable (∀ info ∈ P.tableInfo, 1 ≤ info.nEntries ∧ info.nEntries ≤ 2 ^ 31))

def hitTables (s : Tage) (l : LastLookup) (t : ℕ) : List ℕ :=
  (List.range t).reverse.filter (s.tagHit l)

theorem hitTables_succ (s : Tage) (l : LastLookup) (t : ℕ) :
    s.hitTables l (t + 1) = if s.tagHit l t then t :: s.hitTables l t else s.hitTables l t := by
  simp only [hitTables, List.range_succ, List.reverse_append, List.reverse_singleton,
    List.singleton_append, List.filter_cons]

theorem mem_hitTables {s : Tage} {l : LastLookup} {t b : ℕ} :
    b ∈ s.hitTables l t ↔ b < t ∧ s.tagHit l b = true := by
  simp [hitTables]

theorem hitTables_pairwise (s : Tage) (l : LastLookup) (t : ℕ) :
    (s.hitTables l t).Pairwise (· > ·) := by
  apply List.Pairwise.filter
  rw [List.pairwise_reverse]
  exact List.pairwise_lt_range

@[simp] theorem hitTables_setProvider (s : Tage) (l : LastLookup) (b t : ℕ) :
    s.hitTables (l.setProvider b) t = s.hitTables l t := rfl

/-- The scan once a provider is known. -/
theorem scanTables_of_provider (s : Tage) (t : ℕ) (l : LastLookup) (hp : l.providerHit = true)
    (ha : l.alternateHit = false) :
    s.scanTables t l =
      match s.hitTables l t with
      | [] => l
      | a :: _ => l.setAlternate a := by
  induction t with
  | zero => rfl
  | succ t ih =>
    rw [hitTables_succ]
    cases hit : s.tagHit l t <;> simp [scanTables, hit, hp, ha, ih]

/-- The whole scan, as a function of the list of matching tables. -/
theorem scanTables_eq (s : Tage) (t : ℕ) (l : LastLookup) (hp : l.providerHit = false)
    (ha : l.alternateHit = false) :
    s.scanTables t l =
      match s.hitTables l t with
      | [] => l
      | [b] => l.setProvider b
      | b :: a :: _ => (l.setProvider b).setAlternate a := by
  induction t with
  | zero => rfl
  | succ t ih =>
    rw [hitTables_succ]
    cases hit : s.tagHit l t
    · simpa [scanTables, hit] using ih
    · rw [scanTables, hit, if_pos rfl, hp, Bool.not_false, if_pos rfl,
        scanTables_of_provider s t (l.setProvider t) rfl ha, hitTables_setProvider, if_pos rfl]
      cases s.hitTables l t <;> rfl

def hits (s : Tage) (pc : UInt64) : List ℕ :=
  s.hitTables (s.startLookup pc) s.params.tableInfo.length

theorem startLookup_index (s : Tage) (pc : UInt64) {t : ℕ} (ht : t < s.params.tableInfo.length) :
    (s.startLookup pc).indices.getD t 0 = s.tableIndex t pc := by
  simp [startLookup, List.getD_eq_getElem?_getD, ht]

theorem startLookup_tag (s : Tage) (pc : UInt64) {t : ℕ} (ht : t < s.params.tableInfo.length) :
    (s.startLookup pc).tags.getD t 0 = s.tableTag t pc := by
  simp [startLookup, List.getD_eq_getElem?_getD, ht]

theorem mem_hits {s : Tage} {pc : UInt64} {t : ℕ} :
    t ∈ s.hits pc ↔ t < s.params.tableInfo.length ∧
      (s.entryAt t (s.tableIndex t pc)).tag = s.tableTag t pc := by
  rw [hits, mem_hitTables]
  refine and_congr_right fun ht => ?_
  rw [tagHit, startLookup_index s pc ht, startLookup_tag s pc ht, beq_iff_eq]

/-- A lookup of `pc` recorded under the history and tables of `s`. -/
structure LookupSpec (s : Tage) (pc : UInt64) (l : LastLookup) : Prop where
  valid : l.valid = true
  atPc : l.pc = pc
  indices : l.indices = (List.range s.params.tableInfo.length).map fun t => s.tableIndex t pc
  tags : l.tags = (List.range s.params.tableInfo.length).map fun t => s.tableTag t pc
  provider : l.providerHit = true → ∃ b ∈ s.hits pc, l.providerBank = b ∧
    l.providerIndex = castInt (s.tableIndex b pc) ∧ l.providerTag = s.tableTag b pc ∧
    ∀ t ∈ s.hits pc, t ≤ b
  alternate : l.alternateHit = true → ∃ b ∈ s.hits pc, ∃ a ∈ s.hits pc, a < b ∧
    l.providerHit = true ∧ l.providerBank = b ∧ l.alternateBank = a ∧
    l.alternateIndex = castInt (s.tableIndex a pc) ∧ l.alternateTag = s.tableTag a pc ∧
    ∀ t ∈ s.hits pc, t = b ∨ t ≤ a
  noProvider : l.providerHit = false → s.hits pc = []
  noAlternate : l.alternateHit = false → (s.hits pc).length ≤ 1

/-- The record after the scan satisfies the specification; one case for each way the
scan can end. -/
theorem scan_spec (s : Tage) (pc : UInt64) :
    LookupSpec s pc (s.scanTables s.params.tableInfo.length (s.startLookup pc)) := by
  have hsorted : (s.hits pc).Pairwise (· > ·) := hitTables_pairwise s _ _
  have hlt : ∀ t ∈ s.hits pc, t < s.params.tableInfo.length := fun t ht => (mem_hits.mp ht).1
  have hscan := scanTables_eq s s.params.tableInfo.length (s.startLookup pc) rfl rfl
  change _ = match s.hits pc with
      | [] => s.startLookup pc
      | [b] => (s.startLookup pc).setProvider b
      | b :: a :: _ => ((s.startLookup pc).setProvider b).setAlternate a at hscan
  rw [hscan]
  cases hh : s.hits pc with
  | nil =>
    exact ⟨rfl, rfl, rfl, rfl, fun h => by simp [startLookup] at h,
      fun h => by simp [startLookup] at h, fun _ => hh, fun _ => by simp [hh]⟩
  | cons b rest =>
    rw [hh] at hsorted hlt
    obtain ⟨hb, hrest⟩ := List.pairwise_cons.mp hsorted
    have hbt := hlt b (by simp)
    have hmax : ∀ t ∈ s.hits pc, t ≤ b := by
      intro t ht
      rw [hh] at ht
      rcases List.mem_cons.mp ht with rfl | ht
      · exact le_rfl
      · exact le_of_lt (hb t ht)
    have hprovider : ∃ b' ∈ s.hits pc, (b : ℤ) = b' ∧
        castInt ((s.startLookup pc).indices.getD b 0) = castInt (s.tableIndex b' pc) ∧
        (s.startLookup pc).tags.getD b 0 = s.tableTag b' pc ∧ ∀ t ∈ s.hits pc, t ≤ b' :=
      ⟨b, by simp [hh], rfl, congrArg castInt (startLookup_index s pc hbt),
        startLookup_tag s pc hbt, hmax⟩
    cases rest with
    | nil =>
      exact ⟨rfl, rfl, rfl, rfl, fun _ => hprovider,
        fun h => by simp [LastLookup.setProvider, startLookup] at h,
        fun h => by simp [LastLookup.setProvider] at h, fun _ => by simp [hh]⟩
    | cons a rest =>
      have hat := hlt a (by simp)
      have hsecond : ∀ t ∈ s.hits pc, t = b ∨ t ≤ a := by
        intro t ht
        rw [hh] at ht
        rcases List.mem_cons.mp ht with rfl | ht
        · exact Or.inl rfl
        rcases List.mem_cons.mp ht with rfl | ht
        · exact Or.inr le_rfl
        · exact Or.inr (le_of_lt ((List.pairwise_cons.mp hrest).1 t ht))
      exact ⟨rfl, rfl, rfl, rfl, fun _ => hprovider,
        fun _ => ⟨b, by simp [hh], a, by simp [hh], hb a (by simp), rfl, rfl, rfl,
          congrArg castInt (startLookup_index s pc hat), startLookup_tag s pc hat, hsecond⟩,
        fun h => by simp [LastLookup.setProvider, LastLookup.setAlternate] at h,
        fun h => by simp [LastLookup.setAlternate] at h⟩

theorem LookupSpec.decideLookup {s : Tage} {pc : UInt64} {l : LastLookup} (h : LookupSpec s pc l) :
    LookupSpec s pc (s.decideLookup pc l) := by
  unfold Tage.decideLookup
  split_ifs <;> exact ⟨h.valid, h.atPc, h.indices, h.tags, h.provider, h.alternate, h.noProvider,
    h.noAlternate⟩

theorem lookup_spec (s : Tage) (pc : UInt64) : LookupSpec s pc (s.lookup pc) :=
  (scan_spec s pc).decideLookup

/-- The counters a lookup found decide its predictions. -/
structure Decided (s : Tage) (pc : UInt64) (l : LastLookup) : Prop where
  providerPrediction : l.providerPrediction =
    if l.providerHit then counterPredictsTaken (s.providerEntry l).ctr.toInt
    else counterPredictsTaken (s.baseAt (s.baseIndex pc)).toInt
  alternatePrediction : l.alternatePrediction =
    if l.alternateHit then counterPredictsTaken (s.alternateEntry l).ctr.toInt
    else counterPredictsTaken (s.baseAt (s.baseIndex pc)).toInt
  providerWeak : l.providerWeak =
    if l.providerHit then counterIsWeak (s.providerEntry l).ctr.toInt s.params.taggedCtrBits
    else counterIsWeak (s.baseAt (s.baseIndex pc)).toInt s.params.baseCtrBits
  usedAlternate : l.usedAlternate =
    (l.providerHit && s.params.useAltOnWeak && l.providerWeak && l.alternateHit)
  finalPrediction : l.finalPrediction =
    if l.usedAlternate then l.alternatePrediction else l.providerPrediction

theorem decideLookup_decided (s : Tage) (pc : UInt64) (l : LastLookup) :
    Decided s pc (s.decideLookup pc l) := by
  unfold decideLookup
  cases l.providerHit with
  | false => exact ⟨rfl, rfl, rfl, rfl, rfl⟩
  | true => exact ⟨rfl, rfl, rfl, rfl, rfl⟩

theorem lookup_decided (s : Tage) (pc : UInt64) : Decided s pc (s.lookup pc) :=
  decideLookup_decided s pc _

end PerceptronSoc.Tage
