import PerceptronSoc.Proofs.TageRange

/-! Memory safety of the TAGE predictor over whole runs: every vector subscript that a
public call evaluates is in bounds and no store into an 8-bit field truncates. -/

namespace PerceptronSoc.Tage

def BaseInBounds (s : Tage) (pc : UInt64) : Prop := sizeT (s.baseIndex pc) < s.baseTable.length

def EntryInBounds (s : Tage) (bank index : ℕ) : Prop :=
  bank < s.taggedTables.length ∧ index < (s.taggedTables.getD bank []).length

/-- The subscripts evaluated through a lookup record: the scan and the two allocation
loops use `indices[t]` and `tags[t]` and the entry they select, the rest the provider
and the alternate. -/
structure LookupInBounds (s : Tage) (l : LastLookup) : Prop where
  table : ∀ t < s.params.tableInfo.length,
    t < l.indices.length ∧ t < l.tags.length ∧ s.EntryInBounds t (l.indices.getD t 0)
  provider : l.providerHit = true →
    s.EntryInBounds (sizeT l.providerBank) (sizeT l.providerIndex)
  alternate : l.alternateHit = true →
    s.EntryInBounds (sizeT l.alternateBank) (sizeT l.alternateIndex)

def PredictInBounds (s : Tage) (pc : UInt64) : Prop :=
  s.BaseInBounds pc ∧ s.LookupInBounds (s.lookup pc)

def TrainInBounds (s : Tage) (pc : UInt64) (taken : Bool) : Prop :=
  s.PredictInBounds pc ∧
  let s₁ := s.refresh pc
  s₁.BaseInBounds pc ∧ s₁.LookupInBounds s₁.lastLookup ∧
  let s₂ := s₁.trainCounters pc taken
  s₂.LookupInBounds s₂.lastLookup

def ConfidenceInBounds (s : Tage) : Prop :=
  s.lastLookup.valid = true →
    s.BaseInBounds s.lastLookup.pc ∧ s.LookupInBounds s.lastLookup

/-- No value stored into an `int8_t` or `uint8_t` field changes in the narrowing. -/
structure StoresFit (s : Tage) : Prop where
  base : ∀ c ∈ s.baseTable, ∀ taken, (stepCtr s.params.baseCtrBits taken c).toInt =
    if taken then satInc c.toInt s.params.baseCtrBits else satDec c.toInt s.params.baseCtrBits
  tagged : ∀ table ∈ s.taggedTables, ∀ e ∈ table, ∀ taken,
    (stepCtr s.params.taggedCtrBits taken e.ctr).toInt =
      if taken then satInc e.ctr.toInt s.params.taggedCtrBits
      else satDec e.ctr.toInt s.params.taggedCtrBits
  maxUseful : s.maxUseful.toNat = 2 ^ s.params.usefulnessBits - 1
  useful : ∀ e, (incUseful s.maxUseful e).useful.toNat =
    if e.useful.toNat < s.maxUseful.toNat then e.useful.toNat + 1 else e.useful.toNat

variable {P : TageParams} {s : Tage}

theorem Shaped.entryInBounds (hs : Shaped P s) {t i : ℕ} (ht : t < P.tableInfo.length)
    (hi : i < tableSize P t) : s.EntryInBounds t i :=
  ⟨by rw [hs.tables_length]; exact ht, by rw [hs.table_length ht]; exact hi⟩

theorem Shaped.lookupInBounds (hs : Shaped P s) {l : LastLookup} (hl : LookupOk P l) :
    s.LookupInBounds l := by
  refine ⟨?_, fun hp => hs.entryInBounds (hl.provider hp).1 (hl.provider hp).2,
    fun ha => hs.entryInBounds (hl.alternate ha).1 (hl.alternate ha).2⟩
  intro t ht
  rw [hs.params] at ht
  exact ⟨by rw [hl.indicesLength]; exact ht, by rw [hl.tagsLength]; exact ht,
    hs.entryInBounds ht (hl.index t ht)⟩

theorem Shaped.predictInBounds (hs : Shaped P s) (hP : P.Sized) (pc : UInt64) :
    s.PredictInBounds pc :=
  ⟨hs.baseIndex_lt hP pc, hs.lookupInBounds (hs.lookupOk hP pc)⟩

theorem Shaped.trainInBounds (hs : Shaped P s) (hP : P.Sized) (pc : UInt64) (taken : Bool) :
    s.TrainInBounds pc taken := by
  have hr := hs.refresh hP pc
  have hl := hr.lookup (refresh_valid s pc)
  refine ⟨hs.predictInBounds hP pc, hr.baseIndex_lt hP pc, hr.lookupInBounds hl, ?_⟩
  apply (hr.trainCounters pc taken).lookupInBounds
  rw [trainCounters_lastLookup]
  exact hl

theorem Ranged.storesFit (hi : Ranged P s) (hP : P.InRange) : s.StoresFit := by
  have hmax := hi.maxUseful_toNat hP
  have hpow : 2 ^ P.usefulnessBits ≤ 2 ^ 8 := Nat.pow_le_pow_right (by norm_num) hP.usefulnessBits
  refine ⟨?_, ?_, by rw [hmax, hi.params], ?_⟩
  · intro c hc taken
    rw [hi.params]
    exact stepCtr_toInt hP.baseCtrBits.2 taken (hi.baseRange c hc)
  · intro table htable e he taken
    rw [hi.params]
    exact stepCtr_toInt hP.taggedCtrBits.2 taken (hi.entryOk table htable e he).ctr
  · intro e
    simp only [incUseful, UInt8.lt_iff_toNat_lt]
    split_ifs with hu
    · simp only [UInt8.toNat_add, UInt8.reduceToNat]
      omega
    · rfl

/-- For every parameter set in range and every sequence of calls: sizes are kept,
counters keep their range, a valid lookup record is well formed, and the next call of
any kind stays in bounds and stores without truncation. -/
theorem run_stays_in_bounds (P : TageParams) (hP : P.InRange) (calls : List PredictorCall) :
    let s := (new P).run calls
    (s.baseTable.length = P.baseEntries ∧
      s.taggedTables.map List.length = P.tableInfo.map TableInfo.nEntries ∧
      s.history.length = (new P).history.length) ∧
    (∀ c ∈ s.baseTable, -2 ^ (P.baseCtrBits - 1) ≤ c.toInt ∧
      c.toInt ≤ 2 ^ (P.baseCtrBits - 1) - 1) ∧
    (∀ table ∈ s.taggedTables, ∀ e ∈ table, (-2 ^ (P.taggedCtrBits - 1) ≤ e.ctr.toInt ∧
      e.ctr.toInt ≤ 2 ^ (P.taggedCtrBits - 1) - 1) ∧
      e.useful.toNat ≤ 2 ^ P.usefulnessBits - 1) ∧
    (s.lastLookup.valid = true →
      s.lastLookup.indices.length = P.tableInfo.length ∧
      s.lastLookup.tags.length = P.tableInfo.length ∧
      (∀ t < P.tableInfo.length,
        s.lastLookup.indices.getD t 0 < (s.taggedTables.getD t []).length) ∧
      (s.lastLookup.providerHit = true → s.lastLookup.alternateHit = true →
        s.lastLookup.alternateBank < s.lastLookup.providerBank)) ∧
    (∀ pc, s.PredictInBounds pc) ∧ (∀ pc taken, s.TrainInBounds pc taken) ∧
    s.ConfidenceInBounds ∧ s.StoresFit := by
  intro s
  have hs : Shaped P s := (new_shaped P).run hP.toSized calls
  have hi : Ranged P s := (new_ranged P).run hP calls
  refine ⟨⟨hs.baseLength, hs.shape, ?_⟩, hi.baseRange, ?_, ?_, hs.predictInBounds hP.toSized,
    hs.trainInBounds hP.toSized, ?_, hi.storesFit hP⟩
  · rw [hs.historyLength, hs.maxHistLen, (new_shaped P).historyLength, (new_shaped P).maxHistLen]
  · intro table htable e he
    have hok := hi.entryOk table htable e he
    exact ⟨hok.ctr, hok.useful⟩
  · intro hv
    have hl := hs.lookup hv
    refine ⟨hl.indicesLength, hl.tagsLength, fun t ht => ?_, hl.order⟩
    rw [hs.table_length ht]
    exact hl.index t ht
  · intro hv
    exact ⟨hs.baseIndex_lt hP.toSized _, hs.lookupInBounds (hs.lookup hv)⟩

theorem boomLikeDefault_inRange : TageParams.boomLikeDefault.InRange :=
  ⟨⟨by decide, by decide⟩, by decide, by decide, by decide, by decide⟩

theorem run_stays_in_bounds_default :
    TageParams.boomLikeDefault.InRange ∧
    ((new TageParams.boomLikeDefault).run [.train 0x80000000 false]).baseTable.length = 2048 :=
  ⟨boomLikeDefault_inRange,
    (run_stays_in_bounds _ boomLikeDefault_inRange [.train 0x80000000 false]).1.1⟩

end PerceptronSoc.Tage
