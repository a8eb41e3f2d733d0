import PerceptronSoc.Lib.Vectors
import PerceptronSoc.Proofs.TageLookup

/-! The sizes of the TAGE tables and the subscripts a stored lookup carries, along
every run. A lookup record may outlive the call that made it, so what it says about
subscripts is stated against the parameters, which never change. -/

namespace PerceptronSoc

structure TageParams.Sized (P : TageParams) : Prop where
  baseEntries : 1 ≤ P.baseEntries ∧ P.baseEntries ≤ 2 ^ 31
  tables : Tage.TablesFit P

namespace Tage

def tableSize (P : TageParams) (t : ℕ) : ℕ := (P.tableInfo.getD t ⟨1, 0, 0⟩).nEntries

/-- Every subscript a valid lookup record holds lies inside its table. -/
structure LookupOk (P : TageParams) (l : LastLookup) : Prop where
  indicesLength : l.indices.length = P.tableInfo.length
  tagsLength : l.tags.length = P.tableInfo.length
  index : ∀ t < P.tableInfo.length, l.indices.getD t 0 < tableSize P t
  provider : l.providerHit = true → sizeT l.providerBank < P.tableInfo.length ∧
    sizeT l.providerIndex < tableSize P (sizeT l.providerBank)
  alternate : l.alternateHit = true → sizeT l.alternateBank < P.tableInfo.length ∧
    sizeT l.alternateIndex < tableSize P (sizeT l.alternateBank)
  order : l.providerHit = true → l.alternateHit = true → l.alternateBank < l.providerBank

structure Shaped (P : TageParams) (s : Tage) : Prop where
  params : s.params = P
  maxHistLen : s.maxHistLen = P.tableInfo.foldl (fun m info => max m info.histLen) 0
  baseLength : s.baseTable.length = P.baseEntries
  shape : s.taggedTables.map List.length = P.tableInfo.map TableInfo.nEntries
  historyLength : s.history.length = s.maxHistLen
  lookup : s.lastLookup.valid = true → LookupOk P s.lastLookup

variable {P : TageParams} {s : Tage}

theorem Shaped.tables_length (hs : Shaped P s) : s.taggedTables.length = P.tableInfo.length := by
  simpa using congrArg List.length hs.shape

theorem Shaped.table_length (hs : Shaped P s) {t : ℕ} (ht : t < P.tableInfo.length) :
    (s.taggedTables.getD t []).length = tableSize P t := by
  have ht' : t < s.taggedTables.length := by rw [hs.tables_length]; exact ht
  have h := congrArg (fun l => l[t]?) hs.shape
  simp only [List.getElem?_map, List.getElem?_eq_getElem ht, List.getElem?_eq_getElem ht',
    Option.map_some, Option.some.injEq] at h
  rw [tableSize, List.getD_eq_getElem _ _ ht', List.getD_eq_getElem _ _ ht]
  exact h

theorem tableSize_range (hP : P.Sized) {t : ℕ} (ht : t < P.tableInfo.length) :
    1 ≤ tableSize P t ∧ tableSize P t ≤ 2 ^ 31 :=
  hP.tables _ (Vectors.getD_mem ht)

theorem Shaped.tableIndex_lt (hs : Shaped P s) (hP : P.Sized) {t : ℕ}
    (ht : t < P.tableInfo.length) (pc : UInt64) : s.tableIndex t pc < tableSize P t := by
  obtain ⟨h1, h2⟩ := tableSize_range hP ht
  unfold tableIndex tableInfoAt
  rw [hs.params]
  exact maskIndex_lt _ h1 (lt_of_le_of_lt h2 (by norm_num))

theorem Shaped.baseIndex_lt (hs : Shaped P s) (hP : P.Sized) (pc : UInt64) :
    sizeT (s.baseIndex pc) < s.baseTable.length := by
  obtain ⟨h1, h2⟩ := hP.baseEntries
  have hlt := maskIndex_lt (pc >>> 2) h1 (by omega)
  rw [hs.baseLength, baseIndex, hs.params, sizeT_castInt (by omega)]
  exact hlt

/-- A lookup made now only names subscripts that exist. -/
theorem Shaped.lookupOk (hs : Shaped P s) (hP : P.Sized) (pc : UInt64) :
    LookupOk P (s.lookup pc) := by
  have hl := lookup_spec s pc
  have hlen : s.params.tableInfo.length = P.tableInfo.length := by rw [hs.params]
  have hhit : ∀ b ∈ s.hits pc, b < P.tableInfo.length ∧
      sizeT (castInt (s.tableIndex b pc)) < tableSize P b := by
    intro b hb
    have hbt : b < P.tableInfo.length := hlen ▸ (mem_hits.mp hb).1
    have hidx := hs.tableIndex_lt hP hbt pc
    exact ⟨hbt, by rw [sizeT_castInt (lt_of_lt_of_le hidx (tableSize_range hP hbt).2)]; exact hidx⟩
  refine ⟨by simp [hl.indices, hlen], by simp [hl.tags, hlen], ?_, ?_, ?_, ?_⟩
  · intro t ht
    have hidx : (s.lookup pc).indices.getD t 0 = s.tableIndex t pc := by
      rw [hl.indices, hlen]
      simp [List.getD_eq_getElem?_getD, ht]
    rw [hidx]
    exact hs.tableIndex_lt hP ht pc
  · intro hp
    obtain ⟨b, hb, hbank, hindex, -⟩ := hl.provider hp
    rw [hbank, hindex]
    exact hhit b hb
  · intro ha
    obtain ⟨-, -, a, hmem, -, -, -, hbank, hindex, -⟩ := hl.alternate ha
    rw [hbank, hindex]
    exact hhit a hmem
  · intro _ ha
    obtain ⟨b, -, a, -, hlt, -, hbank, hbank', -⟩ := hl.alternate ha
    rw [hbank, hbank']
    exact Nat.cast_lt.mpr hlt

theorem updateUsefulness_frame (s : Tage) (x y : Bool) :
    s.updateUsefulness x y = { s with taggedTables := (s.updateUsefulness x y).taggedTables } := by
  unfold updateUsefulness
  simp only
  split_ifs <;> rfl

theorem trainCounters_frame (s : Tage) (pc : UInt64) (taken : Bool) :
    s.trainCounters pc taken =
      { s with
        baseTable := (s.trainCounters pc taken).baseTable
        taggedTables := (s.trainCounters pc taken).taggedTables } := by
  unfold trainCounters
  simp only
  split_ifs
  · rw [updateUsefulness_frame]
    rfl
  · rw [updateUsefulness_frame]
    rfl
  · rw [updateUsefulness_frame]
    rfl
  · rfl

theorem allocateEntries_frame (s : Tage) (taken : Bool) :
    s.allocateEntries taken = { s with taggedTables := (s.allocateEntries taken).taggedTables } := by
  unfold allocateEntries
  cases s.allocationTable with
  | some t => rfl
  | none =>
    refine List.foldlRecOn
      (motive := fun s' : Tage => s' = { s with taggedTables := s'.taggedTables }) _ _ rfl ?_
    intro s' hs' t _
    rw [hs']
    rfl

theorem pushHistory_frame (s : Tage) (taken : Bool) :
    s.pushHistory taken = { s with history := (taken :: s.history).dropLast } := by
  unfold pushHistory
  split_ifs with h
  · have hnil : (taken :: s.history).dropLast = s.history := by
      rw [List.isEmpty_iff.mp h]
      rfl
    rw [hnil]
  · rfl

theorem ageUsefulness_frame (s : Tage) :
    s.ageUsefulness = { s with taggedTables := s.ageUsefulness.taggedTables } := by
  unfold ageUsefulness
  split_ifs <;> rfl

/-- `train` trains the base table with the counters, shifts the history, counts, and leaves
the lookup record alone. -/
theorem train_frame (s : Tage) (pc : UInt64) (taken : Bool) :
    ∃ tables, s.train pc taken =
      { s.refresh pc with
        branchUpdates := (s.refresh pc).branchUpdates + 1
        baseTable := ((s.refresh pc).trainCounters pc taken).baseTable
        taggedTables := tables
        history := (taken :: (s.refresh pc).history).dropLast } := by
  unfold train
  simp only
  rw [ageUsefulness_frame, pushHistory_frame]
  split_ifs
  · rw [allocateEntries_frame, trainCounters_frame]
    exact ⟨_, rfl⟩
  · rw [trainCounters_frame]
    exact ⟨_, rfl⟩

@[simp] theorem trainCounters_lastLookup (s : Tage) (pc : UInt64) (taken : Bool) :
    (s.trainCounters pc taken).lastLookup = s.lastLookup := by
  rw [trainCounters_frame]

theorem refresh_valid (s : Tage) (pc : UInt64) : (s.refresh pc).lastLookup.valid = true := by
  unfold refresh
  split_ifs with h
  · exact (lookup_spec s pc).valid
  · cases hv : s.lastLookup.valid
    · simp [hv] at h
    · rfl

theorem map_length_modify {α : Type*} (tables : List (List α)) (t i : ℕ) (f : α → α) :
    (tables.modify t fun entries => entries.modify i f).map List.length =
      tables.map List.length := by
  apply List.ext_getElem
  · simp
  · intro k h1 h2
    simp only [List.getElem_map, List.getElem_modify]
    split_ifs
    · exact List.length_modify f _ i
    · rfl

theorem Shaped.modifyEntry (hs : Shaped P s) (t i : ℕ) (f : TaggedEntry → TaggedEntry) :
    Shaped P (s.modifyEntry t i f) :=
  { hs with shape := (map_length_modify _ _ _ _).trans hs.shape }

theorem Shaped.predict (hs : Shaped P s) (hP : P.Sized) (pc : UInt64) :
    Shaped P (s.predict pc).2 :=
  { hs with lookup := fun _ => hs.lookupOk hP pc }

theorem Shaped.refresh (hs : Shaped P s) (hP : P.Sized) (pc : UInt64) :
    Shaped P (s.refresh pc) := by
  unfold Tage.refresh
  split_ifs
  · exact hs.predict hP pc
  · exact hs

theorem Shaped.trainBase (hs : Shaped P s) (pc : UInt64) (taken : Bool) :
    Shaped P (s.trainBase pc taken) :=
  { hs with baseLength := (List.length_modify _ _ _).trans hs.baseLength }

theorem Shaped.updateUsefulness (hs : Shaped P s) (pc ac : Bool) :
    Shaped P (s.updateUsefulness pc ac) := by
  unfold Tage.updateUsefulness
  simp only
  split_ifs
  · exact hs
  · exact hs
  · exact hs.modifyEntry _ _ _
  · exact hs.modifyEntry _ _ _

theorem Shaped.trainCounters (hs : Shaped P s) (pc : UInt64) (taken : Bool) :
    Shaped P (s.trainCounters pc taken) := by
  unfold Tage.trainCounters
  simp only
  split_ifs
  · exact ((hs.modifyEntry _ _ _).modifyEntry _ _ _).updateUsefulness _ _
  · exact ((hs.modifyEntry _ _ _).trainBase pc taken).updateUsefulness _ _
  · exact (hs.modifyEntry _ _ _).updateUsefulness _ _
  · exact hs.trainBase pc taken

theorem Shaped.allocateEntries (hs : Shaped P s) (taken : Bool) :
    Shaped P (s.allocateEntries taken) := by
  unfold Tage.allocateEntries
  cases s.allocationTable with
  | some t => exact hs.modifyEntry _ _ _
  | none => exact List.foldlRecOn _ _ hs fun s' hs' t _ => hs'.modifyEntry _ _ _

theorem Shaped.pushHistory (hs : Shaped P s) (taken : Bool) : Shaped P (s.pushHistory taken) := by
  unfold Tage.pushHistory
  split_ifs
  · exact hs
  · exact { hs with historyLength := (Vectors.length_shift _ _).trans hs.historyLength }

theorem Shaped.ageUsefulness (hs : Shaped P s) : Shaped P s.ageUsefulness := by
  unfold Tage.ageUsefulness
  split_ifs
  · exact hs
  · exact hs
  · refine { hs with shape := ?_ }
    simpa [Function.comp_def] using hs.shape

theorem Shaped.train (hs : Shaped P s) (hP : P.Sized) (pc : UInt64) (taken : Bool) :
    Shaped P (s.train pc taken) := by
  have hc := (hs.refresh hP pc).trainCounters pc taken
  unfold Tage.train
  simp only
  apply Shaped.ageUsefulness
  have hbump : ∀ s' : Tage, Shaped P s' →
      Shaped P { s' with branchUpdates := s'.branchUpdates + 1 } := fun s' hs' => { hs' with }
  apply hbump
  apply Shaped.pushHistory
  split_ifs
  · exact hc.allocateEntries taken
  · exact hc

theorem Shaped.reset (hs : Shaped P s) : Shaped P s.reset := by
  refine { hs with baseLength := ?_, shape := ?_, historyLength := ?_, lookup := ?_ }
  · simpa [Tage.reset] using hs.baseLength
  · simpa [Tage.reset, Function.comp_def] using hs.shape
  · simpa [Tage.reset] using hs.historyLength
  · intro h
    simp [Tage.reset] at h

theorem new_shaped (P : TageParams) : Shaped P (new P) := by
  apply Shaped.reset
  refine ⟨rfl, rfl, by simp, ?_, by simp, ?_⟩
  · simp [Function.comp_def]
  · intro h
    simp at h

theorem Shaped.exec (hs : Shaped P s) (hP : P.Sized) (c : PredictorCall) : Shaped P (s.exec c) := by
  cases c with
  | predict pc => exact hs.predict hP pc
  | train pc taken => exact hs.train hP pc taken
  | reset => exact hs.reset

theorem Shaped.run (hs : Shaped P s) (hP : P.Sized) (calls : List PredictorCall) :
    Shaped P (s.run calls) :=
  List.foldlRecOn calls Tage.exec hs fun _ h c _ => h.exec hP c

theorem Shaped.reset_eq (hs : Shaped P s) : s.reset = new P := by
  have htables : ∀ tables : List (List TaggedEntry),
      tables.map List.length = P.tableInfo.map TableInfo.nEntries →
      tables.map (fun table => table.map fun _ => TaggedEntry.zero) =
        (P.tableInfo.map TableInfo.nEntries).map fun k => List.replicate k TaggedEntry.zero := by
    intro tables h
    rw [← h, List.map_map]
    exact List.map_congr_left fun table _ => Vectors.map_const_eq_replicate _ _
  have h₀ := new_shaped P
  have hbase : s.reset.baseTable = (new P).reset.baseTable := by
    simp only [Tage.reset, Vectors.map_const_eq_replicate, hs.baseLength, h₀.baseLength]
  have htagged : s.reset.taggedTables = (new P).reset.taggedTables := by
    simp only [Tage.reset, htables _ hs.shape, htables _ h₀.shape]
  have hhistory : s.reset.history = (new P).reset.history := by
    simp only [Tage.reset, Vectors.map_const_eq_replicate, hs.historyLength, h₀.historyLength,
      hs.maxHistLen, h₀.maxHistLen]
  have hidem : (new P).reset = new P := by
    simp [new, Tage.reset, Function.comp_def]
  calc s.reset = { (new P).reset with
          params := s.params, maxHistLen := s.maxHistLen, baseTable := s.reset.baseTable,
          taggedTables := s.reset.taggedTables, history := s.reset.history } := rfl
    _ = (new P).reset := by
      rw [hbase, htagged, hhistory, hs.params, hs.maxHistLen, ← h₀.maxHistLen]
      rfl
    _ = new P := hidem

end Tage

end PerceptronSoc
