import PerceptronSoc.Proofs.TageShape

/-! The counter ranges of the TAGE tables along every run. The saturation tests
compare for equality only, so a counter stays in range because every write, by
training, allocation, aging or reset, puts it back there. -/

namespace PerceptronSoc

/-- The parameter sets covered: any table sizes that fit an `int` subscript, and
counters that fit their 8-bit fields. -/
structure TageParams.InRange (P : TageParams) : Prop extends P.Sized where
  baseCtrBits : 1 ≤ P.baseCtrBits ∧ P.baseCtrBits ≤ 8
  taggedCtrBits : 1 ≤ P.taggedCtrBits ∧ P.taggedCtrBits ≤ 8
  usefulnessBits : P.usefulnessBits ≤ 8
  tagBits : ∀ info ∈ P.tableInfo, info.tagBits ≤ 63

namespace Tage

structure EntryOk (P : TageParams) (e : TaggedEntry) : Prop where
  ctr : e.ctr.toInt ∈ Set.Icc (counterMin P.taggedCtrBits) (counterMax P.taggedCtrBits)
  useful : e.useful.toNat ≤ 2 ^ P.usefulnessBits - 1

structure Ranged (P : TageParams) (s : Tage) : Prop where
  params : s.params = P
  baseRange : ∀ c ∈ s.baseTable,
    c.toInt ∈ Set.Icc (counterMin P.baseCtrBits) (counterMax P.baseCtrBits)
  entryOk : ∀ table ∈ s.taggedTables, ∀ e ∈ table, EntryOk P e

variable {P : TageParams} {s : Tage}

theorem zero_mem_counter (bits : ℕ) : (0 : ℤ) ∈ Set.Icc (counterMin bits) (counterMax bits) := by
  have : (0 : ℤ) < 2 ^ (bits - 1) := by positivity
  exact ⟨by unfold counterMin; omega, by unfold counterMax; omega⟩

/-- A counter of at most eight bits fits the `int8_t` it is stored in. -/
theorem counter_fits {bits : ℕ} (hb : bits ≤ 8) {x : ℤ}
    (hx : x ∈ Set.Icc (counterMin bits) (counterMax bits)) : (Int8.ofInt x).toInt = x := by
  have hpow : (2 : ℤ) ^ (bits - 1) ≤ 2 ^ 7 := pow_le_pow_right₀ (by norm_num) (by omega)
  obtain ⟨h1, h2⟩ := hx
  unfold counterMin at h1
  unfold counterMax at h2
  exact Int8.toInt_ofInt_of_le (by omega) (by omega)

theorem stepCtr_toInt {bits : ℕ} (hb : bits ≤ 8) (taken : Bool) {c : Int8}
    (hc : c.toInt ∈ Set.Icc (counterMin bits) (counterMax bits)) :
    (stepCtr bits taken c).toInt = if taken then satInc c.toInt bits else satDec c.toInt bits := by
  apply counter_fits hb
  cases taken
  · exact Saturate.down_mem hc
  · exact Saturate.up_mem hc

theorem stepCtr_mem {bits : ℕ} (hb : bits ≤ 8) (taken : Bool) {c : Int8}
    (hc : c.toInt ∈ Set.Icc (counterMin bits) (counterMax bits)) :
    (stepCtr bits taken c).toInt ∈ Set.Icc (counterMin bits) (counterMax bits) := by
  rw [stepCtr_toInt hb taken hc]
  cases taken
  · exact Saturate.down_mem hc
  · exact Saturate.up_mem hc

/-- `max_useful` survives its narrowing to `uint8_t`. -/
theorem Ranged.maxUseful_toNat (hi : Ranged P s) (hP : P.InRange) :
    s.maxUseful.toNat = 2 ^ P.usefulnessBits - 1 := by
  have hpow : 2 ^ P.usefulnessBits ≤ 2 ^ 8 := Nat.pow_le_pow_right (by norm_num) hP.usefulnessBits
  unfold maxUseful
  rw [hi.params]
  exact UInt8.toNat_ofNat_of_lt' (by simp [UInt8.size]; omega)

theorem EntryOk.zero (P : TageParams) : EntryOk P TaggedEntry.zero :=
  ⟨zero_mem_counter _, Nat.zero_le _⟩

theorem EntryOk.stepCtr (hP : P.InRange) (taken : Bool) {e : TaggedEntry} (h : EntryOk P e) :
    EntryOk P { e with ctr := stepCtr P.taggedCtrBits taken e.ctr } :=
  ⟨stepCtr_mem hP.taggedCtrBits.2 taken h.ctr, h.useful⟩

theorem EntryOk.of_useful_le {e : TaggedEntry} {u : UInt8} (h : EntryOk P e)
    (hu : u.toNat ≤ e.useful.toNat) : EntryOk P { e with useful := u } :=
  ⟨h.ctr, hu.trans h.useful⟩

theorem EntryOk.decUseful {e : TaggedEntry} (h : EntryOk P e) : EntryOk P (decUseful e) := by
  unfold Tage.decUseful
  split_ifs with hu
  · apply h.of_useful_le
    rw [UInt8.toNat_sub_of_le _ _ (by rw [UInt8.le_iff_toNat_le]; exact hu)]
    exact Nat.sub_le _ _
  · exact h

theorem EntryOk.incUseful (hP : P.InRange) {m : UInt8} (hm : m.toNat = 2 ^ P.usefulnessBits - 1)
    {e : TaggedEntry} (h : EntryOk P e) : EntryOk P (incUseful m e) := by
  have hpow : 2 ^ P.usefulnessBits ≤ 2 ^ 8 := Nat.pow_le_pow_right (by norm_num) hP.usefulnessBits
  unfold Tage.incUseful
  split_ifs with hu
  · rw [UInt8.lt_iff_toNat_lt, hm] at hu
    refine ⟨h.ctr, ?_⟩
    simp only [UInt8.toNat_add, UInt8.reduceToNat]
    omega
  · exact h

/-- The entry an allocation writes: counter `0` or `-1`, not useful. -/
theorem EntryOk.allocated (P : TageParams) (tag : UInt16) (taken : Bool) :
    EntryOk P { tag := tag, ctr := if taken then 0 else -1, useful := 0 } := by
  have hpow : (0 : ℤ) < 2 ^ (P.taggedCtrBits - 1) := by positivity
  refine ⟨?_, Nat.zero_le _⟩
  cases taken
  · change (-1 : ℤ) ∈ Set.Icc _ _
    exact ⟨by unfold counterMin; omega, by unfold counterMax; omega⟩
  · exact zero_mem_counter _

theorem Ranged.modifyEntry (hi : Ranged P s) (t i : ℕ) {f : TaggedEntry → TaggedEntry}
    (hf : ∀ e, EntryOk P e → EntryOk P (f e)) : Ranged P (s.modifyEntry t i f) :=
  { hi with
    entryOk := Vectors.forall_mem_modify hi.entryOk fun _ h => Vectors.forall_mem_modify h hf }

theorem Ranged.refresh (hi : Ranged P s) (pc : UInt64) : Ranged P (s.refresh pc) := by
  unfold Tage.refresh
  split_ifs
  · exact ⟨hi.params, hi.baseRange, hi.entryOk⟩
  · exact hi

theorem Ranged.trainBase (hi : Ranged P s) (hP : P.InRange) (pc : UInt64) (taken : Bool) :
    Ranged P (s.trainBase pc taken) := by
  refine { hi with baseRange := Vectors.forall_mem_modify hi.baseRange fun c hc => ?_ }
  rw [hi.params]
  exact stepCtr_mem hP.baseCtrBits.2 taken hc

theorem Ranged.trainTagged (hi : Ranged P s) (hP : P.InRange) (bank index : ℤ) (taken : Bool) :
    Ranged P (s.trainTagged bank index taken) := by
  apply hi.modifyEntry
  intro e he
  rw [hi.params]
  exact he.stepCtr hP taken

theorem Ranged.updateUsefulness (hi : Ranged P s) (hP : P.InRange) (pc ac : Bool) :
    Ranged P (s.updateUsefulness pc ac) := by
  unfold Tage.updateUsefulness
  simp only
  split_ifs
  · exact hi
  · exact hi
  · exact hi.modifyEntry _ _ fun e he => he.incUseful hP (hi.maxUseful_toNat hP)
  · exact hi.modifyEntry _ _ fun e he => he.decUseful

theorem Ranged.trainCounters (hi : Ranged P s) (hP : P.InRange) (pc : UInt64) (taken : Bool) :
    Ranged P (s.trainCounters pc taken) := by
  unfold Tage.trainCounters
  simp only
  split_ifs
  · exact ((hi.trainTagged hP _ _ taken).trainTagged hP _ _ taken).updateUsefulness hP _ _
  · exact ((hi.trainTagged hP _ _ taken).trainBase hP pc taken).updateUsefulness hP _ _
  · exact (hi.trainTagged hP _ _ taken).updateUsefulness hP _ _
  · exact hi.trainBase hP pc taken

theorem Ranged.allocateEntries (hi : Ranged P s) (taken : Bool) :
    Ranged P (s.allocateEntries taken) := by
  unfold Tage.allocateEntries
  cases s.allocationTable with
  | some t => exact hi.modifyEntry _ _ fun _ _ => EntryOk.allocated P _ taken
  | none =>
    exact List.foldlRecOn _ _ hi fun s' hs' t _ => hs'.modifyEntry _ _ fun e he => he.decUseful

theorem Ranged.pushHistory (hi : Ranged P s) (taken : Bool) : Ranged P (s.pushHistory taken) := by
  unfold Tage.pushHistory
  split_ifs
  · exact hi
  · exact ⟨hi.params, hi.baseRange, hi.entryOk⟩

theorem Ranged.ageUsefulness (hi : Ranged P s) : Ranged P s.ageUsefulness := by
  unfold Tage.ageUsefulness
  split_ifs
  · exact hi
  · exact hi
  · refine { hi with entryOk := ?_ }
    intro table htable e he
    obtain ⟨table', ht', rfl⟩ := List.mem_map.mp htable
    obtain ⟨e', he', rfl⟩ := List.mem_map.mp he
    apply (hi.entryOk _ ht' _ he').of_useful_le
    rw [UInt8.toNat_shiftRight]
    exact Nat.shiftRight_le _ _

theorem Ranged.train (hi : Ranged P s) (hP : P.InRange) (pc : UInt64) (taken : Bool) :
    Ranged P (s.train pc taken) := by
  have hc := (hi.refresh pc).trainCounters hP pc taken
  unfold Tage.train
  simp only
  apply Ranged.ageUsefulness
  have hbump : ∀ s' : Tage, Ranged P s' →
      Ranged P { s' with branchUpdates := s'.branchUpdates + 1 } := fun s' hs' => { hs' with }
  apply hbump
  apply Ranged.pushHistory
  split_ifs
  · exact hc.allocateEntries taken
  · exact hc

theorem Ranged.reset (hi : Ranged P s) : Ranged P s.reset := by
  refine ⟨hi.params, ?_, ?_⟩
  · intro c hc
    obtain ⟨_, _, rfl⟩ := List.mem_map.mp hc
    exact zero_mem_counter _
  · intro table htable e he
    obtain ⟨_, _, rfl⟩ := List.mem_map.mp htable
    obtain ⟨_, _, rfl⟩ := List.mem_map.mp he
    exact EntryOk.zero P

theorem new_ranged (P : TageParams) : Ranged P (new P) := by
  apply Ranged.reset
  refine ⟨rfl, ?_, ?_⟩
  · intro c hc
    rw [List.eq_of_mem_replicate hc]
    exact zero_mem_counter _
  · intro table htable e he
    obtain ⟨_, _, rfl⟩ := List.mem_map.mp htable
    rw [List.eq_of_mem_replicate he]
    exact EntryOk.zero P

theorem Ranged.exec (hi : Ranged P s) (hP : P.InRange) (c : PredictorCall) : Ranged P (s.exec c) := by
  cases c with
  | predict pc => exact ⟨hi.params, hi.baseRange, hi.entryOk⟩
  | train pc taken => exact hi.train hP pc taken
  | reset => exact hi.reset

theorem Ranged.run (hi : Ranged P s) (hP : P.InRange) (calls : List PredictorCall) :
    Ranged P (s.run calls) :=
  List.foldlRecOn calls Tage.exec hi fun _ hs c _ => hs.exec hP c

end Tage

end PerceptronSoc
