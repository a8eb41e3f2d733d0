import PerceptronSoc.Proofs.TageStored

/-! What one branch sees of a TAGE predictor: its base counter and the counters of the
tables that match it. While the history stands still, a `predict` and a `train` of the
branch take the view to a view: the counters that were looked at are trained, and a wrong
prediction may put one more table on top. -/

namespace PerceptronSoc.Tage

/-- The base counter, and the matching tables with their counters, highest first. -/
structure View where
  base : ℤ
  hits : List (ℕ × ℤ)

def view (s : Tage) (pc : UInt64) : View where
  base := (s.baseAt (s.baseIndex pc)).toInt
  hits := (s.hits pc).map fun t => (t, (s.entryAt t (s.tableIndex t pc)).ctr.toInt)

namespace View

variable (P : TageParams) (d : Bool) (v : View)

def final : Bool :=
  match v.hits with
  | [] => counterPredictsTaken v.base
  | [x] => counterPredictsTaken x.2
  | x :: y :: _ =>
    if P.useAltOnWeak && counterIsWeak x.2 P.taggedCtrBits then counterPredictsTaken y.2
    else counterPredictsTaken x.2

def stepTo (bits : ℕ) (c : ℤ) : ℤ := if d then satInc c bits else satDec c bits

def trained : View :=
  match v.hits with
  | [] => ⟨stepTo d P.baseCtrBits v.base, []⟩
  | [x] => ⟨stepTo d P.baseCtrBits v.base, [(x.1, stepTo d P.taggedCtrBits x.2)]⟩
  | x :: y :: rest =>
    ⟨v.base, (x.1, stepTo d P.taggedCtrBits x.2) ::
      (if counterIsWeak x.2 P.taggedCtrBits then (y.1, stepTo d P.taggedCtrBits y.2) else y) ::
        rest⟩

def allocatedCtr : ℤ := if d then 0 else -1

/-- The view after one more outcome. -/
inductive Next : View → Prop where
  | trained : Next (v.trained P d)
  | allocated (t : ℕ) (hwrong : v.final P ≠ d) (ht : t < P.tableInfo.length)
      (habove : ∀ x ∈ v.hits, x.1 < t) :
      Next ⟨(v.trained P d).base, (t, allocatedCtr d) :: (v.trained P d).hits⟩

end View

def feed (pc : UInt64) (d : Bool) (s : Tage) : Tage := (s.predict pc).2.train pc d

variable {P : TageParams} {s : Tage} {pc : UInt64} {d : Bool} {a b : ℕ} {rest : List ℕ}

theorem Shaped.feed (hs : Shaped P s) (hP : P.Sized) (pc : UInt64) (d : Bool) :
    Shaped P (Tage.feed pc d s) := (hs.predict hP pc).train hP pc d

theorem hits_pairwise (s : Tage) (pc : UInt64) : (s.hits pc).Pairwise (· > ·) :=
  hitTables_pairwise s _ _

theorem lookup_of_nil (h : s.hits pc = []) :
    (s.lookup pc).providerHit = false ∧ (s.lookup pc).alternateHit = false := by
  have hl := lookup_spec s pc
  refine ⟨?_, ?_⟩
  · cases hp : (s.lookup pc).providerHit with
    | false => rfl
    | true =>
      obtain ⟨b, hb, -⟩ := hl.provider hp
      simp [h] at hb
  · cases ha : (s.lookup pc).alternateHit with
    | false => rfl
    | true =>
      obtain ⟨b, hb, -⟩ := hl.alternate ha
      simp [h] at hb

theorem lookup_of_cons (h : s.hits pc = b :: rest) :
    (s.lookup pc).providerHit = true ∧ (s.lookup pc).providerBank = b ∧
      (s.lookup pc).providerIndex = castInt (s.tableIndex b pc) := by
  have hl := lookup_spec s pc
  have hsorted := hits_pairwise s pc
  rw [h, List.pairwise_cons] at hsorted
  have hp : (s.lookup pc).providerHit = true := by
    by_contra hp
    simpa [h] using hl.noProvider (by simpa using hp)
  obtain ⟨b', hb', hbank, hindex, -, hmax⟩ := hl.provider hp
  obtain rfl : b' = b := by
    have hle := hmax b (by simp [h])
    rw [h] at hb'
    obtain rfl | hmem := List.mem_cons.mp hb'
    · rfl
    · have := hsorted.1 b' hmem
      omega
  exact ⟨hp, hbank, hindex⟩

theorem lookup_of_singleton (h : s.hits pc = [b]) : (s.lookup pc).alternateHit = false := by
  cases ha : (s.lookup pc).alternateHit with
  | false => rfl
  | true =>
    obtain ⟨b', hb', a', ha', hlt, -⟩ := (lookup_spec s pc).alternate ha
    simp only [h, List.mem_singleton] at hb' ha'
    omega

theorem lookup_of_cons_cons (h : s.hits pc = b :: a :: rest) :
    (s.lookup pc).alternateHit = true ∧ (s.lookup pc).alternateBank = a ∧
      (s.lookup pc).alternateIndex = castInt (s.tableIndex a pc) := by
  have hl := lookup_spec s pc
  have hsorted := hits_pairwise s pc
  rw [h, List.pairwise_cons, List.pairwise_cons] at hsorted
  obtain ⟨habove, hbelow, -⟩ := hsorted
  have ha : (s.lookup pc).alternateHit = true := by
    by_contra ha
    have := hl.noAlternate (by simpa using ha)
    simp [h] at this
  obtain ⟨b', -, a', ha', hlt, -, hbank, hbank', hindex, -, hmax⟩ := hl.alternate ha
  obtain rfl : b' = b := by
    rw [(lookup_of_cons h).2.1] at hbank
    exact_mod_cast hbank.symm
  obtain rfl : a' = a := by
    have hle : a ≤ a' := by
      obtain he | hle := hmax a (by simp [h])
      · have := habove a (by simp)
        omega
      · exact hle
    rw [h] at ha'
    simp only [List.mem_cons] at ha'
    obtain rfl | rfl | hmem := ha'
    · omega
    · rfl
    · have := hbelow a' hmem
      omega
  exact ⟨ha, hbank', hindex⟩

theorem Shaped.sizeT_tableIndex (hs : Shaped P s) (hP : P.Sized) (pc : UInt64)
    (hb : b < P.tableInfo.length) : sizeT (castInt (s.tableIndex b pc)) = s.tableIndex b pc :=
  sizeT_castInt ((hs.tableIndex_lt hP hb pc).trans_le (tableSize_range hP hb).2)

theorem Shaped.lt_of_mem_hits (hs : Shaped P s) (h : b ∈ s.hits pc) : b < P.tableInfo.length := by
  rw [← hs.params]
  exact (mem_hits.mp h).1

theorem Shaped.index_of_mem_hits (hs : Shaped P s) (hP : P.Sized) (h : b ∈ s.hits pc) :
    b < P.tableInfo.length ∧ s.tableIndex b pc < tableSize P b :=
  ⟨hs.lt_of_mem_hits h, hs.tableIndex_lt hP (hs.lt_of_mem_hits h) pc⟩

theorem Shaped.providerEntry_eq (hs : Shaped P s) (hP : P.Sized) (h : s.hits pc = b :: rest) :
    s.providerEntry (s.lookup pc) = s.entryAt b (s.tableIndex b pc) := by
  obtain ⟨-, hbank, hindex⟩ := lookup_of_cons h
  have hmem : b ∈ s.hits pc := by simp [h]
  unfold providerEntry
  rw [hbank, hindex, sizeT_natCast, hs.sizeT_tableIndex hP pc (hs.lt_of_mem_hits hmem)]

theorem Shaped.alternateEntry_eq (hs : Shaped P s) (hP : P.Sized)
    (h : s.hits pc = b :: a :: rest) :
    s.alternateEntry (s.lookup pc) = s.entryAt a (s.tableIndex a pc) := by
  obtain ⟨-, hbank, hindex⟩ := lookup_of_cons_cons h
  have hmem : a ∈ s.hits pc := by simp [h]
  unfold alternateEntry
  rw [hbank, hindex, sizeT_natCast, hs.sizeT_tableIndex hP pc (hs.lt_of_mem_hits hmem)]

/-- The prediction depends on the view only. -/
theorem Shaped.predict_eq_final (hs : Shaped P s) (hP : P.Sized) (pc : UInt64) :
    (s.predict pc).1 = (s.view pc).final P := by
  have hd := lookup_decided s pc
  change (s.lookup pc).finalPrediction = _
  rw [hd.finalPrediction, hd.usedAlternate, hd.providerWeak, hd.providerPrediction,
    hd.alternatePrediction, hs.params]
  unfold View.final view
  match h : s.hits pc with
  | [] => simp [lookup_of_nil h]
  | [b] => simp [lookup_of_cons h, lookup_of_singleton h, hs.providerEntry_eq hP h]
  | b :: a :: rest =>
    simp [lookup_of_cons h, lookup_of_cons_cons h, hs.providerEntry_eq hP h,
      hs.alternateEntry_eq hP h]

theorem ctr_blind : UsefulBlind TaggedEntry.ctr := fun _ _ => rfl

theorem Shaped.trainTagged_ctr (hs : Shaped P s) (hP : P.Sized) {i : ℕ}
    (hb : b < P.tableInfo.length) (hi : i < tableSize P b) (d : Bool) (t j : ℕ) :
    ((s.trainTagged b (castInt i) d).entryAt t j).ctr =
      if b = t ∧ i = j then stepCtr P.taggedCtrBits d (s.entryAt t j).ctr
      else (s.entryAt t j).ctr := by
  have hin : s.EntryInBounds b i :=
    hs.entryInBounds hb hi
  unfold trainTagged
  rw [sizeT_natCast, sizeT_castInt (hi.trans_le (tableSize_range hP hb).2), hs.params]
  split_ifs with h
  · obtain ⟨rfl, rfl⟩ := h
    rw [entryAt_modifyEntry_self hin]
  · rw [entryAt_modifyEntry_ne h]

theorem lastLookup_predict (s : Tage) (pc : UInt64) :
    (s.predict pc).2.lastLookup = s.lookup pc := rfl

theorem trainCounters_of_nil (h : s.hits pc = []) (d : Bool) :
    (s.predict pc).2.trainCounters pc d = (s.predict pc).2.trainBase pc d := by
  simp only [trainCounters, lastLookup_predict, lookup_of_nil h, Bool.false_eq_true, if_false]

theorem trainCounters_of_singleton (h : s.hits pc = [b]) (d : Bool) :
    ∃ x y, (s.predict pc).2.trainCounters pc d =
      (((s.predict pc).2.trainTagged b (castInt (s.tableIndex b pc)) d).trainBase pc
        d).updateUsefulness x y := by
  obtain ⟨hp, hbank, hindex⟩ := lookup_of_cons h
  refine ⟨(s.lookup pc).providerPrediction == d, (s.lookup pc).alternatePrediction == d, ?_⟩
  simp only [trainCounters, lastLookup_predict, hp, hbank, hindex, lookup_of_singleton h,
    Bool.false_and, Bool.not_false, Bool.false_eq_true, if_true, if_false]

theorem Shaped.trainCounters_of_cons_cons (hs : Shaped P s) (hP : P.Sized)
    (h : s.hits pc = b :: a :: rest) (d : Bool) :
    ∃ x y, (s.predict pc).2.trainCounters pc d =
      (if counterIsWeak (s.entryAt b (s.tableIndex b pc)).ctr.toInt P.taggedCtrBits then
        ((s.predict pc).2.trainTagged b (castInt (s.tableIndex b pc)) d).trainTagged a
          (castInt (s.tableIndex a pc)) d
      else
        (s.predict pc).2.trainTagged b (castInt (s.tableIndex b pc)) d).updateUsefulness x y := by
  obtain ⟨hp, hbank, hindex⟩ := lookup_of_cons h
  obtain ⟨ha, hbank', hindex'⟩ := lookup_of_cons_cons h
  have hweak : (s.lookup pc).providerWeak =
      counterIsWeak (s.entryAt b (s.tableIndex b pc)).ctr.toInt P.taggedCtrBits := by
    rw [(lookup_decided s pc).providerWeak, if_pos hp, hs.providerEntry_eq hP h, hs.params]
  refine ⟨(s.lookup pc).providerPrediction == d, (s.lookup pc).alternatePrediction == d, ?_⟩
  simp only [Tage.trainCounters, lastLookup_predict, hp, hbank, hindex, ha, hbank', hindex', hweak,
    Bool.true_and, Bool.not_true, Bool.false_eq_true, if_true, if_false]

theorem Ranged.entryAt_ok (hi : Ranged P s) (t i : ℕ) : EntryOk P (s.entryAt t i) := by
  apply Vectors.getD_of_forall _ (EntryOk.zero P)
  exact Vectors.getD_of_forall (P := fun table => ∀ e ∈ table, EntryOk P e) hi.entryOk (by simp)

theorem Ranged.baseAt_mem (hi : Ranged P s) (idx : ℤ) :
    (s.baseAt idx).toInt ∈ Set.Icc (counterMin P.baseCtrBits) (counterMax P.baseCtrBits) :=
  Vectors.getD_of_forall (P := fun c : Int8 => c.toInt ∈ Set.Icc _ _) hi.baseRange
    (zero_mem_counter _)

theorem Ranged.stepCtr_entryAt (hi : Ranged P s) (hP : P.InRange) (d : Bool) (t i : ℕ) :
    (stepCtr P.taggedCtrBits d (s.entryAt t i).ctr).toInt =
      View.stepTo d P.taggedCtrBits (s.entryAt t i).ctr.toInt :=
  stepCtr_toInt hP.taggedCtrBits.2 d (hi.entryAt_ok t i).ctr

theorem baseAt_trainBase (hs : Shaped P s) (hi : Ranged P s) (hP : P.InRange) (pc : UInt64)
    (d : Bool) : ((s.trainBase pc d).baseAt (s.baseIndex pc)).toInt =
      View.stepTo d P.baseCtrBits (s.baseAt (s.baseIndex pc)).toInt := by
  unfold baseAt trainBase
  simp only
  rw [Vectors.getD_modify_self (hs.baseIndex_lt hP.toSized pc), hs.params]
  exact stepCtr_toInt hP.baseCtrBits.2 d (hi.baseAt_mem _)

/-- With two matching tables the provider's counter is trained and, if that is weak, the
alternate's. -/
theorem Shaped.trainCounters_ctr (hs : Shaped P s) (hP : P.Sized)
    (h : s.hits pc = b :: a :: rest) (d : Bool) (t i : ℕ) :
    (((s.predict pc).2.trainCounters pc d).entryAt t i).ctr =
      if b = t ∧ s.tableIndex b pc = i ∨ (a = t ∧ s.tableIndex a pc = i) ∧
        counterIsWeak (s.entryAt b (s.tableIndex b pc)).ctr.toInt P.taggedCtrBits = true then
        stepCtr P.taggedCtrBits d (s.entryAt t i).ctr
      else (s.entryAt t i).ctr := by
  have hp : Shaped P (s.predict pc).2 := hs.predict hP pc
  have hmem : b ∈ s.hits pc ∧ a ∈ s.hits pc := by simp [h]
  obtain ⟨hb, hib⟩ := hs.index_of_mem_hits hP hmem.1
  obtain ⟨ha, hia⟩ := hs.index_of_mem_hits hP hmem.2
  have hne : b ≠ a := by
    have hsorted := hits_pairwise s pc
    rw [h, List.pairwise_cons] at hsorted
    have := hsorted.1 a (by simp)
    omega
  have hprovider := hp.trainTagged_ctr hP hb hib d t i
  obtain ⟨x, y, htrain⟩ := hs.trainCounters_of_cons_cons hP h d
  rw [htrain, ctr_blind.updateUsefulness]
  cases hweak : counterIsWeak (s.entryAt b (s.tableIndex b pc)).ctr.toInt P.taggedCtrBits with
  | false =>
    simp only [Bool.false_eq_true, if_false, and_false, or_false]
    exact hprovider
  | true =>
    have hp' : Shaped P ((s.predict pc).2.trainTagged b (castInt (s.tableIndex b pc)) d) :=
      hp.modifyEntry _ _ _
    simp only [if_true, and_true]
    rw [hp'.trainTagged_ctr hP ha hia d t i, hprovider]
    by_cases hbt : b = t ∧ s.tableIndex b pc = i
    · have hat : ¬ (a = t ∧ s.tableIndex a pc = i) := fun hat => hne (hbt.1.trans hat.1.symm)
      rw [if_neg hat, if_pos hbt, if_pos (.inl hbt)]
      rfl
    · rw [if_neg hbt]
      simp only [hbt, false_or]
      rfl

theorem trainCounters_view_singleton (hs : Shaped P s) (hi : Ranged P s) (hP : P.InRange)
    (h : s.hits pc = [b]) (d : Bool) :
    let s' := (s.predict pc).2.trainCounters pc d
    (s'.baseAt (s.baseIndex pc)).toInt =
      View.stepTo d P.baseCtrBits (s.baseAt (s.baseIndex pc)).toInt ∧
    (s'.entryAt b (s.tableIndex b pc)).ctr.toInt =
      View.stepTo d P.taggedCtrBits (s.entryAt b (s.tableIndex b pc)).ctr.toInt := by
  intro s'
  have hp : Shaped P (s.predict pc).2 := hs.predict hP.toSized pc
  obtain ⟨x, y, htrain⟩ := trainCounters_of_singleton h d
  have hmem : b ∈ s.hits pc := by simp [h]
  obtain ⟨hb, hib⟩ := hs.index_of_mem_hits hP.toSized hmem
  have hctr := hp.trainTagged_ctr hP.toSized hb hib d b (s.tableIndex b pc)
  rw [if_pos ⟨rfl, rfl⟩] at hctr
  constructor
  · simp only [s', htrain]
    rw [baseAt, updateUsefulness_frame]
    exact baseAt_trainBase hs hi hP pc d
  · rw [← hi.stepCtr_entryAt hP]
    simp only [s', htrain]
    rw [ctr_blind.updateUsefulness, trainBase_entryAt, hctr]
    rfl

theorem trainCounters_view_cons_cons (hs : Shaped P s) (hi : Ranged P s) (hP : P.InRange)
    (h : s.hits pc = b :: a :: rest) (d : Bool) :
    let s' := (s.predict pc).2.trainCounters pc d
    s'.baseAt (s.baseIndex pc) = s.baseAt (s.baseIndex pc) ∧
    (s'.entryAt b (s.tableIndex b pc)).ctr.toInt =
      View.stepTo d P.taggedCtrBits (s.entryAt b (s.tableIndex b pc)).ctr.toInt ∧
    (s'.entryAt a (s.tableIndex a pc)).ctr.toInt =
      (if counterIsWeak (s.entryAt b (s.tableIndex b pc)).ctr.toInt P.taggedCtrBits = true then
        View.stepTo d P.taggedCtrBits (s.entryAt a (s.tableIndex a pc)).ctr.toInt
      else (s.entryAt a (s.tableIndex a pc)).ctr.toInt) ∧
    ∀ t ∈ rest, (s'.entryAt t (s.tableIndex t pc)).ctr = (s.entryAt t (s.tableIndex t pc)).ctr := by
  intro s'
  have hsorted := hits_pairwise s pc
  rw [h, List.pairwise_cons, List.pairwise_cons] at hsorted
  obtain ⟨hab, hbelow, -⟩ := hsorted
  have hctr := fun t => hs.trainCounters_ctr hP.toSized h d t (s.tableIndex t pc)
  have hat : ∀ x t, (x = t ∧ s.tableIndex x pc = s.tableIndex t pc) ↔ x = t :=
    fun x t => and_iff_left_of_imp fun hx => by rw [hx]
  simp only [hat] at hctr
  refine ⟨?_, ?_, ?_, fun t ht => ?_⟩
  · obtain ⟨x, y, htrain⟩ := hs.trainCounters_of_cons_cons hP.toSized h d
    simp only [s', htrain]
    rw [baseAt, updateUsefulness_frame]
    split_ifs <;> rfl
  · have hprovider := hctr b
    rw [if_pos (.inl rfl)] at hprovider
    rw [← hi.stepCtr_entryAt hP, ← hprovider]
  · have halternate := hctr a
    have hba : b ≠ a := by
      have := hab a (by simp)
      omega
    simp only [hba, true_and, false_or] at halternate
    simp only [s', halternate]
    split_ifs
    · rw [hi.stepCtr_entryAt hP]
    · rfl
  · rw [hctr t, if_neg]
    have hb := hab t (by simp [ht])
    have ha := hbelow t ht
    omega

/-- The counter updates of `train` train the view. -/
theorem trainCounters_view (hs : Shaped P s) (hi : Ranged P s) (hP : P.InRange) (pc : UInt64)
    (d : Bool) :
    let s' := (s.predict pc).2.trainCounters pc d
    (⟨(s'.baseAt (s.baseIndex pc)).toInt,
      (s.hits pc).map fun t => (t, (s'.entryAt t (s.tableIndex t pc)).ctr.toInt)⟩ : View) =
      (s.view pc).trained P d := by
  intro s'
  unfold view View.trained
  match h : s.hits pc with
  | [] =>
    simp only [s', trainCounters_of_nil h, List.map_nil]
    exact congrArg (View.mk · []) (baseAt_trainBase hs hi hP pc d)
  | [b] =>
    obtain ⟨hbase, hctr⟩ := trainCounters_view_singleton hs hi hP h d
    simp only [s', List.map_cons, List.map_nil, hctr, hbase]
  | b :: a :: rest =>
    obtain ⟨hbase, hprovider, halternate, hrest⟩ := trainCounters_view_cons_cons hs hi hP h d
    simp only [s', List.map_cons, hbase, View.mk.injEq, List.cons.injEq, true_and, Prod.mk.injEq]
    refine ⟨hprovider, ?_, List.map_congr_left fun t ht => by rw [hrest t ht]⟩
    rw [halternate]
    split_ifs <;> rfl

theorem tableIndex_congr {s' : Tage} (hparams : s'.params = s.params)
    (hhistory : s'.history = s.history) (t : ℕ) (pc : UInt64) :
    s'.tableIndex t pc = s.tableIndex t pc ∧ s'.tableTag t pc = s.tableTag t pc := by
  unfold tableIndex tableTag tableInfoAt foldHistory
  rw [hparams, hhistory]
  exact ⟨rfl, rfl⟩

theorem train_baseTable (s : Tage) (pc : UInt64) (taken : Bool) :
    (s.train pc taken).baseTable = ((s.refresh pc).trainCounters pc taken).baseTable := by
  obtain ⟨tables, h⟩ := train_frame s pc taken
  rw [h]

/-- A wrong prediction may allocate above every matching table, under the looked-up index
and tag. -/
theorem Shaped.allocation_spec (hs : Shaped P s) (hP : P.Sized) {x : Allocation}
    (h : (s.predict pc).2.allocation pc d = some x) :
    (s.predict pc).1 ≠ d ∧ x.table < P.tableInfo.length ∧ (∀ t ∈ s.hits pc, t < x.table) ∧
      x.index = s.tableIndex x.table pc ∧ x.tag = s.tableTag x.table pc := by
  have hl := lookup_spec s pc
  have hparams : ((s.predict pc).2.trainCounters pc d).params = P :=
    ((hs.predict hP pc).trainCounters pc d).params
  unfold allocation at h
  simp only [refresh_predict, trainCounters_lastLookup, lastLookup_predict] at h
  split_ifs at h with hwrong
  obtain ⟨t, ht, rfl⟩ := Option.map_eq_some_iff.mp h
  obtain ⟨hstart, hlt⟩ := mem_allocationRange (List.mem_of_find?_eq_some ht)
  rw [hparams] at hlt
  rw [trainCounters_lastLookup, lastLookup_predict] at hstart
  refine ⟨bne_iff_ne.mp hwrong, hlt, fun t' ht' => ?_, ?_, ?_⟩
  · match hh : s.hits pc with
    | [] => simp [hh] at ht'
    | b :: rest =>
      have hsorted := hits_pairwise s pc
      rw [hh] at ht' hsorted
      have hle : t' ≤ b := by
        obtain rfl | hmem := List.mem_cons.mp ht'
        · exact le_rfl
        · exact ((List.pairwise_cons.mp hsorted).1 t' hmem).le
      have hb : startTable (s.lookup pc) = b + 1 := by
        obtain ⟨hp, hbank, -⟩ := lookup_of_cons hh
        unfold startTable
        rw [if_pos hp, hbank]
        rfl
      change t' < t
      omega
  · rw [hl.indices, hs.params]
    simp [List.getD_eq_getElem?_getD, hlt]
  · rw [hl.tags, hs.params]
    simp [List.getD_eq_getElem?_getD, hlt]

/-- A state as it was before the history moved on. -/
def rewind (s s' : Tage) : Tage := { s' with history := s.history }

theorem rewind_of_history {s' : Tage} (h : s'.history = s.history) : s.rewind s' = s' := by
  unfold rewind
  rw [← h]

/-- Under the history of the lookup, the matching tables change by the allocation only. -/
theorem Shaped.hits_rewind (hs : Shaped P s) (hP : P.Sized) :
    (s.rewind (Tage.feed pc d s)).hits pc =
      match (s.predict pc).2.allocation pc d with
      | some x => x.table :: s.hits pc
      | none => s.hits pc := by
  have hp := hs.predict hP pc
  have hparams : (s.rewind (Tage.feed pc d s)).params = s.params :=
    (hs.feed hP pc d).params.trans hs.params.symm
  have hmem : ∀ t, t ∈ (s.rewind (Tage.feed pc d s)).hits pc ↔ t < P.tableInfo.length ∧
      ((Tage.feed pc d s).entryAt t (s.tableIndex t pc)).tag = s.tableTag t pc := by
    intro t
    obtain ⟨hindex, htag⟩ := tableIndex_congr hparams rfl t pc
    rw [mem_hits, hindex, htag, hparams, hs.params]
    rfl
  have hmem' : ∀ t, t ∈ s.hits pc ↔ t < P.tableInfo.length ∧
      (s.entryAt t (s.tableIndex t pc)).tag = s.tableTag t pc := fun t => by
    rw [mem_hits, hs.params]
  have htag := train_tag hp hP pc d
  cases halloc : (s.predict pc).2.allocation pc d with
  | none =>
    refine (hits_pairwise _ pc).eq_of_mem_iff (hits_pairwise s pc) fun t => ?_
    rw [hmem, hmem', Tage.feed, htag, halloc]
    rfl
  | some x =>
    obtain ⟨-, hlt, habove, hindex, htag'⟩ := hs.allocation_spec hP halloc
    refine (hits_pairwise _ pc).eq_of_mem_iff
      (List.pairwise_cons.mpr ⟨habove, hits_pairwise s pc⟩) fun t => ?_
    rw [hmem, List.mem_cons, Tage.feed, htag, halloc]
    by_cases ht : t = x.table
    · subst ht
      simp [hlt, hindex, htag']
    · have hne : ¬ (x.table = t ∧ x.index = s.tableIndex t pc) := fun h => ht h.1.symm
      rw [hmem']
      simp only [if_neg hne, ht, false_or]
      rfl

/-- While the history stands still, the matching tables change by the allocation only. -/
theorem Shaped.hits_feed (hs : Shaped P s) (hP : P.Sized)
    (hhistory : (Tage.feed pc d s).history = s.history) :
    (Tage.feed pc d s).hits pc =
      match (s.predict pc).2.allocation pc d with
      | some x => x.table :: s.hits pc
      | none => s.hits pc := by
  have h : (s.rewind (Tage.feed pc d s)).hits pc = _ := hs.hits_rewind hP
  rwa [rewind_of_history hhistory] at h

/-- While the history stands still, an outcome takes the view to a next one. -/
theorem Shaped.view_feed (hs : Shaped P s) (hi : Ranged P s) (hP : P.InRange)
    (hhistory : (Tage.feed pc d s).history = s.history) :
    (s.view pc).Next P d ((Tage.feed pc d s).view pc) := by
  have hp := hs.predict hP.toSized pc
  have hparams : (Tage.feed pc d s).params = s.params :=
    (hs.feed hP.toSized pc d).params.trans hs.params.symm
  have hview := trainCounters_view hs hi hP pc d
  have hhits := hs.hits_feed hP.toSized hhistory
  have hctr := ctr_blind.train hp hP.toSized pc d
  rw [refresh_predict] at hctr
  have hbase : ((Tage.feed pc d s).baseAt ((Tage.feed pc d s).baseIndex pc)) =
      ((s.predict pc).2.trainCounters pc d).baseAt (s.baseIndex pc) := by
    unfold baseAt baseIndex
    rw [hparams, Tage.feed, train_baseTable, refresh_predict]
  have hindex := fun t => (tableIndex_congr hparams hhistory t pc).1
  cases halloc : (s.predict pc).2.allocation pc d with
  | none =>
    have hfeed : (Tage.feed pc d s).view pc = (s.view pc).trained P d := by
      rw [← hview, view, hbase, hhits, halloc]
      simp only [hindex]
      refine congrArg (View.mk _) (List.map_congr_left fun t _ => ?_)
      rw [Tage.feed, hctr, halloc]
    rw [hfeed]
    exact .trained
  | some x =>
    obtain ⟨hwrong, hlt, habove, hidx, -⟩ := hs.allocation_spec hP.toSized halloc
    have hnew : ((Tage.feed pc d s).entryAt x.table (s.tableIndex x.table pc)).ctr.toInt =
        View.allocatedCtr d := by
      rw [Tage.feed, hctr, halloc]
      simp only [hidx, and_self, if_true]
      cases d <;> rfl
    have hfeed : (Tage.feed pc d s).view pc = ⟨((s.view pc).trained P d).base,
        (x.table, View.allocatedCtr d) :: ((s.view pc).trained P d).hits⟩ := by
      rw [← hview, view, hbase, hhits, halloc]
      simp only [hindex, List.map_cons, hnew]
      refine congrArg (fun rest => View.mk _ (_ :: rest)) (List.map_congr_left fun t ht => ?_)
      have hne : ¬ (x.table = t ∧ x.index = s.tableIndex t pc) := fun h => by
        have := habove t ht
        omega
      rw [Tage.feed, hctr, halloc]
      simp only [if_neg hne]
    rw [hfeed]
    refine .allocated x.table ?_ hlt fun y hy => ?_
    · rw [← hs.predict_eq_final hP.toSized]
      exact hwrong
    · obtain ⟨t, ht, rfl⟩ := List.mem_map.mp hy
      exact habove t ht

end PerceptronSoc.Tage
