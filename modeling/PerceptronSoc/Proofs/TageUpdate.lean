import PerceptronSoc.Proofs.TageView

/-! One update of a TAGE predictor, entry by entry: which counters move, which entry an
allocation replaces and what a failed allocation costs the entries that stood in its way.
The provider, the alternate and the allocated entry lie in different tables, so the three
writes of `train` never meet. -/

namespace PerceptronSoc

namespace LastLookup

def AtProvider (l : LastLookup) (t i : ℕ) : Prop :=
  l.providerHit = true ∧ l.providerBank = t ∧ l.providerIndex = i

def AtAlternate (l : LastLookup) (t i : ℕ) : Prop :=
  l.alternateHit = true ∧ l.alternateBank = t ∧ l.alternateIndex = i

/-- Table `t` is above the provider, or there is none. -/
def Above (l : LastLookup) (t : ℕ) : Prop := l.providerHit = true → l.providerBank < t

instance (l : LastLookup) (t i : ℕ) : Decidable (l.AtProvider t i) :=
  inferInstanceAs (Decidable (_ ∧ _ ∧ _))

instance (l : LastLookup) (t i : ℕ) : Decidable (l.AtAlternate t i) :=
  inferInstanceAs (Decidable (_ ∧ _ ∧ _))

end LastLookup

namespace Tage

/-- The tables above the provider whose looked-up entry is not useful. -/
def freeAbove (s : Tage) (pc : UInt64) : Set ℕ :=
  {t | t < s.params.tableInfo.length ∧ s.lastLookup.Above t ∧
    (s.entryAt t (s.tableIndex t pc)).useful = 0}

/-- Entry `i` of table `t` is the one that a wrong prediction replaces. -/
def Replaced (s : Tage) (pc : UInt64) (d : Bool) (t i : ℕ) : Prop :=
  s.lastLookup.finalPrediction ≠ d ∧ IsLeast (s.freeAbove pc) t ∧ i = s.tableIndex t pc

/-- `train` up to its call of `age_usefulness`. -/
def beforeAging (s : Tage) (pc : UInt64) (actualTaken : Bool) : Tage :=
  let s := s.refresh pc
  let s := s.trainCounters pc actualTaken
  let s := if s.lastLookup.finalPrediction != actualTaken then s.allocateEntries actualTaken else s
  let s := s.pushHistory actualTaken
  { s with branchUpdates := s.branchUpdates + 1 }

theorem train_eq (s : Tage) (pc : UInt64) (d : Bool) :
    s.train pc d = (s.beforeAging pc d).ageUsefulness := rfl

structure LooksUp (s : Tage) (pc : UInt64) : Prop where
  valid : s.lastLookup.valid = true
  index : ∀ t < s.params.tableInfo.length, s.lastLookup.indices.getD t 0 = s.tableIndex t pc
  tag : ∀ t < s.params.tableInfo.length, s.lastLookup.tags.getD t 0 = s.tableTag t pc
  bank : s.lastLookup.providerHit = true → ∃ b : ℕ, s.lastLookup.providerBank = b

variable {P : TageParams} {s s' : Tage} {pc : UInt64} {d : Bool} {t i : ℕ}

theorem predict_looksUp (s : Tage) (pc : UInt64) : (s.predict pc).2.LooksUp pc := by
  have hl := lookup_spec s pc
  refine ⟨hl.valid, fun t ht => ?_, fun t ht => ?_, fun hp => ?_⟩
  · change t < s.params.tableInfo.length at ht
    rw [lastLookup_predict, hl.indices]
    simp [List.getD_eq_getElem?_getD, ht]
    rfl
  · change t < s.params.tableInfo.length at ht
    rw [lastLookup_predict, hl.tags]
    simp [List.getD_eq_getElem?_getD, ht]
    rfl
  · obtain ⟨b, -, hbank, -⟩ := hl.provider hp
    exact ⟨b, hbank⟩

theorem LooksUp.congr (h : s.LooksUp pc) (hlast : s'.lastLookup = s.lastLookup)
    (hparams : s'.params = s.params) (hhistory : s'.history = s.history) : s'.LooksUp pc := by
  have hcongr := tableIndex_congr hparams hhistory
  refine ⟨?_, fun t ht => ?_, fun t ht => ?_, ?_⟩
  · rw [hlast]
    exact h.valid
  · rw [hlast, (hcongr t pc).1]
    exact h.index t (hparams ▸ ht)
  · rw [hlast, (hcongr t pc).2]
    exact h.tag t (hparams ▸ ht)
  · rw [hlast]
    exact h.bank

theorem LooksUp.above_iff (h : s.LooksUp pc) : s.lastLookup.Above t ↔ startTable s.lastLookup ≤ t := by
  unfold LastLookup.Above startTable
  split_ifs with hp
  · obtain ⟨b, hb⟩ := h.bank hp
    rw [hb]
    change _ ↔ b + 1 ≤ t
    simp only [hp, true_imp_iff, Nat.cast_lt]
    exact Nat.lt_iff_add_one_le
  · simp [hp]

theorem LooksUp.mem_freeAbove_iff (h : s.LooksUp pc) :
    t ∈ s.freeAbove pc ↔ t ∈ s.allocationRange ∧
      (s.entryAt t (s.lastLookup.indices.getD t 0)).useful = 0 := by
  unfold freeAbove allocationRange
  rw [Set.mem_ofPred_eq, h.above_iff, List.mem_range'_1]
  constructor
  · rintro ⟨ht, hstart, hu⟩
    exact ⟨⟨hstart, by omega⟩, by rw [h.index t ht]; exact hu⟩
  · rintro ⟨⟨hstart, ht⟩, hu⟩
    have ht' : t < s.params.tableInfo.length := by omega
    exact ⟨ht', hstart, by rw [← h.index t ht']; exact hu⟩

/-- The first loop of `allocate_entries` stops at the lowest free table. -/
theorem LooksUp.allocationTable_eq_some (h : s.LooksUp pc) :
    s.allocationTable = some t ↔ IsLeast (s.freeAbove pc) t := by
  have hmem : ∀ t, t ∈ s.freeAbove pc ↔ _ := fun t => h.mem_freeAbove_iff
  unfold allocationTable allocationRange at *
  rw [List.find?_range'_eq_some]
  constructor
  · rintro ⟨hu, hrange, hfirst⟩
    refine ⟨(hmem t).mpr ⟨hrange, by simpa using hu⟩, fun t' ht' => ?_⟩
    obtain ⟨hrange', hu'⟩ := (hmem t').mp ht'
    by_contra hlt
    have hnot := hfirst t' (List.mem_range'_1.mp hrange').1 (not_le.mp hlt)
    rw [hu'] at hnot
    exact absurd hnot (by decide)
  · rintro ⟨ht, hleast⟩
    obtain ⟨hrange, hu⟩ := (hmem t).mp ht
    refine ⟨by simpa using hu, hrange, fun t' hstart hlt => ?_⟩
    rw [Bool.not_eq_true', beq_eq_false_iff_ne]
    intro hu'
    have hrange' := List.mem_range'_1.mp hrange
    exact absurd (hleast ((hmem t').mpr ⟨List.mem_range'_1.mpr ⟨hstart, by omega⟩, hu'⟩))
      (not_le.mpr hlt)

theorem LooksUp.allocationTable_eq_none (h : s.LooksUp pc) :
    s.allocationTable = none ↔ s.freeAbove pc = ∅ := by
  unfold allocationTable
  rw [List.find?_eq_none, Set.eq_empty_iff_forall_notMem]
  simp only [h.mem_freeAbove_iff, beq_iff_eq, not_and]

theorem updateUsefulness_entryAt_ne
    (h : s.lastLookup.providerHit = true → sizeT s.lastLookup.providerBank ≠ t) (x y : Bool)
    (i : ℕ) : (s.updateUsefulness x y).entryAt t i = s.entryAt t i := by
  unfold updateUsefulness
  simp only
  split_ifs with hp
  · rfl
  · rfl
  · exact entryAt_modifyEntry_ne fun hat => h (by simpa using hp) hat.1
  · exact entryAt_modifyEntry_ne fun hat => h (by simpa using hp) hat.1

theorem trainCounters_entryAt_ne
    (hp : s.lastLookup.providerHit = true → sizeT s.lastLookup.providerBank ≠ t)
    (ha : s.lastLookup.alternateHit = true → sizeT s.lastLookup.alternateBank ≠ t)
    (pc : UInt64) (d : Bool) (i : ℕ) : (s.trainCounters pc d).entryAt t i = s.entryAt t i := by
  have htagged : ∀ (s : Tage) (bank index : ℤ), sizeT bank ≠ t →
      (s.trainTagged bank index d).entryAt t i = s.entryAt t i :=
    fun s bank index hne => entryAt_modifyEntry_ne fun hat => hne hat.1
  have huseful : ∀ (s' : Tage) (x y : Bool), s'.lastLookup = s.lastLookup →
      (s'.updateUsefulness x y).entryAt t i = s'.entryAt t i :=
    fun s' x y hl => updateUsefulness_entryAt_ne (by rw [hl]; exact hp) x y i
  unfold trainCounters
  simp only
  split_ifs with hhit halt
  · rw [Bool.and_eq_true] at halt
    rw [huseful, htagged _ _ _ (ha halt.1), htagged _ _ _ (hp hhit)]
    rfl
  · rw [huseful, trainBase_entryAt, htagged _ _ _ (hp hhit)]
    rfl
  · rw [huseful, htagged _ _ _ (hp hhit)]
    rfl
  · rfl

/-- The counter updates stay at the provider and below. -/
theorem trainCounters_entryAt_above (s : Tage) (pc : UInt64) (d : Bool)
    (h : (s.lookup pc).Above t) (i : ℕ) :
    ((s.predict pc).2.trainCounters pc d).entryAt t i = s.entryAt t i := by
  have hl := lookup_spec s pc
  refine trainCounters_entryAt_ne (s := (s.predict pc).2) (fun hp => ?_) (fun ha => ?_) pc d i
  · obtain ⟨b, -, hbank, -⟩ := hl.provider hp
    have hlt := h hp
    rw [hbank, Nat.cast_lt] at hlt
    rw [lastLookup_predict, hbank, sizeT_natCast]
    exact hlt.ne
  · obtain ⟨b, -, a, -, hab, hp, hbank, hbank', -⟩ := hl.alternate ha
    have hlt := h hp
    rw [hbank, Nat.cast_lt] at hlt
    rw [lastLookup_predict, hbank', sizeT_natCast]
    exact (hab.trans hlt).ne

theorem freeAbove_trainCounters (s : Tage) (pc : UInt64) (d : Bool) :
    ((s.predict pc).2.trainCounters pc d).freeAbove pc = (s.predict pc).2.freeAbove pc := by
  have hframe := trainCounters_frame (s.predict pc).2 pc d
  have hparams : ((s.predict pc).2.trainCounters pc d).params = (s.predict pc).2.params := by
    rw [hframe]
  have hhistory : ((s.predict pc).2.trainCounters pc d).history = (s.predict pc).2.history := by
    rw [hframe]
  ext t
  unfold freeAbove
  rw [Set.mem_ofPred_eq, Set.mem_ofPred_eq, hparams, trainCounters_lastLookup,
    (tableIndex_congr hparams hhistory t pc).1]
  refine and_congr_right fun _ => and_congr_right fun habove => ?_
  rw [trainCounters_entryAt_above s pc d habove]
  rfl

theorem trainCounters_looksUp (s : Tage) (pc : UInt64) (d : Bool) :
    ((s.predict pc).2.trainCounters pc d).LooksUp pc :=
  (predict_looksUp s pc).congr (trainCounters_lastLookup _ pc d)
    (by rw [trainCounters_frame]) (by rw [trainCounters_frame])

/-- What `train` allocates after a `predict`. -/
theorem allocation_predict (s : Tage) (pc : UInt64) (d : Bool) :
    (s.predict pc).2.allocation pc d =
      if (s.lookup pc).finalPrediction ≠ d then
        ((s.predict pc).2.trainCounters pc d).allocationTable.map fun t =>
          ⟨t, (s.lookup pc).indices.getD t 0, (s.lookup pc).tags.getD t 0⟩
      else none := by
  unfold allocation
  simp only [refresh_predict, trainCounters_lastLookup, lastLookup_predict, bne_iff_ne]

theorem allocation_eq_some (s : Tage) (pc : UInt64) (d : Bool) (x : Allocation) :
    (s.predict pc).2.allocation pc d = some x ↔
      (s.predict pc).2.Replaced pc d x.table x.index ∧ x.tag = s.tableTag x.table pc := by
  have hl := predict_looksUp s pc
  have htable := fun t => (trainCounters_looksUp s pc d).allocationTable_eq_some (t := t)
  rw [freeAbove_trainCounters] at htable
  rw [allocation_predict]
  unfold Replaced
  rw [lastLookup_predict]
  split_ifs with hwrong
  · rw [Option.map_eq_some_iff]
    constructor
    · rintro ⟨t, ht, rfl⟩
      have hleast := (htable t).mp ht
      exact ⟨⟨hwrong, hleast, hl.index t hleast.1.1⟩, hl.tag t hleast.1.1⟩
    · rintro ⟨⟨-, hleast, hindex⟩, htag⟩
      refine ⟨x.table, (htable x.table).mpr hleast, ?_⟩
      exact congrArg₂ (Allocation.mk x.table) ((hl.index _ hleast.1.1).trans hindex.symm)
        ((hl.tag _ hleast.1.1).trans htag.symm)
  · simp [hwrong]

theorem Shaped.rewind (hs : Shaped P s) (hs' : Shaped P s') : Shaped P (s.rewind s') where
  params := hs'.params
  maxHistLen := hs'.maxHistLen
  baseLength := hs'.baseLength
  shape := hs'.shape
  historyLength := by
    change s.history.length = s'.maxHistLen
    rw [hs.historyLength, hs.maxHistLen, hs'.maxHistLen]
  lookup := hs'.lookup

theorem counterPredictsTaken_allocated (d : Bool) :
    counterPredictsTaken (if d then 0 else -1 : Int8).toInt = d := by
  cases d <;> rfl

/-- For every state a run reaches: a wrong prediction that finds an entry to allocate makes
the lowest such table the provider of the same lookup, for the right outcome, and the old
provider its alternate. -/
theorem allocation_takes_effect (P : TageParams) (hP : P.Sized) (calls : List PredictorCall) (pc : UInt64)
    (d : Bool) :
    let s := (new P).run calls
    let s₁ := (s.predict pc).2
    (s.predict pc).1 ≠ d → (s₁.freeAbove pc).Nonempty →
    ∃ t, IsLeast (s₁.freeAbove pc) t ∧
      let l := (({ s₁.train pc d with history := s.history } : Tage).predict pc).2.lastLookup
      l.AtProvider t (s.tableIndex t pc) ∧ l.providerPrediction = d ∧
      (s₁.lastLookup.providerHit = true → l.alternateHit = true ∧
        l.alternateBank = s₁.lastLookup.providerBank ∧
        l.alternateIndex = s₁.lastLookup.providerIndex) ∧
      (s₁.lastLookup.providerHit = false → l.alternateHit = false) := by
  intro s s₁ hwrong hfree
  have hs : Shaped P s := (new_shaped P).run hP calls
  obtain ⟨t, hleast⟩ : ∃ t, IsLeast (s₁.freeAbove pc) t :=
    ⟨_, Nat.sInf_mem hfree, fun _ h => Nat.sInf_le h⟩
  have halloc := (allocation_eq_some s pc d ⟨t, s.tableIndex t pc, s.tableTag t pc⟩).mpr
    ⟨⟨hwrong, hleast, rfl⟩, rfl⟩
  have hs' : Shaped P (s.rewind (Tage.feed pc d s)) := hs.rewind (hs.feed hP pc d)
  have hindex : ∀ b, (s.rewind (Tage.feed pc d s)).tableIndex b pc = s.tableIndex b pc :=
    fun b => (tableIndex_congr (hs'.params.trans hs.params.symm) rfl b pc).1
  have hhits : (s.rewind (Tage.feed pc d s)).hits pc = _ := hs.hits_rewind hP
  rw [halloc] at hhits
  simp only at hhits
  refine ⟨t, hleast, ?_⟩
  intro l
  have hl : l = (s.rewind (Tage.feed pc d s)).lookup pc := rfl
  obtain ⟨hp, hbank, hpindex⟩ := lookup_of_cons hhits
  rw [← hl] at hp hbank hpindex
  have hcast : castInt (s.tableIndex t pc) = s.tableIndex t pc :=
    castInt_of_lt ((hs.tableIndex_lt hP (hs.params ▸ hleast.1.1) pc).trans_le
      (tableSize_range hP (hs.params ▸ hleast.1.1)).2)
  refine ⟨⟨hp, hbank, by rw [hpindex, hindex, hcast]⟩, ?_, fun hold => ?_, fun hold => ?_⟩
  · have hctr := ctr_blind.train (hs.predict hP pc) hP pc d t (s.tableIndex t pc)
    rw [halloc] at hctr
    simp only [and_self, if_true] at hctr
    rw [hl, (lookup_decided _ pc).providerPrediction, ← hl, if_pos hp, hl,
      hs'.providerEntry_eq hP hhits, hindex]
    change counterPredictsTaken ((s₁.train pc d).entryAt t (s.tableIndex t pc)).ctr.toInt = d
    rw [hctr]
    exact counterPredictsTaken_allocated d
  · match hh : s.hits pc with
    | [] =>
      rw [lastLookup_predict, (lookup_of_nil hh).1] at hold
      cases hold
    | b :: rest =>
      rw [hh] at hhits
      obtain ⟨ha, hbank', haindex⟩ := lookup_of_cons_cons hhits
      obtain ⟨-, holdBank, holdIndex⟩ := lookup_of_cons hh
      refine ⟨ha, hbank'.trans holdBank.symm, ?_⟩
      rw [lastLookup_predict, holdIndex, hl, haindex, hindex]
  · rw [(lookup_spec s pc).noProvider hold] at hhits
    exact lookup_of_singleton hhits

theorem allocation_takes_effect_default :
    (((default.predict 0x80000000).2.freeAbove 0x80000000).Nonempty ∧
      (default.predict 0x80000000).1 ≠ false) ∧
    ∃ t, IsLeast ((default.predict 0x80000000).2.freeAbove 0x80000000) t ∧
      (({ (default.predict 0x80000000).2.train 0x80000000 false with
        history := default.history } : Tage).predict 0x80000000).2.lastLookup.providerBank = t := by
  have hfree : ((default.predict 0x80000000).2.freeAbove 0x80000000).Nonempty := by
    refine ⟨0, ?_⟩
    unfold freeAbove LastLookup.Above
    rw [Set.mem_ofPred_eq]
    decide +kernel
  have hwrong : (default.predict 0x80000000).1 ≠ false := by decide +kernel
  obtain ⟨t, hleast, hat, -⟩ := allocation_takes_effect TageParams.boomLikeDefault
    boomLikeDefault_inRange.toSized [] 0x80000000 false hwrong hfree
  exact ⟨⟨hfree, hwrong⟩, t, hleast, hat.2.1⟩

section Hits

variable {a b : ℕ} {rest : List ℕ} (hs : Shaped P s) (hP : P.Sized)

include hs hP

theorem Shaped.castInt_tableIndex (hb : b ∈ s.hits pc) :
    castInt (s.tableIndex b pc) = s.tableIndex b pc :=
  castInt_of_lt ((hs.index_of_mem_hits hP hb).2.trans_le
    (tableSize_range hP (hs.lt_of_mem_hits hb)).2)

theorem Shaped.atProvider_iff (h : s.hits pc = b :: rest) :
    (s.lookup pc).AtProvider t i ↔ b = t ∧ s.tableIndex b pc = i := by
  obtain ⟨hhit, hbank, hindex⟩ := lookup_of_cons h
  unfold LastLookup.AtProvider
  rw [hhit, hbank, hindex, hs.castInt_tableIndex hP (by simp [h]), Nat.cast_inj, Nat.cast_inj]
  simp

theorem Shaped.atAlternate_iff (h : s.hits pc = b :: a :: rest) :
    (s.lookup pc).AtAlternate t i ↔ a = t ∧ s.tableIndex a pc = i := by
  obtain ⟨hhit, hbank, hindex⟩ := lookup_of_cons_cons h
  unfold LastLookup.AtAlternate
  rw [hhit, hbank, hindex, hs.castInt_tableIndex hP (by simp [h]), Nat.cast_inj, Nat.cast_inj]
  simp

end Hits

/-- The provider's counter is trained, and the alternate's where the provider is weak. -/
theorem Shaped.trainCounters_ctr_at (hs : Shaped P s) (hP : P.Sized) (pc : UInt64) (d : Bool)
    (t i : ℕ) :
    (((s.predict pc).2.trainCounters pc d).entryAt t i).ctr =
      if (s.lookup pc).AtProvider t i ∨
        (s.lookup pc).AtAlternate t i ∧ (s.lookup pc).providerWeak = true then
        stepCtr P.taggedCtrBits d (s.entryAt t i).ctr
      else (s.entryAt t i).ctr := by
  have hp : Shaped P (s.predict pc).2 := hs.predict hP pc
  match h : s.hits pc with
  | [] =>
    have hprovider : ¬ (s.lookup pc).AtProvider t i := fun ⟨hhit, _⟩ => by
      simp [lookup_of_nil h] at hhit
    have halternate : ¬ (s.lookup pc).AtAlternate t i := fun ⟨hhit, _⟩ => by
      simp [lookup_of_nil h] at hhit
    rw [trainCounters_of_nil h, if_neg (by simp [hprovider, halternate])]
    rfl
  | [b] =>
    have hmem : b ∈ s.hits pc := by simp [h]
    have halternate : ¬ (s.lookup pc).AtAlternate t i := fun ⟨hhit, _⟩ => by
      simp [lookup_of_singleton h] at hhit
    obtain ⟨hb, hib⟩ := hs.index_of_mem_hits hP hmem
    obtain ⟨x, y, htrain⟩ := trainCounters_of_singleton h d
    rw [htrain, ctr_blind.updateUsefulness, trainBase_entryAt, hp.trainTagged_ctr hP hb hib]
    simp only [hs.atProvider_iff hP h, halternate, false_and, or_false]
    rfl
  | b :: a :: rest =>
    have hweak := (lookup_decided s pc).providerWeak
    rw [if_pos (lookup_of_cons h).1, hs.providerEntry_eq hP h, hs.params] at hweak
    rw [hs.trainCounters_ctr hP h]
    simp only [hs.atProvider_iff hP h, hs.atAlternate_iff hP h, hweak]

/-- The base counter is trained where no alternate stands in for it. -/
theorem Shaped.trainCounters_baseTable (hs : Shaped P s) (hP : P.Sized) (pc : UInt64) (d : Bool) :
    ((s.predict pc).2.trainCounters pc d).baseTable =
      if (s.lookup pc).alternateHit = false then
        s.baseTable.modify (sizeT (s.baseIndex pc)) (stepCtr P.baseCtrBits d)
      else s.baseTable := by
  match h : s.hits pc with
  | [] =>
    rw [trainCounters_of_nil h, if_pos (lookup_of_nil h).2, ← hs.params]
    rfl
  | [b] =>
    obtain ⟨x, y, htrain⟩ := trainCounters_of_singleton h d
    rw [htrain, updateUsefulness_frame, if_pos (lookup_of_singleton h), ← hs.params]
    rfl
  | b :: a :: rest =>
    have halternate : ¬ (s.lookup pc).alternateHit = false := by simp [lookup_of_cons_cons h]
    obtain ⟨x, y, htrain⟩ := hs.trainCounters_of_cons_cons hP h d
    rw [if_neg halternate, htrain, updateUsefulness_frame]
    simp only
    split_ifs <;> rfl

theorem Shaped.foldl_modifyEntry (hs : Shaped P s) {index : ℕ → ℕ} {ts : List ℕ}
    (f : TaggedEntry → TaggedEntry) (hnodup : ts.Nodup)
    (hts : ∀ t ∈ ts, t < P.tableInfo.length ∧ index t < tableSize P t) (t i : ℕ) :
    (ts.foldl (fun s t => s.modifyEntry t (index t) f) s).entryAt t i =
      if t ∈ ts ∧ index t = i then f (s.entryAt t i) else s.entryAt t i := by
  induction ts generalizing s with
  | nil => simp
  | cons b ts ih =>
    obtain ⟨hb, hnodup⟩ := List.nodup_cons.mp hnodup
    rw [List.foldl_cons, ih (hs.modifyEntry _ _ _) hnodup fun t ht => hts t (by simp [ht])]
    by_cases hbt : b = t ∧ index b = i
    · obtain ⟨rfl, rfl⟩ := hbt
      obtain ⟨hlt, hindex⟩ := hts b (by simp)
      rw [if_neg (by simp [hb]), if_pos (by simp),
        entryAt_modifyEntry_self (hs.entryInBounds hlt hindex)]
    · rw [entryAt_modifyEntry_ne hbt]
      have hiff : t ∈ b :: ts ∧ index t = i ↔ t ∈ ts ∧ index t = i := by
        rw [List.mem_cons]
        refine ⟨fun ⟨ht, hi⟩ => ⟨ht.resolve_left ?_, hi⟩, fun ⟨ht, hi⟩ => ⟨.inr ht, hi⟩⟩
        rintro rfl
        exact hbt ⟨rfl, hi⟩
      simp only [hiff]

theorem decUseful_useful {e : TaggedEntry} (h : e.useful ≠ 0) :
    (decUseful e).useful.toNat + 1 = e.useful.toNat := by
  have hpos : 0 < e.useful.toNat :=
    Nat.pos_of_ne_zero fun h0 => h (UInt8.toNat_inj.mp h0)
  have hlt : 0 < e.useful := UInt8.lt_iff_toNat_lt.mpr hpos
  unfold decUseful
  rw [if_pos hlt]
  change (e.useful - 1).toNat + 1 = e.useful.toNat
  rw [UInt8.toNat_sub_of_le _ _ (by rw [UInt8.le_iff_toNat_le]; exact hpos)]
  exact Nat.sub_add_cancel hpos

/-- A failed allocation takes one unit of `useful` from every looked-up entry above the
provider. -/
theorem LooksUp.useful_of_failed (h : s.LooksUp pc) (hs : Shaped P s)
    (hnone : s.allocationTable = none) (d : Bool) (ht : t < P.tableInfo.length)
    (habove : s.lastLookup.Above t) :
    ((s.allocateEntries d).entryAt t (s.tableIndex t pc)).useful.toNat + 1 =
      (s.entryAt t (s.tableIndex t pc)).useful.toNat := by
  have ht' : t < s.params.tableInfo.length := by rw [hs.params]; exact ht
  have hrange : t ∈ s.allocationRange :=
    List.mem_range'_1.mpr ⟨h.above_iff.mp habove, by omega⟩
  have hbounds : ∀ t ∈ s.allocationRange, t < P.tableInfo.length ∧
      s.lastLookup.indices.getD t 0 < tableSize P t := by
    intro t hmem
    have hlt := (mem_allocationRange hmem).2
    rw [hs.params] at hlt
    exact ⟨hlt, (hs.lookup h.valid).index t hlt⟩
  have hne : (s.entryAt t (s.tableIndex t pc)).useful ≠ 0 := by
    intro hu
    have hempty := h.allocationTable_eq_none.mp hnone
    exact Set.notMem_empty t (hempty ▸ ⟨ht', habove, hu⟩)
  have hnodup : s.allocationRange.Nodup := List.nodup_range'
  unfold allocateEntries
  rw [hnone]
  simp only
  rw [hs.foldl_modifyEntry decUseful hnodup hbounds, if_pos ⟨hrange, h.index t ht'⟩]
  exact decUseful_useful hne

theorem LooksUp.allocateEntries (h : s.LooksUp pc) (d : Bool) :
    (s.allocateEntries d).LooksUp pc :=
  h.congr (by rw [allocateEntries_frame]) (by rw [allocateEntries_frame])
    (by rw [allocateEntries_frame])

/-- Every failure brings the looked-up entry of a table above the provider closer to being
free, so an allocation that is tried again succeeds. -/
theorem LooksUp.allocation_succeeds (h : s.LooksUp pc) (hs : Shaped P s) (d : Bool)
    (ht : t < P.tableInfo.length) (habove : s.lastLookup.Above t) {m : ℕ}
    (hm : (s.entryAt t (s.tableIndex t pc)).useful.toNat ≤ m) :
    ∃ k ≤ m, (∀ j < k, ((Tage.allocateEntries · d)^[j] s).allocationTable = none) ∧
      ((Tage.allocateEntries · d)^[k] s).allocationTable.isSome = true := by
  induction m generalizing s with
  | zero =>
    refine ⟨0, le_rfl, fun j hj => absurd hj (Nat.not_lt_zero j), ?_⟩
    cases hnone : s.allocationTable with
    | some b => simp [hnone]
    | none =>
      have := h.useful_of_failed hs hnone d ht habove
      omega
  | succ m ih =>
    cases hnone : s.allocationTable with
    | some b => exact ⟨0, Nat.zero_le _, fun j hj => absurd hj (Nat.not_lt_zero j), by simp [hnone]⟩
    | none =>
      have hframe := allocateEntries_frame s d
      have hindex : (s.allocateEntries d).tableIndex t pc = s.tableIndex t pc :=
        (tableIndex_congr (by rw [hframe]) (by rw [hframe]) t pc).1
      have hlast : (s.allocateEntries d).lastLookup = s.lastLookup := by rw [hframe]
      have hless := h.useful_of_failed hs hnone d ht habove
      obtain ⟨k, hk, hfail, hsome⟩ := ih (h.allocateEntries d) (hs.allocateEntries d)
        (hlast ▸ habove) (by rw [hindex]; omega)
      refine ⟨k + 1, by omega, fun j hj => ?_, ?_⟩
      · cases j with
        | zero => exact hnone
        | succ j =>
          rw [Function.iterate_succ_apply]
          exact hfail j (by omega)
      · rw [Function.iterate_succ_apply]
        exact hsome

/-- An entry that is not useful is not aged. -/
theorem ageUsefulness_entryAt (h : (s.entryAt t i).useful = 0) :
    s.ageUsefulness.entryAt t i = s.entryAt t i := by
  unfold ageUsefulness
  split_ifs
  · rfl
  · rfl
  · simp only [entryAt, List.getD_eq_getElem?_getD, List.getElem?_map] at h ⊢
    cases htable : s.taggedTables[t]? with
    | none => rfl
    | some table =>
      rw [htable] at h
      simp only [Option.map_some, Option.getD_some, List.getElem?_map] at h ⊢
      cases hentry : table[i]? with
      | none => rfl
      | some e =>
        rw [hentry] at h
        simp only [Option.map_some, Option.getD_some] at h ⊢
        rw [h]
        exact congrArg (TaggedEntry.mk e.tag e.ctr) h.symm

theorem beforeAging_entryAt (s : Tage) (pc : UInt64) (d : Bool) (t i : ℕ) :
    ((s.predict pc).2.beforeAging pc d).entryAt t i =
      (if (s.lookup pc).finalPrediction ≠ d then
        ((s.predict pc).2.trainCounters pc d).allocateEntries d
      else (s.predict pc).2.trainCounters pc d).entryAt t i := by
  have hbump : ∀ (s' : Tage) (n : UInt64),
      ({ s' with branchUpdates := n } : Tage).entryAt t i = s'.entryAt t i := fun _ _ => rfl
  unfold beforeAging
  simp only [refresh_predict, trainCounters_lastLookup, lastLookup_predict, bne_iff_ne]
  rw [hbump, pushHistory_entryAt]

/-- The replaced entry has the looked-up tag, a counter on the side of the outcome, and is
not useful. -/
theorem Shaped.train_of_replaced (hs : Shaped P s) (hP : P.Sized)
    (h : (s.predict pc).2.Replaced pc d t i) :
    ((s.predict pc).2.train pc d).entryAt t i =
      ⟨s.tableTag t pc, if d then 0 else -1, 0⟩ := by
  have hc := (hs.predict hP pc).trainCounters pc d
  have hl := trainCounters_looksUp s pc d
  obtain ⟨hwrong, hleast, rfl⟩ := h
  rw [lastLookup_predict] at hwrong
  have hsome : ((s.predict pc).2.trainCounters pc d).allocationTable = some t := by
    rw [hl.allocationTable_eq_some, freeAbove_trainCounters]
    exact hleast
  have ht : t < s.params.tableInfo.length := hleast.1.1
  have ht' : t < P.tableInfo.length := by rw [← hs.params]; exact ht
  have hindex := (predict_looksUp s pc).index t ht
  have hbefore : ((s.predict pc).2.beforeAging pc d).entryAt t (s.tableIndex t pc) =
      ⟨s.tableTag t pc, if d then 0 else -1, 0⟩ := by
    rw [beforeAging_entryAt, if_pos hwrong]
    unfold Tage.allocateEntries
    rw [hsome]
    simp only [trainCounters_lastLookup]
    rw [hindex, (predict_looksUp s pc).tag t ht]
    exact entryAt_modifyEntry_self (hc.entryInBounds ht' (hs.tableIndex_lt hP ht' pc))
  rw [train_eq]
  exact (ageUsefulness_entryAt (congrArg TaggedEntry.useful hbefore)).trans hbefore

/-- What an entry that is not replaced keeps of the counter updates. -/
theorem UsefulBlind.train_of_not_replaced {α : Type} {g : TaggedEntry → α} (hg : UsefulBlind g)
    (hs : Shaped P s) (hP : P.Sized) (h : ¬ (s.predict pc).2.Replaced pc d t i) :
    g (((s.predict pc).2.train pc d).entryAt t i) =
      g (((s.predict pc).2.trainCounters pc d).entryAt t i) := by
  rw [hg.train (hs.predict hP pc) hP, refresh_predict]
  cases hx : (s.predict pc).2.allocation pc d with
  | none => rfl
  | some x =>
    have hreplaced := ((allocation_eq_some s pc d x).mp hx).1
    have hne : ¬ (x.table = t ∧ x.index = i) := by
      rintro ⟨rfl, rfl⟩
      exact h hreplaced
    simp only [if_neg hne]

theorem Shaped.train_base (hs : Shaped P s) (hi : Ranged P s) (hP : P.InRange) (pc : UInt64)
    (d : Bool) (i : ℕ) :
    (((s.predict pc).2.train pc d).baseAt i).toInt =
      if (s.lookup pc).alternateHit = false ∧ s.baseIndex pc = i then
        View.stepTo d P.baseCtrBits (s.baseAt i).toInt
      else (s.baseAt i).toInt := by
  have hlt := hs.baseIndex_lt hP.toSized pc
  have hcast : (sizeT (s.baseIndex pc) : ℤ) = s.baseIndex pc := by
    obtain ⟨h1, h2⟩ := hP.baseEntries
    have hmask := maskIndex_lt (pc >>> 2) h1 (by omega)
    rw [baseIndex, hs.params, castInt_of_lt (by omega), sizeT_natCast]
  rw [baseAt, train_baseTable, refresh_predict, hs.trainCounters_baseTable hP.toSized,
    sizeT_natCast]
  by_cases ha : (s.lookup pc).alternateHit = false
  · rw [if_pos ha]
    by_cases hidx : s.baseIndex pc = i
    · have hsize : sizeT (s.baseIndex pc) = i := by rw [hidx, sizeT_natCast]
      rw [if_pos ⟨ha, hidx⟩, ← hsize, Vectors.getD_modify_self hlt, hcast]
      exact stepCtr_toInt hP.baseCtrBits.2 d (hi.baseAt_mem _)
    · rw [if_neg fun h => hidx h.2, Vectors.getD_modify_ne fun he => hidx (hcast ▸ by rw [he])]
      rfl
  · rw [if_neg ha, if_neg fun h => ha h.1]
    rfl

/-- In every state after a `predict` that a run reaches, `train` changes no tag and no
counter but: the counter of the provider, that of the alternate behind a weak provider, the
base counter where there is no alternate, each by one saturating step towards the outcome,
and the entry it replaces. After a wrong prediction that is one entry, in the lowest table
above the provider that has one to spare, or none, and then every looked-up entry above the
provider is a unit less useful; as many failures in a row as `useful` has units above zero
are the most there can be. -/
theorem update_frame (P : TageParams) (hP : P.InRange) (calls : List PredictorCall) (pc : UInt64)
    (d : Bool) :
    let s := (((new P).run calls).predict pc).2
    let l := s.lastLookup
    let s' := s.train pc d
    (∀ t i, ¬ s.Replaced pc d t i →
      (s'.entryAt t i).tag = (s.entryAt t i).tag ∧
      (s'.entryAt t i).ctr.toInt =
        if l.AtProvider t i ∨ l.AtAlternate t i ∧ l.providerWeak = true then
          View.stepTo d P.taggedCtrBits (s.entryAt t i).ctr.toInt
        else (s.entryAt t i).ctr.toInt) ∧
    (∀ i : ℕ, (s'.baseAt i).toInt =
      if l.alternateHit = false ∧ s.baseIndex pc = i then
        View.stepTo d P.baseCtrBits (s.baseAt i).toInt
      else (s.baseAt i).toInt) ∧
    (∀ t i, s.Replaced pc d t i →
      s'.entryAt t i = ⟨s.tableTag t pc, if d then 0 else -1, 0⟩) ∧
    (l.finalPrediction ≠ d →
      (∃! x : ℕ × ℕ, s.Replaced pc d x.1 x.2) ∨
      (∀ t i, ¬ s.Replaced pc d t i) ∧
        s' = (s.beforeAging pc d).ageUsefulness ∧
        ∀ t < P.tableInfo.length, l.Above t →
          ((s.beforeAging pc d).entryAt t (s.tableIndex t pc)).useful.toNat + 1 =
            (s.entryAt t (s.tableIndex t pc)).useful.toNat) ∧
    (∀ t i : ℕ, l.finalPrediction = d ∨ (l.providerHit = true ∧ t ≤ l.providerBank) →
      ¬ s.Replaced pc d t i) ∧
    ((∃ t < P.tableInfo.length, l.Above t) →
      ∃ k ≤ 2 ^ P.usefulnessBits - 1,
        (∀ j < k, ((Tage.allocateEntries · d)^[j] (s.trainCounters pc d)).allocationTable = none) ∧
        ((Tage.allocateEntries · d)^[k] (s.trainCounters pc d)).allocationTable.isSome = true) := by
  intro s l s'
  have hs : Shaped P ((new P).run calls) := (new_shaped P).run hP.toSized calls
  have hi : Ranged P ((new P).run calls) := (new_ranged P).run hP calls
  have hc : Shaped P (s.trainCounters pc d) :=
    (hs.predict hP.toSized pc).trainCounters pc d
  have hl : (s.trainCounters pc d).LooksUp pc := trainCounters_looksUp _ pc d
  have hlast : (s.trainCounters pc d).lastLookup = l := trainCounters_lastLookup s pc d
  have hindex : ∀ t, (s.trainCounters pc d).tableIndex t pc = s.tableIndex t pc := fun t =>
    (tableIndex_congr (by rw [trainCounters_frame]) (by rw [trainCounters_frame]) t pc).1
  refine ⟨fun t i hne => ⟨?_, ?_⟩, hs.train_base hi hP pc d,
    fun t i h => hs.train_of_replaced hP.toSized h, fun hwrong => ?_, ?_, ?_⟩
  · rw [tag_blind.train_of_not_replaced hs hP.toSized hne, trainCounters_tag]
  · rw [ctr_blind.train_of_not_replaced hs hP.toSized hne, hs.trainCounters_ctr_at hP.toSized,
      apply_ite Int8.toInt, hi.stepCtr_entryAt hP]
    rfl
  · by_cases hfree : (s.freeAbove pc).Nonempty
    · have hleast : IsLeast (s.freeAbove pc) (sInf (s.freeAbove pc)) :=
        ⟨Nat.sInf_mem hfree, fun _ h => Nat.sInf_le h⟩
      refine .inl ⟨(sInf (s.freeAbove pc), s.tableIndex (sInf (s.freeAbove pc)) pc),
        ⟨hwrong, hleast, rfl⟩, ?_⟩
      rintro ⟨t, i⟩ ⟨-, hleast', hti⟩
      obtain rfl : t = _ := hleast'.unique hleast
      exact Prod.ext rfl hti
    · refine .inr ⟨fun t i h => hfree ⟨t, h.2.1.1⟩, rfl, fun t ht habove => ?_⟩
      have hnone : (s.trainCounters pc d).allocationTable = none := by
        rw [hl.allocationTable_eq_none, freeAbove_trainCounters]
        exact Set.not_nonempty_iff_eq_empty.mp hfree
      have hless := hl.useful_of_failed hc hnone d ht (hlast ▸ habove)
      rw [hindex, trainCounters_entryAt_above _ pc d habove] at hless
      have hwrong' : (((new P).run calls).lookup pc).finalPrediction ≠ d := hwrong
      rw [beforeAging_entryAt, if_pos hwrong']
      exact hless
  · rintro t i (hright | ⟨hp, hle⟩) ⟨hwrong, hleast, -⟩
    · exact hwrong hright
    · exact absurd (hleast.1.2.1 hp) (not_lt.mpr hle)
  · rintro ⟨t, ht, habove⟩
    have hbound := ((hi.entryAt_ok t (s.tableIndex t pc)).useful)
    rw [← trainCounters_entryAt_above _ pc d habove] at hbound
    exact hl.allocation_succeeds hc d ht (hlast ▸ habove) (by rw [hindex]; exact hbound)

theorem update_frame_default :
    TageParams.boomLikeDefault.InRange ∧
    ∃ k ≤ 3, ((Tage.allocateEntries · false)^[k]
      ((default.predict 0x80000000).2.trainCounters 0x80000000 false)).allocationTable.isSome =
        true := by
  have hframe := update_frame TageParams.boomLikeDefault boomLikeDefault_inRange [] 0x80000000 false
  obtain ⟨k, hk, -, hsome⟩ := hframe.2.2.2.2.2 ⟨4, by decide, by
    unfold LastLookup.Above
    decide +kernel⟩
  exact ⟨boomLikeDefault_inRange, k, hk, hsome⟩

end Tage

end PerceptronSoc
