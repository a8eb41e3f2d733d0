import PerceptronSoc.Proofs.TageView

/-! What `predict` of a TAGE predictor decides, said without its scan: the longest match
wins, and a weak one may pass to the next longest. The lookup it leaves behind is the only
thing it changes, and that shows in a later `train` only when it was out of date. -/

namespace PerceptronSoc.Tage

/-- The tables whose entry at `table_index(t, pc)` holds `table_tag(t, pc)`. -/
def matching (s : Tage) (pc : UInt64) : Set ℕ :=
  {t | t < s.params.tableInfo.length ∧
    (s.entryAt t (s.tableIndex t pc)).tag = s.tableTag t pc}

def IsProvider (s : Tage) (pc : UInt64) (b : ℕ) : Prop := IsGreatest (s.matching pc) b

def IsAlternate (s : Tage) (pc : UInt64) (a : ℕ) : Prop :=
  ∃ b, s.IsProvider pc b ∧ IsGreatest (s.matching pc ∩ Set.Iio b) a

def counterOf (s : Tage) (pc : UInt64) (t : ℕ) : ℤ := (s.entryAt t (s.tableIndex t pc)).ctr.toInt

inductive Decides (s : Tage) (pc : UInt64) : Bool → Prop where
  | base (hnone : s.matching pc = ∅) :
      Decides s pc (counterPredictsTaken (s.baseAt (s.baseIndex pc)).toInt)
  | alternate {b a : ℕ} (hb : s.IsProvider pc b) (ha : s.IsAlternate pc a)
      (huse : s.params.useAltOnWeak = true)
      (hweak : counterIsWeak (s.counterOf pc b) s.params.taggedCtrBits = true) :
      Decides s pc (counterPredictsTaken (s.counterOf pc a))
  | provider {b : ℕ} (hb : s.IsProvider pc b)
      (hno : ¬ (s.params.useAltOnWeak = true ∧ (∃ a, s.IsAlternate pc a) ∧
        counterIsWeak (s.counterOf pc b) s.params.taggedCtrBits = true)) :
      Decides s pc (counterPredictsTaken (s.counterOf pc b))

variable {s : Tage} {pc : UInt64} {a b : ℕ} {rest : List ℕ}

theorem matching_eq (s : Tage) (pc : UInt64) : s.matching pc = {t | t ∈ s.hits pc} := by
  ext t
  exact mem_hits.symm

theorem isProvider_of_cons (h : s.hits pc = b :: rest) : s.IsProvider pc b := by
  have hsorted := hits_pairwise s pc
  rw [IsProvider, matching_eq]
  rw [h] at hsorted ⊢
  refine ⟨by simp, fun t ht => ?_⟩
  obtain rfl | ht := List.mem_cons.mp ht
  · exact le_rfl
  · exact ((List.pairwise_cons.mp hsorted).1 t ht).le

theorem IsProvider.unique {b' : ℕ} (h : s.IsProvider pc b) (h' : s.IsProvider pc b') : b = b' :=
  IsGreatest.unique h h'

theorem IsAlternate.unique {a' : ℕ} (h : s.IsAlternate pc a) (h' : s.IsAlternate pc a') :
    a = a' := by
  obtain ⟨b, hb, ha⟩ := h
  obtain ⟨b', hb', ha'⟩ := h'
  obtain rfl := hb.unique hb'
  exact IsGreatest.unique ha ha'

theorem isAlternate_of_cons_cons (h : s.hits pc = b :: a :: rest) : s.IsAlternate pc a := by
  have hsorted := hits_pairwise s pc
  refine ⟨b, isProvider_of_cons h, ?_⟩
  rw [matching_eq]
  rw [h] at hsorted ⊢
  obtain ⟨hb, hsorted⟩ := List.pairwise_cons.mp hsorted
  refine ⟨⟨by simp, hb a (by simp)⟩, fun t ht => ?_⟩
  obtain ⟨hmem, hlt⟩ := ht
  obtain rfl | hmem := List.mem_cons.mp hmem
  · exact absurd hlt (lt_irrefl t)
  obtain rfl | hmem := List.mem_cons.mp hmem
  · exact le_rfl
  · exact ((List.pairwise_cons.mp hsorted).1 t hmem).le

theorem not_isAlternate_of_singleton (h : s.hits pc = [b]) : ¬ s.IsAlternate pc a := by
  rintro ⟨b', hb', ⟨hmem, hlt⟩, -⟩
  obtain rfl := (isProvider_of_cons h).unique hb'
  rw [matching_eq, h] at hmem
  obtain rfl : a = b := by simpa using hmem
  exact absurd hlt (lt_irrefl a)

theorem isProvider_iff : s.IsProvider pc b ↔ ∃ rest, s.hits pc = b :: rest := by
  refine ⟨fun hb => ?_, fun ⟨rest, h⟩ => isProvider_of_cons h⟩
  match h : s.hits pc with
  | [] =>
    have hmem := hb.1
    rw [matching_eq, h] at hmem
    simp at hmem
  | b' :: rest =>
    obtain rfl := (isProvider_of_cons h).unique hb
    exact ⟨rest, rfl⟩

theorem isAlternate_iff : s.IsAlternate pc a ↔ ∃ b rest, s.hits pc = b :: a :: rest := by
  refine ⟨fun ha => ?_, fun ⟨b, rest, h⟩ => isAlternate_of_cons_cons h⟩
  obtain ⟨b, hb, -⟩ := id ha
  obtain ⟨rest, h⟩ := isProvider_iff.mp hb
  match rest with
  | [] => exact absurd ha (not_isAlternate_of_singleton h)
  | a' :: rest =>
    obtain rfl := (isAlternate_of_cons_cons h).unique ha
    exact ⟨b, rest, h⟩

/-- The rule decides one way at most. -/
theorem Decides.unique {v w : Bool} (hv : s.Decides pc v) (hw : s.Decides pc w) : v = w := by
  cases hv with
  | base hnone =>
    cases hw with
    | base => rfl
    | alternate hb => exact absurd hb.1 (by simp [hnone])
    | provider hb => exact absurd hb.1 (by simp [hnone])
  | alternate hb ha huse hweak =>
    cases hw with
    | base hnone => exact absurd hb.1 (by simp [hnone])
    | alternate hb' ha' => rw [ha.unique ha']
    | provider hb' hno =>
      rw [hb.unique hb'] at hweak
      exact absurd ⟨huse, ⟨_, ha⟩, hweak⟩ hno
  | provider hb hno =>
    cases hw with
    | base hnone => exact absurd hb.1 (by simp [hnone])
    | alternate hb' ha huse hweak =>
      rw [← hb.unique hb'] at hweak
      exact absurd ⟨huse, ⟨_, ha⟩, hweak⟩ hno
    | provider hb' => rw [hb.unique hb']

theorem TablesFit.tableIndex_lt (hP : TablesFit s.params) (ht : a < s.params.tableInfo.length)
    (pc : UInt64) : s.tableIndex a pc < 2 ^ 31 := by
  obtain ⟨h1, h2⟩ := hP _ (Vectors.getD_mem (d := ⟨1, 0, 0⟩) ht)
  refine lt_of_lt_of_le ?_ h2
  exact maskIndex_lt _ h1 (lt_of_le_of_lt h2 (by norm_num))

theorem TablesFit.castInt_tableIndex (hP : TablesFit s.params) (ha : a ∈ s.hits pc) :
    castInt (s.tableIndex a pc) = s.tableIndex a pc :=
  castInt_of_lt (hP.tableIndex_lt (mem_hits.mp ha).1 pc)

theorem lookup_provider_iff (hP : TablesFit s.params) :
    ((s.lookup pc).providerHit = true ∧ (s.lookup pc).providerBank = b ∧
      (s.lookup pc).providerIndex = s.tableIndex b pc) ↔ s.IsProvider pc b := by
  rw [isProvider_iff]
  refine ⟨fun ⟨hp, hbank, _⟩ => ?_, fun ⟨rest, h⟩ => ?_⟩
  · match h : s.hits pc with
    | [] => simp [lookup_of_nil h] at hp
    | b' :: rest =>
      rw [(lookup_of_cons h).2.1, Nat.cast_inj] at hbank
      exact ⟨rest, by rw [hbank]⟩
  · obtain ⟨hp, hbank, hindex⟩ := lookup_of_cons h
    exact ⟨hp, hbank, hindex.trans (hP.castInt_tableIndex (by simp [h]))⟩

theorem lookup_alternate_iff (hP : TablesFit s.params) :
    ((s.lookup pc).alternateHit = true ∧ (s.lookup pc).alternateBank = a ∧
      (s.lookup pc).alternateIndex = s.tableIndex a pc) ↔ s.IsAlternate pc a := by
  rw [isAlternate_iff]
  refine ⟨fun ⟨ha, hbank, _⟩ => ?_, fun ⟨b, rest, h⟩ => ?_⟩
  · match h : s.hits pc with
    | [] => simp [lookup_of_nil h] at ha
    | [b] => simp [lookup_of_singleton h] at ha
    | b :: a' :: rest =>
      rw [(lookup_of_cons_cons h).2.1, Nat.cast_inj] at hbank
      exact ⟨b, rest, by rw [hbank]⟩
  · obtain ⟨ha, hbank, hindex⟩ := lookup_of_cons_cons h
    exact ⟨ha, hbank, hindex.trans (hP.castInt_tableIndex (by simp [h]))⟩

theorem lookup_noProvider_iff : (s.lookup pc).providerHit = false ↔ s.matching pc = ∅ := by
  match h : s.hits pc with
  | [] => simp [matching_eq, h, lookup_of_nil h]
  | b :: rest =>
    have hmem := (isProvider_of_cons h).1
    simp [lookup_of_cons h, Set.nonempty_iff_ne_empty.mp ⟨b, hmem⟩]

theorem lookup_noAlternate_iff :
    (s.lookup pc).alternateHit = false ↔ ∀ a, ¬ s.IsAlternate pc a := by
  match h : s.hits pc with
  | [] => simp [isAlternate_iff, h, lookup_of_nil h]
  | [b] => simp [isAlternate_iff, h, lookup_of_singleton h]
  | b :: a :: rest => simp [isAlternate_iff, h, lookup_of_cons_cons h]

theorem providerEntry_ctr (hP : TablesFit s.params) (h : s.hits pc = b :: rest) :
    (s.providerEntry (s.lookup pc)).ctr.toInt = s.counterOf pc b := by
  obtain ⟨-, hbank, hindex⟩ := lookup_of_cons h
  have hmem : b ∈ s.hits pc := by simp [h]
  unfold providerEntry counterOf
  rw [hbank, hindex, hP.castInt_tableIndex hmem, sizeT_natCast, sizeT_natCast]

theorem alternateEntry_ctr (hP : TablesFit s.params) (h : s.hits pc = b :: a :: rest) :
    (s.alternateEntry (s.lookup pc)).ctr.toInt = s.counterOf pc a := by
  obtain ⟨-, hbank, hindex⟩ := lookup_of_cons_cons h
  have hmem : a ∈ s.hits pc := by simp [h]
  unfold alternateEntry counterOf
  rw [hbank, hindex, hP.castInt_tableIndex hmem, sizeT_natCast, sizeT_natCast]

/-- `predict` returns what the rule decides; one case for each number of matches. -/
theorem predict_decides (hP : TablesFit s.params) (pc : UInt64) :
    s.Decides pc (s.predict pc).1 := by
  have hd := lookup_decided s pc
  change s.Decides pc (s.lookup pc).finalPrediction
  rw [hd.finalPrediction, hd.usedAlternate, hd.providerWeak, hd.providerPrediction,
    hd.alternatePrediction]
  match h : s.hits pc with
  | [] =>
    simp only [lookup_of_nil h, Bool.false_and, Bool.false_eq_true, if_false]
    exact .base (by simp [matching_eq, h])
  | [b] =>
    simp only [lookup_of_cons h, lookup_of_singleton h, providerEntry_ctr hP h, Bool.and_false,
      Bool.false_eq_true, if_true, if_false]
    refine .provider (isProvider_of_cons h) fun ⟨_, ⟨a, ha⟩, _⟩ => ?_
    exact not_isAlternate_of_singleton h ha
  | b :: a :: rest =>
    simp only [lookup_of_cons h, lookup_of_cons_cons h, providerEntry_ctr hP h,
      alternateEntry_ctr hP h, Bool.true_and, Bool.and_true, if_true]
    split_ifs with hpass
    · rw [Bool.and_eq_true] at hpass
      exact .alternate (isProvider_of_cons h) (isAlternate_of_cons_cons h) hpass.1 hpass.2
    · refine .provider (isProvider_of_cons h) fun ⟨huse, _, hweak⟩ => hpass ?_
      rw [huse, hweak]
      rfl

/-- The stored lookup is what a lookup would find now. -/
def Current (s : Tage) : Prop := s.lastLookup = s.lookup s.lastLookup.pc

theorem predict_current (s : Tage) (pc : UInt64) : (s.predict pc).2.Current := by
  have hpc : (s.predict pc).2.lastLookup.pc = pc := (lookup_spec s pc).atPc
  rw [Current, hpc]
  exact predict_lastLookup s pc

theorem Current.refresh (h : s.Current) (pc : UInt64) : s.refresh pc = (s.predict pc).2 := by
  by_cases hpc : s.lastLookup.pc = pc
  · exact refresh_of_current (hpc ▸ h)
  · unfold Tage.refresh
    rw [if_pos (by simp [hpc])]

theorem predict_setLast (s : Tage) (stored : LastLookup) (pc : UInt64) :
    ({ s with lastLookup := stored } : Tage).predict pc = s.predict pc := by
  unfold predict
  rw [lookup_setLast]

/-- Which current lookup is stored does not matter to any call. -/
theorem Current.exec_setLast (h : s.Current) {stored : LastLookup}
    (h' : ({ s with lastLookup := stored } : Tage).Current) (c : PredictorCall) :
    ({ s with lastLookup := stored } : Tage).exec c = s.exec c := by
  cases c with
  | predict pc => exact congrArg Prod.snd (predict_setLast s stored pc)
  | train pc d =>
    change Tage.train _ pc d = s.train pc d
    unfold Tage.train
    rw [h'.refresh, h.refresh, predict_setLast]
  | reset => rfl

theorem run_predicts (s : Tage) (pcs : List UInt64) :
    ∃ stored, s.run (pcs.map .predict) = { s with lastLookup := stored } := by
  induction pcs using List.reverseRecOn with
  | nil => exact ⟨s.lastLookup, rfl⟩
  | append_singleton pcs pc ih =>
    obtain ⟨stored, h⟩ := ih
    rw [List.map_append, List.map_singleton, run_snoc, h]
    exact ⟨_, rfl⟩

theorem run_predicts_current (h : s.Current) (pcs : List UInt64) :
    (s.run (pcs.map .predict)).Current := by
  rcases List.eq_nil_or_concat pcs with rfl | ⟨pcs, pc, rfl⟩
  · exact h
  · rw [List.concat_eq_append, List.map_append, List.map_singleton, run_snoc]
    exact predict_current _ pc

/-- With a current lookup stored, further predictions do not show in any later one, also
not through a `train` in between. -/
theorem Current.predict_after (h : s.Current) (pcs : List UInt64) (calls : List PredictorCall)
    (pc : UInt64) :
    ((s.run (pcs.map .predict ++ calls)).predict pc).1 = ((s.run calls).predict pc).1 := by
  obtain ⟨stored, hrun⟩ := run_predicts s pcs
  have hcurrent := run_predicts_current h pcs
  rw [hrun] at hcurrent
  have happend : s.run (pcs.map .predict ++ calls) =
      ({ s with lastLookup := stored } : Tage).run calls := by
    rw [← hrun]
    exact List.foldl_append
  rw [happend]
  cases calls with
  | nil => exact congrArg Prod.fst (predict_setLast s stored pc)
  | cons c calls =>
    change ((Tage.run (Tage.exec _ c) calls).predict pc).1 = (((s.exec c).run calls).predict pc).1
    rw [h.exec_setLast hcurrent]

/-- For every state whose subscripts fit an `int` and every `pc`: the stored provider and
alternate are the longest and the next longest match, the returned value is the one the
longest-match rule decides, only the stored lookup changes, and predicting again, for
whatever `pc`s, shows in no later prediction. -/
theorem predict_is_longest_match (s : Tage) (hP : TablesFit s.params) (pc : UInt64) :
    let l := (s.predict pc).2.lastLookup
    (∀ b : ℕ, (l.providerHit = true ∧ l.providerBank = b ∧
      l.providerIndex = s.tableIndex b pc) ↔ s.IsProvider pc b) ∧
    (l.providerHit = false ↔ s.matching pc = ∅) ∧
    (∀ a : ℕ, (l.alternateHit = true ∧ l.alternateBank = a ∧
      l.alternateIndex = s.tableIndex a pc) ↔ s.IsAlternate pc a) ∧
    (l.alternateHit = false ↔ ∀ a, ¬ s.IsAlternate pc a) ∧
    (∀ taken, (s.predict pc).1 = taken ↔ s.Decides pc taken) ∧
    (s.predict pc).2 = { s with lastLookup := l } ∧
    (∀ (pcs : List UInt64) pc', ((s.run (pcs.map .predict)).predict pc').1 =
      (s.predict pc').1) ∧
    ∀ (pcs : List UInt64) calls pc',
      (((s.predict pc).2.run (pcs.map .predict ++ calls)).predict pc').1 =
        (((s.predict pc).2.run calls).predict pc').1 := by
  intro l
  refine ⟨fun b => lookup_provider_iff hP, lookup_noProvider_iff,
    fun a => lookup_alternate_iff hP, lookup_noAlternate_iff, fun taken => ?_, rfl,
    fun pcs pc' => ?_, (predict_current s pc).predict_after⟩
  · exact ⟨fun h => h ▸ predict_decides hP pc, fun h => (predict_decides hP pc).unique h⟩
  · obtain ⟨stored, h⟩ := run_predicts s pcs
    rw [h, predict_setLast]

theorem boomLikeDefault_tablesFit : TablesFit TageParams.boomLikeDefault := by decide

theorem predict_is_longest_match_default :
    TablesFit default.params ∧ default.Decides 0x80000000 true :=
  ⟨boomLikeDefault_tablesFit,
    ((predict_is_longest_match default boomLikeDefault_tablesFit 0x80000000).2.2.2.2.1 true).mp
      (by decide +kernel)⟩

end PerceptronSoc.Tage
