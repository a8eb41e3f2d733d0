import PerceptronSoc.Lib.Grouped
import PerceptronSoc.Spec.Decode

/-! What `decode_insn` returns. The list keeps the entries of one `match` together and the
larger masks first, because an entry is only moved when both its neighbours have another
`match`; and a cached entry is what the list has for the cached word. So a word with one best
entry is decoded alike whatever was decoded before. For others the order of the list, and
with it what was decoded before, may decide. -/

namespace PerceptronSoc.Decoder

open InsnDesc

open scoped List

variable {φ : Type} {ill : φ} {l l' : List (InsnDesc φ)} {bits : UInt64} {desc : InsnDesc φ}

def registered (ill : φ) (base : List (InsnDesc φ)) (calls : List (Call φ)) : List (InsnDesc φ) :=
  calls.foldl (fun l c => match c with
    | .decode .. => l
    | .registerExtension insns => l ++ insns) (base ++ [illegal ill])

/-- All entries that accept the word, the catch-all apart, have one `match`. -/
def OneMatch (l : List (InsnDesc φ)) (bits : UInt64) : Prop :=
  ∀ e ∈ l, ∀ e' ∈ l, e.mask ≠ 0 → e'.mask ≠ 0 → e.accepts bits = true → e'.accepts bits = true →
    e.matchBits = e'.matchBits

/-- Of the entries that accept the word one alone has the largest mask, and the others, the
catch-all apart, have its `match`. -/
def Unambiguous (l : List (InsnDesc φ)) (bits : UInt64) : Prop :=
  ∃ e ∈ l, e.accepts bits = true ∧ ∀ e' ∈ l, e'.accepts bits = true →
    e' = e ∨ e'.mask < e.mask ∧ (e'.mask = 0 ∨ e'.matchBits = e.matchBits)

/-- The entry accepts the word and, where the word's entries have one `match`, no other has
a larger mask. -/
structure Best (l : List (InsnDesc φ)) (bits : UInt64) (e : InsnDesc φ) : Prop where
  mem : e ∈ l
  accepts : e.accepts bits = true
  largest : OneMatch l bits → ∀ e' ∈ l, e'.accepts bits = true → e'.mask ≤ e.mask

theorem Best.perm {e : InsnDesc φ} (h : Best l bits e) (hp : l.Perm l') : Best l' bits e where
  mem := hp.mem_iff.mp h.mem
  accepts := h.accepts
  largest hone e' he' := h.largest
    (fun a ha b hb => hone a (hp.mem_iff.mp ha) b (hp.mem_iff.mp hb)) e' (hp.mem_iff.mpr he')

theorem Unambiguous.oneMatch (h : Unambiguous l bits) : OneMatch l bits := by
  obtain ⟨e, -, -, hall⟩ := h
  have hmatch : ∀ a ∈ l, a.mask ≠ 0 → a.accepts bits = true → a.matchBits = e.matchBits := by
    intro a ha hne hacc
    obtain rfl | ⟨-, hzero | hm⟩ := hall a ha hacc
    · rfl
    · exact absurd hzero hne
    · exact hm
  intro a ha b hb hane hbne hacc hbcc
  rw [hmatch a ha hane hacc, hmatch b hb hbne hbcc]

theorem Best.unique {e e' : InsnDesc φ} (h : Best l bits e) (h' : Best l bits e')
    (hu : Unambiguous l bits) : e = e' := by
  have hone := hu.oneMatch
  obtain ⟨best, hmem, hacc, hall⟩ := hu
  have heq : ∀ a, Best l bits a → a = best := by
    intro a ha
    obtain rfl | ⟨hlt, -⟩ := hall a ha.mem ha.accepts
    · rfl
    · exact absurd (ha.largest hone best hmem hacc) (UInt64.not_le.mpr hlt)
  rw [heq e h, heq e' h']

/-- The entries of one `match` stand together, larger masks first. -/
def Ordered (l : List (InsnDesc φ)) : Prop :=
  Grouped.Ordered (fun d => d.matchBits.toNat) (fun d => d.mask.toNat) l

def CatchAll (e : InsnDesc φ) : Prop := e.mask = 0 ∧ e.matchBits = 0

/-- The order that the list keeps, and the catch-all at its end. -/
structure Listed (l : List (InsnDesc φ)) : Prop where
  ordered : Ordered l
  catchAll : ∃ init e, l = init ++ [e] ∧ CatchAll e
  behind : l.Pairwise fun a b => CatchAll a → CatchAll b

theorem notAfter_iff (d d' : InsnDesc φ) : d.notAfter d' = true ↔
    d'.matchBits.toNat < d.matchBits.toNat ∨
      d.matchBits.toNat = d'.matchBits.toNat ∧ d'.mask.toNat ≤ d.mask.toNat := by
  unfold notAfter
  rw [Bool.not_eq_true']
  split_ifs with he <;> rw [← UInt64.toNat_inj] at he <;>
    rw [decide_eq_false_iff_not, UInt64.lt_iff_toNat_lt] <;> omega

theorem notAfter_trans (a b c : InsnDesc φ) (hab : a.notAfter b = true) (hbc : b.notAfter c = true) :
    a.notAfter c = true := by
  rw [notAfter_iff] at hab hbc ⊢
  omega

theorem notAfter_total (a b : InsnDesc φ) : (a.notAfter b || b.notAfter a) = true := by
  rw [Bool.or_eq_true, notAfter_iff, notAfter_iff]
  omega

/-- Nothing else sorts behind a catch-all. -/
theorem catchAll_of_notAfter {d d' : InsnDesc φ} (h : d.notAfter d' = true) (hd : CatchAll d) :
    CatchAll d' := by
  rw [notAfter_iff, hd.1, hd.2] at h
  have hzero : (0 : UInt64).toNat = 0 := rfl
  exact ⟨UInt64.toNat_inj.mp (by omega), UInt64.toNat_inj.mp (by omega)⟩

theorem listed_mergeSort (h : illegal ill ∈ l) : Listed (l.mergeSort notAfter) := by
  have hsorted : (l.mergeSort notAfter).Pairwise fun a b => a.notAfter b = true :=
    List.pairwise_mergeSort notAfter_trans notAfter_total l
  refine ⟨Grouped.ordered_of_sorted (hsorted.imp fun h => (notAfter_iff _ _).mp h), ?_,
    hsorted.imp catchAll_of_notAfter⟩
  have hmem : illegal ill ∈ l.mergeSort notAfter := List.mem_mergeSort.mpr h
  obtain ⟨init, e, he⟩ : ∃ init e, l.mergeSort notAfter = init ++ [e] :=
    ⟨_, _, (List.dropLast_append_getLast (List.ne_nil_of_mem hmem)).symm⟩
  rw [he] at hsorted hmem
  refine ⟨init, e, he, ?_⟩
  have hill : CatchAll (illegal ill) := ⟨rfl, rfl⟩
  rcases List.mem_append.mp hmem with hmem | hmem
  · exact catchAll_of_notAfter ((List.pairwise_append.mp hsorted).2.2 _ hmem e (by simp)) hill
  · rw [List.mem_singleton] at hmem
    exact hmem ▸ hill

theorem Listed.findIdx (h : Listed l) (bits : UInt64) :
    ∃ pre e post, l = pre ++ e :: post ∧ l.findIdx? (fun p => p.accepts bits) = some pre.length ∧
      e.accepts bits = true ∧ (∀ a ∈ pre, ¬ a.accepts bits = true) ∧
      (e.mask ≠ 0 → ∃ q post', post = q :: post') := by
  obtain ⟨init, last, rfl, hmask, hmatch⟩ := h.catchAll
  have haccepts : last.accepts bits = true := by simp [InsnDesc.accepts, hmask, hmatch]
  obtain ⟨i, hi⟩ : ∃ i, (init ++ [last]).findIdx? (fun p => p.accepts bits) = some i := by
    apply Option.isSome_iff_exists.mp
    rw [List.findIdx?_isSome]
    simp [haccepts]
  obtain ⟨hlt, hacc, hpre⟩ := List.findIdx?_eq_some_iff_getElem.mp hi
  refine ⟨(init ++ [last]).take i, (init ++ [last])[i], (init ++ [last]).drop (i + 1), ?_, ?_,
    hacc, ?_, ?_⟩
  · rw [List.getElem_cons_drop, List.take_append_drop]
  · rw [hi, List.length_take, Nat.min_eq_left hlt.le]
  · intro a ha
    obtain ⟨j, hj, rfl⟩ := List.mem_iff_getElem.mp ha
    rw [List.length_take] at hj
    rw [List.getElem_take]
    exact hpre j (by omega)
  · intro hne
    -- an entry with a mask is not the catch-all, so another one follows
    have hnot : i ≠ init.length := by
      rintro rfl
      rw [List.getElem_append_right le_rfl] at hne
      simp [hmask] at hne
    have hne' : (init ++ [last]).drop (i + 1) ≠ [] := by
      rw [List.length_append, List.length_singleton] at hlt
      rw [ne_eq, List.drop_eq_nil_iff, List.length_append, List.length_singleton]
      omega
    exact List.exists_cons_of_ne_nil hne'

theorem moveToFront_split (pre post : List (InsnDesc φ)) (e : InsnDesc φ) :
    moveToFront (pre ++ e :: post) pre.length e = e :: (pre ++ post) := by
  simp [moveToFront]

/-- The search returns the first entry that accepts the word, and either leaves the list or
moves this entry from between two entries of other keys to the front. -/
theorem Listed.search_cases (h : Listed l) (bits : UInt64) :
    ∃ pre e post, l = pre ++ e :: post ∧ e.accepts bits = true ∧
      (∀ a ∈ pre, ¬ a.accepts bits = true) ∧
      (search l bits = some (e, l) ∨
        ∃ pre' p q post', pre = pre' ++ [p] ∧ post = q :: post' ∧ e.matchBits ≠ p.matchBits ∧
          e.matchBits ≠ q.matchBits ∧ search l bits = some (e, e :: (pre ++ post))) := by
  obtain ⟨pre, e, post, rfl, hidx, hacc, hpre, hnext⟩ := h.findIdx bits
  refine ⟨pre, e, post, rfl, hacc, hpre, ?_⟩
  have hget : (pre ++ e :: post)[pre.length]? = some e := by simp
  unfold search
  simp only [hidx, Option.bind_eq_bind, Option.bind_some, hget]
  by_cases hmove : e.mask ≠ 0 ∧ 0 < pre.length
  · rw [if_pos hmove]
    obtain ⟨q, post', rfl⟩ := hnext hmove.1
    obtain ⟨pre', p, rfl⟩ : ∃ pre' p, pre = pre' ++ [p] :=
      ⟨_, _, (List.dropLast_append_getLast (List.length_pos_iff.mp hmove.2)).symm⟩
    have hbefore : ((pre' ++ [p]) ++ e :: q :: post')[(pre' ++ [p]).length - 1]? = some p := by
      simp
    have hbehind : ((pre' ++ [p]) ++ e :: q :: post')[(pre' ++ [p]).length + 1]? = some q := by
      rw [List.getElem?_append_right (by omega)]
      simp
    simp only [hbefore, hbehind, Option.bind_some]
    split_ifs with hkeys
    · right
      refine ⟨pre', p, q, post', rfl, rfl, hkeys.1, hkeys.2, ?_⟩
      rw [moveToFront_split]
      rfl
    · exact .inl rfl
  · rw [if_neg hmove]
    exact .inl rfl

theorem best_of_first {pre post : List (InsnDesc φ)} {e : InsnDesc φ}
    (h : Listed (pre ++ e :: post)) (hacc : e.accepts bits = true)
    (hpre : ∀ a ∈ pre, ¬ a.accepts bits = true) :
    Best (pre ++ e :: post) bits e where
  mem := by simp
  accepts := hacc
  largest hone e' he' hacc' := by
    by_cases hzero : e.mask = 0
    · -- a catch-all was found, so nothing but catch-alls follows
      have hcatch : CatchAll e := by
        refine ⟨hzero, ?_⟩
        unfold InsnDesc.accepts at hacc
        rw [hzero, UInt64.and_zero, beq_iff_eq] at hacc
        exact hacc.symm
      rcases List.mem_append.mp he' with hin | hin
      · exact absurd hacc' (hpre e' hin)
      · rcases List.mem_cons.mp hin with rfl | hin
        · exact UInt64.le_refl _
        · have hbehind := (List.pairwise_cons.mp (List.pairwise_append.mp h.behind).2.1).1 e' hin
          rw [(hbehind hcatch).1, hzero]
          exact UInt64.le_refl _
    · by_cases hzero' : e'.mask = 0
      · rw [hzero']
        exact UInt64.zero_le
      · refine UInt64.le_iff_toNat_le.mpr (h.ordered.rank_le_first
          (p := fun a => a.accepts bits = true ∧ a.mask ≠ 0) (fun a ha hp => hpre a ha hp.1)
          ⟨hacc, hzero⟩ (fun a ha b hb hpa hpb => ?_) he' ⟨hacc', hzero'⟩)
        exact congrArg UInt64.toNat (hone a ha b hb hpa.2 hpb.2 hpa.1 hpb.1)

/-- The whole of a search: the best entry, and a list that only its order sets apart. -/
theorem Listed.search (h : Listed l) (bits : UInt64) :
    ∃ e l', Decoder.search l bits = some (e, l') ∧ Best l bits e ∧ Listed l' ∧ l.Perm l' := by
  obtain ⟨pre, e, post, hl, hacc, hpre, hcases⟩ := h.search_cases bits
  have hbest : Best l bits e := by
    have hlist := h
    rw [hl] at hlist ⊢
    exact best_of_first hlist hacc hpre
  rcases hcases with hs | ⟨pre', p, q, post', rfl, rfl, hp, hq, hs⟩
  · exact ⟨e, l, hs, hbest, h, List.Perm.refl l⟩
  · refine ⟨e, _, hs, hbest, ⟨?_, ?_, ?_⟩, ?_⟩
    · have hord := h.ordered
      rw [hl, List.append_assoc] at hord
      rw [List.append_assoc]
      exact Grouped.Ordered.move hord (mt UInt64.toNat_inj.mp hp) (mt UInt64.toNat_inj.mp hq)
    · -- the entry moved was not the last one
      obtain ⟨init, last, hlast, hz⟩ := h.catchAll
      have hpost : ∃ init', q :: post' = init' ++ [last] := by
        refine ⟨(q :: post').dropLast, ?_⟩
        have hget : l.getLast? = some last := by rw [hlast]; simp
        rw [hl, List.getLast?_append, List.getLast?_cons_cons] at hget
        have hq' : (q :: post').getLast? = some last := by
          simpa [List.getLast?_cons] using hget
        exact (List.dropLast_append_getLast? _ hq').symm
      obtain ⟨init', hinit⟩ := hpost
      refine ⟨e :: ((pre' ++ [p]) ++ init'), last, ?_, hz⟩
      rw [hinit]
      simp
    · -- a catch-all has no `match` that differs from a later one's, so it is never moved
      have hbehind := h.behind
      rw [hl] at hbehind
      have hsub : (pre' ++ [p]) ++ q :: post' <+ (pre' ++ [p]) ++ e :: q :: post' :=
        (List.Sublist.refl _).append (List.sublist_cons_self e _)
      have hnot : ¬ CatchAll e := by
        intro hcatch
        have hq' := (List.pairwise_cons.mp (List.pairwise_append.mp hbehind).2.1).1 q
          (List.mem_cons_self ..) hcatch
        exact hq (hcatch.2.trans hq'.2.symm)
      exact List.pairwise_cons.mpr ⟨fun _ _ hcatch => absurd hcatch hnot, hbehind.sublist hsub⟩
    · rw [hl]
      exact List.perm_middle

/-- The state of a hart that has registered `all`: every cached entry is the initial one,
or what the list has for the cached word. -/
structure Inv (ill : φ) (all : List (InsnDesc φ)) (d : Decoder φ) : Prop where
  listed : Listed d.instructions
  perm : d.instructions.Perm all
  cache : ∀ i, d.opcodeCache i = illegal ill ∨
    ∃ bits e, Best all bits e ∧ d.opcodeCache i = { e with matchBits := bits }

variable {all : List (InsnDesc φ)} {d : Decoder φ}

theorem instructions_foldl (d : Decoder φ) (insns : List (InsnDesc φ)) :
    (insns.foldl registerInsn d).instructions = d.instructions ++ insns := by
  induction insns generalizing d with
  | nil => simp
  | cons a insns ih => rw [List.foldl_cons, ih, registerInsn, List.append_assoc, List.singleton_append]

theorem buildOpcodeMap_inv (hmem : illegal ill ∈ all) (hp : d.instructions.Perm all) :
    Inv ill all (d.buildOpcodeMap ill) where
  listed := listed_mergeSort (hp.mem_iff.mpr hmem)
  perm := (List.mergeSort_perm _ _).trans hp
  cache _ := .inl rfl

theorem registerBaseInstructions_inv (ill : φ) (base : List (InsnDesc φ)) :
    Inv ill (base ++ [illegal ill]) (registerBaseInstructions ill base) := by
  apply buildOpcodeMap_inv (by simp)
  rw [registerInsn, instructions_foldl, List.nil_append]

theorem func_withMatch (e : InsnDesc φ) (bits : UInt64) (xlen : ℕ) (rve logged : Bool) :
    ({ e with matchBits := bits } : InsnDesc φ).func xlen rve logged = e.func xlen rve logged := rfl

theorem func_illegal (ill : φ) (xlen : ℕ) (rve logged : Bool) :
    (illegal ill).func xlen rve logged = ill := by
  unfold func illegal
  split_ifs <;> rfl

/-- One call of `decode_insn`. -/
theorem Inv.decodeInsn (hi : Inv ill all d) (bits : UInt64) (xlen : ℕ) (rve logged : Bool) :
    ∃ f d', d.decodeInsn bits xlen rve logged = some (f, d') ∧ Inv ill all d' ∧
      (bits = 0 ∧ f = ill ∨ ∃ e, Best all bits e ∧ f = e.func xlen rve logged) := by
  unfold Decoder.decodeInsn
  simp only
  split_ifs with hmiss
  · obtain ⟨e, l', hs, hbest, hlisted, hp⟩ := hi.listed.search bits
    have hbest' : Best all bits e := hbest.perm hi.perm
    rw [hs]
    refine ⟨_, _, rfl, ⟨hlisted, hp.symm.trans hi.perm, fun i => ?_⟩, .inr ⟨e, hbest', rfl⟩⟩
    by_cases hidx : i = bits.toNat % opcodeCacheSize
    · subst hidx
      exact .inr ⟨bits, e, hbest', Function.update_self ..⟩
    · simp only [Function.update_of_ne hidx]
      exact hi.cache i
  · rw [not_not] at hmiss
    refine ⟨_, d, rfl, hi, ?_⟩
    rcases hi.cache (bits.toNat % opcodeCacheSize) with hc | ⟨bits', e, hbest, hc⟩
    · rw [hc] at hmiss ⊢
      exact .inl ⟨hmiss, func_illegal ..⟩
    · rw [hc] at hmiss ⊢
      obtain rfl : bits = bits' := hmiss
      exact .inr ⟨e, hbest, func_withMatch ..⟩

theorem Inv.registerExtension (hi : Inv ill all d) (hmem : illegal ill ∈ all) (insns : List (InsnDesc φ)) :
    Inv ill (all ++ insns) (d.registerExtension ill insns) := by
  apply buildOpcodeMap_inv (List.mem_append_left _ hmem)
  rw [instructions_foldl]
  exact hi.perm.append_right insns

theorem illegal_mem_registered (ill : φ) (base : List (InsnDesc φ)) (calls : List (Call φ)) :
    illegal ill ∈ registered ill base calls := by
  unfold registered
  refine List.foldlRecOn (motive := fun l => illegal ill ∈ l) calls _ (by simp) ?_
  intro l hl c _
  cases c with
  | decode => exact hl
  | registerExtension insns => exact List.mem_append_left _ hl

theorem run_inv (ill : φ) (base : List (InsnDesc φ)) (calls : List (Call φ)) :
    ∃ d, run ill base calls = some d ∧ Inv ill (registered ill base calls) d := by
  induction calls using List.reverseRecOn with
  | nil => exact ⟨_, rfl, registerBaseInstructions_inv ill base⟩
  | append_singleton calls c ih =>
    obtain ⟨d, hd, hi⟩ := ih
    rw [run] at hd
    have hrun : run ill base (calls ++ [c]) = exec ill d c := by
      rw [run, List.foldlM_append, hd]
      simp
    rw [hrun, registered, List.foldl_concat, ← registered]
    cases c with
    | decode bits xlen rve logged =>
      obtain ⟨f, d', hdec, hi', -⟩ := hi.decodeInsn bits xlen rve logged
      exact ⟨d', by simp [exec, hdec], hi'⟩
    | registerExtension insns =>
      exact ⟨_, rfl, hi.registerExtension (illegal_mem_registered ill base calls) insns⟩

def Call.registers : Call φ → Bool
  | .decode .. => false
  | .registerExtension _ => true

theorem registered_filter (ill : φ) (base : List (InsnDesc φ)) (calls : List (Call φ)) :
    registered ill base (calls.filter Call.registers) = registered ill base calls := by
  unfold registered
  generalize base ++ [illegal ill] = l
  induction calls generalizing l with
  | nil => rfl
  | cons c calls ih =>
    cases c with
    | decode => exact ih l
    | registerExtension insns => exact ih (l ++ insns)

/-- A word with one best entry is decoded to that one's function. -/
theorem Inv.decodeInsn_eq (hi : Inv ill all d) {e : InsnDesc φ} (he : Best all bits e)
    (hu : Unambiguous all bits) (hne : bits ≠ 0) (xlen : ℕ) (rve logged : Bool) :
    (d.decodeInsn bits xlen rve logged).map Prod.fst = some (e.func xlen rve logged) := by
  obtain ⟨f, d', hdec, -, ⟨hzero, -⟩ | ⟨e', hbest, rfl⟩⟩ := hi.decodeInsn bits xlen rve logged
  · exact absurd hzero hne
  · rw [hdec, hbest.unique he hu]
    rfl

theorem Unambiguous.exists_best (h : Unambiguous l bits) : ∃ e, Best l bits e := by
  obtain ⟨e, hmem, hacc, hall⟩ := h
  refine ⟨e, hmem, hacc, fun _ e' he' hacc' => ?_⟩
  obtain rfl | ⟨hlt, -⟩ := hall e' he' hacc'
  · exact UInt64.le_refl _
  · exact UInt64.le_of_lt hlt

/-- For every set of base instructions and every sequence of registrations and decodes: no
decode reads past the list, and it returns the function of an instruction that accepts the
word, the one with the largest mask wherever the accepting instructions, the catch-all apart,
have one `match`. Only the zero word may also be `illegal_instruction`, from an entry of the
cache that is still empty. Two histories that registered the same decode every other word
alike for which one instruction is best. -/
theorem decode_is_best_match (ill : φ) (base : List (InsnDesc φ)) (calls : List (Call φ)) :
    ∃ d, run ill base calls = some d ∧ (∀ bits xlen rve logged,
      ∃ f d', d.decodeInsn bits xlen rve logged = some (f, d') ∧
        (bits = 0 ∧ f = ill ∨ ∃ e ∈ registered ill base calls, e.accepts bits = true ∧
          f = e.func xlen rve logged ∧
          (OneMatch (registered ill base calls) bits →
            ∀ e' ∈ registered ill base calls, e'.accepts bits = true → e'.mask ≤ e.mask))) ∧
      ∀ calls', calls'.filter Call.registers = calls.filter Call.registers →
        ∃ d', run ill base calls' = some d' ∧ ∀ bits xlen rve logged, bits ≠ 0 →
          Unambiguous (registered ill base calls) bits →
          (d'.decodeInsn bits xlen rve logged).map Prod.fst =
            (d.decodeInsn bits xlen rve logged).map Prod.fst := by
  obtain ⟨d, hrun, hi⟩ := run_inv ill base calls
  refine ⟨d, hrun, fun bits xlen rve logged => ?_, fun calls' hcalls => ?_⟩
  · obtain ⟨f, d', hdec, -, hzero | ⟨e, hbest, hf⟩⟩ := hi.decodeInsn bits xlen rve logged
    · exact ⟨f, d', hdec, .inl hzero⟩
    · exact ⟨f, d', hdec, .inr ⟨e, hbest.mem, hbest.accepts, hf, hbest.largest⟩⟩
  · obtain ⟨d', hrun', hi'⟩ := run_inv ill base calls'
    rw [← registered_filter, hcalls, registered_filter] at hi'
    refine ⟨d', hrun', fun bits xlen rve logged hne hu => ?_⟩
    obtain ⟨e, he⟩ := hu.exists_best
    rw [hi'.decodeInsn_eq he hu hne, hi.decodeInsn_eq he hu hne]

end PerceptronSoc.Decoder
