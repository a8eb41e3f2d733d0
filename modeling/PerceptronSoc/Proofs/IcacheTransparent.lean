import PerceptronSoc.Spec.Icache

/-! The instruction cache cannot be observed. A slot holds what a cache without bounds would
still hold, so the fast loop does what fetching every instruction anew would do, for as long
as what is fetched again without a fence is the same instruction. Fetching anew may leave
other traces, in the TLB or in the opcode cache; the two harts are compared up to any
relation that nothing the loop calls can tell apart. -/

namespace PerceptronSoc.Icache

variable {σ ε φ α β : Type} {c : Core σ ε φ} {r : σ → σ → Prop}

def Call.Respects (x : Call σ ε α) (r : σ → σ → Prop) : Prop :=
  ∀ s t, r s t → (x s).result = (x t).result ∧ r (x s).hart (x t).hart ∧
    (x s).flushed = (x t).flushed

/-- Nothing that the loop reads or calls can tell related harts apart. -/
structure Core.Respects (c : Core σ ε φ) (r : σ → σ → Prop) : Prop where
  equivalence : Equivalence r
  pc : ∀ s t, r s t → c.pc s = c.pc t
  setPc : ∀ pc s t, r s t → r (c.setPc pc s) (c.setPc pc t)
  setSerialized : ∀ s t, r s t → r (c.setSerialized s) (c.setSerialized t)
  takePendingInterrupt : c.takePendingInterrupt.Respects r
  slowPath : ∀ s t, r s t → c.slowPath s = c.slowPath t
  slowCheck : c.slowCheck.Respects r
  executeInsnLogged : ∀ fetch pc, (c.executeInsnLogged fetch pc).Respects r
  matchedTrigger : ∀ s t, r s t → c.matchedTrigger s = c.matchedTrigger t
  translateInsnAddr : ∀ addr, (c.translateInsnAddr addr).Respects r
  decodeInsn : ∀ bits s t, r s t → (c.decodeInsn bits s).1 = (c.decodeInsn bits t).1 ∧
    r (c.decodeInsn bits s).2 (c.decodeInsn bits t).2
  interested : ∀ paddr s t, r s t → c.interested paddr s = c.interested paddr t
  trace : ∀ paddr length s t, r s t → r (c.trace paddr length s) (c.trace paddr length t)
  executeInsnFast : ∀ fetch pc, (c.executeInsnFast fetch pc).Respects r
  handle : ∀ e pc, (Call.effect (ε := ε) (c.handle e pc)).Respects r
  bump : ∀ n s t, r s t → r (c.bump n s) (c.bump n t)

theorem Call.Respects.bind {x : Call σ ε α} {f : α → Call σ ε β} (hx : x.Respects r)
    (hf : ∀ a, (f a).Respects r) : Call.Respects (x >>= f) r := by
  intro s t h
  obtain ⟨hresult, hhart, hflushed⟩ := hx s t h
  change (Call.bind x f s).result = (Call.bind x f t).result ∧
    r (Call.bind x f s).hart (Call.bind x f t).hart ∧
    (Call.bind x f s).flushed = (Call.bind x f t).flushed
  unfold Call.bind
  generalize x s = xs at hresult hhart hflushed ⊢
  generalize x t = xt at hresult hhart hflushed ⊢
  rcases xs with ⟨result, s', flushed⟩
  rcases xt with ⟨result', t', flushed'⟩
  obtain rfl : result = result' := hresult
  obtain rfl : flushed = flushed' := hflushed
  cases result with
  | error e => exact ⟨rfl, hhart, rfl⟩
  | ok a =>
    obtain ⟨h1, h2, h3⟩ := hf a s' t' hhart
    exact ⟨h1, h2, congrArg (flushed || ·) h3⟩

theorem Call.respects_pure (a : α) : Call.Respects (pure a : Call σ ε α) r :=
  fun _ _ h => ⟨rfl, h, rfl⟩

theorem Core.Respects.parcelAt (hc : c.Respects r) (addr shift : UInt64) :
    (c.parcelAt addr shift).Respects r :=
  (hc.translateInsnAddr addr).bind fun _ => Call.respects_pure _

theorem Core.Respects.otherParcels (hc : c.Respects r) (addr : UInt64) (length : ℕ) :
    (c.otherParcels addr length).Respects r := by
  unfold Core.otherParcels
  split_ifs
  · exact hc.parcelAt _ _
  · exact Call.respects_pure _
  · exact (hc.parcelAt _ _).bind fun _ => (hc.parcelAt _ _).bind fun _ => Call.respects_pure _
  · exact (hc.parcelAt _ _).bind fun _ => (hc.parcelAt _ _).bind fun _ =>
      (hc.parcelAt _ _).bind fun _ => Call.respects_pure _

theorem Core.Respects.decodeFetch (hc : c.Respects r) (insn : UInt64) :
    (c.decodeFetch insn).Respects r := by
  intro s t h
  obtain ⟨hfunc, hhart⟩ := hc.decodeInsn insn s t h
  exact ⟨by simp only [Core.decodeFetch, hfunc], hhart, rfl⟩

theorem Core.Respects.entryFor (hc : c.Respects r) (addr paddr : UInt64) (length : ℕ)
    (fetch : InsnFetch φ) : (c.entryFor addr paddr length fetch).Respects r := by
  intro s t h
  unfold Core.entryFor
  rw [hc.interested paddr s t h]
  split_ifs
  · exact ⟨rfl, hc.trace _ _ s t h, rfl⟩
  · exact ⟨rfl, h, rfl⟩

theorem Core.Respects.refillIcache (hc : c.Respects r) (addr : UInt64) :
    (c.refillIcache addr).Respects r := by
  intro s t h
  unfold Core.refillIcache
  rw [hc.matchedTrigger s t h]
  split
  · exact ⟨rfl, h, rfl⟩
  · exact ((hc.translateInsnAddr addr).bind fun _ => (hc.otherParcels _ _).bind fun _ =>
      (hc.decodeFetch _).bind fun _ => hc.entryFor _ _ _ _) s t h

/-- The instruction that a refill for `addr` leaves in the cache. -/
def cached (addr : UInt64) (x : Reply σ ε (IcacheEntry φ)) : Option (InsnFetch φ) :=
  match x.result with
  | .ok entry => if entry.tag = addr then some entry.data else none
  | .error _ => none

/-- What a cache without bounds holds after one more event; it does not fetch what it holds. -/
def note (c : Core σ ε φ) (held : UInt64 → Option (InsnFetch φ)) :
    Fetched σ → UInt64 → Option (InsnFetch φ)
  | .flush, _ => none
  | .fetch addr s, a =>
    if (held addr).isSome then held a
    else if a = addr then cached addr (c.refillIcache addr s)
    else if (c.refillIcache addr s).flushed then none
    else held a

def heldAfter (c : Core σ ε φ) (log : List (Fetched σ)) : UInt64 → Option (InsnFetch φ) :=
  log.foldl (note c) fun _ => none

theorem heldAfter_concat (log : List (Fetched σ)) (e : Fetched σ) :
    heldAfter c (log ++ [e]) = note c (heldAfter c log) e := by
  unfold heldAfter
  rw [List.foldl_append]
  rfl

/-- The fetches of a run without a cache: at even addresses only, and where an instruction has
been fetched before with no fence since, fetching it again gives the same instruction and does
nothing that can be told. -/
structure Fenced (c : Core σ ε φ) (r : σ → σ → Prop) (log : List (Fetched σ)) : Prop where
  even : ∀ addr s, .fetch addr s ∈ log → invalidPc addr = false
  unchanged : ∀ before addr s after f, log = before ++ .fetch addr s :: after →
    heldAfter c before addr = some f → ∃ entry, (c.refillIcache addr s).result = .ok entry ∧
      entry.data = f ∧ r (c.refillIcache addr s).hart s

theorem Fenced.of_isPrefix {log log' : List (Fetched σ)} (h : Fenced c r log')
    (hp : log <+: log') : Fenced c r log := by
  obtain ⟨tail, rfl⟩ := hp
  constructor
  · intro addr s hmem
    exact h.even addr s (List.mem_append_left tail hmem)
  · intro before addr s after f hlog hheld
    refine h.unchanged before addr s (after ++ tail) f ?_ hheld
    rw [hlog]
    simp

variable {held : UInt64 → Option (InsnFetch φ)} {addr : UInt64} {f : InsnFetch φ}

theorem note_of_held (h : held addr = some f) (s : σ) : note c held (.fetch addr s) = held := by
  funext a
  simp [note, h]

/-- Fetching what is not held leaves the rest, unless it flushes. -/
theorem note_of_ne {a : UInt64} (ha : a ≠ addr) {s : σ}
    (hkeep : (c.refillIcache addr s).flushed = false) :
    note c held (.fetch addr s) a = held a := by
  simp [note, ha, hkeep]

theorem note_self {s : σ} {entry : IcacheEntry φ} (hnot : held addr = none)
    (h : (c.refillIcache addr s).result = .ok entry) (htag : entry.tag = addr) :
    note c held (.fetch addr s) addr = some entry.data := by
  simp [note, cached, hnot, h, htag]

theorem held_of_note {a : UInt64} (ha : a ≠ addr) {s : σ}
    (h : note c held (.fetch addr s) a = some f) : held a = some f := by
  simp only [note, ha, if_false] at h
  split_ifs at h
  · exact h
  · exact h

theorem mem_of_held {log : List (Fetched σ)}
    (h : heldAfter c log addr = some f) : ∃ s, .fetch addr s ∈ log := by
  induction log using List.reverseRecOn with
  | nil => cases h
  | append_singleton log e ih =>
    rw [heldAfter_concat] at h
    cases e with
    | flush => cases h
    | fetch a s =>
      by_cases ha : addr = a
      · exact ⟨s, by simp [ha]⟩
      · obtain ⟨t, ht⟩ := ih (held_of_note ha h)
        exact ⟨t, List.mem_append_left _ ht⟩

theorem invalidPc_noTag : invalidPc noTag = true := by decide

theorem Call.bind_ok {x : Call σ ε α} {f : α → Call σ ε β} {s : σ} {b : β}
    (h : ((x >>= f) s).result = .ok b) :
    ∃ a, (x s).result = .ok a ∧ (f a (x s).hart).result = .ok b := by
  change (Call.bind x f s).result = .ok b at h
  unfold Call.bind at h
  split at h
  · cases h
  · rename_i a s' flushed hx
    refine ⟨a, ?_, ?_⟩
    · rw [hx]
    · rw [hx]
      exact h

theorem refillIcache_tag {addr : UInt64} {s : σ} {entry : IcacheEntry φ}
    (h : (c.refillIcache addr s).result = .ok entry) : entry.tag = noTag ∨ entry.tag = addr := by
  unfold Core.refillIcache at h
  split at h
  · cases h
  · obtain ⟨⟨parcel, paddr⟩, -, h⟩ := Call.bind_ok h
    obtain ⟨rest, -, h⟩ := Call.bind_ok h
    obtain ⟨fetch, -, h⟩ := Call.bind_ok h
    unfold Core.entryFor at h
    dsimp only at h
    split at h
    · cases h
      exact .inl rfl
    · cases h
      exact .inr rfl

/-- `m` has a cache and `p` fetches anew: related harts, and every slot is empty or holds what
a cache without bounds would hold. -/
structure Agrees (c : Core σ ε φ) (r : σ → σ → Prop) (m p : Machine σ φ) : Prop where
  hart : r m.hart p.hart
  held : ∀ i, (m.icache i).tag = noTag ∨
    heldAfter c p.log (m.icache i).tag = some (m.icache i).data

theorem leave_hart (m : Machine σ φ) (x : Reply σ ε α) : (m.leave x).hart = x.hart := by
  unfold Machine.leave
  split <;> rfl

theorem call_hart (m : Machine σ φ) (x : Call σ ε α) : (m.call x).2.hart = (x m.hart).hart :=
  leave_hart m _

theorem refill_hart (m : Machine σ φ) (addr : UInt64) :
    (m.refill c addr).2.hart = (c.refillIcache addr m.hart).hart := leave_hart m _

namespace Agrees

variable {m p : Machine σ φ}

theorem setPc (h : Agrees c r m p) (hc : c.Respects r) (pc : UInt64) :
    Agrees c r (m.setPc c pc) (p.setPc c pc) :=
  ⟨hc.setPc pc _ _ h.hart, h.held⟩

theorem call (h : Agrees c r m p) {x : Call σ ε α} (hx : x.Respects r) :
    (m.call x).1 = (p.call x).1 ∧ Agrees c r (m.call x).2 (p.call x).2 := by
  obtain ⟨hresult, hhart, hflushed⟩ := hx _ _ h.hart
  refine ⟨hresult, ?_, fun i => ?_⟩
  · rw [call_hart, call_hart]
    exact hhart
  · simp only [Machine.call, Machine.leave, hflushed]
    split
    · exact .inl rfl
    · exact h.held i

theorem call_eq (h : Agrees c r m p) {x : Call σ ε α} (hx : x.Respects r) :
    ∃ a m' p', m.call x = (a, m') ∧ p.call x = (a, p') ∧ Agrees c r m' p' :=
  ⟨(m.call x).1, (m.call x).2, (p.call x).2, rfl, by rw [(h.call hx).1], (h.call hx).2⟩

theorem refill (h : Agrees c r m p) (hc : c.Respects r) (addr : UInt64) :
    (m.refill c addr).1 = (p.refill c addr).1 ∧
      Agrees c r (m.refill c addr).2 (p.refill c addr).2 := by
  obtain ⟨hresult, hhart, hflushed⟩ := hc.refillIcache addr _ _ h.hart
  refine ⟨hresult, ?_, fun i => ?_⟩
  · rw [refill_hart, refill_hart]
    exact hhart
  · change _ ∨ heldAfter c (p.log ++ [.fetch addr p.hart]) _ = _
    rw [heldAfter_concat]
    simp only [Machine.refill, Machine.leave]
    split
    · exact .inl rfl
    · rename_i hkeep
      rw [hflushed, Bool.not_eq_true] at hkeep
      refine (h.held i).imp_right fun hi => ?_
      change heldAfter c p.log (m.icache i).tag = some (m.icache i).data at hi
      by_cases heq : (m.icache i).tag = addr
      · rw [heq] at hi ⊢
        rwa [note_of_held hi]
      · rwa [note_of_ne heq hkeep]

theorem update (h : Agrees c r m p) (hc : c.Respects r) {entry : IcacheEntry φ}
    (hf : Fenced c r (p.refill c addr).2.log) (hentry : (p.refill c addr).1 = .ok entry) (i : ℕ) :
    Agrees c r { (m.refill c addr).2 with icache := Function.update (m.refill c addr).2.icache i entry }
      (p.refill c addr).2 := by
  obtain ⟨-, hhart, hheld⟩ := h.refill hc addr
  refine ⟨hhart, fun j => ?_⟩
  dsimp only
  rcases eq_or_ne j i with rfl | hj
  · rw [Function.update_self]
    rcases refillIcache_tag hentry with htag | htag
    · exact .inl htag
    · right
      have hentry' : (c.refillIcache addr p.hart).result = .ok entry := hentry
      change heldAfter c (p.log ++ [.fetch addr p.hart]) entry.tag = some entry.data
      rw [heldAfter_concat, htag]
      cases hbefore : heldAfter c p.log addr with
      | some f =>
        obtain ⟨entry', hresult, hdata, -⟩ := hf.unchanged p.log addr p.hart [] f rfl hbefore
        rw [hentry', Except.ok.injEq] at hresult
        rw [note_of_held hbefore, hbefore, hresult, hdata]
      | none => exact note_self hbefore hentry' htag
  · rw [Function.update_of_ne hj]
    exact hheld j

end Agrees

/-- An instruction that a slot holds is the one that the plain machine fetches now, and
fetching it leaves nothing to be told. -/
theorem loadInsn_held {m p : Machine σ φ} (h : Agrees c r m p) (hc : c.Respects r)
    (hheld : heldAfter c p.log addr = some f)
    (hf : Fenced c r (p.loadInsn c addr).2.log) :
    (p.loadInsn c addr).1 = .ok f ∧ Agrees c r m (p.loadInsn c addr).2 := by
  have hlog : (p.loadInsn c addr).2 = (p.refill c addr).2 := by
    unfold Machine.loadInsn
    split <;> simp [*]
  rw [hlog] at hf ⊢
  obtain ⟨entry, hentry, hdata, hhart⟩ := hf.unchanged p.log addr p.hart [] f rfl hheld
  refine ⟨?_, ?_, fun i => ?_⟩
  · simp [Machine.loadInsn, Machine.refill, hentry, hdata]
  · rw [refill_hart]
    exact hc.equivalence.trans h.hart (hc.equivalence.symm hhart)
  · refine (h.held i).imp_right fun hi => ?_
    change heldAfter c (p.log ++ [.fetch addr p.hart]) _ = _
    rwa [heldAfter_concat, note_of_held hheld]

theorem loadInsn_log (p : Machine σ φ) (addr : UInt64) :
    (p.loadInsn c addr).2.log = p.log ++ [.fetch addr p.hart] := by
  have hlog : (p.refill c addr).2.log = p.log ++ [.fetch addr p.hart] := rfl
  unfold Machine.loadInsn
  split <;> simp_all

/-- The fast loop's lookup finds the instruction that the plain machine fetches. -/
theorem entryOf_agrees {m p : Machine σ φ} {slot : Option ℕ} {pc : UInt64} (h : Agrees c r m p)
    (hc : c.Respects r) (hslot : ∀ i, slot = some i → (m.icache i).tag = pc)
    (hf : Fenced c r (p.loadInsn c pc).2.log) :
    (∃ e, (m.entryOf c slot pc).1 = .error e ∧ (p.loadInsn c pc).1 = .error e ∧
      Agrees c r (m.entryOf c slot pc).2 (p.loadInsn c pc).2) ∨
    ∃ i, (m.entryOf c slot pc).1 = .ok i ∧
      (p.loadInsn c pc).1 = .ok ((m.entryOf c slot pc).2.icache i).data ∧
      Agrees c r (m.entryOf c slot pc).2 (p.loadInsn c pc).2 := by
  have heven : invalidPc pc = false := hf.even pc p.hart (by simp [loadInsn_log])
  -- a slot that holds this address, found or followed
  have hit : ∀ i, (m.icache i).tag = pc → (p.loadInsn c pc).1 = .ok (m.icache i).data ∧
      Agrees c r m (p.loadInsn c pc).2 := by
    intro i hi
    refine loadInsn_held h hc ?_ hf
    rcases h.held i with hk | hk
    · rw [← hi, hk, invalidPc_noTag] at heven
      cases heven
    · rwa [hi] at hk
  cases slot with
  | some i =>
    obtain ⟨hload, hagrees⟩ := hit i (hslot i rfl)
    exact .inr ⟨i, rfl, hload, hagrees⟩
  | none =>
    simp only [Machine.entryOf, Machine.accessIcache]
    split
    · rename_i htag
      obtain ⟨hload, hagrees⟩ := hit _ htag
      exact .inr ⟨_, rfl, hload, hagrees⟩
    · obtain ⟨hresult, hagrees⟩ := h.refill hc pc
      split
      · rename_i e m' hm
        rw [hm] at hresult hagrees
        refine .inl ⟨e, rfl, ?_⟩
        rcases hp : p.refill c pc with ⟨_ | _, p'⟩ <;> rw [hp] at hresult hagrees <;>
          simp_all [Machine.loadInsn]
      · rename_i entry m' hm
        rw [hm] at hresult
        rw [loadInsn_log] at hf
        have hupdate := h.update hc hf hresult.symm (icacheIndex pc)
        rw [hm] at hupdate
        refine .inr ⟨_, rfl, ?_⟩
        rcases hp : p.refill c pc with ⟨_ | _, p'⟩ <;> rw [hp] at hresult hupdate <;>
          simp_all [Machine.loadInsn]

theorem isPrefix_call (m : Machine σ φ) (x : Call σ ε α) : m.log <+: (m.call x).2.log := by
  unfold Machine.call
  dsimp only
  split
  · exact List.prefix_append _ _
  · exact List.prefix_rfl

theorem isPrefix_loadInsn (m : Machine σ φ) (addr : UInt64) :
    m.log <+: (m.loadInsn c addr).2.log := by
  rw [loadInsn_log]
  exact List.prefix_append _ _

/-- A loop that only adds to the log. -/
def Grows (loop : Core.Loop σ ε φ) : Prop :=
  ∀ k pc instret m b, loop k pc instret m = some b → m.log <+: b.machine.log

section AdvancePc

variable {loop : UInt64 → ℕ → Machine σ φ → Option (Batch σ ε φ)} {npc : UInt64} {instret : ℕ}
  {m : Machine σ φ}

theorem advancePc_before : c.advancePc pcSerializeBefore instret m loop =
    some ⟨none, c.pc m.hart, instret, { m with hart := c.setSerialized m.hart }⟩ := rfl

theorem advancePc_after : c.advancePc pcSerializeAfter instret m loop =
    some ⟨none, c.pc m.hart, instret + 1, m⟩ := rfl

theorem advancePc_valid (h : invalidPc npc = false) :
    c.advancePc npc instret m loop = loop npc (instret + 1) (m.setPc c npc) := by
  simp [Core.advancePc, h]

/-- What `advance_pc()` takes without an `abort()`. -/
theorem advancePc_cases {b : Batch σ ε φ} (h : c.advancePc npc instret m loop = some b) :
    npc = pcSerializeBefore ∨ npc = pcSerializeAfter ∨ invalidPc npc = false := by
  unfold Core.advancePc at h
  split at h
  · split at h
    · exact .inl ‹_›
    · split at h
      · exact .inr (.inl ‹_›)
      · cases h
  · exact .inr (.inr (by simpa using ‹¬invalidPc npc = true›))

theorem isPrefix_advancePc {b : Batch σ ε φ}
    (hloop : ∀ pc i m b, loop pc i m = some b → m.log <+: b.machine.log)
    (h : c.advancePc npc instret m loop = some b) : m.log <+: b.machine.log := by
  rcases advancePc_cases h with rfl | rfl | hvalid
  · cases h
    exact List.prefix_rfl
  · cases h
    exact List.prefix_rfl
  · rw [advancePc_valid hvalid] at h
    exact hloop npc (instret + 1) (m.setPc c npc) b h

end AdvancePc

/-- One turn of the loop adds to the log of its fetch. -/
theorem isPrefix_plainLoop_succ {k : ℕ} {pc : UInt64} {instret : ℕ} {m : Machine σ φ}
    {b : Batch σ ε φ}
    (hloop : ∀ pc i m b, c.plainLoop k pc i m = some b → m.log <+: b.machine.log)
    (h : c.plainLoop (k + 1) pc instret m = some b) :
    (m.loadInsn c pc).2.log <+: b.machine.log := by
  unfold Core.plainLoop at h
  split at h
  · rename_i e m₁ hm
    cases h
    rw [hm]
  · rename_i fetch m₁ hm
    rw [hm]
    have hcall := isPrefix_call m₁ (c.executeInsnFast fetch pc)
    split at h
    · rename_i e m₂ hm₂
      cases h
      rwa [hm₂] at hcall
    · rename_i npc m₂ hm₂
      rw [hm₂] at hcall
      exact hcall.trans (isPrefix_advancePc hloop h)

theorem plainLoop_grows : Grows (c.plainLoop) := by
  intro k
  induction k with
  | zero =>
    intro pc instret m b h
    cases h
    exact List.prefix_rfl
  | succ k ih =>
    intro pc instret m b h
    exact (isPrefix_loadInsn m pc).trans (isPrefix_plainLoop_succ ih h)

theorem slowLoop_grows : Grows (c.slowLoop) := by
  intro k
  induction k with
  | zero =>
    intro pc instret m b h
    cases h
    exact List.prefix_rfl
  | succ k ih =>
    intro pc instret m b h
    have hcheck := isPrefix_call m c.slowCheck
    unfold Core.slowLoop at h
    split at h
    · rename_i e m₁ hm
      cases h
      rwa [hm] at hcheck
    · rename_i m₁ hm
      cases h
      rwa [hm] at hcheck
    · rename_i m₁ hm
      rw [hm] at hcheck
      have hload := isPrefix_loadInsn (c := c) m₁ pc
      split at h
      · rename_i e m₂ hm₂
        cases h
        rw [hm₂] at hload
        exact hcheck.trans hload
      · rename_i fetch m₂ hm₂
        rw [hm₂] at hload
        have hcall := isPrefix_call m₂ (c.executeInsnLogged fetch pc)
        split at h
        · rename_i e m₃ hm₃
          cases h
          rw [hm₃] at hcall
          exact (hcheck.trans hload).trans hcall
        · rename_i npc m₃ hm₃
          rw [hm₃] at hcall
          exact ((hcheck.trans hload).trans hcall).trans (isPrefix_advancePc ih h)

structure Batch.Agrees (c : Core σ ε φ) (r : σ → σ → Prop) (b b' : Batch σ ε φ) : Prop where
  thrown : b.thrown = b'.thrown
  pc : b.pc = b'.pc
  instret : b.instret = b'.instret
  machine : Icache.Agrees c r b.machine b'.machine

/-- `loop` does on a machine with a cache what `plain` does without one. -/
def Follows (c : Core σ ε φ) (r : σ → σ → Prop)
    (loop plain : UInt64 → ℕ → Machine σ φ → Option (Batch σ ε φ)) : Prop :=
  ∀ pc instret m p b, Agrees c r m p → plain pc instret p = some b → Fenced c r b.machine.log →
    ∃ b', loop pc instret m = some b' ∧ b'.Agrees c r b

theorem advancePc_agrees {npc : UInt64} {instret : ℕ} {m p : Machine σ φ} {b : Batch σ ε φ}
    {loop plain : UInt64 → ℕ → Machine σ φ → Option (Batch σ ε φ)} (hc : c.Respects r)
    (hloop : Follows c r loop plain) (hm : Agrees c r m p) (h : c.advancePc npc instret p plain = some b)
    (hf : Fenced c r b.machine.log) :
    ∃ b', c.advancePc npc instret m loop = some b' ∧ b'.Agrees c r b := by
  rcases advancePc_cases h with rfl | rfl | hvalid
  · rw [advancePc_before] at h ⊢
    cases h
    refine ⟨_, rfl, rfl, hc.pc _ _ hm.hart, rfl, ?_⟩
    exact ⟨hc.setSerialized _ _ hm.hart, hm.held⟩
  · rw [advancePc_after] at h ⊢
    cases h
    exact ⟨_, rfl, rfl, hc.pc _ _ hm.hart, rfl, hm⟩
  · rw [advancePc_valid hvalid] at h ⊢
    exact hloop npc (instret + 1) _ _ b (hm.setPc hc npc) h hf

/-- A slot never matches the sentinel that an instruction serializes with: what it holds was
fetched, and no odd address was. -/
theorem tag_valid {m p : Machine σ φ} {i : ℕ} (h : Agrees c r m p) (hf : Fenced c r p.log)
    (htag : (m.icache i).tag ≠ noTag) : invalidPc (m.icache i).tag = false := by
  obtain ⟨s, hs⟩ := mem_of_held ((h.held i).resolve_left htag)
  exact hf.even _ s hs

/-- The fast loop, from the lookup or from an entry that it followed. -/
theorem fastLoop_agrees (hc : c.Respects r) : ∀ (k : ℕ) (slot : Option ℕ) (pc : UInt64) (instret : ℕ)
    (m p : Machine σ φ) (b : Batch σ ε φ), Agrees c r m p →
    (∀ i, slot = some i → (m.icache i).tag = pc) → c.plainLoop k pc instret p = some b →
    Fenced c r b.machine.log → ∃ b', c.fastLoop k slot pc instret m = some b' ∧ b'.Agrees c r b := by
  intro k
  induction k with
  | zero =>
    intro slot pc instret m p b hm _ h _
    cases h
    exact ⟨_, rfl, rfl, rfl, rfl, hm⟩
  | succ k ih =>
    intro slot pc instret m p b hm hslot h hf
    -- what is fetched
    have hload := isPrefix_plainLoop_succ (plainLoop_grows k) h
    unfold Core.plainLoop at h
    unfold Core.fastLoop
    rcases entryOf_agrees hm hc hslot (hf.of_isPrefix hload) with
      ⟨e, hentry, hfetch, hagrees⟩ | ⟨i, hentry, hfetch, hagrees⟩
    · rw [← Prod.eta (p.loadInsn c pc), hfetch] at h
      rw [← Prod.eta (m.entryOf c slot pc), hentry]
      cases h
      exact ⟨_, rfl, rfl, rfl, rfl, hagrees⟩
    rw [← Prod.eta (p.loadInsn c pc), hfetch] at h
    rw [← Prod.eta (m.entryOf c slot pc), hentry]
    set m₁ := (m.entryOf c slot pc).2
    set p₁ := (p.loadInsn c pc).2
    -- what is executed
    obtain ⟨hresult, hcalled⟩ := hagrees.call (hc.executeInsnFast (m₁.icache i).data pc)
    dsimp only at h ⊢
    rw [← Prod.eta (p₁.call _), ← hresult] at h
    rw [← Prod.eta (m₁.call _)]
    rcases hx : (m₁.call (c.executeInsnFast (m₁.icache i).data pc)).1 with e | npc
    · rw [hx] at h
      cases h
      exact ⟨_, rfl, rfl, rfl, rfl, hcalled⟩
    rw [hx] at h
    dsimp only at h ⊢
    set m₂ := (m₁.call (c.executeInsnFast (m₁.icache i).data pc)).2
    set p₂ := (p₁.call (c.executeInsnFast (m₁.icache i).data pc)).2
    split
    · rename_i hnext
      have hf₂ := hf.of_isPrefix (isPrefix_advancePc (plainLoop_grows k) h)
      have hvalid : invalidPc npc = false := by
        by_cases htag : (m₂.icache (m₂.icache i).next).tag = noTag
        · have habort := advancePc_cases h
          rw [← hnext.1, htag] at habort
          exact absurd habort (by decide)
        · rw [← hnext.1]
          exact tag_valid hcalled hf₂ htag
      rw [advancePc_valid hvalid] at h
      refine ih _ npc (instret + 1) _ _ b (hcalled.setPc hc npc) ?_ h hf
      intro j hj
      cases hj
      exact hnext.1
    · refine advancePc_agrees hc ?_ hcalled h hf
      intro pc' instret' m' p' b' hm' h' hf'
      exact ih none pc' instret' m' p' b' hm' (by simp) h' hf'

theorem loadInsn_agrees {m p : Machine σ φ} (h : Agrees c r m p) (hc : c.Respects r) (addr : UInt64) :
    ∃ fetch m' p', m.loadInsn c addr = (fetch, m') ∧ p.loadInsn c addr = (fetch, p') ∧
      Agrees c r m' p' := by
  obtain ⟨hresult, hagrees⟩ := h.refill hc addr
  unfold Machine.loadInsn
  rcases hm : m.refill c addr with ⟨entry, m'⟩
  rcases hp : p.refill c addr with ⟨entry', p'⟩
  rw [hm, hp] at hresult hagrees
  obtain rfl : entry = entry' := hresult
  cases entry with
  | error e => exact ⟨_, m', p', rfl, rfl, hagrees⟩
  | ok entry => exact ⟨_, m', p', rfl, rfl, hagrees⟩

theorem slowLoop_agrees (hc : c.Respects r) (k : ℕ) : Follows c r (c.slowLoop k) (c.slowLoop k) := by
  induction k with
  | zero =>
    intro pc instret m p b hm h _
    cases h
    exact ⟨_, rfl, rfl, rfl, rfl, hm⟩
  | succ k ih =>
    intro pc instret m p b hm h hf
    unfold Core.slowLoop at h ⊢
    obtain ⟨check, m₁, p₁, hm₁, hp₁, h₁⟩ := hm.call_eq hc.slowCheck
    rw [hp₁] at h
    rw [hm₁]
    rcases check with e | ⟨_ | _⟩
    · cases h
      exact ⟨_, rfl, rfl, rfl, rfl, h₁⟩
    · cases h
      exact ⟨_, rfl, rfl, rfl, rfl, h₁⟩
    obtain ⟨fetched, m₂, p₂, hm₂, hp₂, h₂⟩ := loadInsn_agrees h₁ hc pc
    simp only [hp₂] at h
    simp only [hm₂]
    rcases fetched with e | fetch
    · cases h
      exact ⟨_, rfl, rfl, rfl, rfl, h₂⟩
    obtain ⟨executed, m₃, p₃, hm₃, hp₃, h₃⟩ := h₂.call_eq (hc.executeInsnLogged fetch pc)
    simp only [hp₃] at h
    simp only [hm₃]
    rcases executed with e | npc
    · cases h
      exact ⟨_, rfl, rfl, rfl, rfl, h₃⟩
    · exact advancePc_agrees hc ih h₃ h hf

theorem isPrefix_catchThrown (n : ℕ) (b : Batch σ ε φ) :
    b.machine.log <+: (c.catchThrown n b).2.2.log := by
  unfold Core.catchThrown
  split
  · exact List.prefix_rfl
  · rename_i e _
    have hcall := isPrefix_call b.machine (Call.effect (ε := ε) (c.handle e b.pc))
    dsimp only
    split <;> exact hcall

theorem catchThrown_agrees {b b' : Batch σ ε φ} (h : b'.Agrees c r b) (hc : c.Respects r) (n : ℕ) :
    (c.catchThrown n b').1 = (c.catchThrown n b).1 ∧
    (c.catchThrown n b').2.1 = (c.catchThrown n b).2.1 ∧
    Agrees c r (c.catchThrown n b').2.2 (c.catchThrown n b).2.2 := by
  unfold Core.catchThrown
  rw [h.thrown, h.pc, h.instret]
  rcases b.thrown with _ | e
  · exact ⟨rfl, rfl, h.machine⟩
  · dsimp only
    have hcall := (h.machine.call (hc.handle e b.pc)).2
    rcases c.kind e with _ | _ | _
    · exact ⟨rfl, rfl, hcall⟩
    · exact ⟨rfl, rfl, hcall⟩
    · exact ⟨rfl, rfl, hcall⟩

def batch (c : Core σ ε φ) (loop : Core.Loop σ ε φ) (n : ℕ) (m : Machine σ φ) :
    Option (Batch σ ε φ) :=
  match m.call c.takePendingInterrupt with
  | (.error e, m') => some ⟨some e, c.pc m.hart, 0, m'⟩
  | (.ok (), m') =>
    if c.slowPath m'.hart then c.slowLoop n (c.pc m.hart) 0 m' else loop n (c.pc m.hart) 0 m'

def closed (c : Core σ ε φ) (n : ℕ) (b : Batch σ ε φ) : ℕ × Machine σ φ :=
  ((c.catchThrown n b).1 - (c.catchThrown n b).2.1,
    { (c.catchThrown n b).2.2 with
      hart := c.bump (c.catchThrown n b).2.1 (c.catchThrown n b).2.2.hart })

theorem turn_eq (loop : Core.Loop σ ε φ) (n : ℕ) (m : Machine σ φ) :
    c.turn loop n m = (batch c loop n m).map (closed c n) := by
  unfold Core.turn batch
  rcases m.call c.takePendingInterrupt with ⟨e | ⟨⟩, m'⟩
  · rfl
  · dsimp only
    split
    · rcases c.slowLoop n (c.pc m.hart) 0 m' with _ | b
      · rfl
      · rfl
    · rcases loop n (c.pc m.hart) 0 m' with _ | b
      · rfl
      · rfl

theorem batch_grows {loop : Core.Loop σ ε φ} (hloop : Grows loop) {n : ℕ} {m : Machine σ φ}
    {b : Batch σ ε φ} (h : batch c loop n m = some b) : m.log <+: b.machine.log := by
  have hcall := isPrefix_call m c.takePendingInterrupt
  unfold batch at h
  split at h
  · rename_i e m' hm'
    cases h
    rwa [hm'] at hcall
  · rename_i m' hm'
    rw [hm'] at hcall
    split at h
    · exact hcall.trans (slowLoop_grows _ _ _ _ _ h)
    · exact hcall.trans (hloop _ _ _ _ _ h)

theorem batch_agrees {loop plain : Core.Loop σ ε φ} (hc : c.Respects r)
    (hloop : ∀ k, Follows c r (loop k) (plain k))
    {n : ℕ} {m p : Machine σ φ} {b : Batch σ ε φ} (hm : Agrees c r m p)
    (h : batch c plain n p = some b) (hf : Fenced c r b.machine.log) :
    ∃ b', batch c loop n m = some b' ∧ b'.Agrees c r b := by
  obtain ⟨r, m', p', hm', hp', h'⟩ := hm.call_eq hc.takePendingInterrupt
  unfold batch at h ⊢
  rw [hp'] at h
  rw [hm', hc.pc _ _ hm.hart]
  rcases r with e | ⟨⟩
  · cases h
    exact ⟨_, rfl, rfl, rfl, rfl, h'⟩
  dsimp only at h ⊢
  rw [hc.slowPath _ _ h'.hart]
  split at h
  · rename_i hslow
    rw [if_pos hslow]
    exact slowLoop_agrees hc n _ 0 _ _ b h' h hf
  · rename_i hslow
    rw [if_neg hslow]
    exact hloop n _ 0 _ _ b h' h hf

theorem isPrefix_closed (n : ℕ) (b : Batch σ ε φ) :
    b.machine.log <+: (closed c n b).2.log := isPrefix_catchThrown n b

theorem step_grows {loop : Core.Loop σ ε φ} (hloop : Grows loop) :
    ∀ (fuel n : ℕ) (m m' : Machine σ φ), c.step loop fuel n m = some m' → m.log <+: m'.log := by
  intro fuel
  induction fuel with
  | zero =>
    intro n m m' h
    cases n with
    | zero =>
      cases h
      exact List.prefix_rfl
    | succ n => cases h
  | succ fuel ih =>
    intro n m m' h
    cases n with
    | zero =>
      cases h
      exact List.prefix_rfl
    | succ n =>
      simp only [Core.step, turn_eq, Option.bind_eq_bind, Option.bind_map, Option.bind_eq_some_iff]
        at h
      obtain ⟨b, hb, hstep⟩ := h
      exact ((batch_grows hloop hb).trans (isPrefix_closed _ b)).trans (ih _ _ _ hstep)

theorem step_agrees {loop plain : Core.Loop σ ε φ} (hc : c.Respects r)
    (hloop : ∀ k, Follows c r (loop k) (plain k))
    (hplain : Grows plain) :
    ∀ (fuel n : ℕ) (m p p' : Machine σ φ), Agrees c r m p → c.step plain fuel n p = some p' →
      Fenced c r p'.log → ∃ m', c.step loop fuel n m = some m' ∧ Agrees c r m' p' := by
  intro fuel
  induction fuel with
  | zero =>
    intro n m p p' hm h _
    cases n with
    | zero =>
      cases h
      exact ⟨m, rfl, hm⟩
    | succ n => cases h
  | succ fuel ih =>
    intro n m p p' hm h hf
    cases n with
    | zero =>
      cases h
      exact ⟨m, rfl, hm⟩
    | succ n =>
      simp only [Core.step, turn_eq, Option.bind_eq_bind, Option.bind_map,
        Option.bind_eq_some_iff] at h ⊢
      obtain ⟨b, hb, hstep⟩ := h
      have hf₁ := hf.of_isPrefix (step_grows hplain _ _ _ _ hstep)
      obtain ⟨b', hb', hagrees⟩ := batch_agrees hc hloop hm hb (hf₁.of_isPrefix (isPrefix_closed _ b))
      obtain ⟨hn, hinstret, hcatch⟩ := catchThrown_agrees hagrees hc (n + 1)
      have hclosed : Agrees c r (closed c (n + 1) b').2 (closed c (n + 1) b).2 := by
        refine ⟨?_, hcatch.held⟩
        simp only [closed]
        rw [hinstret]
        exact hc.bump _ _ _ hcatch.hart
      have hleft : (closed c (n + 1) b').1 = (closed c (n + 1) b).1 := by
        simp only [closed]
        rw [hn, hinstret]
      obtain ⟨m', hm', hagrees'⟩ := ih _ _ _ _ hclosed hstep hf
      refine ⟨m', ⟨b', hb', ?_⟩, hagrees'⟩
      simp only [Function.comp_apply]
      rw [hleft]
      exact hm'

theorem exec_grows {loop : Core.Loop σ ε φ} (hloop : Grows loop) {m m' : Machine σ φ}
    {e : Core.Event σ} (h : c.exec loop m e = some m') : m.log <+: m'.log := by
  cases e with
  | step fuel n => exact step_grows hloop fuel n m m' h
  | outside change =>
    cases h
    exact isPrefix_call m _

theorem run_grows {loop : Core.Loop σ ε φ} (hloop : Grows loop) :
    ∀ (es : List (Core.Event σ)) (m m' : Machine σ φ), c.run loop m es = some m' →
      m.log <+: m'.log := by
  intro es
  induction es with
  | nil =>
    intro m m' h
    cases h
    exact List.prefix_rfl
  | cons e es ih =>
    intro m m' h
    simp only [Core.run, List.foldlM_cons, Option.bind_eq_bind, Option.bind_eq_some_iff] at h
    obtain ⟨m₁, hexec, hrun⟩ := h
    exact (exec_grows hloop hexec).trans (ih m₁ m' hrun)

theorem run_agrees {loop plain : Core.Loop σ ε φ} (hc : c.Respects r)
    (hloop : ∀ k, Follows c r (loop k) (plain k)) (hplain : Grows plain) :
    ∀ (es : List (Core.Event σ)) (m p p' : Machine σ φ),
      (∀ change, .outside change ∈ es → (Call.effect (ε := ε) change).Respects r) →
      Agrees c r m p → c.run plain p es = some p' → Fenced c r p'.log →
        ∃ m', c.run loop m es = some m' ∧ Agrees c r m' p' := by
  intro es
  induction es with
  | nil =>
    intro m p p' _ hm h _
    cases h
    exact ⟨m, rfl, hm⟩
  | cons e es ih =>
    intro m p p' hout hm h hf
    simp only [Core.run, List.foldlM_cons, Option.bind_eq_bind, Option.bind_eq_some_iff] at h ⊢
    obtain ⟨p₁, hexec, hrun⟩ := h
    have hf₁ := hf.of_isPrefix (run_grows hplain es p₁ p' hrun)
    obtain ⟨m₁, hm₁, h₁⟩ : ∃ m₁, c.exec loop m e = some m₁ ∧ Agrees c r m₁ p₁ := by
      cases e with
      | step fuel n => exact step_agrees hc hloop hplain fuel n m p p₁ hm hexec hf₁
      | outside change =>
        cases hexec
        exact ⟨_, rfl, (hm.call (hout change List.mem_cons_self)).2⟩
    obtain ⟨m', hm', h'⟩ := ih m₁ p₁ p'
      (fun change hmem => hout change (List.mem_cons_of_mem _ hmem)) h₁ hrun hf
    exact ⟨m', ⟨m₁, hm₁, hm'⟩, h'⟩

/-- For every hart, whatever its instructions, interrupts, triggers and catch clauses do, every
relation of harts that none of them can tell apart, and every sequence of `step` calls and
changes from outside: if fetching every instruction anew gets through, and fetching one again
without a fence between yields the same instruction and a related hart, then the fast loop
with the instruction cache gets through as well and leaves a related hart, with the same
`pc`. -/
theorem icache_is_transparent (c : Core σ ε φ) (r : σ → σ → Prop) (hc : c.Respects r) (s : σ)
    (icache : ℕ → IcacheEntry φ) (es : List (Core.Event σ))
    (hout : ∀ change, .outside change ∈ es → (Call.effect (ε := ε) change).Respects r)
    (p : Machine σ φ) (hp : c.run c.plainLoop (.new s icache) es = some p)
    (hf : Fenced c r p.log) :
    ∃ m, c.run (fun n => c.fastLoop n none) (.new s icache) es = some m ∧ r m.hart p.hart ∧
      c.pc m.hart = c.pc p.hart := by
  have hloop : ∀ k, Follows c r (c.fastLoop k none) (c.plainLoop k) := by
    intro k pc instret m p b hm h hf
    exact fastLoop_agrees hc k none pc instret m p b hm (by simp) h hf
  have hnew : Agrees c r (Machine.new s icache) (Machine.new s icache) :=
    ⟨hc.equivalence.refl s, fun _ => .inl rfl⟩
  obtain ⟨m, hm, hagrees⟩ := run_agrees hc hloop plainLoop_grows es _ _ p hout hnew hp hf
  exact ⟨m, hm, hagrees.hart, hc.pc _ _ hagrees.hart⟩

/-- `c.addi` at address 0 and a jump back to it at address 2, on a hart that counts. Its third
member is what a fetch leaves in the TLB. -/
def counting : Core (UInt64 × ℕ × ℕ) Unit Unit where
  pc s := s.1
  setPc pc s := (pc, s.2)
  setSerialized s := s
  takePendingInterrupt := Call.pure ()
  slowPath _ := false
  slowCheck := Call.pure true
  executeInsnLogged _ pc := Call.pure pc
  matchedTrigger _ := none
  translateInsnAddr addr s :=
    ⟨.ok (if addr = 0 then 0x0505 else 0xbffd, addr), (s.1, s.2.1, s.2.2 + 1), false⟩
  decodeInsn _ s := ((), s)
  interested _ _ := false
  trace _ _ s := s
  executeInsnFast fetch pc s :=
    if fetch.insn = 0x0505 then ⟨.ok (pc + 2), (s.1, s.2.1 + 1, s.2.2), false⟩
    else ⟨.ok (pc - 2), s, false⟩
  kind _ := .trap
  handle _ _ s := (s, false)
  bump _ s := s

def SameCount (s t : UInt64 × ℕ × ℕ) : Prop := s.1 = t.1 ∧ s.2.1 = t.2.1

theorem counting_respects : counting.Respects SameCount where
  equivalence := ⟨fun _ => ⟨rfl, rfl⟩, fun h => ⟨h.1.symm, h.2.symm⟩,
    fun h h' => ⟨h.1.trans h'.1, h.2.trans h'.2⟩⟩
  pc _ _ h := h.1
  setPc _ _ _ h := ⟨rfl, h.2⟩
  setSerialized _ _ h := h
  takePendingInterrupt := Call.respects_pure _
  slowPath _ _ _ := rfl
  slowCheck := Call.respects_pure _
  executeInsnLogged _ _ := Call.respects_pure _
  matchedTrigger _ _ _ := rfl
  translateInsnAddr _ _ _ h := ⟨rfl, h, rfl⟩
  decodeInsn _ _ _ h := ⟨rfl, h⟩
  interested _ _ _ _ := rfl
  trace _ _ _ _ h := h
  executeInsnFast fetch pc s t h := by
    simp only [counting]
    split_ifs
    · exact ⟨rfl, ⟨h.1, congrArg (· + 1) h.2⟩, rfl⟩
    · exact ⟨rfl, h, rfl⟩
  handle _ _ _ _ h := ⟨rfl, h, rfl⟩
  bump _ _ _ h := h

theorem counting_refillIcache (addr : UInt64) :
    ∃ entry, ∀ s, (counting.refillIcache addr s).result = .ok entry ∧
      SameCount (counting.refillIcache addr s).hart s := by
  by_cases haddr : addr = 0
  · subst haddr
    exact ⟨⟨0, icacheIndex (0 + UInt64.ofNat 2), (), 0x0505⟩, fun s => ⟨rfl, rfl, rfl⟩⟩
  · refine ⟨⟨addr, icacheIndex (addr + UInt64.ofNat 2), (), 0xbffd⟩, fun s => ?_⟩
    have htranslate : counting.translateInsnAddr addr =
        fun s => ⟨.ok (0xbffd, addr), (s.1, s.2.1, s.2.2 + 1), false⟩ := by
      funext s
      simp [counting, haddr]
    unfold Core.refillIcache
    rw [htranslate]
    exact ⟨rfl, rfl, rfl⟩

theorem counting_held {log : List (Fetched (UInt64 × ℕ × ℕ))} {addr : UInt64}
    {f : InsnFetch Unit} (h : heldAfter counting log addr = some f) :
    ∀ s, ∃ entry, (counting.refillIcache addr s).result = .ok entry ∧ entry.data = f := by
  obtain ⟨entry, hentry⟩ := counting_refillIcache addr
  intro s
  refine ⟨entry, (hentry s).1, ?_⟩
  induction log using List.reverseRecOn with
  | nil => cases h
  | append_singleton log e ih =>
    rw [heldAfter_concat] at h
    cases e with
    | flush => cases h
    | fetch a t =>
      by_cases ha : addr = a
      · subst ha
        cases hbefore : heldAfter counting log addr with
        | some g => exact ih (by rwa [note_of_held hbefore] at h)
        | none =>
          simp only [note, hbefore, cached, (hentry t).1] at h
          simp only [Option.isSome_none, Bool.false_eq_true, if_false, if_true,
            Option.ite_none_right_eq_some, Option.some.injEq] at h
          exact h.2
      · exact ih (held_of_note ha h)

/-- Five instructions of the loop, in two calls: the jump is fetched once and followed twice,
so fewer fetches are made than without the cache. -/
theorem icache_is_transparent_counting :
    ∃ m, counting.run (fun n => counting.fastLoop n none) (.new (0, 0, 0) fun _ => ⟨0, 0, (), 0⟩)
      [.step 1 3, .step 1 2] = some m ∧ SameCount m.hart (2, 3, 5) ∧
      counting.pc m.hart = counting.pc (2, 3, 5) := by
  refine icache_is_transparent counting SameCount counting_respects (0, 0, 0)
    (fun _ => ⟨0, 0, (), 0⟩) [.step 1 3, .step 1 2] (by simp)
    ⟨(2, 3, 5), _, [.fetch 0 (0, 0, 0), .fetch 2 (2, 1, 1), .fetch 0 (0, 1, 2),
      .fetch 2 (2, 2, 3), .fetch 0 (0, 2, 4)]⟩ rfl ⟨?_, ?_⟩
  · intro addr s h
    simp only [List.mem_cons, Fetched.fetch.injEq, List.not_mem_nil, or_false] at h
    obtain ⟨rfl, -⟩ | ⟨rfl, -⟩ | ⟨rfl, -⟩ | ⟨rfl, -⟩ | ⟨rfl, -⟩ := h <;> decide
  · intro before addr s after f _ hheld
    obtain ⟨entry, hentry, hdata⟩ := counting_held hheld s
    obtain ⟨_, hsame⟩ := counting_refillIcache addr
    exact ⟨entry, hentry, hdata, (hsame s).2⟩

end PerceptronSoc.Icache
