import PerceptronSoc.Proofs.TileRun

/-! No dirty data is lost: a line leaves `DIRTY` only through the writeback queue, the
queue is first in first out, and what `dcache_c` sends for a dirty line carries its
bytes. -/

namespace PerceptronSoc.Tile

def appended (t : Tile) : Call → List Writeback
  | .dcacheC => []
  | c => (t.exec c).wbq.drop t.wbq.length

def emitted (t : Tile) : Call → Option CMessage
  | .dcacheC => t.dcacheC.1
  | _ => none

def queuedLog (t : Tile) : List Call → List Writeback
  | [] => []
  | c :: cs => t.appended c ++ (t.exec c).queuedLog cs

def sentLog (t : Tile) : List Call → List CMessage
  | [] => []
  | c :: cs => (t.emitted c).toList ++ (t.exec c).sentLog cs

/-- A message answers for an entry: its block, and for a dirty line its bytes under the
parameter of the step down from the old state. -/
structure Carries (e : Writeback) (msg : CMessage) : Prop where
  address : msg.address = blockOf e.line.addr * 64
  voluntary : msg.voluntary = e.voluntary
  dirty : e.line.state = .dirty → msg.hasData = true ∧ msg.data = e.line.data ∧
    (e.desired = .trunk ∧ msg.param = 3 ∨ e.desired = .branch ∧ msg.param = 0 ∨
      e.desired = .none ∧ msg.param = 1)

theorem message_carries {e : Writeback} (hd : e.desired ≠ .dirty) (source : ℕ) :
    Carries e (Writeback.message e source) := by
  refine ⟨?_, ?_, fun hst => ?_⟩
  · simp only [Writeback.message]
  · simp only [Writeback.message]
  · unfold Writeback.message
    rw [hst]
    cases hdes : e.desired with
    | dirty => exact absurd hdes hd
    | trunk => exact ⟨rfl, rfl, .inl ⟨rfl, rfl⟩⟩
    | branch => exact ⟨rfl, rfl, .inr (.inl ⟨rfl, rfl⟩)⟩
    | none => exact ⟨rfl, rfl, .inr (.inr ⟨rfl, rfl⟩)⟩

variable {t t₀ : Tile} {cfg : TileConfig} {cs : List Call}

theorem Run.eq_foldl (hr : Run t₀ cs t) : t = cs.foldl exec t₀ := by
  induction hr with
  | nil => rfl
  | snoc _ _ ih => rw [List.foldl_append, ← ih]; rfl

theorem queuedLog_snoc (t : Tile) (cs : List Call) (c : Call) :
    t.queuedLog (cs ++ [c]) = t.queuedLog cs ++ (cs.foldl exec t).appended c := by
  induction cs generalizing t with
  | nil => simp [queuedLog]
  | cons c' cs ih => simp [queuedLog, ih]

theorem sentLog_snoc (t : Tile) (cs : List Call) (c : Call) :
    t.sentLog (cs ++ [c]) = t.sentLog cs ++ ((cs.foldl exec t).emitted c).toList := by
  induction cs generalizing t with
  | nil => simp [sentLog]
  | cons c' cs ih => simp [sentLog, ih]

theorem Effect.appends {d d' : CacheUnit} {q q' : List Writeback} {k : Kind}
    (he : Effect d q d' q' k) :
    ∃ es, q' = q ++ es ∧ ∀ e ∈ es, e.desired ≠ .dirty := by
  have hsame : ∃ es, q = q ++ es ∧ ∀ e ∈ es, Writeback.desired e ≠ .dirty := ⟨[], by simp⟩
  cases he with
  | same hd hq => exact hq ▸ hsame
  | upgrade addr way hhit hst hb hd hq => exact hq ▸ hsame
  | replace addr way type hhit hb hs hw ht hd hq =>
    split at hq
    · exact ⟨_, hq, by simp⟩
    · exact hq ▸ hsame
  | write addr way bytes hhit hst hd hq => exact hq ▸ hsame
  | send id m hs hq => exact hq ▸ hsame
  | probeMiss address source desired hne hd hq => exact ⟨_, hq, by simpa using hne⟩
  | probe address source way desired state hne hhit hst hto hd hq =>
    exact ⟨_, hq, by simpa using hne⟩
  | grant id state data hlt hv hst hd hq => exact hq ▸ hsame

theorem appended_eq {c : Call} (hc : c ≠ .dcacheC) {es : List Writeback}
    (h : (t.exec c).wbq = t.wbq ++ es) : t.appended c = es := by
  have : t.appended c = (t.exec c).wbq.drop t.wbq.length := by
    cases c <;> first | rfl | exact absurd rfl hc
  rw [this, h, List.drop_left]

/-- What was queued is what was sent, then what still waits. -/
structure Fifo (t₀ : Tile) (cs : List Call) (t : Tile) : Prop where
  order : ∃ sent, t₀.queuedLog cs = sent ++ t.wbq ∧ List.Forall₂ Carries sent (t₀.sentLog cs)
  desired : ∀ e ∈ t.wbq, e.desired ≠ .dirty

theorem Fifo.snoc (hf : Fifo t₀ cs t) (ht : t = cs.foldl exec t₀) {c : Call}
    (he : c ≠ .dcacheC → Effect t.dcache t.wbq (t.exec c).dcache (t.exec c).wbq (t.kind c)) :
    Fifo t₀ (cs ++ [c]) (t.exec c) := by
  obtain ⟨sent, hq, hs⟩ := hf.order
  have hql := queuedLog_snoc t₀ cs c
  have hsl := sentLog_snoc t₀ cs c
  rw [← ht] at hql hsl
  by_cases hc : c = .dcacheC
  · subst hc
    rcases hC : t.dcacheC_cases with he | ⟨e, rest, source, ids, hw, he⟩
    · have hx : t.exec .dcacheC = t := by simp only [exec, he]
      have hm : t.emitted .dcacheC = none := by simp only [emitted, he]
      rw [hx]
      refine ⟨⟨sent, ?_, ?_⟩, hf.desired⟩
      · rw [hql, hq]
        simp [appended]
      · rw [hsl, hm]
        simpa using hs
    · have hx : (t.exec .dcacheC).wbq = rest := by simp only [exec, he]
      have hm : t.emitted .dcacheC = some (Writeback.message e source) := by
        simp only [emitted, he]
      have hne : e.desired ≠ .dirty := hf.desired e (hw ▸ List.mem_cons_self)
      refine ⟨⟨sent ++ [e], ?_, ?_⟩, ?_⟩
      · rw [hql, hq, hw, hx]
        simp [appended]
      · rw [hsl, hm]
        exact List.rel_append hs (List.Forall₂.cons (message_carries hne source) List.Forall₂.nil)
      · intro e' he'
        rw [hx] at he'
        exact hf.desired e' (hw ▸ List.mem_cons_of_mem e he')
  · obtain ⟨es, hes, hd⟩ := (he hc).appends
    have hm : t.emitted c = none := by
      cases c <;> first | rfl | exact absurd rfl hc
    refine ⟨⟨sent, ?_, ?_⟩, ?_⟩
    · rw [hql, hq, appended_eq hc hes, hes, List.append_assoc]
    · rw [hsl, hm]
      simpa using hs
    · intro e he'
      rw [hes] at he'
      rcases List.mem_append.mp he' with h | h
      · exact hf.desired e h
      · exact hd e h

theorem run_fifo (hw : 0 < cfg.icacheWays ∧ 0 < cfg.dcacheWays) (hr : Run (Tile.new cfg) cs t) :
    Fifo (Tile.new cfg) cs t := by
  induction hr with
  | nil => exact ⟨⟨[], rfl, List.Forall₂.nil⟩, by simp [Tile.new]⟩
  | snoc hr hl ih =>
    have hi := run_inv hw hr
    exact ih.snoc hr.eq_foldl fun hc => exec_effect hi.clean (hi.ways_pos hw).2 hl hc

end PerceptronSoc.Tile
