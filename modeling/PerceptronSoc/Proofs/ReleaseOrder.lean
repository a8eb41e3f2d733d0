import PerceptronSoc.Proofs.Writeback

/-! When an Acquire may overtake a Release. A queued writeback keeps its block from being
requested again, but `dcache_c` forgets the block as it sends the Release, and only the
source id waits for the acknowledgement. -/

namespace PerceptronSoc.Tile

structure Release where
  source : ℕ
  block : ℕ
deriving DecidableEq

def track (t : Tile) (rs : List Release) : Call → List Release
  | .dcacheC =>
    match t.dcacheC.1 with
    | some msg => if msg.voluntary then rs ++ [⟨msg.source, blockOf msg.address⟩] else rs
    | none => rs
  | .dcacheD source _ _ false => rs.filter fun r => r.source != source
  | _ => rs

/-- The Releases of a run that `dcache_d` has not acknowledged. -/
def unacknowledged (t : Tile) (rs : List Release) : List Call → List Release
  | [] => rs
  | c :: cs => (t.exec c).unacknowledged (t.track rs c) cs

theorem unacknowledged_snoc (t : Tile) (rs : List Release) (cs : List Call) (c : Call) :
    t.unacknowledged rs (cs ++ [c]) = (cs.foldl exec t).track (t.unacknowledged rs cs) c := by
  induction cs generalizing t rs with
  | nil => rfl
  | cons c' cs ih => exact ih (t.exec c') (t.track rs c')

/-- The address a call looks up in the data cache, if it gets that far. -/
def wanted (t : Tile) : Call → Option ℕ
  | .access (.load addr len) _ => if scanStq addr len t.stq = .pass then some addr else none
  | .access (.store addr _) _ => some addr
  | .drainStq _ => t.stq.head?.map StqEntry.addr
  | _ => none

/-- The call does not miss on a block whose Release is unacknowledged, unless one of the
tests for a busy block or a busy set turns the miss down. -/
def Patient (t : Tile) (rs : List Release) (c : Call) : Prop :=
  ∀ addr ∈ t.wanted c, (∃ r ∈ rs, r.block = blockOf addr) →
    t.dcache.blockBusy t.wbq addr = true ∨ t.dcache.setBusy addr = true

def AllPatient (t : Tile) (rs : List Release) : List Call → Prop
  | [] => True
  | c :: cs => t.Patient rs c ∧ (t.exec c).AllPatient (t.track rs c) cs

instance (t : Tile) (rs : List Release) (c : Call) : Decidable (t.Patient rs c) :=
  inferInstanceAs (Decidable (∀ addr ∈ t.wanted c, (∃ r ∈ rs, r.block = blockOf addr) →
    t.dcache.blockBusy t.wbq addr = true ∨ t.dcache.setBusy addr = true))

instance decidableAllPatient :
    (t : Tile) → (rs : List Release) → (cs : List Call) → Decidable (t.AllPatient rs cs)
  | _, _, [] => isTrue trivial
  | t, rs, c :: cs =>
    have := decidableAllPatient (t.exec c) (t.track rs c) cs
    inferInstanceAs (Decidable (t.Patient rs c ∧ (t.exec c).AllPatient (t.track rs c) cs))

theorem allPatient_snoc (t : Tile) (rs : List Release) (cs : List Call) (c : Call) :
    t.AllPatient rs (cs ++ [c]) ↔
      t.AllPatient rs cs ∧ (cs.foldl exec t).Patient (t.unacknowledged rs cs) c := by
  induction cs generalizing t rs with
  | nil => simp [AllPatient, unacknowledged]
  | cons c' cs ih =>
    rw [List.cons_append, AllPatient, AllPatient, ih, and_assoc]
    rfl

variable {t t₀ : Tile} {cfg : TileConfig} {cs : List Call} {c : Call} {rs : List Release} {b : ℕ}

theorem dcacheMiss_outstanding {addr way : ℕ} {type : Transfer} {upgrade : Option ℕ}
    {m : CacheMiss} (hm : m ∈ (t.dcacheMiss addr type upgrade way).dcache.outstanding) :
    m ∈ t.dcache.outstanding ∨ m.addr = addr ∧ t.dcache.blockBusy t.wbq addr = false ∧
      (upgrade = none → t.dcache.setBusy addr = false) := by
  -- both kinds of miss clear a line and join the queue
  have hnew : ∀ {w : ℕ} {m' : CacheMiss}, m'.addr = addr →
      m ∈ ((t.dcache.setState w (t.dcache.setIdx addr) .none).enqueue m').outstanding →
      m ∈ t.dcache.outstanding ∨ m.addr = addr := by
    intro w m' ha h
    rcases List.mem_cons.mp ((CacheUnit.outstanding_enqueue _ m').mem_iff.mp h) with rfl | h
    · exact .inr ha
    · exact .inl h
  unfold dcacheMiss at hm
  rcases t.dcache.miss_cases t.wbq addr type upgrade way with he | ⟨hb, w, hup, he⟩ |
    ⟨hb, hs, hup, he⟩ <;> rw [he] at hm
  · exact .inl hm
  · refine (hnew rfl hm).imp_right fun ha => ⟨ha, hb, fun h => ?_⟩
    rw [hup] at h
    cases h
  · exact (hnew rfl hm).imp_right fun ha => ⟨ha, hb, fun _ => hs⟩

/-- A miss that a call adds is for the address it wanted, and no test turned it down. -/
def Requested (t : Tile) (addr : ℕ) : Prop :=
  t.dcache.blockBusy t.wbq addr = false ∧
    (t.dcache.hitWay addr = none → t.dcache.setBusy addr = false)

theorem load_outstanding {addr len rand : ℕ} {m : CacheMiss}
    (hm : m ∈ (t.load addr len rand).2.dcache.outstanding) :
    m ∈ t.dcache.outstanding ∨
      scanStq addr len t.stq = .pass ∧ m.addr = addr ∧ t.Requested addr := by
  unfold load at hm
  split at hm
  · exact .inl hm
  · exact .inl hm
  · next hs =>
    split at hm
    · exact .inl hm
    · refine (dcacheMiss_outstanding hm).imp_right ?_
      rintro ⟨ha, hb, hset⟩
      exact ⟨hs, ha, hb, fun _ => hset rfl⟩

theorem store_outstanding {addr rand : ℕ} {bytes : List UInt8} {m : CacheMiss}
    (hm : m ∈ (t.store addr bytes rand).2.dcache.outstanding) :
    m ∈ t.dcache.outstanding ∨ m.addr = addr ∧ t.Requested addr := by
  rcases t.store_cases addr bytes rand with ⟨way, hh, hst, he⟩ | ⟨way, hh, hst, he⟩ | ⟨hh, he⟩ <;>
    rw [he] at hm
  · exact .inl hm
  · refine (dcacheMiss_outstanding hm).imp_right ?_
    rintro ⟨ha, hb, -⟩
    refine ⟨ha, hb, fun hnone => ?_⟩
    rw [hh] at hnone
    cases hnone
  · refine (dcacheMiss_outstanding hm).imp_right ?_
    rintro ⟨ha, hb, hset⟩
    exact ⟨ha, hb, fun _ => hset rfl⟩

theorem exec_outstanding (hi : t.dcache.Inv) (hl : t.Legal c) {m : CacheMiss}
    (hm : m ∈ (t.exec c).dcache.outstanding) :
    m ∈ t.dcache.outstanding ∨ t.wanted c = some m.addr ∧ t.Requested m.addr := by
  cases c with
  | access a rand =>
    cases a with
    | fetch addr len =>
      simp only [exec, handleCacheAccess, fetch] at hm
      split at hm <;> exact .inl hm
    | load addr len =>
      refine (load_outstanding hm).imp_right ?_
      rintro ⟨hs, rfl, hr⟩
      exact ⟨by simp [wanted, hs], hr⟩
    | store addr bytes =>
      refine (store_outstanding hm).imp_right ?_
      rintro ⟨rfl, hr⟩
      exact ⟨rfl, hr⟩
  | drainStq rand =>
    simp only [exec] at hm
    rcases t.drainStq_eq rand with ⟨-, he⟩ | ⟨s, rest, hs, he⟩ <;> rw [he] at hm
    · exact .inl hm
    · refine (store_outstanding hm).imp_right ?_
      rintro ⟨ha, hr⟩
      exact ⟨by simp [wanted, hs, ha], ha ▸ hr⟩
  | dcacheA =>
    simp only [exec, dcacheA] at hm
    split at hm
    · next id m' u hs => exact .inl ((hi.send hs).2.mem_iff.mp hm)
    · exact .inl hm
  | dcacheB address source param =>
    simp only [exec, dcacheB] at hm
    split at hm <;> exact .inl hm
  | dcacheC =>
    rw [dcacheC_dcache] at hm
    exact .inl hm
  | dcacheD id data hasData grantack =>
    cases grantack with
    | false => exact .inl hm
    | true =>
      have hperm := (hi.fill hl.1 hl.2 (if (t.dcache.inflight id).type = .nToB then .branch else
        .trunk) (if hasData then some data else none)).2
      exact .inl (hperm.mem_iff.mpr (List.mem_cons_of_mem _ hm))
  | icacheA =>
    simp only [exec, icacheA] at hm
    split at hm <;> exact .inl hm
  | mmioStore addr bytes => exact .inl hm
  | flushIcache => exact .inl hm
  | icacheD id data => exact .inl hm

/-- The data cache neither holds the block nor waits for it. -/
structure Gone (d : CacheUnit) (b : ℕ) : Prop where
  outstanding : ∀ m ∈ d.outstanding, blockOf m.addr ≠ b
  lines : ∀ w s, d.Holds w s → blockOf (d.lines w s).addr ≠ b

theorem Effect.holds {d d' : CacheUnit} {q q' : List Writeback} {k : Kind}
    (he : Effect d q d' q' k) {w s : ℕ} (h : d'.Holds w s) :
    d.Holds w s ∧ (d'.lines w s).addr = (d.lines w s).addr ∨
      ∃ m ∈ d.outstanding, (d'.lines w s).addr = m.addr := by
  have hfades : d.Fades d' → d.Holds w s ∧ (d'.lines w s).addr = (d.lines w s).addr := fun hf =>
    ⟨hf.holds w s h, hf.addr w s⟩
  cases he with
  | same hd hq => exact .inl (hfades (hd ▸ CacheUnit.Fades.refl d))
  | upgrade addr way hhit hst hb hd hq =>
    subst hd
    have hf := CacheUnit.setState_fades d way (d.setIdx addr) fun hn => absurd rfl hn
    exact .inl ⟨hf.holds w s h, hf.addr w s⟩
  | replace addr way type hhit hb hs hw ht hd hq =>
    subst hd
    have hf := CacheUnit.setState_fades d way (d.setIdx addr) fun hn => absurd rfl hn
    exact .inl ⟨hf.holds w s h, hf.addr w s⟩
  | write addr way bytes hhit hst hd hq =>
    subst hd
    exact .inl (hfades (CacheUnit.setLine_fades d way _ rfl
      fun _ => (CacheUnit.hitWay_some hhit).2.2))
  | send id m hs hq =>
    obtain ⟨_, _, -, -, -, -, -, -, -, -, hlines⟩ := CacheUnit.send_cases hs
    rw [CacheUnit.Holds, hlines] at h
    exact .inl ⟨h, by rw [hlines]⟩
  | probeMiss address source desired hne hd hq => exact .inl (hfades (hd ▸ CacheUnit.Fades.refl d))
  | probe address source way desired state hne hhit hst hto hd hq =>
    subst hd
    exact .inl (hfades (CacheUnit.setState_fades d way _
      fun _ => (CacheUnit.hitWay_some hhit).2.2))
  | grant id state data hlt hv hst hd hq =>
    subst hd
    rcases CacheUnit.fill_holds_cases h with ⟨-, ha⟩ | ⟨hold, he⟩
    · exact .inr ⟨_, CacheUnit.mem_outstanding_of_valid hlt hv, ha⟩
    · exact .inl ⟨hold, by rw [he]⟩

/-- A block stays gone until it is requested. -/
theorem Gone.exec (hg : Gone t.dcache b) (hi : Inv cfg t)
    (hw : 0 < cfg.icacheWays ∧ 0 < cfg.dcacheWays) (hl : t.Legal c)
    (hr : ∀ addr, t.wanted c = some addr → t.Requested addr → blockOf addr ≠ b) :
    Gone (t.exec c).dcache b := by
  by_cases hc : c = .dcacheC
  · subst hc
    rw [dcacheC_dcache]
    exact hg
  refine ⟨fun m hm => ?_, fun w s h => ?_⟩
  · rcases exec_outstanding hi.dcache hl hm with hm | ⟨ha, hreq⟩
    · exact hg.outstanding m hm
    · exact hr _ ha hreq
  · rcases (exec_effect hi.clean (hi.ways_pos hw).2 hl hc).holds h with ⟨h, ha⟩ | ⟨m, hm, ha⟩
    · rw [ha]
      exact hg.lines w s h
    · rw [ha]
      exact hg.outstanding m hm

/-- The block of a queued voluntary writeback is gone, and so is the block of a Release
that waits for its acknowledgement. -/
structure Released (t : Tile) (rs : List Release) : Prop where
  queued : ∀ e ∈ t.wbq, e.voluntary = true → Gone t.dcache (blockOf e.line.addr)
  sent : ∀ r ∈ rs, Gone t.dcache r.block

/-- A new voluntary entry is the victim of a replacement. -/
theorem Effect.victim_gone {d d' : CacheUnit} {q q' : List Writeback} {k : Kind}
    (he : Effect d q d' q' k) (hi : d.Inv) {e : Writeback} (hq' : e ∈ q')
    (hv : e.voluntary = true) : e ∈ q ∨ Gone d' (blockOf e.line.addr) := by
  cases he with
  | same hd hq => exact .inl (hq ▸ hq')
  | upgrade addr way hhit hst hb hd hq => exact .inl (hq ▸ hq')
  | replace addr way type hhit hb hs hw ht hd hq =>
    split at hq
    · next hdirty =>
      subst hd hq
      rcases List.mem_append.mp hq' with h | h
      · exact .inl h
      rw [List.mem_singleton.mp h]
      have hheld := CacheUnit.holds_of_dirty hdirty
      have hf := CacheUnit.setState_fades d way (d.setIdx addr) fun hn => absurd rfl hn
      refine .inr ⟨fun m hm => ?_, fun w s hh hb' => ?_⟩
      · rcases List.mem_cons.mp ((CacheUnit.outstanding_enqueue _ _).mem_iff.mp hm) with rfl | hm
        · exact (hi.hitWay_none hhit hheld).symm
        · exact (hi.absent m hm way _ hheld).symm
      · -- the victim held its block alone, and it has been cleared
        have hh' := hf.holds w s hh
        have hba : blockOf (d.lines w s).addr = blockOf (d.lines way (d.setIdx addr)).addr := by
          rw [← hf.addr w s]
          exact hb'
        obtain rfl := hi.unique w way s _ hh' hheld hba
        have hset : s = d.setIdx addr := by
          rw [(hi.placed w s hh').2, CacheUnit.setIdx_block hba, ← (hi.placed w _ hheld).2]
        subst hset
        exact CacheUnit.not_holds_cleared d _ _ hh
    · exact .inl (hq ▸ hq')
  | write addr way bytes hhit hst hd hq => exact .inl (hq ▸ hq')
  | send id m hs hq => exact .inl (hq ▸ hq')
  | probeMiss address source desired hne hd hq =>
    subst hq
    rcases List.mem_append.mp hq' with h | h
    · exact .inl h
    · rw [List.mem_singleton.mp h] at hv
      cases hv
  | probe address source way desired state hne hhit hst hto hd hq =>
    subst hq
    rcases List.mem_append.mp hq' with h | h
    · exact .inl h
    · rw [List.mem_singleton.mp h] at hv
      cases hv
  | grant id state data hlt hv' hst hd hq => exact .inl (hq ▸ hq')

theorem Released.exec (hr : Released t rs) (hi : Inv cfg t)
    (hw : 0 < cfg.icacheWays ∧ 0 < cfg.dcacheWays) (hl : t.Legal c) (hp : t.Patient rs c) :
    Released (t.exec c) (t.track rs c) := by
  -- what was gone stays gone: the queue by the busy test, a sent block by patience
  have hqueued : ∀ e ∈ t.wbq, e.voluntary = true → Gone (t.exec c).dcache (blockOf e.line.addr) :=
    fun e he hv => (hr.queued e he hv).exec hi hw hl fun addr _ hreq =>
      ((CacheUnit.not_blockBusy hreq.1).1 e he).symm
  have hsent : ∀ r ∈ rs, Gone (t.exec c).dcache r.block := by
    intro r hr'
    refine (hr.sent r hr').exec hi hw hl fun addr ha hreq hb => ?_
    rcases hp addr ha ⟨r, hr', hb.symm⟩ with hbusy | hbusy
    · rw [hreq.1] at hbusy
      cases hbusy
    · rw [hreq.2 ?_] at hbusy
      · cases hbusy
      · cases hh : t.dcache.hitWay addr with
        | none => rfl
        | some way =>
          obtain ⟨-, hblk, hold⟩ := CacheUnit.hitWay_some hh
          exact absurd (hblk.trans hb) ((hr.sent r hr').lines _ _ hold)
  by_cases hc : c = .dcacheC
  · subst hc
    simp only [track, Tile.exec] at hqueued hsent ⊢
    rcases t.dcacheC_cases with he | ⟨e, rest, source, ids, hq, he⟩ <;> rw [he] at hqueued hsent ⊢
    · exact ⟨hqueued, hsent⟩
    · refine ⟨fun e' he' => hqueued e' (hq ▸ List.mem_cons_of_mem e he'), fun r hr' => ?_⟩
      dsimp only at hr'
      split at hr'
      · next hv =>
        rcases List.mem_append.mp hr' with h | h
        · exact hsent r h
        · rw [List.mem_singleton.mp h]
          have haddr : blockOf (Writeback.message e source).address = blockOf e.line.addr := by
            simp only [Writeback.message, blockOf]
            omega
          rw [haddr]
          exact hqueued e (hq ▸ List.mem_cons_self) hv
      · exact hsent r hr'
  · refine ⟨fun e he hv => ?_, fun r hr' => ?_⟩
    · rcases (exec_effect hi.clean (hi.ways_pos hw).2 hl hc).victim_gone hi.dcache he hv with h | h
      · exact hqueued e h hv
      · exact h
    · refine hsent r ?_
      cases c with
      | dcacheC => exact absurd rfl hc
      | dcacheD source data hasData grantack =>
        cases grantack with
        | false => exact (List.mem_filter.mp hr').1
        | true => exact hr'
      | access | mmioStore | drainStq | flushIcache | icacheA | icacheD | dcacheA | dcacheB =>
        exact hr'

theorem run_released (hw : 0 < cfg.icacheWays ∧ 0 < cfg.dcacheWays)
    (hr : Run (Tile.new cfg) cs t) (hp : (Tile.new cfg).AllPatient [] cs) :
    Released t ((Tile.new cfg).unacknowledged [] cs) := by
  induction hr with
  | nil => exact ⟨by simp [Tile.new], by simp [unacknowledged]⟩
  | @snoc cs t c hr hl ih =>
    obtain ⟨hbefore, hlast⟩ := (allPatient_snoc _ _ cs c).mp hp
    rw [unacknowledged_snoc]
    rw [← hr.eq_foldl] at hlast ⊢
    exact (ih hbefore).exec (run_inv hw hr) hw hl hlast

/-- In every run whose calls are all patient, whatever `dcache_a` sends next is not for a
block whose Release is unacknowledged. -/
theorem acquire_waits_for_release_ack (cfg : TileConfig)
    (hw : 0 < cfg.icacheWays ∧ 0 < cfg.dcacheWays) (cs : List Call) (t : Tile)
    (hrun : Run (Tile.new cfg) cs t) (hp : (Tile.new cfg).AllPatient [] cs) (msg : AMessage)
    (hmsg : t.dcacheA.1 = some msg) :
    ∀ r ∈ (Tile.new cfg).unacknowledged [] cs, r.block ≠ blockOf msg.address := by
  have hrel := run_released hw hrun hp
  unfold dcacheA at hmsg
  split at hmsg
  · next id m u hs =>
    obtain ⟨missq, ids, hq, -⟩ := CacheUnit.send_cases hs
    have hm : m ∈ t.dcache.outstanding := List.mem_append_left _ (hq ▸ List.mem_cons_self)
    cases hmsg
    intro r hr hb
    refine (hrel.sent r hr).outstanding m hm ?_
    rw [hb]
    simp only [blockOf]
    omega
  · cases hmsg

/-- A dirty block is evicted and its Release sent; then the evicting block arrives. -/
def evictAndRefill : List Call :=
  [.access (.store 0x80000000 [1]) 0, .dcacheA, .dcacheD 0 (fun _ => 0) true true,
    .access (.store 0x80000000 [1]) 0, .access (.load 0x80001000 8) 0, .dcacheC, .dcacheA,
    .dcacheD 1 (fun _ => 0) true true]

theorem run_evictAndRefill :
    Run (Tile.new smallTile) evictAndRefill (evictAndRefill.foldl exec (Tile.new smallTile)) :=
  Run.snoc (Run.snoc (Run.snoc (Run.snoc (Run.snoc (Run.snoc (Run.snoc (Run.snoc (Run.nil :
    Run (Tile.new smallTile) [] _)
    (c := .access (.store 0x80000000 [1]) 0) trivial) (c := .dcacheA) trivial)
    (c := .dcacheD 0 (fun _ => 0) true true) ⟨by decide, by decide⟩)
    (c := .access (.store 0x80000000 [1]) 0) trivial)
    (c := .access (.load 0x80001000 8) 0) trivial) (c := .dcacheC) trivial) (c := .dcacheA) trivial)
    (c := .dcacheD 1 (fun _ => 0) true true) ⟨by decide, by decide⟩

theorem acquire_after_release_ack :
    ∃ t msg, Run (Tile.new smallTile)
        (evictAndRefill ++ [.dcacheD 0 (fun _ => 0) false false] ++
          [.access (.load 0x80000000 8) 0]) t ∧
      t.dcacheA.1 = some msg ∧ msg.address = 0x80000000 ∧
      ∀ r ∈ (Tile.new smallTile).unacknowledged [] (evictAndRefill ++
          [.dcacheD 0 (fun _ => 0) false false] ++ [.access (.load 0x80000000 8) 0]),
        r.block ≠ blockOf msg.address := by
  have hrun := (run_evictAndRefill.snoc (c := .dcacheD 0 (fun _ => 0) false false)
    ⟨by decide, by decide⟩).snoc (c := .access (.load 0x80000000 8) 0) trivial
  refine ⟨_, ⟨0x80000000, 0, 0, 0⟩, hrun, by decide, rfl, ?_⟩
  exact acquire_waits_for_release_ack smallTile ⟨by decide, by decide⟩ _ _ hrun (by decide) _
    (by decide)

/-- Without it, the Acquire goes out while the Release is unacknowledged. -/
theorem acquire_overtakes_release :
    ∃ t, Run (Tile.new smallTile) (evictAndRefill ++ [.access (.load 0x80000000 8) 0]) t ∧
      ∃ msg, t.dcacheA.1 = some msg ∧
        ∃ r ∈ (Tile.new smallTile).unacknowledged [] (evictAndRefill ++
          [.access (.load 0x80000000 8) 0]), r.block = blockOf msg.address := by
  refine ⟨_, run_evictAndRefill.snoc (c := .access (.load 0x80000000 8) 0) trivial, ?_⟩
  refine ⟨⟨0x80000000, 0, 0, 0⟩, by decide, ⟨0, 0x2000000⟩, ?_, by decide⟩
  decide

end PerceptronSoc.Tile
