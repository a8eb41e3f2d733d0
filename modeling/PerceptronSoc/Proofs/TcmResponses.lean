import PerceptronSoc.Spec.Tcm

/-! The responses of the TCM port. The data of a response waits in `tcm_q` and in the
registers until the master takes it, its header is whatever channel A showed one cycle
ago. The two belong together if the master takes a response in the cycle after the
request. -/

namespace PerceptronSoc

namespace TcmPort

variable {p p₀ : TcmPort} {i : TcmIn} {ins : ℕ → TcmIn} {c j k m n : ℕ}

def arrivals (p : TcmPort) (i : TcmIn) : List Beat :=
  if i.aValid then [(p.afterHart i).readBeat i.aBits.address] else []

theorem afterHart_q (p : TcmPort) (i : TcmIn) : (p.afterHart i).q = p.tcm.q := by
  unfold afterHart
  generalize p.tcm = t
  induction i.stores generalizing t with
  | nil => rfl
  | cons s ss ih => exact ih (t.mmioStore s.addr s.bytes)

theorem afterA_q (p : TcmPort) (i : TcmIn) : (p.afterA i).q = p.tcm.q ++ p.arrivals i := by
  unfold afterA arrivals
  split
  · simp only [Tcm.tcmA, afterHart_q]
  · rw [afterHart_q, List.append_nil]

theorem step_aReg (p : TcmPort) (i : TcmIn) : (p.step i).aReg = i.aBits := by
  unfold step
  split <;> rfl

theorem step_of_head {d : Beat} {q : List Beat} (hr : i.dReady = true)
    (hq : p.tcm.q ++ p.arrivals i = d :: q) :
    (p.step i).tcm.q = q ∧ (p.step i).dValid = true ∧ (p.step i).dData = d := by
  have hA : (p.afterA i).q = d :: q := (afterA_q p i).trans hq
  simp [step, hr, Tcm.tcmD, hA]

theorem step_of_empty (hr : i.dReady = true) (hq : p.tcm.q ++ p.arrivals i = []) :
    (p.step i).tcm.q = [] ∧ (p.step i).dValid = false := by
  have hA : (p.afterA i).q = [] := (afterA_q p i).trans hq
  simp [step, hr, Tcm.tcmD, hA]

theorem step_of_stalled (hr : i.dReady = false) :
    (p.step i).tcm.q = p.tcm.q ++ p.arrivals i ∧ (p.step i).dValid = p.dValid ∧
      (p.step i).dData = p.dData := by
  simp [step, hr, afterA_q]

theorem accepted_of_invalid (hv : p.dValid = false) (i : TcmIn) : p.accepted i = none := by
  simp [accepted, hv]

theorem accepted_of_stalled (hr : i.dReady = false) : p.accepted i = none := by
  simp [accepted, hr]

theorem accepted_of_valid (hv : p.dValid = true) (hr : i.dReady = true) :
    p.accepted i = some (p.aReg.response p.dData) := by
  simp [accepted, hv, hr]

theorem logged_succ (f : TcmPort → TcmIn → Option TcmResponse) (p₀ : TcmPort) (ins : ℕ → TcmIn)
    (n : ℕ) :
    logged f p₀ ins (n + 1) =
      logged f p₀ ins n ++ (f (Clocked.stateAt step p₀ ins n) (ins n)).toList := by
  unfold logged
  rw [List.range_succ, List.filterMap_append]
  cases h : f (Clocked.stateAt step p₀ ins n) (ins n) <;> simp [h]

theorem logged_prefix_succ (f : TcmPort → TcmIn → Option TcmResponse) (p₀ : TcmPort)
    (ins : ℕ → TcmIn) (n : ℕ) : logged f p₀ ins n <+: logged f p₀ ins (n + 1) := by
  rw [logged_succ]
  exact List.prefix_append _ _

theorem logged_prefix (f : TcmPort → TcmIn → Option TcmResponse) (p₀ : TcmPort)
    (ins : ℕ → TcmIn) (h : m ≤ n) : logged f p₀ ins m <+: logged f p₀ ins n := by
  induction n, h using Nat.le_induction with
  | base => exact List.prefix_refl _
  | succ n _ ih => exact ih.trans (logged_prefix_succ f p₀ ins n)

/-- The request of a cycle is answered in the next. -/
def Prompt (aValid dReady : ℕ → Bool) (c : ℕ) : Prop :=
  aValid c = true → dReady c = true ∧ dReady (c + 1) = true

/-- Before cycle `k` all responses have gone out, but for one that goes out in `k`. -/
structure OnTime (p₀ : TcmPort) (ins : ℕ → TcmIn) (k : ℕ) : Prop where
  q_empty : (Clocked.stateAt step p₀ ins k).tcm.q = []
  taken : (Clocked.stateAt step p₀ ins k).dValid = true → (ins k).dReady = true
  logs : logged owed p₀ ins k =
    logged accepted p₀ ins k ++ ((Clocked.stateAt step p₀ ins k).accepted (ins k)).toList

theorem onTime_zero (bytes : ℕ → UInt8) (aReg : TcmRequest) (ins : ℕ → TcmIn) :
    OnTime (reset bytes aReg) ins 0 where
  q_empty := rfl
  taken := fun h => by cases h
  logs := rfl

theorem OnTime.accepted_succ (h : OnTime p₀ ins k) :
    logged accepted p₀ ins (k + 1) = logged owed p₀ ins k := by
  rw [logged_succ, ← h.logs]

theorem OnTime.invalid_of_stalled (h : OnTime p₀ ins k) (hr : (ins k).dReady = false) :
    (Clocked.stateAt step p₀ ins k).dValid = false := by
  rw [Bool.eq_false_iff]
  intro hv
  rw [h.taken hv] at hr
  cases hr

theorem OnTime.request_succ (h : OnTime p₀ ins k) (hv : (ins k).aValid = true)
    (hr : (ins k).dReady = true) (hr' : (ins (k + 1)).dReady = true) : OnTime p₀ ins (k + 1) := by
  have hstep := Clocked.stateAt_succ step p₀ ins k
  have hempty := h.q_empty
  set s := Clocked.stateAt step p₀ ins k with hs
  have hq : s.tcm.q ++ s.arrivals (ins k) =
      [(s.afterHart (ins k)).readBeat (ins k).aBits.address] := by
    simp [hempty, arrivals, hv]
  obtain ⟨hq', hv', hd'⟩ := step_of_head hr hq
  refine ⟨by rw [hstep, hq'], fun _ => hr', ?_⟩
  rw [h.accepted_succ, logged_succ, hstep, accepted_of_valid hv' hr', step_aReg, hd', ← hs]
  simp [owed, hv]

theorem OnTime.idle_succ (h : OnTime p₀ ins k) (hv : (ins k).aValid = false) :
    OnTime p₀ ins (k + 1) := by
  have hstep := Clocked.stateAt_succ step p₀ ins k
  have hempty := h.q_empty
  have hinvalid := h.invalid_of_stalled
  set s := Clocked.stateAt step p₀ ins k with hs
  have hq : s.tcm.q ++ s.arrivals (ins k) = [] := by simp [hempty, arrivals, hv]
  have hnext : (s.step (ins k)).tcm.q = [] ∧ (s.step (ins k)).dValid = false := by
    cases hr : (ins k).dReady with
    | true => exact step_of_empty hr hq
    | false =>
      obtain ⟨hq', hv', -⟩ := step_of_stalled (p := s) hr
      exact ⟨hq'.trans hq, hv'.trans (hinvalid hr)⟩
  refine ⟨by rw [hstep, hnext.1], fun hn => ?_, ?_⟩
  · rw [hstep, hnext.2] at hn
    cases hn
  · rw [h.accepted_succ, logged_succ, hstep, accepted_of_invalid hnext.2]
    simp [owed, hv]

theorem OnTime.succ (h : OnTime p₀ ins k)
    (hp : Prompt (fun k => (ins k).aValid) (fun k => (ins k).dReady) k) :
    OnTime p₀ ins (k + 1) := by
  cases hv : (ins k).aValid with
  | true => exact h.request_succ hv (hp hv).1 (hp hv).2
  | false => exact h.idle_succ hv

theorem onTime_of_prompt (h0 : OnTime p₀ ins 0)
    (hp : ∀ k < n, Prompt (fun k => (ins k).aValid) (fun k => (ins k).dReady) k) :
    OnTime p₀ ins n := by
  induction n with
  | zero => exact h0
  | succ n ih =>
    have hn := ih fun k hk => hp k (Nat.lt_succ_of_lt hk)
    exact hn.succ (hp n n.lt_succ_self)

/-- From cycle `c` on, channel D is ready in one cycle at most. -/
def AtMostOnce (dReady : ℕ → Bool) (c : ℕ) : Prop :=
  Set.Subsingleton {k | c ≤ k ∧ dReady k = true}

theorem AtMostOnce.mono {dReady : ℕ → Bool} (h : AtMostOnce dReady c) (hck : c ≤ k) :
    AtMostOnce dReady k :=
  h.anti fun _ hi => ⟨hck.trans hi.1, hi.2⟩

theorem AtMostOnce.never_after {dReady : ℕ → Bool} (h : AtMostOnce dReady k)
    (hr : dReady k = true) (hj : k < j) : dReady j = false := by
  rw [Bool.eq_false_iff]
  intro hr'
  have := h ⟨le_rfl, hr⟩ ⟨hj.le, hr'⟩
  omega

/-- From cycle `k` on, no response is accepted: channel D is never ready again, or only
once, with nothing to show. -/
structure Stopped (p₀ : TcmPort) (ins : ℕ → TcmIn) (k : ℕ) : Prop where
  logs : logged accepted p₀ ins k <+: logged owed p₀ ins k
  quiet : (∀ j, k ≤ j → (ins j).dReady = false) ∨
    ((Clocked.stateAt step p₀ ins k).dValid = false ∧ AtMostOnce (fun k => (ins k).dReady) k)

theorem Stopped.succ (h : Stopped p₀ ins k) : Stopped p₀ ins (k + 1) := by
  have hstep := Clocked.stateAt_succ step p₀ ins k
  have hnone : (Clocked.stateAt step p₀ ins k).accepted (ins k) = none := by
    obtain hnever | ⟨hv, -⟩ := h.quiet
    · exact accepted_of_stalled (hnever k le_rfl)
    · exact accepted_of_invalid hv _
  refine ⟨?_, ?_⟩
  · rw [logged_succ accepted, hnone, Option.toList_none, List.append_nil]
    exact h.logs.trans (logged_prefix_succ owed p₀ ins k)
  · obtain hnever | ⟨hv, honce⟩ := h.quiet
    · exact .inl fun j hj => hnever j (by omega)
    · cases hr : (ins k).dReady with
      | true => exact .inl fun j hj => honce.never_after hr (by omega)
      | false =>
        refine .inr ⟨?_, honce.mono k.le_succ⟩
        rw [hstep, (step_of_stalled hr).2.1, hv]

theorem OnTime.stopped_succ (h : OnTime p₀ ins k)
    (honce : AtMostOnce (fun k => (ins k).dReady) k) : Stopped p₀ ins (k + 1) := by
  refine ⟨?_, ?_⟩
  · rw [h.accepted_succ]
    exact logged_prefix_succ owed p₀ ins k
  · cases hr : (ins k).dReady with
    | true => exact .inl fun j hj => honce.never_after hr (by omega)
    | false =>
      refine .inr ⟨?_, honce.mono k.le_succ⟩
      rw [Clocked.stateAt_succ, (step_of_stalled hr).2.1]
      exact h.invalid_of_stalled hr

theorem stopped_of_le (h : Stopped p₀ ins k) (hkn : k ≤ n) : Stopped p₀ ins n := by
  induction n, hkn using Nat.le_induction with
  | base => exact h
  | succ n _ ih => exact ih.succ

def Timely (aValid dReady : ℕ → Bool) : Prop :=
  ∀ c, aValid c = true → (dReady c = true ∧ dReady (c + 1) = true) ∨ AtMostOnce dReady c

theorem accepted_prefix_of_timely (h0 : OnTime p₀ ins 0)
    (ht : Timely (fun k => (ins k).aValid) (fun k => (ins k).dReady)) (n : ℕ) :
    logged accepted p₀ ins n <+: logged owed p₀ ins n := by
  classical
  by_cases hall : ∀ k < n, Prompt (fun k => (ins k).aValid) (fun k => (ins k).dReady) k
  · rw [(onTime_of_prompt h0 hall).logs]
    exact List.prefix_append _ _
  · -- the first request that is not answered in the next cycle
    have hex : ∃ c, c < n ∧ ¬ Prompt (fun k => (ins k).aValid) (fun k => (ins k).dReady) c := by
      simpa using hall
    obtain ⟨hcn, hlate⟩ := Nat.find_spec hex
    have hc : OnTime p₀ ins (Nat.find hex) := by
      refine onTime_of_prompt h0 fun k hk => ?_
      by_contra hn
      exact Nat.find_min hex hk ⟨hk.trans hcn, hn⟩
    have honce : AtMostOnce (fun k => (ins k).dReady) (Nat.find hex) := by
      by_contra hn
      refine hlate fun hv => ?_
      exact (ht _ hv).resolve_right hn
    exact (stopped_of_le (hc.stopped_succ honce) hcn).logs

theorem not_atMostOnce {dReady : ℕ → Bool} (h : ∀ n, ∃ k, n ≤ k ∧ dReady k = true) (c : ℕ) :
    ¬ AtMostOnce dReady c := by
  intro honce
  obtain ⟨j, hj, hrj⟩ := h c
  obtain ⟨k, hk, hrk⟩ := h (j + 1)
  have := honce ⟨hj, hrj⟩ ⟨by omega, hrk⟩
  omega

theorem answered_of_timely (h0 : OnTime p₀ ins 0)
    (ht : Timely (fun k => (ins k).aValid) (fun k => (ins k).dReady)) : Answered p₀ ins := by
  refine ⟨accepted_prefix_of_timely h0 ht, fun hinf n => ⟨n + 1, ?_⟩⟩
  have hn : OnTime p₀ ins n := by
    refine onTime_of_prompt h0 fun k _ hv => ?_
    exact (ht k hv).resolve_right (not_atMostOnce hinf k)
  rw [hn.accepted_succ]

/-- While channel D is not ready, the registers stay and the queue only grows. -/
theorem stalled_stretch (p₀ : TcmPort) (hmn : m ≤ n)
    (hr : ∀ k, m ≤ k → k < n → (ins k).dReady = false) :
    (Clocked.stateAt step p₀ ins n).dValid = (Clocked.stateAt step p₀ ins m).dValid ∧
    (Clocked.stateAt step p₀ ins m).tcm.q <+: (Clocked.stateAt step p₀ ins n).tcm.q ∧
    logged accepted p₀ ins n = logged accepted p₀ ins m := by
  induction n, hmn using Nat.le_induction with
  | base => exact ⟨rfl, List.prefix_refl _, rfl⟩
  | succ n hmn ih =>
    obtain ⟨hv, hq, hlog⟩ := ih fun k hk hkn => hr k hk (by omega)
    have hn := hr n hmn n.lt_succ_self
    obtain ⟨hq', hv', -⟩ := step_of_stalled (p := Clocked.stateAt step p₀ ins n) hn
    rw [Clocked.stateAt_succ, logged_succ, accepted_of_stalled hn, hv', hq', hlog]
    exact ⟨hv, hq.trans (List.prefix_append _ _), by simp⟩

theorem shown_of_waiting (hr : (ins j).dReady = true)
    (hq : (Clocked.stateAt step p₀ ins j).tcm.q ++
      (Clocked.stateAt step p₀ ins j).arrivals (ins j) ≠ []) :
    (Clocked.stateAt step p₀ ins (j + 1)).dValid = true := by
  obtain ⟨d, q, hdq⟩ := List.exists_cons_of_ne_nil hq
  rw [Clocked.stateAt_succ]
  exact (step_of_head hr hdq).2.1

/-- A request that finds the port on time is shown after the next ready cycle. -/
theorem OnTime.shown_after (h : OnTime p₀ ins c) (hv : (ins c).aValid = true) (hcj : c ≤ j)
    (hrj : (ins j).dReady = true) (hr : ∀ k, c ≤ k → k < j → (ins k).dReady = false) :
    (Clocked.stateAt step p₀ ins (j + 1)).dValid = true ∧
    logged accepted p₀ ins (j + 1) = logged owed p₀ ins c := by
  have harr : (Clocked.stateAt step p₀ ins c).arrivals (ins c) ≠ [] := by simp [arrivals, hv]
  obtain rfl | hlt := hcj.eq_or_lt
  · exact ⟨shown_of_waiting hrj (by simp [harr]), h.accepted_succ⟩
  · -- the word waits in the queue, with nothing in front of it
    have hrc := hr c le_rfl hlt
    obtain ⟨hq', hv', -⟩ := step_of_stalled (p := Clocked.stateAt step p₀ ins c) hrc
    rw [← Clocked.stateAt_succ step] at hq' hv'
    obtain ⟨hvj, hqj, hlog⟩ := stalled_stretch p₀ (Nat.succ_le_of_lt hlt)
      fun k hk hkj => hr k (by omega) hkj
    have hinvalid : (Clocked.stateAt step p₀ ins j).dValid = false := by
      rw [hvj, hv']
      exact h.invalid_of_stalled hrc
    refine ⟨shown_of_waiting hrj fun hnil => ?_, ?_⟩
    · rw [(List.append_eq_nil_iff.mp hnil).1, List.prefix_nil, hq'] at hqj
      exact harr (List.append_eq_nil_iff.mp hqj).2
    · rw [logged_succ, accepted_of_invalid hinvalid, hlog, h.accepted_succ]
      simp

/-- Its response is accepted in the ready cycle after that, under the header of the cycle
before. -/
theorem OnTime.accepted_at (h : OnTime p₀ ins c) (hv : (ins c).aValid = true) (hcj : c ≤ j)
    (hrj : (ins j).dReady = true) (hr : ∀ k, c ≤ k → k < j → (ins k).dReady = false)
    (hjk : j ≤ k) (hrk : (ins (k + 1)).dReady = true)
    (hr' : ∀ i, j < i → i ≤ k → (ins i).dReady = false) :
    ∃ data, logged accepted p₀ ins (k + 2) =
      logged owed p₀ ins c ++ [(ins k).aBits.response data] := by
  obtain ⟨hvj, hlogj⟩ := h.shown_after hv hcj hrj hr
  obtain ⟨hvk, -, hlogk⟩ := stalled_stretch p₀ (Nat.succ_le_succ hjk)
    fun i hi hik => hr' i hi (by omega)
  refine ⟨(Clocked.stateAt step p₀ ins (k + 1)).dData, ?_⟩
  rw [logged_succ, hlogk, hlogj, accepted_of_valid (hvk.trans hvj) hrk, Clocked.stateAt_succ,
    step_aReg]
  rfl

/-- Two responses for one place in the log. -/
theorem header_of_answered {data : Beat} (h : Answered p₀ ins) (hv : (ins c).aValid = true)
    (hck : c ≤ k) (hacc : logged accepted p₀ ins (k + 2) =
      logged owed p₀ ins c ++ [(ins k).aBits.response data]) :
    (ins k).aBits.source = (ins c).aBits.source := by
  have hpre := h.1 (k + 2)
  have hown : logged owed p₀ ins (c + 1) <+: logged owed p₀ ins (k + 2) :=
    logged_prefix owed p₀ ins (by omega)
  rw [hacc] at hpre
  rw [logged_succ, owed, if_pos hv, Option.toList_some] at hown
  have heq := (List.prefix_of_prefix_length_le hpre hown (by simp)).eq_of_length (by simp)
  have hresp := List.append_cancel_left heq
  simpa [TcmRequest.response] using congrArg (List.map TcmResponse.source) hresp

def getFirst (g : TcmRegion) (source : ℕ) : TcmRequest where
  opcode := (4#3).toFin
  size := 3
  source := source
  address := g.base
  mask := 255
  data := fun _ => 0

theorem getFirst_mask (g : TcmRegion) (source : ℕ) (i : Fin 8) :
    (getFirst g source).mask.getLsbD i = true := by
  have hmask : (getFirst g source).mask = BitVec.allOnes 8 := rfl
  rw [hmask, BitVec.getLsbD_allOnes]
  exact decide_eq_true i.isLt

theorem getFirst_legal (g : TcmRegion) (source : ℕ) : (getFirst g source).Legal g := by
  have hbase := g.base_aligned
  have hsize := g.size_aligned
  have hpos := g.size_pos
  refine ⟨.inr (.inr rfl), le_rfl, ?_, le_rfl, ?_, ?_, ?_⟩
  · simpa [getFirst] using hbase
  · simp only [getFirst]
    omega
  · intro i _
    simp only [TcmRequest.Lane, getFirst, hbase]
    omega
  · exact fun _ i _ => getFirst_mask g source i

theorem exists_next_ready {dReady : ℕ → Bool} (h : ∃ k, m ≤ k ∧ dReady k = true) :
    ∃ j, m ≤ j ∧ dReady j = true ∧ ∀ k, m ≤ k → k < j → dReady k = false := by
  refine ⟨Nat.find h, (Nat.find_spec h).1, (Nat.find_spec h).2, fun k hk hlt => ?_⟩
  rw [Bool.eq_false_iff]
  exact fun hr => Nat.find_min h hlt ⟨hk, hr⟩

theorem exists_two_ready {dReady : ℕ → Bool} (h : ¬ AtMostOnce dReady c) :
    ∃ j k, c ≤ j ∧ dReady j = true ∧ j < k ∧ dReady k = true := by
  rw [AtMostOnce, Set.not_subsingleton_iff] at h
  obtain ⟨j, ⟨hj, hrj⟩, k, ⟨hk, hrk⟩, hjk⟩ := h
  obtain hlt | hlt := lt_or_gt_of_ne hjk
  · exact ⟨j, k, hj, hrj, hlt, hrk⟩
  · exact ⟨k, j, hk, hrk, hlt, hrj⟩

/-- A master that comes back twice meets a late response under a wrong header. -/
theorem timely_of_answered {g : TcmRegion} {aValid dReady : ℕ → Bool}
    (h : ∀ (bytes : ℕ → UInt8) (aReg : TcmRequest) (ins : ℕ → TcmIn),
      (∀ k, (ins k).aValid = aValid k) → (∀ k, (ins k).dReady = dReady k) →
      (∀ k, aValid k = true → (ins k).aBits.Legal g) → Answered (reset bytes aReg) ins) :
    Timely aValid dReady := by
  classical
  -- every cycle shows an id of its own
  let ins : ℕ → TcmIn := fun k => ⟨aValid k, getFirst g k, dReady k, []⟩
  have hans : Answered (reset (fun _ => 0) (getFirst g 0)) ins :=
    h _ _ ins (fun _ => rfl) (fun _ => rfl) fun k _ => getFirst_legal g k
  intro c
  induction c using Nat.strong_induction_on with
  | _ c ih =>
    intro hv
    by_contra hnot
    obtain ⟨hlate, honce⟩ := not_or.mp hnot
    have hc : OnTime (reset (fun _ => 0) (getFirst g 0)) ins c := by
      refine onTime_of_prompt (onTime_zero _ _ _) fun k hk hvk => ?_
      obtain hprompt | honce' := ih k hk hvk
      · exact hprompt
      · exact absurd (honce'.mono hk.le) honce
    -- the cycle that fetches the word, and the one in which the master takes it
    obtain ⟨a, b, hca, hra, hab, hrb⟩ := exists_two_ready honce
    obtain ⟨j, hcj, hrj, hbefore⟩ := exists_next_ready ⟨a, hca, hra⟩
    have hja : j ≤ a := by
      by_contra hlt
      rw [hbefore a hca (by omega)] at hra
      cases hra
    obtain ⟨l, hjl, hrl, hbetween⟩ := exists_next_ready ⟨b, show j + 1 ≤ b by omega, hrb⟩
    obtain ⟨k, rfl⟩ : ∃ k, l = k + 1 := ⟨l - 1, by omega⟩
    obtain ⟨data, hacc⟩ := hc.accepted_at hv hcj hrj hbefore (by omega) hrl
      fun i hi hik => hbetween i hi (by omega)
    have hkc : k = c := header_of_answered hans hv (by omega) hacc
    obtain rfl : j = c := by omega
    subst hkc
    exact hlate ⟨hrj, hrl⟩

/-- For given request and ready waveforms: every sequence of requests with these waveforms
gets its responses, one each, in order and under their own headers, if and only if the
waveforms are timely. -/
theorem answered_iff (g : TcmRegion) (aValid dReady : ℕ → Bool) :
    (∀ (bytes : ℕ → UInt8) (aReg : TcmRequest) (ins : ℕ → TcmIn),
      (∀ k, (ins k).aValid = aValid k) → (∀ k, (ins k).dReady = dReady k) →
      (∀ k, aValid k = true → (ins k).aBits.Legal g) → Answered (reset bytes aReg) ins) ↔
    Timely aValid dReady := by
  refine ⟨timely_of_answered, fun ht bytes aReg ins hA hD _ => ?_⟩
  refine answered_of_timely (onTime_zero bytes aReg ins) ?_
  have hA' : (fun k => (ins k).aValid) = aValid := funext hA
  have hD' : (fun k => (ins k).dReady) = dReady := funext hD
  rw [hA', hD']
  exact ht

/-- A `Get` with id 1 meets a stalled cycle; then channel A is idle, showing id 0, and the
master is ready. -/
def lateGet : ℕ → TcmIn
  | 0 => ⟨true, getFirst .extMem 1, false, []⟩
  | _ + 1 => ⟨false, getFirst .extMem 0, true, []⟩

/-- The response goes to id 0, which has asked for nothing. -/
theorem lateGet_answers_other :
    (∀ k, (lateGet k).aValid = true → (lateGet k).aBits.Legal .extMem) ∧
    ¬ Answered (reset (fun _ => 0) (getFirst .extMem 0)) lateGet := by
  refine ⟨fun k _ => ?_, fun h => ?_⟩
  · cases k <;> exact getFirst_legal _ _
  · have hpre := (h.1 3).map TcmResponse.source
    revert hpre
    decide

end TcmPort

end PerceptronSoc
