import PerceptronSoc.Lib.Settle
import PerceptronSoc.Proofs.TageView

/-! A branch that always goes the same way, seen by TAGE. Once the history is full of its
outcome every wrong prediction either trains a counter that was wrong or puts a table on
top that is right, and there are only so many tables. -/

namespace PerceptronSoc.Tage

namespace View

variable {P : TageParams} {d : Bool} {v v' : View} {bits : ℕ} {c : ℤ}

theorem stepTo_votes (hc : counterPredictsTaken c = d) :
    counterPredictsTaken (stepTo d bits c) = d := by
  unfold counterPredictsTaken at hc ⊢
  unfold stepTo
  cases d with
  | false =>
    have := Saturate.down_le (counterMin bits) c
    simp only [decide_eq_false_iff_not, not_le] at hc ⊢
    exact this.trans_lt hc
  | true =>
    have := Saturate.le_up (counterMax bits) c
    simp only [decide_eq_true_eq] at hc ⊢
    exact hc.trans this

/-- A weak counter gets strong on the side of the outcome only. -/
theorem stepTo_votes_of_strong (hc : counterIsWeak c bits = true)
    (hc' : counterIsWeak (stepTo d bits c) bits = false) :
    counterPredictsTaken (stepTo d bits c) = d := by
  unfold counterIsWeak at hc hc'
  unfold counterPredictsTaken
  simp only [decide_eq_true_eq, decide_eq_false_iff_not, not_or, abs_le] at hc hc'
  unfold stepTo satInc satDec Saturate.up Saturate.down at hc' ⊢
  cases d <;> simp only [Bool.false_eq_true, if_true, if_false] at hc' ⊢ <;> split_ifs at hc' ⊢ <;>
    simp only [decide_eq_true_eq, decide_eq_false_iff_not] <;> omega

theorem stepTo_strong (hc : counterIsWeak c bits = false) (hv : counterPredictsTaken c = d) :
    counterIsWeak (stepTo d bits c) bits = false := by
  unfold counterIsWeak at hc ⊢
  unfold counterPredictsTaken at hv
  simp only [decide_eq_false_iff_not, not_or, abs_le] at hc ⊢
  unfold stepTo satInc satDec Saturate.up Saturate.down
  cases d <;> simp only [Bool.false_eq_true, if_true, if_false, decide_eq_true_eq,
    decide_eq_false_iff_not] at hv ⊢ <;> split_ifs <;> omega

theorem final_next (hd : v.final P = d) (h : v.Next P d v') : v'.final P = d := by
  cases h with
  | allocated t hwrong ht habove => exact absurd hd hwrong
  | trained =>
    obtain ⟨base, hits⟩ := v
    match hits with
    | [] => exact stepTo_votes hd
    | [x] => exact stepTo_votes hd
    | x :: y :: rest =>
      simp only [final] at hd
      simp only [trained, final]
      cases hweak : counterIsWeak x.2 P.taggedCtrBits with
      | true =>
        rw [hweak, Bool.and_true] at hd
        simp only [if_true]
        -- the provider may get strong in this step and take over from the alternate
        cases hweak' : counterIsWeak (stepTo d P.taggedCtrBits x.2) P.taggedCtrBits with
        | true =>
          rw [Bool.and_true]
          split_ifs at hd ⊢ <;> exact stepTo_votes hd
        | false =>
          rw [Bool.and_false, if_neg Bool.false_ne_true]
          exact stepTo_votes_of_strong hweak hweak'
      | false =>
        rw [hweak, Bool.and_false, if_neg Bool.false_ne_true] at hd
        rw [stepTo_strong hweak hd, Bool.and_false, if_neg Bool.false_ne_true]
        exact stepTo_votes hd

/-- How many steps a counter is away from the outcome. -/
def dist (d : Bool) (c : ℤ) : ℕ := if d then (-c).toNat else (c + 1).toNat

theorem dist_pos (hc : counterPredictsTaken c ≠ d) : 0 < dist d c := by
  unfold counterPredictsTaken at hc
  unfold dist
  cases d <;> simp at hc ⊢ <;> omega

theorem dist_stepTo (hc : c ∈ Set.Icc (counterMin bits) (counterMax bits)) :
    dist d (stepTo d bits c) = dist d c - 1 := by
  obtain ⟨h1, h2⟩ := hc
  have hpow : (0 : ℤ) < 2 ^ (bits - 1) := by positivity
  unfold counterMin at h1
  unfold counterMax at h2
  unfold dist stepTo satInc satDec Saturate.up Saturate.down counterMin counterMax
  cases d <;> simp only [Bool.false_eq_true, if_true, if_false] <;> split_ifs <;> omega

theorem dist_le {B : ℕ} (hc : c ∈ Set.Icc (counterMin bits) (counterMax bits)) (hB : bits ≤ B) :
    dist d c ≤ 2 ^ B := by
  obtain ⟨h1, h2⟩ := hc
  have hpow : (2 : ℤ) ^ (bits - 1) ≤ 2 ^ B := pow_le_pow_right₀ (by norm_num) (by omega)
  unfold counterMin at h1
  unfold counterMax at h2
  have hcast : ((2 ^ B : ℕ) : ℤ) = 2 ^ B := by push_cast; rfl
  unfold dist
  split_ifs <;> omega

def width (P : TageParams) : ℕ := max P.baseCtrBits P.taggedCtrBits

/-- The tables that may still be put on top, each worth more than any two counters, and
the distances of the counters that the prediction may come from. -/
def rank (P : TageParams) (d : Bool) (v : View) : ℕ :=
  match v.hits with
  | [] => P.tableInfo.length * 2 ^ (width P + 1) + dist d v.base
  | [x] => (P.tableInfo.length - 1 - x.1) * 2 ^ (width P + 1) + dist d x.2
  | x :: y :: _ =>
    (P.tableInfo.length - 1 - x.1) * 2 ^ (width P + 1) + (dist d x.2 + dist d y.2)

structure Ok (P : TageParams) (v : View) : Prop where
  base : v.base ∈ Set.Icc (counterMin P.baseCtrBits) (counterMax P.baseCtrBits)
  hits : ∀ x ∈ v.hits, x.1 < P.tableInfo.length ∧
    x.2 ∈ Set.Icc (counterMin P.taggedCtrBits) (counterMax P.taggedCtrBits)

theorem Ok.dist_base_le (h : v.Ok P) (d : Bool) : dist d v.base ≤ 2 ^ width P :=
  dist_le h.base (le_max_left _ _)

theorem Ok.dist_le (h : v.Ok P) (d : Bool) {x : ℕ × ℤ} (hx : x ∈ v.hits) :
    dist d x.2 ≤ 2 ^ width P :=
  View.dist_le (h.hits x hx).2 (le_max_right _ _)

theorem Ok.dist_stepTo (h : v.Ok P) (d : Bool) {x : ℕ × ℤ} (hx : x ∈ v.hits) :
    dist d (stepTo d P.taggedCtrBits x.2) = dist d x.2 - 1 :=
  View.dist_stepTo (h.hits x hx).2

theorem Ok.rank_le (h : v.Ok P) (d : Bool) :
    v.rank P d ≤ (P.tableInfo.length + 1) * 2 ^ (width P + 1) := by
  have hbase := h.dist_base_le d
  have hdist := fun x => h.dist_le d (x := x)
  have hpow : 2 ^ (width P + 1) = 2 * 2 ^ width P := by rw [pow_succ, mul_comm]
  have htables : ∀ b, (P.tableInfo.length - 1 - b) * 2 ^ (width P + 1) ≤
      P.tableInfo.length * 2 ^ (width P + 1) := fun b => Nat.mul_le_mul_right _ (by omega)
  obtain ⟨base, hits⟩ := v
  rw [add_mul, one_mul]
  match hits with
  | [] =>
    simp only [rank]
    dsimp only at hbase
    omega
  | [x] =>
    have := htables x.1
    have := hdist x (by simp)
    simp only [rank]
    omega
  | x :: y :: rest =>
    have := htables x.1
    have := hdist x (by simp)
    have := hdist y (by simp)
    simp only [rank]
    omega

/-- Training brings a counter closer that spoke for the wrong outcome. -/
theorem Ok.rank_trained (h : v.Ok P) (hwrong : v.final P ≠ d) :
    (v.trained P d).rank P d < v.rank P d := by
  have hbase := View.dist_stepTo (d := d) h.base
  have hstep := fun x => h.dist_stepTo d (x := x)
  obtain ⟨base, hits⟩ := v
  match hits with
  | [] =>
    have hpos : 0 < dist d base := dist_pos hwrong
    dsimp only at hbase
    simp only [trained, rank, hbase]
    omega
  | [x] =>
    have hpos := dist_pos hwrong
    simp only [trained, rank, hstep x (by simp)]
    omega
  | x :: y :: rest =>
    have hx := hstep x (by simp)
    have hy := hstep y (by simp)
    simp only [final] at hwrong
    simp only [trained, rank, hx]
    -- a weak provider is trained together with the alternate, so whichever spoke moves
    cases hweak : counterIsWeak x.2 P.taggedCtrBits with
    | true =>
      simp only [if_true, hy]
      rw [hweak, Bool.and_true] at hwrong
      split_ifs at hwrong
      · have := dist_pos hwrong
        omega
      · have := dist_pos hwrong
        omega
    | false =>
      rw [hweak, Bool.and_false, if_neg Bool.false_ne_true] at hwrong
      have := dist_pos hwrong
      simp only [Bool.false_eq_true, if_false]
      omega

theorem dist_allocatedCtr (d : Bool) : dist d (allocatedCtr d) = 0 := by
  cases d <;> rfl

/-- A table on top of `b`, or of none, is worth more than the counter it covers. -/
theorem table_drop {n m W e : ℕ} (hn : n < m) (he : e < W) : n * W + e < m * W := by
  calc n * W + e < n * W + W := by omega
    _ = (n + 1) * W := by ring
    _ ≤ m * W := Nat.mul_le_mul_right W hn

/-- An allocation leaves one table less to put on top. -/
theorem Ok.rank_allocated (h : v.Ok P) {t : ℕ} (ht : t < P.tableInfo.length)
    (habove : ∀ x ∈ v.hits, x.1 < t) :
    (View.mk (v.trained P d).base ((t, allocatedCtr d) :: (v.trained P d).hits)).rank P d <
      v.rank P d := by
  have hpow : 2 ^ width P < 2 ^ (width P + 1) := Nat.pow_lt_pow_right (by norm_num) (by omega)
  have hcovered : ∀ x ∈ v.hits, dist d (stepTo d P.taggedCtrBits x.2) < 2 ^ (width P + 1) := by
    intro x hx
    rw [h.dist_stepTo d hx]
    exact (Nat.sub_le _ _).trans_lt ((h.dist_le d hx).trans_lt hpow)
  have hfewer : ∀ x ∈ v.hits, P.tableInfo.length - 1 - t < P.tableInfo.length - 1 - x.1 := by
    intro x hx
    have := habove x hx
    omega
  obtain ⟨base, hits⟩ := v
  match hits with
  | [] =>
    simp only [trained, rank, dist_allocatedCtr]
    exact (table_drop (by omega) (Nat.two_pow_pos _)).trans_le (Nat.le_add_right _ _)
  | [x] =>
    simp only [trained, rank, dist_allocatedCtr, zero_add]
    exact (table_drop (hfewer x (by simp)) (hcovered x (by simp))).trans_le (Nat.le_add_right _ _)
  | x :: y :: rest =>
    simp only [trained, rank, dist_allocatedCtr, zero_add]
    exact (table_drop (hfewer x (by simp)) (hcovered x (by simp))).trans_le (Nat.le_add_right _ _)

theorem Ok.rank_next (h : v.Ok P) (hwrong : v.final P ≠ d) (hn : v.Next P d v') :
    v'.rank P d < v.rank P d := by
  cases hn with
  | trained => exact h.rank_trained hwrong
  | allocated t _ ht habove => exact h.rank_allocated ht habove

end View

def predictionAfter (s : Tage) (pc : UInt64) (d : Bool) (k : ℕ) : Bool :=
  (((feed pc d)^[k] s).predict pc).1

structure Full (P : TageParams) (d : Bool) (s : Tage) : Prop where
  shaped : Shaped P s
  ranged : Ranged P s
  full : s.history = List.replicate s.maxHistLen d

variable {P : TageParams} {s : Tage} {pc : UInt64} {d : Bool}

theorem view_ok (hs : Shaped P s) (hi : Ranged P s) (pc : UInt64) : (s.view pc).Ok P := by
  refine ⟨hi.baseAt_mem _, fun x hx => ?_⟩
  obtain ⟨t, ht, rfl⟩ := List.mem_map.mp hx
  exact ⟨hs.lt_of_mem_hits ht, (hi.entryAt_ok _ _).ctr⟩

theorem feed_history (pc : UInt64) (d : Bool) (s : Tage) :
    (feed pc d s).history = (d :: s.history).dropLast := by
  obtain ⟨tables, h⟩ := train_frame (s.predict pc).2 pc d
  rw [feed, h, refresh_predict]
  rfl

theorem Ranged.feed (hi : Ranged P s) (hP : P.InRange) (pc : UInt64) (d : Bool) :
    Ranged P (Tage.feed pc d s) := (hi.exec hP (.predict pc)).train hP pc d

theorem Full.feed (hf : Full P d s) (hP : P.InRange) (pc : UInt64) :
    Full P d (Tage.feed pc d s) where
  shaped := hf.shaped.feed hP.toSized pc d
  ranged := hf.ranged.feed hP pc d
  full := by
    rw [feed_history, hf.full, Vectors.shift_replicate, hf.shaped.maxHistLen,
      (hf.shaped.feed hP.toSized pc d).maxHistLen]

theorem Full.view_feed (hf : Full P d s) (hP : P.InRange) (pc : UInt64) :
    (s.view pc).Next P d ((Tage.feed pc d s).view pc) := by
  apply hf.shaped.view_feed hf.ranged hP
  rw [feed_history, hf.full, Vectors.shift_replicate]

theorem Full.predict_feed (hf : Full P d s) (hP : P.InRange) (hd : (s.predict pc).1 = d) :
    ((Tage.feed pc d s).predict pc).1 = d := by
  rw [hf.shaped.predict_eq_final hP.toSized] at hd
  rw [(hf.feed hP pc).shaped.predict_eq_final hP.toSized]
  exact View.final_next hd (hf.view_feed hP pc)

theorem Full.rank_feed (hf : Full P d s) (hP : P.InRange) (hd : (s.predict pc).1 ≠ d) :
    ((Tage.feed pc d s).view pc).rank P d < (s.view pc).rank P d := by
  rw [hf.shaped.predict_eq_final hP.toSized] at hd
  exact (view_ok hf.shaped hf.ranged pc).rank_next hd (hf.view_feed hP pc)

/-- The history is full after as many outcomes as it is long. -/
theorem full_of_le (hs : Shaped P s) (hi : Ranged P s) (hP : P.InRange) (pc : UInt64) (d : Bool)
    {k : ℕ} (hk : s.maxHistLen ≤ k) : Full P d ((feed pc d)^[k] s) := by
  have hshaped : Shaped P ((feed pc d)^[k] s) :=
    Settle.kept (I := Shaped P) (fun _ h => h.feed hP.toSized pc d) hs k
  have hsemi : Function.Semiconj Tage.history (feed pc d) fun l => (d :: l).dropLast :=
    feed_history pc d
  refine ⟨hshaped, Settle.kept (I := Ranged P) (fun _ h => h.feed hP pc d) hi k, ?_⟩
  rw [(hsemi.iterate_right k).eq, Vectors.shift_iterate_of_le d s.history (hs.historyLength ▸ hk),
    hs.historyLength, hs.maxHistLen, hshaped.maxHistLen]

/-- For every parameter set in range, from every state a run reaches, with one branch that
always goes the same way: every prediction is right after the history has filled and each
table, and the base, has had its steps; and once the history is full, a right prediction
is followed by right predictions only. -/
theorem constant_branch_settles (P : TageParams) (hP : P.InRange) (calls : List PredictorCall)
    (pc : UInt64) (d : Bool) :
    let s := (new P).run calls
    let B := max P.baseCtrBits P.taggedCtrBits
    (∀ k, s.maxHistLen + (P.tableInfo.length + 1) * 2 ^ (B + 1) ≤ k →
      s.predictionAfter pc d k = d) ∧
    ∀ k m, s.maxHistLen ≤ k → k ≤ m → s.predictionAfter pc d k = d →
      s.predictionAfter pc d m = d := by
  intro s B
  have hs : Shaped P s := (new_shaped P).run hP.toSized calls
  have hi : Ranged P s := (new_ranged P).run hP calls
  have hfull := fun k (hk : s.maxHistLen ≤ k) => full_of_le hs hi hP pc d hk
  have hstart := hfull s.maxHistLen le_rfl
  refine ⟨fun k hk => ?_, fun k m hk hkm hd => ?_⟩
  · exact Settle.good_after (I := Full P d) (G := fun s => (s.predict pc).1 = d)
      (W := fun m s => (s.view pc).rank P d ≤ m) (fun _ h => h.feed hP pc)
      (fun _ h => h.predict_feed hP)
      (fun s m h hd hm => ⟨_, (h.rank_feed hP hd).trans_le hm, le_rfl⟩) hstart
      ((view_ok hstart.shaped hstart.ranged pc).rank_le d) hk
  · exact Settle.good_from (I := Full P d) (G := fun s => (s.predict pc).1 = d)
      (fun _ h => h.feed hP pc) (fun _ h => h.predict_feed hP) (hfull k hk) hd hkm

theorem constant_branch_settles_default : default.predictionAfter 0x80000000 false 160 = false :=
  (constant_branch_settles TageParams.boomLikeDefault boomLikeDefault_inRange [] 0x80000000
    false).1 160 (by decide)

end PerceptronSoc.Tage
