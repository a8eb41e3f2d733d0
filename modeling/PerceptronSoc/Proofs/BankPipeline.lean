import PerceptronSoc.Spec.PerceptronBank

/-! Which packet a signal of the bank belongs to. The responses are registered and stay
with their packet; the metadata is not, and the packet in `f3` records the row of the
packet in `f0` and the prediction of the one in `f1`. An update finds in the registers
what the update of the cycle before left there. -/

namespace PerceptronSoc.PerceptronBank

variable {b : PerceptronBank}

theorem regsAt_succ (r : b.Regs) (ins : ℕ → b.Inputs) (k : ℕ) :
    regsAt r ins (k + 1) = step (regsAt r ins k) (ins k) := rfl

/-- The weights read for the packet that was in `f0` in cycle `k`. -/
def fetched (r : b.Regs) (ins : ℕ → b.Inputs) (k : ℕ) : b.Row := (regsAt r ins (k + 1)).s1Weights

/-- The response in `f3` is the packet's own prediction: its weights, and the history it
had in `f1`. -/
theorem f3Taken_eq (r : b.Regs) (ins : ℕ → b.Inputs) (k : ℕ) :
    (outputs (regsAt r ins (k + 3)) (ins (k + 3))).f3Taken =
      taken (fetched r ins k) (ins (k + 1)).f1Ghist := rfl

theorem f3Meta_eq (r : b.Regs) (ins : ℕ → b.Inputs) (k : ℕ) :
    (outputs (regsAt r ins (k + 3)) (ins (k + 3))).f3Meta =
      ⟨b.row (ins (k + 3)).f0Pc, taken (fetched r ins (k + 2)) (ins (k + 3)).f1Ghist⟩ := rfl

/-- The metadata recorded in the packet's `f3` cycle names the row of its own `pc` and the
prediction driven for it. -/
def MetaRight (r : b.Regs) (ins : ℕ → b.Inputs) (k : ℕ) : Prop :=
  (outputs (regsAt r ins (k + 3)) (ins (k + 3))).f3Meta =
    ⟨b.row (ins k).f0Pc, (outputs (regsAt r ins (k + 3)) (ins (k + 3))).f3Taken⟩

/-- For every packet of every run: its metadata is right if and only if the packet three
cycles behind it has its row and the packet two cycles behind it is on its side of the
threshold. -/
theorem meta_right_iff (r : b.Regs) (ins : ℕ → b.Inputs) (k : ℕ) :
    MetaRight r ins k ↔
      b.row (ins (k + 3)).f0Pc = b.row (ins k).f0Pc ∧
      taken (fetched r ins (k + 2)) (ins (k + 3)).f1Ghist =
        taken (fetched r ins k) (ins (k + 1)).f1Ghist := by
  unfold MetaRight
  rw [f3Meta_eq, f3Taken_eq, PerceptronMeta.mk.injEq]

def smallBank : PerceptronBank := ⟨4, 1, 0, fun pc => (pc >>> 3).toNat⟩

def smallRegs : smallBank.Regs :=
  ⟨fun _ _ => 0, fun _ => 0, false, false, ⟨false, ⟨0, false⟩, fun _ => false, false⟩, fun _ => 0⟩

/-- Straight-line code, one packet a cycle, and what is on the update bus. -/
def fetchOn (update : ℕ → smallBank.Update) (k : ℕ) : smallBank.Inputs where
  f0Valid := true
  f0Pc := 0x80000000 + 8 * UInt64.ofNat k
  f1Ghist _ := false
  update := update k
  predictUndef _ := 0
  updateUndef _ := 0

def idleUpdate : smallBank.Update := ⟨false, ⟨0, false⟩, fun _ => false, false⟩

/-- The packet of row 0 records row 3. -/
theorem meta_names_later_row :
    smallBank.row (fetchOn (fun _ => idleUpdate) 0).f0Pc = 0 ∧
    (outputs (regsAt smallRegs (fetchOn fun _ => idleUpdate) 3)
      (fetchOn (fun _ => idleUpdate) 3)).f3Meta.idx = 3 ∧
    ¬ MetaRight smallRegs (fetchOn fun _ => idleUpdate) 0 := by
  refine ⟨by decide, by decide, fun h => ?_⟩
  have hidx := congrArg PerceptronMeta.idx h
  revert hidx
  decide

def Update.mispredicted (u : b.Update) : Bool := u.updateMeta.pred != u.cfiTaken

/-- What an update is meant to do to the table: a mispredicted one trains its own row. -/
def train (t : ℕ → b.Row) (u : b.Update) : ℕ → b.Row :=
  if u.valid && u.mispredicted then
    writeRow t u.updateMeta.idx (newWeights (t u.updateMeta.idx) u.ghist u.cfiTaken)
  else t

/-- The update of cycle `t` was on the bus before it was valid: its prediction one cycle
earlier and, if it is mispredicted, its history one and its row two cycles earlier, with
no write in between. -/
structure Held (ins : ℕ → b.Inputs) (t : ℕ) : Prop where
  pred : (ins t).update.valid = true →
    1 ≤ t ∧ (ins (t - 1)).update.updateMeta.pred = (ins t).update.updateMeta.pred
  row : (ins t).update.valid = true → (ins t).update.mispredicted = true →
    2 ≤ t ∧ (ins (t - 1)).update.updateMeta.idx = (ins t).update.updateMeta.idx ∧
      (ins (t - 1)).update.ghist = (ins t).update.ghist ∧
      (ins (t - 2)).update.updateMeta.idx = (ins t).update.updateMeta.idx ∧
      ((ins (t - 1)).update.valid = true →
        (ins (t - 2)).update.updateMeta.pred = (ins (t - 1)).update.cfiTaken)

theorem s1Update_succ (r : b.Regs) (ins : ℕ → b.Inputs) (k : ℕ) :
    (regsAt r ins (k + 1)).s1Update = (ins k).update := rfl

theorem writes_succ (r : b.Regs) (ins : ℕ → b.Inputs) (k : ℕ) :
    writes (regsAt r ins (k + 1)) (ins (k + 1)) =
      ((ins (k + 1)).update.valid &&
        (ins k).update.updateMeta.pred != (ins (k + 1)).update.cfiTaken) := rfl

theorem table_succ_of_not_writes {r : b.Regs} {ins : ℕ → b.Inputs} {k : ℕ}
    (h : writes (regsAt r ins k) (ins k) = false) :
    (regsAt r ins (k + 1)).perceptronTable = (regsAt r ins k).perceptronTable := by
  rw [regsAt_succ, step, h]
  rfl

theorem table_succ_of_writes {r : b.Regs} {ins : ℕ → b.Inputs} {k : ℕ}
    (h : writes (regsAt r ins (k + 1)) (ins (k + 1)) = true) :
    (regsAt r ins (k + 2)).perceptronTable =
      writeRow (regsAt r ins (k + 1)).perceptronTable (ins k).update.updateMeta.idx
        (newWeights (regsAt r ins (k + 1)).updateWeights (ins k).update.ghist
          (ins (k + 1)).update.cfiTaken) := by
  rw [regsAt_succ, step, h]
  rfl

/-- With no write in between, the weights in the register are those of the row. -/
theorem updateWeights_eq {r : b.Regs} {ins : ℕ → b.Inputs} {k : ℕ}
    (hrow : (ins k).update.updateMeta.idx < b.nSets)
    (hw : writes (regsAt r ins (k + 1)) (ins (k + 1)) = false) :
    (regsAt r ins (k + 2)).updateWeights =
      (regsAt r ins (k + 2)).perceptronTable (ins k).update.updateMeta.idx := by
  rw [table_succ_of_not_writes hw, regsAt_succ]
  simp [step, readRow, hw, hrow, s1Update_succ]

theorem writeRow_congr {t : ℕ → b.Row} {idx : ℕ} {w w' : b.Row} (h : idx < b.nSets → w = w') :
    writeRow t idx w = writeRow t idx w' := by
  unfold writeRow
  split
  · next hlt => rw [h hlt]
  · rfl

theorem table_succ_of_held {r : b.Regs} {ins : ℕ → b.Inputs} {t : ℕ} (h : Held ins t) :
    (regsAt r ins (t + 1)).perceptronTable =
      train (regsAt r ins t).perceptronTable (ins t).update := by
  unfold train
  by_cases hv : (ins t).update.valid = true
  · obtain ⟨ht, hpred⟩ := h.pred hv
    obtain ⟨k, rfl⟩ : ∃ k, t = k + 1 := ⟨t - 1, by omega⟩
    rw [Nat.add_sub_cancel] at hpred
    have hwrites : writes (regsAt r ins (k + 1)) (ins (k + 1)) =
        (ins (k + 1)).update.mispredicted := by
      rw [writes_succ, hv, hpred, Bool.true_and]
      rfl
    rw [hv, Bool.true_and]
    split
    · next hm =>
      obtain ⟨ht, hidx, hghist, hidx', hquiet⟩ := h.row hv hm
      obtain ⟨k, rfl⟩ : ∃ n, k = n + 1 := ⟨k - 1, by omega⟩
      rw [table_succ_of_writes (hwrites.trans hm)]
      simp only [Nat.add_sub_cancel, Nat.reduceSubDiff] at hidx hghist hidx' hquiet
      rw [hidx, hghist]
      refine writeRow_congr fun hlt => ?_
      rw [updateWeights_eq (hidx'.trans_lt hlt), hidx']
      rw [writes_succ]
      cases hv' : (ins (k + 1)).update.valid with
      | false => rfl
      | true => simpa using hquiet hv'
    · next hm => exact table_succ_of_not_writes (by simpa [hwrites] using hm)
  · have hv : (ins t).update.valid = false := by simpa using hv
    have hw : writes (regsAt r ins t) (ins t) = false := by
      unfold writes
      rw [hv, Bool.false_and]
    rw [table_succ_of_not_writes hw, hv, Bool.false_and, if_neg Bool.false_ne_true]

/-- In every run whose updates are all held on the bus, the table is in every cycle what
the updates make of it one after the other, each training its own row and no other. -/
theorem updates_train_own_rows (r : b.Regs) (ins : ℕ → b.Inputs) (h : ∀ t, Held ins t) (t : ℕ) :
    (regsAt r ins t).perceptronTable =
      Clocked.stateAt train r.perceptronTable (fun t => (ins t).update) t := by
  induction t with
  | zero => rfl
  | succ t ih => rw [table_succ_of_held (h t), ih, Clocked.stateAt_succ]

/-- A taken branch of row 3 that was predicted not taken, valid in cycle 2. -/
def takenUpdate (valid : Bool) : smallBank.Update := ⟨valid, ⟨3, false⟩, fun _ => true, true⟩

theorem held_update_trains_row :
    (regsAt smallRegs (fetchOn fun t => takenUpdate (t == 2)) 3).perceptronTable =
        Clocked.stateAt train smallRegs.perceptronTable (fun t => takenUpdate (t == 2)) 3 ∧
      (regsAt smallRegs (fetchOn fun t => takenUpdate (t == 2)) 3).perceptronTable 3 =
        newWeights (fun _ => 0) (fun _ => true) true := by
  have h := updates_train_own_rows smallRegs (fetchOn fun t => takenUpdate (t == 2))
    (fun t => by
      have hvalid : ∀ s, (fetchOn (fun t => takenUpdate (t == 2)) s).update.valid = true → s = 2 :=
        fun s hs => by simpa [fetchOn, takenUpdate] using hs
      refine ⟨fun hv => ?_, fun hv _ => ?_⟩
      · obtain rfl := hvalid t hv
        exact ⟨by decide, rfl⟩
      · obtain rfl := hvalid t hv
        exact ⟨le_rfl, rfl, rfl, rfl, fun h => by cases hvalid _ h⟩) 3
  exact ⟨h, h ▸ rfl⟩

/-- The same update with nothing on the bus before it trains row 0; row 3 is never
written. -/
theorem lone_update_trains_other_row :
    let ins := fetchOn fun t => if t = 2 then takenUpdate true else idleUpdate
    (∀ t, (regsAt smallRegs ins t).perceptronTable 3 = smallRegs.perceptronTable 3) ∧
    (regsAt smallRegs ins 3).perceptronTable 0 ≠ smallRegs.perceptronTable 0 ∧
    (regsAt smallRegs ins 3).perceptronTable ≠
      Clocked.stateAt train smallRegs.perceptronTable (fun t => (ins t).update) 3 := by
  intro ins
  refine ⟨fun t => ?_, fun h => ?_, fun h => ?_⟩
  · induction t with
    | zero => rfl
    | succ t ih =>
      by_cases ht : t = 2
      · subst ht
        rfl
      · have hv : (ins t).update.valid = false := by
          simp [ins, fetchOn, ht, idleUpdate]
        rw [table_succ_of_not_writes (by rw [writes, hv, Bool.false_and]), ih]
  · have hbias := congrFun h (Fin.last _)
    revert hbias
    decide
  · have hbias := congrFun (congrFun h 3) (Fin.last _)
    revert hbias
    decide

end PerceptronSoc.PerceptronBank
