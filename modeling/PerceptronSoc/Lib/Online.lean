import Mathlib.Tactic
import Mathlib.Data.Nat.Count

/-! Online binary predictors: a machine that guesses an outcome for each input and is
then told the outcome. Two of them fed the same inputs can be combined by any rule that
picks one of the two guesses; the combination runs both in lock-step, and its misses are
bounded by theirs. -/

structure Online (σ ι : Type*) where
  predict : σ → ι → Bool × σ
  train : σ → ι → Bool → σ

namespace Online

variable {σ τ ι : Type*} (A : Online σ ι) (B : Online τ ι)

def mispredicts (s : σ) (b : ι × Bool) : Bool := (A.predict s b.1).1 != b.2

def step (s : σ) (b : ι × Bool) : σ := A.train (A.predict s b.1).2 b.1 b.2

def after (s : σ) (bs : List (ι × Bool)) : σ := bs.foldl A.step s

def missAt (s : σ) (bs : List (ι × Bool)) (k : ℕ) : Bool :=
  match bs[k]? with
  | some b => A.mispredicts (A.after s (bs.take k)) b
  | none => false

def misses (s : σ) (bs : List (ι × Bool)) : ℕ := Nat.count (fun k => A.missAt s bs k) bs.length

@[simp] theorem after_nil (s : σ) : A.after s [] = s := rfl

@[simp] theorem after_snoc (s : σ) (bs : List (ι × Bool)) (b : ι × Bool) :
    A.after s (bs ++ [b]) = A.step (A.after s bs) b := by
  simp [after]

theorem missAt_snoc_of_lt (s : σ) {bs : List (ι × Bool)} (b : ι × Bool) {k : ℕ}
    (hk : k < bs.length) : A.missAt s (bs ++ [b]) k = A.missAt s bs k := by
  unfold missAt
  rw [List.getElem?_append_left hk, List.take_append_of_le_length hk.le]

theorem missAt_snoc_length (s : σ) (bs : List (ι × Bool)) (b : ι × Bool) :
    A.missAt s (bs ++ [b]) bs.length = A.mispredicts (A.after s bs) b := by
  simp [missAt]

/-- The step of every counting argument: one more input adds its own miss. -/
theorem misses_snoc (s : σ) (bs : List (ι × Bool)) (b : ι × Bool) :
    A.misses s (bs ++ [b]) = A.misses s bs + if A.mispredicts (A.after s bs) b then 1 else 0 := by
  unfold misses
  rw [List.length_append, List.length_singleton, Nat.count_succ, missAt_snoc_length]
  congr 1
  apply le_antisymm
  · apply Nat.count_mono_left
    intro k hk h
    rwa [missAt_snoc_of_lt A s b hk] at h
  · apply Nat.count_mono_left
    intro k hk h
    rwa [missAt_snoc_of_lt A s b hk]

/-- Counting by a potential: if every input pays for its own miss, up to a loss that is
charged to the input, then so does the whole run. -/
theorem misses_mul_add_le (s : σ) (bs : List (ι × Bool)) (Φ : σ → ℤ) (loss : ℕ → ℤ) (c : ℤ)
    (hpay : ∀ k b, bs[k]? = some b →
      Φ (A.step (A.after s (bs.take k)) b) +
        (if A.mispredicts (A.after s (bs.take k)) b then c else 0) ≤
        Φ (A.after s (bs.take k)) + loss k) :
    c * A.misses s bs + Φ (A.after s bs) ≤ Φ s + ∑ k ∈ Finset.range bs.length, loss k := by
  induction bs using List.reverseRecOn with
  | nil => simp [misses]
  | append_singleton bs b ih =>
    have hprev : ∀ k b', bs[k]? = some b' →
        Φ (A.step (A.after s (bs.take k)) b') +
          (if A.mispredicts (A.after s (bs.take k)) b' then c else 0) ≤
          Φ (A.after s (bs.take k)) + loss k := by
      intro k b' hk
      have hlt : k < bs.length := (List.getElem?_eq_some_iff.mp hk).1
      have h := hpay k b' (by rw [List.getElem?_append_left hlt, hk])
      rwa [List.take_append_of_le_length hlt.le] at h
    have hlast := hpay bs.length b (by simp)
    rw [List.take_left] at hlast
    have hmul : c * ((A.misses s bs + if A.mispredicts (A.after s bs) b then 1 else 0 : ℕ) : ℤ) =
        c * A.misses s bs + if A.mispredicts (A.after s bs) b then c else 0 := by
      split_ifs
      · push_cast
        ring
      · simp
    rw [misses_snoc, after_snoc, List.length_append, List.length_singleton, Finset.sum_range_succ,
      hmul]
    linarith [ih hprev]

/-- Both predictors see every input; `pick` chooses between the two guesses once both
have been made. -/
def choose (pick : σ → τ → Bool → Bool → Bool) : Online (σ × τ) ι where
  predict st i :=
    let (a, s) := A.predict st.1 i
    let (b, t) := B.predict st.2 i
    (pick s t a b, (s, t))
  train st i d := (A.train st.1 i d, B.train st.2 i d)

variable {A B} {pick : σ → τ → Bool → Bool → Bool}

theorem choose_after (s : σ) (t : τ) (bs : List (ι × Bool)) :
    (A.choose B pick).after (s, t) bs = (A.after s bs, B.after t bs) := by
  induction bs generalizing s t with
  | nil => rfl
  | cons b bs ih => exact ih _ _

/-- A rule that only ever picks one of the two guesses. -/
def Picks (pick : σ → τ → Bool → Bool → Bool) : Prop :=
  ∀ s t a b, pick s t a b = a ∨ pick s t a b = b

theorem choose_mispredicts_eq (h : Picks pick) (s : σ) (t : τ) (b : ι × Bool) :
    (A.choose B pick).mispredicts (s, t) b = A.mispredicts s b ∨
    (A.choose B pick).mispredicts (s, t) b = B.mispredicts t b := by
  rcases h (A.predict s b.1).2 (B.predict t b.1).2 (A.predict s b.1).1 (B.predict t b.1).1
    with he | he
  · left
    simp [mispredicts, choose, he]
  · right
    simp [mispredicts, choose, he]

/-- Input by input, the combination is wrong exactly as one of the two is. -/
theorem choose_missAt_eq (h : Picks pick) (s : σ) (t : τ) (bs : List (ι × Bool)) (k : ℕ) :
    (A.choose B pick).missAt (s, t) bs k = A.missAt s bs k ∨
    (A.choose B pick).missAt (s, t) bs k = B.missAt t bs k := by
  unfold missAt
  cases bs[k]? with
  | none => exact .inl rfl
  | some b =>
    simp only [choose_after]
    exact choose_mispredicts_eq h _ _ b

theorem count_or_le (p q : ℕ → Prop) [DecidablePred p] [DecidablePred q] (n : ℕ) :
    Nat.count (fun k => p k ∨ q k) n ≤ Nat.count p n + Nat.count q n := by
  simp only [Nat.count_eq_card_filter_range, Finset.filter_or]
  exact Finset.card_union_le _ _

variable (A B) in
def bothMiss (s : σ) (t : τ) (bs : List (ι × Bool)) : ℕ :=
  Nat.count (fun k => A.missAt s bs k && B.missAt t bs k) bs.length

theorem bothMiss_le (h : Picks pick) (s : σ) (t : τ) (bs : List (ι × Bool)) :
    A.bothMiss B s t bs ≤ (A.choose B pick).misses (s, t) bs := by
  apply Nat.count_mono_left
  intro k _ hk
  obtain ⟨hA, hB⟩ := Bool.and_eq_true_iff.mp hk
  rcases choose_missAt_eq (A := A) (B := B) h s t bs k with he | he <;> rw [he] <;> assumption

theorem misses_choose_le (h : Picks pick) (s : σ) (t : τ) (bs : List (ι × Bool)) :
    (A.choose B pick).misses (s, t) bs ≤ A.misses s bs + B.misses t bs := by
  refine le_trans ?_ (count_or_le _ _ _)
  apply Nat.count_mono_left
  intro k _ hk
  rcases choose_missAt_eq (A := A) (B := B) h s t bs k with he | he
  · exact .inl (he ▸ hk)
  · exact .inr (he ▸ hk)

def onFst (A : Online σ ι) : Online (σ × τ) ι where
  predict st i := ((A.predict st.1 i).1, ((A.predict st.1 i).2, st.2))
  train st i d := (A.train st.1 i d, st.2)

def onSnd (B : Online τ ι) : Online (σ × τ) ι where
  predict st i := ((B.predict st.2 i).1, (st.1, (B.predict st.2 i).2))
  train st i d := (st.1, B.train st.2 i d)

theorem onFst_after (s : σ) (t : τ) (bs : List (ι × Bool)) :
    (A.onFst (τ := τ)).after (s, t) bs = (A.after s bs, t) := by
  induction bs generalizing s with
  | nil => rfl
  | cons b bs ih => exact ih _

theorem onSnd_after (s : σ) (t : τ) (bs : List (ι × Bool)) :
    (B.onSnd (σ := σ)).after (s, t) bs = (s, B.after t bs) := by
  induction bs generalizing t with
  | nil => rfl
  | cons b bs ih => exact ih _

theorem onFst_missAt (s : σ) (t : τ) (bs : List (ι × Bool)) (k : ℕ) :
    (A.onFst (τ := τ)).missAt (s, t) bs k = A.missAt s bs k := by
  unfold missAt
  rw [onFst_after]
  rfl

theorem onSnd_missAt (s : σ) (t : τ) (bs : List (ι × Bool)) (k : ℕ) :
    (B.onSnd (σ := σ)).missAt (s, t) bs k = B.missAt t bs k := by
  unfold missAt
  rw [onSnd_after]
  rfl

theorem onFst_misses (s : σ) (t : τ) (bs : List (ι × Bool)) :
    (A.onFst (τ := τ)).misses (s, t) bs = A.misses s bs := by
  simp only [misses, onFst_missAt]

theorem onSnd_misses (s : σ) (t : τ) (bs : List (ι × Bool)) :
    (B.onSnd (σ := σ)).misses (s, t) bs = B.misses t bs := by
  simp only [misses, onSnd_missAt]

end Online
