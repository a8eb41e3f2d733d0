import Mathlib.Analysis.Real.Sqrt
import PerceptronSoc.Spec.Clocking

/-! The reference of `SimplePllConfiguration`. The candidates are counted with `ceil`, so
unless the limit is a multiple of the fastest clock the last one lies beyond the limit; the
reference is within it if a smaller multiple is viable against that one. -/

namespace PerceptronSoc

theorem longToInt_of_lt {n : ℤ} (h0 : 0 ≤ n) (h : n < 2 ^ 31) : longToInt n = n := by
  unfold longToInt
  rw [BitVec.toInt_ofInt]
  exact Int.bmod_eq_of_le (by omega) (by omega)

theorem roundLong_eq_floor {x : ℚ} (h0 : 0 ≤ x) (h : x < 2 ^ 31 - 1 / 2) :
    roundLong x = ⌊x + 1 / 2⌋ ∧ ⌊x + 1 / 2⌋ < 2 ^ 31 := by
  have hlow : 0 ≤ ⌊x + 1 / 2⌋ := Int.floor_nonneg.mpr (by linarith)
  have hhigh : ⌊x + 1 / 2⌋ < 2 ^ 31 := by
    rw [Int.floor_lt]
    push_cast
    linarith
  refine ⟨?_, hhigh⟩
  unfold roundLong
  omega

theorem roundLong_intCast {n : ℤ} (h0 : 0 ≤ n) (h : n < 2 ^ 31) : roundLong (n : ℚ) = n := by
  have hfloor : ⌊(n : ℚ) + 1 / 2⌋ = n := by
    rw [Int.floor_eq_iff]
    constructor <;> linarith
  unfold roundLong
  rw [hfloor]
  omega

theorem one_le_roundLong {x : ℚ} (h : 1 ≤ x) : 1 ≤ roundLong x := by
  have hfloor : 1 ≤ ⌊x + 1 / 2⌋ := by
    rw [Int.le_floor]
    push_cast
    linarith
  unfold roundLong
  omega

namespace FrequencyUtils

variable {freqs : List ℚ} {fastest limit ref x : ℚ} {m : ℕ}

def termSquare (ref desired : ℚ) : ℚ :=
  ((ref / roundLong (ref / desired) - desired) / desired) ^ 2

theorem squaredError_eq (ref : ℚ) (freqs : List ℚ) (sum : ℚ) :
    squaredError ref freqs sum = sum + (freqs.map (termSquare ref)).sum := by
  induction freqs generalizing sum with
  | nil => simp [squaredError]
  | cons desired xs ih =>
    rw [squaredError, ih, List.map_cons, List.sum_cons, ← add_assoc]
    rw [termSquare, sq]

theorem termSquare_nonneg (ref desired : ℚ) : 0 ≤ termSquare ref desired := sq_nonneg _

theorem meanSquare_nonneg (freqs : List ℚ) (ref : ℚ) : 0 ≤ meanSquare freqs ref := by
  unfold meanSquare
  rw [squaredError_eq, zero_add]
  refine div_nonneg (List.sum_nonneg fun e he => ?_) (Nat.cast_nonneg _)
  obtain ⟨f, -, rfl⟩ := List.mem_map.mp he
  exact termSquare_nonneg ref f

theorem termSquare_eq_zero_iff {f : ℚ} (hf : 0 < f) :
    termSquare ref f = 0 ↔ ref / roundLong (ref / f) = f := by
  unfold termSquare
  rw [sq_eq_zero_iff, div_eq_zero_iff, sub_eq_zero]
  exact or_iff_left hf.ne'

/-- A reference has no error if every output gets its frequency. -/
theorem meanSquare_eq_zero_iff (hne : freqs ≠ []) (hpos : ∀ f ∈ freqs, 0 < f) :
    meanSquare freqs ref = 0 ↔ ∀ f ∈ freqs, ref / roundLong (ref / f) = f := by
  have hlen : (freqs.length : ℚ) ≠ 0 := by
    rw [Nat.cast_ne_zero]
    exact (List.length_pos_of_ne_nil hne).ne'
  unfold meanSquare
  rw [squaredError_eq, zero_add, div_eq_zero_iff, or_iff_left hlen]
  have hnonneg : ∀ e ∈ freqs.map (termSquare ref), 0 ≤ e := by
    intro e he
    obtain ⟨f, -, rfl⟩ := List.mem_map.mp he
    exact termSquare_nonneg ref f
  constructor
  · intro hsum f hf
    have hzero := List.all_zero_of_le_zero_le_of_sum_eq_zero hnonneg hsum (List.mem_map_of_mem hf)
    exact (termSquare_eq_zero_iff (hpos f hf)).mp hzero
  · intro hall
    apply List.sum_eq_zero
    intro e he
    obtain ⟨f, hf, rfl⟩ := List.mem_map.mp he
    exact (termSquare_eq_zero_iff (hpos f hf)).mpr (hall f hf)

theorem viable_iff (minError error : ℚ) :
    viable minError error = true ↔ error ≤ minError * relativeThreshold ^ 2 ∨
      (0 < minError ∧ error < absoluteThreshold ^ 2) := by
  simp [viable]

theorem viable_mono {e e' error : ℚ} (h : e ≤ e') (hv : viable e error = true) :
    viable e' error = true := by
  rw [viable_iff] at hv ⊢
  obtain hrel | ⟨hpos, habs⟩ := hv
  · exact .inl (hrel.trans (mul_le_mul_of_nonneg_right h (sq_nonneg _)))
  · exact .inr ⟨hpos.trans_le h, habs⟩

theorem viable_self {e : ℚ} (h : 0 ≤ e) : viable e e = true := by
  rw [viable_iff]
  refine .inl ?_
  unfold relativeThreshold
  linarith

/-- Next to a reference without error only such are viable. -/
theorem viable_zero_iff {error : ℚ} (h : 0 ≤ error) : viable 0 error = true ↔ error = 0 := by
  rw [viable_iff]
  constructor
  · rintro (hrel | ⟨hpos, -⟩)
    · linarith
    · exact absurd hpos (lt_irrefl 0)
  · rintro rfl
    simp

theorem viable_iff_rms {minError : ℚ} (hmin : 0 ≤ minError) (error : ℚ) :
    viable minError error = true ↔
      √(error : ℝ) ≤ √(minError : ℝ) * relativeThreshold ∨
        (0 < √(minError : ℝ) ∧ √(error : ℝ) < absoluteThreshold) := by
  have hrel : (0 : ℝ) ≤ relativeThreshold := by norm_num [relativeThreshold]
  have habs : (0 : ℝ) < absoluteThreshold := by norm_num [absoluteThreshold]
  have hmin' : (0 : ℝ) ≤ minError := by exact_mod_cast hmin
  have h1 : √(error : ℝ) ≤ √(minError : ℝ) * relativeThreshold ↔
      error ≤ minError * relativeThreshold ^ 2 := by
    rw [Real.sqrt_le_left (mul_nonneg (Real.sqrt_nonneg _) hrel), mul_pow, Real.sq_sqrt hmin']
    exact_mod_cast Iff.rfl
  have h2 : 0 < √(minError : ℝ) ↔ 0 < minError := by
    rw [Real.sqrt_pos]
    exact_mod_cast Iff.rfl
  have h3 : √(error : ℝ) < absoluteThreshold ↔ error < absoluteThreshold ^ 2 := by
    rw [Real.sqrt_lt' habs]
    exact_mod_cast Iff.rfl
  rw [viable_iff, h1, h2, h3]

theorem mem_candidateFreqs :
    x ∈ candidateFreqs fastest limit ↔
      ∃ m : ℕ, 1 ≤ m ∧ m ≤ candidateCount fastest limit ∧ x = m * fastest := by
  unfold candidateFreqs
  simp only [List.mem_map, List.mem_range]
  constructor
  · rintro ⟨i, hi, rfl⟩
    exact ⟨i + 1, by omega, by omega, by push_cast; rfl⟩
  · rintro ⟨m, h1, hm, rfl⟩
    refine ⟨m - 1, by omega, ?_⟩
    rw [Nat.cast_sub h1]
    push_cast
    ring

theorem candidateCount_pos (hF : 0 < fastest) (hmax : fastest ≤ limit) :
    1 ≤ candidateCount fastest limit := by
  have hceil : 1 ≤ ⌈limit / fastest⌉ := by
    rw [Int.one_le_ceil_iff]
    exact div_pos (hF.trans_le hmax) hF
  unfold candidateCount doubleToInt
  omega

/-- Only the last candidate can be beyond the limit. -/
theorem le_limit_of_lt (hF : 0 < fastest) (hm : m < candidateCount fastest limit) :
    m * fastest ≤ limit := by
  have hceil : (m : ℤ) < ⌈limit / fastest⌉ := by
    unfold candidateCount doubleToInt at hm
    omega
  rw [Int.lt_ceil, Int.cast_natCast, lt_div_iff₀ hF] at hceil
  exact hceil.le

/-- No multiple within the limit is left out. -/
theorem le_candidateCount (hF : 0 < fastest) (hint : m < 2 ^ 31)
    (hm : m * fastest ≤ limit) : m ≤ candidateCount fastest limit := by
  rw [← le_div_iff₀ hF] at hm
  have hceil : (m : ℤ) ≤ ⌈limit / fastest⌉ := by
    have h : (m : ℚ) ≤ ⌈limit / fastest⌉ := hm.trans (Int.le_ceil _)
    exact_mod_cast h
  unfold candidateCount doubleToInt
  omega

/-- What the search returns: the least candidate that is viable next to the best one. -/
structure Chosen (freqs : List ℚ) (fastest limit ref minError : ℚ) : Prop where
  found : computeReferenceAsMultipleOfFastestClock freqs limit = some ref
  least : ∀ x ∈ candidateFreqs fastest limit, minError ≤ meanSquare freqs x
  attained : ∃ x ∈ candidateFreqs fastest limit, meanSquare freqs x = minError
  candidate : ref ∈ candidateFreqs fastest limit
  isViable : viable minError (meanSquare freqs ref) = true
  first : ∀ x ∈ candidateFreqs fastest limit, viable minError (meanSquare freqs x) = true → ref ≤ x

theorem exists_chosen (hfast : freqs.max? = some fastest) (hF : 0 < fastest)
    (hmax : fastest ≤ limit) : ∃ ref minError, Chosen freqs fastest limit ref minError := by
  set candidates := candidateFreqs fastest limit with hcand
  have hmem : fastest ∈ candidates :=
    mem_candidateFreqs.mpr ⟨1, le_rfl, candidateCount_pos hF hmax, by simp⟩
  obtain ⟨minError, hmin⟩ : ∃ e, (candidates.map (meanSquare freqs)).min? = some e := by
    rw [← Option.isSome_iff_exists, List.isSome_min?_iff]
    exact List.ne_nil_of_mem (List.mem_map_of_mem hmem)
  obtain ⟨hattained, hleast⟩ := List.min?_eq_some_iff.mp hmin
  obtain ⟨best, hbest, hbestError⟩ := List.mem_map.mp hattained
  have hnonneg : 0 ≤ minError := hbestError ▸ meanSquare_nonneg freqs best
  have hbestViable : best ∈ candidates.filter fun f => viable minError (meanSquare freqs f) :=
    List.mem_filter.mpr ⟨hbest, by rw [hbestError]; exact viable_self hnonneg⟩
  obtain ⟨ref, href⟩ : ∃ ref,
      (candidates.filter fun f => viable minError (meanSquare freqs f)).min? = some ref := by
    rw [← Option.isSome_iff_exists, List.isSome_min?_iff]
    exact List.ne_nil_of_mem hbestViable
  obtain ⟨hrefMem, hrefLeast⟩ := List.min?_eq_some_iff.mp href
  obtain ⟨hrefCand, hrefViable⟩ := List.mem_filter.mp hrefMem
  refine ⟨ref, minError, ?_, fun x hx => hleast _ (List.mem_map_of_mem hx),
    ⟨best, hbest, hbestError⟩, hrefCand, hrefViable,
    fun x hx hv => hrefLeast x (List.mem_filter.mpr ⟨hx, hv⟩)⟩
  unfold computeReferenceAsMultipleOfFastestClock
  simp only [hfast, Option.bind_some, if_pos hmax, ← hcand, hmin, href]

/-- The multiples of the fastest clock within the limit that every requested frequency
divides. -/
def CommonMultiples (freqs : List ℚ) (fastest limit : ℚ) : Set ℚ :=
  {x | (∃ m : ℕ, 1 ≤ m ∧ x = m * fastest) ∧ x ≤ limit ∧ ∀ f ∈ freqs, ∃ a : ℤ, x = a * f}

structure IsReference (freqs : List ℚ) (fastest limit ref : ℚ) : Prop where
  multiple : ∃ m : ℕ, 1 ≤ m ∧ ref = m * fastest
  within : ref ≤ limit
  dividers : ∀ p ∈ sinkDividerMap ref freqs, 1 ≤ p.2
  optimal : (CommonMultiples freqs fastest limit).Nonempty →
    (∀ p ∈ sinkDividerMap ref freqs, ref / p.2 = p.1) ∧
    IsLeast (CommonMultiples freqs fastest limit) ref

/-- The last candidate is within the limit, or a smaller one is viable next to it. -/
def LimitKept (freqs : List ℚ) (fastest limit : ℚ) : Prop :=
  candidateCount fastest limit * fastest ≤ limit ∨
  ∃ m : ℕ, 1 ≤ m ∧ m < candidateCount fastest limit ∧
    viable (meanSquare freqs (candidateCount fastest limit * fastest))
      (meanSquare freqs (m * fastest)) = true

/-- The candidates that are viable next to every candidate, and so next to the best one. -/
def Suitable (freqs : List ℚ) (fastest limit : ℚ) : Set ℚ :=
  {x | x ∈ candidateFreqs fastest limit ∧ ∀ y ∈ candidateFreqs fastest limit,
    viable (meanSquare freqs y) (meanSquare freqs x) = true}

/-- The conversion to an `Int` does no harm: the quotients of the least common multiple are
in range, and those of the least suitable candidate are in range or come out positive. -/
def DividersFit (freqs : List ℚ) (fastest limit : ℚ) : Prop :=
  (∀ x, IsLeast (CommonMultiples freqs fastest limit) x → ∀ f ∈ freqs, x / f < 2 ^ 31) ∧
  ∀ x, IsLeast (Suitable freqs fastest limit) x → ∀ f ∈ freqs,
    0 < roundLong (x / f) % 2 ^ 32 ∧ roundLong (x / f) % 2 ^ 32 < 2 ^ 31

variable {minError : ℚ}

theorem last_mem_candidateFreqs (hF : 0 < fastest) (hmax : fastest ≤ limit) :
    candidateCount fastest limit * fastest ∈ candidateFreqs fastest limit :=
  mem_candidateFreqs.mpr ⟨_, candidateCount_pos hF hmax, le_rfl, rfl⟩

theorem Chosen.limitKept (h : Chosen freqs fastest limit ref minError) (hF : 0 < fastest)
    (hmax : fastest ≤ limit) (hwithin : ref ≤ limit) : LimitKept freqs fastest limit := by
  by_cases hlast : candidateCount fastest limit * fastest ≤ limit
  · exact .inl hlast
  · obtain ⟨m, h1, hm, href⟩ := mem_candidateFreqs.mp h.candidate
    have hne : m ≠ candidateCount fastest limit := by
      rintro rfl
      exact hlast (href ▸ hwithin)
    refine .inr ⟨m, h1, lt_of_le_of_ne hm hne, ?_⟩
    rw [← href]
    exact viable_mono (h.least _ (last_mem_candidateFreqs hF hmax)) h.isViable

/-- A viable candidate below the last one keeps the reference within the limit. -/
theorem Chosen.le_limit_of_viable (h : Chosen freqs fastest limit ref minError)
    (hF : 0 < fastest) (h1 : 1 ≤ m) (hm : m < candidateCount fastest limit)
    (hv : viable minError (meanSquare freqs (m * fastest)) = true) : ref ≤ limit :=
  (h.first _ (mem_candidateFreqs.mpr ⟨m, h1, hm.le, rfl⟩) hv).trans (le_limit_of_lt hF hm)

theorem Chosen.within (h : Chosen freqs fastest limit ref minError) (hF : 0 < fastest)
    (hkept : LimitKept freqs fastest limit) : ref ≤ limit := by
  obtain hlast | ⟨m, h1, hm, hv⟩ := hkept
  · obtain ⟨m, -, hm, rfl⟩ := mem_candidateFreqs.mp h.candidate
    refine le_trans ?_ hlast
    exact mul_le_mul_of_nonneg_right (Nat.cast_le.mpr hm) hF.le
  · obtain ⟨best, hbest, hbestError⟩ := h.attained
    obtain ⟨j, hj1, hj, rfl⟩ := mem_candidateFreqs.mp hbest
    obtain rfl | hlt := hj.eq_or_lt
    · -- the last candidate is the best one, and the smaller one is viable next to it
      rw [hbestError] at hv
      exact h.le_limit_of_viable hF h1 hm hv
    · refine h.le_limit_of_viable hF hj1 hlt ?_
      rw [hbestError]
      exact viable_self (hbestError ▸ meanSquare_nonneg _ _)

theorem Chosen.isLeast_suitable (h : Chosen freqs fastest limit ref minError) :
    IsLeast (Suitable freqs fastest limit) ref := by
  refine ⟨⟨h.candidate, fun y hy => viable_mono (h.least y hy) h.isViable⟩, fun x hx => ?_⟩
  obtain ⟨best, hbest, hbestError⟩ := h.attained
  exact h.first x hx.1 (hbestError ▸ hx.2 best hbest)

theorem Chosen.fastest_le (h : Chosen freqs fastest limit ref minError) (hF : 0 < fastest) :
    fastest ≤ ref := by
  obtain ⟨m, h1, -, hm⟩ := mem_candidateFreqs.mp h.candidate
  rw [hm]
  exact le_mul_of_one_le_left hF.le (by exact_mod_cast h1)

theorem CommonMultiples.fastest_le (hF : 0 < fastest)
    (hx : x ∈ CommonMultiples freqs fastest limit) : fastest ≤ x := by
  obtain ⟨⟨m, h1, hm⟩, -, -⟩ := hx
  rw [hm]
  exact le_mul_of_one_le_left hF.le (by exact_mod_cast h1)

/-- The quotients of a common multiple whose dividers are in range. -/
theorem CommonMultiples.quotient (hx : x ∈ CommonMultiples freqs fastest limit) (hxpos : 0 < x)
    {f : ℚ} (hf : f ∈ freqs) (hfpos : 0 < f) (hfits : x / f < 2 ^ 31) :
    0 < roundLong (x / f) ∧ roundLong (x / f) < 2 ^ 31 ∧ x / roundLong (x / f) = f := by
  obtain ⟨-, -, hdiv⟩ := hx
  obtain ⟨a, ha⟩ := hdiv f hf
  have hquot : x / f = a := by
    rw [ha]
    exact mul_div_cancel_right₀ _ hfpos.ne'
  have hapos : 0 < a := by
    have h : (0 : ℚ) < a := hquot ▸ div_pos hxpos hfpos
    exact_mod_cast h
  have halt : a < 2 ^ 31 := by
    have h : (a : ℚ) < 2 ^ 31 := hquot ▸ hfits
    exact_mod_cast h
  rw [hquot, roundLong_intCast hapos.le halt]
  refine ⟨hapos, halt, ?_⟩
  rw [ha]
  exact mul_div_cancel_left₀ _ (by exact_mod_cast hapos.ne')

theorem candidate_of_common (hfast : fastest ∈ freqs) (hF : 0 < fastest)
    (hx : x ∈ CommonMultiples freqs fastest limit) (hfits : ∀ f ∈ freqs, x / f < 2 ^ 31) :
    x ∈ candidateFreqs fastest limit := by
  obtain ⟨⟨m, h1, rfl⟩, hle, -⟩ := hx
  refine mem_candidateFreqs.mpr ⟨m, h1, le_candidateCount hF ?_ hle, rfl⟩
  have hquot := hfits fastest hfast
  rw [mul_div_cancel_right₀ _ hF.ne'] at hquot
  exact_mod_cast hquot

/-- A candidate without error that no common multiple within the limit exceeds is one. -/
theorem common_of_exact (hne : freqs ≠ []) (hpos : ∀ f ∈ freqs, 0 < f)
    (hcand : x ∈ candidateFreqs fastest limit) (hwithin : x ≤ limit)
    (hzero : meanSquare freqs x = 0) : x ∈ CommonMultiples freqs fastest limit := by
  obtain ⟨m, h1, -, hm⟩ := mem_candidateFreqs.mp hcand
  rw [meanSquare_eq_zero_iff hne hpos] at hzero
  refine ⟨⟨m, h1, hm⟩, hwithin, fun f hf => ⟨roundLong (x / f), ?_⟩⟩
  have hmul := hzero f hf
  rw [div_eq_iff] at hmul
  · rw [mul_comm]
    exact hmul
  · intro hr
    rw [hr, div_zero] at hmul
    exact (hpos f hf).ne hmul

/-- There are finitely many multiples within the limit, so one is the least. -/
theorem exists_least_common (hF : 0 < fastest)
    (hcommon : (CommonMultiples freqs fastest limit).Nonempty) :
    ∃ x, IsLeast (CommonMultiples freqs fastest limit) x := by
  classical
  obtain ⟨y, ⟨m, h1, rfl⟩, hrest⟩ := hcommon
  have hsome : ∃ m : ℕ, (m * fastest : ℚ) ∈ CommonMultiples freqs fastest limit :=
    ⟨m, ⟨m, h1, rfl⟩, hrest⟩
  refine ⟨_, Nat.find_spec hsome, fun x hx => ?_⟩
  obtain ⟨⟨j, hj, rfl⟩, -⟩ := id hx
  exact mul_le_mul_of_nonneg_right (Nat.cast_le.mpr (Nat.find_min' hsome hx)) hF.le

theorem Chosen.eq_least_common (h : Chosen freqs fastest limit ref minError)
    (hfast : fastest ∈ freqs) (hpos : ∀ f ∈ freqs, 0 < f)
    (hx : IsLeast (CommonMultiples freqs fastest limit) x)
    (hfits : ∀ f ∈ freqs, x / f < 2 ^ 31) : ref = x := by
  have hne : freqs ≠ [] := List.ne_nil_of_mem hfast
  have hF := hpos fastest hfast
  have hxpos := hF.trans_le (CommonMultiples.fastest_le hF hx.1)
  have hzero : meanSquare freqs x = 0 := by
    rw [meanSquare_eq_zero_iff hne hpos]
    exact fun f hf => (CommonMultiples.quotient hx.1 hxpos hf (hpos f hf) (hfits f hf)).2.2
  have hcand := candidate_of_common hfast hF hx.1 hfits
  have hmin : minError = 0 := by
    obtain ⟨best, -, hbest⟩ := h.attained
    have hle := h.least x hcand
    rw [hzero] at hle
    exact le_antisymm hle (hbest ▸ meanSquare_nonneg freqs best)
  have hle : ref ≤ x := by
    refine h.first x hcand ?_
    rw [hmin, hzero]
    exact viable_self le_rfl
  have hviable := h.isViable
  rw [hmin, viable_zero_iff (meanSquare_nonneg _ _)] at hviable
  exact hle.antisymm
    (hx.2 (common_of_exact hne hpos h.candidate (hle.trans hx.1.2.1) hviable))

/-- `toInt` is positive if the low half of the word is below its sign bit. -/
theorem one_le_longToInt_iff {n : ℤ} :
    1 ≤ longToInt n ↔ 0 < n % 2 ^ 32 ∧ n % 2 ^ 32 < 2 ^ 31 := by
  unfold longToInt
  rw [BitVec.toInt_ofInt, Int.bmod_def]
  split_ifs with hlow
  · constructor
    · intro h
      omega
    · intro h
      omega
  · constructor
    · intro h
      omega
    · intro h
      omega

theorem dividers_iff : (∀ p ∈ sinkDividerMap ref freqs, 1 ≤ p.2) ↔
    ∀ f ∈ freqs, 0 < roundLong (ref / f) % 2 ^ 32 ∧ roundLong (ref / f) % 2 ^ 32 < 2 ^ 31 := by
  unfold sinkDividerMap
  rw [List.forall_mem_map]
  exact forall₂_congr fun f _ => one_le_longToInt_iff

theorem Chosen.isReference (h : Chosen freqs fastest limit ref minError)
    (hfast : freqs.max? = some fastest) (hpos : ∀ f ∈ freqs, 0 < f)
    (hkept : LimitKept freqs fastest limit) (hfits : DividersFit freqs fastest limit) :
    IsReference freqs fastest limit ref := by
  obtain ⟨hmem, -⟩ := List.max?_eq_some_iff.mp hfast
  have hF := hpos fastest hmem
  obtain ⟨m, h1, -, hm⟩ := mem_candidateFreqs.mp h.candidate
  refine ⟨⟨m, h1, hm⟩, h.within hF hkept,
    dividers_iff.mpr (hfits.2 ref h.isLeast_suitable), fun hcommon => ?_⟩
  obtain ⟨x, hx⟩ := exists_least_common hF hcommon
  obtain rfl := h.eq_least_common hmem hpos hx (hfits.1 x hx)
  refine ⟨fun p hp => ?_, hx⟩
  obtain ⟨f, hf, rfl⟩ := List.mem_map.mp hp
  obtain ⟨hround, hrange, hexact⟩ := CommonMultiples.quotient hx.1
    (hF.trans_le (h.fastest_le hF)) hf (hpos f hf) (hfits.1 ref hx f hf)
  change ref / longToInt (roundLong (ref / f)) = f
  rw [longToInt_of_lt hround.le hrange]
  exact hexact

theorem Chosen.dividersFit (h : Chosen freqs fastest limit ref minError)
    (hpos : ∀ f ∈ freqs, 0 < f) (href : IsReference freqs fastest limit ref) :
    DividersFit freqs fastest limit := by
  refine ⟨fun x hx f hf => ?_, fun x hx => ?_⟩
  · obtain ⟨hexact, hleast⟩ := href.optimal ⟨x, hx.1⟩
    obtain rfl := hleast.unique hx
    have hmem : (f, longToInt (roundLong (ref / f))) ∈ sinkDividerMap ref freqs :=
      List.mem_map_of_mem hf
    have hdivider := hexact _ hmem
    have hone := href.dividers _ hmem
    -- the quotient is the divider itself, which is an `Int`
    have hne : (longToInt (roundLong (ref / f)) : ℚ) ≠ 0 := by
      exact_mod_cast (Int.lt_of_lt_of_le one_pos hone).ne'
    rw [div_eq_iff hne] at hdivider
    rw [hdivider, mul_div_cancel_left₀ _ (hpos f hf).ne']
    have hlt : longToInt (roundLong (ref / f)) < 2 ^ 31 := BitVec.toInt_lt
    exact_mod_cast hlt
  · obtain rfl := h.isLeast_suitable.unique hx
    exact dividers_iff.mp href.dividers

/-- If the limit itself has quotients in range, all that matter are. -/
theorem dividersFit_of_limit (hfast : freqs.max? = some fastest) (hpos : ∀ f ∈ freqs, 0 < f)
    (hmax : fastest ≤ limit) (hkept : LimitKept freqs fastest limit)
    (hlimit : ∀ f ∈ freqs, limit / f < 2 ^ 31 - 1 / 2) : DividersFit freqs fastest limit := by
  obtain ⟨hmem, hle⟩ := List.max?_eq_some_iff.mp hfast
  have hF := hpos fastest hmem
  obtain ⟨ref, minError, h⟩ := exists_chosen hfast hF hmax
  have hquot : ∀ x ≤ limit, ∀ f ∈ freqs, x / f < 2 ^ 31 - 1 / 2 := fun x hx f hf =>
    (div_le_div_of_nonneg_right hx (hpos f hf).le).trans_lt (hlimit f hf)
  refine ⟨fun x hx f hf => (hquot x hx.1.2.1 f hf).trans (by norm_num), fun x hx f hf => ?_⟩
  obtain rfl := h.isLeast_suitable.unique hx
  have hone : 1 ≤ ref / f := by
    rw [one_le_div (hpos f hf)]
    exact (hle f hf).trans (h.fastest_le hF)
  obtain ⟨hfloor, hrange⟩ := roundLong_eq_floor (by linarith) (hquot ref (h.within hF hkept) f hf)
  have hround := one_le_roundLong hone
  omega

/-- The search always returns a reference. It is what is asked for if and only if the limit
is kept and the dividers that matter fit an `Int`. -/
theorem reference_within_limit (freqs : List ℚ) (fastest limit : ℚ)
    (hfast : freqs.max? = some fastest) (hpos : ∀ f ∈ freqs, 0 < f) (hmax : fastest ≤ limit) :
    ∃ ref, computeReferenceAsMultipleOfFastestClock freqs limit = some ref ∧
      (IsReference freqs fastest limit ref ↔
        LimitKept freqs fastest limit ∧ DividersFit freqs fastest limit) := by
  have hF := hpos fastest (List.max?_eq_some_iff.mp hfast).1
  obtain ⟨ref, minError, h⟩ := exists_chosen hfast hF hmax
  exact ⟨ref, h.found, fun href => ⟨h.limitKept hF hmax href.within, h.dividersFit hpos href⟩,
    fun ⟨hkept, hfits⟩ => h.isReference hfast hpos hkept hfits⟩

/-- Outputs of 3200, 1600, 1000 and 100 MHz below 16 GHz: the limit is the fifth multiple of
the fastest. -/
theorem reference_of_four_outputs :
    ∃ ref, computeReferenceAsMultipleOfFastestClock [3200, 1600, 1000, 100] 16000 = some ref ∧
      IsReference [3200, 1600, 1000, 100] 3200 16000 ref := by
  obtain ⟨ref, hfound, href⟩ := reference_within_limit [3200, 1600, 1000, 100] 3200 16000
    (by decide +kernel) (by decide +kernel) (by decide +kernel)
  have hkept : LimitKept [3200, 1600, 1000, 100] 3200 16000 := .inl (by decide +kernel)
  exact ⟨ref, hfound, href.mpr ⟨hkept, dividersFit_of_limit (by decide +kernel)
    (by decide +kernel) (by decide +kernel) hkept (by decide +kernel)⟩⟩

/-- Outputs of 300 and 240 MHz below 1 GHz get a reference of 1.2 GHz. -/
theorem reference_beyond_limit :
    computeReferenceAsMultipleOfFastestClock [300, 240] 1000 = some 1200 ∧
      ¬ IsReference [300, 240] 300 1000 1200 := by
  refine ⟨by decide +kernel, fun h => ?_⟩
  have hwithin := h.within
  revert hwithin
  decide +kernel

end FrequencyUtils

end PerceptronSoc
