import PerceptronSoc.Spec.Tcm

/-! The loop of `tcm_a` counts the lanes of mask and data from the address of the request,
TileLink counts them from the aligned word that the address lies in. The port is a
byte-addressed memory as long as no request makes the two differ. -/

namespace PerceptronSoc

/-- The address of the request is that of its word; or a partial put selects no byte, and
the word that it reads for nothing does not run over the end of the TCM. -/
def TcmRequest.InPlace (g : TcmRegion) (r : TcmRequest) : Prop :=
  r.address % 8 = 0 ∨ (r.isGet = false ∧ r.mask = 0 ∧ r.address + 8 ≤ g.base + g.size)

namespace Tcm

variable {g : TcmRegion} {r : TcmRequest} {t t₀ : Tcm} {c : TcmCall} {cs : List TcmCall} {a : ℕ}

theorem writeLane_apply (bytes : ℕ → UInt8) (i : Fin 8) (a : ℕ) :
    writeLane r bytes i a =
      if r.mask.getLsbD i = true ∧ a = r.address + i then r.data i else bytes a := by
  unfold writeLane
  by_cases hm : r.mask[i] = true
  · rw [if_pos hm, Function.update_apply]
    exact if_congr (and_iff_right hm).symm rfl rfl
  · rw [if_neg hm]
    exact (if_neg fun h => hm h.1).symm

/-- The loop writes every byte at most once. -/
theorem writeLanes_apply (bytes : ℕ → UInt8) (l : List (Fin 8)) (a : ℕ) :
    l.foldl (writeLane r) bytes a =
      if ∃ i ∈ l, r.mask.getLsbD i = true ∧ a = r.address + i then
        r.data ⟨(a - r.address) % 8, Nat.mod_lt _ (by decide)⟩
      else bytes a := by
  induction l using List.reverseRecOn with
  | nil => simp
  | append_singleton l j ih =>
    rw [List.foldl_concat, writeLane_apply]
    split
    · next hj =>
      obtain ⟨hm, rfl⟩ := hj
      have hlane : (⟨(r.address + j - r.address) % 8, Nat.mod_lt _ (by decide)⟩ : Fin 8) = j := by
        ext
        simp only [Nat.add_sub_cancel_left]
        exact Nat.mod_eq_of_lt j.isLt
      rw [if_pos ⟨j, by simp, hm, rfl⟩, hlane]
    · next hj =>
      have hsame : (∃ i ∈ l ++ [j], r.mask.getLsbD i = true ∧ a = r.address + i) ↔
          ∃ i ∈ l, r.mask.getLsbD i = true ∧ a = r.address + i := by
        constructor
        · rintro ⟨i, hi, h⟩
          obtain hi | hi := List.mem_append.mp hi
          · exact ⟨i, hi, h⟩
          · rw [List.mem_singleton] at hi
            exact absurd (hi ▸ h) hj
        · rintro ⟨i, hi, h⟩
          exact ⟨i, List.mem_append_left _ hi, h⟩
      rw [ih, if_congr hsame rfl rfl]

/-- The bytes that `tcm_a` writes, whatever the address. -/
def rawPatch (r : TcmRequest) : ℕ → Option UInt8 := fun a =>
  if r.isGet = false ∧ r.address ≤ a ∧ r.mask.getLsbD (a - r.address) = true then
    some (r.data ⟨(a - r.address) % 8, Nat.mod_lt _ (by decide)⟩)
  else none

theorem tcmA_bytes (t : Tcm) (r : TcmRequest) :
    (t.tcmA r).bytes = Overlay.apply t.bytes (rawPatch r) := by
  funext a
  have hlane : (∃ i ∈ List.finRange 8, r.mask.getLsbD i = true ∧ a = r.address + i) ↔
      r.address ≤ a ∧ r.mask.getLsbD (a - r.address) = true := by
    constructor
    · rintro ⟨i, -, hm, rfl⟩
      refine ⟨Nat.le_add_right _ _, ?_⟩
      rw [Nat.add_sub_cancel_left]
      exact hm
    · rintro ⟨hle, hm⟩
      refine ⟨⟨a - r.address, BitVec.lt_of_getLsbD hm⟩, List.mem_finRange _, hm, ?_⟩
      simp only
      omega
  cases hget : r.isGet with
  | true => simp [tcmA, Overlay.apply, rawPatch, hget]
  | false =>
    simp only [tcmA, hget, Bool.false_eq_true, if_false, writeLanes_apply, Overlay.apply, rawPatch,
      true_and]
    rw [if_congr hlane rfl rfl]
    split <;> rfl

/-- At the address of a word the two ways to count lanes are one. -/
theorem rawPatch_eq_patch (h : r.address % 8 = 0) : rawPatch r = (TcmCall.tcmA r).patch := by
  funext a
  have hiff : (r.address ≤ a ∧ r.mask.getLsbD (a - r.address) = true) ↔
      (a / 8 = r.address / 8 ∧ r.mask.getLsbD (a % 8) = true) := by
    constructor
    · rintro ⟨hle, hm⟩
      have hlt : a - r.address < 8 := BitVec.lt_of_getLsbD hm
      have hmod : a % 8 = a - r.address := by omega
      exact ⟨by omega, hmod ▸ hm⟩
    · rintro ⟨hdiv, hm⟩
      have hmod : a - r.address = a % 8 := by omega
      exact ⟨by omega, hmod ▸ hm⟩
  unfold rawPatch
  simp only [TcmCall.patch, hiff]
  split
  · next hc =>
    have hmod : (a - r.address) % 8 = a % 8 := by omega
    simp only [hmod]
  · rfl

theorem rawPatch_of_mask_zero (h : r.mask = 0) (a : ℕ) : rawPatch r a = none := by
  simp [rawPatch, h]

theorem tcmA_bytes_of_inPlace (h : r.InPlace g) :
    (t.tcmA r).bytes = Overlay.apply t.bytes (TcmCall.tcmA r).patch := by
  rw [tcmA_bytes]
  obtain h8 | ⟨-, hmask, -⟩ := h
  · rw [rawPatch_eq_patch h8]
  · funext a
    rw [Overlay.apply_none (rawPatch_of_mask_zero hmask a), Overlay.apply_none]
    simp [TcmCall.patch, hmask]

@[simp] theorem tcmD_bytes (t : Tcm) : t.tcmD.2.bytes = t.bytes := by
  unfold tcmD
  split <;> rfl

theorem mmioStore_bytes (t : Tcm) (addr : ℕ) (bytes : List UInt8) :
    (t.mmioStore addr bytes).bytes = Overlay.apply t.bytes (TcmCall.mmioStore addr bytes).patch := by
  funext a
  by_cases hin : addr ≤ a ∧ a < addr + bytes.length
  · have hlt : a - addr < bytes.length := by omega
    rw [Overlay.apply_some (b := bytes[a - addr])]
    · simp [mmioStore, hin, hlt]
    · simp [TcmCall.patch, StqEntry.byteAt, hin, hlt]
  · rw [Overlay.apply_none]
    · simp only [mmioStore, if_neg hin]
    · simp only [TcmCall.patch, StqEntry.byteAt]
      split
      · rw [List.getElem?_eq_none]
        omega
      · rfl

def RequestsInPlace (g : TcmRegion) (cs : List TcmCall) : Prop :=
  ∀ r, TcmCall.tcmA r ∈ cs → r.InPlace g

theorem exec_bytes (h : RequestsInPlace g [c]) :
    (t.exec c).bytes = Overlay.apply t.bytes c.patch := by
  cases c with
  | tcmA r => exact tcmA_bytes_of_inPlace (h r List.mem_cons_self)
  | tcmD => exact tcmD_bytes t
  | mmioLoad addr len => rfl
  | mmioStore addr bytes => exact mmioStore_bytes t addr bytes

theorem run_bytes (h : RequestsInPlace g cs) :
    (cs.foldl exec t₀).bytes = TcmCall.lastWritten t₀.bytes cs := by
  have hall : (cs.foldl exec t₀).bytes = Overlay.applyAll t₀.bytes (cs.map TcmCall.patch) := by
    induction cs generalizing t₀ with
    | nil => rfl
    | cons c cs ih =>
      have hc : RequestsInPlace g [c] := fun r hr => h r (by simp_all)
      rw [List.foldl_cons, List.map_cons, Overlay.applyAll_cons, ← exec_bytes hc]
      exact ih fun r hr => h r (List.mem_cons_of_mem c hr)
  funext a
  rw [hall, Overlay.applyAll_eq_youngest, ← List.map_reverse, List.findSome?_map]
  rfl

theorem inBounds_of_inPlace (hl : r.Legal g) (h : r.InPlace g) : (TcmCall.tcmA r).InBounds g := by
  refine ⟨hl.lower, ?_⟩
  obtain h8 | ⟨-, -, hfit⟩ := h
  · -- the region ends at a word boundary
    have hpos : 0 < 2 ^ r.size := Nat.two_pow_pos r.size
    have hupper := hl.upper
    have hbase := g.base_aligned
    have hsize := g.size_aligned
    omega
  · exact hfit

theorem inBounds_of_legal (hl : c.Legal g) (h : RequestsInPlace g [c]) : c.InBounds g := by
  cases c with
  | tcmA r => exact inBounds_of_inPlace hl (h r List.mem_cons_self)
  | tcmD => trivial
  | mmioLoad addr len => exact ⟨hl.1, hl.2.2⟩
  | mmioStore addr bytes => exact ⟨hl.1, hl.2.2⟩

theorem readsFrom_of_inPlace (h : RequestsInPlace g [c]) : c.ReadsFrom t.bytes t := by
  cases c with
  | tcmA r =>
    intro hget
    obtain h8 | ⟨hput, -, -⟩ := h r List.mem_cons_self
    · have haddr : r.address / 8 * 8 = r.address := by omega
      rw [haddr]
      rfl
    · rw [hget] at hput
      cases hput
  | tcmD => trivial
  | mmioLoad addr len => rfl
  | mmioStore addr bytes => trivial

theorem isByteMemory_of_inPlace (hl : ∀ c ∈ cs, c.Legal g) (h : RequestsInPlace g cs) :
    IsByteMemory g t₀ cs := by
  rintro cs₁ c cs₂ rfl
  have hc : RequestsInPlace g [c] := fun r hr => h r (by simp_all)
  have h₁ : RequestsInPlace g cs₁ := fun r hr => h r (List.mem_append_left _ hr)
  have h₁c : RequestsInPlace g (cs₁ ++ [c]) := by
    intro r hr
    obtain hr | hr := List.mem_append.mp hr
    · exact h₁ r hr
    · exact hc r hr
  refine ⟨inBounds_of_legal (hl c (by simp)) hc, run_bytes h₁c, ?_⟩
  rw [← run_bytes h₁]
  exact readsFrom_of_inPlace hc

/-- A `Get` inside its word returns the bytes from its own address on. -/
theorem get_not_isByteMemory (hget : r.isGet = true) (h8 : r.address % 8 ≠ 0) :
    ¬ IsByteMemory g ⟨fun a => UInt8.ofNat a, []⟩ [.tcmA r] := by
  intro h
  obtain ⟨-, -, hread⟩ := h [] (.tcmA r) [] rfl
  have hword := hread hget
  simp only [List.foldl_nil, tcmA, List.nil_append, List.cons.injEq, and_true] at hword
  have hlane := congrFun hword 0
  simp only [readBeat, TcmCall.lastWritten, List.reverse_nil, List.findSome?_nil, Option.getD_none,
    Fin.coe_ofNat_eq_mod, Nat.zero_mod, Nat.add_zero] at hlane
  have hmod := congrArg UInt8.toNat hlane
  simp only [UInt8.toNat_ofNat'] at hmod
  omega

/-- The lowest byte of a put inside its word is left as it was. -/
theorem put_not_isByteMemory (hput : r.isGet = false) (h8 : r.address % 8 ≠ 0) (hm : r.mask ≠ 0) :
    ∃ t₀, ¬ IsByteMemory g t₀ [.tcmA r] := by
  have hex : ∃ i, r.mask.getLsbD i = true := by
    by_contra hno
    refine hm (BitVec.eq_of_getLsbD_eq fun i _ => ?_)
    have hi : r.mask.getLsbD i = false := by
      simpa using not_exists.mp hno i
    rw [hi]
    simp
  set j := Nat.find hex with hj
  have hbit : r.mask.getLsbD j = true := Nat.find_spec hex
  have hlow : ∀ i < j, r.mask.getLsbD i ≠ true := fun i hi => Nat.find_min hex hi
  have hj8 : j < 8 := BitVec.lt_of_getLsbD hbit
  refine ⟨⟨fun _ => r.data ⟨j, hj8⟩ + 1, []⟩, fun h => ?_⟩
  obtain ⟨-, hbytes, -⟩ := h [] (.tcmA r) [] rfl
  -- the byte of the lowest selected lane, below all that the loop writes
  have hbyte := congrFun hbytes (r.address / 8 * 8 + j)
  have hdiv : (r.address / 8 * 8 + j) / 8 = r.address / 8 := by omega
  have hmod : (r.address / 8 * 8 + j) % 8 = j := by omega
  have hraw : rawPatch r (r.address / 8 * 8 + j) = none := by
    unfold rawPatch
    rw [if_neg]
    rintro ⟨-, hle, hset⟩
    exact hlow _ (by omega) hset
  have hpatch : (TcmCall.tcmA r).patch (r.address / 8 * 8 + j) = some (r.data ⟨j, hj8⟩) := by
    simp only [TcmCall.patch, hput, hdiv, hmod, hbit, and_self, if_true]
  simp only [List.nil_append, List.foldl_cons, List.foldl_nil, exec, tcmA_bytes,
    Overlay.apply_none hraw, TcmCall.lastWritten, List.reverse_singleton, List.findSome?_cons,
    hpatch, Option.getD_some] at hbyte
  simp at hbyte

theorem not_isByteMemory_of_not_inPlace (h : ¬ r.InPlace g) :
    ∃ t₀, ¬ IsByteMemory g t₀ [.tcmA r] := by
  have h8 : r.address % 8 ≠ 0 := fun h8 => h (.inl h8)
  cases hget : r.isGet with
  | true => exact ⟨_, get_not_isByteMemory hget h8⟩
  | false =>
    by_cases hm : r.mask = 0
    · -- the read of a put that writes nothing runs over the end
      refine ⟨⟨fun _ => 0, []⟩, fun hmem => h (.inr ⟨hget, hm, ?_⟩)⟩
      exact (hmem [] (.tcmA r) [] rfl).1.2
    · exact put_not_isByteMemory hget h8 hm

/-- Let `R` be the requests that the masters may send. Every run that interleaves them
with accesses of the hart, from any contents, treats the TCM as byte-addressed memory if
and only if all of them are in place. -/
theorem isByteMemory_iff (g : TcmRegion) (R : Set TcmRequest) :
    (∀ (t₀ : Tcm) (cs : List TcmCall), (∀ c ∈ cs, c.Legal g) → (∀ r, .tcmA r ∈ cs → r ∈ R) →
      IsByteMemory g t₀ cs) ↔
    ∀ r ∈ R, r.Legal g → r.InPlace g := by
  constructor
  · intro hall r hr hl
    by_contra hnot
    obtain ⟨t₀, hbad⟩ := not_isByteMemory_of_not_inPlace hnot
    refine hbad (hall t₀ [.tcmA r] ?_ ?_)
    · simpa [TcmCall.Legal] using hl
    · simpa using hr
  · intro hR t₀ cs hl hreq
    exact isByteMemory_of_inPlace hl fun r hr => hR r (hreq r hr) (hl _ hr)

def putByte : TcmRequest where
  opcode := (0#3).toFin
  size := 0
  source := 0
  address := 0x80000001
  mask := 2
  data := fun i => if i.val = 1 then 0xab else 0

theorem putByte_legal : putByte.Legal .extMem where
  opcode := .inl rfl
  size := by decide
  aligned := rfl
  lower := by decide
  upper := by decide
  lane := by unfold TcmRequest.Lane; decide
  full := by unfold TcmRequest.Lane; decide

/-- The byte lands one address too high. -/
theorem putByte_lands_beside :
    putByte.Legal .extMem ∧ ¬ IsByteMemory .extMem ⟨fun _ => 0, []⟩ [.tcmA putByte] := by
  refine ⟨putByte_legal, fun h => ?_⟩
  obtain ⟨-, hbytes, -⟩ := h [] (.tcmA putByte) [] rfl
  have hbyte := congrFun hbytes 0x80000001
  revert hbyte
  decide

end Tcm

end PerceptronSoc
