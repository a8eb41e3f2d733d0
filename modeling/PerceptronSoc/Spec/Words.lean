import Mathlib.Data.UInt
import Mathlib.Tactic

/-! What both branch predictors have: the calls of their interface, and the fixed-width helpers
that each carries a copy of: the `mix64` finaliser, the index-width loop, the folded global
history, and the two integer conversions an index goes through. -/

namespace PerceptronSoc

/-- A call of the public interface, which is the same in both classes. -/
inductive PredictorCall where
  | predict (pc : UInt64)
  | train (pc : UInt64) (actualTaken : Bool)
  | reset
deriving DecidableEq

def mix64 (x : UInt64) : UInt64 :=
  let x := x ^^^ (x >>> 33)
  let x := x * 0xff51afd7ed558ccd
  let x := x ^^^ (x >>> 33)
  let x := x * 0xc4ceb9fe1a85ec53
  x ^^^ (x >>> 33)

/-- `while (value > 1) { value >>= 1; bits++; }` is the recursion of `Nat.log2`. -/
def log2Pow2 (value : ℕ) : ℕ := Nat.log2 value

/-- The loop of `fold_history`: position `i` of the history is folded onto bit
`i % width`. -/
def foldLoop (history : List Bool) (width : ℕ) (n : ℕ) : UInt64 :=
  (List.range n).foldl
    (fun folded i =>
      if history.getD i false then folded ^^^ (1 <<< UInt64.ofNat (i % width)) else folded) 0

def foldHistory (history : List Bool) (histLen width : ℕ) : UInt64 :=
  if width = 0 ∨ histLen = 0 then 0
  else
    let folded := foldLoop history width (min histLen history.length)
    if width = 64 then folded else folded &&& ((1 <<< UInt64.ofNat width) - 1)

/-- `static_cast<int>` of an unsigned value. -/
def castInt (x : ℕ) : ℤ := (BitVec.ofNat 32 x).toInt

/-- An `int` used as a vector subscript is converted to `size_t`. -/
def sizeT : ℤ → ℕ
  | .ofNat n => n
  | .negSucc n => 2 ^ 64 - 1 - n

/-- `hash & (n - 1)` on `size_t`, the subscript both predictors reduce a hash to. -/
def maskIndex (hash : UInt64) (n : ℕ) : ℕ := (hash &&& (UInt64.ofNat n - 1)).toNat

theorem castInt_of_lt {x : ℕ} (h : x < 2 ^ 31) : castInt x = x := by
  unfold castInt
  rw [BitVec.toInt_eq_toNat_of_lt] <;> rw [BitVec.toNat_ofNat, Nat.mod_eq_of_lt] <;> omega

@[simp] theorem sizeT_natCast (x : ℕ) : sizeT (x : ℤ) = x := rfl

theorem sizeT_castInt {x : ℕ} (h : x < 2 ^ 31) : sizeT (castInt x) = x := by
  rw [castInt_of_lt h, sizeT_natCast]

/-- The mask keeps every hash inside the table, whether or not the size is a power
of two. -/
theorem maskIndex_lt (hash : UInt64) {n : ℕ} (h1 : 1 ≤ n) (h2 : n < 2 ^ 64) :
    maskIndex hash n < n := by
  have hn : (UInt64.ofNat n - 1).toNat = n - 1 := by
    have : (UInt64.ofNat n).toNat = n := UInt64.toNat_ofNat_of_lt' h2
    rw [UInt64.toNat_sub_of_le _ _ (by rw [UInt64.le_iff_toNat_le, this]; simpa using h1), this]
    rfl
  have hle : maskIndex hash n ≤ n - 1 := by
    unfold maskIndex
    rw [UInt64.toNat_and, hn]
    exact Nat.and_le_right
  omega

end PerceptronSoc
