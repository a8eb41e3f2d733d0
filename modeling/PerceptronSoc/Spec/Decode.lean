import Mathlib.Tactic
import Mathlib.Data.UInt

/-! `processor_t::decode_insn` with its two accelerations, the opcode cache and the list
that moves what it finds to its front. An instruction function is any value. -/

namespace PerceptronSoc

/-- `insn_desc_t` -/
structure InsnDesc (φ : Type) where
  matchBits : UInt64
  mask : UInt64
  fastRv32i : φ
  fastRv64i : φ
  fastRv32e : φ
  fastRv64e : φ
  loggedRv32i : φ
  loggedRv64i : φ
  loggedRv32e : φ
  loggedRv64e : φ
deriving DecidableEq

namespace InsnDesc

variable {φ : Type}

def func (d : InsnDesc φ) (xlen : ℕ) (rve logged : Bool) : φ :=
  if logged then
    if rve then if xlen = 64 then d.loggedRv64e else d.loggedRv32e
    else if xlen = 64 then d.loggedRv64i else d.loggedRv32i
  else
    if rve then if xlen = 64 then d.fastRv64e else d.fastRv32e
    else if xlen = 64 then d.fastRv64i else d.fastRv32i

/-- `insn_desc_t::illegal()`, for the function `illegal_instruction`. -/
def illegal (f : φ) : InsnDesc φ := ⟨0, 0, f, f, f, f, f, f, f, f⟩

/-- The test of the linear search. -/
def accepts (d : InsnDesc φ) (bits : UInt64) : Bool := bits &&& d.mask == d.matchBits

/-- The `cmp` of `build_opcode_map`, as "not after": larger `match` first, and among equal
ones larger `mask`. -/
def notAfter (d d' : InsnDesc φ) : Bool :=
  !(if d'.matchBits = d.matchBits then decide (d.mask < d'.mask)
    else decide (d.matchBits < d'.matchBits))

end InsnDesc

/-- The members of `processor_t` that decoding reads and writes. -/
structure Decoder (φ : Type) where
  instructions : List (InsnDesc φ)
  opcodeCache : ℕ → InsnDesc φ

namespace Decoder

variable {φ : Type}

def opcodeCacheSize : ℕ := 8191

/-- `while (--p >= &instructions[0]) *(p + 1) = *p; instructions[0] = desc;` -/
def moveToFront (l : List (InsnDesc φ)) (i : ℕ) (desc : InsnDesc φ) : List (InsnDesc φ) :=
  desc :: (l.take i ++ l.drop (i + 1))

/-- What the miss path finds and the list it leaves. `none` where the source would read
past the end of the list, in the search or behind the entry it found. -/
def search (l : List (InsnDesc φ)) (bits : UInt64) : Option (InsnDesc φ × List (InsnDesc φ)) := do
  let i ← l.findIdx? fun p => p.accepts bits
  let desc ← l[i]?
  if desc.mask ≠ 0 ∧ 0 < i then
    let before ← l[i - 1]?
    let behind ← l[i + 1]?
    if desc.matchBits ≠ before.matchBits ∧ desc.matchBits ≠ behind.matchBits then
      return (desc, moveToFront l i desc)
    else return (desc, l)
  else return (desc, l)

/-- `decode_insn`: the function of the instruction, and the new state. -/
def decodeInsn (d : Decoder φ) (bits : UInt64) (xlen : ℕ) (rve logged : Bool) :
    Option (φ × Decoder φ) := do
  let idx := bits.toNat % opcodeCacheSize
  let desc := d.opcodeCache idx
  if bits ≠ desc.matchBits then
    let (desc, instructions) ← search d.instructions bits
    return (desc.func xlen rve logged,
      { instructions := instructions
        opcodeCache := Function.update d.opcodeCache idx { desc with matchBits := bits } })
  else return (desc.func xlen rve logged, d)

def registerInsn (d : Decoder φ) (desc : InsnDesc φ) : Decoder φ :=
  { d with instructions := d.instructions ++ [desc] }

/-- `std::sort` may leave entries that compare equal in any order; here they stay. -/
def buildOpcodeMap (d : Decoder φ) (illegalInstruction : φ) : Decoder φ where
  instructions := d.instructions.mergeSort InsnDesc.notAfter
  opcodeCache _ := InsnDesc.illegal illegalInstruction

/-- `register_extension`, for the instructions the extension brings. -/
def registerExtension (d : Decoder φ) (illegalInstruction : φ) (insns : List (InsnDesc φ)) :
    Decoder φ :=
  (insns.foldl registerInsn d).buildOpcodeMap illegalInstruction

/-- `register_base_instructions`, for the supported instructions of `insn_list.h`. -/
def registerBaseInstructions (illegalInstruction : φ) (insns : List (InsnDesc φ)) : Decoder φ :=
  ((insns.foldl registerInsn ⟨[], fun _ => InsnDesc.illegal illegalInstruction⟩).registerInsn
    (InsnDesc.illegal illegalInstruction)).buildOpcodeMap illegalInstruction

/-! ### Runs -/

inductive Call (φ : Type) where
  | decode (bits : UInt64) (xlen : ℕ) (rve logged : Bool)
  | registerExtension (insns : List (InsnDesc φ))

def exec (illegalInstruction : φ) (d : Decoder φ) : Call φ → Option (Decoder φ)
  | .decode bits xlen rve logged => (d.decodeInsn bits xlen rve logged).map Prod.snd
  | .registerExtension insns => some (d.registerExtension illegalInstruction insns)

/-- A hart's life: the base instructions, then any calls. -/
def run (illegalInstruction : φ) (base : List (InsnDesc φ)) (calls : List (Call φ)) :
    Option (Decoder φ) :=
  calls.foldlM (exec illegalInstruction) (registerBaseInstructions illegalInstruction base)

end Decoder

end PerceptronSoc
