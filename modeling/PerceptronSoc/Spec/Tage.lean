import PerceptronSoc.Lib.Saturate
import PerceptronSoc.Spec.Words

/-! `tage_predictor_t`: a bimodal base table and a list of tagged tables looked up
under geometrically longer prefixes of the global history. Vectors are lists, read
with a default and written in place; that no subscript ever reaches the default is
proved with the run invariant. -/

namespace PerceptronSoc

structure TableInfo where
  nEntries : ℕ
  histLen : ℕ
  tagBits : ℕ
deriving DecidableEq

structure TageParams where
  baseEntries : ℕ
  baseCtrBits : ℕ
  taggedCtrBits : ℕ
  usefulnessBits : ℕ
  useAltOnWeak : Bool
  usefulnessResetPeriod : UInt64
  tableInfo : List TableInfo
deriving DecidableEq

def TageParams.boomLikeDefault : TageParams where
  baseEntries := 2048
  baseCtrBits := 2
  taggedCtrBits := 3
  usefulnessBits := 2
  useAltOnWeak := true
  usefulnessResetPeriod := 16384
  tableInfo := [⟨256, 4, 7⟩, ⟨256, 8, 7⟩, ⟨256, 16, 8⟩, ⟨256, 32, 9⟩, ⟨256, 64, 10⟩]

structure TaggedEntry where
  tag : UInt16
  ctr : Int8
  useful : UInt8
deriving DecidableEq

/-- `tagged_entry_t{0, 0, 0}`, what the constructor and `reset` write. -/
def TaggedEntry.zero : TaggedEntry := ⟨0, 0, 0⟩

/-- `last_lookup_t`; the field defaults are those of the value initialisation `{}`. -/
structure LastLookup where
  valid : Bool := false
  pc : UInt64 := 0
  finalPrediction : Bool := false
  providerPrediction : Bool := false
  alternatePrediction : Bool := false
  providerHit : Bool := false
  alternateHit : Bool := false
  providerWeak : Bool := false
  usedAlternate : Bool := false
  providerBank : ℤ := 0
  alternateBank : ℤ := 0
  providerIndex : ℤ := 0
  alternateIndex : ℤ := 0
  providerTag : UInt16 := 0
  alternateTag : UInt16 := 0
  indices : List ℕ := []
  tags : List UInt16 := []
deriving DecidableEq

namespace LastLookup

def setProvider (l : LastLookup) (t : ℕ) : LastLookup :=
  { l with
    providerHit := true
    providerBank := t
    providerIndex := castInt (l.indices.getD t 0)
    providerTag := l.tags.getD t 0 }

def setAlternate (l : LastLookup) (t : ℕ) : LastLookup :=
  { l with
    alternateHit := true
    alternateBank := t
    alternateIndex := castInt (l.indices.getD t 0)
    alternateTag := l.tags.getD t 0 }

end LastLookup

structure Tage where
  params : TageParams
  maxHistLen : ℕ
  branchUpdates : UInt64
  baseTable : List Int8
  taggedTables : List (List TaggedEntry)
  history : List Bool
  lastLookup : LastLookup
deriving DecidableEq

namespace Tage

/-! ### Subscripts -/

def baseIndex (s : Tage) (pc : UInt64) : ℤ :=
  castInt (maskIndex (pc >>> 2) s.params.baseEntries)

def foldHistory (s : Tage) (histLen width : ℕ) : UInt64 :=
  PerceptronSoc.foldHistory s.history histLen width

def tableInfoAt (s : Tage) (table : ℕ) : TableInfo := s.params.tableInfo.getD table ⟨1, 0, 0⟩

def tableIndex (s : Tage) (table : ℕ) (pc : UInt64) : ℕ :=
  let info := s.tableInfoAt table
  let idxBits := log2Pow2 info.nEntries
  let hash := (pc >>> 2) ^^^ s.foldHistory info.histLen idxBits
  let hash := hash ^^^ mix64 (pc + UInt64.ofNat table * 0x9e3779b97f4a7c15)
  maskIndex hash info.nEntries

def tableTag (s : Tage) (table : ℕ) (pc : UInt64) : UInt16 :=
  let info := s.tableInfoAt table
  let tag := (pc >>> 2) ^^^ s.foldHistory info.histLen info.tagBits
  let tag :=
    if 1 < info.tagBits then tag ^^^ s.foldHistory (info.histLen / 2 + 1) (info.tagBits - 1)
    else tag
  let tag := tag ^^^ mix64 (pc ^^^ UInt64.ofNat (table + 1))
  (tag &&& ((1 <<< UInt64.ofNat info.tagBits) - 1)).toUInt16

def entryAt (s : Tage) (table index : ℕ) : TaggedEntry :=
  (s.taggedTables.getD table []).getD index TaggedEntry.zero

def modifyEntry (s : Tage) (table index : ℕ) (f : TaggedEntry → TaggedEntry) : Tage :=
  { s with taggedTables := s.taggedTables.modify table fun entries => entries.modify index f }

def baseAt (s : Tage) (index : ℤ) : Int8 := s.baseTable.getD (sizeT index) 0

/-- `entry.tag == last_lookup.tags[t]` for the looked-up entry of table `t`. -/
def tagHit (s : Tage) (l : LastLookup) (t : ℕ) : Bool :=
  (s.entryAt t (l.indices.getD t 0)).tag == l.tags.getD t 0

/-! ### Counters -/

def counterPredictsTaken (value : ℤ) : Bool := decide (0 ≤ value)

def counterIsWeak (value : ℤ) (bits : ℕ) : Bool := decide (|value| ≤ 1 ∨ bits ≤ 1)

def counterIsStrong (value : ℤ) (bits : ℕ) : Bool := !counterIsWeak value bits

def counterMin (bits : ℕ) : ℤ := -2 ^ (bits - 1)

def counterMax (bits : ℕ) : ℤ := 2 ^ (bits - 1) - 1

def satInc (value : ℤ) (bits : ℕ) : ℤ := Saturate.up (counterMax bits) value

def satDec (value : ℤ) (bits : ℕ) : ℤ := Saturate.down (counterMin bits) value

/-- `ctr = actual_taken ? sat_inc(ctr, bits) : sat_dec(ctr, bits)`, with the store
back into an `int8_t`. -/
def stepCtr (bits : ℕ) (actualTaken : Bool) (ctr : Int8) : Int8 :=
  Int8.ofInt (if actualTaken then satInc ctr.toInt bits else satDec ctr.toInt bits)

/-! ### Prediction -/

/-- The lookup record when the table scan of `predict` starts. -/
def startLookup (s : Tage) (pc : UInt64) : LastLookup :=
  { s.lastLookup with
    valid := true
    pc := pc
    providerHit := false
    alternateHit := false
    providerBank := -1
    alternateBank := -1
    providerIndex := -1
    alternateIndex := -1
    providerTag := 0
    alternateTag := 0
    indices := (List.range s.params.tableInfo.length).map fun t => s.tableIndex t pc
    tags := (List.range s.params.tableInfo.length).map fun t => s.tableTag t pc }

/-- The downward loop over the tagged tables, entered with `t` tables left. -/
def scanTables (s : Tage) : ℕ → LastLookup → LastLookup
  | 0, l => l
  | t + 1, l =>
    if s.tagHit l t then
      if !l.providerHit then s.scanTables t (l.setProvider t)
      -- the source breaks out of the loop here
      else if !l.alternateHit then l.setAlternate t
      else s.scanTables t l
    else s.scanTables t l

def providerEntry (s : Tage) (l : LastLookup) : TaggedEntry :=
  s.entryAt (sizeT l.providerBank) (sizeT l.providerIndex)

def alternateEntry (s : Tage) (l : LastLookup) : TaggedEntry :=
  s.entryAt (sizeT l.alternateBank) (sizeT l.alternateIndex)

/-- The rest of `predict`: the three predictions once the scan is over. -/
def decideLookup (s : Tage) (pc : UInt64) (l : LastLookup) : LastLookup :=
  let base := (s.baseAt (s.baseIndex pc)).toInt
  let basePred := counterPredictsTaken base
  let alternatePrediction :=
    if l.alternateHit then counterPredictsTaken (s.alternateEntry l).ctr.toInt else basePred
  if !l.providerHit then
    { l with
      alternatePrediction := alternatePrediction
      providerPrediction := basePred
      providerWeak := counterIsWeak base s.params.baseCtrBits
      usedAlternate := false
      finalPrediction := basePred }
  else
    let provider := (s.providerEntry l).ctr.toInt
    let providerPrediction := counterPredictsTaken provider
    let providerWeak := counterIsWeak provider s.params.taggedCtrBits
    let usedAlternate := s.params.useAltOnWeak && providerWeak && l.alternateHit
    { l with
      alternatePrediction := alternatePrediction
      providerPrediction := providerPrediction
      providerWeak := providerWeak
      usedAlternate := usedAlternate
      finalPrediction := if usedAlternate then alternatePrediction else providerPrediction }

/-- The lookup record `predict` leaves behind. -/
def lookup (s : Tage) (pc : UInt64) : LastLookup :=
  s.decideLookup pc (s.scanTables s.params.tableInfo.length (s.startLookup pc))

def predict (s : Tage) (pc : UInt64) : Bool × Tage :=
  let l := s.lookup pc
  (l.finalPrediction, { s with lastLookup := l })

/-! ### Training -/

def maxUseful (s : Tage) : UInt8 := UInt8.ofNat (2 ^ s.params.usefulnessBits - 1)

/-- `if (entry.useful > 0) entry.useful--;` -/
def decUseful (entry : TaggedEntry) : TaggedEntry :=
  if 0 < entry.useful then { entry with useful := entry.useful - 1 } else entry

/-- `if (entry.useful < max_useful) entry.useful++;` -/
def incUseful (maxUseful : UInt8) (entry : TaggedEntry) : TaggedEntry :=
  if entry.useful < maxUseful then { entry with useful := entry.useful + 1 } else entry

def updateUsefulness (s : Tage) (providerCorrect alternateCorrect : Bool) : Tage :=
  let l := s.lastLookup
  if !l.providerHit then s
  else if providerCorrect == alternateCorrect then s
  else
    s.modifyEntry (sizeT l.providerBank) (sizeT l.providerIndex)
      (if providerCorrect then incUseful s.maxUseful else decUseful)

def ageUsefulness (s : Tage) : Tage :=
  if s.params.usefulnessResetPeriod = 0 then s
  else if s.branchUpdates % s.params.usefulnessResetPeriod ≠ 0 then s
  else
    { s with
      taggedTables := s.taggedTables.map fun table =>
        table.map fun entry => { entry with useful := entry.useful >>> 1 } }

/-- The first table the allocation loops visit. -/
def startTable (l : LastLookup) : ℕ := if l.providerHit then sizeT (l.providerBank + 1) else 0

/-- The tables the allocation loops visit, in order. -/
def allocationRange (s : Tage) : List ℕ :=
  let start := startTable s.lastLookup
  List.range' start (s.params.tableInfo.length - start)

/-- The table the first loop returns at, if it does. -/
def allocationTable (s : Tage) : Option ℕ :=
  s.allocationRange.find? fun t => (s.entryAt t (s.lastLookup.indices.getD t 0)).useful == 0

def allocateEntries (s : Tage) (actualTaken : Bool) : Tage :=
  let l := s.lastLookup
  match s.allocationTable with
  | some t =>
    s.modifyEntry t (l.indices.getD t 0) fun _ =>
      { tag := l.tags.getD t 0, ctr := if actualTaken then 0 else -1, useful := 0 }
  | none =>
    s.allocationRange.foldl
      (fun s t => s.modifyEntry t (l.indices.getD t 0) decUseful) s

def pushHistory (s : Tage) (taken : Bool) : Tage :=
  if s.history.isEmpty then s else { s with history := (taken :: s.history).dropLast }

def trainBase (s : Tage) (pc : UInt64) (actualTaken : Bool) : Tage :=
  { s with
    baseTable := s.baseTable.modify (sizeT (s.baseIndex pc))
      (stepCtr s.params.baseCtrBits actualTaken) }

def trainTagged (s : Tage) (bank index : ℤ) (actualTaken : Bool) : Tage :=
  s.modifyEntry (sizeT bank) (sizeT index) fun entry =>
    { entry with ctr := stepCtr s.params.taggedCtrBits actualTaken entry.ctr }

/-- The counter updates of `train`, from the stored lookup. -/
def trainCounters (s : Tage) (pc : UInt64) (actualTaken : Bool) : Tage :=
  let l := s.lastLookup
  let providerCorrect := l.providerPrediction == actualTaken
  let alternateCorrect := l.alternatePrediction == actualTaken
  if l.providerHit then
    let s := s.trainTagged l.providerBank l.providerIndex actualTaken
    let s :=
      if l.alternateHit && l.providerWeak then
        s.trainTagged l.alternateBank l.alternateIndex actualTaken
      else if !l.alternateHit then s.trainBase pc actualTaken
      else s
    s.updateUsefulness providerCorrect alternateCorrect
  else s.trainBase pc actualTaken

/-- `if (!last_lookup.valid || last_lookup.pc != pc) predict(pc);` -/
def refresh (s : Tage) (pc : UInt64) : Tage :=
  if !s.lastLookup.valid || s.lastLookup.pc != pc then (s.predict pc).2 else s

def train (s : Tage) (pc : UInt64) (actualTaken : Bool) : Tage :=
  let s := s.refresh pc
  let s := s.trainCounters pc actualTaken
  let s := if s.lastLookup.finalPrediction != actualTaken then s.allocateEntries actualTaken else s
  let s := s.pushHistory actualTaken
  let s := { s with branchUpdates := s.branchUpdates + 1 }
  s.ageUsefulness

def reset (s : Tage) : Tage :=
  { s with
    baseTable := s.baseTable.map fun _ => 0
    taggedTables := s.taggedTables.map fun table => table.map fun _ => TaggedEntry.zero
    history := s.history.map fun _ => false
    branchUpdates := 0
    lastLookup := {} }

/-- The constructor: sized tables, then `reset()`. -/
def new (params : TageParams) : Tage :=
  let maxHistLen := params.tableInfo.foldl (fun m info => max m info.histLen) 0
  reset
    { params := params
      maxHistLen := maxHistLen
      branchUpdates := 0
      baseTable := List.replicate params.baseEntries 0
      taggedTables := params.tableInfo.map fun info => List.replicate info.nEntries TaggedEntry.zero
      history := List.replicate maxHistLen false
      lastLookup := {} }

/-- The constructor's default argument. -/
def default : Tage := new TageParams.boomLikeDefault

def lastPredictionHighConfidence (s : Tage) : Bool :=
  let l := s.lastLookup
  if !l.valid then false
  else if !l.providerHit then
    counterIsStrong (s.baseAt (s.baseIndex l.pc)).toInt s.params.baseCtrBits
  else counterIsStrong (s.providerEntry l).ctr.toInt s.params.taggedCtrBits

def lastUsedAlternate (s : Tage) : Bool := s.lastLookup.valid && s.lastLookup.usedAlternate

def exec (s : Tage) : PredictorCall → Tage
  | .predict pc => (s.predict pc).2
  | .train pc taken => s.train pc taken
  | .reset => s.reset

def run (s : Tage) (calls : List PredictorCall) : Tage := calls.foldl exec s

end Tage

end PerceptronSoc
