import Akita.Spec.Transcript

/-!
# Transcript-grinding plans

`akita-params/src/transcript_grinding.rs` and `challenge_order.rs`: the sites, runs and
plans of transcript grinding, their validation, their aggregate counts and their
canonical bytes.

The pricing arithmetic (`grind_bits_for_loss`, `ChallengeSetSize`) belongs to
`jolt-transcript` and is a parameter, `Pricing`.
-/

namespace Akita.Grinding

open Lib

/-- What the plan uses of `jolt-transcript`: challenge-set sizes and the least proof-of-work
target for a loss. Errors are given by their text. -/
structure Pricing where
  SetSize : Type
  fieldOrder : BitVec 128 → UInt32 → Except String SetSize
  powerOfTwo : UInt32 → SetSize
  grindBitsForLoss : UInt64 → SetSize → UInt32 → Except String UInt32

def transcriptSecurityBits : UInt16 := 128
def foldResponseNonceBits : UInt8 := 12
def foldResponseAttempts : UInt32 := 4096
def grindingEncodingVersion : UInt16 := 5
def grindingQueryPolicyRevision : UInt16 := 5
def foldCoordinateOracleRevision : UInt16 := 2
def maxSetupBatchClaims : ℕ := 65536
def transcriptGrindingQueryLimit : ℕ := 2 ^ 32 - 1
def grindingNonceSlackBits : UInt8 := 7
def maxGrindingBits : UInt8 := 57
def grindingCheckBytes : UInt8 := 8
def grindingLittleEndianBitOrder : UInt8 := 0

def asciiBytes (s : String) : List UInt8 := s.toList.map fun c => UInt8.ofNat c.toNat

def grindingPlanDomain : List UInt8 := asciiBytes "akita/grinding-plan/v1"

/-- `active_grinding_policy_bytes`: 17 bytes. -/
def activeGrindingPolicyBytes : List UInt8 :=
  leBytes 2 grindingEncodingVersion.toNat ++ leBytes 2 transcriptSecurityBits.toNat ++
    [grindingNonceSlackBits, maxGrindingBits, grindingCheckBytes, grindingLittleEndianBitOrder,
      foldResponseNonceBits] ++ leBytes 4 foldResponseAttempts.toNat ++ leBytes 2 grindingQueryPolicyRevision.toNat ++
    leBytes 2 foldCoordinateOracleRevision.toNat

def pushU32 (value : UInt32) : List UInt8 := leBytes 4 value.toNat

def usizeToU32 (value : ℕ) (name : String) : Result UInt32 :=
  if value < 2 ^ 32 then .ok (UInt32.ofNat value) else .error (.invalidInput (name ++ " does not fit u32"))

/-! ## Challenge orders -/

structure ChallengeFieldOrder (𝔭 : Pricing) where
  nominalCapacityBits : UInt32
  fieldModulus : BitVec 128
  extensionDegree : UInt32
  setSize : 𝔭.SetSize

namespace ChallengeFieldOrder

variable {𝔭 : Pricing}

def isPowerOfTwo (n : ℕ) : Bool := n ≠ 0 && 2 ^ (n.size - 1) == n

def fromField (modulusBits : UInt32) (extensionDegree : ℕ) (fieldModulus : BitVec 128) :
    Result (ChallengeFieldOrder 𝔭) := do
  let actualModulusBits := fieldModulus.toNat.size
  ensure (¬ (fieldModulus.toNat ≤ 1 ∨ actualModulusBits ≠ modulusBits.toNat))
    (.invalidSetup "challenge modulus does not match its declared bit width")
  ensure (extensionDegree < 2 ^ 32) (.invalidSetup "challenge extension degree exceeds u32")
  ensure (¬ (extensionDegree = 0 ∨ !isPowerOfTwo extensionDegree))
    (.invalidSetup "challenge extension degree must be a nonzero power of two")
  let nominalCapacityBits ← okOr (checkedMul 32 modulusBits.toNat extensionDegree)
    (.invalidSetup "challenge capacity overflow")
  let setSize ← mapErr (𝔭.fieldOrder fieldModulus (UInt32.ofNat extensionDegree))
    fun _ => .invalidSetup "challenge field order is invalid"
  return { nominalCapacityBits := UInt32.ofNat nominalCapacityBits, fieldModulus,
           extensionDegree := UInt32.ofNat extensionDegree, setSize }

def fromFullCapacity (capacityBits : UInt32) : Result (ChallengeFieldOrder 𝔭) := do
  ensure (capacityBits ≠ 0) (.invalidSetup "grinding nominal capacity must be nonzero")
  return { nominalCapacityBits := capacityBits, fieldModulus := 0, extensionDegree := 0,
           setSize := 𝔭.powerOfTwo capacityBits }

/-- An order that one of the two constructors returned; the fields are private, so every order
is one. -/
def Built (o : ChallengeFieldOrder 𝔭) : Prop :=
  (∃ modulusBits extensionDegree fieldModulus, fromField modulusBits extensionDegree fieldModulus = .ok o) ∨
    ∃ capacityBits, fromFullCapacity capacityBits = .ok o

def canonicalBytes (o : ChallengeFieldOrder 𝔭) : List UInt8 :=
  -- `checked_div` by the extension degree
  if o.extensionDegree ≠ 0 then
    [1] ++ pushU32 (o.nominalCapacityBits / o.extensionDegree) ++ pushU32 o.extensionDegree ++
      leBytes 16 o.fieldModulus.toNat
  else [0] ++ pushU32 o.nominalCapacityBits

def grindBits (o : ChallengeFieldOrder 𝔭) (lossFactor : UInt64) : Result UInt8 := do
  let bits ← mapErr (𝔭.grindBitsForLoss lossFactor o.setSize transcriptSecurityBits.toUInt32)
    fun error => .invalidSetup ("grinding target: " ++ error)
  ensure (bits.toNat < 2 ^ 8) (.invalidSetup "grinding target exceeds supported maximum 57")
  return UInt8.ofNat bits.toNat

end ChallengeFieldOrder

/-! ## Sites -/

inductive GrindingQueryKind
  | proofOfWork
  | foldResponse
  | foldChallengeGroup
  | foldChallengeWork
  deriving DecidableEq, Repr

inductive SumcheckProtocol
  | extensionOpeningReduction
  | stage1
  | physicalL2
  | stage2
  | stage3
  | setupBatch
  deriving DecidableEq, Repr

def SumcheckProtocol.tag : SumcheckProtocol → UInt32
  | .extensionOpeningReduction => 0
  | .stage1 => 1
  | .physicalL2 => 2
  | .stage2 => 3
  | .stage3 => 4
  | .setupBatch => 5

def SumcheckProtocol.fromTag (tag : UInt32) : Option SumcheckProtocol :=
  match tag.toNat with
  | 0 => some .extensionOpeningReduction
  | 1 => some .stage1
  | 2 => some .physicalL2
  | 3 => some .stage2
  | 4 => some .stage3
  | 5 => some .setupBatch
  | _ => none

/-- Logical query identity in verifier replay order. -/
inductive GrindingSite
  | evaluationBatch (level : UInt32)
  | extensionOpeningPoint (level : UInt32)
  | extensionOpeningClaimBatch (level : UInt32)
  | sumcheckRound (protocol : SumcheckProtocol) (level stage round : UInt32)
  | foldResponse (level : UInt32)
  | foldChallengeGroup (level group : UInt32)
  | foldChallengeWork (level : UInt32)
  | ringSwitchAlpha (level : UInt32)
  | tau0Point (level : UInt32)
  | tau1Point (level : UInt32)
  | stage1InterstageBatch (level stage : UInt32)
  | l2SubclaimBatch (level : UInt32)
  | l2NormMerge (level : UInt32)
  | l2VirtualBatch (level : UInt32)
  | compressionBinary (level : UInt32)
  | stage2Batch (level : UInt32)
  | setupBatch (level : UInt32)
  deriving DecidableEq, Repr

namespace GrindingSite

def kind : GrindingSite → GrindingQueryKind
  | .foldResponse _ => .foldResponse
  | .foldChallengeGroup _ _ => .foldChallengeGroup
  | .foldChallengeWork _ => .foldChallengeWork
  | _ => .proofOfWork

/-- `u32::MAX`, reserved. -/
def sentinel : UInt32 := 0xffffffff

def validate (s : GrindingSite) : Result Unit :=
  let invalid : Bool := match s with
    | .sumcheckRound _ level stage round => level == sentinel || stage == sentinel || round == sentinel
    | .evaluationBatch level
    | .extensionOpeningPoint level
    | .extensionOpeningClaimBatch level
    | .foldResponse level
    | .ringSwitchAlpha level
    | .tau0Point level
    | .tau1Point level
    | .l2SubclaimBatch level
    | .l2NormMerge level
    | .l2VirtualBatch level
    | .compressionBinary level
    | .stage2Batch level
    | .foldChallengeWork level
    | .setupBatch level => level == sentinel
    | .foldChallengeGroup level group => level == sentinel || group == sentinel
    | .stage1InterstageBatch level stage => level == sentinel || stage == sentinel
  ensure (!invalid) (.invalidSetup "grinding site uses a reserved u32 sentinel")

/-- `append_canonical_bytes`: a tag and the coordinates. -/
def canonicalBytes : GrindingSite → List UInt8
  | .evaluationBatch level => 0 :: pushU32 level
  | .extensionOpeningPoint level => 1 :: pushU32 level
  | .extensionOpeningClaimBatch level => 2 :: pushU32 level
  | .sumcheckRound protocol level stage round =>
    3 :: (pushU32 protocol.tag ++ pushU32 level ++ pushU32 stage ++ pushU32 round)
  | .foldResponse level => 4 :: pushU32 level
  | .foldChallengeGroup level group => 5 :: (pushU32 level ++ pushU32 group)
  | .ringSwitchAlpha level => 6 :: pushU32 level
  | .tau0Point level => 7 :: pushU32 level
  | .tau1Point level => 8 :: pushU32 level
  | .stage1InterstageBatch level stage => 9 :: (pushU32 level ++ pushU32 stage)
  | .l2SubclaimBatch level => 10 :: pushU32 level
  | .l2NormMerge level => 11 :: pushU32 level
  | .l2VirtualBatch level => 12 :: pushU32 level
  | .compressionBinary level => 13 :: pushU32 level
  | .stage2Batch level => 14 :: pushU32 level
  | .foldChallengeWork level => 15 :: pushU32 level
  | .setupBatch level => 16 :: pushU32 level

/-- `site_id`: the diagnostic site of a query. -/
def siteId (s : GrindingSite) (detail : UInt32) : Transcript.ProtocolSiteId :=
  match s with
  | .evaluationBatch level => { family := 100, level, detail }
  | .extensionOpeningPoint level => { family := 101, level, detail }
  | .extensionOpeningClaimBatch level => { family := 102, level, detail }
  | .sumcheckRound protocol level stage round =>
    { family := 103, invocation := protocol.tag, level, stage, round, detail }
  | .foldResponse level => { family := 104, level, detail }
  | .foldChallengeGroup level group => { family := 105, level, group, detail }
  | .ringSwitchAlpha level => { family := 106, level, detail }
  | .tau0Point level => { family := 107, level, detail }
  | .tau1Point level => { family := 108, level, detail }
  | .stage1InterstageBatch level stage => { family := 109, level, stage, detail }
  | .l2SubclaimBatch level => { family := 110, level, detail }
  | .l2NormMerge level => { family := 111, level, detail }
  | .l2VirtualBatch level => { family := 112, level, detail }
  | .compressionBinary level => { family := 113, level, detail }
  | .stage2Batch level => { family := 114, level, detail }
  | .foldChallengeWork level => { family := 115, level, detail }
  | .setupBatch level => { family := 116, level, detail }

end GrindingSite

/-! ## Runs -/

/-- One compact plan run in protocol replay order. -/
structure GrindingRun where
  site : GrindingSite
  lossFactor : UInt64
  grindBits : UInt8
  nonceBits : UInt8
  multiplicity : UInt64
  challengeSetBits : UInt32
  deriving DecidableEq, Repr

/-- `pow_nonce_bits`: the nonce width of a target. -/
def powNonceBits (grindBits : UInt8) : Result UInt8 :=
  if grindBits = 0 then .ok 0
  else do
    let bits ← okOr (checkedAdd 8 grindBits.toNat grindingNonceSlackBits.toNat)
      (.invalidSetup "grinding nonce width overflow")
    return UInt8.ofNat bits

namespace GrindingRun

variable {𝔭 : Pricing}

def kind (r : GrindingRun) : GrindingQueryKind := r.site.kind

def nonceMaxBytes (r : GrindingRun) : Result ℕ :=
  okOr (checkedMul usizeBits (Transcript.nonceMaxBytes r.nonceBits.toNat) r.multiplicity.toNat)
    (.invalidSetup "native grinding nonce byte count overflow")

def proofOfWork (site : GrindingSite) (lossFactor : UInt64) (order : ChallengeFieldOrder 𝔭) : Result GrindingRun := do
  ensure (site.kind = .proofOfWork) (.invalidSetup "special grinding sites cannot be proof-of-work runs")
  let grindBits ← order.grindBits lossFactor
  return { site, lossFactor, grindBits, nonceBits := ← powNonceBits grindBits, multiplicity := 1,
           challengeSetBits := 0 }

def foldChallengeWork (𝔭 : Pricing) (level : UInt32) (challenges : UInt64) (challengeSetBits : UInt32) :
    Result GrindingRun := do
  let order : ChallengeFieldOrder 𝔭 ← ChallengeFieldOrder.fromFullCapacity challengeSetBits
  let grindBits ← order.grindBits challenges
  return { site := .foldChallengeWork level, lossFactor := challenges, grindBits,
           nonceBits := ← powNonceBits grindBits, multiplicity := 1, challengeSetBits }

def foldResponse (level : UInt32) : GrindingRun :=
  { site := .foldResponse level, lossFactor := 0, grindBits := 0, nonceBits := foldResponseNonceBits,
    multiplicity := 1, challengeSetBits := 0 }

def foldChallengeGroup (level group : UInt32) (coordinateCount : UInt64) : Result GrindingRun := do
  let multiplicity ← okOr (checkedAdd 64 coordinateCount.toNat 1) (.invalidSetup "fold challenge query count overflow")
  return { site := .foldChallengeGroup level group, lossFactor := 0, grindBits := 0, nonceBits := 0,
           multiplicity := UInt64.ofNat multiplicity, challengeSetBits := 0 }

def validate (𝔭 : Pricing) (r : GrindingRun) : Result Unit := do
  r.site.validate
  let workSetBits : Bool := match r.kind with
    | .foldChallengeWork => r.challengeSetBits != 0
    | _ => r.challengeSetBits == 0
  ensure workSetBits (.invalidSetup "only a fold proof-of-work run carries a sparse challenge set")
  match r.kind with
  | .proofOfWork | .foldChallengeWork =>
    ensure (¬ (r.lossFactor = 0 ∨ r.multiplicity ≠ 1))
      (.invalidSetup "proof-of-work run has invalid loss or multiplicity")
    ensure (r.grindBits ≤ maxGrindingBits) (.invalidSetup "proof-of-work run has invalid target or nonce width")
    let nonceBits ← powNonceBits r.grindBits
    ensure (r.nonceBits = nonceBits) (.invalidSetup "proof-of-work run has invalid target or nonce width")
    if r.kind = .foldChallengeWork then do
      let order : ChallengeFieldOrder 𝔭 ← ChallengeFieldOrder.fromFullCapacity r.challengeSetBits
      let grindBits ← order.grindBits r.lossFactor
      ensure (r.grindBits = grindBits) (.invalidSetup "fold proof-of-work target does not match its challenge set")
    else pure ()
  | .foldResponse =>
    ensure (r.lossFactor = 0 ∧ r.grindBits = 0 ∧ r.nonceBits = foldResponseNonceBits ∧ r.multiplicity = 1)
      (.invalidSetup "grinding run kind and site do not match")
  | .foldChallengeGroup =>
    ensure (r.lossFactor = 0 ∧ r.grindBits = 0 ∧ r.nonceBits = 0 ∧ r.multiplicity > 1)
      (.invalidSetup "grinding run kind and site do not match")

def canonicalBytes (r : GrindingRun) : List UInt8 :=
  r.site.canonicalBytes ++ leBytes 8 r.lossFactor.toNat ++ [r.grindBits] ++ [r.nonceBits] ++
    leBytes 8 r.multiplicity.toNat ++
    if r.kind = .foldChallengeWork then pushU32 r.challengeSetBits else []

end GrindingRun

/-! ## Plans -/

/-- Aggregate cost used while pricing planner candidates. -/
structure TranscriptGrindingCost where
  totalNonceBits : ℕ
  nonceMaxBytes : ℕ
  expandedQueryCount : ℕ
  deriving DecidableEq, Repr

structure GrindingPlanAccumulator (𝔭 : Pricing) where
  challengeOrder : ChallengeFieldOrder 𝔭
  runCount : ℕ
  totalNonceBits : ℕ
  nonceMaxBytes : ℕ
  expandedQueryCount : ℕ

namespace GrindingPlanAccumulator

variable {𝔭 : Pricing}

def new (order : ChallengeFieldOrder 𝔭) : GrindingPlanAccumulator 𝔭 :=
  { challengeOrder := order, runCount := 0, totalNonceBits := 0, nonceMaxBytes := 0, expandedQueryCount := 0 }

def addCounts (acc : GrindingPlanAccumulator 𝔭) (runs nonceBits nonceBytes queries : ℕ) :
    Result (GrindingPlanAccumulator 𝔭) := do
  let runCount ← okOr (checkedAdd 32 acc.runCount runs) (.invalidSetup "grinding plan run count exceeds u32")
  let totalNonceBits ← okOr (checkedAdd usizeBits acc.totalNonceBits nonceBits)
    (.invalidSetup "grinding plan bit count overflow")
  let nonceMaxBytes ← okOr (checkedAdd usizeBits acc.nonceMaxBytes nonceBytes)
    (.invalidSetup "native grinding nonce byte count overflow")
  let expandedQueryCount ← okOr (checkedAdd 64 acc.expandedQueryCount queries)
    (.invalidSetup "grinding query count overflow")
  return { acc with runCount, totalNonceBits, nonceMaxBytes, expandedQueryCount }

def countRepeated (acc : GrindingPlanAccumulator 𝔭) (run : GrindingRun) (repetitions : UInt32) :
    Result (GrindingPlanAccumulator 𝔭) := do
  run.validate 𝔭
  -- `usize` and `u64` coincide, so the multiplicity always converts
  let multiplicity := run.multiplicity.toNat
  let runBits ← okOr (checkedMul usizeBits run.nonceBits.toNat multiplicity)
    (.invalidSetup "grinding run bit count overflow")
  let repeatedBits ← okOr (checkedMul usizeBits runBits repetitions.toNat)
    (.invalidSetup "grinding run bit count overflow")
  let repeatedQueries ← okOr (checkedMul 64 run.multiplicity.toNat repetitions.toNat)
    (.invalidSetup "grinding query count overflow")
  let repeatedBytes ← okOr (checkedMul usizeBits (← run.nonceMaxBytes) repetitions.toNat)
    (.invalidSetup "native grinding nonce byte count overflow")
  acc.addCounts repetitions.toNat repeatedBits repeatedBytes repeatedQueries

def pushRepeated (acc : GrindingPlanAccumulator 𝔭) (run : GrindingRun) (repetitions : UInt32) :
    Result (GrindingPlanAccumulator 𝔭) :=
  if run.kind = .proofOfWork then do
    let grindBits ← acc.challengeOrder.grindBits run.lossFactor
    ensure (run.grindBits = grindBits)
      (.invalidSetup "proof-of-work run target does not match its loss and challenge order")
    acc.countRepeated run repetitions
  else acc.countRepeated run repetitions

/-- `GrindingPlanSink::push` of the accumulator. -/
def push (acc : GrindingPlanAccumulator 𝔭) (run : GrindingRun) : Result (GrindingPlanAccumulator 𝔭) :=
  acc.pushRepeated run 1

/-- The runs another accumulator counted. -/
def add (acc other : GrindingPlanAccumulator 𝔭) : Result (GrindingPlanAccumulator 𝔭) :=
  acc.addCounts other.runCount other.totalNonceBits other.nonceMaxBytes other.expandedQueryCount

def cost (acc : GrindingPlanAccumulator 𝔭) : TranscriptGrindingCost :=
  { totalNonceBits := acc.totalNonceBits, nonceMaxBytes := acc.nonceMaxBytes,
    expandedQueryCount := acc.expandedQueryCount }

end GrindingPlanAccumulator

/-- `GrindingPlan`: validated runs with their counts. -/
structure GrindingPlan (𝔭 : Pricing) where
  runs : List GrindingRun
  challengeOrder : ChallengeFieldOrder 𝔭
  totalNonceBits : ℕ
  nonceMaxBytes : ℕ
  expandedQueryCount : ℕ

namespace GrindingPlan

variable {𝔭 : Pricing}

def new (runs : List GrindingRun) (order : ChallengeFieldOrder 𝔭) : Result (GrindingPlan 𝔭) := do
  let acc ← runs.foldlM GrindingPlanAccumulator.push (GrindingPlanAccumulator.new order)
  let cost := acc.cost
  ensure (cost.expandedQueryCount < transcriptGrindingQueryLimit)
    (.invalidSetup "grinding plan query count must be less than u32::MAX")
  return { runs, challengeOrder := order, totalNonceBits := cost.totalNonceBits,
           nonceMaxBytes := cost.nonceMaxBytes, expandedQueryCount := cost.expandedQueryCount }

/-- A plan the validator accepted, over an order that one of the constructors returned. -/
def Valid (p : GrindingPlan 𝔭) : Prop :=
  ∃ runs order, ChallengeFieldOrder.Built order ∧ GrindingPlan.new runs order = .ok p

def canonicalBytes (p : GrindingPlan 𝔭) : Result (List UInt8) := do
  ensure (p.runs.length < 2 ^ 32) (.invalidSetup "grinding plan run count exceeds u32")
  return grindingPlanDomain ++ activeGrindingPolicyBytes ++ p.challengeOrder.canonicalBytes ++
    leBytes 4 p.runs.length ++ p.runs.flatMap GrindingRun.canonicalBytes

end GrindingPlan

end Akita.Grinding
