import Akita.Spec.Replay

/-!
# Derivation of a grinding plan from the public shape

`akita-params/src/transcript_grinding/plan.rs` and `sink.rs`: one sequence of queries is
emitted into a sink. The plan's sink lists the runs, the planner's sinks count them, a
sumcheck's rounds and a fold's challenges all at once.

Of the level parameters a record holds what the derivation reads. Its methods that are
computed elsewhere (validation against a layout, relation geometry, challenge families) are
fields of that record.
-/

namespace Akita.Grinding

open Akita.Lib Akita.Transcript

/-! ## Public shape -/

structure PolynomialGroupLayout where
  numVars : ℕ
  numPolynomials : ℕ
  deriving DecidableEq, Repr

namespace PolynomialGroupLayout

def singleton (numVars : ℕ) : PolynomialGroupLayout := ⟨numVars, 1⟩

def validate (g : PolynomialGroupLayout) : Result Unit :=
  ensure (g.numPolynomials ≠ 0) (.invalidSetup "opening group layouts must be nonempty")

end PolynomialGroupLayout

structure OpeningClaimsLayout where
  groups : List PolynomialGroupLayout
  deriving DecidableEq, Repr

namespace OpeningClaimsLayout

def checkedNumTotalPolynomials (l : OpeningClaimsLayout) : Result ℕ :=
  okOr (Checked.sum (l.groups.map PolynomialGroupLayout.numPolynomials))
    (.invalidInput "opening layout polynomial count overflows usize")

def check (l : OpeningClaimsLayout) : Result Unit := do
  let empty := AkitaError.invalidInput "opening claim layout must be nonempty"
  ensure (l.groups ≠ []) empty
  let total ← l.checkedNumTotalPolynomials
  ensure (total ≠ 0) empty
  l.groups.forM PolynomialGroupLayout.validate

def fromGroups (groups : List PolynomialGroupLayout) : Result OpeningClaimsLayout := do
  let layout : OpeningClaimsLayout := ⟨groups⟩
  layout.check
  return layout

def new (numVars numTotalPolynomials : ℕ) : Result OpeningClaimsLayout := fromGroups [⟨numVars, numTotalPolynomials⟩]

def fromRootGroups (precommitteds : List PolynomialGroupLayout) (finalGroup : PolynomialGroupLayout) :
    Result OpeningClaimsLayout := fromGroups (precommitteds ++ [finalGroup])

def maxNumVars (l : OpeningClaimsLayout) : ℕ := (l.groups.map PolynomialGroupLayout.numVars).foldl max 0

def numTotalPolynomials (l : OpeningClaimsLayout) : ℕ := (l.groups.map PolynomialGroupLayout.numPolynomials).sum

/-- Whether batching needs a sampled row coefficient. -/
def requiresRowBatchChallenge (l : OpeningClaimsLayout) : Bool := l.numTotalPolynomials > 1

end OpeningClaimsLayout

inductive OpeningMethod
  | evaluationTrace
  | subringCoefficientPacking (challengeSubringDimension : ℕ)
  deriving DecidableEq, Repr

namespace OpeningMethod

def requiresExtensionOpeningReduction (m : OpeningMethod) (extensionDegree : ℕ) : Bool :=
  match m with
  | .evaluationTrace => extensionDegree > 1
  | .subringCoefficientPacking _ => false

def sameFamily : OpeningMethod → OpeningMethod → Bool
  | .evaluationTrace, .evaluationTrace => true
  | .subringCoefficientPacking _, .subringCoefficientPacking _ => true
  | _, _ => false

end OpeningMethod

/-- A sparse fold-challenge family: the size of its set and whether a message of a count fits. -/
structure FoldChallengeFamily where
  setBits : UInt32
  stream : ℕ → Result Unit

structure GroupOpenPhaseParams where
  openingMethod : OpeningMethod
  innerRingDimension : ℕ
  numLiveBlocks : ℕ
  foldChallengeFamily : Result FoldChallengeFamily

structure PhysicalL2NormProofShape where
  validate : Result Unit
  subclaimCount : Option ℕ
  virtualEvaluationCount : ℕ

inductive InnerCommitSecurityRoute
  | linf
  | l2 (normProofShape : PhysicalL2NormProofShape)

/-- What the derivation reads of a level's parameters. -/
structure CommittedGroupParams where
  groups : List GroupOpenPhaseParams
  /-- the layouts of the groups before the level's own -/
  precommitted : List PolynomialGroupLayout
  validateOpeningBatch : OpeningClaimsLayout → Result Unit
  /-- `relation_address_geometry(layout, extension degree, outgoing ring dimension,
  witness length)`, by its `relation_point_variable_count` -/
  relationPointVariableCount : OpeningClaimsLayout → ℕ → ℕ → ℕ → Result ℕ
  relationRowIndexNumVars : OpeningClaimsLayout → Result ℕ
  openLogBasis : ℕ
  securityRoute : InnerCommitSecurityRoute
  compressedPayload : Bool
  /-- the variables of the setup prefix, when the level has one -/
  setupPrefix : Option ℕ
  ringDimension : ℕ
  recursiveOpeningNumVars : Result ℕ

namespace CommittedGroupParams

def validatedGroups (p : CommittedGroupParams) (layout : OpeningClaimsLayout) : Result (List GroupOpenPhaseParams) := do
  p.validateOpeningBatch layout
  return p.groups

def uniformOpeningMethod (p : CommittedGroupParams) (layout : OpeningClaimsLayout) : Result OpeningMethod := do
  let groups ← p.validatedGroups layout
  let first ← okOr groups.head? (.internal "validated opening groups have no first opening method")
  groups.tail.forM fun group =>
    ensure (first.openingMethod.sameFamily group.openingMethod)
      (.invalidSetup "one fold cannot mix opening method families")
  return first.openingMethod

def openingLayoutForFinalGroup (p : CommittedGroupParams) (finalGroup : PolynomialGroupLayout) :
    Result OpeningClaimsLayout := OpeningClaimsLayout.fromRootGroups p.precommitted finalGroup

end CommittedGroupParams

structure TerminalFoldParams where
  liveBlocks : ℕ
  foldChallengeFamily : Result FoldChallengeFamily
  ringDimension : ℕ
  recursiveOpeningNumVars : Result ℕ

inductive FoldSuccessor
  | recursive (params : CommittedGroupParams)
  | terminal (params : TerminalFoldParams)

namespace FoldSuccessor

def ringDimension : FoldSuccessor → ℕ
  | .recursive params => params.ringDimension
  | .terminal params => params.ringDimension

def recursiveOpeningNumVars : FoldSuccessor → Result ℕ
  | .recursive params => params.recursiveOpeningNumVars
  | .terminal params => params.recursiveOpeningNumVars

end FoldSuccessor

structure FoldParams where
  params : CommittedGroupParams
  outputWitnessLen : ℕ

structure FoldSchedule where
  root : FoldParams
  recursiveFolds : List FoldParams
  terminal : TerminalFoldParams
  validateStructure : Result Unit
  validateNonterminalOpeningExecution : ℕ → Result Unit

/-! ## Digit ranges -/

structure Stage1StageShape where
  /-- rounds and degree of the equality-factored sumcheck -/
  sumcheckProof : ℕ × ℕ
  childClaims : ℕ
  deriving DecidableEq, Repr

structure PhysicalL2NormShape where
  subclaims : ℕ
  virtualEvaluations : ℕ
  rounds : ℕ
  degree : ℕ
  deriving DecidableEq, Repr

/-- `DigitRangePlan`: a supported basis, by its logarithm. -/
structure DigitRangePlan where
  logBasis : ℕ
  supported : logBasis ∈ [2, 3, 4, 5, 6]

namespace DigitRangePlan

def new (basis : ℕ) : Result DigitRangePlan :=
  match basis with
  | 4 => .ok ⟨2, by decide⟩
  | 8 => .ok ⟨3, by decide⟩
  | 16 => .ok ⟨4, by decide⟩
  | 32 => .ok ⟨5, by decide⟩
  | 64 => .ok ⟨6, by decide⟩
  | _ => .error (.invalidInput ("digit range basis must be one of 4, 8, 16, 32, 64; got " ++ toString basis))

def productStageArities (p : DigitRangePlan) : List ℕ :=
  match p.logBasis with
  | 4 => [2]
  | 5 => [4]
  | 6 => [2, 4]
  | _ => []

def leafDegree (p : DigitRangePlan) : ℕ := if p.logBasis = 2 then 2 else 4

def stageCount (p : DigitRangePlan) : ℕ := p.productStageArities.length + 1

/-- The product stages, whose claims multiply, and the leaf stage. -/
def stageShapesFrom (p : DigitRangePlan) (rounds childClaims : ℕ) : List ℕ → List Stage1StageShape
  | [] => [{ sumcheckProof := (rounds, p.leafDegree), childClaims := 0 }]
  | arity :: arities =>
    { sumcheckProof := (rounds, arity), childClaims := childClaims * arity } ::
      stageShapesFrom p rounds (childClaims * arity) arities

def stageShapes (p : DigitRangePlan) (rounds : ℕ) : List Stage1StageShape :=
  p.stageShapesFrom rounds 1 p.productStageArities

/-- `route_shape`: the stages of the selected route and its norm proof. -/
def routeShape (p : DigitRangePlan) (rounds : ℕ) (route : InnerCommitSecurityRoute) :
    Result (List Stage1StageShape × Option PhysicalL2NormShape) :=
  match route with
  | .linf => .ok ((p.stageShapes rounds).take p.stageCount, none)
  | .l2 shape => do
    shape.validate
    let subclaims ← okOr shape.subclaimCount (.invalidSetup "L2 norm subclaim count overflow")
    return ((p.stageShapes rounds).take p.productStageArities.length,
      some { subclaims, virtualEvaluations := shape.virtualEvaluationCount, rounds, degree := p.leafDegree + 1 })

end DigitRangePlan

/-! ## Loss factors -/

/-- `u64::try_from` of a `usize`. -/
def u64TryFrom (n : ℕ) (msg : String) : Result UInt64 :=
  if n < 2 ^ 64 then .ok (UInt64.ofNat n) else .error (.invalidSetup msg)

def polynomialIdentityLossFactor (degree : ℕ) : Result UInt64 :=
  u64TryFrom (max degree 1) "polynomial degree exceeds u64"

def multilinearPointLossFactor (coordinates : ℕ) : Result UInt64 :=
  u64TryFrom (max coordinates 1) "multilinear point width exceeds u64"

def powersBatchLossFactor (values : ℕ) : Result UInt64 :=
  u64TryFrom (max (values - 1) 1) "powers batch length exceeds u64"

def independentBatchLossFactor (values : ℕ) : Result UInt64 :=
  u64TryFrom (max values 1) "independent batch length exceeds u64"

def ringSwitchAlphaLossFactor (_openingMethod : OpeningMethod) (innerRingDimension : ℕ) : Result UInt64 := do
  -- both opening methods check their rows in the native inner ring
  let degreeBound ← okOr ((checkedMul usizeBits innerRingDimension 2).bind (checkedSub · 1))
    (.invalidSetup "ring-switch alpha degree overflow")
  polynomialIdentityLossFactor degreeBound

/-! ## Sinks -/

variable {𝔭 : Pricing}

/-- Consecutive queries that differ only by the round index. -/
structure SumcheckRoundBatch (𝔭 : Pricing) where
  challengeOrder : ChallengeFieldOrder 𝔭
  protocol : SumcheckProtocol
  level : UInt32
  stage : UInt32
  rounds : ℕ
  degree : ℕ

namespace SumcheckRoundBatch

def roundRun (b : SumcheckRoundBatch 𝔭) (round : ℕ) : Result GrindingRun := do
  let round ← usizeToU32 round "sumcheck grinding round"
  let loss ← polynomialIdentityLossFactor b.degree
  GrindingRun.proofOfWork (.sumcheckRound b.protocol b.level b.stage round) loss b.challengeOrder

def representative (b : SumcheckRoundBatch 𝔭) : Result (Option GrindingRun) :=
  match checkedSub b.rounds 1 with
  | none => .ok none
  | some lastRound => do
    let run ← b.roundRun lastRound
    return some run

/-- The representative run and how many rounds repeat it. -/
def repeated (b : SumcheckRoundBatch 𝔭) : Result (Option (GrindingRun × UInt32)) := do
  match ← b.representative with
  | none => return none
  | some run =>
    ensure (b.rounds < 2 ^ 32) (.invalidSetup "grinding plan run count exceeds u32")
    return some (run, UInt32.ofNat b.rounds)

def runAt (b : SumcheckRoundBatch 𝔭) (representative : GrindingRun) (round : ℕ) : Result GrindingRun := do
  let round ← usizeToU32 round "sumcheck grinding round"
  return { representative with site := .sumcheckRound b.protocol b.level b.stage round }

end SumcheckRoundBatch

abbrev SinkM (σ α : Type) := StateT σ (Except AkitaError) α

structure GrindingPlanSink (𝔭 : Pricing) (σ : Type) where
  push : GrindingRun → SinkM σ Unit
  sumcheckRounds : SumcheckRoundBatch 𝔭 → SinkM σ Unit
  foldQueries : UInt32 → CommittedGroupParams → OpeningClaimsLayout → SinkM σ Unit
  terminalFoldQueries : UInt32 → TerminalFoldParams → SinkM σ Unit

/-- One group of a fold: its message run, the challenges so far and the smallest set so far. -/
def foldChallengeGroupRun (level : UInt32) (acc : List GrindingRun × UInt64 × UInt32)
    (item : (PolynomialGroupLayout × GroupOpenPhaseParams) × ℕ) : Result (List GrindingRun × UInt64 × UInt32) := do
  let ((groupLayout, groupParams), groupIndex) := item
  let (runs, challenges, setBits) := acc
  let group ← usizeToU32 groupIndex "fold challenge group"
  let count ← okOr (checkedMul usizeBits groupLayout.numPolynomials groupParams.numLiveBlocks)
    (.invalidSetup "fold coordinate count overflow")
  let family ← groupParams.foldChallengeFamily
  -- the set size does not depend on the count, but the message must fit
  family.stream count
  let count ← usizeToU64 count "fold coordinate count"
  let challenges ← okOr (checkedAdd 64 challenges.toNat count) (.invalidSetup "fold challenge count overflow")
  let run ← GrindingRun.foldChallengeGroup level group (UInt64.ofNat count)
  return (runs ++ [run], UInt64.ofNat challenges, min setBits family.setBits)

/-- The fold proof of work at `level` and the challenge-message run of each group. -/
def foldChallengeRuns (𝔭 : Pricing) (level : UInt32) (params : CommittedGroupParams)
    (layout : OpeningClaimsLayout) : Result (GrindingRun × List GrindingRun) := do
  let groups ← params.validatedGroups layout
  let (runs, challenges, setBits) ←
    (layout.groups.zip groups).zipIdx.foldlM (foldChallengeGroupRun level) ([], 0, 0xffffffff)
  let work ← GrindingRun.foldChallengeWork 𝔭 level challenges setBits
  return (work, runs)

/-- The terminal fold's proof of work at `level` and its challenge-message run. -/
def terminalFoldChallengeRuns (𝔭 : Pricing) (level : UInt32) (terminal : TerminalFoldParams) :
    Result (GrindingRun × GrindingRun) := do
  let family ← terminal.foldChallengeFamily
  family.stream terminal.liveBlocks
  let challenges ← usizeToU64 terminal.liveBlocks "terminal fold coordinates"
  let work ← GrindingRun.foldChallengeWork 𝔭 level (UInt64.ofNat challenges) family.setBits
  let group ← GrindingRun.foldChallengeGroup level 0 (UInt64.ofNat challenges)
  return (work, group)

namespace GrindingPlanSink

variable {σ : Type} (push : GrindingRun → SinkM σ Unit)

def defaultSumcheckRounds (batch : SumcheckRoundBatch 𝔭) : SinkM σ Unit := do
  match ← (batch.representative : Result _) with
  | none => return ()
  | some representative =>
    (List.range batch.rounds).forM fun round => do
      let run ← (batch.runAt representative round : Result _)
      push run

def defaultFoldQueries (𝔭 : Pricing) (level : UInt32) (params : CommittedGroupParams)
    (layout : OpeningClaimsLayout) : SinkM σ Unit := do
  let (work, groups) ← (foldChallengeRuns 𝔭 level params layout : Result _)
  (work :: groups).forM push

def defaultTerminalFoldQueries (𝔭 : Pricing) (level : UInt32) (terminal : TerminalFoldParams) : SinkM σ Unit := do
  let (work, group) ← (terminalFoldChallengeRuns 𝔭 level terminal : Result _)
  push work
  push group

def listing (𝔭 : Pricing) : GrindingPlanSink 𝔭 (List GrindingRun) :=
  let push run := modify fun runs => runs ++ [run]
  { push, sumcheckRounds := defaultSumcheckRounds push, foldQueries := defaultFoldQueries push 𝔭,
    terminalFoldQueries := defaultTerminalFoldQueries push 𝔭 }

end GrindingPlanSink

/-- `self.f(..)?` on the counts. -/
def onCounts (f : GrindingPlanAccumulator 𝔭 → Result (GrindingPlanAccumulator 𝔭)) :
    SinkM (GrindingPlanAccumulator 𝔭) Unit := do
  let counts ← f (← get)
  set counts

namespace GrindingPlanSink

def accumulator (𝔭 : Pricing) : GrindingPlanSink 𝔭 (GrindingPlanAccumulator 𝔭) :=
  let push run := onCounts fun acc => acc.push run
  { push
    sumcheckRounds := fun batch => do
      match ← (batch.repeated : Result _) with
      | none => return ()
      | some (run, repetitions) => onCounts fun acc => acc.pushRepeated run repetitions
    foldQueries := defaultFoldQueries push 𝔭
    terminalFoldQueries := defaultTerminalFoldQueries push 𝔭 }

end GrindingPlanSink

/-- `FoldChallengeCost`: the challenge queries of one fold, priced once. -/
structure FoldChallengeCost (𝔭 : Pricing) where
  counts : GrindingPlanAccumulator 𝔭
  challengeSetBits : UInt32

namespace FoldChallengeCost

def fromRuns (work : GrindingRun) (groups : List GrindingRun) : Result (FoldChallengeCost 𝔭) := do
  let order : ChallengeFieldOrder 𝔭 ← ChallengeFieldOrder.fromFullCapacity work.challengeSetBits
  let counts ← (work :: groups).foldlM GrindingPlanAccumulator.push (GrindingPlanAccumulator.new order)
  return { counts, challengeSetBits := work.challengeSetBits }

def new (params : CommittedGroupParams) (layout : OpeningClaimsLayout) : Result (FoldChallengeCost 𝔭) := do
  let (work, groups) ← foldChallengeRuns 𝔭 0 params layout
  fromRuns work groups

def terminal (terminal : TerminalFoldParams) : Result (FoldChallengeCost 𝔭) := do
  let (work, group) ← terminalFoldChallengeRuns 𝔭 0 terminal
  fromRuns work [group]

end FoldChallengeCost

/-- `PlannerEdgeSink`: counts without checking targets again, with the fold costs priced before. -/
def GrindingPlanSink.plannerEdge (fold : FoldChallengeCost 𝔭) (terminalFold : Option (FoldChallengeCost 𝔭)) :
    GrindingPlanSink 𝔭 (GrindingPlanAccumulator 𝔭) where
  push run := onCounts fun acc => acc.countRepeated run 1
  sumcheckRounds batch := do
    match ← (batch.repeated : Result _) with
    | none => return ()
    | some (run, repetitions) => onCounts fun acc => acc.countRepeated run repetitions
  foldQueries _ _ _ := onCounts fun acc => acc.add fold.counts
  terminalFoldQueries _ _ := do
    let fold ← (okOr terminalFold (.invalidSetup "terminal planner edge is missing its fold cost") : Result _)
    onCounts fun acc => acc.add fold.counts

/-! ## The queries of a proof -/

section

variable {σ : Type} (sink : GrindingPlanSink 𝔭 σ) (challengeOrder : ChallengeFieldOrder 𝔭)

/-- `sink.push(GrindingRun::proof_of_work(..)?)?`. -/
def pushProofOfWork (site : GrindingSite) (loss : Result UInt64) : SinkM σ Unit := do
  let loss ← loss
  let run ← (GrindingRun.proofOfWork site loss challengeOrder : Result _)
  sink.push run

/-- `append_sumcheck` for every round: each round is priced and pushed on its own. -/
def appendSumcheck (b : SumcheckRoundBatch 𝔭) : SinkM σ Unit := (List.range b.rounds).forM fun round => do
    let run ← (b.roundRun round : Result _)
    sink.push run

def appendClaimBatch (site : GrindingSite) (layout : OpeningClaimsLayout) : SinkM σ Unit := do
  if layout.requiresRowBatchChallenge then
    pushProofOfWork sink challengeOrder site (independentBatchLossFactor layout.numTotalPolynomials)
  else return ()

def appendEor (extensionDegree : ℕ) (level : UInt32) (layout : OpeningClaimsLayout) : SinkM σ Unit := do
  let splitBits := trailingZeros extensionDegree
  (ensure (splitBits ≤ layout.maxNumVars)
    (.invalidSetup "extension-opening split exceeds opening arity") : Result _)
  pushProofOfWork sink challengeOrder (.extensionOpeningPoint level) (multilinearPointLossFactor splitBits)
  appendClaimBatch sink challengeOrder (.extensionOpeningClaimBatch level) layout
  sink.sumcheckRounds
    { challengeOrder, protocol := .extensionOpeningReduction, level, stage := 0,
      rounds := layout.maxNumVars - splitBits, degree := 2 }

def appendStage1 (level : UInt32) (stageShape : Stage1StageShape) (stageIndex : ℕ) : SinkM σ Unit := do
  let stage ← (usizeToU32 stageIndex "Stage 1 grinding stage" : Result _)
  let degree ← (okOr (checkedAdd usizeBits stageShape.sumcheckProof.2 1)
    (.invalidSetup "Stage 1 full round degree overflow") : Result _)
  sink.sumcheckRounds
    { challengeOrder, protocol := .stage1, level, stage, rounds := stageShape.sumcheckProof.1, degree }
  if stageShape.childClaims > 0 then
    pushProofOfWork sink challengeOrder (.stage1InterstageBatch level stage)
      (powersBatchLossFactor stageShape.childClaims)
  else return ()

def appendNorm (level : UInt32) (norm : PhysicalL2NormShape) : SinkM σ Unit := do
  (if norm.subclaims > 0 then
    pushProofOfWork sink challengeOrder (.l2SubclaimBatch level) (powersBatchLossFactor norm.subclaims)
  else pure ())
  pushProofOfWork sink challengeOrder (.l2NormMerge level) (.ok 1)
  sink.sumcheckRounds
    { challengeOrder, protocol := .physicalL2, level, stage := 0, rounds := norm.rounds, degree := norm.degree }
  pushProofOfWork sink challengeOrder (.l2VirtualBatch level) (polynomialIdentityLossFactor norm.virtualEvaluations)

def setupSumcheckDegree : ℕ := 2

/-- The setup sumcheck towards a successor that carries a setup prefix. -/
def appendStage3 (level : UInt32) (successor : FoldSuccessor) : SinkM σ Unit :=
  match successor with
  | .terminal _ => pure ()
  | .recursive next =>
    match next.setupPrefix with
    | none => pure ()
    | some numVars => sink.sumcheckRounds
        { challengeOrder, protocol := .stage3, level, stage := 0, rounds := numVars, degree := setupSumcheckDegree }

/-- The queries of a level before its fold: the opening reduction, the claim batch and the fold response. -/
def appendOpening (extensionDegree : ℕ) (level : UInt32) (params : CommittedGroupParams)
    (layout : OpeningClaimsLayout) : SinkM σ Unit := do
  let openingMethod ← (params.uniformOpeningMethod layout : Result _)
  (if openingMethod.requiresExtensionOpeningReduction extensionDegree then
    appendEor sink challengeOrder extensionDegree level layout
  else pure ())
  appendClaimBatch sink challengeOrder (.evaluationBatch level) layout
  sink.push (GrindingRun.foldResponse level)

/-- The queries of a level after its fold: the relation, its range and norm proofs and its sumchecks. -/
def appendRelation (level : UInt32) (params : CommittedGroupParams) (relationRounds : ℕ)
    (layout : OpeningClaimsLayout) (successor : FoldSuccessor) (setupBatch : Bool) : SinkM σ Unit := do
  let groups ← (params.validatedGroups layout : Result _)
  let alphaLoss ← (groups.foldlM (fun (largest : UInt64) group => do
    return max largest (← ringSwitchAlphaLossFactor group.openingMethod group.innerRingDimension)) 1 : Result _)
  pushProofOfWork sink challengeOrder (.ringSwitchAlpha level) (.ok alphaLoss)
  let successorOpeningVars ← (successor.recursiveOpeningNumVars : Result _)
  let tau0Width := relationRounds
  (ensure (tau0Width ≤ successorOpeningVars)
    (.invalidSetup "grinding Stage 2 point exceeds successor opening width") : Result _)
  pushProofOfWork sink challengeOrder (.tau0Point level) (multilinearPointLossFactor tau0Width)
  let rowVars ← (params.relationRowIndexNumVars layout : Result _)
  pushProofOfWork sink challengeOrder (.tau1Point level) (multilinearPointLossFactor rowVars)
  let rounds := tau0Width
  let basis ← (okOr (Checked.pow2 params.openLogBasis) (.invalidSetup "digit-range basis exceeds usize") : Result _)
  let range ← (DigitRangePlan.new basis : Result _)
  let (stages, norm) ← (range.routeShape rounds params.securityRoute : Result _)
  stages.zipIdx.forM fun (stageShape, stageIndex) => appendStage1 sink challengeOrder level stageShape stageIndex
  norm.forM (appendNorm sink challengeOrder level)
  (if params.compressedPayload then
    pushProofOfWork sink challengeOrder (.compressionBinary level) (.ok 1)
  else pure ())
  pushProofOfWork sink challengeOrder (.stage2Batch level) (.ok 1)
  sink.sumcheckRounds { challengeOrder, protocol := .stage2, level, stage := 0, rounds, degree := 3 }
  -- a setup batch draws its coefficients after Stage 2
  (if setupBatch then
    pushProofOfWork sink challengeOrder (.setupBatch level) (independentBatchLossFactor maxSetupBatchClaims)
  else pure ())
  appendStage3 sink challengeOrder level successor

def appendNonterminal (extensionDegree : ℕ) (level : UInt32) (params : CommittedGroupParams)
    (relationRounds : ℕ) (layout : OpeningClaimsLayout) (successor : FoldSuccessor) (setupBatch : Bool) :
    SinkM σ ℕ := do
  appendOpening sink challengeOrder extensionDegree level params layout
  sink.foldQueries level params layout
  appendRelation sink challengeOrder level params relationRounds layout successor setupBatch
  -- `rounds` of the relation's sumchecks
  return relationRounds

def appendTerminal (extensionDegree : ℕ) (level : UInt32) (predecessorRounds : ℕ)
    (terminal : TerminalFoldParams) : SinkM σ Unit := do
  let layout ← (OpeningClaimsLayout.new predecessorRounds 1 : Result _)
  (if extensionDegree > 1 then appendEor sink challengeOrder extensionDegree level layout else pure ())
  sink.push (GrindingRun.foldResponse level)
  sink.terminalFoldQueries level terminal

end

def validateClaimExtensionDegree (extensionDegree : ℕ) : Result Unit := do
  ensure (¬ (extensionDegree = 0 ∨ !ChallengeFieldOrder.isPowerOfTwo extensionDegree))
    (.invalidSetup "grinding claim extension degree must be a nonzero power of two")
  ensure (extensionDegree < 2 ^ 32) (.invalidSetup "grinding extension degree exceeds u32")

/-- Price one planner edge. `relationRounds` is the variable count of its relation geometry. -/
def transcriptGrindingCostForPlannerEdge (params : CommittedGroupParams) (fold : FoldChallengeCost 𝔭)
    (relationRounds : ℕ) (layout : OpeningClaimsLayout) (successor : FoldSuccessor)
    (terminalFold : Option (FoldChallengeCost 𝔭)) (challengeOrder : ChallengeFieldOrder 𝔭)
    (claimExtensionDegree : ℕ) (level : UInt32) : Result TranscriptGrindingCost := do
  layout.check
  validateClaimExtensionDegree claimExtensionDegree
  let isTerminal : Bool := match successor with
    | .terminal _ => true
    | .recursive _ => false
  ensure (isTerminal = terminalFold.isSome)
    (.invalidSetup "planner edge needs a terminal fold cost exactly for a terminal successor")
  let sink := GrindingPlanSink.plannerEdge fold terminalFold
  let (rounds, acc) ← appendNonterminal sink challengeOrder claimExtensionDegree level params relationRounds layout
    successor false (GrindingPlanAccumulator.new challengeOrder)
  match successor with
  | .terminal terminal => do
    let next ← okOr (checkedAdd 32 level.toNat 1) (.invalidSetup "terminal grinding level overflow")
    let (_, acc) ← appendTerminal sink challengeOrder claimExtensionDegree (UInt32.ofNat next) rounds terminal acc
    return acc.cost
  | .recursive _ => return acc.cost

/-- What follows a level: the next recursive fold, or the terminal one. -/
def successorOf (terminal : TerminalFoldParams) : List FoldParams → FoldSuccessor
  | [] => .terminal terminal
  | fold :: _ => .recursive fold.params

/-- The recursive folds of the derivation, from level `index + 1` on. -/
def appendRecursiveFolds {σ : Type} (sink : GrindingPlanSink 𝔭 σ) (challengeOrder : ChallengeFieldOrder 𝔭)
    (claimExtensionDegree : ℕ) (terminal : TerminalFoldParams) (setupBatchLevel : Option UInt32) :
    List FoldParams → ℕ → ℕ → SinkM σ ℕ
  | [], _, predecessorRounds => return predecessorRounds
  | fold :: folds, index, predecessorRounds => do
    let layout ← (fold.params.openingLayoutForFinalGroup (.singleton predecessorRounds) : Result _)
    let successor := successorOf terminal folds
    let relationRounds ← (fold.params.relationPointVariableCount layout claimExtensionDegree
      successor.ringDimension fold.outputWitnessLen : Result _)
    let level ← (usizeToU32 (index + 1) "grinding level" : Result _)
    let rounds ← appendNonterminal sink challengeOrder claimExtensionDegree level fold.params relationRounds layout
      successor (setupBatchLevel == some level)
    appendRecursiveFolds sink challengeOrder claimExtensionDegree terminal setupBatchLevel folds (index + 1) rounds

def deriveTranscriptGrindingPlanFromPublicShape (schedule : FoldSchedule) (rootLayout : OpeningClaimsLayout)
    (challengeOrder : ChallengeFieldOrder 𝔭) (claimExtensionDegree : ℕ) (setupBatchLevel : Option UInt32) :
    Result (GrindingPlan 𝔭) := do
  schedule.validateStructure
  schedule.validateNonterminalOpeningExecution claimExtensionDegree
  rootLayout.check
  validateClaimExtensionDegree claimExtensionDegree
  let sink := GrindingPlanSink.listing 𝔭
  let rootSuccessor := successorOf schedule.terminal schedule.recursiveFolds
  let rootRounds ← schedule.root.params.relationPointVariableCount rootLayout claimExtensionDegree
    rootSuccessor.ringDimension schedule.root.outputWitnessLen
  ensure (!setupBatchLevel.any fun level => level.toNat > schedule.recursiveFolds.length)
    (.invalidSetup "setup batch target must be a nonterminal fold")
  let emit : SinkM (List GrindingRun) Unit := do
    let rounds ← appendNonterminal sink challengeOrder claimExtensionDegree 0 schedule.root.params rootRounds
      rootLayout rootSuccessor (setupBatchLevel == some 0)
    let rounds ← appendRecursiveFolds sink challengeOrder claimExtensionDegree schedule.terminal setupBatchLevel
      schedule.recursiveFolds 0 rounds
    let level ← (usizeToU32 (schedule.recursiveFolds.length + 1) "terminal grinding level" : Result _)
    appendTerminal sink challengeOrder claimExtensionDegree level rounds schedule.terminal
  let (_, runs) ← emit []
  GrindingPlan.new runs challengeOrder

/-! ## The planner's edges -/

/-- A nonterminal level with what follows it, as the planner prices it. -/
structure PlannerEdge where
  params : CommittedGroupParams
  layout : OpeningClaimsLayout
  relationRounds : ℕ
  successor : FoldSuccessor
  level : ℕ

/-- The edge's grinding cost, with the fold costs of its level and of a terminal successor. -/
def PlannerEdge.grindingCost (e : PlannerEdge) (challengeOrder : ChallengeFieldOrder 𝔭) (claimExtensionDegree : ℕ) :
    Result TranscriptGrindingCost := do
  let foldCost ← FoldChallengeCost.new e.params e.layout
  let terminalFoldCost ← match e.successor with
    | .terminal terminal => some <$> FoldChallengeCost.terminal terminal
    | .recursive _ => pure none
  let level ← usizeToU32 e.level "grinding level"
  transcriptGrindingCostForPlannerEdge e.params foldCost e.relationRounds e.layout e.successor terminalFoldCost
    challengeOrder claimExtensionDegree level

/-- The edges of the recursive folds, each opened at the rounds of the one before. -/
def recursiveEdges (claimExtensionDegree : ℕ) (terminal : TerminalFoldParams) :
    List FoldParams → ℕ → ℕ → Result (List PlannerEdge)
  | [], _, _ => return []
  | fold :: folds, level, predecessorRounds => do
    let layout ← fold.params.openingLayoutForFinalGroup (.singleton predecessorRounds)
    let successor := successorOf terminal folds
    let relationRounds ← fold.params.relationPointVariableCount layout claimExtensionDegree
      successor.ringDimension fold.outputWitnessLen
    let rest ← recursiveEdges claimExtensionDegree terminal folds (level + 1) relationRounds
    return { params := fold.params, layout, relationRounds, successor, level } :: rest

def plannerEdges (schedule : FoldSchedule) (rootLayout : OpeningClaimsLayout) (claimExtensionDegree : ℕ) :
    Result (List PlannerEdge) := do
  let successor := successorOf schedule.terminal schedule.recursiveFolds
  let relationRounds ← schedule.root.params.relationPointVariableCount rootLayout claimExtensionDegree
    successor.ringDimension schedule.root.outputWitnessLen
  let rest ← recursiveEdges claimExtensionDegree schedule.terminal schedule.recursiveFolds 1 relationRounds
  return { params := schedule.root.params, layout := rootLayout, relationRounds, successor, level := 0 } :: rest

end Akita.Grinding
