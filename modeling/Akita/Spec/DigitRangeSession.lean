import Akita.Spec.Sumcheck
import Akita.Spec.DigitRange
import Akita.Spec.EqPoly

/-!
# The Stage-1 session

`akita-cpu-backend/src/opaque/sumcheck/digit_range/session.rs`: the prover side of the digit-range
check, driven by calls from outside. Product stages run from the root of the range tree, then the
range leaf; with a physical response the leaf is fused with the norm term after the norm claims.

An operation on the session is `EStateM`: a failed one still leaves a session behind. The tables
that the stage provers fold are the parameter `DigitRangeKernels`, of which only the shape of the
results is fixed: their failures are internal errors, given by their texts. The equality factor,
the counters and the checks of the provers are part of the model.
-/

namespace Akita.DigitRange

open Lib OffsetEq Sumcheck

/-- The polynomials of `jolt-poly` as the session uses them: by their coefficients, low degree first,
from the linear one on for `OmittedConstantPoly`. -/
structure RoundBackend (E : Type) where
  omitted : OmittedBackend E
  fromQCoefficients : List E → List E
  omittedDegree : List E → ℕ
  evaluate : List E → E → E
  degree : List E → ℕ

structure RoundBackend.Lawful {E : Type} [Field E] (𝔯 : RoundBackend E) : Prop where
  omitted : 𝔯.omitted.Lawful
  evaluate : ∀ cs x, 𝔯.evaluate cs x = (ofCoeffs cs).eval x

/-! ## The digit source -/

/-- Collision class of one balanced digit under `digit * (digit + 1)`. -/
def rangeImageClass (digit : ℤ) : ℕ := if 0 ≤ digit then digit.toNat else (-digit - 1).toNat

/-- The class pairs of consecutive digits, the last digit paired with the padding class. -/
def orderedRangeClassPairs (classCount : ℕ) : List ℤ → List ℕ
  | [] => []
  | [left] => [rangeImageClass left * classCount]
  | left :: right :: digits =>
    (rangeImageClass left * classCount + rangeImageClass right) :: orderedRangeClassPairs classCount digits

structure CompactDigitSource where
  digits : List ℤ
  orderedRangeClassPairs : List ℕ
  domain : FlatBooleanDomain
  classCount : ℕ
  deriving DecidableEq, Repr

namespace CompactDigitSource

/-- The class pairs, where the constructor left them out. -/
def prepareClassIndexedLeaf (s : CompactDigitSource) : CompactDigitSource :=
  if s.orderedRangeClassPairs = [] ∧ s.digits ≠ [] then
    { s with orderedRangeClassPairs := DigitRange.orderedRangeClassPairs s.classCount s.digits }
  else s

end CompactDigitSource

/-- `SmallPoly::new`: at most five coefficients. -/
def smallPoly {E : Type} (coefficients : List E) : Result (List E) := do
  ensure (coefficients.length ≤ 5) (.internal
    ("range-leaf polynomial coefficient count: expected 5, actual " ++ toString coefficients.length))
  return coefficients

inductive ProductArity
  | two
  | four
  deriving DecidableEq, Repr

namespace ProductArity

def new : ℕ → Option ProductArity
  | 2 => some two
  | 4 => some four
  | _ => none

def degree : ProductArity → ℕ
  | two => 2
  | four => 4

end ProductArity

/-! ## Stage provers -/

/-- The tables of the stage provers. A round reads the equality factor of its round, and so does a fold. -/
structure DigitRangeKernels (E : Type) where
  /-- `LowBasisRangeImageStorage` with the cached round polynomial and the live columns -/
  Low : Type
  lowNew : List ℤ → GruenSplitEq E → (basis liveXCols ringBits : ℕ) → Result Low
  lowRound : Low → GruenSplitEq E → ℕ → List E × Low
  lowBind : Low → GruenSplitEq E → ℕ → E → Low
  lowFinal : Low → Except String E
  /-- `ProductTableState` -/
  Product : Type
  productNew : CompactDigitSource → DigitRangePlan → List (List E) → (stageIndex : ℕ) → ProductArity → List E →
    Except String Product
  productRound : Product → GruenSplitEq E → ℕ → E → List E
  productBind : Product → GruenSplitEq E → ℕ → E → Product
  productFinal : Product → Option (List E)
  /-- `RangeImageTableState` -/
  Leaf : Type
  leafNew : CompactDigitSource → List E → Except String Leaf
  leafRound : Leaf → GruenSplitEq E → ℕ → E → List E
  leafBind : Leaf → GruenSplitEq E → ℕ → E → Leaf
  leafFinal : Leaf → Option E

def internally {α : Type} (x : Except String α) : Result α := mapErr x .internal

variable {E : Type} [Field E] [DecidableEq E] (rt : Runtime) (𝔯 : RoundBackend E) (𝔨 : DigitRangeKernels E)

structure LowBasisRangeCheckProver where
  rangeImage : 𝔨.Low
  splitEq : GruenSplitEq E
  numVars : ℕ
  basis : ℕ

structure ClassIndexedProductSubcheckProver where
  productTable : 𝔨.Product
  splitEq : GruenSplitEq E
  inputClaim : E
  arity : ProductArity
  numRounds : ℕ

structure ClassIndexedRangeLeafProver where
  rangeImage : 𝔨.Leaf
  splitEq : GruenSplitEq E
  inputClaim : E
  polynomialCoefficients : List E
  numRounds : ℕ

structure FusedRangeNormProver where
  range : ClassIndexedRangeLeafProver 𝔨
  norm : PhysicalNormTerm E
  normMerge : E
  inputClaim : E
  rangeClaim : E
  lastRangeCoefficients : List E

variable {𝔨}

def LowBasisRangeCheckProver.new (digits : List ℤ) (tau0 : List E) (plan : DigitRangePlan)
    (liveXCols colBits ringBits : ℕ) : Result (LowBasisRangeCheckProver 𝔨) := do
  let basis := plan.basis
  ensure (basis = 4 ∨ basis = 8) (.invalidInput "direct range prover requires basis 4 or 8")
  let numVars ← okOr (checkedAdd usizeBits colBits ringBits) (.invalidInput "stage-1 challenge width overflow")
  let xLen ← okOr (Checked.pow2 colBits) (.invalidInput "stage-1 column width overflow")
  ensure (¬ (liveXCols = 0 ∨ liveXCols > xLen)) (.invalidSize xLen liveXCols)
  let yLen ← okOr (Checked.pow2 ringBits) (.invalidInput "stage-1 ring width overflow")
  let expected ← okOr (checkedMul usizeBits liveXCols yLen) (.invalidInput "stage-1 witness size overflow")
  ensure (digits.length = expected) (.invalidSize expected digits.length)
  ensure (tau0.length = numVars) (.invalidSize numVars tau0.length)
  let splitEq ← GruenSplitEq.new rt tau0
  let rangeImage ← 𝔨.lowNew digits splitEq basis liveXCols ringBits
  return { rangeImage, splitEq, numVars, basis }

def ClassIndexedProductSubcheckProver.new (lanes : ℕ) (source : CompactDigitSource) (plan : DigitRangePlan)
    (leafPolynomials : List (List E)) (stageIndex : ℕ) (parentWeights equalityPoint : List E) (inputClaim : E) :
    Result (ClassIndexedProductSubcheckProver 𝔨) := do
  let arity ← okOr plan.productStageArities[stageIndex]? (.internal "digit-range product stage has no planned arity")
  let arity ← okOr (ProductArity.new arity) (.internal "digit-range product stage arity is unsupported")
  let expectedLanes ← okOr (checkedMul usizeBits arity.degree parentWeights.length)
    (.internal "range-product lane count overflow")
  ensure (lanes = expectedLanes) (.internal ("range-product implementation lane count: expected " ++
    toString expectedLanes ++ ", actual " ++ toString lanes))
  let productTable ← internally (𝔨.productNew source plan leafPolynomials stageIndex arity parentWeights)
  let splitEq ← GruenSplitEq.new rt equalityPoint
  return { productTable, splitEq, inputClaim, arity, numRounds := equalityPoint.length }

def ClassIndexedProductSubcheckProver.finalChildClaims (p : ClassIndexedProductSubcheckProver 𝔨) : Result (List E) :=
  okOr (𝔨.productFinal p.productTable) (.internal "product stage was not fully folded")

namespace ClassIndexedRangeLeafProver

def new (source : CompactDigitSource) (equalityPoint : List E) (inputClaim : E) (polynomialCoefficients : List E) :
    Result (ClassIndexedRangeLeafProver 𝔨) := do
  let polynomialCoefficients ← smallPoly polynomialCoefficients
  let rangeImage ← internally (𝔨.leafNew source polynomialCoefficients)
  let splitEq ← GruenSplitEq.new rt equalityPoint
  return { rangeImage, splitEq, inputClaim, polynomialCoefficients, numRounds := equalityPoint.length }

variable (p : ClassIndexedRangeLeafProver 𝔨)

def degreeBound : ℕ := p.polynomialCoefficients.length - 1

/-- The inner polynomial of a round in coefficient form. -/
def roundQCoefficients (round : ℕ) (claim : E) : List E := 𝔨.leafRound p.rangeImage p.splitEq round claim

def ingestChallenge (round : ℕ) (challenge : E) : ClassIndexedRangeLeafProver 𝔨 :=
  { p with rangeImage := 𝔨.leafBind p.rangeImage p.splitEq round challenge, splitEq := p.splitEq.bind challenge }

def finalRangeImageEval : Result E := okOr (𝔨.leafFinal p.rangeImage) (.internal "range-image leaf was not fully folded")

def finalRangeClaim : Result E := do
  let rangeImage ← p.finalRangeImageEval
  let leaf := p.polynomialCoefficients.reverse.foldl (fun acc coefficient => acc * rangeImage + coefficient) 0
  return p.splitEq.currentScalar * leaf

end ClassIndexedRangeLeafProver

namespace FusedRangeNormProver

variable (p : FusedRangeNormProver 𝔨)

def degreeBound : ℕ := p.range.degreeBound + 1

/-- The linear equality factor times the inner polynomial, plus the merged norm polynomial. -/
def computeRoundUnivariate (round : ℕ) : List E × FusedRangeNormProver 𝔨 :=
  let qCoefficients := p.range.roundQCoefficients round p.rangeClaim
  let (factorAtZero, factorAtOne) := p.range.splitEq.linearFactorEvals
  let factorDelta := factorAtOne - factorAtZero
  let q := qCoefficients.take (p.range.degreeBound + 1)
  let normCoefficients := p.norm.roundCoefficients
  ((List.range (p.degreeBound + 1)).map fun degree =>
      factorAtZero * q.getD degree 0 + (match degree with | 0 => 0 | d + 1 => factorDelta * q.getD d 0) +
        p.normMerge * normCoefficients.getD degree 0,
    { p with lastRangeCoefficients := qCoefficients })

def ingestChallenge (round : ℕ) (challenge : E) : FusedRangeNormProver 𝔨 := { p with
    rangeClaim := p.lastRangeCoefficients.reverse.foldl (fun acc coefficient => acc * challenge + coefficient) 0
    range := p.range.ingestChallenge round challenge
    norm := p.norm.bind challenge }

end FusedRangeNormProver

/-! ## Messages -/

inductive Stage1Step
  | product (index : ℕ)
  | rangeLeaf
  | fusedRangeNorm
  deriving DecidableEq, Repr

inductive Stage1Transition
  | productBatch (index : ℕ)
  | l2SubclaimBatch
  | rangeNormMerge
  deriving DecidableEq, Repr

inductive Stage1RoundPolynomial (E : Type)
  | eqFactored (poly : List E)
  | standard (poly : List E)
  deriving DecidableEq, Repr

inductive Stage1PublicTransition (E : Type)
  | productChildClaims (claims : List E)
  | physicalL2Claims (responseL2Sq : ℕ) (subclaims : List E)
  | final (rangeImageEvaluation : E) (virtualEvaluations : List E)
  deriving DecidableEq, Repr

structure Stage1FinalClaims (E : Type) where
  point : List E
  finalClaim : E
  deriving DecidableEq, Repr

/-! ## The active stage -/

variable (𝔨)

/-- `ActiveStage`. The number of lanes tells the three product provers apart. -/
inductive ActiveStage
  | low (p : LowBasisRangeCheckProver 𝔨)
  | product2 (p : ClassIndexedProductSubcheckProver 𝔨)
  | product4 (p : ClassIndexedProductSubcheckProver 𝔨)
  | product8 (p : ClassIndexedProductSubcheckProver 𝔨)
  | leaf (p : ClassIndexedRangeLeafProver 𝔨)
  | fused (p : FusedRangeNormProver 𝔨)

variable {𝔨}

/-- A round of a product prover, whose table it leaves as it was. -/
def ClassIndexedProductSubcheckProver.computeRoundEqFactored (p : ClassIndexedProductSubcheckProver 𝔨) (round : ℕ)
    (claim : E) : List E :=
  𝔯.fromQCoefficients ((𝔨.productRound p.productTable p.splitEq round claim).take (p.arity.degree + 1))

def ClassIndexedProductSubcheckProver.ingestChallenge (p : ClassIndexedProductSubcheckProver 𝔨) (round : ℕ)
    (challenge : E) : ClassIndexedProductSubcheckProver 𝔨 :=
  { p with productTable := 𝔨.productBind p.productTable p.splitEq round challenge, splitEq := p.splitEq.bind challenge }

namespace ActiveStage

def step (productIndex : ℕ) : ActiveStage 𝔨 → Stage1Step
  | low _ | leaf _ => .rangeLeaf
  | product2 _ | product4 _ | product8 _ => .product productIndex
  | fused _ => .fusedRangeNorm

def numRounds : ActiveStage 𝔨 → ℕ
  | low p => p.numVars
  | product2 p | product4 p | product8 p => p.numRounds
  | leaf p => p.numRounds
  | fused p => p.range.numRounds

def degreeBound : ActiveStage 𝔨 → ℕ
  | low p => p.basis / 2
  | product2 p | product4 p | product8 p => p.arity.degree
  | leaf p => p.degreeBound
  | fused p => p.degreeBound

/-- The round polynomial, the equality coordinate where it is factored, and the stage after the round. -/
def round (round : ℕ) (claim : E) : ActiveStage 𝔨 → Stage1RoundPolynomial E × Option E × ActiveStage 𝔨
  | low p =>
    let (poly, rangeImage) := 𝔨.lowRound p.rangeImage p.splitEq round
    (.eqFactored poly, some p.splitEq.currentTau, low { p with rangeImage })
  | product2 p => (.eqFactored (p.computeRoundEqFactored 𝔯 round claim), some p.splitEq.currentTau, product2 p)
  | product4 p => (.eqFactored (p.computeRoundEqFactored 𝔯 round claim), some p.splitEq.currentTau, product4 p)
  | product8 p => (.eqFactored (p.computeRoundEqFactored 𝔯 round claim), some p.splitEq.currentTau, product8 p)
  | leaf p =>
    (.eqFactored (𝔯.fromQCoefficients ((p.roundQCoefficients round claim).take (p.degreeBound + 1))),
      some p.splitEq.currentTau, leaf p)
  | fused p =>
    let (poly, p) := p.computeRoundUnivariate round
    (.standard poly, none, fused p)

def bind (round : ℕ) (challenge : E) : ActiveStage 𝔨 → ActiveStage 𝔨
  | low p => low { p with rangeImage := 𝔨.lowBind p.rangeImage p.splitEq round challenge
                          splitEq := p.splitEq.bind challenge }
  | product2 p => product2 (p.ingestChallenge round challenge)
  | product4 p => product4 (p.ingestChallenge round challenge)
  | product8 p => product8 (p.ingestChallenge round challenge)
  | leaf p => leaf (p.ingestChallenge round challenge)
  | fused p => fused (p.ingestChallenge round challenge)

end ActiveStage

/-! ## The session -/

inductive Phase
  | running
  | productPublic
  | productBatch
  | l2Public
  | l2Batch
  | merge
  | finalPublic
  | ready
  deriving DecidableEq, Repr

structure PendingRound (E : Type) where
  step : Stage1Step
  round : ℕ
  polynomial : Stage1RoundPolynomial E
  tau : Option E

structure PhysicalState (E : Type) where
  plan : PhysicalResponsePlan
  integers : List (List ℤ)
  responseL2Sq : ℕ
  subclaims : List E
  subclaimWeights : List E

variable (𝔨)

structure DigitRangeSession where
  source : CompactDigitSource
  plan : DigitRangePlan
  leafCoeffs : List (List E)
  equalityPoint : List E
  weights : List E
  claim : E
  productIndex : ℕ
  active : Option (ActiveStage 𝔨)
  phase : Phase
  nextRound : ℕ
  pending : Option (PendingRound E)
  pendingProductClaims : Option (List E)
  point : List E
  physical : Option (PhysicalState E)
  finalRangeImage : Option E
  finalVirtualEvaluations : Option (List E)

/-- `DigitRangeProver`, the input of the session. -/
structure DigitRangeProver (E : Type) where
  digitSource : CompactDigitSource
  equalityPoint : List E
  plan : DigitRangePlan
  liveBlockCount : ℕ
  highVariableCount : ℕ
  lowVariableCount : ℕ

abbrev Op (𝔨 : DigitRangeKernels E) (α : Type) : Type := EStateM AkitaError (DigitRangeSession 𝔨) α

variable {𝔨}

namespace DigitRangeSession

def beginActive (s : DigitRangeSession 𝔨) : DigitRangeSession 𝔨 :=
  { s with phase := .running, nextRound := 0, pending := none, point := [] }

def nextProduct (s : DigitRangeSession 𝔨) : Result (ActiveStage 𝔨) := do
  let lanes ← okOr (s.plan.productStageLaneCount s.productIndex)
    (.internal "stage 1 active product stage has no planned lane count")
  let prover (lanes : ℕ) : Result (ClassIndexedProductSubcheckProver 𝔨) :=
    ClassIndexedProductSubcheckProver.new rt lanes s.source s.plan s.leafCoeffs s.productIndex s.weights s.equalityPoint
      s.claim
  match lanes with
  | 2 => return .product2 (← prover 2)
  | 4 => return .product4 (← prover 4)
  | 8 => return .product8 (← prover 8)
  | _ => .error (.internal "stage 1 active product lane count is unsupported")

def nextLeaf (s : DigitRangeSession 𝔨) : Result (ClassIndexedRangeLeafProver 𝔨) := do
  let coefficients ← DigitRangePlan.batchLeafPolynomials s.weights s.leafCoeffs
  ClassIndexedRangeLeafProver.new rt s.source s.equalityPoint s.claim coefficients

def startProductOrLeaf : Op 𝔨 Unit := fun s =>
  if s.productIndex < s.plan.productStageArities.length then
    match s.nextProduct rt with
    | .ok active => .ok () { s with active := some active }.beginActive
    | .error e => .error e s
  else if s.physical.isSome then .ok () { s with phase := .l2Public }
  else
    match s.nextLeaf rt with
    | .ok leaf => .ok () { s with active := some (.leaf leaf) }.beginActive
    | .error e => .error e s

def physicalState (digits : List ℤ) (plan : PhysicalResponsePlan) : Result (PhysicalState E) := do
  let integers ← plan.materializeVirtualIntegers digits.length (decodeRange digits)
  let (responseL2Sq, subclaims) ← exactClaims plan integers
  return { plan, integers, responseL2Sq, subclaims := subclaims.map (Int.cast : ℤ → E), subclaimWeights := [] }

/-- The session before its first stage, with the given source and physical state. -/
def initial (prover : DigitRangeProver E) (source : CompactDigitSource) (leafCoeffs : List (List E))
    (physical : Option (PhysicalState E)) : DigitRangeSession 𝔨 where
  source := source
  plan := prover.plan
  leafCoeffs := leafCoeffs
  equalityPoint := prover.equalityPoint
  weights := [1]
  claim := 0
  productIndex := 0
  active := none
  phase := .running
  nextRound := 0
  pending := none
  pendingProductClaims := none
  point := []
  physical := physical
  finalRangeImage := none
  finalVirtualEvaluations := none

def new (prover : DigitRangeProver E) (physical : Option PhysicalResponsePlan) : Result (DigitRangeSession 𝔨) := do
  match physical with
  | none =>
    if prover.plan.basis ≤ 8 then
      let active ← LowBasisRangeCheckProver.new rt prover.digitSource.digits prover.equalityPoint prover.plan
        prover.liveBlockCount prover.highVariableCount prover.lowVariableCount
      return { (initial prover prover.digitSource [] none : DigitRangeSession 𝔨) with active := some (.low active) }
    else
      match startProductOrLeaf rt (initial prover prover.digitSource (prover.plan.leafCoeffs E) none) with
      | .ok _ s => return s
      | .error e _ => .error e
  | some plan =>
    ensure (plan.domain.numVars = prover.equalityPoint.length ∧ plan.domain.liveLen = prover.digitSource.digits.length)
      (.internal "physical response and digit-range domains disagree")
    let source := prover.digitSource.prepareClassIndexedLeaf
    let state ← physicalState source.digits plan
    match startProductOrLeaf rt (initial prover source (prover.plan.leafCoeffs E) (some state)) with
    | .ok _ s => return s
    | .error e _ => .error e

/-- Whether a round polynomial is within its degree and, where it is sent whole, sums to the claim. -/
def validPolynomial (degreeBound : ℕ) (claim : E) : Stage1RoundPolynomial E → Bool
  | .eqFactored poly => 𝔯.omittedDegree poly ≤ degreeBound
  | .standard poly => 𝔯.degree poly ≤ degreeBound ∧ 𝔯.evaluate poly 0 + 𝔯.evaluate poly 1 = claim

def roundPolynomial (step : Stage1Step) (round : ℕ) (previousClaim : E) : Op 𝔨 (Stage1RoundPolynomial E) := fun s =>
  match s.active with
  | none => .error (.invalidInput "Stage 1 has no active sumcheck step") s
  | some active =>
    if s.phase ≠ .running ∨ active.step s.productIndex ≠ step ∨ round ≠ s.nextRound ∨ s.pending.isSome ∨
        previousClaim ≠ s.claim then
      .error (.invalidInput "Stage 1 step, round, or previous claim mismatch") s
    else
      let degreeBound := active.degreeBound
      let (polynomial, tau, active) := active.round 𝔯 round s.claim
      let s := { s with active := some active }
      if validPolynomial 𝔯 degreeBound s.claim polynomial then
        .ok polynomial { s with pending := some { step, round, polynomial, tau } }
      else .error (.internal "Stage 1 consumer returned an invalid round polynomial") s

def nextClaim (claim challenge : E) (pending : PendingRound E) : Result E :=
  match pending.polynomial with
  | .eqFactored poly => do
    let tau ← okOr pending.tau (.internal "stage 1 eq-factored round has no equality challenge")
    return advanceEqFactoredClaim 𝔯.omitted claim tau poly challenge
  | .standard poly => return 𝔯.evaluate poly challenge

def publicPhase : ActiveStage 𝔨 → Phase
  | .product2 _ | .product4 _ | .product8 _ => .productPublic
  | _ => .finalPublic

def bindChallenge (step : Stage1Step) (round : ℕ) (challenge : E) : Op 𝔨 Unit := fun s =>
  match s.pending with
  | none => .error (.invalidInput "Stage 1 challenge arrived before its polynomial") s
  | some pending =>
    if pending.step ≠ step ∨ pending.round ≠ round then
      .error (.invalidInput "Stage 1 challenge step or round mismatch") s
    else
      let s := { s with pending := none }
      match nextClaim 𝔯 s.claim challenge pending with
      | .error e => .error e s
      | .ok claim =>
        let s := { s with claim }
        match s.active with
        | none => .error (.internal "stage 1 challenge binding has no active stage") s
        | some active =>
          let active := active.bind round challenge
          let s := { s with active := some active, point := s.point ++ [challenge], nextRound := s.nextRound + 1 }
          if s.nextRound = active.numRounds then .ok () { s with phase := publicPhase active } else .ok () s

def childClaims : ActiveStage 𝔨 → Result (List E)
  | .product2 p | .product4 p | .product8 p => p.finalChildClaims
  | _ => .error (.internal "stage 1 product public transition contains a non-product stage")

/-- The final evaluations of the last stage, checked against the claim where the stage is fused. -/
def finalEvaluations (claim : E) : ActiveStage 𝔨 → Result (E × List E)
  | .low p => do return (← internally (𝔨.lowFinal p.rangeImage), [])
  | .leaf p => do return (← p.finalRangeImageEval, [])
  | .fused p => do
    let expected := (← p.range.finalRangeClaim) + p.normMerge * (← p.norm.finalClaim)
    ensure (claim = expected) (.internal "fused Stage 1 final claim mismatch")
    return (← p.range.finalRangeImageEval, ← p.norm.virtualEvaluations)
  | _ => .error (.internal "stage 1 final public transition contains a non-final stage")

def publicTransition (step : Stage1Step) : Op 𝔨 (Stage1PublicTransition E) := fun s =>
  match s.phase with
  | .productPublic =>
    if step = .product s.productIndex then
      let s' := { s with active := none }
      match s.active with
      | none => .error (.internal "stage 1 product public transition has no active stage") s'
      | some active =>
        match childClaims active with
        | .error e => .error e s'
        | .ok claims =>
          .ok (.productChildClaims claims) { s' with pendingProductClaims := some claims, phase := .productBatch }
    else .error (.invalidInput "unexpected Stage 1 public transition") s
  | .l2Public =>
    if step = .fusedRangeNorm then
      match s.physical with
      | none => .error (.internal "stage 1 physical public transition has no physical state") s
      | some physical =>
        .ok (.physicalL2Claims physical.responseL2Sq physical.subclaims)
          { s with phase := if physical.subclaims.isEmpty then .merge else .l2Batch }
    else .error (.invalidInput "unexpected Stage 1 public transition") s
  | .finalPublic =>
    if s.active.any fun active => active.step s.productIndex ≠ step then
      .error (.invalidInput "Stage 1 final transition step mismatch") s
    else
      let s' := { s with active := none }
      match s.active with
      | none => .error (.internal "stage 1 final public transition has no active stage") s'
      | some active =>
        match finalEvaluations s.claim active with
        | .error e => .error e s'
        | .ok (rangeImageEvaluation, virtualEvaluations) =>
          .ok (.final rangeImageEvaluation virtualEvaluations)
            { s' with finalRangeImage := some rangeImageEvaluation
                      finalVirtualEvaluations := some virtualEvaluations
                      phase := .ready }
  | _ => .error (.invalidInput "unexpected Stage 1 public transition") s

def subclaimPowers (challenge : E) : E → List E → List E
  | _, [] => []
  | power, _ :: subclaims => power :: subclaimPowers challenge (power * challenge) subclaims

def normInputClaim (physical : PhysicalState E) : E :=
  if physical.subclaims.isEmpty then (physical.responseL2Sq : E)
  else (physical.subclaims.zip physical.subclaimWeights).foldl (fun sum (claim, weight) => sum + claim * weight) 0

def startFused (merge : E) : Op 𝔨 Unit := fun s =>
  match s.nextLeaf rt with
  | .error e => .error e s
  | .ok range =>
    match s.physical with
    | none => .error (.internal "stage 1 fused range-norm initialization has no physical state") s
    | some physical =>
      let s := { s with physical := some { physical with integers := [] } }
      match prepareNormTerm physical.plan physical.integers physical.subclaimWeights with
      | .error e => .error e s
      | .ok norm =>
        let claim := range.inputClaim + merge * normInputClaim physical
        .ok () { s with
          claim
          active := some (.fused { range, norm, normMerge := merge, inputClaim := claim, rangeClaim := range.inputClaim
                                   lastRangeCoefficients := List.replicate 5 0 }) }.beginActive

def bindBatchChallenge (transition : Stage1Transition) (challenge : E) : Op 𝔨 Unit := fun s =>
  match s.phase, transition with
  | .productBatch, .productBatch index =>
    if index = s.productIndex then
      match s.plan.productStageLaneCount index with
      | none => .error (.internal "stage 1 product batching stage has no planned lane count") s
      | some claims =>
        let s' := { s with pendingProductClaims := none }
        match s.pendingProductClaims with
        | none => .error (.internal "stage 1 product batching has no pending child claims") s'
        | some childClaims =>
          if childClaims.length ≠ claims then
            .error (.internal "stage 1 product child claim count differs from its planned lanes") s'
          else
            let s' := { s' with weights := DigitRangePlan.interstageBatchWeights challenge claims }
            match DigitRangePlan.batchClaims s'.weights childClaims with
            | .error e => .error e s'
            | .ok claim =>
              startProductOrLeaf rt { s' with claim, equalityPoint := s'.point, productIndex := s'.productIndex + 1 }
    else .error (.invalidInput "unexpected Stage 1 batching challenge") s
  | .l2Batch, .l2SubclaimBatch =>
    match s.physical with
    | none => .error (.internal "stage 1 physical subclaim batching has no physical state") s
    | some physical =>
      .ok () { s with
        physical := some { physical with subclaimWeights := subclaimPowers challenge 1 physical.subclaims }
        phase := .merge }
  | .merge, .rangeNormMerge => startFused rt challenge s
  | _, _ => .error (.invalidInput "unexpected Stage 1 batching challenge") s

def finish (s : DigitRangeSession 𝔨) : Result (Stage1FinalClaims E) := do
  ensure (¬ (s.phase ≠ .ready ∨ s.pending.isSome))
    (.invalidInput "Stage 1 finalized before its public claims were consumed")
  return { point := s.point, finalClaim := s.claim }

end DigitRangeSession

end Akita.DigitRange
