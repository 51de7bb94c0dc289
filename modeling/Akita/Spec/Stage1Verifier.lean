import Akita.Spec.CoefficientPacking
import Akita.Spec.DigitRange
import Akita.Spec.Replay
import Akita.Spec.Sumcheck

/-!
# The Stage-1 verifier

`akita-verifier/src/stages/stage1.rs`: the replay of the product stages of the range proof and of
its leaf. A product stage reduces the batched products of its lanes to claims on their children.

The proof of the physical norm, which takes the place of the leaf where there is one, is a parameter.
-/

namespace Akita.Sumcheck

open Transcript

def SumcheckShape.new (numRounds degreeBound : ℕ) : Result SumcheckShape :=
  if h : degreeBound ≠ 0 ∧ numRounds < 2 ^ 32 ∧ (Checked.product [degreeBound, numRounds]).isSome then
    .ok ⟨numRounds, degreeBound, h.1, h.2.1, h.2.2⟩
  else .error (.invalidSetup "invalid native sumcheck shape")

end Akita.Sumcheck

namespace Akita.DigitRange

open CoefficientPacking Grinding Sumcheck Transcript

variable {E : Type} [Field E]

def DigitRangePlan.evaluateLeafPolynomial (coeffs : List E) (rangeImage : E) : E :=
  coeffs.reverse.foldl (fun acc coeff => acc * rangeImage + coeff) 0

structure RangeLeafVerifierInput (E : Type) where
  equalityPoint : List E
  inputClaim : E
  polynomialCoefficients : List E

structure Stage1VerifyOutput (E : Type) where
  point : List E
  rangeImageEvaluation : E
  physicalL2VirtualEvaluations : Option (List E)

structure ProductClaim (E : Type) where
  equalityPoint : List E
  claim : E
  weights : List E

structure ProductStage (E : Type) extends ProductClaim E where
  arity : ℕ
  replay : SumcheckRoundResult E
  childClaims : List E
  gamma : E

namespace ProductStage

variable (stage : ProductStage E)

/-- `expected_output` of a product stage. -/
def expectedOutput : E :=
  (stage.weights.zip (chunksExact stage.arity stage.childClaims)).foldl (fun acc (weight, claims) =>
    acc + weight * claims.foldl (fun product claim => product * claim) 1) 0

/-- The batched claim on the children. -/
def next : Result (ProductClaim E) := do
  let weights := DigitRangePlan.interstageBatchWeights stage.gamma stage.childClaims.length
  let claim ← DigitRangePlan.batchClaims weights stage.childClaims
  return { equalityPoint := stage.replay.challenges, claim, weights }

end ProductStage

def stage1Site (level stage role : UInt32) : ProtocolSiteId := { family := 4, level, stage, detail := role }

/-- `VerifierGrinding` over its end of the channel, and its `GrindingSumcheckVerifier` of each stage. -/
structure Stage1Grinding (𝔱 : TranscriptBackend) (κ E : Type) where
  codec : ChallengeCodec E
  replay : GrindingReplay (𝔱.Verifier × κ) 𝔱.Verifier
  sumcheck : UInt32 → SumcheckChannel 𝔱.Verifier κ E

section

variable [DecidableEq E] (F : Type) [CanonicalEncoding F] [ExtField F E] {𝔱 : TranscriptBackend} {κ : Type}
  (𝔬 : OmittedBackend E) (𝔤 : Stage1Grinding 𝔱 κ E) (level : UInt32) (plan : DigitRangePlan)

def productStage (rounds stageIndex arity : ℕ) (input : ProductClaim E) :
    EStateM AkitaError (𝔱.Verifier × κ) (ProductStage E) := do
  let expected ← ofResult (okOr (plan.stageShapes rounds)[stageIndex]? .invalidProof)
  let stage ← ofResult (u32TryFrom stageIndex .invalidProof)
  let shape ← ofResult (SumcheckShape.new rounds arity)
  let replay ← verifyEqFactoredSumcheckRounds F 𝔬 input.equalityPoint input.claim shape (𝔤.sumcheck stage) 0
  let childClaims ← 𝔤.replay.onState (extensionSlots expected.childClaims)
  let childClaims ← 𝔤.replay.onState (exchangeExtensionGroup F (stage1Site level stage 1) childClaims)
  ofResult (ensure (replay.outputClaim = ProductStage.expectedOutput ⟨input, arity, replay, childClaims, 0⟩) .invalidProof)
  let gamma ← 𝔤.replay.grindedExtChallenge 𝔤.codec (.stage1InterstageBatch level stage)
  return ⟨input, arity, replay, childClaims, gamma⟩

def productStages (rounds : ℕ) : List ℕ → ℕ → ProductClaim E →
    EStateM AkitaError (𝔱.Verifier × κ) (List (ProductStage E) × ProductClaim E)
  | [], _, input => pure ([], input)
  | arity :: arities, stageIndex, input => do
    let stage ← productStage F 𝔬 𝔤 level plan rounds stageIndex arity input
    let input ← ofResult stage.next
    let (stages, last) ← productStages rounds arities (stageIndex + 1) input
    return (stage :: stages, last)

def verifyProductPrefix (equalityPoint : List E) : EStateM AkitaError (𝔱.Verifier × κ) (RangeLeafVerifierInput E) := do
  let (_, last) ← productStages F 𝔬 𝔤 level plan equalityPoint.length plan.productStageArities 0 ⟨equalityPoint, 0, [1]⟩
  let polynomialCoefficients ← ofResult (DigitRangePlan.batchLeafPolynomials last.weights (plan.leafCoeffs E))
  return { equalityPoint := last.equalityPoint, inputClaim := last.claim, polynomialCoefficients }

/-- `Stage1Verifier::verify`; `physicalL2` is `verify_physical_l2_norm` at the plan, profile and cap given. -/
def verify (equalityPoint : List E) (physicalL2 : Option (RangeLeafVerifierInput E → UInt32 →
    EStateM AkitaError (𝔱.Verifier × κ) (Stage1VerifyOutput E))) :
    EStateM AkitaError (𝔱.Verifier × κ) (Stage1VerifyOutput E) := do
  let leaf ← verifyProductPrefix F 𝔬 𝔤 level plan equalityPoint
  let stage ← ofResult (u32TryFrom plan.productStageArities.length .invalidProof)
  match physicalL2 with
  | some physicalL2 => physicalL2 leaf stage
  | none =>
    let shape ← ofResult (SumcheckShape.new leaf.equalityPoint.length (leaf.polynomialCoefficients.length - 1))
    let replay ← verifyEqFactoredSumcheckRounds F 𝔬 leaf.equalityPoint leaf.inputClaim shape (𝔤.sumcheck stage) 0
    let received ← 𝔤.replay.onState (exchangeExtensionGroup F (stage1Site level stage 2) [0])
    let rangeImageEvaluation := received.headD 0
    ofResult (ensure (replay.outputClaim =
      DigitRangePlan.evaluateLeafPolynomial leaf.polynomialCoefficients rangeImageEvaluation) .invalidProof)
    return { point := replay.challenges, rangeImageEvaluation, physicalL2VirtualEvaluations := none }

end

end Akita.DigitRange
