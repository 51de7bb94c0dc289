import Akita.Lib.Coefficients
import Akita.Lib.Stateful
import Akita.Spec.Transcript

/-!
# The standard sumcheck driver

`akita-sumcheck/src/proof_stream.rs`: a prover that writes compressed round polynomials into
the argument string, and a verifier that replays them against the running claim.

Univariate polynomials and their compressed form are those of `jolt-poly`; what the driver
uses of them is the parameter `PolyBackend`. A kernel and a challenge source are values of
the caller's, with states of their own.
-/

namespace Akita.Sumcheck

open Lib Transcript

section

/-- `UnivariatePoly` and `CompressedPoly` of `jolt-poly`. -/
structure PolyBackend (E : Type) where
  UnivariatePoly : Type
  /-- the coefficients, low degree first -/
  coefficients : UnivariatePoly → List E
  evaluate : UnivariatePoly → E → E
  /-- `compress().coeffs_except_linear_term()` -/
  coeffsExceptLinearTerm : UnivariatePoly → List E
  /-- `CompressedPoly::new(coeffs).eval_from_hint(hint, x)` -/
  evalFromHint : List E → E → E → E

/-- Compression drops the linear coefficient, and evaluation from a hint restores it from the sum of
the values at zero and one. -/
structure PolyBackend.Lawful {E : Type} [Field E] (𝔲 : PolyBackend E) : Prop where
  evaluate : ∀ p x, 𝔲.evaluate p x = (ofCoeffs (𝔲.coefficients p)).eval x
  compress : ∀ p, 𝔲.coeffsExceptLinearTerm p = (𝔲.coefficients p).take 1 ++ (𝔲.coefficients p).drop 2
  evalFromHint : ∀ coeffs hint x, coeffs ≠ [] → 𝔲.evalFromHint coeffs hint x = (fromHint hint coeffs).eval x

inductive SumcheckRole
  | claim
  | roundBody
  | challenge
  deriving DecidableEq, Repr

/-- `SumcheckRole as u32`. -/
def SumcheckRole.code : SumcheckRole → UInt32
  | .claim => 1
  | .roundBody => 3
  | .challenge => 4

/-- `SumcheckShape`: the public grammar of one sumcheck, as its constructor checks it. -/
structure SumcheckShape where
  numRounds : ℕ
  degreeBound : ℕ
  degreeBound_ne_zero : degreeBound ≠ 0
  numRounds_lt : numRounds < 2 ^ 32
  product_isSome : (Checked.product [degreeBound, numRounds]).isSome

namespace SumcheckShape

def validateInstance (shape : SumcheckShape) (numRounds degreeBound : ℕ) : Result Unit :=
  ensure (¬ (shape.numRounds ≠ numRounds ∨ shape.degreeBound ≠ degreeBound))
    (.invalidSetup "native sumcheck instance disagrees with its public shape")

end SumcheckShape

/-- `SumcheckProverChannel` and `SumcheckVerifierChannel`: one end `S` of the proof channel and the
source's own state `κ`. -/
structure SumcheckChannel (S κ E : Type) where
  sumcheckSite : κ → UInt32 → UInt32 → SumcheckRole → ProtocolSiteId
  roundChallenge : UInt32 → UInt32 → EStateM AkitaError (S × κ) E

/-- `SumcheckKernel` with state `K`. -/
structure SumcheckKernel {E : Type} (𝔲 : PolyBackend E) (K : Type) where
  numRounds : K → ℕ
  degreeBound : K → ℕ
  inputClaim : K → E
  roundPolynomial : ℕ → E → EStateM AkitaError K 𝔲.UnivariatePoly
  bindChallenge : ℕ → E → EStateM AkitaError K Unit
  finish : EStateM AkitaError K Unit

def u32TryFrom (n : ℕ) (e : AkitaError) : Result UInt32 := if n < 2 ^ 32 then .ok (UInt32.ofNat n) else .error e

section

variable {S κ K α : Type}

def onState (m : Chan S α) : EStateM AkitaError (S × κ) α := zoom Prod.fst (fun s t => (t, s.2)) m

/-- On the challenge source, next to a kernel. -/
def onChannel (m : EStateM AkitaError (S × κ) α) : EStateM AkitaError (S × κ × K) α :=
  zoom (fun s => (s.1, s.2.1)) (fun s t => (t.1, t.2, s.2.2)) m

def onKernel (m : EStateM AkitaError K α) : EStateM AkitaError (S × κ × K) α :=
  zoom (fun s => s.2.2) (fun s k => (s.1, s.2.1, k)) m

end

variable {E : Type} [Field E] [DecidableEq E] (F : Type) [CanonicalEncoding F] [ExtField F E]
  {𝔱 : TranscriptBackend} {𝔲 : PolyBackend E} {K κ : Type}

/-- The coefficients a prover sends for a round, resized to the degree bound. -/
def compressedBody (degreeBound : ℕ) (poly : 𝔲.UnivariatePoly) (claim : E) : Result (List E) := do
  ensure (𝔲.evaluate poly 0 + 𝔲.evaluate poly 1 = claim)
    (.invalidInput "sumcheck round polynomial does not match its input claim")
  let coefficients := 𝔲.coeffsExceptLinearTerm poly
  let coefficientCount := coefficients.length
  ensure (coefficientCount ≠ 0) (.internal "sumcheck compressed coefficient count is zero")
  ensure (coefficientCount ≤ degreeBound) (.internal "sumcheck compressed coefficient count exceeds degree bound")
  return coefficients ++ List.replicate (degreeBound - coefficientCount) 0

/-- The rounds of `prove_sumcheck` from `round` on, `n` of them. -/
def proveRounds (kernel : SumcheckKernel 𝔲 K) (channel : SumcheckChannel 𝔱.Prover κ E) (invocation : UInt32)
    (degreeBound : ℕ) : ℕ → ℕ → E → EStateM AkitaError (𝔱.Prover × κ × K) (List E × E)
  | 0, _, claim => pure ([], claim)
  | n + 1, round, claim => do
    let roundId ← ofResult (u32TryFrom round (.internal "sumcheck round index does not fit u32"))
    let poly ← onKernel (kernel.roundPolynomial round claim)
    let coefficients ← ofResult (compressedBody degreeBound poly claim)
    let bodySite := channel.sumcheckSite (← get).2.1 invocation roundId .roundBody
    let coefficients ← onState (exchangeExtensionGroup F bodySite coefficients)
    let challenge ← onChannel (channel.roundChallenge invocation roundId)
    let claim := 𝔲.evalFromHint coefficients claim challenge
    onKernel (kernel.bindChallenge round challenge)
    let (challenges, claim) ← proveRounds kernel channel invocation degreeBound n (round + 1) claim
    return (challenge :: challenges, claim)

def proveSumcheck (kernel : SumcheckKernel 𝔲 K) (channel : SumcheckChannel 𝔱.Prover κ E) (shape : SumcheckShape)
    (invocation : UInt32) : EStateM AkitaError (𝔱.Prover × κ × K) (List E × E) := do
  let k := (← get).2.2
  ofResult (shape.validateInstance (kernel.numRounds k) (kernel.degreeBound k))
  let claim := kernel.inputClaim k
  let claimSite := channel.sumcheckSite (← get).2.1 invocation 0 .claim
  onState (publicExtensions F claimSite [claim])
  let (challenges, claim) ← proveRounds F kernel channel invocation shape.degreeBound shape.numRounds 0 claim
  onKernel kernel.finish
  return (challenges, claim)

structure SumcheckRoundResult (E : Type) where
  outputClaim : E
  challenges : List E

/-- The rounds of `verify_sumcheck_rounds` from `round` on, `n` of them. -/
def verifyRounds (𝔲 : PolyBackend E) (channel : SumcheckChannel 𝔱.Verifier κ E) (invocation : UInt32)
    (degreeBound : ℕ) : ℕ → ℕ → E → EStateM AkitaError (𝔱.Verifier × κ) (List E × E)
  | 0, _, claim => pure ([], claim)
  | n + 1, round, claim => do
    let roundId ← ofResult (u32TryFrom round .invalidProof)
    let bodySite := channel.sumcheckSite (← get).2 invocation roundId .roundBody
    let coefficients ← onState (extensionSlots degreeBound)
    let coefficients ← onState (exchangeExtensionGroup F bodySite coefficients)
    let challenge ← channel.roundChallenge invocation roundId
    let claim := 𝔲.evalFromHint coefficients claim challenge
    let (challenges, claim) ← verifyRounds 𝔲 channel invocation degreeBound n (round + 1) claim
    return (challenge :: challenges, claim)

def verifySumcheckRounds (𝔲 : PolyBackend E) (channel : SumcheckChannel 𝔱.Verifier κ E) (invocation : UInt32)
    (claim : E) (shape : SumcheckShape) : EStateM AkitaError (𝔱.Verifier × κ) (SumcheckRoundResult E) := do
  let claimSite := channel.sumcheckSite (← get).2 invocation 0 .claim
  onState (publicExtensions F claimSite [claim])
  let (challenges, outputClaim) ← verifyRounds F 𝔲 channel invocation shape.degreeBound shape.numRounds 0 claim
  return { outputClaim, challenges }

end

/-!
## The equality-factored sumcheck driver

`akita-sumcheck/src/single.rs` and the equality-factored half of `proof_stream.rs`: a round
polynomial is sent without its constant coefficient, and the running claim with the current
coordinate of the equality point gives it back.

`OmittedConstantPoly` of `jolt-poly` is a vector of coefficients; what the driver computes
with it is the parameter `OmittedBackend`.
-/

/-- `OmittedConstantPoly` of `jolt-poly`, on the coefficients of `X, X^2, ..`. -/
structure OmittedBackend (E : Type) where
  nonconstantTermSumAtOne : List E → E
  evaluateNonconstantTerms : List E → E → E

structure OmittedBackend.Lawful {E : Type} [Field E] (𝔬 : OmittedBackend E) : Prop where
  nonconstantTermSumAtOne : ∀ cs, 𝔬.nonconstantTermSumAtOne cs = cs.sum
  evaluateNonconstantTerms : ∀ cs x, 𝔬.evaluateNonconstantTerms cs x = x * (ofCoeffs cs).eval x

/-- `EqFactoredSumcheckKernel` with state `K`. -/
structure EqFactoredSumcheckKernel (E K : Type) where
  numRounds : K → ℕ
  degreeBound : K → ℕ
  inputClaim : K → E
  currentTau : K → E
  roundPolynomial : ℕ → E → EStateM AkitaError K (List E)
  bindChallenge : ℕ → E → EStateM AkitaError K Unit
  finish : EStateM AkitaError K Unit

variable {E : Type} [Field E] (F : Type) [CanonicalEncoding F] [ExtField F E] {𝔱 : TranscriptBackend} {K κ : Type}

/-- Advance the normalized claim for one equality-factored round. -/
def advanceEqFactoredClaim (𝔬 : OmittedBackend E) (claim tau : E) (poly : List E) (challenge : E) : E :=
  let constant := claim - tau * 𝔬.nonconstantTermSumAtOne poly
  constant + 𝔬.evaluateNonconstantTerms poly challenge

/-- The coefficients a prover sends for a round, resized to the degree bound. -/
def omittedBody (degreeBound : ℕ) (coefficients : List E) : Result (List E) := do
  let coefficientCount := coefficients.length
  ensure (coefficientCount ≤ degreeBound)
    (.internal "equality-factored sumcheck coefficient count exceeds the degree bound")
  return coefficients ++ List.replicate (degreeBound - coefficientCount) 0

/-- The rounds of `prove_eq_factored_sumcheck` from `round` on, `n` of them. -/
def proveEqFactoredRounds (𝔬 : OmittedBackend E) (kernel : EqFactoredSumcheckKernel E K)
    (channel : SumcheckChannel 𝔱.Prover κ E) (invocation : UInt32) (degreeBound : ℕ) :
    ℕ → ℕ → E → EStateM AkitaError (𝔱.Prover × κ × K) (List E × E)
  | 0, _, claim => pure ([], claim)
  | n + 1, round, claim => do
    let roundId ← ofResult (u32TryFrom round (.internal "equality-factored sumcheck round index does not fit u32"))
    let coefficients ← onKernel (kernel.roundPolynomial round claim)
    let coefficients ← ofResult (omittedBody degreeBound coefficients)
    let bodySite := channel.sumcheckSite (← get).2.1 invocation roundId .roundBody
    let coefficients ← onState (exchangeExtensionGroup F bodySite coefficients)
    let challenge ← onChannel (channel.roundChallenge invocation roundId)
    let tau := kernel.currentTau (← get).2.2
    let claim := advanceEqFactoredClaim 𝔬 claim tau coefficients challenge
    onKernel (kernel.bindChallenge round challenge)
    let (challenges, claim) ← proveEqFactoredRounds 𝔬 kernel channel invocation degreeBound n (round + 1) claim
    return (challenge :: challenges, claim)

def proveEqFactoredSumcheck (𝔬 : OmittedBackend E) (kernel : EqFactoredSumcheckKernel E K)
    (channel : SumcheckChannel 𝔱.Prover κ E) (shape : SumcheckShape) (invocation : UInt32) :
    EStateM AkitaError (𝔱.Prover × κ × K) (List E × E) := do
  let k := (← get).2.2
  ofResult (shape.validateInstance (kernel.numRounds k) (kernel.degreeBound k))
  let claim := kernel.inputClaim k
  let claimSite := channel.sumcheckSite (← get).2.1 invocation 0 .claim
  onState (publicExtensions F claimSite [claim])
  let (challenges, claim) ←
    proveEqFactoredRounds F 𝔬 kernel channel invocation shape.degreeBound shape.numRounds 0 claim
  onKernel kernel.finish
  return (challenges, claim)

/-- The rounds of `verify_eq_factored_sumcheck_rounds` over the coordinates from `round` on. -/
def verifyEqFactoredRounds (𝔬 : OmittedBackend E) (channel : SumcheckChannel 𝔱.Verifier κ E) (invocation : UInt32)
    (degreeBound : ℕ) : List E → ℕ → E → EStateM AkitaError (𝔱.Verifier × κ) (List E × E)
  | [], _, claim => pure ([], claim)
  | tau :: equalityPoint, round, claim => do
    let roundId ← ofResult (u32TryFrom round .invalidProof)
    let bodySite := channel.sumcheckSite (← get).2 invocation roundId .roundBody
    let coefficients ← onState (extensionSlots degreeBound)
    let coefficients ← onState (exchangeExtensionGroup F bodySite coefficients)
    let challenge ← channel.roundChallenge invocation roundId
    let claim := advanceEqFactoredClaim 𝔬 claim tau coefficients challenge
    let (challenges, claim) ← verifyEqFactoredRounds 𝔬 channel invocation degreeBound equalityPoint (round + 1) claim
    return (challenge :: challenges, claim)

def verifyEqFactoredSumcheckRounds (𝔬 : OmittedBackend E) (equalityPoint : List E) (inputClaim : E)
    (shape : SumcheckShape) (channel : SumcheckChannel 𝔱.Verifier κ E) (invocation : UInt32) :
    EStateM AkitaError (𝔱.Verifier × κ) (SumcheckRoundResult E) := do
  ofResult (shape.validateInstance equalityPoint.length shape.degreeBound)
  ofResult (ensure (equalityPoint ≠ []) (.invalidSize 1 0))
  let claimSite := channel.sumcheckSite (← get).2 invocation 0 .claim
  onState (publicExtensions F claimSite [inputClaim])
  let (challenges, outputClaim) ←
    verifyEqFactoredRounds F 𝔬 channel invocation shape.degreeBound equalityPoint 0 inputClaim
  return { outputClaim, challenges }

end Akita.Sumcheck
