import Akita.Lib.Scatter
import Akita.Spec.SparseStream

/-!
# Challenges of a folding round

`akita-challenges/src/challenges.rs` and `akita-challenges/src/challenge.rs`: the sparse challenges of all claims,
with a stride that is deferred to the reader and a cache of what it gives, the embedding of subring positions, the
selection of claims and the evaluation at the powers of a point.

The cell of the cache is the value that is in it. An allocation does not fail, and a chunk of a parallel loop is
evaluated in the order of the chunks. The arithmetic of the field that is not a ring operation is a parameter.
-/

namespace Akita.Challenge

open SparseStream (SparseChallenge SparseChallengeConfig)

/-! ## One challenge -/

section

variable (challenge : SparseChallenge)

/-- One term of `validate_dyn`: the bitmap with its position. -/
def validateTerm (ringD : ℕ) (seen : List ℕ) (term : ℕ × ℤ) : Result (List ℕ) := do
  let (idx, coeff) := term
  ensure (¬ idx ≥ ringD)
    (.invalidInput ("sparse challenge position " ++ toString idx ++ " out of range for D=" ++ toString ringD))
  ensure (coeff ≠ 0) (.invalidInput "sparse challenge coefficients must be non-zero")
  let word ← okOr seen[idx / 64]? (.internal "validated sparse challenge position exceeds its bitmap")
  ensure (¬ word.testBit (idx % 64)) (.invalidInput "sparse challenge positions must be unique")
  return seen.set (idx / 64) (word ||| 1 <<< (idx % 64))

def validateDyn (ringD : ℕ) : Result Unit := do
  ensure (challenge.positions.length = challenge.coeffs.length)
    (.invalidInput "sparse challenge positions/coeffs length mismatch")
  let wordCount := (ringD + 63) / 64
  let _ ← (challenge.positions.zip challenge.coeffs).foldlM (validateTerm ringD) (List.replicate wordCount 0)

/-- What `Field` and `ExtField` give beside the ring operations: a sum of signed values, true for a minus sign, and the
product with a base value. -/
structure SignedSums (F E : Type) where
  signedSum : List (E × Bool) → E
  mulBase : E → F → E

section

variable {F E : Type} [Ring F] [Ring E] (𝔰 : SignedSums F E)

def accumulateSmallSigned (acc value : E) (coeff : ℤ) : E :=
  if coeff = 1 then acc + value
  else if coeff = -1 then acc - value
  else if coeff = 2 then acc + value + value
  else if coeff = -2 then acc - value - value
  else acc + 𝔰.mulBase value (coeff : F)

/-- `alpha_pows[position]`. -/
def power (alphaPows : List E) (position : ℕ) : Result E := okOr alphaPows[position]? (.internal "index out of bounds")

/-- One term of the checks of `eval_at_pows`. -/
def checkTerm (ringD : ℕ) (signedTerms : Bool) (term : ℕ × ℤ) : Result Bool := do
  let (idx, coeff) := term
  ensure (¬ idx ≥ ringD)
    (.invalidInput ("sparse challenge position " ++ toString idx ++ " out of range for D=" ++ toString ringD))
  ensure (coeff ≠ 0) (.invalidInput "sparse challenge coefficients must be non-zero")
  return signedTerms && decide (coeff ∈ [-2, -1, 1, 2])

def sparseEvalAtPows (alphaPows : List E) : Result E := do
  let ringD := alphaPows.length
  ensure (challenge.positions.length = challenge.coeffs.length)
    (.invalidInput "sparse challenge positions/coeffs length mismatch")
  let terms := challenge.positions.zip challenge.coeffs
  let signedTerms ← terms.foldlM (checkTerm ringD) true
  if signedTerms then do
    let signed ← terms.mapM fun term => do
      return List.replicate term.2.natAbs ((← power alphaPows term.1), decide (term.2 < 0))
    return 𝔰.signedSum signed.flatten
  else terms.foldlM (fun acc term => do return accumulateSmallSigned 𝔰 acc (← power alphaPows term.1) term.2) 0

end

end

/-! ## Challenges of all claims -/

structure Challenges where
  challenges : List SparseChallenge
  numLiveBlocksPerClaim : ℕ
  numClaims : ℕ
  sampledFamily : Option (ℕ × SparseChallengeConfig)
  embeddingStride : ℕ
  materialized : Option (List SparseChallenge)

namespace Challenges

def fromSparse (challenges : List SparseChallenge) (numLiveBlocksPerClaim numClaims : ℕ) : Result Challenges := do
  let expected ← okOr (checkedMul usizeBits numLiveBlocksPerClaim numClaims) (.invalidSetup "challenge count overflow")
  ensure (challenges.length = expected) (.invalidSize expected challenges.length)
  return ⟨challenges, numLiveBlocksPerClaim, numClaims, none, 1, none⟩

def fromSampled (challenges : List SparseChallenge) (blocks claims ringD : ℕ) (config : SparseChallengeConfig) :
    Result Challenges := do
  let result ← fromSparse challenges blocks claims
  return { result with sampledFamily := some (ringD, config) }

variable (self : Challenges)

/-- The closure of `get_or_init`: the product wraps at `usize`, the cast at `u32`. -/
def materialize : List SparseChallenge := self.challenges.map fun challenge =>
    ⟨challenge.positions.map fun p => wrapping 32 (wrapping usizeBits (p * self.embeddingStride)), challenge.coeffs⟩

def asSlice : List SparseChallenge :=
  if self.embeddingStride = 1 then self.challenges else self.materialized.getD self.materialize

/-- The value after a call of `as_slice`, which fills the cache. -/
def read : Challenges :=
  if self.embeddingStride = 1 then self else { self with materialized := some (self.materialized.getD self.materialize) }

/-- `PartialEq`, but for the pointer comparison, which only holds of equal challenges. -/
def Same (other : Challenges) : Prop :=
  self.numLiveBlocksPerClaim = other.numLiveBlocksPerClaim ∧ self.numClaims = other.numClaims ∧ self.asSlice = other.asSlice

section

variable {F E : Type} [Ring F] [Ring E] (𝔰 : SignedSums F E)

/-- The sampled arm of `evaluate` in `evals_at_pows`. -/
def evaluateSampled (alphaPows doubles : List E) (challenge : SparseChallenge) : Result E := do
  let terms ← (challenge.positions.zip challenge.coeffs).mapM fun term => do
    let powers := if term.2 = 2 ∨ term.2 = -2 then doubles else alphaPows
    return (← power powers (wrapping usizeBits (term.1 * self.embeddingStride)), decide (term.2 < 0))
  return 𝔰.signedSum terms

def minParallelChallenges : ℕ := 2 ^ 9

def parallelCoarseLeafTerms : ℕ := 2 ^ 15

def parallelFineLeafTerms : ℕ := 2 ^ 13

def parallelFineTotalTerms : ℕ := 2 ^ 17

def sparseTerms (source : List SparseChallenge) : Result ℕ :=
  source.foldlM (fun sum challenge => okOr (checkedAdd usizeBits sum challenge.positions.length)
    (.invalidInput "sparse challenge term count overflow")) 0

/-- The last part of `evals_at_pows`, on many threads with the feature `parallel`. -/
def evaluateAll (parallel : Bool) (source : List SparseChallenge) (evaluate : SparseChallenge → Result E) : Result (List E) :=
  if parallel ∧ self.challenges.length ≥ minParallelChallenges then do
    let sparseTerms ← sparseTerms source
    if sparseTerms ≤ parallelCoarseLeafTerms then source.mapM evaluate
    else do
      let leafTerms := if sparseTerms > parallelFineTotalTerms then parallelFineLeafTerms else parallelCoarseLeafTerms
      let averageTerms := (sparseTerms + self.challenges.length - 1) / self.challenges.length
      let leafChallenges := max (leafTerms / averageTerms) 1
      let chunks ← (Lib.chunks leafChallenges source).mapM fun chunk => chunk.mapM evaluate
      return chunks.flatten
  else source.mapM evaluate

def evalsAtPows (parallel : Bool) (alphaPows : List E) : Result (List E) :=
  match self.sampledFamily.filter fun family => decide (family.1 = alphaPows.length) with
  | some (_, config) =>
    let doubles := if config.countPm2 ≠ 0 then alphaPows.map fun v => v + v else []
    self.evaluateAll parallel self.challenges (self.evaluateSampled 𝔰 alphaPows doubles)
  | none => self.evaluateAll parallel self.asSlice fun challenge => sparseEvalAtPows challenge 𝔰 alphaPows

end

/-- The blocks of one claim in `select_claims`. -/
def selectClaim (claimIndex : ℕ) : Result (List SparseChallenge) := do
  let start ← okOr (checkedMul usizeBits claimIndex self.numLiveBlocksPerClaim) (.invalidSetup "challenge offset overflow")
  let stop ← okOr (checkedAdd usizeBits start self.numLiveBlocksPerClaim) (.invalidSetup "challenge offset overflow")
  ensure (stop ≤ self.asSlice.length) (.invalidSize stop self.challenges.length)
  return (self.asSlice.drop start).take (stop - start)

def selectClaims (claimIndices : List ℕ) : Result Challenges := do
  let _ ← okOr (checkedMul usizeBits claimIndices.length self.numLiveBlocksPerClaim) (.invalidSetup "challenge count overflow")
  let selected ← claimIndices.mapM self.selectClaim
  fromSparse selected.flatten self.numLiveBlocksPerClaim claimIndices.length

def embedPosition (stride ambient position : ℕ) : Result ℕ :=
  okOr ((checkedMul usizeBits position stride).filter fun position => decide (position < ambient ∧ position < 2 ^ 32))
    (.invalidInput "subring challenge embedded position overflow")

/-- `embed` of `embed_subring_positions`. -/
def embed (sampled : Bool) (dimension stride ambient : ℕ) (challenge : SparseChallenge) : Result SparseChallenge := do
  if ¬ sampled then validateDyn challenge dimension
  let positions ← challenge.positions.mapM (embedPosition stride ambient)
  return ⟨positions, challenge.coeffs⟩

/-- The parallel candidate of `embed_subring_positions`: its work is bounded first. -/
def embedWork (parallel : Bool) (source : List SparseChallenge) : Result Unit :=
  if parallel then do
    let _ ← okOr (checkedMul usizeBits source.length ((source.head?.map fun challenge => challenge.positions.length).getD 0))
      (.invalidInput "subring challenge embedding work overflow")
  else .ok ()

/-- The eager arm of `embed_subring_positions`. -/
def embedEager (parallel sampled : Bool) (dimension stride ambient : ℕ) : Result Challenges := do
  embedWork parallel self.asSlice
  let embedded ← self.asSlice.mapM (embed sampled dimension stride ambient)
  let result ← fromSparse embedded self.numLiveBlocksPerClaim self.numClaims
  return if sampled then { result with sampledFamily := self.sampledFamily.map fun family => (ambient, family.2) } else result

def embedSubringPositions (parallel : Bool) (challengeSubringDimension embeddingStride ambientRingDimension : ℕ) :
    Result Challenges := do
  ensure (¬ (challengeSubringDimension = 0 ∨ embeddingStride = 0 ∨
      checkedMul usizeBits challengeSubringDimension embeddingStride ≠ some ambientRingDimension))
    (.invalidInput "subring challenge embedding dimensions are inconsistent")
  let sampled := self.sampledFamily.any fun family => decide (family.1 = challengeSubringDimension)
  if embeddingStride = 1 then do
    if ¬ sampled then self.asSlice.forM fun challenge => validateDyn challenge challengeSubringDimension
    return self
  else if sampled ∧ ambientRingDimension - 1 < 2 ^ 32 ∧ 1 ≤ ambientRingDimension then do
    let stride ← okOr (checkedMul usizeBits self.embeddingStride embeddingStride) (.invalidInput "subring embedding stride overflow")
    return { self with
      sampledFamily := self.sampledFamily.map fun family => (ambientRingDimension, family.2)
      embeddingStride := stride
      materialized := none }
  else self.embedEager parallel sampled challengeSubringDimension embeddingStride ambientRingDimension

end Challenges

end Akita.Challenge
