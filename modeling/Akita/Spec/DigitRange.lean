import Akita.Spec.PhysicalL2

/-!
# The digit-range plan

`akita-params/src/layout/digit_range.rs`: the padded domain of the digit witness, the product
stages and the leaf of the range proof of a basis, and the batching of their claims.
-/

namespace Akita.DigitRange

/-- Checked flat Boolean domain for the compact digit witness. -/
structure FlatBooleanDomain where
  liveLen : ℕ
  numVars : ℕ
  deriving DecidableEq, Repr

namespace FlatBooleanDomain

def domainLen (d : FlatBooleanDomain) : ℕ := 2 ^ d.numVars

end FlatBooleanDomain

/-- Checked topology for the balanced digit range proof. -/
structure DigitRangePlan where
  logBasis : ℕ
  two_le : 2 ≤ logBasis
  le_six : logBasis ≤ 6
  deriving DecidableEq

/-- Shape of one stage: its rounds, its degree and its child claims. -/
structure Stage1StageShape where
  sumcheckProof : ℕ × ℕ
  childClaims : ℕ
  deriving DecidableEq, Repr

namespace DigitRangePlan

variable (plan : DigitRangePlan)

def basis : ℕ := 2 ^ plan.logBasis

/-- Product-stage arities in transcript order, before the leaf stage. -/
def productStageArities : List ℕ :=
  match plan.logBasis with
  | 4 => [2]
  | 5 => [4]
  | 6 => [2, 4]
  | _ => []

def leafDegree : ℕ := if plan.logBasis = 2 then 2 else 4

/-- The stages of the arities, below `children` claims. -/
def productShapes (rounds : ℕ) : ℕ → List ℕ → List Stage1StageShape
  | _, [] => []
  | children, arity :: arities =>
    { sumcheckProof := (rounds, arity), childClaims := children * arity } ::
      productShapes rounds (children * arity) arities

def stageShapes (rounds : ℕ) : List Stage1StageShape :=
  productShapes rounds 1 plan.productStageArities ++ [{ sumcheckProof := (rounds, plan.leafDegree), childClaims := 0 }]

/-- Number of child lanes emitted by one product substage. -/
def productStageLaneCount (stageIndex : ℕ) : Option ℕ :=
  (((plan.stageShapes 0).take plan.productStageArities.length)[stageIndex]?).map Stage1StageShape.childClaims

variable {E : Type} [Field E]

/-- The values `k (k + 1)` of the digits of basis `b`. -/
def stage1RootValues (E : Type) [Field E] (b : ℕ) : List E := (List.range (b / 2)).map fun k => ((k * (k + 1) : ℕ) : E)

def polyCoeffsFromRoots (roots : List E) : List E := roots.foldl (fun coeffs root =>
    List.zipWith (· + ·) (coeffs.map (fun coeff => -(coeff * root)) ++ [0]) (0 :: coeffs)) [1]

def leafCoeffs (E : Type) [Field E] : List (List E) :=
  ((stage1RootValues E plan.basis).toChunks 4).map polyCoeffsFromRoots

def interstageBatchWeights (gamma : E) : ℕ → List E
  | 0 => []
  | count + 1 => 1 :: (interstageBatchWeights gamma count).map (gamma * ·)

/-- Batch child claims using the current interstage weights. -/
def batchClaims (weights claims : List E) : Result E := do
  ensure (weights.length = claims.length) (.invalidSize weights.length claims.length)
  return (weights.zip claims).foldl (fun acc (weight, claim) => acc + weight * claim) 0

/-- Batch leaf-polynomial coefficient vectors using interstage weights. -/
def batchLeafPolynomials (weights : List E) (leafPolynomials : List (List E)) : Result (List E) := do
  ensure (weights.length = leafPolynomials.length) (.invalidSize weights.length leafPolynomials.length)
  let maxLen := (leafPolynomials.map List.length).foldl max 0
  return (weights.zip leafPolynomials).foldl (fun batched (weight, polynomial) =>
    batched.zipIdx.map fun (coefficient, i) =>
      match polynomial[i]? with
      | some term => coefficient + weight * term
      | none => coefficient) (List.replicate maxLen 0)

end DigitRangePlan

/-!
## The physical response and its norm term

`akita-types/src/proof/relation_range_image.rs` (`PhysicalResponsePlan`), the exact-prefix tables
of `digit_range/exact_prefix.rs` and the prover's side of the norm proof in
`physical_l2_norm.rs`: the integer tables of a compact witness, their exact claims, and the
addend that joins the last range leaf.

A fold of a pair by a challenge is affine interpolation (`Fold::fold_one`); parallel sums are sums.
-/

open PhysicalL2

/-- `PackedSignedDigitsView::decode_range`, for `len` digits from `start` on. -/
def decodeRange (digits : List ℤ) (start len : ℕ) : Result (List ℤ) := do
  let stop ← okOr (checkedAdd usizeBits start len) (.invalidInput "packed signed-digit decode range overflow")
  ensure (stop ≤ digits.length) (.invalidSize digits.length stop)
  return (digits.drop start).take len

structure PhysicalResponseSegment where
  physicalStart : ℕ
  physicalLen : ℕ
  witnessStart : ℕ
  deriving DecidableEq, Repr

/-- Map from the canonical physical folded response to the digit addresses of the witness. -/
structure PhysicalResponsePlan where
  domain : FlatBooleanDomain
  shape : PhysicalL2NormProofShape
  segments : List PhysicalResponseSegment
  ringDimension : ℕ
  foldDigitCount : ℕ
  foldBasis : ℕ
  deriving DecidableEq, Repr

namespace PhysicalResponsePlan

variable (plan : PhysicalResponsePlan)

def virtualTableCount : ℕ :=
  match plan.shape with
  | .direct _ => 1
  | .limbGram _ _ limbCount => limbCount

/-- `table.get_mut(start..start + values.len())`, written with `values`. -/
def writeRow (table : List ℤ) (start : ℕ) (values : List ℤ) : List ℤ :=
  table.take start ++ values ++ table.drop (start + values.length)

/-- One row of a direct response: its digits recomposed onto what the row holds. -/
def recomposeRow (decode : ℕ → ℕ → Result (List ℤ)) (witnessRow : ℕ) (row : List ℤ) : Result (List ℤ × ℤ) :=
  (List.range plan.foldDigitCount).foldlM (fun (state : List ℤ × ℤ) limb => do
    let (row, basisPower) := state
    let digits ← decode (witnessRow + limb * plan.ringDimension) plan.ringDimension
    let row ← (row.zip digits).mapM fun (value, digit) => do
      let term ← okOr (checkedI128 (digit * basisPower)) (.invalidSetup "L2 basis power overflow")
      okOr (checkedI128 (value + term)) (.invalidSetup "L2 response recomposition overflow")
    let basisPower ← okOr (checkedI128 (basisPower * plan.foldBasis)) (.invalidSetup "L2 basis power overflow")
    return (row, basisPower)) (row, 1)

def materializeRow (decode : ℕ → ℕ → Result (List ℤ)) (digitStride : ℕ) (segment : PhysicalResponseSegment)
    (tables : List (List ℤ)) (row : ℕ) : Result (List (List ℤ)) := do
  let witnessOffset ← okOr (checkedMul usizeBits row digitStride) (.invalidSetup "L2 witness row overflow")
  let witnessRow ← okOr (checkedAdd usizeBits segment.witnessStart witnessOffset)
    (.invalidSetup "L2 witness row overflow")
  let physicalOffset ← okOr (checkedMul usizeBits row plan.ringDimension) (.invalidSetup "L2 physical row overflow")
  let physicalRow ← okOr (checkedAdd usizeBits segment.physicalStart physicalOffset)
    (.invalidSetup "L2 physical row overflow")
  match plan.shape with
  | .direct _ => do
    match tables with
    | [] => .error (.internal "direct L2 response has no virtual integer table")
    | table :: rest =>
      ensure (physicalRow + plan.ringDimension ≤ table.length)
        (.internal "direct L2 physical row exceeds its virtual integer table")
      let (output, _) ← plan.recomposeRow decode witnessRow ((table.drop physicalRow).take plan.ringDimension)
      return writeRow table physicalRow output :: rest
  | .limbGram _ _ limbCount =>
    tables.zipIdx.mapM fun (table, limb) => do
      if limb < limbCount then
        let digits ← decode (witnessRow + limb * plan.ringDimension) plan.ringDimension
        ensure (physicalRow + plan.ringDimension ≤ table.length) (.internal "L2 limb row exceeds integer table")
        return writeRow table physicalRow digits
      else return table

/-- Materialize the unpadded centered integer virtual tables. -/
def materializeVirtualIntegers (compactWitnessLen : ℕ) (decode : ℕ → ℕ → Result (List ℤ)) : Result (List (List ℤ)) := do
  ensure (compactWitnessLen = plan.domain.liveLen) (.invalidSize plan.domain.liveLen compactWitnessLen)
  let tables := List.replicate plan.virtualTableCount (List.replicate plan.shape.physicalResponseLen 0)
  let digitStride ← okOr (checkedMul usizeBits plan.foldDigitCount plan.ringDimension)
    (.invalidSetup "L2 response stride overflow")
  plan.segments.foldlM (fun tables segment =>
    (List.range (segment.physicalLen / plan.ringDimension)).foldlM
      (plan.materializeRow decode digitStride segment) tables) tables

end PhysicalResponsePlan

/-- The prover's own claims are no invalid proof. -/
def ownReconstruction {α : Type} : Result α → Result α
  | .error .invalidProof => .error (.internal "response norm reconstruction from the prover's Gram claims failed")
  | other => other

/-- `exact_claims`: the squared norm and the integer subclaims. -/
def exactClaims (plan : PhysicalResponsePlan) (integers : List (List ℤ)) : Result (ℕ × List ℤ) :=
  match plan.shape with
  | .direct _ => do
    let response ← okOr integers.head? (.internal "direct physical norm has no integer response")
    let responseL2Sq ← response.foldlM (fun sum value => do
      let square ← okOr (checkedMul 128 value.natAbs value.natAbs) (.invalidInput "physical response square overflow")
      okOr (checkedAdd 128 sum square) (.invalidInput "physical response norm overflow")) 0
    return (responseL2Sq, [])
  | .limbGram len blockLen limbCount => do
    let layout ← okOr (← (PhysicalL2NormProofShape.limbGram len blockLen limbCount).limbGramLayout)
      (.internal "gram physical norm claim shape has no limb layout")
    let integerClaims ← gramClaims layout integers
    let responseL2Sq ← ownReconstruction (reconstructL2SqFromGram plan.shape plan.foldBasis integerClaims)
    return (responseL2Sq, integerClaims)

/-! ### Exact-prefix tables -/

/-- Explicit prefix of a power-of-two table followed by one implicit default value. -/
structure ExactPrefixTable (T : Type) where
  domainLen : ℕ
  explicit : List T
  default : T
  deriving DecidableEq, Repr

namespace ExactPrefixTable

variable {T : Type}

def new (domainLen : ℕ) (explicit : List T) (default : T) : Result (ExactPrefixTable T) := do
  ensure (domainLen ≠ 0 ∧ 2 ^ Nat.log 2 domainLen = domainLen) (.internal
    ("exact-prefix domain length must be a nonzero power of two; got " ++ toString domainLen))
  ensure (explicit.length ≤ domainLen) (.internal
    ("exact-prefix explicit table length: expected " ++ toString domainLen ++ ", actual " ++ toString explicit.length))
  return { domainLen, explicit, default }

variable (t : ExactPrefixTable T)

def valueOrDefault (index : ℕ) : T := t.explicit.getD index t.default

/-- A table of one element is not folded; the source panics there. -/
def foldInPlace (foldPair : T → T → T) : ExactPrefixTable T :=
  if t.domainLen < 2 then t
  else
    { domainLen := t.domainLen / 2
      explicit := (List.range (divCeil t.explicit.length 2)).map fun pair =>
        foldPair (t.valueOrDefault (2 * pair)) (t.valueOrDefault (2 * pair + 1))
      default := foldPair t.default t.default }

def finalValue : Option T := if t.domainLen = 1 then some (t.valueOrDefault 0) else none

end ExactPrefixTable

/-! ### The norm term -/

inductive PhysicalNormTerm (E : Type)
  | direct (response : ExactPrefixTable E)
  | limbGram (limbs selectors : List (ExactPrefixTable E)) (pairs : List (ℕ × ℕ))

variable {E : Type} [Field E]

namespace PhysicalNormTerm

def affinePair (table : ExactPrefixTable E) (pairIndex : ℕ) : E × E :=
  let left := table.valueOrDefault (2 * pairIndex)
  (left, table.valueOrDefault (2 * pairIndex + 1) - left)

def limbAt (limbs : List (ExactPrefixTable E)) (i : ℕ) : ExactPrefixTable E := limbs.getD i ⟨1, [], 0⟩

/-- The sums of the given four terms over the pairs. -/
def sumPairs (pairCount : ℕ) (terms : ℕ → List E) : List E :=
  (List.range pairCount).foldl (fun sum pairIndex => List.zipWith (· + ·) sum (terms pairIndex)) [0, 0, 0, 0]

def roundCoefficients : PhysicalNormTerm E → List E
  | direct response =>
    sumPairs (divCeil response.explicit.length 2) fun pairIndex =>
      let (value, delta) := affinePair response pairIndex
      [value * value, (value + value) * delta, delta * delta, 0]
  | limbGram limbs selectors pairs =>
    sumPairs (match limbs with | [] => 0 | table :: _ => divCeil table.explicit.length 2) fun pairIndex =>
      (selectors.zip pairs).foldl (fun sum (selectorTable, pair) =>
        let (selector, selectorDelta) := affinePair selectorTable pairIndex
        let (left, leftDelta) := affinePair (limbAt limbs pair.1) pairIndex
        let (right, rightDelta) := affinePair (limbAt limbs pair.2) pairIndex
        let productConstant := left * right
        let productLinear := left * rightDelta + leftDelta * right
        let productQuadratic := leftDelta * rightDelta
        List.zipWith (· + ·) sum
          [selector * productConstant, selector * productLinear + selectorDelta * productConstant,
            selector * productQuadratic + selectorDelta * productLinear, selectorDelta * productQuadratic])
        [0, 0, 0, 0]

def bind (challenge : E) : PhysicalNormTerm E → PhysicalNormTerm E
  | direct response => direct (response.foldInPlace fun left right => left + challenge * (right - left))
  | limbGram limbs selectors pairs =>
    let fold (table : ExactPrefixTable E) := table.foldInPlace fun left right => left + challenge * (right - left)
    limbGram (limbs.map fold) (selectors.map fold) pairs

def virtualEvaluations : PhysicalNormTerm E → Result (List E)
  | direct response => do
    let value ← okOr response.finalValue (.internal "virtual direct response is not fully folded")
    return [value]
  | limbGram limbs _ _ =>
    limbs.mapM fun table => okOr table.finalValue (.internal "virtual Gram response limb is not fully folded")

def finalClaim : PhysicalNormTerm E → Result E
  | direct response => do
    let value ← okOr response.finalValue (.internal "direct physical norm response is not fully folded")
    return value * value
  | limbGram limbs selectors pairs =>
    (selectors.zip pairs).foldlM (fun sum (selector, pair) => do
      let selector ← okOr selector.finalValue (.internal "gram norm selector has no fully folded value")
      let left ← okOr (limbs[pair.1]?.bind ExactPrefixTable.finalValue)
        (.internal "gram norm left limb is absent or not fully folded")
      let right ← okOr (limbs[pair.2]?.bind ExactPrefixTable.finalValue)
        (.internal "gram norm right limb is absent or not fully folded")
      return sum + selector * left * right) 0

end PhysicalNormTerm

def resize (values : List E) (len : ℕ) (value : E) : List E :=
  values.take len ++ List.replicate (len - values.length) value

/-- The selector of a limb pair: the weight of each block over the block's range. -/
def selectorValues (layout : LimbGramLayout) (subclaimWeights : List E) (pair : ℕ × ℕ) : Result (List E) :=
  layout.blockRanges.zipIdx.foldlM (fun values (block, blockIndex) => do
    let weightIndex ← okOr (layout.subclaimIndex blockIndex pair.1 pair.2)
      (.internal "gram physical norm selector has no subclaim index")
    let weight ← okOr subclaimWeights[weightIndex]? (.internal "gram physical norm selector has no subclaim weight")
    return resize values block.2 weight) []

def prepareNormTerm (plan : PhysicalResponsePlan) (integers : List (List ℤ)) (subclaimWeights : List E) :
    Result (PhysicalNormTerm E) := do
  let domainLen := plan.domain.domainLen
  let tables ← integers.mapM fun values => ExactPrefixTable.new domainLen (values.map (Int.cast : ℤ → E)) 0
  match plan.shape with
  | .direct _ =>
    let response ← okOr tables.head? (.internal "direct physical norm has no response table")
    ensure (tables.length = 1 ∧ subclaimWeights.length = 0)
      (.internal "direct physical norm has extra response tables or subclaim weights")
    return .direct response
  | .limbGram len blockLen limbCount =>
    let layout ← okOr (← (PhysicalL2NormProofShape.limbGram len blockLen limbCount).limbGramLayout)
      (.internal "gram physical norm term shape has no limb layout")
    ensure (subclaimWeights.length = layout.subclaimCount) (.internal
      ("gram physical norm subclaim weight count: expected " ++ toString layout.subclaimCount ++
        ", actual " ++ toString subclaimWeights.length))
    let selectors ← layout.limbPairs.mapM fun pair => do
      let values ← selectorValues layout subclaimWeights pair
      ExactPrefixTable.new domainLen values 0
    return .limbGram tables selectors layout.limbPairs

end Akita.DigitRange
