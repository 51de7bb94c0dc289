import Akita.Spec.EqPoly
import Akita.Spec.FieldReduction

/-!
# Opening points

`akita-params/src/layout/opening_point.rs`: the bases in which an opening weighs a table, the
tables of weights at a point, and their live prefixes.
-/

namespace Akita.Opening

open OffsetEq

section

/-- `BasisMode`: evaluations over the cube (`⊗ (1 - xᵢ, xᵢ)`) or coefficients of monomials (`⊗ (1, xᵢ)`). -/
inductive BasisMode
  | lagrange
  | monomial
  deriving DecidableEq, Repr

def defaultMaxSequenceLen : ℕ := 2 ^ 25

variable {F : Type} [Field F] (rt : Runtime)

def basisWeightLen (numVars : ℕ) : Result ℕ := do
  ensure (numVars < 2 ^ 32) (.invalidSize usizeBits numVars)
  let len ← okOr (Checked.pow2 numVars) (.invalidInput "basis weight dimension overflow")
  ensure (len ≤ defaultMaxSequenceLen) (.invalidSize defaultMaxSequenceLen len)
  return len

def lagrangeWeights (point : List F) : Result (List F) := do
  let _ ← basisWeightLen point.length
  EqPolynomial.evals rt point

/-- The filled half is copied up, scaled by the coordinate, from its last entry down. -/
def monomialLayer (weights : List F) (coordinate : F × ℕ) : List F :=
  let k := 2 ^ coordinate.2
  (List.range k).reverse.foldl (fun weights i => weights.set (i + k) (weights.getD i 0 * coordinate.1)) weights

def monomialWeights (point : List F) : Result (List F) := do
  let len ← basisWeightLen point.length
  return point.zipIdx.foldl monomialLayer ((List.replicate len (0 : F)).set 0 1)

def basisWeights (point : List F) : BasisMode → Result (List F)
  | .lagrange => lagrangeWeights rt point
  | .monomial => monomialWeights point

def evalsPrefix (r : List F) (len : ℕ) : Result (List F) := do
  let split ← SplitEqEvals.new rt r
  ensure (len ≤ split.len) (.invalidSize split.len len)
  (List.range len).mapM split.evalAt

/-- The product of the coordinates selected by the bits of an index. -/
def monomialAt (point : List F) (index : ℕ) : F :=
  (point.zipIdx.filter fun (_, bit) => index &&& 2 ^ bit ≠ 0).foldl (fun acc (coordinate, _) => acc * coordinate) 1

/-- The first `liveLen` weights, without the padded suffix. -/
def basisWeightsPrefix (point : List F) (basis : BasisMode) (liveLen : ℕ) : Result (List F) := do
  let capacity ← basisWeightLen point.length
  ensure (¬ (liveLen = 0 ∨ liveLen > capacity)) (.invalidSize capacity liveLen)
  match basis with
  | .lagrange => evalsPrefix rt point liveLen
  | .monomial => return (List.range liveLen).map (monomialAt point)

end

/-!
## Prepared opening points

`akita-types/src/proof/batch.rs` with its multipliers, over `akita-params/src/layout/opening_point.rs`:
an opening point padded to its target arity, its outer weights as multipliers of ring elements and its
inner weights packed into one ring element. A slice out of bounds is an internal error, as any other
panic here.
-/

open FieldReduction
open OffsetEq (Runtime)

/-! ### Ring-native points -/

def positionIndexBitsFor (positionsPerBlock : ℕ) : ℕ := trailingZeros positionsPerBlock

def checkedBlockIndexBitsFor (liveBlocks : ℕ) : Option ℕ := (checkedNextPowerOfTwo liveBlocks).map trailingZeros

structure RingOpeningPoint (F : Type) where
  positionWeights : List F
  liveBlockWeights : List F

/-- The index bits of a position and of a block of a geometry, and their sum. -/
def outerIndexBits (numPositionsPerBlock numLiveBlocks : ℕ) : Result (ℕ × ℕ) := do
  ensure (numPositionsPerBlock.isPowerOfTwo ∧ numLiveBlocks ≠ 0)
    (.invalidSetup "opening geometry requires power-of-two M and positive B")
  let blockIndexBits ← okOr (checkedBlockIndexBitsFor numLiveBlocks) (.invalidSetup "block-index domain size overflow")
  let outerBits ← okOr (checkedAdd usizeBits (positionIndexBitsFor numPositionsPerBlock) blockIndexBits)
    (.invalidSetup "opening point length overflow")
  return (positionIndexBitsFor numPositionsPerBlock, outerBits)

section

variable {F : Type} [Field F] (rt : Runtime)

/-- The outer coordinates as position and block weights; the block weights keep the live prefix. -/
def outerWeights (openingPoint : List F) (numPositionsPerBlock numLiveBlocks : ℕ) (basis : BasisMode) :
    Result (List F × List F) := do
  let (positionIndexBits, expectedLen) ← outerIndexBits numPositionsPerBlock numLiveBlocks
  ensure (openingPoint.length = expectedLen) (.invalidPointDimension expectedLen openingPoint.length)
  let positionWeights ← basisWeights rt (openingPoint.take positionIndexBits) basis
  let liveBlockWeights ← basisWeightsPrefix rt (openingPoint.drop positionIndexBits) basis numLiveBlocks
  return (positionWeights, liveBlockWeights)

def ringOpeningPointFromField (openingPoint : List F) (numPositionsPerBlock numLiveBlocks : ℕ) (basis : BasisMode) :
    Result (RingOpeningPoint F) := do
  let (positionWeights, liveBlockWeights) ← outerWeights rt openingPoint numPositionsPerBlock numLiveBlocks basis
  return { positionWeights, liveBlockWeights }

def fromSlice (D : ℕ) (slice : List F) : CyclotomicRing F D := fun i => slice.getD i 0

def reduceInnerOpeningToRingElement (D : ℕ) (innerPoint : List F) (basis : BasisMode) : Result (CyclotomicRing F D) := do
  let weights ← basisWeights rt innerPoint basis
  ensure (weights.length = D) (.invalidInput
    ("inner basis length " ++ toString weights.length ++ " does not match D=" ++ toString D))
  return fromSlice D weights

end

/-! ### Multipliers -/

/-- `SubfieldMultiplierOpeningPoint`: compact coordinates of the outer weights. -/
structure SubfieldMultiplierOpeningPoint (F : Type) where
  positionCoordinates : List F
  liveBlockCoordinates : List F
  extensionDegree : ℕ
  ringDim : ℕ

inductive RingMultiplierOpeningPoint (F : Type)
  | base (point : RingOpeningPoint F)
  | subfield (point : SubfieldMultiplierOpeningPoint F)

def coordinateChunk {F : Type} (coordinates : List F) (degree idx : ℕ) : Result (List F) := do
  let start ← okOr (checkedMul usizeBits idx degree) (.invalidInput "subfield coordinate start overflow")
  let stop ← okOr (checkedAdd usizeBits start degree) (.invalidInput "subfield coordinate end overflow")
  ensure (stop ≤ coordinates.length) (.invalidInput "subfield multiplier coordinate index out of range")
  return (coordinates.drop start).take degree

section

variable {F E : Type} [Field F] [DecidableEq F] {D : ℕ}

/-- `shift_scale_accumulate_into`: the coefficients that the shift carries past the end come back negated. -/
def shiftScaleAccumulateInto (source dst : CyclotomicRing F D) (k : ℕ) (scale : F) : CyclotomicRing F D := fun t =>
  if h : k ≤ t then dst t + source ⟨t - k, by omega⟩ * scale
  else dst t - source ⟨D - k + t, by omega⟩ * scale

def addSubfieldProduct (coordinates : List F) (extensionDegree : ℕ) (rhs output : CyclotomicRing F D) :
    Result (CyclotomicRing F D) :=
  let stride := D / (2 * extensionDegree)
  coordinates.zipIdx.foldlM (fun output (coordinate, index) =>
    if coordinate = 0 then return output
    else do
      let shift ← okOr (checkedMul usizeBits index stride) (.internal "validated subfield product shift overflow")
      ensure (shift < D) (.internal "validated subfield product shift exceeds ring dimension")
      let output := shiftScaleAccumulateInto rhs output shift coordinate
      return if shift ≠ 0 then shiftScaleAccumulateInto rhs output (D - shift) (-coordinate) else output) output

namespace SubfieldMultiplierOpeningPoint

variable [CommRing E] (𝔼 : ExtBackend F E) (base : Runtime)

def collectSubfieldCoordinates (values : List E) (error : AkitaError) : Result (List F) := do
  let coordinateLen ← okOr (checkedMul usizeBits values.length 𝔼.degree) error
  ensure (base.reserves coordinateLen) error
  values.foldlM (fun coordinates value => do
    ensure ((𝔼.extCoords value).length = 𝔼.degree) error
    return coordinates ++ 𝔼.extCoords value) []

def new (D : ℕ) (positionWeights liveBlockWeights : List E) (error : AkitaError) :
    Result (SubfieldMultiplierOpeningPoint F) := do
  -- `validate_subfield_shape`
  dispatchDegree D 𝔼.degree error error fun {_} _ => (.ok () : Result Unit)
  let positionCoordinates ← collectSubfieldCoordinates 𝔼 base positionWeights error
  let liveBlockCoordinates ← collectSubfieldCoordinates 𝔼 base liveBlockWeights error
  return { positionCoordinates, liveBlockCoordinates, extensionDegree := 𝔼.degree, ringDim := D }

variable (point : SubfieldMultiplierOpeningPoint F)

def ensureRingDim (D : ℕ) : Result Unit := ensure (point.ringDim = D) (.invalidInput
    ("ring multiplier ring_d=" ++ toString point.ringDim ++ " does not match requested D=" ++ toString D))

def accumulatePositionProduct (idx : ℕ) (rhs output : CyclotomicRing F D) : Result (CyclotomicRing F D) := do
  point.ensureRingDim D
  let coordinates ← coordinateChunk point.positionCoordinates point.extensionDegree idx
  addSubfieldProduct coordinates point.extensionDegree rhs output

def accumulateFoldProduct (idx : ℕ) (rhs output : CyclotomicRing F D) : Result (CyclotomicRing F D) := do
  point.ensureRingDim D
  let coordinates ← coordinateChunk point.liveBlockCoordinates point.extensionDegree idx
  addSubfieldProduct coordinates point.extensionDegree rhs output

end SubfieldMultiplierOpeningPoint

def RingMultiplierOpeningPoint.accumulatePositionProduct (multiplier : RingMultiplierOpeningPoint F) (idx : ℕ)
    (rhs output : CyclotomicRing F D) : Result (CyclotomicRing F D) :=
  match multiplier with
  | .base point => do
    let scalar ← okOr point.positionWeights[idx]? (.invalidInput "base multiplier product index out of range")
    return output + rhs.scale scalar
  | .subfield point => point.accumulatePositionProduct idx rhs output

/-- The product of a fold weight: a base scalar, or the compact coordinates of a subfield element. -/
def RingMultiplierOpeningPoint.accumulateFoldProduct (multiplier : RingMultiplierOpeningPoint F) (idx : ℕ)
    (rhs output : CyclotomicRing F D) : Result (CyclotomicRing F D) :=
  match multiplier with
  | .base point => do
    let scalar ← okOr point.liveBlockWeights[idx]? (.invalidInput "base multiplier product index out of range")
    return output + rhs.scale scalar
  | .subfield point => point.accumulateFoldProduct idx rhs output

/-- The evaluation of a table of rings (`fused_evaluate_and_fold_subfield` over the folded blocks): every block is
folded by its position products, and the folded blocks by their block products. -/
def foldedEvaluation (multiplier : RingMultiplierOpeningPoint F) (numLiveBlocks numPositionsPerBlock : ℕ)
    (rings : ℕ → ℕ → CyclotomicRing F D) : Result (CyclotomicRing F D) :=
  (List.range numLiveBlocks).foldlM (fun eval block => do
    let folded ← (List.range numPositionsPerBlock).foldlM (fun folded position =>
      multiplier.accumulatePositionProduct position (rings block position) folded) (0 : CyclotomicRing F D)
    multiplier.accumulateFoldProduct block folded eval) 0

end

/-! ### Preparation -/

/-- `PreparedOpeningPoint`, at its ring dimension. -/
structure PreparedOpeningPoint (F E : Type) (D : ℕ) where
  paddedPoint : List E
  ringMultiplierPoint : RingMultiplierOpeningPoint F
  packedInnerPoint : CyclotomicRing F D

section

variable {F E : Type} [Field F] [DecidableEq F] [Field E] [DecidableEq E] (𝔼 : ExtBackend F E) (rt base : Runtime)

def ringMultiplierOpeningPointFromExt (D : ℕ) (openingPoint : List E) (numPositionsPerBlock numLiveBlocks : ℕ)
    (basis : BasisMode) : Result (RingMultiplierOpeningPoint F) := do
  let (positionWeights, liveBlockWeights) ← outerWeights rt openingPoint numPositionsPerBlock numLiveBlocks basis
  let point ← SubfieldMultiplierOpeningPoint.new 𝔼 base D positionWeights liveBlockWeights
    (.invalidInput "opening point does not encode in the ring-subfield basis")
  return .subfield point

/-- `prepare_opening_point`. The base scalar of a coordinate is that of `degree_one_base`. -/
def prepareOpeningPoint (degreeOneBase : E → Option F) (D : ℕ) (openingPoint : List E) (basis : BasisMode)
    (numPositionsPerBlock numLiveBlocks alphaBits : ℕ) : Result (PreparedOpeningPoint F E D) := do
  let (_, outerBits) ← outerIndexBits numPositionsPerBlock numLiveBlocks
  let targetNumVars ← okOr (checkedAdd usizeBits outerBits alphaBits) (.invalidSetup "opening point length overflow")
  ensure (openingPoint.length ≤ targetNumVars) (.invalidPointDimension targetNumVars openingPoint.length)
  let paddedPoint := openingPoint ++ List.replicate (targetNumVars - openingPoint.length) 0
  if 𝔼.degree = 1 then do
    let basePoint ← paddedPoint.mapM fun coord =>
      okOr (degreeOneBase coord) (.invalidInput "challenge field element had no base coordinate")
    let ringOpeningPoint ← ringOpeningPointFromField base (basePoint.drop alphaBits) numPositionsPerBlock numLiveBlocks basis
    let packedInnerPoint ← reduceInnerOpeningToRingElement base D (basePoint.take alphaBits) basis
    return { paddedPoint, ringMultiplierPoint := .base ringOpeningPoint, packedInnerPoint }
  else do
    ensure (𝔼.degree ∣ D ∧ (D / 𝔼.degree).isPowerOfTwo)
      (.invalidInput "challenge-field degree must divide the ring dimension into power-of-two slots")
    let traceInnerPointLen := trailingZeros (D / 𝔼.degree)
    ensure (traceInnerPointLen ≤ alphaBits) outOfBounds
    ensure (((paddedPoint.drop traceInnerPointLen).take (alphaBits - traceInnerPointLen)).all (· = 0))
      (.invalidInput "inactive extension inner coordinates must be zero after psi packing")
    let traceInnerWeights ← basisWeights rt (paddedPoint.take traceInnerPointLen) basis
    let packedInnerPoint ← embedRingSubfieldVector 𝔼 D traceInnerWeights
      (.invalidInput "recursive opening point does not encode in the ring-subfield basis")
    let ringMultiplierPoint ← ringMultiplierOpeningPointFromExt 𝔼 rt base D (paddedPoint.drop alphaBits)
      numPositionsPerBlock numLiveBlocks basis
    return { paddedPoint, ringMultiplierPoint, packedInnerPoint }

/-- `ring_subfield_packed_extension_opening_point`: zero coordinates for the extension basis slots go between the
inner and the outer variables. -/
def ringSubfieldPackedExtensionOpeningPoint (D extensionNumVars : ℕ) (point : List E) : Result (List E) :=
  let k := 𝔼.degree
  if k = 1 then .ok point
  else do
    ensure (k.isPowerOfTwo ∧ k ∣ D) (.invalidInput "extension degree must be a power of two dividing D")
    ensure (point.length = extensionNumVars) (.invalidPointDimension extensionNumVars point.length)
    let alphaBits := trailingZeros D
    let kappaBits := trailingZeros k
    let packedInnerBits ← okOr (checkedSub alphaBits kappaBits)
      (.invalidInput "extension degree exceeds ring dimension")
    ensure (packedInnerBits ≤ extensionNumVars) (.invalidPointDimension packedInnerBits extensionNumVars)
    return point.take packedInnerBits ++ List.replicate (alphaBits - packedInnerBits) 0 ++ point.drop packedInnerBits

end

end Akita.Opening
