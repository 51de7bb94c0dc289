import Akita.Spec.OpeningPoint
import Akita.Spec.PhysicalL2
import Akita.Spec.SparseStream

/-!
# Subring coefficient packing

`akita-params/src/layout/subring_packing_geometry.rs`, `akita-types/src/subring_coefficient_packing.rs`
and `akita-cpu-backend/src/arithmetic/coefficient_packing.rs`, `coefficient_packing_fold.rs`: the
checked geometry, the split of a public point over the packing, tail, position and block axes, the
kernel of partial openings, the scalar opening, and the fold by sparse challenges.
-/

namespace Akita.CoefficientPacking

open Opening
open OffsetEq (Runtime)
open PhysicalL2 (divCeil)
open SparseStream (SparseChallenge SparseChallengeConfig)
open Transcript (ExtField)

/-! ## Geometry -/

/-- `PRODUCTION_FOLD_CHALLENGE_LADDER`: ring degree, counts of ±1 and ±2, support bits. -/
def productionFoldChallengeLadder : List (ℕ × ℕ × ℕ × ℕ) :=
  [(64, 31, 10, 128), (128, 31, 0, 129), (256, 23, 0, 131), (512, 19, 0, 132), (1024, 16, 0, 131), (2048, 14, 0, 131)]

def minFoldChallengeEntropyBits : ℕ := 128

def productionForRingDim (ringD : ℕ) : Option SparseChallengeConfig :=
  (productionFoldChallengeLadder.find? fun entry => entry.1 = ringD).map fun (_, pm1, pm2, _) => ⟨pm1, pm2⟩

/-- `SparseChallengeConfig::validate_for_ring_dim`. A family of the ladder has its audited support; the
others are audited by `measured`, in floating point. -/
def validateForRingDim (measured : SparseChallengeConfig → ℕ → ℕ → Except String Unit) (config : SparseChallengeConfig)
    (ringD : ℕ) : Except String Unit :=
  if ¬ (checkedAdd usizeBits config.countPm1 config.countPm2).any (· ≤ ringD) then
    .error "count_pm1 + count_pm2 must be <= ring degree D"
  else
    match productionFoldChallengeLadder.find? fun (d, pm1, pm2, _) =>
        d = ringD ∧ pm1 = config.countPm1 ∧ pm2 = config.countPm2 with
    | some (_, _, _, supportFloorBits) =>
      if minFoldChallengeEntropyBits ≤ supportFloorBits then .ok ()
      else .error "sparse challenge family has insufficient min-entropy for security floor"
    | none => measured config ringD minFoldChallengeEntropyBits

/-- `SubringCoefficientPackingGeometry`. -/
structure Geometry where
  extensionDegree : ℕ
  aRingDimension : ℕ
  challengeSubringDimension : ℕ
  packingFactor : ℕ
  subringEmbeddingStride : ℕ
  partialBaseFieldWidth : ℕ
  foldChallengeConfig : SparseChallengeConfig
  deriving DecidableEq

namespace Geometry

def tryNew (measured : SparseChallengeConfig → ℕ → ℕ → Except String Unit)
    (extensionDegree aRingDimension challengeSubringDimension : ℕ) : Result Geometry := do
  ensure (extensionDegree.isPowerOfTwo ∧ aRingDimension.isPowerOfTwo ∧ challengeSubringDimension.isPowerOfTwo)
    (.invalidSetup "subring packing dimensions must be nonzero powers of two")
  let foldChallengeConfig ← okOr (productionForRingDim challengeSubringDimension) (.invalidSetup
    ("challenge subring dimension " ++ toString challengeSubringDimension ++ " has no production challenge family"))
  mapErr (validateForRingDim measured foldChallengeConfig challengeSubringDimension) fun reason =>
    .invalidSetup ("subring challenge family fails its entropy audit: " ++ reason)
  let partialBaseFieldWidth ← okOr (checkedMul usizeBits extensionDegree challengeSubringDimension)
    (.invalidSetup "partial opening width overflow")
  ensure (partialBaseFieldWidth ∣ aRingDimension) (.invalidSetup
    ("partial opening width " ++ toString partialBaseFieldWidth ++ " does not divide A ring dimension " ++
      toString aRingDimension))
  let packingFactor := aRingDimension / partialBaseFieldWidth
  let subringEmbeddingStride ← okOr (checkedMul usizeBits extensionDegree packingFactor)
    (.invalidSetup "subring embedding stride overflow")
  return { extensionDegree, aRingDimension, challengeSubringDimension, packingFactor, subringEmbeddingStride,
           partialBaseFieldWidth, foldChallengeConfig }

def partialBaseFieldCoordinateIndex (g : Geometry) (extensionCoordinate subringCoefficientIndex : ℕ) : Result ℕ := do
  ensure (¬ (extensionCoordinate ≥ g.extensionDegree ∨ subringCoefficientIndex ≥ g.challengeSubringDimension))
    (.invalidSetup "partial opening coordinates are outside subring packing geometry")
  okOr ((Checked.mulAdd extensionCoordinate g.challengeSubringDimension subringCoefficientIndex).filter
      fun index => index < g.partialBaseFieldWidth) (.invalidSetup "partial opening index overflow")

end Geometry

/-! ## Prepared points -/

/-- `PreparedSubringCoefficientPackingPoint`: each axis keeps the coordinates of its power-of-two domain. -/
structure PreparedPoint (E : Type) where
  geometry : Geometry
  basis : BasisMode
  sourceNumVars : ℕ
  numLivePositions : ℕ
  numPositionsPerBlock : ℕ
  numLiveBlocks : ℕ
  packingPoint : List E
  tailPoint : List E
  positionPoint : List E
  blockPoint : List E

/-- `take_axis`: the next coordinates of the padded point, and the offset after them. -/
def takeAxis {E : Type} (paddedPoint : List E) (offset bits : ℕ) : Result (List E × ℕ) := do
  let stop ← okOr (checkedAdd usizeBits offset bits)
    (.internal "validated coefficient-packing axis end overflows usize")
  ensure (stop ≤ paddedPoint.length) (.internal "validated coefficient-packing axis exceeds the padded point")
  return ((paddedPoint.drop offset).take bits, stop)

namespace PreparedPoint

variable {E : Type} [Field E]

def new (geometry : Geometry) (basis : BasisMode) (numLivePositions numPositionsPerBlock sourceNumVars : ℕ)
    (point : List E) : Result (PreparedPoint E) := do
  ensure (¬ (numLivePositions = 0 ∨ ¬ numPositionsPerBlock.isPowerOfTwo)) (.invalidSetup
    "coefficient-packing opening requires live positions and a power-of-two position domain")
  let numLiveBlocks := divCeil numLivePositions numPositionsPerBlock
  let blockDomain ← okOr (checkedNextPowerOfTwo numLiveBlocks)
    (.invalidSetup "coefficient-packing block domain overflow")
  let packBits := trailingZeros geometry.subringEmbeddingStride
  let tailBits := trailingZeros geometry.challengeSubringDimension
  let positionBits := trailingZeros numPositionsPerBlock
  let blockBits := trailingZeros blockDomain
  let expected ← okOr (Checked.sum [packBits, tailBits, positionBits, blockBits])
    (.invalidSetup "coefficient-packing point length overflow")
  ensure (point.length = sourceNumVars) (.invalidPointDimension sourceNumVars point.length)
  ensure (sourceNumVars ≤ expected) (.invalidSetup "coefficient-packing source exceeds prepared opening domain")
  let sourceDomain ← okOr (Checked.pow2 sourceNumVars) (.invalidSetup "coefficient-packing source domain overflow")
  let paddedRingPositions := divCeil sourceDomain geometry.aRingDimension
  ensure (checkedNextPowerOfTwo numLivePositions = some paddedRingPositions)
    (.invalidSetup "coefficient-packing live source prefix disagrees with source arity")
  let paddedPoint := point ++ List.replicate (expected - point.length) 0
  let (packingPoint, offset) ← takeAxis paddedPoint 0 packBits
  let (tailPoint, offset) ← takeAxis paddedPoint offset tailBits
  let (positionPoint, offset) ← takeAxis paddedPoint offset positionBits
  let (blockPoint, _) ← takeAxis paddedPoint offset blockBits
  return { geometry, basis, sourceNumVars, numLivePositions, numPositionsPerBlock, numLiveBlocks,
           packingPoint, tailPoint, positionPoint, blockPoint }

end PreparedPoint

/-- `SubringCoefficientPackingTables`. -/
structure Tables (E : Type) where
  point : PreparedPoint E
  packingWeights : List E
  tailWeights : List E
  positionWeights : List E
  liveBlockWeights : List E

def Tables.new {E : Type} [Field E] (rt : Runtime) (point : PreparedPoint E) : Result (Tables E) := do
  let packingWeights ← basisWeights rt point.packingPoint point.basis
  let tailWeights ← basisWeights rt point.tailPoint point.basis
  let positionWeights ← basisWeights rt point.positionPoint point.basis
  let liveBlockWeights ← basisWeightsPrefix rt point.blockPoint point.basis point.numLiveBlocks
  return { point, packingWeights, tailWeights, positionWeights, liveBlockWeights }

/-- `FusedPackingWeights`: position × packing weights with the tables that produced them. -/
structure FusedPackingWeights (E : Type) where
  tables : Tables E
  values : List E

namespace FusedPackingWeights

variable {E : Type} [Field E]

def requiredLen (tables : Tables E) : Result ℕ :=
  okOr (Checked.product [tables.point.numPositionsPerBlock, tables.point.geometry.subringEmbeddingStride])
    (.invalidSetup "coefficient-packing fused weight length overflow")

def new (rt : Runtime) (tables : Tables E) : Result (FusedPackingWeights E) := do
  let len ← requiredLen tables
  ensure (rt.reserves len) (.invalidInput "coefficient-packing fused weight allocation failed")
  return { tables, values := tables.positionWeights.flatMap fun positionWeight =>
    tables.packingWeights.map fun packingWeight => positionWeight * packingWeight }

end FusedPackingWeights

/-! ## The kernel of partial openings -/

/-- What the field crates compute for a base field `F` under an extension `E`: the product by a base
scalar, and its unreduced form with sums of such products. -/
structure PackingField (F E : Type) where
  mulBase : E → F → E
  Product : Type
  zero : Product
  add : Product → Product → Product
  mulBaseUnreduced : E → F → Product
  reduceProduct : Product → E
  sumIsExact : Bool

section

variable {F E : Type} [Field F] [Field E] [Algebra F E]

/-- A sum of unreduced products, however it is cut and joined, and its value. -/
inductive PackingField.Sums (𝔣 : PackingField F E) : 𝔣.Product → E → Prop
  | zero : 𝔣.Sums 𝔣.zero 0
  | product (weight : E) (source : F) : 𝔣.Sums (𝔣.mulBaseUnreduced weight source) (weight * algebraMap F E source)
  | add {p q : 𝔣.Product} {v w : E} : 𝔣.Sums p v → 𝔣.Sums q w → 𝔣.Sums (𝔣.add p q) (v + w)

/-- The documented values: a product by a base scalar, and a delayed sum that is exact. -/
structure PackingField.Lawful (𝔣 : PackingField F E) : Prop where
  mulBase : ∀ weight source, 𝔣.mulBase weight source = weight * algebraMap F E source
  reduceProduct : 𝔣.sumIsExact = true → ∀ p v, 𝔣.Sums p v → 𝔣.reduceProduct p = v

end

/-- `zero_vec` of the kernel. -/
def zeroVec {T : Type} (rt : Runtime) (zero : T) (len : ℕ) : Result (List T) := do
  ensure (rt.reserves len) (.invalidInput
    ("coefficient-packing output allocation failed for " ++ toString len ++ " elements"))
  return List.replicate len zero

def chunksExact {α : Type} (size : ℕ) (l : List α) : List (List α) :=
  (List.range (l.length / size)).map fun i => (l.drop (i * size)).take size

/-- The live positions of a source: `positionAt` prepares one, `coefficient` reads it. -/
structure PositionSource (F : Type) where
  Position : Type
  nonzeroPositions : ℕ
  positionAt : ℕ → Result Position
  coefficient : ℕ → ℕ → Position → F

section

variable {F E : Type} [Field F] [Field E] (𝔣 : PackingField F E)

/-- One position of the exact loop at small strides: one packing weight at a time, over all accumulators. -/
def accumulateSmallStride (stride : ℕ) (read : ℕ → F) (weights : List E) (products : List 𝔣.Product) : List 𝔣.Product :=
  weights.zipIdx.foldl (fun products (weight, packingIndex) =>
    products.mapIdx fun subringIndex accumulator =>
      𝔣.add accumulator (𝔣.mulBaseUnreduced weight (read (subringIndex * stride + packingIndex)))) products

/-- Four products, added in pairs. -/
def accumulateFour (read : ℕ → F) (state : 𝔣.Product × ℕ) (chunk : List E) : 𝔣.Product × ℕ :=
  let product := fun i => 𝔣.mulBaseUnreduced (chunk.getD i 0) (read (state.2 + i))
  (𝔣.add state.1 (𝔣.add (𝔣.add (product 0) (product 1)) (𝔣.add (product 2) (product 3))), state.2 + 4)

def accumulateOne (read : ℕ → F) (state : 𝔣.Product × ℕ) (weight : E) : 𝔣.Product × ℕ :=
  (𝔣.add state.1 (𝔣.mulBaseUnreduced weight (read state.2)), state.2 + 1)

/-- One accumulator of the exact loop at larger strides, from the coefficient index on. -/
def accumulateChunks (read : ℕ → F) (weights : List E) (accumulator : 𝔣.Product) (coefficientIndex : ℕ) :
    𝔣.Product × ℕ := (weights.drop (weights.length / 4 * 4)).foldl (accumulateOne 𝔣 read)
    ((chunksExact 4 weights).foldl (accumulateFour 𝔣 read) (accumulator, coefficientIndex))

def accumulateReduced (read : ℕ → F) (weights : List E) (accumulator : E) (coefficientIndex : ℕ) : E × ℕ :=
  weights.foldl (fun state weight => (state.1 + 𝔣.mulBase weight (read state.2), state.2 + 1))
    (accumulator, coefficientIndex)

/-- All accumulators of one position, with the coefficient index running through them. -/
def accumulateRunning {A : Type} (one : A → ℕ → A × ℕ) (accumulators : List A) : List A :=
  (accumulators.foldl (fun (done, index) accumulator =>
    let (accumulator, index) := one accumulator index
    (done ++ [accumulator], index)) (([] : List A), 0)).1

/-- The loop over the live positions of a block. -/
def overPositions {A : Type} (overflow : String) (source : PositionSource F) (step : (ℕ → F) → List E → List A → List A)
    (chunks : List (List E)) (firstPosition liveInBlock : ℕ) (init : List A) : Result (List A) :=
  (chunks.take liveInBlock).zipIdx.foldlM (fun accumulators (weights, positionInBlock) => do
    let position ← okOr (checkedAdd usizeBits firstPosition positionInBlock) (.internal overflow)
    let sourcePosition ← source.positionAt position
    return step (fun index => source.coefficient position index sourcePosition) weights accumulators) init

def packedBlock (rt : Runtime) (geometry : Geometry) (source : PositionSource F) (fusedWeights : List E)
    (firstPosition liveInBlock : ℕ) : Result (List E) := do
  let s := geometry.challengeSubringDimension
  let stride := geometry.subringEmbeddingStride
  let chunks := chunksExact stride fusedWeights
  if 𝔣.sumIsExact then do
    let products ← zeroVec rt 𝔣.zero s
    let products ← (if stride ≤ 8 then
        overPositions "exact coefficient-packing position overflow" source (accumulateSmallStride 𝔣 stride)
          chunks firstPosition liveInBlock products
      else
        overPositions "chunked coefficient-packing position overflow" source
          (fun read weights => accumulateRunning (accumulateChunks 𝔣 read weights))
          chunks firstPosition liveInBlock products : Result _)
    return products.map 𝔣.reduceProduct
  else do
    let reduced ← zeroVec rt (0 : E) s
    overPositions "reduced coefficient-packing position overflow" source
      (fun read weights => accumulateRunning (accumulateReduced 𝔣 read weights)) chunks firstPosition liveInBlock reduced

variable [ExtField F E]

/-- The base-field coordinates of the packed coefficients, extension coordinate outermost. -/
def outputCoordinates (rt : Runtime) (geometry : Geometry) (packed : List E) : Result (List F) := do
  let output ← zeroVec rt (0 : F) geometry.partialBaseFieldWidth
  packed.zipIdx.foldlM (fun output (coefficient, subringIndex) => do
    let coordinates : List F := ExtField.toBaseVec coefficient
    ensure (coordinates.length = geometry.extensionDegree)
      (.invalidSetup "coefficient-packing extension encoding width mismatch")
    coordinates.zipIdx.foldlM (fun (output : List F) (coordinate, extensionCoordinate) => do
      let localIndex ← geometry.partialBaseFieldCoordinateIndex extensionCoordinate subringIndex
      ensure (localIndex < output.length) (.internal "coefficient-packing output coordinate is outside its geometry")
      return output.set localIndex coordinate) output) output

/-- The live positions of a block that the source can carry. -/
def liveInBlock (point : PreparedPoint E) (nonzeroPositions firstPosition : ℕ) : Result ℕ := do
  let remaining ← okOr (checkedSub point.numLivePositions firstPosition)
    (.internal "coefficient-packing block starts beyond the live positions")
  return min (min remaining point.numPositionsPerBlock) (nonzeroPositions - firstPosition)

/-- `coefficient_packing_partials_from_position_source`, at ring dimension `D`. -/
def partialsFromPositionSource (rt : Runtime) (D : ℕ) (fusedWeights : FusedPackingWeights E) (sourceNumVars : ℕ)
    (source : PositionSource F) : Result (List F) := do
  let point := fusedWeights.tables.point
  let geometry := point.geometry
  -- `SubringCoefficientPackingPlan::validate`
  ensure (¬ (geometry.aRingDimension ≠ D ∨ point.sourceNumVars ≠ sourceNumVars))
    (.invalidInput "coefficient-packing plan disagrees with source geometry or arity")
  ensure (ExtField.degree F E = geometry.extensionDegree)
    (.invalidSetup "coefficient-packing field extension degree mismatch")
  ensure (source.nonzeroPositions ≤ point.numLivePositions)
    (.invalidSize point.numLivePositions source.nonzeroPositions)
  let outputLen ← okOr (checkedMul usizeBits point.numLiveBlocks geometry.partialBaseFieldWidth)
    (.invalidInput "coefficient-packing output length overflow")
  let blockCoordinates ← (List.range point.numLiveBlocks).mapM fun blockIndex => do
    let firstPosition ← okOr (checkedMul usizeBits blockIndex point.numPositionsPerBlock)
      (.invalidInput "coefficient-packing block offset overflow")
    let live ← liveInBlock point source.nonzeroPositions firstPosition
    let packed ← packedBlock 𝔣 rt geometry source fusedWeights.values firstPosition live
    outputCoordinates rt geometry packed
  ensure (rt.reserves outputLen) (.invalidInput
    ("coefficient-packing output allocation failed for " ++ toString outputLen ++ " elements"))
  return blockCoordinates.flatten

end

/-! ## The scalar opening -/

def requireLen (label : String) (actual expected : ℕ) : Result Unit := ensure (actual = expected) (.invalidInput
    ("subring packing " ++ label ++ " length mismatch: expected " ++ toString expected ++ ", got " ++ toString actual))

def maxReferenceAllocationBytes : ℕ := 2 ^ 30

/-- `zero_vec` of the fold. -/
def zeroVecLabelled {T : Type} [Zero T] (rt : Runtime) (label : String) (len : ℕ) : Result (List T) := do
  let bytes ← okOr (checkedMul usizeBits len (max rt.elemSize 1))
    (.invalidInput ("subring packing " ++ label ++ " allocation overflow"))
  ensure (bytes ≤ maxReferenceAllocationBytes) (.invalidInput ("subring packing " ++ label ++ " requires " ++
    toString bytes ++ " bytes, exceeding the reference allocation limit"))
  ensure (rt.reserves len) (.invalidInput
    ("subring packing " ++ label ++ " allocation failed for " ++ toString len ++ " elements"))
  return List.replicate len 0

section

variable {F E : Type} [Field F] [Field E] [ExtField F E]

variable (F E) in
def validateExtensionDegree (geometry : Geometry) : Result Unit :=
  ensure (ExtField.degree F E = geometry.extensionDegree) (.invalidSetup
    ("subring packing extension degree mismatch: geometry has " ++ toString geometry.extensionDegree ++
      ", field has " ++ toString (ExtField.degree F E)))

/-- The coordinates of one partial, gathered over the extension coordinates into the buffer. -/
def gatherCoordinates (geometry : Geometry) (claimIndex : ℕ) (partialCoordinates : List F) (partialOffset : ℕ)
    (subringCoefficientIndex : ℕ) (coordinates : List F) : Result (List F) :=
  (List.range coordinates.length).mapM fun extensionCoordinate => do
    let localIndex ← geometry.partialBaseFieldCoordinateIndex extensionCoordinate subringCoefficientIndex
    let sourceIndex ← okOr (checkedAdd usizeBits partialOffset localIndex)
      (.invalidInput "subring packing scalar opening source index overflow")
    okOr partialCoordinates[sourceIndex]? (.invalidInput
      ("subring packing scalar opening source for claim " ++ toString claimIndex ++ " is out of bounds"))

def scalarOpening (rt : Runtime) (geometry : Geometry) (numBlocks : ℕ) (partialCoordinatesByClaim : List (List F))
    (claimWeights blockWeights tailWeights : List E) : Result E := do
  validateExtensionDegree F E geometry
  let numClaims := partialCoordinatesByClaim.length
  ensure (¬ (numClaims = 0 ∨ numBlocks = 0))
    (.invalidInput "subring packing scalar opening requires nonzero claims and blocks")
  requireLen "claim-weight vector" claimWeights.length numClaims
  requireLen "block-weight vector" blockWeights.length numBlocks
  requireLen "tail-weight vector" tailWeights.length geometry.challengeSubringDimension
  let expectedClaimPartials ← okOr (Checked.product [numBlocks, geometry.partialBaseFieldWidth])
    (.invalidInput "subring packing scalar opening partial length overflow")
  partialCoordinatesByClaim.forM fun partialCoordinates =>
    requireLen "scalar opening claim partial vector" partialCoordinates.length expectedClaimPartials
  let coordinates ← zeroVecLabelled (T := F) rt "extension coefficient" geometry.extensionDegree
  let (opening, _) ← (partialCoordinatesByClaim.zip claimWeights).zipIdx.foldlM
    (fun state ((partialCoordinates, claimWeight), claimIndex) =>
      blockWeights.zipIdx.foldlM (fun state (blockWeight, blockIndex) => do
        let partialOffset ← okOr (checkedMul usizeBits blockIndex geometry.partialBaseFieldWidth)
          (.invalidInput "subring packing scalar opening offset overflow")
        tailWeights.zipIdx.foldlM (fun (opening, coordinates) (tailWeight, subringCoefficientIndex) => do
          let coordinates ← gatherCoordinates geometry claimIndex partialCoordinates partialOffset
            subringCoefficientIndex coordinates
          let coefficient : E := ExtField.fromBaseSlice coordinates
          return (opening + claimWeight * blockWeight * tailWeight * coefficient, coordinates)) state) state)
    ((0 : E), coordinates)
  return opening

end

/-! ## The fold by sparse challenges -/

/-- `SparseChallenge::validate_dyn`. The positions seen are kept as a bitmap of words. -/
def validateDyn (rt : Runtime) (challenge : SparseChallenge) (ringD : ℕ) : Result Unit := do
  ensure (challenge.positions.length = challenge.coeffs.length)
    (.invalidInput "sparse challenge positions/coeffs length mismatch")
  let wordCount := divCeil ringD 64
  ensure (wordCount ≤ 32 ∨ rt.reserves wordCount) (.invalidInput "challenge dimension is too large")
  let _ ← (challenge.positions.zip challenge.coeffs).foldlM (fun (seen : List ℕ) (pos, coeff) => do
    ensure (pos < ringD) (.invalidInput
      ("sparse challenge position " ++ toString pos ++ " out of range for D=" ++ toString ringD))
    ensure (coeff ≠ 0) (.invalidInput "sparse challenge coefficients must be non-zero")
    let word ← okOr seen[pos / 64]? (.internal "validated sparse challenge position exceeds its bitmap")
    let mask := 2 ^ (pos % 64)
    ensure (word &&& mask = 0) (.invalidInput "sparse challenge positions must be unique")
    return seen.set (pos / 64) (word ||| mask)) (List.replicate wordCount 0)

section

variable {F : Type} [Field F]

structure FoldProduct (F : Type) where
  geometry : Geometry
  reducedBaseFieldCoordinates : List F
  quotientHighHalfBaseFieldCoordinates : List F

def accumulateSmallSignedProduct (destination value : F) (coefficient : ℤ) : F :=
  if coefficient = 1 then destination + value
  else if coefficient = -1 then destination - value
  else if coefficient = 2 then destination + value + value
  else if coefficient = -2 then destination - value - value
  else destination + value * (coefficient : F)

/-- One partial coefficient times one challenge coefficient, into the planes at `base`. -/
def foldTerm (base s challengeIndex partialIndex : ℕ) (partialCoefficient : F) (challengeCoefficient : ℤ)
    (state : List F × List F) : Result (List F × List F) := do
  let (reduced, quotient) := state
  let ordinaryIndex ← okOr (checkedAdd usizeBits challengeIndex partialIndex)
    (.invalidInput "subring packing product index overflow")
  let wraps := decide (ordinaryIndex ≥ s)
  let outputIndex := if wraps then ordinaryIndex - s else ordinaryIndex
  ensure (outputIndex < s) (.invalidInput "subring packing reduced index is out of bounds")
  -- a plane is the slice of `s` coordinates from `base` on
  let destination := reduced.getD (base + outputIndex) 0
  if wraps then
    return (reduced.set (base + outputIndex)
        (accumulateSmallSignedProduct destination (-partialCoefficient) challengeCoefficient),
      quotient.set (base + outputIndex)
        (accumulateSmallSignedProduct (quotient.getD (base + outputIndex) 0) partialCoefficient challengeCoefficient))
  else
    return (reduced.set (base + outputIndex)
      (accumulateSmallSignedProduct destination partialCoefficient challengeCoefficient), quotient)

/-- `get(start..stop)`. -/
def getSlice (l : List F) (start stop : ℕ) (e : AkitaError) : Result (List F) := do
  ensure (start ≤ stop ∧ stop ≤ l.length) e
  return (l.drop start).take (stop - start)

def foldPartials (rt : Runtime) (geometry : Geometry) (challenges : List SparseChallenge) (partialCoordinates : List F) :
    Result (FoldProduct F) := do
  let s := geometry.challengeSubringDimension
  let width := geometry.partialBaseFieldWidth
  challenges.forM fun challenge => validateDyn rt challenge s
  let partialLen ← okOr (Checked.product [challenges.length, width])
    (.invalidInput "subring packing folded partial length overflow")
  requireLen "folded partial vector" partialCoordinates.length partialLen
  let reduced ← zeroVecLabelled rt "reduced packing product" width
  let quotient ← zeroVecLabelled rt "packing quotient" width
  let (reduced, quotient) ← challenges.zipIdx.foldlM (fun state (challenge, termIndex) => do
    let partialOffset ← okOr (checkedMul usizeBits termIndex width)
      (.invalidInput "subring packing fold offset overflow")
    (List.range geometry.extensionDegree).foldlM (fun state extensionCoordinate => do
      let coordinateOffset ← okOr (checkedMul usizeBits extensionCoordinate s)
        (.invalidInput "subring packing plane offset overflow")
      let planeOffset ← okOr (checkedAdd usizeBits partialOffset coordinateOffset)
        (.invalidInput "subring packing source offset overflow")
      let planeEnd ← okOr (checkedAdd usizeBits planeOffset s) (.invalidInput "subring packing source extent overflow")
      let plane ← getSlice partialCoordinates planeOffset planeEnd
        (.invalidInput "subring packing source plane is out of bounds")
      let coordinateEnd ← okOr (checkedAdd usizeBits coordinateOffset s)
        (.invalidInput "subring packing coordinate extent overflow")
      ensure (coordinateEnd ≤ state.1.length) (.invalidInput "subring packing reduced plane is out of bounds")
      ensure (coordinateEnd ≤ state.2.length) (.invalidInput "subring packing quotient plane is out of bounds")
      (challenge.positions.zip challenge.coeffs).foldlM (fun state (challengeIndex, challengeCoefficient) =>
        plane.zipIdx.foldlM (fun state (partialCoefficient, partialIndex) =>
          foldTerm coordinateOffset s challengeIndex partialIndex partialCoefficient challengeCoefficient state)
          state) state) state) (reduced, quotient)
  return { geometry, reducedBaseFieldCoordinates := reduced, quotientHighHalfBaseFieldCoordinates := quotient }

end

end Akita.CoefficientPacking
