import Akita.Spec.BalancedDecompose
import Akita.Spec.CompressionWitness
import Akita.Spec.PackedDigits
import Akita.Spec.WitnessLayout

/-!
# Emission of the recursive witness

`akita-types/src/proof/witness_emission.rs`, the coefficient indices of `akita-params/src/witness.rs`,
`CpuAcceptedFold::emit_z_planes` of `akita-cpu-backend/src/opaque/fold.rs` and, of
`akita-cpu-backend/src/opaque/witness_build`, `compression_emission.rs` and the emission of `finalize.rs`: the
digit planes of every unit, the quotient rows and the compression spans, written to the packed witness in the
order of its layout.

The emission takes any sink; the packed writer is the one of the build. A group comes with its inputs prepared:
its E and T digits and its accepted fold. An `i32` and its `i64` carries are integers, `& mask` the remainder and
`>>` the quotient of a division by the base; an assertion and an index past the end of a slice are internal errors.
-/

namespace Akita.Witness

open Lib (Span)
open Decompose (BalancedDecomposePow2Params CanonicalU128 balancedDecomposeCoefficientsPow2I8Into)
open Compression (PackedNegativeBinary CompressionChainWitness)
open PackedDigits (PackedSignedDigits PackedSignedDigitWriter indexOutOfBounds)

/-! ## Coefficient indices -/

def RelationRowGeometry.physicalCoefficientIndex (geometry : RelationRowGeometry) (coordinatePlane modulusCoefficient : ℕ) :
    Result ℕ := do
  ensure (¬ (coordinatePlane ≥ geometry.coordinatePlaneCount ∨ modulusCoefficient ≥ geometry.polynomialModulusDimension))
    (.invalidInput "relation row coefficient lies outside its geometry")
  okOr ((do
    let base ← checkedMul usizeBits coordinatePlane geometry.polynomialModulusDimension
    checkedAdd usizeBits base modulusCoefficient : Option ℕ).filter fun index =>
      decide (index < geometry.physicalCoefficientWidth)) (.invalidSetup "relation row index overflow")

def checkedRangeIndex (range : Span) (localIndex : ℕ) (name : String) : Result ℕ := do
  let index ← okOr (checkedAdd usizeBits range.start localIndex) (.invalidSetup (name ++ " index overflow"))
  ensure (¬ index ≥ range.stop) (.invalidInput (name ++ " semantic index exceeds its unit range"))
  return index

def projectedCoefficientIndex (range : Span) (label : String) (sourceRingDim roleRingDim semanticCount digitCount semanticIndex
    roleSubcolumn digit roleCoefficient : ℕ) : Result ℕ := do
  ensure (¬ (sourceRingDim = 0 ∨ roleRingDim = 0 ∨ sourceRingDim % roleRingDim ≠ 0))
    (.invalidSetup (label ++ " projected ring dimensions must satisfy role | source"))
  let expectedLen ← okOr (do
    let len ← checkedMul usizeBits semanticCount digitCount
    checkedMul usizeBits len sourceRingDim) (.invalidSetup (label ++ " shape overflow"))
  ensure (range.len = expectedLen) (.invalidSetup (label ++ " shape disagrees with resolved range"))
  let liveSubcolumns := sourceRingDim / roleRingDim
  ensure (¬ (semanticIndex ≥ semanticCount ∨ roleSubcolumn ≥ liveSubcolumns ∨ digit ≥ digitCount ∨
    roleCoefficient ≥ roleRingDim)) (.invalidInput (label ++ " projected coefficient index out of range"))
  let localCoefficient ← okOr (do
    let index ← checkedMul usizeBits semanticIndex liveSubcolumns
    let index ← checkedAdd usizeBits index roleSubcolumn
    let index ← checkedMul usizeBits index digitCount
    let index ← checkedAdd usizeBits index digit
    let index ← checkedMul usizeBits index roleRingDim
    checkedAdd usizeBits index roleCoefficient) (.invalidSetup (label ++ " index overflow"))
  let index ← okOr (checkedAdd usizeBits range.start localCoefficient) (.invalidSetup (label ++ " index overflow"))
  ensure (¬ index ≥ range.stop) (.invalidSetup (label ++ " index exceeds resolved range"))
  return index

namespace WitnessUnitLayout

variable (unit : WitnessUnitLayout)

def globalBlockRange : Span := ⟨unit.globalBlockStart, unit.globalBlockStart + unit.numLiveBlocks⟩

def checkedOwnedBlock (globalBlock : ℕ) : Result ℕ := do
  let ownershipError : AkitaError := .invalidInput ("witness fold block " ++ toString globalBlock ++ " is not owned by group " ++
    toString unit.groupIndex ++ " chunk " ++ toString unit.chunkIndex ++ " range " ++ toString unit.globalBlockRange.start ++
    ".." ++ toString unit.globalBlockRange.stop)
  let block ← okOr (checkedSub globalBlock unit.globalBlockStart) ownershipError
  ensure (¬ block ≥ unit.numLiveBlocks) ownershipError
  return block

def eCoefficientIndex (roleRingDim numClaims depthOpen claim globalBlock roleSubcolumn digit roleCoefficient : ℕ) : Result ℕ := do
  let expectedLen ← okOr (Checked.product [numClaims, unit.numLiveBlocks, depthOpen]) (.invalidSetup "witness E shape overflow")
  let expectedLen ← okOr (checkedMul usizeBits expectedLen unit.eGeometry.physicalCoefficientWidth)
    (.invalidSetup "witness E shape overflow")
  ensure (unit.eRange.len = expectedLen) (.invalidSetup "witness E shape disagrees with resolved range")
  let localBlock ← unit.checkedOwnedBlock globalBlock
  ensure (¬ (claim ≥ numClaims ∨ digit ≥ depthOpen)) (.invalidInput "witness E semantic index out of range")
  let blockClaim ← okOr (do
    let base ← checkedMul usizeBits unit.numLiveBlocks claim
    checkedAdd usizeBits base localBlock) (.invalidSetup "witness E index overflow")
  let count ← okOr (checkedMul usizeBits numClaims unit.numLiveBlocks) (.invalidSetup "witness E shape overflow")
  projectedCoefficientIndex unit.eRange "witness E" unit.eGeometry.physicalCoefficientWidth roleRingDim count depthOpen blockClaim
    roleSubcolumn digit roleCoefficient

def tCoefficientIndex (sourceRingDim roleRingDim numClaims nA depthOuter claim globalBlock aRow roleSubcolumn digit
    roleCoefficient : ℕ) : Result ℕ := do
  let expectedLen ← okOr (do
    let len ← checkedMul usizeBits numClaims unit.numLiveBlocks
    let len ← checkedMul usizeBits len nA
    let len ← checkedMul usizeBits len depthOuter
    checkedMul usizeBits len sourceRingDim) (.invalidSetup "witness T shape overflow")
  ensure (unit.tRange.len = expectedLen) (.invalidSetup "witness T shape disagrees with resolved range")
  let localBlock ← unit.checkedOwnedBlock globalBlock
  ensure (¬ (claim ≥ numClaims ∨ aRow ≥ nA ∨ digit ≥ depthOuter)) (.invalidInput "witness T semantic index out of range")
  let blockClaim ← okOr (do
    let base ← checkedMul usizeBits unit.numLiveBlocks claim
    checkedAdd usizeBits base localBlock) (.invalidSetup "witness T index overflow")
  let rowBlockClaim ← okOr (do
    let base ← checkedMul usizeBits nA blockClaim
    checkedAdd usizeBits base aRow) (.invalidSetup "witness T index overflow")
  let count ← okOr (do
    let count ← checkedMul usizeBits numClaims unit.numLiveBlocks
    checkedMul usizeBits count nA) (.invalidSetup "witness T shape overflow")
  projectedCoefficientIndex unit.tRange "witness T" sourceRingDim roleRingDim count depthOuter rowBlockClaim roleSubcolumn digit
    roleCoefficient

def zCoefficientIndex (sourceRingDim numPositionsPerBlock depthWitness depthFold position witnessDigit foldDigit
    coefficient : ℕ) : Result ℕ := do
  let expectedLen ← okOr (Checked.product [numPositionsPerBlock, depthWitness, depthFold]) (.invalidSetup "witness Z shape overflow")
  let expectedLen ← okOr (checkedMul usizeBits expectedLen sourceRingDim) (.invalidSetup "witness Z shape overflow")
  ensure (unit.zRange.len = expectedLen) (.invalidSetup "witness Z shape disagrees with resolved range")
  ensure (¬ (position ≥ numPositionsPerBlock ∨ witnessDigit ≥ depthWitness ∨ foldDigit ≥ depthFold ∨
    coefficient ≥ sourceRingDim)) (.invalidInput "witness Z semantic index out of range")
  let positionWitness ← okOr (do
    let base ← checkedMul usizeBits depthWitness position
    checkedAdd usizeBits base witnessDigit) (.invalidSetup "witness Z index overflow")
  let ringIndex ← okOr (do
    let base ← checkedMul usizeBits depthFold positionWitness
    checkedAdd usizeBits base foldDigit) (.invalidSetup "witness Z index overflow")
  let localIndex ← okOr (do
    let base ← checkedMul usizeBits ringIndex sourceRingDim
    checkedAdd usizeBits base coefficient) (.invalidSetup "witness Z index overflow")
  checkedRangeIndex unit.zRange localIndex "witness Z"

end WitnessUnitLayout

def WitnessQuotientRowLayout.coefficientIndex (row : WitnessQuotientRowLayout) (quotientDigit coordinatePlane
    modulusCoefficient : ℕ) : Result ℕ := do
  let physicalCoefficient ← row.geometry.physicalCoefficientIndex coordinatePlane modulusCoefficient
  let localIndex ← okOr (do
    let base ← checkedMul usizeBits quotientDigit row.geometry.physicalCoefficientWidth
    checkedAdd usizeBits base physicalCoefficient) (.invalidSetup "witness R index overflow")
  checkedRangeIndex row.range localIndex "witness R"

namespace WitnessLayout

variable (layout : WitnessLayout)

def rCoefficientIndex (relationRow quotientDigit coordinatePlane modulusCoefficient : ℕ) : Result ℕ :=
  match layout.relationQuotients with
  | .reducedEvaluation => .error (.invalidInput "reduced-evaluation witness has no quotient coordinates")
  | .quotientLift quotientDepth rows => do
    let row ← okOr rows[relationRow]? (.invalidInput "witness R semantic index out of range")
    ensure (¬ quotientDigit ≥ quotientDepth) (.invalidInput "witness R semantic index out of range")
    row.coefficientIndex quotientDigit coordinatePlane modulusCoefficient

def quotientDepth : Option ℕ+ :=
  match layout.relationQuotients with
  | .quotientLift quotientDepth _ => some quotientDepth
  | .reducedEvaluation => none

def numChunksForGroup (groupIndex : ℕ) : ℕ := (layout.units.filter fun unit => unit.groupIndex = groupIndex).length

end WitnessLayout

/-! ## Digit planes -/

structure DigitBlocks where
  digits : List ℤ
  blockSizes : List ℕ
  digitStride : ℕ

namespace DigitBlocks

variable (blocks : DigitBlocks)

def totalPlanes : ℕ := blocks.blockSizes.sum

def ensureStride (D : ℕ) : Result Unit :=
  ensure (blocks.digitStride = D) (.invalidInput ("digit blocks stride " ++ toString blocks.digitStride ++
    " does not match requested D=" ++ toString D))

def typedPlanes (D : ℕ) : Result (List (List ℤ)) := do
  blocks.ensureStride D
  ensure (blocks.digits.length % D = 0)
    (.invalidSize (blocks.digits.length - blocks.digits.length % D + D) blocks.digits.length)
  return Lib.chunks D blocks.digits

end DigitBlocks

def unitClaimPlanes (unit : WitnessUnitLayout) (claim sourceNumLiveBlocks planesPerBlock : ℕ) (flat : List (List ℤ)) :
    Result (List (List ℤ)) := do
  let range := unit.globalBlockRange
  ensure (¬ range.stop > sourceNumLiveBlocks) (.invalidSize sourceNumLiveBlocks range.stop)
  okOr (do
    let block ← checkedMul usizeBits claim sourceNumLiveBlocks
    let block ← checkedAdd usizeBits block range.start
    let start ← checkedMul usizeBits block planesPerBlock
    let count ← checkedMul usizeBits range.len planesPerBlock
    let stop ← checkedAdd usizeBits start count
    guard (stop ≤ flat.length)
    return (flat.drop start).take count) (.invalidSetup "witness source planes exceed the source")

section emit

variable {S : Type} (write : S → ℕ → List ℤ → Result S)

def emitWitnessEPlanes (DRole : ℕ) (unit : WitnessUnitLayout) (sourcePhysicalWidth numClaims depthOpen : ℕ) (digits : DigitBlocks)
    (sourceNumLiveBlocks : ℕ) (out : S) : Result S := do
  ensure (sourcePhysicalWidth % DRole = 0) (.invalidSetup "witness E dimensions must satisfy D_ROLE | D_A")
  digits.ensureStride DRole
  let roleSubcolumns := sourcePhysicalWidth / DRole
  let expected ← okOr (do
    let n ← checkedMul usizeBits numClaims sourceNumLiveBlocks
    let n ← checkedMul usizeBits n roleSubcolumns
    checkedMul usizeBits n depthOpen) (.invalidSetup "witness E source length overflow")
  ensure (digits.totalPlanes = expected) (.invalidSize expected digits.totalPlanes)
  let flat ← digits.typedPlanes DRole
  ensure (unit.eGeometry.physicalCoefficientWidth = sourcePhysicalWidth)
    (.invalidSetup "witness E source width disagrees with resolved geometry")
  let planesPerBlock ← okOr (checkedMul usizeBits roleSubcolumns depthOpen) (.invalidSetup "witness E source stride overflow")
  if unit.numLiveBlocks = 0 then return out
  else (List.range numClaims).foldlM (fun out claim => do
    let source ← unitClaimPlanes unit claim sourceNumLiveBlocks planesPerBlock flat
    let destination ← unit.eCoefficientIndex DRole numClaims depthOpen claim unit.globalBlockStart 0 0 0
    write out destination source.flatten) out

def emitWitnessTPlanes (DA DRole : ℕ) (unit : WitnessUnitLayout) (numClaims nA depthOuter : ℕ) (digits : DigitBlocks)
    (sourceNumLiveBlocks : ℕ) (out : S) : Result S := do
  ensure (DA % DRole = 0) (.invalidSetup "witness T dimensions must satisfy D_ROLE | D_A")
  digits.ensureStride DRole
  let roleSubcolumns := DA / DRole
  let expected ← okOr (do
    let n ← checkedMul usizeBits numClaims sourceNumLiveBlocks
    let n ← checkedMul usizeBits n nA
    let n ← checkedMul usizeBits n roleSubcolumns
    checkedMul usizeBits n depthOuter) (.invalidSetup "witness T source length overflow")
  ensure (digits.totalPlanes = expected) (.invalidSize expected digits.totalPlanes)
  let flat ← digits.typedPlanes DRole
  let planesPerBlock ← okOr (do
    let n ← checkedMul usizeBits nA roleSubcolumns
    checkedMul usizeBits n depthOuter) (.invalidSetup "witness T source stride overflow")
  if unit.numLiveBlocks = 0 then return out
  else (List.range numClaims).foldlM (fun out claim => do
    let source ← unitClaimPlanes unit claim sourceNumLiveBlocks planesPerBlock flat
    let destination ← unit.tCoefficientIndex DA DRole numClaims nA depthOuter claim unit.globalBlockStart 0 0 0 0
    write out destination source.flatten) out

/-! ## Fold responses -/

/-- `balanced as i8`. -/
def asI8 (x : ℤ) : ℤ := Int.bmod x 256

def balancedDigit (logBasis : ℕ) (carry : ℤ) : ℤ :=
  let d := carry % 2 ^ logBasis
  if d ≥ 2 ^ (logBasis - 1) then d - 2 ^ logBasis else d

def nextCarry (logBasis : ℕ) (carry : ℤ) : ℤ := (carry - balancedDigit logBasis carry) / 2 ^ logBasis

/-- The plane loop of `balanced_decompose_centered_i32_i8_into`. -/
def carryPlanes (logBasis : ℕ) : ℕ → List ℤ → List (List ℤ)
  | 0, _ => []
  | planes + 1, carry =>
    carry.map (fun c => asI8 (balancedDigit logBasis c)) :: carryPlanes logBasis planes (carry.map (nextCarry logBasis))

def balancedDecomposeCenteredI32I8Into (centered : List ℤ) (planes logBasis : ℕ) : Result (List (List ℤ)) := do
  ensure (logBasis > 0 ∧ logBasis ≤ 8) (.internal "log_basis must be in 1..=8 for i8 output")
  return carryPlanes logBasis planes centered

/-- The fields of `CpuAcceptedFold` that the emission reads. -/
structure CpuAcceptedFold where
  centeredCoeffsFlat : List ℤ
  ringDim : ℕ
  chunks : Option (List (List ℤ))
  manifestRingDimension : ℕ
  manifestNumChunks : ℕ

def CpuAcceptedFold.ensureRingDim (fold : CpuAcceptedFold) (D : ℕ) : Result Unit := do
  ensure (fold.manifestRingDimension = D) (.invalidInput "accepted fold used with a different ring dimension")
  ensure (fold.ringDim = D) (.invalidInput ("decompose fold witness ring_d=" ++ toString fold.ringDim ++
    " does not match requested D=" ++ toString D))
  ensure (¬ (D = 0 ∨ fold.centeredCoeffsFlat.length % D ≠ 0)) (.invalidSize D fold.centeredCoeffsFlat.length)
  ensure (∀ chunk ∈ fold.chunks.getD [], chunk.length % D = 0)
    (.internal ("retained fold chunk width mismatch: expected " ++ toString D ++ ", actual " ++
      toString ((((fold.chunks.getD []).find? fun chunk => chunk.length % D ≠ 0).map (·.length)).getD 0)))

structure CpuRecursiveWitnessUnitPlan where
  unit : WitnessUnitLayout
  numPositionsPerBlock : ℕ
  numDigitsInner : ℕ
  numDigitsFold : ℕ
  logBasisOpen : ℕ
  expectedChunks : ℕ

def CpuRecursiveWitnessUnitPlan.new (unit : WitnessUnitLayout) (numPositionsPerBlock numDigitsInner numDigitsFold logBasisOpen
    expectedChunks : ℕ) : Result CpuRecursiveWitnessUnitPlan := do
  ensure (¬ (numPositionsPerBlock = 0 ∨ numDigitsInner = 0 ∨ numDigitsFold = 0 ∨ expectedChunks = 0 ∨
    unit.chunkIndex ≥ expectedChunks)) (.internal "recursive witness unit has malformed Z geometry")
  return ⟨unit, numPositionsPerBlock, numDigitsInner, numDigitsFold, logBasisOpen, expectedChunks⟩

/-- The response that a unit emits: the global one, or that of its chunk. -/
def CpuAcceptedFold.centeredFor (fold : CpuAcceptedFold) (chunkIndex : ℕ) : Result (List ℤ) :=
  match fold.chunks with
  | none =>
    if chunkIndex = 0 then .ok fold.centeredCoeffsFlat
    else .error (.internal ("unchunked fold Z chunk index mismatch: expected 1, actual " ++ toString (chunkIndex + 1)))
  | some chunks => okOr chunks[chunkIndex]? (.internal ("retained fold Z chunk index mismatch: expected " ++
      toString chunks.length ++ ", actual " ++ toString (chunkIndex + 1)))

def CpuAcceptedFold.emitZPlanes (fold : CpuAcceptedFold) (D : ℕ) (plan : CpuRecursiveWitnessUnitPlan) (out : S) : Result S := do
  fold.ensureRingDim D
  let actualChunks := (fold.chunks.map (·.length)).getD 1
  ensure (actualChunks = plan.expectedChunks) (.internal ("retained fold chunk count mismatch: expected " ++
    toString plan.expectedChunks ++ ", actual " ++ toString actualChunks))
  let centered ← fold.centeredFor plan.unit.chunkIndex
  ensure (centered.length % D = 0)
    (.internal ("fold Z row width mismatch: expected " ++ toString D ++ ", actual " ++ toString centered.length))
  let rows := Lib.chunks D centered
  let _ ← okOr (checkedMul usizeBits rows.length plan.numDigitsFold) (.internal "Z plane count overflow")
  let planes ← rows.mapM fun row => balancedDecomposeCenteredI32I8Into row plan.numDigitsFold plan.logBasisOpen
  let planes := planes.flatten
  let expectedPlanes ← okOr (do
    let count ← checkedMul usizeBits plan.numPositionsPerBlock plan.numDigitsInner
    checkedMul usizeBits count plan.numDigitsFold) (.internal "witness Z plane count overflow")
  let range := plan.unit.zRange
  ensure (¬ (planes.length ≠ expectedPlanes ∨ planes.flatten.length ≠ range.len))
    (.internal ("fold Z plane extent mismatch: expected " ++ toString range.len ++ ", actual " ++ toString planes.flatten.length))
  write out range.start planes.flatten

/-! ## Units -/

inductive RingRole
  | inner
  | outer
  | opening
  deriving DecidableEq

/-- The arms of `dispatch_for_field` for a role, by `protocol_dispatch_tier`. -/
def roleArms (modulusBits : ℕ) : RingRole → List ℕ
  | .inner => if modulusBits ≤ 64 then [64, 128, 256, 512, 1024, 2048] else [64, 128, 256, 512, 1024]
  | .outer => [64, 128, 256]
  | .opening => [64, 128, 256]

/-- `dispatch_for_field` of a role dimension. -/
def dispatchForField (modulusBits : ℕ) (role : RingRole) (d : ℕ) : Result Unit := ensure (d ∈ roleArms modulusBits role)
    (.invalidSetup ("unsupported ring dimension " ++ toString d ++ " for this role/tier dispatch table"))

/-- The fields of `PreparedRingSwitchGroup` that the emission reads; the opening basis is one of its parameters. -/
structure PreparedRingSwitchGroup where
  params : GroupOpenPhaseParams
  logBasisOpen : ℕ
  roleDims : CommitmentRingDims
  eHat : DigitBlocks
  tHat : DigitBlocks
  fold : CpuAcceptedFold

def buildWitnessUnit (modulusBits : ℕ) (unit : WitnessUnitLayout) (group : PreparedRingSwitchGroup) (numClaims expectedChunks : ℕ)
    (out : S) : Result S := do
  dispatchForField modulusBits .inner group.roleDims.inner
  let plan ← CpuRecursiveWitnessUnitPlan.new unit group.params.numPositionsPerBlock group.params.numDigitsInner
    group.params.numDigitsFold group.logBasisOpen expectedChunks
  ensure (plan.expectedChunks = group.fold.manifestNumChunks)
    (.internal "recursive witness unit disagrees with the accepted manifest")
  let out ← group.fold.emitZPlanes write group.roleDims.inner plan out
  dispatchForField modulusBits .opening group.roleDims.opening
  let out ← emitWitnessEPlanes write group.roleDims.opening unit unit.eGeometry.physicalCoefficientWidth numClaims
    group.params.numDigitsOpen group.eHat group.params.numLiveBlocks out
  dispatchForField modulusBits .inner group.roleDims.inner
  dispatchForField modulusBits .outer group.roleDims.outer
  emitWitnessTPlanes write group.roleDims.inner group.roleDims.outer unit numClaims group.params.aRowsLen
    group.params.numDigitsOuter group.tHat group.params.numLiveBlocks out

/-! ## The tail -/

/-- `CHUNK` of `emit_packed_negative_binary`. -/
def packedChunk : ℕ := 4096

/-- The maps of a packed stage and of a span agree, in the fields that the layout keeps. -/
def sameMap (packed : Compression.CompressionMapPlan) (span : CompressionMapPlan) : Prop :=
  packed.inputCoefficients = span.inputCoefficients ∧ packed.ringDimension = span.ringDimension ∧
    packed.inputWidth = span.inputWidth

instance (packed : Compression.CompressionMapPlan) (span : CompressionMapPlan) : Decidable (sameMap packed span) :=
  inferInstanceAs (Decidable (_ ∧ _))

/-- The digits of one pass of `emit_packed_negative_binary`. -/
def packedDigits (packed : PackedNegativeBinary) (written count : ℕ) : Result (List ℤ) :=
  (List.range count).mapM fun offset =>
    let linear := written + offset
    if linear < packed.map.realDigitCount then do
      let byte ← okOr packed.bytes[linear / 8]? indexOutOfBounds
      return if byte.toNat.testBit (linear % 8) then -1 else 0
    else .ok 0

def emitPackedNegativeBinary (span : CompressionWitnessSpan) (packed : PackedNegativeBinary) (out : S) : Result S := do
  ensure (¬ (¬ sameMap packed.map span.map ∨ span.range.len ≠ packed.map.paddedDigitCount))
    (.internal "packed compression witness map or extent differs from its span")
  (List.range ((span.range.len + packedChunk - 1) / packedChunk)).foldlM (fun out pass => do
    let written := pass * packedChunk
    let scratch ← packedDigits packed written (min packedChunk (span.range.len - written))
    write out (span.range.start + written) scratch) out

inductive CompressionSourceId
  | outer (groupIndex : ℕ)
  | opening
  deriving DecidableEq

/-- The fields of `CompressionSourceWitness` that the emission reads. -/
structure CompressionSourceWitness where
  id : CompressionSourceId
  witness : CompressionChainWitness

structure CompressionWitnessMaterialization where
  sources : List CompressionSourceWitness

def CompressionWitnessMaterialization.source (compression : CompressionWitnessMaterialization) (id : CompressionSourceId) :
    Result CompressionSourceWitness :=
  okOr (compression.sources.find? fun source => source.id = id) (.internal "compression source is missing")

def CompressionWitnessLayerLayout.spanOf (layer : CompressionWitnessLayerLayout) : CompressionSourceId → Result CompressionWitnessSpan
  | .outer groupIndex => okOr ((layer.fSpans.find? fun entry => entry.1 = groupIndex).map (·.2))
      (.internal "outer compression witness event refers to a missing group span")
  | .opening => .ok layer.hSpan

def emitCompressionWitnessEvent (layout : WitnessLayout) (compression : CompressionWitnessMaterialization)
    (source : CompressionSourceId) (mapIndex : ℕ) (out : S) : Result S := do
  let layer ← okOr layout.compressionLayers[mapIndex]? (.internal "compression witness event refers to a missing layout layer")
  let span ← layer.spanOf source
  let material ← compression.source source
  let packed ← okOr material.witness.stages[mapIndex]?
    (.internal "compression witness event refers to a missing packed stage")
  emitPackedNegativeBinary write span packed out

structure RelationQuotientRow (F : Type) where
  geometry : RelationRowGeometry
  coefficients : List F

def computeNumDigitsFieldWidth (fieldBits logBasis : ℕ) : Result ℕ := do
  ensure (logBasis > 0 ∧ logBasis < 128) (.internal "invalid log_basis")
  return if fieldBits = 0 then 1 else max ((fieldBits + logBasis - 1) / logBasis) 1

inductive WitnessTailEvent
  | quotient (rowIndex : ℕ)
  | compression (source : CompressionSourceId) (mapIndex : ℕ)
  deriving DecidableEq

/-- The tail events with their addresses, before they are sorted. -/
def witnessTailEvents (layout : WitnessLayout) : List (ℕ × WitnessTailEvent) :=
  layout.rRows.zipIdx.map (fun entry => (entry.1.range.start, .quotient entry.2)) ++
    layout.compressionLayers.flatMap fun layer =>
      layer.fSpans.map (fun entry => (entry.2.range.start, .compression (.outer entry.1) layer.mapIndex)) ++
        [(layer.hSpan.range.start, .compression .opening layer.mapIndex)]

section

variable {F : Type} [Ring F] (toU128Checked : CanonicalU128 F)

def quotientDigits (coefficients : List F) (row : WitnessQuotientRowLayout) (params : BalancedDecomposePow2Params) :
    Result (List ℤ) := do
  let expectedLen ← okOr (Checked.product [params.levels, row.geometry.physicalCoefficientWidth])
    (.internal "R witness row length overflow")
  ensure (row.range.len = expectedLen) (.internal ("quotient tail row extent mismatch: expected " ++ toString expectedLen ++
    ", actual " ++ toString row.range.len))
  ensure (coefficients.length = row.geometry.physicalCoefficientWidth) (.internal ("quotient tail row width mismatch: expected " ++
    toString row.geometry.physicalCoefficientWidth ++ ", actual " ++ toString coefficients.length))
  okOr (balancedDecomposeCoefficientsPow2I8Into toU128Checked coefficients (List.replicate expectedLen 0) params)
    (.internal "balanced decomposition of quotient coefficients")

/-- One quotient event of `emit_witness_tail`. -/
def emitQuotientEvent (layout : WitnessLayout) (r : List (RelationQuotientRow F)) (params : BalancedDecomposePow2Params)
    (rowIndex : ℕ) (out : S) : Result S := do
  let row ← okOr r[rowIndex]? (.internal "quotient witness tail event refers to a missing row")
  let rowLayout ← okOr layout.rRows[rowIndex]? (.internal "quotient witness tail event refers to a missing row layout")
  ensure (rowLayout.geometry = row.geometry) (.internal ("quotient tail row geometry mismatch: expected " ++
    toString rowLayout.geometry.physicalCoefficientWidth ++ ", actual " ++ toString row.coefficients.length))
  let digits ← quotientDigits toU128Checked row.coefficients rowLayout params
  write out rowLayout.range.start digits

def emitWitnessTail (layout : WitnessLayout) (r : List (RelationQuotientRow F)) (levels logBasis : ℕ)
    (compression : Option CompressionWitnessMaterialization) (out : S) : Result S := do
  ensure (¬ (layout.rRows.length ≠ r.length ∨ layout.quotientDepth.map (fun depth : ℕ+ => (depth : ℕ)) ≠ some levels))
    (.internal "quotient witness row count or depth differs from its layout")
  let params ← okOr (BalancedDecomposePow2Params.new toU128Checked levels logBasis) (.internal "balanced decomposition parameters")
  let events := (witnessTailEvents layout).mergeSort fun s t => decide (s.1 ≤ t.1)
  events.foldlM (fun out entry =>
    match entry.2 with
    | .quotient rowIndex => emitQuotientEvent write toU128Checked layout r params rowIndex out
    | .compression source mapIndex => do
      let compression ← okOr compression (.internal "quotient witness tail compression material is missing")
      emitCompressionWitnessEvent write layout compression source mapIndex out) out

end

def emitReducedWitnessTail (layout : WitnessLayout) (compression : Option CompressionWitnessMaterialization) (out : S) :
    Result S := do
  ensure (¬ (layout.rRows ≠ [] ∨ layout.quotientDepth.isSome))
    (.internal "reduced witness tail unexpectedly contains quotient rows or depth")
  layout.compressionLayers.foldlM (fun out layer => do
    let compression ← okOr compression (.internal "reduced witness tail compression material is missing")
    let out ← layer.fSpans.foldlM (fun out entry =>
      emitCompressionWitnessEvent write layout compression (.outer entry.1) layer.mapIndex out) out
    emitCompressionWitnessEvent write layout compression .opening layer.mapIndex out) out

inductive PreparedWitnessTail (F : Type)
  | quotientLift (r : List (RelationQuotientRow F))
  | reducedEvaluation

/-- What the emission reads beside the layout: the prepared groups, the tail, the compression material, the width of
the field and the opening basis of the level. -/
structure WitnessInputs (F : Type) where
  owned : List PreparedRingSwitchGroup
  tail : PreparedWitnessTail F
  compression : Option CompressionWitnessMaterialization
  modulusBits : ℕ
  logBasisOpen : ℕ

section

variable {F : Type} [Ring F] (toU128Checked : CanonicalU128 F) (batch : OpeningClaimsLayout) (layout : WitnessLayout)
  (inputs : WitnessInputs F)

/-- The emission of `cpu_recursive_witness_build`: the units, then the tail. -/
def emitWitness (out : S) : Result S := do
  let out ← layout.units.foldlM (fun out unit => do
    let groupLayout ← batch.groupLayout unit.groupIndex
    let group ← okOr inputs.owned[unit.groupIndex]? indexOutOfBounds
    buildWitnessUnit write inputs.modulusBits unit group groupLayout.numPolynomials (layout.numChunksForGroup unit.groupIndex) out) out
  match inputs.tail with
  | .quotientLift r => do
    let levels ← computeNumDigitsFieldWidth inputs.modulusBits inputs.logBasisOpen
    emitWitnessTail write toU128Checked layout r levels inputs.logBasisOpen inputs.compression out
  | .reducedEvaluation => emitReducedWitnessTail write layout inputs.compression out

end

end emit

/-- The checks of `RecursiveWitnessFlat::from_witness_layout`. -/
def fromWitnessLayout (digits : PackedSignedDigits) (layout : WitnessLayout) (logBasis : ℕ) : Result PackedSignedDigits := do
  ensure (digits.len = layout.liveCoeffLen) (.internal ("generated recursive witness length mismatch: expected " ++
    toString layout.liveCoeffLen ++ ", actual " ++ toString digits.len))
  ensure (digits.bounds.fitsBalancedLogBasis logBasis)
    (.internal "recursive witness contains digits outside its declared balanced basis")
  return digits

/-- `cpu_recursive_witness_build` from the prepared groups on, at the widest basis `witnessLogBasis` of the level. -/
def cpuRecursiveWitnessBuild {F : Type} [Ring F] (toU128Checked : CanonicalU128 F) (batch : OpeningClaimsLayout)
    (layout : WitnessLayout) (inputs : WitnessInputs F) (witnessLogBasis : ℕ) : Result PackedSignedDigits := do
  ensure (witnessLogBasis < 256) (.internal "recursive witness basis does not fit i8 storage")
  let out ← PackedSignedDigitWriter.new layout.liveCoeffLen witnessLogBasis
  let out ← emitWitness PackedSignedDigitWriter.writeAt toU128Checked batch layout inputs out
  ensure (¬ out.position > layout.liveCoeffLen) (.internal ("recursive witness writer exceeded its extent: expected " ++
    toString layout.liveCoeffLen ++ ", actual " ++ toString out.position))
  let out ← out.finish
  fromWitnessLayout out layout witnessLogBasis

end Akita.Witness
