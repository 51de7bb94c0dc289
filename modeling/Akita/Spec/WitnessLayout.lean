import Akita.Lib.Tiling
import Akita.Spec.RelationLayout

/-!
# Witness layout

`akita-params/src/witness.rs` with `witness/tail.rs` and `witness/chunk_partition.rs`: the physical
coefficient ranges of one level's witness. A running cursor places the chunk-major
`[Z | E | T]` units, the ordinary quotient rows and, in compressed mode, two layers of F and H spans
with their quotient rows; alignment gaps are ranges of their own.

The derivation of the relation geometry from the level, `RelationWitnessGeometry::for_level`, is the
parameter `forLevel`: the constructor only compares its result with the geometry it was given.
-/

namespace Akita.Witness

open Lib (Span)

def maxWitnessChunks : ℕ := 64

structure PolynomialGroupLayout where
  numVars : ℕ
  numPolynomials : ℕ
  deriving DecidableEq, Repr

structure OpeningClaimsLayout where
  groups : List PolynomialGroupLayout
  deriving DecidableEq, Repr

namespace OpeningClaimsLayout

variable (batch : OpeningClaimsLayout)

def numGroups : ℕ := batch.groups.length

def check : Result Unit := do
  let total ← okOr (Checked.sum (batch.groups.map (·.numPolynomials)))
    (.invalidInput "opening layout polynomial count overflows usize")
  ensure (¬ (batch.groups = [] ∨ total = 0)) (.invalidInput "opening claim layout must be nonempty")
  batch.groups.forM fun group => ensure (group.numPolynomials ≠ 0) (.invalidSetup "opening group layouts must be nonempty")

def groupLayout (g : ℕ) : Result PolynomialGroupLayout :=
  okOr batch.groups[g]? (.invalidInput "opening layout group index is out of range")

def rootFinalGroupIndex : Result ℕ := do
  batch.check
  okOr (checkedSub batch.groups.length 1) (.internal "validated opening layout has no final group")

/-- `root_group_order`: the final group first. -/
def rootGroupOrder : Result (List ℕ) := do
  let finalGroupIndex ← batch.rootFinalGroupIndex
  return finalGroupIndex :: (List.range batch.numGroups).filter (· ≠ finalGroupIndex)

end OpeningClaimsLayout

/-- The fields of `GroupOpenPhaseParams` that the layout reads. -/
structure GroupOpenPhaseParams where
  numLiveBlocks : ℕ
  numPositionsPerBlock : ℕ
  numDigitsInner : ℕ
  numDigitsOuter : ℕ
  numDigitsOpen : ℕ
  numDigitsFold : ℕ
  aRowsLen : ℕ
  innerRingDimension : ℕ
  outerRingDimension : ℕ
  deriving DecidableEq, Repr

/-- `role_dims`: the group's dimensions with the shared D dimension. -/
def GroupOpenPhaseParams.roleDims (params : GroupOpenPhaseParams) (sharedOpening : ℕ) : CommitmentRingDims :=
  ⟨params.innerRingDimension, params.outerRingDimension, sharedOpening⟩

inductive CommitmentPayloadMode
  | compressed
  | raw
  deriving DecidableEq, Repr

def CommitmentPayloadMode.isCompressed : CommitmentPayloadMode → Bool
  | compressed => true
  | raw => false

inductive RingRelationMode
  | quotientLift
  | reducedEvaluation
  deriving DecidableEq, Repr

/-- The fields of `CommittedGroupParams` that the layout reads. -/
structure CommittedGroupParams where
  preceding : List GroupOpenPhaseParams
  ownGroup : GroupOpenPhaseParams
  openRingDimension : ℕ
  payloadMode : CommitmentPayloadMode
  ringRelationMode : RingRelationMode
  successorBlockLen : Option ℕ
  witnessChunkEnds : List ℕ
  deriving DecidableEq, Repr

def alignUp (value alignment : ℕ) : Option ℕ :=
  if isPowerOfTwo alignment = false then none
  else if value % alignment = 0 then some value
  else checkedAdd usizeBits value (alignment - value % alignment)

def witnessRange (start len : ℕ) (context : String) : Result Span := do
  let stop ← okOr (checkedAdd usizeBits start len) (.invalidSetup context)
  return ⟨start, stop⟩

def alignWitnessOffset (value alignment : ℕ) (context : String) : Result ℕ :=
  okOr (alignUp value alignment) (.invalidSetup
    (if isPowerOfTwo alignment then context else "witness alignment must be a nonzero power of two"))

section

def boundaryOverflow : AkitaError := .invalidSetup "dyadic block partition boundary overflow"

/-- The boundary of `dyadic_block_ranges` at `index`. -/
def dyadicBoundary (numLiveBlocks numParts index : ℕ) : Result ℕ := do
  let baseOffset ← okOr (checkedMul usizeBits (numLiveBlocks / numParts) index) boundaryOverflow
  let remainderOffset ← okOr (checkedMul usizeBits (numLiveBlocks % numParts) index) boundaryOverflow
  okOr (checkedAdd usizeBits baseOffset (remainderOffset / numParts)) boundaryOverflow

def dyadicBlockRanges (numLiveBlocks numParts : ℕ) : Result (List Span) := do
  ensure (¬ (numParts = 0 ∨ numParts > maxWitnessChunks ∨ numLiveBlocks = 0))
    (.invalidSetup "dyadic block partition geometry is malformed")
  ensure (isPowerOfTwo numParts) (.invalidSetup "dyadic block partition count must be a power of two")
  let ranges ← (List.range numParts).mapM fun partIndex => do
    let start ← dyadicBoundary numLiveBlocks numParts partIndex
    let stop ← dyadicBoundary numLiveBlocks numParts (partIndex + 1)
    ensure (¬ start > stop) (.invalidSetup "dyadic block partition boundaries are not ordered")
    return Span.mk start stop
  ensure (¬ (ranges.head?.map (·.start) ≠ some 0 ∨ ranges.getLast?.map (·.stop) ≠ some numLiveBlocks))
    (.invalidSetup "dyadic block partition does not cover the live blocks")
  return ranges

def inheritedRanges : ℕ → List ℕ → Result (List Span)
  | _, [] => .ok []
  | start, stop :: ends => do
    ensure (¬ stop < start) (.invalidSetup "inherited witness partition is unordered")
    return ⟨start, stop⟩ :: (← inheritedRanges stop ends)

def CommittedGroupParams.witnessBlockRanges (lp : CommittedGroupParams) (groupIndex numChunks : ℕ) : Result (List Span) := do
  let params ← okOr (if groupIndex = lp.preceding.length then some lp.ownGroup else lp.preceding[groupIndex]?)
    (.invalidSetup "missing witness group")
  if groupIndex ≠ lp.preceding.length ∨ lp.witnessChunkEnds = [] then dyadicBlockRanges params.numLiveBlocks numChunks
  else do
    ensure (¬ (lp.witnessChunkEnds.length ≠ numChunks ∨ isPowerOfTwo numChunks = false ∨ numChunks > maxWitnessChunks ∨
      lp.witnessChunkEnds.getLast? ≠ some params.numLiveBlocks)) (.invalidSetup "inherited witness partition has wrong extent")
    inheritedRanges 0 lp.witnessChunkEnds

end

structure WitnessUnitLayout where
  groupIndex : ℕ
  chunkIndex : ℕ
  globalBlockStart : ℕ
  numLiveBlocks : ℕ
  zRange : Span
  eRange : Span
  eGeometry : RelationRowGeometry
  tRange : Span
  deriving DecidableEq, Repr

structure WitnessQuotientRowLayout where
  geometry : RelationRowGeometry
  range : Span
  deriving DecidableEq, Repr

/-- `RelationQuotientLayout`; the depth is a `NonZeroUsize`. -/
inductive RelationQuotientLayout
  | quotientLift (quotientDepth : ℕ+) (rows : List WitnessQuotientRowLayout)
  | reducedEvaluation
  deriving DecidableEq

structure CompressionWitnessSpan where
  map : CompressionMapPlan
  range : Span
  deriving DecidableEq

structure CompressionWitnessLayerLayout where
  mapIndex : ℕ
  fSpans : List (ℕ × CompressionWitnessSpan)
  hSpan : CompressionWitnessSpan
  fQuotientRows : Option (List (ℕ × ℕ))
  hQuotientRow : Option ℕ
  deriving DecidableEq

inductive RelationQuotientPlan
  | quotientLift (quotientDepth : ℕ+)
  | reducedEvaluation
  deriving DecidableEq

namespace RelationQuotientPlan

def validateMode (plan : RelationQuotientPlan) (mode : RingRelationMode) : Result Unit :=
  match plan, mode with
  | quotientLift _, .quotientLift | reducedEvaluation, .reducedEvaluation => .ok ()
  | _, _ => .error (.invalidSetup "witness quotient plan disagrees with the authenticated relation mode")

def quotientDepth : RelationQuotientPlan → Option ℕ+
  | quotientLift depth => some depth
  | reducedEvaluation => none

def rowFamilies (plan : RelationQuotientPlan) (layout : RelationRhsLayout) : Result (List RelationRowFamily) :=
  if plan.quotientDepth.isSome then layout.rowFamilies else .ok []

end RelationQuotientPlan

structure MaterializingTailSink where
  cursor : ℕ
  compressionLayers : List CompressionWitnessLayerLayout
  compressionAlignmentRanges : List Span
  quotientRows : List (Option WitnessQuotientRowLayout)
  currentFSpans : List (ℕ × CompressionWitnessSpan)
  currentFQuotientRows : List (ℕ × ℕ)
  currentHSpan : Option CompressionWitnessSpan

structure MaterializedWitnessTail where
  compressionLayers : List CompressionWitnessLayerLayout
  compressionAlignmentRanges : List Span
  relationQuotients : RelationQuotientLayout
  stop : ℕ

def collectQuotientRows : ℕ → List (Option WitnessQuotientRowLayout) → Result (List WitnessQuotientRowLayout)
  | _, [] => .ok []
  | rowIndex, row :: rows => do
    let row ← okOr row (.invalidSetup ("witness quotient row " ++ toString rowIndex ++ " was not placed"))
    return row :: (← collectQuotientRows (rowIndex + 1) rows)

namespace MaterializingTailSink

def new (start : ℕ) : MaterializingTailSink := ⟨start, [], [], [], [], [], none⟩

variable (sink : MaterializingTailSink)

def prepareQuotientRows (rowCount : ℕ) : MaterializingTailSink := { sink with quotientRows := List.replicate rowCount none }

def align (alignment : ℕ) (overflow : String) : Result MaterializingTailSink := do
  let aligned ← alignWitnessOffset sink.cursor alignment overflow
  return if aligned ≠ sink.cursor then
    { sink with
      compressionAlignmentRanges := sink.compressionAlignmentRanges ++ [⟨sink.cursor, aligned⟩]
      cursor := aligned }
  else sink

def placeFSpan (groupIndex : ℕ) (map : CompressionMapPlan) : Result MaterializingTailSink := do
  let range ← witnessRange sink.cursor map.paddedDigitCount "witness F range overflow"
  return { sink with cursor := range.stop, currentFSpans := sink.currentFSpans ++ [(groupIndex, ⟨map, range⟩)] }

def placeHSpan (map : CompressionMapPlan) : Result MaterializingTailSink := do
  let range ← witnessRange sink.cursor map.paddedDigitCount "witness H range overflow"
  return { sink with cursor := range.stop, currentHSpan := some ⟨map, range⟩ }

def placeQuotientRow (rowIndex : ℕ) (geometry : RelationRowGeometry) (quotientDepth : ℕ+) (widthOverflow rangeOverflow : String) :
    Result MaterializingTailSink := do
  let len ← okOr (checkedMul usizeBits quotientDepth geometry.physicalCoefficientWidth) (.invalidSetup widthOverflow)
  let range ← witnessRange sink.cursor len rangeOverflow
  ensure (rowIndex < sink.quotientRows.length) (.invalidSetup "witness quotient row index is invalid")
  return { sink with cursor := range.stop, quotientRows := sink.quotientRows.set rowIndex (some ⟨geometry, range⟩) }

def recordFQuotientRow (groupIndex rowIndex : ℕ) : MaterializingTailSink :=
  { sink with currentFQuotientRows := sink.currentFQuotientRows ++ [(groupIndex, rowIndex)] }

def finishCompressionLayer (mapIndex : ℕ) (hQuotientRow : Option ℕ) (plan : RelationQuotientPlan) :
    Result MaterializingTailSink := do
  let hSpan ← okOr sink.currentHSpan (.invalidSetup "compression H witness span is missing")
  ensure (¬ (plan.quotientDepth.isSome ∧ sink.currentFQuotientRows.length ≠ sink.currentFSpans.length))
    (.invalidSetup "compression F quotient ownership disagrees with witness spans")
  let layer : CompressionWitnessLayerLayout :=
    { mapIndex := mapIndex
      fSpans := sink.currentFSpans
      hSpan := hSpan
      fQuotientRows := if plan.quotientDepth.isSome then some sink.currentFQuotientRows else none
      hQuotientRow := hQuotientRow }
  return { sink with
    compressionLayers := sink.compressionLayers ++ [layer]
    currentFSpans := []
    currentFQuotientRows := []
    currentHSpan := none }

def finishQuotients : RelationQuotientPlan → Result RelationQuotientLayout
  | .quotientLift quotientDepth => do return .quotientLift quotientDepth (← collectQuotientRows 0 sink.quotientRows)
  | .reducedEvaluation => .ok .reducedEvaluation

def finish (plan : RelationQuotientPlan) : Result MaterializedWitnessTail := do
  let relationQuotients ← sink.finishQuotients plan
  return ⟨sink.compressionLayers, sink.compressionAlignmentRanges, relationQuotients, sink.cursor⟩

end MaterializingTailSink

section

variable (params : CommittedGroupParams) (layout : RelationRhsLayout) (numGroups : ℕ) (plan : RelationQuotientPlan)
  (rowFamilies : List RelationRowFamily)

def placeOrdinaryRows (rows : List RelationRowFamily) (quotientDepth : ℕ+) (sink : MaterializingTailSink) :
    Result MaterializingTailSink := rows.zipIdx.foldlM (fun sink (row, rowIndex) =>
    sink.placeQuotientRow rowIndex row.geometry quotientDepth "witness R width overflow" "witness R range overflow") sink

def placeOrdinary (sink : MaterializingTailSink) : Result MaterializingTailSink :=
  match plan.quotientDepth with
  | none => .ok sink
  | some quotientDepth => placeOrdinaryRows (rowFamilies.take (rowFamilies.findIdx (·.isCompression))) quotientDepth
      (sink.prepareQuotientRows rowFamilies.length)

def layerAlignment (mapIndex : Fin compressionMapCount) : Result ℕ := do
  let opening ← layout.openingCompressionPlan
  (List.range numGroups).foldlM (fun alignment relationGroupIndex => do
    let (_, groupPlan) ← layout.groupCompressionPlan relationGroupIndex
    return max alignment (groupPlan.maps mapIndex).ringDimension) (opening.maps mapIndex).ringDimension

def placeFSpans (mapIndex : Fin compressionMapCount) (sink : MaterializingTailSink) : Result MaterializingTailSink :=
  (List.range numGroups).foldlM (fun sink relationGroupIndex => do
    let (groupIndex, groupPlan) ← layout.groupCompressionPlan relationGroupIndex
    sink.placeFSpan groupIndex (groupPlan.maps mapIndex)) sink

/-- The row of a compression map at `offset` within its layer. -/
def compressionRow (mapIndex : Fin compressionMapCount) (offset : ℕ) (missing : String) :
    Result (ℕ × RelationRowFamily) := do
  let rowIndex ← okOr (checkedAdd usizeBits (rowFamilies.findIdx (·.isCompression)) (mapIndex * (numGroups + 1) + offset))
    (.invalidSetup "compression quotient index overflow")
  let row ← okOr rowFamilies[rowIndex]? (.invalidSetup missing)
  return (rowIndex, row)

/-- The group and geometry of an F row of the layer. -/
def expectF (mapIndex : Fin compressionMapCount) : RelationRowFamily → Result (ℕ × RelationRowGeometry)
  | .compressionF groupIndex rowMapIndex geometry =>
    if rowMapIndex = mapIndex then .ok (groupIndex, geometry)
    else .error (.invalidSetup "compression F quotient order disagrees with relation rows")
  | _ => .error (.invalidSetup "compression F quotient order disagrees with relation rows")

def expectH (mapIndex : Fin compressionMapCount) : RelationRowFamily → Result RelationRowGeometry
  | .compressionH rowMapIndex geometry =>
    if rowMapIndex = mapIndex then .ok geometry
    else .error (.invalidSetup "compression H quotient order disagrees with relation rows")
  | _ => .error (.invalidSetup "compression H quotient order disagrees with relation rows")

def placeFQuotientRow (mapIndex : Fin compressionMapCount) (quotientDepth : ℕ+) (sink : MaterializingTailSink)
    (relationGroupIndex : ℕ) : Result MaterializingTailSink := do
  let (rowIndex, row) ← compressionRow numGroups rowFamilies mapIndex relationGroupIndex "compression F quotient row is missing"
  let (groupIndex, geometry) ← expectF mapIndex row
  let (plannedGroupIndex, _) ← layout.groupCompressionPlan relationGroupIndex
  ensure (groupIndex = plannedGroupIndex)
    (.invalidSetup "compression F quotient group disagrees with its compression plan")
  let sink ← sink.placeQuotientRow rowIndex geometry quotientDepth
    "compression quotient width overflow" "compression quotient range overflow"
  return sink.recordFQuotientRow groupIndex rowIndex

def placeLayerQuotientRows (mapIndex : Fin compressionMapCount) (sink : MaterializingTailSink) :
    Result (MaterializingTailSink × Option ℕ) :=
  match plan.quotientDepth with
  | none => .ok (sink, none)
  | some quotientDepth => do
    let sink ← (List.range numGroups).foldlM (placeFQuotientRow layout numGroups rowFamilies mapIndex quotientDepth) sink
    let (hQuotientRow, hRow) ← compressionRow numGroups rowFamilies mapIndex numGroups "compression H quotient row is missing"
    let hGeometry ← expectH mapIndex hRow
    let sink ← sink.placeQuotientRow hQuotientRow hGeometry quotientDepth
      "compression quotient width overflow" "compression quotient range overflow"
    return (sink, some hQuotientRow)

def placeLayer (sink : MaterializingTailSink) (mapIndex : Fin compressionMapCount) : Result MaterializingTailSink := do
  let alignment ← layerAlignment layout numGroups mapIndex
  let sink ← sink.align alignment "compression layer alignment overflow"
  let sink ← placeFSpans layout numGroups mapIndex sink
  let opening ← layout.openingCompressionPlan
  let sink ← sink.placeHSpan (opening.maps mapIndex)
  let (sink, hQuotientRow) ← placeLayerQuotientRows layout numGroups plan rowFamilies mapIndex sink
  sink.finishCompressionLayer mapIndex hQuotientRow plan

def placeCompression (successorAAlignment : ℕ) (sink : MaterializingTailSink) : Result MaterializingTailSink := do
  let relationCoefficientBlock ← layout.relationCoefficientBlockLen
  let sink ← sink.align relationCoefficientBlock "compression witness alignment overflow"
  let sink ← (List.finRange compressionMapCount).foldlM (placeLayer layout numGroups plan rowFamilies) sink
  sink.align successorAAlignment "compression witness suffix alignment overflow"

/-- `tail::materialize`: `resolve` with the materializing sink. -/
def materialize (successorAAlignment start : ℕ) : Result MaterializedWitnessTail := do
  plan.validateMode params.ringRelationMode
  layout.validate
  let rowFamilies ← plan.rowFamilies layout
  let sink ← placeOrdinary plan rowFamilies (.new start)
  if params.payloadMode.isCompressed then do
    let sink ← placeCompression layout numGroups plan rowFamilies successorAAlignment sink
    sink.finish plan
  else sink.finish plan

end

structure WitnessLayout where
  openingBatch : Option OpeningClaimsLayout
  extensionDegree : ℕ
  numChunks : ℕ
  compressionAlignment : ℕ
  tailSuffixAlignment : ℕ
  units : List WitnessUnitLayout
  compressionLayers : List CompressionWitnessLayerLayout
  compressionAlignmentRanges : List Span
  relationQuotients : RelationQuotientLayout
  tailRange : Span
  deriving DecidableEq

/-- The per-group view that the body loops read. -/
structure GroupGeometry where
  groupIndex : ℕ
  params : GroupOpenPhaseParams
  roleDims : CommitmentRingDims
  openingGeometry : RelationRowGeometry
  numClaims : ℕ
  chunkBlockRanges : List Span

structure WitnessBody where
  cursor : ℕ
  units : List WitnessUnitLayout
  alignmentRanges : List Span

def witnessUnitLengths (params : GroupOpenPhaseParams) (roleDims : CommitmentRingDims) (openingGeometry : RelationRowGeometry)
    (numClaims chunkNumLiveBlocks : ℕ) : Result (ℕ × ℕ × ℕ) := do
  let z ← okOr (Checked.product [params.numPositionsPerBlock, params.numDigitsInner, params.numDigitsFold])
    (.invalidSetup "witness Z width overflow")
  let z ← okOr (checkedMul usizeBits z roleDims.inner) (.invalidSetup "witness Z width overflow")
  let e ← okOr (Checked.product [numClaims, chunkNumLiveBlocks, params.numDigitsOpen]) (.invalidSetup "witness E width overflow")
  let e ← okOr (checkedMul usizeBits e openingGeometry.physicalCoefficientWidth) (.invalidSetup "witness E width overflow")
  let t ← okOr (Checked.product [numClaims, chunkNumLiveBlocks, params.aRowsLen, params.numDigitsOuter, roleDims.inner])
    (.invalidSetup "witness T width overflow")
  return (z, e, t)

section

variable (lp : CommittedGroupParams) (batch : OpeningClaimsLayout) (geometry : RelationWitnessGeometry) (numChunks : ℕ)

def groupParams (finalGroupIndex groupIndex : ℕ) : Result (GroupOpenPhaseParams × CommitmentRingDims) :=
  if groupIndex = finalGroupIndex then .ok (lp.ownGroup, lp.ownGroup.roleDims lp.openRingDimension)
  else do
    let params ← okOr lp.preceding[groupIndex]? (.internal "validated witness layout is missing a preceding group")
    return (params, params.roleDims lp.openRingDimension)

/-- One entry of `group_geometry`. -/
def groupGeometry (finalGroupIndex groupIndex : ℕ) : Result GroupGeometry := do
  let (params, roleDims) ← groupParams lp finalGroupIndex groupIndex
  roleDims.validateRoleProjection
  let group ← batch.groupLayout groupIndex
  let openingGeometry ← geometry.groupOpeningGeometry groupIndex
  ensure (¬ (group.numPolynomials = 0 ∨ params.numLiveBlocks = 0 ∨ params.numPositionsPerBlock = 0 ∨ params.numDigitsOpen = 0 ∨
    params.numDigitsInner = 0 ∨ params.numDigitsOuter = 0 ∨ params.numDigitsFold = 0 ∨ params.aRowsLen = 0))
    (.invalidSetup "witness group has malformed dimensions")
  let chunkBlockRanges ← lp.witnessBlockRanges groupIndex numChunks
  return ⟨groupIndex, params, roleDims, openingGeometry, group.numPolynomials, chunkBlockRanges⟩

/-- One `[Z | E | T]` unit. -/
def placeUnit (chunkIndex : ℕ) (body : WitnessBody) (group : GroupGeometry) : Result WitnessBody := do
  let blocks ← okOr group.chunkBlockRanges[chunkIndex]? (.invalidSetup "witness chunk is missing")
  let (zLen, eLen, tLen) ← witnessUnitLengths group.params group.roleDims group.openingGeometry group.numClaims blocks.len
  let zRange ← witnessRange body.cursor zLen "witness Z range overflow"
  let eRange ← witnessRange zRange.stop eLen "witness E range overflow"
  let tRange ← witnessRange eRange.stop tLen "witness T range overflow"
  let unit : WitnessUnitLayout :=
    ⟨group.groupIndex, chunkIndex, blocks.start, blocks.len, zRange, eRange, group.openingGeometry, tRange⟩
  return { body with cursor := tRange.stop, units := body.units ++ [unit] }

def chunkAlignment : ℕ := if numChunks > 1 then lp.successorBlockLen.getD 1 else 1

/-- One chunk: its units in relation order, then its gap. -/
def placeChunk (groups : List GroupGeometry) (body : WitnessBody) (chunkIndex : ℕ) : Result WitnessBody := do
  let body ← groups.foldlM (placeUnit chunkIndex) body
  let aligned ← okOr (alignUp body.cursor (chunkAlignment lp numChunks)) (.invalidSetup "witness chunk alignment overflow")
  return { body with
    cursor := aligned
    alignmentRanges := if aligned ≠ body.cursor then body.alignmentRanges ++ [⟨body.cursor, aligned⟩] else body.alignmentRanges }

/-- The suffix alignment of a compressed tail. -/
def successorAAlignment (groups : List GroupGeometry) : Result ℕ :=
  if batch.numGroups > 1 then
    okOr (groups.map (·.roleDims.inner)).max? (.invalidSetup "witness groups are empty")
  else geometry.rhsLayout.relationCoefficientBlockLen

def WitnessLayout.new (forLevel : CommittedGroupParams → OpeningClaimsLayout → ℕ → Result RelationWitnessGeometry)
    (quotientPlan : RelationQuotientPlan) : Result WitnessLayout := do
  ensure (¬ (batch.numGroups = 0 ∨ numChunks = 0)) (.invalidSetup "witness layout requires non-empty groups and chunks")
  ensure (¬ numChunks > maxWitnessChunks) (.invalidSetup "witness chunk count exceeds verifier cap")
  let expected ← forLevel lp batch geometry.extensionDegree
  ensure (expected = geometry)
    (.invalidSetup "witness layout received relation geometry for different level parameters")
  let order ← batch.rootGroupOrder
  let finalGroupIndex ← batch.rootFinalGroupIndex
  let _ ← okOr (checkedMul usizeBits batch.numGroups numChunks) (.invalidSetup "witness unit count overflow")
  let groups ← order.mapM (groupGeometry lp batch geometry numChunks finalGroupIndex)
  let body ← (List.range numChunks).foldlM (placeChunk lp numChunks groups) ⟨0, [], []⟩
  let suffixAlignment ← successorAAlignment batch geometry groups
  let tail ← materialize lp geometry.rhsLayout batch.numGroups quotientPlan suffixAlignment body.cursor
  let blockLen ← geometry.rhsLayout.relationCoefficientBlockLen
  return {
    openingBatch := some batch
    extensionDegree := geometry.extensionDegree
    numChunks := numChunks
    compressionAlignment := blockLen
    tailSuffixAlignment := suffixAlignment
    units := body.units
    compressionLayers := tail.compressionLayers
    compressionAlignmentRanges := body.alignmentRanges ++ tail.compressionAlignmentRanges
    relationQuotients := tail.relationQuotients
    tailRange := ⟨body.cursor, tail.stop⟩ }

end

namespace WitnessLayout

variable (layout : WitnessLayout)

def rRows : List WitnessQuotientRowLayout :=
  match layout.relationQuotients with
  | .quotientLift _ rows => rows
  | .reducedEvaluation => []

def liveCoeffLen : ℕ := layout.tailRange.stop

def negativeBinarySupportIntervals : List Span :=
  layout.compressionLayers.filterMap fun layer => layer.fSpans.head?.map fun f => ⟨f.2.range.start, layer.hSpan.range.stop⟩

def layerSpans (layer : CompressionWitnessLayerLayout) : List CompressionWitnessSpan := layer.fSpans.map (·.2) ++ [layer.hSpan]

/-- The ranges that `validate_internal_ranges` collects, in its order. -/
def ranges : List Span :=
  layout.units.flatMap (fun unit => [unit.zRange, unit.eRange, unit.tRange]) ++ layout.rRows.map (·.range) ++
    layout.compressionLayers.flatMap (fun layer => (layerSpans layer).map (·.range)) ++ layout.compressionAlignmentRanges

def bodyEnd : ℕ :=
  (((layout.compressionAlignmentRanges.filter fun range => range.start < layout.tailRange.start).map (·.stop) ++
    (layout.units.getLast?.map (·.tRange.stop)).toList).max?).getD 0

/-- The row loop of `validate_internal_ranges`. -/
def validateRows (quotientDepth : ℕ+) : Option ℕ → List WitnessQuotientRowLayout → Result Unit
  | _, [] => .ok ()
  | previousRowEnd, row :: rows => do
    let expectedLen ← okOr (checkedMul usizeBits quotientDepth row.geometry.physicalCoefficientWidth)
      (.invalidSetup "witness R width overflow")
    ensure (¬ (row.range.len ≠ expectedLen ∨ previousRowEnd.any (row.range.start < ·)))
      (.invalidSetup "witness quotient rows are not canonically ordered")
    validateRows quotientDepth (some row.range.stop) rows

/-- The quotient check of `validate_internal_ranges`. -/
def validateQuotients : Result Unit :=
  match layout.relationQuotients with
  | .quotientLift quotientDepth rows => validateRows quotientDepth none rows
  | .reducedEvaluation => .ok ()

/-- The cursor loop of `validate_internal_ranges`. -/
def walk (live : ℕ) : ℕ → List Span → Result ℕ
  | cursor, [] => .ok cursor
  | cursor, range :: rest => do
    ensure (¬ (range.start ≠ cursor ∨ range.stop > live)) (.invalidSetup "witness ranges do not form one exact live partition")
    walk live range.stop rest

def validateInternalRanges : Result Unit := do
  ensure (¬ (layout.tailRange.start ≠ layout.bodyEnd ∨ layout.tailRange.start > layout.tailRange.stop))
    (.invalidSetup "witness tail disagrees with its chunk-major body")
  layout.validateQuotients
  let sorted := (layout.ranges.filter fun range => !range.isEmpty).mergeSort fun s t => decide (s.start ≤ t.start)
  let cursor ← walk layout.liveCoeffLen 0 sorted
  ensure (cursor = layout.liveCoeffLen) (.invalidSetup "witness ranges do not cover the declared live prefix")

end WitnessLayout

end Akita.Witness
