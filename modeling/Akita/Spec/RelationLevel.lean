import Akita.Spec.WitnessLayout

/-!
# Relation geometry of a level

`build_relation_rhs_layout` and `RelationWitnessGeometry::for_level` of
`akita-params/src/layout/relation_rhs_layout.rs`, with the checks of
`SubringCoefficientPackingGeometry::try_new`: the final group first, then the preceding groups in their order.

The parts of a level that the witness layout does not read come beside it; a check of theirs, and a compression
plan derived from them, is given by its outcome.
-/

namespace Akita.Witness

inductive CommittedSourceEncoding
  | canonicalCoefficientTable
  | tensorSubfieldProjection (extensionDegree : ℕ)
  deriving DecidableEq, Repr

/-- What the relation layout reads of a group beside `GroupOpenPhaseParams`. -/
structure RelationGroupParams where
  openingMethod : OpeningMethod
  physicalBRows : ℕ
  outerSliceCount : ℕ
  outerCompressionPlan : Result CompressionChainPlan

/-- What the relation layout reads of a level beside `CommittedGroupParams`. -/
structure RelationLevelParams where
  sourceEncoding : CommittedSourceEncoding
  ownGroup : RelationGroupParams
  precedingGroup : ℕ → RelationGroupParams
  nD : ℕ
  openingCompressionPlan : Result CompressionChainPlan
  /-- `validate_group_topology`. -/
  validateGroupTopology : Result Unit
  /-- The comparison of the opening and the outer basis. -/
  validateBases : Result Unit
  /-- The loop over the preceding groups in `validate_opening_batch_geometry`. -/
  validatePrecedingGroups : OpeningClaimsLayout → Result Unit
  /-- `production_for_ring_dim` with its `validate_for_ring_dim`. -/
  validateChallengeFamily : ℕ → Result Unit

namespace RelationLevelParams

variable (level : RelationLevelParams)

def validateOpeningBatchGeometry (lp : CommittedGroupParams) (batch : OpeningClaimsLayout) : Result ℕ := do
  level.validateGroupTopology
  batch.check
  level.validateBases
  ensure (batch.numGroups = lp.preceding.length + 1) (.invalidSetup "opening group count does not match level params")
  level.validatePrecedingGroups batch
  batch.rootFinalGroupIndex

/-- `SubringCoefficientPackingGeometry::try_new`. -/
def subringPackingGeometry (extensionDegree aRingDimension challengeSubringDimension : ℕ) : Result Unit := do
  ensure (isPowerOfTwo extensionDegree ∧ isPowerOfTwo aRingDimension ∧ isPowerOfTwo challengeSubringDimension)
    (.invalidSetup "subring packing dimensions must be nonzero powers of two")
  level.validateChallengeFamily challengeSubringDimension
  let partialBaseFieldWidth ← okOr (checkedMul usizeBits extensionDegree challengeSubringDimension)
    (.invalidSetup "partial opening width overflow")
  ensure (aRingDimension % partialBaseFieldWidth = 0) (.invalidSetup ("partial opening width " ++
    toString partialBaseFieldWidth ++ " does not divide A ring dimension " ++ toString aRingDimension))
  let _ ← okOr (checkedMul usizeBits extensionDegree (aRingDimension / partialBaseFieldWidth))
    (.invalidSetup "subring embedding stride overflow")
  return ()

def openingRowGeometry (dA : ℕ) (method : OpeningMethod) (encoding : CommittedSourceEncoding) (extensionDegree : ℕ) :
    Result RelationRowGeometry :=
  match method, encoding with
  | .evaluationTrace, .tensorSubfieldProjection encodedDegree =>
    if encodedDegree ≠ extensionDegree then
      .error (.invalidSetup "tensor source encoding does not match the protocol extension degree")
    else RelationRowGeometry.native dA
  | .evaluationTrace, .canonicalCoefficientTable => RelationRowGeometry.native dA
  | .subringCoefficientPacking challengeSubringDimension, .canonicalCoefficientTable => do
    level.subringPackingGeometry extensionDegree dA challengeSubringDimension
    RelationRowGeometry.new challengeSubringDimension extensionDegree
  | .subringCoefficientPacking _, .tensorSubfieldProjection _ =>
    .error (.invalidSetup "coefficient packing requires the canonical coefficient source encoding")

def rowsOf (groupIndex : ℕ) (roleDims : CommitmentRingDims) (openingGeometry : RelationRowGeometry) (params : GroupOpenPhaseParams)
    (group : RelationGroupParams) : RelationGroupRows :=
  ⟨groupIndex, roleDims, openingGeometry, group.openingMethod, params.aRowsLen, group.physicalBRows, group.outerSliceCount⟩

def outerPlan (compressed : Bool) (group : RelationGroupParams) : Result (Option CompressionChainPlan) :=
  if compressed then do return some (← group.outerCompressionPlan) else .ok none

/-- One group of a level with preceding groups: its rows and its plan. -/
def groupEntry (lp : CommittedGroupParams) (extensionDegree groupIndex : ℕ) (params : GroupOpenPhaseParams)
    (group : RelationGroupParams) (encoding : CommittedSourceEncoding) : Result (RelationGroupRows × Option CompressionChainPlan) := do
  let roleDims := params.roleDims lp.openRingDimension
  roleDims.validateRoleProjection
  let openingGeometry ← level.openingRowGeometry params.innerRingDimension group.openingMethod encoding extensionDegree
  let plan ← outerPlan lp.payloadMode.isCompressed group
  return (rowsOf groupIndex roleDims openingGeometry params group, plan)

def scalarEntries (lp : CommittedGroupParams) (batch : OpeningClaimsLayout) (extensionDegree : ℕ) :
    Result (List (RelationGroupRows × Option CompressionChainPlan)) := do
  let roleDims := lp.ownGroup.roleDims lp.openRingDimension
  roleDims.validateRoleProjection
  let groupIndices ← batch.rootGroupOrder
  let openingGeometry ← level.openingRowGeometry lp.ownGroup.innerRingDimension level.ownGroup.openingMethod level.sourceEncoding
    extensionDegree
  let plan ← outerPlan lp.payloadMode.isCompressed level.ownGroup
  return groupIndices.map fun groupIndex => (rowsOf groupIndex roleDims openingGeometry lp.ownGroup level.ownGroup, plan)

def groupedEntries (lp : CommittedGroupParams) (finalGroupIndex extensionDegree : ℕ) :
    Result (List (RelationGroupRows × Option CompressionChainPlan)) := do
  let final ← level.groupEntry lp extensionDegree finalGroupIndex lp.ownGroup level.ownGroup level.sourceEncoding
  let preceding ← lp.preceding.zipIdx.mapM fun entry =>
    level.groupEntry lp extensionDegree entry.2 entry.1 (level.precedingGroup entry.2) .canonicalCoefficientTable
  return final :: preceding

def buildRelationRhsLayout (lp : CommittedGroupParams) (batch : OpeningClaimsLayout) (extensionDegree : ℕ) :
    Result RelationRhsLayout := do
  let finalGroupIndex ← level.validateOpeningBatchGeometry lp batch
  let openingPlan ← (if lp.payloadMode.isCompressed then do return some (← level.openingCompressionPlan) else .ok none :
    Result (Option CompressionChainPlan))
  let entries ← (if lp.preceding = [] then level.scalarEntries lp batch extensionDegree
    else level.groupedEntries lp finalGroupIndex extensionDegree : Result (List (RelationGroupRows × Option CompressionChainPlan)))
  let layout : RelationRhsLayout :=
    { dRingDimension := lp.openRingDimension
      nD := level.nD
      groups := entries.map (·.1)
      compression := openingPlan.map fun plan => ⟨entries.map (·.1.groupIndex), entries.filterMap (·.2), plan⟩ }
  layout.validate
  return layout

def forLevel (lp : CommittedGroupParams) (batch : OpeningClaimsLayout) (extensionDegree : ℕ) : Result RelationWitnessGeometry := do
  ensure (isPowerOfTwo extensionDegree) (.invalidSetup "relation witness extension degree must be a nonzero power of two")
  return ⟨extensionDegree, ← level.buildRelationRhsLayout lp batch extensionDegree⟩

end RelationLevelParams

/-!
## Measured witness lengths

`TailSink` and `measure` of `akita-params/src/witness/tail.rs` and `scalar_live_coeff_len` of
`witness/scalar_len.rs`: the tail is resolved against a sink, which either places its ranges or only keeps the
cursor, and the planner measures the witness of a single group without placing it.
-/

open Lib (Span)

/-! ### Tail sinks -/

/-- `TailSink`, with the state and the output of an implementation. -/
structure TailSink (S Output : Type) where
  prepareQuotientRows : S → ℕ → S
  align : S → ℕ → String → Result S
  placeFSpan : S → ℕ → CompressionMapPlan → Result S
  placeHSpan : S → CompressionMapPlan → Result S
  placeQuotientRow : S → ℕ → RelationRowGeometry → ℕ+ → String → String → Result S
  recordFQuotientRow : S → ℕ → ℕ → S
  finishCompressionLayer : S → ℕ → Option ℕ → RelationQuotientPlan → Result S
  finish : S → RelationQuotientPlan → Result Output

/-- `impl TailSink for MaterializingTailSink`. -/
def materializingTailSink : TailSink MaterializingTailSink MaterializedWitnessTail where
  prepareQuotientRows := MaterializingTailSink.prepareQuotientRows
  align := MaterializingTailSink.align
  placeFSpan := MaterializingTailSink.placeFSpan
  placeHSpan := MaterializingTailSink.placeHSpan
  placeQuotientRow := MaterializingTailSink.placeQuotientRow
  recordFQuotientRow := MaterializingTailSink.recordFQuotientRow
  finishCompressionLayer := MaterializingTailSink.finishCompressionLayer
  finish := MaterializingTailSink.finish

/-- `impl TailSink for MeasuringTailSink`; the state is its cursor. -/
def measuringTailSink : TailSink ℕ ℕ where
  prepareQuotientRows cursor _ := cursor
  align := alignWitnessOffset
  placeFSpan cursor _ map := do return (← witnessRange cursor map.paddedDigitCount "witness F range overflow").stop
  placeHSpan cursor map := do return (← witnessRange cursor map.paddedDigitCount "witness H range overflow").stop
  placeQuotientRow cursor _ geometry quotientDepth widthOverflow rangeOverflow := do
    let len ← okOr (checkedMul usizeBits quotientDepth geometry.physicalCoefficientWidth) (.invalidSetup widthOverflow)
    return (← witnessRange cursor len rangeOverflow).stop
  recordFQuotientRow cursor _ _ := cursor
  finishCompressionLayer cursor _ _ _ := .ok cursor
  finish cursor _ := .ok cursor

namespace TailSink

variable {S Output : Type} (ops : TailSink S Output) (params : CommittedGroupParams) (layout : RelationRhsLayout)
  (numGroups : ℕ) (plan : RelationQuotientPlan) (rowFamilies : List RelationRowFamily)

def resolveOrdinary (sink : S) : Result S :=
  match plan.quotientDepth with
  | none => .ok sink
  | some quotientDepth =>
    (rowFamilies.take (rowFamilies.findIdx (·.isCompression))).zipIdx.foldlM (fun sink (row, rowIndex) =>
      ops.placeQuotientRow sink rowIndex row.geometry quotientDepth "witness R width overflow" "witness R range overflow")
      (ops.prepareQuotientRows sink rowFamilies.length)

def resolveFSpans (mapIndex : Fin compressionMapCount) (sink : S) : Result S :=
  (List.range numGroups).foldlM (fun sink relationGroupIndex => do
    let (groupIndex, groupPlan) ← layout.groupCompressionPlan relationGroupIndex
    ops.placeFSpan sink groupIndex (groupPlan.maps mapIndex)) sink

def resolveFQuotientRow (mapIndex : Fin compressionMapCount) (quotientDepth : ℕ+) (sink : S) (relationGroupIndex : ℕ) :
    Result S := do
  let (rowIndex, row) ← compressionRow numGroups rowFamilies mapIndex relationGroupIndex "compression F quotient row is missing"
  let (groupIndex, geometry) ← expectF mapIndex row
  let (plannedGroupIndex, _) ← layout.groupCompressionPlan relationGroupIndex
  ensure (groupIndex = plannedGroupIndex)
    (.invalidSetup "compression F quotient group disagrees with its compression plan")
  let sink ← ops.placeQuotientRow sink rowIndex geometry quotientDepth
    "compression quotient width overflow" "compression quotient range overflow"
  return ops.recordFQuotientRow sink groupIndex rowIndex

def resolveLayerQuotientRows (mapIndex : Fin compressionMapCount) (sink : S) : Result (S × Option ℕ) :=
  match plan.quotientDepth with
  | none => .ok (sink, none)
  | some quotientDepth => do
    let sink ← (List.range numGroups).foldlM (ops.resolveFQuotientRow layout numGroups rowFamilies mapIndex quotientDepth) sink
    let (hQuotientRow, hRow) ← compressionRow numGroups rowFamilies mapIndex numGroups "compression H quotient row is missing"
    let hGeometry ← expectH mapIndex hRow
    let sink ← ops.placeQuotientRow sink hQuotientRow hGeometry quotientDepth
      "compression quotient width overflow" "compression quotient range overflow"
    return (sink, some hQuotientRow)

def resolveLayer (sink : S) (mapIndex : Fin compressionMapCount) : Result S := do
  let alignment ← layerAlignment layout numGroups mapIndex
  let sink ← ops.align sink alignment "compression layer alignment overflow"
  let sink ← ops.resolveFSpans layout numGroups mapIndex sink
  let opening ← layout.openingCompressionPlan
  let sink ← ops.placeHSpan sink (opening.maps mapIndex)
  let (sink, hQuotientRow) ← ops.resolveLayerQuotientRows layout numGroups plan rowFamilies mapIndex sink
  ops.finishCompressionLayer sink mapIndex hQuotientRow plan

def resolveCompression (successorAAlignment : ℕ) (sink : S) : Result S := do
  let relationCoefficientBlock ← layout.relationCoefficientBlockLen
  let sink ← ops.align sink relationCoefficientBlock "compression witness alignment overflow"
  let sink ← (List.finRange compressionMapCount).foldlM (ops.resolveLayer layout numGroups plan rowFamilies) sink
  ops.align sink successorAAlignment "compression witness suffix alignment overflow"

def resolve (successorAAlignment : ℕ) (sink : S) : Result Output := do
  plan.validateMode params.ringRelationMode
  layout.validate
  let rowFamilies ← plan.rowFamilies layout
  let sink ← ops.resolveOrdinary plan rowFamilies sink
  if params.payloadMode.isCompressed then do
    let sink ← ops.resolveCompression layout numGroups plan rowFamilies successorAAlignment sink
    ops.finish sink plan
  else ops.finish sink plan

end TailSink

def measure (params : CommittedGroupParams) (geometry : RelationWitnessGeometry) (numGroups successorAAlignment start : ℕ)
    (plan : RelationQuotientPlan) : Result ℕ :=
  measuringTailSink.resolve params geometry.rhsLayout numGroups plan successorAAlignment start

/-! ### The scalar length -/

namespace RelationLevelParams

variable (level : RelationLevelParams) (lp : CommittedGroupParams) (batch : OpeningClaimsLayout)

def groupParamsGeometry (groupIndex : ℕ) : Result GroupOpenPhaseParams := do
  let _ ← level.validateOpeningBatchGeometry lp batch
  okOr (lp.preceding ++ [lp.ownGroup])[groupIndex]? (.invalidInput "opening geometry parameters group index is out of range")

def groupRoleDimsGeometry (groupIndex : ℕ) : Result CommitmentRingDims := do
  let finalGroupIndex ← level.validateOpeningBatchGeometry lp batch
  let dims ← (if groupIndex = finalGroupIndex then .ok (lp.ownGroup.roleDims lp.openRingDimension)
    else do
      let params ← okOr lp.preceding[groupIndex]?
        (.invalidInput "opening geometry role dimensions group index is out of range")
      return params.roleDims lp.openRingDimension : Result CommitmentRingDims)
  dims.validateRoleProjection
  return dims

def scalarChunk (numChunks : ℕ) (params : GroupOpenPhaseParams) (roleDims : CommitmentRingDims)
    (openingGeometry : RelationRowGeometry) (numClaims cursor : ℕ) (blockRange : Span) : Result ℕ := do
  let (zLen, eLen, tLen) ← witnessUnitLengths params roleDims openingGeometry numClaims blockRange.len
  okOr (do
    let len ← checkedAdd usizeBits cursor zLen
    let len ← checkedAdd usizeBits len eLen
    let len ← checkedAdd usizeBits len tLen
    alignUp len (chunkAlignment lp numChunks)) (.invalidSetup "witness unit range overflow")

def scalarLiveCoeffLen (extensionDegree numChunks : ℕ) (quotientPlan : RelationQuotientPlan) : Result ℕ := do
  ensure (batch.numGroups = 1) (.invalidSetup "scalar witness sizing requires exactly one opening group")
  ensure (lp.preceding.length = 0) (.invalidSetup "scalar witness sizing does not accept precommitted groups")
  ensure (numChunks ≠ 0) (.invalidSetup "witness layout requires non-empty groups and chunks")
  ensure (¬ numChunks > maxWitnessChunks) (.invalidSetup "witness chunk count exceeds verifier cap")
  let relationGeometry ← level.forLevel lp batch extensionDegree
  let relationGroupOrder ← batch.rootGroupOrder
  let groupIndex ← okOr relationGroupOrder.head? (.invalidSetup "scalar witness relation group is missing")
  let params ← level.groupParamsGeometry lp batch groupIndex
  let group ← batch.groupLayout groupIndex
  let roleDims ← level.groupRoleDimsGeometry lp batch groupIndex
  let openingGeometry ← relationGeometry.groupOpeningGeometry groupIndex
  ensure (¬ (group.numPolynomials = 0 ∨ params.numLiveBlocks = 0 ∨ params.numPositionsPerBlock = 0 ∨ params.numDigitsOpen = 0 ∨
    params.numDigitsInner = 0 ∨ params.numDigitsOuter = 0 ∨ params.numDigitsFold = 0 ∨ params.aRowsLen = 0))
    (.invalidSetup "witness group has malformed dimensions")
  let blockRanges ← lp.witnessBlockRanges groupIndex numChunks
  let cursor ← blockRanges.foldlM (scalarChunk lp numChunks params roleDims openingGeometry group.numPolynomials) 0
  let successorAAlignment ← relationGeometry.rhsLayout.relationCoefficientBlockLen
  measure lp relationGeometry 1 successorAAlignment cursor quotientPlan

end RelationLevelParams

/-!
## Row indices of a level

The row accessors of `akita-params/src/layout/params.rs`, prefix sums over the groups of a level, and the coefficient
block that `validate_stage2_successor_capacity` of `schedule.rs` recomputes from the dimensions alone.
-/

open Lib (Span)

def CommitmentRingDims.commonRelationCoeffCount (dims : CommitmentRingDims) : ℕ := min (min dims.inner dims.outer) dims.opening

/-- `logical_output_rows` of a group's slice count. -/
def RelationGroupParams.logicalOutputRows (group : RelationGroupParams) : Result ℕ := do
  ensure (group.physicalBRows ≠ 0) (.invalidSetup "physical B output rank must be nonzero")
  okOr (checkedMul usizeBits group.physicalBRows group.outerSliceCount) (.invalidSetup "logical B row count overflow")

namespace RelationLevelParams

variable (level : RelationLevelParams) (lp : CommittedGroupParams) (batch : OpeningClaimsLayout)

def addRows (rows count : ℕ) : Result ℕ :=
  okOr (checkedAdd usizeBits rows count) (.invalidSetup "relation-matrix row count overflow")

def compressionRelationRowCount (numCommitments baseRows : ℕ) : Result ℕ := do
  let compressionRows ← okOr (do checkedMul usizeBits (← checkedAdd usizeBits numCommitments 1) compressionMapCount)
    (.invalidSetup "relation-matrix row count overflow")
  addRows baseRows compressionRows

/-- The rows of a preceding group, in the sums over these groups. -/
def addGroupRows (rows : ℕ) (params : GroupOpenPhaseParams) (group : RelationGroupParams) : Result ℕ := do
  let rows ← addRows rows 1
  let rows ← addRows rows params.aRowsLen
  addRows rows (← group.logicalOutputRows)

def baseRowCount (numCommitments : ℕ) : Result ℕ :=
  if lp.preceding = [] then do
    let afterA ← addRows 1 lp.ownGroup.aRowsLen
    let commitmentRows ← okOr (checkedMul usizeBits (← level.ownGroup.logicalOutputRows) numCommitments)
      (.invalidSetup "relation-matrix row count overflow")
    addRows (← addRows afterA commitmentRows) level.nD
  else do
    ensure (numCommitments = lp.preceding.length + 1)
      (.invalidSetup "multi-group relation rows require the real group count")
    let rows ← addRows 1 lp.ownGroup.aRowsLen
    let rows ← addRows rows (← level.ownGroup.logicalOutputRows)
    let rows ← lp.preceding.zipIdx.foldlM (fun rows entry => addGroupRows rows entry.1 (level.precedingGroup entry.2)) rows
    addRows rows level.nD

/-- `relation_matrix_row_count`, for scalar and multi-group levels. -/
def relationMatrixRowCount (numCommitments : ℕ) : Result ℕ := do
  let base ← level.baseRowCount lp numCommitments
  if lp.payloadMode.isCompressed then compressionRelationRowCount numCommitments base else return base

def aStart : ℕ := 1

def groupAStart (groupIndex : ℕ) : Result ℕ := do
  let finalGroupIndex ← level.validateOpeningBatchGeometry lp batch
  ensure (¬ groupIndex > finalGroupIndex) (.invalidInput "group A start index is out of range")
  if groupIndex = finalGroupIndex then return aStart
  else do
    let start ← addRows aStart lp.ownGroup.aRowsLen
    let start ← addRows start (← level.ownGroup.logicalOutputRows)
    let start ← (List.range groupIndex).foldlM (fun start priorIndex => do
      let prior ← okOr lp.preceding[priorIndex]? (.internal "validated group A start is missing a prior group")
      addGroupRows start prior (level.precedingGroup priorIndex)) start
    addRows start 1

def consistencyRowIndex (groupIndex : ℕ) : Result ℕ := do
  okOr (checkedSub (← level.groupAStart lp batch groupIndex) 1)
    (.internal "validated group A start has no preceding consistency row")

def groupARows (groupIndex finalGroupIndex : ℕ) : Result ℕ :=
  if groupIndex = finalGroupIndex then .ok lp.ownGroup.aRowsLen
  else do return (← okOr lp.preceding[groupIndex]? (.internal "validated group A rows are missing a preceding group")).aRowsLen

def groupBRows (groupIndex finalGroupIndex : ℕ) : Result ℕ :=
  if groupIndex = finalGroupIndex then level.ownGroup.logicalOutputRows
  else do
    let _ ← okOr lp.preceding[groupIndex]? (.internal "validated group B rows are missing a preceding group")
    (level.precedingGroup groupIndex).logicalOutputRows

def commitmentRowRange (groupIndex : ℕ) : Result Span := do
  let finalGroupIndex ← level.validateOpeningBatchGeometry lp batch
  let aStart ← level.groupAStart lp batch groupIndex
  let nA ← groupARows lp groupIndex finalGroupIndex
  let nB ← level.groupBRows lp groupIndex finalGroupIndex
  let start ← addRows aStart nA
  return ⟨start, ← addRows start nB⟩

def aRowRange (groupIndex : ℕ) : Result Span := do
  let finalGroupIndex ← level.validateOpeningBatchGeometry lp batch
  let start ← level.groupAStart lp batch groupIndex
  let rows ← groupARows lp groupIndex finalGroupIndex
  return ⟨start, ← addRows start rows⟩

/-- A group's bound on the block: its common coefficient count and the dimension of its packing subring. -/
def stage2GroupBlock (params : GroupOpenPhaseParams) (group : RelationGroupParams) : ℕ :=
  match group.openingMethod with
  | .evaluationTrace => (params.roleDims lp.openRingDimension).commonRelationCoeffCount
  | .subringCoefficientPacking challengeSubringDimension =>
    min (params.roleDims lp.openRingDimension).commonRelationCoeffCount challengeSubringDimension

/-- The block of `validate_stage2_successor_capacity`. -/
def stage2CoefficientBlockLen : ℕ :=
  lp.preceding.zipIdx.foldl (fun block entry => min block (stage2GroupBlock lp entry.1 (level.precedingGroup entry.2)))
    (stage2GroupBlock lp lp.ownGroup level.ownGroup)

end RelationLevelParams

end Akita.Witness
