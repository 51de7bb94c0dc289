import Akita.Spec.ScheduleDescriptor
import Akita.Spec.ScheduleStructure

/-!
# Admission of a schedule row

`akita-schedules/src/audit.rs`, `traversal.rs` and `resolve.rs`, with `validate_schedule_ring_dims`
(`akita-params/src/layout/ring_dims.rs`) and `WitnessChunkShape::align`
(`akita-params/src/witness/chunk_partition.rs`): the checks that
`ResolvedScheduleRow::try_new` makes before it derives the identity of a row.
-/

namespace Akita.Schedule

open Witness (CommitmentRingDims alignUp isPowerOfTwo maxWitnessChunks)

variable (𝔞 : AuditBackend)

def invalid (label detail : String) : AkitaError := .invalidSetup (label ++ ": " ++ detail)

/-! ## Traversal -/

inductive ScheduleGroupPosition
  | rootPrecommitted (index : ℕ)
  | rootFinal
  | recursiveSetupPrefix (index : ℕ)
  | recursiveFinal (index : ℕ)
  | terminal
  deriving DecidableEq

def ScheduleGroupPosition.display : ScheduleGroupPosition → String
  | rootPrecommitted index => "root precommitted group " ++ toString index
  | rootFinal => "root final group"
  | recursiveSetupPrefix index => "recursive fold " ++ toString index ++ " setup prefix"
  | recursiveFinal index => "recursive fold " ++ toString index ++ " final group"
  | terminal => "terminal fold"

inductive ScheduleGroup
  | frozen (position : ScheduleGroupPosition) (params : GroupOpenPhaseParams) (numResponseChunks : ℕ)
  | final (position : ScheduleGroupPosition) (params : CommittedGroupParams) (numClaims foldLevel : ℕ)
  | terminal (position : ScheduleGroupPosition) (params : TerminalFoldParams) (foldLevel : ℕ)

def ScheduleGroup.position : ScheduleGroup → ScheduleGroupPosition
  | frozen position _ _ | final position _ _ _ | terminal position _ _ => position

def FoldParams.rootGroups (root : FoldParams) : List ScheduleGroup :=
  (root.params.precommittedGroups.zipIdx.map fun (params, index) =>
      .frozen (.rootPrecommitted index) params root.params.witnessChunk.numChunks.toNat) ++
    [.final .rootFinal root.params root.params.ownGroup.profile.group.numPolynomials.toNat 0]

def FoldParams.recursiveGroups (fold : FoldParams) (index : ℕ) : List ScheduleGroup :=
  (fold.params.setupPrefix.toList.map fun params =>
      .frozen (.recursiveSetupPrefix index) params fold.params.witnessChunk.numChunks.toNat) ++
    [.final (.recursiveFinal index) fold.params 1 (index + 1)]

/-- The groups of a schedule, in the order of `visit_schedule_groups`. -/
def FoldSchedule.scheduleGroups (s : FoldSchedule) : List ScheduleGroup :=
  s.root.rootGroups ++ (s.recursiveFolds.zipIdx.flatMap fun (fold, index) => fold.recursiveGroups index) ++
    [.terminal .terminal s.terminal (s.recursiveFolds.length + 1)]

def visitScheduleGroups (s : FoldSchedule) (visit : ScheduleGroup → Result Unit) : Result Unit :=
  s.scheduleGroups.forM visit

/-! ## Audit -/

/-- One digit pair of `audit_digit_ranges`. -/
def checkDigits (label role : String) (digits : GadgetDigits) (fieldBits : ℕ) : Result Unit :=
  mapErr (digits.validate 𝔞 fieldBits) fun _ => invalid label
    (role ++ " log_basis " ++ toString digits.logBasis.toNat ++ " with digit depth " ++ toString digits.numDigits.toNat ++
      " is outside the field decomposition")

def GroupOpenPhaseParams.checkDigits (g : GroupOpenPhaseParams) (label : String) (fieldBits : ℕ) : Result Unit := do
  Schedule.checkDigits 𝔞 label "A" g.profile.inner.digits fieldBits
  Schedule.checkDigits 𝔞 label "B" g.profile.outer.digits fieldBits
  Schedule.checkDigits 𝔞 label "opening" ⟨g.opening.logBasisOpen, g.opening.numDigitsOpen⟩ fieldBits
  Schedule.checkDigits 𝔞 label "fold" ⟨g.opening.logBasisOpen, g.opening.numDigitsFold⟩ fieldBits

def auditDigitRanges (s : FoldSchedule) (fieldBits : ℕ) : Result Unit := visitScheduleGroups s fun group =>
    match group with
    | .frozen position params _ => params.checkDigits 𝔞 position.display fieldBits
    | .final position params _ _ => params.ownGroup.checkDigits 𝔞 position.display fieldBits
    | .terminal position params _ => do
      checkDigits 𝔞 position.display "A" params.inner.digits fieldBits
      checkDigits 𝔞 position.display "fold" params.fold fieldBits

section audit

variable {𝔞} (policy : PlannerPolicy 𝔞.Search) (label : String)

def auditSisKey (key : SisTableKey) (expectedRole : SisMatrixRole) : Result Unit :=
  ensure (¬ (key.policy ≠ policy.sisSecurityPolicy ∨ key.tableDigest ≠ policy.sisTableDigest ∨
    key.modulusProfile ≠ policy.sisModulusProfile ∨ key.role ≠ expectedRole))
    (invalid label "matrix SIS policy, table, modulus profile, or role disagrees with the catalog policy")

def auditInnerMatrix (matrix : InnerCommitMatrixParams) : Result Unit := do
  matrix.validate 𝔞
  match matrix.securityRoute with
  | .linf key => auditSisKey policy label key .inner
  | .l2 key _ _ =>
    ensure (¬ (key.policy ≠ policy.sisSecurityPolicy ∨ key.tableDigest ≠ policy.sisL2TableDigest ∨
      key.modulusProfile ≠ policy.sisModulusProfile))
      (invalid label "A matrix L2 policy, table, or modulus profile disagrees with catalog policy")

/-- `audit_outer_matrix` and `audit_open_matrix`. -/
def auditLinfMatrix {R : SisMatrixRole} (matrix : LinfCommitMatrix R) : Result Unit := do
  matrix.validate 𝔞
  auditSisKey policy label matrix.sisTableKey R

def auditBound (declared : BitVec 128) (required : Option ℕ) : Result Unit := do
  let required ← okOr required (invalid label "accepted envelope has no SIS row")
  ensure (¬ declared.toNat < required) (invalid label ("declared coefficient bound " ++ toString declared.toNat ++
    " is below required bound " ++ toString required))

def decompositionAt (logBasis : UInt32) : DecompositionParams := { policy.decomposition with logBasis }

def auditFrozenGroup (params : GroupOpenPhaseParams) (numResponseChunks : ℕ) : Result Unit := do
  params.validate 𝔞
  auditInnerMatrix policy label params.profile.inner.matrix
  auditLinfMatrix policy label params.profile.outer.matrix
  ensure (params.opening.numDigitsOpen.toNat = 𝔞.numDigitsOpen (decompositionAt policy params.opening.logBasisOpen))
    (invalid label "opening digit depth is not canonical for the field and basis")
  let declaredABound ← okOr params.profile.inner.matrix.coeffLinfBound
    (invalid label "frozen groups cannot use an L2 A security route")
  auditBound label declaredABound (𝔞.roundedUpRoleAInfNorm policy.sisSecurityPolicy policy.sisTableDigest
    policy.sisModulusProfile params.profile.inner.matrix.ringDimension params.opening.logBasisOpen
    params.opening.foldChallengeConfig params.opening.numDigitsFold.toNat numResponseChunks)
  auditBound label params.profile.outer.matrix.sisTableKey.coeffLinfBound (𝔞.roundedUpCollisionInfNorm
    policy.sisSecurityPolicy policy.sisModulusProfile .outer params.profile.outer.matrix.ringDimension
    params.opening.logBasisOpen)

def ChunkedWitnessCfg.validate (c : ChunkedWitnessCfg) : Result Unit := do
  ensure (c.numChunks ≠ 0) (.invalidSetup "ChunkedWitnessCfg: num_chunks must be >= 1")
  ensure (¬ c.numChunks.toNat > maxWitnessChunks) (.invalidSetup ("ChunkedWitnessCfg: num_chunks=" ++
    toString c.numChunks.toNat ++ " exceeds cap " ++ toString maxWitnessChunks))
  ensure (¬ (c.numChunks > 1 ∧ isPowerOfTwo c.numChunks.toNat = false))
    (.invalidSetup "ChunkedWitnessCfg: num_chunks must be a power of two")
  ensure (¬ (c.numActivatedLevels > 0 ∧ c.numChunks = 1))
    (.invalidSetup "ChunkedWitnessCfg: num_activated_levels > 0 requires num_chunks > 1")
  ensure (¬ (c.numChunks > 1 ∧ c.numActivatedLevels = 0))
    (.invalidSetup "ChunkedWitnessCfg: num_chunks > 1 requires num_activated_levels > 0")

def supportedCommitmentRingDims : List ℕ := [64, 128, 256, 512, 1024, 2048]

/-- `PRODUCTION_FOLD_CHALLENGE_RING_DIMS`. -/
def supportedChallengeRingDims : List ℕ := [64, 128, 256, 512, 1024, 2048]

def validateRoleDims (dims : CommitmentRingDims) : Result Unit := do
  dims.validateRoleProjection
  [("Inner", dims.inner), ("Outer", dims.outer), ("Opening", dims.opening)].forM fun (role, d) =>
    ensure (d ∈ supportedCommitmentRingDims) (.invalidSetup ("unsupported " ++ role ++
      " commitment-matrix ring dimension " ++ toString d ++ "; A/B/D dimensions must be at least 64"))
  ensure (dims.inner ∈ supportedChallengeRingDims) (.invalidSetup ("A-role ring dimension d_a=" ++ toString dims.inner ++
    " is unsupported for sparse fold challenges (need d_a >= 64)"))

def openingDSegmentWidth (𝔞 : AuditBackend) (openingMethod : OpeningMethod) (extensionDegree : UInt64)
    (innerRingDimension openingRingDimension numDigitsOpen numLiveBlocks numClaims : ℕ) : Result ℕ := do
  ensure (openingRingDimension ≠ 0) (.invalidSetup "group D opening dimension must be nonzero")
  let physicalWidth ← match openingMethod with
    | .evaluationTrace => .ok innerRingDimension
    | .subringCoefficientPacking s => 𝔞.packingPartialWidth extensionDegree innerRingDimension s
  ensure (physicalWidth % openingRingDimension = 0)
    (.invalidSetup "group opening width does not decompose into D-native subcolumns")
  okOr (do
    let width ← checkedMul usizeBits (← checkedMul usizeBits numDigitsOpen numLiveBlocks) numClaims
    checkedMul usizeBits width (physicalWidth / openingRingDimension)) (.invalidSetup "group D segment width overflow")

def GroupOpenPhaseParams.dSegmentWidth (𝔞 : AuditBackend) (g : GroupOpenPhaseParams) (extensionDegree : UInt64)
    (openingRingDimension : ℕ) : Result ℕ :=
  openingDSegmentWidth 𝔞 g.opening.openingMethod extensionDegree g.profile.inner.matrix.ringDimension openingRingDimension
    g.opening.numDigitsOpen.toNat g.profile.blocks.liveBlocks.toNat g.profile.group.numPolynomials.toNat

/-- The width so far with the D segment of one more group. -/
def addDWidth (detail : String) (dD width : ℕ) (group : GroupOpenPhaseParams) : Result ℕ := do
  okOr (checkedAdd usizeBits width (← group.dSegmentWidth 𝔞 policy.claimExtDegree dD)) (invalid label detail)

def expectedDWidth (params : CommittedGroupParams) (numClaims : ℕ) : Result ℕ := do
  let dims := params.roleDims
  let main ← mapErr (openingDSegmentWidth 𝔞 params.openingMethod policy.claimExtDegree dims.inner dims.opening
    params.opening.digits.numDigits.toNat params.blocks.liveBlocks.toNat numClaims)
    fun _ => invalid label "main D width is incompatible with opening geometry"
  let width ← params.precommittedGroups.foldlM (addDWidth policy label "precommitted D width overflow" dims.opening) main
  params.setupPrefix.toList.foldlM (addDWidth policy label "setup-prefix D width overflow" dims.opening) width

/-- The A route of `audit_committed_params`. -/
def auditRoute (params : CommittedGroupParams) (numClaims foldLevel expectedAWidth : ℕ) : Result Unit :=
  match params.inner.matrix.securityRoute with
  | .linf key => auditBound label key.coeffLinfBound (𝔞.roundedUpRoleAInfNorm policy.sisSecurityPolicy policy.sisTableDigest
      policy.sisModulusProfile params.dA params.opening.digits.logBasis params.foldChallengeConfig
      params.numDigitsFold.toNat params.witnessChunk.numChunks.toNat)
  | .l2 _ responseL2SqCap _ => do
    let foldBasis ← okOr (Checked.pow2 params.opening.digits.logBasis.toNat)
      (invalid label "L2 balanced digit basis overflow")
    let candidate ← 𝔞.selectiveL2InnerMatrix policy {
      foldLevel, numClaims
      numChunks := params.witnessChunk.numChunks.toNat
      innerWidth := expectedAWidth
      ringDimension := params.dA
      foldBasis
      foldDigitCount := params.numDigitsFold.toNat
      foldChallengeConfig := params.foldChallengeConfig
      responseL2SqCap := some responseL2SqCap
      normProofShape := none }
    let expected ← okOr candidate (invalid label "L2 route is not admitted by the frozen suffix response cap")
    ensure (params.inner.matrix = expected)
      (invalid label "L2 A matrix disagrees with canonical cap, proof shape, table, or rank")

def auditCommittedParams (params : CommittedGroupParams) (numClaims foldLevel : ℕ) : Result Unit := do
  ensure (numClaims ≠ 0) (invalid label "fold claim count must be positive")
  params.blocks.validate
  params.witnessChunk.validate
  ensure (params.witnessChunk = policy.witnessChunkAtLevel foldLevel)
    (invalid label ("witness chunks disagree with policy geometry at fold level " ++ toString foldLevel))
  validateRoleDims params.roleDims
  mapErr (𝔞.validateForRingDim params.foldChallengeConfig params.dA) (invalid label)
  auditInnerMatrix policy label params.inner.matrix
  auditLinfMatrix policy label params.outer.matrix
  auditLinfMatrix policy label params.opening.matrix
  ensure (params.inner.digits.numDigits.toNat = 𝔞.numDigitsInner (decompositionAt policy params.inner.digits.logBasis)
      (decide (foldLevel = 0)) ∧
    params.outer.digits.numDigits.toNat = 𝔞.numDigitsOpen (decompositionAt policy params.outer.digits.logBasis) ∧
    params.opening.digits.numDigits.toNat = 𝔞.numDigitsOpen (decompositionAt policy params.opening.digits.logBasis))
    (invalid label "digit depths are missing or noncanonical")
  let expectedAWidth ← okOr (checkedMul usizeBits params.blocks.positionsPerBlock.toNat params.inner.digits.numDigits.toNat)
    (invalid label "A width overflow")
  let expectedBWidth ← params.outerSliceCount.physicalInputWidth params.blocks.liveBlocks.toNat numClaims
    params.inner.matrix.outputRank.toNat params.outer.digits.numDigits.toNat params.roleDims.inner params.roleDims.outer
  let expectedDWidth ← expectedDWidth policy label params numClaims
  ensure (params.inner.matrix.inputWidth.toNat = expectedAWidth ∧ params.outer.matrix.inputWidth.toNat = expectedBWidth ∧
    params.opening.matrix.inputWidth.toNat = expectedDWidth)
    (invalid label "A, B, or D width disagrees with the accepted digit geometry")
  auditRoute policy label params numClaims foldLevel expectedAWidth
  auditBound label params.outer.matrix.sisTableKey.coeffLinfBound (𝔞.roundedUpCollisionInfNorm policy.sisSecurityPolicy
    policy.sisModulusProfile .outer params.roleDims.outer params.opening.digits.logBasis)
  auditBound label params.opening.matrix.sisTableKey.coeffLinfBound (𝔞.roundedUpCollisionInfNorm policy.sisSecurityPolicy
    policy.sisModulusProfile .opening params.roleDims.opening params.opening.digits.logBasis)

/-! ### The terminal -/

def TerminalFoldParams.responseL2SqCap (t : TerminalFoldParams) : Option (BitVec 128) :=
  match t.inner.matrix.securityRoute with
  | .linf _ => none
  | .l2 _ cap _ => some cap

def TerminalFoldParams.validateTerminalLinfCap (𝔞 : AuditBackend) (t : TerminalFoldParams)
    (scheduledCap : Option (BitVec 128)) : Result Unit :=
  match t.inner.matrix.securityRoute with
  | .linf _ => do
    let cap ← okOr scheduledCap (.invalidSetup "terminal Linf route is missing its cap")
    let certified ← 𝔞.certifiedTerminalResponseLinfCap t.inner.matrix t.foldChallengeConfig
    ensure (¬ (cap = 0 ∨ cap.toNat > certified))
      (.invalidSetup "terminal Linf cap exceeds its matrix-certified capacity")
  | .l2 .. => ensure (scheduledCap = none) (.invalidSetup "terminal L2 route must not carry an independent Linf cap")

/-- The L2 route of `audit_terminal`. -/
def auditTerminalRoute (params : TerminalFoldParams) (foldLevel expectedWidth expectedZCoords : ℕ) : Result Unit :=
  match params.inner.matrix.securityRoute with
  | .linf _ => .ok ()
  | .l2 .. => do
    ensure (𝔞.selectiveL2OperatorNormRejection params.dA params.foldChallengeConfig)
      (invalid label "terminal L2 challenge is not certified")
    let foldBasis ← okOr (Checked.pow2 params.fold.logBasis.toNat) (invalid label "L2 balanced digit basis overflow")
    let candidate ← 𝔞.selectiveL2InnerMatrix policy {
      foldLevel
      numClaims := 1
      numChunks := 1
      innerWidth := expectedWidth
      ringDimension := params.dA
      foldBasis
      foldDigitCount := params.fold.numDigits.toNat
      foldChallengeConfig := params.foldChallengeConfig
      responseL2SqCap := params.responseL2SqCap
      normProofShape := some (.direct (UInt64.ofNat expectedZCoords)) }
    let expected ← okOr candidate (invalid label "L2 route is not admitted by the frozen terminal response cap")
    ensure (params.inner.matrix = expected)
      (invalid label "L2 A matrix disagrees with canonical cap, proof shape, table, or rank")

/-- The four expected widths of a terminal response: `z`, `e`, `t` and their total. -/
def expectedResponse (params : TerminalFoldParams) : Result (ℕ × ℕ × ℕ × ℕ) := do
  let d := params.dA
  let z ← okOr (checkedMul usizeBits params.inner.matrix.inputWidth.toNat d) (invalid label "terminal z coordinates overflow")
  let sentBlocks ← okOr (checkedSub params.blocks.liveBlocks.toNat 1) (invalid label "terminal response has no live block")
  let e ← okOr (checkedMul usizeBits sentBlocks d) (invalid label "terminal e coordinates overflow")
  let t ← okOr (do checkedMul usizeBits (← checkedMul usizeBits sentBlocks params.inner.matrix.outputRank.toNat) d)
    (invalid label "terminal t coordinates overflow")
  let total ← okOr (do checkedAdd usizeBits (← checkedAdd usizeBits z e) t)
    (invalid label "terminal response coordinates overflow")
  return (z, e, t, total)

def auditTerminal (params : TerminalFoldParams) (foldLevel : ℕ) : Result Unit := do
  let label := "terminal fold"
  ensure (policy.chunksAtLevel foldLevel = 1) (invalid label ("terminal witness chunks must be 1, but policy requires " ++
    toString (policy.chunksAtLevel foldLevel).toNat ++ " at fold level " ++ toString foldLevel))
  auditInnerMatrix policy label params.inner.matrix
  mapErr (𝔞.validateForRingDim params.foldChallengeConfig params.dA) (invalid label)
  ensure (¬ (params.blocks.liveRingElementsPerClaim = 0 ∨ params.blocks.positionsPerBlock = 0 ∨
    isPowerOfTwo params.blocks.positionsPerBlock.toNat = false ∨ params.blocks.liveBlocks.toNat ≠
      divCeil params.blocks.liveRingElementsPerClaim.toNat params.blocks.positionsPerBlock.toNat))
    (invalid label "invalid terminal fold or block geometry")
  let expectedDigits := 𝔞.numDigitsInner (decompositionAt policy params.inner.digits.logBasis) false
  let expectedWidth ← okOr (checkedMul usizeBits params.blocks.positionsPerBlock.toNat expectedDigits)
    (invalid label "A width overflow")
  ensure (params.inner.digits.numDigits.toNat = expectedDigits ∧ params.inner.matrix.inputWidth.toNat = expectedWidth)
    (invalid label "terminal digits or A width are not canonical")
  let layout := params.responseShape.layout
  let group ← okOr layout.groups.head? (invalid label "terminal response shape is missing its group")
  let (z, e, t, total) ← expectedResponse label params
  auditTerminalRoute policy label params foldLevel expectedWidth z
  ensure (layout.groups.length = 1 ∧ layout.ringDimension.toNat = params.dA ∧ group.zCoords.toNat = z ∧
    group.eFieldElems.toNat = e ∧ group.tFieldElems.toNat = t ∧ layout.logicalNumElems.toNat = total)
    (invalid label "terminal response shape disagrees with the committed witness geometry")
  mapErr (params.validateTerminalLinfCap 𝔞 group.zLinfCap) fun _ => invalid label
    "terminal response shape has invalid wire parameters or exceeds the matrix-certified cap"
  ensure (¬ (group.zRiceLowBits ≥ 64 ∨ group.zPayloadBytes = 0)) (invalid label
    "terminal response shape has invalid wire parameters or exceeds the matrix-certified cap")

def auditGroup (group : ScheduleGroup) : Result Unit :=
  let label := group.position.display
  match group with
  | .frozen _ params numResponseChunks => auditFrozenGroup policy label params numResponseChunks
  | .final position params numClaims foldLevel => do
    ensure (¬ (position = .rootFinal ∧ params.inner.matrix.securityRoute.isLinf = false))
      (invalid label "root cannot use an L2 A security route")
    auditCommittedParams policy label params numClaims foldLevel
  | .terminal _ params foldLevel => auditTerminal policy params foldLevel

def CommittedGroupBatchProfile.validate (𝔞 : AuditBackend) (profiles : CommittedGroupBatchProfile) (fieldBits : ℕ) :
    Result Unit := do
  profiles.finalGroup.validateFrozenPrecommit 𝔞 fieldBits
  profiles.precommitteds.forM fun profile => profile.validateFrozenPrecommit 𝔞 fieldBits

def CommittedGroupBatchProfile.openingLayout (profiles : CommittedGroupBatchProfile) : Result OpeningClaimsLayout :=
  OpeningClaimsLayout.fromGroups (profiles.precommitteds.map (·.group) ++ [profiles.finalGroup.group])

def auditResolvedSchedule (profiles : CommittedGroupBatchProfile) (schedule : FoldSchedule) : Result Unit := do
  𝔞.validatePolicy policy
  profiles.validate 𝔞 policy.decomposition.fieldBits
  schedule.validateStructure 𝔞
  auditDigitRanges 𝔞 schedule policy.decomposition.fieldBits
  let finalParams := schedule.root.params
  ensure (¬ (profiles.finalGroup ≠ finalParams.ownGroup.profile ∨
    profiles.precommitteds.length ≠ finalParams.precommittedGroups.length))
    (invalid "root fold" "ordered profiles disagree with the expanded row")
  (profiles.precommitteds.zip finalParams.precommittedGroups).zipIdx.forM fun ((profile, group), index) =>
    ensure (profile = group.profile) (invalid ("root precommitted group " ++ toString index)
      "profile and consuming parameters disagree")
  visitScheduleGroups schedule (auditGroup policy)

end audit

/-! ## Ring dimensions -/

def maxFoldLevels : ℕ := 16

/-- The `validate_step` of `validate_schedule_ring_dims`; the key comparisons of
`validate_role_dims_match_keys` are equalities of one field with itself. -/
def validateRingStep (fold : FoldParams) (nextRingD : ℕ) : Result Unit := do
  validateRoleDims fold.params.roleDims
  asSetupError (𝔞.validateForRingDim fold.params.foldChallengeConfig fold.params.dA)
  ensure (fold.inputWitnessLen ≠ 0) (.invalidSetup "witness length 0 is invalid for fold ring")
  ensure (¬ (nextRingD = 0 ∨ fold.outputWitnessLen = 0)) (.invalidSetup "next witness length is invalid for next fold ring")

/-- A root precommitted group in `validate_schedule_ring_dims`. -/
def validateRootPrecommitted (root : CommittedGroupParams) (entry : GroupOpenPhaseParams × ℕ) : Result Unit := do
  let (group, index) := entry
  group.profile.validateFrozenPrecommit 𝔞 group.profile.inner.matrix.sisModulusProfile.fieldBits
  group.validate 𝔞
  ensure (group.opening.logBasisOpen = root.opening.digits.logBasis) (.invalidSetup ("root precommitted group " ++
    toString index ++ " opening basis disagrees with the batch-shared basis"))
  ensure (group.opening.foldChallengeConfig.weight ≠ 0) (.invalidSetup ("root precommitted group " ++
    toString index ++ " has an empty fold challenge"))
  validateRoleDims (group.roleDims root.openMatrix.ringDimension)

def validateScheduleRingDims (s : FoldSchedule) : Result Unit := do
  ensure (¬ s.numFoldLevels > maxFoldLevels) (.invalidSetup ("schedule has " ++ toString s.numFoldLevels ++
    " fold levels, max supported is " ++ toString maxFoldLevels))
  validateRingStep 𝔞 s.root (s.successor 0).ringDimension
  s.root.params.precommittedGroups.zipIdx.forM (validateRootPrecommitted 𝔞 s.root.params)
  s.recursiveFolds.zipIdx.forM fun (fold, index) => validateRingStep 𝔞 fold (s.successor (index + 1)).ringDimension
  ensure (s.terminal.dA ∈ supportedCommitmentRingDims ∧ s.terminal.inputWitnessLen.toNat % s.terminal.dA = 0)
    (.invalidSetup "terminal inner ring dimension is inconsistent with witness length")

/-! ## Transitions -/

namespace WitnessChunkShape

variable (shape : WitnessChunkShape)

/-- One body of `align`: the cursor after it and the ends so far. -/
def alignBody (blockLen numChunks : ℕ) (state : ℕ × List ℕ) (body : ℕ × ℕ) : Result (ℕ × List ℕ) := do
  let (cursor, ends) := state
  let (len, index) := body
  let cursor ← okOr (do
    checkedAdd usizeBits cursor (← alignUp len (if shape.numChunks > 1 then blockLen else 1)))
    (.invalidSetup "witness chunk padding overflow")
  return (cursor, if (index + 1) % (shape.numChunks / numChunks) = 0 then ends ++ [cursor / blockLen] else ends)

/-- `align`: the padded length and the owners' ends in blocks. -/
def align (blockLen numChunks : ℕ) : Result (ℕ × List ℕ) := do
  ensure (¬ (isPowerOfTwo shape.tailAlignment = false ∨ isPowerOfTwo shape.tailSuffixAlignment = false ∨
    isPowerOfTwo blockLen = false ∨ numChunks = 0 ∨ isPowerOfTwo numChunks = false ∨ isPowerOfTwo shape.numChunks = false ∨
    shape.numChunks > maxWitnessChunks ∨ shape.numChunks % numChunks ≠ 0))
    (.invalidSetup "invalid inherited witness chunks")
  let (cursor, ends) ← (shape.bodyLengths.toList.take shape.numChunks).zipIdx.foldlM (shape.alignBody blockLen numChunks) (0, [])
  let len ← okOr (do
    let len ← alignUp (← checkedAdd usizeBits cursor shape.tailPrefixLen) shape.tailAlignment
    alignUp (← checkedAdd usizeBits len shape.tailLen) shape.tailSuffixAlignment) (.invalidSetup "witness tail overflow")
  return (len, if numChunks = 1 then [] else if ends = [] then [] else ends.dropLast ++ [divCeil len blockLen])

end WitnessChunkShape

def validateSuccessorBlock (producer : FoldParams) (successor : FoldSuccessor) : Result Unit := do
  let blockLen ← successor.sourceBlockLen
  ensure (producer.params.successorBlockLen.map UInt64.toNat =
    if producer.params.witnessChunk.numChunks > 1 then some blockLen else none)
    (.invalidSetup "witness padding disagrees with successor block")

def rootInputWitnessLen (p : CommittedGroupParams) : ℕ :=
  (do checkedMul usizeBits (← checkedMul usizeBits p.blocks.liveBlocks.toNat p.blocks.positionsPerBlock.toNat) p.dA).getD 0

section

variable {𝔞} (policy : PlannerPolicy 𝔞.Search)

/-- The loop state of `validate_canonical_transition_lengths`: the length entering the next fold, the
fold that produces it and the layout that fold opens. -/
structure Transition where
  expectedInput : ℕ
  producer : FoldParams
  producerOpening : OpeningClaimsLayout

/-- One recursive fold of `validate_canonical_transition_lengths`. -/
def transitionStep (state : Transition) (entry : FoldParams × ℕ) : Result Transition := do
  let (step, index) := entry
  let shape ← 𝔞.producedChunkShape state.producer.params state.producerOpening policy.claimExtDegree
    policy.decomposition.fieldBits
  let (len, ends) ← shape.align (← (FoldSuccessor.recursive step.params).sourceBlockLen)
    step.params.witnessChunk.numChunks.toNat
  ensure (¬ (len ≠ state.expectedInput ∨ ends ≠ step.params.witnessChunkEnds.map UInt64.toNat))
    (.invalidSetup "recursive witness ownership is not inherited from its producer")
  ensure (step.inputWitnessLen.toNat = state.expectedInput) (.invalidSetup ("recursive fold " ++ toString index ++
    " input witness length " ++ toString step.inputWitnessLen.toNat ++ " is not canonical; expected " ++
    toString state.expectedInput))
  let planned ← 𝔞.plannedNextWitnessLen policy.decomposition.fieldBits policy.claimExtDegree step.params 1
    step.params.witnessChunk.numChunks
  let expectedOutput ← okOr planned (.invalidSetup ("recursive fold " ++ toString index ++
    " uses unsupported compression source geometry"))
  ensure (step.outputWitnessLen.toNat = expectedOutput) (.invalidSetup ("recursive fold " ++ toString index ++
    " output witness length " ++ toString step.outputWitnessLen.toNat ++ " is not canonical; expected " ++
    toString expectedOutput))
  let opening ← 𝔞.suffixOpeningLayout step.inputWitnessLen (step.params.setupPrefix.bind (·.setupNaturalLen))
  return ⟨expectedOutput, step, opening⟩

def validateCanonicalTransitionLengths (rootLayout : OpeningClaimsLayout) (schedule : FoldSchedule) : Result Unit := do
  (schedule.root :: schedule.recursiveFolds).zipIdx.forM fun (producer, index) =>
    validateSuccessorBlock producer (schedule.successor index)
  let fieldBits := policy.decomposition.fieldBits
  let rootParams := schedule.root.params
  ensure (rootParams.witnessChunkEnds = []) (.invalidSetup "root witness ownership must be proportional")
  ensure (schedule.root.inputWitnessLen.toNat = rootInputWitnessLen rootParams) (.invalidSetup
    ("root input witness length " ++ toString schedule.root.inputWitnessLen.toNat ++ " is not canonical; expected " ++
      toString (rootInputWitnessLen rootParams)))
  let expectedRootOutput ← 𝔞.outputWitnessLen rootParams fieldBits policy.claimExtDegree rootLayout
  ensure (schedule.root.outputWitnessLen.toNat = expectedRootOutput) (.invalidSetup
    ("root output witness length " ++ toString schedule.root.outputWitnessLen.toNat ++ " is not canonical; expected " ++
      toString expectedRootOutput))
  let start : Transition := ⟨expectedRootOutput, schedule.root, rootLayout⟩
  let last ← schedule.recursiveFolds.zipIdx.foldlM (transitionStep policy) start
  ensure (schedule.terminal.inputWitnessLen.toNat = last.expectedInput) (.invalidSetup ("terminal input witness length " ++
    toString schedule.terminal.inputWitnessLen.toNat ++ " is not canonical; expected " ++ toString last.expectedInput))

/-! ## Rows -/

/-- The root's setup prefix in `ResolvedScheduleRow::try_new`. -/
def validateRootSetupPrefix (profiles : CommittedGroupBatchProfile) (schedule : FoldSchedule) : Result Unit :=
  match schedule.recursiveFolds.head?.bind fun fold => fold.params.setupPrefix with
  | none => .ok ()
  | some setupPrefix => do
    let active ← 𝔞.activeSetupFieldLen schedule.root.params (← profiles.openingLayout)
    ensure (setupPrefix.setupNaturalLen.map UInt64.toNat =
      some (max active schedule.rootAccumulatedSetupPrefixLen.toNat))
      (.invalidSetup "root setup prefix does not match the combined setup footprint")

/-- The checks of `ResolvedScheduleRow::try_new`. -/
def admitRow (profiles : CommittedGroupBatchProfile) (schedule : FoldSchedule) : Result Unit := do
  schedule.validateNonterminalOpeningExecution 𝔞 policy.claimExtDegree
  auditResolvedSchedule policy profiles schedule
  validateScheduleRingDims 𝔞 schedule
  validateCanonicalTransitionLengths policy (← profiles.openingLayout) schedule
  validateRootSetupPrefix profiles schedule (𝔞 := 𝔞)

/-- `ResolvedScheduleRow`: a row with its digest. -/
structure ResolvedScheduleRow where
  rowDigest : Digest
  profiles : CommittedGroupBatchProfile
  schedule : FoldSchedule
  deriving DecidableEq

def scheduleRowDigest (𝔞 : AuditBackend) (profiles : CommittedGroupBatchProfile) (schedule : FoldSchedule) :
    Result Digest := do
  return 𝔞.digestDescriptorBytes (← scheduleRowPreimage profiles schedule)

def ResolvedScheduleRow.tryNew (profiles : CommittedGroupBatchProfile) (schedule : FoldSchedule) :
    Result ResolvedScheduleRow := do
  admitRow policy profiles schedule
  return ⟨← scheduleRowDigest 𝔞 profiles schedule, profiles, schedule⟩

end

end Akita.Schedule
