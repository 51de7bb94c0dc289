import Akita.Spec.PhysicalL2
import Akita.Spec.ScheduleParams
import Akita.Spec.WitnessLayout

/-!
# Structure of a fold schedule

`FoldSchedule::validate_structure` and `validate_nonterminal_opening_execution`
(`akita-params/src/schedule.rs`) with the checks of a group, a matrix and a level they call
(`schedule/profiles.rs`, `layout/params/commitment.rs`, `layout/params/precommitted.rs`,
`sis/ajtai_key.rs`, `ring_relation_mode.rs`, `compression.rs`).

The generated security tables, the digit formulas, the challenge families and the geometry of the
relation and of the witness are functions of a backend, under their names.
-/

namespace Akita.Schedule

open Witness (CommitmentRingDims dyadicBlockRanges isPowerOfTwo)

structure DecompositionParams where
  logBasis : UInt32
  logCommitBound : UInt32
  logOpenBound : Option UInt32
  deriving DecidableEq

def DecompositionParams.fieldBits (d : DecompositionParams) : ℕ := (d.logOpenBound.getD d.logCommitBound).toNat

/-- The fields of `PlannerPolicy` that the checks of a row read; the others are one value. -/
structure PlannerPolicy (S : Type) where
  decomposition : DecompositionParams
  sisModulusProfile : SisModulusProfileId
  sisSecurityPolicy : SisSecurityPolicyId
  sisTableDigest : Digest
  sisL2TableDigest : Digest
  claimExtDegree : UInt64
  witnessChunk : ChunkedWitnessCfg
  search : S

namespace PlannerPolicy

variable {S : Type} (policy : PlannerPolicy S)

def chunksAtLevel (foldLevel : ℕ) : UInt64 :=
  if policy.witnessChunk.usesMultiChunk ∧ foldLevel < policy.witnessChunk.numActivatedLevels.toNat then
    policy.witnessChunk.numChunks
  else 1

def witnessChunkAtLevel (foldLevel : ℕ) : ChunkedWitnessCfg :=
  if policy.chunksAtLevel foldLevel > 1 then policy.witnessChunk else .defaultNonChunked

end PlannerPolicy

structure OpeningClaimsLayout where
  groups : List PolynomialGroupLayout
  deriving DecidableEq

def PolynomialGroupLayout.validate (g : PolynomialGroupLayout) : Result Unit :=
  ensure (g.numPolynomials ≠ 0) (.invalidSetup "opening group layouts must be nonempty")

def OpeningClaimsLayout.fromGroups (groups : List PolynomialGroupLayout) : Result OpeningClaimsLayout := do
  let total ← okOr (Checked.sum (groups.map (·.numPolynomials.toNat)))
    (.invalidInput "opening layout polynomial count overflows usize")
  ensure (¬ (groups = [] ∨ total = 0)) (.invalidInput "opening claim layout must be nonempty")
  groups.forM PolynomialGroupLayout.validate
  return ⟨groups⟩

structure WitnessChunkShape where
  bodyLengths : Vector ℕ Witness.maxWitnessChunks
  numChunks : ℕ
  tailPrefixLen : ℕ
  tailAlignment : ℕ
  tailLen : ℕ
  tailSuffixAlignment : ℕ

structure SelectiveL2CandidateGeometry where
  foldLevel : ℕ
  numClaims : ℕ
  numChunks : ℕ
  innerWidth : ℕ
  ringDimension : ℕ
  foldBasis : ℕ
  foldDigitCount : ℕ
  foldChallengeConfig : SparseChallengeConfig
  responseL2SqCap : Option (BitVec 128)
  normProofShape : Option PhysicalL2NormProofShape

/-- The functions that the checks of a row consult: generated tables, digit formulas, challenge
families and derived geometry, each under its source's name. -/
structure AuditBackend where
  Search : Type
  /-- the cells of `ceil_supported_linf_bound` -/
  supportedCell : SisMatrixRole → SisModulusProfileId → UInt32 → BitVec 128 → Option (BitVec 128)
  /-- `sis_role_cell`, by its largest module rank -/
  sisRoleCell : SisMatrixRole → SisModulusProfileId → UInt32 → BitVec 128 → Option ℕ
  generatedSisMaxWidths : SisModulusProfileId → UInt32 → BitVec 128 → Option (List ℕ)
  generatedL2SisMaxWidths : SisModulusProfileId → UInt32 → BitVec 128 → Option (List ℕ)
  signedDigitKernel : UInt32 → Bool
  computeNumDigitsFieldWidth : ℕ → UInt32 → ℕ
  numDigitsOpen : DecompositionParams → ℕ
  numDigitsInner : DecompositionParams → Bool → ℕ
  roundedUpRoleAInfNorm : SisSecurityPolicyId → Digest → SisModulusProfileId → ℕ → UInt32 → SparseChallengeConfig → ℕ →
    ℕ → Option ℕ
  roundedUpCollisionInfNorm : SisSecurityPolicyId → SisModulusProfileId → SisMatrixRole → ℕ → UInt32 → Option ℕ
  validateForRingDim : SparseChallengeConfig → ℕ → Except String Unit
  productionForRingDim : UInt64 → Option SparseChallengeConfig
  selectiveL2OperatorNormRejection : ℕ → SparseChallengeConfig → Bool
  /-- `SubringCoefficientPackingGeometry::try_new`, by its partial base-field width -/
  packingPartialWidth : UInt64 → ℕ → UInt64 → Result ℕ
  /-- `try_outer_compression_plan`, by whether there is one -/
  hasOuterCompressionPlan : GroupCommitPhaseParams → Result Bool
  validateStage2SuccessorCapacity : String → CommittedGroupParams → UInt64 → ℕ → ℕ → Result Unit
  validatePolicy : PlannerPolicy Search → Result Unit
  selectiveL2InnerMatrix : PlannerPolicy Search → SelectiveL2CandidateGeometry → Result (Option InnerCommitMatrixParams)
  certifiedTerminalResponseLinfCap : InnerCommitMatrixParams → SparseChallengeConfig → Result ℕ
  outputWitnessLen : CommittedGroupParams → ℕ → UInt64 → OpeningClaimsLayout → Result ℕ
  /-- `RelationWitnessGeometry::for_level`, `WitnessLayout::new` and `chunk_shape` -/
  producedChunkShape : CommittedGroupParams → OpeningClaimsLayout → UInt64 → ℕ → Result WitnessChunkShape
  plannedNextWitnessLen : ℕ → UInt64 → CommittedGroupParams → ℕ → UInt64 → Result (Option ℕ)
  activeSetupFieldLen : CommittedGroupParams → OpeningClaimsLayout → Result ℕ
  suffixOpeningLayout : UInt64 → Option UInt64 → Result OpeningClaimsLayout
  digestDescriptorBytes : List UInt8 → Digest

variable (𝔞 : AuditBackend)

/-! ## Matrices -/

def currentSisTableDigest : Digest := ⟨#[
  0x83, 0x5b, 0x40, 0x4f, 0x01, 0xd1, 0xe1, 0x24, 0xac, 0x9b, 0x6c, 0xf9, 0xc1, 0xef, 0xc4, 0xb3,
  0xfe, 0xcc, 0x6e, 0xf2, 0x62, 0x22, 0xce, 0xbe, 0xcb, 0xba, 0x91, 0x78, 0xf1, 0xa7, 0x7f, 0xcc], rfl⟩

/-- `TABLE_DIGEST` of the Euclidean table. -/
def currentSisL2TableDigest : Digest := ⟨#[
  0x03, 0x7e, 0xd5, 0x21, 0xe2, 0x72, 0x8a, 0x39, 0x64, 0xfd, 0x61, 0x40, 0x45, 0xe3, 0x19, 0xd2,
  0x89, 0x3c, 0xc8, 0xe4, 0x58, 0x1e, 0x20, 0xca, 0xb2, 0x7a, 0x57, 0xed, 0xec, 0xf5, 0xce, 0xde], rfl⟩

def defaultSisSecurityPolicy : SisSecurityPolicyId := .quantum169BitADPS16

def SisMatrixRole.name : SisMatrixRole → String
  | inner => "Inner"
  | outer => "Outer"
  | opening => "Open"

/-- `sis_max_widths`: the table belongs to one policy and one digest. -/
def sisMaxWidths (policy : SisSecurityPolicyId) (tableDigest : Digest) (modulusProfile : SisModulusProfileId) (d : UInt32)
    (coeffLinfBound : BitVec 128) : Option (List ℕ) :=
  if policy ≠ defaultSisSecurityPolicy then none
  else if tableDigest ≠ currentSisTableDigest then none
  else 𝔞.generatedSisMaxWidths modulusProfile d coeffLinfBound

def ceilSupportedLinfBound (policy : SisSecurityPolicyId) (tableDigest : Digest) (profile : SisModulusProfileId)
    (role : SisMatrixRole) (d : UInt32) (linf : BitVec 128) : Option (BitVec 128) := do
  guard (linf ≠ 0)
  let bound ← 𝔞.supportedCell role profile d linf
  let _ ← 𝔞.sisRoleCell role profile d bound
  let _ ← sisMaxWidths 𝔞 policy tableDigest profile d bound
  return bound

def sisTableKeyForLinfBound (policy : SisSecurityPolicyId) (tableDigest : Digest) (profile : SisModulusProfileId)
    (role : SisMatrixRole) (d : UInt32) (linf : BitVec 128) : Option SisTableKey :=
  (ceilSupportedLinfBound 𝔞 policy tableDigest profile role d linf).map fun bound =>
    ⟨policy, tableDigest, profile, role, d, bound⟩

def minSecureRank (key : SisTableKey) (width : ℕ) : Option ℕ := do
  let maxModuleRank ← 𝔞.sisRoleCell key.role key.modulusProfile key.ringDimension key.coeffLinfBound
  let widths ← sisMaxWidths 𝔞 key.policy key.tableDigest key.modulusProfile key.ringDimension key.coeffLinfBound
  ((widths.take maxModuleRank).findIdx? (width ≤ ·)).map (· + 1)

/-- `audit_commit_matrix_fields`, by the key it returns. -/
def auditCommitMatrixFields (expectedRole : SisMatrixRole) (key : SisTableKey) (outputRank inputWidth : UInt64) :
    Result SisTableKey := do
  ensure (¬ (outputRank = 0 ∨ inputWidth = 0))
    (.invalidSetup (expectedRole.name ++ " matrix requires nonzero output_rank and input_width"))
  let audited ← okOr (sisTableKeyForLinfBound 𝔞 key.policy key.tableDigest key.modulusProfile expectedRole
    key.ringDimension key.coeffLinfBound) (.invalidSetup (expectedRole.name ++ " matrix has no audited SIS table key"))
  let floor ← okOr (minSecureRank 𝔞 audited inputWidth.toNat)
    (.invalidSetup (expectedRole.name ++ " matrix has no audited SIS rank"))
  ensure (¬ outputRank.toNat < floor) (.invalidSetup (expectedRole.name ++ " matrix output_rank is below SIS floor"))
  return audited

def minSecureL2Rank (key : SisL2TableKey) (width : ℕ) : Option ℕ := do
  guard (¬ (width = 0 ∨ key.policy ≠ defaultSisSecurityPolicy ∨ key.tableDigest ≠ currentSisL2TableDigest))
  let widths ← 𝔞.generatedL2SisMaxWidths key.modulusProfile key.ringDimension key.collisionL2Sq
  (widths.findIdx? (width ≤ ·)).map (· + 1)

def PhysicalL2NormProofShape.numbers : PhysicalL2NormProofShape → PhysicalL2.PhysicalL2NormProofShape
  | direct len => .direct len.toNat
  | limbGram len blockLen limbCount => .limbGram len.toNat blockLen.toNat limbCount.toNat

def validateL2ResponseShape (key : SisL2TableKey) (inputWidth : UInt64) (shape : PhysicalL2NormProofShape) :
    Result Unit := do
  shape.numbers.validate
  let len ← okOr (checkedMul usizeBits inputWidth.toNat key.ringDimension.toNat)
    (.invalidSetup "L2 physical response length overflow")
  ensure (shape.numbers.physicalResponseLen = len)
    (.invalidSetup "L2 norm shape response length does not match A matrix physical length")

def InnerCommitMatrixParams.validate (m : InnerCommitMatrixParams) : Result Unit :=
  match m.securityRoute with
  | .linf key => do
    let audited ← auditCommitMatrixFields 𝔞 .inner key m.outputRank m.inputWidth
    ensure (audited = key) (.invalidSetup "A matrix L-infinity table key is not canonical")
  | .l2 key responseL2SqCap shape => do
    validateL2ResponseShape key m.inputWidth shape
    ensure (¬ (responseL2SqCap = 0 ∨ ((minSecureL2Rank 𝔞 key m.inputWidth.toNat).all (m.outputRank.toNat < ·)) = true))
      (.invalidSetup "A matrix L2 route is below its audited SIS floor")

def LinfCommitMatrix.validate {R : SisMatrixRole} (m : LinfCommitMatrix R) : Result Unit := do
  let audited ← auditCommitMatrixFields 𝔞 R m.sisTableKey m.outputRank m.inputWidth
  ensure (audited = m.sisTableKey) (.invalidSetup (R.name ++ " matrix SIS table key is not canonical"))

/-! ## Groups -/

def GadgetDigits.validate (d : GadgetDigits) (fieldBits : ℕ) : Result Unit :=
  ensure (¬ (𝔞.signedDigitKernel d.logBasis = false ∨ d.numDigits = 0 ∨
    d.numDigits.toNat > 𝔞.computeNumDigitsFieldWidth fieldBits d.logBasis))
    (.invalidSetup "commitment group inner basis or digit depth exceeds the supported field decomposition")

def divCeil (a b : ℕ) : ℕ := PhysicalL2.divCeil a b

def BlockGeometry.validate (b : BlockGeometry) : Result Unit := do
  ensure (¬ (b.liveRingElementsPerClaim = 0 ∨ b.positionsPerBlock = 0 ∨ isPowerOfTwo b.positionsPerBlock.toNat = false ∨
    b.liveBlocks = 0)) (.invalidSetup "invalid digit-innermost block geometry")
  ensure (b.liveBlocks.toNat = divCeil b.liveRingElementsPerClaim.toNat b.positionsPerBlock.toNat)
    (.invalidSetup "num_live_blocks does not equal ceil(num_live_ring_elements_per_claim / num_positions_per_block)")
  let _ ← okOr (checkedNextPowerOfTwo b.liveBlocks.toNat) (.invalidSetup "block-index domain size overflows usize")
  return ()

namespace CommitmentSliceCount

variable (c : CommitmentSliceCount)

def validateForCommitment (absoluteCommitmentLevel : ℕ) (payloadMode : CommitmentPayloadMode) (numLiveBlocks : ℕ) :
    Result Unit := do
  ensure (¬ c.get > numLiveBlocks) (.invalidSetup "B commitment slice count exceeds live blocks")
  ensure (¬ (c.get > 1 ∧ absoluteCommitmentLevel ≥ 2))
    (.invalidSetup ("B commitment slicing is not supported at absolute level " ++ toString absoluteCommitmentLevel))
  ensure (¬ (c.get > 1 ∧ payloadMode.isCompressed = false))
    (.invalidSetup "B commitment slicing requires compressed payload mode")

/-- `CommitmentSliceGeometry::try_new`, by its `physical_input_width`. -/
def physicalInputWidth (numLiveBlocks numPolynomials innerOutputRank numDigitsOuter innerRingDimension
    outerRingDimension : ℕ) : Result ℕ := do
  ensure (¬ (numPolynomials = 0 ∨ innerOutputRank = 0 ∨ numDigitsOuter = 0 ∨ innerRingDimension = 0 ∨
    outerRingDimension = 0 ∨ innerRingDimension % outerRingDimension ≠ 0))
    (.invalidSetup "B commitment slice geometry is malformed")
  ensure (¬ c.get > numLiveBlocks) (.invalidSetup "B commitment slice count exceeds live blocks")
  let ranges ← dyadicBlockRanges numLiveBlocks c.get
  ensure (∀ range ∈ ranges, range.start < range.stop) (.invalidSetup "B commitment slices must be nonempty")
  let maxBlocksPerSlice ← okOr (ranges.map fun range => range.stop - range.start).max?
    (.invalidSetup "B commitment has no slices")
  let ratio := innerRingDimension / outerRingDimension
  let blockWidth ← okOr (do checkedMul usizeBits (← checkedMul usizeBits innerOutputRank ratio) numDigitsOuter)
    (.invalidSetup "B slice block width overflow")
  let physical ← okOr (do checkedMul usizeBits (← checkedMul usizeBits blockWidth maxBlocksPerSlice) numPolynomials)
    (.invalidSetup "physical B width overflow")
  let _ ← okOr (do checkedMul usizeBits (← checkedMul usizeBits blockWidth numLiveBlocks) numPolynomials)
    (.invalidSetup "logical B width overflow")
  return physical

end CommitmentSliceCount

def validateSetupPrefixDomain (naturalLen nPrefix : ℕ) : Result Unit := do
  let expected ← okOr (checkedNextPowerOfTwo naturalLen)
    (.invalidSetup "setup-prefix natural length overflows its padded domain")
  ensure (¬ (naturalLen = 0 ∨ nPrefix ≠ expected))
    (.invalidSetup "setup-prefix commitment domain is not the canonical padded natural length")

namespace GroupCommitPhaseParams

variable (g : GroupCommitPhaseParams)

/-- `derive_slice_geometry`, by its width. -/
def physicalInputWidth : Result ℕ :=
  g.outerSliceCount.physicalInputWidth g.blocks.liveBlocks.toNat g.group.numPolynomials.toNat
    g.inner.matrix.outputRank.toNat g.outer.digits.numDigits.toNat g.inner.matrix.ringDimension
    g.outer.matrix.ringDimension

def validate (fieldBits : ℕ) : Result Unit := do
  g.group.validate
  ensure (g.version = currentVersion)
    (.invalidSetup ("unsupported committed-group profile version " ++ toString g.version.toNat))
  g.inner.matrix.validate 𝔞
  g.outer.matrix.validate 𝔞
  ensure (¬ (isPowerOfTwo g.inner.matrix.ringDimension = false ∨ isPowerOfTwo g.outer.matrix.ringDimension = false ∨
    g.inner.matrix.ringDimension % g.outer.matrix.ringDimension ≠ 0))
    (.invalidSetup "precommitted group requires power-of-two A/B dimensions with A divisible by B")
  g.inner.digits.validate 𝔞 fieldBits
  ensure (¬ (g.outer.digits.logBasis = 0 ∨ g.outer.digits.numDigits = 0))
    (.invalidSetup "commitment group layout requires nonzero outer basis and digit depth")
  g.outerSliceCount.validateForCommitment 0 .compressed g.blocks.liveBlocks.toNat
  ensure (¬ (g.inner.matrix.sisModulusProfile.fieldBits ≠ fieldBits ∨
    g.outer.matrix.sisTableKey.modulusProfile.fieldBits ≠ fieldBits))
    (.invalidSetup "committed-group matrix modulus profile does not match the field")
  let expectedAWidth ← okOr (checkedMul usizeBits g.blocks.positionsPerBlock.toNat g.inner.digits.numDigits.toNat)
    (.invalidSetup "committed-group A width overflow")
  let expectedBWidth ← g.physicalInputWidth
  ensure (¬ (g.inner.matrix.inputWidth.toNat ≠ expectedAWidth ∨ g.outer.matrix.inputWidth.toNat ≠ expectedBWidth))
    (.invalidSetup "committed-group A/B matrix widths do not match frozen geometry")

def validateSetupPrefixGeometry (naturalLen : UInt64) : Result Unit := do
  let fieldBits := g.inner.matrix.sisModulusProfile.fieldBits
  g.inner.digits.validate 𝔞 fieldBits
  ensure (g.inner.digits.numDigits.toNat = 𝔞.computeNumDigitsFieldWidth fieldBits g.inner.digits.logBasis)
    (.invalidSetup "setup-prefix inner digit depth does not cover the full field width")
  ensure (g.group.numPolynomials = 1) (.invalidSetup "setup-prefix commitment profile must be singleton")
  let nPrefix ← okOr (Checked.pow2 g.group.numVars.toNat) (.invalidSetup "setup-prefix domain overflow")
  validateSetupPrefixDomain naturalLen.toNat nPrefix
  let dSetup := g.inner.matrix.ringDimension
  ensure (¬ (dSetup = 0 ∨ nPrefix % dSetup ≠ 0))
    (.invalidSetup "setup-prefix domain must be a multiple of its A ring dimension")
  let committedRings ← okOr (checkedMul usizeBits g.blocks.liveBlocks.toNat g.blocks.positionsPerBlock.toNat)
    (.invalidSetup "setup-prefix block geometry overflow")
  ensure (¬ (g.blocks.liveRingElementsPerClaim.toNat ≠ nPrefix / dSetup ∨ committedRings ≠ nPrefix / dSetup))
    (.invalidSetup "setup-prefix block geometry must commit all rings in the full power-of-two prefix")

/-- `validate_root_geometry`: the committed source fills its Boolean domain. -/
def validateRootGeometry : Result Unit := do
  let sourceFieldLen ← okOr (checkedMul usizeBits g.blocks.liveRingElementsPerClaim.toNat g.inner.matrix.ringDimension)
    (.invalidSetup "commitment group layout geometry overflow")
  ensure (g.group.numVars.toNat < 2 ^ 32) (.invalidSetup "commitment group variable count exceeds u32")
  let expectedFieldLen ← okOr (Checked.pow2 g.group.numVars.toNat)
    (.invalidSetup "commitment group field length overflow")
  ensure (¬ (sourceFieldLen = 0 ∨ checkedNextPowerOfTwo sourceFieldLen ≠ some expectedFieldLen ∨
    g.blocks.positionsPerBlock = 0 ∨ isPowerOfTwo g.blocks.positionsPerBlock.toNat = false ∨
    g.blocks.liveBlocks.toNat ≠ divCeil g.blocks.liveRingElementsPerClaim.toNat g.blocks.positionsPerBlock.toNat))
    (.invalidSetup "precommitted group geometry does not match group.num_vars")

def validateFrozenPrecommit (fieldBits : ℕ) : Result Unit := do
  g.validate 𝔞 fieldBits
  g.validateRootGeometry

end GroupCommitPhaseParams

def SparseChallengeConfig.weight (c : SparseChallengeConfig) : ℕ := min (c.countPm1.toNat + c.countPm2.toNat) (2 ^ 64 - 1)

def GroupOpenPhaseParams.roleDims (g : GroupOpenPhaseParams) (sharedOpening : ℕ) : CommitmentRingDims :=
  ⟨g.profile.inner.matrix.ringDimension, g.profile.outer.matrix.ringDimension, sharedOpening⟩

/-- `role_dims` of a level. -/
def CommittedGroupParams.roleDims (p : CommittedGroupParams) : CommitmentRingDims :=
  p.ownGroup.roleDims p.openMatrix.ringDimension

def asSetupError (r : Except String Unit) : Result Unit := mapErr r .invalidSetup

def GroupOpenPhaseParams.challengeDimension (g : GroupOpenPhaseParams) : ℕ :=
  match g.opening.openingMethod with
  | .evaluationTrace => g.profile.inner.matrix.ringDimension
  | .subringCoefficientPacking s => s.toNat

def GroupOpenPhaseParams.validateSetupPrefix (g : GroupOpenPhaseParams) : Result Unit :=
  match g.setupNaturalLen with
  | some naturalLen => g.profile.validateSetupPrefixGeometry 𝔞 naturalLen
  | none => .ok ()

def GroupOpenPhaseParams.validate (g : GroupOpenPhaseParams) : Result Unit := do
  g.profile.validate 𝔞 g.profile.inner.matrix.sisModulusProfile.fieldBits
  g.validateSetupPrefix 𝔞
  if g.opening.foldChallengeConfig.weight = 0 then .ok ()
  else asSetupError (𝔞.validateForRingDim g.opening.foldChallengeConfig g.challengeDimension)
  ensure (¬ (g.opening.logBasisOpen = 0 ∨ g.opening.numDigitsOpen = 0 ∨ g.opening.numDigitsFold = 0))
    (.invalidSetup "precommitted exact fold plan is missing or inconsistent")
  ensure (¬ g.opening.logBasisOpen < g.profile.outer.digits.logBasis)
    (.invalidSetup "certified opening basis must dominate the precommitted outer basis")
  let expectedAWidth ← okOr (checkedMul usizeBits g.profile.blocks.positionsPerBlock.toNat
    g.profile.inner.digits.numDigits.toNat) (.invalidSetup "precommitted A width overflow")
  ensure (¬ (g.profile.outer.matrix.ringDimension = 0 ∨
    g.profile.inner.matrix.ringDimension % g.profile.outer.matrix.ringDimension ≠ 0))
    (.invalidSetup "precommitted A-native source rings do not decompose into B-native subcolumns")
  let expectedBWidth ← g.profile.physicalInputWidth
  ensure (¬ (g.profile.inner.matrix.inputWidth.toNat ≠ expectedAWidth ∨
    g.profile.outer.matrix.inputWidth.toNat ≠ expectedBWidth))
    (.invalidSetup "precommitted A/B keys do not match frozen ranks, bounds, or digit depths")

/-! ## Levels -/

def CommittedSourceEncoding.validate (e : CommittedSourceEncoding) (ringDimension : ℕ) : Result Unit :=
  match e with
  | .canonicalCoefficientTable => .ok ()
  | .tensorSubfieldProjection k =>
    ensure (¬ (k ≤ 1 ∨ isPowerOfTwo k.toNat = false ∨ k.toNat > ringDimension / 2 ∨ ringDimension / 2 % k.toNat ≠ 0))
      (.invalidSetup "tensor source encoding requires a power-of-two extension degree greater than one dividing half the A ring dimension")

namespace CommittedGroupParams

variable (p : CommittedGroupParams)

def validateCompression : Result Unit := do
  if p.payloadMode.isCompressed then
    ensure (← 𝔞.hasOuterCompressionPlan p.ownGroup.profile)
      (.invalidSetup "commitment B image cannot feed the compression ladder")
  else .ok ()

def validateCommitmentRequest (foldLevel numPolynomials : ℕ) : Result Unit := do
  p.groups.validateTopology
  let ownProfile := p.ownGroup.profile
  ownProfile.validate 𝔞 ownProfile.inner.matrix.sisModulusProfile.fieldBits
  ownProfile.validateRootGeometry
  ensure (numPolynomials ≠ 0) (.invalidSetup "commitment request requires at least one polynomial")
  ensure (ownProfile.group.numPolynomials.toNat = numPolynomials)
    (.invalidSetup "stored own-group arity disagrees with the commitment request")
  p.sourceEncoding.validate p.dA
  p.blocks.validate
  p.outerSliceCount.validateForCommitment foldLevel p.payloadMode p.blocks.liveBlocks.toNat
  let expectedAWidth ← okOr (checkedMul usizeBits p.blocks.positionsPerBlock.toNat p.inner.digits.numDigits.toNat)
    (.invalidSetup "commitment A width overflow")
  ensure (p.inner.matrix.inputWidth.toNat = expectedAWidth)
    (.invalidSetup "commitment A matrix width disagrees with request geometry")
  let expectedBWidth ← ownProfile.physicalInputWidth
  ensure (p.outer.matrix.inputWidth.toNat = expectedBWidth)
    (.invalidSetup "commitment B matrix width disagrees with sliced request geometry")
  p.validateCompression 𝔞

/-- `commitment_polynomial_count`: the arity that the physical B width encodes. -/
def commitmentPolynomialCount : Result ℕ := do
  let width ← p.outerSliceCount.physicalInputWidth p.blocks.liveBlocks.toNat 1 p.inner.matrix.outputRank.toNat
    p.outer.digits.numDigits.toNat p.inner.matrix.ringDimension p.outer.matrix.ringDimension
  let count := p.outer.matrix.inputWidth.toNat / width
  ensure (width ≠ 0 ∧ count ≠ 0 ∧ p.outer.matrix.inputWidth.toNat = count * width)
    (.invalidSetup "commitment B width does not encode an exact polynomial count")
  return count

end CommittedGroupParams

def recursiveOpeningNumVarsForGeometry (dA : ℕ) (blocks : BlockGeometry) : Result ℕ := do
  ensure (¬ (dA = 0 ∨ isPowerOfTwo dA = false ∨ blocks.positionsPerBlock = 0 ∨
    isPowerOfTwo blocks.positionsPerBlock.toNat = false ∨ blocks.liveBlocks = 0))
    (.invalidSetup "invalid recursive opening geometry")
  okOr (do
    let bits ← checkedAdd usizeBits (trailingZeros dA) (trailingZeros blocks.positionsPerBlock.toNat)
    checkedAdd usizeBits bits (trailingZeros (← checkedNextPowerOfTwo blocks.liveBlocks.toNat)))
    (.invalidSetup "recursive opening num_vars overflow")

inductive FoldSuccessor
  | recursive (params : CommittedGroupParams)
  | terminal (params : TerminalFoldParams)

namespace FoldSuccessor

def ringDimension : FoldSuccessor → ℕ
  | recursive params => params.dA
  | terminal params => params.dA

def blocks : FoldSuccessor → BlockGeometry
  | recursive params => params.blocks
  | terminal params => params.blocks

def sourceBlockLen (s : FoldSuccessor) : Result ℕ :=
  okOr (Checked.product [s.ringDimension, s.blocks.positionsPerBlock.toNat]) (.invalidSetup "source block width overflow")

def recursiveOpeningNumVars : FoldSuccessor → Result ℕ
  | recursive params => do
    params.blocks.validate
    recursiveOpeningNumVarsForGeometry params.dA params.blocks
  | terminal params => recursiveOpeningNumVarsForGeometry params.dA params.blocks

end FoldSuccessor

/-! ## Phases -/

def foldRequiresCoefficientPacking (numChunks : UInt64) (absoluteLevel : ℕ) : Bool :=
  decide (absoluteLevel < 2) || decide (numChunks > 1)

inductive RingRelationPhase
  | quotientPrefix
  | reducedEvaluationSuffix
  deriving DecidableEq

namespace RingRelationPhase

/-- `candidate_modes`; only a direct evaluation trace is eligible for reduced evaluation. -/
def candidateModes (phase : RingRelationPhase) (absoluteLevel : ℕ) (witnessChunk : ChunkedWitnessCfg)
    (consumesSetupPrefix : Bool) (openingMethod : OpeningMethod) : List RingRelationMode :=
  let eligible := !foldRequiresCoefficientPacking witnessChunk.numChunks absoluteLevel &&
    (!consumesSetupPrefix && !openingMethod.isPacking)
  match phase, eligible with
  | quotientPrefix, true => [.quotientLift, .reducedEvaluation]
  | quotientPrefix, false => [.quotientLift]
  | reducedEvaluationSuffix, true => [.reducedEvaluation]
  | reducedEvaluationSuffix, false => []

def after : RingRelationMode → RingRelationPhase
  | .quotientLift => quotientPrefix
  | .reducedEvaluation => reducedEvaluationSuffix

end RingRelationPhase

inductive CommitmentPayloadPhase
  | compressedPrefix
  | rawSuffix
  deriving DecidableEq

namespace CommitmentPayloadPhase

def candidateModes (phase : CommitmentPayloadPhase) (absoluteFoldLevel : ℕ) (consumesSetupPrefix : Bool) :
    List CommitmentPayloadMode :=
  if absoluteFoldLevel < 2 ∨ consumesSetupPrefix = true then [.compressed]
  else match phase with
    | compressedPrefix => [.compressed, .raw]
    | rawSuffix => [.raw]

def after (phase : CommitmentPayloadPhase) (mode : CommitmentPayloadMode) : CommitmentPayloadPhase :=
  if mode.isCompressed then phase else rawSuffix

end CommitmentPayloadPhase

/-! ## Schedules -/

namespace FoldSchedule

variable (s : FoldSchedule)

/-- The successor of the fold before position `index` of the recursive folds. -/
def successor (index : ℕ) : FoldSuccessor :=
  match s.recursiveFolds[index]? with
  | some fold => .recursive fold.params
  | none => .terminal s.terminal

def successorInputLen (index : ℕ) : UInt64 := (s.recursiveFolds[index]?.map (·.inputWitnessLen)).getD s.terminal.inputWitnessLen

/-- The root checks of `validate_structure`. -/
def validateRoot : Result Unit := do
  let root := s.root.params
  root.groups.validateTopology
  ensure (root.setupPrefix = none) (.invalidSetup "root fold cannot consume a setup prefix")
  root.validateCommitmentRequest 𝔞 0 (← root.commitmentPolynomialCount)
  root.precommittedGroups.forM (GroupOpenPhaseParams.validate 𝔞)
  ensure root.payloadMode.isCompressed (.invalidSetup "root fold payload must be compressed")
  ensure (root.ringRelationMode ∈ RingRelationPhase.quotientPrefix.candidateModes 0 root.witnessChunk false root.openingMethod)
    (.invalidSetup "nonterminal level 0 ring relation mode disagrees with the reduced-evaluation suffix policy")

abbrev Phases := CommitmentPayloadPhase × RingRelationPhase

/-- One recursive fold in the first loop of `validate_structure`. -/
def validateStep (phases : Phases) (step : FoldParams × ℕ) : Result Phases := do
  let (fold, index) := step
  let (payloadPhase, relationPhase) := phases
  fold.params.groups.validateTopology
  ensure (fold.params.precommittedGroups = [])
    (.invalidSetup ("recursive fold " ++ toString index ++ " cannot consume precommitted groups"))
  fold.params.validateCommitmentRequest 𝔞 (index + 1) 1
  let consumesSetupPrefix := fold.params.setupPrefix.isSome
  ensure (fold.params.ringRelationMode ∈
    relationPhase.candidateModes (index + 1) fold.params.witnessChunk consumesSetupPrefix fold.params.openingMethod)
    (.invalidSetup ("nonterminal level " ++ toString (index + 1) ++
      " ring relation mode disagrees with the reduced-evaluation suffix policy"))
  ensure (¬ (payloadPhase = .rawSuffix ∧ consumesSetupPrefix = true))
    (.invalidSetup ("recursive fold " ++ toString index ++
      " cannot resume compression by consuming a setup prefix after the raw suffix"))
  ensure (fold.params.payloadMode ∈ payloadPhase.candidateModes (index + 1) consumesSetupPrefix)
    (.invalidSetup ("recursive fold " ++ toString index ++ " payload mode disagrees with the compression cutover policy"))
  return (payloadPhase.after fold.params.payloadMode, RingRelationPhase.after fold.params.ringRelationMode)

def validateCapacity (name : String) (fold : FoldParams) (successor : FoldSuccessor) : Result Unit := do
  𝔞.validateStage2SuccessorCapacity name fold.params fold.outputWitnessLen successor.ringDimension
    (← successor.recursiveOpeningNumVars)

/-- A setup prefix in the second loop of `validate_structure`. -/
def validatePrefix (index : ℕ) (setupPrefix : Option GroupOpenPhaseParams) : Result Unit :=
  match setupPrefix with
  | some setupPrefix => mapErr (setupPrefix.validate 𝔞) fun e =>
      .invalidSetup ("recursive fold " ++ toString index ++ " setup-prefix geometry is invalid: " ++ e.display)
  | none => .ok ()

/-- One recursive fold in the second loop of `validate_structure`. -/
def validateEdge (step : FoldParams × ℕ) : Result Unit := do
  let (fold, index) := step
  ensure (¬ (fold.inputWitnessLen = 0 ∨ fold.outputWitnessLen = 0))
    (.invalidSetup "recursive fold witness lengths must be nonzero")
  validatePrefix 𝔞 index fold.params.setupPrefix
  ensure (fold.outputWitnessLen = s.successorInputLen (index + 1))
    (.invalidSetup ("recursive fold " ++ toString index ++ " output witness length does not match its successor"))
  validateCapacity 𝔞 ("recursive fold " ++ toString index) fold (s.successor (index + 1))

/-- The setup prefix inherited by the root, checked when there is one. -/
def validateAccumulated : Result Unit :=
  if s.rootAccumulatedSetupPrefixLen ≠ 0 then
    validateSetupPrefixDomain s.rootAccumulatedSetupPrefixLen.toNat s.rootAccumulatedSetupPrefixLen.toNat
  else .ok ()

def validateStructure : Result Unit := do
  s.validateAccumulated
  s.validateRoot 𝔞
  let start : Phases := (.compressedPrefix, RingRelationPhase.after s.root.params.ringRelationMode)
  let _ ← s.recursiveFolds.zipIdx.foldlM (validateStep 𝔞) start
  ensure (¬ (s.root.inputWitnessLen = 0 ∨ s.root.outputWitnessLen = 0))
    (.invalidSetup "root fold witness lengths must be nonzero")
  ensure (s.root.outputWitnessLen = s.successorInputLen 0)
    (.invalidSetup "root output witness length does not match its successor")
  validateCapacity 𝔞 "root fold" s.root (s.successor 0)
  s.recursiveFolds.zipIdx.forM (s.validateEdge 𝔞)
  ensure (¬ (s.terminal.inputWitnessLen = 0 ∨ s.terminal.responseShape.layout.logicalNumElems = 0))
    (.invalidSetup "terminal fold and response lengths must be nonzero")

end FoldSchedule

/-! ## Opening methods -/

def CommittedSourceEncoding.forProducer (openingMethod : OpeningMethod) (extensionDegree : UInt64) (isRoot : Bool) :
    CommittedSourceEncoding :=
  if !isRoot && !openingMethod.isPacking && decide (extensionDegree > 1) then .tensorSubfieldProjection extensionDegree
  else .canonicalCoefficientTable

structure OpeningExecutionGroup where
  openingMethod : OpeningMethod
  innerCommitMatrix : InnerCommitMatrixParams
  foldChallengeConfig : SparseChallengeConfig
  sourceEncoding : CommittedSourceEncoding
  expectedSourceEncoding : Option CommittedSourceEncoding

/-- The encoding checks of `validate_level_opening_execution`. -/
def OpeningExecutionGroup.validateEncoding (g : OpeningExecutionGroup) (extensionDegree : UInt64) : Result Unit := do
  match g.openingMethod, g.sourceEncoding with
  | .evaluationTrace, .tensorSubfieldProjection k =>
    ensure (k = extensionDegree) (.invalidSetup "tensor source encoding does not match the protocol extension degree")
  | .subringCoefficientPacking _, .tensorSubfieldProjection _ =>
    .error (.invalidSetup "coefficient packing requires the canonical coefficient source encoding")
  | _, .canonicalCoefficientTable => .ok ()

/-- The packing checks of `validate_level_opening_execution`. -/
def OpeningExecutionGroup.validatePacking (g : OpeningExecutionGroup) (extensionDegree : UInt64) : Result Unit :=
  match g.openingMethod with
  | .evaluationTrace => .ok ()
  | .subringCoefficientPacking s => do
    let expected ← okOr (𝔞.productionForRingDim s)
      (.invalidSetup "coefficient-packing challenge subring is not in the production ladder")
    ensure g.innerCommitMatrix.securityRoute.isLinf
      (.invalidSetup "coefficient packing requires the L-infinity A security route")
    ensure (g.foldChallengeConfig = expected)
      (.invalidSetup "coefficient packing requires its audited production challenge family")
    let _ ← 𝔞.packingPartialWidth extensionDegree g.innerCommitMatrix.ringDimension s
    return ()

/-- One group of `validate_level_opening_execution`. -/
def OpeningExecutionGroup.validate (extensionDegree : UInt64) (g : OpeningExecutionGroup) : Result Unit := do
  g.validateEncoding extensionDegree
  ensure (∀ expected ∈ g.expectedSourceEncoding, expected = g.sourceEncoding)
    (.invalidSetup "committed source encoding does not match its producer geometry and opening method")
  g.validatePacking 𝔞 extensionDegree

def validateLevelOpeningExecution (absoluteLevel : ℕ) (numChunks extensionDegree : UInt64)
    (groups : List OpeningExecutionGroup) : Result Unit := do
  let first ← okOr groups.head? (.invalidSetup "nonterminal fold has no opening groups")
  ensure (¬ (foldRequiresCoefficientPacking numChunks absoluteLevel = true ∧ first.openingMethod.isPacking = false))
    (.invalidSetup ("nonterminal level " ++ toString absoluteLevel ++ " requires subring coefficient packing"))
  ensure (∀ group ∈ groups, group.openingMethod.isPacking = first.openingMethod.isPacking)
    (.invalidSetup "all groups consumed by one fold must use the same opening-method family")
  groups.forM (OpeningExecutionGroup.validate 𝔞 extensionDegree)

namespace FoldParams

variable (fold : FoldParams) (extensionDegree : UInt64)

/-- The own group of a fold, as the execution check reads it. -/
def ownExecutionGroup (isRoot : Bool) : OpeningExecutionGroup where
  openingMethod := fold.params.openingMethod
  innerCommitMatrix := fold.params.inner.matrix
  foldChallengeConfig := fold.params.foldChallengeConfig
  sourceEncoding := fold.params.sourceEncoding
  expectedSourceEncoding := some (.forProducer fold.params.openingMethod extensionDegree isRoot)

/-- A precommitted group or a setup prefix; only the former has a producer to compare with. -/
def precedingExecutionGroup (isPrefix : Bool) (group : GroupOpenPhaseParams) : OpeningExecutionGroup where
  openingMethod := group.opening.openingMethod
  innerCommitMatrix := group.profile.inner.matrix
  foldChallengeConfig := group.opening.foldChallengeConfig
  sourceEncoding := .canonicalCoefficientTable
  expectedSourceEncoding := if isPrefix then none else some (.forProducer group.opening.openingMethod extensionDegree true)

def rootExecutionGroups : List OpeningExecutionGroup :=
  fold.params.precommittedGroups.map (precedingExecutionGroup extensionDegree false) ++
    [fold.ownExecutionGroup extensionDegree true]

def recursiveExecutionGroups : List OpeningExecutionGroup :=
  fold.params.setupPrefix.toList.map (precedingExecutionGroup extensionDegree true) ++
    [fold.ownExecutionGroup extensionDegree false]

end FoldParams

def FoldSchedule.validateNonterminalOpeningExecution (s : FoldSchedule) (extensionDegree : UInt64) : Result Unit := do
  s.validateStructure 𝔞
  ensure (isPowerOfTwo extensionDegree.toNat) (.invalidSetup "opening extension degree must be a nonzero power of two")
  ensure (isPowerOfTwo s.root.inputWitnessLen.toNat) (.invalidSetup "root input witness length must be a power of two")
  validateLevelOpeningExecution 𝔞 0 s.root.params.witnessChunk.numChunks extensionDegree
    (s.root.rootExecutionGroups extensionDegree)
  s.recursiveFolds.zipIdx.forM fun (fold, index) =>
    validateLevelOpeningExecution 𝔞 (index + 1) fold.params.witnessChunk.numChunks extensionDegree
      (fold.recursiveExecutionGroups extensionDegree)

end Akita.Schedule
