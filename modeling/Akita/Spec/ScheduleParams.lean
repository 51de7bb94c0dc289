import Akita.Spec.Error

/-!
# Fold schedules

`akita-params/src/schedule.rs`, `schedule/profiles.rs`, `layout/params.rs` with its `params/`
folder, `layout/geometry.rs`, `layout/tail_segments.rs` and `sis/ajtai_key.rs`: the parameters of
every fold of a schedule, its groups and matrices, and the committed profiles of a batch. A `usize`
is a 64-bit word.
-/

namespace Akita.Schedule

/-! ## Matrices -/

abbrev Digest := Vector UInt8 32

inductive SisMatrixRole
  | inner
  | outer
  | opening
  deriving DecidableEq, Repr

def SisMatrixRole.tag : SisMatrixRole → UInt8
  | inner => 1
  | outer => 2
  | opening => 3

inductive SisSecurityPolicyId
  | quantum169BitADPS16
  deriving DecidableEq, Repr

def SisSecurityPolicyId.tag : SisSecurityPolicyId → UInt8
  | quantum169BitADPS16 => 2

inductive SisModulusProfileId
  | q32Offset99
  | q64Offset59
  | q128OffsetA7F7
  deriving DecidableEq, Repr

namespace SisModulusProfileId

/-- `sis_modulus_profile_tag`. -/
def descriptorTag : SisModulusProfileId → UInt8
  | q32Offset99 => 0
  | q64Offset59 => 1
  | q128OffsetA7F7 => 2

def fieldBits : SisModulusProfileId → ℕ
  | q32Offset99 => 32
  | q64Offset59 => 64
  | q128OffsetA7F7 => 128

end SisModulusProfileId

structure SisTableKey where
  policy : SisSecurityPolicyId
  tableDigest : Digest
  modulusProfile : SisModulusProfileId
  role : SisMatrixRole
  ringDimension : UInt32
  coeffLinfBound : BitVec 128
  deriving DecidableEq

structure SisL2TableKey where
  policy : SisSecurityPolicyId
  tableDigest : Digest
  modulusProfile : SisModulusProfileId
  ringDimension : UInt32
  collisionL2Sq : BitVec 128
  deriving DecidableEq

inductive PhysicalL2NormProofShape
  | direct (physicalResponseLen : UInt64)
  | limbGram (physicalResponseLen blockLen limbCount : UInt64)
  deriving DecidableEq

inductive InnerCommitSecurityRoute
  | linf (key : SisTableKey)
  | l2 (tableKey : SisL2TableKey) (responseL2SqCap : BitVec 128) (normProofShape : PhysicalL2NormProofShape)
  deriving DecidableEq

namespace InnerCommitSecurityRoute

def policy : InnerCommitSecurityRoute → SisSecurityPolicyId
  | linf key => key.policy
  | l2 key _ _ => key.policy

def modulusProfile : InnerCommitSecurityRoute → SisModulusProfileId
  | linf key => key.modulusProfile
  | l2 key _ _ => key.modulusProfile

def ringDimension : InnerCommitSecurityRoute → ℕ
  | linf key => key.ringDimension.toNat
  | l2 key _ _ => key.ringDimension.toNat

def isLinf : InnerCommitSecurityRoute → Bool
  | linf _ => true
  | l2 .. => false

end InnerCommitSecurityRoute

structure InnerCommitMatrixParams where
  outputRank : UInt64
  inputWidth : UInt64
  securityRoute : InnerCommitSecurityRoute
  deriving DecidableEq

namespace InnerCommitMatrixParams

variable (m : InnerCommitMatrixParams)

def securityPolicy : SisSecurityPolicyId := m.securityRoute.policy

def sisModulusProfile : SisModulusProfileId := m.securityRoute.modulusProfile

def ringDimension : ℕ := m.securityRoute.ringDimension

def coeffLinfBound : Option (BitVec 128) :=
  match m.securityRoute with
  | .linf key => some key.coeffLinfBound
  | .l2 .. => none

end InnerCommitMatrixParams

/-- `LinfCommitMatrix<R>`: the B and D matrices, by their role. -/
structure LinfCommitMatrix (R : SisMatrixRole) where
  outputRank : UInt64
  inputWidth : UInt64
  sisTableKey : SisTableKey
  deriving DecidableEq

abbrev OuterCommitMatrixParams := LinfCommitMatrix .outer

abbrev OpenCommitMatrixParams := LinfCommitMatrix .opening

def LinfCommitMatrix.ringDimension {R : SisMatrixRole} (m : LinfCommitMatrix R) : ℕ := m.sisTableKey.ringDimension.toNat

/-! ## Groups -/

/-- `BlockGeometry`: `N` live ring elements in `B` blocks of `M` positions. -/
structure BlockGeometry where
  liveRingElementsPerClaim : UInt64
  positionsPerBlock : UInt64
  liveBlocks : UInt64
  deriving DecidableEq

structure GadgetDigits where
  logBasis : UInt32
  numDigits : UInt64
  deriving DecidableEq

structure RoleParams (M : Type) where
  digits : GadgetDigits
  matrix : M
  deriving DecidableEq

abbrev InnerRoleParams := RoleParams InnerCommitMatrixParams

abbrev OuterRoleParams := RoleParams OuterCommitMatrixParams

abbrev OpenRoleParams := RoleParams OpenCommitMatrixParams

structure PolynomialGroupLayout where
  numVars : UInt64
  numPolynomials : UInt64
  deriving DecidableEq

/-- `CommitmentSliceCount`; the derived deserializer admits any byte. -/
structure CommitmentSliceCount where
  count : UInt8
  deriving DecidableEq

def CommitmentSliceCount.get (c : CommitmentSliceCount) : ℕ := c.count.toNat

/-- `GroupCommitPhaseParams`: the frozen identity of a committed group. -/
structure GroupCommitPhaseParams where
  version : UInt8
  group : PolynomialGroupLayout
  blocks : BlockGeometry
  outerSliceCount : CommitmentSliceCount
  inner : InnerRoleParams
  outer : OuterRoleParams
  deriving DecidableEq

def GroupCommitPhaseParams.currentVersion : UInt8 := 4

structure SparseChallengeConfig where
  countPm1 : UInt64
  countPm2 : UInt64
  deriving DecidableEq

inductive OpeningMethod
  | evaluationTrace
  | subringCoefficientPacking (challengeSubringDimension : UInt64)
  deriving DecidableEq

def OpeningMethod.isPacking : OpeningMethod → Bool
  | evaluationTrace => false
  | subringCoefficientPacking _ => true

structure GroupOpeningPlan where
  openingMethod : OpeningMethod
  foldChallengeConfig : SparseChallengeConfig
  logBasisOpen : UInt32
  numDigitsOpen : UInt64
  numDigitsFold : UInt64
  deriving DecidableEq

/-- `GroupOpenPhaseParams`; the natural length marks a setup prefix. -/
structure GroupOpenPhaseParams where
  profile : GroupCommitPhaseParams
  opening : GroupOpeningPlan
  setupNaturalLen : Option UInt64
  deriving DecidableEq

/-! ## Folds -/

inductive CommittedSourceEncoding
  | canonicalCoefficientTable
  | tensorSubfieldProjection (extensionDegree : UInt64)
  deriving DecidableEq

inductive CommitmentPayloadMode
  | compressed
  | raw
  deriving DecidableEq

namespace CommitmentPayloadMode

def tag : CommitmentPayloadMode → UInt8
  | compressed => 1
  | raw => 2

def isCompressed : CommitmentPayloadMode → Bool
  | compressed => true
  | raw => false

end CommitmentPayloadMode

inductive RingRelationMode
  | quotientLift
  | reducedEvaluation
  deriving DecidableEq

def RingRelationMode.tag : RingRelationMode → UInt8
  | quotientLift => 1
  | reducedEvaluation => 2

structure ChunkedWitnessCfg where
  numChunks : UInt64
  numActivatedLevels : UInt64
  deriving DecidableEq

namespace ChunkedWitnessCfg

def defaultNonChunked : ChunkedWitnessCfg := ⟨1, 0⟩

def usesMultiChunk (c : ChunkedWitnessCfg) : Bool := c.numChunks > 1 && c.numActivatedLevels > 0

end ChunkedWitnessCfg

/-- `FoldGroups`: both constructors establish nonemptiness, and a decoded value is rejected by
`validate_topology` before a group of it is read. -/
structure FoldGroups where
  entries : List GroupOpenPhaseParams
  nonempty : entries ≠ []
  deriving DecidableEq

namespace FoldGroups

variable (g : FoldGroups)

def own : GroupOpenPhaseParams := g.entries.getLast g.nonempty

def preceding : List GroupOpenPhaseParams := g.entries.dropLast

def setupPrefix : Option GroupOpenPhaseParams := g.preceding.head?.filter (·.setupNaturalLen.isSome)

def precommitted : List GroupOpenPhaseParams :=
  if g.setupPrefix.isSome then g.preceding.tail else g.preceding

def validateTopology : Result Unit := do
  ensure (g.own.setupNaturalLen = none) (.invalidSetup "a fold's own group cannot be a setup prefix")
  ensure (∀ group ∈ g.preceding.tail, group.setupNaturalLen = none)
    (.invalidSetup "a setup prefix may appear only as the first group")

end FoldGroups

structure CommittedGroupParams where
  groups : FoldGroups
  openMatrix : OpenCommitMatrixParams
  payloadMode : CommitmentPayloadMode
  ringRelationMode : RingRelationMode
  sourceEncoding : CommittedSourceEncoding
  witnessChunk : ChunkedWitnessCfg
  successorBlockLen : Option UInt64
  witnessChunkEnds : List UInt64
  deriving DecidableEq

namespace CommittedGroupParams

variable (p : CommittedGroupParams)

def ownGroup : GroupOpenPhaseParams := p.groups.own

def setupPrefix : Option GroupOpenPhaseParams := p.groups.setupPrefix

def precommittedGroups : List GroupOpenPhaseParams := p.groups.precommitted

def inner : InnerRoleParams := p.ownGroup.profile.inner

def outer : OuterRoleParams := p.ownGroup.profile.outer

/-- `open`: the shared D matrix with the own group's digits. -/
def opening : OpenRoleParams := ⟨⟨p.ownGroup.opening.logBasisOpen, p.ownGroup.opening.numDigitsOpen⟩, p.openMatrix⟩

def outerSliceCount : CommitmentSliceCount := p.ownGroup.profile.outerSliceCount

def openingMethod : OpeningMethod := p.ownGroup.opening.openingMethod

def foldChallengeConfig : SparseChallengeConfig := p.ownGroup.opening.foldChallengeConfig

def blocks : BlockGeometry := p.ownGroup.profile.blocks

def numDigitsFold : UInt64 := p.ownGroup.opening.numDigitsFold

def dA : ℕ := p.inner.matrix.ringDimension

end CommittedGroupParams

structure FoldParams where
  params : CommittedGroupParams
  inputWitnessLen : UInt64
  outputWitnessLen : UInt64
  deriving DecidableEq

structure TailSegmentGroupLayout where
  zCoords : UInt64
  eFieldElems : UInt64
  tFieldElems : UInt64
  zLinfCap : Option (BitVec 128)
  zRiceLowBits : UInt32
  zPayloadBytes : UInt64
  deriving DecidableEq

structure TailSegmentLayout where
  ringDimension : UInt64
  groups : List TailSegmentGroupLayout
  logicalNumElems : UInt64
  deriving DecidableEq

structure TerminalResponseShape where
  layout : TailSegmentLayout
  deriving DecidableEq

structure TerminalFoldParams where
  blocks : BlockGeometry
  inner : InnerRoleParams
  fold : GadgetDigits
  foldChallengeConfig : SparseChallengeConfig
  responseShape : TerminalResponseShape
  inputWitnessLen : UInt64
  deriving DecidableEq

def TerminalFoldParams.dA (t : TerminalFoldParams) : ℕ := t.inner.matrix.ringDimension

structure FoldSchedule where
  rootAccumulatedSetupPrefixLen : UInt64
  root : FoldParams
  recursiveFolds : List FoldParams
  terminal : TerminalFoldParams
  deriving DecidableEq

def FoldSchedule.numFoldLevels (s : FoldSchedule) : ℕ := s.recursiveFolds.length + 2

structure CommittedGroupBatchProfile where
  finalGroup : GroupCommitPhaseParams
  precommitteds : List GroupCommitPhaseParams
  deriving DecidableEq

end Akita.Schedule
