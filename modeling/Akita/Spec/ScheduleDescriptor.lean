import Akita.Spec.Grinding
import Akita.Spec.ScheduleParams

/-!
# Descriptor bytes of a schedule

`schedule/descriptor.rs`, `layout/params/descriptor.rs` and the `append_descriptor_bytes` of every
part of a schedule, with the preimage of `schedule_row_digest` (`schedule_selection.rs`). Every
encoder returns the bytes that the source appends.
-/

namespace Akita.Schedule

open Lib
open Grinding (asciiBytes)

def pushUsize (value : UInt64) : List UInt8 := leBytes 8 value.toNat

/-- `push_usize` of a length. -/
def pushLen (len : ℕ) : List UInt8 := leBytes 8 len

def pushU32 (value : UInt32) : List UInt8 := leBytes 4 value.toNat

def pushU128 (value : BitVec 128) : List UInt8 := leBytes 16 value.toNat

/-! ## Matrices -/

def PhysicalL2NormProofShape.descriptorBytes : PhysicalL2NormProofShape → List UInt8
  | direct physicalResponseLen => 1 :: pushUsize physicalResponseLen
  | limbGram physicalResponseLen blockLen limbCount =>
    2 :: (pushUsize physicalResponseLen ++ pushUsize blockLen ++ pushUsize limbCount)

/-- `b"akita-l2-route-v1"`. -/
def l2RouteTag : List UInt8 := asciiBytes "akita-l2-route-v1"

def InnerCommitMatrixParams.descriptorBytes (m : InnerCommitMatrixParams) : List UInt8 :=
  [m.sisModulusProfile.descriptorTag, m.securityPolicy.tag, SisMatrixRole.inner.tag] ++
    match m.securityRoute with
    | .linf key => key.tableDigest.toList ++ pushU32 key.ringDimension ++ pushUsize m.outputRank ++
        pushUsize m.inputWidth ++ pushU128 key.coeffLinfBound
    | .l2 key responseL2SqCap normProofShape => l2RouteTag ++ key.tableDigest.toList ++ pushU32 key.ringDimension ++
        pushUsize m.outputRank ++ pushUsize m.inputWidth ++ pushU128 key.collisionL2Sq ++ pushU128 responseL2SqCap ++
        normProofShape.descriptorBytes

def LinfCommitMatrix.descriptorBytes {R : SisMatrixRole} (m : LinfCommitMatrix R) : List UInt8 :=
  [m.sisTableKey.modulusProfile.descriptorTag, m.sisTableKey.policy.tag, m.sisTableKey.role.tag] ++
    m.sisTableKey.tableDigest.toList ++ pushU32 m.sisTableKey.ringDimension ++ pushUsize m.outputRank ++
    pushUsize m.inputWidth ++ pushU128 m.sisTableKey.coeffLinfBound

/-! ## Groups -/

def BlockGeometry.descriptorBytes (b : BlockGeometry) : List UInt8 :=
  pushUsize b.liveRingElementsPerClaim ++ pushUsize b.positionsPerBlock ++ pushUsize b.liveBlocks

def GadgetDigits.descriptorBytes (d : GadgetDigits) : List UInt8 := pushU32 d.logBasis ++ pushUsize d.numDigits

/-- `RoleParams::append_descriptor_bytes`, by the encoder of its matrix. -/
def RoleParams.descriptorBytes {M : Type} (matrixBytes : M → List UInt8) (r : RoleParams M) : List UInt8 :=
  r.digits.descriptorBytes ++ matrixBytes r.matrix

def CommitmentSliceCount.descriptorBytes (c : CommitmentSliceCount) : List UInt8 := [c.count]

def GroupCommitPhaseParams.descriptorBytes (g : GroupCommitPhaseParams) : List UInt8 :=
  [g.version] ++ pushUsize g.group.numVars ++ pushUsize g.group.numPolynomials ++ g.blocks.descriptorBytes ++
    g.outerSliceCount.descriptorBytes ++ g.inner.descriptorBytes InnerCommitMatrixParams.descriptorBytes ++
    g.outer.descriptorBytes LinfCommitMatrix.descriptorBytes

def SparseChallengeConfig.descriptorBytes (c : SparseChallengeConfig) : List UInt8 :=
  [0] ++ pushUsize c.countPm1 ++ pushUsize c.countPm2

def OpeningMethod.descriptorBytes : OpeningMethod → List UInt8
  | evaluationTrace => [0]
  | subringCoefficientPacking challengeSubringDimension => 1 :: pushUsize challengeSubringDimension

def GroupOpeningPlan.descriptorBytes (o : GroupOpeningPlan) : List UInt8 :=
  o.openingMethod.descriptorBytes ++ pushU32 o.logBasisOpen ++ o.foldChallengeConfig.descriptorBytes ++
    pushUsize o.numDigitsOpen ++ pushUsize o.numDigitsFold

def GroupOpenPhaseParams.descriptorBytes (g : GroupOpenPhaseParams) : List UInt8 :=
  g.profile.descriptorBytes ++ g.opening.descriptorBytes

def setupPrefixContentTag : List UInt8 := asciiBytes "SPF4"

/-- `append_setup_prefix_descriptor_bytes`: the slot's identity, then the opening plan. -/
def GroupOpenPhaseParams.setupPrefixDescriptorBytes (g : GroupOpenPhaseParams) : List UInt8 :=
  (match g.setupNaturalLen with
    | some naturalLen => setupPrefixContentTag ++ pushUsize naturalLen ++ g.profile.descriptorBytes
    | none => []) ++ g.opening.descriptorBytes

/-! ## Folds -/

def CommittedSourceEncoding.descriptorBytes : CommittedSourceEncoding → List UInt8
  | canonicalCoefficientTable => [0]
  | tensorSubfieldProjection extensionDegree => 1 :: pushUsize extensionDegree

def ChunkedWitnessCfg.descriptorBytes (c : ChunkedWitnessCfg) : List UInt8 :=
  pushUsize c.numChunks ++ pushUsize c.numActivatedLevels

/-- The tagged setup prefix that ends a level's parameters. -/
def setupPrefixBytes (setupPrefix : Option GroupOpenPhaseParams) : List UInt8 :=
  match setupPrefix with
  | some setupPrefix => 1 :: setupPrefix.setupPrefixDescriptorBytes
  | none => [0]

namespace CommittedGroupParams

variable (p : CommittedGroupParams)

/-- The chunk binding, written for chunked levels only. -/
def chunkBytes : List UInt8 :=
  if p.witnessChunk.numChunks ≠ 1 then
    pushUsize (p.successorBlockLen.getD 1) ++ pushLen p.witnessChunkEnds.length ++ p.witnessChunkEnds.flatMap pushUsize ++
      p.witnessChunk.descriptorBytes
  else []

/-- The precommitted groups, written when there are any. -/
def precommittedBytes : List UInt8 :=
  if p.precommittedGroups ≠ [] then
    pushLen p.precommittedGroups.length ++ p.precommittedGroups.flatMap GroupOpenPhaseParams.descriptorBytes
  else []

def levelBytes : List UInt8 :=
  [p.payloadMode.tag, p.ringRelationMode.tag] ++ p.sourceEncoding.descriptorBytes ++ p.openingMethod.descriptorBytes ++
    pushU32 p.inner.digits.logBasis ++ pushU32 p.outer.digits.logBasis ++ pushU32 p.opening.digits.logBasis ++
    p.inner.matrix.descriptorBytes ++ p.outer.matrix.descriptorBytes ++ p.opening.matrix.descriptorBytes ++
    pushUsize p.blocks.liveRingElementsPerClaim ++ pushUsize p.blocks.positionsPerBlock ++ pushUsize p.blocks.liveBlocks ++
    p.outerSliceCount.descriptorBytes ++ p.foldChallengeConfig.descriptorBytes ++ pushUsize p.inner.digits.numDigits ++
    pushUsize p.outer.digits.numDigits ++ pushUsize p.opening.digits.numDigits ++ pushUsize p.numDigitsFold

/-- `append_descriptor_bytes`. -/
def descriptorBytes : List UInt8 :=
  p.levelBytes ++ p.chunkBytes ++ p.precommittedBytes ++ setupPrefixBytes p.setupPrefix

end CommittedGroupParams

/-- `append_witness_partition_descriptor`. -/
def witnessPartitionBytes (numChunks : UInt64) : List UInt8 :=
  if numChunks = 1 then [0] else 1 :: pushUsize numChunks

/-- `append_root_fold_descriptor_bytes`. -/
def FoldParams.rootDescriptorBytes (root : FoldParams) : List UInt8 :=
  root.params.descriptorBytes ++ pushLen root.params.precommittedGroups.length ++
    (root.params.precommittedGroups.flatMap fun group => group.profile.descriptorBytes ++ group.descriptorBytes) ++
    root.params.opening.matrix.descriptorBytes ++ root.params.foldChallengeConfig.descriptorBytes ++
    witnessPartitionBytes root.params.witnessChunk.numChunks ++ pushUsize root.inputWitnessLen ++
    pushUsize root.outputWitnessLen

/-- `append_recursive_fold_descriptor_bytes`. -/
def FoldParams.recursiveDescriptorBytes (fold : FoldParams) : List UInt8 :=
  fold.params.descriptorBytes ++ fold.params.opening.matrix.descriptorBytes ++
    fold.params.foldChallengeConfig.descriptorBytes ++ setupPrefixBytes fold.params.setupPrefix ++
    witnessPartitionBytes fold.params.witnessChunk.numChunks ++ pushUsize fold.inputWitnessLen ++
    pushUsize fold.outputWitnessLen

def TailSegmentGroupLayout.descriptorBytes (g : TailSegmentGroupLayout) : List UInt8 :=
  pushUsize g.zCoords ++ pushUsize g.eFieldElems ++ pushUsize g.tFieldElems ++ pushU128 (g.zLinfCap.getD 0) ++
    pushU32 g.zRiceLowBits ++ pushUsize g.zPayloadBytes

def TailSegmentLayout.descriptorBytes (l : TailSegmentLayout) : List UInt8 :=
  pushUsize l.ringDimension ++ pushLen l.groups.length ++ l.groups.flatMap TailSegmentGroupLayout.descriptorBytes ++
    pushUsize l.logicalNumElems

def TerminalFoldParams.descriptorBytes (t : TerminalFoldParams) : List UInt8 :=
  [3] ++ t.blocks.descriptorBytes ++ t.inner.descriptorBytes InnerCommitMatrixParams.descriptorBytes ++
    t.fold.descriptorBytes ++ t.foldChallengeConfig.descriptorBytes ++ t.responseShape.layout.descriptorBytes ++
    pushUsize t.inputWitnessLen

def FoldSchedule.canonicalDescriptorBytes (s : FoldSchedule) : List UInt8 :=
  [2] ++ s.root.rootDescriptorBytes ++ pushLen s.recursiveFolds.length ++
    s.recursiveFolds.flatMap FoldParams.recursiveDescriptorBytes ++ s.terminal.descriptorBytes ++
    if s.rootAccumulatedSetupPrefixLen ≠ 0 then pushUsize s.rootAccumulatedSetupPrefixLen else []

/-! ## The row -/

/-- `SCHEDULE_ROW_DOMAIN_V3`. -/
def scheduleRowDomain : List UInt8 := asciiBytes "akita/schedule-row/v3"

/-- A profile behind its length. -/
def GroupCommitPhaseParams.framedBytes (profile : GroupCommitPhaseParams) : List UInt8 :=
  pushLen profile.descriptorBytes.length ++ profile.descriptorBytes

/-- What `schedule_row_digest` hashes. -/
def scheduleRowPreimage (profiles : CommittedGroupBatchProfile) (schedule : FoldSchedule) : Result (List UInt8) := do
  let numGroups ← okOr (checkedAdd usizeBits profiles.precommitteds.length 1)
    (.invalidSetup "schedule row group count overflow")
  return scheduleRowDomain ++ [1] ++ pushLen numGroups ++ profiles.precommitteds.flatMap GroupCommitPhaseParams.framedBytes ++
    profiles.finalGroup.framedBytes ++ pushLen schedule.canonicalDescriptorBytes.length ++ schedule.canonicalDescriptorBytes

end Akita.Schedule
