import Akita.Spec.CommittedGroup
import Akita.Spec.ScheduleDescriptor

/-!
# Setup-prefix slots

`akita-params/src/layout/setup_prefix_slots.rs` and `setup_prefix_commit_matrix.rs`: the identity of a committed prefix of
the setup vector, its order and its codec. A `usize` is written as a 64-bit word; writing returns the bytes that the source
writes.
-/

namespace Akita.SetupPrefix

open Lib Schedule Commitment
open Descriptor (SerializationError Validate Decode require readExact)

structure SetupPrefixSlotId where
  naturalLen : UInt64
  commitmentProfile : GroupCommitPhaseParams
  deriving DecidableEq

/-! ## Commitment matrices -/

class SetupPrefixCommitMatrixParams (K : Type) where
  expectedRole : SisMatrixRole
  sisModulusProfile : K → SisModulusProfileId
  securityPolicy : K → SisSecurityPolicyId
  sisTableKey : K → Option SisTableKey
  outputRank : K → UInt64
  inputWidth : K → UInt64
  coeffLinfBound : K → Option (BitVec 128)
  newUnchecked : SisSecurityPolicyId → Digest → SisModulusProfileId → UInt64 → UInt64 → BitVec 128 → UInt64 → K

/-- `new_unchecked` keeps the low half of the dimension (`ring_dimension as u32`). -/
instance : SetupPrefixCommitMatrixParams OuterCommitMatrixParams where
  expectedRole := .outer
  sisModulusProfile m := m.sisTableKey.modulusProfile
  securityPolicy m := m.sisTableKey.policy
  sisTableKey m := some m.sisTableKey
  outputRank := LinfCommitMatrix.outputRank
  inputWidth := LinfCommitMatrix.inputWidth
  coeffLinfBound m := some m.sisTableKey.coeffLinfBound
  newUnchecked policy tableDigest profile outputRank inputWidth coeffLinfBound ringDimension :=
    ⟨outputRank, inputWidth, ⟨policy, tableDigest, profile, .outer, ringDimension.toUInt32, coeffLinfBound⟩⟩

instance : SetupPrefixCommitMatrixParams InnerCommitMatrixParams where
  expectedRole := .inner
  sisModulusProfile := InnerCommitMatrixParams.sisModulusProfile
  securityPolicy := InnerCommitMatrixParams.securityPolicy
  sisTableKey := InnerCommitMatrixParams.sisTableKey
  outputRank := InnerCommitMatrixParams.outputRank
  inputWidth := InnerCommitMatrixParams.inputWidth
  coeffLinfBound := InnerCommitMatrixParams.coeffLinfBound
  newUnchecked policy tableDigest profile outputRank inputWidth coeffLinfBound ringDimension :=
    ⟨outputRank, inputWidth, .linf ⟨policy, tableDigest, profile, .inner, ringDimension.toUInt32, coeffLinfBound⟩⟩

section

variable {K : Type} [SetupPrefixCommitMatrixParams K]

open SetupPrefixCommitMatrixParams

/-- The wire layout mirrors the descriptor bytes of a matrix. -/
def serializeCommitMatrix (key : K) : Except SerializationError (List UInt8) := do
  let tableKey ← orInvalidData (sisTableKey key) "setup prefix cannot use an L2 A security route"
  let bound ← orInvalidData (coeffLinfBound key) "setup prefix cannot use an L2 A security route"
  return serializePrimitive (sisModulusProfile key).descriptorTag ++ serializePrimitive (securityPolicy key).tag ++
    serializePrimitive tableKey.role.tag ++ tableKey.tableDigest.toList ++
    serializePrimitive tableKey.ringDimension.toUInt64 ++ serializePrimitive (outputRank key) ++
    serializePrimitive (inputWidth key) ++ serializePrimitive bound

def deserializeSisModulusProfile : Decode SisModulusProfileId := do
  let tag ← deserializePrimitive UInt8
  Decoder.lift (orInvalidData (if tag = 0 then some .q32Offset99 else if tag = 1 then some .q64Offset59
    else if tag = 2 then some .q128OffsetA7F7 else none) "invalid SIS modulus profile tag")

def deserializeSisSecurityPolicy : Decode SisSecurityPolicyId := do
  let tag ← deserializePrimitive UInt8
  Decoder.lift (orInvalidData (SisSecurityPolicyId.fromTag tag) "invalid SIS security policy tag")

def deserializeSisMatrixRole : Decode SisMatrixRole := do
  let tag ← deserializePrimitive UInt8
  Decoder.lift (orInvalidData (SisMatrixRole.fromTag tag) "invalid SIS matrix role tag")

variable (K) in
def deserializeCommitMatrix : Decode K := do
  let modulusProfile ← deserializeSisModulusProfile
  let policy ← deserializeSisSecurityPolicy
  let role ← deserializeSisMatrixRole
  Decoder.lift (require (role = expectedRole K) "setup-prefix commitment matrix has the wrong role")
  let tableDigest ← readExact 32
  let ringDimension ← deserializePrimitive UInt64
  let rowLen ← deserializePrimitive UInt64
  let colLen ← deserializePrimitive UInt64
  let bound ← deserializePrimitive (BitVec 128)
  return newUnchecked policy tableDigest modulusProfile rowLen colLen bound ringDimension

def commitMatrixSerializedSize (_ : K) : ℕ := 1 + 1 + 1 + 32 + 8 + 8 + 8 + 16

end

/-! ## Profiles -/

def serializeCommittedGroupProfile (params : GroupCommitPhaseParams) : Except SerializationError (List UInt8) := do
  let inner ← serializeCommitMatrix params.inner.matrix
  let outer ← serializeCommitMatrix params.outer.matrix
  return serializePrimitive params.version ++ serializePrimitive params.group.numVars ++
    serializePrimitive params.group.numPolynomials ++ serializePrimitive params.blocks.liveRingElementsPerClaim ++
    serializePrimitive params.blocks.positionsPerBlock ++ serializePrimitive params.blocks.liveBlocks ++
    serializePrimitive (UInt64.ofNat params.outerSliceCount.get) ++ serializePrimitive params.inner.digits.logBasis ++
    serializePrimitive params.inner.digits.numDigits ++ inner ++ serializePrimitive params.outer.digits.logBasis ++
    serializePrimitive params.outer.digits.numDigits ++ outer

def deserializeCommittedGroupProfile : Decode GroupCommitPhaseParams := do
  let version ← deserializePrimitive UInt8
  Decoder.lift (require (version = GroupCommitPhaseParams.currentVersion)
    ("unknown committed-group profile version " ++ toString version.toNat))
  let numVars ← deserializePrimitive UInt64
  let numPolynomials ← deserializePrimitive UInt64
  let liveRingElementsPerClaim ← deserializePrimitive UInt64
  let positionsPerBlock ← deserializePrimitive UInt64
  let liveBlocks ← deserializePrimitive UInt64
  let outerSliceCount ← CommittedGroup.readSliceCount
  let logBasisInner ← deserializePrimitive UInt32
  let numDigitsInner ← deserializePrimitive UInt64
  let innerMatrix ← deserializeCommitMatrix InnerCommitMatrixParams
  let logBasisOuter ← deserializePrimitive UInt32
  let numDigitsOuter ← deserializePrimitive UInt64
  let outerMatrix ← deserializeCommitMatrix OuterCommitMatrixParams
  return { version
           group := ⟨numVars, numPolynomials⟩
           blocks := ⟨liveRingElementsPerClaim, positionsPerBlock, liveBlocks⟩
           outerSliceCount
           inner := ⟨⟨logBasisInner, numDigitsInner⟩, innerMatrix⟩
           outer := ⟨⟨logBasisOuter, numDigitsOuter⟩, outerMatrix⟩ }

def committedGroupProfileSerializedSize (params : GroupCommitPhaseParams) : ℕ :=
  1 + 8 + 8 + 8 + 8 + 8 + 8 + 4 + 8 + commitMatrixSerializedSize params.inner.matrix + 4 + 8 +
    commitMatrixSerializedSize params.outer.matrix

/-! ## Slots -/

namespace SetupPrefixSlotId

/-- `Ord::cmp`: the length, then the descriptor bytes of the profile. -/
def cmp (a b : SetupPrefixSlotId) : Ordering :=
  (compare a.naturalLen b.naturalLen).then (compare a.commitmentProfile.descriptorBytes b.commitmentProfile.descriptorBytes)

/-- `PartialEq::eq`. -/
def eq (a b : SetupPrefixSlotId) : Bool := (a.cmp b).isEq

variable (𝔞 : AuditBackend) (id : SetupPrefixSlotId)

def check : Except SerializationError Unit := asInvalidData (do
  id.commitmentProfile.validate 𝔞 id.commitmentProfile.inner.matrix.sisModulusProfile.fieldBits
  id.commitmentProfile.validateSetupPrefixGeometry 𝔞 id.naturalLen)

/-- `serialize_with_mode`, the same in both modes. -/
def serialize : Except SerializationError (List UInt8) := do
  id.check 𝔞
  let profile ← serializeCommittedGroupProfile id.commitmentProfile
  return setupPrefixContentTag ++ serializePrimitive id.naturalLen ++ profile

def serializedSize : ℕ := setupPrefixContentTag.length + 8 + committedGroupProfileSerializedSize id.commitmentProfile

/-- `deserialize_with_mode`. -/
def deserialize (validate : Validate) : Decode SetupPrefixSlotId := do
  let contentTag ← readExact 4
  Decoder.lift (require (contentTag.toList = setupPrefixContentTag) "unsupported setup-prefix content format")
  let naturalLen ← deserializePrimitive UInt64
  let commitmentProfile ← deserializeCommittedGroupProfile
  let out : SetupPrefixSlotId := { naturalLen, commitmentProfile }
  Decoder.lift (if validate = .yes then out.check 𝔞 else .ok ())
  return out

end SetupPrefixSlotId

end Akita.SetupPrefix
