import Akita.Spec.CompressionPlan
import Akita.Spec.InstanceDescriptor

/-!
# Committed groups

`akita-types/src/proof/commitment.rs` with the codec of `RingVec` (`proof/containers.rs`), the checked matrix
constructors of `sis/ajtai_key.rs` and the primitive codecs of `akita-serialization`: a polynomial group with
its frozen profile, its payload and the digest of its bytes.

A group is written to a byte vector, which does not fail; a read fails at the end of the source. The codec of
the field, the digest hash and the allocator are parameters.
-/

namespace Akita.Schedule

open Compression (CompressionChainPlan)

/-! ## Profiles -/

def SisMatrixRole.fromTag (tag : UInt8) : Option SisMatrixRole :=
  if tag = 1 then some .inner else if tag = 2 then some .outer else if tag = 3 then some .opening else none

def SisSecurityPolicyId.fromTag (tag : UInt8) : Option SisSecurityPolicyId :=
  if tag = 2 then some .quantum169BitADPS16 else none

def SisModulusProfileId.tag : SisModulusProfileId → UInt8
  | q32Offset99 => 1
  | q64Offset59 => 2
  | q128OffsetA7F7 => 3

def SisModulusProfileId.fromTag (tag : UInt8) : Option SisModulusProfileId :=
  if tag = 1 then some .q32Offset99 else if tag = 2 then some .q64Offset59
  else if tag = 3 then some .q128OffsetA7F7 else none

def CommitmentSliceCount.tryNew (count : UInt64) : Result CommitmentSliceCount :=
  if count = 1 then .ok ⟨1⟩ else if count = 2 then .ok ⟨2⟩ else if count = 4 then .ok ⟨4⟩
  else if count = 8 then .ok ⟨8⟩
  else .error (.invalidSetup ("B commitment slice count " ++ toString count.toNat ++
    " is outside the supported set \x7b1, 2, 4, 8\x7d"))

def CommitmentSliceCount.logicalOutputRows (c : CommitmentSliceCount) (physicalOutputRank : ℕ) : Result ℕ := do
  ensure (physicalOutputRank ≠ 0) (.invalidSetup "physical B output rank must be nonzero")
  okOr (checkedMul usizeBits physicalOutputRank c.get) (.invalidSetup "logical B row count overflow")

def GroupCommitPhaseParams.outerCompressionPlan (g : GroupCommitPhaseParams) : Result CompressionChainPlan := do
  let rows ← g.outerSliceCount.logicalOutputRows g.outer.matrix.outputRank.toNat
  CompressionChainPlan.forImage g.outer.matrix.sisTableKey.modulusProfile rows g.outer.matrix.ringDimension

def InnerCommitMatrixParams.sisTableKey (m : InnerCommitMatrixParams) : Option SisTableKey :=
  match m.securityRoute with
  | .linf key => some key
  | .l2 .. => none

variable (𝔞 : AuditBackend)

/-- `InnerCommitMatrixParams::try_new`: the key holds the bound of its audited row. -/
def InnerCommitMatrixParams.tryNew (policy : SisSecurityPolicyId) (tableDigest : Digest)
    (sisModulusProfile : SisModulusProfileId) (outputRank inputWidth : UInt64) (coeffLinfBound : BitVec 128)
    (ringDimension : UInt32) : Result InnerCommitMatrixParams := do
  let key ← auditCommitMatrixFields 𝔞 .inner
    ⟨policy, tableDigest, sisModulusProfile, .inner, ringDimension, coeffLinfBound⟩ outputRank inputWidth
  return ⟨outputRank, inputWidth, .linf key⟩

def LinfCommitMatrix.tryNew (R : SisMatrixRole) (policy : SisSecurityPolicyId) (tableDigest : Digest)
    (sisModulusProfile : SisModulusProfileId) (outputRank inputWidth : UInt64) (coeffLinfBound : BitVec 128)
    (ringDimension : UInt32) : Result (LinfCommitMatrix R) := do
  let key ← auditCommitMatrixFields 𝔞 R
    ⟨policy, tableDigest, sisModulusProfile, R, ringDimension, coeffLinfBound⟩ outputRank inputWidth
  return ⟨outputRank, inputWidth, key⟩

end Akita.Schedule

namespace Akita.Commitment

open Lib Schedule
open Descriptor (SerializationError Validate Decode require readExact defaultMaxSequenceLen)

/-! ## Codecs -/

inductive Compress
  | yes
  | no
  deriving DecidableEq, Repr

/-- The integers of `impl_primitive_serialization!`, with `to_le_bytes` and `from_le_bytes`. -/
class Primitive (T : Type) where
  size : ℕ
  toNat : T → ℕ
  ofNat : ℕ → T

instance : Primitive UInt8 := ⟨1, UInt8.toNat, UInt8.ofNat⟩

instance : Primitive UInt32 := ⟨4, UInt32.toNat, UInt32.ofNat⟩

instance : Primitive UInt64 := ⟨8, UInt64.toNat, UInt64.ofNat⟩

instance : Primitive (BitVec 128) := ⟨16, BitVec.toNat, BitVec.ofNat 128⟩

/-- `serialize_with_mode` of an integer. -/
def serializePrimitive {T : Type} [Primitive T] (value : T) : List UInt8 :=
  leBytes (Primitive.size T) (Primitive.toNat value)

/-- `deserialize_with_mode` of an integer. -/
def deserializePrimitive (T : Type) [Primitive T] : Decode T := do
  let bytes ← readExact (Primitive.size T)
  return Primitive.ofNat (leValue bytes.toList)

/-- `.map_err(|err| SerializationError::InvalidData(err.to_string()))`. -/
def asInvalidData {α : Type} (r : Result α) : Except SerializationError α :=
  match r with
  | .ok a => .ok a
  | .error e => .error (.invalidData e.display)

/-- `.ok_or_else(|| SerializationError::InvalidData(..))`. -/
def orInvalidData {α : Type} (o : Option α) (msg : String) : Except SerializationError α :=
  match o with
  | some a => .ok a
  | none => .error (.invalidData msg)

/-- The codec of a field: `Valid`, `AkitaSerialize` and `AkitaDeserialize`, with `MODULUS_BITS`. -/
structure FieldCodec (F : Type) where
  modulusBits : ℕ
  check : F → Except SerializationError Unit
  serialize : Compress → F → List UInt8
  serializedSize : Compress → F → ℕ
  deserialize : Compress → Validate → Decode F

/-- `impl_prime_serialization!` for the prime field of modulus `P`, in `bytes` bytes: a read is checked under
`Validate::Yes` and reduced otherwise. -/
def primeFieldCodec (P bytes modulusBits : ℕ) [NeZero P] : FieldCodec (ZMod P) where
  modulusBits
  check value := require (value.val < P) "out of range"
  serialize _ value := leBytes bytes value.val
  serializedSize _ _ := bytes
  deserialize _ validate := do
    let value ← readExact bytes
    let value := leValue value.toList
    Decoder.lift (require (validate = .yes → value < P) "out of range")
    return (value : ZMod P)

/-- `RingVec`, the rows of a `Commitment`; a decoded one has dimension 0. -/
structure RingVec (F : Type) where
  coeffs : List F
  ringDim : ℕ
  deriving DecidableEq

variable {F : Type} (codec : FieldCodec F)

namespace RingVec

def check (rows : RingVec F) : Except SerializationError Unit := rows.coeffs.forM codec.check

/-- `serialize_with_mode`. -/
def serialize (compress : Compress) (rows : RingVec F) : List UInt8 := rows.coeffs.flatMap (codec.serialize compress)

def serializedSize (compress : Compress) (rows : RingVec F) : ℕ := (rows.coeffs.map (codec.serializedSize compress)).sum

def reserveShapeLen (reserve : ℕ → Bool) (len : ℕ) : Except SerializationError Unit := do
  if len > defaultMaxSequenceLen then .error (.lengthLimitExceeded len defaultMaxSequenceLen)
  else require (reserve len = true) "shape-backed allocation failed"

/-- `deserialize_with_mode`. -/
def deserialize (reserve : ℕ → Bool) (compress : Compress) (validate : Validate) (numCoeffs : ℕ) :
    Decode (RingVec F) := do
  Decoder.lift (reserveShapeLen reserve numCoeffs)
  let coeffs ← decodeMany (codec.deserialize compress validate) numCoeffs
  let out : RingVec F := { coeffs, ringDim := 0 }
  Decoder.lift (if validate = .yes then out.check codec else .ok ())
  return out

end RingVec

/-! ## Groups -/

def maxUntrustedCommitmentCoefficients : ℕ := 2 ^ 26

def commitmentDigestTag : List UInt8 :=
  let name := "akita-pcs/commitment-digest/v8"
  Grinding.asciiBytes name ++ List.replicate (32 - name.length) 0

/-- `CommitmentDigest::of_canonical_bytes`, over the digest hash of `jolt-transcript`. -/
def commitmentDigest (hash : List UInt8 → Digest) (bytes : List UInt8) : Digest := hash (commitmentDigestTag ++ bytes)

structure CommittedGroup (F : Type) where
  profile : GroupCommitPhaseParams
  commitment : RingVec F
  digest : Digest
  deriving DecidableEq

/-- One matrix of `write_group`: the inner one is followed by the outer digits. -/
def writeMatrix (profile : GroupCommitPhaseParams) (matrix : SisTableKey) : List UInt8 :=
  serializePrimitive matrix.modulusProfile.tag ++ serializePrimitive matrix.policy.tag ++
    serializePrimitive matrix.role.tag ++ matrix.tableDigest.toList ++ serializePrimitive matrix.ringDimension ++
    (if matrix.role = .inner then
      serializePrimitive profile.inner.matrix.outputRank ++ serializePrimitive profile.inner.matrix.inputWidth
    else serializePrimitive profile.outer.matrix.outputRank ++ serializePrimitive profile.outer.matrix.inputWidth) ++
    serializePrimitive matrix.coeffLinfBound ++
    (if matrix.role = .inner then
      serializePrimitive profile.outer.digits.logBasis ++ serializePrimitive profile.outer.digits.numDigits
    else [])

/-- `write_group`: the profile, then the rows. -/
def writeGroup (profile : GroupCommitPhaseParams) (commitment : RingVec F) (compress : Compress) :
    Except SerializationError (List UInt8) := do
  let header := serializePrimitive profile.version ++ serializePrimitive profile.group.numVars ++
    serializePrimitive profile.group.numPolynomials ++ serializePrimitive profile.blocks.liveRingElementsPerClaim ++
    serializePrimitive profile.blocks.positionsPerBlock ++ serializePrimitive profile.blocks.liveBlocks ++
    serializePrimitive (UInt64.ofNat profile.outerSliceCount.get) ++ serializePrimitive profile.inner.digits.logBasis ++
    serializePrimitive profile.inner.digits.numDigits
  let innerTableKey ← orInvalidData profile.inner.matrix.sisTableKey "precommitted group cannot use an L2 A security route"
  return header ++ [innerTableKey, profile.outer.matrix.sisTableKey].flatMap (writeMatrix profile) ++
    commitment.serialize codec compress

section

variable (𝔞 : AuditBackend)

def checkGroup (profile : GroupCommitPhaseParams) (commitment : RingVec F) : Except SerializationError Unit := do
  asInvalidData (profile.validateFrozenPrecommit 𝔞 codec.modulusBits)
  commitment.check codec
  let plan ← asInvalidData profile.outerCompressionPlan
  require (commitment.coeffs.length = plan.terminalCoefficients) "committed-group rows do not match the frozen descriptor"

/-- What `read_matrix_fields` returns. -/
structure MatrixFields where
  policy : SisSecurityPolicyId
  tableDigest : Digest
  modulusProfile : SisModulusProfileId
  outputRank : UInt64
  inputWidth : UInt64
  coeffLinfBound : BitVec 128
  ringDimension : UInt32
  deriving DecidableEq

def readMatrixFields (expectedRole : SisMatrixRole) : Decode MatrixFields := do
  let modulusTag ← deserializePrimitive UInt8
  let policyTag ← deserializePrimitive UInt8
  let roleTag ← deserializePrimitive UInt8
  let modulusProfile ← Decoder.lift (orInvalidData (SisModulusProfileId.fromTag modulusTag) "unknown SIS modulus-profile tag")
  let policy ← Decoder.lift (orInvalidData (SisSecurityPolicyId.fromTag policyTag) "unknown SIS security-policy tag")
  let role ← Decoder.lift (orInvalidData (SisMatrixRole.fromTag roleTag) "unknown SIS matrix-role tag")
  Decoder.lift (require (role = expectedRole) "committed-group matrix role mismatch")
  let tableDigest ← readExact 32
  let ringDimension ← deserializePrimitive UInt32
  let outputRank ← deserializePrimitive UInt64
  let inputWidth ← deserializePrimitive UInt64
  let coeffLinfBound ← deserializePrimitive (BitVec 128)
  return ⟨policy, tableDigest, modulusProfile, outputRank, inputWidth, coeffLinfBound, ringDimension⟩

namespace CommittedGroup

def serializedSize (g : CommittedGroup F) (compress : Compress) : ℕ :=
  let matrixSize := 1 + 1 + 1 + 32 + 4 + 8 + 8 + 16
  1 + 16 + 32 + 4 + 8 + matrixSize + 4 + 8 + matrixSize + g.commitment.serializedSize codec compress

/-- `serialize_with_mode`. -/
def serialize (g : CommittedGroup F) (compress : Compress) : Except SerializationError (List UInt8) := do
  checkGroup codec 𝔞 g.profile g.commitment
  writeGroup codec g.profile g.commitment compress

variable (hash : List UInt8 → Digest)

def new (profile : GroupCommitPhaseParams) (commitment : RingVec F) : Except SerializationError (CommittedGroup F) := do
  checkGroup codec 𝔞 profile commitment
  let bytes ← writeGroup codec profile commitment .no
  return { profile, commitment, digest := commitmentDigest hash bytes }

/-- `read_usize(&mut reader)` as a slice count. -/
def readSliceCount : Decode CommitmentSliceCount := do
  let count ← deserializePrimitive UInt64
  Decoder.lift (asInvalidData (CommitmentSliceCount.tryNew count))

/-- The reads of `deserialize_with_mode` up to its `descriptor`. -/
def readDescriptor : Decode GroupCommitPhaseParams := do
  let version ← deserializePrimitive UInt8
  Decoder.lift (require (version = GroupCommitPhaseParams.currentVersion)
    ("unknown committed-group profile version " ++ toString version.toNat))
  let numVars ← deserializePrimitive UInt64
  let numPolynomials ← deserializePrimitive UInt64
  let liveRingElementsPerClaim ← deserializePrimitive UInt64
  let positionsPerBlock ← deserializePrimitive UInt64
  let liveBlocks ← deserializePrimitive UInt64
  let outerSliceCount ← readSliceCount
  let logBasisInner ← deserializePrimitive UInt32
  let numDigitsInner ← deserializePrimitive UInt64
  let a ← readMatrixFields .inner
  let innerMatrix ← Decoder.lift (asInvalidData (InnerCommitMatrixParams.tryNew 𝔞 a.policy a.tableDigest a.modulusProfile
    a.outputRank a.inputWidth a.coeffLinfBound a.ringDimension))
  Decoder.lift (require (innerMatrix.coeffLinfBound = some a.coeffLinfBound)
    "committed-group A coefficient bound is not its SIS table's bound")
  let logBasisOuter ← deserializePrimitive UInt32
  let numDigitsOuter ← deserializePrimitive UInt64
  let b ← readMatrixFields .outer
  let outerMatrix ← Decoder.lift (asInvalidData (LinfCommitMatrix.tryNew 𝔞 .outer b.policy b.tableDigest b.modulusProfile
    b.outputRank b.inputWidth b.coeffLinfBound b.ringDimension))
  Decoder.lift (require (outerMatrix.sisTableKey.coeffLinfBound = b.coeffLinfBound)
    "committed-group B coefficient bound is not its SIS table's bound")
  return { version
           group := ⟨numVars, numPolynomials⟩
           blocks := ⟨liveRingElementsPerClaim, positionsPerBlock, liveBlocks⟩
           outerSliceCount
           inner := ⟨⟨logBasisInner, numDigitsInner⟩, innerMatrix⟩
           outer := ⟨⟨logBasisOuter, numDigitsOuter⟩, outerMatrix⟩ }

/-- `deserialize_with_mode`. -/
def deserialize (reserve : ℕ → Bool) (compress : Compress) (validate : Validate) : Decode (CommittedGroup F) := do
  let descriptor ← readDescriptor 𝔞
  Decoder.lift (asInvalidData (descriptor.validateFrozenPrecommit 𝔞 codec.modulusBits))
  let plan ← Decoder.lift (asInvalidData descriptor.outerCompressionPlan)
  let numCoeffs := plan.terminalCoefficients
  Decoder.lift (require (¬ numCoeffs > maxUntrustedCommitmentCoefficients)
    ("committed-group coefficient count " ++ toString numCoeffs ++ " exceeds allocation cap " ++
      toString maxUntrustedCommitmentCoefficients))
  let commitment ← RingVec.deserialize codec reserve compress validate numCoeffs
  -- whatever `validate` asks for, the group is checked and its digest computed from the decoded value
  Decoder.lift (new codec 𝔞 hash descriptor commitment)

end CommittedGroup

end

end Akita.Commitment
