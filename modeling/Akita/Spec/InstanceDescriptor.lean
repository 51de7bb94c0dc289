import Akita.Spec.Grinding
import Akita.Spec.OpeningPoint
import Akita.Spec.ScheduleStructure

/-!
# The transcript preamble descriptor

`akita-types/src/instance_descriptor/`, the selection codec of `akita-params/src/schedule_selection.rs`
and `bind_instance` of `akita-transcript/src/proof_stream.rs`: the sections of an instance descriptor,
their checks, their word-aligned encoding and what the channel absorbs of it.

A section is written to a byte vector, which does not fail; a read fails at the end of the source.
No section looks at the compression mode. Whether the allocator grants a vector of a given length
is a parameter (`reserve`).
-/

namespace Akita.Descriptor

open Lib Opening
open Schedule (Digest DecompositionParams SisModulusProfileId)

inductive SerializationError
  | ioError (msg : String)
  | invalidData (msg : String)
  | unexpectedData
  | lengthLimitExceeded (len max : ℕ)
  deriving DecidableEq, Repr

inductive Validate
  | yes
  | no
  deriving DecidableEq, Repr

def defaultMaxSequenceLen : ℕ := 2 ^ 25

/-- `Result<T, SerializationError>` of a read. -/
abbrev Decode (α : Type) := Decoder SerializationError UInt8 α

/-- `if !p { return Err(InvalidData(..)) }`. -/
def require (p : Prop) [Decidable p] (msg : String) : Except SerializationError Unit :=
  if p then .ok () else .error (.invalidData msg)

/-- `if matches!(validate, Validate::Yes) { out.check()?; } Ok(out)`. -/
def validated {α : Type} (validate : Validate) (check : α → Except SerializationError Unit) (read : Decode α) : Decode α := do
  let out ← read
  Decoder.lift (if validate = .yes then check out else .ok ())
  return out

/-! ## Words -/

def wordBytes : ℕ := 8

/-- Unsigned integers no wider than a word, with `u64::from` and `T::try_from`. -/
class Word (T : Type) where
  toWord : T → UInt64
  tryFromWord : UInt64 → Option T

instance : Word UInt8 where
  toWord := UInt8.toUInt64
  tryFromWord w := if w.toNat < 2 ^ 8 then some w.toUInt8 else none

instance : Word UInt32 where
  toWord := UInt32.toUInt64
  tryFromWord w := if w.toNat < 2 ^ 32 then some w.toUInt32 else none

instance : Word UInt64 where
  toWord := id
  tryFromWord := some

def writeWord (value : UInt64) : List UInt8 := leBytes wordBytes value.toNat

/-- `read_exact` into an array. -/
def readExact (n : ℕ) : Decode (Vector UInt8 n) := fun bs =>
  if h : n ≤ bs.length then .ok (⟨(bs.take n).toArray, by simp [h]⟩, bs.drop n)
  else .error (.ioError "failed to fill whole buffer")

def readWordAs (T : Type) [Word T] (field : String) : Decode T := do
  let word ← readExact wordBytes
  let value := UInt64.ofNat (leValue word.toList)
  Decoder.lift (match Word.tryFromWord value with
    | some t => .ok t
    | none => .error (.invalidData ("descriptor " ++ field ++ " word " ++ toString value.toNat ++ " is out of range")))

/-- A word that has to be the tag of one of the values of `T`. -/
def readTag {T : Type} (field : String) (ofTag : ℕ → Except SerializationError T) : Decode T := do
  let value ← readWordAs UInt64 field
  Decoder.lift (ofTag value.toNat)

def readBoolWord (field : String) : Decode Bool := readTag field fun
    | 0 => .ok false
    | 1 => .ok true
    | other => .error (.invalidData ("descriptor " ++ field ++ " word " ++ toString other ++ " is not a flag"))

def writeWordVector (values : List UInt32) : List UInt8 :=
  writeWord (UInt64.ofNat values.length) ++ values.flatMap fun value => writeWord (Word.toWord value)

def readWordVector (reserve : ℕ → Bool) (expectedLen : ℕ) (field : String) : Decode (List UInt32) := do
  let len ← readWordAs UInt64 field
  Decoder.lift (require (len.toNat = expectedLen) ("descriptor " ++ field ++ " count mismatch"))
  Decoder.lift (require (reserve expectedLen = true) ("descriptor " ++ field ++ " allocation failed"))
  decodeMany (readWordAs UInt32 field) expectedLen

def readDigest : Decode Digest := readExact 32

/-! ## Sections -/

structure AlgebraSection where
  primeModulusBe : Digest
  fieldExtensionDegree : UInt8
  extensionDegree : UInt8
  deriving DecidableEq

namespace AlgebraSection

def check (s : AlgebraSection) : Except SerializationError Unit :=
  require (¬ (s.fieldExtensionDegree = 0 ∨ s.extensionDegree = 0)) "descriptor extension degrees must be non-zero"

def serialize (s : AlgebraSection) : List UInt8 :=
  s.primeModulusBe.toList ++ writeWord (Word.toWord s.fieldExtensionDegree) ++ writeWord (Word.toWord s.extensionDegree)

def serializedSize (_ : AlgebraSection) : ℕ := 32 + 2 * wordBytes

def deserialize (validate : Validate) : Decode AlgebraSection := validated validate check do
    let primeModulusBe ← readExact 32
    let fieldExtensionDegree ← readWordAs UInt8 "field extension degree"
    let extensionDegree ← readWordAs UInt8 "extension degree"
    return { primeModulusBe, fieldExtensionDegree, extensionDegree }

end AlgebraSection

structure ProtocolFeatureSet where
  zk : Bool
  deriving DecidableEq

namespace ProtocolFeatureSet

def current : ProtocolFeatureSet := ⟨false⟩

def check (s : ProtocolFeatureSet) : Except SerializationError Unit :=
  require (s = current) "descriptor protocol features do not match active build"

def serialize (s : ProtocolFeatureSet) : List UInt8 := writeWord (if s.zk then 1 else 0)

def serializedSize (_ : ProtocolFeatureSet) : ℕ := wordBytes

def deserialize (validate : Validate) : Decode ProtocolFeatureSet := validated validate check do
    let zk ← readBoolWord "zk feature flag"
    return { zk }

end ProtocolFeatureSet

def validateDecomposition (d : DecompositionParams) : Result Unit := do
  ensure (¬ (d.logBasis = 0 ∨ d.logBasis ≥ 128))
    (.invalidSetup ("decomposition log_basis " ++ toString d.logBasis ++ " is outside 1..128"))
  ensure (¬ (d.fieldBits = 0 ∨ d.fieldBits > 128))
    (.invalidSetup ("decomposition field width " ++ toString d.fieldBits ++ " is outside 1..=128"))
  ensure (¬ (d.logCommitBound = 0 ∨ d.logCommitBound.toNat > d.fieldBits))
    (.invalidSetup ("committed source bound " ++ toString d.logCommitBound ++ " is outside 1..=" ++ toString d.fieldBits))

def encodeDecomposition (d : DecompositionParams) : List UInt8 :=
  writeWord (Word.toWord d.logBasis) ++ writeWord (Word.toWord d.logCommitBound) ++
    writeWord (if d.logOpenBound.isSome then 1 else 0) ++
    match d.logOpenBound with
    | some logOpenBound => writeWord (Word.toWord logOpenBound)
    | none => []

/-- The presence word and, if it is set, the open bound. -/
def decodeLogOpenBound : Decode (Option UInt32) := do
  let present ← readBoolWord "log open bound presence"
  if present then
    let logOpenBound ← readWordAs UInt32 "log open bound"
    return some logOpenBound
  else return none

def decodeDecomposition : Decode DecompositionParams := do
  let logBasis ← readWordAs UInt32 "log basis"
  let logCommitBound ← readWordAs UInt32 "log commit bound"
  let logOpenBound ← decodeLogOpenBound
  return { logBasis, logCommitBound, logOpenBound }

def decompositionSize (d : DecompositionParams) : ℕ := wordBytes * (3 + if d.logOpenBound.isSome then 1 else 0)

inductive CompressionPolicyId
  | negativeBinaryTwoMapExactMonotoneCutover8KiBV4
  deriving DecidableEq, Repr

def CompressionPolicyId.tag : CompressionPolicyId → UInt8
  | negativeBinaryTwoMapExactMonotoneCutover8KiBV4 => 4

def CompressionPolicyId.fromTag (tag : UInt8) : Option CompressionPolicyId :=
  if tag = 4 then some negativeBinaryTwoMapExactMonotoneCutover8KiBV4 else none

def compressionPolicy : CompressionPolicyId := .negativeBinaryTwoMapExactMonotoneCutover8KiBV4

def decodeSisModulusProfile : Decode SisModulusProfileId := readTag "SIS modulus profile tag" fun
    | 0 => .ok .q32Offset99
    | 1 => .ok .q64Offset59
    | 2 => .ok .q128OffsetA7F7
    | other => .error (.invalidData ("unknown SisModulusProfileId tag " ++ toString other))

def decodeCompressionPolicy : Decode CompressionPolicyId := do
  let tag ← readWordAs UInt8 "compression policy tag"
  Decoder.lift (match CompressionPolicyId.fromTag tag with
    | some policy => .ok policy
    | none => .error (.invalidData ("unsupported compression policy tag " ++ toString tag)))

structure SetupSection where
  decomposition : DecompositionParams
  sisModulusProfile : SisModulusProfileId
  compressionPolicy : CompressionPolicyId
  setupSeedDigest : Digest
  protocolFeatures : ProtocolFeatureSet
  deriving DecidableEq

namespace SetupSection

/-- `validate` of the decomposition, its error as invalid data. -/
def checkDecomposition (d : DecompositionParams) : Except SerializationError Unit :=
  match validateDecomposition d with
  | .ok () => .ok ()
  | .error e => .error (.invalidData e.display)

def check (s : SetupSection) : Except SerializationError Unit := do
  checkDecomposition s.decomposition
  require (s.compressionPolicy = Descriptor.compressionPolicy)
    "descriptor compression policy does not match active protocol cutover"
  s.protocolFeatures.check

def serialize (s : SetupSection) : List UInt8 :=
  encodeDecomposition s.decomposition ++ writeWord (Word.toWord s.sisModulusProfile.descriptorTag) ++
    writeWord (Word.toWord s.compressionPolicy.tag) ++ s.setupSeedDigest.toList ++ s.protocolFeatures.serialize

def serializedSize (s : SetupSection) : ℕ :=
  decompositionSize s.decomposition + 2 * wordBytes + 32 + s.protocolFeatures.serializedSize

def deserialize (validate : Validate) : Decode SetupSection := validated validate check do
    let decomposition ← decodeDecomposition
    let sisModulusProfile ← decodeSisModulusProfile
    let compressionPolicy ← decodeCompressionPolicy
    let setupSeedDigest ← readDigest
    let protocolFeatures ← ProtocolFeatureSet.deserialize validate
    return { decomposition, sisModulusProfile, compressionPolicy, setupSeedDigest, protocolFeatures }

end SetupSection

structure OpeningScheduleSelection where
  rowDigest : Digest
  deriving DecidableEq

namespace OpeningScheduleSelection

/-- The check of a digest, and with it of a selection, rejects nothing. -/
def check (_ : OpeningScheduleSelection) : Except SerializationError Unit := .ok ()

def serialize (s : OpeningScheduleSelection) : List UInt8 := s.rowDigest.toList

def serializedSize (_ : OpeningScheduleSelection) : ℕ := 32

def deserialize (validate : Validate) : Decode OpeningScheduleSelection := validated validate check do
    let rowDigest ← readExact 32
    return { rowDigest }

end OpeningScheduleSelection

structure PlanSection where
  scheduleSelection : OpeningScheduleSelection
  effectiveScheduleDigest : Digest
  deriving DecidableEq

namespace PlanSection

def check (s : PlanSection) : Except SerializationError Unit := s.scheduleSelection.check

def serialize (s : PlanSection) : List UInt8 := s.scheduleSelection.serialize ++ s.effectiveScheduleDigest.toList

def serializedSize (s : PlanSection) : ℕ := s.scheduleSelection.serializedSize + 32

def deserialize (validate : Validate) : Decode PlanSection := validated validate check do
    let scheduleSelection ← OpeningScheduleSelection.deserialize validate
    let effectiveScheduleDigest ← readDigest
    return { scheduleSelection, effectiveScheduleDigest }

end PlanSection

structure TranscriptGrindingBinding where
  planDigest : Digest
  deriving DecidableEq

namespace TranscriptGrindingBinding

def check (_ : TranscriptGrindingBinding) : Except SerializationError Unit := .ok ()

def serialize (s : TranscriptGrindingBinding) : List UInt8 := s.planDigest.toList

def serializedSize (_ : TranscriptGrindingBinding) : ℕ := 32

def deserialize (validate : Validate) : Decode TranscriptGrindingBinding := validated validate check do
    let planDigest ← readExact 32
    return { planDigest }

end TranscriptGrindingBinding

def basisModeTag : BasisMode → UInt8
  | .lagrange => 0
  | .monomial => 1

def decodeBasisMode : Decode BasisMode := readTag "basis mode tag" fun
    | 0 => .ok .lagrange
    | 1 => .ok .monomial
    | other => .error (.invalidData ("unknown BasisMode tag " ++ toString other))

structure CallSection where
  numCommitmentGroups : UInt32
  numVarsPerCommitmentGroup : List UInt32
  numPolysPerCommitmentGroup : List UInt32
  basisMode : BasisMode
  openingBatchDigest : Digest
  deriving DecidableEq

namespace CallSection

def check (s : CallSection) : Except SerializationError Unit := do
  require (s.numCommitmentGroups ≠ 0) "descriptor call counts must be non-zero"
  require (s.numVarsPerCommitmentGroup.length = s.numCommitmentGroups.toNat) "descriptor group arity count mismatch"
  require (s.numPolysPerCommitmentGroup.length = s.numCommitmentGroups.toNat) "descriptor commitment-group count mismatch"
  require (0 ∉ s.numPolysPerCommitmentGroup) "descriptor commitment groups must be non-empty"

def serialize (s : CallSection) : List UInt8 :=
  writeWord (Word.toWord s.numCommitmentGroups) ++ writeWordVector s.numVarsPerCommitmentGroup ++
    writeWordVector s.numPolysPerCommitmentGroup ++ writeWord (Word.toWord (basisModeTag s.basisMode)) ++
    s.openingBatchDigest.toList

def serializedSize (s : CallSection) : ℕ := wordBytes + wordBytes * (1 + s.numVarsPerCommitmentGroup.length) +
    wordBytes * (1 + s.numPolysPerCommitmentGroup.length) + wordBytes + 32

/-- The group count word, which bounds the vectors before they are allocated. -/
def readGroupCount : Decode UInt32 := do
  let numCommitmentGroups ← readWordAs UInt32 "commitment-group count"
  let expectedCount := numCommitmentGroups.toNat
  Decoder.lift (require (¬ (expectedCount = 0 ∨ expectedCount > defaultMaxSequenceLen))
    ("descriptor commitment-group count " ++ toString expectedCount ++ " is outside 1..=" ++ toString defaultMaxSequenceLen))
  return numCommitmentGroups

def deserialize (reserve : ℕ → Bool) (validate : Validate) : Decode CallSection := validated validate check do
    let numCommitmentGroups ← readGroupCount
    let expectedCount := numCommitmentGroups.toNat
    let numVarsPerCommitmentGroup ← readWordVector reserve expectedCount "group arity"
    let numPolysPerCommitmentGroup ← readWordVector reserve expectedCount "commitment-group size"
    let basisMode ← decodeBasisMode
    let openingBatchDigest ← readDigest
    return { numCommitmentGroups, numVarsPerCommitmentGroup, numPolysPerCommitmentGroup, basisMode, openingBatchDigest }

end CallSection

/-! ## The descriptor -/

def akitaInstanceDescriptorVersion : UInt32 := 6

structure AkitaInstanceDescriptor where
  version : UInt32
  algebra : AlgebraSection
  setup : SetupSection
  plan : PlanSection
  grinding : TranscriptGrindingBinding
  call : CallSection
  deriving DecidableEq

namespace AkitaInstanceDescriptor

def check (d : AkitaInstanceDescriptor) : Except SerializationError Unit := do
  require (d.version = akitaInstanceDescriptorVersion)
    ("unsupported Akita instance descriptor version " ++ toString d.version)
  d.algebra.check
  d.setup.check
  d.plan.check
  d.grinding.check
  d.call.check

def serialize (d : AkitaInstanceDescriptor) : List UInt8 :=
  writeWord (Word.toWord d.version) ++ d.algebra.serialize ++ d.setup.serialize ++ d.plan.serialize ++
    d.grinding.serialize ++ d.call.serialize

def serializedSize (d : AkitaInstanceDescriptor) : ℕ :=
  wordBytes + d.algebra.serializedSize + d.setup.serializedSize + d.plan.serializedSize +
    d.grinding.serializedSize + d.call.serializedSize

def canonicalBytes (d : AkitaInstanceDescriptor) : Except SerializationError (List UInt8) := .ok d.serialize

def deserialize (reserve : ℕ → Bool) (validate : Validate) : Decode AkitaInstanceDescriptor :=
  validated validate check do
    let version ← readWordAs UInt32 "descriptor version"
    let algebra ← AlgebraSection.deserialize validate
    let setup ← SetupSection.deserialize validate
    let plan ← PlanSection.deserialize validate
    let grinding ← TranscriptGrindingBinding.deserialize validate
    let call ← CallSection.deserialize reserve validate
    return { version, algebra, setup, plan, grinding, call }

/-- `deserialize_uncompressed_exact`: the source has to be consumed. -/
def deserializeExact (reserve : ℕ → Bool) (bytes : List UInt8) : Except SerializationError AkitaInstanceDescriptor := do
  let (value, rest) ← deserialize reserve .yes bytes
  if rest ≠ [] then .error .unexpectedData else .ok value

end AkitaInstanceDescriptor

/-! ## Binding it into a channel -/

section

open Transcript

/-- `DIGEST_HASH` of `jolt-transcript`, selected when the crate is built. -/
inductive DigestHash
  | sha3
  | keccak256
  deriving DecidableEq, Repr

/-- `PROTOCOL_TAG`: the name of the protocol, its version and the hash, padded to 32 bytes. -/
def protocolTag (hash : DigestHash) : List UInt8 :=
  let name := match hash with
    | .sha3 => "akita-pcs/transcript/v8/sha3"
    | .keccak256 => "akita-pcs/transcript/v8/keccak"
  Grinding.asciiBytes name ++ List.replicate (32 - name.length) 0

def siteFamilyInstance : UInt32 := 13

/-- The bytes `bind_instance` passes on, over the encoding of a `BytesMsg` of `jolt-transcript`. -/
def instanceBytes (bytesMsg : List UInt8 → List UInt8) (hash : DigestHash) (descriptor : List UInt8) : List UInt8 :=
  protocolTag hash ++ bytesMsg descriptor

def bindInstance {S : Type} [ProofChannel S] (bytesMsg : List UInt8 → List UInt8) (hash : DigestHash)
    (descriptor : List UInt8) : Chan S Unit :=
  publicBytes { family := siteFamilyInstance } (instanceBytes bytesMsg hash descriptor)

end

end Akita.Descriptor
