import Akita.Spec.Grinding
import Akita.Spec.ScheduleParams

/-!
# The text of a schedule artifact

`akita-schedules/src/artifact.rs`: the formatter of artifacts, their capped writer and the encoding of
a catalog and of one row, with the JSON value that serde derives for every part of a `FoldSchedule`.
`serialize` makes the formatter callbacks that serde_json makes for a value.
-/

namespace Akita.Schedule

open Grinding (asciiBytes)

/-! ## Values -/

/-- A value as serde hands it to the JSON serializer; texts are UTF-8 bytes. -/
inductive Json
  | null
  | number (n : ℕ)
  | string (text : List UInt8)
  | array (items : List Json)
  | object (fields : List (List UInt8 × Json))

namespace Json

def unit (name : String) : Json := string (asciiBytes name)

def struct (fields : List (String × Json)) : Json := object (fields.map fun (name, value) => (asciiBytes name, value))

def variant (name : String) (value : Json) : Json := struct [(name, value)]

def option (value : Option Json) : Json := value.getD null

def bytes (b : List UInt8) : Json := array (b.map fun x => number x.toNat)

end Json

open Json

def Digest.json (d : Digest) : Json := .bytes d.toList

def SisSecurityPolicyId.json : SisSecurityPolicyId → Json
  | quantum169BitADPS16 => unit "Quantum169BitADPS16"

def SisModulusProfileId.json : SisModulusProfileId → Json
  | q32Offset99 => unit "Q32Offset99"
  | q64Offset59 => unit "Q64Offset59"
  | q128OffsetA7F7 => unit "Q128OffsetA7F7"

def SisMatrixRole.json : SisMatrixRole → Json
  | inner => unit "Inner"
  | outer => unit "Outer"
  | opening => unit "Open"

def SisTableKey.json (k : SisTableKey) : Json := struct [
  ("policy", k.policy.json), ("table_digest", Digest.json k.tableDigest), ("modulus_profile", k.modulusProfile.json),
  ("role", k.role.json), ("ring_dimension", number k.ringDimension.toNat), ("coeff_linf_bound", number k.coeffLinfBound.toNat)]

def SisL2TableKey.json (k : SisL2TableKey) : Json := struct [
  ("policy", k.policy.json), ("table_digest", Digest.json k.tableDigest), ("modulus_profile", k.modulusProfile.json),
  ("ring_dimension", number k.ringDimension.toNat), ("collision_l2_sq", number k.collisionL2Sq.toNat)]

def PhysicalL2NormProofShape.json : PhysicalL2NormProofShape → Json
  | direct len => variant "Direct" (struct [("physical_response_len", number len.toNat)])
  | limbGram len blockLen limbCount => variant "LimbGram" (struct [
    ("physical_response_len", number len.toNat), ("block_len", number blockLen.toNat), ("limb_count", number limbCount.toNat)])

def InnerCommitSecurityRoute.json : InnerCommitSecurityRoute → Json
  | linf key => variant "Linf" key.json
  | l2 key cap shape => variant "L2" (struct [
    ("table_key", key.json), ("response_l2_sq_cap", number cap.toNat), ("norm_proof_shape", shape.json)])

def InnerCommitMatrixParams.json (m : InnerCommitMatrixParams) : Json := struct [
  ("output_rank", number m.outputRank.toNat), ("input_width", number m.inputWidth.toNat),
  ("security_route", m.securityRoute.json)]

def LinfCommitMatrix.json {R : SisMatrixRole} (m : LinfCommitMatrix R) : Json := struct [
  ("output_rank", number m.outputRank.toNat), ("input_width", number m.inputWidth.toNat),
  ("sis_table_key", m.sisTableKey.json), ("role", null)]

def BlockGeometry.json (b : BlockGeometry) : Json := struct [
  ("live_ring_elements_per_claim", number b.liveRingElementsPerClaim.toNat),
  ("positions_per_block", number b.positionsPerBlock.toNat), ("live_blocks", number b.liveBlocks.toNat)]

def GadgetDigits.json (d : GadgetDigits) : Json := struct [
  ("log_basis", number d.logBasis.toNat), ("num_digits", number d.numDigits.toNat)]

def RoleParams.json {M : Type} (matrixJson : M → Json) (r : RoleParams M) : Json := struct [
  ("digits", r.digits.json), ("matrix", matrixJson r.matrix)]

def PolynomialGroupLayout.json (g : PolynomialGroupLayout) : Json := struct [
  ("num_vars", number g.numVars.toNat), ("num_polynomials", number g.numPolynomials.toNat)]

def GroupCommitPhaseParams.json (g : GroupCommitPhaseParams) : Json := struct [
  ("version", number g.version.toNat), ("group", g.group.json), ("blocks", g.blocks.json),
  ("outer_slice_count", number g.outerSliceCount.count.toNat), ("inner", g.inner.json InnerCommitMatrixParams.json),
  ("outer", g.outer.json LinfCommitMatrix.json)]

def SparseChallengeConfig.json (c : SparseChallengeConfig) : Json := struct [
  ("count_pm1", number c.countPm1.toNat), ("count_pm2", number c.countPm2.toNat)]

def OpeningMethod.json : OpeningMethod → Json
  | evaluationTrace => unit "EvaluationTrace"
  | subringCoefficientPacking s => variant "SubringCoefficientPacking" (struct [("challenge_subring_dimension", number s.toNat)])

def GroupOpeningPlan.json (o : GroupOpeningPlan) : Json := struct [
  ("opening_method", o.openingMethod.json), ("fold_challenge_config", o.foldChallengeConfig.json),
  ("log_basis_open", number o.logBasisOpen.toNat), ("num_digits_open", number o.numDigitsOpen.toNat),
  ("num_digits_fold", number o.numDigitsFold.toNat)]

def GroupOpenPhaseParams.json (g : GroupOpenPhaseParams) : Json := struct [
  ("profile", g.profile.json), ("opening", g.opening.json),
  ("setup_natural_len", option (g.setupNaturalLen.map fun len => number len.toNat))]

def FoldGroups.json (g : FoldGroups) : Json := struct [("entries", array (g.entries.map GroupOpenPhaseParams.json))]

def CommittedSourceEncoding.json : CommittedSourceEncoding → Json
  | canonicalCoefficientTable => unit "CanonicalCoefficientTable"
  | tensorSubfieldProjection k => variant "TensorSubfieldProjection" (struct [("extension_degree", number k.toNat)])

def CommitmentPayloadMode.json : CommitmentPayloadMode → Json
  | compressed => unit "Compressed"
  | raw => unit "Raw"

def RingRelationMode.json : RingRelationMode → Json
  | quotientLift => unit "QuotientLift"
  | reducedEvaluation => unit "ReducedEvaluation"

def ChunkedWitnessCfg.json (c : ChunkedWitnessCfg) : Json := struct [
  ("num_chunks", number c.numChunks.toNat), ("num_activated_levels", number c.numActivatedLevels.toNat)]

/-- The hand-written serializer of `CommittedGroupParams`: a text omits unset chunk fields. -/
def CommittedGroupParams.json (p : CommittedGroupParams) : Json := struct ([
  ("groups", p.groups.json), ("open_matrix", p.openMatrix.json), ("payload_mode", p.payloadMode.json),
  ("ring_relation_mode", p.ringRelationMode.json), ("source_encoding", p.sourceEncoding.json),
  ("witness_chunk", p.witnessChunk.json)] ++
  (p.successorBlockLen.toList.map fun len => ("successor_block_len", number len.toNat)) ++
  if p.witnessChunkEnds = [] then []
  else [("witness_chunk_ends", array (p.witnessChunkEnds.map fun stop => number stop.toNat))])

def FoldParams.json (f : FoldParams) : Json := struct [
  ("params", f.params.json), ("input_witness_len", number f.inputWitnessLen.toNat),
  ("output_witness_len", number f.outputWitnessLen.toNat)]

def TailSegmentGroupLayout.json (g : TailSegmentGroupLayout) : Json := struct [
  ("z_coords", number g.zCoords.toNat), ("e_field_elems", number g.eFieldElems.toNat),
  ("t_field_elems", number g.tFieldElems.toNat), ("z_linf_cap", option (g.zLinfCap.map fun cap => number cap.toNat)),
  ("z_rice_low_bits", number g.zRiceLowBits.toNat), ("z_payload_bytes", number g.zPayloadBytes.toNat)]

def TailSegmentLayout.json (l : TailSegmentLayout) : Json := struct [
  ("ring_dimension", number l.ringDimension.toNat), ("groups", array (l.groups.map TailSegmentGroupLayout.json)),
  ("logical_num_elems", number l.logicalNumElems.toNat)]

def TerminalFoldParams.json (t : TerminalFoldParams) : Json := struct [
  ("blocks", t.blocks.json), ("inner", t.inner.json InnerCommitMatrixParams.json), ("fold", t.fold.json),
  ("fold_challenge_config", t.foldChallengeConfig.json), ("response_shape", struct [("layout", t.responseShape.layout.json)]),
  ("input_witness_len", number t.inputWitnessLen.toNat)]

/-- `serialize_artifact_schedule`: an empty demand is omitted. -/
def FoldSchedule.artifactJson (s : FoldSchedule) : Json := struct ((if s.rootAccumulatedSetupPrefixLen ≠ 0 then
    [("root_accumulated_setup_prefix_len", number s.rootAccumulatedSetupPrefixLen.toNat)] else []) ++
  [("root", s.root.json), ("recursive_folds", array (s.recursiveFolds.map FoldParams.json)), ("terminal", s.terminal.json)])

def FoldSchedule.rowJson (s : FoldSchedule) : Json := struct [("schedule", s.artifactJson)]

/-! ## The formatter -/

structure ArtifactContainer where
  pretty : Bool
  hasValue : Bool
  deriving DecidableEq

/-- The containers of a `ReadableArtifactFormatter`, innermost first, and the bytes of its writer. -/
structure EncoderState where
  containers : List ArtifactContainer
  bytes : List UInt8

/-- How an encoder stops: at the writer's limit or with a message. -/
inductive EncodeError
  | limitExceeded
  | custom (msg : String)

section

variable (limit : ℕ)

/-- `CappedArtifactWriter::write`. -/
def writeAll (chunk : List UInt8) (s : EncoderState) : Except EncodeError EncoderState :=
  if s.bytes.length + chunk.length > limit then .error .limitExceeded else .ok { s with bytes := s.bytes ++ chunk }

def writeIndent : ℕ → EncoderState → Except EncodeError EncoderState
  | 0, s => .ok s
  | depth + 1, s => do writeIndent depth (← writeAll limit (asciiBytes "  ") s)

def beginContainer (delimiter : UInt8) (pretty : Bool) (s : EncoderState) : Except EncodeError EncoderState :=
  writeAll limit [delimiter] { s with containers := ⟨pretty, false⟩ :: s.containers }

def breakLine (container : ArtifactContainer) (s : EncoderState) : Except EncodeError EncoderState :=
  if container.pretty && container.hasValue then do
    writeIndent limit s.containers.length (← writeAll limit (asciiBytes "\n") s)
  else .ok s

def endContainer (delimiter : UInt8) (s : EncoderState) : Except EncodeError EncoderState :=
  match s.containers with
  | [] => .error (.custom "JSON serializer emitted an unbalanced container callback")
  | container :: rest => do
    let s ← breakLine limit container { s with containers := rest }
    writeAll limit [delimiter] s

def beginValue (first : Bool) (s : EncoderState) : Except EncodeError EncoderState :=
  match s.containers with
  | [] => .error (.custom "JSON serializer emitted a value outside a container")
  | container :: _ =>
    if container.pretty then do
      writeIndent limit s.containers.length (← writeAll limit (asciiBytes (if first then "\n" else ",\n")) s)
    else if first then .ok s
    else writeAll limit (asciiBytes ",") s

def finishValue (s : EncoderState) : Except EncodeError EncoderState :=
  match s.containers with
  | [] => .error (.custom "JSON serializer finished a value outside a container")
  | container :: rest => .ok { s with containers := { container with hasValue := true } :: rest }

/-- An array at this depth breaks lines: the rows, and the lists of a row. -/
def prettyArray (depth : ℕ) : Bool := decide (depth = 1 ∨ depth = 4)

/-- An object at this depth breaks lines: the catalog, a row and its schedule. -/
def prettyObject (depth : ℕ) : Bool := decide (depth = 0 ∨ depth = 2 ∨ depth = 3)

def beginArray (s : EncoderState) : Except EncodeError EncoderState :=
  beginContainer limit 0x5b (prettyArray s.containers.length) s

def endArray (s : EncoderState) : Except EncodeError EncoderState := endContainer limit 0x5d s

def beginObject (s : EncoderState) : Except EncodeError EncoderState :=
  beginContainer limit 0x7b (prettyObject s.containers.length) s

def endObject (s : EncoderState) : Except EncodeError EncoderState := endContainer limit 0x7d s

def beginObjectValue (s : EncoderState) : Except EncodeError EncoderState :=
  match s.containers with
  | [] => .error (.custom "JSON serializer emitted an object value outside an object")
  | container :: _ => writeAll limit (asciiBytes (if container.pretty then ": " else ":")) s

/-! ## The serializer -/

def hexDigit (n : UInt8) : UInt8 := if n < 10 then 0x30 + n else 0x57 + n

def escapeByte (b : UInt8) : List UInt8 :=
  if b = 0x22 then asciiBytes "\\\""
  else if b = 0x5c then asciiBytes "\\\\"
  else if b = 0x08 then asciiBytes "\\b"
  else if b = 0x09 then asciiBytes "\\t"
  else if b = 0x0a then asciiBytes "\\n"
  else if b = 0x0c then asciiBytes "\\f"
  else if b = 0x0d then asciiBytes "\\r"
  else if b < 0x20 then asciiBytes "\\u00" ++ [hexDigit (b / 16), hexDigit (b % 16)]
  else [b]

def stringToken (text : List UInt8) : List UInt8 := [0x22] ++ text.flatMap escapeByte ++ [0x22]

def numberToken (n : ℕ) : List UInt8 := (Nat.toDigits 10 n).map fun c => UInt8.ofNat c.toNat

mutual

/-- The callbacks that serde_json makes for a value. -/
def serialize : Json → EncoderState → Except EncodeError EncoderState
  | .null, s => writeAll limit (asciiBytes "null") s
  | .number n, s => writeAll limit (numberToken n) s
  | .string text, s => writeAll limit (stringToken text) s
  | .array items, s => do
    let s ← beginArray limit s
    let s ← serializeItems true items s
    endArray limit s
  | .object fields, s => do
    let s ← beginObject limit s
    let s ← serializeFields true fields s
    endObject limit s

def serializeItems (first : Bool) : List Json → EncoderState → Except EncodeError EncoderState
  | [], s => .ok s
  | item :: items, s => do
    let s ← beginValue limit first s
    let s ← serialize item s
    let s ← finishValue s
    serializeItems false items s

def serializeFields (first : Bool) : List (List UInt8 × Json) → EncoderState → Except EncodeError EncoderState
  | [], s => .ok s
  | (name, value) :: fields, s => do
    let s ← beginValue limit first s
    let s ← writeAll limit (stringToken name) s
    let s ← beginObjectValue limit s
    let s ← serialize value s
    let s ← finishValue s
    serializeFields false fields s

end

end

/-! ## Artifacts -/

/-- The bytes of an encoder, or its error under the name of what it encodes. -/
def encoded (limit : ℕ) (what : String) (result : Except EncodeError EncoderState) : Result (List UInt8) :=
  match result with
  | .ok s => .ok s.bytes
  | .error .limitExceeded => .error (.invalidSetup ("encoded " ++ what ++ " exceeds " ++ toString limit ++ " bytes"))
  | .error (.custom msg) => .error (.invalidSetup ("failed to encode " ++ what ++ ": " ++ msg))

def atDepth (depth : ℕ) : EncoderState := ⟨List.replicate depth ⟨false, true⟩, []⟩

def encodedRowTokenWithLimit (row : Json) (limit : ℕ) : Result (List UInt8) :=
  encoded limit "trusted schedule row" (serialize limit row (atDepth 2))

/-- The preflight of a row, as an error of the serializer. -/
def preflight (rowByteLimit : ℕ) (row : Json) (index : ℕ) : Except EncodeError Unit :=
  match encodedRowTokenWithLimit row rowByteLimit with
  | .ok _ => .ok ()
  | .error e => .error (.custom ("trusted schedule row " ++ toString index ++ " cannot be encoded: " ++ e.display))

/-- `ScheduleCatalogArtifactRowsRef::serialize`, row after row. -/
def serializeRows (limit rowByteLimit : ℕ) (first : Bool) : List (Json × ℕ) → EncoderState → Except EncodeError EncoderState
  | [], s => .ok s
  | (row, index) :: rows, s => do
    preflight rowByteLimit row index
    let s ← beginValue limit first s
    let s ← serialize limit row s
    let s ← finishValue s
    serializeRows limit rowByteLimit false rows s

/-- `ScheduleCatalogArtifactRefV1`: what an artifact says, its rows as values. -/
structure ScheduleCatalogArtifact where
  magic : List UInt8
  version : ℕ
  protocolEpoch : ℕ
  policyDigest : Digest
  familyName : List UInt8
  rows : List Json

def ScheduleCatalogArtifact.header (a : ScheduleCatalogArtifact) : List (List UInt8 × Json) := [
  (asciiBytes "magic", .bytes a.magic), (asciiBytes "version", number a.version),
  (asciiBytes "protocol_epoch", number a.protocolEpoch), (asciiBytes "policy_digest", Digest.json a.policyDigest),
  (asciiBytes "family_name", string a.familyName)]

def ScheduleCatalogArtifact.serialize (limit rowByteLimit : ℕ) (a : ScheduleCatalogArtifact) (s : EncoderState) :
    Except EncodeError EncoderState := do
  let s ← beginObject limit s
  let s ← serializeFields limit true a.header s
  let s ← beginValue limit false s
  let s ← writeAll limit (stringToken (asciiBytes "rows")) s
  let s ← beginObjectValue limit s
  let s ← beginArray limit s
  let s ← serializeRows limit rowByteLimit true a.rows.zipIdx s
  let s ← endArray limit s
  let s ← finishValue s
  endObject limit s

def maxTrustedScheduleArtifactBytes : ℕ := 64 * 1024 * 1024

def maxTrustedScheduleArtifactRowBytes : ℕ := 1024 * 1024

def encodeArtifact (a : ScheduleCatalogArtifact) : Result (List UInt8) :=
  encoded maxTrustedScheduleArtifactBytes "schedule artifact"
    (a.serialize maxTrustedScheduleArtifactBytes maxTrustedScheduleArtifactRowBytes (atDepth 0))

end Akita.Schedule
