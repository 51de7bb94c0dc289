import Akita.Lib.Code
import Akita.Spec.Error

/-!
# The proof channel

`akita-transcript`: the prover's and the verifier's end of the proof channel, over the
sponge transcript of the `spongefish` and `jolt-transcript` packages.

Those packages are not part of the repository. What the channel uses of them is a
parameter, `TranscriptBackend`: abstract prover and verifier states, the operations
called on them and the views the documentation speaks of (argument string, unread bytes,
poison, calls made on the sponge). `TranscriptBackend.Lawful` states their documented
behaviour. Field codecs (`jolt-field`) and challenge codecs are parameters in the same
way.

Diagnostic context records are built, since building one can fail, and then dropped, as
they are without the `logging-transcript` feature.
-/

namespace Akita.Transcript

open Lib

/-! ## What the channel is built on -/

inductive SpongeCall
  | absorb (bytes : List UInt8)
  | squeeze (len : ℕ)
  deriving DecidableEq, Repr

/-- The bytes absorbed by a sequence of calls. -/
def absorbed (calls : List SpongeCall) : List UInt8 := calls.flatMap fun
    | .absorb bytes => bytes
    | .squeeze _ => []

/-- `ChallengeCodec`: how many bytes a message of `count` elements squeezes, and how they
are decoded. Decoding fails when the rejection pool is exhausted. -/
structure ChallengeCodec (E : Type) where
  challengeBytes : ℕ → Option ℕ
  decode : ℕ → List UInt8 → Option (List E)

/-- The prover and verifier states of `spongefish`, and the field transcripts of
`jolt-transcript` over them. -/
structure TranscriptBackend where
  Prover : Type
  Verifier : Type
  /-- `narg_string` -/
  argument : Prover → List UInt8
  proverCalls : Prover → List SpongeCall
  /-- the unread part of the proof -/
  remaining : Verifier → List UInt8
  verifierCalls : Verifier → List SpongeCall
  poisoned : Verifier → Prop
  /-- what the sponge squeezes after a sequence of calls -/
  output : List SpongeCall → ℕ → List UInt8
  /-- the calls that bind a session -/
  session : List UInt8 → List SpongeCall
  proverNew : List UInt8 → Prover
  verifierNew : List UInt8 → List UInt8 → Verifier
  /-- `prover_message_with` on the prover: the absorbed and the wire form -/
  send : Prover → List UInt8 → List UInt8 → Prover
  /-- `prover_message_with` on the verifier: the reader and the absorbed form -/
  receive : {α : Type} → Verifier → Reader UInt8 α → (α → List UInt8) → Option α × Verifier
  /-- `public_message_as` -/
  proverPublic : Prover → List UInt8 → Prover
  verifierPublic : Verifier → List UInt8 → Verifier
  /-- the squeeze of `verifier_message_as` -/
  proverSqueeze : Prover → ℕ → List UInt8 × Prover
  verifierSqueeze : Verifier → ℕ → List UInt8 × Verifier
  /-- `FieldTranscript::challenge_vector` -/
  proverVector : {E : Type} → ChallengeCodec E → Prover → ℕ → Option (List E) × Prover
  verifierVector : {E : Type} → ChallengeCodec E → Verifier → ℕ → Option (List E) × Verifier
  /-- `Transcript::check` -/
  check : Verifier → Bool → Bool × Verifier
  checkEof : Verifier → Bool
  /-- `u32::from_narg` -/
  u32FromNarg : Reader UInt8 UInt32
  /-- whether the allocator grants `try_reserve_exact` -/
  proverReserve : Prover → ℕ → Bool
  verifierReserve : Verifier → ℕ → Bool

namespace TranscriptBackend

variable (𝔱 : TranscriptBackend)

/-- What a challenge message draws after a sequence of calls, and the calls after it. -/
def drawn {E : Type} (codec : ChallengeCodec E) (calls : List SpongeCall) (count : ℕ) :
    Option (List E) × List SpongeCall :=
  match codec.challengeBytes count with
  | none => (none, calls)
  | some len => (codec.decode count (𝔱.output calls len), calls ++ [.squeeze len])

/-- The documented behaviour of the states: messages are appended and read in order, the
sponge is deterministic, and a failed read, draw or check poisons the verifier for good. -/
structure Lawful : Prop where
  proverNew : ∀ s, 𝔱.argument (𝔱.proverNew s) = [] ∧ 𝔱.proverCalls (𝔱.proverNew s) = 𝔱.session s
  verifierNew : ∀ s proof, 𝔱.remaining (𝔱.verifierNew s proof) = proof ∧
    𝔱.verifierCalls (𝔱.verifierNew s proof) = 𝔱.session s ∧ ¬ 𝔱.poisoned (𝔱.verifierNew s proof)
  send : ∀ p a w, 𝔱.argument (𝔱.send p a w) = 𝔱.argument p ++ w ∧
    𝔱.proverCalls (𝔱.send p a w) = 𝔱.proverCalls p ++ [.absorb a]
  proverPublic : ∀ p a, 𝔱.argument (𝔱.proverPublic p a) = 𝔱.argument p ∧
    𝔱.proverCalls (𝔱.proverPublic p a) = 𝔱.proverCalls p ++ [.absorb a]
  proverSqueeze : ∀ p n, (𝔱.proverSqueeze p n).1 = 𝔱.output (𝔱.proverCalls p) n ∧
    𝔱.argument (𝔱.proverSqueeze p n).2 = 𝔱.argument p ∧
    𝔱.proverCalls (𝔱.proverSqueeze p n).2 = 𝔱.proverCalls p ++ [.squeeze n]
  proverVector : ∀ {E : Type} (codec : ChallengeCodec E) p n,
    ((𝔱.proverVector codec p n).1, 𝔱.proverCalls (𝔱.proverVector codec p n).2) = 𝔱.drawn codec (𝔱.proverCalls p) n ∧
    𝔱.argument (𝔱.proverVector codec p n).2 = 𝔱.argument p
  receive_some : ∀ {α : Type} v (r : Reader UInt8 α) f a rest, ¬ 𝔱.poisoned v →
    r (𝔱.remaining v) = some (a, rest) → (𝔱.receive v r f).1 = some a ∧
      𝔱.remaining (𝔱.receive v r f).2 = rest ∧ ¬ 𝔱.poisoned (𝔱.receive v r f).2 ∧
      𝔱.verifierCalls (𝔱.receive v r f).2 = 𝔱.verifierCalls v ++ [.absorb (f a)]
  receive_none : ∀ {α : Type} v (r : Reader UInt8 α) f, r (𝔱.remaining v) = none →
    (𝔱.receive v r f).1 = none ∧ 𝔱.poisoned (𝔱.receive v r f).2
  receive_poisoned : ∀ {α : Type} v (r : Reader UInt8 α) f, 𝔱.poisoned v →
    (𝔱.receive v r f).1 = none ∧ 𝔱.poisoned (𝔱.receive v r f).2
  verifierPublic : ∀ v a, (𝔱.poisoned (𝔱.verifierPublic v a) ↔ 𝔱.poisoned v) ∧
    𝔱.remaining (𝔱.verifierPublic v a) = 𝔱.remaining v ∧
    𝔱.verifierCalls (𝔱.verifierPublic v a) = 𝔱.verifierCalls v ++ [.absorb a]
  verifierSqueeze : ∀ v n, (𝔱.verifierSqueeze v n).1 = 𝔱.output (𝔱.verifierCalls v) n ∧
    (𝔱.poisoned (𝔱.verifierSqueeze v n).2 ↔ 𝔱.poisoned v) ∧ 𝔱.remaining (𝔱.verifierSqueeze v n).2 = 𝔱.remaining v ∧
    𝔱.verifierCalls (𝔱.verifierSqueeze v n).2 = 𝔱.verifierCalls v ++ [.squeeze n]
  verifierVector : ∀ {E : Type} (codec : ChallengeCodec E) v n, ¬ 𝔱.poisoned v →
    ((𝔱.verifierVector codec v n).1, 𝔱.verifierCalls (𝔱.verifierVector codec v n).2) =
      𝔱.drawn codec (𝔱.verifierCalls v) n ∧
    (𝔱.poisoned (𝔱.verifierVector codec v n).2 ↔ (𝔱.verifierVector codec v n).1 = none) ∧
    𝔱.remaining (𝔱.verifierVector codec v n).2 = 𝔱.remaining v
  verifierVector_poisoned : ∀ {E : Type} (codec : ChallengeCodec E) v n, 𝔱.poisoned v →
    𝔱.poisoned (𝔱.verifierVector codec v n).2
  check_ok : ∀ v b, (𝔱.check v b).1 = true ↔ ¬ 𝔱.poisoned v ∧ b = true
  check_poisoned : ∀ v b, 𝔱.poisoned (𝔱.check v b).2 ↔ 𝔱.poisoned v ∨ b = false
  check_view : ∀ v b, 𝔱.remaining (𝔱.check v b).2 = 𝔱.remaining v ∧ 𝔱.verifierCalls (𝔱.check v b).2 = 𝔱.verifierCalls v
  checkEof : ∀ v, 𝔱.checkEof v = true ↔ ¬ 𝔱.poisoned v ∧ 𝔱.remaining v = []
  u32FromNarg : Canonical 𝔱.u32FromNarg (fun v => leBytes 4 v.toNat) Set.univ

end TranscriptBackend

/-- `CanonicalEncoding` of `jolt-field`: fixed-width little-endian bytes. -/
class CanonicalEncoding (F : Type) where
  numBytes : ℕ
  toBytesLe : F → List UInt8
  fromBytesLeChecked : List UInt8 → Option F

/-- The encoding has `numBytes` bytes, and only the encoding of a value decodes to it. -/
class LawfulEncoding (F : Type) [CanonicalEncoding F] : Prop where
  length_toBytesLe : ∀ x : F, (CanonicalEncoding.toBytesLe x).length = CanonicalEncoding.numBytes F
  fromBytesLeChecked : ∀ (bs : List UInt8) (x : F), bs.length = CanonicalEncoding.numBytes F →
    (CanonicalEncoding.fromBytesLeChecked bs = some x ↔ bs = CanonicalEncoding.toBytesLe x)

/-- `ExtField` of `jolt-field`: base coordinates in order. -/
class ExtField (F E : Type) where
  degree : ℕ
  toBaseVec : E → List F
  fromBaseSlice : List F → E

/-- The coordinates are `degree` many and determine the element. -/
class LawfulExtField (F E : Type) [ExtField F E] : Prop where
  length_toBaseVec : ∀ x : E, (ExtField.toBaseVec (F := F) x).length = ExtField.degree F E
  fromBaseSlice_toBaseVec : ∀ x : E, ExtField.fromBaseSlice (ExtField.toBaseVec (F := F) x) = x
  toBaseVec_fromBaseSlice : ∀ l : List F, l.length = ExtField.degree F E →
    ExtField.toBaseVec (ExtField.fromBaseSlice (E := E) l) = l

/-! ## Protocol sites and diagnostic records -/

/-- `ProtocolSiteId`: the coordinates of one protocol site. -/
structure ProtocolSiteId where
  family : UInt32 := 0
  invocation : UInt32 := 0
  level : UInt32 := 0
  stage : UInt32 := 0
  round : UInt32 := 0
  group : UInt32 := 0
  limb : UInt32 := 0
  detail : UInt32 := 0
  deriving DecidableEq, Repr

/-- Eight little-endian `u32` words. -/
def ProtocolSiteId.toBytes (s : ProtocolSiteId) : List UInt8 :=
  [s.family, s.invocation, s.level, s.stage, s.round, s.group, s.limb, s.detail].flatMap fun w => leBytes 4 w.toNat

inductive ProtocolMessageKind
  | publicValue
  | proofLength
  | proofAtoms
  | challenge
  | grindingNonce
  | grindingCheck
  | foldResponseNonce
  deriving DecidableEq, Repr

def ProtocolMessageKind.code : ProtocolMessageKind → UInt32
  | .publicValue => 1
  | .proofLength => 2
  | .proofAtoms => 3
  | .challenge => 4
  | .grindingNonce => 5
  | .grindingCheck => 6
  | .foldResponseNonce => 7

def protocolVersion : UInt32 := 8

/-- `CONTEXT_DOMAIN`: 27 characters and five zero bytes. -/
def contextDomain : List UInt8 :=
  ("akita-pcs/native-context/v8".toList.map fun c => UInt8.ofNat c.toNat) ++ List.replicate 5 0

structure ProtocolContextRecord where
  domain : List UInt8
  version : UInt32
  siteId : List UInt8
  kind : UInt32
  atomCount : ℕ
  encodedBytes : ℕ
  challengeBytes : ℕ

def ProtocolContextRecord.new (siteId : List UInt8) (kind : UInt32)
    (atomCount encodedBytes challengeBytes : ℕ) : ProtocolContextRecord :=
  { domain := contextDomain, version := protocolVersion, siteId, kind, atomCount, encodedBytes, challengeBytes }

def usizeToU64 (value : ℕ) (name : String) : Result ℕ :=
  if value < 2 ^ 64 then .ok value else .error (.invalidInput (name ++ " does not fit u64"))

def groupRecord (site : ProtocolSiteId) (kind : ProtocolMessageKind) (atomCount : Option ℕ)
    (atomBytes : ℕ) : Result ProtocolContextRecord := do
  let overflow := AkitaError.invalidInput "proof group record size overflows usize"
  let atomCount ← okOr atomCount overflow
  let encodedBytes ← okOr (checkedMul usizeBits atomCount atomBytes) overflow
  return ProtocolContextRecord.new site.toBytes kind.code (← usizeToU64 atomCount "proof group atom count")
    (← usizeToU64 encodedBytes "proof group encoded byte count") 0

/-! ## Proof atoms -/

/-- `Encoding` and `FromNarg` of one kind of proof atom. -/
class ProofAtom (T : Type) where
  encode : T → List UInt8
  fromNarg : Reader UInt8 T

/-- An atom is accepted in its encoding only, which is not empty. -/
class LawfulAtom (T : Type) [ProofAtom T] : Prop where
  canonical : Canonical (ProofAtom.fromNarg (T := T)) ProofAtom.encode Set.univ
  encode_ne_nil : ∀ a : T, ProofAtom.encode a ≠ []

structure FieldAtom (F : Type) where
  intoInner : F
  deriving DecidableEq, Repr

instance {F : Type} [CanonicalEncoding F] : ProofAtom (FieldAtom F) where
  encode a := CanonicalEncoding.toBytesLe a.intoInner
  fromNarg bs := do
    let (encoded, bs) ← takeN (CanonicalEncoding.numBytes F) bs
    let value ← CanonicalEncoding.fromBytesLeChecked encoded
    some (⟨value⟩, bs)

structure ExtensionAtom (F E : Type) where
  intoInner : E
  deriving DecidableEq, Repr

instance {F E : Type} [CanonicalEncoding F] [ExtField F E] : ProofAtom (ExtensionAtom F E) where
  encode a := (ExtField.toBaseVec (F := F) a.intoInner).flatMap CanonicalEncoding.toBytesLe
  fromNarg bs := do
    let (coefficients, bs) ← readMany (ProofAtom.fromNarg (T := FieldAtom F)) (ExtField.degree F E) bs
    some (⟨ExtField.fromBaseSlice (coefficients.map FieldAtom.intoInner)⟩, bs)

def nextMultipleOf (n m : ℕ) : ℕ := (n + (m - 1)) / m * m

def wordBytes : ℕ := 8

/-- The wire bytes, then zeros to the next word. -/
def wordPadded (bytes : List UInt8) : List UInt8 :=
  bytes ++ List.replicate (nextMultipleOf bytes.length wordBytes - bytes.length) 0

/-- A length only the prover knows, as one `u64` word. -/
def lengthWord (len : UInt32) : List UInt8 := leBytes wordBytes len.toNat

/-- Concatenated wire encodings. -/
def encodeAtoms {T : Type} [ProofAtom T] (atoms : List T) : List UInt8 := atoms.flatMap ProofAtom.encode

/-! ## Nonces -/

def nonceMaxBytes (nonceBits : ℕ) : ℕ := if nonceBits = 0 then 0 else (nonceBits + 6) / 7

/-- `nonce_encoded_len`; `32 - leading_zeros` is the bit length. -/
def nonceEncodedLen (value : UInt32) : ℕ :=
  let significantBits := value.toNat.size
  let encodedBits := if significantBits = 0 then 1 else significantBits
  (encodedBits + 6) / 7

/-- The slots of `NonceAtom::wire`, filled until the value is used up. -/
def nonceWireLoop : ℕ → ℕ → List UInt8
  | 0, _ => []
  | slots + 1, value =>
    let byte := UInt8.ofNat (value &&& 0x7f)
    let value := value >>> 7
    if value ≠ 0 then (byte ||| 0x80) :: nonceWireLoop slots value else [byte]

/-- `NonceAtom::wire`: canonical unsigned LEB128. -/
def nonceWire (nonce : UInt32) : List UInt8 := nonceWireLoop (nonceMaxBytes 32) nonce.toNat

/-- `NonceAtom::word`: the nonce as one `u64` word. -/
def nonceWord (nonce : UInt32) : List UInt8 := leBytes 8 nonce.toNat

/-- The loop of `NonceAtom::from_narg`: `slots` bytes may still follow, the next one has
index `index`. -/
def nonceFromNargLoop : ℕ → ℕ → ℕ → Reader UInt8 UInt32
  | 0, _, _, _ => none
  | slots + 1, index, value, bs => do
    let (byte, bs) ← match bs with
      | [] => none
      | byte :: bs => some (byte, bs)
    let payload := byte.toNat &&& 0x7f
    if index = 4 ∧ payload > 0x0f then none
    else
      let value := value ||| (payload <<< (index * 7))
      if byte &&& 0x80 = 0 then
        if index ≠ 0 ∧ payload = 0 then none else some (UInt32.ofNat value, bs)
      else nonceFromNargLoop slots (index + 1) value bs

def nonceFromNarg : Reader UInt8 UInt32 := nonceFromNargLoop (nonceMaxBytes 32) 0 0

/-! ## The two ends of the channel -/

/-- A fallible operation on one end; a failed one keeps the state it reached. -/
abbrev Chan (σ α : Type) := EStateM AkitaError σ α

/-- An operation of the packages underneath, with the error its failure is mapped to. -/
def liftOption {σ α : Type} (f : σ → Option α × σ) (e : AkitaError) : Chan σ α := fun s =>
  match f s with
  | (some a, s) => .ok a s
  | (none, s) => .error e s

/-- `ProofChannel`: code written against it runs for both parties. -/
class ProofChannel (S : Type) where
  publicMessage : List UInt8 → Chan S Unit
  exchange : {T : Type} → [ProofAtom T] → List T → Chan S (List T)
  challenges : {E : Type} → ChallengeCodec E → ℕ → Chan S (List E)
  challengeMessage : {T : Type} → ℕ → (List UInt8 → Result T) → Chan S T
  guard : {T : Type} → Result T → Chan S T
  tryReserveExact : ℕ → Chan S Bool

section

variable {𝔱 : TranscriptBackend} {F E T : Type}

def ofResult {σ α : Type} (r : Result α) : Chan σ α := fun s =>
  match r with
  | .ok a => .ok a s
  | .error e => .error e s

/-! ### Prover -/

def proverMessageWith (absorbed wire : List UInt8) : Chan 𝔱.Prover Unit := modify fun s => 𝔱.send s absorbed wire

/-- One proof message; an empty one makes no absorb call. -/
def sendPadded (wire : List UInt8) : Chan 𝔱.Prover Unit :=
  if wire.isEmpty then pure () else proverMessageWith (wordPadded wire) wire

def sendAtoms [ProofAtom T] (atoms : List T) : Chan 𝔱.Prover Unit := sendPadded (encodeAtoms atoms)

instance : ProofChannel 𝔱.Prover where
  publicMessage bytes :=
    if bytes.isEmpty then pure () else modify fun s => 𝔱.proverPublic s (wordPadded bytes)
  exchange messages := do
    sendAtoms messages
    return messages
  challenges codec len := liftOption (fun s => 𝔱.proverVector codec s len)
    (.invalidSetup "field challenge codec rejected the message length or exhausted its pool")
  challengeMessage len decode := do
    let message ← modifyGet fun s => 𝔱.proverSqueeze s len
    ofResult (decode message)
  guard result := ofResult result
  tryReserveExact n := do return 𝔱.proverReserve (← get) n

/-! ### Verifier -/

/-- `reject`: poisons the transcript and returns the error. -/
def reject : Chan 𝔱.Verifier AkitaError := fun s =>
  let (_, s) := 𝔱.check s false
  .ok .invalidProof s

/-- `prover_message_with(..).map_err(invalid_proof)`. -/
def verifierMessageWith {α : Type} (r : Reader UInt8 α) (f : α → List UInt8) : Chan 𝔱.Verifier α :=
  liftOption (fun s => 𝔱.receive s r f) .invalidProof

/-- `Transcript::check(..).map_err(invalid_proof)`. -/
def verifierCheck (b : Bool) : Chan 𝔱.Verifier Unit := fun s =>
  match 𝔱.check s b with
  | (true, s) => .ok () s
  | (false, s) => .error .invalidProof s

def receiveAtoms [ProofAtom T] (count : ℕ) : Chan 𝔱.Verifier (List T) := do
  let reserved := 𝔱.verifierReserve (← get) count
  if !reserved then throw (← reject)
  else if count = 0 then return []
  else verifierMessageWith (readMany ProofAtom.fromNarg count) fun atoms => wordPadded (encodeAtoms atoms)

instance : ProofChannel 𝔱.Verifier where
  publicMessage bytes :=
    if bytes.isEmpty then pure () else modify fun s => 𝔱.verifierPublic s (wordPadded bytes)
  exchange {T} _ messages := do
    let received ← receiveAtoms (T := T) messages.length
    -- the slots are overwritten one by one
    return received.take messages.length ++ messages.drop received.length
  challenges codec len := liftOption (fun s => 𝔱.verifierVector codec s len) .invalidProof
  challengeMessage len decode := do
    verifierCheck true
    let result := decode (← modifyGet fun s => 𝔱.verifierSqueeze s len)
    verifierCheck result.isOk
    ofResult result
  guard result := do
    if !result.isOk then
      let _ ← reject
    ofResult result
  tryReserveExact n := do return 𝔱.verifierReserve (← get) n

/-! ### Messages -/

def sendByteGroup (site : ProtocolSiteId) (bytes : List UInt8) : Chan 𝔱.Prover Unit := do
  let _ ← ofResult (groupRecord site .proofAtoms (some bytes.length) 1)
  sendPadded bytes

def receiveByteGroup (site : ProtocolSiteId) (len : ℕ) : Chan 𝔱.Verifier (List UInt8) := do
  let _ ← ProofChannel.guard (groupRecord site .proofAtoms (some len) 1)
  if len = 0 then return []
  else verifierMessageWith (takeN len) wordPadded

def fieldDigestBytes : ℕ := 32

/-- `receive_field_digest`: a byte group converted to an array of its length. -/
def receiveFieldDigest (site : ProtocolSiteId) : Chan 𝔱.Verifier (List UInt8) := do
  let bytes ← receiveByteGroup site fieldDigestBytes
  if bytes.length = fieldDigestBytes then return bytes else throw .invalidProof

/-- Length record and payload site of one bounded payload. -/
def boundedBytesSites (site : ProtocolSiteId) : ProtocolContextRecord × ProtocolSiteId :=
  (ProtocolContextRecord.new { site with stage := 0 }.toBytes ProtocolMessageKind.proofLength.code 1 4 0,
    { site with stage := 1 })

def sendBoundedBytes (site : ProtocolSiteId) (bytes : List UInt8) (maxLen : ℕ) : Chan 𝔱.Prover Unit := do
  if maxLen < bytes.length then
    throw (.invalidInput "bounded proof payload length exceeds its scheduled maximum")
  if 2 ^ 32 ≤ bytes.length then
    throw (.invalidInput "bounded proof payload length does not fit u32")
  let len := UInt32.ofNat bytes.length
  let (_, payloadSite) := boundedBytesSites site
  proverMessageWith (lengthWord len) (leBytes 4 len.toNat)
  sendByteGroup payloadSite bytes

def receiveBoundedBytes (site : ProtocolSiteId) (maxLen : ℕ) : Chan 𝔱.Verifier (List UInt8) := do
  let (_, payloadSite) := boundedBytesSites site
  let len ← verifierMessageWith 𝔱.u32FromNarg lengthWord
  if len.toNat ≤ maxLen then receiveByteGroup payloadSite len.toNat else throw (← reject)

def sendNonce (value : UInt32) : Chan 𝔱.Prover Unit := proverMessageWith (nonceWord value) (nonceWire value)

def receiveNonce : Chan 𝔱.Verifier UInt32 := verifierMessageWith nonceFromNarg nonceWord

def sendFieldGroup [CanonicalEncoding F] (site : ProtocolSiteId) (values : List F) : Chan 𝔱.Prover Unit := do
  let _ ← ofResult (groupRecord site .proofAtoms (some values.length) (CanonicalEncoding.numBytes F))
  sendAtoms (values.map FieldAtom.mk)

def receiveFieldGroup [CanonicalEncoding F] (site : ProtocolSiteId) (valueCount : ℕ) : Chan 𝔱.Verifier (List F) := do
  let _ ← ProofChannel.guard (groupRecord site .proofAtoms (some valueCount) (CanonicalEncoding.numBytes F))
  let atoms ← receiveAtoms (T := FieldAtom F) valueCount
  return atoms.map FieldAtom.intoInner

end

/-! ### Role-generic messages -/

section

variable {S : Type} [ProofChannel S] {F E : Type}

def publicBytes (site : ProtocolSiteId) (bytes : List UInt8) : Chan S Unit := do
  let _ ← ProofChannel.guard (groupRecord site .publicValue (some bytes.length) 1)
  ProofChannel.publicMessage bytes

def publicFields [CanonicalEncoding F] (site : ProtocolSiteId) (values : List F) : Chan S Unit := do
  let _ ← ProofChannel.guard (groupRecord site .publicValue (some values.length) (CanonicalEncoding.numBytes F))
  ProofChannel.publicMessage (encodeAtoms (values.map FieldAtom.mk))

def publicExtensions (F : Type) [CanonicalEncoding F] [ExtField F E] (site : ProtocolSiteId)
    (values : List E) : Chan S Unit := do
  let _ ← ProofChannel.guard (groupRecord site .publicValue
    (checkedMul usizeBits values.length (ExtField.degree F E)) (CanonicalEncoding.numBytes F))
  ProofChannel.publicMessage (encodeAtoms (values.map (ExtensionAtom.mk (F := F))))

def extensionSlots [Zero E] (count : ℕ) : Chan S (List E) := do
  let reserved ← ProofChannel.tryReserveExact count
  let _ ← ProofChannel.guard (if reserved then .ok () else .error .invalidProof)
  return List.replicate count 0

/-- The prover sends `values`; the verifier returns what it received in their place. -/
def exchangeExtensionGroup (F : Type) [CanonicalEncoding F] [ExtField F E] (site : ProtocolSiteId)
    (values : List E) : Chan S (List E) := do
  let _ ← ProofChannel.guard (groupRecord site .proofAtoms
    (checkedMul usizeBits values.length (ExtField.degree F E)) (CanonicalEncoding.numBytes F))
  let atoms ← ProofChannel.exchange (values.map (ExtensionAtom.mk (F := F)))
  return atoms.map ExtensionAtom.intoInner

/-- One challenge message of `count` field elements. -/
def extChallenges (codec : ChallengeCodec E) (_site : ProtocolSiteId) (count : ℕ) : Chan S (List E) := do
  let _ ← ProofChannel.guard (usizeToU64 ((codec.challengeBytes count).getD 0) "challenge message byte count")
  ProofChannel.challenges codec count

/-- One field element as its own challenge message. -/
def extChallenge (codec : ChallengeCodec E) (site : ProtocolSiteId) : Chan S E := do
  let values ← extChallenges codec site 1
  ProofChannel.guard (okOr values.getLast? (.internal "challenge codec returned no element"))

end

end Akita.Transcript
