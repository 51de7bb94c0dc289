import Akita.Lib.SortedSearch
import Akita.Spec.ScheduleAudit
import Akita.Spec.ScheduleJson

/-!
# Trusted schedule catalogs

`akita-schedules/src/artifact.rs`: the validating constructor of a catalog, its artifact, and the lookups
by digest and by key, with `ScheduleLookupKey` (`akita-params/src/schedule/profiles.rs`). The JSON parser
and the digest of a policy are functions of the backend.
-/

namespace Akita.Schedule

open Grinding (asciiBytes)
open Lib (binarySearchByKey leBytes partitionPoint)

/-! ## Keys -/

def utf8Bytes (s : String) : List UInt8 := s.toUTF8.data.toList

def Digest.order (d : Digest) : List ℕ := d.toList.map UInt8.toNat

structure ScheduleLookupKey where
  rootAccumulatedSetupPrefixLen : UInt64
  finalGroup : PolynomialGroupLayout
  precommitteds : List GroupCommitPhaseParams
  deriving DecidableEq

abbrev ScheduleLookupOrderKey := ℕ ×ₗ ℕ ×ₗ ℕ ×ₗ List (List ℕ) ×ₗ ℕ

def ScheduleLookupKey.canonicalOrderKey (key : ScheduleLookupKey) : ScheduleLookupOrderKey :=
  toLex (key.finalGroup.numVars.toNat, toLex (key.finalGroup.numPolynomials.toNat, toLex (key.precommitteds.length,
    toLex (key.precommitteds.map fun profile => profile.descriptorBytes.map UInt8.toNat,
      key.rootAccumulatedSetupPrefixLen.toNat))))

def keyForProfiles (profiles : CommittedGroupBatchProfile) (rootAccumulatedSetupPrefixLen : UInt64) : ScheduleLookupKey :=
  ⟨rootAccumulatedSetupPrefixLen, profiles.finalGroup.group, profiles.precommitteds⟩

def ResolvedScheduleRow.lookupKey (row : ResolvedScheduleRow) : ScheduleLookupKey :=
  keyForProfiles row.profiles row.schedule.rootAccumulatedSetupPrefixLen

/-! ## The backend -/

/-- `ScheduleCatalogArtifactEnvelopeV1`, the family name and the rows as raw tokens. -/
structure ScheduleCatalogEnvelope where
  magic : List UInt8
  version : ℕ
  protocolEpoch : ℕ
  policyDigest : Digest
  familyName : List UInt8
  rows : List (List UInt8)

/-- What the elements of a JSON array give to a visitor, one after the other. -/
abbrev RowTokens := List (Except String (List UInt8))

/-- The functions that a catalog consults beyond those of the audit. A row whose text decodes to a fold
without groups counts as one that does not decode. -/
structure CatalogBackend extends AuditBackend where
  policyDigest : PlannerPolicy Search → Digest
  /-- `serde_json::from_slice` of the envelope, by the visitor of its rows -/
  deserializeEnvelope : (RowTokens → Except String (List (List UInt8))) → List UInt8 → Except String ScheduleCatalogEnvelope
  /-- `serde_json::from_str` of a row -/
  deserializeRow : List UInt8 → Except String FoldSchedule
  /-- the `Debug` text of a lookup key -/
  debugKey : ScheduleLookupKey → String

def artifactMagic : List UInt8 := asciiBytes "AKSCHD01"

def artifactVersion : ℕ := 1

def akitaInstanceDescriptorVersion : ℕ := 6

def maxFamilyNameBytes : ℕ := 128

def maxTrustedCatalogRows : ℕ := 2 ^ 14

/-! ## Challenge hooks -/

def selectiveL2ChallengeConfig (ringD : ℕ) : Option SparseChallengeConfig :=
  if ringD = 64 then some ⟨31, 11⟩ else if ringD = 128 then some ⟨31, 0⟩ else none

section

variable (𝔞 : AuditBackend) (ringChallengeConfig : ℕ → Result SparseChallengeConfig)

def expectedChallenge (method : OpeningMethod) (ringDimension : ℕ) (usesL2 : Bool) (position : ScheduleGroupPosition) :
    Result SparseChallengeConfig :=
  match method with
  | .subringCoefficientPacking s => okOr (𝔞.productionForRingDim s)
      (.invalidSetup (position.display ++ " uses unsupported challenge subring D=" ++ toString s.toNat))
  | .evaluationTrace =>
    if usesL2 then okOr (selectiveL2ChallengeConfig ringDimension)
      (.invalidSetup (position.display ++ " has no selective L2 challenge config for D=" ++ toString ringDimension))
    else ringChallengeConfig ringDimension

def validateChallenge (actual : SparseChallengeConfig) (method : OpeningMethod) (ringDimension : ℕ) (usesL2 : Bool)
    (position : ScheduleGroupPosition) : Result Unit := do
  let expected ← expectedChallenge 𝔞 ringChallengeConfig method ringDimension usesL2 position
  ensure (actual = expected) (.invalidSetup (position.display ++
    " challenge config does not match the trusted runtime hook for D=" ++ toString ringDimension))

def validateScheduleChallengeHooks (schedule : FoldSchedule) : Result Unit := visitScheduleGroups schedule fun group =>
    match group with
    | .frozen position params _ => validateChallenge 𝔞 ringChallengeConfig params.opening.foldChallengeConfig
        params.opening.openingMethod params.profile.inner.matrix.ringDimension
        (!params.profile.inner.matrix.securityRoute.isLinf) position
    | .final position params _ _ => validateChallenge 𝔞 ringChallengeConfig params.foldChallengeConfig params.openingMethod
        params.dA (!params.inner.matrix.securityRoute.isLinf) position
    | .terminal position params _ => validateChallenge 𝔞 ringChallengeConfig params.foldChallengeConfig .evaluationTrace
        params.dA (!params.inner.matrix.securityRoute.isLinf) position

end

/-! ## Catalogs -/

inductive CatalogCoverage
  | complete
  | selected (rowDigests : List Digest)
  deriving DecidableEq

structure ValidatedScheduleCatalog (S : Type) where
  policy : PlannerPolicy S
  familyName : String
  policyDigest : Digest
  catalogDigest : Digest
  coverage : CatalogCoverage
  rowsByDigest : List ResolvedScheduleRow
  rowsByKey : List (ScheduleLookupOrderKey × ℕ)

def isAsciiAlphanumeric (b : UInt8) : Bool :=
  decide (0x30 ≤ b ∧ b ≤ 0x39 ∨ 0x41 ≤ b ∧ b ≤ 0x5a ∨ 0x61 ≤ b ∧ b ≤ 0x7a)

def isFamilyNameByte (b : UInt8) : Bool := isAsciiAlphanumeric b || decide (b = 0x5f ∨ b = 0x2d ∨ b = 0x2e)

def validateFamilyName (familyName : String) : Result Unit := do
  let bytes := utf8Bytes familyName
  ensure (¬ (bytes = [] ∨ bytes.length > maxFamilyNameBytes)) (.invalidSetup ("schedule family name length " ++
    toString bytes.length ++ " is outside 1..=" ++ toString maxFamilyNameBytes))
  let first ← okOr bytes.head? (.invalidSetup "schedule family name must start with an ASCII alphanumeric character")
  ensure (isAsciiAlphanumeric first = true ∧ bytes.tail.all isFamilyNameByte = true)
    (.invalidSetup "schedule family name must be a filesystem-safe ASCII identifier containing only alphanumeric characters, '_', '-', or '.'")

section

variable {𝔠 : CatalogBackend} (policy : PlannerPolicy 𝔠.Search) (ringChallengeConfig : ℕ → Result SparseChallengeConfig)

def catalogDigest (𝔠 : CatalogBackend) (familyName : String) (policyDigest : Digest) (rows : List Digest) : Digest :=
  𝔠.digestDescriptorBytes (asciiBytes "AKITA-TRUSTED-SCHEDULE-CATALOG-V1" ++ leBytes 8 (utf8Bytes familyName).length ++
    utf8Bytes familyName ++ policyDigest.toList ++ leBytes 8 rows.length ++ rows.flatMap fun row => row.toList)

def admitCatalogRow (entry : CommittedGroupBatchProfile × FoldSchedule) : Result ResolvedScheduleRow := do
  let row ← ResolvedScheduleRow.tryNew policy entry.1 entry.2
  validateScheduleChallengeHooks 𝔠.toAuditBackend ringChallengeConfig row.schedule
  return row

/-- `sort_by_key` of the row digest; the sort is stable. -/
def sortByDigest (rows : List ResolvedScheduleRow) : List ResolvedScheduleRow :=
  rows.insertionSort fun a b => Digest.order a.rowDigest ≤ Digest.order b.rowDigest

/-- An entry of the key index as it is compared: by its key, then by the digest of its row. -/
def indexOrder (rows : List ResolvedScheduleRow) (entry : ScheduleLookupOrderKey × ℕ) : ScheduleLookupOrderKey ×ₗ List ℕ :=
  toLex (entry.1, ((rows[entry.2]?.map fun row => Digest.order row.rowDigest).getD []))

def indexByKey (rows : List ResolvedScheduleRow) : List (ScheduleLookupOrderKey × ℕ) :=
  (rows.zipIdx.map fun (row, index) => (row.lookupKey.canonicalOrderKey, index)).insertionSort fun a b =>
    indexOrder rows a ≤ indexOrder rows b

def hasEqualNeighbours {α κ : Type} [DecidableEq κ] (key : α → κ) (l : List α) : Bool :=
  (l.zip l.tail).any fun pair => decide (key pair.1 = key pair.2)

namespace ValidatedScheduleCatalog

def tryNew (familyName : String) (rows : List (CommittedGroupBatchProfile × FoldSchedule)) :
    Result (ValidatedScheduleCatalog 𝔠.Search) := do
  validateFamilyName familyName
  let rows := rows.take (maxTrustedCatalogRows + 1)
  ensure (¬ (rows = [] ∨ rows.length > maxTrustedCatalogRows)) (.invalidSetup ("trusted schedule catalog row count " ++
    toString rows.length ++ " is outside 1..=" ++ toString maxTrustedCatalogRows))
  let resolved ← rows.mapM (admitCatalogRow policy ringChallengeConfig)
  let resolved := sortByDigest resolved
  let rowsByKey := indexByKey resolved
  ensure (¬ hasEqualNeighbours Prod.fst rowsByKey = true)
    (.invalidSetup "trusted schedule catalog contains a duplicate prover lookup key")
  ensure (¬ hasEqualNeighbours ResolvedScheduleRow.rowDigest resolved = true)
    (.invalidSetup "trusted schedule catalog contains duplicate row identities")
  let policyDigest := 𝔠.policyDigest policy
  return {
    policy, familyName, policyDigest
    catalogDigest := Schedule.catalogDigest 𝔠 familyName policyDigest (resolved.map ResolvedScheduleRow.rowDigest)
    coverage := .complete
    rowsByDigest := resolved
    rowsByKey }

def validateComplete {S : Type} (c : ValidatedScheduleCatalog S) : Result Unit :=
  match c.coverage with
  | .complete => .ok ()
  | .selected _ => .error (.invalidSetup "selected-row verifier catalog cannot serve as a complete catalog")

def artifact {S : Type} (c : ValidatedScheduleCatalog S) : ScheduleCatalogArtifact where
  magic := artifactMagic
  version := artifactVersion
  protocolEpoch := akitaInstanceDescriptorVersion
  policyDigest := c.policyDigest
  familyName := utf8Bytes c.familyName
  rows := c.rowsByDigest.map fun row => row.schedule.rowJson

def toArtifactBytes {S : Type} (c : ValidatedScheduleCatalog S) : Result (List UInt8) := do
  c.validateComplete
  encodeArtifact c.artifact

end ValidatedScheduleCatalog

/-! ## Decoding -/

/-- `BoundedRawRowsVisitor::visit_seq`, the rows read so far first. -/
def visitRows (rawRows : List (List UInt8)) : RowTokens → Except String (List (List UInt8))
  | [] => if rawRows = [] then .error "trusted schedule catalog row count 0 is outside 1..=16384" else .ok rawRows
  | .error e :: _ => .error e
  | .ok row :: rest =>
    if rawRows.length ≥ maxTrustedCatalogRows then
      .error ("trusted schedule catalog row count exceeds " ++ toString maxTrustedCatalogRows)
    else if row.length > maxTrustedScheduleArtifactRowBytes then
      .error ("trusted schedule row " ++ toString rawRows.length ++ " byte length " ++ toString row.length ++ " exceeds " ++
        toString maxTrustedScheduleArtifactRowBytes)
    else visitRows (rawRows ++ [row]) rest

def intoProfileAndSchedule (schedule : FoldSchedule) : Result (CommittedGroupBatchProfile × FoldSchedule) := do
  schedule.root.params.groups.validateTopology
  return (⟨schedule.root.params.ownGroup.profile, schedule.root.params.precommittedGroups.map (·.profile)⟩, schedule)

def decodeRow (𝔠 : CatalogBackend) (entry : List UInt8 × ℕ) : Result (CommittedGroupBatchProfile × FoldSchedule) := do
  let (token, index) := entry
  let schedule ← mapErr (𝔠.deserializeRow token) fun e =>
    .invalidSetup ("invalid schedule artifact row " ++ toString index ++ ": " ++ e)
  intoProfileAndSchedule schedule

def ScheduleCatalogEnvelope.check (envelope : ScheduleCatalogEnvelope) (expectedFamilyName : String)
    (policyDigest : Digest) : Result Unit := do
  ensure (¬ (envelope.magic ≠ artifactMagic ∨ envelope.version ≠ artifactVersion))
    (.invalidSetup "unsupported schedule artifact format")
  ensure (envelope.protocolEpoch = akitaInstanceDescriptorVersion) (.invalidSetup ("schedule artifact protocol epoch " ++
    toString envelope.protocolEpoch ++ " does not match runtime epoch " ++ toString akitaInstanceDescriptorVersion))
  ensure (¬ envelope.familyName.length > maxFamilyNameBytes + 2) (.invalidSetup ("schedule artifact family name length " ++
    toString envelope.familyName.length ++ " in its encoded token exceeds " ++ toString (maxFamilyNameBytes + 2) ++ " bytes"))
  ensure (envelope.familyName = stringToken (utf8Bytes expectedFamilyName)) (.invalidSetup
    ("schedule artifact family token does not match trusted family \"" ++ expectedFamilyName ++ "\""))
  ensure (envelope.policyDigest = policyDigest) (.invalidSetup "schedule artifact policy does not match the runtime config")

namespace ValidatedScheduleCatalog

def fromArtifactBytes (bytes : List UInt8) (expectedFamilyName : String) : Result (ValidatedScheduleCatalog 𝔠.Search) := do
  ensure (¬ (bytes = [] ∨ bytes.length > maxTrustedScheduleArtifactBytes)) (.invalidSetup
    ("schedule artifact byte length " ++ toString bytes.length ++ " is outside 1..=" ++
      toString maxTrustedScheduleArtifactBytes))
  validateFamilyName expectedFamilyName
  let envelope ← mapErr (𝔠.deserializeEnvelope (visitRows []) bytes) fun e =>
    .invalidSetup ("invalid schedule artifact envelope: " ++ e)
  envelope.check expectedFamilyName (𝔠.policyDigest policy)
  let rows ← envelope.rows.zipIdx.mapM (decodeRow 𝔠)
  let catalog ← tryNew policy ringChallengeConfig expectedFamilyName rows
  ensure ((← catalog.toArtifactBytes) = bytes)
    (.invalidSetup "schedule artifact is not in canonical JSON form or rows are not in canonical digest order")
  return catalog

/-! ## Lookups -/

variable (c : ValidatedScheduleCatalog 𝔠.Search)

def resolveSelection (rowDigest : Digest) : Result ResolvedScheduleRow :=
  match binarySearchByKey (fun row : ResolvedScheduleRow => Digest.order row.rowDigest) (Digest.order rowDigest) c.rowsByDigest with
  | .error _ => .error (.unsupportedSchedule "selected schedule row is not present in the trusted catalog")
  | .ok index => okOr c.rowsByDigest[index]? (.invalidSetup "trusted schedule row index is out of bounds")

def unsupportedScheduleLookup (𝔠 : CatalogBackend) (key : ScheduleLookupKey) (exactProfiles : Bool) : AkitaError :=
  .unsupportedSchedule (if exactProfiles then "no trusted schedule row matches the exact committed profiles"
    else "no trusted schedule row for request " ++ 𝔠.debugKey key)

def resolveKeyMatching (key : ScheduleLookupKey) (exactProfiles : Option CommittedGroupBatchProfile) :
    Result ResolvedScheduleRow := do
  let orderKey := key.canonicalOrderKey
  let start := partitionPoint (fun entry => decide (entry.1 < orderKey)) c.rowsByKey
  let (rowKey, rowIndex) ← okOr c.rowsByKey[start]? (unsupportedScheduleLookup 𝔠 key exactProfiles.isSome)
  let row ← okOr c.rowsByDigest[rowIndex]? (.invalidSetup "trusted schedule key index is out of bounds")
  ensure (¬ (rowKey ≠ orderKey ∨ (exactProfiles.any fun profiles => decide (row.profiles ≠ profiles)) = true))
    (unsupportedScheduleLookup 𝔠 key exactProfiles.isSome)
  return row

def resolveKey (key : ScheduleLookupKey) : Result ResolvedScheduleRow := c.resolveKeyMatching key none

end ValidatedScheduleCatalog

end

end Akita.Schedule
