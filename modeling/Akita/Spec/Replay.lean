import Akita.Spec.Grinding
import Akita.Spec.Script

/-!
# Replay of a grinding plan

`akita-types/src/transcript_grinding/replay.rs`: the plan cursor and the prover's and the
verifier's side of the replay, with `FoldWork` of `akita-transcript`.

The proof-of-work search and its check (`grind`, `check_grind`) belong to `jolt-transcript`
and the sponge to `spongefish`; what replay uses of them is the parameter `WorkBackend`.
A fold response is committed with any `FoldWork`; the previews that find one are those of
`FoldPreview`.
-/

namespace Akita.Grinding

open Lib Transcript

section

/-! ## The cursor -/

structure GrindingPlanEntry where
  site : GrindingSite
  grindBits : UInt8
  nonceBits : UInt8
  deriving DecidableEq, Repr

structure GrindingPlanCursor (𝔭 : Pricing) where
  plan : GrindingPlan 𝔭
  runIndex : ℕ
  runOffset : ℕ

namespace GrindingPlanCursor

variable {𝔭 : Pricing}

def new (plan : GrindingPlan 𝔭) : GrindingPlanCursor 𝔭 := { plan, runIndex := 0, runOffset := 0 }

def next (c : GrindingPlanCursor 𝔭) : Option GrindingPlanEntry × GrindingPlanCursor 𝔭 :=
  match c.plan.runs[c.runIndex]? with
  | none => (none, c)
  | some run =>
    let entry := { site := run.site, grindBits := run.grindBits, nonceBits := run.nonceBits }
    if c.runOffset + 1 = run.multiplicity.toNat then
      (some entry, { c with runIndex := c.runIndex + 1, runOffset := 0 })
    else (some entry, { c with runOffset := c.runOffset + 1 })

def consumeRun (site : GrindingSite) (multiplicity : ℕ) : EStateM AkitaError (GrindingPlanCursor 𝔭) Unit := do
  let c ← get
  let run ← ofResult (okOr c.plan.runs[c.runIndex]? (.invalidInput "fold-challenge replay has no remaining plan run"))
  if c.runOffset ≠ 0 ∨ run.site ≠ site ∨ run.grindBits ≠ 0 ∨ run.nonceBits ≠ 0 ∨
      run.multiplicity.toNat ≠ multiplicity then
    throw (.invalidInput "fold-challenge replay request differs from the next plan run")
  else
    let runIndex ← ofResult (okOr (checkedAdd usizeBits c.runIndex 1)
      (.internal "fold-challenge replay run index overflows usize"))
    set { c with runIndex }

def isFinished (c : GrindingPlanCursor 𝔭) : Bool := c.runIndex == c.plan.runs.length && c.runOffset == 0

end GrindingPlanCursor

def valueFits (value : UInt32) (width : UInt8) : Bool :=
  if width.toNat ≤ 31 then value.toNat < 2 ^ width.toNat else width == 32

def nextEntry {𝔭 : Pricing} (site : GrindingSite) (kind : GrindingQueryKind) :
    EStateM AkitaError (GrindingPlanCursor 𝔭) GrindingPlanEntry := do
  let entry ← modifyGet GrindingPlanCursor.next
  let entry ← ofResult (okOr entry (.invalidInput "grinding query replay has no remaining plan entry"))
  if entry.site ≠ site ∨ site.kind ≠ kind then
    throw (.invalidInput "grinding query replay site or kind differs from the next plan entry")
  else return entry

def powBits (entry : GrindingPlanEntry) : Option UInt32 := do
  let nonceBits ← if entry.grindBits = 0 then some 0
    else checkedAdd 8 entry.grindBits.toNat grindingNonceSlackBits.toNat
  if entry.nonceBits.toNat = nonceBits then some entry.grindBits.toUInt32 else none

def grindingRecords (site : GrindingSite) (grindBits nonceBits : UInt8) :
    ProtocolContextRecord × ProtocolContextRecord :=
  let siteId := (site.siteId (grindBits.toUInt32 ||| (nonceBits.toUInt32 <<< 8))).toBytes
  (ProtocolContextRecord.new siteId ProtocolMessageKind.grindingNonce.code 1
      (Transcript.nonceMaxBytes nonceBits.toNat) 0,
    ProtocolContextRecord.new siteId ProtocolMessageKind.grindingCheck.code 0 0 grindingCheckBytes.toNat)

def foldResponseRecord (site : GrindingSite) (nonceBits : UInt8) : ProtocolContextRecord :=
  ProtocolContextRecord.new (site.siteId nonceBits.toUInt32).toBytes ProtocolMessageKind.foldResponseNonce.code 1
    (Transcript.nonceMaxBytes nonceBits.toNat) 0

def GrindingSite.level : GrindingSite → UInt32
  | .evaluationBatch level
  | .extensionOpeningPoint level
  | .extensionOpeningClaimBatch level
  | .sumcheckRound _ level _ _
  | .foldResponse level
  | .foldChallengeGroup level _
  | .ringSwitchAlpha level
  | .tau0Point level
  | .tau1Point level
  | .stage1InterstageBatch level _
  | .l2SubclaimBatch level
  | .l2NormMerge level
  | .l2VirtualBatch level
  | .compressionBinary level
  | .stage2Batch level
  | .foldChallengeWork level
  | .setupBatch level => level

/-! ## Proof of work -/

/-- The proof of work of `jolt-transcript` and the sponge inside the prover's state. -/
structure WorkBackend (𝔱 : TranscriptBackend) where
  /-- `ProverTranscript::grind` -/
  grind : 𝔱.Prover → UInt32 → Bool × 𝔱.Prover
  /-- `VerifierTranscript::check_grind` -/
  checkGrind : 𝔱.Verifier → UInt32 → Bool × 𝔱.Verifier
  Sponge : Type
  /-- `duplex_sponge_state` -/
  sponge : 𝔱.Prover → Sponge
  setSponge : 𝔱.Prover → Sponge → 𝔱.Prover
  /-- 32 bytes squeezed from a copy -/
  spongeFingerprint : Sponge → List UInt8

/-- A poisoned verifier stays poisoned through a check. -/
structure WorkBackend.Lawful {𝔱 : TranscriptBackend} (𝔴 : WorkBackend 𝔱) : Prop where
  checkGrind : ∀ v bits, 𝔱.poisoned v → 𝔱.poisoned (𝔴.checkGrind v bits).2

/-- An operation of `jolt-transcript` that reports success, with the error its failure is mapped to. -/
def liftBool {σ : Type} (f : σ → Bool × σ) (e : AkitaError) : Chan σ Unit := fun s =>
  match f s with
  | (true, s) => .ok () s
  | (false, s) => .error e s

variable {𝔱 : TranscriptBackend} {𝔴 : WorkBackend 𝔱} {𝔭 : Pricing}

/-- The fold's proof of work as found on a preview. -/
structure FoldWork (𝔴 : WorkBackend 𝔱) where
  nonce : UInt32
  start : List UInt8
  sponge : 𝔴.Sponge
  argument : List UInt8

def FoldWork.commit (work : FoldWork 𝔴) : Chan 𝔱.Prover Unit := do
  if 𝔴.spongeFingerprint (𝔴.sponge (← get)) ≠ work.start then
    throw (.internal "live transcript diverged from the fold preview")
  else
    proverMessageWith [] work.argument
    modify fun s => 𝔴.setSponge s work.sponge

/-! ## The two sides -/

/-- `GrindingReplay`: one side of the replay, over its end of the channel. -/
structure GrindingReplay (G S : Type) where
  onState : {α : Type} → Chan S α → EStateM AkitaError G α
  poison : G → G
  grindQuery : GrindingSite → EStateM AkitaError G Unit

namespace GrindingReplay

variable {G S E : Type} [ProofChannel S]

/-- One scheduled query and the challenges it protects. -/
def grindedExtChallenges (r : GrindingReplay G S) (codec : ChallengeCodec E) (site : GrindingSite) (count : ℕ) :
    EStateM AkitaError G (List E) := do
  r.grindQuery site
  onError (r.onState (extChallenges codec (site.siteId 0) count)) r.poison

def grindedExtChallenge (r : GrindingReplay G S) (codec : ChallengeCodec E) (site : GrindingSite) :
    EStateM AkitaError G E := do
  let challenges ← r.grindedExtChallenges codec site 1
  onError (ofResult (okOr challenges.getLast? (.internal "challenge codec returned no element"))) r.poison

end GrindingReplay

structure ProverGrinding (𝔱 : TranscriptBackend) (𝔭 : Pricing) where
  state : 𝔱.Prover
  cursor : GrindingPlanCursor 𝔭
  serializedNonceBytes : ℕ
  invalid : Bool

namespace ProverGrinding

abbrev Op (𝔱 : TranscriptBackend) (𝔭 : Pricing) (α : Type) := EStateM AkitaError (ProverGrinding 𝔱 𝔭) α

def new (state : 𝔱.Prover) (plan : GrindingPlan 𝔭) : ProverGrinding 𝔱 𝔭 :=
  { state, cursor := GrindingPlanCursor.new plan, serializedNonceBytes := 0, invalid := false }

def onState {α : Type} (m : Chan 𝔱.Prover α) : Op 𝔱 𝔭 α :=
  zoom ProverGrinding.state (fun g s => { g with state := s }) m

def onCursor {α : Type} (m : EStateM AkitaError (GrindingPlanCursor 𝔭) α) : Op 𝔱 𝔭 α :=
  zoom ProverGrinding.cursor (fun g c => { g with cursor := c }) m

def poison (g : ProverGrinding 𝔱 𝔭) : ProverGrinding 𝔱 𝔭 := { g with invalid := true }

def addNonceBytes (bytes : ℕ) (overflow : AkitaError) : Op 𝔱 𝔭 Unit := do
  let total ← ofResult (okOr (checkedAdd usizeBits (← get).serializedNonceBytes bytes) overflow)
  modify fun g => { g with serializedNonceBytes := total }

/-- Consume the next proof-of-work entry and let `work` produce it on the live channel. -/
def proofOfWork (site : GrindingSite) (kind : GrindingQueryKind) (work : UInt32 → Chan 𝔱.Prover Unit) :
    Op 𝔱 𝔭 Unit := do
  let entry ← onCursor (nextEntry site kind)
  let bits ← ofResult (okOr (powBits entry) (.internal "grinding entry nonce width differs from grind_bits + 7"))
  if bits = 0 then return ()
  else
    let _ := grindingRecords site entry.grindBits entry.nonceBits
    let start := (𝔱.argument (← get).state).length
    onState (work bits)
    let nonceBytes := (𝔱.argument (← get).state).length - start
    addNonceBytes nonceBytes (.internal "proof-of-work serialized nonce byte count overflow")

def grindQueryInner (𝔴 : WorkBackend 𝔱) (site : GrindingSite) (kind : GrindingQueryKind) : Op 𝔱 𝔭 Unit :=
  proofOfWork site kind fun bits => liftBool (fun s => 𝔴.grind s bits)
    (.internal "transcript proof of work failed to find a nonce")

def grindQuery (𝔴 : WorkBackend 𝔱) (site : GrindingSite) : Op 𝔱 𝔭 Unit :=
  onError (grindQueryInner 𝔴 site .proofOfWork) poison

def replay (𝔴 : WorkBackend 𝔱) : GrindingReplay (ProverGrinding 𝔱 𝔭) 𝔱.Prover where
  onState := onState
  poison := poison
  grindQuery := grindQuery 𝔴

def commitFoldResponseInner (site : GrindingSite) (work : FoldWork 𝔴) : Op 𝔱 𝔭 Unit := do
  let counter := work.nonce
  let entry ← onCursor (nextEntry site .foldResponse)
  if !valueFits counter entry.nonceBits then
    throw (.invalidInput "fold-response nonce exceeds its scheduled bit width")
  else
    let _ := foldResponseRecord site entry.nonceBits
    onState (sendNonce counter)
    addNonceBytes (nonceWire counter).length (.internal "fold-response serialized nonce byte count overflow")
    proofOfWork (.foldChallengeWork site.level) .foldChallengeWork fun _ => work.commit

def commitFoldResponse (site : GrindingSite) (work : FoldWork 𝔴) : Op 𝔱 𝔭 Unit :=
  onError (commitFoldResponseInner site work) poison

def recordFoldChallenges (level group : UInt32) (coordinateCount : ℕ) : Op 𝔱 𝔭 Unit := onError (do
    let multiplicity ← ofResult (okOr (checkedAdd usizeBits coordinateCount 1)
      (.invalidInput "fold-challenge coordinate count overflow"))
    onCursor (GrindingPlanCursor.consumeRun (.foldChallengeGroup level group) multiplicity)) poison

def finish (g : ProverGrinding 𝔱 𝔭) : Result Unit := do
  ensure (!g.invalid) (.invalidInput "an earlier grinding step failed")
  ensure g.cursor.isFinished (.invalidInput "the grinding plan has unconsumed entries")

end ProverGrinding

structure VerifierGrinding (𝔱 : TranscriptBackend) (𝔭 : Pricing) where
  state : 𝔱.Verifier
  cursor : GrindingPlanCursor 𝔭
  invalid : Bool

namespace VerifierGrinding

abbrev Op (𝔱 : TranscriptBackend) (𝔭 : Pricing) (α : Type) := EStateM AkitaError (VerifierGrinding 𝔱 𝔭) α

def new (state : 𝔱.Verifier) (plan : GrindingPlan 𝔭) : VerifierGrinding 𝔱 𝔭 :=
  { state, cursor := GrindingPlanCursor.new plan, invalid := false }

def onState {α : Type} (m : Chan 𝔱.Verifier α) : Op 𝔱 𝔭 α :=
  zoom VerifierGrinding.state (fun g s => { g with state := s }) m

def onCursor {α : Type} (m : EStateM AkitaError (GrindingPlanCursor 𝔭) α) : Op 𝔱 𝔭 α :=
  zoom VerifierGrinding.cursor (fun g c => { g with cursor := c }) m

/-- Marks the replay as failed and rejects the state. -/
def poison (g : VerifierGrinding 𝔱 𝔭) : VerifierGrinding 𝔱 𝔭 :=
  { g with invalid := true, state := stateAfter reject g.state }

def grindQueryInner (𝔴 : WorkBackend 𝔱) (site : GrindingSite) (kind : GrindingQueryKind) : Op 𝔱 𝔭 Unit := do
  let entry ← onCursor (nextEntry site kind)
  let bits ← ofResult (okOr (powBits entry) .invalidProof)
  if bits = 0 then return ()
  else
    let _ := grindingRecords site entry.grindBits entry.nonceBits
    onState (liftBool (fun s => 𝔴.checkGrind s bits) .invalidProof)

def grindQuery (𝔴 : WorkBackend 𝔱) (site : GrindingSite) : Op 𝔱 𝔭 Unit :=
  onError (grindQueryInner 𝔴 site .proofOfWork) poison

def replay (𝔴 : WorkBackend 𝔱) : GrindingReplay (VerifierGrinding 𝔱 𝔭) 𝔱.Verifier where
  onState := onState
  poison := poison
  grindQuery := grindQuery 𝔴

def readFoldResponseInner (𝔴 : WorkBackend 𝔱) (site : GrindingSite) : Op 𝔱 𝔭 UInt32 := do
  let entry ← onCursor (nextEntry site .foldResponse)
  let _ := foldResponseRecord site entry.nonceBits
  let counter ← onState receiveNonce
  if !valueFits counter entry.nonceBits then throw .invalidProof
  else
    grindQueryInner 𝔴 (.foldChallengeWork site.level) .foldChallengeWork
    return counter

def readFoldResponse (𝔴 : WorkBackend 𝔱) (site : GrindingSite) : Op 𝔱 𝔭 UInt32 :=
  onError (readFoldResponseInner 𝔴 site) poison

def recordFoldChallenges (level group : UInt32) (coordinateCount : ℕ) : Op 𝔱 𝔭 Unit := onError (do
    let multiplicity ← ofResult (okOr (checkedAdd usizeBits coordinateCount 1) .invalidProof)
    onCursor (GrindingPlanCursor.consumeRun (.foldChallengeGroup level group) multiplicity)) poison

/-- Requires plan completion; a failure rejects the state. -/
def finish : Op 𝔱 𝔭 Unit := do
  let g ← get
  if g.invalid || !g.cursor.isFinished then
    modify poison
    throw .invalidProof
  else return ()

end VerifierGrinding

/-! ## Sequences of calls -/

/-- A call on one side of the replay: `W` is what a fold response is committed with, `C` what the
caller does on the channel between two calls. -/
inductive ReplayCall (W C : Type)
  | grindQuery (site : GrindingSite)
  | grindedExtChallenges (site : GrindingSite) (E : Type) (codec : ChallengeCodec E) (count : ℕ)
  | grindedExtChallenge (site : GrindingSite) (E : Type) (codec : ChallengeCodec E)
  | foldResponse (site : GrindingSite) (work : W)
  | recordFoldChallenges (level group : UInt32) (coordinateCount : ℕ)
  | channel (c : C)

def ReplayCall.proverRun (𝔴 : WorkBackend 𝔱) :
    ReplayCall (FoldWork 𝔴) (𝔱.Prover → 𝔱.Prover) → ProverGrinding.Op 𝔱 𝔭 Unit
  | .grindQuery site => ProverGrinding.grindQuery 𝔴 site
  | .grindedExtChallenges site _ codec count => do
    let _ ← (ProverGrinding.replay 𝔴).grindedExtChallenges codec site count
    return ()
  | .grindedExtChallenge site _ codec => do
    let _ ← (ProverGrinding.replay 𝔴).grindedExtChallenge codec site
    return ()
  | .foldResponse site work => ProverGrinding.commitFoldResponse site work
  | .recordFoldChallenges level group coordinateCount =>
    ProverGrinding.recordFoldChallenges level group coordinateCount
  | .channel f => modify fun g => { g with state := f g.state }

/-- The verifier's call, its value dropped. Failures of the channel's own calls are left to the
caller. -/
def ReplayCall.verifierRun (𝔴 : WorkBackend 𝔱) {F E T D : Type} [CanonicalEncoding F] [ExtField F E] [ProofAtom T]
    [Zero E] (codec : ChallengeCodec E) : ReplayCall Unit (VerifierCall F E T D) → VerifierGrinding.Op 𝔱 𝔭 Unit
  | .grindQuery site => VerifierGrinding.grindQuery 𝔴 site
  | .grindedExtChallenges site _ codec count => do
    let _ ← (VerifierGrinding.replay 𝔴).grindedExtChallenges codec site count
    return ()
  | .grindedExtChallenge site _ codec => do
    let _ ← (VerifierGrinding.replay 𝔴).grindedExtChallenge codec site
    return ()
  | .foldResponse site _ => do
    let _ ← VerifierGrinding.readFoldResponse 𝔴 site
    return ()
  | .recordFoldChallenges level group coordinateCount =>
    VerifierGrinding.recordFoldChallenges level group coordinateCount
  | .channel c => modify fun g => { g with state := stateAfter (c.run codec) g.state }

/-! ## What calls consume -/

/-- One entry of an expanded plan: a query of its own, or the queries of a whole fold group. -/
structure Request where
  site : GrindingSite
  kind : GrindingQueryKind
  multiplicity : ℕ
  deriving DecidableEq, Repr

/-- A run expanded: a fold group's queries are consumed together, all others one by one. -/
def GrindingRun.requests (r : GrindingRun) : List Request :=
  match r.kind with
  | .foldChallengeGroup => [⟨r.site, r.kind, r.multiplicity.toNat⟩]
  | _ => List.replicate r.multiplicity.toNat ⟨r.site, r.kind, 1⟩

def GrindingPlan.requests (p : GrindingPlan 𝔭) : List Request := p.runs.flatMap GrindingRun.requests

def ReplayCall.requests {W C : Type} : ReplayCall W C → List Request
  | .grindQuery site => [⟨site, .proofOfWork, 1⟩]
  | .grindedExtChallenges site _ _ _ => [⟨site, .proofOfWork, 1⟩]
  | .grindedExtChallenge site _ _ => [⟨site, .proofOfWork, 1⟩]
  | .foldResponse site _ =>
    [⟨site, .foldResponse, 1⟩, ⟨.foldChallengeWork site.level, .foldChallengeWork, 1⟩]
  | .recordFoldChallenges level group coordinateCount =>
    [⟨.foldChallengeGroup level group, .foldChallengeGroup, coordinateCount + 1⟩]
  | .channel _ => []

end

/-!
## Previews of fold responses

`FoldPreview` and `FoldWork` of `akita-transcript/src/proof_stream.rs`, `preview_fold_response` of
`transcript_grinding/replay.rs`, and the search over candidate nonces of `akita-prover/src/protocol/fold_grind.rs`:
a candidate's nonce, proof of work and challenge messages run on a state of its own, which starts from a copy of the
live sponge, and the accepted work is committed on the live channel.

Of a group the search needs its challenge message and what is probed with the decoded challenges.
-/

/-- What a preview uses beside the proof of work: the state of `new_with_seed` on the preview session, no bytes and
the zero seed. -/
structure PreviewBackend (𝔱 : TranscriptBackend) extends WorkBackend 𝔱 where
  detached : 𝔱.Prover

variable {𝔱 : TranscriptBackend} {𝔭 : Pricing} {T C O : Type}

structure FoldPreview (𝔴 : PreviewBackend 𝔱) where
  state : 𝔱.Prover
  nonce : UInt32
  work : Option (FoldWork 𝔴.toWorkBackend)

namespace FoldPreview

variable {𝔴 : PreviewBackend 𝔱}

abbrev Op (𝔴 : PreviewBackend 𝔱) (α : Type) := EStateM AkitaError (FoldPreview 𝔴) α

/-- Copy the public state and absorb the word of one candidate nonce. -/
def new (𝔴 : PreviewBackend 𝔱) (state : 𝔱.Prover) (nonce : UInt32) : FoldPreview 𝔴 :=
  let detached := 𝔴.setSponge 𝔴.detached (𝔴.sponge state)
  { state := 𝔱.proverPublic detached (nonceWord nonce), nonce, work := none }

def onState {α : Type} (m : Chan 𝔱.Prover α) : Op 𝔴 α := zoom FoldPreview.state (fun v s => { v with state := s }) m

/-- Run the proof of work on the detached state. -/
def grind (bits : UInt32) : Op 𝔴 Unit := do
  let v ← get
  if v.work.isSome then throw (.internal "fold preview ran its proof of work twice")
  else
    let start := 𝔴.spongeFingerprint (𝔴.sponge v.state)
    onState (liftBool (fun s => 𝔴.grind s bits) (.invalidSetup "fold preview proof of work failed"))
    modify fun v => { v with work := some ⟨v.nonce, start, 𝔴.sponge v.state, 𝔱.argument v.state⟩ }

def takeWork : Op 𝔴 (FoldWork 𝔴.toWorkBackend) := do
  let work ← modifyGet fun v => (v.work, { v with work := none })
  ofResult (okOr work (.internal "fold preview has no proof of work"))

def challengeMessage (len : ℕ) (decode : List UInt8 → Result T) : Op 𝔴 T := do
  let message ← onState (modifyGet fun s => 𝔱.proverSqueeze s len)
  ofResult (decode message)

end FoldPreview

/-- A preview of one candidate after its proof of work. -/
def previewed (𝔴 : PreviewBackend 𝔱) (state : 𝔱.Prover) (bits nonce : UInt32) : Result (FoldPreview 𝔴) :=
  match (FoldPreview.grind bits).run (FoldPreview.new 𝔴 state nonce) with
  | .ok _ preview => .ok preview
  | .error e _ => .error e

namespace GrindingPlanCursor

def peek (c : GrindingPlanCursor 𝔭) : Option GrindingPlanEntry := do
  let run ← c.plan.runs[c.runIndex]?
  return { site := run.site, grindBits := run.grindBits, nonceBits := run.nonceBits }

/-- The entry after the current one, when that is a run of its own. -/
def peekFollowing (c : GrindingPlanCursor 𝔭) : Option GrindingPlanEntry := do
  let current ← c.plan.runs[c.runIndex]?
  if c.runOffset ≠ 0 ∨ current.multiplicity ≠ 1 then none
  else do
    let run ← c.plan.runs[← checkedAdd usizeBits c.runIndex 1]?
    return { site := run.site, grindBits := run.grindBits, nonceBits := run.nonceBits }

end GrindingPlanCursor

namespace ProverGrinding

/-- Preview a candidate without advancing the channel or the plan. -/
def previewFoldResponse (𝔴 : PreviewBackend 𝔱) (g : ProverGrinding 𝔱 𝔭) (site : GrindingSite) (counter : UInt32) :
    Result (FoldPreview 𝔴) := do
  let entry ← okOr g.cursor.peek (.invalidInput "fold-response preview has no remaining grinding plan entry")
  ensure (entry.site = site) (.invalidInput "fold-response preview site differs from grinding plan")
  ensure (site.kind = .foldResponse) (.invalidInput "fold-response preview query kind is not FoldResponse")
  ensure (valueFits counter entry.nonceBits) (.invalidInput "fold-response preview nonce exceeds scheduled bit width")
  let workSite := GrindingSite.foldChallengeWork site.level
  let work ← okOr (g.cursor.peekFollowing.filter fun work => work.site = workSite)
    (.invalidInput "fold-response preview is not followed by the fold proof of work")
  let bits ← okOr (powBits work) (.internal "grinding entry nonce width differs from grind_bits + 7")
  previewed 𝔴 g.state bits counter

end ProverGrinding

/-! ### The search -/

/-- `FoldGrindGroup`: the challenge message of a group, its decoder, which may run out, and the probe. -/
structure FoldGrindGroup (C O : Type) where
  messageLen : ℕ
  decode : List UInt8 → Result (Option C)
  probe : C → Result (Option O)

namespace FoldPreview

variable {𝔴 : PreviewBackend 𝔱}

/-- The groups of one candidate, drawn and probed in order; a rejected one ends the candidate. -/
def probeGroups : List (FoldGrindGroup C O) → Op 𝔴 (Option (List (C × O)))
  | [] => return some []
  | group :: groups => do
    match ← challengeMessage group.messageLen group.decode with
    | none => return none
    | some challenges =>
      match ← ofResult (group.probe challenges) with
      | none => return none
      | some output => do
        let outputs ← probeGroups groups
        return outputs.map ((challenges, output) :: ·)

/-- One candidate: its work, then its groups. -/
def probe (groups : List (FoldGrindGroup C O)) : Op 𝔴 (Option (FoldWork 𝔴.toWorkBackend × List (C × O))) := do
  let work ← takeWork
  let outputs ← probeGroups groups
  return outputs.map (work, ·)

end FoldPreview

/-- The probe of a nonce, given how its preview is made. -/
def probeNonce {𝔴 : PreviewBackend 𝔱} (preview : UInt32 → Result (FoldPreview 𝔴)) (groups : List (FoldGrindGroup C O))
    (nonce : UInt32) : Result (Option (FoldWork 𝔴.toWorkBackend × List (C × O))) := do
  let v ← preview nonce
  match (FoldPreview.probe groups).run v with
  | .ok outcome _ => .ok outcome
  | .error e _ => .error e

/-- The loop over candidates: the first accepted one, or an error on the way. -/
def firstAccepted (probe : UInt32 → Result (Option T)) : List UInt32 → Result (Option (UInt32 × T))
  | [] => return none
  | nonce :: nonces => do
    match ← probe nonce with
    | some value => return some (nonce, value)
    | none => firstAccepted probe nonces

def firstJointlyAcceptedNonce (maxGrindAttempts : UInt32) (probe : UInt32 → Result (Option T)) : Result (UInt32 × T) := do
  let found ← firstAccepted probe ((List.range maxGrindAttempts.toNat).map UInt32.ofNat)
  okOr found (.invalidInput ("fold grind exceeded " ++ toString maxGrindAttempts.toNat ++ " joint attempts"))

end Akita.Grinding
