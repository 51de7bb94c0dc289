import Akita.Lib.Stateful
import Akita.Spec.Transcript

/-!
# Setup claims

`akita-types/src/setup_claims/mod.rs`: the identity of a setup polynomial, one claimed answer to a
query about it, and the checked statement that collects claims. What a claim asks is the type
`Q`, used through `SetupQuery`.
-/

namespace Akita.SetupClaims

section

inductive PublicMatrixDerivation
  | shake256PagedV1
  deriving DecidableEq, Repr

/-- Identity of the public field stream. -/
structure AkitaSetupSeed where
  derivation : PublicMatrixDerivation
  seed : Vector UInt8 32
  deriving DecidableEq

/-- What the identity of a setup polynomial is checked against: the stream and the field of an expanded setup, and how
much of the stream it holds. -/
structure SetupDomain where
  seed : AkitaSetupSeed
  /-- `field_modulus_be_bytes::<F>()` -/
  modulus : Result (Vector UInt8 32)
  extensionDegree : ℕ
  numFieldElements : ℕ

/-- Exact flat setup polynomial; the rectangular split is not its identity. -/
structure SetupPolynomialId where
  seed : AkitaSetupSeed
  modulus : Vector UInt8 32
  extensionDegree : ℕ
  fieldLen : ℕ
  deriving DecidableEq

namespace SetupPolynomialId

/-- Name a power-of-two prefix of the public stream. -/
def new (setup : SetupDomain) (fieldLen : ℕ) : Result SetupPolynomialId := do
  ensure fieldLen.isPowerOfTwo (.invalidInput "invalid external setup domain")
  return { seed := setup.seed, modulus := ← setup.modulus, extensionDegree := setup.extensionDegree, fieldLen }

/-- Check stream and field identity. -/
def validate (id : SetupPolynomialId) (setup : SetupDomain) : Result Unit := do
  let expected ← new setup id.fieldLen
  ensure (expected = id) (.invalidSetup "external setup identity mismatch")

def numVariables (id : SetupPolynomialId) : ℕ := trailingZeros id.fieldLen

/-- One split contract for native preparation and the bound batch statement. -/
def validateSplit (id : SetupPolynomialId) (coefficientLen : ℕ) : Result Unit :=
  ensure (coefficientLen.isPowerOfTwo ∧ coefficientLen ≤ id.fieldLen ∧ (coefficientLen = 1 → id.fieldLen = 1))
    (.invalidInput "invalid setup split")

end SetupPolynomialId

class SetupQuery (E : outParam Type) (Q : Type) where
  validate : Q → SetupPolynomialId → Result Unit
  validateSplit : Q → ℕ → Result Unit
  evaluateWeight : Q → SetupPolynomialId → List E → Result E

variable {E Q : Type} [SetupQuery E Q]

/-- One query and a candidate answer, with the query inside its domain. -/
structure SetupClaim (E Q : Type) [SetupQuery E Q] where
  polynomial : SetupPolynomialId
  query : Q
  value : E
  valid : SetupQuery.validate query polynomial = .ok ()

def SetupClaim.new (polynomial : SetupPolynomialId) (query : Q) (value : E) : Result (SetupClaim E Q) :=
  match h : SetupQuery.validate query polynomial with
  | .ok () => .ok { polynomial, query, value, valid := h }
  | .error e => .error e

def maxSetupBatchClaims : ℕ := 2 ^ 16

/-- The checks of `SetupBatchStatement::new`. -/
def SetupBatchStatement.check (polynomial : SetupPolynomialId) (coefficientLen : ℕ) (claims : List (SetupClaim E Q)) :
    Result Unit := do
  ensure (claims.length ≤ maxSetupBatchClaims) (.invalidInput "invalid setup batch shape")
  polynomial.validateSplit coefficientLen
  claims.forM fun claim => do
    ensure (claim.polynomial = polynomial) (.invalidInput "incompatible setup claims")
    SetupQuery.validate claim.query polynomial
    SetupQuery.validateSplit claim.query coefficientLen

/-- Checked ordered statement for one setup domain and split. -/
structure SetupBatchStatement (E Q : Type) [SetupQuery E Q] where
  polynomial : SetupPolynomialId
  coefficientLen : ℕ
  claims : List (SetupClaim E Q)
  checked : SetupBatchStatement.check polynomial coefficientLen claims = .ok ()

namespace SetupBatchStatement

def new (polynomial : SetupPolynomialId) (coefficientLen : ℕ) (claims : List (SetupClaim E Q)) :
    Result (SetupBatchStatement E Q) :=
  match h : check polynomial coefficientLen claims with
  | .ok () => .ok { polynomial, coefficientLen, claims, checked := h }
  | .error e => .error e

variable [CommRing E]

def inputClaim (statement : SetupBatchStatement E Q) (coefficients : List E) : Result E := do
  ensure (coefficients.length = statement.claims.length) .invalidProof
  return (statement.claims.zip coefficients).foldl (fun sum (claim, coefficient) => sum + coefficient * claim.value) 0

/-- The combined query at the shared sumcheck endpoint. -/
def evaluateWeight (statement : SetupBatchStatement E Q) (coefficients point : List E) : Result E := do
  ensure (coefficients.length = statement.claims.length) .invalidProof
  (statement.claims.zip coefficients).foldlM (fun sum (claim, coefficient) => do
    let weight ← SetupQuery.evaluateWeight claim.query statement.polynomial point
    return sum + coefficient * weight) 0

end SetupBatchStatement

end

/-!
## Setup obligations in the verifier

`akita-verifier/src/setup_claims.rs`, and what `fold/mod.rs`, `fold/suffix.rs`, `fold/verify.rs`,
`setup_batch/outer.rs`, `stages/stage2.rs` and `stages/stage3.rs` do with setup claims over the root, suffix and
terminal levels of one verification. The replay of messages and the checks that neither read nor
write setup claims are the parameter `VerifierBackend`.
-/

open Lib Transcript

/-! ### The accumulator -/

/-- Candidate answers of an archived proof, from an answerer with a state. -/
class SetupClaimAdvice (E : outParam Type) (Q : outParam Type) (A : Type) where
  answer : A → Q → Result E × A

/-- Input and output setup obligations. -/
structure SetupClaimAccumulator (E Q A : Type) [SetupQuery E Q] where
  polynomial : SetupPolynomialId
  batch : Option (UInt32 × SetupBatchStatement E Q)
  pending : List (SetupClaim E Q)
  advice : Option A

variable {E Q A : Type} [SetupQuery E Q]

namespace SetupClaimAccumulator

/-- `into_pending`: all unresolved claims, with an input batch not yet replayed. -/
def intoPending (acc : SetupClaimAccumulator E Q A) : List (SetupClaim E Q) :=
  match acc.batch with
  | some (_, batch) => acc.pending ++ batch.claims
  | none => acc.pending

def resolve [SetupClaimAdvice E Q A] (query : Q) : Chan (SetupClaimAccumulator E Q A) E := do
  let acc ← get
  ofResult (SetupQuery.validate query acc.polynomial)
  let advice ← ofResult (okOr acc.advice (.invalidInput "deferred direct setup evaluation requires advice"))
  let (answer, advice) := SetupClaimAdvice.answer advice query
  set { acc with advice := some advice }
  let value ← ofResult answer
  let claim ← ofResult (SetupClaim.new acc.polynomial query value)
  modify fun acc => { acc with pending := acc.pending ++ [claim] }
  return value

end SetupClaimAccumulator

inductive SetupPolicy (E Q A : Type) [SetupQuery E Q]
  | check (accumulator : Option (SetupClaimAccumulator E Q A))
  | defer (accumulator : SetupClaimAccumulator E Q A)

namespace SetupPolicy

def accumulator : SetupPolicy E Q A → Option (SetupClaimAccumulator E Q A)
  | .check accumulator => accumulator
  | .defer accumulator => some accumulator

def update (f : SetupClaimAccumulator E Q A → SetupClaimAccumulator E Q A) : SetupPolicy E Q A → SetupPolicy E Q A
  | .check accumulator => .check (accumulator.map f)
  | .defer accumulator => .defer (f accumulator)

def defers : SetupPolicy E Q A → Bool
  | .check _ => false
  | .defer _ => true

def pendingLen (policy : SetupPolicy E Q A) : ℕ := policy.accumulator.elim 0 (·.pending.length)

/-- Consume the inherited batch on acceptance; on rejection drop the claims collected since `pendingLen`. -/
def settle (policy : SetupPolicy E Q A) (pendingLen : ℕ) (accepted : Bool) : SetupPolicy E Q A :=
  policy.update fun acc =>
    if accepted then { acc with batch := none } else { acc with pending := acc.pending.take pendingLen }

def batch (policy : SetupPolicy E Q A) : Option (UInt32 × SetupBatchStatement E Q) := policy.accumulator.bind (·.batch)

/-- The batch waiting for a level. -/
def inherited (policy : SetupPolicy E Q A) (level : UInt32) : Option (SetupBatchStatement E Q) :=
  (policy.batch.filter fun batch => batch.1 = level).map Prod.snd

end SetupPolicy

/-! ### The rest of the verifier -/

structure FoldParams (P : Type) where
  params : P
  inputWitnessLen : ℕ
  outputWitnessLen : ℕ

structure FoldSchedule (P T : Type) where
  root : FoldParams P
  recursiveFolds : List (FoldParams P)
  terminal : T

def FoldSchedule.numFoldLevels {P T : Type} (schedule : FoldSchedule P T) : ℕ := schedule.recursiveFolds.length + 2

structure FoldVerifyOutput (E W : Type) where
  challenges : List E
  /-- The endpoint that the successor authenticates. -/
  setupPrefixOpening : Option (List E × E)
  nextWitness : W
  opening : E

structure SuffixVerifierState (E W : Type) where
  output : FoldVerifyOutput E W
  witnessLen : ℕ

/-- The replay of messages and the checks outside setup claims. They see the transcript, never the policy. -/
structure VerifierBackend (E Q : Type) [SetupQuery E Q] where
  Channel : Type
  /-- `CommittedGroupParams` -/
  Params : Type
  /-- `TerminalFoldParams` -/
  Terminal : Type
  /-- `GroupBatchStatement` with its basis mode -/
  Statement : Type
  /-- `PreparedFoldReplay` but for its level and its `stage3` -/
  Inputs : Type
  /-- `NextWitness` -/
  Witness : Type
  /-- What a fold holds after its Stage 2 rounds: ring switch, Stage 1, opening semantics, rounds and next witness -/
  Replayed : Type
  /-- The expanded setup -/
  setup : SetupDomain
  newVerifierChannel : List UInt8 → List UInt8 → Channel
  checkEof : Channel → Result Unit
  reject : Channel → Channel
  /-- The checks of the statement up to the schedule of its selected row -/
  selectSchedule : Statement → Result (FoldSchedule Params Terminal)
  /-- The checks of the profiles against the root fold, of the ring dimensions and of the row's admission -/
  admitSchedule : Statement → FoldSchedule Params Terminal → Result Unit
  /-- `transcript_instance_descriptor`, `bind_instance` and the grinding state over them -/
  bindInstance : Statement → FoldSchedule Params Terminal → Option UInt32 → Chan Channel Unit
  finish : Chan Channel Unit
  /-- `verify_root` up to its fold -/
  prepareRoot : Statement → FoldSchedule Params Terminal → Chan Channel Inputs
  /-- `prepare_fold_replay` -/
  prepareFoldReplay : UInt32 → SuffixVerifierState E Witness → FoldParams Params → Option (FoldParams Params) → Terminal →
    Chan Channel Inputs
  /-- `verify_terminal_suffix` but for its check of the setup prefix -/
  verifyTerminalSuffix : UInt32 → SuffixVerifierState E Witness → Terminal → Chan Channel Unit
  /-- `params.setup_prefix().is_some()` -/
  hasSetupPrefix : Params → Bool
  /-- `verify_fold` up to the Stage 2 rounds -/
  replayRounds : Inputs → UInt32 → Chan Channel Replayed
  point : Replayed → List E
  witnessEval : Replayed → E
  nextWitness : Replayed → Witness
  /-- `batch_coefficients` -/
  batchCoefficients : UInt32 → ℕ → Chan Channel (List E)
  /-- The slot of the successor's prefix and `bind_outer_prefix` -/
  bindOuterPrefix : SetupBatchStatement E Q → Params → UInt32 → Chan Channel Unit
  bindOuterStatement : UInt32 → SetupBatchStatement E Q → Chan Channel Unit
  /-- `stage3_claim` -/
  stage3Claim : UInt32 → Chan Channel E
  /-- `stage3_prefix_eval` -/
  stage3PrefixEval : UInt32 → Chan Channel E
  /-- `eval_flat_at_point_with_external_setup` up to the query it resolves -/
  externalQuery : Replayed → Result Q
  /-- The relation weight from the answer to that query -/
  externalWeight : Replayed → E → Result E
  /-- `eval_flat_at_point_with_deferred_setup` -/
  evalFlatAtPointWithDeferredSetup : Replayed → E → Result E
  /-- `eval_flat_at_point`, with the direct scan of the setup -/
  evalFlatAtPoint : Replayed → Result E
  /-- The Stage 2 output check, from the relation weight -/
  checkStage2Output : Replayed → Result E → Result Unit
  /-- The contribution plan of an ordinary Stage 3 and `bind_setup_prefix_slot` -/
  bindSetupPrefixSlot : Replayed → Params → UInt32 → Chan Channel Unit
  /-- The domain, the split and the query of an ordinary Stage 3 -/
  stage3Query : Replayed → Result (ℕ × ℕ × Q)
  /-- The rounds of the setup sumcheck: level, input claim, number of rounds -/
  verifySumcheckRounds : UInt32 → E → ℕ → Chan Channel (E × List E)
  /-- `decide_setup_batch` -/
  decideSetupBatch : SetupBatchStatement E Q → List E → Result Unit

variable [CommRing E] [DecidableEq E]

/-! ### The outer batch -/

/-- Transcript-bound setup statement shared by the two outer stage checks. -/
structure PreparedOuterSetup (E Q : Type) [SetupQuery E Q] where
  statement : SetupBatchStatement E Q
  coefficients : List E
  claim : E
  relationWeight : E

/-- Bind the inherited batch together with this fold's query. -/
def prepareOuterSetup (𝔳 : VerifierBackend E Q) (replayed : 𝔳.Replayed) (successor : 𝔳.Params) (level : UInt32)
    (inherited : SetupBatchStatement E Q) : Chan 𝔳.Channel (PreparedOuterSetup E Q) := do
  𝔳.bindOuterPrefix inherited successor level
  let claim ← 𝔳.stage3Claim level
  let query ← ofResult (𝔳.externalQuery replayed)
  let own ← ofResult (SetupClaim.new inherited.polynomial query claim)
  let relationWeight ← ofResult (𝔳.externalWeight replayed claim)
  let statement ← ofResult
    (SetupBatchStatement.new inherited.polynomial inherited.coefficientLen (inherited.claims ++ [own]))
  𝔳.bindOuterStatement level statement
  let coefficients ← 𝔳.batchCoefficients level statement.claims.length
  return { statement, coefficients, claim, relationWeight }

/-! ### Stage 3 and the output of Stage 2 -/

/-- Setup behavior selected once after a fold's Stage 2 rounds. -/
inductive FoldSetup (E Q : Type) [SetupQuery E Q]
  | ordinary
  | deferred
  | offloaded (outer : PreparedOuterSetup E Q)

structure SetupSumcheckReplay (E : Type) where
  claim : E
  setupPrefixEval : E
  challenges : List E

/-- Check a setup sumcheck, leaving its setup evaluation to the successor. -/
def verifySetupSumcheck (𝔳 : VerifierBackend E Q) (statement : SetupBatchStatement E Q) (coefficients : List E) (claim : E)
    (level : UInt32) : Chan 𝔳.Channel (SetupSumcheckReplay E) := do
  let input ← ofResult (statement.inputClaim coefficients)
  let (outputClaim, challenges) ← 𝔳.verifySumcheckRounds level input statement.polynomial.numVariables
  let value ← 𝔳.stage3PrefixEval level
  let weight ← ofResult (statement.evaluateWeight coefficients challenges)
  if outputClaim ≠ value * weight then throw .invalidProof
  else return { claim, setupPrefixEval := value, challenges }

/-- Check Stage 3 in either setup mode. -/
def verifyStage3 (𝔳 : VerifierBackend E Q) (replayed : 𝔳.Replayed) (nextParams : 𝔳.Params) (level : UInt32) :
    FoldSetup E Q → Chan 𝔳.Channel (SetupSumcheckReplay E)
  | .offloaded outer => verifySetupSumcheck 𝔳 outer.statement outer.coefficients outer.claim level
  | _ => do
    𝔳.bindSetupPrefixSlot replayed nextParams level
    let claim ← 𝔳.stage3Claim level
    let (fieldLen, ringD, query) ← ofResult (𝔳.stage3Query replayed)
    let polynomial ← ofResult (SetupPolynomialId.new 𝔳.setup fieldLen)
    let own ← ofResult (SetupClaim.new polynomial query claim)
    let singleton ← ofResult (SetupBatchStatement.new polynomial ringD [own])
    verifySetupSumcheck 𝔳 singleton [1] claim level

/-! ### One fold -/

/-- Where a verification stands: the transcript and the policy. -/
structure VerifierState (𝔳 : VerifierBackend E Q) (A : Type) where
  channel : 𝔳.Channel
  policy : SetupPolicy E Q A

variable {𝔳 : VerifierBackend E Q}

def onChannel {α : Type} (m : Chan 𝔳.Channel α) : Chan (VerifierState 𝔳 A) α :=
  zoom VerifierState.channel (fun s channel => { s with channel }) m

def onAccumulator {α : Type} (m : Chan (SetupClaimAccumulator E Q A) α) : Chan (VerifierState 𝔳 A) α := fun s =>
  match s.policy.accumulator with
  | some acc => zoom (fun _ => acc) (fun s acc => { s with policy := s.policy.update fun _ => acc }) m s
  | none => .error (.internal "deferred setup without an accumulator") s

structure PreparedFoldReplay (𝔳 : VerifierBackend E Q) where
  inputs : 𝔳.Inputs
  level : UInt32
  stage3 : Option 𝔳.Params

/-- A batch that ends at a fold without Stage 3 is decided, or moved to pending. -/
def closeInherited (𝔳 : VerifierBackend E Q) (level : UInt32) (defers : Bool) :
    Option (SetupBatchStatement E Q) → Chan (VerifierState 𝔳 A) Unit
  | none => pure ()
  | some inherited => do
    let coefficients ← onChannel (𝔳.batchCoefficients level inherited.claims.length)
    if defers then
      modify fun s => { s with policy := s.policy.update fun acc => { acc with pending := acc.pending ++ inherited.claims } }
    else ofResult (𝔳.decideSetupBatch inherited coefficients)

def accumulatedFoldSetup (𝔳 : VerifierBackend E Q) (replayed : 𝔳.Replayed) (level : UInt32) (defers : Bool) :
    Option 𝔳.Params → Option (SetupBatchStatement E Q) → Chan (VerifierState 𝔳 A) (FoldSetup E Q)
  | some successor, some inherited => do
    let outer ← onChannel (prepareOuterSetup 𝔳 replayed successor level inherited)
    return .offloaded outer
  | some _, none => pure .ordinary
  | none, inherited => do
    closeInherited 𝔳 level defers inherited
    return if defers then .deferred else .ordinary

/-- The setup behavior of a fold, selected once after its Stage 2 rounds. -/
def selectFoldSetup (𝔳 : VerifierBackend E Q) (replayed : 𝔳.Replayed) (prepared : PreparedFoldReplay 𝔳)
    (policy : SetupPolicy E Q A) : Chan (VerifierState 𝔳 A) (FoldSetup E Q) :=
  if policy.accumulator.isSome then
    accumulatedFoldSetup 𝔳 replayed prepared.level policy.defers prepared.stage3 (policy.inherited prepared.level)
  else pure .ordinary

/-- Stage 3 of a fold whose successor has a setup prefix. -/
def replayStage3 (𝔳 : VerifierBackend E Q) (replayed : 𝔳.Replayed) (level : UInt32) (foldSetup : FoldSetup E Q) :
    Option 𝔳.Params → Chan (VerifierState 𝔳 A) (Option (SetupSumcheckReplay E))
  | none => pure none
  | some nextParams => do
    let replay ← onChannel (verifyStage3 𝔳 replayed nextParams level foldSetup)
    return some replay

def externalRelationWeight [SetupClaimAdvice E Q A] (𝔳 : VerifierBackend E Q) (replayed : 𝔳.Replayed) :
    FoldSetup E Q → Chan (VerifierState 𝔳 A) (Option E)
  | .ordinary => pure none
  | .offloaded outer => pure (some outer.relationWeight)
  | .deferred => do
    let query ← ofResult (𝔳.externalQuery replayed)
    let answer ← onAccumulator (SetupClaimAccumulator.resolve query)
    let weight ← ofResult (𝔳.externalWeight replayed answer)
    return some weight

/-- The relation weight of Stage 2: external, from the claim of Stage 3, or by a direct scan. -/
def evaluateRelationWeight (𝔳 : VerifierBackend E Q) (replayed : 𝔳.Replayed) : Option E → Option E → Result E
  | some weight, _ => .ok weight
  | none, some claim => 𝔳.evalFlatAtPointWithDeferredSetup replayed claim
  | none, none => 𝔳.evalFlatAtPoint replayed

/-- Resolve this fold's setup contribution and check the Stage 2 output claim. -/
def validateStage2Replay [SetupClaimAdvice E Q A] (𝔳 : VerifierBackend E Q) (replayed : 𝔳.Replayed)
    (setupClaim : Option E) (foldSetup : FoldSetup E Q) : Chan (VerifierState 𝔳 A) Unit := do
  let external ← externalRelationWeight 𝔳 replayed foldSetup
  ofResult (𝔳.checkStage2Output replayed (evaluateRelationWeight 𝔳 replayed external setupClaim))

def verifyFold [SetupClaimAdvice E Q A] (𝔳 : VerifierBackend E Q) (prepared : PreparedFoldReplay 𝔳) :
    Chan (VerifierState 𝔳 A) (FoldVerifyOutput E 𝔳.Witness) := do
  let replayed ← onChannel (𝔳.replayRounds prepared.inputs prepared.level)
  let s ← get
  let foldSetup ← selectFoldSetup 𝔳 replayed prepared s.policy
  let stage3 ← replayStage3 𝔳 replayed prepared.level foldSetup prepared.stage3
  validateStage2Replay 𝔳 replayed (stage3.map (·.claim)) foldSetup
  return { challenges := 𝔳.point replayed
           setupPrefixOpening := stage3.map fun replay => (replay.challenges, replay.setupPrefixEval)
           nextWitness := 𝔳.nextWitness replayed
           opening := 𝔳.witnessEval replayed }

/-! ### One verification -/

/-- The successor whose setup prefix a fold's Stage 3 reduces to. -/
def stage3Params (𝔳 : VerifierBackend E Q) (next : Option (FoldParams 𝔳.Params)) : Option 𝔳.Params :=
  next.bind fun next => if 𝔳.hasSetupPrefix next.params then some next.params else none

def verifyRoot [SetupClaimAdvice E Q A] (𝔳 : VerifierBackend E Q) (statement : 𝔳.Statement)
    (schedule : FoldSchedule 𝔳.Params 𝔳.Terminal) : Chan (VerifierState 𝔳 A) (FoldVerifyOutput E 𝔳.Witness) := do
  let inputs ← onChannel (𝔳.prepareRoot statement schedule)
  verifyFold 𝔳 { inputs, level := 0, stage3 := stage3Params 𝔳 schedule.recursiveFolds.head? }

/-- The passes of `verify_suffix` over the recursive folds from the given offset. -/
def verifySuffixFolds [SetupClaimAdvice E Q A] (𝔳 : VerifierBackend E Q) (terminal : 𝔳.Terminal) :
    ℕ → List (FoldParams 𝔳.Params) → SuffixVerifierState E 𝔳.Witness →
    Chan (VerifierState 𝔳 A) (SuffixVerifierState E 𝔳.Witness)
  | _, [], current => pure current
  | offset, step :: rest, current => do
    ofResult (ensure (offset + 1 < 2 ^ 32) .invalidProof)
    let level := UInt32.ofNat (offset + 1)
    ofResult (ensure (current.witnessLen = step.inputWitnessLen) .invalidProof)
    let inputs ← onChannel (𝔳.prepareFoldReplay level current step rest.head? terminal)
    let output ← verifyFold 𝔳 { inputs, level, stage3 := stage3Params 𝔳 rest.head? }
    verifySuffixFolds 𝔳 terminal (offset + 1) rest { output, witnessLen := step.outputWitnessLen }

def verifySuffix [SetupClaimAdvice E Q A] (𝔳 : VerifierBackend E Q) (schedule : FoldSchedule 𝔳.Params 𝔳.Terminal)
    (current : SuffixVerifierState E 𝔳.Witness) : Chan (VerifierState 𝔳 A) Unit := do
  let current ← verifySuffixFolds 𝔳 schedule.terminal 0 schedule.recursiveFolds current
  ofResult (ensure (schedule.recursiveFolds.length + 1 < 2 ^ 32) .invalidProof)
  ofResult (ensure current.output.setupPrefixOpening.isNone .invalidProof)
  onChannel (𝔳.verifyTerminalSuffix (UInt32.ofNat (schedule.recursiveFolds.length + 1)) current schedule.terminal)

def batchLevelFits (numFoldLevels : ℕ) (batchLevel : Option UInt32) : Prop :=
  ∀ level ∈ batchLevel, level.toNat < numFoldLevels - 1

instance (numFoldLevels : ℕ) (batchLevel : Option UInt32) : Decidable (batchLevelFits numFoldLevels batchLevel) :=
  inferInstanceAs (Decidable (∀ level ∈ batchLevel, _))

/-- A checked accumulator comes without pending claims and advice, and every accumulator names this setup. -/
def SetupPolicy.validate (setup : SetupDomain) : SetupPolicy E Q A → Result Unit
  | .check none => .ok ()
  | .check (some acc) => do
    ensure (acc.pending = [] ∧ acc.advice.isNone)
      (.invalidInput "checked setup accumulator cannot contain pending claims or advice")
    acc.polynomial.validate setup
  | .defer acc => acc.polynomial.validate setup

/-- The inherited batch goes into the transcript before the folds. -/
def bindBatch (𝔳 : VerifierBackend E Q) : Option (UInt32 × SetupBatchStatement E Q) → Chan 𝔳.Channel Unit
  | none => pure ()
  | some (level, batch) => 𝔳.bindOuterStatement level batch

/-- `verify_on_state`, poisoning the transcript on an error. -/
def verifyOnState [SetupClaimAdvice E Q A] (𝔳 : VerifierBackend E Q) (statement : 𝔳.Statement) :
    Chan (VerifierState 𝔳 A) Unit := onError (do
    let s ← get
    ofResult (s.policy.validate 𝔳.setup)
    let schedule ← ofResult (𝔳.selectSchedule statement)
    let batchLevel := s.policy.batch.map Prod.fst
    ofResult (ensure (batchLevelFits schedule.numFoldLevels batchLevel)
      (.invalidInput "setup batch target must be a nonterminal fold"))
    ofResult (𝔳.admitSchedule statement schedule)
    onChannel (𝔳.bindInstance statement schedule batchLevel)
    onChannel (bindBatch 𝔳 s.policy.batch)
    let root ← verifyRoot 𝔳 statement schedule
    verifySuffix 𝔳 schedule { output := root, witnessLen := schedule.root.outputWitnessLen }
    onChannel 𝔳.finish) fun s => { s with channel := 𝔳.reject s.channel }

/-- Verify one standalone argument: the result, and the policy as the caller gets it back. -/
def batchedVerify [SetupClaimAdvice E Q A] (𝔳 : VerifierBackend E Q) (proof session : List UInt8) (statement : 𝔳.Statement)
    (policy : SetupPolicy E Q A) : Result Unit × SetupPolicy E Q A :=
  let pendingLen := policy.pendingLen
  match (verifyOnState 𝔳 statement).run { channel := 𝔳.newVerifierChannel session proof, policy } with
  | .ok () s =>
    let result := 𝔳.checkEof s.channel
    (result, s.policy.settle pendingLen result.isOk)
  | .error e s => (.error e, s.policy.settle pendingLen false)

end Akita.SetupClaims
