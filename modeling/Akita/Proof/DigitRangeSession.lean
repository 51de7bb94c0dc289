import Akita.Proof.PhysicalL2
import Akita.Spec.DigitRangeSession

/-!
# The Stage-1 session follows its protocol

`Live s l todo` ties a session to its ledger and to the calls its protocol still expects; a session
that an internal failure has left without its stage is `Stuck` and answers nothing any more. Each
of the four calls has one step lemma, and `drive_follows` is the run lemma over them: a rejected
call changes nothing, an accepted one is the next of the protocol and moves the claim as the
ledger does, and a session that finishes has seen the whole protocol.
-/

/-!
## The protocol of Stage 1

A session is driven by calls in any order, with any arguments. What it should accept is the
protocol, a list of events fixed by the range plan, the physical response and the number of
rounds. What the answers amount to is the ledger: the claim is the value of the last polynomial
at its challenge, or a power sum of child claims, or the range claim plus the merged norm claim.
-/

namespace Akita.DigitRange

open Lib OffsetEq Sumcheck DigitRangeSession

section

variable {E : Type} [Field E] {rt : Runtime} {𝔯 : RoundBackend E} {𝔨 : DigitRangeKernels E} {step : Stage1Step}

/-! ### Calls and runs -/

inductive Call (E : Type)
  | roundPolynomial (step : Stage1Step) (round : ℕ) (previousClaim : E)
  | bindChallenge (step : Stage1Step) (round : ℕ) (challenge : E)
  | publicTransition (step : Stage1Step)
  | bindBatchChallenge (transition : Stage1Transition) (challenge : E)
  deriving DecidableEq, Repr

inductive Reply (E : Type)
  | polynomial (polynomial : Stage1RoundPolynomial E)
  | done
  | claims (claims : Stage1PublicTransition E)
  deriving DecidableEq, Repr

variable [DecidableEq E] (rt 𝔯) in
def answer : Call E → Op 𝔨 (Reply E)
  | .roundPolynomial step round previousClaim => Reply.polynomial <$> roundPolynomial 𝔯 step round previousClaim
  | .bindChallenge step round challenge => (fun _ => Reply.done) <$> bindChallenge 𝔯 step round challenge
  | .publicTransition step => Reply.claims <$> publicTransition step
  | .bindBatchChallenge transition challenge => (fun _ => Reply.done) <$> bindBatchChallenge rt transition challenge

variable [DecidableEq E] (rt 𝔯) in
/-- Calls one after the other, whatever their results, with the history of those that succeeded. -/
def drive (s : DigitRangeSession 𝔨) : List (Call E) → DigitRangeSession 𝔨 × List (Call E × Reply E)
  | [] => (s, [])
  | call :: calls =>
    match answer rt 𝔯 call s with
    | .ok reply t => ((drive t calls).1, (call, reply) :: (drive t calls).2)
    | .error _ t => drive t calls

/-- What a call is about, without the values it carries. -/
inductive Event
  | round (step : Stage1Step) (round : ℕ)
  | challenge (step : Stage1Step) (round : ℕ)
  | transition (step : Stage1Step)
  | batch (transition : Stage1Transition)
  deriving DecidableEq, Repr

def Call.event : Call E → Event
  | .roundPolynomial step round _ => .round step round
  | .bindChallenge step round _ => .challenge step round
  | .publicTransition step => .transition step
  | .bindBatchChallenge transition _ => .batch transition

/-! ### The protocol -/

def roundsFrom (step : Stage1Step) (n first : ℕ) : List Event :=
  (List.range' first (n - first)).flatMap fun round => [.round step round, .challenge step round]

/-- After the product stages: the range leaf, or with a physical response the norm claims, their batch where there
are subclaims, the merge and the fused rounds. -/
def leafProtocol (physical : Option PhysicalResponsePlan) (n : ℕ) : List Event :=
  match physical with
  | none => roundsFrom .rangeLeaf n 0 ++ [.transition .rangeLeaf]
  | some plan =>
    .transition .fusedRangeNorm :: ((match plan.shape with
        | .direct _ => []
        | .limbGram _ _ _ => [.batch .l2SubclaimBatch]) ++
      .batch .rangeNormMerge :: (roundsFrom .fusedRangeNorm n 0 ++ [.transition .fusedRangeNorm]))

def protocolFrom (plan : DigitRangePlan) (physical : Option PhysicalResponsePlan) (n stage : ℕ) : List Event :=
  (List.range' stage (plan.productStageArities.length - stage)).flatMap
    (fun stage => roundsFrom (.product stage) n 0 ++ [.transition (.product stage), .batch (.productBatch stage)]) ++
  leafProtocol physical n

/-- **The protocol of Stage 1**: the product stages in order, each with all its rounds, its child claims and its batch
challenge, then the leaf. -/
def protocol (plan : DigitRangePlan) (physical : Option PhysicalResponsePlan) (n : ℕ) : List Event :=
  protocolFrom plan physical n 0

theorem roundsFrom_lt {n first : ℕ} (h : first < n) :
    roundsFrom step n first = .round step first :: .challenge step first :: roundsFrom step n (first + 1) := by
  rw [roundsFrom, show n - first = (n - (first + 1)) + 1 by omega, List.range'_succ, List.flatMap_cons]
  rfl

theorem roundsFrom_self {n : ℕ} : roundsFrom step n n = [] := by simp [roundsFrom]

section

variable {plan : DigitRangePlan} {physical : Option PhysicalResponsePlan} {n stage : ℕ}

theorem protocolFrom_lt (h : stage < plan.productStageArities.length) : protocolFrom plan physical n stage =
      roundsFrom (.product stage) n 0 ++ .transition (.product stage) :: .batch (.productBatch stage) ::
        protocolFrom plan physical n (stage + 1) := by
  rw [protocolFrom, show plan.productStageArities.length - stage = (plan.productStageArities.length - (stage + 1)) + 1
    by omega, List.range'_succ, List.flatMap_cons, List.append_assoc, List.append_assoc]
  rfl

theorem protocolFrom_ge (h : plan.productStageArities.length ≤ stage) :
    protocolFrom plan physical n stage = leafProtocol physical n := by
  simp [protocolFrom, Nat.sub_eq_zero_of_le h]

end

/-! ### The ledger -/

/-- The power sum `c₀ + γ c₁ + γ² c₂ + ⋯`. -/
def powerSum (γ : E) (claims : List E) : E := (claims.zipIdx.map fun claim => γ ^ claim.2 * claim.1).sum

/-- The value at the challenge of a round polynomial sent for the claim: with its equality factor at `tau` left out,
the polynomial whose values at zero and one average to the claim, or the polynomial itself. -/
noncomputable def Stage1RoundPolynomial.valueAt (claim tau challenge : E) : Stage1RoundPolynomial E → E
  | .eqFactored poly => (fromWeighted claim tau poly).eval challenge
  | .standard poly => (ofCoeffs poly).eval challenge

structure Ledger (E : Type) where
  claim : E
  /-- the equality point of the stage -/
  point : List E
  /-- the challenges of the stage -/
  challenges : List E
  /-- the polynomial without a challenge yet -/
  polynomial : Option (Stage1RoundPolynomial E)
  children : List E
  norm : E
  subclaims : List E

namespace Ledger

def start (point : List E) : Ledger E := ⟨0, point, [], none, [], 0, []⟩

noncomputable def record (l : Ledger E) : Call E × Reply E → Ledger E
  | (.roundPolynomial _ _ _, .polynomial p) => { l with polynomial := some p }
  | (.bindChallenge _ _ challenge, .done) =>
    { l with
      claim := match l.polynomial with
        | some p => p.valueAt l.claim (l.point.getD l.challenges.length 0) challenge
        | none => l.claim
      challenges := l.challenges ++ [challenge]
      polynomial := none }
  | (.publicTransition _, .claims (.productChildClaims claims)) => { l with children := claims }
  | (.publicTransition _, .claims (.physicalL2Claims responseL2Sq subclaims)) =>
    { l with norm := (responseL2Sq : E), subclaims := subclaims }
  | (.bindBatchChallenge (.productBatch _) challenge, .done) =>
    { l with claim := powerSum challenge l.children, point := l.challenges, challenges := [] }
  | (.bindBatchChallenge .l2SubclaimBatch challenge, .done) => { l with norm := powerSum challenge l.subclaims }
  | (.bindBatchChallenge .rangeNormMerge challenge, .done) =>
    { l with claim := l.claim + challenge * l.norm, challenges := [] }
  | _ => l

noncomputable def after (l : Ledger E) (history : List (Call E × Reply E)) : Ledger E := history.foldl record l

theorem after_cons (l : Ledger E) (entry : Call E × Reply E) (history : List (Call E × Reply E)) :
    l.after (entry :: history) = (l.record entry).after history := rfl

theorem after_append (l : Ledger E) (history more : List (Call E × Reply E)) :
    l.after (history ++ more) = (l.after history).after more := List.foldl_append

end Ledger

end

open List DigitRangePlan

variable {E : Type} [Field E] {rt : Runtime} {𝔯 : RoundBackend E} {𝔨 : DigitRangeKernels E} {s : DigitRangeSession 𝔨}
  {source : CompactDigitSource} {e : AkitaError} {claim : E}

/-! ## Failures that are not rejections -/

def Unrejected {α : Type} (x : Result α) : Prop := ∀ msg, x ≠ .error (.invalidInput msg)

namespace Unrejected

variable {α β : Type} {f : α → Result β}

theorem ok (a : α) : Unrejected (.ok a : Result α) := fun _ h => by cases h

theorem internal (msg : String) : Unrejected (.error (.internal msg) : Result α) := fun _ h => by cases h

theorem pure (a : α) : Unrejected (Pure.pure a : Result α) := ok a

theorem bind {x : Result α} (hx : Unrejected x) (hf : ∀ a, Unrejected (f a)) : Unrejected (x >>= f) := by
  intro msg h
  cases x with
  | error e => exact hx msg (by cases h; rfl)
  | ok a => exact hf a msg h

theorem okOr_internal (o : Option α) (msg : String) : Unrejected (okOr o (.internal msg)) := by
  cases o with
  | none => exact internal msg
  | some a => exact ok a

theorem okOr_bind {o : Option α} {msg : String} (hf : ∀ a, Unrejected (f a)) :
    Unrejected (okOr o (.internal msg) >>= f) := (okOr_internal o msg).bind hf

theorem ensure {p : Prop} [Decidable p] (he : ∀ msg, e ≠ .invalidInput msg) : Unrejected (Akita.ensure p e) := by
  intro msg h
  unfold Akita.ensure at h
  split at h
  · cases h
  · exact he msg (Except.error.inj h)

theorem internally (x : Except String α) : Unrejected (DigitRange.internally x) := by
  cases x with
  | error e => exact internal e
  | ok a => exact ok a

theorem mapM (hf : ∀ a, Unrejected (f a)) : ∀ l : List α, Unrejected (l.mapM f) := by
  intro l
  induction l with
  | nil => exact pure []
  | cons a l ih =>
    rw [mapM_cons]
    exact (hf a).bind fun b => ih.bind fun bs => pure _

theorem foldlM {f : β → α → Result β} (hf : ∀ b a, Unrejected (f b a)) :
    ∀ (l : List α) (b : β), Unrejected (l.foldlM f b) := by
  intro l
  induction l with
  | nil => exact fun b => pure b
  | cons a l ih =>
    intro b
    rw [foldlM_cons]
    exact (hf b a).bind ih

end Unrejected

theorem batchLeafPolynomials_unrejected (weights : List E) (leaves : List (List E)) :
    Unrejected (batchLeafPolynomials weights leaves) := (Unrejected.ensure (by simp)).bind fun _ => .pure _

theorem exactPrefixTable_unrejected (domainLen : ℕ) (explicit : List E) :
    Unrejected (ExactPrefixTable.new domainLen explicit 0) :=
  (Unrejected.ensure (by simp)).bind fun _ => (Unrejected.ensure (by simp)).bind fun _ => .pure _

theorem limbGramLayout_unrejected (shape : PhysicalL2.PhysicalL2NormProofShape) : Unrejected shape.limbGramLayout := by
  cases shape with
  | direct len => exact .ok none
  | limbGram len blockLen limbCount =>
    intro msg h
    simp only [PhysicalL2.PhysicalL2NormProofShape.limbGramLayout, PhysicalL2.LimbGramLayout.new] at h
    split_ifs at h <;> cases h

theorem prepareNormTerm_unrejected (plan : PhysicalResponsePlan) (integers : List (List ℤ)) (weights : List E) :
    Unrejected (prepareNormTerm plan integers weights) := by
  refine (Unrejected.mapM (fun values => exactPrefixTable_unrejected _ _) integers).bind fun tables => ?_
  split
  · exact .okOr_bind fun response => (Unrejected.ensure (by simp)).bind fun _ => .pure _
  · refine (limbGramLayout_unrejected _).bind fun layout => .okOr_bind fun layout =>
      (Unrejected.ensure (by simp)).bind fun _ => .bind ?_ fun selectors => .pure _
    refine .mapM (fun pair => .bind ?_ fun values => exactPrefixTable_unrejected _ _) _
    exact .foldlM (fun values block => .okOr_bind fun _ =>
      .okOr_bind fun _ => .pure _) _ _

omit [Field E] in
theorem childClaims_unrejected (active : ActiveStage 𝔨) : Unrejected (childClaims active) := by
  cases active with
  | product2 p => exact .okOr_internal _ _
  | product4 p => exact .okOr_internal _ _
  | product8 p => exact .okOr_internal _ _
  | _ => exact .internal _

theorem PhysicalNormTerm.finalClaim_unrejected (norm : PhysicalNormTerm E) : Unrejected norm.finalClaim := by
  cases norm with
  | direct response => exact .okOr_bind fun _ => .pure _
  | limbGram limbs selectors pairs =>
    exact .foldlM (fun sum _ => .okOr_bind fun _ =>
      .okOr_bind fun _ => .okOr_bind fun _ => .pure _) _ _

omit [Field E] in
theorem PhysicalNormTerm.virtualEvaluations_unrejected (norm : PhysicalNormTerm E) :
    Unrejected norm.virtualEvaluations := by
  cases norm with
  | direct response => exact .okOr_bind fun _ => .pure _
  | limbGram limbs selectors pairs => exact .mapM (fun _ => .okOr_internal _ _) _

theorem finalEvaluations_unrejected [DecidableEq E] (claim : E) (active : ActiveStage 𝔨) :
    Unrejected (finalEvaluations claim active) := by
  cases active with
  | low p => exact (Unrejected.internally _).bind fun _ => .pure _
  | leaf p => exact .okOr_bind fun _ => .pure _
  | fused p =>
    have hclaim : Unrejected p.range.finalRangeClaim := .okOr_bind fun _ => .pure _
    exact hclaim.bind fun _ => p.norm.finalClaim_unrejected.bind fun _ => (Unrejected.ensure (by simp)).bind fun _ =>
      .okOr_bind fun _ => p.norm.virtualEvaluations_unrejected.bind fun _ => .pure _
  | _ => exact .internal _

/-! ## Stages -/

variable (E rt) in
/-- The points of `n` coordinates can be split. -/
def Splits (n : ℕ) : Prop := ∃ p : List E, p.length = n ∧ ∃ s, GruenSplitEq.new rt p = .ok s

theorem Splits.unrejected {n : ℕ} (h : Splits E rt n) {p : List E} (hp : p.length = n) :
    Unrejected (GruenSplitEq.new rt p) := by
  obtain ⟨p', hp', s, hs⟩ := h
  obtain ⟨s', hs'⟩ := GruenSplitEq.new_of_length hs (hp.trans hp'.symm)
  rw [hs']
  exact .ok s'

namespace ActiveStage

variable {i : ℕ}

def splitEq : ActiveStage 𝔨 → GruenSplitEq E
  | low p => p.splitEq
  | product2 p | product4 p | product8 p => p.splitEq
  | leaf p => p.splitEq
  | fused p => p.range.splitEq

variable (a : ActiveStage 𝔨)

theorem round_spec (round : ℕ) (claim : E) (i : ℕ) : (a.round 𝔯 round claim).2.2.step i = a.step i ∧
    (a.round 𝔯 round claim).2.2.numRounds = a.numRounds ∧ (a.round 𝔯 round claim).2.2.splitEq = a.splitEq ∧
    ∀ poly, (a.round 𝔯 round claim).1 = .eqFactored poly → (a.round 𝔯 round claim).2.1 = some a.splitEq.currentTau := by
  cases a with
  | fused p => exact ⟨rfl, rfl, rfl, fun poly h => by cases h⟩
  | _ => exact ⟨rfl, rfl, rfl, fun poly _ => rfl⟩

theorem bind_spec (round : ℕ) (challenge : E) (i : ℕ) : (a.bind round challenge).step i = a.step i ∧
    (a.bind round challenge).numRounds = a.numRounds ∧ (a.bind round challenge).splitEq = a.splitEq.bind challenge := by
  cases a <;> exact ⟨rfl, rfl, rfl⟩

variable {a}

omit [Field E] in
theorem publicPhase_of_product (h : a.step i = .product i) : publicPhase a = .productPublic := by
  cases a <;> first | rfl | cases h

omit [Field E] in
theorem publicPhase_of_final (h : ∀ j, a.step i ≠ .product j) : publicPhase a = .finalPublic := by
  cases a <;> first | rfl | exact absurd rfl (h i)

end ActiveStage

theorem nextLeaf_ok {leaf : ClassIndexedRangeLeafProver 𝔨} (h : s.nextLeaf rt = .ok leaf) :
    leaf.inputClaim = s.claim ∧ leaf.numRounds = s.equalityPoint.length ∧ leaf.splitEq.tau = s.equalityPoint ∧
      leaf.splitEq.currentRound = 0 ∧ 0 < s.equalityPoint.length := by
  simp only [nextLeaf, ClassIndexedRangeLeafProver.new, result_ok] at h
  obtain ⟨_, -, _, -, _, -, splitEq, hsplit, rfl⟩ := h
  obtain ⟨htau, hround, hpos⟩ := GruenSplitEq.new_ok hsplit
  exact ⟨rfl, rfl, htau, hround, hpos⟩

theorem nextLeaf_unrejected (h : Splits E rt s.equalityPoint.length) : Unrejected (s.nextLeaf rt) :=
  (batchLeafPolynomials_unrejected _ _).bind fun _ => .bind
    ((Unrejected.ensure (by simp)).bind fun _ => .pure _) fun _ => (Unrejected.internally _).bind fun _ =>
      (h.unrejected rfl).bind fun _ => .pure _

theorem productProver_ok {lanes i : ℕ} {plan : DigitRangePlan} {leaves : List (List E)}
    {weights point : List E} {p : ClassIndexedProductSubcheckProver 𝔨}
    (h : ClassIndexedProductSubcheckProver.new rt lanes source plan leaves i weights point claim = .ok p) :
    p.numRounds = point.length ∧ GruenSplitEq.new rt point = .ok p.splitEq := by
  simp only [ClassIndexedProductSubcheckProver.new, bind_eq_ok, pure_eq_ok] at h
  obtain ⟨_, -, _, -, _, -, _, -, _, -, splitEq, hsplit, rfl⟩ := h
  exact ⟨rfl, hsplit⟩

structure IsProduct (rt : Runtime) (point : List E) (a : ActiveStage 𝔨) : Prop where
  step : ∀ i, a.step i = .product i
  numRounds : a.numRounds = point.length
  splitEq : GruenSplitEq.new rt point = .ok a.splitEq

theorem nextProduct_ok {a : ActiveStage 𝔨} (h : s.nextProduct rt = .ok a) : IsProduct rt s.equalityPoint a := by
  simp only [nextProduct, bind_eq_ok] at h
  obtain ⟨lanes, -, h⟩ := h
  split at h
  · obtain ⟨p, hp, h⟩ := bind_eq_ok.1 h
    cases h
    exact ⟨fun _ => rfl, (productProver_ok hp).1, (productProver_ok hp).2⟩
  · obtain ⟨p, hp, h⟩ := bind_eq_ok.1 h
    cases h
    exact ⟨fun _ => rfl, (productProver_ok hp).1, (productProver_ok hp).2⟩
  · obtain ⟨p, hp, h⟩ := bind_eq_ok.1 h
    cases h
    exact ⟨fun _ => rfl, (productProver_ok hp).1, (productProver_ok hp).2⟩
  · cases h

theorem nextProduct_unrejected (h : Splits E rt s.equalityPoint.length) : Unrejected (s.nextProduct rt) := by
  have hprover : ∀ lanes, Unrejected (ClassIndexedProductSubcheckProver.new (𝔨 := 𝔨) rt lanes s.source s.plan
      s.leafCoeffs s.productIndex s.weights s.equalityPoint s.claim) := fun lanes =>
    .okOr_bind fun _ => .okOr_bind fun _ =>
      .okOr_bind fun _ => (Unrejected.ensure (by simp)).bind fun _ =>
        (Unrejected.internally _).bind fun _ => (h.unrejected rfl).bind fun _ => .pure _
  refine .okOr_bind fun lanes => ?_
  split
  · exact (hprover 2).bind fun _ => .pure _
  · exact (hprover 4).bind fun _ => .pure _
  · exact (hprover 8).bind fun _ => .pure _
  · exact .internal _

/-! ## Power sums -/

theorem interstageBatchWeights_eq (γ : E) (n : ℕ) : interstageBatchWeights γ n = (range n).map (γ ^ ·) := by
  induction n with
  | zero => rfl
  | succ n ih =>
    rw [interstageBatchWeights, ih, range_succ_eq_map]
    simp [pow_succ', Function.comp_def]

theorem subclaimPowers_eq (ρ power : E) (subclaims : List E) :
    subclaimPowers ρ power subclaims = (range subclaims.length).map fun j => power * ρ ^ j := by
  induction subclaims generalizing power with
  | nil => rfl
  | cons c cs ih =>
    rw [subclaimPowers, ih, length_cons, range_succ_eq_map]
    simp [pow_succ', Function.comp_def, mul_assoc]

theorem foldl_add_eq {α : Type} (f : α → E) (l : List α) (init : E) :
    l.foldl (fun acc x => acc + f x) init = init + (l.map f).sum := by
  induction l generalizing init with
  | nil => simp
  | cons a l ih => rw [foldl_cons, ih, map_cons, sum_cons, add_assoc]

theorem batchClaims_powers {γ : E} {claims : List E}
    (h : batchClaims (interstageBatchWeights γ claims.length) claims = .ok claim) : claim = powerSum γ claims := by
  simp only [batchClaims, result_ok, interstageBatchWeights_eq] at h
  obtain ⟨_, -, rfl⟩ := h
  rw [foldl_add_eq (fun x : E × E => x.1 * x.2), zero_add, powerSum, zipIdx_eq_zip_range', ← range_eq_range']
  rw [zip_map_left, map_map, ← zip_swap claims (range _), map_map]
  rfl

theorem normInputClaim_powers (state : PhysicalState E) {ρ : E} (h : state.subclaims ≠ [])
    (hweights : state.subclaimWeights = subclaimPowers ρ 1 state.subclaims) :
    normInputClaim state = powerSum ρ state.subclaims := by
  simp only [normInputClaim, List.isEmpty_iff, h, if_false, hweights, subclaimPowers_eq, one_mul]
  rw [foldl_add_eq (fun x : E × E => x.1 * x.2), zero_add, powerSum, List.zipIdx_eq_zip_range', ← List.range_eq_range']
  rw [List.zip_map_right, List.map_map]
  refine congrArg sum (List.map_congr_left fun x _ => ?_)
  exact mul_comm _ _

/-! ## The invariant -/

section

variable (rt) (plan : DigitRangePlan) (physical : Option PhysicalResponsePlan) (n : ℕ)

def currentStep (stage : ℕ) : Stage1Step :=
  if stage < plan.productStageArities.length then .product stage
  else match physical with
    | none => .rangeLeaf
    | some _ => .fusedRangeNorm

def afterRounds (stage : ℕ) : List Event :=
  if stage < plan.productStageArities.length then
    .transition (.product stage) :: .batch (.productBatch stage) :: protocolFrom plan physical n (stage + 1)
  else [.transition (currentStep plan physical stage)]

/-- What follows the norm claims and their batch. -/
def mergeProtocol : List Event :=
  .batch .rangeNormMerge :: (roundsFrom .fusedRangeNorm n 0 ++ [.transition .fusedRangeNorm])

/-- What a session and its ledger agree on in every phase. -/
structure Steady (s : DigitRangeSession 𝔨) (l : Ledger E) : Prop where
  plan_eq : s.plan = plan
  physical_eq : s.physical.map PhysicalState.plan = physical
  subclaims : ∀ state ∈ s.physical, state.subclaims = [] ↔ ∃ len, state.plan.shape = .direct len
  claim : s.claim = l.claim
  point : s.equalityPoint = l.point
  point_length : l.point.length = n
  stage_le : s.productIndex ≤ plan.productStageArities.length
  splits : plan.productStageArities ≠ [] → Splits E rt n

structure Running (s : DigitRangeSession 𝔨) (l : Ledger E) (a : ActiveStage 𝔨) : Prop where
  active : s.active = some a
  step : a.step s.productIndex = currentStep plan physical s.productIndex
  numRounds : a.numRounds = n
  tau : a.splitEq.tau = l.point
  currentRound : a.splitEq.currentRound = s.nextRound
  challenges : s.point = l.challenges
  challenges_length : l.challenges.length = s.nextRound
  round_lt : s.nextRound < n
  pending : s.pending.map PendingRound.polynomial = l.polynomial
  pending_spec : ∀ p ∈ s.pending, p.step = currentStep plan physical s.productIndex ∧ p.round = s.nextRound ∧
    ∀ poly, p.polynomial = .eqFactored poly → p.tau = some (l.point.getD s.nextRound 0)

structure Idle (s : DigitRangeSession 𝔨) (l : Ledger E) : Prop where
  pending : s.pending = none
  polynomial : l.polynomial = none

/-- The rounds of a stage are over. -/
structure Closed (s : DigitRangeSession 𝔨) (l : Ledger E) : Prop extends Idle s l where
  challenges : s.point = l.challenges
  challenges_length : l.challenges.length = n

/-- What the phase adds, and the events still expected. -/
def PhaseSpec (s : DigitRangeSession 𝔨) (l : Ledger E) (todo : List Event) : Prop :=
  let stage := s.productIndex
  let stages := plan.productStageArities.length
  match s.phase with
  | .running => (∃ a, Running plan physical n s l a) ∧
      todo = (if s.pending.isSome then [] else [.round (currentStep plan physical stage) s.nextRound]) ++
        .challenge (currentStep plan physical stage) s.nextRound ::
          (roundsFrom (currentStep plan physical stage) n (s.nextRound + 1) ++ afterRounds plan physical n stage)
  | .productPublic => Closed n s l ∧ stage < stages ∧ (∃ a, s.active = some a) ∧ todo = afterRounds plan physical n stage
  | .productBatch => Closed n s l ∧ stage < stages ∧ s.active = none ∧ s.pendingProductClaims = some l.children ∧
      todo = .batch (.productBatch stage) :: protocolFrom plan physical n (stage + 1)
  | .l2Public => Idle s l ∧ stage = stages ∧ s.physical.isSome ∧ l.challenges = [] ∧ todo = leafProtocol physical n
  | .l2Batch => Idle s l ∧ stage = stages ∧
      (∃ state, s.physical = some state ∧ state.subclaims = l.subclaims ∧ state.subclaims ≠ []) ∧
      todo = .batch .l2SubclaimBatch :: mergeProtocol n
  | .merge => Idle s l ∧ stage = stages ∧ (∃ state, s.physical = some state ∧ normInputClaim state = l.norm) ∧
      todo = mergeProtocol n
  | .finalPublic => Closed n s l ∧ stage = stages ∧
      (∃ a, s.active = some a ∧ a.step stage = currentStep plan physical stage) ∧ todo = afterRounds plan physical n stage
  | .ready => Closed n s l ∧ todo = []

/-- A session in step with its ledger, with the events that its protocol still expects. -/
structure Live (s : DigitRangeSession 𝔨) (l : Ledger E) (todo : List Event) : Prop where
  steady : Steady rt plan physical n s l
  spec : PhaseSpec plan physical n s l todo

/-- An internal failure has taken what the phase needs. -/
structure Stuck (s : DigitRangeSession 𝔨) : Prop where
  pending : s.pending = none
  active : s.active = none
  phase : s.phase = .productPublic ∨ s.phase = .finalPublic ∨ s.phase = .productBatch ∧ s.pendingProductClaims = none

def Follows {α : Type} (call : Call E) (reply : α → Reply E) (s : DigitRangeSession 𝔨) (l : Ledger E) (todo : List Event) :
    EStateM.Result AkitaError (DigitRangeSession 𝔨) α → Prop
  | .ok a t => ∃ rest, todo = call.event :: rest ∧ Live rt plan physical n t (l.record (call, reply a)) rest
  | .error e t => (∀ msg, e = .invalidInput msg → t = s) ∧ (Live rt plan physical n t l todo ∨ Stuck t)

end

variable {plan : DigitRangePlan} {physical : Option PhysicalResponsePlan} {n : ℕ}

section steps

variable {t : DigitRangeSession 𝔨} {l : Ledger E} {todo : List Event} {α : Type} {call : Call E} {reply : α → Reply E}
  {a : ActiveStage 𝔨} {stage : ℕ} {p : PendingRound E}

def runningTodo (plan : DigitRangePlan) (physical : Option PhysicalResponsePlan) (n : ℕ) (s : DigitRangeSession 𝔨) :
    List Event := (if s.pending.isSome then [] else [.round (currentStep plan physical s.productIndex) s.nextRound]) ++
    .challenge (currentStep plan physical s.productIndex) s.nextRound ::
      (roundsFrom (currentStep plan physical s.productIndex) n (s.nextRound + 1) ++ afterRounds plan physical n s.productIndex)

theorem Live.running (h : Live rt plan physical n s l todo) (hphase : s.phase = .running) :
    ∃ a, Running plan physical n s l a ∧ todo = runningTodo plan physical n s := by
  have hspec := h.spec
  simp only [PhaseSpec, hphase] at hspec
  obtain ⟨⟨a, hr⟩, htodo⟩ := hspec
  exact ⟨a, hr, htodo⟩

theorem Live.of_running (h : Steady rt plan physical n s l) (hphase : s.phase = .running) (hr : Running plan physical n s l a) :
    Live rt plan physical n s l (runningTodo plan physical n s) := by
  refine ⟨h, ?_⟩
  simp only [PhaseSpec, hphase]
  exact ⟨⟨a, hr⟩, rfl⟩

theorem Steady.step {l' : Ledger E} (h : Steady rt plan physical n s l) (hplan : t.plan = s.plan)
    (hphys : t.physical = s.physical) (hstage : t.productIndex = s.productIndex) (hpoint : t.equalityPoint = s.equalityPoint)
    (hpoint' : l'.point = l.point) (hclaim : t.claim = l'.claim) : Steady rt plan physical n t l' where
  plan_eq := hplan.trans h.plan_eq
  physical_eq := by rw [hphys, h.physical_eq]
  subclaims := by rw [hphys]; exact h.subclaims
  claim := hclaim
  point := by rw [hpoint, hpoint', h.point]
  point_length := by rw [hpoint', h.point_length]
  stage_le := hstage ▸ h.stage_le
  splits := h.splits

theorem Follows.reject (h : Live rt plan physical n s l todo) (e : AkitaError) :
    Follows rt plan physical n call reply s l todo (.error e s) := ⟨fun _ _ => rfl, .inl h⟩

theorem Follows.stuck (h : Stuck t) (he : ∀ msg, e ≠ .invalidInput msg) :
    Follows rt plan physical n call reply s l todo (.error e t) := ⟨fun msg hmsg => absurd hmsg (he msg), .inr h⟩

theorem currentStep_lt (h : stage < plan.productStageArities.length) : currentStep plan physical stage = .product stage := by
  unfold currentStep
  rw [if_pos h]

theorem currentStep_ge (h : plan.productStageArities.length ≤ stage) (j : ℕ) : currentStep plan physical stage ≠ .product j := by
  unfold currentStep
  rw [if_neg (by omega)]
  cases physical <;> simp

theorem live_begin (h : Steady rt plan physical n s l) (hstep : a.step s.productIndex = currentStep plan physical s.productIndex)
    (hrounds : a.numRounds = n) (htau : a.splitEq.tau = l.point) (hround : a.splitEq.currentRound = 0) (hn : 0 < n)
    (hpoly : l.polynomial = none) (hchals : l.challenges = []) :
    Live rt plan physical n { s with active := some a }.beginActive l
      (roundsFrom (currentStep plan physical s.productIndex) n 0 ++ afterRounds plan physical n s.productIndex) := by
  refine ⟨⟨h.plan_eq, h.physical_eq, h.subclaims, h.claim, h.point, h.point_length, h.stage_le, h.splits⟩,
    ⟨a, rfl, hstep, hrounds, htau, hround, hchals.symm, by rw [hchals]; rfl, hn, hpoly.symm, ?_⟩, ?_⟩
  · intro p hp
    cases hp
  · rw [roundsFrom_lt hn]
    rfl

theorem startProductOrLeaf_follows (h : Steady rt plan physical n s l) (hidle : Idle s l) (hchals : l.challenges = []) :
    (∀ u t, startProductOrLeaf rt s = .ok u t → Live rt plan physical n t l (protocolFrom plan physical n s.productIndex)) ∧
    (∀ e t, startProductOrLeaf rt s = .error e t → t = s ∧ (plan.productStageArities ≠ [] → ∀ msg, e ≠ .invalidInput msg)) := by
  have hsplits : plan.productStageArities ≠ [] → Splits E rt s.equalityPoint.length := by
    rw [h.point, h.point_length]
    exact h.splits
  by_cases hstage : s.productIndex < plan.productStageArities.length
  · cases hnext : s.nextProduct rt with
    | error e =>
      have hrun : startProductOrLeaf rt s = .error e s := by
        simp only [startProductOrLeaf, h.plan_eq, hstage, if_true, hnext]
      rw [hrun]
      refine ⟨fun u t ht => (by cases ht), fun e' t ht => ?_⟩
      cases ht
      exact ⟨rfl, fun hne msg he => nextProduct_unrejected (hsplits hne) msg (he ▸ hnext)⟩
    | ok a =>
      have hrun : startProductOrLeaf rt s = .ok () { s with active := some a }.beginActive := by
        simp only [startProductOrLeaf, h.plan_eq, hstage, if_true, hnext]
      rw [hrun]
      refine ⟨fun u t ht => ?_, fun e t ht => (by cases ht)⟩
      cases ht
      have ha := nextProduct_ok hnext
      obtain ⟨htau, hround, hpos⟩ := GruenSplitEq.new_ok ha.splitEq
      have hlive := live_begin h (by rw [currentStep_lt hstage, ha.step]) (by rw [ha.numRounds, h.point, h.point_length])
        (htau.trans h.point) hround (by rw [h.point, h.point_length] at hpos; exact hpos) hidle.polynomial hchals
      rw [protocolFrom_lt hstage]
      rwa [currentStep_lt hstage, afterRounds, if_pos hstage] at hlive
  · have hstages : s.productIndex = plan.productStageArities.length := le_antisymm h.stage_le (not_lt.1 hstage)
    rw [protocolFrom_ge hstages.ge]
    cases hphys : s.physical with
    | some state =>
      have hrun : startProductOrLeaf rt s = .ok () { s with phase := .l2Public } := by
        simp only [startProductOrLeaf, h.plan_eq, hstage, if_false, hphys, Option.isSome_some, if_true]
      rw [hrun]
      refine ⟨fun u t ht => ?_, fun e t ht => (by cases ht)⟩
      cases ht
      exact ⟨⟨h.plan_eq, h.physical_eq, h.subclaims, h.claim, h.point, h.point_length, h.stage_le, h.splits⟩,
        ⟨hidle.pending, hidle.polynomial⟩, hstages, by simp [hphys], hchals, rfl⟩
    | none =>
      have hnone : physical = none := by rw [← h.physical_eq, hphys]; rfl
      cases hnext : s.nextLeaf rt with
      | error e =>
        have hrun : startProductOrLeaf rt s = .error e s := by
          simp [startProductOrLeaf, h.plan_eq, hstage, hphys, hnext]
        rw [hrun]
        refine ⟨fun u t ht => (by cases ht), fun e' t ht => ?_⟩
        cases ht
        exact ⟨rfl, fun hne msg he => nextLeaf_unrejected (hsplits hne) msg (he ▸ hnext)⟩
      | ok leaf =>
        have hrun : startProductOrLeaf rt s = .ok () { s with active := some (.leaf leaf) }.beginActive := by
          simp [startProductOrLeaf, h.plan_eq, hstage, hphys, hnext]
        rw [hrun]
        refine ⟨fun u t ht => ?_, fun e t ht => (by cases ht)⟩
        cases ht
        obtain ⟨-, hrounds, htau, hround, hpos⟩ := nextLeaf_ok hnext
        have hcur : currentStep plan physical s.productIndex = .rangeLeaf := by
          unfold currentStep
          rw [if_neg hstage, hnone]
        have hlive := live_begin (a := .leaf leaf) h (by rw [hcur]; rfl) (by rw [← h.point_length, ← h.point]; exact hrounds)
          (htau.trans h.point) hround (by rw [h.point, h.point_length] at hpos; exact hpos) hidle.polynomial hchals
        rw [hcur, afterRounds, if_neg hstage, hcur] at hlive
        rw [hnone] at hlive ⊢
        exact hlive

theorem Follows.start {reply : Unit → Reply E} (h : Steady rt plan physical n t (l.record (call, reply ())))
    (hidle : Idle t (l.record (call, reply ()))) (hchals : (l.record (call, reply ())).challenges = [])
    (hne : plan.productStageArities ≠ []) (hstuck : Stuck t)
    (htodo : todo = call.event :: protocolFrom plan physical n t.productIndex) :
    Follows rt plan physical n call reply s l todo (startProductOrLeaf rt t) := by
  obtain ⟨hok, herror⟩ := startProductOrLeaf_follows h hidle hchals
  cases hrun : startProductOrLeaf rt t with
  | ok u t' => exact ⟨_, htodo, hok u t' hrun⟩
  | error e t' =>
    obtain ⟨rfl, hmsg⟩ := herror e t' hrun
    exact .stuck hstuck (hmsg hne)

/-- **A round polynomial.** -/
theorem roundPolynomial_follows [DecidableEq E] (h : Live rt plan physical n s l todo) (step : Stage1Step) (round : ℕ) (claim : E) :
    Follows rt plan physical n (.roundPolynomial step round claim) Reply.polynomial s l todo
      (roundPolynomial 𝔯 step round claim s) := by
  unfold roundPolynomial
  cases hactive : s.active with
  | none => exact .reject h _
  | some a =>
    dsimp only
    split_ifs with hguard hvalid
    · exact .reject h _
    · -- the round is asked for, and its polynomial is in order
      simp only [not_or, not_not] at hguard
      obtain ⟨hphase, hstep, rfl, hpend, -⟩ := hguard
      obtain ⟨a', hr, rfl⟩ := h.running hphase
      obtain rfl : a' = a := Option.some.inj (hr.active.symm.trans hactive)
      obtain ⟨hstep', hrounds', heq', htau'⟩ := a'.round_spec (𝔯 := 𝔯) s.nextRound s.claim s.productIndex
      have hcur : step = currentStep plan physical s.productIndex := hstep ▸ hr.step
      refine ⟨_, ?_, Live.of_running (h.steady.step rfl rfl rfl rfl rfl h.steady.claim) hphase
        ⟨rfl, hstep'.trans hr.step, hrounds'.trans hr.numRounds, heq' ▸ hr.tau, heq' ▸ hr.currentRound, hr.challenges,
          hr.challenges_length, hr.round_lt, rfl, ?_⟩⟩
      · simp [runningTodo, hpend, Call.event, hcur]
      · intro p hp
        cases hp
        refine ⟨hcur, rfl, fun poly hpoly => ?_⟩
        rw [htau' poly hpoly, GruenSplitEq.currentTau, hr.tau, hr.currentRound]
        rfl
    · simp only [not_or, not_not] at hguard
      obtain ⟨hphase, hstep, rfl, hpend, -⟩ := hguard
      obtain ⟨a', hr, rfl⟩ := h.running hphase
      obtain rfl : a' = a := Option.some.inj (hr.active.symm.trans hactive)
      obtain ⟨hstep', hrounds', heq', -⟩ := a'.round_spec (𝔯 := 𝔯) s.nextRound s.claim s.productIndex
      exact ⟨fun msg hmsg => (by cases hmsg), .inl (Live.of_running (h.steady.step rfl rfl rfl rfl rfl h.steady.claim) hphase
        ⟨rfl, hstep'.trans hr.step, hrounds'.trans hr.numRounds, heq' ▸ hr.tau, heq' ▸ hr.currentRound,
          hr.challenges, hr.challenges_length, hr.round_lt, hr.pending, hr.pending_spec⟩)⟩

theorem nextClaim_eq (h𝔯 : 𝔯.Lawful) (claim challenge : E) {tau : E}
    (hp : ∀ poly, p.polynomial = .eqFactored poly → p.tau = some tau) :
    nextClaim 𝔯 claim challenge p = .ok (p.polynomial.valueAt claim tau challenge) := by
  unfold nextClaim
  cases hpoly : p.polynomial with
  | eqFactored poly =>
    simp only [hp poly hpoly, okOr, ok_bind, Stage1RoundPolynomial.valueAt, eval_fromWeighted, advanceEqFactoredClaim,
      h𝔯.omitted.nonconstantTermSumAtOne, h𝔯.omitted.evaluateNonconstantTerms]
    rfl
  | standard poly => simp only [Stage1RoundPolynomial.valueAt, h𝔯.evaluate]; rfl

theorem Live.running_of_pending (h : Live rt plan physical n s l todo) (hp : s.pending = some p) : s.phase = .running := by
  have hspec := h.spec
  cases hphase : s.phase <;> simp only [PhaseSpec, hphase] at hspec
  case running => rfl
  all_goals exact absurd (hspec.1.pending.symm.trans hp) (by simp)

/-- **A challenge.** -/
theorem bindChallenge_follows (h𝔯 : 𝔯.Lawful) (h : Live rt plan physical n s l todo) (step : Stage1Step) (round : ℕ)
    (challenge : E) : Follows rt plan physical n (.bindChallenge step round challenge) (fun _ => Reply.done) s l todo
      (bindChallenge 𝔯 step round challenge s) := by
  cases hpend : s.pending with
  | none =>
    simp only [bindChallenge, hpend]
    exact .reject h _
  | some p =>
    by_cases hguard : p.step ≠ step ∨ p.round ≠ round
    · simp only [bindChallenge, hpend, hguard, if_true]
      exact .reject h _
    · obtain ⟨a, hr, rfl⟩ := h.running (h.running_of_pending hpend)
      obtain ⟨hstep, hround, htau⟩ := hr.pending_spec p hpend
      obtain ⟨hbstep, hbrounds, hbsplit⟩ := a.bind_spec round challenge s.productIndex
      have hpoly : l.polynomial = some p.polynomial := by rw [← hr.pending, hpend]; rfl
      have hclaim := nextClaim_eq h𝔯 s.claim challenge htau
      have hrecord : l.record (.bindChallenge step round challenge, .done) =
          { l with claim := p.polynomial.valueAt s.claim (l.point.getD s.nextRound 0) challenge
                   challenges := l.challenges ++ [challenge], polynomial := none } := by
        simp only [Ledger.record, hpoly, h.steady.claim, hr.challenges_length]
      have htodo : runningTodo plan physical n s = Call.event (.bindChallenge step round challenge) ::
          (roundsFrom (currentStep plan physical s.productIndex) n (s.nextRound + 1) ++
            afterRounds plan physical n s.productIndex) := by
        simp only [not_or, not_not] at hguard
        simp [runningTodo, hpend, Call.event, ← hstep, ← hround, hguard]
      simp only [bindChallenge, hpend, hguard, if_false, hclaim, hr.active, hbrounds, hr.numRounds]
      by_cases hlast : s.nextRound + 1 = n
      · simp only [hlast, if_true]
        refine ⟨_, htodo, ?_⟩
        rw [hrecord, hlast, roundsFrom_self, nil_append]
        have hclosed : (s.point ++ [challenge]).length = n := by
          rw [length_append, hr.challenges, hr.challenges_length]
          exact hlast
        refine ⟨h.steady.step rfl rfl rfl rfl rfl rfl, ?_⟩
        by_cases hstage : s.productIndex < plan.productStageArities.length
        · have hphase : publicPhase (a.bind round challenge) = .productPublic :=
            ActiveStage.publicPhase_of_product (hbstep.trans (hr.step.trans (currentStep_lt hstage)))
          simp only [PhaseSpec, hphase]
          exact ⟨⟨⟨rfl, rfl⟩, by rw [hr.challenges], by rw [← hr.challenges]; exact hclosed⟩, hstage, ⟨_, rfl⟩, trivial⟩
        · have hge := not_lt.1 hstage
          have hphase : publicPhase (a.bind round challenge) = .finalPublic :=
            ActiveStage.publicPhase_of_final (i := s.productIndex) fun j => by
              rw [hbstep, hr.step]
              exact currentStep_ge hge j
          simp only [PhaseSpec, hphase]
          exact ⟨⟨⟨rfl, rfl⟩, by rw [hr.challenges], by rw [← hr.challenges]; exact hclosed⟩,
            le_antisymm h.steady.stage_le hge, ⟨_, rfl, hbstep.trans hr.step⟩, trivial⟩
      · simp only [hlast, if_false]
        have hlt : s.nextRound + 1 < n := lt_of_le_of_ne hr.round_lt hlast
        refine ⟨_, htodo, ?_⟩
        rw [hrecord, roundsFrom_lt hlt]
        refine Live.of_running (a := a.bind round challenge) (h.steady.step rfl rfl rfl rfl rfl rfl)
          (h.running_of_pending hpend) ⟨rfl, hbstep.trans hr.step, hbrounds.trans hr.numRounds, ?_, ?_, ?_, ?_, hlt, rfl,
            fun p hp => by cases hp⟩
        · rw [hbsplit]; exact hr.tau
        · rw [hbsplit, GruenSplitEq.bind_currentRound, hr.currentRound]
        · rw [hr.challenges]
        · rw [length_append, hr.challenges_length]
          rfl

section

variable (h : Live rt plan physical n s l todo)

include h

/-- **The public claims of a stage.** -/
theorem publicTransition_follows [DecidableEq E] (step : Stage1Step) :
    Follows rt plan physical n (.publicTransition step) Reply.claims s l todo (publicTransition step s) := by
  have hspec := h.spec
  cases hphase : s.phase <;> simp only [PhaseSpec, hphase] at hspec <;> simp only [publicTransition, hphase]
  case productPublic =>
    obtain ⟨hclosed, hstage, ⟨a, hactive⟩, rfl⟩ := hspec
    split_ifs with hstep
    · simp only [hactive]
      cases hclaims : childClaims a with
      | error e =>
        refine .stuck ?_ fun msg he => childClaims_unrejected a msg (he ▸ hclaims)
        exact ⟨hclosed.pending, rfl, .inl rfl⟩
      | ok claims =>
        refine ⟨.batch (.productBatch s.productIndex) :: protocolFrom plan physical n (s.productIndex + 1),
          by rw [afterRounds, if_pos hstage, hstep]; rfl, h.steady.step rfl rfl rfl rfl rfl h.steady.claim, ?_⟩
        exact ⟨⟨⟨hclosed.pending, hclosed.polynomial⟩, hclosed.challenges, hclosed.challenges_length⟩, hstage, rfl, rfl, rfl⟩
    · exact .reject h _
  case l2Public =>
    obtain ⟨hidle, hstage, hsome, hchals, rfl⟩ := hspec
    obtain ⟨state, hstate⟩ := Option.isSome_iff_exists.1 hsome
    have hphys : physical = some state.plan := by rw [← h.steady.physical_eq, hstate]; rfl
    have hsubclaims := h.steady.subclaims state hstate
    split_ifs with hstep
    · simp only [hstate]
      cases hsub : state.subclaims with
      | nil =>
        obtain ⟨len, hshape⟩ := hsubclaims.1 hsub
        refine ⟨mergeProtocol n, ?_, h.steady.step rfl hstate.symm rfl rfl rfl h.steady.claim, ?_⟩
        · rw [hstep, hphys]
          simp only [leafProtocol, hshape]
          rfl
        · simp only [PhaseSpec, isEmpty_nil, if_true]
          exact ⟨⟨hidle.pending, hidle.polynomial⟩, hstage, ⟨state, rfl, by simp [normInputClaim, hsub, Ledger.record]⟩, trivial⟩
      | cons c cs =>
        have hne : state.subclaims ≠ [] := by simp [hsub]
        refine ⟨.batch .l2SubclaimBatch :: mergeProtocol n, ?_, h.steady.step rfl hstate.symm rfl rfl rfl h.steady.claim, ?_⟩
        · rw [hstep, hphys]
          cases hshape : state.plan.shape with
          | direct len => exact absurd (hsubclaims.2 ⟨len, hshape⟩) hne
          | limbGram len blockLen limbCount => simp only [leafProtocol, hshape]; rfl
        · simp only [PhaseSpec, isEmpty_cons, Bool.false_eq_true, if_false]
          exact ⟨⟨hidle.pending, hidle.polynomial⟩, hstage, ⟨state, rfl, hsub, hne⟩, trivial⟩
    · exact .reject h _
  case finalPublic =>
    obtain ⟨hclosed, hstage, ⟨a, hactive, hastep⟩, rfl⟩ := hspec
    split_ifs with hstep
    · exact .reject h _
    · simp only [hactive]
      cases hfinal : finalEvaluations s.claim a with
      | error e =>
        refine .stuck ?_ fun msg he => finalEvaluations_unrejected s.claim a msg (he ▸ hfinal)
        exact ⟨hclosed.pending, rfl, .inr (.inl rfl)⟩
      | ok evaluations =>
        have hcur : step = currentStep plan physical s.productIndex := by
          simp only [hactive, Option.any_some, decide_eq_true_eq, ne_eq, not_not] at hstep
          exact hstep.symm.trans hastep
        refine ⟨[], by rw [afterRounds, if_neg (by omega), hcur]; rfl, h.steady.step rfl rfl rfl rfl rfl h.steady.claim, ?_⟩
        exact ⟨⟨⟨hclosed.pending, hclosed.polynomial⟩, hclosed.challenges, hclosed.challenges_length⟩, rfl⟩
  all_goals exact .reject h _

theorem startFused_follows (hphase : s.phase = .merge) (merge : E) :
    Follows rt plan physical n (.bindBatchChallenge .rangeNormMerge merge) (fun _ => Reply.done) s l todo
      (startFused rt merge s) := by
  have hspec := h.spec
  simp only [PhaseSpec, hphase] at hspec
  obtain ⟨hidle, hstage, ⟨state, hstate, hnorm⟩, rfl⟩ := hspec
  unfold startFused
  cases hleaf : s.nextLeaf rt with
  | error e => exact .reject h _
  | ok range =>
    obtain ⟨hinput, hrounds, htau, hround, hpos⟩ := nextLeaf_ok hleaf
    simp only [hstate]
    have hsteady : ∀ claim (l' : Ledger E), claim = l'.claim → l'.point = l.point →
        Steady rt plan physical n { s with physical := some { state with integers := [] }, claim := claim } l' := by
      intro claim l' hclaim hpoint
      refine ⟨h.steady.plan_eq, ?_, ?_, hclaim, by rw [hpoint]; exact h.steady.point, by rw [hpoint]; exact h.steady.point_length,
        h.steady.stage_le, h.steady.splits⟩
      · rw [← h.steady.physical_eq, hstate]
        rfl
      · intro state' hstate'
        cases hstate'
        exact h.steady.subclaims state hstate
    cases hterm : prepareNormTerm state.plan state.integers state.subclaimWeights with
    | error e =>
      refine ⟨fun msg he => absurd (he ▸ hterm) (prepareNormTerm_unrejected _ _ _ msg), .inl ⟨hsteady s.claim l h.steady.claim rfl, ?_⟩⟩
      simp only [PhaseSpec, hphase]
      exact ⟨⟨hidle.pending, hidle.polynomial⟩, hstage, ⟨_, rfl, hnorm⟩, trivial⟩
    | ok norm =>
      have hcur : currentStep plan physical s.productIndex = .fusedRangeNorm := by
        unfold currentStep
        rw [if_neg (by omega), ← h.steady.physical_eq, hstate]
        rfl
      have hbegin := live_begin (a := .fused ⟨range, norm, merge, range.inputClaim + merge * normInputClaim state,
          range.inputClaim, replicate 5 0⟩)
        (hsteady (range.inputClaim + merge * normInputClaim state) { l with claim := l.claim + merge * l.norm, challenges := [] }
          (by rw [hinput, hnorm, h.steady.claim]) rfl) (by rw [hcur]; rfl)
        (by rw [← h.steady.point_length, ← h.steady.point]; exact hrounds) (htau.trans h.steady.point) hround
        (by rw [h.steady.point, h.steady.point_length] at hpos; exact hpos) hidle.polynomial rfl
      refine ⟨_, rfl, ?_⟩
      have htodo : roundsFrom (currentStep plan physical s.productIndex) n 0 ++ afterRounds plan physical n s.productIndex =
          roundsFrom .fusedRangeNorm n 0 ++ [.transition .fusedRangeNorm] := by
        rw [afterRounds, if_neg (by omega), hcur]
      rw [← htodo]
      exact hbegin

/-- **A batching challenge.** -/
theorem bindBatchChallenge_follows (transition : Stage1Transition) (challenge : E) :
    Follows rt plan physical n (.bindBatchChallenge transition challenge) (fun _ => Reply.done) s l todo
      (bindBatchChallenge rt transition challenge s) := by
  have hspec := h.spec
  cases hphase : s.phase <;> simp only [PhaseSpec, hphase] at hspec <;> cases transition <;>
    simp only [bindBatchChallenge, hphase]
  case productBatch.productBatch index =>
    obtain ⟨hclosed, hstage, hactive, hchildren, rfl⟩ := hspec
    split_ifs with hindex
    · subst hindex
      have hstuck : ∀ t : DigitRangeSession 𝔨, t.pending = s.pending → t.active = s.active → t.phase = .productBatch →
          t.pendingProductClaims = none → Stuck t := fun t hp ha hph hc =>
        ⟨hp.trans hclosed.pending, ha.trans hactive, .inr (.inr ⟨hph, hc⟩)⟩
      cases hcount : s.plan.productStageLaneCount s.productIndex with
      | none => exact ⟨fun msg he => (by cases he), .inl h⟩
      | some count =>
        simp only [hchildren]
        by_cases hlen : l.children.length ≠ count
        · rw [if_pos hlen]
          refine .stuck ?_ fun msg he => by cases he
          exact hstuck _ rfl rfl rfl rfl
        · rw [if_neg hlen]
          obtain rfl := not_not.1 hlen
          cases hbatch : batchClaims (interstageBatchWeights challenge l.children.length) l.children with
          | error e =>
            have hbatch' : Unrejected (batchClaims (interstageBatchWeights challenge l.children.length) l.children) :=
              (Unrejected.ensure (by simp)).bind fun _ => .pure _
            refine .stuck ?_ fun msg he => hbatch' msg (he ▸ hbatch)
            exact hstuck _ rfl rfl rfl rfl
          | ok claim =>
            have hne : plan.productStageArities ≠ [] := by
              intro hnil
              rw [hnil] at hstage
              simp at hstage
            refine Follows.start ?_ ⟨hclosed.pending, hclosed.polynomial⟩ rfl hne (hstuck _ rfl rfl rfl rfl) rfl
            exact ⟨h.steady.plan_eq, h.steady.physical_eq, h.steady.subclaims, batchClaims_powers hbatch, hclosed.challenges,
              hclosed.challenges_length, hstage, h.steady.splits⟩
    · exact .reject h _
  case l2Batch.l2SubclaimBatch =>
    obtain ⟨hidle, hstage, ⟨state, hstate, hsub, hne⟩, rfl⟩ := hspec
    simp only [hstate]
    refine ⟨mergeProtocol n, rfl, ⟨h.steady.plan_eq, ?_, ?_, h.steady.claim, h.steady.point, h.steady.point_length,
      h.steady.stage_le, h.steady.splits⟩, ⟨hidle.pending, hidle.polynomial⟩, hstage, ⟨_, rfl, ?_⟩, rfl⟩
    · rw [← h.steady.physical_eq, hstate]
      rfl
    · intro state' hstate'
      cases hstate'
      exact h.steady.subclaims state hstate
    · refine (normInputClaim_powers _ ?_ rfl).trans ?_
      · exact hne
      · rw [hsub]
        rfl
  case merge.rangeNormMerge =>
    exact startFused_follows h hphase challenge
  all_goals exact .reject h _

end

end steps

/-! ## Runs -/

section runs

variable [DecidableEq E] {t : DigitRangeSession 𝔨} {l : Ledger E} {todo : List Event} {prover : DigitRangeProver E}
  {α : Type} {reply : α → Reply E} {x : Op 𝔨 α}

omit [DecidableEq E] in
theorem Follows.map {call : Call E} (h : Follows rt plan physical n call reply s l todo (x s)) :
    Follows rt plan physical n call id s l todo ((reply <$> x) s) := by
  show Follows rt plan physical n call id s l todo (EStateM.map reply x s)
  unfold EStateM.map
  cases hx : x s with
  | ok a t =>
    rw [hx] at h
    exact h
  | error e t =>
    rw [hx] at h
    exact h

/-- **One call**, whichever it is. -/
theorem answer_follows (h𝔯 : 𝔯.Lawful) (h : Live rt plan physical n s l todo) (call : Call E) :
    Follows rt plan physical n call id s l todo (answer rt 𝔯 call s) := by
  cases call with
  | roundPolynomial step round claim => exact (roundPolynomial_follows h step round claim).map
  | bindChallenge step round challenge => exact (bindChallenge_follows h𝔯 h step round challenge).map
  | publicTransition step => exact (publicTransition_follows h step).map
  | bindBatchChallenge transition challenge => exact (bindBatchChallenge_follows h transition challenge).map

omit [Field E] [DecidableEq E] in
theorem map_error (h : ∃ e, x s = .error e s) : ∃ e, (reply <$> x) s = .error e s := by
  obtain ⟨e, he⟩ := h
  exact ⟨e, by show EStateM.map reply x s = _; simp only [EStateM.map, he]⟩

theorem Stuck.answer (h : Stuck s) (call : Call E) : ∃ e, DigitRange.answer rt 𝔯 call s = .error e s := by
  have hactive : { s with active := none } = s := by rw [← h.active]
  cases call with
  | roundPolynomial step round claim => exact map_error ⟨_, by simp only [roundPolynomial, h.active]; rfl⟩
  | bindChallenge step round challenge => exact map_error ⟨_, by simp only [bindChallenge, h.pending]; rfl⟩
  | publicTransition step =>
    refine map_error ?_
    rcases h.phase with hphase | hphase | ⟨hphase, -⟩
    · by_cases hstep : step = .product s.productIndex
      · exact ⟨_, by simp only [DigitRangeSession.publicTransition, hphase, hstep, if_true, h.active]; rw [← hphase, hactive]⟩
      · exact ⟨_, by simp only [DigitRangeSession.publicTransition, hphase, hstep, if_false]; rfl⟩
    · refine ⟨.internal "stage 1 final public transition has no active stage", ?_⟩
      simp only [DigitRangeSession.publicTransition, hphase, h.active, Option.any_none, Bool.false_eq_true, if_false]
      rw [← hphase, hactive]
    · exact ⟨_, by simp only [DigitRangeSession.publicTransition, hphase]; rfl⟩
  | bindBatchChallenge transition challenge =>
    refine map_error ?_
    rcases h.phase with hphase | hphase | ⟨hphase, hclaims⟩
    · exact ⟨_, by cases transition <;> simp only [bindBatchChallenge, hphase] <;> rfl⟩
    · exact ⟨_, by cases transition <;> simp only [bindBatchChallenge, hphase] <;> rfl⟩
    · have hpend : { s with pendingProductClaims := none } = s := by rw [← hclaims]
      cases transition with
      | productBatch index =>
        simp only [bindBatchChallenge, hphase, hclaims]
        split_ifs with hindex
        · cases s.plan.productStageLaneCount index with
          | none => exact ⟨_, rfl⟩
          | some count => exact ⟨_, by rw [← hphase, hpend]⟩
        · exact ⟨_, rfl⟩
      | l2SubclaimBatch => exact ⟨_, by simp only [bindBatchChallenge, hphase]; rfl⟩
      | rangeNormMerge => exact ⟨_, by simp only [bindBatchChallenge, hphase]; rfl⟩

theorem Stuck.drive (h : Stuck s) (calls : List (Call E)) : drive rt 𝔯 s calls = (s, []) := by
  induction calls with
  | nil => rfl
  | cons call calls ih =>
    obtain ⟨e, he⟩ : ∃ e, DigitRange.answer rt 𝔯 call s = .error e s := h.answer call
    simp only [DigitRange.drive, he, ih]

/-- **A run.** What succeeded is the protocol so far, and the session is in step with its ledger or stuck. -/
theorem drive_follows (h𝔯 : 𝔯.Lawful) (calls : List (Call E)) : ∀ {s : DigitRangeSession 𝔨} {l : Ledger E} {todo : List Event},
    Live rt plan physical n s l todo → ∃ rest, todo = (drive rt 𝔯 s calls).2.map (fun entry => entry.1.event) ++ rest ∧
      (Live rt plan physical n (drive rt 𝔯 s calls).1 (l.after (drive rt 𝔯 s calls).2) rest ∨
        Stuck (drive rt 𝔯 s calls).1) := by
  induction calls with
  | nil => exact fun {s l todo} h => ⟨todo, rfl, .inl h⟩
  | cons call calls ih =>
    intro s l todo h
    have hstep := answer_follows h𝔯 h call
    cases hrun : answer rt 𝔯 call s with
    | ok reply t =>
      rw [hrun] at hstep
      obtain ⟨rest, rfl, hlive⟩ := hstep
      obtain ⟨rest', rfl, hend⟩ := ih hlive
      exact ⟨rest', by simp [drive, hrun], by simpa only [drive, hrun, Ledger.after_cons, id] using hend⟩
    | error e t =>
      rw [hrun] at hstep
      simp only [drive, hrun]
      rcases hstep.2 with hlive | hstuck
      · exact ih hlive
      · rw [hstuck.drive]
        exact ⟨todo, rfl, .inr hstuck⟩

/-! ## The first state -/

omit [DecidableEq E] in
theorem physicalState_subclaims {digits : List ℤ} {plan : PhysicalResponsePlan} {state : PhysicalState E}
    (h : physicalState digits plan = .ok state) :
    state.plan = plan ∧ (state.subclaims = [] ↔ ∃ len, state.plan.shape = .direct len) := by
  simp only [physicalState, result_ok] at h
  obtain ⟨integers, -, ⟨l2, subclaims⟩, hclaims, rfl⟩ := h
  refine ⟨rfl, ?_⟩
  simp only [map_eq_nil_iff]
  unfold exactClaims at hclaims
  split at hclaims
  · rename_i len hshape
    simp only [result_ok, Prod.mk.injEq] at hclaims
    obtain ⟨_, -, _, -, -, rfl⟩ := hclaims
    exact ⟨fun _ => ⟨len, hshape⟩, fun _ => rfl⟩
  · rename_i len blockLen limbCount hshape
    simp only [result_ok, Prod.mk.injEq] at hclaims
    obtain ⟨_, -, layout, -, claims, hgram, _, -, -, rfl⟩ := hclaims
    refine ⟨fun hnil => ?_, fun ⟨len, hdirect⟩ => by rw [hshape] at hdirect; cases hdirect⟩
    -- the first block and the first limb pair have a claim
    have hblocks : 0 < layout.blockCount := by
      rw [layout.blockCount_eq]
      have hpos := layout.blockLen_pos
      have hle := layout.blockLen_le
      have := Nat.div_pos hle hpos
      unfold PhysicalL2.divCeil
      omega
    have hpair : (0, 0) ∈ layout.limbPairs := layout.mem_limbPairs.2 ⟨le_rfl, layout.limbCount_pos⟩
    have hmem : ∃ c, c ∈ layout.blockRanges.flatMap fun block => layout.limbPairs.map fun pair => (block, pair) := by
      refine ⟨_, mem_flatMap.2 ⟨_, mem_map.2 ⟨0, mem_range.2 hblocks, rfl⟩, mem_map.2 ⟨_, hpair, rfl⟩⟩⟩
    obtain ⟨c, hc⟩ := hmem
    obtain ⟨claim, hclaim, -⟩ := mem_of_mapM_ok hgram hc
    rw [hnil] at hclaim
    cases hclaim

omit [DecidableEq E] in
theorem initial_steady {leafCoeffs : List (List E)} {state : Option (PhysicalState E)}
    (hsub : ∀ st ∈ state, st.subclaims = [] ↔ ∃ len, st.plan.shape = .direct len)
    (hsplits : prover.plan.productStageArities ≠ [] → Splits E rt prover.equalityPoint.length) :
    Steady rt prover.plan (state.map PhysicalState.plan) prover.equalityPoint.length
      (initial prover source leafCoeffs state : DigitRangeSession 𝔨) (Ledger.start prover.equalityPoint) :=
  ⟨rfl, rfl, hsub, rfl, rfl, rfl, Nat.zero_le _, hsplits⟩

omit [DecidableEq E] in
theorem splits_of_start {u : Unit} (h : startProductOrLeaf rt s = .ok u t) (hstage : s.productIndex = 0)
    (hne : s.plan.productStageArities ≠ []) : Splits E rt s.equalityPoint.length := by
  have hlt : s.productIndex < s.plan.productStageArities.length := by
    rw [hstage]
    exact length_pos_of_ne_nil hne
  simp only [startProductOrLeaf, hlt, if_true] at h
  cases hnext : s.nextProduct rt with
  | error e =>
    rw [hnext] at h
    cases h
  | ok a => exact ⟨_, rfl, _, (nextProduct_ok hnext).splitEq⟩

omit [DecidableEq E] in
theorem productStageArities_of_basis (plan : DigitRangePlan) (h : plan.basis ≤ 8) : plan.productStageArities = [] := by
  obtain ⟨logBasis, two_le, le_six⟩ := plan
  have hlt : logBasis < 4 := by
    by_contra hge
    have := Nat.pow_le_pow_right (show 0 < 2 by norm_num) (not_lt.1 hge)
    simp only [basis] at h
    omega
  interval_cases logBasis <;> rfl

omit [DecidableEq E] in
/-- **A new session is in step with an empty ledger.** -/
theorem new_live (h : DigitRangeSession.new rt prover physical = .ok s) :
    Live rt prover.plan physical prover.equalityPoint.length s (Ledger.start prover.equalityPoint)
      (protocol prover.plan physical prover.equalityPoint.length) := by
  -- the first stage, whatever the physical state
  have hstart : ∀ (source : CompactDigitSource) (leafCoeffs : List (List E)) (state : Option (PhysicalState E)) u t,
      (∀ st ∈ state, st.subclaims = [] ↔ ∃ len, st.plan.shape = .direct len) →
      startProductOrLeaf rt (initial prover source leafCoeffs state : DigitRangeSession 𝔨) = .ok u t →
      Live rt prover.plan (state.map PhysicalState.plan) prover.equalityPoint.length t (Ledger.start prover.equalityPoint)
        (protocol prover.plan (state.map PhysicalState.plan) prover.equalityPoint.length) := by
    intro source leafCoeffs state u t hsub hrun
    exact (startProductOrLeaf_follows (initial_steady hsub fun hne => splits_of_start hrun rfl hne) ⟨rfl, rfl⟩ rfl).1 u t hrun
  unfold DigitRangeSession.new at h
  cases physical with
  | none =>
    simp only at h
    split_ifs at h with hbasis
    · simp only [LowBasisRangeCheckProver.new, bind_eq_ok, ensure_eq_ok, pure_eq_ok] at h
      obtain ⟨_, ⟨_, _, numVars, -, _, -, _, -, _, -, _, -, _, -, _, hlen, splitEq, hsplit, rangeImage, -, rfl⟩, rfl⟩ := h
      obtain ⟨htau, hround, hpos⟩ := GruenSplitEq.new_ok hsplit
      have hnil := productStageArities_of_basis prover.plan hbasis
      have hcur : currentStep prover.plan none 0 = .rangeLeaf := by
        unfold currentStep
        rw [hnil]
        rfl
      have hsteady : Steady rt prover.plan none prover.equalityPoint.length
          (initial prover prover.digitSource [] none : DigitRangeSession 𝔨) (Ledger.start prover.equalityPoint) :=
        ⟨rfl, rfl, fun st hst => (by cases hst), rfl, rfl, rfl, Nat.zero_le _, fun hne => absurd hnil hne⟩
      have hlive := live_begin (a := .low ⟨rangeImage, splitEq, numVars, prover.plan.basis⟩) hsteady hcur.symm hlen.symm
        htau hround hpos rfl rfl
      have htodo : roundsFrom (currentStep prover.plan none 0) prover.equalityPoint.length 0 ++
          afterRounds prover.plan none prover.equalityPoint.length 0 = protocol prover.plan none prover.equalityPoint.length := by
        rw [protocol, protocolFrom_ge (by simp [hnil]), afterRounds, if_neg (by simp [hnil]), hcur]
        rfl
      rw [← htodo]
      exact hlive
    · split at h
      · cases h
        rename_i hrun
        exact hstart _ _ none _ _ (by simp) hrun
      · cases h
  | some plan =>
    simp only [bind_eq_ok] at h
    obtain ⟨_, -, state, hstate, h⟩ := h
    obtain ⟨hplan, hsub⟩ := physicalState_subclaims hstate
    split at h
    · cases h
      rename_i hrun
      have := hstart _ _ (some state) _ _ (by intro st hst; obtain rfl := Option.some.inj hst; exact hsub) hrun
      rwa [Option.map_some, hplan] at this
    · cases h

/-- **The session accepts exactly its protocol and is atomic on misuse.** After any calls on a new session: a call that
is rejected changes nothing; a call that succeeds leaves the claim of the ledger; what has succeeded is an initial part of
the protocol; and where the session finishes it is the whole protocol, and the final claims are the ledger's. -/
theorem session_follows_protocol (h𝔯 : 𝔯.Lawful) {prover : DigitRangeProver E} {physical : Option PhysicalResponsePlan}
    {s₀ : DigitRangeSession 𝔨} (hnew : DigitRangeSession.new rt prover physical = .ok s₀) (calls : List (Call E)) :
    (∀ call msg t, answer rt 𝔯 call (drive rt 𝔯 s₀ calls).1 = .error (.invalidInput msg) t → t = (drive rt 𝔯 s₀ calls).1) ∧
    (∀ call reply t, answer rt 𝔯 call (drive rt 𝔯 s₀ calls).1 = .ok reply t →
      t.claim = ((Ledger.start prover.equalityPoint).after ((drive rt 𝔯 s₀ calls).2 ++ [(call, reply)])).claim) ∧
    (drive rt 𝔯 s₀ calls).2.map (fun entry => entry.1.event) <+:
      protocol prover.plan physical prover.equalityPoint.length ∧ ∀ final, (drive rt 𝔯 s₀ calls).1.finish = .ok final →
      (drive rt 𝔯 s₀ calls).2.map (fun entry => entry.1.event) =
        protocol prover.plan physical prover.equalityPoint.length ∧
      final.point = ((Ledger.start prover.equalityPoint).after (drive rt 𝔯 s₀ calls).2).challenges ∧
      final.finalClaim = ((Ledger.start prover.equalityPoint).after (drive rt 𝔯 s₀ calls).2).claim := by
  obtain ⟨rest, htodo, hend⟩ := drive_follows h𝔯 calls (new_live hnew)
  refine ⟨?_, ?_, ⟨rest, htodo.symm⟩, ?_⟩
  · intro call msg t hrun
    rcases hend with hlive | hstuck
    · have hstep := answer_follows h𝔯 hlive call
      rw [hrun] at hstep
      exact hstep.1 msg rfl
    · obtain ⟨e, he⟩ : ∃ e, DigitRange.answer rt 𝔯 call _ = .error e _ := hstuck.answer call
      rw [he] at hrun
      cases hrun
      rfl
  · intro call reply t hrun
    rcases hend with hlive | hstuck
    · have hstep := answer_follows h𝔯 hlive call
      rw [hrun] at hstep
      obtain ⟨_, -, hlive'⟩ := hstep
      rw [hlive'.steady.claim, Ledger.after_append]
      rfl
    · obtain ⟨e, he⟩ : ∃ e, DigitRange.answer rt 𝔯 call _ = .error e _ := hstuck.answer call
      rw [he] at hrun
      cases hrun
  · intro final hfinish
    simp only [finish, bind_eq_ok, ensure_eq_ok, pure_eq_ok, not_or, not_not] at hfinish
    obtain ⟨_, ⟨hphase, -⟩, rfl⟩ := hfinish
    rcases hend with hlive | hstuck
    · have hspec := hlive.spec
      simp only [PhaseSpec, hphase] at hspec
      obtain ⟨hclosed, rfl⟩ := hspec
      exact ⟨by rw [htodo, append_nil], hclosed.challenges, hlive.steady.claim⟩
    · rcases hstuck.phase with h | h | ⟨h, -⟩ <;> rw [hphase] at h <;> cases h

end runs

/-! ## A session of one product stage -/

def sampleRuntime : Runtime where
  elemSize := 16
  reserves _ := true
  parallel := false
  foldTree n := .items (List.range n)
  foldTree_toList := OffsetEq.serialFold_toList

/-- Polynomials by Horner's rule. -/
def listBackend (E : Type) [Field E] : RoundBackend E where
  omitted := ⟨List.sum, fun cs x => x * cs.foldr (fun c acc => c + x * acc) 0⟩
  fromQCoefficients := List.tail
  omittedDegree := List.length
  evaluate cs x := cs.foldr (fun c acc => c + x * acc) 0
  degree cs := cs.length - 1

theorem eval_ofCoeffs_eq_foldr {E : Type} [Field E] (cs : List E) (x : E) :
    (ofCoeffs cs).eval x = cs.foldr (fun c acc => c + x * acc) 0 := by
  induction cs with
  | nil => simp [ofCoeffs]
  | cons c cs ih => rw [eval_ofCoeffs_cons, ih]; rfl

theorem listBackend_lawful (E : Type) [Field E] : (listBackend E).Lawful where
  omitted := ⟨fun _ => rfl, fun cs x => by rw [eval_ofCoeffs_eq_foldr]; rfl⟩
  evaluate cs x := (eval_ofCoeffs_eq_foldr cs x).symm

def sampleKernels : DigitRangeKernels (ZMod 5) where
  Low := Unit
  lowNew _ _ _ _ _ := .ok ()
  lowRound _ _ _ := ([1, 2], ())
  lowBind _ _ _ _ := ()
  lowFinal _ := .ok 0
  Product := Unit
  productNew _ _ _ _ _ _ := .ok ()
  productRound _ _ _ _ := [1, 2, 3, 0, 0]
  productBind _ _ _ _ := ()
  productFinal _ := some [2, 3]
  Leaf := Unit
  leafNew _ _ := .ok ()
  leafRound _ _ _ _ := [1, 2, 3, 4, 1]
  leafBind _ _ _ _ := ()
  leafFinal _ := some 4

def sampleProver : DigitRangeProver (ZMod 5) where
  digitSource := ⟨[0, 1], [1], ⟨2, 1⟩, 8⟩
  equalityPoint := [3]
  plan := ⟨4, by decide, by decide⟩
  liveBlockCount := 1
  highVariableCount := 0
  lowVariableCount := 1

/-- The protocol in order, with a rejected call in the middle. -/
def sampleCalls : List (Call (ZMod 5)) :=
  [.roundPolynomial (.product 0) 0 0, .bindChallenge (.product 0) 1 4, .bindChallenge (.product 0) 0 2,
    .publicTransition (.product 0), .bindBatchChallenge (.productBatch 0) 3, .roundPolynomial .rangeLeaf 0 1,
    .bindChallenge .rangeLeaf 0 1, .publicTransition .rangeLeaf]

theorem sampleCalls_finish : ∃ s : DigitRangeSession sampleKernels, DigitRangeSession.new sampleRuntime sampleProver none = .ok s ∧
    (drive sampleRuntime (listBackend _) s sampleCalls).1.finish = .ok ⟨[1], 1⟩ := ⟨_, rfl, by decide +kernel⟩

theorem session_follows_protocol_sample : ∃ s : DigitRangeSession sampleKernels,
    DigitRangeSession.new sampleRuntime sampleProver none = .ok s ∧
    (drive sampleRuntime (listBackend _) s sampleCalls).1.finish = .ok ⟨[1], 1⟩ ∧
    (drive sampleRuntime (listBackend _) s sampleCalls).2.map (fun entry => entry.1.event) =
      protocol sampleProver.plan none 1 := by
  obtain ⟨s, hnew, hfinish⟩ := sampleCalls_finish
  exact ⟨s, hnew, hfinish, ((session_follows_protocol (listBackend_lawful _) hnew sampleCalls).2.2.2 _ hfinish).1⟩

end Akita.DigitRange
