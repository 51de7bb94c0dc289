import Akita.Proof.Channel
import Akita.Spec.SetupClaims

/-!
# Setup obligations are never lost

Whatever a verification does before it ends, it only appends to the pending claims, so settling a
rejection restores them. An accepted verification is a run of accepted folds, one per nonterminal
level; each fold says what became of a batch that ends there and what it took on advice.
-/

namespace Akita.SetupClaims

open Lib Transcript SetupClaimAccumulator
open EStateM.Result (ok.inj)

variable {E Q A : Type} [SetupQuery E Q]

/-! ## Growing -/

/-- Claims are appended and advice is consulted, nothing else. -/
structure SetupClaimAccumulator.Grows (acc acc' : SetupClaimAccumulator E Q A) : Prop where
  polynomial : acc'.polynomial = acc.polynomial
  batch : acc'.batch = acc.batch
  pending : acc.pending <+: acc'.pending

theorem SetupClaimAccumulator.Grows.refl (acc : SetupClaimAccumulator E Q A) : acc.Grows acc :=
  ⟨rfl, rfl, List.prefix_rfl⟩

theorem SetupClaimAccumulator.Grows.trans {a b c : SetupClaimAccumulator E Q A} (h : a.Grows b) (h' : b.Grows c) : a.Grows c :=
  ⟨h'.polynomial.trans h.polynomial, h'.batch.trans h.batch, h.pending.trans h'.pending⟩

namespace SetupPolicy

variable {p q : SetupPolicy E Q A}

inductive Grows : SetupPolicy E Q A → SetupPolicy E Q A → Prop
  | ordinary : Grows (.check none) (.check none)
  | check {acc acc'} : acc.Grows acc' → Grows (.check (some acc)) (.check (some acc'))
  | defer {acc acc'} : acc.Grows acc' → Grows (.defer acc) (.defer acc')

theorem Grows.refl : ∀ p : SetupPolicy E Q A, p.Grows p
  | .check none => .ordinary
  | .check (some acc) => .check (.refl acc)
  | .defer acc => .defer (.refl acc)

theorem Grows.trans {r : SetupPolicy E Q A} (h : p.Grows q) (h' : q.Grows r) : p.Grows r := by
  cases h with
  | ordinary => exact h'
  | check hacc => cases h' with | check hacc' => exact .check (hacc.trans hacc')
  | defer hacc => cases h' with | defer hacc' => exact .defer (hacc.trans hacc')

theorem Grows.update {f : SetupClaimAccumulator E Q A → SetupClaimAccumulator E Q A}
    (hf : ∀ acc ∈ p.accumulator, acc.Grows (f acc)) : p.Grows (p.update f) := by
  rcases p with (_ | acc) | acc
  · exact .ordinary
  · exact .check (hf acc rfl)
  · exact .defer (hf acc rfl)

theorem update_id (p : SetupPolicy E Q A) : (p.update fun acc => acc) = p := by
  rcases p with (_ | acc) | acc <;> rfl

theorem update_congr {f g : SetupClaimAccumulator E Q A → SetupClaimAccumulator E Q A} (h : ∀ acc ∈ p.accumulator, f acc = g acc) :
    p.update f = p.update g := by
  rcases p with (_ | acc) | acc
  · rfl
  · exact congrArg (fun a => SetupPolicy.check (some a)) (h acc rfl)
  · exact congrArg SetupPolicy.defer (h acc rfl)

theorem update_update (p : SetupPolicy E Q A) (f g : SetupClaimAccumulator E Q A → SetupClaimAccumulator E Q A) :
    (p.update f).update g = p.update fun acc => g (f acc) := by
  rcases p with (_ | acc) | acc <;> rfl

theorem accumulator_update (p : SetupPolicy E Q A) (f : SetupClaimAccumulator E Q A → SetupClaimAccumulator E Q A) :
    (p.update f).accumulator = p.accumulator.map f := by
  rcases p with (_ | acc) | acc <;> rfl

theorem defers_update (p : SetupPolicy E Q A) (f : SetupClaimAccumulator E Q A → SetupClaimAccumulator E Q A) :
    (p.update f).defers = p.defers := by
  rcases p with (_ | acc) | acc <;> rfl

theorem defers_of_accumulator_none (h : p.accumulator = none) : p.defers = false := by
  rcases p with acc | acc
  · rfl
  · cases h

theorem inherited_congr (h : p.batch = q.batch) (level : UInt32) :
    p.inherited level = q.inherited level := by rw [inherited, inherited, h]

theorem inherited_of_batch {level : UInt32} {st : SetupBatchStatement E Q} (h : p.batch = some (level, st)) :
    p.inherited level = some st := by
  rw [inherited, h, Option.filter_some]
  simp

theorem Grows.settle_rejected (h : p.Grows q) : ∀ acc ∈ p.accumulator,
    ∃ acc' ∈ (q.settle p.pendingLen false).accumulator, acc'.batch = acc.batch ∧ acc'.pending = acc.pending := by
  have htake : ∀ {acc acc' : SetupClaimAccumulator E Q A}, acc.Grows acc' → acc'.pending.take acc.pending.length = acc.pending :=
    fun hacc => (List.prefix_iff_eq_take.1 hacc.pending).symm
  intro acc hacc
  cases h with
  | ordinary => cases hacc
  | check hgrow =>
    cases hacc
    exact ⟨_, rfl, hgrow.batch, htake hgrow⟩
  | defer hgrow =>
    cases hacc
    exact ⟨_, rfl, hgrow.batch, htake hgrow⟩

end SetupPolicy

/-! ## Whatever happens, the policy grows -/

section

variable {𝔳 : VerifierBackend E Q} {α : Type}

def PolicyGrows (s t : VerifierState 𝔳 A) : Prop := s.policy.Grows t.policy

theorem PolicyGrows.refl (s : VerifierState 𝔳 A) : PolicyGrows s s := SetupPolicy.Grows.refl _

theorem PolicyGrows.trans (s t u : VerifierState 𝔳 A) (h : PolicyGrows s t) (h' : PolicyGrows t u) : PolicyGrows s u :=
  SetupPolicy.Grows.trans h h'

theorem moves_bind {β : Type} {x : Chan (VerifierState 𝔳 A) α} {f : α → Chan (VerifierState 𝔳 A) β} (hx : Moves PolicyGrows x)
    (hf : ∀ a, Moves PolicyGrows (f a)) : Moves PolicyGrows (x >>= f) := Moves.bind PolicyGrows.trans hx hf

theorem moves_pure (a : α) : Moves PolicyGrows (pure a : Chan (VerifierState 𝔳 A) α) := Moves.pure PolicyGrows.refl a

theorem moves_ofResult (r : Result α) : Moves PolicyGrows (ofResult r : Chan (VerifierState 𝔳 A) α) :=
  Moves.of_run PolicyGrows.refl fun s => by cases r <;> simp

theorem moves_onChannel (m : Chan 𝔳.Channel α) : Moves PolicyGrows (onChannel m : Chan (VerifierState 𝔳 A) α) :=
  Moves.zoom (R := fun _ _ => True) (fun _ => trivial) fun s _ _ => PolicyGrows.refl s

theorem moves_closeInherited (level : UInt32) (defers : Bool) (inherited : Option (SetupBatchStatement E Q)) :
    Moves PolicyGrows (closeInherited 𝔳 level defers inherited : Chan (VerifierState 𝔳 A) Unit) := by
  cases inherited with
  | none => exact moves_pure ()
  | some inherited =>
    refine moves_bind (moves_onChannel _) fun _ => ?_
    split_ifs
    · exact fun s => SetupPolicy.Grows.update fun acc _ => ⟨rfl, rfl, List.prefix_append _ _⟩
    · exact moves_ofResult _

theorem moves_accumulatedFoldSetup (replayed : 𝔳.Replayed) (level : UInt32) (defers : Bool) (stage3 : Option 𝔳.Params)
    (inherited : Option (SetupBatchStatement E Q)) :
    Moves PolicyGrows (accumulatedFoldSetup 𝔳 replayed level defers stage3 inherited : Chan (VerifierState 𝔳 A) (FoldSetup E Q)) := by
  cases stage3 with
  | none => exact moves_bind (moves_closeInherited _ _ _) fun _ => moves_pure _
  | some successor =>
    cases inherited with
    | none => exact moves_pure _
    | some inherited => exact moves_bind (moves_onChannel _) fun _ => moves_pure _

theorem moves_selectFoldSetup (replayed : 𝔳.Replayed) (prepared : PreparedFoldReplay 𝔳) (policy : SetupPolicy E Q A) :
    Moves PolicyGrows (selectFoldSetup 𝔳 replayed prepared policy : Chan (VerifierState 𝔳 A) (FoldSetup E Q)) := by
  rw [selectFoldSetup]
  split_ifs
  · exact moves_accumulatedFoldSetup _ _ _ _ _
  · exact moves_pure _

variable [SetupClaimAdvice E Q A]

theorem run_resolve (query : Q) (acc : SetupClaimAccumulator E Q A) :
    (∃ e acc', (resolve query).run acc = .error e acc' ∧ acc.Grows acc') ∨
    ∃ advice advice' claim, acc.advice = some advice ∧ SetupClaimAdvice.answer advice query = (.ok claim.value, advice') ∧
      claim.query = query ∧ claim.polynomial = acc.polynomial ∧ (resolve query).run acc =
        .ok claim.value { acc with advice := some advice', pending := acc.pending ++ [claim] } := by
  cases hvalid : SetupQuery.validate query acc.polynomial with
  | error e => exact .inl ⟨e, acc, by simp [resolve, hvalid], .refl acc⟩
  | ok u =>
    cases hadvice : acc.advice with
    | none =>
      refine .inl ⟨.invalidInput "deferred direct setup evaluation requires advice", acc, ?_, .refl acc⟩
      simp [resolve, hvalid, hadvice, okOr]
    | some advice =>
      rcases hanswer : SetupClaimAdvice.answer advice query with ⟨answer, advice'⟩
      have hclaim : ∀ value : E, SetupClaim.new acc.polynomial query value =
          .ok { polynomial := acc.polynomial, query, value, valid := hvalid } := by
        intro value
        rw [SetupClaim.new]
        split
        · rfl
        · next h => rw [hvalid] at h; cases h
      cases answer with
      | error e =>
        refine .inl ⟨e, { acc with advice := some advice' }, ?_, rfl, rfl, List.prefix_rfl⟩
        simp [resolve, hvalid, hadvice, hanswer, okOr]
      | ok value =>
        refine .inr ⟨advice, advice', { polynomial := acc.polynomial, query, value, valid := hvalid }, rfl, hanswer, rfl, rfl, ?_⟩
        simp [resolve, hvalid, hadvice, hanswer, okOr, hclaim]
        all_goals rfl

theorem moves_resolve (query : Q) : Moves PolicyGrows (onAccumulator (resolve query) : Chan (VerifierState 𝔳 A) E) := by
  intro s
  unfold stateAfter
  simp only [EStateM.run, onAccumulator]
  cases hacc : s.policy.accumulator with
  | none => exact PolicyGrows.refl s
  | some acc =>
    simp only [Lib.zoom]
    have hgrow : ∀ acc', acc.Grows acc' → s.policy.Grows (s.policy.update fun _ => acc') := by
      intro acc' h
      refine SetupPolicy.Grows.update fun a ha => ?_
      rw [hacc, Option.mem_some_iff] at ha
      exact ha ▸ h
    rcases run_resolve query acc with ⟨e, acc', hrun, h⟩ | ⟨-, advice', claim, -, -, -, -, hrun⟩
    · rw [EStateM.run] at hrun
      rw [hrun]
      exact hgrow _ h
    · rw [EStateM.run] at hrun
      rw [hrun]
      exact hgrow _ ⟨rfl, rfl, List.prefix_append _ _⟩

variable [CommRing E] [DecidableEq E]

theorem moves_verifyFold (prepared : PreparedFoldReplay 𝔳) :
    Moves PolicyGrows (verifyFold 𝔳 prepared : Chan (VerifierState 𝔳 A) (FoldVerifyOutput E 𝔳.Witness)) := by
  refine moves_bind (moves_onChannel _) fun replayed => moves_bind (Moves.get PolicyGrows.refl) fun s => ?_
  apply moves_bind ?setup
  intro foldSetup
  apply moves_bind ?stage3
  intro stage3
  apply moves_bind ?stage2 fun _ => moves_pure _
  case setup => exact moves_selectFoldSetup _ _ _
  case stage3 =>
    cases prepared.stage3 with
    | none => exact moves_pure _
    | some nextParams => exact moves_bind (moves_onChannel _) fun _ => moves_pure _
  case stage2 =>
    refine moves_bind ?_ fun _ => moves_ofResult _
    cases foldSetup with
    | ordinary => exact moves_pure _
    | offloaded outer => exact moves_pure _
    | deferred =>
      exact moves_bind (moves_ofResult _) fun _ => moves_bind (moves_resolve _) fun _ => moves_bind (moves_ofResult _) fun _ =>
        moves_pure _

theorem moves_verifySuffixFolds (terminal : 𝔳.Terminal) (folds : List (FoldParams 𝔳.Params)) : ∀ offset current,
    Moves PolicyGrows (verifySuffixFolds 𝔳 terminal offset folds current :
      Chan (VerifierState 𝔳 A) (SuffixVerifierState E 𝔳.Witness)) := by
  induction folds with
  | nil => exact fun _ _ => moves_pure _
  | cons step rest ih =>
    intro offset current
    exact moves_bind (moves_ofResult _) fun _ => moves_bind (moves_ofResult _) fun _ => moves_bind (moves_onChannel _) fun _ =>
      moves_bind (moves_verifyFold _) fun _ => ih _ _

/-- **A verification grows its policy**, whether it accepts or not. -/
theorem moves_verifyOnState (statement : 𝔳.Statement) :
    Moves PolicyGrows (verifyOnState 𝔳 statement : Chan (VerifierState 𝔳 A) Unit) := by
  refine Moves.onError PolicyGrows.trans ?_ fun s => PolicyGrows.refl s
  refine moves_bind (Moves.get PolicyGrows.refl) fun s => moves_bind (moves_ofResult _) fun _ =>
    moves_bind (moves_ofResult _) fun schedule => moves_bind (moves_ofResult _) fun _ => moves_bind (moves_ofResult _) fun _ =>
    moves_bind (moves_onChannel _) fun _ => moves_bind (moves_onChannel _) fun _ =>
    moves_bind (moves_bind (moves_onChannel _) fun _ => moves_verifyFold _) fun root => moves_bind ?_ fun _ => moves_onChannel _
  exact moves_bind (moves_verifySuffixFolds _ _ _ _) fun _ => moves_bind (moves_ofResult _) fun _ =>
    moves_bind (moves_ofResult _) fun _ => moves_onChannel _

end

/-! ## Accepted folds -/

section runs

variable {𝔳 : VerifierBackend E Q} {s t : VerifierState 𝔳 A} {replayed : 𝔳.Replayed}

theorem run_onChannel_ok {α : Type} {m : Chan 𝔳.Channel α} {a : α} :
    (onChannel m).run s = .ok a t ↔ ∃ c, m.run s.channel = .ok a c ∧ t = ⟨c, s.policy⟩ := by
  rw [onChannel, run_zoom_ok]
  simp only [eq_comm]

theorem SetupBatchStatement.claims_of_new {polynomial : SetupPolynomialId} {coefficientLen : ℕ} {claims : List (SetupClaim E Q)}
    {statement : SetupBatchStatement E Q} (h : SetupBatchStatement.new polynomial coefficientLen claims = .ok statement) :
    statement.claims = claims := by
  rw [SetupBatchStatement.new] at h
  split at h
  · exact Except.ok.inj h ▸ rfl
  · cases h

theorem prepareOuterSetup_claims {successor : 𝔳.Params} {level : UInt32} {inherited : SetupBatchStatement E Q}
    {outer : PreparedOuterSetup E Q} {c c' : 𝔳.Channel}
    (h : (prepareOuterSetup 𝔳 replayed successor level inherited).run c = .ok outer c') :
    ∃ own, outer.statement.claims = inherited.claims ++ [own] := by
  obtain ⟨-, c₁, -, h⟩ := run_bind_ok.1 h
  obtain ⟨claim, c₂, -, h⟩ := run_bind_ok.1 h
  obtain ⟨query, c₃, -, h⟩ := run_bind_ok.1 h
  obtain ⟨own, c₄, -, h⟩ := run_bind_ok.1 h
  obtain ⟨weight, c₅, -, h⟩ := run_bind_ok.1 h
  obtain ⟨statement, c₆, hnew, h⟩ := run_bind_ok.1 h
  obtain ⟨-, c₇, -, h⟩ := run_bind_ok.1 h
  obtain ⟨coefficients, c₈, -, h⟩ := run_bind_ok.1 h
  obtain ⟨rfl, -⟩ := ok.inj h
  exact ⟨own, SetupBatchStatement.claims_of_new (run_ofResult_ok.1 hnew).1⟩

theorem closeInherited_ok {level : UInt32} {defers : Bool} {inherited : Option (SetupBatchStatement E Q)} {u : Unit}
    (h : (closeInherited 𝔳 level defers inherited).run s = .ok u t) :
    if defers then t.policy = s.policy.update fun acc => { acc with pending := acc.pending ++ inherited.elim [] (·.claims) }
    else t.policy = s.policy ∧ ∀ st ∈ inherited, ∃ coefficients c,
      (𝔳.batchCoefficients level st.claims.length).run s.channel = .ok coefficients c ∧
      𝔳.decideSetupBatch st coefficients = .ok () := by
  cases inherited with
  | none =>
    obtain ⟨-, rfl⟩ := ok.inj h
    split_ifs
    · simp [SetupPolicy.update_id]
    · simp
  | some inherited =>
    obtain ⟨coefficients, s₁, hrun, h⟩ := run_bind_ok.1 h
    obtain ⟨c, hdraw, rfl⟩ := run_onChannel_ok.1 hrun
    cases defers with
    | true =>
      obtain ⟨-, rfl⟩ := ok.inj h
      rfl
    | false =>
      obtain ⟨hdecide, rfl⟩ := run_ofResult_ok.1 h
      refine ⟨rfl, fun st hst => ?_⟩
      obtain rfl : inherited = st := Option.some.inj hst
      exact ⟨coefficients, c, hdraw, hdecide⟩

section

variable [CommRing E] [DecidableEq E]

theorem replayStage3_ok {level : UInt32} {foldSetup : FoldSetup E Q} {next : Option 𝔳.Params}
    {stage3 : Option (SetupSumcheckReplay E)} (h : (replayStage3 𝔳 replayed level foldSetup next).run s = .ok stage3 t) :
    t.policy = s.policy ∧ (next = none → stage3 = none) ∧
      ∀ successor ∈ next, ∃ replay c, (verifyStage3 𝔳 replayed successor level foldSetup).run s.channel = .ok replay c ∧
        stage3 = some replay := by
  cases next with
  | none =>
    cases h
    exact ⟨rfl, fun _ => rfl, by simp⟩
  | some successor =>
    obtain ⟨replay, s₁, hrun, h⟩ := run_bind_ok.1 h
    cases h
    obtain ⟨c, hverify, rfl⟩ := run_onChannel_ok.1 hrun
    refine ⟨rfl, by simp, fun p hp => ?_⟩
    obtain rfl : successor = p := Option.some.inj hp
    exact ⟨replay, c, hverify, rfl⟩

end

variable [SetupClaimAdvice E Q A]

theorem externalRelationWeight_deferred {external : Option E}
    (h : (externalRelationWeight 𝔳 replayed .deferred).run s = .ok external t) : ∃ acc advice advice' claim,
      s.policy.accumulator = some acc ∧ 𝔳.externalQuery replayed = .ok claim.query ∧ claim.polynomial = acc.polynomial ∧
      acc.advice = some advice ∧ SetupClaimAdvice.answer advice claim.query = (.ok claim.value, advice') ∧
      t.policy = s.policy.update fun acc => { acc with advice := some advice', pending := acc.pending ++ [claim] } := by
  obtain ⟨query, s₁, hprep, h⟩ := run_bind_ok.1 h
  obtain ⟨hquery, rfl⟩ := run_ofResult_ok.1 hprep
  obtain ⟨answer, s₂, hresolve, h⟩ := run_bind_ok.1 h
  obtain ⟨weight, s₃, hweight, h⟩ := run_bind_ok.1 h
  obtain ⟨-, rfl⟩ := run_ofResult_ok.1 hweight
  obtain ⟨-, rfl⟩ := ok.inj h
  simp only [EStateM.run, onAccumulator] at hresolve
  split at hresolve
  · next acc hacc =>
    obtain ⟨acc', hrun, rfl⟩ := run_zoom_ok.1 hresolve
    rcases run_resolve query acc with ⟨e, acc'', herr, -⟩ | ⟨advice, advice', claim, hadvice, hanswer, rfl, hid, hok⟩
    · rw [herr] at hrun
      cases hrun
    · rw [hok] at hrun
      obtain ⟨-, rfl⟩ := ok.inj hrun
      refine ⟨acc, advice, advice', claim, hacc, hquery, hid, hadvice, hanswer, ?_⟩
      exact SetupPolicy.update_congr fun a ha => by rw [hacc, Option.mem_some_iff] at ha; rw [ha]
  · cases hresolve

variable [CommRing E] [DecidableEq E]

def SetupPolicy.pending (p : SetupPolicy E Q A) : List (SetupClaim E Q) := p.accumulator.elim [] (·.pending)

structure FoldRun (𝔳 : VerifierBackend E Q) (A : Type) [SetupClaimAdvice E Q A] where
  prepared : PreparedFoldReplay 𝔳
  before : VerifierState 𝔳 A
  after : VerifierState 𝔳 A
  output : FoldVerifyOutput E 𝔳.Witness
  accepted : (verifyFold 𝔳 prepared).run before = .ok output after

namespace FoldRun

variable (r : FoldRun 𝔳 A)

def level : UInt32 := r.prepared.level

def Replays (replayed : 𝔳.Replayed) (c : 𝔳.Channel) : Prop :=
  (𝔳.replayRounds r.prepared.inputs r.level).run r.before.channel = .ok replayed c

/-- Stage 3 of the fold accepted a statement that holds the inherited claims and this fold's own, and left its endpoint to
the successor. -/
def Offloads (inherited : SetupBatchStatement E Q) : Prop :=
  ∃ replayed successor outer own replay c₁ c₂ c₃, r.Replays replayed c₁ ∧ r.prepared.stage3 = some successor ∧
    (prepareOuterSetup 𝔳 replayed successor r.level inherited).run c₁ = .ok outer c₂ ∧
    outer.statement.claims = inherited.claims ++ [own] ∧
    (verifyStage3 𝔳 replayed successor r.level (.offloaded outer)).run c₂ = .ok replay c₃ ∧
    r.output.setupPrefixOpening = some (replay.challenges, replay.setupPrefixEval)

/-- The inherited claims were decided against the setup, under coefficients drawn at the fold. -/
def Decides (inherited : SetupBatchStatement E Q) : Prop :=
  ∃ replayed coefficients c₁ c₂, r.Replays replayed c₁ ∧ r.prepared.stage3 = none ∧
    (𝔳.batchCoefficients r.level inherited.claims.length).run c₁ = .ok coefficients c₂ ∧
    𝔳.decideSetupBatch inherited coefficients = .ok ()

/-- The fold has no Stage 3, and took the value of its setup query on advice. -/
def Advises (claim : SetupClaim E Q) : Prop :=
  ∃ replayed c₁ acc advice, r.Replays replayed c₁ ∧ r.prepared.stage3 = none ∧ 𝔳.externalQuery replayed = .ok claim.query ∧
    r.before.policy.accumulator = some acc ∧ acc.polynomial = claim.polynomial ∧ acc.advice = some advice ∧
    (SetupClaimAdvice.answer advice claim.query).1 = .ok claim.value

/-- The fold has no Stage 3, and its Stage 2 output holds with the relation weight of a direct scan of the setup. -/
def Scans : Prop := ∃ replayed c₁, r.Replays replayed c₁ ∧ r.prepared.stage3 = none ∧
    𝔳.checkStage2Output replayed (𝔳.evalFlatAtPoint replayed) = .ok ()

/-- Stage 3 of the fold accepted, and left its endpoint to the successor. -/
def Reduces : Prop :=
  ∃ replayed successor foldSetup replay c₁ c₂ c₃, r.Replays replayed c₁ ∧ r.prepared.stage3 = some successor ∧
    (verifyStage3 𝔳 replayed successor r.level foldSetup).run c₂ = .ok replay c₃ ∧
    r.output.setupPrefixOpening = some (replay.challenges, replay.setupPrefixEval)

/-- The claims the fold added to the pending ones. -/
def taken : List (SetupClaim E Q) := r.after.policy.pending.drop r.before.policy.pending.length

theorem parts : ∃ replayed c₁ foldSetup s₁ stage3 s₂ external, r.Replays replayed c₁ ∧
    (selectFoldSetup 𝔳 replayed r.prepared r.before.policy).run ⟨c₁, r.before.policy⟩ = .ok foldSetup s₁ ∧
    (replayStage3 𝔳 replayed r.level foldSetup r.prepared.stage3).run s₁ = .ok stage3 s₂ ∧
    (externalRelationWeight 𝔳 replayed foldSetup).run s₂ = .ok external r.after ∧
    𝔳.checkStage2Output replayed (evaluateRelationWeight 𝔳 replayed external (stage3.map (·.claim))) = .ok () ∧
    r.output.setupPrefixOpening = stage3.map fun replay => (replay.challenges, replay.setupPrefixEval) := by
  obtain ⟨replayed, s₀, hchannel, h⟩ := run_bind_ok.1 r.accepted
  obtain ⟨c₁, hreplay, rfl⟩ := run_onChannel_ok.1 hchannel
  obtain ⟨s, s', hget, h⟩ := run_bind_ok.1 h
  cases hget
  obtain ⟨foldSetup, s₁, hsetup, h⟩ := run_bind_ok.1 h
  obtain ⟨stage3, s₂, hstage3, h⟩ := run_bind_ok.1 h
  obtain ⟨u, s₃, hstage2, h⟩ := run_bind_ok.1 h
  obtain ⟨hout, hafter⟩ := ok.inj h
  obtain ⟨external, s₄, hext, hcheck⟩ := run_bind_ok.1 hstage2
  obtain ⟨houtput, rfl⟩ := run_ofResult_ok.1 hcheck
  exact ⟨replayed, c₁, foldSetup, s₁, stage3, s₂, external, hreplay, hsetup, hstage3, hafter ▸ hext, houtput, hout ▸ rfl⟩

/-- **What an accepted fold does with setup claims.** Either it leaves the policy as it is, a batch that ends here being
offloaded or, under a check, decided, and its own setup value is reduced or, under a check, scanned; or it has no Stage 3 under
a deferring policy, and appends the batch that ends here and the one claim it took on advice. -/
theorem moved : (r.after.policy = r.before.policy ∧ (∀ inherited ∈ r.before.policy.inherited r.level,
        r.Offloads inherited ∨ r.before.policy.defers = false ∧ r.Decides inherited) ∧
      (r.Reduces ∨ r.before.policy.defers = false ∧ r.Scans)) ∨
    (r.before.policy.defers = true ∧ ∃ claim advice', r.Advises claim ∧
      r.after.policy = r.before.policy.update fun acc => { acc with
        pending := acc.pending ++ ((r.before.policy.inherited r.level).elim [] (·.claims) ++ [claim]), advice := advice' }) := by
  obtain ⟨replayed, c₁, foldSetup, s₁, stage3, s₂, external, hreplay, hsetup, hstage3, hext, houtput, hout⟩ := r.parts
  obtain ⟨hkept, hnone, hstage3⟩ := replayStage3_ok hstage3
  have hreduces : ∀ successor ∈ r.prepared.stage3, r.Reduces := by
    intro successor hnext
    obtain ⟨replay, c₃, hverify, rfl⟩ := hstage3 successor hnext
    exact ⟨replayed, successor, foldSetup, replay, c₁, s₁.channel, c₃, hreplay, hnext, hverify, hout⟩
  -- an ordinary fold keeps the policy from its setup on, and scans when it has no Stage 3
  have hord : foldSetup = .ordinary → r.after.policy = s₁.policy ∧ (r.prepared.stage3 = none → r.Scans) := by
    rintro rfl
    obtain ⟨rfl, hafter⟩ := ok.inj hext
    refine ⟨by rw [← hafter, hkept], fun hnext => ⟨replayed, c₁, hreplay, hnext, ?_⟩⟩
    rw [hnone hnext] at houtput
    exact houtput
  rw [selectFoldSetup] at hsetup
  split_ifs at hsetup with hacc
  · cases hnext : r.prepared.stage3 with
    | some successor =>
      left
      obtain ⟨replay, c₃, hverify, rfl⟩ := hstage3 successor hnext
      have hown := hreduces successor hnext
      rw [hnext] at hsetup
      cases hinh : r.before.policy.inherited r.prepared.level with
      | some inherited =>
        rw [hinh] at hsetup
        obtain ⟨outer, s₃, hprep, h⟩ := run_bind_ok.1 hsetup
        cases h
        obtain ⟨c₂, hbound, rfl⟩ := run_onChannel_ok.1 hprep
        obtain ⟨own, hclaims⟩ := prepareOuterSetup_claims hbound
        obtain ⟨-, hafter⟩ := ok.inj hext
        refine ⟨by rw [← hafter, hkept], fun st hst => .inl ?_, .inl hown⟩
        obtain rfl : inherited = st := Option.some.inj (hinh.symm.trans hst)
        exact ⟨replayed, successor, outer, own, replay, c₁, c₂, c₃, hreplay, hnext, hbound, hclaims, hverify, hout⟩
      | none =>
        rw [hinh] at hsetup
        cases hsetup
        exact ⟨(hord rfl).1, by rw [level, hinh]; simp, .inl hown⟩
    | none =>
      rw [hnext] at hsetup
      obtain ⟨u, s₃, hrun, h⟩ := run_bind_ok.1 hsetup
      have hclose := closeInherited_ok hrun
      cases hdefers : r.before.policy.defers with
      | false =>
        left
        rw [hdefers] at hclose h
        cases h
        obtain ⟨hpolicy, hdecide⟩ := hclose
        refine ⟨by rw [(hord rfl).1, hpolicy], fun st hst => .inr ⟨rfl, ?_⟩, .inr ⟨rfl, (hord rfl).2 hnext⟩⟩
        obtain ⟨coefficients, c, hdraw, hok⟩ := hdecide st hst
        exact ⟨replayed, coefficients, c₁, c, hreplay, hnext, hdraw, hok⟩
      | true =>
        right
        rw [hdefers] at hclose h
        cases h
        obtain ⟨acc, advice, advice', claim, hacc', hquery, hid, hadvice, hanswer, hpolicy⟩ :=
          externalRelationWeight_deferred hext
        rw [hkept, hclose] at hacc' hpolicy
        rw [SetupPolicy.accumulator_update, Option.map_eq_some_iff] at hacc'
        obtain ⟨acc₀, hacc₀, rfl⟩ := hacc'
        refine ⟨rfl, claim, some advice', ?_, ?_⟩
        · exact ⟨replayed, c₁, acc₀, advice, hreplay, hnext, hquery, hacc₀, hid.symm, hadvice, by rw [hanswer]⟩
        · rw [hpolicy, SetupPolicy.update_update]
          simp only [List.append_assoc]
          rfl
  · left
    cases hsetup
    have habsent : r.before.policy.accumulator = none := by simpa using hacc
    refine ⟨(hord rfl).1, fun st hst => ?_, ?_⟩
    · simp [SetupPolicy.inherited, SetupPolicy.batch, habsent] at hst
    · cases hnext : r.prepared.stage3 with
      | some successor => exact .inl (hreduces successor hnext)
      | none => exact .inr ⟨SetupPolicy.defers_of_accumulator_none habsent, (hord rfl).2 hnext⟩

end FoldRun

end runs

end Akita.SetupClaims
