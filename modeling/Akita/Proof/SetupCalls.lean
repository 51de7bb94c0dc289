import Akita.Proof.SetupObligations

/-!
# Verifications that share an accumulator

An accepted verification passes through every nonterminal level once, so a batch meets its target.
From one call the accounting goes to any sequence of calls.
-/

namespace Akita.SetupClaims

open Lib Transcript List

variable {E Q A : Type} [SetupQuery E Q] [CommRing E] [DecidableEq E] [SetupClaimAdvice E Q A] {𝔳 : VerifierBackend E Q}

/-! ## The folds of a verification -/

/-- Accepted folds one after the other, each from the policy the one before left. -/
inductive Runs : SetupPolicy E Q A → List (FoldRun 𝔳 A) → SetupPolicy E Q A → Prop
  | nil (p) : Runs p [] p
  | cons (r : FoldRun 𝔳 A) {rs q} : Runs r.after.policy rs q → Runs r.before.policy (r :: rs) q

/-- The folds that a replay of recursive folds passes, from the given offset and state. -/
inductive SuffixRun (𝔳 : VerifierBackend E Q) (terminal : 𝔳.Terminal) : ℕ → List (FoldParams 𝔳.Params) →
    SuffixVerifierState E 𝔳.Witness → VerifierState 𝔳 A → List (FoldRun 𝔳 A) → VerifierState 𝔳 A → Prop
  | nil (offset current s) : SuffixRun 𝔳 terminal offset [] current s [] s
  | cons {offset step rest current s rs t} (r : FoldRun 𝔳 A) (c : 𝔳.Channel)
      (prepared : (𝔳.prepareFoldReplay r.level current step rest.head? terminal).run s.channel = .ok r.prepared.inputs c)
      (level : r.level.toNat = offset + 1) (stage3 : r.prepared.stage3 = stage3Params 𝔳 rest.head?)
      (before : r.before = ⟨c, s.policy⟩)
      (tail : SuffixRun 𝔳 terminal (offset + 1) rest ⟨r.output, step.outputWitnessLen⟩ r.after rs t) :
      SuffixRun 𝔳 terminal offset (step :: rest) current s (r :: rs) t

/-- The folds that an accepted verification passes, the root first. -/
inductive VerifyRun (𝔳 : VerifierBackend E Q) (statement : 𝔳.Statement) :
    VerifierState 𝔳 A → List (FoldRun 𝔳 A) → VerifierState 𝔳 A → Prop
  | mk {s rs t} (schedule : FoldSchedule 𝔳.Params 𝔳.Terminal) (root : FoldRun 𝔳 A) (c₁ c₂ c₃ : 𝔳.Channel)
      (selected : 𝔳.selectSchedule statement = .ok schedule)
      (fits : batchLevelFits schedule.numFoldLevels (s.policy.batch.map Prod.fst))
      (bound : (𝔳.bindInstance statement schedule (s.policy.batch.map Prod.fst)).run s.channel = .ok () c₁)
      (batch : (bindBatch 𝔳 s.policy.batch).run c₁ = .ok () c₂)
      (prepared : (𝔳.prepareRoot statement schedule).run c₂ = .ok root.prepared.inputs c₃)
      (level : root.level = 0) (stage3 : root.prepared.stage3 = stage3Params 𝔳 schedule.recursiveFolds.head?)
      (before : root.before = ⟨c₃, s.policy⟩)
      (suffix : SuffixRun 𝔳 schedule.terminal 0 schedule.recursiveFolds ⟨root.output, schedule.root.outputWitnessLen⟩
        root.after rs t) : VerifyRun 𝔳 statement s (root :: rs) t

variable {terminal : 𝔳.Terminal} {offset : ℕ} {folds : List (FoldParams 𝔳.Params)}
  {current : SuffixVerifierState E 𝔳.Witness} {s t : VerifierState 𝔳 A} {rs : List (FoldRun 𝔳 A)}
  {statement : 𝔳.Statement} {p q : SetupPolicy E Q A} {acc' : SetupClaimAccumulator E Q A}

theorem SuffixRun.runs (h : SuffixRun 𝔳 terminal offset folds current s rs t) : Runs s.policy rs t.policy := by
  induction h with
  | nil => exact .nil _
  | @cons offset step rest current s rs t r c _ _ _ before _ ih =>
    have hstart : s.policy = r.before.policy := by rw [before]
    exact hstart ▸ .cons r ih

theorem SuffixRun.levels (h : SuffixRun 𝔳 terminal offset folds current s rs t) :
    rs.map (·.level.toNat) = range' (offset + 1) folds.length := by
  induction h with
  | nil => rfl
  | cons r c _ level _ _ _ ih => rw [map_cons, ih, level, length_cons, range'_succ]

theorem VerifyRun.runs (h : VerifyRun 𝔳 statement s rs t) : Runs s.policy rs t.policy := by
  cases h with
  | mk schedule root c₁ c₂ c₃ _ _ _ _ _ _ _ before suffix =>
    have hstart : s.policy = root.before.policy := by rw [before]
    exact hstart ▸ .cons root suffix.runs

/-- **The target of the batch is passed.** -/
theorem VerifyRun.target (h : VerifyRun 𝔳 statement s rs t) : ∀ batch ∈ s.policy.batch, ∃ r ∈ rs, r.level = batch.1 := by
  intro batch hbatch
  cases h with
  | @mk rs _ schedule root _ _ _ _ fits _ _ _ level _ _ suffix =>
    have htarget := fits batch.1 (by rw [Option.mem_def, hbatch]; rfl)
    have hmem : batch.1.toNat ∈ (root :: rs).map (·.level.toNat) := by
      rw [map_cons, suffix.levels, level, mem_cons, mem_range'_1]
      rw [FoldSchedule.numFoldLevels] at htarget
      change batch.1.toNat = 0 ∨ _
      omega
    obtain ⟨r, hr, hnat⟩ := mem_map.1 hmem
    exact ⟨r, hr, UInt32.toNat_inj.1 hnat⟩

theorem verifySuffixFolds_run : ∀ (folds : List (FoldParams 𝔳.Params)) {offset : ℕ}
    {current final : SuffixVerifierState E 𝔳.Witness} {s t : VerifierState 𝔳 A},
    (verifySuffixFolds 𝔳 terminal offset folds current).run s = .ok final t →
    ∃ rs, SuffixRun 𝔳 terminal offset folds current s rs t := by
  intro folds
  induction folds with
  | nil =>
    intro offset current final s t h
    obtain ⟨-, rfl⟩ := EStateM.Result.ok.inj h
    exact ⟨[], .nil _ _ _⟩
  | cons step rest ih =>
    intro offset current final s t h
    obtain ⟨u, s₁, hlevel, h⟩ := run_bind_ok.1 h
    obtain ⟨hfits, rfl⟩ := run_ofResult_ok.1 hlevel
    obtain ⟨u, s₂, hlen, h⟩ := run_bind_ok.1 h
    obtain ⟨-, rfl⟩ := run_ofResult_ok.1 hlen
    obtain ⟨inputs, s₃, hrun, h⟩ := run_bind_ok.1 h
    obtain ⟨c, hprep, rfl⟩ := run_onChannel_ok.1 hrun
    obtain ⟨output, s₄, hfold, h⟩ := run_bind_ok.1 h
    obtain ⟨rs, htail⟩ := ih h
    exact ⟨_, .cons ⟨_, _, _, _, hfold⟩ c hprep (UInt32.toNat_ofNat_of_lt' (ensure_eq_ok.1 hfits)) rfl rfl htail⟩

/-- **An accepted verification is a run of accepted folds**, from an accumulator that may enter. -/
theorem verifyOnState_run {u : Unit} (h : (verifyOnState 𝔳 statement).run s = .ok u t) : s.policy.validate 𝔳.setup = .ok () ∧
      ∃ rs t', VerifyRun 𝔳 statement s rs t' ∧ t'.policy = t.policy := by
  rw [verifyOnState, run_onError_ok] at h
  obtain ⟨s₀, s₁, hget, h⟩ := run_bind_ok.1 h
  cases hget
  obtain ⟨u, s₁, hentry, h⟩ := run_bind_ok.1 h
  obtain ⟨hvalid, rfl⟩ := run_ofResult_ok.1 hentry
  obtain ⟨schedule, s₁, hsched, h⟩ := run_bind_ok.1 h
  obtain ⟨hselect, rfl⟩ := run_ofResult_ok.1 hsched
  obtain ⟨u, s₁, hlevel, h⟩ := run_bind_ok.1 h
  obtain ⟨hfits, rfl⟩ := run_ofResult_ok.1 hlevel
  obtain ⟨u, s₁, hadmit, h⟩ := run_bind_ok.1 h
  obtain ⟨-, rfl⟩ := run_ofResult_ok.1 hadmit
  obtain ⟨u, s₁, hinstance, h⟩ := run_bind_ok.1 h
  obtain ⟨c₁, hbind, rfl⟩ := run_onChannel_ok.1 hinstance
  obtain ⟨u, s₂, hstatement, h⟩ := run_bind_ok.1 h
  obtain ⟨c₂, hbatch, rfl⟩ := run_onChannel_ok.1 hstatement
  obtain ⟨root, s₃, hroot, h⟩ := run_bind_ok.1 h
  obtain ⟨u, s₄, hsuffix, hfinish⟩ := run_bind_ok.1 h
  obtain ⟨c₃, -, rfl⟩ := run_onChannel_ok.1 hfinish
  obtain ⟨inputs, s₅, hinputs, hfold⟩ := run_bind_ok.1 hroot
  obtain ⟨c₄, hprep, rfl⟩ := run_onChannel_ok.1 hinputs
  obtain ⟨current, s₆, hfolds, h⟩ := run_bind_ok.1 hsuffix
  obtain ⟨rs, hruns⟩ := verifySuffixFolds_run _ hfolds
  obtain ⟨u, s₇, hlast, h⟩ := run_bind_ok.1 h
  obtain ⟨-, rfl⟩ := run_ofResult_ok.1 hlast
  obtain ⟨u, s₇, hprefix, h⟩ := run_bind_ok.1 h
  obtain ⟨-, rfl⟩ := run_ofResult_ok.1 hprefix
  obtain ⟨c₅, -, rfl⟩ := run_onChannel_ok.1 h
  exact ⟨hvalid, _, _, .mk schedule ⟨_, _, _, _, hfold⟩ c₁ c₂ c₄ hselect (ensure_eq_ok.1 hfits) hbind hbatch hprep rfl rfl rfl
    hruns, rfl⟩

/-! ## What a run adds up to -/

/-- A fold that took nothing, or what ended at it and one claim on advice. -/
def FoldRun.Accounts (r : FoldRun 𝔳 A) (inherited : Option (SetupBatchStatement E Q)) : Prop :=
  (r.taken = [] ∧ r.Reduces ∧ ∀ st ∈ inherited, r.Offloads st) ∨
  ∃ claim, r.Advises claim ∧ r.taken = inherited.elim [] (·.claims) ++ [claim]

theorem Runs.check (h : Runs p rs q) (hp : p.defers = false) :
    q = p ∧ ∀ r ∈ rs, r.taken = [] ∧ (r.Reduces ∨ r.Scans) ∧ ∀ st ∈ p.inherited r.level, r.Offloads st ∨ r.Decides st := by
  induction h with
  | nil p => exact ⟨rfl, by simp⟩
  | cons r hrest ih =>
    rcases r.moved with ⟨hafter, hinh, hown⟩ | ⟨hdefers, -⟩
    · obtain ⟨hq, hrs⟩ := ih (by rw [hafter, hp])
      rw [hafter] at hq hrs
      refine ⟨hq, fun r' hr' => ?_⟩
      rcases mem_cons.1 hr' with rfl | hr'
      · refine ⟨by rw [FoldRun.taken, hafter, drop_length], hown.imp_right And.right, fun st hst => ?_⟩
        exact (hinh st hst).imp_right And.right
      · exact hrs r' hr'
    · rw [hp] at hdefers
      cases hdefers

theorem Runs.defer (h : Runs p rs q) (hp : p.defers = true) :
    q.defers = true ∧ q.batch = p.batch ∧ q.pending = p.pending ++ rs.flatMap FoldRun.taken ∧
      ∀ r ∈ rs, r.Accounts (p.inherited r.level) := by
  induction h with
  | nil p => exact ⟨hp, rfl, by simp, by simp⟩
  | cons r hrest ih =>
    obtain ⟨acc, hacc⟩ : ∃ acc, r.before.policy = .defer acc := by
      rcases hpolicy : r.before.policy with acc | acc
      · rw [hpolicy] at hp
        cases hp
      · exact ⟨acc, rfl⟩
    have hstep : r.after.policy.defers = true ∧ r.after.policy.batch = r.before.policy.batch ∧
        r.after.policy.pending = r.before.policy.pending ++ r.taken ∧ r.Accounts (r.before.policy.inherited r.level) := by
      rcases r.moved with ⟨hafter, hinh, hown⟩ | ⟨-, claim, advice', hclaim, hafter⟩
      · have htaken : r.taken = [] := by rw [FoldRun.taken, hafter, drop_length]
        refine ⟨by rw [hafter, hp], by rw [hafter], by rw [hafter, htaken, append_nil], .inl ⟨htaken, ?_, fun st hst => ?_⟩⟩
        · exact hown.resolve_right fun hscan => by rw [hp] at hscan; cases hscan.1
        · exact (hinh st hst).resolve_right fun hdecide => by rw [hp] at hdecide; cases hdecide.1
      · have hpend : r.after.policy.pending = r.before.policy.pending ++
            ((r.before.policy.inherited r.level).elim [] (·.claims) ++ [claim]) := by
          rw [hafter, hacc]
          rfl
        have htaken : r.taken = (r.before.policy.inherited r.level).elim [] (·.claims) ++ [claim] := by
          rw [FoldRun.taken, hpend, drop_left]
        refine ⟨by rw [hafter, SetupPolicy.defers_update, hp], ?_, by rw [hpend, htaken], .inr ⟨claim, hclaim, htaken⟩⟩
        rw [hafter, hacc]
        rfl
    obtain ⟨hdefers, hbatch, hpend, hacct⟩ := hstep
    obtain ⟨hq, hqbatch, hqpending, hrs⟩ := ih hdefers
    refine ⟨hq, hqbatch.trans hbatch, ?_, fun r' hr' => ?_⟩
    · rw [hqpending, hpend, flatMap_cons, append_assoc]
    · rcases mem_cons.1 hr' with rfl | hr'
      · exact hacct
      · rw [← SetupPolicy.inherited_congr hbatch]
        exact hrs r' hr'

/-! ## Calls -/

/-- One call of `batched_verify` on a shared accumulator. -/
structure Call (E Q : Type) [SetupQuery E Q] where
  𝔳 : VerifierBackend E Q
  proof : List UInt8
  session : List UInt8
  statement : 𝔳.Statement
  defers : Bool

namespace Call

def policy (call : Call E Q) (acc : SetupClaimAccumulator E Q A) : SetupPolicy E Q A :=
  if call.defers then .defer acc else .check (some acc)

/-- The result of a call and the accumulator after it. -/
def run (call : Call E Q) (acc : SetupClaimAccumulator E Q A) : Result Unit × SetupClaimAccumulator E Q A :=
  let (result, policy) := batchedVerify call.𝔳 call.proof call.session call.statement (call.policy acc)
  (result, policy.accumulator.getD acc)

def runAll (calls : List (Call E Q)) (acc : SetupClaimAccumulator E Q A) : SetupClaimAccumulator E Q A :=
  calls.foldl (fun acc call => (call.run acc).2) acc

def Folds (call : Call E Q) (acc : SetupClaimAccumulator E Q A) (rs : List (FoldRun call.𝔳 A)) : Prop :=
  ∃ t, VerifyRun call.𝔳 call.statement ⟨call.𝔳.newVerifierChannel call.session call.proof, call.policy acc⟩ rs t

def Settles (call : Call E Q) (acc : SetupClaimAccumulator E Q A) : Result Unit → SetupClaimAccumulator E Q A → Prop
  | .error _, acc' => acc'.batch = acc.batch ∧ acc'.pending = acc.pending
  | .ok (), acc' => acc'.batch = none ∧ ∃ rs : List (FoldRun call.𝔳 A), call.Folds acc rs ∧
    if call.defers then
      acc'.pending = acc.pending ++ rs.flatMap FoldRun.taken ∧
      (∀ r ∈ rs, r.Accounts ((call.policy acc).inherited r.level)) ∧
      ∀ batch ∈ acc.batch, ∃ r ∈ rs, r.level = batch.1 ∧ (r.Offloads batch.2 ∨ ∀ claim ∈ batch.2.claims, claim ∈ acc'.pending)
    else
      acc.pending = [] ∧ acc'.pending = [] ∧ (∀ r ∈ rs, r.taken = [] ∧ (r.Reduces ∨ r.Scans)) ∧
      ∀ batch ∈ acc.batch, ∃ r ∈ rs, r.level = batch.1 ∧ (r.Offloads batch.2 ∨ r.Decides batch.2)

section

variable (call : Call E Q) (acc : SetupClaimAccumulator E Q A)

omit [CommRing E] [DecidableEq E] [SetupClaimAdvice E Q A]

theorem policy_accumulator : (call.policy acc).accumulator = some acc := by
  rw [policy]
  split_ifs <;> rfl

theorem policy_defers : (call.policy acc).defers = call.defers := by
  rw [policy]
  split_ifs with h
  · exact h.symm
  · exact (Bool.eq_false_iff.2 h).symm

theorem policy_batch : (call.policy acc).batch = acc.batch := by rw [SetupPolicy.batch, policy_accumulator, Option.bind_some]

theorem policy_pending : (call.policy acc).pending = acc.pending := by rw [SetupPolicy.pending, policy_accumulator]; rfl

/-- **A rejected call gives the obligations back.** -/
theorem settles_error {s : VerifierState call.𝔳 A} (h : (call.policy acc).Grows s.policy)
    (hacc : acc' = ((s.policy.settle (call.policy acc).pendingLen false).accumulator.getD acc)) :
    acc'.batch = acc.batch ∧ acc'.pending = acc.pending := by
  obtain ⟨settled, hsettled, hbatch, hpend⟩ := h.settle_rejected acc (call.policy_accumulator acc)
  rw [Option.mem_def] at hsettled
  rw [hacc, hsettled, Option.getD_some]
  exact ⟨hbatch, hpend⟩

end

/-- **An accepted call accounts for every obligation.** -/
theorem settles_ok (call : Call E Q) (acc : SetupClaimAccumulator E Q A) {s : VerifierState call.𝔳 A} {u : Unit}
    (h : (verifyOnState call.𝔳 call.statement).run ⟨call.𝔳.newVerifierChannel call.session call.proof, call.policy acc⟩ = .ok u s)
    (hacc : acc' = ((s.policy.settle (call.policy acc).pendingLen true).accumulator.getD acc)) : call.Settles acc (.ok ()) acc' := by
  obtain ⟨hvalid, rs, t, hrun, ht⟩ := verifyOnState_run h
  have hruns := hrun.runs
  rw [ht] at hruns
  have htargets := hrun.target
  simp only [policy_batch] at htargets
  cases hdefers : call.defers with
  | true =>
    obtain ⟨hq, hbatch, hpend, hacct⟩ := hruns.defer (by rw [policy_defers, hdefers])
    obtain ⟨final, hfinal⟩ : ∃ final, s.policy = .defer final := by
      rcases hpolicy : s.policy with a | a
      · rw [hpolicy] at hq
        cases hq
      · exact ⟨a, rfl⟩
    have hsettled : acc' = { final with batch := none } := by rw [hacc, hfinal]; rfl
    have hfinalPending : final.pending = acc.pending ++ rs.flatMap FoldRun.taken := by
      rw [policy_pending, hfinal] at hpend
      exact hpend
    refine ⟨by rw [hsettled], rs, ⟨t, hrun⟩, ?_⟩
    rw [hdefers, if_pos rfl]
    refine ⟨by rw [hsettled]; exact hfinalPending, hacct, fun batch hmem => ?_⟩
    obtain ⟨r, hr, hlevel⟩ := htargets batch hmem
    refine ⟨r, hr, hlevel, ?_⟩
    have hinh : (call.policy acc).inherited r.level = some batch.2 := by
      refine SetupPolicy.inherited_of_batch ?_
      rw [policy_batch, hlevel]
      exact hmem
    rcases hacct r hr with ⟨-, -, hoff⟩ | ⟨claim, -, htaken⟩
    · exact .inl (hoff _ hinh)
    · refine .inr fun c hc => ?_
      rw [hsettled]
      rw [hfinalPending, mem_append, mem_flatMap]
      refine .inr ⟨r, hr, ?_⟩
      rw [htaken, hinh]
      exact mem_append_left _ hc
  | false =>
    obtain ⟨hq, hfates⟩ := hruns.check (by rw [policy_defers, hdefers])
    have hpolicy : call.policy acc = .check (some acc) := by rw [policy, hdefers]; rfl
    have hpend : acc.pending = [] := by
      simp only [hpolicy] at hvalid
      obtain ⟨v, hclean, -⟩ := bind_eq_ok.1 hvalid
      exact (ensure_eq_ok.1 hclean).1
    have hsettled : acc' = { acc with batch := none } := by rw [hacc, hq, hpolicy]; rfl
    refine ⟨by rw [hsettled], rs, ⟨t, hrun⟩, ?_⟩
    rw [hdefers, if_neg Bool.false_ne_true]
    refine ⟨hpend, by rw [hsettled]; exact hpend, fun r hr => ⟨(hfates r hr).1, (hfates r hr).2.1⟩, fun batch hmem => ?_⟩
    obtain ⟨r, hr, hlevel⟩ := htargets batch hmem
    refine ⟨r, hr, hlevel, (hfates r hr).2.2 _ (SetupPolicy.inherited_of_batch ?_)⟩
    rw [policy_batch, hlevel]
    exact hmem

/-- **Every call settles its obligations.** -/
theorem settles (call : Call E Q) (acc : SetupClaimAccumulator E Q A) : call.Settles acc (call.run acc).1 (call.run acc).2 := by
  have hgrow := moves_verifyOnState (A := A) call.statement ⟨call.𝔳.newVerifierChannel call.session call.proof, call.policy acc⟩
  unfold stateAfter at hgrow
  simp only [run, batchedVerify]
  cases hrun : (verifyOnState call.𝔳 call.statement).run ⟨call.𝔳.newVerifierChannel call.session call.proof, call.policy acc⟩ with
  | error e s =>
    rw [hrun] at hgrow
    exact call.settles_error acc hgrow rfl
  | ok u s =>
    rw [hrun] at hgrow
    simp only
    cases heof : call.𝔳.checkEof s.channel with
    | error e => exact call.settles_error acc hgrow rfl
    | ok v => exact call.settles_ok acc hrun rfl

/-- A claim of the inherited batch that an accepted call decided, or reduced in Stage 3 of its target. -/
def Discharges (call : Call E Q) (acc : SetupClaimAccumulator E Q A) (claim : SetupClaim E Q) : Prop :=
  (call.run acc).1 = .ok () ∧ ∃ rs, call.Folds acc rs ∧ ∃ batch ∈ acc.batch, claim ∈ batch.2.claims ∧
    ∃ r ∈ rs, r.level = batch.1 ∧ (r.Offloads batch.2 ∨ r.Decides batch.2)

/-- An unresolved claim stays unresolved or is discharged. -/
theorem conserves (call : Call E Q) (acc : SetupClaimAccumulator E Q A) {claim : SetupClaim E Q}
    (hclaim : claim ∈ acc.intoPending) : claim ∈ (call.run acc).2.intoPending ∨ call.Discharges acc claim := by
  have hsettles := call.settles acc
  have hmem : ∀ acc : SetupClaimAccumulator E Q A, claim ∈ acc.intoPending ↔
      claim ∈ acc.pending ∨ ∃ batch ∈ acc.batch, claim ∈ batch.2.claims := by
    intro acc
    rw [SetupClaimAccumulator.intoPending]
    rcases acc.batch with _ | ⟨level, batch⟩ <;> simp
  rw [hmem] at hclaim ⊢
  cases hresult : (call.run acc).1 with
  | error e =>
    rw [hresult] at hsettles
    obtain ⟨hbatch, hpend⟩ := hsettles
    rw [hbatch, hpend]
    exact .inl hclaim
  | ok u =>
    rw [hresult] at hsettles
    obtain ⟨hbatch, rs, hfolds, hsettles⟩ := hsettles
    split_ifs at hsettles with hdefers
    · obtain ⟨hpend, -, hfate⟩ := hsettles
      rcases hclaim with hclaim | ⟨batch, hmem, hclaim⟩
      · exact .inl (.inl (by rw [hpend]; exact mem_append_left _ hclaim))
      · obtain ⟨r, hr, hlevel, hoff | hall⟩ := hfate batch hmem
        · exact .inr ⟨hresult, rs, hfolds, batch, hmem, hclaim, r, hr, hlevel, .inl hoff⟩
        · exact .inl (.inl (hall claim hclaim))
    · obtain ⟨hpend, -, -, hfate⟩ := hsettles
      rcases hclaim with hclaim | ⟨batch, hmem, hclaim⟩
      · rw [hpend] at hclaim
        cases hclaim
      · obtain ⟨r, hr, hlevel, hdone⟩ := hfate batch hmem
        exact .inr ⟨hresult, rs, hfolds, batch, hmem, hclaim, r, hr, hlevel, hdone⟩

end Call

end Akita.SetupClaims
