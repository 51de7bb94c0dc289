import Akita.Spec.Replay
import Akita.Proof.Grinding
import Akita.Proof.Poison

/-!
# Replay accepts exactly the plan

A call on either side that succeeds takes the requests it makes off the front of the plan
(`Steps`); a call that fails marks the replay as failed, and on the verifier's side rejects
the channel. Over a sequence of calls `finish` therefore succeeds exactly when no call
failed and the requests of the calls are the requests of the plan.
-/

namespace Akita.Grinding

open Lib Transcript List ReplayCall GrindingPlanCursor
open EStateM.Result (ok.inj)

variable {𝔱 : TranscriptBackend} {𝔴 : WorkBackend 𝔱} {𝔭 : Pricing}
  {kind : GrindingQueryKind} {g : VerifierGrinding 𝔱 𝔭}

/-! ## Expanded runs -/

theorem GrindingRun.Checked.requests_eq {r : GrindingRun} (h : r.Checked 𝔭) :
    r.requests = [⟨r.site, r.kind, r.multiplicity.toNat⟩] ∧ (r.kind ≠ .foldChallengeGroup → r.multiplicity = 1) := by
  unfold GrindingRun.requests
  cases hk : r.kind with
  | proofOfWork => simp [(h.work (Or.inl hk)).2.1]
  | foldResponse => simp [(h.response hk).2.2.2]
  | foldChallengeGroup => simp
  | foldChallengeWork => simp [(h.work (Or.inr hk)).2.1]

namespace GrindingPlanCursor

variable {c : GrindingPlanCursor 𝔭}

/-- The cursor stands at the start of a run of a validated plan. -/
structure Aligned (c : GrindingPlanCursor 𝔭) : Prop where
  checked : ∀ r ∈ c.plan.runs, r.Checked 𝔭
  offset : c.runOffset = 0
  index : c.runIndex ≤ c.plan.runs.length

/-- The requests of the runs from the cursor on. -/
def rest (c : GrindingPlanCursor 𝔭) : List Request := (c.plan.runs.drop c.runIndex).flatMap GrindingRun.requests

theorem aligned_new {plan : GrindingPlan 𝔭} (h : plan.Valid) : (new plan).Aligned :=
  ⟨h.checked, rfl, Nat.zero_le _⟩

theorem Aligned.pass (h : c.Aligned) {run : GrindingRun} (hrun : c.plan.runs[c.runIndex]? = some run) :
    ({ c with runIndex := c.runIndex + 1 } : GrindingPlanCursor 𝔭).Aligned ∧
      c.rest = ⟨run.site, run.kind, run.multiplicity.toNat⟩ ::
        ({ c with runIndex := c.runIndex + 1 } : GrindingPlanCursor 𝔭).rest := by
  obtain ⟨hlt, hget⟩ := List.getElem?_eq_some_iff.1 hrun
  have hc : run.Checked 𝔭 := h.checked run (hget ▸ List.getElem_mem hlt)
  refine ⟨⟨h.checked, h.offset, hlt⟩, ?_⟩
  unfold rest
  rw [List.drop_eq_getElem_cons hlt, hget, List.flatMap_cons, hc.requests_eq.1, List.singleton_append]

theorem Aligned.isFinished (h : c.Aligned) : c.isFinished = true ↔ c.rest = [] := by
  have hne : ∀ r ∈ c.plan.runs.drop c.runIndex, r.requests ≠ [] := by
    intro r hr
    rw [(h.checked r (mem_of_mem_drop hr)).requests_eq.1]
    simp
  simp only [GrindingPlanCursor.isFinished, h.offset, beq_self_eq_true, Bool.and_true, beq_iff_eq, rest,
    flatMap_eq_nil_iff]
  constructor
  · intro hi
    simp [hi]
  · intro hnil
    have hdrop : c.plan.runs.drop c.runIndex = [] :=
      eq_nil_iff_forall_not_mem.2 fun r hr => hne r hr (hnil r hr)
    exact le_antisymm h.index (drop_eq_nil_iff.1 hdrop)

theorem takes_nextEntry (site : GrindingSite) (hkind : kind ≠ .foldChallengeGroup) :
    Takes (Aligned (𝔭 := 𝔭)) rest [⟨site, kind, 1⟩] (nextEntry site kind) := by
  intro c entry c' h hc
  unfold nextEntry at h
  simp only [run_bind_ok, EStateM.run_modifyGet, EStateM.Result.ok.injEq, run_ofResult_ok, okOr_eq_ok] at h
  obtain ⟨o, c1, ⟨ho, hc1⟩, e, _, ⟨rfl, rfl⟩, h⟩ := h
  split at h
  · simp at h
  rename_i hsite
  obtain ⟨rfl, rfl⟩ : e = entry ∧ c1 = c' := by simpa using h
  simp only [not_or, not_not] at hsite
  unfold next at ho hc1
  cases hrun : c.plan.runs[c.runIndex]? with
  | none => simp [hrun] at ho
  | some run =>
    obtain ⟨hal, hrest⟩ := hc.pass hrun
    have hsite' : run.site = site := by
      rw [hrun] at ho
      dsimp only at ho
      split at ho <;> exact (congrArg GrindingPlanEntry.site (Option.some.inj ho)).trans hsite.1
    have hk : run.kind = kind := by rw [GrindingRun.kind, hsite', hsite.2]
    obtain ⟨hlt, hget⟩ := List.getElem?_eq_some_iff.1 hrun
    have hmult := (hc.checked run (hget ▸ List.getElem_mem hlt)).requests_eq.2 (hk ▸ hkind)
    have hc' : c1 = { c with runIndex := c.runIndex + 1 } := by
      rw [hrun] at hc1
      dsimp only at hc1
      rw [hc.offset, hmult, if_pos (by decide)] at hc1
      rw [← hc1, hc.offset]
    rw [hc', hrest, hk, hsite', hmult]
    exact ⟨hal, rfl⟩

theorem takes_consumeRun (level group : UInt32) (n : ℕ) :
    Takes (Aligned (𝔭 := 𝔭)) rest [⟨.foldChallengeGroup level group, .foldChallengeGroup, n⟩]
      (consumeRun (.foldChallengeGroup level group) n) := by
  intro c u c' h hc
  obtain ⟨_, _, hget, h⟩ := run_bind_ok.1 h
  cases hget
  obtain ⟨run, _, hrun, h⟩ := run_bind_ok.1 h
  simp only [run_ofResult_ok, okOr_eq_ok] at hrun
  obtain ⟨hrun, rfl⟩ := hrun
  split at h
  · simp at h
  rename_i hmatch
  simp only [not_or, not_not] at hmatch
  obtain ⟨-, hsite, -, -, hmult⟩ := hmatch
  obtain ⟨index, _, hindex, h⟩ := run_bind_ok.1 h
  simp only [run_ofResult_ok, okOr_eq_ok, checkedAdd_eq_some] at hindex
  obtain ⟨⟨-, rfl⟩, rfl⟩ := hindex
  obtain ⟨-, rfl⟩ := ok.inj h
  obtain ⟨hal, hrest⟩ := hc.pass hrun
  rw [hrest, GrindingRun.kind, hsite, hmult]
  exact ⟨hal, rfl⟩

end GrindingPlanCursor

/-! ## Steps of a replay -/

theorem keeps_ofResult {σ α : Type} {P : σ → Prop} (r : Result α) : Keeps P (ofResult r : Chan σ α) := by
  intro g a g' hr hg
  obtain ⟨-, rfl⟩ := run_ofResult_ok.1 hr
  exact hg

section

variable {G α β : Type} {invalid : G → Bool} {cursor : G → GrindingPlanCursor 𝔭} {taken taken' : List Request}
  {m x : EStateM AkitaError G α} {f : α → EStateM AkitaError G β} {site : GrindingSite}

/-- A success leaves the failure mark as it was and takes `taken` off the front of the plan. -/
def Steps (invalid : G → Bool) (cursor : G → GrindingPlanCursor 𝔭) (taken : List Request)
    (m : EStateM AkitaError G α) : Prop :=
  ∀ g a g', m.run g = .ok a g' → invalid g' = invalid g ∧
    ((cursor g).Aligned → (cursor g').Aligned ∧ (cursor g).rest = taken ++ (cursor g').rest)

/-- An operation that touches neither the mark nor the cursor. -/
theorem Steps.of_frame (h : ∀ g a g', m.run g = .ok a g' → invalid g' = invalid g ∧ cursor g' = cursor g) :
    Steps invalid cursor [] m := by
  intro g a g' hr
  obtain ⟨h1, h2⟩ := h g a g' hr
  exact ⟨h1, fun hal => by rw [h2]; exact ⟨hal, rfl⟩⟩

theorem Steps.pure (a : α) : Steps invalid cursor [] (Pure.pure a : EStateM AkitaError G α) := by
  refine Steps.of_frame fun g b g' h => ?_
  obtain ⟨-, rfl⟩ : a = b ∧ g = g' := by simpa using h
  exact ⟨rfl, rfl⟩

theorem Steps.ofResult (r : Result α) : Steps invalid cursor [] (Transcript.ofResult r : EStateM AkitaError G α) := by
  refine Steps.of_frame fun g b g' h => ?_
  obtain ⟨-, rfl⟩ := run_ofResult_ok.1 h
  exact ⟨rfl, rfl⟩

theorem Steps.get : Steps invalid cursor [] (MonadState.get : EStateM AkitaError G G) := by
  refine Steps.of_frame fun g b g' h => ?_
  obtain ⟨-, rfl⟩ := ok.inj h
  exact ⟨rfl, rfl⟩

/-- A failure takes nothing, so it may stand for any step. -/
theorem Steps.throw (e : AkitaError) : Steps invalid cursor taken (throw e : EStateM AkitaError G α) := by
  intro g a g' h
  simp at h

theorem Steps.bind (hx : Steps invalid cursor taken x) (hf : ∀ a, Steps invalid cursor taken' (f a)) :
    Steps invalid cursor (taken ++ taken') (x >>= f) := by
  intro g b g' h
  obtain ⟨a, g1, h1, h2⟩ := run_bind_ok.1 h
  obtain ⟨hi1, hc1⟩ := hx g a g1 h1
  obtain ⟨hi2, hc2⟩ := hf a g1 b g' h2
  refine ⟨hi2.trans hi1, fun hal => ?_⟩
  obtain ⟨hal1, hr1⟩ := hc1 hal
  obtain ⟨hal2, hr2⟩ := hc2 hal1
  exact ⟨hal2, by rw [hr1, hr2, append_assoc]⟩

theorem Steps.before (hx : Steps invalid cursor [] x) (hf : ∀ a, Steps invalid cursor taken (f a)) :
    Steps invalid cursor taken (x >>= f) := hx.bind hf

theorem Steps.after (hx : Steps invalid cursor taken x) (hf : ∀ a, Steps invalid cursor [] (f a)) :
    Steps invalid cursor taken (x >>= f) := by
  simpa using hx.bind hf

section

variable (h : Steps invalid cursor taken m)

include h

theorem Steps.onError {f : G → G} : Steps invalid cursor taken (onError m f) :=
  fun g a g' hr => h g a g' (run_onError_ok.1 hr)

theorem Steps.keeps : Keeps (fun g => invalid g = true) m :=
  fun g a g' hr hg => (h g a g' hr).1.trans hg

theorem Steps.takes :
    Takes (fun g => (cursor g).Aligned ∧ invalid g = false) (fun g => (cursor g).rest) taken m := by
  rintro g a g' hr ⟨hal, hi⟩
  obtain ⟨h1, h2⟩ := h g a g' hr
  exact ⟨⟨(h2 hal).1, h1.trans hi⟩, (h2 hal).2⟩

end

theorem Steps.grindedExtChallenges {S E : Type} [ProofChannel S] {r : GrindingReplay G S}
    (hquery : Steps invalid cursor taken (r.grindQuery site))
    (hstate : ∀ m : Chan S (List E), Steps invalid cursor [] (r.onState m)) (codec : ChallengeCodec E) (n : ℕ) :
    Steps invalid cursor taken (r.grindedExtChallenges codec site n) :=
  hquery.after fun _ => (hstate _).onError

theorem Steps.grindedExtChallenge {S E : Type} [ProofChannel S] {r : GrindingReplay G S}
    (hquery : Steps invalid cursor taken (r.grindQuery site))
    (hstate : ∀ m : Chan S (List E), Steps invalid cursor [] (r.onState m)) (codec : ChallengeCodec E) :
    Steps invalid cursor taken (r.grindedExtChallenge codec site) :=
  (Steps.grindedExtChallenges hquery hstate codec 1).after fun _ => (Steps.ofResult _).onError

theorem Steps.consumeRun {onCursor : EStateM AkitaError (GrindingPlanCursor 𝔭) Unit → EStateM AkitaError G Unit}
    (hcursor : ∀ taken m, Takes GrindingPlanCursor.Aligned GrindingPlanCursor.rest taken m →
      Steps invalid cursor taken (onCursor m)) (level group : UInt32) (n : ℕ) (e : AkitaError) :
    Steps invalid cursor [⟨.foldChallengeGroup level group, .foldChallengeGroup, n + 1⟩] (do
      let multiplicity ← Transcript.ofResult (okOr (checkedAdd usizeBits n 1) e)
      onCursor (consumeRun (.foldChallengeGroup level group) multiplicity)) := by
  intro g a g' h
  obtain ⟨m, g1, h1, h2⟩ := run_bind_ok.1 h
  simp only [run_ofResult_ok, okOr_eq_ok, checkedAdd_eq_some] at h1
  obtain ⟨⟨-, rfl⟩, rfl⟩ := h1
  exact hcursor _ _ (takes_consumeRun level group (n + 1)) g a g' h2

end

namespace ProverGrinding

/-- What a part of the prover's replay takes. -/
abbrev Steps {α : Type} (taken : List Request) (m : Op 𝔱 𝔭 α) : Prop :=
  Grinding.Steps ProverGrinding.invalid ProverGrinding.cursor taken m

theorem steps_onState {α : Type} (m : Chan 𝔱.Prover α) : Steps (𝔭 := 𝔭) [] (onState m) := by
  refine Steps.of_frame fun g a g' h => ?_
  obtain ⟨s, -, rfl⟩ := run_zoom_ok.1 h
  exact ⟨rfl, rfl⟩

theorem steps_onCursor {α : Type} (taken : List Request) (m : EStateM AkitaError (GrindingPlanCursor 𝔭) α)
    (h : Takes GrindingPlanCursor.Aligned GrindingPlanCursor.rest taken m) :
    Steps (𝔱 := 𝔱) taken (onCursor m) := by
  intro g a g' hr
  obtain ⟨c, hc, rfl⟩ := run_zoom_ok.1 hr
  exact ⟨rfl, fun hal => h _ a c hc hal⟩

theorem steps_addNonceBytes (bytes : ℕ) (e : AkitaError) : Steps (𝔱 := 𝔱) (𝔭 := 𝔭) [] (addNonceBytes bytes e) := by
  refine Steps.get.before fun g => (Steps.ofResult _).before fun total => Steps.of_frame fun g a g' h => ?_
  obtain ⟨-, rfl⟩ := ok.inj h
  exact ⟨rfl, rfl⟩

theorem steps_proofOfWork (site : GrindingSite) (hkind : kind ≠ .foldChallengeGroup)
    (work : UInt32 → Chan 𝔱.Prover Unit) : Steps (𝔭 := 𝔭) [⟨site, kind, 1⟩] (proofOfWork site kind work) := by
  refine (steps_onCursor _ _ (takes_nextEntry site hkind)).after fun entry => (Steps.ofResult _).before fun bits => ?_
  split
  · exact Steps.pure ()
  · exact Steps.get.before fun _ => (steps_onState _).before fun _ => Steps.get.before fun _ =>
      steps_addNonceBytes _ _

theorem steps_commitFoldResponseInner (site : GrindingSite) (work : FoldWork 𝔴) :
    Steps (𝔭 := 𝔭) [⟨site, .foldResponse, 1⟩, ⟨.foldChallengeWork site.level, .foldChallengeWork, 1⟩]
      (commitFoldResponseInner site work) := by
  refine (steps_onCursor _ _ (takes_nextEntry site (by simp))).bind fun entry => ?_
  split
  · exact Steps.throw _
  · exact (steps_onState _).before fun _ => (steps_addNonceBytes _ _).before fun _ =>
      steps_proofOfWork _ (by simp) _

/-- **What a prover's call takes.** -/
theorem steps_proverRun (c : ReplayCall (FoldWork 𝔴) (𝔱.Prover → 𝔱.Prover)) :
    Steps c.requests (c.proverRun 𝔴 : Op 𝔱 𝔭 Unit) := by
  have hquery : ∀ site, Steps [⟨site, .proofOfWork, 1⟩] (grindQuery 𝔴 site : Op 𝔱 𝔭 Unit) :=
    fun site => (steps_proofOfWork site (by simp) _).onError
  cases c with
  | grindQuery site => exact hquery site
  | grindedExtChallenges site E codec count =>
    exact (Steps.grindedExtChallenges (hquery site) (fun m => steps_onState m) codec count).after fun _ =>
      Steps.pure ()
  | grindedExtChallenge site E codec =>
    exact (Steps.grindedExtChallenge (hquery site) (fun m => steps_onState m) codec).after fun _ => Steps.pure ()
  | foldResponse site work => exact (steps_commitFoldResponseInner site work).onError
  | recordFoldChallenges level group n =>
    exact (Steps.consumeRun (fun taken m => steps_onCursor taken m) level group n _).onError
  | channel f =>
    refine Steps.of_frame fun g a g' h => ?_
    obtain ⟨-, rfl⟩ := ok.inj h
    exact ⟨rfl, rfl⟩

/-- **A failed prover's call is remembered.** -/
theorem traps_proverRun (c : ReplayCall (FoldWork 𝔴) (𝔱.Prover → 𝔱.Prover)) :
    Traps (fun g => g.invalid = true) (c.proverRun 𝔴 : Op 𝔱 𝔭 Unit) := by
  have hpoison : ∀ g : ProverGrinding 𝔱 𝔭, g.poison.invalid = true := fun _ => rfl
  have hquery : ∀ site, Traps (fun g => g.invalid = true) (grindQuery 𝔴 site : Op 𝔱 𝔭 Unit) :=
    fun site => Traps.onError (steps_proofOfWork site (by simp) _).keeps hpoison
  have hmany : ∀ site {E : Type} (codec : ChallengeCodec E) n,
      Traps (fun g => g.invalid = true) ((replay 𝔴).grindedExtChallenges codec site n : Op 𝔱 𝔭 (List E)) :=
    fun site _ codec n => (hquery site).bind fun _ => Traps.onError (steps_onState _).keeps hpoison
  cases c with
  | grindQuery site => exact hquery site
  | grindedExtChallenges site E codec count => exact (hmany site codec count).bind fun _ => Traps.pure ()
  | grindedExtChallenge site E codec =>
    exact ((hmany site codec 1).bind fun _ => Traps.onError (keeps_ofResult _) hpoison).bind fun _ =>
      Traps.pure ()
  | foldResponse site work => exact Traps.onError (steps_commitFoldResponseInner site work).keeps hpoison
  | recordFoldChallenges level group n =>
    exact Traps.onError (Steps.consumeRun (fun taken m => steps_onCursor taken m) level group n _).keeps hpoison
  | channel f =>
    intro g
    refine ⟨fun a g' h hg => ?_, fun e g' h => by simp [ReplayCall.proverRun] at h⟩
    obtain ⟨-, rfl⟩ := ok.inj h
    exact hg

theorem finish_ok {g : ProverGrinding 𝔱 𝔭} : g.finish = .ok () ↔ g.invalid = false ∧ g.cursor.isFinished = true := by
  unfold finish
  simp only [result_ok, Bool.not_eq_true']

end ProverGrinding

namespace VerifierGrinding

/-- What a part of the verifier's replay takes. -/
abbrev Steps {α : Type} (taken : List Request) (m : Op 𝔱 𝔭 α) : Prop :=
  Grinding.Steps VerifierGrinding.invalid VerifierGrinding.cursor taken m

variable {α : Type}

theorem steps_onState (m : Chan 𝔱.Verifier α) : Steps (𝔭 := 𝔭) [] (onState m) := by
  refine Steps.of_frame fun g a g' h => ?_
  obtain ⟨s, -, rfl⟩ := run_zoom_ok.1 h
  exact ⟨rfl, rfl⟩

theorem steps_onCursor (taken : List Request) (m : EStateM AkitaError (GrindingPlanCursor 𝔭) α)
    (h : Takes GrindingPlanCursor.Aligned GrindingPlanCursor.rest taken m) :
    Steps (𝔱 := 𝔱) taken (onCursor m) := by
  intro g a g' hr
  obtain ⟨c, hc, rfl⟩ := run_zoom_ok.1 hr
  exact ⟨rfl, fun hal => h _ a c hc hal⟩

theorem steps_grindQueryInner (site : GrindingSite) (hkind : kind ≠ .foldChallengeGroup) :
    Steps (𝔭 := 𝔭) [⟨site, kind, 1⟩] (grindQueryInner 𝔴 site kind) := by
  refine (steps_onCursor _ _ (takes_nextEntry site hkind)).after fun entry =>
    (Steps.ofResult _).before fun bits => ?_
  split
  · exact Steps.pure ()
  · exact steps_onState _

theorem steps_readFoldResponseInner (site : GrindingSite) :
    Steps (𝔭 := 𝔭) [⟨site, .foldResponse, 1⟩, ⟨.foldChallengeWork site.level, .foldChallengeWork, 1⟩]
      (readFoldResponseInner 𝔴 site) := by
  refine (steps_onCursor _ _ (takes_nextEntry site (by simp))).bind fun entry =>
    (steps_onState _).before fun counter => ?_
  split
  · exact Steps.throw _
  · exact (steps_grindQueryInner _ (by simp)).after fun _ => Steps.pure _

section

variable {F E T D : Type} [CanonicalEncoding F] [ExtField F E] [ProofAtom T] [Zero E] {codec : ChallengeCodec E}

/-- **What a verifier's call takes.** -/
theorem steps_verifierRun (c : ReplayCall Unit (VerifierCall F E T D)) :
    Steps c.requests (c.verifierRun 𝔴 codec : Op 𝔱 𝔭 Unit) := by
  have hquery : ∀ site, Steps [⟨site, .proofOfWork, 1⟩] (grindQuery 𝔴 site : Op 𝔱 𝔭 Unit) :=
    fun site => (steps_grindQueryInner site (by simp)).onError
  cases c with
  | grindQuery site => exact hquery site
  | grindedExtChallenges site E codec count =>
    exact (Steps.grindedExtChallenges (hquery site) (fun m => steps_onState m) codec count).after fun _ =>
      Steps.pure ()
  | grindedExtChallenge site E codec =>
    exact (Steps.grindedExtChallenge (hquery site) (fun m => steps_onState m) codec).after fun _ => Steps.pure ()
  | foldResponse site work => exact (steps_readFoldResponseInner site).onError.after fun _ => Steps.pure ()
  | recordFoldChallenges level group n =>
    exact (Steps.consumeRun (fun taken m => steps_onCursor taken m) level group n _).onError
  | channel c =>
    refine Steps.of_frame fun g a g' h => ?_
    obtain ⟨-, rfl⟩ := ok.inj h
    exact ⟨rfl, rfl⟩

/-- The replay is marked as failed and its channel is poisoned. -/
def Rejected (g : VerifierGrinding 𝔱 𝔭) : Prop := g.invalid = true ∧ 𝔱.poisoned g.state

/-- A part keeps a rejected replay rejected when it leaves the mark and keeps poison. -/
theorem keeps_rejected {taken : List Request} {m : Op 𝔱 𝔭 α} (hs : Steps taken m)
    (hp : Keeps (fun g => 𝔱.poisoned g.state) m) : Keeps Rejected m :=
  fun g a g' hr hg => ⟨hs.keeps g a g' hr hg.1, hp g a g' hr hg.2⟩

theorem keeps_onState {m : Chan 𝔱.Verifier α} (h : Keeps 𝔱.poisoned m) :
    Keeps (fun g : VerifierGrinding 𝔱 𝔭 => 𝔱.poisoned g.state) (onState m) := by
  intro g a g' hr hg
  obtain ⟨v, hv, rfl⟩ := run_zoom_ok.1 hr
  exact h _ a v hv hg

theorem keeps_onCursor (m : EStateM AkitaError (GrindingPlanCursor 𝔭) α) :
    Keeps (fun g : VerifierGrinding 𝔱 𝔭 => 𝔱.poisoned g.state) (onCursor m) := by
  intro g a g' hr hg
  obtain ⟨c, -, rfl⟩ := run_zoom_ok.1 hr
  exact hg

theorem rejected_poison (h𝔱 : 𝔱.Lawful) (g : VerifierGrinding 𝔱 𝔭) : g.poison.Rejected :=
  ⟨rfl, (h𝔱.check_poisoned g.state false).2 (Or.inr rfl)⟩

theorem keeps_grindQueryInner (h𝔴 : 𝔴.Lawful) (site : GrindingSite) (kind : GrindingQueryKind) :
    Keeps (fun g : VerifierGrinding 𝔱 𝔭 => 𝔱.poisoned g.state) (grindQueryInner 𝔴 site kind) := by
  refine (keeps_onCursor _).bind fun entry => (keeps_ofResult _).bind fun bits => ?_
  split
  · exact (Traps.pure ()).keeps
  · refine keeps_onState fun v a v' h hv => ?_
    have hp := h𝔴.checkGrind v bits hv
    simp only [liftBool, EStateM.run] at h
    split at h
    · rename_i hx
      obtain ⟨-, rfl⟩ := ok.inj h
      rwa [hx] at hp
    · simp at h

/-- **A failed verifier's call rejects the replay and its channel for good.** -/
theorem traps_verifierRun (h𝔱 : 𝔱.Lawful) (h𝔴 : 𝔴.Lawful) (c : ReplayCall Unit (VerifierCall F E T D)) :
    Traps Rejected (c.verifierRun 𝔴 codec : Op 𝔱 𝔭 Unit) := by
  have hpoison : ∀ g : VerifierGrinding 𝔱 𝔭, g.poison.Rejected := rejected_poison h𝔱
  have hquery : ∀ site, Traps Rejected (grindQuery 𝔴 site : Op 𝔱 𝔭 Unit) := fun site =>
    Traps.onError (keeps_rejected (steps_grindQueryInner site (by simp)) (keeps_grindQueryInner h𝔴 _ _)) hpoison
  have hmany : ∀ site {E : Type} (codec : ChallengeCodec E) n,
      Traps Rejected ((replay 𝔴).grindedExtChallenges codec site n : Op 𝔱 𝔭 (List E)) := fun site _ codec n =>
    (hquery site).bind fun _ => Traps.onError
      (keeps_rejected (steps_onState _) (keeps_onState (traps_extChallenges h𝔱 _ n).keeps)) hpoison
  cases c with
  | grindQuery site => exact hquery site
  | grindedExtChallenges site E codec count => exact (hmany site codec count).bind fun _ => Traps.pure ()
  | grindedExtChallenge site E codec =>
    exact ((hmany site codec 1).bind fun _ => Traps.onError (keeps_ofResult _) hpoison).bind fun _ => Traps.pure ()
  | foldResponse site work =>
    refine (Traps.onError (keeps_rejected (steps_readFoldResponseInner site) ?_) hpoison).bind fun _ => Traps.pure ()
    refine (keeps_onCursor _).bind fun entry =>
      (keeps_onState (traps_messageWith h𝔱 _ _).keeps).bind fun counter => ?_
    split
    · exact fun g a g' h => by simp at h
    · exact (keeps_grindQueryInner h𝔴 _ _).bind fun _ => (Traps.pure _).keeps
  | recordFoldChallenges level group n =>
    refine Traps.onError (keeps_rejected
      (Steps.consumeRun (fun taken m => steps_onCursor taken m) level group n _) ?_) hpoison
    exact (keeps_ofResult _).bind fun _ => keeps_onCursor _
  | channel c =>
    intro g
    refine ⟨fun a g' h hg => ?_, fun e g' h => by simp [ReplayCall.verifierRun] at h⟩
    obtain ⟨-, rfl⟩ := ok.inj h
    exact ⟨hg.1, (traps_call h𝔱 c).stateAfter hg.2⟩

end

theorem run_finish_ok {g' : VerifierGrinding 𝔱 𝔭} :
    finish.run g = .ok () g' ↔ (g.invalid = false ∧ g.cursor.isFinished = true) ∧ g = g' := by
  unfold finish
  rw [run_bind_ok]
  constructor
  · rintro ⟨_, _, hget, h⟩
    cases hget
    split at h
    · simp [EStateM.run_bind] at h
    · rename_i hc
      obtain ⟨-, rfl⟩ := ok.inj h
      exact ⟨by simpa using hc, rfl⟩
  · rintro ⟨⟨hi, hf⟩, rfl⟩
    exact ⟨g, g, rfl, by simp [hi, hf]⟩

theorem run_finish_rejected (h𝔱 : 𝔱.Lawful) (h : g.Rejected) :
    ∃ g', finish.run g = .error .invalidProof g' ∧ g'.Rejected := by
  refine ⟨g.poison, ?_, rejected_poison h𝔱 g⟩
  simp only [finish, EStateM.run_bind, EStateM.run_get, h.1, Bool.true_or, if_true]
  rfl

end VerifierGrinding

/-! ## Whole replays -/

section

variable {F E T D : Type} [CanonicalEncoding F] [ExtField F E] [ProofAtom T] [Zero E] {plan : GrindingPlan 𝔭}

theorem prover_finish (hplan : plan.Valid) (s : 𝔱.Prover) (calls : List (ReplayCall (FoldWork 𝔴) (𝔱.Prover → 𝔱.Prover))) :
    (runAll (calls.map (proverRun 𝔴)) (ProverGrinding.new s plan)).finish = .ok () ↔
      AllOk (calls.map (proverRun 𝔴)) (ProverGrinding.new s plan) ∧
        calls.flatMap requests = plan.requests := by
  have hrun := Takes.runAll (fun (g : ProverGrinding 𝔱 𝔭) h => by simp [h.2]) (proverRun 𝔴)
    requests ProverGrinding.traps_proverRun (fun c => (ProverGrinding.steps_proverRun c).takes) calls
    (ProverGrinding.new s plan) ⟨aligned_new hplan, rfl⟩
  obtain ⟨hok, hrest⟩ := hrun
  rw [ProverGrinding.finish_ok]
  constructor
  · rintro ⟨hi, hf⟩
    have hall := hok.1 (by simp [hi])
    obtain ⟨⟨hal, -⟩, hr⟩ := hrest hall
    rw [hal.isFinished.1 hf, append_nil] at hr
    exact ⟨hall, hr.symm⟩
  · rintro ⟨hall, hreq⟩
    obtain ⟨⟨hal, hi⟩, hr⟩ := hrest hall
    refine ⟨hi, hal.isFinished.2 ?_⟩
    rw [hreq] at hr
    exact self_eq_append_right.1 hr

theorem verifier_finish (h𝔱 : 𝔱.Lawful) (h𝔴 : 𝔴.Lawful) (codec : ChallengeCodec E) (hplan : plan.Valid) (v : 𝔱.Verifier)
    (calls : List (ReplayCall Unit (VerifierCall F E T D))) : (∃ g, VerifierGrinding.finish.run
        (runAll (calls.map (verifierRun 𝔴 codec)) (VerifierGrinding.new v plan)) = .ok () g) ↔
      AllOk (calls.map (verifierRun 𝔴 codec)) (VerifierGrinding.new v plan) ∧
        calls.flatMap requests = plan.requests := by
  have hrun := Takes.runAll (fun (g : VerifierGrinding 𝔱 𝔭) h => by simp [VerifierGrinding.Rejected, h.2])
    (verifierRun 𝔴 codec) requests (VerifierGrinding.traps_verifierRun h𝔱 h𝔴)
    (fun c => (VerifierGrinding.steps_verifierRun c).takes) calls (VerifierGrinding.new v plan)
    ⟨aligned_new hplan, rfl⟩
  obtain ⟨hok, hrest⟩ := hrun
  simp only [VerifierGrinding.run_finish_ok]
  constructor
  · rintro ⟨_, ⟨hi, hf⟩, -⟩
    have hall := hok.1 fun hrej => by simp [hrej.1] at hi
    obtain ⟨⟨hal, -⟩, hr⟩ := hrest hall
    rw [hal.isFinished.1 hf, append_nil] at hr
    exact ⟨hall, hr.symm⟩
  · rintro ⟨hall, hreq⟩
    obtain ⟨⟨hal, hi⟩, hr⟩ := hrest hall
    refine ⟨_, ⟨hi, hal.isFinished.2 ?_⟩, rfl⟩
    rw [hreq] at hr
    exact self_eq_append_right.1 hr

/-- **Replay accepts exactly the plan.** On either side `finish` succeeds after a sequence of calls
if and only if none of them failed and together they asked for the plan's expanded runs in
order. On the verifier's side a failed call is final: whatever calls follow, `finish` fails, and
the end of the argument string does not check, before or after it. -/
theorem replay_accepts_plan (h𝔱 : 𝔱.Lawful) (h𝔴 : 𝔴.Lawful) (codec : ChallengeCodec E) (plan : GrindingPlan 𝔭)
    (hplan : plan.Valid) :
    (∀ (s : 𝔱.Prover) (calls : List (ReplayCall (FoldWork 𝔴) (𝔱.Prover → 𝔱.Prover))),
      (runAll (calls.map (proverRun 𝔴)) (ProverGrinding.new s plan)).finish = .ok () ↔
        AllOk (calls.map (proverRun 𝔴)) (ProverGrinding.new s plan) ∧
          calls.flatMap requests = plan.requests) ∧
    (∀ (v : 𝔱.Verifier) (calls : List (ReplayCall Unit (VerifierCall F E T D))),
      (∃ g, VerifierGrinding.finish.run
          (runAll (calls.map (verifierRun 𝔴 codec)) (VerifierGrinding.new v plan)) = .ok () g) ↔
        AllOk (calls.map (verifierRun 𝔴 codec)) (VerifierGrinding.new v plan) ∧
          calls.flatMap requests = plan.requests) ∧
    (∀ (v : 𝔱.Verifier) (before after : List (ReplayCall Unit (VerifierCall F E T D)))
      (c : ReplayCall Unit (VerifierCall F E T D)) (more : List (VerifierCall F E T D)) (e : AkitaError)
      (g : VerifierGrinding 𝔱 𝔭),
      (c.verifierRun 𝔴 codec).run
          (runAll (before.map (verifierRun 𝔴 codec)) (VerifierGrinding.new v plan)) = .error e g →
      let last := runAll (after.map (verifierRun 𝔴 codec)) g
      𝔱.checkEof (runAll (more.map (VerifierCall.run codec)) last.state) = false ∧
        ∃ g', VerifierGrinding.finish.run last = .error .invalidProof g' ∧
          𝔱.checkEof (runAll (more.map (VerifierCall.run codec)) g'.state) = false) := by
  refine ⟨fun s calls => prover_finish hplan s calls, fun v calls => verifier_finish h𝔱 h𝔴 codec hplan v calls, ?_⟩
  intro v before after c more e g hfail last
  have hg : g.Rejected := (VerifierGrinding.traps_verifierRun h𝔱 h𝔴 c _).2 e g hfail
  have hlast : last.Rejected := by
    refine Traps.runAll _ g (fun m hm => ?_) hg
    obtain ⟨c', -, rfl⟩ := mem_map.1 hm
    exact VerifierGrinding.traps_verifierRun h𝔱 h𝔴 c'
  obtain ⟨g', hfin, hg'⟩ := VerifierGrinding.run_finish_rejected h𝔱 hlast
  exact ⟨checkEof_of_poisoned h𝔱 codec hlast.2 more, g', hfin, checkEof_of_poisoned h𝔱 codec hg'.2 more⟩

end

/-! ## A replay of one plan -/

/-- Proof of work over the plain states. Its sponge squeezes zeros, so the least nonce is zero. -/
def plainWork : WorkBackend plainBackend where
  grind p _ := (true, ⟨p.argument ++ nonceWire 0, p.calls ++ [.absorb (nonceWord 0), .squeeze 8]⟩)
  checkGrind v bits :=
    if v.poisoned then (false, v)
    else match nonceFromNarg v.remaining with
      | some (nonce, rest) =>
        if nonce.toNat < 2 ^ (bits.toNat + 7) then
          (true, ⟨rest, v.calls ++ [.absorb (nonceWord nonce), .squeeze 8], false⟩)
        else (false, { v with poisoned := true })
      | none => (false, { v with poisoned := true })
  Sponge := List SpongeCall
  sponge p := p.calls
  setSponge p c := { p with calls := c }
  spongeFingerprint _ := List.replicate 32 0

theorem plainWork_lawful : plainWork.Lawful where
  checkGrind v bits hv := by
    have hv' : v.poisoned = true := hv
    simpa [plainWork, hv'] using hv

/-- The work of the sample plan's fold, found on a preview of an empty channel. -/
def sampleWork : FoldWork plainWork :=
  { nonce := 0, start := List.replicate 32 0, argument := nonceWire 0,
    sponge := [.absorb [], .absorb (nonceWord 0), .absorb (nonceWord 0), .squeeze 8] }

/-- The sample plan's calls, with one channel call in between. -/
def sampleCalls {W C : Type} (work : W) (c : C) : List (ReplayCall W C) :=
  [.foldResponse (.foldResponse 0) work, .recordFoldChallenges 0 0 4, .channel c,
    .grindQuery (.sumcheckRound .stage2 0 0 0)]

def sampleChannelCall : VerifierCall (ZMod 5) (ZMod 5) (FieldAtom (ZMod 5)) Unit := .op (.publicBytes {} [1])

theorem replay_accepts_samplePlan :
    (runAll ((sampleCalls sampleWork id).map (proverRun plainWork))
      (ProverGrinding.new (plainBackend.proverNew []) GrindingPlan.samplePlan)).finish = .ok () ∧
    (∃ g, VerifierGrinding.finish.run (runAll
      ((sampleCalls () sampleChannelCall).map (verifierRun plainWork emptyCodec))
      (VerifierGrinding.new (plainBackend.verifierNew [] [0, 0, 0]) GrindingPlan.samplePlan)) = .ok () g) ∧
    (∃ e g, (verifierRun plainWork emptyCodec (.grindQuery (.tau0Point 0) :
        ReplayCall Unit (VerifierCall (ZMod 5) (ZMod 5) (FieldAtom (ZMod 5)) Unit))).run
        (VerifierGrinding.new (plainBackend.verifierNew [] [0, 0, 0]) GrindingPlan.samplePlan) = .error e g ∧
      ∃ g', VerifierGrinding.finish.run (runAll
        ((sampleCalls () sampleChannelCall).map (verifierRun plainWork emptyCodec)) g) =
          .error .invalidProof g') := by
  obtain ⟨hp, hv, hfail⟩ := replay_accepts_plan (F := ZMod 5) (E := ZMod 5) (T := FieldAtom (ZMod 5)) (D := Unit)
    plainBackend_lawful plainWork_lawful emptyCodec GrindingPlan.samplePlan GrindingPlan.samplePlan_valid
  refine ⟨(hp _ _).2 ⟨?_, rfl⟩, (hv _ _).2 ⟨?_, rfl⟩, _, _, rfl, ?_⟩
  · exact ⟨(), _, rfl, (), _, rfl, (), _, rfl, (), _, rfl, trivial⟩
  · exact ⟨(), _, rfl, (), _, rfl, (), _, rfl, (), _, rfl, trivial⟩
  · obtain ⟨-, g', h, -⟩ := hfail (plainBackend.verifierNew [] [0, 0, 0]) []
      (sampleCalls () sampleChannelCall) (.grindQuery (.tau0Point 0)) [] _ _ rfl
    exact ⟨g', h⟩

end Akita.Grinding
