import Akita.Proof.Replay

/-!
# A previewed fold is the fold run directly

* `previewed_ok`: what a preview holds after its proof of work.
* `commit_direct`: the carried work leaves the argument and the sponge of a search on the live channel.
* `probeGroups_live`: a state with the sponge of the preview draws the same challenges.
* `commit_diverged`: a live sponge that is not the preview's is refused, and nothing changes.
* `fold_preview_is_direct`: the search over candidates, the commit and the challenges, on the channel and on the plan.
-/

namespace Akita.Grinding

open Lib Transcript List ProverGrinding FoldPreview
open EStateM.Result (ok.inj)
open EStateM (run_get run_bind)
open Option (some.inj bind_eq_some_iff)

variable {𝔱 : TranscriptBackend} {𝔴 : PreviewBackend 𝔱} {𝔭 : Pricing} {T C O : Type} {e : AkitaError}

/-! ## The states underneath -/

/-- The documented behaviour of the sponge inside a prover's state: every call but a copy of the sponge depends on the
sponge alone and appends to the argument, and work of no bits does nothing. -/
structure PreviewBackend.Lawful (𝔴 : PreviewBackend 𝔱) : Prop where
  detached : 𝔱.argument 𝔴.detached = []
  setSponge : ∀ p s, 𝔴.sponge (𝔴.setSponge p s) = s ∧ 𝔱.argument (𝔴.setSponge p s) = 𝔱.argument p
  absorb : ∀ p q a w, 𝔴.sponge p = 𝔴.sponge q → 𝔴.sponge (𝔱.send p a w) = 𝔴.sponge (𝔱.proverPublic q a)
  squeeze : ∀ p q n, 𝔴.sponge p = 𝔴.sponge q → (𝔱.proverSqueeze p n).1 = (𝔱.proverSqueeze q n).1 ∧
    𝔴.sponge (𝔱.proverSqueeze p n).2 = 𝔴.sponge (𝔱.proverSqueeze q n).2
  grind : ∀ p q bits, 𝔴.sponge p = 𝔴.sponge q → (𝔴.grind p bits).1 = true → (𝔴.grind q bits).1 = true ∧
    𝔴.sponge (𝔴.grind p bits).2 = 𝔴.sponge (𝔴.grind q bits).2 ∧
    ∃ w, 𝔱.argument (𝔴.grind p bits).2 = 𝔱.argument p ++ w ∧ 𝔱.argument (𝔴.grind q bits).2 = 𝔱.argument q ++ w
  grind_zero : ∀ p, 𝔴.sponge (𝔴.grind p 0).2 = 𝔴.sponge p

/-- Two channel states with one argument string and one sponge. -/
structure SameView (𝔴 : PreviewBackend 𝔱) (p q : 𝔱.Prover) : Prop where
  argument : 𝔱.argument p = 𝔱.argument q
  sponge : 𝔴.sponge p = 𝔴.sponge q

theorem SameView.refl (p : 𝔱.Prover) : SameView 𝔴 p p := ⟨rfl, rfl⟩

/-- The proof of work run on the live channel. -/
def liveGrind (𝔴 : PreviewBackend 𝔱) (bits : UInt32) : Chan 𝔱.Prover Unit :=
  liftBool (fun s => 𝔴.grind s bits) (.internal "transcript proof of work failed to find a nonce")

theorem run_liftBool {σ : Type} {f : σ → Bool × σ} {s : σ} :
    (liftBool f e).run s = if (f s).1 = true then .ok () (f s).2 else .error e (f s).2 := by
  simp only [liftBool, EStateM.run]
  obtain ⟨b, t⟩ := f s
  cases b <;> rfl

/-! ## Previews -/

section

variable {p q : 𝔱.Prover} {bits nonce : UInt32} {v v' : FoldPreview 𝔴} {work : FoldWork 𝔴.toWorkBackend}

def sentNonce (𝔱 : TranscriptBackend) (p : 𝔱.Prover) (nonce : UInt32) : 𝔱.Prover :=
  𝔱.send p (nonceWord nonce) (nonceWire nonce)

/-- A preview starts where the live channel is once it has sent the nonce, with an argument of its own. -/
theorem new_state (h𝔱 : 𝔱.Lawful) (h𝔴 : 𝔴.Lawful) :
    𝔴.sponge (FoldPreview.new 𝔴 p nonce).state = 𝔴.sponge (sentNonce 𝔱 p nonce) ∧
      𝔱.argument (FoldPreview.new 𝔴 p nonce).state = [] := by
  have hset := h𝔴.setSponge 𝔴.detached (𝔴.sponge p)
  refine ⟨(h𝔴.absorb p _ (nonceWord nonce) (nonceWire nonce) hset.1.symm).symm, ?_⟩
  rw [FoldPreview.new, (h𝔱.proverPublic _ _).1, hset.2, h𝔴.detached]

/-- **What a preview holds** after its proof of work. -/
theorem previewed_ok (h : previewed 𝔴 p bits nonce = .ok v) :
    (𝔴.grind (FoldPreview.new 𝔴 p nonce).state bits).1 = true ∧
      v.state = (𝔴.grind (FoldPreview.new 𝔴 p nonce).state bits).2 ∧
      v.work = some ⟨nonce, 𝔴.spongeFingerprint (𝔴.sponge (FoldPreview.new 𝔴 p nonce).state), 𝔴.sponge v.state,
        𝔱.argument v.state⟩ := by
  have hrun : (grind bits).run (FoldPreview.new 𝔴 p nonce) = .ok () v := by
    unfold previewed at h
    cases hr : (grind bits).run (FoldPreview.new 𝔴 p nonce) with
    | ok _ t => rw [hr] at h; exact congrArg _ (Except.ok.inj h)
    | error e t => rw [hr] at h; cases h
  obtain ⟨_, _, hget, hrun⟩ := run_bind_ok.1 hrun
  cases hget
  have hnone : (FoldPreview.new 𝔴 p nonce).work.isSome = false := rfl
  rw [hnone] at hrun
  obtain ⟨_, u, hgrind, hset⟩ := run_bind_ok.1 hrun
  obtain ⟨s, hs, rfl⟩ := run_zoom_ok.1 hgrind
  rw [run_liftBool] at hs
  split at hs
  · rename_i hfound
    obtain ⟨-, rfl⟩ := ok.inj hs
    obtain ⟨-, rfl⟩ := ok.inj hset
    exact ⟨hfound, rfl, rfl⟩
  · cases hs

theorem takeWork_ok (h : takeWork.run v = .ok work v') : v.work = some work ∧ v'.state = v.state := by
  obtain ⟨o, u, ho, hwork⟩ := run_bind_ok.1 h
  cases ho
  obtain ⟨hheld, rfl⟩ := run_ofResult_ok.1 hwork
  exact ⟨okOr_eq_ok.1 hheld, rfl⟩

/-! ## The commit -/

/-- A live sponge that is not the preview's is refused, and the channel stays as it is. -/
theorem commit_of_ne (h : 𝔴.spongeFingerprint (𝔴.sponge q) ≠ work.start) :
    work.commit.run q = .error (.internal "live transcript diverged from the fold preview") q := by
  unfold FoldWork.commit
  simp only [run_bind, run_get]
  rw [if_pos h]
  rfl

theorem commit_of_eq (h : 𝔴.spongeFingerprint (𝔴.sponge q) = work.start) :
    work.commit.run q = .ok () (𝔴.setSponge (𝔱.send q [] work.argument) work.sponge) := by
  unfold FoldWork.commit
  simp only [run_bind, run_get]
  rw [if_neg (not_not.2 h)]
  rfl

/-- **The carried work** leaves the channel as a search on the channel does. -/
theorem commit_direct (h𝔱 : 𝔱.Lawful) (h𝔴 : 𝔴.Lawful) (hpreview : previewed 𝔴 p bits nonce = .ok v)
    (hwork : v.work = some work) : ∃ live direct, work.commit.run (sentNonce 𝔱 p nonce) = .ok () live ∧
      (liveGrind 𝔴 bits).run (sentNonce 𝔱 p nonce) = .ok () direct ∧ SameView 𝔴 live direct ∧
      𝔴.sponge live = 𝔴.sponge v.state := by
  obtain ⟨hfound, hstate, hheld⟩ := previewed_ok hpreview
  obtain rfl := some.inj (hheld.symm.trans hwork)
  obtain ⟨hsponge, harg⟩ := @new_state 𝔱 𝔴 p nonce h𝔱 h𝔴
  obtain ⟨hlive, hafter, w, hpreviewed, hdirect⟩ := h𝔴.grind _ _ bits hsponge hfound
  rw [harg, nil_append, ← hstate] at hpreviewed
  obtain ⟨hset, hsetArgument⟩ := h𝔴.setSponge (𝔱.send (sentNonce 𝔱 p nonce) [] (𝔱.argument v.state)) (𝔴.sponge v.state)
  refine ⟨_, _, commit_of_eq (by rw [hsponge]), by rw [liveGrind, run_liftBool, if_pos hlive], ⟨?_, ?_⟩, hset⟩
  · rw [hsetArgument, (h𝔱.send _ _ _).1, hpreviewed, hdirect]
  · rw [hset, hstate, hafter]

/-- **A diverged channel**: fingerprints of other sponges differ. -/
theorem commit_diverged (h𝔱 : 𝔱.Lawful) (h𝔴 : 𝔴.Lawful) (hinj : Function.Injective 𝔴.spongeFingerprint)
    (hpreview : previewed 𝔴 p bits nonce = .ok v) (hwork : v.work = some work)
    (hq : 𝔴.sponge q ≠ 𝔴.sponge (sentNonce 𝔱 p nonce)) :
    work.commit.run q = .error (.internal "live transcript diverged from the fold preview") q := by
  obtain ⟨-, -, hheld⟩ := previewed_ok hpreview
  obtain rfl := some.inj (hheld.symm.trans hwork)
  refine commit_of_ne fun heq => hq ?_
  rw [hinj heq, (new_state h𝔱 h𝔴).1]

end

/-! ## Challenges -/

/-- The challenge messages of the groups on the live channel. -/
def drawGroups (groups : List (FoldGrindGroup C O)) : Chan 𝔱.Prover (List (Option C)) :=
  groups.mapM fun group => ProofChannel.challengeMessage group.messageLen group.decode

section

variable {groups : List (FoldGrindGroup C O)} {outputs : List (C × O)} {p : 𝔱.Prover} {v v' : FoldPreview 𝔴}

/-- One message, on a preview and on a live channel with its sponge. -/
theorem challengeMessage_live (h𝔱 : 𝔱.Lawful) (h𝔴 : 𝔴.Lawful) {len : ℕ} {decode : List UInt8 → Result T} {x : T}
    (h : (challengeMessage len decode).run v = .ok x v') (hp : 𝔴.sponge p = 𝔴.sponge v.state) :
    ∃ q, (ProofChannel.challengeMessage len decode : Chan 𝔱.Prover T).run p = .ok x q ∧
      𝔴.sponge q = 𝔴.sponge v'.state ∧ 𝔱.argument q = 𝔱.argument p := by
  obtain ⟨message, u, hdraw, hdecode⟩ := run_bind_ok.1 h
  obtain ⟨s, hs, rfl⟩ := run_zoom_ok.1 hdraw
  cases hs
  obtain ⟨hvalue, rfl⟩ := run_ofResult_ok.1 hdecode
  obtain ⟨hmessage, hsponge⟩ := h𝔴.squeeze p v.state len hp
  refine ⟨(𝔱.proverSqueeze p len).2, ?_, hsponge, (h𝔱.proverSqueeze p len).2.1⟩
  refine run_bind_ok.2 ⟨_, _, rfl, run_ofResult_ok.2 ⟨?_, rfl⟩⟩
  rw [hmessage]
  exact hvalue

/-- **An accepted candidate's challenges** are those that a live channel with the preview's sponge draws. -/
theorem probeGroups_live (h𝔱 : 𝔱.Lawful) (h𝔴 : 𝔴.Lawful) : ∀ {groups : List (FoldGrindGroup C O)} {outputs : List (C × O)}
    {p : 𝔱.Prover} {v v' : FoldPreview 𝔴}, (probeGroups groups).run v = .ok (some outputs) v' →
    𝔴.sponge p = 𝔴.sponge v.state → ∃ q, (drawGroups groups : Chan 𝔱.Prover _).run p = .ok (outputs.map fun o => some o.1) q ∧
      𝔴.sponge q = 𝔴.sponge v'.state ∧ 𝔱.argument q = 𝔱.argument p := by
  intro groups
  induction groups with
  | nil =>
    intro outputs p v v' h hp
    obtain ⟨houts, rfl⟩ := ok.inj h
    cases houts
    exact ⟨p, rfl, hp, rfl⟩
  | cons group groups ih =>
    intro outputs p v v' h hp
    obtain ⟨drawn, u, hdrawn, h⟩ := run_bind_ok.1 h
    obtain ⟨q, hq, hsponge, harg⟩ := challengeMessage_live h𝔱 h𝔴 hdrawn hp
    cases drawn with
    | none =>
      obtain ⟨hnone, -⟩ := ok.inj h
      cases hnone
    | some challenges =>
      obtain ⟨outcome, u', hprobe, h⟩ := run_bind_ok.1 h
      obtain ⟨-, rfl⟩ := run_ofResult_ok.1 hprobe
      cases outcome with
      | none =>
        obtain ⟨hnone, -⟩ := ok.inj h
        cases hnone
      | some output =>
        obtain ⟨rest, u', hrest, h⟩ := run_bind_ok.1 h
        obtain ⟨houts, rfl⟩ := ok.inj h
        cases rest with
        | none => cases houts
        | some rest =>
          cases houts
          obtain ⟨q', hq', hsponge', harg'⟩ := ih hrest hsponge
          refine ⟨q', ?_, hsponge', harg'.trans harg⟩
          rw [drawGroups, mapM_cons]
          exact run_bind_ok.2 ⟨_, _, hq, run_bind_ok.2 ⟨_, _, hq', rfl⟩⟩

end

/-! ## The search -/

section

variable {groups : List (FoldGrindGroup C O)} {outputs : List (C × O)} {preview : UInt32 → Result (FoldPreview 𝔴)}
  {nonce : UInt32} {work : FoldWork 𝔴.toWorkBackend}

theorem firstAccepted_ok {probe : UInt32 → Result (Option T)} {value : T} : ∀ {nonces : List UInt32},
    firstAccepted probe nonces = .ok (some (nonce, value)) → nonce ∈ nonces ∧ probe nonce = .ok (some value) := by
  intro nonces
  induction nonces with
  | nil => intro h; cases h
  | cons first nonces ih =>
    intro h
    obtain ⟨outcome, hprobe, h⟩ := bind_eq_ok.1 h
    cases outcome with
    | none => exact ⟨mem_cons_of_mem _ (ih h).1, (ih h).2⟩
    | some found =>
      obtain ⟨rfl, rfl⟩ := Prod.mk.inj (some.inj (Except.ok.inj h))
      exact ⟨mem_cons_self, hprobe⟩

theorem probeNonce_ok (h : probeNonce preview groups nonce = .ok (some (work, outputs))) : ∃ v u v',
    preview nonce = .ok v ∧ takeWork.run v = .ok work u ∧ (probeGroups groups).run u = .ok (some outputs) v' := by
  obtain ⟨v, hv, h⟩ := bind_eq_ok.1 h
  cases hrun : (probe groups).run v with
  | error e t => rw [hrun] at h; cases h
  | ok outcome t =>
    rw [hrun] at h
    cases h
    obtain ⟨taken, u, htaken, hrun⟩ := run_bind_ok.1 hrun
    obtain ⟨drawn, v', hdrawn, hrun⟩ := run_bind_ok.1 hrun
    obtain ⟨houtcome, rfl⟩ := ok.inj hrun
    cases drawn with
    | none => cases houtcome
    | some drawn =>
      obtain ⟨rfl, rfl⟩ := Prod.mk.inj (some.inj houtcome)
      exact ⟨v, u, v', hv, htaken, hdrawn⟩

end

/-! ## On the plan -/

section replay

variable {g g' : ProverGrinding 𝔱 𝔭} {site : GrindingSite} {counter : UInt32} {v : FoldPreview 𝔴}
  {work : FoldWork 𝔴.toWorkBackend} {entry : GrindingPlanEntry} {kind : GrindingQueryKind}
  {c : GrindingPlanCursor 𝔭}

/-- The fold response run on the live channel: the nonce, then a search of its own. -/
def directFoldResponse (𝔴 : PreviewBackend 𝔱) (site : GrindingSite) (counter : UInt32) : ProverGrinding.Op 𝔱 𝔭 Unit :=
  onError (do
    let entry ← onCursor (nextEntry site .foldResponse)
    if !valueFits counter entry.nonceBits then
      throw (.invalidInput "fold-response nonce exceeds its scheduled bit width")
    else
      onState (sendNonce counter)
      addNonceBytes (nonceWire counter).length (.internal "fold-response serialized nonce byte count overflow")
      grindQueryInner 𝔴.toWorkBackend (.foldChallengeWork site.level) .foldChallengeWork) poison

/-- Two replays of one plan whose channels look the same. -/
structure SameReplay (𝔴 : PreviewBackend 𝔱) (g g' : ProverGrinding 𝔱 𝔭) : Prop where
  view : SameView 𝔴 g.state g'.state
  cursor : g.cursor = g'.cursor
  bytes : g.serializedNonceBytes = g'.serializedNonceBytes
  invalid : g.invalid = g'.invalid

theorem SameReplay.refl (g : ProverGrinding 𝔱 𝔭) : SameReplay 𝔴 g g := ⟨.refl _, rfl, rfl, rfl⟩

theorem next_following (h : c.peekFollowing = some entry) : c.next.2.next.1 = some entry := by
  obtain ⟨current, hcur, h⟩ := bind_eq_some_iff.1 h
  split at h
  · cases h
  rename_i hsingle
  simp only [ne_eq, not_or, not_not] at hsingle
  obtain ⟨index, hindex, h⟩ := bind_eq_some_iff.1 h
  obtain ⟨-, rfl⟩ := checkedAdd_eq_some.1 hindex
  obtain ⟨run, hrun, hentry⟩ := bind_eq_some_iff.1 h
  cases hentry
  have hmult : c.runOffset + 1 = current.multiplicity.toNat := by rw [hsingle.1, hsingle.2]; rfl
  have hnext : c.next.2 = { c with runIndex := c.runIndex + 1, runOffset := 0 } := by
    simp only [GrindingPlanCursor.next, hcur, if_pos hmult]
  rw [hnext]
  simp only [GrindingPlanCursor.next, hrun]
  split <;> rfl

theorem nextEntry_ok {c' : GrindingPlanCursor 𝔭} (h : (nextEntry site kind).run c = .ok entry c') :
    c.next = (some entry, c') := by
  obtain ⟨o, u, ho, h⟩ := run_bind_ok.1 h
  obtain ⟨hfirst, hsecond⟩ : c.next.1 = o ∧ c.next.2 = u := ok.inj ho
  obtain ⟨e, u', he, h⟩ := run_bind_ok.1 h
  obtain ⟨hheld, hu⟩ := run_ofResult_ok.1 he
  split at h
  · cases h
  · obtain ⟨he', hc'⟩ := ok.inj h
    refine Prod.ext ?_ (by rw [hsecond, hu, hc'])
    rw [hfirst, okOr_eq_ok.1 hheld, he']

/-- **A preview on the plan** is the preview of the live channel at the difficulty of the work that follows. -/
theorem previewFoldResponse_ok (h : g.previewFoldResponse 𝔴 site counter = .ok v) :
    ∃ entry bits, g.cursor.peekFollowing = some entry ∧ powBits entry = some bits ∧ previewed 𝔴 g.state bits counter = .ok v := by
  simp only [previewFoldResponse, result_ok] at h
  obtain ⟨_, -, -, -, -, entry, hentry, bits, hbits, hpreview⟩ := h
  exact ⟨entry, bits, (Option.filter_eq_some_iff.1 hentry).1, hbits, hpreview⟩

/-- Counting bytes leaves the channel and the cursor alone. -/
theorem addNonceBytes_keeps {bytes : ℕ} (h : (addNonceBytes bytes e).run g = .ok () g') :
    g'.state = g.state ∧ g'.cursor = g.cursor := by
  obtain ⟨_, _, hget, h⟩ := run_bind_ok.1 h
  cases hget
  obtain ⟨_, _, htotal, h⟩ := run_bind_ok.1 h
  obtain ⟨-, rfl⟩ := run_ofResult_ok.1 htotal
  obtain ⟨-, rfl⟩ := ok.inj h
  exact ⟨rfl, rfl⟩

theorem proofOfWork_sameEnd {a b : UInt32 → Chan 𝔱.Prover Unit} {bits : UInt32} (hentry : g.cursor.next.1 = some entry)
    (hbits : powBits entry = some bits) (h : SameEnd (SameView 𝔴) ((a bits).run g.state) ((b bits).run g.state)) :
    SameEnd (SameReplay 𝔴) ((proofOfWork site kind a).run g) ((proofOfWork site kind b).run g) := by
  refine SameEnd.share SameReplay.refl fun e g₁ he => ?_
  obtain ⟨c, hc, rfl⟩ := run_zoom_ok.1 he
  obtain rfl : e = entry := by
    rw [nextEntry_ok hc] at hentry
    exact some.inj hentry
  refine SameEnd.share SameReplay.refl fun bits' g₂ hb => ?_
  obtain ⟨hb', rfl⟩ := run_ofResult_ok.1 hb
  obtain rfl : bits = bits' := some.inj (hbits.symm.trans (okOr_eq_ok.1 hb'))
  split
  · exact SameEnd.refl SameReplay.refl _
  · refine SameEnd.share SameReplay.refl fun g₃ g₄ hget => ?_
    cases hget
    refine SameEnd.bind (SameEnd.zoom h fun p q hpq => ⟨hpq, rfl, rfl, rfl⟩) fun _ g₅ g₆ _ _ hsame => ?_
    have hstep : ∀ bytes e, SameEnd (SameReplay 𝔴) ((addNonceBytes bytes e).run g₅)
        ((addNonceBytes bytes e).run g₆) := by
      intro bytes e
      unfold addNonceBytes
      simp only [run_bind, run_get, hsame.bytes]
      cases okOr (checkedAdd usizeBits g₆.serializedNonceBytes bytes) e with
      | ok total => exact ⟨rfl, hsame.view, hsame.cursor, rfl, hsame.invalid⟩
      | error e => exact ⟨rfl, hsame⟩
    have harg : 𝔱.argument g₅.state = 𝔱.argument g₆.state := hsame.view.argument
    simp only [run_bind, run_get, harg]
    exact hstep _ _

section

variable (h𝔱 : 𝔱.Lawful) (h𝔴 : 𝔴.Lawful) (hpreview : g.previewFoldResponse 𝔴 site counter = .ok v) (hwork : v.work = some work)

include h𝔱 h𝔴 hpreview hwork

/-- **The commit of a previewed fold response** ends as the fold response run on the live channel does. -/
theorem commitFoldResponse_direct : SameEnd (SameReplay 𝔴) ((commitFoldResponse site work).run g)
      ((directFoldResponse 𝔴 site counter).run g) := by
  obtain ⟨entry, bits, hfoll, hbits, hpreview⟩ := previewFoldResponse_ok hpreview
  obtain ⟨live, direct, hlive, hdirect, hview, -⟩ := commit_direct h𝔱 h𝔴 hpreview hwork
  have hnonce : work.nonce = counter := by
    obtain rfl := some.inj ((previewed_ok hpreview).2.2.symm.trans hwork)
    rfl
  refine SameEnd.onError ?_ fun u w huw => ⟨huw.view, huw.cursor, huw.bytes, rfl⟩
  unfold commitFoldResponseInner
  simp only [hnonce]
  refine SameEnd.share SameReplay.refl fun e g₁ he => ?_
  obtain ⟨c, hc, rfl⟩ := run_zoom_ok.1 he
  have hnext := nextEntry_ok hc
  split
  · exact SameEnd.refl SameReplay.refl _
  refine SameEnd.share SameReplay.refl fun _ g₂ hsent => ?_
  obtain ⟨p, hp, rfl⟩ := run_zoom_ok.1 hsent
  obtain ⟨-, rfl⟩ := ok.inj hp
  refine SameEnd.share SameReplay.refl fun _ g₃ hbytes => ?_
  have hkept : g₃.state = sentNonce 𝔱 g.state counter ∧ g₃.cursor = c := addNonceBytes_keeps hbytes
  have hentry : g₃.cursor.next.1 = some entry := by
    have h := next_following hfoll
    rw [hnext] at h
    rw [hkept.2]
    exact h
  refine proofOfWork_sameEnd hentry hbits ?_
  rw [hkept.1]
  change SameEnd (SameView 𝔴) (work.commit.run _) ((liveGrind 𝔴 bits).run _)
  rw [hlive, hdirect]
  exact ⟨rfl, hview⟩

theorem commitFoldResponse_sponge (h : (commitFoldResponse site work).run g = .ok () g') :
    𝔴.sponge g'.state = 𝔴.sponge v.state := by
  obtain ⟨entry, bits, hfoll, hbits, hpreview⟩ := previewFoldResponse_ok hpreview
  obtain ⟨live, -, hlive, -, -, hsponge⟩ := commit_direct h𝔱 h𝔴 hpreview hwork
  have hnonce : work.nonce = counter := by
    obtain rfl := some.inj ((previewed_ok hpreview).2.2.symm.trans hwork)
    rfl
  replace h := run_onError_ok.1 h
  unfold commitFoldResponseInner at h
  simp only [hnonce] at h
  obtain ⟨e, g₁, he, h⟩ := run_bind_ok.1 h
  obtain ⟨c, hc, rfl⟩ := run_zoom_ok.1 he
  split at h
  · cases h
  obtain ⟨_, g₂, hsent, h⟩ := run_bind_ok.1 h
  obtain ⟨p, hp, rfl⟩ := run_zoom_ok.1 hsent
  obtain ⟨-, rfl⟩ := ok.inj hp
  obtain ⟨_, g₃, hbytes, h⟩ := run_bind_ok.1 h
  have hkept : g₃.state = sentNonce 𝔱 g.state counter ∧ g₃.cursor = c := addNonceBytes_keeps hbytes
  obtain ⟨e', g₄, he', h⟩ := run_bind_ok.1 h
  obtain ⟨c', hc', rfl⟩ := run_zoom_ok.1 he'
  obtain rfl : e' = entry := by
    have hentry := next_following hfoll
    rw [nextEntry_ok hc, ← hkept.2, nextEntry_ok hc'] at hentry
    exact some.inj hentry
  obtain ⟨bits', g₅, hb, h⟩ := run_bind_ok.1 h
  obtain ⟨hb', rfl⟩ := run_ofResult_ok.1 hb
  obtain rfl : bits = bits' := some.inj (hbits.symm.trans (okOr_eq_ok.1 hb'))
  split at h
  · -- no work: the preview has done nothing either
    rename_i hzero
    obtain ⟨-, rfl⟩ := ok.inj h
    rw [(previewed_ok hpreview).2.1, hzero, h𝔴.grind_zero, (new_state h𝔱 h𝔴).1]
    exact congrArg 𝔴.sponge hkept.1
  · obtain ⟨_, _, hget, h⟩ := run_bind_ok.1 h
    cases hget
    obtain ⟨_, g₆, hcommit, h⟩ := run_bind_ok.1 h
    obtain ⟨q, hq, rfl⟩ := run_zoom_ok.1 hcommit
    obtain ⟨_, _, hget, h⟩ := run_bind_ok.1 h
    cases hget
    have hq' : work.commit.run (sentNonce 𝔱 g.state counter) = .ok () q := hkept.1 ▸ hq
    obtain ⟨-, rfl⟩ := ok.inj (hlive.symm.trans hq')
    rw [(addNonceBytes_keeps h).1]
    exact hsponge

end

end replay

/-! ## The whole search -/

/-- **A search over previews has no effect of its own.** On any live channel: the work of an accepted candidate, committed
after its nonce is sent, leaves the argument and the sponge that the nonce and a search on the channel leave, and
the challenges then drawn are those the candidate was accepted with; a diverged channel refuses the work and keeps its
state; and on a plan, the commit of a search ends as the fold response run on the channel does. -/
theorem fold_preview_is_direct (h𝔱 : 𝔱.Lawful) (h𝔴 : 𝔴.Lawful) (hinj : Function.Injective 𝔴.spongeFingerprint)
    (groups : List (FoldGrindGroup C O)) :
    (∀ (p : 𝔱.Prover) (bits : UInt32) (candidates : List UInt32) (nonce : UInt32) (work : FoldWork 𝔴.toWorkBackend)
        (outputs : List (C × O)),
      firstAccepted (probeNonce (previewed 𝔴 p bits) groups) candidates = .ok (some (nonce, work, outputs)) →
      nonce ∈ candidates ∧ work.nonce = nonce ∧ ∃ live direct live' direct',
        (do sendNonce nonce; work.commit : Chan 𝔱.Prover Unit).run p = .ok () live ∧
        (do sendNonce nonce; liveGrind 𝔴 bits : Chan 𝔱.Prover Unit).run p = .ok () direct ∧ SameView 𝔴 live direct ∧
        (drawGroups groups).run live = .ok (outputs.map fun o => some o.1) live' ∧
        (drawGroups groups).run direct = .ok (outputs.map fun o => some o.1) direct' ∧ SameView 𝔴 live' direct') ∧
    (∀ (p : 𝔱.Prover) (bits nonce : UInt32) (v u : FoldPreview 𝔴) (work : FoldWork 𝔴.toWorkBackend),
      previewed 𝔴 p bits nonce = .ok v → takeWork.run v = .ok work u →
      ∀ q, 𝔴.sponge q ≠ 𝔴.sponge (sentNonce 𝔱 p nonce) →
        work.commit.run q = .error (.internal "live transcript diverged from the fold preview") q) ∧
    (∀ (g : ProverGrinding 𝔱 𝔭) (site : GrindingSite) (attempts nonce : UInt32) (work : FoldWork 𝔴.toWorkBackend)
        (outputs : List (C × O)),
      firstJointlyAcceptedNonce attempts (probeNonce (g.previewFoldResponse 𝔴 site) groups) = .ok (nonce, work, outputs) →
      SameEnd (SameReplay 𝔴) ((commitFoldResponse site work).run g) ((directFoldResponse 𝔴 site nonce).run g) ∧
      ∀ live, (commitFoldResponse site work).run g = .ok () live →
        ∃ live', (drawGroups groups).run live.state = .ok (outputs.map fun o => some o.1) live') := by
  refine ⟨fun p bits candidates nonce work outputs h => ?_, fun p bits nonce v u work hpreview htaken q hq => ?_,
    fun g site attempts nonce work outputs h => ?_⟩
  · obtain ⟨hmem, hprobe⟩ := firstAccepted_ok h
    obtain ⟨v, u, v', hpreview, htaken, hdrawn⟩ := probeNonce_ok hprobe
    obtain ⟨hwork, hstate⟩ := takeWork_ok htaken
    obtain ⟨live, direct, hlive, hdirect, hview, hsponge⟩ := commit_direct h𝔱 h𝔴 hpreview hwork
    rw [← hstate] at hsponge
    obtain ⟨live', hlive', hsponge', hargument'⟩ := probeGroups_live h𝔱 h𝔴 hdrawn hsponge
    obtain ⟨direct', hdirect', hsponge'', hargument''⟩ := probeGroups_live h𝔱 h𝔴 hdrawn (hview.sponge.symm.trans hsponge)
    refine ⟨hmem, ?_, live, direct, live', direct', run_bind_ok.2 ⟨_, _, rfl, hlive⟩, run_bind_ok.2 ⟨_, _, rfl, hdirect⟩,
      hview, hlive', hdirect', ?_, hsponge'.trans hsponge''.symm⟩
    · obtain rfl := Option.some.inj ((previewed_ok hpreview).2.2.symm.trans hwork)
      rfl
    · rw [hargument', hargument'', hview.argument]
  · exact commit_diverged h𝔱 h𝔴 hinj hpreview (takeWork_ok htaken).1 hq
  · obtain ⟨found, hfound, hsome⟩ := bind_eq_ok.1 h
    obtain rfl := okOr_eq_ok.1 hsome
    obtain ⟨v, u, v', hpreview, htaken, hdrawn⟩ := probeNonce_ok (firstAccepted_ok hfound).2
    obtain ⟨hwork, hstate⟩ := takeWork_ok htaken
    refine ⟨commitFoldResponse_direct h𝔱 h𝔴 hpreview hwork, fun live hlive => ?_⟩
    have hsponge := commitFoldResponse_sponge h𝔱 h𝔴 hpreview hwork hlive
    rw [← hstate] at hsponge
    obtain ⟨live', hlive', -⟩ := probeGroups_live h𝔱 h𝔴 hdrawn hsponge
    exact ⟨live', hlive'⟩

/-! ## A search on the plain states -/

/-- The calls of a sponge, written out: a byte after a one, a squeezed byte as a two, and an end for each call. -/
def callBytes : List SpongeCall → List UInt8
  | [] => []
  | .absorb bytes :: calls => (bytes.flatMap fun b => [1, b]) ++ 0 :: callBytes calls
  | .squeeze len :: calls => List.replicate len 2 ++ 3 :: callBytes calls

theorem absorbBytes_injective : ∀ {bytes bytes' x y : List UInt8},
    (bytes.flatMap fun b => [1, b]) ++ 0 :: x = (bytes'.flatMap fun b => [1, b]) ++ 0 :: y → bytes = bytes' ∧ x = y := by
  intro bytes
  induction bytes with
  | nil =>
    intro bytes' x y h
    cases bytes' with
    | nil => exact ⟨rfl, (List.cons.inj h).2⟩
    | cons b bytes' => simp at h
  | cons b bytes ih =>
    intro bytes' x y h
    cases bytes' with
    | nil => simp at h
    | cons b' bytes' =>
      simp only [flatMap_cons, cons_append, nil_append, List.cons.injEq, true_and] at h
      obtain ⟨rfl, rfl⟩ := ih h.2
      exact ⟨by rw [h.1], rfl⟩

theorem squeezeBytes_injective : ∀ {m n : ℕ} {x y : List UInt8},
    replicate m (2 : UInt8) ++ 3 :: x = replicate n 2 ++ 3 :: y → m = n ∧ x = y := by
  intro m
  induction m with
  | zero =>
    intro n x y h
    cases n with
    | zero => exact ⟨rfl, (List.cons.inj h).2⟩
    | succ n => simp [replicate_succ] at h
  | succ m ih =>
    intro n x y h
    cases n with
    | zero => simp [replicate_succ] at h
    | succ n =>
      simp only [replicate_succ, cons_append, List.cons.injEq, true_and] at h
      obtain ⟨rfl, rfl⟩ := ih h
      exact ⟨rfl, rfl⟩

theorem callBytes_injective : Function.Injective callBytes := by
  have hfirst : ∀ (n : ℕ) (x : List UInt8), (replicate n (2 : UInt8) ++ 3 :: x).head? ∈ [some 2, some 3] := by
    intro n x
    cases n <;> simp [replicate_succ]
  have hother : ∀ (bytes : List UInt8) (n : ℕ) (x y : List UInt8),
      (bytes.flatMap fun b => [1, b]) ++ 0 :: x ≠ replicate n 2 ++ 3 :: y := by
    intro bytes n x y h
    have hhead := hfirst n y
    rw [← h] at hhead
    cases bytes <;> simp at hhead
  intro calls
  induction calls with
  | nil =>
    intro calls' h
    cases calls' with
    | nil => rfl
    | cons call calls' => cases call <;> simp [callBytes] at h
  | cons call calls ih =>
    intro calls' h
    cases calls' with
    | nil => cases call <;> simp [callBytes] at h
    | cons call' calls' =>
      cases call with
      | absorb bytes =>
        cases call' with
        | absorb bytes' =>
          obtain ⟨rfl, hrest⟩ := absorbBytes_injective h
          rw [ih hrest]
        | squeeze n => exact absurd h (hother _ _ _ _)
      | squeeze m =>
        cases call' with
        | absorb bytes' => exact absurd h.symm (hother _ _ _ _)
        | squeeze n =>
          obtain ⟨rfl, hrest⟩ := squeezeBytes_injective h
          rw [ih hrest]

/-- Previews over the plain states, with an injective fingerprint. -/
def plainPreview : PreviewBackend plainBackend where
  toWorkBackend := { plainWork with
    grind := fun p bits => if bits = 0 then (true, p) else plainWork.grind p bits
    spongeFingerprint := callBytes }
  detached := ⟨[], []⟩

theorem plainPreview_lawful : plainPreview.Lawful where
  detached := rfl
  setSponge _ _ := ⟨rfl, rfl⟩
  absorb _ _ a _ h := congrArg (· ++ [SpongeCall.absorb a]) h
  squeeze _ _ n h := ⟨rfl, congrArg (· ++ [SpongeCall.squeeze n]) h⟩
  grind p q bits h hfound := by
    by_cases hzero : bits = 0
    · subst hzero
      exact ⟨rfl, h, [], (append_nil _).symm, (append_nil _).symm⟩
    · simp only [plainPreview, if_neg hzero] at hfound ⊢
      exact ⟨rfl, congrArg (· ++ _) h, _, rfl, rfl⟩
  grind_zero _ := rfl

def lengthGroup : FoldGrindGroup ℕ ℕ := ⟨5, fun bytes => .ok (some bytes.length), fun n => .ok (some (n + 1))⟩

theorem fold_preview_sample :
    (∃ (work : FoldWork plainPreview.toWorkBackend) (live direct live' direct' : plainBackend.Prover),
      (do sendNonce 3; work.commit : Chan plainBackend.Prover Unit).run (plainBackend.proverNew []) = .ok () live ∧
      (do sendNonce 3; liveGrind plainPreview 6 : Chan plainBackend.Prover Unit).run (plainBackend.proverNew []) =
        .ok () direct ∧ SameView plainPreview live direct ∧ (drawGroups [lengthGroup]).run live = .ok [some 5] live' ∧
      (drawGroups [lengthGroup]).run direct = .ok [some 5] direct' ∧ SameView plainPreview live' direct' ∧
      work.commit.run (plainBackend.proverNew [1]) =
        .error (.internal "live transcript diverged from the fold preview") (plainBackend.proverNew [1])) ∧
    ∃ work : FoldWork plainPreview.toWorkBackend, SameEnd (SameReplay plainPreview)
      ((commitFoldResponse (.foldResponse 0) work).run
        (ProverGrinding.new (plainBackend.proverNew []) GrindingPlan.samplePlan))
      ((directFoldResponse plainPreview (.foldResponse 0) 0).run
        (ProverGrinding.new (plainBackend.proverNew []) GrindingPlan.samplePlan)) := by
  obtain ⟨hsearch, hdiverged, hplan⟩ := fold_preview_is_direct (𝔭 := GrindingPlan.samplePricing) plainBackend_lawful plainPreview_lawful
    callBytes_injective [lengthGroup]
  obtain ⟨-, -, live, direct, live', direct', h⟩ := hsearch (plainBackend.proverNew []) 6 [3, 4] 3 _ [(5, 6)] rfl
  refine ⟨⟨_, live, direct, live', direct', h.1, h.2.1, h.2.2.1, h.2.2.2.1, h.2.2.2.2.1, h.2.2.2.2.2, ?_⟩, ?_⟩
  · refine hdiverged (plainBackend.proverNew []) 6 3 _ _ _ rfl rfl _ ?_
    change [SpongeCall.absorb [1]] ≠ [SpongeCall.absorb [], SpongeCall.absorb (nonceWord 3)]
    simp
  · exact ⟨_, (hplan (ProverGrinding.new (plainBackend.proverNew []) GrindingPlan.samplePlan) (.foldResponse 0) 1 0 _ [(5, 6)]
      rfl).1⟩

end Akita.Grinding
