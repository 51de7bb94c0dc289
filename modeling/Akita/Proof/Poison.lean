import Akita.Proof.Channel
import Akita.Proof.Reference

/-!
# A failed verifier call is final

Every call on the verifier's end of the channel traps: it keeps a poisoned state poisoned,
and when it fails the state it leaves is poisoned. After one failure no sequence of calls
reaches an end-of-argument check that passes.
-/

namespace Akita.Transcript

open Lib
open EStateM.Result (ok.inj error.inj)
open EStateM (run run_bind)

variable {F E T D : Type} [CanonicalEncoding F] [ExtField F E] [ProofAtom T]
  {𝔱 : TranscriptBackend} {codec : ChallengeCodec E}

section calls

variable (h𝔱 : 𝔱.Lawful) {α : Type}

include h𝔱

theorem traps_reject : Traps 𝔱.poisoned (reject : Chan 𝔱.Verifier AkitaError) := by
  intro v
  refine ⟨fun a t h _ => ?_, fun e t h => ?_⟩
  · obtain ⟨-, rfl⟩ := ok.inj h
    exact (h𝔱.check_poisoned v false).2 (Or.inr rfl)
  · simp at h

theorem traps_reject_throw (f : AkitaError → AkitaError) :
    Traps 𝔱.poisoned (do throw (f (← reject)) : Chan 𝔱.Verifier α) := by
  intro v
  refine ⟨fun a t h _ => by simp [run_bind] at h, fun e t h => ?_⟩
  obtain ⟨-, rfl⟩ : f .invalidProof = e ∧ (𝔱.check v false).2 = t := by simpa [run_bind] using h
  exact (h𝔱.check_poisoned v false).2 (Or.inr rfl)

theorem traps_guard (r : Result α) : Traps 𝔱.poisoned (ProofChannel.guard r : Chan 𝔱.Verifier α) := by
  cases r with
  | ok a => exact Traps.pure a
  | error e => exact traps_reject_throw h𝔱 fun _ => e

theorem traps_messageWith (r : Reader UInt8 α) (f : α → List UInt8) :
    Traps 𝔱.poisoned (verifierMessageWith r f : Chan 𝔱.Verifier α) := by
  intro v
  refine ⟨fun a t h hv => ?_, fun e t h => ?_⟩
  · have h0 := (h𝔱.receive_poisoned v r f hv).1
    simp only [verifierMessageWith, liftOption, run] at h
    split at h
    · rename_i hx; rw [hx] at h0; simp at h0
    · simp at h
  · simp only [verifierMessageWith, liftOption, run] at h
    split at h
    · simp at h
    · rename_i hx
      obtain ⟨-, rfl⟩ := error.inj h
      by_cases hv : 𝔱.poisoned v
      · have := (h𝔱.receive_poisoned v r f hv).2
        rwa [hx] at this
      cases hr : r (𝔱.remaining v) with
      | none =>
        have := (h𝔱.receive_none v r f hr).2
        rwa [hx] at this
      | some x =>
        -- a reader that succeeds does not fail the message
        have := (h𝔱.receive_some v r f x.1 x.2 hv hr).1
        rw [hx] at this
        simp at this

theorem traps_publicMessage (bytes : List UInt8) :
    Traps 𝔱.poisoned (ProofChannel.publicMessage bytes : Chan 𝔱.Verifier Unit) := by
  cases bytes with
  | nil => exact Traps.pure ()
  | cons b bytes =>
    intro v
    refine ⟨fun a t h hv => ?_, fun e t h => by simp [ProofChannel.publicMessage] at h⟩
    obtain ⟨-, rfl⟩ := ok.inj h
    exact (h𝔱.verifierPublic v _).1.2 hv

theorem traps_atoms (count : ℕ) : Traps 𝔱.poisoned (receiveAtoms count : Chan 𝔱.Verifier (List T)) := by
  refine Traps.get.bind fun s => ?_
  dsimp only
  split
  · exact traps_reject_throw h𝔱 id
  · split
    · exact Traps.pure []
    · exact traps_messageWith h𝔱 _ _

theorem traps_exchange (slots : List T) : Traps 𝔱.poisoned (ProofChannel.exchange slots : Chan 𝔱.Verifier (List T)) :=
  (traps_atoms h𝔱 slots.length).bind fun _ => Traps.pure _

theorem traps_challenges (n : ℕ) :
    Traps 𝔱.poisoned (ProofChannel.challenges codec n : Chan 𝔱.Verifier (List E)) := by
  intro v
  have hfst : ∀ o t, 𝔱.verifierVector codec v n = (o, t) → (𝔱.poisoned v ∨ o = none) → 𝔱.poisoned t := by
    intro o t hx h
    by_cases hv : 𝔱.poisoned v
    · have := h𝔱.verifierVector_poisoned codec v n hv
      rwa [hx] at this
    · have := (h𝔱.verifierVector codec v n hv).2.1
      rw [hx] at this
      exact this.2 (h.resolve_left hv)
  refine ⟨fun a t h hv => ?_, fun e t h => ?_⟩
  · simp only [ProofChannel.challenges, liftOption, run] at h
    split at h
    · rename_i hx
      obtain ⟨-, rfl⟩ := ok.inj h
      exact hfst _ _ hx (Or.inl hv)
    · simp at h
  · simp only [ProofChannel.challenges, liftOption, run] at h
    split at h
    · simp at h
    · rename_i hx
      obtain ⟨-, rfl⟩ := error.inj h
      exact hfst _ _ hx (Or.inr rfl)

theorem traps_check (b : Bool) : Traps 𝔱.poisoned (verifierCheck b : Chan 𝔱.Verifier Unit) := by
  intro v
  have hp := h𝔱.check_poisoned v b
  have hok := h𝔱.check_ok v b
  refine ⟨fun a t h hv => ?_, fun e t h => ?_⟩
  · simp only [verifierCheck, run] at h
    split at h
    · rename_i hx
      rw [hx] at hok
      exact absurd hv (hok.1 rfl).1
    · simp at h
  · simp only [verifierCheck, run] at h
    split at h
    · simp at h
    · rename_i hx
      obtain ⟨-, rfl⟩ := error.inj h
      rw [hx] at hp hok
      have : 𝔱.poisoned v ∨ b = false := by
        by_contra hn
        rw [not_or] at hn
        exact absurd (hok.2 ⟨hn.1, by simpa using hn.2⟩) (by simp)
      exact hp.2 this

theorem traps_challengeMessage (len : ℕ) (decode : List UInt8 → Result D) :
    Traps 𝔱.poisoned (ProofChannel.challengeMessage len decode : Chan 𝔱.Verifier D) := by
  refine (traps_check h𝔱 true).bind fun _ => Traps.bind ?_ fun message => ?_
  · intro v
    refine ⟨fun a t h hv => ?_, fun e t h => by simp at h⟩
    obtain ⟨-, rfl⟩ : (𝔱.verifierSqueeze v len).1 = a ∧ (𝔱.verifierSqueeze v len).2 = t := by simpa using h
    exact (h𝔱.verifierSqueeze v len).2.1.2 hv
  · dsimp only
    cases hd : decode message with
    | ok d => exact (traps_check h𝔱 _).bind fun _ => Traps.pure d
    | error e =>
      -- the second check has failed, so the decoding error is not reached
      intro v
      have hcheck := traps_check h𝔱 (Except.isOk (Except.error e : Result D)) v
      have hok := h𝔱.check_ok v false
      have hrun : ∃ t, (verifierCheck (Except.isOk (Except.error e : Result D)) : Chan 𝔱.Verifier Unit).run v =
          .error .invalidProof t := by
        simp only [verifierCheck, run]
        split
        · rename_i hx
          have hx' : 𝔱.check v false = (true, _) := hx
          rw [hx'] at hok
          simp at hok
        · exact ⟨_, rfl⟩
      obtain ⟨t, ht⟩ := hrun
      refine ⟨fun a u h _ => by simp [run_bind, ht] at h, fun e' u h => ?_⟩
      obtain ⟨-, rfl⟩ : AkitaError.invalidProof = e' ∧ t = u := by simpa [run_bind, ht] using h
      exact hcheck.2 _ _ ht

section

variable (site : ProtocolSiteId)

include site

theorem traps_byteGroup (len : ℕ) :
    Traps 𝔱.poisoned (receiveByteGroup site len : Chan 𝔱.Verifier (List UInt8)) := by
  refine (traps_guard h𝔱 _).bind fun _ => ?_
  split
  · exact Traps.pure []
  · exact traps_messageWith h𝔱 _ _

theorem traps_fieldDigest :
    Traps 𝔱.poisoned (receiveFieldDigest site : Chan 𝔱.Verifier (List UInt8)) := by
  have hlen : ∀ v b t, (receiveByteGroup site fieldDigestBytes : Chan 𝔱.Verifier (List UInt8)).run v = .ok b t →
      b.length = fieldDigestBytes := by
    intro v b t h
    by_cases hv : 𝔱.poisoned v
    · obtain ⟨_, u, hg, h⟩ := run_bind_ok.1 h
      rw [if_neg (by decide)] at h
      have hu : 𝔱.poisoned u := (traps_guard h𝔱 _ v).1 _ u hg hv
      have h0 := (h𝔱.receive_poisoned u (takeN fieldDigestBytes) wordPadded hu).1
      simp only [verifierMessageWith, liftOption, run] at h
      split at h
      · rename_i hx; rw [hx] at h0; simp at h0
      · simp at h
    · exact ((receives_byteGroup h𝔱 site fieldDigestBytes).sound v b t hv h).1.2
  intro v
  have hgroup := traps_byteGroup h𝔱 site fieldDigestBytes v
  refine ⟨fun a t h hv => ?_, fun e t h => ?_⟩
  · obtain ⟨b, u, hb, h⟩ := run_bind_ok.1 h
    rw [if_pos (hlen v b u hb)] at h
    obtain ⟨-, rfl⟩ := ok.inj h
    exact hgroup.1 b u hb hv
  · unfold receiveFieldDigest at h
    rw [run_bind] at h
    cases hb : (receiveByteGroup site fieldDigestBytes : Chan 𝔱.Verifier (List UInt8)).run v with
    | ok b u =>
      rw [hb] at h
      simp [hlen v b u hb] at h
    | error e' u =>
      rw [hb] at h
      obtain ⟨-, rfl⟩ := error.inj h
      exact hgroup.2 e' u hb

theorem traps_boundedBytes (maxLen : ℕ) :
    Traps 𝔱.poisoned (receiveBoundedBytes site maxLen : Chan 𝔱.Verifier (List UInt8)) := by
  refine (traps_messageWith h𝔱 _ _).bind fun len => ?_
  split
  · exact traps_byteGroup h𝔱 _ _
  · exact traps_reject_throw h𝔱 id

theorem traps_extChallenges (n : ℕ) :
    Traps 𝔱.poisoned (extChallenges codec site n : Chan 𝔱.Verifier (List E)) :=
  (traps_guard h𝔱 _).bind fun _ => traps_challenges h𝔱 n

end

/-- **Every operation of a script traps.** -/
theorem traps_verifierStep (o : ChannelOp F E T D) :
    Traps 𝔱.poisoned (o.verifierStep codec : Chan 𝔱.Verifier (o.Message × o.Reply)) := by
  cases o with
  | publicBytes site bytes =>
    exact ((traps_guard h𝔱 _).bind fun _ => traps_publicMessage h𝔱 _).bind fun _ => Traps.pure _
  | publicFields site values =>
    exact ((traps_guard h𝔱 _).bind fun _ => traps_publicMessage h𝔱 _).bind fun _ => Traps.pure _
  | publicExtensions site values =>
    exact ((traps_guard h𝔱 _).bind fun _ => traps_publicMessage h𝔱 _).bind fun _ => Traps.pure _
  | fieldGroup site count =>
    exact ((traps_guard h𝔱 _).bind fun _ => (traps_atoms h𝔱 count).bind fun _ => Traps.pure _).bind
      fun _ => Traps.pure _
  | byteGroup site len => exact (traps_byteGroup h𝔱 site len).bind fun _ => Traps.pure _
  | boundedBytes site maxLen => exact (traps_boundedBytes h𝔱 site maxLen).bind fun _ => Traps.pure _
  | extensionGroup site slots =>
    exact ((traps_guard h𝔱 _).bind fun _ => (traps_exchange h𝔱 _).bind fun _ => Traps.pure _).bind
      fun _ => Traps.pure _
  | exchange slots => exact (traps_exchange h𝔱 slots).bind fun _ => Traps.pure _
  | nonce => exact (traps_messageWith h𝔱 _ _).bind fun _ => Traps.pure _
  | challenges site count => exact (traps_extChallenges h𝔱 site count).bind fun _ => Traps.pure _
  | challenge site =>
    exact ((traps_extChallenges h𝔱 site 1).bind fun _ => traps_guard h𝔱 _).bind fun _ => Traps.pure _
  | challengeMessage len decode => exact (traps_challengeMessage h𝔱 len decode).bind fun _ => Traps.pure _

theorem traps_call [Zero E] (c : VerifierCall F E T D) :
    Traps 𝔱.poisoned (c.run codec : Chan 𝔱.Verifier Unit) := by
  cases c with
  | op o => exact (traps_verifierStep h𝔱 o).bind fun _ => Traps.pure _
  | fieldDigest site => exact (traps_fieldDigest h𝔱 site).bind fun _ => Traps.pure _
  | guard result => exact (traps_guard h𝔱 result).bind fun _ => Traps.pure _
  | reject => exact (traps_reject h𝔱).bind fun _ => Traps.pure _
  | extensionSlots count =>
    exact ((Traps.get.bind fun _ => Traps.pure _).bind fun _ => (traps_guard h𝔱 _).bind fun _ => Traps.pure _).bind
      fun _ => Traps.pure _

end calls

/-- No calls lead from a poisoned state to an end-of-argument check that passes. -/
theorem checkEof_of_poisoned [Zero E] (h𝔱 : 𝔱.Lawful) (codec : ChallengeCodec E) {v : 𝔱.Verifier}
    (hv : 𝔱.poisoned v) (calls : List (VerifierCall F E T D)) :
    𝔱.checkEof (runAll (calls.map (VerifierCall.run codec)) v) = false := by
  have hbad : 𝔱.poisoned (runAll (calls.map (VerifierCall.run codec)) v) := by
    refine Traps.runAll _ v (fun m hm => ?_) hv
    obtain ⟨c, -, rfl⟩ := List.mem_map.1 hm
    exact traps_call h𝔱 c
  rw [Bool.eq_false_iff]
  intro heof
  exact ((h𝔱.checkEof _).1 heof).1 hbad

/-- **A failed call is final.** Whatever calls came before, once a call on the verifier's end
has failed no further calls lead to an end-of-argument check that passes, even if the failure
is ignored. -/
theorem failure_final [Zero E] (h𝔱 : 𝔱.Lawful) (codec : ChallengeCodec E) (session proof : List UInt8)
    (before after : List (VerifierCall F E T D)) (c : VerifierCall F E T D) (e : AkitaError) (v : 𝔱.Verifier)
    (hfail : (c.run codec).run (runAll (before.map (VerifierCall.run codec)) (𝔱.verifierNew session proof)) = .error e v) :
    𝔱.checkEof (runAll (after.map (VerifierCall.run codec)) v) = false := by
  have hv : 𝔱.poisoned v := (traps_call h𝔱 c _).2 e v hfail
  exact checkEof_of_poisoned h𝔱 codec hv after

theorem failure_final_truncated :
    ∃ v : plainBackend.Verifier,
      ((VerifierCall.op (.fieldGroup {} 2) : VerifierCall (ZMod 5) (ZMod 5) (FieldAtom (ZMod 5)) Unit).run
        emptyCodec).run (plainBackend.verifierNew [] [3, 9]) = .error .invalidProof v ∧
      plainBackend.checkEof (runAll ([VerifierCall.op (.byteGroup {} 2)].map (VerifierCall.run emptyCodec :
        VerifierCall (ZMod 5) (ZMod 5) (FieldAtom (ZMod 5)) Unit → _)) v) = false := by
  refine ⟨_, rfl, ?_⟩
  exact failure_final plainBackend_lawful emptyCodec [] [3, 9] [] _ (.op (.fieldGroup {} 2)) _ _ rfl

end Akita.Transcript
