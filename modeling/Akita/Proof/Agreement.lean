import Akita.Proof.Channel
import Akita.Proof.Reference

/-!
# The two ends of the channel agree

Each operation of a script is matched on both sides against its wire form, sponge calls
and draw (`proverStep_matches`, `verifierStep_matches`); a whole script is then a
sequence of such steps. A verifier that replays a script over the prover's argument
string receives the prover's messages and draws its challenges, and a string accepted
through the end of the argument is the one the prover emits for the received messages.
-/

namespace Akita.Transcript

open Lib List ProofChannel
open EStateM.Result (ok.inj)
open EStateM (run)
open Prod (mk.inj fst)
open Function (comp_def)

variable {F E T D : Type} [CanonicalEncoding F] [ExtField F E] [ProofAtom T]
  {𝔱 : TranscriptBackend} {codec : ChallengeCodec E} {o : ChannelOp F E T D} {r : o.Reply}

/-! ## One operation -/

/-- The prover's call does what the forms of the operation say. -/
structure ProverMatches (𝔱 : TranscriptBackend) (codec : ChallengeCodec E) (o : ChannelOp F E T D)
    (m : o.Message) : Prop where
  sound : ∀ (p p' : 𝔱.Prover) r, (o.proverStep codec m).run p = .ok r p' → o.Fits codec m ∧
    o.draw 𝔱 codec (𝔱.proverCalls p ++ o.calls m) = some (r, 𝔱.proverCalls p') ∧
    𝔱.argument p' = 𝔱.argument p ++ o.wire m
  complete : ∀ (p : 𝔱.Prover) r h, o.Fits codec m → o.draw 𝔱 codec (𝔱.proverCalls p ++ o.calls m) = some (r, h) →
    ∃ p' : 𝔱.Prover, (o.proverStep codec m).run p = .ok r p'

/-- The verifier's call accepts exactly the wire forms of the operation. -/
structure VerifierMatches (𝔱 : TranscriptBackend) (codec : ChallengeCodec E) (o : ChannelOp F E T D) : Prop where
  sound : ∀ (v v' : 𝔱.Verifier) m r, ¬ 𝔱.poisoned v → (o.verifierStep codec).run v = .ok (m, r) v' →
    o.Admits m ∧ o.Fits codec m ∧ 𝔱.remaining v = o.wire m ++ 𝔱.remaining v' ∧
    o.draw 𝔱 codec (𝔱.verifierCalls v ++ o.calls m) = some (r, 𝔱.verifierCalls v') ∧ ¬ 𝔱.poisoned v'
  complete : Reserves 𝔱 → ∀ (v : 𝔱.Verifier) m r h rest, ¬ 𝔱.poisoned v → o.Admits m → o.Fits codec m →
    𝔱.remaining v = o.wire m ++ rest → o.draw 𝔱 codec (𝔱.verifierCalls v ++ o.calls m) = some (r, h) →
    ∃ v' : 𝔱.Verifier, (o.verifierStep codec).run v = .ok (m, r) v'

theorem ProverMatches.of_emits {m : o.Message} {r : o.Reply} (hr : ∀ h, o.draw 𝔱 codec h = some (r, h))
    (he : Emits (𝔱 := 𝔱) (o.proverStep codec m) (o.Fits codec m) r (o.wire m) (o.calls m)) :
    ProverMatches 𝔱 codec o m where
  sound p p' r' h := by
    have hf := he.ok_of_run p r' p' h
    obtain ⟨p1, h1, ha, hc⟩ := he.run_ok p hf
    rw [h] at h1
    cases h1
    exact ⟨hf, by rw [hr, hc], ha⟩
  complete p r' h hf hd := by
    rw [hr] at hd
    obtain ⟨rfl, -⟩ := mk.inj (Option.some.inj hd)
    obtain ⟨p', h1, -⟩ := he.run_ok p hf
    exact ⟨p', h1⟩

theorem VerifierMatches.of_receives {x : Chan 𝔱.Verifier o.Message} (hr : ∀ h, o.draw 𝔱 codec h = some (r, h))
    (hx : o.verifierStep codec = x >>= fun m => pure (m, r)) (he : Receives x {m | o.Admits m ∧ o.Fits codec m} o.wire o.calls) :
    VerifierMatches 𝔱 codec o where
  sound v v' m r' hv h := by
    rw [hx] at h
    obtain ⟨m', u, h1, h2⟩ := run_bind_ok.1 h
    obtain ⟨hpair, rfl⟩ := ok.inj h2
    obtain ⟨rfl, rfl⟩ := mk.inj hpair
    obtain ⟨⟨ha, hf⟩, h1, h2, h3⟩ := he.sound v m' u hv h1
    exact ⟨ha, hf, h1, by rw [hr, h2], h3⟩
  complete hmem v m r' h rest hv ha hf hrest hd := by
    rw [hr] at hd
    obtain ⟨rfl, -⟩ := mk.inj (Option.some.inj hd)
    obtain ⟨v', h1⟩ := he.complete hmem v m rest hv ⟨ha, hf⟩ hrest
    exact ⟨v', by rw [hx]; exact run_bind_ok.2 ⟨m, v', h1, rfl⟩⟩

/-! ### Challenges -/

/-- A check that passes changes nothing. -/
def Transparent (S : Type) [ProofChannel S] : Prop := ∀ {α : Type} (r : Result α) (s s' : S) (a : α),
    (guard r : Chan S α).run s = .ok a s' ↔ r = .ok a ∧ s = s'

theorem prover_transparent : Transparent 𝔱.Prover := by
  intro α r s s' a
  cases r with
  | ok b => simp [ProofChannel.guard]
  | error e => simp [ProofChannel.guard]

theorem verifier_transparent : Transparent 𝔱.Verifier := by
  intro α r s s' a
  cases r with
  | ok b => simp [ProofChannel.guard, Except.isOk, Except.toBool]
  | error e => simp [ProofChannel.guard, Except.isOk, Except.toBool]

theorem usizeToU64_ok {n m : ℕ} {name : String} : usizeToU64 n name = .ok m ↔ n < 2 ^ 64 ∧ n = m := by
  unfold usizeToU64
  split <;> simp_all

theorem extChallenges_ok {S : Type} [ProofChannel S] (hS : Transparent S) (site : ProtocolSiteId) {n : ℕ} {s s' : S}
    {es : List E} : (extChallenges codec site n : Chan S (List E)).run s = .ok es s' ↔
      (codec.challengeBytes n).getD 0 < 2 ^ 64 ∧ (challenges codec n : Chan S (List E)).run s = .ok es s' := by
  unfold extChallenges
  simp only [run_bind_ok, hS _ _ _ _, usizeToU64_ok]
  constructor
  · rintro ⟨_, _, ⟨⟨h, rfl⟩, rfl⟩, h'⟩; exact ⟨h, h'⟩
  · rintro ⟨h, h'⟩; exact ⟨_, s, ⟨⟨h, rfl⟩, rfl⟩, h'⟩

theorem extChallenge_ok {S : Type} [ProofChannel S] (hS : Transparent S) (site : ProtocolSiteId) {s s' : S} {e : E} :
    (extChallenge codec site : Chan S E).run s = .ok e s' ↔ (codec.challengeBytes 1).getD 0 < 2 ^ 64 ∧
      ∃ es, (challenges codec 1 : Chan S (List E)).run s = .ok es s' ∧ es.getLast? = some e := by
  unfold extChallenge
  simp only [run_bind_ok, hS _ _ _ _, extChallenges_ok hS, okOr_eq_ok]
  constructor
  · rintro ⟨es, _, ⟨h, h'⟩, he, rfl⟩; exact ⟨h, es, h', he⟩
  · rintro ⟨h, es, h', he⟩; exact ⟨es, s', ⟨h, h'⟩, he, rfl⟩

section step

variable (h𝔱 : 𝔱.Lawful) {p p' : 𝔱.Prover} {n len : ℕ} {es : List E} {v v' : 𝔱.Verifier} {h h' : List SpongeCall} {d : D}
  {decode : List UInt8 → Result D}

include h𝔱

theorem proverChallenges_sound (h : (challenges codec n : Chan 𝔱.Prover (List E)).run p = .ok es p') :
    𝔱.drawn codec (𝔱.proverCalls p) n = (some es, 𝔱.proverCalls p') ∧ 𝔱.argument p' = 𝔱.argument p := by
  obtain ⟨hd, ha⟩ := h𝔱.proverVector codec p n
  simp only [challenges, liftOption, run] at h
  split at h
  · rename_i hv
    cases h
    rw [hv] at hd ha
    exact ⟨hd.symm, ha⟩
  · simp at h

theorem proverChallenges_complete (h : (𝔱.drawn codec (𝔱.proverCalls p) n).1 = some es) :
    ∃ p', (challenges codec n : Chan 𝔱.Prover (List E)).run p = .ok es p' := by
  rw [← (h𝔱.proverVector codec p n).1] at h
  refine ⟨(𝔱.proverVector codec p n).2, ?_⟩
  simp only [challenges, liftOption, run]
  split
  · rename_i hv; rw [hv] at h ⊢; simpa using h
  · rename_i hv; rw [hv] at h; simp at h

theorem verifierChallenges_sound (hv : ¬ 𝔱.poisoned v)
    (h : (challenges codec n : Chan 𝔱.Verifier (List E)).run v = .ok es v') :
    𝔱.drawn codec (𝔱.verifierCalls v) n = (some es, 𝔱.verifierCalls v') ∧
      𝔱.remaining v' = 𝔱.remaining v ∧ ¬ 𝔱.poisoned v' := by
  obtain ⟨hd, hp, ha⟩ := h𝔱.verifierVector codec v n hv
  simp only [challenges, liftOption, run] at h
  split at h
  · rename_i hx
    cases h
    rw [hx] at hd hp ha
    exact ⟨hd.symm, ha, by simpa using hp⟩
  · simp at h

theorem verifierChallenges_complete (hv : ¬ 𝔱.poisoned v) (h : (𝔱.drawn codec (𝔱.verifierCalls v) n).1 = some es) :
    ∃ v', (challenges codec n : Chan 𝔱.Verifier (List E)).run v = .ok es v' := by
  rw [← (h𝔱.verifierVector codec v n hv).1] at h
  refine ⟨(𝔱.verifierVector codec v n).2, ?_⟩
  simp only [challenges, liftOption, run]
  split
  · rename_i hx; rw [hx] at h ⊢; simpa using h
  · rename_i hx; rw [hx] at h; simp at h

omit h𝔱 in
theorem drawn_map_eq : ((𝔱.drawn codec h n).1.map fun es => (es, (𝔱.drawn codec h n).2)) = some (es, h') ↔
      𝔱.drawn codec h n = (some es, h') := by
  cases 𝔱.drawn codec h n with
  | mk o h1 => cases o <;> simp

omit h𝔱 in
theorem drawn_last_eq {e : E} :
    (((𝔱.drawn codec h n).1.bind List.getLast?).map fun e => (e, (𝔱.drawn codec h n).2)) = some (e, h') ↔
      ∃ es, 𝔱.drawn codec h n = (some es, h') ∧ es.getLast? = some e := by
  cases 𝔱.drawn codec h n with
  | mk o h1 =>
    cases o with
    | none => simp
    | some es =>
      simp only [Option.bind_some, Option.map_eq_some_iff, Prod.mk.injEq, Option.some.injEq]
      constructor
      · rintro ⟨e', he, rfl, rfl⟩; exact ⟨es, ⟨rfl, rfl⟩, he⟩
      · rintro ⟨_, ⟨rfl, rfl⟩, he⟩; exact ⟨e, he, rfl, rfl⟩

theorem proverChallenges_matches (site : ProtocolSiteId) (n : ℕ) (m : Unit) :
    ProverMatches 𝔱 codec (ChannelOp.challenges site n : ChannelOp F E T D) m where
  sound p p' r h := by
    obtain ⟨hf, h1⟩ := (extChallenges_ok prover_transparent site).1 h
    obtain ⟨hd, ha⟩ := proverChallenges_sound h𝔱 h1
    refine ⟨hf, drawn_map_eq.2 ?_, ha.trans (append_nil _).symm⟩
    exact (congrArg (𝔱.drawn codec · n) (append_nil _)).trans hd
  complete p r h hf hd := by
    have hd' : 𝔱.drawn codec (𝔱.proverCalls p ++ []) n = (some r, h) := drawn_map_eq.1 hd
    rw [append_nil] at hd'
    obtain ⟨p', h1⟩ := proverChallenges_complete h𝔱 (congrArg fst hd')
    exact ⟨p', (extChallenges_ok prover_transparent site).2 ⟨hf, h1⟩⟩

theorem proverChallenge_matches (site : ProtocolSiteId) (m : Unit) :
    ProverMatches 𝔱 codec (ChannelOp.challenge site : ChannelOp F E T D) m where
  sound p p' r h := by
    obtain ⟨hf, es, h1, he⟩ := (extChallenge_ok prover_transparent site).1 h
    obtain ⟨hd, ha⟩ := proverChallenges_sound h𝔱 h1
    refine ⟨hf, drawn_last_eq.2 ⟨es, ?_, he⟩, ha.trans (append_nil _).symm⟩
    exact (congrArg (𝔱.drawn codec · 1) (append_nil _)).trans hd
  complete p r h hf hd := by
    obtain ⟨es, hd', he⟩ : ∃ es, 𝔱.drawn codec (𝔱.proverCalls p ++ []) 1 = (some es, h) ∧
      es.getLast? = some (α := E) r := drawn_last_eq.1 hd
    rw [append_nil] at hd'
    obtain ⟨p', h1⟩ := proverChallenges_complete h𝔱 (congrArg fst hd')
    exact ⟨p', (extChallenge_ok prover_transparent site).2 ⟨hf, es, h1, he⟩⟩

omit h𝔱 in
theorem decoded_map_eq {r : Result D} : (r.toOption.map fun d => (d, h)) = some (d, h') ↔ r = .ok d ∧ h = h' := by
  cases r <;> simp [Except.toOption]

omit h𝔱 in
theorem proverChallengeMessage_ok : (challengeMessage len decode : Chan 𝔱.Prover D).run p = .ok d p' ↔
      decode (𝔱.proverSqueeze p len).1 = .ok d ∧ (𝔱.proverSqueeze p len).2 = p' := by
  simp only [challengeMessage, EStateM.run_bind, EStateM.run_modifyGet, run_ofResult_ok]

theorem proverChallengeMessage_matches (len : ℕ) (decode : List UInt8 → Result D) (m : Unit) :
    ProverMatches 𝔱 codec (ChannelOp.challengeMessage len decode : ChannelOp F E T D) m where
  sound p p' r h := by
    obtain ⟨hq, ha, hc⟩ := h𝔱.proverSqueeze p len
    obtain ⟨hd, rfl⟩ := proverChallengeMessage_ok.1 h
    refine ⟨trivial, decoded_map_eq.2 ⟨?_, ?_⟩, ha.trans (append_nil _).symm⟩
    · rw [← hd, hq]; exact congrArg (fun c => decode (𝔱.output c len)) (append_nil _)
    · rw [hc]; exact congrArg (· ++ [SpongeCall.squeeze len]) (append_nil _)
  complete p r h _ hd := by
    obtain ⟨hq, -, -⟩ := h𝔱.proverSqueeze p len
    obtain ⟨hd', -⟩ : decode (𝔱.output (𝔱.proverCalls p ++ []) len) = .ok r ∧ _ := decoded_map_eq.1 hd
    rw [append_nil, ← hq] at hd'
    exact ⟨_, proverChallengeMessage_ok.2 ⟨hd', rfl⟩⟩

theorem emits_boundedBytes {site : ProtocolSiteId} {bytes : List UInt8} {maxLen : ℕ} (h : bytes.length ≤ maxLen) :
    Emits (sendBoundedBytes site bytes maxLen : Chan 𝔱.Prover Unit) (bytes.length < 2 ^ 32) ()
      (leBytes 4 bytes.length ++ bytes) (.absorb (leBytes 8 bytes.length) :: padCall bytes) := by
  by_cases h32 : bytes.length < 2 ^ 32
  · have hlen : (UInt32.ofNat bytes.length).toNat = bytes.length := by
      rw [UInt32.toNat_ofNat', Nat.mod_eq_of_lt h32]
    have hrun : (sendBoundedBytes site bytes maxLen : Chan 𝔱.Prover Unit) =
        proverMessageWith (leBytes 8 bytes.length) (leBytes 4 bytes.length) >>= fun _ =>
          sendByteGroup (boundedBytesSites site).2 bytes := by
      simp only [sendBoundedBytes, if_neg (not_lt.2 h), if_neg (not_le.2 h32), lengthWord, hlen]
      rfl
    rw [hrun]
    have hsend := (emits_sendPadded h𝔱 bytes).guarded
      (groupRecord (boundedBytesSites site).2 .proofAtoms (some bytes.length) 1)
    refine ((emits_messageWith h𝔱 _ _).bind fun _ => hsend).congr ?_ rfl rfl
    simpa [groupRecord_bytes (show bytes.length < 2 ^ 64 by omega)] using h32
  · refine ⟨fun p hp => absurd hp h32, fun p b p' hr => ?_⟩
    simp only [sendBoundedBytes, if_neg (not_lt.2 h), if_pos (not_lt.1 h32)] at hr
    simp [EStateM.run_bind] at hr

theorem emits_extensionGroup (site : ProtocolSiteId) (m : List E) :
    Emits (exchangeExtensionGroup F site m : Chan 𝔱.Prover (List E))
      ((groupRecord site .proofAtoms (checkedMul usizeBits m.length (ExtField.degree F E))
        (CanonicalEncoding.numBytes F)).isOk = true) m
      (encodeAtoms (m.map (ExtensionAtom.mk (F := F)))) (padCall (encodeAtoms (m.map (ExtensionAtom.mk (F := F))))) := by
  have hm : (m.map (ExtensionAtom.mk (F := F))).map ExtensionAtom.intoInner = m := by simp [comp_def]
  have hx := (emits_exchange h𝔱 (m.map (ExtensionAtom.mk (F := F)))).map (map ExtensionAtom.intoInner)
  rw [hm] at hx
  exact (hx.guarded _).congr (by simp) rfl rfl

theorem proverStep_matches (o : ChannelOp F E T D) (m : o.Message) (hm : o.Admits m) : ProverMatches 𝔱 codec o m := by
  cases o with
  | publicBytes site bytes =>
    refine .of_emits (r := ()) (fun _ => rfl) ?_
    exact ((emits_publicMessage h𝔱 bytes).guarded _).congr (by simp [ChannelOp.Fits]) rfl rfl
  | publicFields site values =>
    refine .of_emits (r := ()) (fun _ => rfl) ?_
    exact ((emits_publicMessage h𝔱 _).guarded _).congr (by simp [ChannelOp.Fits]) rfl rfl
  | publicExtensions site values =>
    refine .of_emits (r := ()) (fun _ => rfl) ?_
    exact ((emits_publicMessage h𝔱 _).guarded _).congr (by simp [ChannelOp.Fits]) rfl rfl
  | fieldGroup site count =>
    have hlen : length (α := F) m = count := hm
    refine .of_emits (r := ()) (fun _ => rfl) ?_
    exact ((emits_sendPadded h𝔱 _).guarded _).congr (by rw [hlen]; simp [ChannelOp.Fits]) rfl rfl
  | byteGroup site len =>
    have hlen : length (α := UInt8) m = len := hm
    refine .of_emits (r := ()) (fun _ => rfl) ?_
    exact ((emits_sendPadded h𝔱 _).guarded _).congr (by rw [hlen]; simp [ChannelOp.Fits]) rfl rfl
  | boundedBytes site maxLen =>
    have hlen : length (α := UInt8) m ≤ maxLen := hm
    refine .of_emits (r := ()) (fun _ => rfl) ?_
    exact emits_boundedBytes h𝔱 hlen
  | extensionGroup site slots =>
    have hlen : length (α := E) m = slots.length := hm
    refine .of_emits (r := ()) (fun _ => rfl) ?_
    refine ((emits_extensionGroup h𝔱 site _).bind fun _ => Emits.pure ()).congr ?_ ?_ ?_
    · rw [hlen]; simp [ChannelOp.Fits]
    · simp [ChannelOp.wire]
    · simp [ChannelOp.calls]
  | exchange slots =>
    refine .of_emits (r := ()) (fun _ => rfl) ?_
    refine ((emits_exchange h𝔱 _).bind fun _ => Emits.pure ()).congr ?_ ?_ ?_
    · simp [ChannelOp.Fits]
    · simp [ChannelOp.wire]
    · simp [ChannelOp.calls]
  | nonce =>
    refine .of_emits (r := ()) (fun _ => rfl) ?_
    exact (emits_messageWith h𝔱 _ _).congr (by simp [ChannelOp.Fits]) rfl rfl
  | challenges site count => exact proverChallenges_matches h𝔱 site count m
  | challenge site => exact proverChallenge_matches h𝔱 site m
  | challengeMessage len decode => exact proverChallengeMessage_matches h𝔱 len decode m

/-! ### The verifier's operations -/

theorem verifierChallenges_matches (site : ProtocolSiteId) (n : ℕ) :
    VerifierMatches 𝔱 codec (ChannelOp.challenges site n : ChannelOp F E T D) where
  sound v v' m r hv h := by
    obtain ⟨es, u, h1, h2⟩ := run_bind_ok.1 h
    obtain ⟨hr, rfl⟩ := ok.inj h2
    obtain ⟨-, rfl⟩ := mk.inj hr
    obtain ⟨hf, h1⟩ := (extChallenges_ok verifier_transparent site).1 h1
    obtain ⟨hd, ha, hp⟩ := verifierChallenges_sound h𝔱 hv h1
    refine ⟨trivial, hf, ha.symm, drawn_map_eq.2 ?_, hp⟩
    exact (congrArg (𝔱.drawn codec · n) (append_nil _)).trans hd
  complete _ v m r h rest hv _ hf _ hd := by
    have hd' : 𝔱.drawn codec (𝔱.verifierCalls v ++ []) n = (some r, h) := drawn_map_eq.1 hd
    rw [append_nil] at hd'
    obtain ⟨v', h1⟩ := verifierChallenges_complete h𝔱 hv (congrArg fst hd')
    exact ⟨v', run_bind_ok.2 ⟨_, v', (extChallenges_ok verifier_transparent site).2 ⟨hf, h1⟩, rfl⟩⟩

theorem verifierChallenge_matches (site : ProtocolSiteId) :
    VerifierMatches 𝔱 codec (ChannelOp.challenge site : ChannelOp F E T D) where
  sound v v' m r hv h := by
    obtain ⟨e, u, h1, h2⟩ := run_bind_ok.1 h
    obtain ⟨hr, rfl⟩ := ok.inj h2
    obtain ⟨-, rfl⟩ := mk.inj hr
    obtain ⟨hf, es, h1, he⟩ := (extChallenge_ok verifier_transparent site).1 h1
    obtain ⟨hd, ha, hp⟩ := verifierChallenges_sound h𝔱 hv h1
    refine ⟨trivial, hf, ha.symm, drawn_last_eq.2 ⟨es, ?_, he⟩, hp⟩
    exact (congrArg (𝔱.drawn codec · 1) (append_nil _)).trans hd
  complete _ v m r h rest hv _ hf _ hd := by
    obtain ⟨es, hd', he⟩ : ∃ es, 𝔱.drawn codec (𝔱.verifierCalls v ++ []) 1 = (some es, h) ∧
      es.getLast? = some (α := E) r := drawn_last_eq.1 hd
    rw [append_nil] at hd'
    obtain ⟨v', h1⟩ := verifierChallenges_complete h𝔱 hv (congrArg fst hd')
    exact ⟨v', run_bind_ok.2 ⟨_, v', (extChallenge_ok verifier_transparent site).2 ⟨hf, es, h1, he⟩, rfl⟩⟩

omit h𝔱 in
theorem verifierCheck_ok {b : Bool} {a : Unit} :
    (verifierCheck b : Chan 𝔱.Verifier Unit).run v = .ok a v' ↔ (𝔱.check v b).1 = true ∧ (𝔱.check v b).2 = v' := by
  simp only [verifierCheck, run]
  split
  · rename_i h; simp [h]
  · rename_i h; simp [h]

theorem verifierChallengeMessage_ok (hv : ¬ 𝔱.poisoned v) :
    (challengeMessage len decode : Chan 𝔱.Verifier D).run v = .ok d v' ↔
      decode (𝔱.output (𝔱.verifierCalls v) len) = .ok d ∧
        (𝔱.check (𝔱.verifierSqueeze (𝔱.check v true).2 len).2 true).2 = v' := by
  have hc0 := (h𝔱.check_view v true).2
  have hp0 : ¬ 𝔱.poisoned (𝔱.check v true).2 := by simp [h𝔱.check_poisoned, hv]
  obtain ⟨hq, hp1, -, -⟩ := h𝔱.verifierSqueeze (𝔱.check v true).2 len
  rw [hc0] at hq
  have hp2 : ¬ 𝔱.poisoned (𝔱.verifierSqueeze (𝔱.check v true).2 len).2 := hp1.not.2 hp0
  simp only [challengeMessage, run_bind_ok, verifierCheck_ok, EStateM.run_modifyGet,
    EStateM.Result.ok.injEq, run_ofResult_ok]
  constructor
  · rintro ⟨-, _, ⟨-, rfl⟩, _, _, ⟨rfl, rfl⟩, -, _, ⟨-, rfl⟩, hd, rfl⟩
    refine ⟨by rw [← hq]; exact hd, ?_⟩
    rw [hd]; rfl
  · rintro ⟨hd, rfl⟩
    rw [← hq] at hd
    refine ⟨(), _, ⟨(h𝔱.check_ok v true).2 ⟨hv, rfl⟩, rfl⟩, _, _, ⟨rfl, rfl⟩, (), _, ⟨?_, ?_⟩, hd, rfl⟩
    · rw [hd]; exact (h𝔱.check_ok _ true).2 ⟨hp2, rfl⟩
    · rw [hd]; rfl

theorem verifierChallengeMessage_matches (len : ℕ) (decode : List UInt8 → Result D) :
    VerifierMatches 𝔱 codec (ChannelOp.challengeMessage len decode : ChannelOp F E T D) where
  sound v v' m r hv h := by
    obtain ⟨d, u, h1, h2⟩ := run_bind_ok.1 h
    obtain ⟨hr, rfl⟩ := ok.inj h2
    obtain ⟨-, rfl⟩ := mk.inj hr
    obtain ⟨hd, rfl⟩ := (verifierChallengeMessage_ok h𝔱 hv).1 h1
    obtain ⟨-, hp1, hr1, hc1⟩ := h𝔱.verifierSqueeze (𝔱.check v true).2 len
    have hview0 := h𝔱.check_view v true
    have hview1 := h𝔱.check_view (𝔱.verifierSqueeze (𝔱.check v true).2 len).2 true
    refine ⟨trivial, trivial, ?_, decoded_map_eq.2 ⟨?_, ?_⟩, ?_⟩
    · rw [hview1.1, hr1, hview0.1]; rfl
    · exact (congrArg (fun c => decode (𝔱.output c len)) (append_nil _)).trans hd
    · rw [hview1.2, hc1, hview0.2]; exact congrArg (· ++ [SpongeCall.squeeze len]) (append_nil _)
    · simp [h𝔱.check_poisoned, hp1, hv]
  complete _ v m r h rest hv _ _ _ hd := by
    obtain ⟨hd', -⟩ : decode (𝔱.output (𝔱.verifierCalls v ++ []) len) = .ok r ∧ _ := decoded_map_eq.1 hd
    rw [append_nil] at hd'
    exact ⟨_, run_bind_ok.2 ⟨_, _, (verifierChallengeMessage_ok h𝔱 hv).2 ⟨hd', rfl⟩, rfl⟩⟩

theorem receives_fieldGroup [LawfulEncoding F] [Nontrivial F] (site : ProtocolSiteId) (count : ℕ) :
    Receives (receiveFieldGroup site count : Chan 𝔱.Verifier (List F)) {m | m.length = count ∧
        (groupRecord site .proofAtoms (some count) (CanonicalEncoding.numBytes F)).isOk = true}
      (fun m => encodeAtoms (m.map FieldAtom.mk)) fun m => padCall (encodeAtoms (m.map FieldAtom.mk)) := by
  have hx := (receives_atoms h𝔱 (T := FieldAtom F) count).map
    (map FieldAtom.intoInner) (map FieldAtom.mk) (by simp [comp_def])
  refine (hx.guarded _).congr ?_ (fun _ _ => rfl) fun _ _ => rfl
  intro m
  simp [comp_def, and_comm]

theorem receives_extensionGroup [LawfulEncoding F] [LawfulExtField F E] [Nontrivial F] [Nontrivial E]
    (site : ProtocolSiteId) (slots : List E) : Receives (exchangeExtensionGroup F site slots : Chan 𝔱.Verifier (List E))
      {m | m.length = slots.length ∧ (groupRecord site .proofAtoms
        (checkedMul usizeBits slots.length (ExtField.degree F E)) (CanonicalEncoding.numBytes F)).isOk = true}
      (fun m => encodeAtoms (m.map (ExtensionAtom.mk (F := F))))
      fun m => padCall (encodeAtoms (m.map (ExtensionAtom.mk (F := F)))) := by
  have hx := (receives_exchange h𝔱 (slots.map (ExtensionAtom.mk (F := F)))).map
    (map ExtensionAtom.intoInner) (map ExtensionAtom.mk) (by simp [comp_def])
  refine (hx.guarded _).congr ?_ (fun _ _ => rfl) fun _ _ => rfl
  intro m
  simp [comp_def, and_comm]

variable [Nontrivial F] [Nontrivial E] [LawfulEncoding F] [LawfulExtField F E] [LawfulAtom T]

theorem verifierStep_matches (o : ChannelOp F E T D) : VerifierMatches 𝔱 codec o := by
  cases o with
  | publicBytes site bytes =>
    refine .of_receives (r := ()) (fun _ => rfl) (by rfl) ?_
    exact ((receives_publicMessage h𝔱 bytes).guarded _).congr
      (fun _ => ⟨fun h => ⟨trivial, h.1⟩, fun h => ⟨h.2, rfl⟩⟩) (fun _ _ => rfl) fun _ _ => rfl
  | publicFields site values =>
    refine .of_receives (r := ()) (fun _ => rfl) (by rfl) ?_
    exact ((receives_publicMessage h𝔱 _).guarded _).congr
      (fun _ => ⟨fun h => ⟨trivial, h.1⟩, fun h => ⟨h.2, rfl⟩⟩) (fun _ _ => rfl) fun _ _ => rfl
  | publicExtensions site values =>
    refine .of_receives (r := ()) (fun _ => rfl) (by rfl) ?_
    exact ((receives_publicMessage h𝔱 _).guarded _).congr
      (fun _ => ⟨fun h => ⟨trivial, h.1⟩, fun h => ⟨h.2, rfl⟩⟩) (fun _ _ => rfl) fun _ _ => rfl
  | fieldGroup site count =>
    refine .of_receives (r := ()) (fun _ => rfl) (by rfl) ?_
    exact receives_fieldGroup h𝔱 site count
  | byteGroup site len =>
    refine .of_receives (r := ()) (fun _ => rfl) (by rfl) ?_
    exact (receives_byteGroup h𝔱 site len).congr (fun _ => and_comm) (fun _ _ => rfl) fun _ _ => rfl
  | boundedBytes site maxLen =>
    refine .of_receives (r := ()) (fun _ => rfl) (by rfl) ?_
    exact receives_boundedBytes h𝔱 site maxLen
  | extensionGroup site slots =>
    refine .of_receives (r := ()) (fun _ => rfl) (by rfl) ?_
    exact receives_extensionGroup h𝔱 site slots
  | exchange slots =>
    refine .of_receives (r := ()) (fun _ => rfl) (by rfl) ?_
    exact (receives_exchange h𝔱 slots).congr (fun _ => ⟨fun h => ⟨h, trivial⟩, fun h => h.1⟩) (fun _ _ => rfl)
      fun _ _ => rfl
  | nonce =>
    refine .of_receives (r := ()) (fun _ => rfl) (by rfl) ?_
    exact (receives_messageWith h𝔱 nonceFromNarg_canonical _).congr
      (fun _ => ⟨fun _ => ⟨trivial, trivial⟩, fun _ => trivial⟩) (fun _ _ => rfl) fun _ _ => rfl
  | challenges site count => exact verifierChallenges_matches h𝔱 site count
  | challenge site => exact verifierChallenge_matches h𝔱 site
  | challengeMessage len decode => exact verifierChallengeMessage_matches h𝔱 len decode

end step

/-! ## Whole scripts -/

def scriptWire : (script : List (ChannelOp F E T D)) → Messages script → List UInt8
  | [], _ => []
  | o :: os, (m, ms) => o.wire m ++ scriptWire os ms

/-- The sponge calls and draws of a script with given messages, from one sequence of calls to
another. -/
def Plays (𝔱 : TranscriptBackend) (codec : ChallengeCodec E) : (script : List (ChannelOp F E T D)) →
    Messages script → List SpongeCall → Replies script → List SpongeCall → Prop
  | [], _, h, _, h' => h' = h
  | o :: os, (m, ms), h, (r, rs), h' => o.Fits codec m ∧
    ∃ h1, o.draw 𝔱 codec (h ++ o.calls m) = some (r, h1) ∧ Plays 𝔱 codec os ms h1 rs h'

theorem Plays.unique : ∀ {script : List (ChannelOp F E T D)} {ms : Messages script} {rs rs' : Replies script}
    {h h1 h2 : List SpongeCall}, Plays 𝔱 codec script ms h rs h1 → Plays 𝔱 codec script ms h rs' h2 → h1 = h2 := by
  intro script
  induction script with
  | nil => intro ms rs rs' h h1 h2 hp hp'; exact hp.trans hp'.symm
  | cons o os ih =>
    rintro ⟨m, ms⟩ ⟨r, rs⟩ ⟨r', rs'⟩ h h1 h2 ⟨-, u, hd, hp⟩ ⟨-, u', hd', hp'⟩
    rw [hd] at hd'
    obtain ⟨-, rfl⟩ := mk.inj (Option.some.inj hd')
    exact ih hp hp'

theorem proverRun_sound (h𝔱 : 𝔱.Lawful) : ∀ (script : List (ChannelOp F E T D)) (ms : Messages script)
    (p p' : 𝔱.Prover) (rs : Replies script), Admitted script ms → (proverRun codec script ms).run p = .ok rs p' →
    Plays 𝔱 codec script ms (𝔱.proverCalls p) rs (𝔱.proverCalls p') ∧
      𝔱.argument p' = 𝔱.argument p ++ scriptWire script ms := by
  intro script
  induction script with
  | nil =>
    intro ms p p' rs _ h
    obtain ⟨-, rfl⟩ := ok.inj h
    exact ⟨rfl, (append_nil _).symm⟩
  | cons o os ih =>
    rintro ⟨m, ms⟩ p p' ⟨r, rs⟩ ⟨hm, hms⟩ h
    obtain ⟨r', u, h1, h⟩ := run_bind_ok.1 h
    obtain ⟨rs', u', h2, h⟩ := run_bind_ok.1 h
    obtain ⟨hpair, rfl⟩ := ok.inj h
    obtain ⟨rfl, rfl⟩ := mk.inj hpair
    obtain ⟨hf, hd, ha⟩ := (proverStep_matches h𝔱 o m hm).sound p u r' h1
    obtain ⟨hplay, ha'⟩ := ih ms u u' rs' hms h2
    refine ⟨⟨hf, _, hd, hplay⟩, ?_⟩
    rw [ha', ha, append_assoc]
    rfl

theorem proverRun_complete (h𝔱 : 𝔱.Lawful) : ∀ (script : List (ChannelOp F E T D)) (ms : Messages script)
    (p : 𝔱.Prover) (rs : Replies script) (h : List SpongeCall), Admitted script ms →
    Plays 𝔱 codec script ms (𝔱.proverCalls p) rs h → ∃ p', (proverRun codec script ms).run p = .ok rs p' := by
  intro script
  induction script with
  | nil => intro ms p rs h _ _; exact ⟨p, rfl⟩
  | cons o os ih =>
    rintro ⟨m, ms⟩ p ⟨r, rs⟩ h ⟨hm, hms⟩ ⟨hf, h1, hd, hplay⟩
    obtain ⟨u, hu⟩ := (proverStep_matches h𝔱 o m hm).complete p r h1 hf hd
    obtain ⟨-, hd', -⟩ := (proverStep_matches h𝔱 o m hm).sound p u r hu
    rw [hd] at hd'
    obtain ⟨-, rfl⟩ := mk.inj (Option.some.inj hd')
    obtain ⟨p', hp'⟩ := ih ms u rs h hms hplay
    exact ⟨p', run_bind_ok.2 ⟨r, u, hu, run_bind_ok.2 ⟨rs, p', hp', rfl⟩⟩⟩

section

variable [Nontrivial F] [Nontrivial E] [LawfulEncoding F] [LawfulExtField F E] [LawfulAtom T]

theorem verifierRun_sound (h𝔱 : 𝔱.Lawful) : ∀ (script : List (ChannelOp F E T D)) (ms : Messages script)
    (v v' : 𝔱.Verifier) (rs : Replies script), ¬ 𝔱.poisoned v → (verifierRun codec script).run v = .ok (ms, rs) v' →
    Admitted script ms ∧ Plays 𝔱 codec script ms (𝔱.verifierCalls v) rs (𝔱.verifierCalls v') ∧
      𝔱.remaining v = scriptWire script ms ++ 𝔱.remaining v' ∧ ¬ 𝔱.poisoned v' := by
  intro script
  induction script with
  | nil =>
    intro ms v v' rs hv h
    obtain ⟨-, rfl⟩ := ok.inj h
    exact ⟨trivial, rfl, rfl, hv⟩
  | cons o os ih =>
    rintro ⟨m, ms⟩ v v' ⟨r, rs⟩ hv h
    obtain ⟨⟨m', r'⟩, u, h1, h⟩ := run_bind_ok.1 h
    obtain ⟨⟨ms', rs'⟩, u', h2, h⟩ := run_bind_ok.1 h
    obtain ⟨hpair, rfl⟩ := ok.inj h
    obtain ⟨hms, hrs⟩ := mk.inj hpair
    obtain ⟨rfl, rfl⟩ := mk.inj hms
    obtain ⟨rfl, rfl⟩ := mk.inj hrs
    obtain ⟨ha, hf, hr, hd, hu⟩ := (verifierStep_matches h𝔱 o).sound v u m' r' hv h1
    obtain ⟨ha', hplay, hr', hu'⟩ := ih ms' u u' rs' hu h2
    refine ⟨⟨ha, ha'⟩, ⟨hf, _, hd, hplay⟩, ?_, hu'⟩
    rw [hr, hr', ← append_assoc]
    rfl

theorem verifierRun_complete (h𝔱 : 𝔱.Lawful) (hmem : Reserves 𝔱) : ∀ (script : List (ChannelOp F E T D))
    (ms : Messages script) (v : 𝔱.Verifier) (rs : Replies script) (h : List SpongeCall) (rest : List UInt8),
    ¬ 𝔱.poisoned v → Admitted script ms → 𝔱.remaining v = scriptWire script ms ++ rest →
    Plays 𝔱 codec script ms (𝔱.verifierCalls v) rs h → ∃ v', (verifierRun codec script).run v = .ok (ms, rs) v' := by
  intro script
  induction script with
  | nil => intro ms v rs h rest _ _ _ _; exact ⟨v, rfl⟩
  | cons o os ih =>
    rintro ⟨m, ms⟩ v ⟨r, rs⟩ h rest hv ⟨hm, hms⟩ hrest ⟨hf, h1, hd, hplay⟩
    have hrest' : 𝔱.remaining v = o.wire m ++ (scriptWire os ms ++ rest) := by
      rw [hrest, ← append_assoc]; rfl
    obtain ⟨u, hu⟩ := (verifierStep_matches h𝔱 o).complete hmem v m r h1 _ hv hm hf hrest' hd
    obtain ⟨-, -, hr, hd', hpu⟩ := (verifierStep_matches h𝔱 o).sound v u m r hv hu
    rw [hd] at hd'
    obtain ⟨-, rfl⟩ := mk.inj (Option.some.inj hd')
    have hru : 𝔱.remaining u = scriptWire os ms ++ rest := append_cancel_left (hr.symm.trans hrest')
    obtain ⟨v', hv'⟩ := ih ms u rs h rest hpu hms hru hplay
    exact ⟨v', run_bind_ok.2 ⟨(m, r), u, hu, run_bind_ok.2 ⟨(ms, rs), v', hv', rfl⟩⟩⟩

/-- **Prover and verifier agree, and the argument string is the only one.** For every script:
over the prover's argument string the verifier receives the prover's messages, makes the same
sponge calls, draws the same challenges and reaches the end of the argument; and a string on
which the verifier's replay succeeds through the end is the one the prover emits when it sends
what the verifier received. -/
theorem channel_agreement (h𝔱 : 𝔱.Lawful) (codec : ChallengeCodec E) (session : List UInt8)
    (script : List (ChannelOp F E T D)) :
    (∀ (ms : Messages script) (rs : Replies script) (p : 𝔱.Prover), Reserves 𝔱 → Admitted script ms →
      (proverRun codec script ms).run (𝔱.proverNew session) = .ok rs p →
      ∃ v, (verifierRun codec script).run (𝔱.verifierNew session (𝔱.argument p)) = .ok (ms, rs) v ∧
        𝔱.verifierCalls v = 𝔱.proverCalls p ∧ 𝔱.checkEof v = true) ∧
    (∀ (proof : List UInt8) (ms : Messages script) (rs : Replies script) (v : 𝔱.Verifier),
      (verifierRun codec script).run (𝔱.verifierNew session proof) = .ok (ms, rs) v → 𝔱.checkEof v = true →
      Admitted script ms ∧ ∃ p, (proverRun codec script ms).run (𝔱.proverNew session) = .ok rs p ∧
        𝔱.argument p = proof) := by
  obtain ⟨hpa, hpc⟩ := h𝔱.proverNew session
  refine ⟨fun ms rs p hmem hms hrun => ?_, fun proof ms rs v hrun heof => ?_⟩
  · obtain ⟨hvr, hvc, hvp⟩ := h𝔱.verifierNew session (𝔱.argument p)
    obtain ⟨hplay, harg⟩ := proverRun_sound h𝔱 script ms _ p rs hms hrun
    rw [hpa, nil_append] at harg
    rw [hpc, ← hvc] at hplay
    have hrem : 𝔱.remaining (𝔱.verifierNew session (𝔱.argument p)) = scriptWire script ms ++ [] := by
      rw [hvr, harg, append_nil]
    obtain ⟨v, hv⟩ := verifierRun_complete h𝔱 hmem script ms _ rs _ [] hvp hms hrem hplay
    obtain ⟨-, hplay', hr', hp'⟩ := verifierRun_sound h𝔱 script ms _ v rs hvp hv
    refine ⟨v, hv, hplay'.unique hplay, (h𝔱.checkEof v).2 ⟨hp', ?_⟩⟩
    exact (append_cancel_left (hr'.symm.trans hrem))
  · obtain ⟨hvr, hvc, hvp⟩ := h𝔱.verifierNew session proof
    obtain ⟨hms, hplay, hr, -⟩ := verifierRun_sound h𝔱 script ms _ v rs hvp hrun
    rw [hvc, ← hpc] at hplay
    rw [hvr, ((h𝔱.checkEof v).1 heof).2, append_nil] at hr
    obtain ⟨p, hp⟩ := proverRun_complete h𝔱 script ms _ rs _ hms hplay
    obtain ⟨-, harg⟩ := proverRun_sound h𝔱 script ms _ p rs hms hp
    rw [hpa, nil_append] at harg
    exact ⟨hms, p, hp, harg.trans hr.symm⟩

/-- A script of two field elements, a nonce, a bounded payload and a public string. -/
def sampleScript : List (ChannelOp (ZMod 5) (ZMod 5) (FieldAtom (ZMod 5)) Unit) :=
  [.fieldGroup { family := 1 } 2, .nonce, .boundedBytes { family := 1 } 4, .publicBytes { family := 2 } [7]]

def sampleMessages : Messages sampleScript :=
  (([1, 4] : List (ZMod 5)), (300 : UInt32), ([9, 0, 2] : List UInt8), (), ())

theorem channel_agreement_sample : ∃ (p : plainBackend.Prover) (v : plainBackend.Verifier),
      (proverRun emptyCodec sampleScript sampleMessages).run (plainBackend.proverNew []) = .ok ((), (), (), (), ()) p ∧
      plainBackend.argument p = [1, 4, 0xac, 2, 3, 0, 0, 0, 9, 0, 2] ∧ (verifierRun emptyCodec sampleScript).run
        (plainBackend.verifierNew [] (plainBackend.argument p)) = .ok (sampleMessages, ((), (), (), (), ())) v ∧
      plainBackend.verifierCalls v = plainBackend.proverCalls p ∧ plainBackend.checkEof v = true := by
  have hrun : (proverRun emptyCodec sampleScript sampleMessages).run
      (plainBackend.proverNew []) = .ok ((), (), (), (), ())
        (⟨[1, 4, 0xac, 2, 3, 0, 0, 0, 9, 0, 2], [.absorb [], .absorb [1, 4, 0, 0, 0, 0, 0, 0],
          .absorb [0x2c, 1, 0, 0, 0, 0, 0, 0], .absorb [3, 0, 0, 0, 0, 0, 0, 0],
          .absorb [9, 0, 2, 0, 0, 0, 0, 0], .absorb [7, 0, 0, 0, 0, 0, 0, 0]]⟩ : PlainProver) := by
    rfl
  have hadm : Admitted sampleScript sampleMessages := ⟨rfl, trivial, show 3 ≤ 4 by decide, trivial, trivial⟩
  obtain ⟨v, hv⟩ := (channel_agreement plainBackend_lawful _ [] sampleScript).1 _ _ _ plainBackend_reserves hadm hrun
  exact ⟨_, v, hrun, rfl, hv⟩

end

end Akita.Transcript
