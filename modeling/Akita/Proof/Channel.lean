import Akita.Spec.Script
import Akita.Proof.Atoms

/-!
# What each channel operation puts on the wire and into the sponge

The wire form, the sponge calls and the draw of an operation are stated once, for both
parties (`ChannelOp.wire`, `ChannelOp.calls`, `ChannelOp.draw`). The prover's call
appends the wire form and makes the calls; the verifier's call accepts exactly the wire
forms and makes the same calls.
-/

namespace Akita.Transcript

open Lib List
open Except (isOk)
open EStateM (run run_bind)

variable {F E T D : Type}

/-- The sponge calls of one padded message: none when it is empty. -/
def padCall (wire : List UInt8) : List SpongeCall :=
  if wire = [] then [] else [.absorb (wordPadded wire)]

namespace ChannelOp

section

variable [CanonicalEncoding F] [ExtField F E] [ProofAtom T]

/-- The bytes of an operation in the argument string. -/
def wire : (o : ChannelOp F E T D) → o.Message → List UInt8
  | .fieldGroup _ _, (m : List F) => encodeAtoms (m.map FieldAtom.mk)
  | .byteGroup _ _, (m : List UInt8) => m
  | .boundedBytes _ _, (m : List UInt8) => leBytes 4 m.length ++ m
  | .extensionGroup _ _, (m : List E) => encodeAtoms (m.map (ExtensionAtom.mk (F := F)))
  | .exchange _, (m : List T) => encodeAtoms m
  | .nonce, (m : UInt32) => nonceWire m
  | _, _ => []

def calls : (o : ChannelOp F E T D) → o.Message → List SpongeCall
  | .publicBytes _ bytes, _ => padCall bytes
  | .publicFields _ values, _ => padCall (encodeAtoms (values.map FieldAtom.mk))
  | .publicExtensions _ values, _ => padCall (encodeAtoms (values.map (ExtensionAtom.mk (F := F))))
  | .fieldGroup _ _, (m : List F) => padCall (encodeAtoms (m.map FieldAtom.mk))
  | .byteGroup _ _, (m : List UInt8) => padCall m
  | .boundedBytes _ _, (m : List UInt8) => .absorb (leBytes 8 m.length) :: padCall m
  | .extensionGroup _ _, (m : List E) => padCall (encodeAtoms (m.map (ExtensionAtom.mk (F := F))))
  | .exchange _, (m : List T) => padCall (encodeAtoms m)
  | .nonce, (m : UInt32) => [.absorb (nonceWord m)]
  | _, _ => []

/-- The context record of the operation can be built. -/
def Fits (codec : ChallengeCodec E) : (o : ChannelOp F E T D) → o.Message → Prop
  | .publicBytes site bytes, _ => (groupRecord site .publicValue (some bytes.length) 1).isOk
  | .publicFields site values, _ =>
    (groupRecord site .publicValue (some values.length) (CanonicalEncoding.numBytes F)).isOk
  | .publicExtensions site values, _ => (groupRecord site .publicValue
      (checkedMul usizeBits values.length (ExtField.degree F E)) (CanonicalEncoding.numBytes F)).isOk
  | .fieldGroup site count, _ =>
    (groupRecord site .proofAtoms (some count) (CanonicalEncoding.numBytes F)).isOk
  | .byteGroup site len, _ => (groupRecord site .proofAtoms (some len) 1).isOk
  | .boundedBytes _ _, (m : List UInt8) => m.length < 2 ^ 32
  | .extensionGroup site slots, _ => (groupRecord site .proofAtoms
      (checkedMul usizeBits slots.length (ExtField.degree F E)) (CanonicalEncoding.numBytes F)).isOk
  | .challenges _ count, _ => (codec.challengeBytes count).getD 0 < 2 ^ 64
  | .challenge _, _ => (codec.challengeBytes 1).getD 0 < 2 ^ 64
  | _, _ => True

end

/-- What an operation draws after a sequence of sponge calls, and the calls after it. -/
def draw (𝔱 : TranscriptBackend) (codec : ChallengeCodec E) :
    (o : ChannelOp F E T D) → List SpongeCall → Option (o.Reply × List SpongeCall)
  | .challenges _ count, h => (𝔱.drawn codec h count).1.map fun es => (es, (𝔱.drawn codec h count).2)
  | .challenge _, h => ((𝔱.drawn codec h 1).1.bind List.getLast?).map fun e => (e, (𝔱.drawn codec h 1).2)
  | .challengeMessage len decode, h => (decode (𝔱.output h len)).toOption.map fun d => (d, h ++ [.squeeze len])
  | .publicBytes _ _, h => some ((), h)
  | .publicFields _ _, h => some ((), h)
  | .publicExtensions _ _, h => some ((), h)
  | .fieldGroup _ _, h => some ((), h)
  | .byteGroup _ _, h => some ((), h)
  | .boundedBytes _ _, h => some ((), h)
  | .extensionGroup _ _, h => some ((), h)
  | .exchange _, h => some ((), h)
  | .nonce, h => some ((), h)

end ChannelOp

/-! ## Running the channel primitives -/

section run

variable {𝔱 : TranscriptBackend} {c c' : List SpongeCall}
  {α β σ : Type} {a : α} {P : Prop} {w' : List UInt8} {r : Result α}

@[simp] theorem run_ofResult (r : Result α) (s : σ) : (ofResult r : Chan σ α).run s =
    match r with
    | .ok a => .ok a s
    | .error e => .error e s := by
  cases r <;> rfl

@[simp] theorem run_throw (e : AkitaError) (s : σ) : (throw e : Chan σ α).run s = .error e s := rfl

theorem run_ofResult_ok {s s' : σ} : (ofResult r : Chan σ α).run s = .ok a s' ↔ r = .ok a ∧ s = s' := by
  cases r <;> simp

theorem groupRecord_bytes {site : ProtocolSiteId} {kind : ProtocolMessageKind} {n : ℕ} (h : n < 2 ^ 64) :
    (groupRecord site kind (some n) 1).isOk = true := by
  have hm : checkedMul usizeBits n 1 = some n := checkedMul_eq_some.2 ⟨by simpa [usizeBits] using h, by simp⟩
  have h1 : ∀ name, usizeToU64 n name = .ok n := fun name => if_pos h
  simp only [groupRecord, okOr, bind, Except.bind, hm, h1]
  rfl

theorem isOk_iff : r.isOk = true ↔ ∃ a, r = .ok a := by
  cases r <;> simp [isOk, Except.toBool]

@[simp] theorem run_reject (v : 𝔱.Verifier) :
    (reject : Chan 𝔱.Verifier AkitaError).run v = .ok .invalidProof (𝔱.check v false).2 := rfl

theorem run_receiveAtoms [ProofAtom T] (count : ℕ) (v : 𝔱.Verifier) :
    (receiveAtoms count : Chan 𝔱.Verifier (List T)).run v =
      if 𝔱.verifierReserve v count then
        if count = 0 then .ok [] v
        else (verifierMessageWith (readMany ProofAtom.fromNarg count) fun atoms => wordPadded (encodeAtoms atoms)).run v
      else .error .invalidProof (𝔱.check v false).2 := by
  unfold receiveAtoms
  rw [run_bind]
  cases h : 𝔱.verifierReserve v count with
  | false => simp [h]
  | true =>
    by_cases h0 : count = 0
    · subst h0; simp [h]
    · simp [h, h0]

/-! ### Prover -/

/-- An operation that appends `wire` to the argument string and makes `calls`, or fails. -/
structure Emits {α : Type} (m : Chan 𝔱.Prover α) (ok : Prop) (a : α) (wire : List UInt8)
    (calls : List SpongeCall) : Prop where
  run_ok : ∀ p, ok → ∃ p', m.run p = .ok a p' ∧ 𝔱.argument p' = 𝔱.argument p ++ wire ∧
    𝔱.proverCalls p' = 𝔱.proverCalls p ++ calls
  ok_of_run : ∀ p b p', m.run p = .ok b p' → ok

theorem Emits.pure (a : α) : Emits (Pure.pure a : Chan 𝔱.Prover α) True a [] [] where
  run_ok p _ := ⟨p, rfl, by simp, by simp⟩
  ok_of_run _ _ _ _ := trivial

theorem Emits.bind {m : Chan 𝔱.Prover α} {f : α → Chan 𝔱.Prover β} {Q : Prop} {b : β} {w : List UInt8}
    (hm : Emits m P a w c) (hf : P → Emits (f a) Q b w' c') : Emits (m >>= f) (P ∧ Q) b (w ++ w') (c ++ c') where
  run_ok p h := by
    obtain ⟨p1, h1, ha1, hc1⟩ := hm.run_ok p h.1
    obtain ⟨p2, h2, ha2, hc2⟩ := (hf h.1).run_ok p1 h.2
    refine ⟨p2, run_bind_ok.2 ⟨a, p1, h1, h2⟩, ?_, ?_⟩
    · rw [ha2, ha1, append_assoc]
    · rw [hc2, hc1, append_assoc]
  ok_of_run p x p' h := by
    obtain ⟨a', p1, h1, h2⟩ := run_bind_ok.1 h
    have hP := hm.ok_of_run p a' p1 h1
    obtain ⟨p1', h1', -⟩ := hm.run_ok p hP
    rw [h1] at h1'
    obtain ⟨rfl, -⟩ := EStateM.Result.ok.inj h1'
    exact ⟨hP, (hf hP).ok_of_run p1 x p' h2⟩

theorem Emits.congr {m : Chan 𝔱.Prover α} {Q : Prop} {w : List UInt8} (h : Emits m P a w c) (hP : P ↔ Q)
    (hw : w = w') (hc : c = c') : Emits m Q a w' c' := by
  subst hw hc
  rwa [← propext hP]

theorem Emits.map {m : Chan 𝔱.Prover α} {w : List UInt8} (h : Emits m P a w c) (g : α → β) :
    Emits (m >>= fun x => Pure.pure (g x)) P (g a) w c :=
  (h.bind fun _ => Emits.pure (g a)).congr (by simp) (by simp) (by simp)

theorem Emits.guarded {m : Chan 𝔱.Prover α} {w : List UInt8} (h : Emits m P a w c) (r : Result β) :
    Emits (do let _ ← ProofChannel.guard (S := 𝔱.Prover) r; m) (r.isOk = true ∧ P) a w c := by
  cases r with
  | ok b =>
    refine h.congr (by simp [isOk, Except.toBool]) rfl rfl
  | error e =>
    refine ⟨fun p hp => by simp [isOk, Except.toBool] at hp, fun p b p' h => ?_⟩
    exact absurd h (by simp [ProofChannel.guard, run_bind])

variable (h𝔱 : 𝔱.Lawful) {w : α → List UInt8} {m : Chan 𝔱.Verifier α} {S : Set α}

include h𝔱

theorem emits_messageWith (a w : List UInt8) :
    Emits (proverMessageWith a w : Chan 𝔱.Prover Unit) True () w [.absorb a] where
  run_ok p _ := ⟨𝔱.send p a w, rfl, h𝔱.send p a w⟩
  ok_of_run _ _ _ _ := trivial

theorem emits_sendPadded (w : List UInt8) : Emits (sendPadded w : Chan 𝔱.Prover Unit) True () w (padCall w) := by
  unfold sendPadded padCall
  cases w with
  | nil => exact Emits.pure ()
  | cons b w => simpa using emits_messageWith h𝔱 _ _

theorem emits_publicMessage (bytes : List UInt8) :
    Emits (ProofChannel.publicMessage bytes : Chan 𝔱.Prover Unit) True () [] (padCall bytes) := by
  cases bytes with
  | nil => exact Emits.pure ()
  | cons b bytes =>
    refine ⟨fun p _ => ⟨𝔱.proverPublic p (wordPadded (b :: bytes)), rfl, ?_⟩, fun _ _ _ _ => trivial⟩
    simpa [padCall] using h𝔱.proverPublic p (wordPadded (b :: bytes))

theorem emits_exchange [ProofAtom T] (m : List T) :
    Emits (ProofChannel.exchange m : Chan 𝔱.Prover (List T)) True m (encodeAtoms m) (padCall (encodeAtoms m)) := by
  refine ((emits_sendPadded h𝔱 (encodeAtoms m)).bind fun _ => Emits.pure m).congr (by simp) ?_ ?_
  · simp
  · simp

omit h𝔱

/-! ### Verifier -/

def Reserves (𝔱 : TranscriptBackend) : Prop := ∀ v n, 𝔱.verifierReserve v n = true

/-- An operation that accepts exactly the wire forms of the values in `S`, from a state that
is not poisoned, and makes `calls`. -/
structure Receives {α : Type} (m : Chan 𝔱.Verifier α) (S : Set α) (wire : α → List UInt8)
    (calls : α → List SpongeCall) : Prop where
  sound : ∀ v a v', ¬ 𝔱.poisoned v → m.run v = .ok a v' → a ∈ S ∧ 𝔱.remaining v = wire a ++ 𝔱.remaining v' ∧
    𝔱.verifierCalls v' = 𝔱.verifierCalls v ++ calls a ∧ ¬ 𝔱.poisoned v'
  complete : Reserves 𝔱 → ∀ v a rest, ¬ 𝔱.poisoned v → a ∈ S → 𝔱.remaining v = wire a ++ rest → ∃ v', m.run v = .ok a v'

theorem Receives.pure (a : α) : Receives (Pure.pure a : Chan 𝔱.Verifier α) {a} (fun _ => []) fun _ => [] where
  sound v b v' hv h := by
    cases h
    exact ⟨rfl, by simp, by simp, hv⟩
  complete _ v b rest _ hb _ := ⟨v, by rw [Set.mem_singleton_iff.1 hb]; rfl⟩

/-- The second operation may depend on what the first returned, which its own result tells. -/
theorem Receives.bind {f : α → Chan 𝔱.Verifier β} {c : α → List SpongeCall} {U : α → Set β} {x : α → β → List UInt8}
    {y : α → β → List SpongeCall} (hm : Receives m S w c) (hf : ∀ a ∈ S, Receives (f a) (U a) (x a) (y a))
    (key : β → α) (hkey : ∀ a ∈ S, ∀ b ∈ U a, key b = a) :
    Receives (m >>= f) {b | key b ∈ S ∧ b ∈ U (key b)} (fun b => w (key b) ++ x (key b) b)
      fun b => c (key b) ++ y (key b) b where
  sound v b v' hv h := by
    obtain ⟨a, u, h1, h2⟩ := run_bind_ok.1 h
    obtain ⟨ha, hr1, hc1, hu⟩ := hm.sound v a u hv h1
    obtain ⟨hb, hr2, hc2, hv'⟩ := (hf a ha).sound u b v' hu h2
    obtain rfl := hkey a ha b hb
    refine ⟨⟨ha, hb⟩, ?_, ?_, hv'⟩
    · rw [hr1, hr2, append_assoc]
    · rw [hc2, hc1, append_assoc]
  complete hmem v b rest hv hb hrest := by
    obtain ⟨ha, hb⟩ := hb
    simp only [append_assoc] at hrest
    obtain ⟨u, h1⟩ := hm.complete hmem v (key b) _ hv ha hrest
    obtain ⟨-, hr1, -, hu⟩ := hm.sound v _ u hv h1
    have hru : 𝔱.remaining u = x (key b) b ++ rest := append_cancel_left (hr1.symm.trans hrest)
    obtain ⟨v', h2⟩ := (hf _ ha).complete hmem u b rest hu hb hru
    exact ⟨v', run_bind_ok.2 ⟨_, u, h1, h2⟩⟩

theorem Receives.map
    {c : α → List SpongeCall} (hm : Receives m S w c) (g : α → β) (key : β → α) (hkey : ∀ a, key (g a) = a) :
    Receives (do let a ← m; Pure.pure (g a)) {b | key b ∈ S ∧ b = g (key b)} (fun b => w (key b)) fun b => c (key b) := by
  have h := hm.bind (fun a _ => Receives.pure (𝔱 := 𝔱) (g a)) key (fun a _ b hb => by
    rw [Set.mem_singleton_iff.1 hb, hkey])
  simpa using h

theorem Receives.congr {S' : Set α} {w' : α → List UInt8}
    {c c' : α → List SpongeCall} (h : Receives m S w c) (hS : ∀ a, a ∈ S ↔ a ∈ S') (hw : ∀ a ∈ S, w a = w' a)
    (hc : ∀ a ∈ S, c a = c' a) : Receives m S' w' c' where
  sound v a v' hv hr := by
    obtain ⟨ha, h1, h2, h3⟩ := h.sound v a v' hv hr
    exact ⟨(hS a).1 ha, hw a ha ▸ h1, hc a ha ▸ h2, h3⟩
  complete hmem v a rest hv ha hr := by
    have ha' := (hS a).2 ha
    exact h.complete hmem v a rest hv ha' ((hw a ha').symm ▸ hr)

theorem Receives.guarded {c : α → List SpongeCall} (h : Receives m S w c) (r : Result β) :
    Receives (do let _ ← ProofChannel.guard (S := 𝔱.Verifier) r; m) {a | r.isOk = true ∧ a ∈ S} w c := by
  cases r with
  | ok b => exact h.congr (by simp [isOk, Except.toBool]) (fun _ _ => rfl) fun _ _ => rfl
  | error e =>
    refine ⟨fun v a v' _ hr => ?_, fun _ v a rest _ ha _ => ?_⟩
    · exact absurd hr (by simp [ProofChannel.guard, isOk, Except.toBool])
    · simp [isOk, Except.toBool] at ha

include h𝔱

theorem receives_messageWith {r : Reader UInt8 α} (hr : Canonical r w S) (f : α → List UInt8) :
    Receives (verifierMessageWith r f : Chan 𝔱.Verifier α) S w fun a => [.absorb (f a)] where
  sound v a v' hv h := by
    cases hp : r (𝔱.remaining v) with
    | none =>
      have h0 := (h𝔱.receive_none v r f hp).1
      simp only [verifierMessageWith, liftOption, run] at h
      split at h
      · rename_i heq; rw [heq] at h0; simp at h0
      · simp at h
    | some x =>
      obtain ⟨b, rest⟩ := x
      obtain ⟨h1, h2, h3, h4⟩ := h𝔱.receive_some v r f b rest hv hp
      simp only [verifierMessageWith, liftOption, run] at h
      split at h
      · rename_i b' s heq
        rw [heq] at h1 h2 h3 h4
        cases h
        cases h1
        obtain ⟨hS, hrem⟩ := (hr _ _ _).1 hp
        simp only at h2
        exact ⟨hS, by rw [h2]; exact hrem, h4, h3⟩
      · simp at h
  complete _ v a rest hv ha hrest := by
    obtain ⟨h1, -⟩ := h𝔱.receive_some v r f a rest hv ((hr _ _ _).2 ⟨ha, hrest⟩)
    refine ⟨(𝔱.receive v r f).2, ?_⟩
    simp only [verifierMessageWith, liftOption, run]
    split
    · rename_i heq; rw [heq] at h1 ⊢; simpa using h1
    · rename_i heq; rw [heq] at h1; simp at h1

theorem receives_publicMessage (bytes : List UInt8) :
    Receives (ProofChannel.publicMessage bytes : Chan 𝔱.Verifier Unit) {()} (fun _ => []) fun _ => padCall bytes := by
  cases bytes with
  | nil => exact Receives.pure ()
  | cons b bytes =>
    have h := h𝔱.verifierPublic
    refine ⟨fun v a v' hv hr => ?_, fun _ v a rest hv _ _ => ⟨_, rfl⟩⟩
    obtain ⟨-, rfl⟩ := EStateM.Result.ok.inj hr
    obtain ⟨h1, h2, h3⟩ := h v (wordPadded (b :: bytes))
    exact ⟨rfl, h2.symm, by simpa [padCall] using h3, fun hp => hv (h1.1 hp)⟩

theorem receives_atoms [ProofAtom T] [LawfulAtom T] (count : ℕ) :
    Receives (receiveAtoms count : Chan 𝔱.Verifier (List T)) {l | l.length = count} encodeAtoms
      fun l => padCall (encodeAtoms l) := by
  have hread : count ≠ 0 → Receives (verifierMessageWith (readMany ProofAtom.fromNarg count)
      fun atoms => wordPadded (encodeAtoms atoms) : Chan 𝔱.Verifier (List T)) {l | l.length = count}
      encodeAtoms fun l => padCall (encodeAtoms l) := by
    intro h0
    refine (receives_messageWith h𝔱 (encodeAtoms_canonical count) _).congr (fun _ => Iff.rfl)
      (fun _ _ => rfl) fun l hl => ?_
    have hne : l ≠ [] := by
      rintro rfl
      exact h0 hl.symm
    rw [padCall, if_neg (encodeAtoms_eq_nil.not.2 hne)]
  refine ⟨fun v l v' hv hr => ?_, fun hmem v l rest hv hl hrest => ?_⟩
  · rw [run_receiveAtoms] at hr
    split at hr
    · split at hr
      · cases hr
        rename_i h0
        exact ⟨h0.symm, by simp [encodeAtoms], by simp [encodeAtoms, padCall], hv⟩
      · rename_i h0
        exact (hread h0).sound v l v' hv hr
    · simp at hr
  · rw [run_receiveAtoms, if_pos (hmem v count)]
    split
    · rename_i h0
      obtain rfl : l = [] := length_eq_zero_iff.1 (hl.trans h0)
      exact ⟨v, rfl⟩
    · rename_i h0
      exact (hread h0).complete hmem v l rest hv hl hrest

theorem receives_exchange [ProofAtom T] [LawfulAtom T] (slots : List T) :
    Receives (ProofChannel.exchange slots : Chan 𝔱.Verifier (List T)) {l | l.length = slots.length} encodeAtoms
      fun l => padCall (encodeAtoms l) := by
  have hr := receives_atoms h𝔱 (T := T) slots.length
  have hset : ∀ l : List T, l.length = slots.length → l.take slots.length ++ slots.drop l.length = l := by
    intro l hl
    rw [← hl, take_length, hl, drop_length, append_nil]
  refine (hr.bind (U := fun l => {l}) (x := fun _ _ => []) (y := fun _ _ => []) (fun l hl => ?_) id ?_).congr ?_ ?_ ?_
  · exact (hset l hl).symm ▸ Receives.pure (𝔱 := 𝔱) l
  · intro a _ b hb; exact hb
  · simp
  · simp
  · simp

theorem receives_byteGroup (site : ProtocolSiteId) (len : ℕ) :
    Receives (receiveByteGroup site len : Chan 𝔱.Verifier (List UInt8))
      {b | (groupRecord site .proofAtoms (some len) 1).isOk = true ∧ b.length = len} id padCall := by
  unfold receiveByteGroup
  refine Receives.guarded (S := {b : List UInt8 | b.length = len}) ?_ _
  split
  · rename_i h0
    refine (Receives.pure ([] : List UInt8)).congr ?_ ?_ ?_
    · simp [h0, length_eq_zero_iff]
    · simp
    · simp [padCall]
  · rename_i h0
    refine (receives_messageWith h𝔱 (takeN_canonical len) _).congr (fun _ => Iff.rfl) (fun _ _ => rfl) ?_
    intro b hb
    have hne : b ≠ [] := by
      rintro rfl
      exact h0 hb.symm
    rw [padCall, if_neg hne]

theorem receives_boundedBytes (site : ProtocolSiteId) (maxLen : ℕ) :
    Receives (receiveBoundedBytes site maxLen : Chan 𝔱.Verifier (List UInt8))
      {b | b.length ≤ maxLen ∧ b.length < 2 ^ 32} (fun b => leBytes 4 b.length ++ b)
      fun b => .absorb (leBytes 8 b.length) :: padCall b := by
  have hlen := receives_messageWith h𝔱 h𝔱.u32FromNarg lengthWord
  -- the payload tells its length, so the two reads join
  refine (hlen.bind (U := fun n => {b : List UInt8 | b.length = n.toNat ∧ n.toNat ≤ maxLen}) (x := fun _ => id)
    (y := fun _ => padCall) (fun n _ => ?_) (fun b => UInt32.ofNat b.length) ?_).congr ?_ ?_ ?_
  · split
    · rename_i hn
      refine (receives_byteGroup h𝔱 _ n.toNat).congr ?_ (fun _ _ => rfl) fun _ _ => rfl
      intro b
      have := n.toNat_lt
      simp [groupRecord_bytes (show n.toNat < 2 ^ 64 by omega), hn]
    · rename_i hn
      refine ⟨fun v a v' _ h => ?_, fun _ v a rest _ ha _ => absurd ha.2 hn⟩
      simp [run_bind] at h
  · rintro n - b ⟨hb, -⟩
    rw [hb, UInt32.ofNat_toNat]
  · intro b
    simp only [Set.mem_univ, Set.mem_ofPred_eq, true_and, UInt32.toNat_ofNat']
    omega
  · rintro b ⟨-, hb, -⟩
    simp only [← hb, id]
  · rintro b ⟨-, hb, -⟩
    simp only [lengthWord, ← hb]
    rfl

end run

end Akita.Transcript
