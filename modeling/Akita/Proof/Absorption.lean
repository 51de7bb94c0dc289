import Akita.Proof.Agreement

/-!
# What the sponge absorbs tells the messages

The bytes an operation absorbs are whole words and split off the front of a stream in one
way only, for the messages its script admits. Over a script of any length two runs with
different messages therefore absorb streams of which neither continues the other.
-/

namespace Akita.Transcript

open Lib List

variable {F E T D : Type} [CanonicalEncoding F] [ExtField F E] [ProofAtom T]
  {𝔱 : TranscriptBackend} {codec : ChallengeCodec E} {h h' : List SpongeCall}

@[simp] theorem absorbed_append (a b : List SpongeCall) : absorbed (a ++ b) = absorbed a ++ absorbed b := by
  simp [absorbed]

@[simp] theorem absorbed_squeeze (n : ℕ) : absorbed [.squeeze n] = [] := rfl

@[simp] theorem absorbed_absorb_cons (b : List UInt8) (c : List SpongeCall) :
    absorbed (.absorb b :: c) = b ++ absorbed c := by
  simp [absorbed]

@[simp] theorem absorbed_nil : absorbed [] = [] := rfl

theorem absorbed_padCall (w : List UInt8) : absorbed (padCall w) = wordPadded w := by
  unfold padCall
  split
  · rename_i h; subst h; rfl
  · simp

theorem wordPadded_length (w : List UInt8) : (wordPadded w).length = nextMultipleOf w.length wordBytes := by
  have h : w.length ≤ nextMultipleOf w.length wordBytes := by
    unfold nextMultipleOf wordBytes; omega
  simp [wordPadded, h]

theorem padCall_whole (w : List UInt8) : 8 ∣ (absorbed (padCall w)).length := by
  rw [absorbed_padCall, wordPadded_length]
  exact Dvd.intro_left _ rfl

theorem padCall_prefixFreeOn {α : Type} {f : α → List UInt8} {S : Set α} (h : PrefixFreeOn f S) :
    PrefixFreeOn (fun a => absorbed (padCall (f a))) S := by
  simp only [absorbed_padCall]
  exact h.pad fun a => replicate (nextMultipleOf (f a).length wordBytes - (f a).length) 0

/-! ## One operation -/

theorem calls_whole (o : ChannelOp F E T D) (m : o.Message) : 8 ∣ (absorbed (o.calls m)).length := by
  cases o with
  | boundedBytes site maxLen =>
    have h := padCall_whole (m : List UInt8)
    simp only [ChannelOp.calls, absorbed_absorb_cons, length_append, leBytes_length]
    exact (Nat.dvd_add_right (dvd_refl 8)).2 h
  | nonce => simp [ChannelOp.calls, nonceWord]
  | challenges site count => simp [ChannelOp.calls]
  | challenge site => simp [ChannelOp.calls]
  | challengeMessage len decode => simp [ChannelOp.calls]
  | _ => exact padCall_whole _

/-- The length word of a bounded payload says how much of the padded stream is the payload. -/
theorem boundedBytes_prefixFreeOn (maxLen : ℕ) :
    PrefixFreeOn (fun b : List UInt8 => leBytes 8 b.length ++ absorbed (padCall b))
      {b | b.length ≤ maxLen ∧ b.length < 2 ^ 32} := by
  intro b hb c hc r s h
  simp only [append_assoc] at h
  have h8 : ∀ l : List UInt8, l.length < 2 ^ 32 → l.length ∈ {v | v < 256 ^ 8} := by
    intro l hl
    exact lt_trans hl (by norm_num)
  obtain ⟨hlen, h⟩ := leBytes_prefixFreeOn 8 _ (h8 b hb.2) _ (h8 c hc.2) _ _ h
  have hgroup := padCall_prefixFreeOn (takeN_canonical (β := UInt8) c.length).prefixFreeOn
  exact hgroup b hlen c rfl r s h

section

variable [Nontrivial F] [Nontrivial E] [LawfulEncoding F] [LawfulExtField F E] [LawfulAtom T]

theorem calls_prefixFreeOn (codec : ChallengeCodec E) (o : ChannelOp F E T D) :
    PrefixFreeOn (fun m => absorbed (o.calls m)) {m | o.Admits m ∧ o.Fits codec m} := by
  cases o with
  | fieldGroup site count =>
    have h : PrefixFreeOn (fun m : List F => encodeAtoms (m.map FieldAtom.mk)) {m | m.length = count} :=
      (encodeAtoms_canonical count).prefixFreeOn.comap (fun m hm => (length_map _).trans hm)
        (map_injective_iff.2 (fun _ _ h => FieldAtom.mk.inj h)).injOn
    exact (padCall_prefixFreeOn h).mono fun _ hm => hm.1
  | byteGroup site len =>
    exact (padCall_prefixFreeOn (takeN_canonical len).prefixFreeOn).mono fun _ hm => hm.1
  | boundedBytes site maxLen => 
    have h := boundedBytes_prefixFreeOn maxLen
    simp only [← absorbed_absorb_cons] at h
    exact h
  | extensionGroup site slots =>
    have h : PrefixFreeOn (fun m : List E => encodeAtoms (m.map (ExtensionAtom.mk (F := F)))) {m | m.length = slots.length} :=
      (encodeAtoms_canonical slots.length).prefixFreeOn.comap (fun m hm => (length_map _).trans hm)
        (map_injective_iff.2 (fun _ _ h => ExtensionAtom.mk.inj h)).injOn
    exact (padCall_prefixFreeOn h).mono fun _ hm => hm.1
  | exchange slots =>
    exact (padCall_prefixFreeOn (encodeAtoms_canonical slots.length).prefixFreeOn).mono fun _ hm => hm.1
  | nonce =>
    have h : PrefixFreeOn (fun n : UInt32 => leBytes 8 n.toNat) Set.univ :=
      (leBytes_prefixFreeOn 8).comap (fun n _ => lt_trans n.toNat_lt (by norm_num))
        (fun _ _ _ _ h => UInt32.toNat_inj.1 h)
    have h' : PrefixFreeOn (fun n : UInt32 => absorbed [.absorb (nonceWord n)]) Set.univ := by
      simpa [nonceWord] using h
    exact h'.mono fun _ _ => Set.mem_univ _
  | _ =>
    rintro ⟨⟩ - ⟨⟩ - r s h
    exact ⟨rfl, append_cancel_left h⟩

end

theorem absorbed_drawn (𝔱 : TranscriptBackend) (codec : ChallengeCodec E) (h : List SpongeCall) (n : ℕ) : absorbed (𝔱.drawn codec h n).2 = absorbed h := by
  unfold TranscriptBackend.drawn
  split <;> simp

variable {o : ChannelOp F E T D} {r : o.Reply}

omit [CanonicalEncoding F] [ExtField F E] [ProofAtom T] in
theorem absorbed_draw (hd : o.draw 𝔱 codec h = some (r, h')) : absorbed h' = absorbed h := by
  cases o with
  | challenges site count =>
    have hd' := congrArg Prod.snd (drawn_map_eq.1 hd)
    rw [← absorbed_drawn 𝔱 codec h count, hd']
  | challenge site =>
    obtain ⟨es, hd', -⟩ := drawn_last_eq.1 hd
    have hd'' : (𝔱.drawn codec h 1).2 = h' := congrArg Prod.snd hd'
    rw [← absorbed_drawn 𝔱 codec h 1, hd'']
  | challengeMessage len decode =>
    obtain ⟨-, rfl⟩ := decoded_map_eq.1 hd
    simp
  | _ =>
    obtain ⟨-, rfl⟩ := Prod.mk.inj (Option.some.inj hd)
    rfl

def ChannelOp.ZeroCount : ChannelOp F E T D → Prop
  | .publicBytes _ bytes => bytes = []
  | .publicFields _ values => values = []
  | .publicExtensions _ values => values = []
  | .fieldGroup _ count => count = 0
  | .byteGroup _ len => len = 0
  | .extensionGroup _ slots => slots = []
  | .exchange slots => slots = []
  | _ => False

theorem zeroCount_draw (h0 : o.ZeroCount) {m : o.Message} (hm : o.Admits m) (hd : o.draw 𝔱 codec (h ++ o.calls m) = some (r, h')) :
    h' = h := by
  have hcalls : o.calls m = [] := by
    cases o with
    | publicBytes site bytes => obtain rfl : bytes = [] := h0; rfl
    | publicFields site values => obtain rfl : values = [] := h0; rfl
    | publicExtensions site values => obtain rfl : values = [] := h0; rfl
    | fieldGroup site count =>
      obtain rfl : (m : List F) = [] := length_eq_zero_iff.1 (Eq.trans hm h0)
      rfl
    | byteGroup site len =>
      obtain rfl : (m : List UInt8) = [] := length_eq_zero_iff.1 (Eq.trans hm h0)
      rfl
    | extensionGroup site slots =>
      have hs : slots.length = 0 := length_eq_zero_iff.2 h0
      obtain rfl : (m : List E) = [] := length_eq_zero_iff.1 (Eq.trans hm hs)
      rfl
    | exchange slots =>
      have hs : slots.length = 0 := length_eq_zero_iff.2 h0
      obtain rfl : (m : List T) = [] := length_eq_zero_iff.1 (Eq.trans hm hs)
      rfl
    | _ => exact h0.elim
  rw [hcalls, append_nil] at hd
  cases o with
  | challenges site count => exact h0.elim
  | challenge site => exact h0.elim
  | challengeMessage len decode => exact h0.elim
  | _ =>
    obtain ⟨-, rfl⟩ := Prod.mk.inj (Option.some.inj hd)
    rfl

/-! ## Whole scripts -/

def scriptAbsorbed : (script : List (ChannelOp F E T D)) → Messages script → List UInt8
  | [], _ => []
  | o :: os, (m, ms) => absorbed (o.calls m) ++ scriptAbsorbed os ms

theorem Plays.absorbed_eq : ∀ {script : List (ChannelOp F E T D)} {ms : Messages script} {rs : Replies script}
    {h h' : List SpongeCall}, Plays 𝔱 codec script ms h rs h' →
    absorbed h' = absorbed h ++ scriptAbsorbed script ms := by
  intro script
  induction script with
  | nil =>
    intro ms rs h h' hp
    rw [show h' = h from hp]
    exact (append_nil _).symm
  | cons o os ih =>
    rintro ⟨m, ms⟩ ⟨r, rs⟩ h h' ⟨-, h1, hd, hp⟩
    rw [ih hp, absorbed_draw hd, absorbed_append, append_assoc]
    rfl

theorem scriptAbsorbed_whole : ∀ (script : List (ChannelOp F E T D)) (ms : Messages script),
    8 ∣ (scriptAbsorbed script ms).length := by
  intro script
  induction script with
  | nil => intro ms; exact dvd_zero 8
  | cons o os ih =>
    rintro ⟨m, ms⟩
    rw [scriptAbsorbed, length_append]
    exact (Nat.dvd_add_right (calls_whole o m)).2 (ih ms)

/-- The messages of a script can be read off the front of its stream in one way only. -/
theorem scriptAbsorbed_injective [Nontrivial F] [Nontrivial E] [LawfulEncoding F] [LawfulExtField F E]
    [LawfulAtom T] : ∀ {script : List (ChannelOp F E T D)} {ms ms' : Messages script}
    {rs rs' : Replies script} {h h1 h' h1' : List SpongeCall} {x y : List UInt8},
    Admitted script ms → Admitted script ms' → Plays 𝔱 codec script ms h rs h1 →
    Plays 𝔱 codec script ms' h' rs' h1' → scriptAbsorbed script ms ++ x = scriptAbsorbed script ms' ++ y →
    ms = ms' ∧ x = y := by
  intro script
  induction script with
  | nil => intro ms ms' rs rs' h h1 h' h1' x y _ _ _ _ hxy; exact ⟨rfl, hxy⟩
  | cons o os ih =>
    rintro ⟨m, ms⟩ ⟨m', ms'⟩ ⟨r, rs⟩ ⟨r', rs'⟩ h h1 h' h1' x y ⟨ha, has⟩ ⟨ha', has'⟩ ⟨hf, _, -, hp⟩ ⟨hf', _, -, hp'⟩ hxy
    simp only [scriptAbsorbed, append_assoc] at hxy
    obtain ⟨rfl, hrest⟩ := calls_prefixFreeOn codec o m ⟨ha, hf⟩ m' ⟨ha', hf'⟩ _ _ hxy
    obtain ⟨rfl, hxy'⟩ := ih has has' hp hp' hrest
    exact ⟨rfl, hxy'⟩

variable [Nontrivial F] [Nontrivial E] [LawfulEncoding F] [LawfulExtField F E] [LawfulAtom T]

/-- **Absorption is injective.** For every script, on both sides: a run absorbs a whole number
of words; two runs with different messages absorb streams of which neither continues the other
(so they differ, whatever follows them); and a group of no elements makes no call on the sponge. -/
theorem absorption_injective (h𝔱 : 𝔱.Lawful) (codec : ChallengeCodec E) (script : List (ChannelOp F E T D)) :
    (∀ (ms : Messages script) (rs : Replies script) (p p' : 𝔱.Prover), Admitted script ms →
      (proverRun codec script ms).run p = .ok rs p' →
      ∃ s, absorbed (𝔱.proverCalls p') = absorbed (𝔱.proverCalls p) ++ s ∧ 8 ∣ s.length) ∧
    (∀ (ms : Messages script) (rs : Replies script) (v v' : 𝔱.Verifier), ¬ 𝔱.poisoned v →
      (verifierRun codec script).run v = .ok (ms, rs) v' →
      ∃ s, absorbed (𝔱.verifierCalls v') = absorbed (𝔱.verifierCalls v) ++ s ∧ 8 ∣ s.length) ∧
    (∀ (ms ms' : Messages script) (rs rs' : Replies script) (p p1 p' p1' : 𝔱.Prover),
      𝔱.proverCalls p = 𝔱.proverCalls p' → Admitted script ms → Admitted script ms' →
      (proverRun codec script ms).run p = .ok rs p1 → (proverRun codec script ms').run p' = .ok rs' p1' →
      ms ≠ ms' → ∀ x y, absorbed (𝔱.proverCalls p1) ++ x ≠ absorbed (𝔱.proverCalls p1') ++ y) ∧
    (∀ (ms ms' : Messages script) (rs rs' : Replies script) (v v1 v' v1' : 𝔱.Verifier),
      𝔱.verifierCalls v = 𝔱.verifierCalls v' → ¬ 𝔱.poisoned v → ¬ 𝔱.poisoned v' →
      (verifierRun codec script).run v = .ok (ms, rs) v1 → (verifierRun codec script).run v' = .ok (ms', rs') v1' →
      ms ≠ ms' → ∀ x y, absorbed (𝔱.verifierCalls v1) ++ x ≠ absorbed (𝔱.verifierCalls v1') ++ y) ∧
    (∀ o ∈ script, o.ZeroCount → (∀ m r (p p' : 𝔱.Prover), o.Admits m → (o.proverStep codec m).run p = .ok r p' →
        𝔱.proverCalls p' = 𝔱.proverCalls p) ∧
      (∀ m r (v v' : 𝔱.Verifier), ¬ 𝔱.poisoned v → (o.verifierStep codec).run v = .ok (m, r) v' →
        𝔱.verifierCalls v' = 𝔱.verifierCalls v)) := by
  refine ⟨?_, ?_, ?_, ?_, ?_⟩
  · intro ms rs p p' ha hrun
    have hp := (proverRun_sound h𝔱 script ms p p' rs ha hrun).1
    exact ⟨_, hp.absorbed_eq, scriptAbsorbed_whole script ms⟩
  · intro ms rs v v' hv hrun
    obtain ⟨-, hp, -⟩ := verifierRun_sound h𝔱 script ms v v' rs hv hrun
    exact ⟨_, hp.absorbed_eq, scriptAbsorbed_whole script ms⟩
  · intro ms ms' rs rs' p p1 p' p1' hcalls ha ha' hrun hrun' hne x y hxy
    have hp := (proverRun_sound h𝔱 script ms p p1 rs ha hrun).1
    have hp' := (proverRun_sound h𝔱 script ms' p' p1' rs' ha' hrun').1
    rw [hp.absorbed_eq, hp'.absorbed_eq, hcalls, append_assoc, append_assoc] at hxy
    exact hne (scriptAbsorbed_injective ha ha' hp hp' (append_cancel_left hxy)).1
  · intro ms ms' rs rs' v v1 v' v1' hcalls hv hv' hrun hrun' hne x y hxy
    obtain ⟨ha, hp, -⟩ := verifierRun_sound h𝔱 script ms v v1 rs hv hrun
    obtain ⟨ha', hp', -⟩ := verifierRun_sound h𝔱 script ms' v' v1' rs' hv' hrun'
    rw [hp.absorbed_eq, hp'.absorbed_eq, hcalls, append_assoc, append_assoc] at hxy
    exact hne (scriptAbsorbed_injective ha ha' hp hp' (append_cancel_left hxy)).1
  · intro o _ h0
    refine ⟨fun m r p p' ha hrun => ?_, fun m r v v' hv hrun => ?_⟩
    · exact zeroCount_draw h0 ha ((proverStep_matches h𝔱 o m ha).sound p p' r hrun).2.1
    · obtain ⟨ha, -, -, hd, -⟩ := (verifierStep_matches h𝔱 o).sound v v' m r hv hrun
      exact zeroCount_draw h0 ha hd

/-- The sample messages with a payload that ends in a zero, which padding alone would not tell
from the one without it. -/
def sampleMessagesZero : Messages sampleScript :=
  (([1, 4] : List (ZMod 5)), (300 : UInt32), ([9, 0, 2, 0] : List UInt8), (), ())

theorem absorption_injective_sample : ∃ p p' : plainBackend.Prover,
      (proverRun emptyCodec sampleScript sampleMessages).run (plainBackend.proverNew []) = .ok ((), (), (), (), ()) p ∧
      (proverRun emptyCodec sampleScript sampleMessagesZero).run
        (plainBackend.proverNew []) = .ok ((), (), (), (), ()) p' ∧
      ∀ x y, absorbed (plainBackend.proverCalls p) ++ x ≠ absorbed (plainBackend.proverCalls p') ++ y := by
  have hadm : Admitted sampleScript sampleMessages := ⟨rfl, trivial, show 3 ≤ 4 by decide, trivial, trivial⟩
  have hadm' : Admitted sampleScript sampleMessagesZero := ⟨rfl, trivial, show 4 ≤ 4 by decide, trivial, trivial⟩
  have hne : sampleMessages ≠ sampleMessagesZero := by
    intro h
    have hb : ([9, 0, 2] : List UInt8) = [9, 0, 2, 0] := congrArg (fun m => m.2.2.1) h
    exact absurd hb (by decide)
  refine ⟨_, _, rfl, rfl, ?_⟩
  exact (absorption_injective plainBackend_lawful emptyCodec sampleScript).2.2.1 sampleMessages sampleMessagesZero
    _ _ _ _ _ _ rfl hadm hadm' rfl rfl hne

end Akita.Transcript
