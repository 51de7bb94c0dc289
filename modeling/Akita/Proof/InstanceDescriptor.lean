import Akita.Proof.Absorption
import Akita.Spec.InstanceDescriptor

/-!
# The instance descriptor is canonical

Every section decoder accepts exactly the encodings of the sections it would return
(`Decodes`), each proved field by field from the word and digest readers. For the descriptor
this says that bytes and checked values correspond one to one, that an encoding splits off the
front of any source in one way only, and that the words a channel absorbs of it tell it.
-/

namespace Akita.Descriptor

open Lib Opening Word
open List hiding Vector
open Schedule (Digest DecompositionParams SisModulusProfileId)
open Set (univ mem_ofPred_eq)

/-! ## Words -/

/-- Narrowing accepts exactly the words of the values. -/
class LawfulWord (T : Type) [Word T] : Prop where
  tryFromWord : ∀ (w : UInt64) (t : T), tryFromWord w = some t ↔ w = toWord t

instance : LawfulWord UInt8 where
  tryFromWord w t := by
    simp only [tryFromWord, toWord]
    split
    · rename_i h
      rw [Option.some.injEq, ← UInt8.toNat_inj, ← UInt64.toNat_inj, UInt64.toNat_toUInt8, UInt8.toNat_toUInt64]
      omega
    · rename_i h
      rw [← UInt64.toNat_inj, UInt8.toNat_toUInt64]
      have := t.toNat_lt
      simp only [reduceCtorEq, false_iff]
      omega

instance : LawfulWord UInt32 where
  tryFromWord w t := by
    simp only [tryFromWord, toWord]
    split
    · rename_i h
      rw [Option.some.injEq, ← UInt32.toNat_inj, ← UInt64.toNat_inj, UInt64.toNat_toUInt32, UInt32.toNat_toUInt64]
      omega
    · rename_i h
      rw [← UInt64.toNat_inj, UInt32.toNat_toUInt64]
      have := t.toNat_lt
      simp only [reduceCtorEq, false_iff]
      omega

instance : LawfulWord UInt64 where
  tryFromWord w t := by simp [tryFromWord, toWord]

theorem require_eq_ok {p : Prop} [Decidable p] {msg : String} {u : Unit} : require p msg = .ok u ↔ p := by
  unfold require
  split <;> simp_all

@[simp] theorem writeWord_length (w : UInt64) : (writeWord w).length = wordBytes := leBytes_length _ _

theorem leValue_writeWord (w : UInt64) : UInt64.ofNat (leValue (writeWord w)) = w := by
  have hw : w.toNat < 256 ^ 8 := lt_of_lt_of_le w.toNat_lt (by norm_num)
  rw [writeWord, leValue_leBytes, wordBytes, Nat.mod_eq_of_lt hw, UInt64.ofNat_toNat]

theorem writeWord_leValue {bs : List UInt8} (h : bs.length = wordBytes) :
    writeWord (UInt64.ofNat (leValue bs)) = bs := by
  have hlt : leValue bs < 2 ^ 64 := lt_of_lt_of_eq (leValue_lt bs) (by rw [h]; rfl)
  rw [writeWord, UInt64.toNat_ofNat_of_lt' hlt, ← h, leBytes_leValue]

theorem readExact_decodes (n : ℕ) : Decodes (readExact n) Vector.toList univ := by
  intro bs v rest
  unfold readExact
  simp only [Set.mem_univ, true_and]
  split
  · rename_i h
    simp only [Except.ok.injEq, Prod.mk.injEq]
    constructor
    · rintro ⟨rfl, rfl⟩
      simp
    · rintro rfl
      have hv : v.toList.length = n := by simp
      exact ⟨by ext i; simp [take_left' hv], drop_left' hv⟩
  · rename_i h
    simp only [reduceCtorEq, false_iff]
    rintro rfl
    simp at h

/-- A word's conversion, read as a decoder of nothing: it yields the value whose word this is. -/
theorem tryFromWord_decodes (T : Type) [Word T] [LawfulWord T] (word : UInt64) (e : SerializationError) :
    Decodes (Decoder.lift (match tryFromWord (T := T) word with
      | some t => .ok t
      | none => .error e) : Decode T) (fun _ => []) {t | word = toWord t} := by
  refine (Decodes.lift _).congr (fun t => ?_) fun _ _ => rfl
  rw [mem_ofPred_eq, mem_ofPred_eq, ← LawfulWord.tryFromWord]
  cases tryFromWord (T := T) word <;> simp

theorem readWordAs_decodes (T : Type) [Word T] [LawfulWord T] (field : String) :
    Decodes (readWordAs T field) (fun t => writeWord (toWord t)) univ := by
  have key_list : ∀ t : T, (Vector.mk (writeWord (toWord t)).toArray (by simp) : Vector UInt8 wordBytes).toList =
      writeWord (toWord t) := fun t => by simp
  refine ((readExact_decodes wordBytes).bind (fun word _ => tryFromWord_decodes T (UInt64.ofNat (leValue word.toList)) _)
    (fun t => ⟨(writeWord (toWord t)).toArray, by simp⟩) ?_).congr (fun t => ?_) fun t _ => ?_
  · intro word _ t ht
    rw [← Vector.toList_inj, key_list, ← Set.mem_ofPred_eq.mp ht, writeWord_leValue (by simp)]
  · simp only [Set.mem_univ, true_and, iff_true, mem_ofPred_eq]
    rw [key_list, leValue_writeWord]
  · rw [key_list, append_nil]

theorem readTag_decodes {T : Type} (field : String) {ofTag : ℕ → Except SerializationError T} {tag : T → UInt64}
    (h : ∀ n t, ofTag n = .ok t ↔ n = (tag t).toNat) :
    Decodes (readTag field ofTag) (fun t => writeWord (tag t)) univ := by
  refine ((readWordAs_decodes UInt64 field).bind (fun v _ => Decodes.lift (ofTag v.toNat)) tag ?_).congr
    (fun t => ?_) fun t _ => append_nil _
  · intro v _ t ht
    exact UInt64.toNat_inj.1 ((h _ _).1 ht).symm
  · simp [h]

theorem readBoolWord_decodes (field : String) :
    Decodes (readBoolWord field) (fun b => writeWord (if b then 1 else 0)) univ := by
  refine readTag_decodes field fun n b => ?_
  rcases n with _ | _ | n
  · cases b <;> simp
  · cases b <;> simp
  · cases b <;> simp

theorem decodeSisModulusProfile_decodes :
    Decodes decodeSisModulusProfile (fun p => writeWord (toWord p.descriptorTag)) univ := by
  refine readTag_decodes _ fun n p => ?_
  rcases n with _ | _ | _ | n
  · cases p <;> simp [SisModulusProfileId.descriptorTag, toWord]
  · cases p <;> simp [SisModulusProfileId.descriptorTag, toWord]
  · cases p <;> simp [SisModulusProfileId.descriptorTag, toWord]
  · cases p <;> simp [SisModulusProfileId.descriptorTag, toWord]

theorem decodeBasisMode_decodes : Decodes decodeBasisMode (fun b => writeWord (toWord (basisModeTag b))) univ := by
  refine readTag_decodes _ fun n b => ?_
  rcases n with _ | _ | n
  · cases b <;> simp [basisModeTag, toWord]
  · cases b <;> simp [basisModeTag, toWord]
  · cases b <;> simp [basisModeTag, toWord]

theorem fromTag_decodes (tag : UInt8) (e : SerializationError) :
    Decodes (Decoder.lift (match CompressionPolicyId.fromTag tag with
      | some policy => .ok policy
      | none => .error e) : Decode CompressionPolicyId) (fun _ => []) {p | p.tag = tag} := by
  refine (Decodes.lift _).congr (fun p => ?_) fun _ _ => rfl
  cases p
  unfold CompressionPolicyId.fromTag CompressionPolicyId.tag
  by_cases h : tag = 4
  · simp [h]
  · simpa [h] using Ne.symm h

theorem decodeCompressionPolicy_decodes : Decodes decodeCompressionPolicy (fun p => writeWord (toWord p.tag)) univ := by
  refine ((readWordAs_decodes UInt8 _).bind (fun tag _ => fromTag_decodes tag _) CompressionPolicyId.tag ?_).congr
    (fun p => ?_) fun p _ => append_nil _
  · intro tag _ p hp
    exact hp
  · simp

/-- What a vector of `n` words needs: its length, and the allocator's grant. -/
def Granted (reserve : ℕ → Bool) (n : ℕ) : Set (List UInt32) := {l | l.length = n ∧ reserve n = true}

theorem readWordVector_decodes (reserve : ℕ → Bool) {n : ℕ} (hn : n < 2 ^ 64) (field : String) :
    Decodes (readWordVector reserve n field) writeWordVector (Granted reserve n) := by
  have hwords : Decodes (decodeMany (readWordAs UInt32 field) n)
      (fun l => l.flatMap fun value => writeWord (toWord value)) {l | l.length = n} :=
    ((readWordAs_decodes UInt32 field).many n).congr (by simp) fun _ _ => rfl
  have hbody : ∀ len : UInt64, Decodes (do
      Decoder.lift (require (len.toNat = n) ("descriptor " ++ field ++ " count mismatch"))
      Decoder.lift (require (reserve n = true) ("descriptor " ++ field ++ " allocation failed"))
      decodeMany (readWordAs UInt32 field) n : Decode (List UInt32))
      (fun l => l.flatMap fun value => writeWord (toWord value))
      {l | l ∈ Granted reserve n ∧ UInt64.ofNat l.length = len} := by
    intro len
    refine ((Decodes.lift _).bind (fun _ _ => (Decodes.lift _).bind (fun _ _ => hwords) (fun _ => ()) ?_)
      (fun _ => ()) ?_).congr (fun l => ?_) fun _ _ => rfl
    · exact fun _ _ _ _ => rfl
    · exact fun _ _ _ _ => rfl
    · simp only [mem_ofPred_eq, require_eq_ok, Granted]
      constructor
      · rintro ⟨hlen, hr, hl⟩
        exact ⟨⟨hl, hr⟩, by rw [hl, ← hlen, UInt64.ofNat_toNat]⟩
      · rintro ⟨⟨hl, hr⟩, rfl⟩
        exact ⟨by rw [hl, UInt64.toNat_ofNat_of_lt' hn], hr, hl⟩
  exact (readWordAs_decodes UInt64 field).field (fun l : List UInt32 => UInt64.ofNat l.length)
    (fun _ _ => trivial) fun len _ => hbody len

/-! ## Sections -/

theorem validated_decodes {α : Type} {read : Decode α} {f : α → List UInt8} {D : Set α} (h : Decodes read f D)
    (validate : Validate) (check : α → Except SerializationError Unit) :
    Decodes (validated validate check read) f {a | a ∈ D ∧ (validate = .yes → check a = .ok ())} := by
  refine (h.checked fun out => if validate = .yes then check out else .ok ()).congr (fun a => ?_) fun _ _ => rfl
  cases validate <;> simp

namespace AlgebraSection

theorem deserialize_decodes (validate : Validate) :
    Decodes (deserialize validate) serialize {s | validate = .yes → s.check = .ok ()} := by
  have hread := (readExact_decodes 32).field (C := univ) primeModulusBe (fun _ _ => trivial) fun p _ =>
    (readWordAs_decodes UInt8 "field extension degree").field fieldExtensionDegree (fun _ _ => trivial) fun a _ =>
    (readWordAs_decodes UInt8 "extension degree").field extensionDegree (fun _ _ => trivial) fun b _ =>
    .record (⟨p, a, b⟩ : AlgebraSection) fun s => by cases s; simp [and_assoc]
  exact (validated_decodes hread validate check).congr (by simp) (by simp [serialize])

theorem serialize_length (s : AlgebraSection) : s.serialize.length = s.serializedSize := by
  simp [serialize, serializedSize]; ring

end AlgebraSection

namespace ProtocolFeatureSet

theorem deserialize_decodes (validate : Validate) :
    Decodes (deserialize validate) serialize {s | validate = .yes → s.check = .ok ()} := by
  have hread := (readBoolWord_decodes "zk feature flag").field (C := univ) zk (fun _ _ => trivial) fun z _ =>
    .record (⟨z⟩ : ProtocolFeatureSet) fun s => by cases s; simp
  exact (validated_decodes hread validate check).congr (by simp) (by simp [serialize])

theorem serialize_length (s : ProtocolFeatureSet) : s.serialize.length = s.serializedSize := by
  simp [serialize, serializedSize]

end ProtocolFeatureSet

/-- The optional word: its presence and, when present, the bound. -/
def encodeLogOpenBound (bound : Option UInt32) : List UInt8 :=
  writeWord (if bound.isSome then 1 else 0) ++ bound.elim [] fun b => writeWord (toWord b)

theorem decodeLogOpenBound_decodes : Decodes decodeLogOpenBound encodeLogOpenBound univ := by
  refine (readBoolWord_decodes _).field Option.isSome (fun _ _ => trivial) fun present _ => ?_
  cases present with
  | false =>
    refine (Decodes.pure none).congr (fun b => ?_) fun b hb => ?_
    · cases b <;> simp
    · rw [Set.mem_singleton_iff.1 hb]; rfl
  | true =>
    have h := (readWordAs_decodes UInt32 "log open bound").bind
      (fun b _ => Decodes.pure (ε := SerializationError) (β := UInt8) (some b)) (fun o => o.getD 0) fun b _ o ho => by
        rw [Set.mem_singleton_iff.1 ho, Option.getD_some]
    refine h.congr (fun o => ?_) fun o ho => ?_
    · cases o <;> simp
    · obtain ⟨b, rfl⟩ : ∃ b, o = some b := ⟨_, Set.mem_singleton_iff.1 ho.2⟩
      simp

theorem decodeDecomposition_decodes : Decodes decodeDecomposition encodeDecomposition univ := by
  have hread := (readWordAs_decodes UInt32 "log basis").field (C := univ) DecompositionParams.logBasis
    (fun _ _ => trivial) fun a _ =>
    (readWordAs_decodes UInt32 "log commit bound").field DecompositionParams.logCommitBound (fun _ _ => trivial) fun b _ =>
    decodeLogOpenBound_decodes.field DecompositionParams.logOpenBound (fun _ _ => trivial) fun c _ =>
    .record (⟨a, b, c⟩ : DecompositionParams) fun d => by cases d; simp [and_assoc]
  refine hread.congr (fun _ => Iff.rfl) fun d _ => ?_
  cases hd : d.logOpenBound <;> simp [encodeDecomposition, encodeLogOpenBound, hd]

theorem encodeDecomposition_length (d : DecompositionParams) :
    (encodeDecomposition d).length = decompositionSize d := by
  cases hd : d.logOpenBound <;> simp [encodeDecomposition, decompositionSize, hd] <;> ring

namespace SetupSection

theorem protocolFeatures_checked {s : SetupSection} (h : s.check = .ok ()) : s.protocolFeatures.check = .ok () := by
  simp only [check, except_bind_ok] at h
  obtain ⟨_, -, _, -, hf⟩ := h
  exact hf

theorem deserialize_decodes (validate : Validate) :
    Decodes (deserialize validate) serialize {s | validate = .yes → s.check = .ok ()} := by
  let C : Set SetupSection := {s | validate = .yes → s.protocolFeatures.check = .ok ()}
  have hread := decodeDecomposition_decodes.field (C := C) decomposition (fun _ _ => trivial) fun d _ =>
    decodeSisModulusProfile_decodes.field sisModulusProfile (fun _ _ => trivial) fun p _ =>
    decodeCompressionPolicy_decodes.field compressionPolicy (fun _ _ => trivial) fun c _ =>
    (readExact_decodes 32).field setupSeedDigest (fun _ _ => trivial) fun g _ =>
    (ProtocolFeatureSet.deserialize_decodes validate).field protocolFeatures (fun s hs => hs.1.1.1.1) fun f hf =>
    .record (⟨d, p, c, g, f⟩ : SetupSection) fun s => by
      constructor
      · rintro ⟨⟨⟨⟨⟨-, rfl⟩, rfl⟩, rfl⟩, rfl⟩, rfl⟩
        rfl
      · rintro rfl
        exact ⟨⟨⟨⟨⟨hf, rfl⟩, rfl⟩, rfl⟩, rfl⟩, rfl⟩
  refine (validated_decodes hread validate check).congr (fun s => ?_) (by simp [serialize])
  exact ⟨fun h => h.2, fun h => ⟨fun hv => protocolFeatures_checked (h hv), h⟩⟩

theorem serialize_length (s : SetupSection) : s.serialize.length = s.serializedSize := by
  simp [serialize, serializedSize, encodeDecomposition_length, ProtocolFeatureSet.serialize_length]; ring

end SetupSection

namespace OpeningScheduleSelection

theorem deserialize_decodes (validate : Validate) : Decodes (deserialize validate) serialize univ := by
  have hread := (readExact_decodes 32).field (C := univ) rowDigest (fun _ _ => trivial) fun d _ =>
    .record (⟨d⟩ : OpeningScheduleSelection) fun s => by cases s; simp
  exact (validated_decodes hread validate check).congr (by simp [check]) (by simp [serialize])

theorem serialize_length (s : OpeningScheduleSelection) : s.serialize.length = s.serializedSize := by
  simp [serialize, serializedSize]

end OpeningScheduleSelection

namespace PlanSection

theorem deserialize_decodes (validate : Validate) : Decodes (deserialize validate) serialize univ := by
  have hread := (OpeningScheduleSelection.deserialize_decodes validate).field (C := univ) scheduleSelection
    (fun _ _ => trivial) fun a _ =>
    (readExact_decodes 32).field effectiveScheduleDigest (fun _ _ => trivial) fun d _ =>
    .record (⟨a, d⟩ : PlanSection) fun s => by cases s; simp
  exact (validated_decodes hread validate check).congr (by simp [check, OpeningScheduleSelection.check])
    (by simp [serialize])

theorem serialize_length (s : PlanSection) : s.serialize.length = s.serializedSize := by
  simp [serialize, serializedSize, OpeningScheduleSelection.serialize_length]

end PlanSection

namespace TranscriptGrindingBinding

theorem deserialize_decodes (validate : Validate) : Decodes (deserialize validate) serialize univ := by
  have hread := (readExact_decodes 32).field (C := univ) planDigest (fun _ _ => trivial) fun d _ =>
    .record (⟨d⟩ : TranscriptGrindingBinding) fun s => by cases s; simp
  exact (validated_decodes hread validate check).congr (by simp [check]) (by simp [serialize])

theorem serialize_length (s : TranscriptGrindingBinding) : s.serialize.length = s.serializedSize := by
  simp [serialize, serializedSize]

end TranscriptGrindingBinding

namespace CallSection

/-- What the decoder asks of a call section before it checks it. -/
def Bounded (reserve : ℕ → Bool) (s : CallSection) : Prop :=
  s.numCommitmentGroups ≠ 0 ∧ s.numCommitmentGroups.toNat ≤ defaultMaxSequenceLen ∧
    s.numVarsPerCommitmentGroup ∈ Granted reserve s.numCommitmentGroups.toNat ∧
    s.numPolysPerCommitmentGroup ∈ Granted reserve s.numCommitmentGroups.toNat

theorem readGroupCount_decodes : Decodes readGroupCount (fun n => writeWord (toWord n))
    {n | n ≠ 0 ∧ n.toNat ≤ defaultMaxSequenceLen} := by
  refine ((readWordAs_decodes UInt32 _).checked _).congr (fun n => ?_) fun _ _ => rfl
  have h0 : n.toNat = 0 ↔ n = 0 := UInt32.toNat_inj (b := 0)
  rw [mem_ofPred_eq, require_eq_ok, h0]
  simp

theorem deserialize_decodes (reserve : ℕ → Bool) (validate : Validate) : Decodes (deserialize reserve validate) serialize
    {s | s.Bounded reserve ∧ (validate = .yes → s.check = .ok ())} := by
  have hword : ∀ n : UInt32, n.toNat < 2 ^ 64 := fun n => lt_trans n.toNat_lt (by norm_num)
  have hread := readGroupCount_decodes.field (C := {s | s.Bounded reserve}) numCommitmentGroups
    (fun s hs => ⟨hs.1, hs.2.1⟩) fun n hn =>
    (readWordVector_decodes reserve (hword n) "group arity").field numVarsPerCommitmentGroup
      (fun s hs => hs.2 ▸ hs.1.2.2.1) fun v hv =>
    (readWordVector_decodes reserve (hword n) "commitment-group size").field numPolysPerCommitmentGroup
      (fun s hs => hs.1.2 ▸ hs.1.1.2.2.2) fun p hp =>
    decodeBasisMode_decodes.field basisMode (fun _ _ => trivial) fun b _ =>
    (readExact_decodes 32).field openingBatchDigest (fun _ _ => trivial) fun d _ =>
    .record (⟨n, v, p, b, d⟩ : CallSection) fun s => by
      constructor
      · rintro ⟨⟨⟨⟨⟨-, rfl⟩, rfl⟩, rfl⟩, rfl⟩, rfl⟩
        rfl
      · rintro rfl
        exact ⟨⟨⟨⟨⟨⟨hn.1, hn.2, hv, hp⟩, rfl⟩, rfl⟩, rfl⟩, rfl⟩, rfl⟩
  exact (validated_decodes hread validate check).congr (fun _ => Iff.rfl) (by simp [serialize])

theorem writeWordVector_length (l : List UInt32) : (writeWordVector l).length = wordBytes * (1 + l.length) := by
  have h : (l.flatMap fun value => writeWord (toWord value)).length = wordBytes * l.length := by
    simp [length_flatMap, mul_comm]
  rw [writeWordVector, length_append, h, writeWord_length]
  ring

theorem serialize_length (s : CallSection) : s.serialize.length = s.serializedSize := by
  simp only [serialize, serializedSize, length_append, writeWord_length, writeWordVector_length, Vector.length_toList]

/-- A section that passes its check is within the decoder's bounds when it has few enough groups. -/
theorem bounded_of_check {reserve : ℕ → Bool} {s : CallSection} (h : s.check = .ok ())
    (hmax : s.numCommitmentGroups.toNat ≤ defaultMaxSequenceLen) (hresv : reserve s.numCommitmentGroups.toNat = true) :
    s.Bounded reserve := by
  simp only [check, except_bind_ok, require_eq_ok] at h
  obtain ⟨-, h0, -, hv, -, hp, -⟩ := h
  exact ⟨h0, hmax, ⟨hv, hresv⟩, hp, hresv⟩

end CallSection

/-! ## The descriptor -/

namespace AkitaInstanceDescriptor

variable {reserve : ℕ → Bool} {d : AkitaInstanceDescriptor}

theorem sections_checked (h : d.check = .ok ()) :
    d.algebra.check = .ok () ∧ d.setup.check = .ok () ∧ d.call.check = .ok () := by
  simp only [check, except_bind_ok] at h
  obtain ⟨_, -, _, ha, _, hs, _, -, _, -, hc⟩ := h
  exact ⟨ha, hs, hc⟩

/-- **The decoder accepts exactly the encodings** of the checked descriptors within its bounds. -/
theorem deserialize_decodes (reserve : ℕ → Bool) :
    Decodes (deserialize reserve .yes) serialize {d | d.check = .ok () ∧ d.call.Bounded reserve} := by
  let C : Set AkitaInstanceDescriptor :=
    {d | d.algebra.check = .ok () ∧ d.setup.check = .ok () ∧ d.call.check = .ok () ∧ d.call.Bounded reserve}
  have hread := (readWordAs_decodes UInt32 "descriptor version").field (C := C) version (fun _ _ => trivial) fun n _ =>
    (AlgebraSection.deserialize_decodes .yes).field algebra (fun d hd _ => hd.1.1) fun a ha =>
    (SetupSection.deserialize_decodes .yes).field setup (fun d hd _ => hd.1.1.2.1) fun s hs =>
    (PlanSection.deserialize_decodes .yes).field plan (fun _ _ => trivial) fun p _ =>
    (TranscriptGrindingBinding.deserialize_decodes .yes).field grinding (fun _ _ => trivial) fun g _ =>
    (CallSection.deserialize_decodes reserve .yes).field call
      (fun d hd => ⟨hd.1.1.1.1.1.2.2.2, fun _ => hd.1.1.1.1.1.2.2.1⟩) fun c hc =>
    .record (⟨n, a, s, p, g, c⟩ : AkitaInstanceDescriptor) fun d => by
      constructor
      · rintro ⟨⟨⟨⟨⟨⟨-, rfl⟩, rfl⟩, rfl⟩, rfl⟩, rfl⟩, rfl⟩
        rfl
      · rintro rfl
        exact ⟨⟨⟨⟨⟨⟨⟨ha rfl, hs rfl, hc.2 rfl, hc.1⟩, rfl⟩, rfl⟩, rfl⟩, rfl⟩, rfl⟩, rfl⟩
  refine (validated_decodes hread .yes check).congr (fun d => ?_) (by simp [serialize])
  constructor
  · rintro ⟨hd, hcheck⟩
    exact ⟨hcheck rfl, hd.2.2.2⟩
  · rintro ⟨hcheck, hb⟩
    obtain ⟨ha, hs, hc⟩ := sections_checked hcheck
    exact ⟨⟨ha, hs, hc, hb⟩, fun _ => hcheck⟩

theorem serialize_length (d : AkitaInstanceDescriptor) : d.serialize.length = d.serializedSize := by
  simp only [serialize, serializedSize, length_append, writeWord_length, AlgebraSection.serialize_length,
    SetupSection.serialize_length, PlanSection.serialize_length, TranscriptGrindingBinding.serialize_length,
    CallSection.serialize_length]

theorem serializedSize_whole (d : AkitaInstanceDescriptor) : wordBytes ∣ d.serializedSize := by
  have hcall : ∀ n m : ℕ, 8 ∣ 8 + 8 * (1 + n) + 8 * (1 + m) + 8 + 32 := fun n m => by omega
  have hdec : 8 ∣ decompositionSize d.setup.decomposition := Dvd.intro _ rfl
  have hsetup : 8 ∣ d.setup.serializedSize := by
    simp only [SetupSection.serializedSize, ProtocolFeatureSet.serializedSize, wordBytes]; omega
  have hrest := hcall d.call.numVarsPerCommitmentGroup.length d.call.numPolysPerCommitmentGroup.length
  simp only [serializedSize, AlgebraSection.serializedSize, PlanSection.serializedSize,
    OpeningScheduleSelection.serializedSize, TranscriptGrindingBinding.serializedSize, CallSection.serializedSize,
    wordBytes] at hrest ⊢
  omega

theorem deserialize_serialize (h : d.check = .ok ()) (hmax : d.call.numCommitmentGroups.toNat ≤ defaultMaxSequenceLen)
    (hresv : reserve d.call.numCommitmentGroups.toNat = true) (rest : List UInt8) :
    deserialize reserve .yes (d.serialize ++ rest) = .ok (d, rest) :=
  (deserialize_decodes reserve _ _ _).2 ⟨⟨h, CallSection.bounded_of_check (sections_checked h).2.2 hmax hresv⟩, rfl⟩

theorem serialize_prefixFreeOn :
    PrefixFreeOn serialize {d | d.check = .ok () ∧ d.call.numCommitmentGroups.toNat ≤ defaultMaxSequenceLen} :=
  ((deserialize_decodes fun _ => true).canonical.prefixFreeOn).mono fun _ hd =>
    ⟨hd.1, CallSection.bounded_of_check (sections_checked hd.1).2.2 hd.2 rfl⟩

end AkitaInstanceDescriptor

/-! ## What a channel absorbs -/

section

open Transcript

variable {b : List UInt8}

/-- Bytes as the words a sponge over `u64` lanes absorbs; a part of a word at the end is left out. -/
def toWords : List UInt8 → List UInt64
  | b0 :: b1 :: b2 :: b3 :: b4 :: b5 :: b6 :: b7 :: rest =>
    UInt64.ofNat (leValue [b0, b1, b2, b3, b4, b5, b6, b7]) :: toWords rest
  | _ => []

/-- Whole words are the bytes they were read from. -/
theorem flatMap_toWords : ∀ bs : List UInt8, wordBytes ∣ bs.length → (toWords bs).flatMap writeWord = bs
  | b0 :: b1 :: b2 :: b3 :: b4 :: b5 :: b6 :: b7 :: rest, h => by
    have hrest : wordBytes ∣ rest.length := (Nat.dvd_add_left (dvd_refl 8)).1 h
    rw [toWords, flatMap_cons, flatMap_toWords rest hrest, writeWord_leValue rfl]
    rfl
  | [], _ => rfl
  | [_], h => by simp [wordBytes] at h
  | [_, _], h => by simp [wordBytes] at h
  | [_, _, _], h => by simp [wordBytes] at h
  | [_, _, _, _], h => by simp [wordBytes] at h
  | [_, _, _, _, _], h => by simp [wordBytes] at h
  | [_, _, _, _, _, _], h => by simp [wordBytes] at h
  | [_, _, _, _, _, _, _], h => by simp [wordBytes] at h

def instanceWords (bytesMsg : List UInt8 → List UInt8) (hash : DigestHash) (descriptor : List UInt8) : List UInt64 :=
  toWords (wordPadded (instanceBytes bytesMsg hash descriptor))

variable {bytesMsg : List UInt8 → List UInt8} {hash : DigestHash}

theorem instanceBytes_ne_nil (b : List UInt8) : instanceBytes bytesMsg hash b ≠ [] := by
  have h : protocolTag hash ≠ [] := by cases hash <;> decide
  exact append_ne_nil_of_left_ne_nil h _

theorem flatMap_instanceWords (b : List UInt8) :
    (instanceWords bytesMsg hash b).flatMap writeWord = wordPadded (instanceBytes bytesMsg hash b) :=
  flatMap_toWords _ (by rw [wordPadded_length]; exact Dvd.intro_left _ rfl)

/-- **Distinct descriptors absorb words of which neither sequence continues the other.** -/
theorem instanceWords_prefixFreeOn (hmsg : ∀ b, bytesMsg b = leBytes 8 b.length ++ wordPadded b) :
    PrefixFreeOn (fun d : AkitaInstanceDescriptor => instanceWords bytesMsg hash d.serialize)
      {d | d.check = .ok () ∧ d.call.numCommitmentGroups.toNat ≤ defaultMaxSequenceLen} := by
  intro d hd d' hd' r s h
  have hbytes := congrArg (flatMap writeWord) h
  simp only [flatMap_append, flatMap_instanceWords] at hbytes
  -- tag and length word have one length, so the padded encodings are aligned
  have hsplit : ∀ e : AkitaInstanceDescriptor, ∃ pad, wordPadded (instanceBytes bytesMsg hash e.serialize) =
      protocolTag hash ++ (leBytes 8 e.serialize.length ++ (e.serialize ++ pad)) := by
    intro e
    simp only [instanceBytes, hmsg, wordPadded, append_assoc]
    exact ⟨_, rfl⟩
  obtain ⟨pad, hpad⟩ := hsplit d
  obtain ⟨pad', hpad'⟩ := hsplit d'
  rw [hpad, hpad'] at hbytes
  simp only [append_assoc] at hbytes
  have hlen := append_cancel_left hbytes
  obtain ⟨-, hser⟩ := append_inj hlen (by simp)
  obtain ⟨rfl, -⟩ := AkitaInstanceDescriptor.serialize_prefixFreeOn d hd d' hd' _ _ hser
  exact ⟨rfl, append_cancel_left h⟩

variable {𝔱 : TranscriptBackend}

theorem bindInstance_prover (h𝔱 : 𝔱.Lawful) {p p' : 𝔱.Prover}
    (h : (bindInstance bytesMsg hash b : Chan 𝔱.Prover Unit).run p = .ok () p') :
    𝔱.proverCalls p' = 𝔱.proverCalls p ++ [.absorb ((instanceWords bytesMsg hash b).flatMap writeWord)] := by
  have hemit := (emits_publicMessage h𝔱 (instanceBytes bytesMsg hash b)).guarded
    (groupRecord { family := siteFamilyInstance } .publicValue (some (instanceBytes bytesMsg hash b).length) 1)
  obtain ⟨p1, h1, -, hcalls⟩ := hemit.run_ok p (hemit.ok_of_run p () p' h)
  obtain ⟨-, rfl⟩ := EStateM.Result.ok.inj (h1.symm.trans h)
  rw [hcalls, flatMap_instanceWords, padCall, if_neg (instanceBytes_ne_nil b)]

theorem bindInstance_verifier (h𝔱 : 𝔱.Lawful) {v v' : 𝔱.Verifier} (hv : ¬ 𝔱.poisoned v)
    (h : (bindInstance bytesMsg hash b : Chan 𝔱.Verifier Unit).run v = .ok () v') :
    𝔱.verifierCalls v' = 𝔱.verifierCalls v ++ [.absorb ((instanceWords bytesMsg hash b).flatMap writeWord)] := by
  have hrecv := (receives_publicMessage h𝔱 (instanceBytes bytesMsg hash b)).guarded
    (groupRecord { family := siteFamilyInstance } .publicValue (some (instanceBytes bytesMsg hash b).length) 1)
  obtain ⟨-, -, hcalls, -⟩ := hrecv.sound v () v' hv h
  rw [hcalls, flatMap_instanceWords, padCall, if_neg (instanceBytes_ne_nil b)]

/-- **The transcript preamble descriptor is canonical.** A checked descriptor has one encoding, of
its announced size and a whole number of words, which decodes to it with nothing left; a source is
accepted only if it starts with the encoding of what is returned; no encoding continues another,
and the words that either end of a channel absorbs for two distinct descriptors differ before
either sequence ends. -/
theorem instance_descriptor_canonical (h𝔱 : 𝔱.Lawful)
    (hmsg : ∀ b, bytesMsg b = leBytes 8 b.length ++ wordPadded b) (reserve : ℕ → Bool) :
    (∀ d : AkitaInstanceDescriptor, d.check = .ok () →
      d.call.numCommitmentGroups.toNat ≤ defaultMaxSequenceLen → ∃ bytes, d.canonicalBytes = .ok bytes ∧
        bytes.length = d.serializedSize ∧ wordBytes ∣ bytes.length ∧ (reserve d.call.numCommitmentGroups.toNat = true →
          AkitaInstanceDescriptor.deserialize reserve .yes bytes = .ok (d, []) ∧
          AkitaInstanceDescriptor.deserializeExact reserve bytes = .ok d)) ∧
    (∀ bs d rest, AkitaInstanceDescriptor.deserialize reserve .yes bs = .ok (d, rest) →
      d.check = .ok () ∧ ∃ consumed, bs = consumed ++ rest ∧ d.canonicalBytes = .ok consumed) ∧
    ∀ d d' : AkitaInstanceDescriptor, d.check = .ok () → d'.check = .ok () →
      d.call.numCommitmentGroups.toNat ≤ defaultMaxSequenceLen →
      d'.call.numCommitmentGroups.toNat ≤ defaultMaxSequenceLen → d ≠ d' →
      ∀ bytes bytes', d.canonicalBytes = .ok bytes → d'.canonicalBytes = .ok bytes' →
        ¬ bytes <+: bytes' ∧ ¬ instanceWords bytesMsg hash bytes <+: instanceWords bytesMsg hash bytes' ∧
        (∀ p p' : 𝔱.Prover, (bindInstance bytesMsg hash bytes).run p = .ok () p' →
          𝔱.proverCalls p' = 𝔱.proverCalls p ++ [.absorb ((instanceWords bytesMsg hash bytes).flatMap writeWord)]) ∧
        ∀ v v' : 𝔱.Verifier, ¬ 𝔱.poisoned v → (bindInstance bytesMsg hash bytes).run v = .ok () v' →
          𝔱.verifierCalls v' = 𝔱.verifierCalls v ++ [.absorb ((instanceWords bytesMsg hash bytes).flatMap writeWord)] := by
  refine ⟨fun d hd hmax => ?_, fun bs d rest h => ?_, ?_⟩
  · refine ⟨d.serialize, rfl, d.serialize_length, d.serialize_length ▸ d.serializedSize_whole, fun hr => ?_⟩
    have hrun : AkitaInstanceDescriptor.deserialize reserve .yes d.serialize = .ok (d, []) := by
      simpa using AkitaInstanceDescriptor.deserialize_serialize hd hmax hr []
    exact ⟨hrun, by simp [AkitaInstanceDescriptor.deserializeExact, hrun, bind, Except.bind]⟩
  · obtain ⟨⟨hcheck, -⟩, hbs⟩ := (AkitaInstanceDescriptor.deserialize_decodes reserve bs d rest).1 h
    exact ⟨hcheck, d.serialize, hbs, rfl⟩
  · intro d d' hd hd' hmax hmax' hne bytes bytes' hb hb'
    obtain rfl : d.serialize = bytes := Except.ok.inj hb
    obtain rfl : d'.serialize = bytes' := Except.ok.inj hb'
    refine ⟨?_, ?_, fun p p' h => bindInstance_prover h𝔱 h, fun v v' hv h => bindInstance_verifier h𝔱 hv h⟩
    · rintro ⟨s, hs⟩
      exact hne (AkitaInstanceDescriptor.serialize_prefixFreeOn d ⟨hd, hmax⟩ d' ⟨hd', hmax'⟩ s [] (by simpa using hs)).1
    · rintro ⟨s, hs⟩
      exact hne (instanceWords_prefixFreeOn hmsg d ⟨hd, hmax⟩ d' ⟨hd', hmax'⟩ s [] (by simpa using hs)).1

/-- One group of two polynomials in three variables over a quartic extension. -/
def sampleDescriptor (basisMode : BasisMode) : AkitaInstanceDescriptor where
  version := 6
  algebra := ⟨Vector.replicate 32 7, 1, 4⟩
  setup := ⟨⟨3, 1, some 128⟩, .q128OffsetA7F7, compressionPolicy, Vector.replicate 32 1, ⟨false⟩⟩
  plan := ⟨⟨Vector.replicate 32 2⟩, Vector.replicate 32 3⟩
  grinding := ⟨Vector.replicate 32 4⟩
  call := ⟨1, [3], [2], basisMode, Vector.replicate 32 5⟩

theorem instance_descriptor_canonical_sample :
    AkitaInstanceDescriptor.deserializeExact (fun _ => true) (sampleDescriptor .lagrange).serialize =
      .ok (sampleDescriptor .lagrange) ∧
    ¬ (sampleDescriptor .lagrange).serialize <+: (sampleDescriptor .monomial).serialize := by
  have hcheck : ∀ b, (sampleDescriptor b).check = .ok () := fun _ => rfl
  have hmax : ∀ b, (sampleDescriptor b).call.numCommitmentGroups.toNat ≤ defaultMaxSequenceLen := fun _ => by
    simp [sampleDescriptor, defaultMaxSequenceLen]
  obtain ⟨hround, -, hfree⟩ := @instance_descriptor_canonical _ .sha3 _ plainBackend_lawful (fun _ => rfl) fun _ => true
  obtain ⟨bytes, hbytes, -, -, hdec⟩ := hround _ (hcheck .lagrange) (hmax _)
  obtain rfl : (sampleDescriptor .lagrange).serialize = bytes := Except.ok.inj hbytes
  have hne : sampleDescriptor .lagrange ≠ sampleDescriptor .monomial := fun h => by
    have := congrArg (·.call.basisMode) h
    simp [sampleDescriptor] at this
  exact ⟨(hdec rfl).2, (hfree _ _ (hcheck _) (hcheck _) (hmax _) (hmax _) hne _ _ rfl rfl).1⟩

end

end Akita.Descriptor
