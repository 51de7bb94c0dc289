import Akita.Proof.CommittedGroup
import Akita.Proof.ScheduleAdmission
import Akita.Spec.SetupPrefixSlot

/-!
# The codec of a setup-prefix slot

A slot is its fields and the two ring dimensions that its matrices were read with: a read keeps the low half of a
dimension, and a write puts zeros in the high half.

Main results: `deserialize_eq_ok`, `serialize_eq_ok`, `setup_prefix_slot_codec`.
-/

namespace Akita.SetupPrefix

open Lib Schedule Commitment SetupPrefixCommitMatrixParams List
open Descriptor (SerializationError Validate Decode require readExact require_eq_ok readExact_decodes)

variable {bs rest : List UInt8} {p : GroupCommitPhaseParams}

/-! ## Matrices -/

def matrixHead (role : SisMatrixRole) (f : MatrixFields) : List UInt8 :=
  serializePrimitive f.modulusProfile.descriptorTag ++ serializePrimitive f.policy.tag ++ serializePrimitive role.tag ++
    f.tableDigest.toList

/-- A matrix on the wire, with the word that holds its ring dimension. -/
def matrixWire (role : SisMatrixRole) (f : MatrixFields) (d : UInt64) : List UInt8 :=
  matrixHead role f ++ (serializePrimitive d ++ (serializePrimitive f.outputRank ++ serializePrimitive f.inputWidth ++
    serializePrimitive f.coeffLinfBound))

@[simp] theorem matrixHead_length (role : SisMatrixRole) (f : MatrixFields) : (matrixHead role f).length = 35 := by
  simp only [matrixHead, length_append, serializePrimitive_length, Vector.length_toList, Primitive.size]

@[simp] theorem matrixWire_length (role : SisMatrixRole) (f : MatrixFields) (d : UInt64) : (matrixWire role f d).length = 75 := by
  simp only [matrixWire, length_append, matrixHead_length, serializePrimitive_length, Primitive.size]

theorem deserializeSisModulusProfile_decodes :
    Decodes deserializeSisModulusProfile (fun p => serializePrimitive p.descriptorTag) Set.univ := by
  have htag : ∀ (tag : UInt8) (p : SisModulusProfileId), (if tag = 0 then some .q32Offset99 else if tag = 1 then
      some .q64Offset59 else if tag = 2 then some .q128OffsetA7F7 else none : Option SisModulusProfileId) = some p ↔
      p.descriptorTag = tag := by
    intro tag p
    unfold SisModulusProfileId.descriptorTag
    cases p <;> split_ifs <;> simp_all [eq_comm]
  intro bs p rest
  simp only [deserializeSisModulusProfile, stateT_bind_ok, Decoder.lift_ok, orInvalidData_eq_ok, htag,
    deserializePrimitive_decodes UInt8 _ _ _, Set.mem_univ, true_and]
  exact ⟨fun ⟨_, _, hbs, rfl, hrest⟩ => hrest ▸ hbs, fun hbs => ⟨_, _, hbs, rfl, rfl⟩⟩

theorem deserializeSisSecurityPolicy_decodes :
    Decodes deserializeSisSecurityPolicy (fun p => serializePrimitive p.tag) Set.univ := by
  intro bs p rest
  simp only [deserializeSisSecurityPolicy, stateT_bind_ok, Decoder.lift_ok, orInvalidData_eq_ok, policy_fromTag,
    deserializePrimitive_decodes UInt8 _ _ _, Set.mem_univ, true_and]
  exact ⟨fun ⟨_, _, hbs, rfl, hrest⟩ => hrest ▸ hbs, fun hbs => ⟨_, _, hbs, rfl, rfl⟩⟩

theorem deserializeSisMatrixRole_decodes : Decodes deserializeSisMatrixRole (fun r => serializePrimitive r.tag) Set.univ := by
  intro bs r rest
  simp only [deserializeSisMatrixRole, stateT_bind_ok, Decoder.lift_ok, orInvalidData_eq_ok, role_fromTag,
    deserializePrimitive_decodes UInt8 _ _ _, Set.mem_univ, true_and]
  exact ⟨fun ⟨_, _, hbs, rfl, hrest⟩ => hrest ▸ hbs, fun hbs => ⟨_, _, hbs, rfl, rfl⟩⟩

def ofFields (K : Type) [SetupPrefixCommitMatrixParams K] (f : MatrixFields) : K :=
  newUnchecked f.policy f.tableDigest f.modulusProfile f.outputRank f.inputWidth f.coeffLinfBound f.ringDimension.toUInt64

structure Fields (K : Type) [SetupPrefixCommitMatrixParams K] (fields : K → MatrixFields) : Prop where
  ofFields : ∀ f, fields (ofFields K f) = f
  low : ∀ p t q k w b (d : UInt64), newUnchecked (K := K) p t q k w b d = newUnchecked p t q k w b d.toUInt32.toUInt64
  write : ∀ f, serializeCommitMatrix (SetupPrefix.ofFields K f) = .ok (matrixWire (expectedRole K) f f.ringDimension.toUInt64)

theorem innerFields_fields : Fields InnerCommitMatrixParams innerFields where
  ofFields f := by simp [innerFields, SetupPrefix.ofFields, newUnchecked]
  low _ _ _ _ _ _ d := by simp only [newUnchecked, UInt32.toUInt32_toUInt64]
  write f := by
    simp only [SetupPrefix.ofFields, newUnchecked, UInt32.toUInt32_toUInt64, matrixWire, matrixHead, ← append_assoc]
    rfl

theorem outerFields_fields : Fields OuterCommitMatrixParams outerFields where
  ofFields f := by simp [outerFields, SetupPrefix.ofFields, newUnchecked]
  low _ _ _ _ _ _ d := by simp only [newUnchecked, UInt32.toUInt32_toUInt64]
  write f := by
    simp only [SetupPrefix.ofFields, newUnchecked, UInt32.toUInt32_toUInt64, matrixWire, matrixHead, ← append_assoc]
    rfl

/-- **A matrix is read** from its fields and any word whose low half is its dimension. -/
theorem deserializeCommitMatrix_eq_ok {K : Type} [SetupPrefixCommitMatrixParams K] {fields : K → MatrixFields}
    (h : Fields K fields) {m : K} : deserializeCommitMatrix K bs = .ok (m, rest) ↔
      m = ofFields K (fields m) ∧ ∃ d : UInt64, d.toUInt32 = (fields m).ringDimension ∧
        bs = matrixWire (expectedRole K) (fields m) d ++ rest := by
  simp only [deserializeCommitMatrix, stateT_bind_ok, stateT_pure_ok, Decoder.lift_ok, require_eq_ok,
    deserializeSisModulusProfile_decodes _ _ _, deserializeSisSecurityPolicy_decodes _ _ _,
    deserializeSisMatrixRole_decodes _ _ _, readExact_decodes 32 _ _ _, deserializePrimitive_decodes UInt64 _ _ _,
    deserializePrimitive_decodes (BitVec 128) _ _ _, Set.mem_univ, true_and]
  constructor
  · rintro ⟨p, _, rfl, q, _, rfl, r, _, rfl, _, _, ⟨rfl, rfl⟩, t, _, rfl, d, _, rfl, k, _, rfl, w, _, rfl, b, _, rfl, rfl, rfl⟩
    have hf : fields (newUnchecked q t p k w b d.toUInt32.toUInt64) = _ := h.ofFields ⟨q, t, p, k, w, b, d.toUInt32⟩
    rw [h.low, hf]
    exact ⟨rfl, d, rfl, by simp [matrixWire, matrixHead]⟩
  · rintro ⟨hm, d, hd, rfl⟩
    simp only [matrixWire, matrixHead, append_assoc]
    exact ⟨_, _, rfl, _, _, rfl, _, _, rfl, (), _, ⟨rfl, rfl⟩, _, _, rfl, d, _, rfl, _, _, rfl, _, _, rfl, _, _, rfl,
      by rw [h.low, hd]; exact hm.symm, rfl⟩

/-! ## Profiles -/

def profileHead (p : GroupCommitPhaseParams) : List UInt8 :=
  serializePrimitive p.version ++ serializePrimitive p.group.numVars ++ serializePrimitive p.group.numPolynomials ++
    serializePrimitive p.blocks.liveRingElementsPerClaim ++ serializePrimitive p.blocks.positionsPerBlock ++
    serializePrimitive p.blocks.liveBlocks ++ sliceCountBytes p.outerSliceCount ++
    serializePrimitive p.inner.digits.logBasis ++ serializePrimitive p.inner.digits.numDigits

/-- A profile on the wire, with the words that hold its ring dimensions. -/
def profileWire (p : GroupCommitPhaseParams) (dA dB : UInt64) : List UInt8 :=
  profileHead p ++ (matrixWire .inner (innerFields p.inner.matrix) dA ++ (serializePrimitive p.outer.digits.logBasis ++
    (serializePrimitive p.outer.digits.numDigits ++ matrixWire .outer (outerFields p.outer.matrix) dB)))

@[simp] theorem profileHead_length (p : GroupCommitPhaseParams) : (profileHead p).length = 61 := by
  simp only [profileHead, sliceCountBytes, length_append, serializePrimitive_length, Primitive.size]

def Wired (p : GroupCommitPhaseParams) : Prop :=
  p.inner.matrix = ofFields _ (innerFields p.inner.matrix) ∧ p.outer.matrix = ofFields _ (outerFields p.outer.matrix)

/-- The words have the dimensions of a profile in their low halves. -/
def Dimensions (p : GroupCommitPhaseParams) (dA dB : UInt64) : Prop :=
  dA.toUInt32 = (innerFields p.inner.matrix).ringDimension ∧ dB.toUInt32 = (outerFields p.outer.matrix).ringDimension

theorem deserializeCommittedGroupProfile_eq_ok :
    deserializeCommittedGroupProfile bs = .ok (p, rest) ↔ (p.version = GroupCommitPhaseParams.currentVersion ∧
      SupportedSliceCount p.outerSliceCount ∧ Wired p) ∧ ∃ dA dB, Dimensions p dA dB ∧ bs = profileWire p dA dB ++ rest := by
  simp only [deserializeCommittedGroupProfile, stateT_bind_ok, stateT_pure_ok, Decoder.lift_ok, require_eq_ok,
    readSliceCount_decodes _ _ _, deserializePrimitive_decodes UInt64 _ _ _, deserializePrimitive_decodes UInt32 _ _ _,
    deserializePrimitive_decodes UInt8 _ _ _, deserializeCommitMatrix_eq_ok innerFields_fields,
    deserializeCommitMatrix_eq_ok outerFields_fields, Set.mem_univ, Set.mem_ofPred_eq, true_and]
  constructor
  · rintro ⟨version, _, rfl, _, _, ⟨hvers, rfl⟩, vars, _, rfl, polys, _, rfl, live, _, rfl, positions, _, rfl, blocks, _, rfl,
      slices, _, ⟨hslices, rfl⟩, logInner, _, rfl, digitsInner, _, rfl, inner, _, ⟨hinner, dA, hA, rfl⟩, logOuter, _, rfl,
      digitsOuter, _, rfl, outer, _, ⟨houter, dB, hB, rfl⟩, rfl, rfl⟩
    exact ⟨⟨hvers, hslices, hinner, houter⟩, dA, dB, ⟨hA, hB⟩, by simp [profileWire, profileHead, expectedRole]⟩
  · rintro ⟨⟨hvers, hslices, hinner, houter⟩, dA, dB, ⟨hA, hB⟩, rfl⟩
    simp only [profileWire, profileHead, append_assoc]
    exact ⟨_, _, rfl, (), _, ⟨hvers, rfl⟩, _, _, rfl, _, _, rfl, _, _, rfl, _, _, rfl, _, _, rfl, _, _, ⟨hslices, rfl⟩,
      _, _, rfl, _, _, rfl, _, _, ⟨hinner, dA, hA, rfl⟩, _, _, rfl, _, _, rfl, _, _, ⟨houter, dB, hB, rfl⟩, rfl, rfl⟩

theorem serializeCommittedGroupProfile_eq (h : Wired p) :
    serializeCommittedGroupProfile p = .ok (profileWire p (innerFields p.inner.matrix).ringDimension.toUInt64
      (outerFields p.outer.matrix).ringDimension.toUInt64) := by
  rw [serializeCommittedGroupProfile, h.1, innerFields_fields.write, h.2, outerFields_fields.write, ← h.1, ← h.2]
  simp only [profileWire, profileHead, sliceCountBytes, ← append_assoc]
  rfl

/-! ## Slots -/

def slotWire (id : SetupPrefixSlotId) (dA dB : UInt64) : List UInt8 :=
  setupPrefixContentTag ++ (serializePrimitive id.naturalLen ++ profileWire id.commitmentProfile dA dB)

@[simp] theorem setupPrefixContentTag_length : setupPrefixContentTag.length = 4 := by decide

theorem slotWire_length (id : SetupPrefixSlotId) (dA dB : UInt64) : (slotWire id dA dB).length = id.serializedSize := by
  simp only [slotWire, profileWire, length_append, profileHead_length, serializePrimitive_length, matrixWire_length,
    Primitive.size, SetupPrefixSlotId.serializedSize, committedGroupProfileSerializedSize, commitMatrixSerializedSize]

def wordAt (bytes : List UInt8) (i : ℕ) : ℕ := leValue ((bytes.drop i).take 8)

theorem wordAt_append {bytes r : List UInt8} (l : List UInt8) (d : UInt64) {i : ℕ} (hi : l.length = i)
    (h : bytes = l ++ (serializePrimitive d ++ r)) : wordAt bytes i = d.toNat := by
  have hlen : (serializePrimitive d).length = 8 := serializePrimitive_length d
  rw [wordAt, h, drop_left' hi, take_left' hlen]
  exact (leValue_leBytes _ _).trans (Nat.mod_eq_of_lt d.toNat_lt)

theorem wordAt_slotWire (id : SetupPrefixSlotId) (dA dB : UInt64) (rest : List UInt8) :
    wordAt (slotWire id dA dB ++ rest) 108 = dA.toNat ∧ wordAt (slotWire id dA dB ++ rest) 195 = dB.toNat := by
  simp only [slotWire, profileWire, matrixWire, append_assoc]
  exact ⟨wordAt_append (setupPrefixContentTag ++ (serializePrimitive id.naturalLen ++ (profileHead id.commitmentProfile ++
      matrixHead .inner (innerFields id.commitmentProfile.inner.matrix)))) dA
      (by simp [serializePrimitive_length, Primitive.size]) (by simp only [append_assoc]; rfl),
    wordAt_append (setupPrefixContentTag ++ (serializePrimitive id.naturalLen ++ (profileHead id.commitmentProfile ++
      (matrixWire .inner (innerFields id.commitmentProfile.inner.matrix) dA ++
      (serializePrimitive id.commitmentProfile.outer.digits.logBasis ++
      (serializePrimitive id.commitmentProfile.outer.digits.numDigits ++
      matrixHead .outer (outerFields id.commitmentProfile.outer.matrix))))))) dB
      (by simp [serializePrimitive_length, Primitive.size]) (by simp only [matrixWire, append_assoc]; rfl)⟩

section

variable {𝔞 : AuditBackend} {id : SetupPrefixSlotId}

/-- **What a read accepts**: the bytes of a slot, with any words whose low halves are its dimensions. -/
theorem deserialize_eq_ok {validate : Validate} : SetupPrefixSlotId.deserialize 𝔞 validate bs = .ok (id, rest) ↔
      (id.commitmentProfile.version = GroupCommitPhaseParams.currentVersion ∧
        SupportedSliceCount id.commitmentProfile.outerSliceCount ∧ Wired id.commitmentProfile) ∧
      (validate = .yes → id.check 𝔞 = .ok ()) ∧
      ∃ dA dB, Dimensions id.commitmentProfile dA dB ∧ bs = slotWire id dA dB ++ rest := by
  simp only [SetupPrefixSlotId.deserialize, stateT_bind_ok, stateT_pure_ok, Decoder.lift_ok, require_eq_ok,
    readExact_decodes 4 _ _ _, deserializePrimitive_decodes UInt64 _ _ _, deserializeCommittedGroupProfile_eq_ok,
    Set.mem_univ, true_and]
  constructor
  · rintro ⟨tag, _, rfl, _, _, ⟨htag, rfl⟩, naturalLen, _, rfl, profile, _, ⟨hprof, dA, dB, hdim, rfl⟩, _, _, ⟨hcheck, rfl⟩,
      rfl, rfl⟩
    refine ⟨hprof, fun hyes => by rwa [if_pos hyes] at hcheck, dA, dB, hdim, ?_⟩
    simp only [slotWire, htag, append_assoc]
  · rintro ⟨hprof, hcheck, dA, dB, hdim, rfl⟩
    refine ⟨⟨setupPrefixContentTag.toArray, by simp⟩, _, rfl, (), _, ⟨rfl, rfl⟩, _, _, rfl, _, _,
      ⟨hprof, dA, dB, hdim, rfl⟩, (), _, ⟨?_, rfl⟩, rfl, rfl⟩
    split_ifs with hyes
    · exact hcheck hyes
    · rfl

theorem check_eq_ok : id.check 𝔞 = .ok () ↔
    id.commitmentProfile.validate 𝔞 id.commitmentProfile.inner.matrix.sisModulusProfile.fieldBits = .ok () ∧
      id.commitmentProfile.validateSetupPrefixGeometry 𝔞 id.naturalLen = .ok () := by
  rw [SetupPrefixSlotId.check, asInvalidData_eq_ok, bind_eq_ok, exists_unit]

/-- The matrices of a checked slot are wired unless the A matrix is on the L2 route. -/
theorem wired_iff (h : id.check 𝔞 = .ok ()) :
    Wired id.commitmentProfile ↔ id.commitmentProfile.inner.matrix.securityRoute.isLinf = true := by
  have hvalid := (check_eq_ok.1 h).1
  simp only [GroupCommitPhaseParams.validate, result_ok] at hvalid
  obtain ⟨-, -, hinner, houter, -⟩ := hvalid
  constructor
  · rintro ⟨hA, -⟩
    rw [hA]
    rfl
  · intro hlinf
    constructor
    · cases hroute : id.commitmentProfile.inner.matrix.securityRoute with
      | l2 key cap shape => rw [hroute] at hlinf; cases hlinf
      | linf key =>
        have hrole := innerKey_role hinner hroute
        generalize id.commitmentProfile.inner.matrix = m at hroute
        obtain ⟨rank, width, route⟩ := m
        subst hroute
        obtain ⟨policy, digest, profile, role, d, bound⟩ := key
        subst hrole
        simp only [ofFields, innerFields, newUnchecked, UInt32.toUInt32_toUInt64]
    · have hrole := outerKey_role houter
      generalize id.commitmentProfile.outer.matrix = m at hrole
      obtain ⟨rank, width, policy, digest, profile, role, d, bound⟩ := m
      subst hrole
      simp only [ofFields, outerFields, newUnchecked, UInt32.toUInt32_toUInt64]

/-- **What a checked slot writes**, unless its A matrix is on the L2 route. -/
theorem serialize_eq_ok (h : id.check 𝔞 = .ok ()) {bytes : List UInt8} :
    id.serialize 𝔞 = .ok bytes ↔ id.commitmentProfile.inner.matrix.securityRoute.isLinf = true ∧
      bytes = slotWire id (innerFields id.commitmentProfile.inner.matrix).ringDimension.toUInt64
        (outerFields id.commitmentProfile.outer.matrix).ringDimension.toUInt64 := by
  simp only [SetupPrefixSlotId.serialize, except_bind_ok, exists_unit, h, true_and]
  cases hroute : id.commitmentProfile.inner.matrix.securityRoute with
  | l2 key cap shape =>
    have hkey : InnerCommitMatrixParams.sisTableKey id.commitmentProfile.inner.matrix = none := by
      rw [InnerCommitMatrixParams.sisTableKey, hroute]
    simp only [serializeCommittedGroupProfile, serializeCommitMatrix, sisTableKey, hkey, except_bind_ok, orInvalidData_eq_ok]
    constructor
    · rintro ⟨_, ⟨_, ⟨_, hne, _⟩, _⟩, _⟩
      cases hne
    · exact fun hne => by cases hne.1
  | linf key =>
    rw [serializeCommittedGroupProfile_eq ((wired_iff h).2 (by rw [hroute]; rfl))]
    constructor
    · rintro ⟨profile, hprof, hok⟩
      cases hprof
      exact ⟨rfl, (Except.ok.inj hok).symm.trans (append_assoc _ _ _)⟩
    · rintro ⟨-, rfl⟩
      exact ⟨_, rfl, congrArg Except.ok (append_assoc _ _ _)⟩

theorem version_of_check (h : id.check 𝔞 = .ok ()) :
    id.commitmentProfile.version = GroupCommitPhaseParams.currentVersion :=
  (GroupCommitPhaseParams.of_validate (check_eq_ok.1 h).1).1

/-- **The order of checked slots** stands for their fields. -/
theorem cmp_eq_iff {a b : SetupPrefixSlotId} (ha : a.check 𝔞 = .ok ()) (hb : b.check 𝔞 = .ok ()) :
    a.cmp b = .eq ↔ a = b := by
  have hkeyed := fun (id : SetupPrefixSlotId) (h : id.check 𝔞 = .ok ()) =>
    (GroupCommitPhaseParams.of_validate (check_eq_ok.1 h).1).2
  rw [SetupPrefixSlotId.cmp, Ordering.then_eq_eq, Std.LawfulEqOrd.compare_eq_iff_eq, Std.LawfulEqOrd.compare_eq_iff_eq]
  constructor
  · rintro ⟨hlen, hbytes⟩
    obtain ⟨naturalLen, profile⟩ := a
    obtain ⟨naturalLen', profile'⟩ := b
    obtain rfl : naturalLen = naturalLen' := hlen
    exact congrArg _ (GroupCommitPhaseParams.descriptorBytes_prefixFreeOn.injOn (hkeyed _ ha) (hkeyed _ hb) hbytes)
  · rintro rfl
    exact ⟨rfl, rfl⟩

variable (𝔞) in
/-- **The codec and the order of slots.** A checked slot is written unless its A matrix is on the L2 route, in the declared
number of bytes, which are read back; what is read under validation is checked, and written as the bytes consumed where
their two ring dimensions are below `2^32`; checked slots compare equal only when they are the same. -/
theorem setup_prefix_slot_codec : (∀ id : SetupPrefixSlotId, id.check 𝔞 = .ok () →
      ((∃ bytes, id.serialize 𝔞 = .ok bytes) ↔ id.commitmentProfile.inner.matrix.securityRoute.isLinf = true) ∧
      ∀ bytes, id.serialize 𝔞 = .ok bytes → bytes.length = id.serializedSize ∧
        (SupportedSliceCount id.commitmentProfile.outerSliceCount →
          ∀ validate rest, SetupPrefixSlotId.deserialize 𝔞 validate (bytes ++ rest) = .ok (id, rest))) ∧
    (∀ bs (id : SetupPrefixSlotId) rest, SetupPrefixSlotId.deserialize 𝔞 .yes bs = .ok (id, rest) → id.check 𝔞 = .ok () ∧
      ∃ bytes, id.serialize 𝔞 = .ok bytes ∧ bs.length = bytes.length + rest.length ∧
        (wordAt bs 108 < 2 ^ 32 → wordAt bs 195 < 2 ^ 32 → bs = bytes ++ rest)) ∧
    ∀ a b : SetupPrefixSlotId, a.check 𝔞 = .ok () → b.check 𝔞 = .ok () →
      (a.cmp b = .eq ↔ a = b) ∧ (a.eq b = true ↔ a = b) := by
  refine ⟨fun id h => ⟨⟨fun ⟨bytes, hbytes⟩ => ((serialize_eq_ok h).1 hbytes).1,
    fun hlinf => ⟨_, (serialize_eq_ok h).2 ⟨hlinf, rfl⟩⟩⟩, fun bytes hbytes => ?_⟩, fun bs id rest hread => ?_,
    fun a b ha hb => ⟨cmp_eq_iff ha hb, ?_⟩⟩
  · obtain ⟨hlinf, rfl⟩ := (serialize_eq_ok h).1 hbytes
    refine ⟨slotWire_length _ _ _, fun hslices validate rest => ?_⟩
    exact deserialize_eq_ok.2 ⟨⟨version_of_check h, hslices, (wired_iff h).2 hlinf⟩, fun _ => h, _, _,
      ⟨UInt32.toUInt32_toUInt64 _, UInt32.toUInt32_toUInt64 _⟩, rfl⟩
  · obtain ⟨⟨-, -, hwired⟩, hcheck, dA, dB, ⟨hA, hB⟩, rfl⟩ := deserialize_eq_ok.1 hread
    have h := hcheck rfl
    refine ⟨h, _, (serialize_eq_ok h).2 ⟨(wired_iff h).1 hwired, rfl⟩, ?_, fun hdA hdB => ?_⟩
    · rw [length_append, slotWire_length, slotWire_length]
    · obtain ⟨hwordA, hwordB⟩ := wordAt_slotWire id dA dB rest
      have hsmall : ∀ d : UInt64, d.toNat < 2 ^ 32 → d.toUInt32.toUInt64 = d := by
        intro d hd
        rw [← UInt64.toNat_inj, UInt32.toNat_toUInt64, UInt64.toNat_toUInt32, Nat.mod_eq_of_lt hd]
      rw [← hA, ← hB, hsmall dA (hwordA ▸ hdA), hsmall dB (hwordB ▸ hdB)]
  · rw [SetupPrefixSlotId.eq, Ordering.isEq_iff_eq_eq, cmp_eq_iff ha hb]

end

/-! ## Two slots -/

/-- Sixteen rings of dimension 64, for 1000 coefficients. -/
def sampleSlot (route : InnerCommitSecurityRoute) : SetupPrefixSlotId where
  naturalLen := 1000
  commitmentProfile := { sampleProfile 8 with inner := ⟨⟨16, 4⟩, ⟨1, 4, route⟩⟩ }

/-- `sampleBackend` with the first width of the Euclidean table at the key of `l2Route`. -/
def l2Backend : AuditBackend := { sampleBackend with
    generatedL2SisMaxWidths := fun profile d bound =>
      if profile = .q64Offset59 ∧ d = 64 ∧ bound = 2 then some [6400000000000] else none }

def l2Route : InnerCommitSecurityRoute := .l2 ⟨.quantum169BitADPS16, currentSisL2TableDigest, .q64Offset59, 64, 2⟩ 1 (.direct 256)

theorem setup_prefix_slot_codec_sample :
    ∃ bytes, (sampleSlot (.linf (sampleKey .inner 1428))).serialize sampleBackend = .ok bytes ∧ bytes.length = 235 ∧
      SetupPrefixSlotId.deserialize sampleBackend .yes bytes = .ok (sampleSlot (.linf (sampleKey .inner 1428)), []) := by
  have hcodec := (setup_prefix_slot_codec sampleBackend).1 (sampleSlot (.linf (sampleKey .inner 1428))) (by decide +kernel)
  obtain ⟨bytes, hbytes⟩ := hcodec.1.2 rfl
  obtain ⟨hlen, hread⟩ := hcodec.2 bytes hbytes
  have hread := hread (by decide) .yes []
  rw [append_nil] at hread
  exact ⟨bytes, hbytes, hlen, hread⟩

/-- A checked slot whose A matrix is on the L2 route is not written. -/
theorem setup_prefix_slot_l2 :
    (sampleSlot l2Route).check l2Backend = .ok () ∧ ∀ bytes, (sampleSlot l2Route).serialize l2Backend ≠ .ok bytes := by
  have hcheck : (sampleSlot l2Route).check l2Backend = .ok () := by decide +kernel
  refine ⟨hcheck, fun bytes hbytes => ?_⟩
  cases ((serialize_eq_ok hcheck).1 hbytes).1

end Akita.SetupPrefix
