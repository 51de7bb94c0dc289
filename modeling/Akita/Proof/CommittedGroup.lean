import Akita.Proof.CompressionPlan
import Akita.Proof.InstanceDescriptor
import Akita.Spec.CommittedGroup

/-!
# The committed-group codec

A group's bytes are its profile's and then its rows'. `readDescriptorWith_decodes`: the reads before the rows accept
exactly the bytes of the audited profiles, field by field; the rows are as canonical as the field's codec.
-/

namespace Akita.Commitment

open Lib Schedule List
open Descriptor (SerializationError Validate Decode require readExact defaultMaxSequenceLen require_eq_ok
  readExact_decodes)
open Compression (CompressionChainPlan compressionTargetBytes)

variable {tag : UInt8} {α : Type} {m : InnerCommitMatrixParams} {key : SisTableKey}

/-! ## Integers and tags -/

/-- An integer is its little-endian bytes. -/
class LawfulPrimitive (T : Type) [Primitive T] : Prop where
  toNat_lt : ∀ t : T, Primitive.toNat t < 256 ^ Primitive.size T
  ofNat_toNat : ∀ t : T, Primitive.ofNat (Primitive.toNat t) = t
  toNat_ofNat : ∀ n < 256 ^ Primitive.size T, Primitive.toNat (Primitive.ofNat n : T) = n

instance : LawfulPrimitive UInt8 where
  toNat_lt t := t.toNat_lt
  ofNat_toNat _ := UInt8.ofNat_toNat
  toNat_ofNat _ hn := UInt8.toNat_ofNat_of_lt' hn

instance : LawfulPrimitive UInt32 where
  toNat_lt t := t.toNat_lt
  ofNat_toNat _ := UInt32.ofNat_toNat
  toNat_ofNat _ hn := UInt32.toNat_ofNat_of_lt' hn

instance : LawfulPrimitive UInt64 where
  toNat_lt t := t.toNat_lt
  ofNat_toNat _ := UInt64.ofNat_toNat
  toNat_ofNat _ hn := UInt64.toNat_ofNat_of_lt' hn

instance : LawfulPrimitive (BitVec 128) where
  toNat_lt t := t.isLt
  ofNat_toNat t := BitVec.ofNat_toNat _ t
  toNat_ofNat _ hn := Nat.mod_eq_of_lt hn

theorem serializePrimitive_length {T : Type} [Primitive T] (t : T) :
    (serializePrimitive t).length = Primitive.size T := leBytes_length _ _

theorem deserializePrimitive_decodes (T : Type) [Primitive T] [LawfulPrimitive T] :
    Decodes (deserializePrimitive T) serializePrimitive Set.univ := by
  intro bs t rest
  simp only [deserializePrimitive, stateT_bind_ok, stateT_pure_ok, Set.mem_univ, true_and]
  constructor
  · rintro ⟨bytes, _, hread, rfl, rfl⟩
    obtain ⟨-, rfl⟩ := (readExact_decodes _ _ _ _).1 hread
    have hlen : bytes.toList.length = Primitive.size T := Vector.length_toList
    have hlt : leValue bytes.toList < 256 ^ Primitive.size T :=
      (leValue_lt bytes.toList).trans_eq (by rw [hlen, pow_mul]; norm_num)
    have hbytes := leBytes_leValue bytes.toList
    rw [hlen] at hbytes
    rw [serializePrimitive, LawfulPrimitive.toNat_ofNat _ hlt, hbytes]
  · rintro rfl
    refine ⟨⟨(serializePrimitive t).toArray, by simp [serializePrimitive_length]⟩, rest,
      (readExact_decodes _ _ _ _).2 ⟨trivial, by simp⟩, ?_, rfl⟩
    simp only [serializePrimitive, Vector.toList_mk]
    rw [leValue_leBytes, Nat.mod_eq_of_lt (LawfulPrimitive.toNat_lt t), LawfulPrimitive.ofNat_toNat]

theorem asInvalidData_eq_ok {r : Result α} {a : α} : asInvalidData r = .ok a ↔ r = .ok a := by
  cases r <;> simp [asInvalidData]

theorem orInvalidData_eq_ok {o : Option α} {msg : String} {a : α} : orInvalidData o msg = .ok a ↔ o = some a := by
  cases o <;> simp [orInvalidData]

theorem modulusProfile_fromTag {p : SisModulusProfileId} : SisModulusProfileId.fromTag tag = some p ↔ p.tag = tag := by
  unfold SisModulusProfileId.fromTag SisModulusProfileId.tag
  cases p <;> split_ifs <;> simp_all [eq_comm]

theorem policy_fromTag {p : SisSecurityPolicyId} : SisSecurityPolicyId.fromTag tag = some p ↔ p.tag = tag := by
  unfold SisSecurityPolicyId.fromTag SisSecurityPolicyId.tag
  cases p
  split_ifs <;> simp_all [eq_comm]

theorem role_fromTag {r : SisMatrixRole} : SisMatrixRole.fromTag tag = some r ↔ r.tag = tag := by
  unfold SisMatrixRole.fromTag SisMatrixRole.tag
  cases r <;> split_ifs <;> simp_all [eq_comm]

/-! ## Slice counts -/

/-- The counts of `CommitmentSliceCount::ALL`. -/
def SupportedSliceCount (c : CommitmentSliceCount) : Prop := c.count = 1 ∨ c.count = 2 ∨ c.count = 4 ∨ c.count = 8

instance (c : CommitmentSliceCount) : Decidable (SupportedSliceCount c) := by
  unfold SupportedSliceCount
  infer_instance

theorem tryNew_eq_ok {count : UInt64} {c : CommitmentSliceCount} :
    CommitmentSliceCount.tryNew count = .ok c ↔ SupportedSliceCount c ∧ UInt64.ofNat c.get = count := by
  obtain ⟨c⟩ := c
  unfold CommitmentSliceCount.tryNew
  constructor
  · intro h
    split_ifs at h with h1 h2 h4 h8
    · obtain rfl : 1 = c := by simpa using h
      exact ⟨Or.inl rfl, h1.symm⟩
    · obtain rfl : 2 = c := by simpa using h
      exact ⟨Or.inr (Or.inl rfl), h2.symm⟩
    · obtain rfl : 4 = c := by simpa using h
      exact ⟨Or.inr (Or.inr (Or.inl rfl)), h4.symm⟩
    · obtain rfl : 8 = c := by simpa using h
      exact ⟨Or.inr (Or.inr (Or.inr rfl)), h8.symm⟩
  · rintro ⟨h, rfl⟩
    rcases h with h | h | h | h <;> simp only at h <;> subst h <;> rfl

def sliceCountBytes (c : CommitmentSliceCount) : List UInt8 := serializePrimitive (UInt64.ofNat c.get)

theorem readSliceCount_decodes : Decodes CommittedGroup.readSliceCount sliceCountBytes {c | SupportedSliceCount c} := by
  refine ((deserializePrimitive_decodes UInt64).bind (fun count _ => Decodes.lift _) (fun c => UInt64.ofNat c.get)
    fun count _ c hc => ?_).congr (fun c => ?_) fun c _ => append_nil _
  · exact (tryNew_eq_ok.1 (asInvalidData_eq_ok.1 hc)).2
  · simp only [Set.mem_univ, true_and, Set.mem_ofPred_eq, asInvalidData_eq_ok, tryNew_eq_ok, and_true]

/-- A reader of every count, for the encodings of profiles that no reader of the source admits. -/
def readAnySliceCount : Decode CommitmentSliceCount := do
  let count ← deserializePrimitive UInt64
  Decoder.lift (orInvalidData (if count.toNat < 2 ^ 8 then some ⟨count.toUInt8⟩ else none) "slice count")

theorem readAnySliceCount_decodes : Decodes readAnySliceCount sliceCountBytes Set.univ := by
  have hread : ∀ (count : UInt64) (c : CommitmentSliceCount),
      (if count.toNat < 2 ^ 8 then some ⟨count.toUInt8⟩ else none : Option CommitmentSliceCount) = some c ↔
        UInt64.ofNat c.get = count := by
    rintro count ⟨c⟩
    have hc : c.toNat < 2 ^ 8 := c.toNat_lt
    change _ ↔ UInt64.ofNat c.toNat = count
    rw [← UInt64.toNat_inj, UInt64.toNat_ofNat_of_lt' (lt_trans hc (by norm_num))]
    split
    · rename_i h
      simp only [Option.some.injEq, CommitmentSliceCount.mk.injEq]
      rw [← UInt8.toNat_inj, UInt64.toNat_toUInt8]
      omega
    · rename_i h
      simp only [reduceCtorEq, false_iff]
      omega
  refine ((deserializePrimitive_decodes UInt64).bind (fun count _ => Decodes.lift _) (fun c => UInt64.ofNat c.get)
    fun count _ c hc => ?_).congr (fun c => ?_) fun c _ => append_nil _
  · exact (hread count c).1 (orInvalidData_eq_ok.1 hc)
  · simp only [Set.mem_univ, true_and, Set.mem_ofPred_eq, orInvalidData_eq_ok, hread]

/-! ## Matrices -/

/-- The bytes `read_matrix_fields` reads. -/
def matrixBytes (role : SisMatrixRole) (f : MatrixFields) : List UInt8 :=
  serializePrimitive f.modulusProfile.tag ++ serializePrimitive f.policy.tag ++ serializePrimitive role.tag ++
    f.tableDigest.toList ++ serializePrimitive f.ringDimension ++ serializePrimitive f.outputRank ++
    serializePrimitive f.inputWidth ++ serializePrimitive f.coeffLinfBound

theorem matrixBytes_length (role : SisMatrixRole) (f : MatrixFields) :
    (matrixBytes role f).length = 1 + 1 + 1 + 32 + 4 + 8 + 8 + 16 := by
  simp only [matrixBytes, length_append, serializePrimitive_length, Vector.length_toList, Primitive.size]

theorem readMatrixFields_decodes (role : SisMatrixRole) :
    Decodes (readMatrixFields role) (matrixBytes role) Set.univ := by
  intro bs f rest
  simp only [readMatrixFields, stateT_bind_ok, stateT_pure_ok, Decoder.lift_ok, orInvalidData_eq_ok, modulusProfile_fromTag,
    policy_fromTag, role_fromTag, require_eq_ok, readExact_decodes 32 _ _ _, deserializePrimitive_decodes UInt8 _ _ _,
    deserializePrimitive_decodes UInt32 _ _ _, deserializePrimitive_decodes UInt64 _ _ _,
    deserializePrimitive_decodes (BitVec 128) _ _ _, Set.mem_univ, true_and]
  constructor
  · rintro ⟨_, _, rfl, _, _, rfl, _, _, rfl, p, _, ⟨rfl, rfl⟩, q, _, ⟨rfl, rfl⟩, r, _, ⟨rfl, rfl⟩, _, _, ⟨rfl, rfl⟩, t, _, rfl, d, _,
      rfl, k, _, rfl, w, _, rfl, b, _, rfl, rfl, rfl⟩
    simp [matrixBytes]
  · rintro rfl
    simp only [matrixBytes, append_assoc]
    exact ⟨_, _, rfl, _, _, rfl, _, _, rfl, _, _, ⟨rfl, rfl⟩, _, _, ⟨rfl, rfl⟩, role, _, ⟨rfl, rfl⟩, (), _, ⟨rfl, rfl⟩, _, _, rfl,
      _, _, rfl, _, _, rfl, _, _, rfl, _, _, rfl, rfl, rfl⟩

section

variable {𝔞 : AuditBackend} {f : MatrixFields}

/-- An audit reads its key but for the role, and returns it with the bound of its row. -/
theorem auditCommitMatrixFields_eq {role : SisMatrixRole} {audited : SisTableKey} {rank width : UInt64}
    (h : auditCommitMatrixFields 𝔞 role key rank width = .ok audited) :
    audited = { key with role := role, coeffLinfBound := audited.coeffLinfBound } := by
  simp only [auditCommitMatrixFields, result_ok, sisTableKeyForLinfBound, Option.map_eq_some_iff] at h
  obtain ⟨-, _, ⟨bound, -, rfl⟩, _, -, -, rfl⟩ := h
  rfl

def innerFields (m : InnerCommitMatrixParams) : MatrixFields :=
  match m.securityRoute with
  | .linf key => ⟨key.policy, key.tableDigest, key.modulusProfile, m.outputRank, m.inputWidth, key.coeffLinfBound,
      key.ringDimension⟩
  | .l2 key _ _ => ⟨key.policy, key.tableDigest, key.modulusProfile, m.outputRank, m.inputWidth, key.collisionL2Sq,
      key.ringDimension⟩

def outerFields (m : OuterCommitMatrixParams) : MatrixFields :=
  ⟨m.sisTableKey.policy, m.sisTableKey.tableDigest, m.sisTableKey.modulusProfile, m.outputRank, m.inputWidth,
    m.sisTableKey.coeffLinfBound, m.sisTableKey.ringDimension⟩

/-- `try_new` on the fields of a matrix, with the bound check that follows it. -/
def InnerReads (𝔞 : AuditBackend) (f : MatrixFields) (m : InnerCommitMatrixParams) : Prop :=
  InnerCommitMatrixParams.tryNew 𝔞 f.policy f.tableDigest f.modulusProfile f.outputRank f.inputWidth f.coeffLinfBound
    f.ringDimension = .ok m ∧ m.coeffLinfBound = some f.coeffLinfBound

/-- `try_new` on the fields of a matrix, with the bound check that follows it. -/
def OuterReads (𝔞 : AuditBackend) (f : MatrixFields) (m : OuterCommitMatrixParams) : Prop :=
  LinfCommitMatrix.tryNew 𝔞 .outer f.policy f.tableDigest f.modulusProfile f.outputRank f.inputWidth f.coeffLinfBound
    f.ringDimension = .ok m ∧ m.sisTableKey.coeffLinfBound = f.coeffLinfBound

/-- A matrix is rebuilt from its fields exactly when it is audited and on the `L∞` route. -/
theorem innerReads_iff :
    InnerReads 𝔞 f m ↔ m.securityRoute.isLinf = true ∧ m.validate 𝔞 = .ok () ∧ innerFields m = f := by
  simp only [InnerReads, InnerCommitMatrixParams.tryNew, result_ok]
  constructor
  · rintro ⟨⟨key, haudit, rfl⟩, hbound⟩
    obtain rfl : key = ⟨f.policy, f.tableDigest, f.modulusProfile, .inner, f.ringDimension, f.coeffLinfBound⟩ := by
      have hkey := auditCommitMatrixFields_eq haudit
      rw [hkey, Option.some.inj hbound]
    refine ⟨rfl, ?_, rfl⟩
    simp only [InnerCommitMatrixParams.validate, haudit, ok_bind, ensure_eq_ok]
  · rintro ⟨hlinf, hvalid, rfl⟩
    obtain ⟨rank, width, key | _⟩ := m
    · simp only [InnerCommitMatrixParams.validate, result_ok] at hvalid
      obtain ⟨audited, haudit, rfl⟩ := hvalid
      exact ⟨⟨audited, haudit, rfl⟩, rfl⟩
    · cases hlinf

theorem outerReads_iff {m : OuterCommitMatrixParams} : OuterReads 𝔞 f m ↔ m.validate 𝔞 = .ok () ∧ outerFields m = f := by
  simp only [OuterReads, LinfCommitMatrix.tryNew, result_ok]
  constructor
  · rintro ⟨⟨key, haudit, rfl⟩, hbound⟩
    obtain rfl : key = ⟨f.policy, f.tableDigest, f.modulusProfile, .outer, f.ringDimension, f.coeffLinfBound⟩ := by
      have hkey := auditCommitMatrixFields_eq haudit
      rw [hkey, hbound]
    refine ⟨?_, rfl⟩
    simp only [LinfCommitMatrix.validate, haudit, ok_bind, ensure_eq_ok]
  · rintro ⟨hvalid, rfl⟩
    simp only [LinfCommitMatrix.validate, result_ok] at hvalid
    obtain ⟨audited, haudit, hkey⟩ := hvalid
    refine ⟨⟨audited, haudit, ?_⟩, rfl⟩
    rw [hkey]
    rfl

/-! ## Profiles -/

def profileBytes (p : GroupCommitPhaseParams) : List UInt8 :=
  serializePrimitive p.version ++ serializePrimitive p.group.numVars ++ serializePrimitive p.group.numPolynomials ++
    serializePrimitive p.blocks.liveRingElementsPerClaim ++ serializePrimitive p.blocks.positionsPerBlock ++
    serializePrimitive p.blocks.liveBlocks ++ sliceCountBytes p.outerSliceCount ++
    serializePrimitive p.inner.digits.logBasis ++ serializePrimitive p.inner.digits.numDigits ++
    matrixBytes .inner (innerFields p.inner.matrix) ++ serializePrimitive p.outer.digits.logBasis ++
    serializePrimitive p.outer.digits.numDigits ++ matrixBytes .outer (outerFields p.outer.matrix)

theorem profileBytes_length (p : GroupCommitPhaseParams) :
    (profileBytes p).length = 1 + 16 + 32 + 4 + 8 + (1 + 1 + 1 + 32 + 4 + 8 + 8 + 16) + 4 + 8 +
      (1 + 1 + 1 + 32 + 4 + 8 + 8 + 16) := by
  simp only [profileBytes, sliceCountBytes, length_append, serializePrimitive_length, matrixBytes_length,
    Primitive.size]

/-- The profiles of the current version with audited matrices and a slice count in `S`. -/
def Audited (𝔞 : AuditBackend) (S : Set CommitmentSliceCount) : Set GroupCommitPhaseParams :=
  {p | p.version = GroupCommitPhaseParams.currentVersion ∧ p.outerSliceCount ∈ S ∧
    InnerReads 𝔞 (innerFields p.inner.matrix) p.inner.matrix ∧ OuterReads 𝔞 (outerFields p.outer.matrix) p.outer.matrix}

/-- `read_descriptor` over any reader of slice counts. -/
def readDescriptorWith (𝔞 : AuditBackend) (slices : Decode CommitmentSliceCount) : Decode GroupCommitPhaseParams := do
  let version ← deserializePrimitive UInt8
  Decoder.lift (require (version = GroupCommitPhaseParams.currentVersion)
    ("unknown committed-group profile version " ++ toString version.toNat))
  let numVars ← deserializePrimitive UInt64
  let numPolynomials ← deserializePrimitive UInt64
  let liveRingElementsPerClaim ← deserializePrimitive UInt64
  let positionsPerBlock ← deserializePrimitive UInt64
  let liveBlocks ← deserializePrimitive UInt64
  let outerSliceCount ← slices
  let logBasisInner ← deserializePrimitive UInt32
  let numDigitsInner ← deserializePrimitive UInt64
  let a ← readMatrixFields .inner
  let innerMatrix ← Decoder.lift (asInvalidData (InnerCommitMatrixParams.tryNew 𝔞 a.policy a.tableDigest a.modulusProfile
    a.outputRank a.inputWidth a.coeffLinfBound a.ringDimension))
  Decoder.lift (require (innerMatrix.coeffLinfBound = some a.coeffLinfBound)
    "committed-group A coefficient bound is not its SIS table's bound")
  let logBasisOuter ← deserializePrimitive UInt32
  let numDigitsOuter ← deserializePrimitive UInt64
  let b ← readMatrixFields .outer
  let outerMatrix ← Decoder.lift (asInvalidData (LinfCommitMatrix.tryNew 𝔞 .outer b.policy b.tableDigest b.modulusProfile
    b.outputRank b.inputWidth b.coeffLinfBound b.ringDimension))
  Decoder.lift (require (outerMatrix.sisTableKey.coeffLinfBound = b.coeffLinfBound)
    "committed-group B coefficient bound is not its SIS table's bound")
  return { version
           group := ⟨numVars, numPolynomials⟩
           blocks := ⟨liveRingElementsPerClaim, positionsPerBlock, liveBlocks⟩
           outerSliceCount
           inner := ⟨⟨logBasisInner, numDigitsInner⟩, innerMatrix⟩
           outer := ⟨⟨logBasisOuter, numDigitsOuter⟩, outerMatrix⟩ }

theorem readDescriptor_eq : CommittedGroup.readDescriptor 𝔞 = readDescriptorWith 𝔞 CommittedGroup.readSliceCount := rfl

/-- **The reads before the rows** accept exactly the bytes of the audited profiles. -/
theorem readDescriptorWith_decodes {slices : Decode CommitmentSliceCount} {S : Set CommitmentSliceCount}
    (hslices : Decodes slices sliceCountBytes S) :
    Decodes (readDescriptorWith 𝔞 slices) profileBytes (Audited 𝔞 S) := by
  intro bs p rest
  simp only [readDescriptorWith, stateT_bind_ok, stateT_pure_ok, Decoder.lift_ok, require_eq_ok, asInvalidData_eq_ok,
    hslices _ _ _, readMatrixFields_decodes _ _ _ _, deserializePrimitive_decodes UInt8 _ _ _,
    deserializePrimitive_decodes UInt32 _ _ _, deserializePrimitive_decodes UInt64 _ _ _, Set.mem_univ, true_and]
  constructor
  · rintro ⟨version, _, rfl, _, _, ⟨hvers, rfl⟩, vars, _, rfl, polys, _, rfl, live, _, rfl, positions, _, rfl, blocks, _, rfl,
      slices, _, ⟨hslice, rfl⟩, logInner, _, rfl, digitsInner, _, rfl, a, _, rfl, inner, _, ⟨hinner, rfl⟩, _, _, ⟨hinner', rfl⟩,
      logOuter, _, rfl, digitsOuter, _, rfl, b, _, rfl, outer, _, ⟨houter, rfl⟩, _, _, ⟨houter', rfl⟩, rfl, rfl⟩
    have hA : InnerReads 𝔞 a inner := ⟨hinner, hinner'⟩
    have hB : OuterReads 𝔞 b outer := ⟨houter, houter'⟩
    obtain rfl := (innerReads_iff.1 hA).2.2
    obtain rfl := (outerReads_iff.1 hB).2
    exact ⟨⟨hvers, hslice, hA, hB⟩, by simp [profileBytes]⟩
  · rintro ⟨⟨hvers, hslice, hinner, houter⟩, rfl⟩
    simp only [profileBytes, append_assoc]
    exact ⟨_, _, rfl, (), _, ⟨hvers, rfl⟩, _, _, rfl, _, _, rfl, _, _, rfl, _, _, rfl, _, _, rfl, _, _, ⟨hslice, rfl⟩, _, _, rfl,
      _, _, rfl, _, _, rfl, _, _, ⟨hinner.1, rfl⟩, (), _, ⟨hinner.2, rfl⟩, _, _, rfl, _, _, rfl, _, _, rfl, _, _,
      ⟨houter.1, rfl⟩, (), _, ⟨houter.2, rfl⟩, rfl, rfl⟩

end

/-! ## Rows -/

section

variable {F : Type} {codec : FieldCodec F} {compress : Compress} {validate : Validate} {reserve : ℕ → Bool}

/-- A checked field element is read back from its bytes, in every mode. -/
structure FieldCodec.Lawful (codec : FieldCodec F) : Prop where
  length : ∀ compress a, (codec.serialize compress a).length = codec.serializedSize compress a
  reads : ∀ compress validate a rest, codec.check a = .ok () →
    codec.deserialize compress validate (codec.serialize compress a ++ rest) = .ok (a, rest)

/-- In a mode, an element is read from its own bytes only. -/
def FieldCodec.CanonicalIn (codec : FieldCodec F) (compress : Compress) (validate : Validate) : Prop :=
  ∀ bs a rest, codec.deserialize compress validate bs = .ok (a, rest) → bs = codec.serialize compress a ++ rest

theorem exceptForM_eq_ok {ε γ : Type} {f : γ → Except ε Unit} {l : List γ} :
    l.forM f = .ok () ↔ ∀ a ∈ l, f a = .ok () := by
  induction l with
  | nil => simp [List.forM, pure, Except.pure]
  | cons a l ih =>
    have hloop : (a :: l).forM f = f a >>= fun _ => l.forM f := rfl
    rw [hloop, except_bind_ok]
    simp only [exists_unit, ih, forall_mem_cons]

namespace RingVec

variable {rows : RingVec F}

theorem check_eq_ok : rows.check codec = .ok () ↔ ∀ a ∈ rows.coeffs, codec.check a = .ok () := exceptForM_eq_ok

theorem serialize_length (hcodec : codec.Lawful) :
    (rows.serialize codec compress).length = rows.serializedSize codec compress := by
  simp only [serialize, serializedSize, length_flatMap, hcodec.length]

theorem decodeMany_serialize (hcodec : codec.Lawful) (l : List F) (h : ∀ a ∈ l, codec.check a = .ok ())
    (rest : List UInt8) : decodeMany (codec.deserialize compress validate) l.length
      (l.flatMap (codec.serialize compress) ++ rest) = .ok (l, rest) := by
  induction l with
  | nil => rfl
  | cons a l ih =>
    simp only [length_cons, decodeMany, stateT_bind_ok, stateT_pure_ok, flatMap_cons, append_assoc]
    exact ⟨a, _, hcodec.reads _ _ _ _ (h a (by simp)), l, rest, ih fun x hx => h x (by simp [hx]), rfl, rfl⟩

theorem decodeMany_rows (hcodec : codec.Lawful) (h : rows.check codec = .ok ()) :
    decodeMany (codec.deserialize compress validate) rows.coeffs.length (rows.serialize codec compress) =
      .ok (rows.coeffs, []) := by
  rw [← append_nil (rows.serialize codec compress)]
  exact decodeMany_serialize hcodec rows.coeffs (check_eq_ok.1 h) []

/-- Elements that are read from their own bytes only leave a list read from its own bytes only. -/
theorem decodeMany_canonical (hcanon : codec.CanonicalIn compress validate) :
    ∀ (n : ℕ) {bs rest : List UInt8} {l : List F},
      decodeMany (codec.deserialize compress validate) n bs = .ok (l, rest) →
        bs = l.flatMap (codec.serialize compress) ++ rest := by
  intro n
  induction n with
  | zero =>
    intro bs rest l h
    obtain ⟨rfl, rfl⟩ := stateT_pure_ok.1 h
    rfl
  | succ n ih =>
    intro bs rest l h
    simp only [decodeMany, stateT_bind_ok, stateT_pure_ok] at h
    obtain ⟨a, _, ha, l, _, hl, rfl, rfl⟩ := h
    rw [hcanon _ _ _ ha, ih hl, flatMap_cons, append_assoc]

theorem deserialize_eq_ok {bs rest : List UInt8} {n : ℕ} :
    deserialize codec reserve compress validate n bs = .ok (rows, rest) ↔
      n ≤ defaultMaxSequenceLen ∧ reserve n = true ∧ rows.ringDim = 0 ∧ (validate = .yes → rows.check codec = .ok ()) ∧
        decodeMany (codec.deserialize compress validate) n bs = .ok (rows.coeffs, rest) := by
  have hresv : reserveShapeLen reserve n = .ok () ↔ n ≤ defaultMaxSequenceLen ∧ reserve n = true := by
    unfold reserveShapeLen
    split
    · simp only [reduceCtorEq, false_iff]
      omega
    · rw [require_eq_ok]
      exact ⟨fun h => ⟨by omega, h⟩, fun h => h.2⟩
  have hcheck : ∀ out : RingVec F, (if validate = .yes then out.check codec else .ok ()) = .ok () ↔
      (validate = .yes → out.check codec = .ok ()) := by
    intro out
    split <;> simp_all
  simp only [deserialize, stateT_bind_ok, Decoder.lift_ok, stateT_pure_ok]
  constructor
  · rintro ⟨_, _, ⟨h1, rfl⟩, coeffs, _, h2, _, _, ⟨h3, rfl⟩, rfl, rfl⟩
    obtain ⟨hn, hr⟩ := hresv.1 h1
    exact ⟨hn, hr, rfl, (hcheck _).1 h3, h2⟩
  · rintro ⟨hn, hr, hdim, hvalid, h2⟩
    obtain ⟨coeffs, dim⟩ := rows
    obtain rfl : dim = 0 := hdim
    exact ⟨(), bs, ⟨hresv.2 ⟨hn, hr⟩, rfl⟩, coeffs, rest, h2, (), rest, ⟨(hcheck _).2 hvalid, rfl⟩, rfl, rfl⟩

end RingVec

end

/-! ## The prime field -/

section

variable {P bytes modulusBits : ℕ} [NeZero P]

theorem primeFieldCodec_lawful (hP : P ≤ 256 ^ bytes) : (primeFieldCodec P bytes modulusBits).Lawful where
  length _ _ := leBytes_length _ _
  reads _ validate a rest _ := by
    have hlt : a.val < P := ZMod.val_lt a
    have hval : leValue (leBytes bytes a.val) = a.val := by
      rw [leValue_leBytes, Nat.mod_eq_of_lt (lt_of_lt_of_le hlt hP)]
    simp only [primeFieldCodec, stateT_bind_ok, Decoder.lift_ok, stateT_pure_ok, require_eq_ok]
    refine ⟨⟨(leBytes bytes a.val).toArray, by simp [leBytes_length]⟩, rest,
      (readExact_decodes _ _ _ _).2 ⟨trivial, by simp⟩, (), rest, ⟨fun _ => ?_, rfl⟩, ?_, rfl⟩
    · simpa [hval] using hlt
    · simp [hval]

end

/-! ## Groups -/

section groups

variable {F : Type} {codec : FieldCodec F} {𝔞 : AuditBackend} {hash : List UInt8 → Digest} {reserve : ℕ → Bool}
  {compress : Compress} {validate : Validate} {p : GroupCommitPhaseParams} {rows : RingVec F} {g : CommittedGroup F}
  {bs rest : List UInt8}

theorem checkGroup_eq_ok : checkGroup codec 𝔞 p rows = .ok () ↔ p.validateFrozenPrecommit 𝔞 codec.modulusBits = .ok () ∧
      rows.check codec = .ok () ∧ ∃ plan, p.outerCompressionPlan = .ok plan ∧
        rows.coeffs.length = plan.terminalCoefficients := by
  simp only [checkGroup, except_bind_ok, exists_unit, asInvalidData_eq_ok, require_eq_ok]

theorem checkGroup_ringDim (d : ℕ) : checkGroup codec 𝔞 p { rows with ringDim := d } = checkGroup codec 𝔞 p rows := rfl

theorem audited_of_linf {bits : ℕ} (hp : p.validateFrozenPrecommit 𝔞 bits = .ok ())
    (hlinf : p.inner.matrix.securityRoute.isLinf = true) : p ∈ Audited 𝔞 Set.univ := by
  simp only [GroupCommitPhaseParams.validateFrozenPrecommit, GroupCommitPhaseParams.validate, result_ok] at hp
  obtain ⟨⟨-, hvers, hinner, houter, -⟩, -⟩ := hp
  exact ⟨hvers, trivial, innerReads_iff.2 ⟨hlinf, hinner, rfl⟩, outerReads_iff.2 ⟨houter, rfl⟩⟩

theorem innerKey_role (h : m.validate 𝔞 = .ok ()) (hkey : m.securityRoute = .linf key) : key.role = .inner := by
  simp only [InnerCommitMatrixParams.validate, hkey, result_ok] at h
  obtain ⟨audited, haudit, rfl⟩ := h
  rw [auditCommitMatrixFields_eq haudit]

theorem outerKey_role {m : OuterCommitMatrixParams} (h : m.validate 𝔞 = .ok ()) : m.sisTableKey.role = .outer := by
  simp only [LinfCommitMatrix.validate, result_ok] at h
  obtain ⟨audited, haudit, hkey⟩ := h
  rw [← hkey, auditCommitMatrixFields_eq haudit]

theorem writeGroup_eq (rows : RingVec F) (hp : p ∈ Audited 𝔞 Set.univ) :
    writeGroup codec p rows compress = .ok (profileBytes p ++ rows.serialize codec compress) := by
  obtain ⟨-, -, hinner, houter⟩ := hp
  obtain ⟨hlinf, hinner, -⟩ := innerReads_iff.1 hinner
  have hrole' := outerKey_role (outerReads_iff.1 houter).1
  cases hsec : p.inner.matrix.securityRoute with
  | l2 key cap shape =>
    rw [hsec] at hlinf
    cases hlinf
  | linf key =>
    have hrole := innerKey_role hinner hsec
    have hkey : p.inner.matrix.sisTableKey = some key := by rw [InnerCommitMatrixParams.sisTableKey, hsec]
    have hfields : innerFields p.inner.matrix = ⟨key.policy, key.tableDigest, key.modulusProfile,
        p.inner.matrix.outputRank, p.inner.matrix.inputWidth, key.coeffLinfBound, key.ringDimension⟩ := by
      rw [innerFields, hsec]
    simp only [writeGroup, except_bind_ok, orInvalidData_eq_ok, hkey]
    refine ⟨key, rfl, congrArg Except.ok ?_⟩
    simp [profileBytes, matrixBytes, writeMatrix, hrole, hrole', hfields, outerFields, sliceCountBytes]

theorem writeGroup_eq_ok {bytes : List UInt8} (hp : p.validateFrozenPrecommit 𝔞 codec.modulusBits = .ok ()) :
    writeGroup codec p rows compress = .ok bytes ↔
      p ∈ Audited 𝔞 Set.univ ∧ bytes = profileBytes p ++ rows.serialize codec compress := by
  constructor
  · intro h
    have hlinf : p.inner.matrix.securityRoute.isLinf = true := by
      simp only [writeGroup, except_bind_ok, orInvalidData_eq_ok, InnerCommitMatrixParams.sisTableKey] at h
      obtain ⟨key, hkey, -⟩ := h
      cases hsec : p.inner.matrix.securityRoute with
      | linf _ => rfl
      | l2 _ _ _ => simp [hsec] at hkey
    have hmem := audited_of_linf hp hlinf
    rw [writeGroup_eq rows hmem] at h
    exact ⟨hmem, (Except.ok.inj h).symm⟩
  · rintro ⟨hmem, rfl⟩
    exact writeGroup_eq rows hmem

/-- **What `new` accepts and builds.** -/
theorem new_eq_ok : CommittedGroup.new codec 𝔞 hash p rows = .ok g ↔ checkGroup codec 𝔞 p rows = .ok () ∧ p ∈ Audited 𝔞 Set.univ ∧
      g = ⟨p, rows, commitmentDigest hash (profileBytes p ++ rows.serialize codec .no)⟩ := by
  simp only [CommittedGroup.new, except_bind_ok, exists_unit]
  refine and_congr_right fun hcheck => ?_
  simp only [writeGroup_eq_ok (checkGroup_eq_ok.1 hcheck).1]
  constructor
  · rintro ⟨_, ⟨hp, rfl⟩, h⟩
    exact ⟨hp, (Except.ok.inj h).symm⟩
  · rintro ⟨hp, rfl⟩
    exact ⟨_, ⟨hp, rfl⟩, rfl⟩

theorem serialize_eq_ok (hnew : CommittedGroup.new codec 𝔞 hash p rows = .ok g) :
    g.serialize codec 𝔞 compress = .ok (profileBytes p ++ rows.serialize codec compress) := by
  obtain ⟨hcheck, hp, rfl⟩ := new_eq_ok.1 hnew
  simp only [CommittedGroup.serialize, except_bind_ok, exists_unit]
  exact ⟨hcheck, (writeGroup_eq_ok (checkGroup_eq_ok.1 hcheck).1).2 ⟨hp, rfl⟩⟩

theorem terminal_le {plan : CompressionChainPlan} (h : p.outerCompressionPlan = .ok plan) :
    plan.terminalCoefficients ≤ compressionTargetBytes := by
  simp only [GroupCommitPhaseParams.outerCompressionPlan, bind_eq_ok] at h
  obtain ⟨rows, -, h⟩ := h
  exact CompressionChainPlan.forImage_terminal_le h

/-- **What a decoder accepts**: an audited profile with a supported slice count, and rows for `new`. -/
theorem deserialize_eq_ok : CommittedGroup.deserialize codec 𝔞 hash reserve compress validate bs = .ok (g, rest) ↔
      ∃ mid, g.profile ∈ Audited 𝔞 {c | SupportedSliceCount c} ∧ bs = profileBytes g.profile ++ mid ∧
        CommittedGroup.new codec 𝔞 hash g.profile g.commitment = .ok g ∧
        RingVec.deserialize codec reserve compress validate g.commitment.coeffs.length mid = .ok (g.commitment, rest) := by
  have hread := readDescriptorWith_decodes (𝔞 := 𝔞) readSliceCount_decodes
  rw [← readDescriptor_eq] at hread
  simp only [CommittedGroup.deserialize, stateT_bind_ok, Decoder.lift_ok, asInvalidData_eq_ok, require_eq_ok]
  constructor
  · rintro ⟨p, mid, hp, _, _, ⟨-, rfl⟩, plan, _, ⟨hplan, rfl⟩, _, _, ⟨-, rfl⟩, rows, _, hrows, hnew, rfl⟩
    obtain ⟨haudited, rfl⟩ := (hread _ _ _).1 hp
    obtain ⟨hcheck, -, rfl⟩ := new_eq_ok.1 hnew
    obtain ⟨-, -, plan', hplan', hlen⟩ := checkGroup_eq_ok.1 hcheck
    obtain rfl : plan = plan' := Except.ok.inj (hplan.symm.trans hplan')
    exact ⟨_, haudited, rfl, hnew, hlen ▸ hrows⟩
  · rintro ⟨mid, haudited, rfl, hnew, hrows⟩
    obtain ⟨hcheck, -, hg⟩ := new_eq_ok.1 hnew
    obtain ⟨hvalid, -, plan, hplan, hlen⟩ := checkGroup_eq_ok.1 hcheck
    have hcap : ¬ plan.terminalCoefficients > maxUntrustedCommitmentCoefficients := by
      have := terminal_le hplan
      simp only [compressionTargetBytes, maxUntrustedCommitmentCoefficients] at this ⊢
      omega
    exact ⟨g.profile, mid, (hread _ _ _).2 ⟨haudited, rfl⟩, (), mid, ⟨hvalid, rfl⟩, plan, mid, ⟨hplan, rfl⟩, (), mid,
      ⟨hcap, rfl⟩, g.commitment, rest, hlen ▸ hrows, hnew, rfl⟩

variable (codec 𝔞 hash reserve) in
/-- Serializing a group and deserializing its bytes returns it, but for the dimension of its rows. -/
def RoundTrips (g : CommittedGroup F) (compress : Compress) (validate : Validate) : Prop :=
  ∃ bytes h, g.serialize codec 𝔞 compress = .ok bytes ∧
    CommittedGroup.deserialize codec 𝔞 hash reserve compress validate bytes = .ok (h, []) ∧ h.profile = g.profile ∧
      h.commitment.coeffs = g.commitment.coeffs ∧ h.digest = g.digest

/-- **The round trip** holds exactly for the slice counts the decoder supports. -/
theorem roundTrips_iff (hcodec : codec.Lawful) (hresv : ∀ n ≤ compressionTargetBytes, reserve n = true)
    (hnew : CommittedGroup.new codec 𝔞 hash p rows = .ok g) :
    RoundTrips codec 𝔞 hash reserve g compress validate ↔ SupportedSliceCount p.outerSliceCount := by
  have hser : g.serialize codec 𝔞 compress = .ok (profileBytes p ++ rows.serialize codec compress) :=
    serialize_eq_ok hnew
  obtain ⟨hcheck, hp, rfl⟩ := new_eq_ok.1 hnew
  constructor
  · rintro ⟨bytes, h, -, hread, hsame, -, -⟩
    obtain ⟨_, haudited, -, -, -⟩ := deserialize_eq_ok.1 hread
    rw [hsame] at haudited
    exact haudited.2.1
  · intro hslices
    -- the decoded group keeps the coefficients and drops the dimension
    set decoded : CommittedGroup F := ⟨p, { rows with ringDim := 0 },
      commitmentDigest hash (profileBytes p ++ rows.serialize codec .no)⟩ with hdecoded
    have hnew' : CommittedGroup.new codec 𝔞 hash decoded.profile decoded.commitment = .ok decoded :=
      new_eq_ok.2 ⟨(checkGroup_ringDim 0).trans hcheck, hp, rfl⟩
    obtain ⟨-, hrows, plan, hplan, hlen⟩ := checkGroup_eq_ok.1 hcheck
    have hle : rows.coeffs.length ≤ compressionTargetBytes := hlen ▸ terminal_le hplan
    have hread : RingVec.deserialize codec reserve compress validate decoded.commitment.coeffs.length
        (rows.serialize codec compress) = .ok (decoded.commitment, []) := by
      refine RingVec.deserialize_eq_ok.2 ⟨hle.trans (by decide), hresv _ hle, rfl, fun _ => hrows, ?_⟩
      exact RingVec.decodeMany_rows hcodec hrows
    have haudited : decoded.profile ∈ Audited 𝔞 {c | SupportedSliceCount c} := ⟨hp.1, hslices, hp.2.2⟩
    have hdone := deserialize_eq_ok.2 ⟨rows.serialize codec compress, haudited, rfl, hnew', hread⟩
    exact ⟨_, decoded, hser, hdone, rfl, rfl, rfl⟩

theorem serialize_of_deserialize (hcanon : codec.CanonicalIn compress validate)
    (h : CommittedGroup.deserialize codec 𝔞 hash reserve compress validate bs = .ok (g, rest)) :
    ∃ bytes, g.serialize codec 𝔞 compress = .ok bytes ∧ bs = bytes ++ rest := by
  obtain ⟨mid, -, rfl, hnew, hrows⟩ := deserialize_eq_ok.1 h
  obtain ⟨-, -, -, -, hmany⟩ := RingVec.deserialize_eq_ok.1 hrows
  refine ⟨_, serialize_eq_ok hnew, ?_⟩
  rw [RingVec.decodeMany_canonical hcanon _ hmany, RingVec.serialize, append_assoc]

theorem serialize_injective (hcodec : codec.Lawful) {p' : GroupCommitPhaseParams} {rows' : RingVec F} {g' : CommittedGroup F}
    (hnew : CommittedGroup.new codec 𝔞 hash p rows = .ok g) (hnew' : CommittedGroup.new codec 𝔞 hash p' rows' = .ok g')
    (h : g.serialize codec 𝔞 compress = g'.serialize codec 𝔞 compress) : p = p' ∧ rows.coeffs = rows'.coeffs := by
  rw [serialize_eq_ok hnew, serialize_eq_ok hnew', Except.ok.injEq] at h
  obtain ⟨hcheck, hp, -⟩ := new_eq_ok.1 hnew
  obtain ⟨hcheck', hp', -⟩ := new_eq_ok.1 hnew'
  -- every profile, also one that no decoder admits, is split off the front by a reader of all counts
  have hfree := (readDescriptorWith_decodes (𝔞 := 𝔞) readAnySliceCount_decodes).canonical.prefixFreeOn
  obtain ⟨rfl, hbytes⟩ := hfree _ hp _ hp' _ _ h
  obtain ⟨-, hrows, plan, hplan, hlen⟩ := checkGroup_eq_ok.1 hcheck
  obtain ⟨-, hrows', plan', hplan', hlen'⟩ := checkGroup_eq_ok.1 hcheck'
  obtain rfl : plan = plan' := Except.ok.inj (hplan.symm.trans hplan')
  have hmany : decodeMany (codec.deserialize compress .no) rows.coeffs.length (rows.serialize codec compress) = _ :=
    RingVec.decodeMany_rows hcodec hrows
  rw [hbytes, hlen, ← hlen'] at hmany
  exact ⟨rfl, (Prod.ext_iff.1 (Except.ok.inj (hmany.symm.trans (RingVec.decodeMany_rows hcodec hrows')))).1⟩

theorem digest_of_new (hnew : CommittedGroup.new codec 𝔞 hash p rows = .ok g) :
    ∃ bytes, g.serialize codec 𝔞 .no = .ok bytes ∧ g.digest = commitmentDigest hash bytes := by
  refine ⟨_, serialize_eq_ok hnew, ?_⟩
  rw [(new_eq_ok.1 hnew).2.2]

/-- **The committed-group codec.** A group that `new` accepts is written in exactly `serialized_size` bytes, and
read back from them, in any mode, exactly when its slice count is one of 1, 2, 4 and 8. Where the codec of the field is
canonical, accepted bytes are written back as they were read. The digest is always that of the uncompressed bytes, and
the bytes tell the profile and the coefficients. -/
theorem committedGroup_codec (hcodec : codec.Lawful) (hreserve : ∀ n ≤ compressionTargetBytes, reserve n = true) :
    (∀ p rows g, CommittedGroup.new codec 𝔞 hash p rows = .ok g →
      (∀ compress, ∃ bytes, g.serialize codec 𝔞 compress = .ok bytes ∧ bytes.length = g.serializedSize codec compress) ∧
      ∀ compress validate, RoundTrips codec 𝔞 hash reserve g compress validate ↔ SupportedSliceCount p.outerSliceCount) ∧
    (∀ compress validate, codec.CanonicalIn compress validate → ∀ bs g rest,
      CommittedGroup.deserialize codec 𝔞 hash reserve compress validate bs = .ok (g, rest) →
        ∃ bytes, g.serialize codec 𝔞 compress = .ok bytes ∧ bs = bytes ++ rest) ∧
    (∀ g, (∃ p rows, CommittedGroup.new codec 𝔞 hash p rows = .ok g) ∨
        (∃ compress validate bs rest, CommittedGroup.deserialize codec 𝔞 hash reserve compress validate bs = .ok (g, rest)) →
      ∃ bytes, g.serialize codec 𝔞 .no = .ok bytes ∧ g.digest = commitmentDigest hash bytes) ∧
    ∀ p p' rows rows' g g', CommittedGroup.new codec 𝔞 hash p rows = .ok g → CommittedGroup.new codec 𝔞 hash p' rows' = .ok g' →
      ∀ compress, g.serialize codec 𝔞 compress = g'.serialize codec 𝔞 compress → p = p' ∧ rows.coeffs = rows'.coeffs := by
  refine ⟨fun p rows g hnew => ⟨fun compress => ?_, fun _ _ => roundTrips_iff hcodec hreserve hnew⟩,
    fun _ _ hcanonical _ _ _ h => serialize_of_deserialize hcanonical h, ?_,
    fun _ _ _ _ _ _ hnew hnew' _ h => serialize_injective hcodec hnew hnew' h⟩
  · refine ⟨_, serialize_eq_ok hnew, ?_⟩
    rw [length_append, profileBytes_length, RingVec.serialize_length hcodec, (new_eq_ok.1 hnew).2.2]
    rfl
  · rintro g (⟨p, rows, hnew⟩ | ⟨compress, validate, bs, rest, h⟩)
    · exact digest_of_new hnew
    · obtain ⟨-, -, -, hnew, -⟩ := deserialize_eq_ok.1 h
      exact digest_of_new hnew

end groups

/-! ## Sixteen slices -/

/-- The generated tables at the two keys of `sampleProfile`. -/
def sampleBackend : AuditBackend where
  Search := Unit
  supportedCell role _ _ linf := (match role with
    | .inner => [1428, 1484]
    | _ => [3, 7, 15, 31, 63, 127, 255]).find? (linf ≤ ·)
  sisRoleCell _ _ _ _ := some 20
  generatedSisMaxWidths profile d bound :=
    if profile = .q64Offset59 ∧ d = 64 ∧ bound = 3 then some [2390, 496726, 24927252]
    else if profile = .q64Offset59 ∧ d = 64 ∧ bound = 1428 then some [5, 10, 21]
    else none
  generatedL2SisMaxWidths _ _ _ := none
  signedDigitKernel logBasis := 1 ≤ logBasis ∧ logBasis ≤ 16
  computeNumDigitsFieldWidth fieldBits logBasis := max (divCeil fieldBits logBasis.toNat) 1
  numDigitsOpen _ := 0
  numDigitsInner _ _ := 0
  roundedUpRoleAInfNorm _ _ _ _ _ _ _ _ := none
  roundedUpCollisionInfNorm _ _ _ _ _ := none
  validateForRingDim _ _ := .error ""
  productionForRingDim _ := none
  selectiveL2OperatorNormRejection _ _ := false
  packingPartialWidth _ _ _ := .error .invalidProof
  hasOuterCompressionPlan _ := .error .invalidProof
  validateStage2SuccessorCapacity _ _ _ _ _ := .error .invalidProof
  validatePolicy _ := .error .invalidProof
  selectiveL2InnerMatrix _ _ := .error .invalidProof
  certifiedTerminalResponseLinfCap _ _ := .error .invalidProof
  outputWitnessLen _ _ _ _ := .error .invalidProof
  producedChunkShape _ _ _ _ := .error .invalidProof
  plannedNextWitnessLen _ _ _ _ _ := .error .invalidProof
  activeSetupFieldLen _ _ := .error .invalidProof
  suffixOpeningLayout _ _ := .error .invalidProof
  digestDescriptorBytes _ := Vector.replicate 32 0

def sampleKey (role : SisMatrixRole) (bound : BitVec 128) : SisTableKey :=
  ⟨.quantum169BitADPS16, currentSisTableDigest, .q64Offset59, role, 64, bound⟩

/-- Sixteen blocks of one ring of dimension 64, in 8 or 16 slices. -/
def sampleProfile (slices : UInt8) : GroupCommitPhaseParams where
  version := 4
  group := ⟨10, 1⟩
  blocks := ⟨16, 1, 16⟩
  outerSliceCount := ⟨slices⟩
  inner := ⟨⟨3, 1⟩, ⟨1, 1, .linf (sampleKey .inner 1428)⟩⟩
  outer := ⟨⟨3, 1⟩, ⟨1, if slices = 8 then 2 else 1, sampleKey .outer 3⟩⟩

/-- The 64-bit field of `Q64Offset59`. -/
abbrev sampleCodec : FieldCodec (ZMod 18446744073709551557) := primeFieldCodec 18446744073709551557 8 64

def sampleRows : RingVec (ZMod 18446744073709551557) := ⟨List.replicate 32 0, 0⟩

def sampleHash (_ : List UInt8) : Digest := Vector.replicate 32 0

theorem sampleCodec_lawful : sampleCodec.Lawful := primeFieldCodec_lawful (by norm_num)

theorem sample_new (slices : UInt8) (hvalid : (sampleProfile slices).validateFrozenPrecommit sampleBackend 64 = .ok ())
    (hplan : ((sampleProfile slices).outerCompressionPlan.toOption.map (·.terminalCoefficients)) = some 32) :
    ∃ g, CommittedGroup.new sampleCodec sampleBackend sampleHash (sampleProfile slices) sampleRows = .ok g := by
  have hrows : sampleRows.check sampleCodec = .ok () := RingVec.check_eq_ok.2 fun a _ => require_eq_ok.2 (ZMod.val_lt a)
  have hcheck : checkGroup sampleCodec sampleBackend (sampleProfile slices) sampleRows = .ok () := by
    refine checkGroup_eq_ok.2 ⟨hvalid, hrows, ?_⟩
    cases h : (sampleProfile slices).outerCompressionPlan with
    | error e => simp [h, Except.toOption] at hplan
    | ok plan => exact ⟨plan, rfl, by simpa [h, Except.toOption, sampleRows, eq_comm] using hplan⟩
  exact ⟨_, new_eq_ok.2 ⟨hcheck, audited_of_linf hvalid rfl, rfl⟩⟩

theorem committedGroup_codec_sample :
    ∃ g, CommittedGroup.new sampleCodec sampleBackend sampleHash (sampleProfile 8) sampleRows = .ok g ∧
      ∀ compress validate, RoundTrips sampleCodec sampleBackend sampleHash (fun _ => true) g compress validate := by
  obtain ⟨g, hg⟩ := sample_new 8 (by decide +kernel) (by decide +kernel)
  have hreserve : ∀ n ≤ compressionTargetBytes, (fun _ : ℕ => true) n = true := fun _ _ => rfl
  have hround := ((committedGroup_codec sampleCodec_lawful hreserve).1 _ _ _ hg).2
  exact ⟨g, hg, fun compress validate => (hround compress validate).2 (by decide)⟩

/-- A profile with sixteen slices, which only a derived deserializer builds, is committed to and never read back. -/
theorem committedGroup_sixteen_slices :
    ∃ g, CommittedGroup.new sampleCodec sampleBackend sampleHash (sampleProfile 16) sampleRows = .ok g ∧
      (∃ plan, (sampleProfile 16).outerCompressionPlan = .ok plan ∧
        plan.terminalCoefficients ≤ maxUntrustedCommitmentCoefficients) ∧
      ∀ compress validate, ¬ RoundTrips sampleCodec sampleBackend sampleHash (fun _ => true) g compress validate := by
  obtain ⟨g, hg⟩ := sample_new 16 (by decide +kernel) (by decide +kernel)
  obtain ⟨-, -, plan, hplan, -⟩ := checkGroup_eq_ok.1 (new_eq_ok.1 hg).1
  refine ⟨g, hg, ⟨plan, hplan, (terminal_le hplan).trans (by decide)⟩, fun compress validate h => ?_⟩
  have hslices := (roundTrips_iff sampleCodec_lawful (fun _ _ => rfl) hg).1 h
  exact absurd hslices (by decide)

end Akita.Commitment
