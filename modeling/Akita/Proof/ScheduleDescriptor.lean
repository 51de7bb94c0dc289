import Akita.Spec.ScheduleAudit

/-!
# Descriptor bytes are read one way only

Two equal strings that start with the encodings of two parts have equal parts. The number codes, the
tagged choices and the records of numbers are prefix-free as they are. The A matrix is prefix-free
among matrices whose L-infinity key belongs to the current table (`InnerCommitMatrixParams.Keyed`): the
first byte of that table's digest is not the first byte of the Euclidean route's tag. A level
determines what `SameLevel` lists.
-/

namespace Akita.Schedule

open Lib List

variable {r s : List UInt8}

/-! ## Numbers and lists -/

theorem pushUsize_prefixFree : PrefixFree pushUsize := by
  refine PrefixFreeOn.of_length 8 (fun a _ => leBytes_length 8 a.toNat) ?_
  intro a _ b _ h
  exact UInt64.toNat_inj.1 (leBytes_injOn 8 (by simpa using a.toNat_lt) (by simpa using b.toNat_lt) h)

theorem pushU32_prefixFree : PrefixFree pushU32 := by
  refine PrefixFreeOn.of_length 4 (fun a _ => leBytes_length 4 a.toNat) ?_
  intro a _ b _ h
  exact UInt32.toNat_inj.1 (leBytes_injOn 4 (by simpa using a.toNat_lt) (by simpa using b.toNat_lt) h)

theorem pushU128_prefixFree : PrefixFree pushU128 := by
  refine PrefixFreeOn.of_length 16 (fun a _ => leBytes_length 16 a.toNat) ?_
  intro a _ b _ h
  exact BitVec.toNat_inj.1 (leBytes_injOn 16 (by simpa using a.isLt) (by simpa using b.isLt) h)

theorem pushLen_split {m n : ℕ} (hm : m < 2 ^ 64) (hn : n < 2 ^ 64) (h : pushLen m ++ r = pushLen n ++ s) : m = n ∧ r = s :=
  leBytes_prefixFreeOn 8 m (by simpa using hm) n (by simpa using hn) r s h

theorem digest_prefixFree : PrefixFree (fun d : Digest => d.toList) := by
  refine PrefixFreeOn.of_length 32 (fun d _ => by simp) ?_
  intro a _ b _ h
  exact Vector.toList_inj.1 h

theorem list_split {α : Type} {f : α → List UInt8} {D : Set α} (hf : PrefixFreeOn f D) {l m : List α} (hl : ∀ a ∈ l, a ∈ D)
    (hm : ∀ a ∈ m, a ∈ D) (hllen : l.length < 2 ^ 64) (hmlen : m.length < 2 ^ 64)
    (h : pushLen l.length ++ (l.flatMap f ++ r) = pushLen m.length ++ (m.flatMap f ++ s)) : l = m ∧ r = s := by
  obtain ⟨hlen, h1⟩ := pushLen_split hllen hmlen h
  exact hf.flatMap m.length l ⟨hlen, hl⟩ m ⟨rfl, hm⟩ r s h1

/-! ## Matrices -/

theorem SisMatrixRole.tag_injective : Function.Injective SisMatrixRole.tag := by
  intro a b
  cases a <;> cases b <;> decide

theorem SisModulusProfileId.descriptorTag_injective : Function.Injective SisModulusProfileId.descriptorTag := by
  intro a b
  cases a <;> cases b <;> decide

theorem PhysicalL2NormProofShape.descriptorBytes_prefixFree : PrefixFree PhysicalL2NormProofShape.descriptorBytes := by
  intro a _ b _ r s h
  rcases a with len | ⟨len, blockLen, limbCount⟩ <;> rcases b with len' | ⟨len', blockLen', limbCount'⟩ <;>
    simp only [descriptorBytes, cons_append, append_assoc, List.cons.injEq, true_and] at h
  · obtain ⟨rfl, rfl⟩ := pushUsize_prefixFree.split h
    exact ⟨rfl, rfl⟩
  · exact absurd h.1 (by decide)
  · exact absurd h.1 (by decide)
  · obtain ⟨rfl, h1⟩ := pushUsize_prefixFree.split h
    obtain ⟨rfl, h2⟩ := pushUsize_prefixFree.split h1
    obtain ⟨rfl, rfl⟩ := pushUsize_prefixFree.split h2
    exact ⟨rfl, rfl⟩

/-- An A matrix whose L-infinity key belongs to the A role and to the current table. -/
def InnerCommitMatrixParams.Keyed (m : InnerCommitMatrixParams) : Prop :=
  ∀ key, m.securityRoute = .linf key → key.role = .inner ∧ key.tableDigest = currentSisTableDigest

/-- The two routes start apart. -/
theorem digest_ne_l2RouteTag : currentSisTableDigest.toList ++ r ≠ l2RouteTag ++ s := by
  intro h
  have hdigest : currentSisTableDigest.toList.head? = some 0x83 := rfl
  have hroute : l2RouteTag.head? = some 0x61 := by decide
  have hhead := congrArg List.head? h
  rw [head?_append, head?_append, hdigest, hroute, Option.some_or, Option.some_or] at hhead
  exact absurd hhead (by decide)

theorem InnerCommitMatrixParams.descriptorBytes_prefixFreeOn :
    PrefixFreeOn InnerCommitMatrixParams.descriptorBytes {m | m.Keyed} := by
  intro a ha b hb r s h
  obtain ⟨rank, width, route⟩ := a
  obtain ⟨rank', width', route'⟩ := b
  simp only [descriptorBytes, cons_append, nil_append, append_assoc, List.cons.injEq] at h
  obtain ⟨hprof, -, -, h⟩ := h
  replace hprof := SisModulusProfileId.descriptorTag_injective hprof
  rcases route with key | ⟨key, cap, shape⟩ <;> rcases route' with key' | ⟨key', cap', shape'⟩ <;>
    simp only [append_assoc] at h
  · obtain ⟨hrole, -⟩ := ha key rfl
    obtain ⟨hrole', -⟩ := hb key' rfl
    obtain ⟨hdigest, h1⟩ := digest_prefixFree.split h
    obtain ⟨hd, h2⟩ := pushU32_prefixFree.split h1
    obtain ⟨rfl, h3⟩ := pushUsize_prefixFree.split h2
    obtain ⟨rfl, h4⟩ := pushUsize_prefixFree.split h3
    obtain ⟨hbound, h5⟩ := pushU128_prefixFree.split h4
    obtain ⟨⟨⟩, digest, profile, role, d, bound⟩ := key
    obtain ⟨⟨⟩, digest', profile', role', d', bound'⟩ := key'
    simp_all [sisModulusProfile, InnerCommitSecurityRoute.modulusProfile]
  · obtain ⟨-, hdigest⟩ := ha key rfl
    rw [hdigest] at h
    exact absurd h digest_ne_l2RouteTag
  · obtain ⟨-, hdigest⟩ := hb key' rfl
    rw [hdigest] at h
    exact absurd h.symm digest_ne_l2RouteTag
  · obtain ⟨hdigest, h1⟩ := digest_prefixFree.split (append_cancel_left h)
    obtain ⟨hd, h2⟩ := pushU32_prefixFree.split h1
    obtain ⟨rfl, h3⟩ := pushUsize_prefixFree.split h2
    obtain ⟨rfl, h4⟩ := pushUsize_prefixFree.split h3
    obtain ⟨hcollision, h5⟩ := pushU128_prefixFree.split h4
    obtain ⟨rfl, h6⟩ := pushU128_prefixFree.split h5
    obtain ⟨rfl, h7⟩ := PhysicalL2NormProofShape.descriptorBytes_prefixFree.split h6
    obtain ⟨⟨⟩, digest, profile, d, collision⟩ := key
    obtain ⟨⟨⟩, digest', profile', d', collision'⟩ := key'
    simp_all [sisModulusProfile, InnerCommitSecurityRoute.modulusProfile]

theorem LinfCommitMatrix.descriptorBytes_prefixFree {R : SisMatrixRole} :
    PrefixFree (LinfCommitMatrix.descriptorBytes (R := R)) := by
  intro a _ b _ r s h
  obtain ⟨rank, width, ⟨⟩, digest, profile, role, d, bound⟩ := a
  obtain ⟨rank', width', ⟨⟩, digest', profile', role', d', bound'⟩ := b
  simp only [descriptorBytes, cons_append, nil_append, append_assoc, List.cons.injEq] at h
  obtain ⟨hprof, -, hrole, h1⟩ := h
  obtain rfl := SisModulusProfileId.descriptorTag_injective hprof
  obtain rfl := SisMatrixRole.tag_injective hrole
  obtain ⟨rfl, h2⟩ := digest_prefixFree.split h1
  obtain ⟨rfl, h3⟩ := pushU32_prefixFree.split h2
  obtain ⟨rfl, h4⟩ := pushUsize_prefixFree.split h3
  obtain ⟨rfl, h5⟩ := pushUsize_prefixFree.split h4
  obtain ⟨rfl, rfl⟩ := pushU128_prefixFree.split h5
  exact ⟨rfl, rfl⟩

/-! ## Groups -/

theorem BlockGeometry.descriptorBytes_prefixFree : PrefixFree BlockGeometry.descriptorBytes := by
  intro a _ b _ r s h
  obtain ⟨n, m, live⟩ := a
  obtain ⟨n', m', live'⟩ := b
  obtain ⟨rfl, h1⟩ := pushUsize_prefixFree.split h
  obtain ⟨rfl, h2⟩ := pushUsize_prefixFree.split h1
  obtain ⟨rfl, rfl⟩ := pushUsize_prefixFree.split h2
  exact ⟨rfl, rfl⟩

theorem GadgetDigits.descriptorBytes_prefixFree : PrefixFree GadgetDigits.descriptorBytes := by
  intro a _ b _ r s h
  obtain ⟨basis, digits⟩ := a
  obtain ⟨basis', digits'⟩ := b
  obtain ⟨rfl, h1⟩ := pushU32_prefixFree.split h
  obtain ⟨rfl, rfl⟩ := pushUsize_prefixFree.split h1
  exact ⟨rfl, rfl⟩

theorem RoleParams.descriptorBytes_prefixFreeOn {M : Type} {f : M → List UInt8} {D : Set M} (hf : PrefixFreeOn f D) :
    PrefixFreeOn (RoleParams.descriptorBytes f) {r | r.matrix ∈ D} := by
  intro a ha b hb r s h
  obtain ⟨digits, matrix⟩ := a
  obtain ⟨digits', matrix'⟩ := b
  obtain ⟨rfl, h1⟩ := GadgetDigits.descriptorBytes_prefixFree.split h
  obtain ⟨rfl, rfl⟩ := hf matrix ha matrix' hb r s h1
  exact ⟨rfl, rfl⟩

theorem CommitmentSliceCount.descriptorBytes_prefixFree : PrefixFree CommitmentSliceCount.descriptorBytes := by
  intro a _ b _ r s h
  obtain ⟨count⟩ := a
  obtain ⟨count'⟩ := b
  simpa [descriptorBytes] using h

theorem GroupCommitPhaseParams.descriptorBytes_prefixFreeOn :
    PrefixFreeOn GroupCommitPhaseParams.descriptorBytes {g | g.inner.matrix.Keyed} := by
  intro a ha b hb r s h
  obtain ⟨version, ⟨vars, polys⟩, blocks, slices, inner, outer⟩ := a
  obtain ⟨version', ⟨vars', polys'⟩, blocks', slices', inner', outer'⟩ := b
  simp only [descriptorBytes, cons_append, nil_append, append_assoc, List.cons.injEq] at h
  obtain ⟨rfl, h1⟩ := h
  obtain ⟨rfl, h2⟩ := pushUsize_prefixFree.split h1
  obtain ⟨rfl, h3⟩ := pushUsize_prefixFree.split h2
  obtain ⟨rfl, h4⟩ := BlockGeometry.descriptorBytes_prefixFree.split h3
  obtain ⟨rfl, h5⟩ := CommitmentSliceCount.descriptorBytes_prefixFree.split h4
  obtain ⟨rfl, h6⟩ := RoleParams.descriptorBytes_prefixFreeOn InnerCommitMatrixParams.descriptorBytes_prefixFreeOn
    inner ha inner' hb _ _ h5
  obtain ⟨rfl, rfl⟩ := RoleParams.descriptorBytes_prefixFreeOn LinfCommitMatrix.descriptorBytes_prefixFree
    outer trivial outer' trivial _ _ h6
  exact ⟨rfl, rfl⟩

theorem SparseChallengeConfig.descriptorBytes_prefixFree : PrefixFree SparseChallengeConfig.descriptorBytes := by
  intro a _ b _ r s h
  obtain ⟨pm1, pm2⟩ := a
  obtain ⟨pm1', pm2'⟩ := b
  simp only [descriptorBytes, cons_append, nil_append, append_assoc, List.cons.injEq, true_and] at h
  obtain ⟨rfl, h1⟩ := pushUsize_prefixFree.split h
  obtain ⟨rfl, rfl⟩ := pushUsize_prefixFree.split h1
  exact ⟨rfl, rfl⟩

/-- A choice written as the tag `0`, or as the tag `1` before one number. -/
theorem tagged_split {x y : UInt64} (h : 1 :: (pushUsize x ++ r) = 1 :: (pushUsize y ++ s)) : x = y ∧ r = s := by
  rw [List.cons.injEq] at h
  exact pushUsize_prefixFree.split h.2

theorem OpeningMethod.descriptorBytes_prefixFree : PrefixFree OpeningMethod.descriptorBytes := by
  intro a _ b _ r s h
  rcases a with _ | x <;> rcases b with _ | y <;> simp only [descriptorBytes, cons_append, nil_append] at h
  · exact ⟨rfl, (List.cons.inj h).2⟩
  · exact absurd (List.cons.inj h).1 (by decide)
  · exact absurd (List.cons.inj h).1 (by decide)
  · obtain ⟨rfl, rfl⟩ := tagged_split h
    exact ⟨rfl, rfl⟩

theorem CommittedSourceEncoding.descriptorBytes_prefixFree : PrefixFree CommittedSourceEncoding.descriptorBytes := by
  intro a _ b _ r s h
  rcases a with _ | x <;> rcases b with _ | y <;> simp only [descriptorBytes, cons_append, nil_append] at h
  · exact ⟨rfl, (List.cons.inj h).2⟩
  · exact absurd (List.cons.inj h).1 (by decide)
  · exact absurd (List.cons.inj h).1 (by decide)
  · obtain ⟨rfl, rfl⟩ := tagged_split h
    exact ⟨rfl, rfl⟩

theorem GroupOpeningPlan.descriptorBytes_prefixFree : PrefixFree GroupOpeningPlan.descriptorBytes := by
  intro a _ b _ r s h
  obtain ⟨method, challenge, basis, digitsOpen, digitsFold⟩ := a
  obtain ⟨method', challenge', basis', digitsOpen', digitsFold'⟩ := b
  simp only [descriptorBytes, append_assoc] at h
  obtain ⟨rfl, h1⟩ := OpeningMethod.descriptorBytes_prefixFree.split h
  obtain ⟨rfl, h2⟩ := pushU32_prefixFree.split h1
  obtain ⟨rfl, h3⟩ := SparseChallengeConfig.descriptorBytes_prefixFree.split h2
  obtain ⟨rfl, h4⟩ := pushUsize_prefixFree.split h3
  obtain ⟨rfl, rfl⟩ := pushUsize_prefixFree.split h4
  exact ⟨rfl, rfl⟩

/-- A precommitted group: it is no setup prefix and its A matrix is keyed. -/
def GroupOpenPhaseParams.Precommitted (g : GroupOpenPhaseParams) : Prop :=
  g.setupNaturalLen = none ∧ g.profile.inner.matrix.Keyed

theorem GroupOpenPhaseParams.descriptorBytes_prefixFreeOn :
    PrefixFreeOn GroupOpenPhaseParams.descriptorBytes {g | g.Precommitted} := by
  rintro a ⟨ha, hka⟩ b ⟨hb, hkb⟩ r s h
  obtain ⟨profile, plan, natural⟩ := a
  obtain ⟨profile', plan', natural'⟩ := b
  simp only [descriptorBytes, append_assoc] at h ha hb
  obtain ⟨rfl, h1⟩ := GroupCommitPhaseParams.descriptorBytes_prefixFreeOn profile hka profile' hkb _ _ h
  obtain ⟨rfl, rfl⟩ := GroupOpeningPlan.descriptorBytes_prefixFree.split h1
  subst ha hb
  exact ⟨rfl, rfl⟩

/-- A setup prefix: it has a natural length and its A matrix is keyed. -/
def GroupOpenPhaseParams.Prefixing (g : GroupOpenPhaseParams) : Prop :=
  g.setupNaturalLen.isSome ∧ g.profile.inner.matrix.Keyed

theorem GroupOpenPhaseParams.setupPrefixDescriptorBytes_prefixFreeOn :
    PrefixFreeOn GroupOpenPhaseParams.setupPrefixDescriptorBytes {g | g.Prefixing} := by
  rintro a ⟨ha, hka⟩ b ⟨hb, hkb⟩ r s h
  obtain ⟨profile, plan, natural⟩ := a
  obtain ⟨profile', plan', natural'⟩ := b
  obtain ⟨len, rfl⟩ := Option.isSome_iff_exists.1 ha
  obtain ⟨len', rfl⟩ := Option.isSome_iff_exists.1 hb
  simp only [setupPrefixDescriptorBytes, append_assoc] at h
  obtain ⟨rfl, h1⟩ := pushUsize_prefixFree.split (append_cancel_left h)
  obtain ⟨rfl, h2⟩ := GroupCommitPhaseParams.descriptorBytes_prefixFreeOn profile hka profile' hkb _ _ h1
  obtain ⟨rfl, rfl⟩ := GroupOpeningPlan.descriptorBytes_prefixFree.split h2
  exact ⟨rfl, rfl⟩

theorem setupPrefixBytes_prefixFreeOn : PrefixFreeOn setupPrefixBytes {o | ∀ g ∈ o, g.Prefixing} := by
  rintro a ha b hb r s h
  rcases a with _ | g <;> rcases b with _ | g' <;> simp only [setupPrefixBytes, cons_append, nil_append] at h
  · exact ⟨rfl, (List.cons.inj h).2⟩
  · exact absurd (List.cons.inj h).1 (by decide)
  · exact absurd (List.cons.inj h).1 (by decide)
  · obtain ⟨rfl, rfl⟩ := GroupOpenPhaseParams.setupPrefixDescriptorBytes_prefixFreeOn g (ha g rfl) g' (hb g' rfl) _ _
      (List.cons.inj h).2
    exact ⟨rfl, rfl⟩

/-! ## Levels -/

theorem CommitmentPayloadMode.tag_injective : Function.Injective CommitmentPayloadMode.tag := by
  intro a b
  cases a <;> cases b <;> decide

theorem RingRelationMode.tag_injective : Function.Injective RingRelationMode.tag := by
  intro a b
  cases a <;> cases b <;> decide

/-- What the common part of a level's bytes determines: all but the version and the arity of the own
group, the chunks and the groups before it. -/
structure SameLevel (p q : CommittedGroupParams) : Prop where
  payloadMode : p.payloadMode = q.payloadMode
  ringRelationMode : p.ringRelationMode = q.ringRelationMode
  sourceEncoding : p.sourceEncoding = q.sourceEncoding
  openMatrix : p.openMatrix = q.openMatrix
  plan : p.ownGroup.opening = q.ownGroup.opening
  blocks : p.blocks = q.blocks
  outerSliceCount : p.outerSliceCount = q.outerSliceCount
  inner : p.inner = q.inner
  outer : p.outer = q.outer

theorem CommittedGroupParams.levelBytes_split {p q : CommittedGroupParams} (hp : p.inner.matrix.Keyed) (hq : q.inner.matrix.Keyed)
    (h : p.levelBytes ++ r = q.levelBytes ++ s) : SameLevel p q ∧ r = s := by
  simp only [levelBytes, cons_append, nil_append, append_assoc, List.cons.injEq] at h
  obtain ⟨hpay, hrel, h1⟩ := h
  obtain ⟨henc, h2⟩ := CommittedSourceEncoding.descriptorBytes_prefixFree.split h1
  obtain ⟨hmethod, h3⟩ := OpeningMethod.descriptorBytes_prefixFree.split h2
  obtain ⟨hbasisA, h4⟩ := pushU32_prefixFree.split h3
  obtain ⟨hbasisB, h5⟩ := pushU32_prefixFree.split h4
  obtain ⟨hbasisD, h6⟩ := pushU32_prefixFree.split h5
  obtain ⟨hA, h7⟩ := InnerCommitMatrixParams.descriptorBytes_prefixFreeOn _ hp _ hq _ _ h6
  obtain ⟨hB, h8⟩ := LinfCommitMatrix.descriptorBytes_prefixFree.split h7
  obtain ⟨hD, h9⟩ := LinfCommitMatrix.descriptorBytes_prefixFree.split h8
  obtain ⟨hn, h10⟩ := pushUsize_prefixFree.split h9
  obtain ⟨hm, h11⟩ := pushUsize_prefixFree.split h10
  obtain ⟨hlive, h12⟩ := pushUsize_prefixFree.split h11
  obtain ⟨hslices, h13⟩ := CommitmentSliceCount.descriptorBytes_prefixFree.split h12
  obtain ⟨hchal, h14⟩ := SparseChallengeConfig.descriptorBytes_prefixFree.split h13
  obtain ⟨hdigitsA, h15⟩ := pushUsize_prefixFree.split h14
  obtain ⟨hdigitsB, h16⟩ := pushUsize_prefixFree.split h15
  obtain ⟨hdigitsD, h17⟩ := pushUsize_prefixFree.split h16
  obtain ⟨hdigitsFold, rfl⟩ := pushUsize_prefixFree.split h17
  have hblocks : p.blocks = q.blocks := by
    rcases hpb : p.blocks with ⟨n, m, live⟩
    rcases hqb : q.blocks with ⟨n', m', live'⟩
    simp_all
  have hinner : p.inner = q.inner := by
    rcases hpi : p.inner with ⟨⟨basis, digits⟩, matrix⟩
    rcases hqi : q.inner with ⟨⟨basis', digits'⟩, matrix'⟩
    simp_all
  have houter : p.outer = q.outer := by
    rcases hpo : p.outer with ⟨⟨basis, digits⟩, matrix⟩
    rcases hqo : q.outer with ⟨⟨basis', digits'⟩, matrix'⟩
    simp_all
  have hplan : p.ownGroup.opening = q.ownGroup.opening := by
    rcases hpp : p.ownGroup.opening with ⟨method, challenge, basis, digitsOpen, digitsFold⟩
    rcases hqp : q.ownGroup.opening with ⟨method', challenge', basis', digitsOpen', digitsFold'⟩
    simp_all [openingMethod, opening, foldChallengeConfig, numDigitsFold]
  exact ⟨⟨CommitmentPayloadMode.tag_injective hpay, RingRelationMode.tag_injective hrel, henc, hD, hplan,
    hblocks, hslices, hinner, houter⟩, rfl⟩

end Akita.Schedule
