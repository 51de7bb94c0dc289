import Akita.Proof.ScheduleAdmission

/-!
# A schedule's bytes identify it

**Main result** (`tryNew_descriptor_injective`): under one planner policy, two accepted rows with equal
canonical descriptor bytes, or with equal digest preimages, have equal profiles and equal schedules.

The bytes leave out the version and the arity of a level's own group, the number of its variables and the
chunk fields of an unchunked level. On accepted rows they are functions of what is written, of the policy
and, for the chunk ends, of the folds before (`recursive_split`).
-/

namespace Akita.Schedule

open Lib List CommittedGroupParams

variable {𝔞 : AuditBackend} {policy : PlannerPolicy 𝔞.Search} {r s : List UInt8} {fold fold' : FoldParams} {index : ℕ}

/-! ## Levels -/

theorem FoldGroups.entries_eq (g : FoldGroups) : g.entries = g.setupPrefix.toList ++ g.precommitted ++ [g.own] := by
  have hprec : g.setupPrefix.toList ++ g.precommitted = g.preceding := by
    unfold precommitted
    rcases hsetup : g.setupPrefix with _ | first
    · simp
    · have hhead := (Option.filter_eq_some_iff.1 hsetup).1
      obtain ⟨later, hlater⟩ := head?_eq_some_iff.1 hhead
      simp [hlater]
  rw [hprec]
  exact (dropLast_append_getLast g.nonempty).symm

section

variable {p q : CommittedGroupParams} {level : ℕ}

theorem SameLevel.own_eq (h : SameLevel p q) (hp : AcceptedLevel policy level p) (hq : AcceptedLevel policy level q)
    (harity : p.ownGroup.profile.group.numPolynomials = q.ownGroup.profile.group.numPolynomials) :
    p.ownGroup = q.ownGroup := by
  have hpow : (2 : ℕ) ^ p.ownGroup.profile.group.numVars.toNat = 2 ^ q.ownGroup.profile.group.numVars.toNat := by
    rw [← Option.some_inj, ← hp.numVars, ← hq.numVars, h.blocks, h.inner]
  have hvars : p.ownGroup.profile.group.numVars = q.ownGroup.profile.group.numVars :=
    UInt64.toNat_inj.1 (Nat.pow_right_injective le_rfl hpow)
  have hvers := hp.version.trans hq.version.symm
  have hnatural := hp.own_not_prefix.trans hq.own_not_prefix.symm
  obtain ⟨-, -, -, -, hplan, hblocks, hslices, hinner, houter⟩ := h
  simp only [CommittedGroupParams.blocks, CommittedGroupParams.outerSliceCount, CommittedGroupParams.inner,
    CommittedGroupParams.outer] at hblocks hslices hinner houter
  rcases hpown : p.ownGroup with ⟨⟨version, ⟨vars, polys⟩, blocks, slices, inner, outer⟩, plan, natural⟩
  rcases hqown : q.ownGroup with ⟨⟨version', ⟨vars', polys'⟩, blocks', slices', inner', outer'⟩, plan', natural'⟩
  simp_all

theorem SameLevel.eq (h : SameLevel p q) (hown : p.ownGroup = q.ownGroup) (hsetup : p.setupPrefix = q.setupPrefix)
    (hprec : p.precommittedGroups = q.precommittedGroups) (hchunk : p.witnessChunk = q.witnessChunk)
    (hsucc : p.successorBlockLen = q.successorBlockLen) (hends : p.witnessChunkEnds = q.witnessChunkEnds) : p = q := by
  have hentries : p.groups.entries = q.groups.entries := by
    rw [p.groups.entries_eq, q.groups.entries_eq]
    exact congrArg₂ _ (congrArg₂ _ (congrArg _ hsetup) hprec) (congrArg (fun own => [own]) hown)
  obtain ⟨hpay, hrel, henc, hopen, -⟩ := h
  obtain ⟨⟨entries, hne⟩, openMatrix, payload, relation, encoding, chunk, successor, ends⟩ := p
  obtain ⟨⟨entries', hne'⟩, openMatrix', payload', relation', encoding', chunk', successor', ends'⟩ := q
  simp_all

theorem chunkBytes_split (hp : AcceptedLevel policy level p) (hq : AcceptedLevel policy level q)
    (hends : p.witnessChunkEnds = q.witnessChunkEnds) (h : p.chunkBytes ++ r = q.chunkBytes ++ s) :
    p.successorBlockLen = q.successorBlockLen ∧ r = s := by
  have hchunk := hp.witnessChunk.trans hq.witnessChunk.symm
  have hpsome := hp.successor
  have hqsome := hq.successor
  have hpos := hp.numChunks_ne_zero
  simp only [chunkBytes, hchunk, hends] at h hpsome hpos
  by_cases hone : q.witnessChunk.numChunks = 1
  · -- an unchunked level has no successor block
    simp only [hone, ne_eq, not_true_eq_false, if_false, nil_append] at h hpsome hqsome
    refine ⟨?_, h⟩
    have hpnone : p.successorBlockLen = none := by simpa using hpsome
    have hqnone : q.successorBlockLen = none := by simpa using hqsome
    rw [hpnone, hqnone]
  · have hmany : q.witnessChunk.numChunks > 1 := by
      have hpos' : q.witnessChunk.numChunks.toNat ≠ 0 := fun h0 => hpos (UInt64.toNat_inj.1 h0)
      have hone' : q.witnessChunk.numChunks.toNat ≠ 1 := fun h1 => hone (UInt64.toNat_inj.1 h1)
      refine UInt64.lt_iff_toNat_lt.2 ?_
      change 1 < _
      omega
    simp only [hone, ne_eq, not_false_eq_true, if_true, append_assoc] at h
    obtain ⟨hgetD, hrest⟩ := pushUsize_prefixFree.split h
    obtain ⟨x, hx⟩ := Option.isSome_iff_exists.1 (hpsome.trans (decide_eq_true hmany))
    obtain ⟨y, hy⟩ := Option.isSome_iff_exists.1 (hqsome.trans (decide_eq_true hmany))
    rw [hx, hy] at hgetD ⊢
    exact ⟨congrArg some hgetD, by simpa using hrest⟩

end

/-! ## Folds -/

theorem lengths_split {input input' output output' : UInt64}
    (h : pushUsize input ++ (pushUsize output ++ r) = pushUsize input' ++ (pushUsize output' ++ s)) :
    input = input' ∧ output = output' ∧ r = s := by
  obtain ⟨hinput, h1⟩ := pushUsize_prefixFree.split h
  exact ⟨hinput, pushUsize_prefixFree.split h1⟩

theorem AcceptedRecursive.bytes_split (hf : AcceptedRecursive policy (fold, index))
    (hf' : AcceptedRecursive policy (fold', index))
    (hends : SameLevel fold.params fold'.params → fold.params.witnessChunkEnds = fold'.params.witnessChunkEnds)
    (h : fold.recursiveDescriptorBytes ++ r = fold'.recursiveDescriptorBytes ++ s) : fold = fold' ∧ r = s := by
  have hchunk := hf.level.witnessChunk.trans hf'.level.witnessChunk.symm
  simp only [FoldParams.recursiveDescriptorBytes, descriptorBytes, append_assoc] at h
  obtain ⟨hsame, h1⟩ := levelBytes_split hf.level.keyed hf'.level.keyed h
  obtain ⟨hsucc, h2⟩ := chunkBytes_split hf.level hf'.level (hends hsame) h1
  -- no recursive fold writes precommitted groups
  simp only [precommittedBytes, hf.precommitted, hf'.precommitted, ne_eq, not_true_eq_false, if_false, nil_append] at h2
  obtain ⟨hsetup, h3⟩ := setupPrefixBytes_prefixFreeOn _ hf.setupPrefix _ hf'.setupPrefix _ _ h2
  have harity : fold.params.ownGroup.profile.group.numPolynomials = fold'.params.ownGroup.profile.group.numPolynomials :=
    UInt64.toNat_inj.1 (hf.numPolynomials.trans hf'.numPolynomials.symm)
  have hparams : fold.params = fold'.params :=
    hsame.eq (hsame.own_eq hf.level hf'.level harity) hsetup (hf.precommitted.trans hf'.precommitted.symm) hchunk
      hsucc (hends hsame)
  obtain ⟨params, input, output⟩ := fold
  obtain ⟨params', input', output'⟩ := fold'
  obtain rfl : params = params' := hparams
  simp only [append_cancel_left_eq] at h3
  obtain ⟨rfl, rfl, hrest⟩ := lengths_split h3
  exact ⟨rfl, hrest⟩

/-- Two folds that the transition loop takes from one state have one chunk partition. -/
theorem transitionStep_ends {state next next' : Transition} (h : transitionStep policy state (fold, index) = .ok next)
    (h' : transitionStep policy state (fold', index) = .ok next') (hchunk : fold.params.witnessChunk = fold'.params.witnessChunk)
    (hsame : SameLevel fold.params fold'.params) : fold.params.witnessChunkEnds = fold'.params.witnessChunkEnds := by
  have hblock : (FoldSuccessor.recursive fold.params).sourceBlockLen = (FoldSuccessor.recursive fold'.params).sourceBlockLen := by
    simp only [FoldSuccessor.sourceBlockLen, FoldSuccessor.ringDimension, FoldSuccessor.blocks, CommittedGroupParams.dA,
      hsame.inner, hsame.blocks]
  simp only [transitionStep, result_ok, not_or, not_not, hblock, hchunk] at h h'
  obtain ⟨shape, hshape, blockLen, hlen, ⟨len, ends⟩, halign, ⟨-, hends⟩, -⟩ := h
  obtain ⟨shape', hshape', blockLen', hlen', ⟨len', ends'⟩, halign', ⟨-, hends'⟩, -⟩ := h'
  obtain rfl : shape = shape' := by simpa [hshape] using hshape'
  obtain rfl : blockLen = blockLen' := by simpa [hlen] using hlen'
  obtain ⟨rfl, rfl⟩ : len = len' ∧ ends = ends' := by simpa [halign] using halign'
  exact map_injective_iff.2 (fun a b hab => UInt64.toNat_inj.1 hab) (hends.symm.trans hends')

/-- **The recursive folds are read off their bytes**, fold after fold: the folds read so far are those that the
transition loop has passed, so that both loops enter the next fold in one state. -/
theorem recursive_split {l m : List FoldParams} {n : ℕ} {state last last' : Transition} (hlen : l.length = m.length)
    (hl : ∀ step ∈ l.zipIdx n, AcceptedRecursive policy step) (hm : ∀ step ∈ m.zipIdx n, AcceptedRecursive policy step)
    (hlrun : (l.zipIdx n).foldlM (transitionStep policy) state = .ok last)
    (hmrun : (m.zipIdx n).foldlM (transitionStep policy) state = .ok last')
    (h : l.flatMap FoldParams.recursiveDescriptorBytes ++ r = m.flatMap FoldParams.recursiveDescriptorBytes ++ s) :
    l = m ∧ r = s := by
  induction l generalizing m n state with
  | nil =>
    obtain rfl := length_eq_zero_iff.1 hlen.symm
    exact ⟨rfl, h⟩
  | cons fold l ih =>
    obtain ⟨fold', m, rfl⟩ := exists_cons_of_length_eq_add_one hlen.symm
    simp only [zipIdx_cons, foldlM_cons, bind_eq_ok] at hlrun hmrun
    obtain ⟨next, hstep, hlrun⟩ := hlrun
    obtain ⟨next', hstep', hmrun⟩ := hmrun
    have hfold := hl (fold, n) (by simp)
    have hfold' := hm (fold', n) (by simp)
    have hchunk := hfold.level.witnessChunk.trans hfold'.level.witnessChunk.symm
    simp only [flatMap_cons, append_assoc] at h
    obtain ⟨rfl, hrest⟩ := hfold.bytes_split hfold' (transitionStep_ends hstep hstep' hchunk) h
    obtain rfl : next = next' := by simpa [hstep] using hstep'
    obtain ⟨rfl, hr⟩ := ih (by simpa using hlen) (fun step hs => hl step (by simp [hs])) (fun step hs => hm step (by simp [hs]))
      hlrun hmrun hrest
    exact ⟨rfl, hr⟩

/-- The precommitted groups of a root, written when there are any, are read off with the count that follows:
without any, nine zero bytes stand where a nonzero count would. -/
theorem precommitted_split {l m : List GroupOpenPhaseParams} (hl : ∀ g ∈ l, g.Precommitted) (hm : ∀ g ∈ m, g.Precommitted)
    (hllen : l.length < 2 ^ 64) (hmlen : m.length < 2 ^ 64)
    (h : (if l ≠ [] then pushLen l.length ++ l.flatMap GroupOpenPhaseParams.descriptorBytes else []) ++
        ([0] ++ (pushLen l.length ++ r)) =
      (if m ≠ [] then pushLen m.length ++ m.flatMap GroupOpenPhaseParams.descriptorBytes else []) ++
        ([0] ++ (pushLen m.length ++ s))) : l = m ∧ r = s := by
  have hzeros : ∀ t : List UInt8, [0] ++ (pushLen 0 ++ t) = pushLen 0 ++ ([0] ++ t) := fun t => by
    rw [← append_assoc, ← append_assoc]
    exact congrArg (· ++ t) (by decide)
  rcases eq_or_ne l [] with rfl | hlne <;> rcases eq_or_ne m [] with rfl | hmne
  · exact ⟨rfl, by simpa using h⟩
  · simp only [ne_eq, not_true_eq_false, if_false, nil_append, length_nil, hmne, not_false_eq_true, if_true,
      append_assoc, hzeros] at h
    obtain ⟨hzero, -⟩ := pushLen_split (by decide) hmlen h
    exact absurd (length_eq_zero_iff.1 hzero.symm) hmne
  · simp only [ne_eq, not_true_eq_false, if_false, nil_append, length_nil, hlne, not_false_eq_true, if_true,
      append_assoc, hzeros] at h
    obtain ⟨hzero, -⟩ := pushLen_split hllen (by decide) h
    exact absurd (length_eq_zero_iff.1 hzero) hlne
  · simp only [ne_eq, hlne, hmne, not_false_eq_true, if_true, append_assoc] at h
    obtain ⟨rfl, hrest⟩ := list_split GroupOpenPhaseParams.descriptorBytes_prefixFreeOn hl hm hllen hmlen h
    exact ⟨rfl, by simpa using hrest⟩

section

variable {profiles profiles' : CommittedGroupBatchProfile} {schedule schedule' : FoldSchedule}

theorem root_split (ha : AcceptedRow policy profiles schedule) (hb : AcceptedRow policy profiles' schedule')
    (h : schedule.root.rootDescriptorBytes ++ r = schedule'.root.rootDescriptorBytes ++ s) :
    schedule.root = schedule'.root ∧ r = s := by
  have hchunk := ha.root.witnessChunk.trans hb.root.witnessChunk.symm
  have hends := ha.root_ends.trans hb.root_ends.symm
  simp only [FoldParams.rootDescriptorBytes, descriptorBytes, append_assoc] at h
  obtain ⟨hsame, h1⟩ := levelBytes_split ha.root.keyed hb.root.keyed h
  obtain ⟨hsucc, h2⟩ := chunkBytes_split ha.root hb.root hends h1
  simp only [precommittedBytes, ha.root_prefix, hb.root_prefix, setupPrefixBytes] at h2
  obtain ⟨hprec, h3⟩ := precommitted_split ha.root_precommitted hb.root_precommitted ha.precommitted_lt
    hb.precommitted_lt h2
  -- the arity is the one that the B width encodes
  have hcount : schedule.root.params.commitmentPolynomialCount = schedule'.root.params.commitmentPolynomialCount := by
    simp only [commitmentPolynomialCount, hsame.outerSliceCount, hsame.blocks, hsame.inner, hsame.outer]
  have harity := UInt64.toNat_inj.1 (Except.ok.inj (ha.root_polynomials.symm.trans (hcount.trans hb.root_polynomials)))
  have hparams : schedule.root.params = schedule'.root.params :=
    hsame.eq (hsame.own_eq ha.root hb.root harity) (ha.root_prefix.trans hb.root_prefix.symm) hprec hchunk
      hsucc hends
  obtain ⟨accumulated, ⟨params, input, output⟩, folds, terminal⟩ := schedule
  obtain ⟨accumulated', ⟨params', input', output'⟩, folds', terminal'⟩ := schedule'
  obtain rfl : params = params' := hparams
  simp only [append_cancel_left_eq] at h3
  obtain ⟨rfl, rfl, hrest⟩ := lengths_split h3
  exact ⟨rfl, hrest⟩

end

/-! ## The terminal -/

theorem TailSegmentGroupLayout.descriptorBytes_prefixFreeOn (capped : Bool) :
    PrefixFreeOn TailSegmentGroupLayout.descriptorBytes {g | g.zLinfCap.isSome = capped} := by
  rintro ⟨z, e, t, cap, rice, payload⟩ ha ⟨z', e', t', cap', rice', payload'⟩ hb r s h
  obtain ⟨rfl, h1⟩ := pushUsize_prefixFree.split h
  obtain ⟨rfl, h2⟩ := pushUsize_prefixFree.split h1
  obtain ⟨rfl, h3⟩ := pushUsize_prefixFree.split h2
  obtain ⟨hcap, h4⟩ := pushU128_prefixFree.split h3
  obtain ⟨rfl, h5⟩ := pushU32_prefixFree.split h4
  obtain ⟨rfl, rfl⟩ := pushUsize_prefixFree.split h5
  have hcaps : cap = cap' := by
    rcases cap with _ | cap <;> rcases cap' with _ | cap' <;> simp_all
  exact ⟨by rw [hcaps], rfl⟩

theorem TerminalFoldParams.descriptorBytes_prefixFreeOn :
    PrefixFreeOn TerminalFoldParams.descriptorBytes {t | AcceptedTerminal t} := by
  rintro a ⟨hka, group, hgroups, hcap⟩ b ⟨hkb, group', hgroups', hcap'⟩ r s h
  obtain ⟨blocks, inner, fold, challenge, ⟨d, groups, total⟩, input⟩ := a
  obtain ⟨blocks', inner', fold', challenge', ⟨d', groups', total'⟩, input'⟩ := b
  obtain rfl : groups = [group] := hgroups
  obtain rfl : groups' = [group'] := hgroups'
  simp only [descriptorBytes, TailSegmentLayout.descriptorBytes, flatMap_cons, flatMap_nil, length_singleton,
    append_assoc, nil_append] at h
  obtain ⟨rfl, h1⟩ := BlockGeometry.descriptorBytes_prefixFree.split (append_cancel_left h)
  obtain ⟨rfl, h2⟩ := RoleParams.descriptorBytes_prefixFreeOn InnerCommitMatrixParams.descriptorBytes_prefixFreeOn
    inner hka inner' hkb _ _ h1
  obtain ⟨rfl, h3⟩ := GadgetDigits.descriptorBytes_prefixFree.split h2
  obtain ⟨rfl, h4⟩ := SparseChallengeConfig.descriptorBytes_prefixFree.split h3
  obtain ⟨rfl, h5⟩ := pushUsize_prefixFree.split h4
  obtain ⟨rfl, h6⟩ := TailSegmentGroupLayout.descriptorBytes_prefixFreeOn _ group hcap group' hcap' _ _
    (append_cancel_left h5)
  obtain ⟨rfl, h7⟩ := pushUsize_prefixFree.split h6
  obtain ⟨rfl, rfl⟩ := pushUsize_prefixFree.split h7
  exact ⟨rfl, rfl⟩

/-! ## Rows -/

section

variable {profiles profiles' : CommittedGroupBatchProfile} {schedule schedule' : FoldSchedule}

theorem accumulated_injective {x y : UInt64}
    (h : (if x ≠ 0 then pushUsize x else []) = if y ≠ 0 then pushUsize y else []) : x = y := by
  have hne : ∀ z : UInt64, pushUsize z ≠ [] := fun z hz => by
    simpa [pushUsize] using congrArg length hz
  rcases eq_or_ne x 0 with rfl | hx <;> rcases eq_or_ne y 0 with rfl | hy
  · rfl
  · simp [hy, (hne y).symm] at h
  · simp [hx, hne x] at h
  · simp only [ne_eq, hx, hy, not_false_eq_true, if_true] at h
    exact pushUsize_prefixFree.injOn trivial trivial h

section

variable (ha : AcceptedRow policy profiles schedule) (hb : AcceptedRow policy profiles' schedule')

include ha hb

theorem AcceptedRow.profiles_eq (hroot : schedule.root = schedule'.root) : profiles = profiles' := by
  have hfinal : profiles.finalGroup = profiles'.finalGroup := by rw [ha.finalGroup, hb.finalGroup, hroot]
  have hprec : profiles.precommitteds = profiles'.precommitteds := by rw [ha.precommitteds, hb.precommitteds, hroot]
  obtain ⟨final, precommitteds⟩ := profiles
  obtain ⟨final', precommitteds'⟩ := profiles'
  exact CommittedGroupBatchProfile.mk.injEq .. ▸ ⟨hfinal, hprec⟩

theorem AcceptedRow.eq_of_descriptorBytes (h : schedule.canonicalDescriptorBytes = schedule'.canonicalDescriptorBytes) :
    profiles = profiles' ∧ schedule = schedule' := by
  simp only [FoldSchedule.canonicalDescriptorBytes, append_assoc] at h
  obtain ⟨hroot, h1⟩ := root_split ha hb (append_cancel_left h)
  have hprofs := ha.profiles_eq hb hroot
  obtain ⟨hlen, h2⟩ := pushLen_split ha.recursive_lt hb.recursive_lt h1
  -- both transition loops start in one state
  obtain ⟨layout, output, last, hlayout, houtput, hrun⟩ := ha.transition
  obtain ⟨layout', output', last', hlayout', houtput', hrun'⟩ := hb.transition
  obtain rfl : layout = layout' := by simpa [hprofs, hlayout'] using hlayout.symm
  obtain rfl : output = output' := by simpa [hroot, houtput'] using houtput.symm
  rw [hroot] at hrun
  obtain ⟨hfolds, h3⟩ := recursive_split hlen ha.recursive hb.recursive hrun hrun' h2
  obtain ⟨hterm, h4⟩ := TerminalFoldParams.descriptorBytes_prefixFreeOn _ ha.terminal _ hb.terminal _ _ h3
  have haccumulated := accumulated_injective h4
  obtain ⟨accumulated, root, folds, terminal⟩ := schedule
  obtain ⟨accumulated', root', folds', terminal'⟩ := schedule'
  exact ⟨hprofs, FoldSchedule.mk.injEq .. ▸ ⟨haccumulated, hroot, hfolds, hterm⟩⟩

end

/-! ## The digest preimage -/

theorem GroupCommitPhaseParams.framedBytes_prefixFreeOn :
    PrefixFreeOn GroupCommitPhaseParams.framedBytes {g | g.inner.matrix.Keyed} := by
  intro a ha b hb r s h
  simp only [framedBytes, append_assoc] at h
  obtain ⟨-, h1⟩ := append_inj h (by simp [pushLen])
  exact descriptorBytes_prefixFreeOn a ha b hb r s h1

section

variable (ha : AcceptedRow policy profiles schedule)

include ha

theorem AcceptedRow.precommitteds_keyed : ∀ profile ∈ profiles.precommitteds, profile.inner.matrix.Keyed := by
  rw [ha.precommitteds, forall_mem_map]
  exact fun group hgroup => (ha.root_precommitted group hgroup).2

theorem AcceptedRow.finalGroup_keyed : profiles.finalGroup.inner.matrix.Keyed := by
  rw [ha.finalGroup]
  exact ha.root.keyed

/-- The preimage ends with the canonical bytes, behind frames that can be split off. -/
theorem AcceptedRow.descriptorBytes_of_preimage (hb : AcceptedRow policy profiles' schedule') {preimage : List UInt8}
    (h : scheduleRowPreimage profiles schedule = .ok preimage) (h' : scheduleRowPreimage profiles' schedule' = .ok preimage) :
    schedule.canonicalDescriptorBytes = schedule'.canonicalDescriptorBytes := by
  simp only [scheduleRowPreimage, result_ok, checked_some] at h h'
  obtain ⟨count, ⟨hcount, rfl⟩, rfl⟩ := h
  obtain ⟨count', ⟨hcount', rfl⟩, hbytes⟩ := h'
  simp only [append_assoc, append_cancel_left_eq] at hbytes
  obtain ⟨hlen, h1⟩ := pushLen_split hcount' hcount hbytes
  obtain ⟨-, h2⟩ := GroupCommitPhaseParams.framedBytes_prefixFreeOn.flatMap profiles.precommitteds.length
    _ ⟨Nat.succ_injective hlen, hb.precommitteds_keyed⟩ _ ⟨rfl, ha.precommitteds_keyed⟩ _ _ h1
  obtain ⟨-, h3⟩ := GroupCommitPhaseParams.framedBytes_prefixFreeOn _ hb.finalGroup_keyed _ ha.finalGroup_keyed _ _ h2
  obtain ⟨-, h4⟩ := append_inj h3 (by simp [pushLen])
  exact h4.symm

end

end

/-! ## A row of a shipped catalog

The smallest row of `artifacts/schedules/fp128_onehot.aks`, by the cap of its terminal response, and the
backend on the values that its checks ask for. -/

/-- The digest of the row by its cap, which stands at byte 865 of the preimage. -/
def oneHotDigest (preimage : List UInt8) : Digest :=
  if preimage[865]? = some 182 then ⟨#[
    0x24, 0x38, 0xf1, 0x9e, 0x41, 0x61, 0x56, 0xc4, 0xbc, 0x55, 0x3e, 0xa6, 0xb1, 0x95, 0xdb, 0xbd,
    0xf6, 0x0a, 0xab, 0x33, 0x9a, 0xaa, 0x5e, 0xd3, 0x75, 0xc5, 0x81, 0x86, 0xb0, 0x68, 0x58, 0x91], rfl⟩
  else ⟨#[0xe7, 0x9c, 0xec, 0xb6, 0x7b, 0x82, 0x29, 0xda, 0x7f, 0x2c, 0x1b, 0xe6, 0x4c, 0xbd, 0xa0, 0xf4,
    0xe9, 0xc1, 0x92, 0xf9, 0x7c, 0x1b, 0xba, 0x62, 0x2b, 0x4d, 0x95, 0x27, 0xfe, 0xa5, 0xb0, 0xda], rfl⟩

def oneHotBackend : AuditBackend where
  Search := Unit
  supportedCell _ _ _ linf := some linf
  sisRoleCell _ _ _ _ := some 20
  generatedSisMaxWidths _ _ bound :=
    if bound = 7 then some [76306, 106021444]
    else if bound = 12852 then some [8, 20, 1839, 250840]
    else if bound = 208692 then some [6, 14, 25, 388]
    else none
  generatedL2SisMaxWidths _ _ _ := none
  signedDigitKernel logBasis := decide (logBasis = 3 ∨ logBasis = 5)
  computeNumDigitsFieldWidth fieldBits logBasis := divCeil fieldBits logBasis.toNat
  numDigitsOpen _ := 43
  numDigitsInner _ _ := 1
  roundedUpRoleAInfNorm _ _ _ _ _ _ _ _ := some 12852
  roundedUpCollisionInfNorm _ _ _ _ _ := some 7
  validateForRingDim _ _ := .ok ()
  productionForRingDim s := if s = 64 then some ⟨31, 10⟩ else none
  selectiveL2OperatorNormRejection _ _ := false
  packingPartialWidth _ innerRingDimension _ := .ok innerRingDimension
  hasOuterCompressionPlan _ := .ok true
  validateStage2SuccessorCapacity _ _ _ _ _ := .ok ()
  validatePolicy _ := .ok ()
  selectiveL2InnerMatrix _ _ := .ok none
  certifiedTerminalResponseLinfCap _ _ := .ok 511
  outputWitnessLen _ _ _ _ := .ok 82304
  producedChunkShape _ _ _ _ := .error (.invalidSetup "no recursive fold")
  plannedNextWitnessLen _ _ _ _ _ := .error (.invalidSetup "no recursive fold")
  activeSetupFieldLen _ _ := .error (.invalidSetup "no recursive fold")
  suffixOpeningLayout _ _ := .error (.invalidSetup "no recursive fold")
  digestDescriptorBytes := oneHotDigest

def oneHotPolicy : PlannerPolicy oneHotBackend.Search where
  decomposition := ⟨3, 1, some 128⟩
  sisModulusProfile := .q128OffsetA7F7
  sisSecurityPolicy := .quantum169BitADPS16
  sisTableDigest := currentSisTableDigest
  sisL2TableDigest := currentSisL2TableDigest
  claimExtDegree := 1
  witnessChunk := .defaultNonChunked
  search := ()

def oneHotKey (role : SisMatrixRole) (bound : BitVec 128) : SisTableKey :=
  ⟨.quantum169BitADPS16, currentSisTableDigest, .q128OffsetA7F7, role, 64, bound⟩

def oneHotGroup : GroupOpenPhaseParams where
  profile := {
    version := 4
    group := ⟨12, 1⟩
    blocks := ⟨64, 32, 2⟩
    outerSliceCount := ⟨2⟩
    inner := ⟨⟨3, 1⟩, ⟨3, 32, .linf (oneHotKey .inner 12852)⟩⟩
    outer := ⟨⟨3, 43⟩, ⟨1, 129, oneHotKey .outer 7⟩⟩ }
  opening := ⟨.subringCoefficientPacking 64, ⟨31, 10⟩, 3, 43, 2⟩
  setupNaturalLen := none

def oneHotProfiles : CommittedGroupBatchProfile := ⟨oneHotGroup.profile, []⟩

def oneHotSchedule (cap : BitVec 128) : FoldSchedule where
  rootAccumulatedSetupPrefixLen := 0
  root := {
    params := {
      groups := ⟨[oneHotGroup], cons_ne_nil _ _⟩
      openMatrix := ⟨1, 86, oneHotKey .opening 7⟩
      payloadMode := .compressed
      ringRelationMode := .quotientLift
      sourceEncoding := .canonicalCoefficientTable
      witnessChunk := .defaultNonChunked
      successorBlockLen := none
      witnessChunkEnds := [] }
    inputWitnessLen := 4096
    outputWitnessLen := 82304 }
  recursiveFolds := []
  terminal := {
    blocks := ⟨1286, 256, 6⟩
    inner := ⟨⟨3, 1⟩, ⟨4, 256, .linf (oneHotKey .inner 208692)⟩⟩
    fold := ⟨5, 2⟩
    foldChallengeConfig := ⟨31, 10⟩
    responseShape := ⟨64, [⟨16384, 320, 1280, some cap, 5, 18432⟩], 17984⟩
    inputWitnessLen := 82304 }

/-- **Descriptor bytes identify an accepted row**: of two rows that `try_new` accepts under one policy, equal
canonical descriptor bytes, and equal digest preimages, mean equal profiles and equal schedules. -/
theorem tryNew_descriptor_injective {profiles profiles' : CommittedGroupBatchProfile} {schedule schedule' : FoldSchedule}
    {row row' : ResolvedScheduleRow} (h : ResolvedScheduleRow.tryNew policy profiles schedule = .ok row)
    (h' : ResolvedScheduleRow.tryNew policy profiles' schedule' = .ok row') :
    (schedule.canonicalDescriptorBytes = schedule'.canonicalDescriptorBytes → profiles = profiles' ∧ schedule = schedule') ∧
      (scheduleRowPreimage profiles schedule = scheduleRowPreimage profiles' schedule' →
        profiles = profiles' ∧ schedule = schedule') := by
  have ha := ResolvedScheduleRow.accepted_of_tryNew h
  have hb := ResolvedScheduleRow.accepted_of_tryNew h'
  refine ⟨ha.eq_of_descriptorBytes hb, fun heq => ?_⟩
  simp only [ResolvedScheduleRow.tryNew, scheduleRowDigest, result_ok] at h
  obtain ⟨-, digest, ⟨preimage, hpreimage, -⟩, -⟩ := h
  exact ha.eq_of_descriptorBytes hb (ha.descriptorBytes_of_preimage hb hpreimage (heq ▸ hpreimage))

/-- The shipped row and the row with a smaller cap have different bytes. -/
theorem tryNew_descriptor_injective_oneHot :
    (oneHotSchedule 182).canonicalDescriptorBytes ≠ (oneHotSchedule 181).canonicalDescriptorBytes := by
  intro h
  have hrow : ResolvedScheduleRow.tryNew oneHotPolicy oneHotProfiles (oneHotSchedule 182) =
      .ok ⟨_, oneHotProfiles, oneHotSchedule 182⟩ := rfl
  have hrow' : ResolvedScheduleRow.tryNew oneHotPolicy oneHotProfiles (oneHotSchedule 181) =
      .ok ⟨_, oneHotProfiles, oneHotSchedule 181⟩ := rfl
  exact absurd ((tryNew_descriptor_injective hrow hrow').1 h).2 (by decide)

end Akita.Schedule
