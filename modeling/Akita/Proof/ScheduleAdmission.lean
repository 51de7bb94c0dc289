import Akita.Lib.Accumulate
import Akita.Proof.ScheduleDescriptor

/-!
# What the admission of a row establishes

`AcceptedLevel`, `AcceptedTerminal` and `AcceptedRow` list the facts that the checks of
`ResolvedScheduleRow::try_new` leave behind and that the identity of a row rests on: which A
matrices are keyed, which fields are fixed outright, and which are functions of the others.
-/

namespace Akita.Schedule

open Lib List

variable {𝔞 : AuditBackend} {u : Unit} {g : GroupCommitPhaseParams} {policy : PlannerPolicy 𝔞.Search} {level : ℕ}
  {s schedule : FoldSchedule} {step : FoldParams × ℕ} {position : ScheduleGroupPosition} {profiles : CommittedGroupBatchProfile}
  {row : ResolvedScheduleRow}

/-! ## Groups -/

/-- The audit of an L-infinity key keeps the role asked for and the current table. -/
theorem auditCommitMatrixFields_eq_ok {role : SisMatrixRole} {key audited : SisTableKey} {rank width : UInt64}
    (h : auditCommitMatrixFields 𝔞 role key rank width = .ok audited) :
    audited.role = role ∧ audited.tableDigest = currentSisTableDigest := by
  simp only [auditCommitMatrixFields, result_ok] at h
  obtain ⟨-, a, hkey, -, -, -, rfl⟩ := h
  simp only [sisTableKeyForLinfBound, Option.map_eq_some_iff] at hkey
  obtain ⟨bound, hbound, rfl⟩ := hkey
  refine ⟨rfl, ?_⟩
  by_contra hdigest
  simp [ceilSupportedLinfBound, sisMaxWidths, hdigest] at hbound

theorem InnerCommitMatrixParams.keyed_of_validate {m : InnerCommitMatrixParams} (h : m.validate 𝔞 = .ok u) : m.Keyed := by
  intro key hroute
  simp only [validate, hroute, result_ok] at h
  obtain ⟨audited, haudit, rfl⟩ := h
  exact auditCommitMatrixFields_eq_ok haudit

theorem GroupCommitPhaseParams.of_validate {fieldBits : ℕ} (h : g.validate 𝔞 fieldBits = .ok u) :
    g.version = currentVersion ∧ g.inner.matrix.Keyed := by
  simp only [validate, result_ok] at h
  obtain ⟨-, hvers, hmatrix, -⟩ := h
  exact ⟨hvers, InnerCommitMatrixParams.keyed_of_validate hmatrix⟩

theorem GroupOpenPhaseParams.keyed_of_validate {g : GroupOpenPhaseParams} (h : g.validate 𝔞 = .ok u) :
    g.profile.inner.matrix.Keyed := by
  simp only [validate, result_ok] at h
  exact (GroupCommitPhaseParams.of_validate h.1).2

theorem GroupCommitPhaseParams.numVars_of_validateRootGeometry (h : g.validateRootGeometry = .ok u) :
    checkedNextPowerOfTwo (g.blocks.liveRingElementsPerClaim.toNat * g.inner.matrix.ringDimension) =
      some (2 ^ g.group.numVars.toNat) := by
  simp only [validateRootGeometry, result_ok, not_or] at h
  obtain ⟨source, hsource, -, field, hfield, -, hnext, -⟩ := h
  obtain ⟨-, rfl⟩ := checkedMul_eq_some.1 hsource
  obtain ⟨-, rfl⟩ := Checked.pow2_eq_some.1 hfield
  exact not_not.1 hnext

/-! ## Levels -/

structure AcceptedLevel (policy : PlannerPolicy 𝔞.Search) (level : ℕ) (p : CommittedGroupParams) : Prop where
  keyed : p.inner.matrix.Keyed
  version : p.ownGroup.profile.version = GroupCommitPhaseParams.currentVersion
  own_not_prefix : p.ownGroup.setupNaturalLen = none
  later_not_prefix : ∀ group ∈ p.groups.preceding.tail, group.setupNaturalLen = none
  numVars : checkedNextPowerOfTwo (p.blocks.liveRingElementsPerClaim.toNat * p.inner.matrix.ringDimension) =
    some (2 ^ p.ownGroup.profile.group.numVars.toNat)
  witnessChunk : p.witnessChunk = policy.witnessChunkAtLevel level
  numChunks_ne_zero : p.witnessChunk.numChunks ≠ 0
  successor : p.successorBlockLen.isSome = decide (p.witnessChunk.numChunks > 1)

/-- An accepted terminal fold: its response has one group, with a cap on the L-infinity route only. -/
structure AcceptedTerminal (t : TerminalFoldParams) : Prop where
  keyed : t.inner.matrix.Keyed
  groups : ∃ group, t.responseShape.layout.groups = [group] ∧ group.zLinfCap.isSome = t.inner.matrix.securityRoute.isLinf

theorem AcceptedLevel.of_checks {label : String} {fold : FoldParams} {successor : FoldSuccessor} {n claims : ℕ}
    (hreq : fold.params.validateCommitmentRequest 𝔞 level n = .ok ())
    (haudit : auditCommittedParams policy label fold.params claims level = .ok ())
    (hblock : validateSuccessorBlock fold successor = .ok ()) : AcceptedLevel policy level fold.params := by
  simp only [CommittedGroupParams.validateCommitmentRequest, FoldGroups.validateTopology, result_ok] at hreq
  obtain ⟨⟨hown, hlater⟩, hprof, hgeom, -⟩ := hreq
  simp only [auditCommittedParams, ChunkedWitnessCfg.validate, result_ok] at haudit
  obtain ⟨-, -, ⟨hchunks, -⟩, hchunk, -⟩ := haudit
  simp only [validateSuccessorBlock, result_ok] at hblock
  obtain ⟨blockLen, -, hsucc⟩ := hblock
  obtain ⟨hvers, hkeyed⟩ := GroupCommitPhaseParams.of_validate hprof
  refine ⟨hkeyed, hvers, hown, hlater, GroupCommitPhaseParams.numVars_of_validateRootGeometry hgeom, hchunk,
    hchunks, ?_⟩
  rw [← Option.isSome_map (f := UInt64.toNat), hsucc]
  split <;> simp_all

structure AcceptedRecursive (policy : PlannerPolicy 𝔞.Search) (step : FoldParams × ℕ) : Prop where
  level : AcceptedLevel policy (step.2 + 1) step.1.params
  precommitted : step.1.params.precommittedGroups = []
  numPolynomials : step.1.params.ownGroup.profile.group.numPolynomials.toNat = 1
  setupPrefix : ∀ group ∈ step.1.params.setupPrefix, group.Prefixing

theorem AcceptedTerminal.of_audit {t : TerminalFoldParams} (h : auditTerminal policy t level = .ok u) : AcceptedTerminal t := by
  simp only [auditTerminal, auditInnerMatrix, result_ok, mapErr_eq_ok] at h
  obtain ⟨-, ⟨hmatrix, -⟩, -, -, _, -, -, group, hhead, _, -, -, ⟨hlen, -⟩, hcap, -⟩ := h
  refine ⟨InnerCommitMatrixParams.keyed_of_validate hmatrix, group, ?_, ?_⟩
  · obtain ⟨only, honly⟩ := length_eq_one_iff.1 hlen
    simp_all
  · simp only [TerminalFoldParams.validateTerminalLinfCap] at hcap
    split at hcap <;> rename_i hroute <;>
      simp only [result_ok] at hcap
    · obtain ⟨cap, hcap, -⟩ := hcap
      simp [hcap, hroute, InnerCommitSecurityRoute.isLinf]
    · simp [hcap, hroute, InnerCommitSecurityRoute.isLinf]

/-! ## Rows -/

/-- An accepted row: its levels, what ties the profiles to the root, and the run of the transition loop. -/
structure AcceptedRow (policy : PlannerPolicy 𝔞.Search) (profiles : CommittedGroupBatchProfile) (s : FoldSchedule) :
    Prop where
  finalGroup : profiles.finalGroup = s.root.params.ownGroup.profile
  precommitteds : profiles.precommitteds = s.root.params.precommittedGroups.map (·.profile)
  precommitted_lt : s.root.params.precommittedGroups.length < 2 ^ 64
  root : AcceptedLevel policy 0 s.root.params
  root_prefix : s.root.params.setupPrefix = none
  root_polynomials : s.root.params.commitmentPolynomialCount = .ok s.root.params.ownGroup.profile.group.numPolynomials.toNat
  root_precommitted : ∀ group ∈ s.root.params.precommittedGroups, group.Precommitted
  root_ends : s.root.params.witnessChunkEnds = []
  recursive : ∀ step ∈ s.recursiveFolds.zipIdx, AcceptedRecursive policy step
  recursive_lt : s.recursiveFolds.length < 2 ^ 64
  transition : ∃ rootLayout rootOutput last, profiles.openingLayout = .ok rootLayout ∧
    𝔞.outputWitnessLen s.root.params policy.decomposition.fieldBits policy.claimExtDegree rootLayout = .ok rootOutput ∧
    s.recursiveFolds.zipIdx.foldlM (transitionStep policy) ⟨rootOutput, s.root, rootLayout⟩ = .ok last
  terminal : AcceptedTerminal s.terminal

theorem foldlM_each {σ α : Type} {f : σ → α → Result σ} {l : List α} {s t : σ} (h : l.foldlM f s = .ok t) :
    ∀ a ∈ l, ∃ u v, f u a = .ok v := by
  refine foldlM_passes (P := fun made _ => ∀ a ∈ made, ∃ u v, f u a = .ok v) ?_ (by simp) h
  intro made x _ u v _ hmade hstep a ha
  rcases mem_append.1 ha with ha | ha
  · exact hmade a ha
  · obtain rfl := mem_singleton.1 ha
    exact ⟨u, v, hstep⟩

theorem precommitteds_eq {profiles : List GroupCommitPhaseParams} {groups : List GroupOpenPhaseParams}
    (hlen : profiles.length = groups.length)
    (h : ∀ entry ∈ (profiles.zip groups).zipIdx, entry.1.1 = entry.1.2.profile) :
    profiles = groups.map (·.profile) := by
  refine ext_getElem (by simpa using hlen) fun i hi hi' => ?_
  have hi'' : i < groups.length := by simpa using hi'
  have hentry := h ((profiles[i], groups[i]), i) (by simp [mem_zipIdx_iff_getElem?, hi, hi''])
  simpa using hentry

section

theorem structure_parts (h : s.validateStructure 𝔞 = .ok ()) : s.validateRoot 𝔞 = .ok () ∧
      ∀ step ∈ s.recursiveFolds.zipIdx, ∃ u v, FoldSchedule.validateStep 𝔞 u step = .ok v := by
  simp only [FoldSchedule.validateStructure, result_ok] at h
  obtain ⟨-, hroot, last, hloop, -⟩ := h
  exact ⟨hroot, foldlM_each hloop⟩

theorem root_precommitted_of (hroot : s.validateRoot 𝔞 = .ok ()) :
    ∀ group ∈ s.root.params.precommittedGroups, group.Precommitted := by
  simp only [FoldSchedule.validateRoot, FoldGroups.validateTopology, result_ok] at hroot
  obtain ⟨⟨-, hlater⟩, hprefix, -, -, -, hgroups, -⟩ := hroot
  intro group hgroup
  refine ⟨?_, GroupOpenPhaseParams.keyed_of_validate (forM_eq_ok.1 hgroups group hgroup)⟩
  have hprec : s.root.params.precommittedGroups = s.root.params.groups.preceding := by
    have hprefix : s.root.params.groups.setupPrefix = none := hprefix
    simp [CommittedGroupParams.precommittedGroups, FoldGroups.precommitted, hprefix]
  rw [hprec] at hgroup
  simp only [CommittedGroupParams.setupPrefix, FoldGroups.setupPrefix, Option.filter_eq_none_iff] at hprefix
  rcases hcases : s.root.params.groups.preceding with _ | ⟨first, later⟩
  · simp [hcases] at hgroup
  · rw [hcases] at hgroup hlater hprefix
    rcases mem_cons.1 hgroup with rfl | hmem
    · simpa using hprefix group rfl
    · exact hlater group hmem

end

theorem final_mem_scheduleGroups (h : step ∈ s.recursiveFolds.zipIdx) :
    .final (.recursiveFinal step.2) step.1.params 1 (step.2 + 1) ∈ s.scheduleGroups :=
  mem_append_left _ (mem_append_right _ (mem_flatMap.2 ⟨step, h, by simp [FoldParams.recursiveGroups]⟩))

theorem frozen_mem_scheduleGroups {group : GroupOpenPhaseParams} (h : step ∈ s.recursiveFolds.zipIdx)
    (hgroup : group ∈ step.1.params.setupPrefix) :
    .frozen (.recursiveSetupPrefix step.2) group step.1.params.witnessChunk.numChunks.toNat ∈ s.scheduleGroups :=
  mem_append_left _ (mem_append_right _ (mem_flatMap.2
    ⟨step, h, by simp [FoldParams.recursiveGroups, Option.mem_def.1 hgroup]⟩))

theorem audit_of_final {params : CommittedGroupParams} {claims : ℕ}
    (h : auditGroup policy (.final position params claims level) = .ok ()) :
    auditCommittedParams policy position.display params claims level = .ok () := by
  simp only [auditGroup, result_ok] at h
  exact h.2

theorem keyed_of_frozen {params : GroupOpenPhaseParams} {chunks : ℕ}
    (h : auditGroup policy (.frozen position params chunks) = .ok ()) : params.profile.inner.matrix.Keyed := by
  simp only [auditGroup, auditFrozenGroup, result_ok] at h
  exact GroupOpenPhaseParams.keyed_of_validate h.1

theorem AcceptedRecursive.of_checks (hstep : step ∈ s.recursiveFolds.zipIdx) {u v : FoldSchedule.Phases}
    (hphase : FoldSchedule.validateStep 𝔞 u step = .ok v) (haudits : ∀ group ∈ s.scheduleGroups, auditGroup policy group = .ok ())
    (hblock : validateSuccessorBlock step.1 (s.successor (step.2 + 1)) = .ok ()) : AcceptedRecursive policy step := by
  simp only [FoldSchedule.validateStep, result_ok] at hphase
  obtain ⟨-, hprec, hreq, -⟩ := hphase
  have haudit := audit_of_final (haudits _ (final_mem_scheduleGroups hstep))
  refine ⟨AcceptedLevel.of_checks hreq haudit hblock, hprec, ?_, ?_⟩
  · simp only [CommittedGroupParams.validateCommitmentRequest, result_ok] at hreq
    obtain ⟨-, -, -, -, hcount, -⟩ := hreq
    exact hcount
  · intro group hgroup
    refine ⟨?_, keyed_of_frozen (haudits _ (frozen_mem_scheduleGroups hstep hgroup))⟩
    exact (Option.filter_eq_some_iff.1 hgroup).2

/-- **The checks of an accepted row.** -/
theorem ResolvedScheduleRow.accepted_of_tryNew (h : tryNew policy profiles schedule = .ok row) :
    AcceptedRow policy profiles schedule := by
  simp only [tryNew, admitRow, result_ok] at h
  obtain ⟨⟨hexecution, haudit, hdims, layout, hlayout, htrans, -⟩, digest, hdigest, -⟩ := h
  -- the group count of the digest fits a word
  simp only [scheduleRowDigest, scheduleRowPreimage, result_ok, checked_some] at hdigest
  obtain ⟨preimage, ⟨count, ⟨hcount, -⟩, -⟩, -⟩ := hdigest
  -- the structural checks
  simp only [FoldSchedule.validateNonterminalOpeningExecution, result_ok] at hexecution
  obtain ⟨hroot, hsteps⟩ := structure_parts hexecution.1
  have hprec := root_precommitted_of hroot
  simp only [FoldSchedule.validateRoot, result_ok] at hroot
  obtain ⟨-, hprefix, polynomials, hpolys, hreq, -⟩ := hroot
  -- the audit
  simp only [auditResolvedSchedule, result_ok, not_or, not_not] at haudit
  obtain ⟨-, -, -, -, ⟨hfinal, hlen⟩, hprofs, hgroups⟩ := haudit
  have haudits := forM_eq_ok.1 hgroups
  have hprofs := fun entry hentry => ensure_eq_ok.1 (forM_eq_ok.1 hprofs entry hentry)
  -- the transition
  simp only [validateCanonicalTransitionLengths, result_ok] at htrans
  obtain ⟨hblocks, hends, -, output, houtput, -, last, hlast, -⟩ := htrans
  have hblocks := forM_eq_ok.1 hblocks
  have hrootAudit := audit_of_final (haudits (.final .rootFinal schedule.root.params
    schedule.root.params.ownGroup.profile.group.numPolynomials.toNat 0)
    (by simp [FoldSchedule.scheduleGroups, FoldParams.rootGroups]))
  have hrootLevel := AcceptedLevel.of_checks hreq hrootAudit (hblocks (schedule.root, 0) (by simp))
  refine {
    finalGroup := hfinal
    precommitteds := precommitteds_eq hlen hprofs
    precommitted_lt := by rw [← hlen]; exact lt_of_le_of_lt (Nat.le_add_right _ 1) hcount
    root := hrootLevel
    root_prefix := hprefix
    root_polynomials := ?_
    root_precommitted := hprec
    root_ends := hends
    recursive := ?_
    recursive_lt := ?_
    transition := ⟨layout, output, last, hlayout, houtput, hlast⟩
    terminal := AcceptedTerminal.of_audit (haudits (.terminal .terminal schedule.terminal
      (schedule.recursiveFolds.length + 1)) (by simp [FoldSchedule.scheduleGroups])) }
  · simp only [CommittedGroupParams.validateCommitmentRequest, result_ok] at hreq
    obtain ⟨-, -, -, -, hcount, -⟩ := hreq
    rw [hpolys, hcount]
  · intro step hstep
    obtain ⟨u, v, hphase⟩ := hsteps step hstep
    refine AcceptedRecursive.of_checks hstep hphase haudits (hblocks (step.1, step.2 + 1) ?_)
    rw [mem_zipIdx_iff_getElem?] at hstep ⊢
    simpa using hstep
  · simp only [validateScheduleRingDims, result_ok] at hdims
    have hlevels := hdims.1
    simp only [FoldSchedule.numFoldLevels, maxFoldLevels] at hlevels
    omega

/-- An A matrix on the L-infinity route, by a key of the A role and of the current table. -/
def InnerCommitMatrixParams.Frozen (m : InnerCommitMatrixParams) : Prop :=
  ∃ key, m.securityRoute = .linf key ∧ key.role = .inner ∧ key.tableDigest = currentSisTableDigest

/-- The precommitted groups of an accepted row are frozen on the L-infinity route. -/
theorem ResolvedScheduleRow.frozen_of_tryNew (h : tryNew policy profiles schedule = .ok row) :
    ∀ profile ∈ profiles.precommitteds, profile.inner.matrix.Frozen := by
  have hacc := accepted_of_tryNew h
  simp only [tryNew, admitRow, auditResolvedSchedule, result_ok] at h
  obtain ⟨⟨-, ⟨-, -, -, -, -, -, hgroups⟩, -⟩, -⟩ := h
  rw [hacc.precommitteds, forall_mem_map]
  intro group hgroup
  obtain ⟨index, hindex, rfl⟩ := getElem_of_mem hgroup
  have haudit := forM_eq_ok.1 hgroups (.frozen (.rootPrecommitted index) schedule.root.params.precommittedGroups[index]
    schedule.root.params.witnessChunk.numChunks.toNat) (mem_append_left _ (mem_append_left _
      (mem_append_left _ (mem_map.2 ⟨(_, index), by simp [mem_zipIdx_iff_getElem?, hindex], rfl⟩))))
  have hkeyed := keyed_of_frozen haudit
  simp only [auditGroup, auditFrozenGroup, result_ok] at haudit
  obtain ⟨-, -, -, -, bound, hbound, -⟩ := haudit
  simp only [InnerCommitMatrixParams.coeffLinfBound] at hbound
  split at hbound
  · rename_i key hroute
    exact ⟨key, hroute, hkeyed key hroute⟩
  · cases hbound

end Akita.Schedule
