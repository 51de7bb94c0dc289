import Akita.Proof.WitnessGeometry

/-!
# The planner's length is the layout's

* `materialize_eq_resolve`: the materialized tail is the tail resolved against the materializing sink.
* `TailSink.Follows.resolve`: a sink that follows another one, operation by operation, follows it over the whole tail.
* `measure_materialize`: a tail is measured to the end of its materialization, wherever it starts.
* `scalarLiveCoeffLen_eq`: the scalar length is the live length of the layout.
-/

namespace Akita.Witness

open Lib List

section resolve

variable (params : CommittedGroupParams) (layout : RelationRhsLayout) (numGroups : ℕ) (plan : RelationQuotientPlan)

theorem materialize_eq_resolve (successorAAlignment start : ℕ) :
    materialize params layout numGroups plan successorAAlignment start =
      materializingTailSink.resolve params layout numGroups plan successorAAlignment (.new start) := rfl

/-- Every operation of `ops` that succeeds is matched by the one of `ops'`. -/
structure TailSink.Follows {S S' Output Output' : Type} (ops : TailSink S Output) (ops' : TailSink S' Output')
    (R : S → S' → Prop) (Q : Output → Output' → Prop) : Prop where
  prepareQuotientRows : ∀ s s' rowCount, R s s' → R (ops.prepareQuotientRows s rowCount) (ops'.prepareQuotientRows s' rowCount)
  align : ∀ s s' alignment overflow, R s s' → Simulates R (ops.align s alignment overflow) (ops'.align s' alignment overflow)
  placeFSpan : ∀ s s' groupIndex map, R s s' → Simulates R (ops.placeFSpan s groupIndex map) (ops'.placeFSpan s' groupIndex map)
  placeHSpan : ∀ s s' map, R s s' → Simulates R (ops.placeHSpan s map) (ops'.placeHSpan s' map)
  placeQuotientRow : ∀ s s' rowIndex geometry depth wide far, R s s' → Simulates R
    (ops.placeQuotientRow s rowIndex geometry depth wide far) (ops'.placeQuotientRow s' rowIndex geometry depth wide far)
  recordFQuotientRow : ∀ s s' groupIndex rowIndex, R s s' →
    R (ops.recordFQuotientRow s groupIndex rowIndex) (ops'.recordFQuotientRow s' groupIndex rowIndex)
  finishCompressionLayer : ∀ s s' mapIndex row, R s s' → Simulates R (ops.finishCompressionLayer s mapIndex row plan)
    (ops'.finishCompressionLayer s' mapIndex row plan)
  finish : ∀ s s', R s s' → Simulates Q (ops.finish s plan) (ops'.finish s' plan)

namespace TailSink.Follows

variable {S S' Output Output' : Type} {ops : TailSink S Output} {ops' : TailSink S' Output'} {R : S → S' → Prop}
  {Q : Output → Output' → Prop} {plan} {s : S} {s' : S'} (h : Follows plan ops ops' R Q) (rowFamilies : List RelationRowFamily)

include h

theorem ordinary (hs : R s s') : Simulates R (ops.resolveOrdinary plan rowFamilies s) (ops'.resolveOrdinary plan rowFamilies s') := by
  unfold resolveOrdinary
  split
  · exact .ok hs
  · refine Simulates.foldlM ?_ (h.prepareQuotientRows _ _ _ hs)
    rintro ⟨row, rowIndex⟩ _ t t' ht
    exact h.placeQuotientRow _ _ _ _ _ _ _ ht

section

variable (mapIndex : Fin compressionMapCount)

include mapIndex

theorem fSpans (hs : R s s') :
    Simulates R (ops.resolveFSpans layout numGroups mapIndex s) (ops'.resolveFSpans layout numGroups mapIndex s') := by
  refine Simulates.foldlM (fun relationGroupIndex _ t t' ht => ?_) hs
  refine .share ?_
  rintro ⟨groupIndex, groupPlan⟩ _
  exact h.placeFSpan _ _ _ _ ht

theorem fQuotientRow (depth : ℕ+) (relationGroupIndex : ℕ) (hs : R s s') :
    Simulates R (ops.resolveFQuotientRow layout numGroups rowFamilies mapIndex depth s relationGroupIndex)
      (ops'.resolveFQuotientRow layout numGroups rowFamilies mapIndex depth s' relationGroupIndex) := by
  refine .share fun entry _ => .share fun row _ => .share fun planned _ => .share fun _ _ => ?_
  refine (h.placeQuotientRow _ _ _ _ _ _ _ hs).bind fun t t' _ _ ht => ?_
  exact .ok (h.recordFQuotientRow _ _ _ _ ht)

theorem layerQuotientRows (hs : R s s') : Simulates (fun p p' : _ × Option ℕ => R p.1 p'.1 ∧ p.2 = p'.2)
      (ops.resolveLayerQuotientRows layout numGroups plan rowFamilies mapIndex s)
      (ops'.resolveLayerQuotientRows layout numGroups plan rowFamilies mapIndex s') := by
  unfold resolveLayerQuotientRows
  split
  · exact .ok ⟨hs, rfl⟩
  · next depth _ =>
    have hrows : Simulates R
        ((range numGroups).foldlM (ops.resolveFQuotientRow layout numGroups rowFamilies mapIndex depth) s)
        ((range numGroups).foldlM (ops'.resolveFQuotientRow layout numGroups rowFamilies mapIndex depth) s') :=
      Simulates.foldlM (fun i _ t t' ht => h.fQuotientRow layout numGroups rowFamilies mapIndex depth i ht) hs
    refine hrows.bind fun t t' _ _ ht => .share fun entry _ => .share fun geometry _ => ?_
    exact (h.placeQuotientRow _ _ _ _ _ _ _ ht).bind fun _ _ _ _ hrow => .ok ⟨hrow, rfl⟩

theorem layer (hs : R s s') : Simulates R (ops.resolveLayer layout numGroups plan rowFamilies s mapIndex)
      (ops'.resolveLayer layout numGroups plan rowFamilies s' mapIndex) := by
  refine .share fun alignment _ => (h.align _ _ _ _ hs).bind fun _ _ _ _ halign => ?_
  refine (h.fSpans layout numGroups mapIndex halign).bind fun _ _ _ _ hspans => .share fun opening _ => ?_
  refine (h.placeHSpan _ _ _ hspans).bind fun _ _ _ _ hspan => ?_
  refine (h.layerQuotientRows layout numGroups rowFamilies mapIndex hspan).bind ?_
  rintro ⟨t, row⟩ ⟨t', row'⟩ _ _ ⟨ht, rfl⟩
  exact h.finishCompressionLayer _ _ _ _ ht

end

theorem compression (successorAAlignment : ℕ) (hs : R s s') :
    Simulates R (ops.resolveCompression layout numGroups plan rowFamilies successorAAlignment s)
      (ops'.resolveCompression layout numGroups plan rowFamilies successorAAlignment s') := by
  refine .share fun block _ => (h.align _ _ _ _ hs).bind fun t t' _ _ ht => ?_
  have hlayers : Simulates R
      ((finRange compressionMapCount).foldlM (ops.resolveLayer layout numGroups plan rowFamilies) t)
      ((finRange compressionMapCount).foldlM (ops'.resolveLayer layout numGroups plan rowFamilies) t') :=
    Simulates.foldlM (fun mapIndex _ _ _ hst => h.layer layout numGroups rowFamilies mapIndex hst) ht
  exact hlayers.bind fun _ _ _ _ hlast => h.align _ _ _ _ hlast

/-- **The whole tail.** -/
theorem resolve (successorAAlignment : ℕ) (hs : R s s') :
    Simulates Q (ops.resolve params layout numGroups plan successorAAlignment s)
      (ops'.resolve params layout numGroups plan successorAAlignment s') := by
  refine .share fun _ _ => .share fun _ _ => .share fun rowFamilies _ => ?_
  refine (h.ordinary rowFamilies hs).bind fun t t' _ _ ht => ?_
  split
  · exact (h.compression layout numGroups rowFamilies successorAAlignment ht).bind fun _ _ _ _ hlast => h.finish _ _ hlast
  · exact h.finish _ _ ht

end TailSink.Follows

/-- **The measuring sink** follows the cursor of the materializing one. -/
theorem measuring_follows : TailSink.Follows plan materializingTailSink measuringTailSink
    (fun sink cursor => sink.cursor = cursor) (fun tail stop => tail.stop = stop) where
  prepareQuotientRows _ _ _ hs := hs
  align := by
    rintro s _ alignment overflow rfl t ht
    obtain ⟨aligned, halign, ht⟩ := bind_eq_ok.1 ht
    refine ⟨aligned, halign, ?_⟩
    have ht := pure_eq_ok.1 ht
    subst ht
    split
    · rfl
    · next heq => exact (not_not.1 heq).symm
  placeFSpan := by
    rintro s _ groupIndex map rfl t ht
    obtain ⟨range, hrange, ht⟩ := bind_eq_ok.1 ht
    cases ht
    exact ⟨range.stop, bind_eq_ok.2 ⟨range, hrange, rfl⟩, rfl⟩
  placeHSpan := by
    rintro s _ map rfl t ht
    obtain ⟨range, hrange, ht⟩ := bind_eq_ok.1 ht
    cases ht
    exact ⟨range.stop, bind_eq_ok.2 ⟨range, hrange, rfl⟩, rfl⟩
  placeQuotientRow := by
    rintro s _ rowIndex geometry depth wide far rfl t ht
    obtain ⟨len, hlen, ht⟩ := bind_eq_ok.1 ht
    obtain ⟨range, hrange, ht⟩ := bind_eq_ok.1 ht
    obtain ⟨_, _, ht⟩ := bind_eq_ok.1 ht
    cases ht
    exact ⟨range.stop, bind_eq_ok.2 ⟨len, hlen, bind_eq_ok.2 ⟨range, hrange, rfl⟩⟩, rfl⟩
  recordFQuotientRow _ _ _ _ hs := hs
  finishCompressionLayer := by
    rintro s _ mapIndex row rfl t ht
    obtain ⟨_, _, ht⟩ := bind_eq_ok.1 ht
    obtain ⟨_, _, ht⟩ := bind_eq_ok.1 ht
    cases ht
    exact ⟨s.cursor, rfl, rfl⟩
  finish := by
    rintro s _ rfl t ht
    obtain ⟨_, _, ht⟩ := bind_eq_ok.1 ht
    cases ht
    exact ⟨s.cursor, rfl, rfl⟩

/-- **A measured tail** ends where its materialization ends. -/
theorem measure_materialize {geometry : RelationWitnessGeometry} {successorAAlignment start : ℕ} {tail : MaterializedWitnessTail}
    (h : materialize params geometry.rhsLayout numGroups plan successorAAlignment start = .ok tail) :
    measure params geometry numGroups successorAAlignment start plan = .ok tail.stop := by
  rw [materialize_eq_resolve] at h
  have hstart : (MaterializingTailSink.new start).cursor = start := rfl
  obtain ⟨stop, hstop, rfl⟩ := (measuring_follows plan).resolve params geometry.rhsLayout numGroups successorAAlignment hstart tail h
  exact hstop

end resolve

section scalar

variable {level : RelationLevelParams} {lp : CommittedGroupParams} {batch : OpeningClaimsLayout}
  {geometry : RelationWitnessGeometry} {numChunks : ℕ} {plan : RelationQuotientPlan} {ranges : List Span} {group : GroupGeometry}

/-! ## The bodies of a single group -/

theorem mapM_range_length {α : Type} {f : ℕ → Result α} {n : ℕ} {l : List α} (h : (range n).mapM f = .ok l) : l.length = n := by
  have hrel := forall₂_of_mapM h
  rw [← hrel.length_eq, length_range]

theorem inheritedRanges_length : ∀ {ends : List ℕ} {start : ℕ} {ranges : List Span}, inheritedRanges start ends = .ok ranges →
    ranges.length = ends.length := by
  intro ends
  induction ends with
  | nil =>
    intro start ranges h
    cases h
    rfl
  | cons stop ends ih =>
    intro start ranges h
    obtain ⟨_, _, h⟩ := bind_eq_ok.1 h
    obtain ⟨rest, hrest, h⟩ := bind_eq_ok.1 h
    cases h
    rw [length_cons, length_cons, ih hrest]

theorem witnessBlockRanges_length {groupIndex : ℕ} (h : lp.witnessBlockRanges groupIndex numChunks = .ok ranges) :
    ranges.length = numChunks := by
  obtain ⟨params, _, h⟩ := bind_eq_ok.1 h
  split at h
  · unfold dyadicBlockRanges at h
    simp only [bind_eq_ok] at h
    obtain ⟨_, _, _, _, made, hmade, _, _, h⟩ := h
    cases h
    exact mapM_range_length hmade
  · obtain ⟨_, hensure, h⟩ := bind_eq_ok.1 h
    have hlen := ensure_eq_ok.1 hensure
    rw [inheritedRanges_length h]
    by_contra hne
    exact hlen (.inl hne)

/-- A loop over the places of a list reads its members in order. -/
theorem foldlM_range_getElem {α σ : Type} {f : σ → ℕ → Result σ} {g : σ → α → Result σ} (l : List α)
    (h : ∀ i x, l[i]? = some x → ∀ s, f s i = g s x) (s : σ) : (range l.length).foldlM f s = l.foldlM g s := by
  induction l generalizing f s with
  | nil => rfl
  | cons x l ih =>
    rw [length_cons, range_succ_eq_map, foldlM_cons, foldlM_cons, h 0 x rfl]
    refine congrArg _ (funext fun t => ?_)
    rw [foldlM_map]
    exact ih (fun i y hy t => h (i + 1) y hy t) t

theorem placeChunk_scalar {body body' : WitnessBody} {chunkIndex : ℕ} {blocks : Span}
    (hblocks : group.chunkBlockRanges[chunkIndex]? = some blocks)
    (h : placeChunk lp numChunks [group] body chunkIndex = .ok body') :
    RelationLevelParams.scalarChunk lp numChunks group.params group.roleDims group.openingGeometry group.numClaims body.cursor blocks =
      .ok body'.cursor := by
  unfold placeChunk at h
  simp only [bind_eq_ok] at h
  obtain ⟨placed, hplaced, aligned, halign, h⟩ := h
  have hbody := pure_eq_ok.1 h
  rw [foldlM_cons] at hplaced
  obtain ⟨unit, hunit, hplaced⟩ := bind_eq_ok.1 hplaced
  cases hplaced
  obtain ⟨blocks', hblocks', hunit⟩ := bind_eq_ok.1 hunit
  obtain rfl : blocks' = blocks := Option.some.inj ((okOr_eq_ok.1 hblocks').symm.trans hblocks)
  obtain ⟨⟨zLen, eLen, tLen⟩, hlens, hunit⟩ := bind_eq_ok.1 hunit
  simp only [bind_eq_ok] at hunit
  obtain ⟨z, hz, e, he, t, ht, hunit⟩ := hunit
  have hunit := pure_eq_ok.1 hunit
  obtain ⟨hzLt, rfl⟩ := witnessRange_spec hz
  obtain ⟨heLt, rfl⟩ := witnessRange_spec he
  obtain ⟨htLt, rfl⟩ := witnessRange_spec ht
  subst hunit
  have hz : checkedAdd usizeBits body.cursor zLen = some (body.cursor + zLen) := checkedAdd_eq_some.2 ⟨hzLt, rfl⟩
  have he : checkedAdd usizeBits (body.cursor + zLen) eLen = some (body.cursor + zLen + eLen) := checkedAdd_eq_some.2 ⟨heLt, rfl⟩
  have ht : checkedAdd usizeBits (body.cursor + zLen + eLen) tLen = some (body.cursor + zLen + eLen + tLen) :=
    checkedAdd_eq_some.2 ⟨htLt, rfl⟩
  unfold RelationLevelParams.scalarChunk
  rw [hlens, ← hbody]
  simp only [ok_bind, hz, he, ht, Option.bind_eq_bind, Option.bind_some]
  exact okOr_eq_ok.2 (okOr_eq_ok.1 halign)

theorem placeChunks_scalar {body : WitnessBody} (hlen : group.chunkBlockRanges.length = numChunks)
    (h : (range numChunks).foldlM (placeChunk lp numChunks [group]) ⟨0, [], []⟩ = .ok body) :
    group.chunkBlockRanges.foldlM (RelationLevelParams.scalarChunk lp numChunks group.params group.roleDims group.openingGeometry
      group.numClaims) 0 = .ok body.cursor := by
  have hrun : Simulates (fun (b : WitnessBody) (cursor : ℕ) => b.cursor = cursor)
      ((range numChunks).foldlM (placeChunk lp numChunks [group]) ⟨0, [], []⟩)
      ((range numChunks).foldlM (fun cursor chunkIndex => do
        let blocks ← okOr group.chunkBlockRanges[chunkIndex]? (.invalidSetup "witness chunk is missing")
        RelationLevelParams.scalarChunk lp numChunks group.params group.roleDims group.openingGeometry group.numClaims cursor blocks) 0) := by
    refine Simulates.foldlM ?_ rfl
    rintro chunkIndex hchunk b _ rfl b' hb'
    have hlt : chunkIndex < group.chunkBlockRanges.length := hlen ▸ mem_range.1 hchunk
    have hget := getElem?_eq_getElem hlt
    exact ⟨b'.cursor, bind_eq_ok.2 ⟨_, okOr_eq_ok.2 hget, placeChunk_scalar hget hb'⟩, rfl⟩
  obtain ⟨cursor, hcursor, rfl⟩ := hrun body h
  have hrange : range numChunks = range group.chunkBlockRanges.length := by rw [hlen]
  rw [hrange, foldlM_range_getElem group.chunkBlockRanges] at hcursor
  · exact hcursor
  · intro i blocks hblocks s
    rw [hblocks]
    rfl

theorem rootGroupOrder_single {order : List ℕ} (hgroups : batch.numGroups = 1) (h : batch.rootGroupOrder = .ok order) :
    order = [0] ∧ batch.rootFinalGroupIndex = .ok 0 := by
  obtain ⟨final, hfinal, h⟩ := bind_eq_ok.1 h
  cases h
  have hzero : final = 0 := by
    obtain ⟨_, _, hfinal⟩ := bind_eq_ok.1 hfinal
    obtain ⟨-, rfl⟩ := checkedSub_eq_some.1 (okOr_eq_ok.1 hfinal)
    rw [OpeningClaimsLayout.numGroups] at hgroups
    omega
  subst hzero
  refine ⟨?_, hfinal⟩
  rw [hgroups]
  rfl

theorem scalarParams_eq {params : GroupOpenPhaseParams} (hprec : lp.preceding = [])
    (h : level.groupParamsGeometry lp batch 0 = .ok params) : params = lp.ownGroup := by
  obtain ⟨_, _, h⟩ := bind_eq_ok.1 h
  have hget := okOr_eq_ok.1 h
  rw [hprec] at hget
  exact (Option.some.inj hget).symm

theorem scalarDims_eq {dims : CommitmentRingDims} (hfinal : batch.rootFinalGroupIndex = .ok 0)
    (h : level.groupRoleDimsGeometry lp batch 0 = .ok dims) : dims = lp.ownGroup.roleDims lp.openRingDimension := by
  obtain ⟨final, hvalid, h⟩ := bind_eq_ok.1 h
  have hzero : final = 0 := by
    unfold RelationLevelParams.validateOpeningBatchGeometry at hvalid
    simp only [bind_eq_ok] at hvalid
    obtain ⟨_, _, _, _, _, _, _, _, _, _, hvalid⟩ := hvalid
    exact Except.ok.inj (hvalid.symm.trans hfinal)
  obtain ⟨dims', hdims', h⟩ := bind_eq_ok.1 h
  rw [hzero, if_pos rfl] at hdims'
  obtain ⟨_, _, h⟩ := bind_eq_ok.1 h
  rw [← pure_eq_ok.1 h]
  exact (Except.ok.inj hdims').symm

/-- The view of the single group is made of what the planner resolves. -/
theorem scalarGroup_eq {groups : List GroupGeometry} {claims : PolynomialGroupLayout} {opening : RelationRowGeometry}
    (hgroups : [0].mapM (groupGeometry lp batch geometry numChunks 0) = .ok groups) (hclaims : batch.groupLayout 0 = .ok claims)
    (hopen : geometry.groupOpeningGeometry 0 = .ok opening) (hranges : lp.witnessBlockRanges 0 numChunks = .ok ranges) :
    ∃ group, groups = [group] ∧
      group = ⟨0, lp.ownGroup, lp.ownGroup.roleDims lp.openRingDimension, opening, claims.numPolynomials, ranges⟩ := by
  rw [mapM_cons] at hgroups
  simp only [bind_eq_ok] at hgroups
  obtain ⟨group, hgroup, rest, hrest, hgroups⟩ := hgroups
  cases hrest
  cases hgroups
  refine ⟨group, rfl, ?_⟩
  unfold groupGeometry groupParams at hgroup
  rw [if_pos rfl] at hgroup
  obtain ⟨entry, hentry, hgroup⟩ := bind_eq_ok.1 hgroup
  cases hentry
  obtain ⟨_, _, hgroup⟩ := bind_eq_ok.1 hgroup
  obtain ⟨claims', hclaims', hgroup⟩ := bind_eq_ok.1 hgroup
  obtain rfl : claims' = claims := Except.ok.inj (hclaims'.symm.trans hclaims)
  obtain ⟨opening', hopen', hgroup⟩ := bind_eq_ok.1 hgroup
  obtain rfl : opening' = opening := Except.ok.inj (hopen'.symm.trans hopen)
  simp only [bind_eq_ok] at hgroup
  obtain ⟨_, _, ranges', hranges', hgroup⟩ := hgroup
  obtain rfl : ranges' = ranges := Except.ok.inj (hranges'.symm.trans hranges)
  exact (pure_eq_ok.1 hgroup).symm

structure ScalarMeasured (level : RelationLevelParams) (lp : CommittedGroupParams) (batch : OpeningClaimsLayout)
    (geometry : RelationWitnessGeometry) (numChunks : ℕ) (plan : RelationQuotientPlan) (len : ℕ) : Prop where
  single : batch.numGroups = 1
  order : batch.rootGroupOrder = .ok [0]
  final : batch.rootFinalGroupIndex = .ok 0
  measured : ∃ claims opening ranges cursor suffix, batch.groupLayout 0 = .ok claims ∧
    geometry.groupOpeningGeometry 0 = .ok opening ∧ lp.witnessBlockRanges 0 numChunks = .ok ranges ∧
    ranges.foldlM (RelationLevelParams.scalarChunk lp numChunks lp.ownGroup (lp.ownGroup.roleDims lp.openRingDimension) opening
      claims.numPolynomials) 0 = .ok cursor ∧
    geometry.rhsLayout.relationCoefficientBlockLen = .ok suffix ∧ measure lp geometry 1 suffix cursor plan = .ok len

theorem scalarLiveCoeffLen_spec {extensionDegree len : ℕ}
    (h : level.scalarLiveCoeffLen lp batch extensionDegree numChunks plan = .ok len) :
    ∃ geometry, level.forLevel lp batch extensionDegree = .ok geometry ∧ ScalarMeasured level lp batch geometry numChunks plan len := by
  obtain ⟨_, hone, h⟩ := bind_eq_ok.1 h
  have hone := ensure_eq_ok.1 hone
  obtain ⟨_, hprec, h⟩ := bind_eq_ok.1 h
  have hprec := length_eq_zero_iff.1 (ensure_eq_ok.1 hprec)
  obtain ⟨_, _, h⟩ := bind_eq_ok.1 h
  obtain ⟨_, _, h⟩ := bind_eq_ok.1 h
  obtain ⟨geometry, hgeom, h⟩ := bind_eq_ok.1 h
  obtain ⟨order, horder, h⟩ := bind_eq_ok.1 h
  obtain ⟨rfl, hfinal⟩ := rootGroupOrder_single hone horder
  obtain ⟨groupIndex, hindex, h⟩ := bind_eq_ok.1 h
  obtain rfl : groupIndex = 0 := (Option.some.inj (okOr_eq_ok.1 hindex)).symm
  obtain ⟨params, hparams, h⟩ := bind_eq_ok.1 h
  obtain rfl := scalarParams_eq hprec hparams
  obtain ⟨claims, hclaims, h⟩ := bind_eq_ok.1 h
  obtain ⟨dims, hdims, h⟩ := bind_eq_ok.1 h
  obtain rfl := scalarDims_eq hfinal hdims
  simp only [bind_eq_ok] at h
  obtain ⟨opening, hopen, _, _, ranges, hranges, cursor, hcursor, suffix, hsuffix, h⟩ := h
  exact ⟨geometry, hgeom, hone, horder, hfinal, claims, opening, ranges, cursor, suffix, hclaims, hopen, hranges, hcursor,
    hsuffix, h⟩

/-- **The scalar length is the live length of the layout**, for a level on which both succeed; and a tail is measured to
the end of its materialization at every start. -/
theorem scalarLiveCoeffLen_eq (level : RelationLevelParams) (lp : CommittedGroupParams) (batch : OpeningClaimsLayout)
    (numChunks : ℕ) (plan : RelationQuotientPlan) :
    (∀ (geometry : RelationWitnessGeometry) (layout : WitnessLayout) (len : ℕ),
      WitnessLayout.new lp batch geometry numChunks level.forLevel plan = .ok layout →
      level.scalarLiveCoeffLen lp batch geometry.extensionDegree numChunks plan = .ok len → len = layout.liveCoeffLen) ∧
    ∀ (geometry : RelationWitnessGeometry) (numGroups successorAAlignment start : ℕ) (tail : MaterializedWitnessTail),
      materialize lp geometry.rhsLayout numGroups plan successorAAlignment start = .ok tail →
      measure lp geometry numGroups successorAAlignment start plan = .ok tail.stop := by
  refine ⟨?_, fun geometry numGroups successorAAlignment start tail => measure_materialize lp numGroups plan⟩
  intro geometry layout len hnew hscalar
  obtain ⟨geometry', hgeometry', hmeasured⟩ := scalarLiveCoeffLen_spec hscalar
  obtain ⟨claims, opening, ranges, cursor, suffix, hclaims, hopening, hranges, hcursor, hsuffix, hlen⟩ := hmeasured.measured
  obtain ⟨_, _, hnew⟩ := bind_eq_ok.1 hnew
  obtain ⟨_, _, hnew⟩ := bind_eq_ok.1 hnew
  obtain ⟨expected, hexpected, hnew⟩ := bind_eq_ok.1 hnew
  obtain ⟨_, hsame, hnew⟩ := bind_eq_ok.1 hnew
  have hgeometry : geometry' = geometry := (Except.ok.inj (hgeometry'.symm.trans hexpected)).trans (ensure_eq_ok.1 hsame)
  rw [hgeometry] at hopening hsuffix hlen
  rw [hmeasured.order, hmeasured.final] at hnew
  simp only [ok_bind] at hnew
  simp only [bind_eq_ok] at hnew
  obtain ⟨_, _, groups, hgroups, body, hbody, suffix', hsuffix', tail, htail, block, hblock, hnew⟩ := hnew
  have hlayout := pure_eq_ok.1 hnew
  obtain ⟨group, rfl, rfl⟩ := scalarGroup_eq hgroups hclaims hopening hranges
  have hblocks := placeChunks_scalar (witnessBlockRanges_length hranges) hbody
  obtain rfl : cursor = body.cursor := Except.ok.inj (hcursor.symm.trans hblocks)
  have hsuffix'' : suffix' = suffix := by
    rw [successorAAlignment, if_neg (by rw [hmeasured.single]; omega), hsuffix] at hsuffix'
    exact (Except.ok.inj hsuffix').symm
  rw [hmeasured.single, hsuffix''] at htail
  rw [measure_materialize lp 1 plan htail] at hlen
  rw [← hlayout]
  exact (Except.ok.inj hlen).symm

end scalar

theorem toBool_ok {α : Type} {r : Result α} (h : r.toBool = true) : ∃ a, r = .ok a := by
  cases r with
  | error e => cases h
  | ok a => exact ⟨a, rfl⟩

def singleLevel : CommittedGroupParams := ⟨[], sampleGroup, 64, .compressed, .quotientLift, some 1024, []⟩

def singleBatch : OpeningClaimsLayout := ⟨[⟨9, 1⟩]⟩

def singleGeometry : RelationWitnessGeometry := ⟨1, ⟨64, 1, [sampleRows 0], some ⟨[0], [sampleChain], sampleChain⟩⟩⟩

theorem scalarLiveCoeffLen_two_chunks : ∃ layout len,
    WitnessLayout.new singleLevel singleBatch singleGeometry 2 sampleLevelParams.forLevel (.quotientLift 43) = .ok layout ∧
      sampleLevelParams.scalarLiveCoeffLen singleLevel singleBatch 1 2 (.quotientLift 43) = .ok len ∧ len = layout.liveCoeffLen := by
  have hnew : (WitnessLayout.new singleLevel singleBatch singleGeometry 2 sampleLevelParams.forLevel (.quotientLift 43)).toBool = true := by
    decide +kernel
  have hscalar : (sampleLevelParams.scalarLiveCoeffLen singleLevel singleBatch 1 2 (.quotientLift 43)).toBool = true := by
    decide +kernel
  obtain ⟨layout, hlayout⟩ := toBool_ok hnew
  obtain ⟨len, hlen⟩ := toBool_ok hscalar
  exact ⟨layout, len, hlayout, hlen, (scalarLiveCoeffLen_eq sampleLevelParams singleLevel singleBatch 2 (.quotientLift 43)).1
    singleGeometry layout len hlayout hlen⟩

end Akita.Witness
