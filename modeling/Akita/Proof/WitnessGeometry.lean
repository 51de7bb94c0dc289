import Akita.Proof.WitnessIndex
import Akita.Proof.WitnessLayout
import Akita.Proof.RelationRows

/-!
# What the emission relies on in a layout

Beyond the partition: the addresses are `usize` values, the units lie in the order of their list and so do the spans
of a layout without quotients, the rows have the widths of checked geometries, and a layer has one span for each of
its groups.
-/

namespace Akita.Witness

open Lib List

/-! ## The relation geometry of a level -/

section

variable {level : RelationLevelParams} {lp : CommittedGroupParams} {batch : OpeningClaimsLayout} {extensionDegree : ℕ}

theorem openingRowGeometry_wellFormed {dA : ℕ} {method : OpeningMethod} {encoding : CommittedSourceEncoding}
    {geometry : RelationRowGeometry} (h : level.openingRowGeometry dA method encoding extensionDegree = .ok geometry) :
    geometry.WellFormed := by
  unfold RelationLevelParams.openingRowGeometry at h
  split at h
  · split at h
    · cases h
    · exact RelationRowGeometry.new_wellFormed h
  · exact RelationRowGeometry.new_wellFormed h
  · obtain ⟨_, -, h⟩ := bind_eq_ok.1 h
    exact RelationRowGeometry.new_wellFormed h
  · cases h

structure RelationRhsLayout.OfLevel (rhs : RelationRhsLayout) : Prop where
  geometry : ∀ group ∈ rhs.groups, group.openingGeometry.WellFormed
  nodup : ∀ compression, rhs.compression = some compression → compression.groupIndices.Nodup

/-- **The relation layout of a level** has checked geometries and every group once. -/
theorem forLevel_ofLevel {geometry : RelationWitnessGeometry} (h : level.forLevel lp batch extensionDegree = .ok geometry) :
    geometry.rhsLayout.OfLevel := by
  simp only [RelationLevelParams.forLevel, result_ok] at h
  obtain ⟨-, rhs, hrhs, rfl⟩ := h
  have hbuilt := buildRelationRhsLayout_ok hrhs
  constructor
  · intro group hgroup
    obtain ⟨g, hg, rfl⟩ := mem_map.1 (hbuilt.groups ▸ hgroup)
    obtain ⟨opening, hopen⟩ := hbuilt.openings g hg
    rw [rowsAt_of_ok hopen]
    exact openingRowGeometry_wellFormed hopen
  · intro compression hcomp
    rw [hbuilt.indices compression hcomp]
    exact nodup_cons.2 ⟨not_mem_range_self, nodup_range⟩

theorem nativeGeometry_wellFormed {d : ℕ} (hd : 0 < d) : (nativeGeometry d).WellFormed := ⟨hd, (mul_one d).symm⟩

/-- **Every relation row has a checked geometry.** -/
theorem rowFamilies_wellFormed {families : List RelationRowFamily} {rhs : RelationRhsLayout} (hrhs : rhs.OfLevel)
    (h : rhs.rowFamilies = .ok families) : ∀ row ∈ families, row.geometry.WellFormed := by
  obtain ⟨-, hD, hdims⟩ := validate_ok (rowFamilies_valid h)
  intro row hrow
  rw [rowFamilies_eq h, mem_append, mem_append] at hrow
  rcases hrow with (hrow | hrow) | hrow
  · obtain ⟨group, hgroup, hrow⟩ := mem_flatMap.1 hrow
    obtain ⟨hinner, houter, -⟩ := validateRoleProjection_ok (hdims group hgroup).1
    rcases RelationGroupRows.geometry_rows hrow with hgeom | hgeom | hgeom
    · exact hgeom ▸ hrhs.geometry group hgroup
    · exact hgeom ▸ nativeGeometry_wellFormed hinner
    · exact hgeom ▸ nativeGeometry_wellFormed houter
  · obtain ⟨_, -, rfl⟩ := mem_map.1 hrow
    exact nativeGeometry_wellFormed hD
  · unfold RelationRhsLayout.compressionRows at hrow
    split at hrow
    · cases hrow
    · obtain ⟨m, -, hrow⟩ := mem_flatMap.1 hrow
      rcases mem_append.1 hrow with hrow | hrow
      · obtain ⟨entry, -, rfl⟩ := mem_map.1 hrow
        exact nativeGeometry_wellFormed (Nat.pos_of_isPowerOfTwo (entry.2.maps m).isPow2)
      · rw [mem_singleton.1 hrow]
        exact nativeGeometry_wellFormed (Nat.pos_of_isPowerOfTwo (CompressionMapPlan.isPow2 _))

end

/-! ## The tail -/

section sink

variable {sink s s' t : MaterializingTailSink} {alignment : ℕ} {made : List (Fin compressionMapCount)}
  {tail : MaterializedWitnessTail}

/-- Between `s` and `t` no span was placed, and the addresses stay `usize` values. -/
structure KeepsSpans (s t : MaterializingTailSink) : Prop where
  layers : t.compressionLayers = s.compressionLayers
  fSpans : t.currentFSpans = s.currentFSpans
  hSpan : t.currentHSpan = s.currentHSpan
  grows : s.cursor ≤ t.cursor
  fits : s.cursor < 2 ^ 64 → t.cursor < 2 ^ 64

theorem KeepsSpans.refl (s : MaterializingTailSink) : KeepsSpans s s := ⟨rfl, rfl, rfl, le_rfl, id⟩

theorem KeepsSpans.trans (h : KeepsSpans s s') (h' : KeepsSpans s' t) : KeepsSpans s t :=
  ⟨h'.layers.trans h.layers, h'.fSpans.trans h.fSpans, h'.hSpan.trans h.hSpan, h.grows.trans h'.grows, h'.fits ∘ h.fits⟩

theorem KeepsSpans.foldlM {α : Type} {step : MaterializingTailSink → α → Result MaterializingTailSink} {l : List α}
    (hstep : ∀ s x s', step s x = .ok s' → KeepsSpans s s') (h : l.foldlM step s = .ok t) : KeepsSpans s t :=
  foldlM_inv (P := KeepsSpans s) (fun _ x _ _ hs hx => hs.trans (hstep _ x _ hx)) (.refl s) h

theorem alignUp_fits {value aligned : ℕ} (h : alignUp value alignment = some aligned) (hvalue : value < 2 ^ 64) :
    aligned < 2 ^ 64 := by
  unfold alignUp at h
  split at h
  · simp at h
  · split at h
    · rwa [← Option.some.inj h]
    · obtain ⟨hlt, rfl⟩ := checkedAdd_eq_some.1 h
      exact hlt

theorem align_keeps {overflow : String} (h : sink.align alignment overflow = .ok s') : KeepsSpans sink s' := by
  obtain ⟨hup, hs'⟩ := align_spec h
  obtain ⟨-, -, hle, -⟩ := alignUp_spec hup
  have hfits := alignUp_fits hup
  rw [hs']
  exact ⟨rfl, rfl, rfl, hle, hfits⟩

theorem placeQuotientRow_keeps {rowIndex : ℕ} {geometry : RelationRowGeometry} {depth : ℕ+} {wide far : String}
    (h : sink.placeQuotientRow rowIndex geometry depth wide far = .ok s') : KeepsSpans sink s' := by
  simp only [MaterializingTailSink.placeQuotientRow, result_ok] at h
  obtain ⟨len, -, range, hrange, -, rfl⟩ := h
  obtain ⟨hlt, rfl⟩ := witnessRange_spec hrange
  exact ⟨rfl, rfl, rfl, Nat.le_add_right _ _, fun _ => hlt⟩

variable {layout : RelationRhsLayout} {numGroups : ℕ} {mapIndex : Fin compressionMapCount} {plan : RelationQuotientPlan}
  {families : List RelationRowFamily}

theorem placeOrdinary_keeps (h : placeOrdinary plan families sink = .ok s') : KeepsSpans sink s' := by
  unfold placeOrdinary at h
  split at h
  · rw [← Except.ok.inj h]
    exact .refl sink
  · have hrows := KeepsSpans.foldlM (fun _ _ _ hrow => placeQuotientRow_keeps hrow) h
    exact ⟨hrows.layers, hrows.fSpans, hrows.hSpan, hrows.grows, hrows.fits⟩

theorem placeLayerQuotientRows_keeps {row : Option ℕ}
    (h : placeLayerQuotientRows layout numGroups plan families mapIndex sink = .ok (s', row)) : KeepsSpans sink s' := by
  unfold placeLayerQuotientRows at h
  split at h
  · rw [(Prod.mk.inj (Except.ok.inj h)).1]
    exact .refl s'
  · simp only [result_ok, Prod.mk.injEq, Prod.exists] at h
    obtain ⟨s₁, hf, _, _, -, _, -, s₂, hh, rfl, -⟩ := h
    refine (KeepsSpans.foldlM ?_ hf).trans (placeQuotientRow_keeps hh)
    intro s g s' hstep
    simp only [placeFQuotientRow, result_ok, Prod.exists] at hstep
    obtain ⟨_, _, -, _, _, -, _, _, -, -, placed, hplaced, rfl⟩ := hstep
    have hkeeps := placeQuotientRow_keeps hplaced
    exact ⟨hkeeps.layers, hkeeps.fSpans, hkeeps.hSpan, hkeeps.grows, hkeeps.fits⟩

def RelationRhsLayout.compressedGroups (layout : RelationRhsLayout) : List ℕ := (layout.compression.map (·.groupIndices)).getD []

/-- **The F spans** have the groups of the compression layout, in their order. -/
theorem placeFSpans_keys (h : placeFSpans layout numGroups mapIndex sink = .ok s') :
    s'.currentFSpans.map (·.1) = sink.currentFSpans.map (·.1) ++ layout.compressedGroups.take numGroups ∧
      (sink.cursor < 2 ^ 64 → s'.cursor < 2 ^ 64) := by
  have hrule := foldlM_passes (P := fun (made : List ℕ) (s : MaterializingTailSink) =>
    s.currentFSpans.map (·.1) = sink.currentFSpans.map (·.1) ++ layout.compressedGroups.take made.length ∧
      (sink.cursor < 2 ^ 64 → s.cursor < 2 ^ 64)) ?_ ⟨by simp, id⟩ h
  · simpa using hrule
  · intro made g rest s s' hl hmade hstep
    obtain rfl := eq_length_of_range hl
    simp only [RelationRhsLayout.groupCompressionPlan, MaterializingTailSink.placeFSpan, result_ok, Prod.exists,
      Prod.mk.injEq] at hstep
    obtain ⟨_, _, ⟨compression, hcomp, groupIndex, hindex, _, -, rfl, rfl⟩, range, hrange, rfl⟩ := hstep
    obtain ⟨hlt, rfl⟩ := witnessRange_spec hrange
    have hkey : layout.compressedGroups[made.length]? = some groupIndex := by
      rw [RelationRhsLayout.compressedGroups, hcomp]
      exact hindex
    refine ⟨?_, fun _ => hlt⟩
    rw [map_append, hmade.1, length_append, length_singleton, take_add_one, hkey, append_assoc]
    rfl

structure SpansPlaced (keys : List ℕ) (made : List (Fin compressionMapCount)) (sink : MaterializingTailSink) : Prop where
  fits : sink.cursor < 2 ^ 64
  idle : sink.currentFSpans = []
  indices : sink.compressionLayers.map (·.mapIndex) = made.map Fin.val
  keys : ∀ layer ∈ sink.compressionLayers, layer.fSpans.map (·.1) = keys
  order : (sink.compressionLayers.flatMap layerRanges).Pairwise fun s t => s.stop ≤ t.start
  below : ∀ s ∈ sink.compressionLayers.flatMap layerRanges, s.stop ≤ sink.cursor

theorem SpansPlaced.keep {keys : List ℕ} (hinv : SpansPlaced keys made s) (h : KeepsSpans s t) : SpansPlaced keys made t := by
  obtain ⟨hfits, hidle, hindices, hkeys, horder, hbelow⟩ := hinv
  refine ⟨h.fits hfits, h.fSpans.trans hidle, ?_, ?_, ?_, ?_⟩ <;> rw [h.layers]
  · exact hindices
  · exact hkeys
  · exact horder
  · exact fun s hs => (hbelow s hs).trans h.grows

theorem placeHSpan_fits {map : CompressionMapPlan} (h : sink.placeHSpan map = .ok s') : s'.cursor < 2 ^ 64 := by
  obtain ⟨range, hrange, h⟩ := bind_eq_ok.1 h
  obtain ⟨hlt, rfl⟩ := witnessRange_spec hrange
  rw [← pure_eq_ok.1 h]
  exact hlt

/-- **One layer** lists its spans, after those of the layers before it. -/
theorem SpansPlaced.layer (hinv : SpansPlaced (layout.compressedGroups.take numGroups) made sink)
    (h : placeLayer layout numGroups plan families sink mapIndex = .ok s') :
    SpansPlaced (layout.compressedGroups.take numGroups) (made ++ [mapIndex]) s' := by
  obtain ⟨alignment, -, h⟩ := bind_eq_ok.1 h
  obtain ⟨s1, h1, h⟩ := bind_eq_ok.1 h
  obtain ⟨s2, h2, h⟩ := bind_eq_ok.1 h
  obtain ⟨opening, -, h⟩ := bind_eq_ok.1 h
  obtain ⟨s3, h3, h⟩ := bind_eq_ok.1 h
  obtain ⟨⟨s4, hRow⟩, h4, h⟩ := bind_eq_ok.1 h
  unfold MaterializingTailSink.finishCompressionLayer at h
  simp only [bind_eq_ok] at h
  obtain ⟨hSpan, hspan, _, -, h⟩ := h
  have hspan := okOr_eq_ok.1 hspan
  have hinv1 := hinv.keep (align_keeps h1)
  obtain ⟨fs, hs2, htiles, -, -⟩ := placeFSpans_spec h2
  obtain ⟨hkeys, -⟩ := placeFSpans_keys h2
  have hs3 := placeHSpan_spec h3
  have hkeep := placeLayerQuotientRows_keeps h4
  rw [hinv1.idle] at hs2 hkeys
  have hcur : s4.currentFSpans = fs := by rw [hkeep.fSpans, hs3, hs2]; rfl
  have hfs : fs.map (·.1) = layout.compressedGroups.take numGroups := by rw [hs2] at hkeys; exact hkeys
  have hlayers : s4.compressionLayers = s1.compressionLayers := by rw [hkeep.layers, hs3, hs2]
  have hh : hSpan = ⟨opening.maps mapIndex, ⟨s2.cursor, s3.cursor⟩⟩ := by
    have hh4 : s4.currentHSpan = some ⟨opening.maps mapIndex, ⟨s2.cursor, s3.cursor⟩⟩ := by rw [hkeep.hSpan, hs3]
    exact Option.some.inj (hspan.symm.trans hh4)
  have hcursor : s2.cursor ≤ s3.cursor := by rw [hs3]; exact Nat.le_add_right _ _
  have hspans : Tiles s1.cursor (fs.map (·.2.range) ++ [hSpan.range]) s3.cursor := by
    rw [hh]
    exact htiles.concat rfl hcursor
  have hranges : ∀ row, layerRanges ⟨mapIndex, fs, hSpan, row, hRow⟩ = fs.map (·.2.range) ++ [hSpan.range] := by
    intro row
    simp [layerRanges, WitnessLayout.layerSpans, map_map, Function.comp_def]
  rw [← pure_eq_ok.1 h, hcur, hlayers]
  constructor
  · exact hkeep.fits (placeHSpan_fits h3)
  · rfl
  · rw [map_append, map_append, hinv1.indices]
    rfl
  · intro layer hlayer
    rcases mem_append.1 hlayer with hlayer | hlayer
    · exact hinv1.keys layer hlayer
    · rw [mem_singleton.1 hlayer]
      exact hfs
  · -- the layers before end where this one starts, or earlier
    rw [flatMap_append, flatMap_singleton, hranges]
    refine pairwise_append.2 ⟨hinv1.order, hspans.pairwise, fun s hs t ht => ?_⟩
    exact (hinv1.below s hs).trans (hspans.bounds t ht).1
  · rw [flatMap_append, flatMap_singleton, hranges]
    intro s hs
    have hend : s3.cursor ≤ s4.cursor := hkeep.grows
    rcases mem_append.1 hs with hs | hs
    · exact (hinv1.below s hs).trans (hspans.le.trans hend)
    · exact (hspans.bounds s hs).2.2.trans hend

structure TailSpans (layout : RelationRhsLayout) (tail : MaterializedWitnessTail) : Prop where
  fits : tail.stop < 2 ^ 64
  indices : ∀ (i : ℕ) (layer : CompressionWitnessLayerLayout), tail.compressionLayers[i]? = some layer → layer.mapIndex = i
  keys : ∀ layer ∈ tail.compressionLayers, (layer.fSpans.map (·.1)).Sublist layout.compressedGroups
  order : (tail.compressionLayers.flatMap layerRanges).Pairwise fun s t => s.stop ≤ t.start

theorem SpansPlaced.finish {n : ℕ} (hinv : SpansPlaced (layout.compressedGroups.take n) made sink)
    (hmade : made <+: finRange compressionMapCount) (h : sink.finish plan = .ok tail) : TailSpans layout tail := by
  obtain ⟨quotients, -, h⟩ := bind_eq_ok.1 h
  rw [← pure_eq_ok.1 h]
  refine ⟨hinv.fits, fun i layer hlayer => ?_, fun layer hlayer => ?_, hinv.order⟩
  · have hindex := congrArg (·[i]?) hinv.indices
    simp only [List.getElem?_map, hlayer, Option.map_some] at hindex
    obtain ⟨mapIndex, hmapIndex, heq⟩ := Option.map_eq_some_iff.1 hindex.symm
    obtain ⟨rest, hrest⟩ := hmade
    have hfin : (finRange compressionMapCount)[i]? = some mapIndex := by
      rw [← hrest, List.getElem?_append_left (List.getElem?_eq_some_iff.1 hmapIndex).1, hmapIndex]
    obtain ⟨hlt, hfin⟩ := List.getElem?_eq_some_iff.1 hfin
    rw [← heq, ← hfin]
    simp
  · rw [hinv.keys layer hlayer]
    exact List.take_sublist _ _

/-- **The tail** places its spans in the order of the layers. -/
theorem materialize_spans {params : CommittedGroupParams} {suffixAlignment start : ℕ} (hstart : start < 2 ^ 64)
    (h : materialize params layout numGroups plan suffixAlignment start = .ok tail) : TailSpans layout tail := by
  unfold materialize at h
  simp only [bind_eq_ok] at h
  obtain ⟨_, -, _, -, families, -, sink, hsink, h⟩ := h
  have hnew : SpansPlaced (layout.compressedGroups.take numGroups) [] (.new start) :=
    ⟨hstart, rfl, rfl, by simp [MaterializingTailSink.new], by simp [MaterializingTailSink.new], by simp [MaterializingTailSink.new]⟩
  have hord := hnew.keep (placeOrdinary_keeps hsink)
  split at h
  · obtain ⟨last, hlast, h⟩ := bind_eq_ok.1 h
    unfold placeCompression at hlast
    simp only [bind_eq_ok] at hlast
    obtain ⟨block, -, s1, h1, s2, h2, hlast⟩ := hlast
    have hlayers := foldlM_passes (P := SpansPlaced (layout.compressedGroups.take numGroups))
      (fun made x rest s s' _ hs hx => hs.layer hx) (hord.keep (align_keeps h1)) h2
    exact (hlayers.keep (align_keeps hlast)).finish (prefix_refl _) h
  · exact hord.finish ⟨_, rfl⟩ h

end sink

/-! ## The body -/

section

variable {lp : CommittedGroupParams} {batch : OpeningClaimsLayout} {geometry : RelationWitnessGeometry} {numChunks chunkIndex : ℕ}
  {body body' : WitnessBody} {groups : List GroupGeometry} {group : GroupGeometry}

structure GroupOk (lp : CommittedGroupParams) (batch : OpeningClaimsLayout) (final : ℕ) (group : GroupGeometry) : Prop where
  params : groupParams lp final group.groupIndex = .ok (group.params, group.roleDims)
  claims : ∃ polynomials, batch.groupLayout group.groupIndex = .ok polynomials ∧ polynomials.numPolynomials = group.numClaims
  positive : group.numClaims ≠ 0
  inner : 0 < group.roleDims.inner
  geometry : group.openingGeometry.WellFormed

theorem groupGeometry_ok {final i : ℕ} (hrhs : geometry.rhsLayout.OfLevel)
    (h : groupGeometry lp batch geometry numChunks final i = .ok group) : GroupOk lp batch final group := by
  simp only [groupGeometry, RelationWitnessGeometry.groupOpeningGeometry, result_ok, Prod.exists, not_or] at h
  obtain ⟨params, dims, hparams, hdims, polynomials, hpolys, opening, hopen, hdimensions, _, -, rfl⟩ := h
  obtain ⟨rows, hrows, rfl⟩ := Option.map_eq_some_iff.1 hopen
  exact ⟨hparams, ⟨polynomials, hpolys, rfl⟩, hdimensions.1, (validateRoleProjection_ok hdims).1,
    hrhs.geometry rows (mem_of_find?_eq_some hrows)⟩

structure UnitOf (lp : CommittedGroupParams) (batch : OpeningClaimsLayout) (final : ℕ) (u : WitnessUnitLayout)
    (params : GroupOpenPhaseParams) (dims : CommitmentRingDims) (polynomials : PolynomialGroupLayout) : Prop where
  paramsOk : groupParams lp final u.groupIndex = .ok (params, dims)
  claimsOk : batch.groupLayout u.groupIndex = .ok polynomials
  positive : polynomials.numPolynomials ≠ 0
  inner : 0 < dims.inner
  geometry : u.eGeometry.WellFormed
  z : u.zRange.len = params.numPositionsPerBlock * params.numDigitsInner * params.numDigitsFold * dims.inner
  e : u.eRange.len = polynomials.numPolynomials * u.numLiveBlocks * params.numDigitsOpen * u.eGeometry.physicalCoefficientWidth
  t : u.tRange.len = polynomials.numPolynomials * u.numLiveBlocks * params.aRowsLen * params.numDigitsOuter * dims.inner

theorem witnessUnitLengths_spec {params : GroupOpenPhaseParams} {roleDims : CommitmentRingDims} {opening : RelationRowGeometry}
    {claims blocks zLen eLen tLen : ℕ} (h : witnessUnitLengths params roleDims opening claims blocks = .ok (zLen, eLen, tLen)) :
    zLen = params.numPositionsPerBlock * params.numDigitsInner * params.numDigitsFold * roleDims.inner ∧
      eLen = claims * blocks * params.numDigitsOpen * opening.physicalCoefficientWidth ∧
      tLen = claims * blocks * params.aRowsLen * params.numDigitsOuter * roleDims.inner := by
  simp only [witnessUnitLengths, Checked.product, foldlM_cons, foldlM_nil, result_ok, option_some,
    checked_some, Prod.mk.injEq, one_mul] at h
  obtain ⟨_, ⟨_, ⟨-, rfl⟩, _, ⟨-, rfl⟩, _, ⟨-, rfl⟩, rfl⟩, _, ⟨-, rfl⟩, _, ⟨_, ⟨-, rfl⟩, _, ⟨-, rfl⟩, _, ⟨-, rfl⟩, rfl⟩, _, ⟨-, rfl⟩, _,
    ⟨_, ⟨-, rfl⟩, _, ⟨-, rfl⟩, _, ⟨-, rfl⟩, _, ⟨-, rfl⟩, _, ⟨-, rfl⟩, rfl⟩, rfl, rfl, rfl⟩ := h
  exact ⟨rfl, rfl, rfl⟩

structure UnitsPlaced (lp : CommittedGroupParams) (batch : OpeningClaimsLayout) (final : ℕ) (body : WitnessBody) : Prop where
  fits : body.cursor < 2 ^ 64
  order : (body.units.flatMap unitRanges).Pairwise fun s t => s.stop ≤ t.start
  below : ∀ s ∈ body.units.flatMap unitRanges, s.stop ≤ body.cursor
  units : ∀ u ∈ body.units, ∃ params dims polynomials, UnitOf lp batch final u params dims polynomials

variable {final : ℕ}

/-- **One unit** follows the units before it. -/
theorem UnitsPlaced.unit (hinv : UnitsPlaced lp batch final body) (hgroup : GroupOk lp batch final group)
    (h : placeUnit chunkIndex body group = .ok body') : UnitsPlaced lp batch final body' := by
  obtain ⟨u, hbody', htiles, -⟩ := placeUnit_spec h
  simp only [placeUnit, result_ok, Prod.exists] at h
  obtain ⟨blocks, -, zLen, eLen, tLen, hlens, z, hz, e, he, t, ht, hbody⟩ := h
  obtain ⟨-, rfl⟩ := witnessRange_spec hz
  obtain ⟨-, rfl⟩ := witnessRange_spec he
  obtain ⟨hlt, rfl⟩ := witnessRange_spec ht
  rw [hbody'] at hbody
  obtain ⟨hstop, hunits, -⟩ := WitnessBody.mk.inj hbody
  have hu := (append_cancel_left hunits).symm
  simp only [List.cons.injEq, and_true] at hu
  subst hu
  rw [hbody']
  constructor
  · exact hlt
  · rw [flatMap_append, flatMap_singleton]
    refine pairwise_append.2 ⟨hinv.order, htiles.pairwise, fun s hs t ht => ?_⟩
    exact (hinv.below s hs).trans (htiles.bounds t ht).1
  · intro s hs
    rw [flatMap_append, flatMap_singleton] at hs
    rcases mem_append.1 hs with hs | hs
    · exact (hinv.below s hs).trans htiles.le
    · exact (htiles.bounds s hs).2.2
  · intro v hv
    rcases mem_append.1 hv with hv | hv
    · exact hinv.units v hv
    · rw [mem_singleton.1 hv]
      obtain ⟨rfl, rfl, rfl⟩ := witnessUnitLengths_spec hlens
      obtain ⟨polynomials, hpolys, hclaims⟩ := hgroup.claims
      refine ⟨group.params, group.roleDims, polynomials, hgroup.params, hpolys, ?_, hgroup.inner, hgroup.geometry, ?_, ?_, ?_⟩
      · rw [hclaims]
        exact hgroup.positive
      · exact Nat.add_sub_cancel_left _ _
      · rw [hclaims]
        exact Nat.add_sub_cancel_left _ _
      · rw [hclaims]
        exact Nat.add_sub_cancel_left _ _

/-- **One chunk** keeps the units in order. -/
theorem UnitsPlaced.chunk (hinv : UnitsPlaced lp batch final body) (hgroups : ∀ group ∈ groups, GroupOk lp batch final group)
    (h : placeChunk lp numChunks groups body chunkIndex = .ok body') : UnitsPlaced lp batch final body' := by
  unfold placeChunk at h
  simp only [bind_eq_ok] at h
  obtain ⟨b, hb, aligned, halign, h⟩ := h
  have hplaced := foldlM_inv (P := UnitsPlaced lp batch final) (fun s group s' hgroup hs hx => hs.unit (hgroups group hgroup) hx) hinv hb
  have hup := okOr_eq_ok.1 halign
  obtain ⟨-, -, hle, -⟩ := alignUp_spec hup
  rw [← pure_eq_ok.1 h]
  exact ⟨alignUp_fits hup hplaced.fits, hplaced.order, fun s hs => (hplaced.below s hs).trans hle, hplaced.units⟩

end

/-! ## The layout -/

structure Emittable (lp : CommittedGroupParams) (batch : OpeningClaimsLayout) (layout : WitnessLayout) : Prop where
  live : layout.liveCoeffLen < 2 ^ 64
  bounds : ∀ s ∈ layout.ranges, s.start ≤ s.stop ∧ s.stop ≤ layout.liveCoeffLen
  apart : layout.ranges.Pairwise Span.Apart
  units : ∃ final, batch.rootFinalGroupIndex = .ok final ∧
    ∀ u ∈ layout.units, ∃ params dims polynomials, UnitOf lp batch final u params dims polynomials
  /-- The units come before the tail, in the order of their list. -/
  unitOrder : (layout.units.flatMap unitRanges).Pairwise fun s t => s.stop ≤ t.start
  body : ∀ s ∈ layout.units.flatMap unitRanges, s.stop ≤ layout.tailRange.start
  tail : ∀ s ∈ layout.rRows.map (·.range) ++ layout.compressionLayers.flatMap layerRanges, layout.tailRange.start ≤ s.start
  rows : ∀ row ∈ layout.rRows, row.geometry.WellFormed ∧
    ∃ depth, layout.quotientDepth = some depth ∧ row.range.len = depth * row.geometry.physicalCoefficientWidth
  layerIndices : ∀ (i : ℕ) (layer : CompressionWitnessLayerLayout), layout.compressionLayers[i]? = some layer → layer.mapIndex = i
  layerKeys : ∀ layer ∈ layout.compressionLayers, (layer.fSpans.map (·.1)).Nodup
  spanOrder : (layout.compressionLayers.flatMap layerRanges).Pairwise fun s t => s.stop ≤ t.start

section

variable {level : RelationLevelParams} {lp : CommittedGroupParams} {batch : OpeningClaimsLayout} {geometry : RelationWitnessGeometry}
  {numChunks : ℕ} {plan : RelationQuotientPlan} {layout : WitnessLayout}

theorem new_placed (h : WitnessLayout.new lp batch geometry numChunks level.forLevel plan = .ok layout) :
    geometry.rhsLayout.OfLevel ∧ (∃ final body, batch.rootFinalGroupIndex = .ok final ∧ UnitsPlaced lp batch final body ∧ layout.units = body.units ∧ layout.tailRange.start = body.cursor) ∧
      ∃ tail, TailSpans geometry.rhsLayout tail ∧ layout.compressionLayers = tail.compressionLayers ∧
        layout.liveCoeffLen = tail.stop := by
  obtain ⟨_, -, h⟩ := bind_eq_ok.1 h
  obtain ⟨_, -, h⟩ := bind_eq_ok.1 h
  obtain ⟨expected, hexp, h⟩ := bind_eq_ok.1 h
  obtain ⟨_, hgeom, h⟩ := bind_eq_ok.1 h
  obtain ⟨order, -, h⟩ := bind_eq_ok.1 h
  obtain ⟨final, hfinal, h⟩ := bind_eq_ok.1 h
  obtain ⟨_, -, h⟩ := bind_eq_ok.1 h
  obtain ⟨groups, hgroups, h⟩ := bind_eq_ok.1 h
  obtain ⟨body, hbody, h⟩ := bind_eq_ok.1 h
  obtain ⟨suffix, -, h⟩ := bind_eq_ok.1 h
  obtain ⟨tail, htail, h⟩ := bind_eq_ok.1 h
  obtain ⟨block, -, h⟩ := bind_eq_ok.1 h
  obtain rfl : expected = geometry := ensure_eq_ok.1 hgeom
  have hrhs := forLevel_ofLevel hexp
  have hok : ∀ group ∈ groups, GroupOk lp batch final group := by
    intro group hgroup
    obtain ⟨_, -, hentry⟩ := forall₂_mem_right (forall₂_of_mapM hgroups) hgroup
    exact groupGeometry_ok hrhs hentry
  have hstart : UnitsPlaced lp batch final ⟨0, [], []⟩ := ⟨by norm_num, by simp, by simp, by simp⟩
  have hplaced := foldlM_inv (P := UnitsPlaced lp batch final) (fun _ _ _ _ hs hx => hs.chunk hok hx) hstart hbody
  rw [← pure_eq_ok.1 h]
  exact ⟨hrhs, ⟨final, body, hfinal, hplaced, rfl, rfl⟩, tail, materialize_spans hplaced.fits htail, rfl, rfl⟩

theorem RelationRhsLayout.OfLevel.compressedGroups_nodup {rhs : RelationRhsLayout} (h : rhs.OfLevel) : rhs.compressedGroups.Nodup := by
  unfold RelationRhsLayout.compressedGroups
  cases hcomp : rhs.compression with
  | none => exact nodup_nil
  | some compression => exact h.nodup compression hcomp

variable {order : List ℕ} {body : WitnessBody} {rows : List WitnessQuotientRowLayout} {tail : MaterializedWitnessTail}

theorem Assembled.rowsWellFormed (ha : Assembled lp batch geometry numChunks plan layout order body rows tail)
    (hrhs : geometry.rhsLayout.OfLevel) : ∀ row ∈ layout.rRows, row.geometry.WellFormed ∧
      ∃ depth, layout.quotientDepth = some depth ∧ row.range.len = depth * row.geometry.physicalCoefficientWidth := by
  intro row hrow
  obtain ⟨-, hplan⟩ := ha.rowsInOrder
  have hquots := ha.tailOk.quotients
  cases plan with
  | reducedEvaluation =>
    have hnone : layout.rRows = [] := hplan
    rw [hnone] at hrow
    simp at hrow
  | quotientLift depth =>
    obtain ⟨families, hfams, hgeometries, hlens⟩ := hplan
    have hmem : row.geometry ∈ families.map (·.geometry) := hgeometries ▸ mem_map_of_mem hrow
    obtain ⟨family, hfam, hgeom⟩ := mem_map.1 hmem
    refine ⟨hgeom ▸ rowFamilies_wellFormed hrhs hfams family hfam, depth, ?_, hlens row hrow⟩
    rw [WitnessLayout.quotientDepth, ha.quotients, hquots.1]

/-- **Every layout** can be emitted. -/
theorem new_emittable (h : WitnessLayout.new lp batch geometry numChunks level.forLevel plan = .ok layout) :
    Emittable lp batch layout := by
  obtain ⟨hrhs, ⟨final, body, hfinal, hbody, hunits, hcursor⟩, tail, hspans, hlayers, hstop⟩ := new_placed h
  obtain ⟨order, body', rows, tail', ha⟩ := new_assembled h
  obtain ⟨trace, htiles, hperm⟩ := ha.tiling
  constructor
  · rw [hstop]
    exact hspans.fits
  · intro s hs
    exact (htiles.bounds s (hperm.mem_iff.1 hs)).2
  · exact htiles.apart hperm
  · rw [hunits]
    exact ⟨final, hfinal, hbody.units⟩
  · rw [hunits]
    exact hbody.order
  · rw [hunits, hcursor]
    exact hbody.below
  · intro s hs
    obtain ⟨tailTrace, htail, htailPerm, -⟩ := ha.tailOk.taken
    rw [ha.rRows, ha.layers] at hs
    rw [ha.range]
    exact (htail.bounds s (htailPerm.mem_iff.2 (mem_append_left _ hs))).1
  · exact ha.rowsWellFormed hrhs
  · rw [hlayers]
    exact hspans.indices
  · intro layer hlayer
    rw [hlayers] at hlayer
    exact hrhs.compressedGroups_nodup.sublist (hspans.keys layer hlayer)
  · rw [hlayers]
    exact hspans.order

end

def sampleLevelParams : RelationLevelParams where
  sourceEncoding := .canonicalCoefficientTable
  ownGroup := ⟨.evaluationTrace, 1, 1, .ok sampleChain⟩
  precedingGroup _ := ⟨.evaluationTrace, 1, 1, .ok sampleChain⟩
  nD := 1
  openingCompressionPlan := .ok sampleChain
  validateGroupTopology := .ok ()
  validateBases := .ok ()
  validatePrecedingGroups _ := .ok ()
  validateChallengeFamily _ := .ok ()

end Akita.Witness
