import Akita.Proof.WitnessTail

/-!
# A witness layout is a partition

The body and the tail of a layout that `WitnessLayout::new` returns tile the live interval, so its
ranges are disjoint and cover it, and `validate_internal_ranges` accepts the layout.
-/

namespace Akita.Witness

open Lib List WitnessLayout

/-- The quotient rows are the relation rows, each at its own width, in increasing places; a reduced
layout has none. -/
def RowsInOrder (rhs : RelationRhsLayout) (plan : RelationQuotientPlan) (layout : WitnessLayout) : Prop :=
  (layout.rRows.Pairwise fun row next => row.range.stop ≤ next.range.start) ∧
    match plan with
    | .quotientLift depth => ∃ families, rhs.rowFamilies = .ok families ∧
      layout.rRows.map (·.geometry) = families.map (·.geometry) ∧
      ∀ row ∈ layout.rRows, row.range.len = depth * row.geometry.physicalCoefficientWidth
    | .reducedEvaluation => layout.rRows = []

/-- Every range that the constructor aligns starts at a multiple of its alignment. -/
structure Aligned (lp : CommittedGroupParams) (batch : OpeningClaimsLayout) (layout : WitnessLayout) : Prop where
  /-- Every chunk, which the final group opens. -/
  chunks : ∀ u ∈ layout.units, u.groupIndex + 1 = batch.numGroups → chunkAlignment lp layout.numChunks ∣ u.zRange.start
  tail : chunkAlignment lp layout.numChunks ∣ layout.tailRange.start
  firstLayer : ∀ layer ∈ layout.compressionLayers.head?, layout.compressionAlignment ∣ layerStart layer
  layers : ∀ layer ∈ layout.compressionLayers, ∀ s ∈ layerSpans layer, s.map.ringDimension ∣ layerStart layer
  /-- In particular, spans start at multiples of the dimension that the layer's maps share. -/
  spans : ∀ layer ∈ layout.compressionLayers, ∀ d, (∀ s ∈ layerSpans layer, d ∣ s.map.ringDimension) →
    ∀ s ∈ layerSpans layer, d ∣ s.range.start
  live : lp.payloadMode.isCompressed = true → layout.tailSuffixAlignment ∣ layout.liveCoeffLen

section build

variable {forLevel : CommittedGroupParams → OpeningClaimsLayout → ℕ → Result RelationWitnessGeometry}
  {lp : CommittedGroupParams} {batch : OpeningClaimsLayout} {geometry : RelationWitnessGeometry} {numChunks : ℕ}
  {plan : RelationQuotientPlan} {layout : WitnessLayout}

theorem groupGeometry_groupIndex {final i : ℕ} {group : GroupGeometry}
    (h : groupGeometry lp batch geometry numChunks final i = .ok group) : group.groupIndex = i := by
  unfold groupGeometry at h
  obtain ⟨⟨params, roleDims⟩, _, h⟩ := bind_eq_ok.1 h
  simp only [bind_eq_ok] at h
  obtain ⟨_, _, _, _, _, _, _, _, _, _, h⟩ := h
  rw [← pure_eq_ok.1 h]

theorem groupGeometry_indices {order : List ℕ} {final : ℕ} {groups : List GroupGeometry}
    (h : order.mapM (groupGeometry lp batch geometry numChunks final) = .ok groups) : groups.map (·.groupIndex) = order := by
  rw [map_of_mapM (h := id) (fun _ _ _ => groupGeometry_groupIndex) h, map_id]

theorem rootGroupOrder_spec {order : List ℕ} (h : batch.rootGroupOrder = .ok order) :
    ∃ final rest, order = final :: rest ∧ final ∉ rest ∧ final + 1 = batch.numGroups := by
  unfold OpeningClaimsLayout.rootGroupOrder at h
  obtain ⟨final, hfinal, h⟩ := bind_eq_ok.1 h
  unfold OpeningClaimsLayout.rootFinalGroupIndex at hfinal
  obtain ⟨_, _, hfinal⟩ := bind_eq_ok.1 hfinal
  obtain ⟨hle, rfl⟩ := checkedSub_eq_some.1 (okOr_eq_ok.1 hfinal)
  refine ⟨_, _, (pure_eq_ok.1 h).symm, by simp, ?_⟩
  exact Nat.sub_add_cancel hle

/-- What the constructor assembled: a body and a tail that starts where the body ends. -/
structure Assembled (lp : CommittedGroupParams) (batch : OpeningClaimsLayout) (geometry : RelationWitnessGeometry)
    (numChunks : ℕ) (plan : RelationQuotientPlan) (layout : WitnessLayout) (order : List ℕ) (body : WitnessBody)
    (rows : List WitnessQuotientRowLayout) (tail : MaterializedWitnessTail) : Prop where
  orderOk : batch.rootGroupOrder = .ok order
  chunkCount : layout.numChunks = numChunks ∧ 0 < numChunks
  bodyInv : BodyInv (chunkAlignment lp numChunks) order (List.range numChunks) body
  tailOk : TailOk geometry.rhsLayout lp.payloadMode.isCompressed plan layout.tailSuffixAlignment body.cursor rows tail
  block : geometry.rhsLayout.relationCoefficientBlockLen = .ok layout.compressionAlignment
  units : layout.units = body.units
  layers : layout.compressionLayers = tail.compressionLayers
  gaps : layout.compressionAlignmentRanges = body.alignmentRanges ++ tail.compressionAlignmentRanges
  quotients : layout.relationQuotients = tail.relationQuotients
  range : layout.tailRange = ⟨body.cursor, tail.stop⟩

theorem new_assembled (h : WitnessLayout.new lp batch geometry numChunks forLevel plan = .ok layout) :
    ∃ order body rows tail, Assembled lp batch geometry numChunks plan layout order body rows tail := by
  unfold WitnessLayout.new at h
  obtain ⟨_, hcounts, h⟩ := bind_eq_ok.1 h
  obtain ⟨_, _, h⟩ := bind_eq_ok.1 h
  obtain ⟨_, _, h⟩ := bind_eq_ok.1 h
  obtain ⟨_, _, h⟩ := bind_eq_ok.1 h
  obtain ⟨order, horder, h⟩ := bind_eq_ok.1 h
  obtain ⟨final', _, h⟩ := bind_eq_ok.1 h
  obtain ⟨_, _, h⟩ := bind_eq_ok.1 h
  obtain ⟨groups, hgroups, h⟩ := bind_eq_ok.1 h
  obtain ⟨body, hbody, h⟩ := bind_eq_ok.1 h
  obtain ⟨suffix, hsuffix, h⟩ := bind_eq_ok.1 h
  obtain ⟨tail, htail, h⟩ := bind_eq_ok.1 h
  obtain ⟨block, hblock, h⟩ := bind_eq_ok.1 h
  have hlayout := pure_eq_ok.1 h
  subst hlayout
  have hcounts := ensure_eq_ok.1 hcounts
  rw [not_or] at hcounts
  obtain ⟨final, rest, rfl, hfinal, -⟩ := rootGroupOrder_spec horder
  have hkeys : groups.map (·.groupIndex) = final :: rest := groupGeometry_indices hgroups
  obtain ⟨rows, htail⟩ := materialize_ok (pos_of_ne_zero hcounts.1) htail
  exact ⟨final :: rest, body, rows, tail, horder, ⟨rfl, pos_of_ne_zero hcounts.2⟩, body_inv hkeys hfinal hbody, htail, hblock,
    rfl, rfl, rfl, rfl, rfl⟩

variable {order : List ℕ} {body : WitnessBody} {rows : List WitnessQuotientRowLayout} {tail : MaterializedWitnessTail}

section

variable (ha : Assembled lp batch geometry numChunks plan layout order body rows tail)

include ha

theorem Assembled.rRows : layout.rRows = rows := by
  have hq := ha.tailOk.quotients
  unfold WitnessLayout.rRows
  rw [ha.quotients]
  cases plan with
  | quotientLift depth => rw [hq.1]
  | reducedEvaluation => rw [hq.1, hq.2]

/-- **The ranges are a tiling of the live interval**, up to their order. -/
theorem Assembled.tiling : ∃ trace, Tiles 0 trace layout.liveCoeffLen ∧ layout.ranges.Perm trace := by
  obtain ⟨bodyTrace, hbody, hbodyPerm⟩ := ha.bodyInv.tiled
  obtain ⟨tailTrace, htail, htailPerm, -⟩ := ha.tailOk.taken
  refine ⟨bodyTrace ++ tailTrace, ?_, ?_⟩
  · rw [WitnessLayout.liveCoeffLen, ha.range]
    exact hbody.append htail
  · have hranges : layout.ranges = body.units.flatMap unitRanges ++ rows.map (·.range) ++
        tail.compressionLayers.flatMap layerRanges ++ (body.alignmentRanges ++ tail.compressionAlignmentRanges) := by
      rw [WitnessLayout.ranges, ha.rRows, ha.units, ha.layers, ha.gaps]
      rfl
    rw [hranges]
    refine List.Perm.trans ?_ (hbodyPerm.append htailPerm).symm
    apply perm_iff_count.2
    intro span
    simp only [count_append]
    omega

theorem Assembled.rowsInOrder : RowsInOrder geometry.rhsLayout plan layout := by
  unfold RowsInOrder
  rw [ha.rRows]
  constructor
  · -- the rows come in the order of the tiling
    obtain ⟨trace, htiles, -, hsub⟩ := ha.tailOk.taken
    exact pairwise_map.1 (htiles.pairwise.sublist hsub)
  · have hq := ha.tailOk.quotients
    cases plan with
    | quotientLift depth =>
      obtain ⟨-, families, hfams, hlen, hrows⟩ := hq
      refine ⟨families, hfams, ?_, ?_⟩
      · apply ext_getElem? fun i => ?_
        rw [getElem?_map, getElem?_map]
        rcases lt_or_ge i rows.length with hi | hi
        · rw [(hrows i rows[i] (getElem?_eq_getElem hi)).2.2, getElem?_eq_getElem hi]
          rfl
        · rw [getElem?_eq_none hi, getElem?_eq_none (hlen ▸ hi)]
          rfl
      · intro row hrow
        obtain ⟨i, hi, rfl⟩ := mem_iff_getElem.1 hrow
        rw [Span.len, (hrows i rows[i] (getElem?_eq_getElem hi)).2.1]
        exact Nat.add_sub_cancel_left ..
    | reducedEvaluation => exact hq.2

theorem Assembled.isAligned : Aligned lp batch layout := by
  obtain ⟨final, rest, horder, -, hfinal⟩ := rootGroupOrder_spec ha.orderOk
  have hlayers : ∀ layer ∈ layout.compressionLayers, LayerOk layer := by
    rw [ha.layers]
    exact ha.tailOk.layers
  constructor
  · intro u hu hgroup
    rw [ha.units] at hu
    rw [ha.chunkCount.1]
    exact ha.bodyInv.starts u hu (by rw [horder]; simp; omega)
  · rw [ha.chunkCount.1, ha.range]
    exact ha.bodyInv.aligned
  · rw [ha.layers]
    exact ha.tailOk.first _ ha.block
  · intro layer hlayer
    exact (hlayers layer hlayer).aligned
  · intro layer hlayer d hd s hs
    have hok := hlayers layer hlayer
    have hlens : ∀ r ∈ layerRanges layer, d ∣ r.len := by
      intro r hr
      obtain ⟨t, ht, rfl⟩ := mem_map.1 hr
      rw [hok.lengths t ht]
      exact (hd t ht).mul_left _
    exact hok.consecutive.dvd_start ((hd s hs).trans (hok.aligned s hs)) hlens s.range (mem_map_of_mem hs)
  · intro hcomp
    rw [liveCoeffLen, ha.range]
    exact ha.tailOk.suffix hcomp

end

theorem LayerOk.interval {layer : CompressionWitnessLayerLayout} (hok : LayerOk layer) :
    layer.fSpans.head?.map (fun f => (⟨f.2.range.start, layer.hSpan.range.stop⟩ : Span)) =
      some ⟨layerStart layer, layer.hSpan.range.stop⟩ := by
  unfold layerStart
  cases hf : layer.fSpans with
  | nil => exact absurd hf hok.nonempty
  | cons f fs => rfl

theorem Assembled.support (ha : Assembled lp batch geometry numChunks plan layout order body rows tail) (p : ℕ) :
    (∃ s ∈ layout.negativeBinarySupportIntervals, s.Holds p) ↔
      ∃ layer ∈ layout.compressionLayers, ∃ s ∈ layerSpans layer, s.range.Holds p := by
  have hlayers : ∀ layer ∈ layout.compressionLayers, LayerOk layer := by
    rw [ha.layers]
    exact ha.tailOk.layers
  have hcover : ∀ layer ∈ layout.compressionLayers,
      (∃ s ∈ layerSpans layer, s.range.Holds p) ↔ layerStart layer ≤ p ∧ p < layer.hSpan.range.stop := by
    intro layer hlayer
    rw [← (hlayers layer hlayer).consecutive.cover p]
    simp [layerRanges]
  constructor
  · rintro ⟨s, hs, hp⟩
    obtain ⟨layer, hlayer, hs⟩ := mem_filterMap.1 hs
    rw [(hlayers layer hlayer).interval] at hs
    cases hs
    exact ⟨layer, hlayer, (hcover layer hlayer).2 hp⟩
  · rintro ⟨layer, hlayer, hs⟩
    exact ⟨_, mem_filterMap.2 ⟨layer, hlayer, (hlayers layer hlayer).interval⟩, (hcover layer hlayer).1 hs⟩

end build

section

variable {lp : CommittedGroupParams} {batch : OpeningClaimsLayout} {geometry : RelationWitnessGeometry} {numChunks : ℕ}
  {plan : RelationQuotientPlan} {layout : WitnessLayout} {order : List ℕ} {body : WitnessBody}
  {rows : List WitnessQuotientRowLayout} {tail : MaterializedWitnessTail}

theorem Assembled.bodyEnd (ha : Assembled lp batch geometry numChunks plan layout order body rows tail) :
    layout.bodyEnd = body.cursor := by
  obtain ⟨bodyTrace, hbody, hbodyPerm⟩ := ha.bodyInv.tiled
  obtain ⟨tailTrace, htail, htailPerm, -⟩ := ha.tailOk.taken
  have hmem : body.cursor ∈ (layout.compressionAlignmentRanges.filter fun range => range.start < layout.tailRange.start).map
      (·.stop) ++ (layout.units.getLast?.map (·.tRange.stop)).toList := by
    have hends := ha.bodyInv.ends (by simpa using ha.chunkCount.2.ne')
    rw [ha.units, ha.gaps, ha.range]
    rcases mem_append.1 hends with hgap | hunit
    · obtain ⟨s, hs, hstop⟩ := mem_map.1 hgap
      have hlt := ha.bodyInv.gaps s hs
      refine mem_append_left _ (mem_map.2 ⟨s, mem_filter.2 ⟨mem_append_left _ hs, ?_⟩, hstop⟩)
      simp only [decide_eq_true_eq]
      omega
    · exact mem_append_right _ hunit
  have hle : ∀ stop ∈ (layout.compressionAlignmentRanges.filter fun range => range.start < layout.tailRange.start).map
      (·.stop) ++ (layout.units.getLast?.map (·.tRange.stop)).toList, stop ≤ body.cursor := by
    intro stop hstop
    rw [ha.units, ha.gaps, ha.range] at hstop
    rcases mem_append.1 hstop with hgap | hunit
    · obtain ⟨s, hs, rfl⟩ := mem_map.1 hgap
      obtain ⟨hs, hlt⟩ := mem_filter.1 hs
      rcases mem_append.1 hs with hs | hs
      · exact (hbody.bounds s (hbodyPerm.mem_iff.2 (mem_append_right _ hs))).2.2
      · -- gaps of the tail are not before it
        have hge := (htail.bounds s (htailPerm.mem_iff.2 (mem_append_right _ hs))).1
        simp only [decide_eq_true_eq] at hlt
        omega
    · obtain ⟨u, hu, rfl⟩ := Option.map_eq_some_iff.1 (Option.mem_toList.1 hunit)
      have hunit : u.tRange ∈ body.units.flatMap unitRanges :=
        mem_flatMap.2 ⟨u, mem_of_getLast? hu, by simp [unitRanges]⟩
      exact (hbody.bounds u.tRange (hbodyPerm.mem_iff.2 (mem_append_left _ hunit))).2.2
  have hmax := max?_eq_some_iff.2 ⟨hmem, hle⟩
  unfold WitnessLayout.bodyEnd
  rw [hmax]
  rfl

/-- The row loop accepts rows of the right widths in increasing places. -/
theorem validateRows_ok {depth : ℕ+} : ∀ {rows : List WitnessQuotientRowLayout} {previous : Option ℕ},
    (∀ row ∈ rows, depth * row.geometry.physicalCoefficientWidth < 2 ^ 64 ∧
      row.range.len = depth * row.geometry.physicalCoefficientWidth) →
    (rows.Pairwise fun row next => row.range.stop ≤ next.range.start) →
    (∀ stop ∈ previous, ∀ row ∈ rows, stop ≤ row.range.start) → validateRows depth previous rows = .ok () := by
  intro rows
  induction rows with
  | nil => intro _ _ _ _; rfl
  | cons row rows ih =>
    intro previous hwidths hpair hprev
    obtain ⟨hfits, hlen⟩ := hwidths row (by simp)
    obtain ⟨hhead, htail⟩ := pairwise_cons.1 hpair
    have hmul : checkedMul usizeBits depth row.geometry.physicalCoefficientWidth =
        some (depth * row.geometry.physicalCoefficientWidth) := checkedMul_eq_some.2 ⟨hfits, rfl⟩
    have hcheck : ¬ (row.range.len ≠ depth * row.geometry.physicalCoefficientWidth ∨
        previous.any (row.range.start < ·) = true) := by
      rw [not_or, not_not]
      refine ⟨hlen, ?_⟩
      cases previous with
      | none => simp
      | some stop =>
        have := hprev stop rfl row (by simp)
        simpa using this
    rw [validateRows, okOr_eq_ok.2 hmul, ok_bind, ensure_bind hcheck]
    refine ih (fun next hnext => hwidths next (by simp [hnext])) htail ?_
    intro stop hstop next hnext
    obtain rfl : row.range.stop = stop := Option.some.inj hstop
    exact hhead next hnext

theorem Assembled.validateQuotients (ha : Assembled lp batch geometry numChunks plan layout order body rows tail) :
    layout.validateQuotients = .ok () := by
  have hq := ha.tailOk.quotients
  have hpair := ha.rowsInOrder.1
  rw [ha.rRows] at hpair
  unfold WitnessLayout.validateQuotients
  rw [ha.quotients]
  cases plan with
  | quotientLift depth =>
    obtain ⟨hquots, families, -, -, hrows⟩ := hq
    rw [hquots]
    refine validateRows_ok ?_ hpair (by simp)
    intro row hrow
    obtain ⟨i, hi, rfl⟩ := mem_iff_getElem.1 hrow
    obtain ⟨hfits, hstop, -⟩ := hrows i rows[i] (getElem?_eq_getElem hi)
    refine ⟨hfits, ?_⟩
    rw [Span.len, hstop]
    exact Nat.add_sub_cancel_left ..
  | reducedEvaluation => rw [hq.1]

theorem walk_ok {live hi : ℕ} (hhi : hi ≤ live) : ∀ {lo : ℕ} {l : List Span}, Tiles lo l hi →
    WitnessLayout.walk live lo l = .ok hi := by
  intro lo l
  induction l generalizing lo with
  | nil =>
    intro h
    obtain rfl : lo = hi := h
    rfl
  | cons s rest ih =>
    intro h
    have hle := h.2.2.le
    have hcheck : ¬ (s.start ≠ lo ∨ s.stop > live) := by
      have := h.1
      omega
    rw [WitnessLayout.walk, ensure_bind hcheck]
    exact ih h.2.2

theorem Assembled.validate (ha : Assembled lp batch geometry numChunks plan layout order body rows tail) :
    layout.validateInternalRanges = .ok () := by
  obtain ⟨trace, htiles, hperm⟩ := ha.tiling
  have hstart : ¬ (layout.tailRange.start ≠ layout.bodyEnd ∨ layout.tailRange.start > layout.tailRange.stop) := by
    obtain ⟨_, htail, -⟩ := ha.tailOk.taken
    have hle := htail.le
    rw [ha.bodyEnd, ha.range]
    simpa using hle
  have hwalk := walk_ok le_rfl htiles.filter_nonempty
  unfold validateInternalRanges
  rw [ensure_bind hstart, ha.validateQuotients, ok_bind]
  simp only
  rw [htiles.sort_eq hperm, hwalk, ok_bind]
  exact ensure_eq_ok.2 rfl

end

/-- **A witness layout is a partition.** Of every layout that the constructor returns: there is one unit
for each chunk and group, the unit ranges, quotient rows, compression spans and gaps are pairwise disjoint
and cover exactly the live coefficients, quotient rows are in row order, ranges start aligned,
the negative-binary intervals hold exactly the places of the compression spans, and
`validate_internal_ranges` accepts it. -/
theorem witness_layout_partition
    (forLevel : CommittedGroupParams → OpeningClaimsLayout → ℕ → Result RelationWitnessGeometry) (lp : CommittedGroupParams)
    (batch : OpeningClaimsLayout) (geometry : RelationWitnessGeometry) (numChunks : ℕ) (plan : RelationQuotientPlan)
    (layout : WitnessLayout) (h : WitnessLayout.new lp batch geometry numChunks forLevel plan = .ok layout) :
    (∃ order, batch.rootGroupOrder = .ok order ∧
      layout.units.map unitKey = (List.range numChunks).flatMap fun chunk => order.map fun group => (chunk, group)) ∧
    layout.ranges.Pairwise Span.Apart ∧ (∀ p, (∃ s ∈ layout.ranges, s.Holds p) ↔ p < layout.liveCoeffLen) ∧
    RowsInOrder geometry.rhsLayout plan layout ∧ Aligned lp batch layout ∧
    (∀ p, (∃ s ∈ layout.negativeBinarySupportIntervals, s.Holds p) ↔
      ∃ layer ∈ layout.compressionLayers, ∃ s ∈ layerSpans layer, s.range.Holds p) ∧
    layout.validateInternalRanges = .ok () := by
  obtain ⟨order, body, rows, tail, ha⟩ := new_assembled h
  obtain ⟨trace, htiles, hperm⟩ := ha.tiling
  refine ⟨⟨order, ha.orderOk, ?_⟩, htiles.apart hperm, ?_, ha.rowsInOrder, ha.isAligned, ha.support, ha.validate⟩
  · rw [ha.units]
    exact ha.bodyInv.keys
  · intro p
    rw [htiles.cover_perm hperm p]
    simp

section

theorem isPowerOfTwo_32 : (32).isPowerOfTwo := ⟨5, rfl⟩

theorem isPowerOfTwo_16 : (16).isPowerOfTwo := ⟨4, rfl⟩

/-- A compression chain of 64 source coefficients of 128 bits: 256 rows of dimension 32, then of 16. -/
def sampleChain : CompressionChainPlan := ⟨64, ![⟨64, 32, 256, isPowerOfTwo_32⟩, ⟨32, 16, 256, isPowerOfTwo_16⟩]⟩

/-- A group of three blocks over dimension 64. -/
def sampleGroup : GroupOpenPhaseParams := ⟨3, 2, 2, 2, 2, 2, 1, 64, 64⟩

/-- A compressed level with one preceding group. -/
def sampleLevel : CommittedGroupParams := ⟨[sampleGroup], sampleGroup, 64, .compressed, .quotientLift, some 1024, []⟩

def sampleBatch : OpeningClaimsLayout := ⟨[⟨9, 1⟩, ⟨9, 1⟩]⟩

def sampleRows (groupIndex : ℕ) : RelationGroupRows := ⟨groupIndex, ⟨64, 64, 64⟩, ⟨64, 1, 64⟩, .evaluationTrace, 1, 1, 1⟩

def sampleGeometry : RelationWitnessGeometry :=
  ⟨1, ⟨64, 1, [sampleRows 1, sampleRows 0], some ⟨[1, 0], [sampleChain, sampleChain], sampleChain⟩⟩⟩

theorem witness_layout_partition_two_chunks : ∃ layout,
    WitnessLayout.new sampleLevel sampleBatch sampleGeometry 2 (fun _ _ _ => .ok sampleGeometry) (.quotientLift 43) = .ok layout ∧
      layout.liveCoeffLen = 66432 ∧ layout.ranges.length = 33 ∧ layout.ranges.Pairwise Span.Apart ∧
      layout.validateInternalRanges = .ok () := by
  have hlive : ((WitnessLayout.new sampleLevel sampleBatch sampleGeometry 2 (fun _ _ _ => .ok sampleGeometry)
      (.quotientLift 43)).toOption.map fun layout => (layout.liveCoeffLen, layout.ranges.length)) = some (66432, 33) := by
    decide +kernel
  cases hnew : WitnessLayout.new sampleLevel sampleBatch sampleGeometry 2 (fun _ _ _ => .ok sampleGeometry) (.quotientLift 43) with
  | error e =>
    rw [hnew] at hlive
    cases hlive
  | ok layout =>
    rw [hnew] at hlive
    obtain ⟨hlen, hcount⟩ := Prod.mk.inj (Option.some.inj hlive)
    have hpartition := witness_layout_partition (fun _ _ _ => .ok sampleGeometry) sampleLevel sampleBatch sampleGeometry 2
      (.quotientLift 43) layout hnew
    exact ⟨layout, rfl, hlen, hcount, hpartition.2.1, hpartition.2.2.2.2.2.2⟩

end

end Akita.Witness
