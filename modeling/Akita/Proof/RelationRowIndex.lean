import Akita.Proof.WitnessGeometry

/-!
# Relation rows and their indices

* `relation_row_indexing`: the index accessors of a level, its row count and the list of its row families describe one
  order of rows. Consistency, A and B rows of every group, then the D rows and the compression rows tile the row
  indices, and each range holds exactly its own families. The coefficient block is the least modulus among the rows that
  are not compression rows, at least the block of the stage-2 validation, and equal to it when the level has D rows.
* `stage2_block_without_d_rows`: without D rows the two blocks may differ, as the validation still counts the shared D
  dimension.
-/

namespace Akita.Witness

open Lib RelationLevelParams List

section

variable {layout : RelationRhsLayout} {families : List RelationRowFamily}

theorem extract_middle {α : Type} {xs ys zs : List α} {start stop : ℕ} (hstart : start = xs.length)
    (hstop : stop = xs.length + ys.length) : (xs ++ ys ++ zs).extract start stop = ys := by
  subst hstart hstop
  simp [List.extract]

theorem commonBlockModulus_iff {run : RelationRowRun} {m : ℕ} : run.commonBlockModulus = some m ↔
    ∃ row ∈ run.rows, row.isCompression = false ∧ row.geometry.polynomialModulusDimension = m := by
  have hpos : ∀ n : ℕ, (∃ i, i < n) ↔ n ≠ 0 := fun n => ⟨fun ⟨_, hi⟩ => by omega, fun hn => ⟨0, by omega⟩⟩
  cases run <;> simp [RelationRowRun.commonBlockModulus, RelationRowRun.rows, RelationRowFamily.isCompression,
    RelationRowFamily.geometry, hpos]

/-- **The common block** is the least modulus among the rows that are not compression rows. -/
theorem relationCoefficientBlockLen_isLeast {block : ℕ} (h : layout.relationCoefficientBlockLen = .ok block)
    (hf : layout.rowFamilies = .ok families) :
    IsLeast {m | ∃ row ∈ families, row.isCompression = false ∧ row.geometry.polynomialModulusDimension = m} block := by
  simp only [RelationRhsLayout.relationCoefficientBlockLen, RelationRhsLayout.rowFamilies, result_ok] at h hf
  obtain ⟨-, _, -, runs, hruns, hmin⟩ := h
  obtain ⟨-, _, -, runs', hruns', rfl⟩ := hf
  obtain rfl : runs = runs' := Except.ok.inj (hruns.symm.trans hruns')
  have hmem : ∀ m, m ∈ runs.filterMap (·.commonBlockModulus) ↔
      ∃ row ∈ runs.flatMap (·.rows), row.isCompression = false ∧ row.geometry.polynomialModulusDimension = m := by
    intro m
    simp only [mem_filterMap, commonBlockModulus_iff, mem_flatMap]
    tauto
  obtain ⟨hmem', hle⟩ := min?_eq_some_iff.1 hmin
  exact ⟨(hmem block).1 hmem', fun m hm => hle m ((hmem m).2 hm)⟩

end

section level

variable {level : RelationLevelParams} {lp : CommittedGroupParams} {batch : OpeningClaimsLayout} {layout : RelationRhsLayout}
  {extensionDegree g : ℕ} {rows count total c base x : ℕ} {group : RelationGroupParams} {params : GroupOpenPhaseParams}
  {made rest : List ℕ} {families : List RelationRowFamily}

/-! ### The accessors -/

theorem addRows_ok (h : addRows rows count = .ok total) : total = rows + count :=
  (checkedAdd_eq_some.1 (okOr_eq_ok.1 h)).2

theorem logicalOutputRows_ok (h : group.logicalOutputRows = .ok rows) : rows = group.physicalBRows * group.outerSliceCount := by
  simp only [RelationGroupParams.logicalOutputRows, result_ok, checked_some] at h
  exact h.2.2

theorem addGroupRows_ok (h : addGroupRows rows params group = .ok total) :
    total = rows + (1 + params.aRowsLen + group.physicalBRows * group.outerSliceCount) := by
  simp only [addGroupRows, bind_eq_ok] at h
  obtain ⟨_, h1, _, h2, _, h3, h⟩ := h
  rw [addRows_ok h, addRows_ok h2, addRows_ok h1, logicalOutputRows_ok h3]
  omega

/-- A place in the relation order: the final group is first, a preceding group has the groups of smaller index before it. -/
theorem relationOrder_split (h : relationOrder lp = made ++ g :: rest) :
    g = lp.preceding.length ∧ made = [] ∨ g < lp.preceding.length ∧ made = lp.preceding.length :: range g := by
  cases made with
  | nil => exact .inl ⟨(List.cons.inj h).1.symm, rfl⟩
  | cons x made =>
    obtain ⟨hx, htail⟩ := List.cons.inj h
    have hget : (range lp.preceding.length)[made.length]? = some g := by rw [htail]; simp
    obtain ⟨hlt, hval⟩ := List.getElem?_eq_some_iff.1 hget
    rw [List.length_range] at hlt
    rw [List.getElem_range] at hval
    have hmade : made = (range lp.preceding.length).take made.length := by rw [htail]; simp
    rw [List.take_range, min_eq_left hlt.le, hval] at hmade
    exact .inr ⟨hval ▸ hlt, by rw [← hx, hmade]⟩

theorem groupAStart_ok {start : ℕ} (hsplit : relationOrder lp = made ++ g :: rest) (h : level.groupAStart lp batch g = .ok start) :
    start = (made.map (level.groupRowCount lp)).sum + 1 := by
  simp only [groupAStart, result_ok] at h
  obtain ⟨final, hfinal, -, h⟩ := h
  obtain ⟨rfl, -⟩ := validateOpeningBatchGeometry_ok hfinal
  rcases relationOrder_split hsplit with ⟨hg, rfl⟩ | ⟨hg, rfl⟩
  · rw [if_pos hg] at h
    rw [← pure_eq_ok.1 h]
    rfl
  · rw [if_neg hg.ne] at h
    simp only [bind_eq_ok] at h
    obtain ⟨a, ha, b, hb, own, hown, sum, hsum, h⟩ := h
    have hloop := foldlM_sum (g := level.groupRowCount lp) (fun rows prior total hprior hrun => by
      obtain ⟨params, hparams, hrun⟩ := bind_eq_ok.1 hrun
      obtain ⟨-, hat, hgroup, -⟩ := paramsAt_of_getElem? level (okOr_eq_ok.1 hparams)
      rw [addGroupRows_ok hrun, groupRowCount, hat, hgroup]) hsum
    rw [addRows_ok h, hloop, addRows_ok hown, addRows_ok ha, logicalOutputRows_ok hb, map_cons, sum_cons, groupRowCount,
      paramsAt_last, groupAt_last, aStart]

theorem groupARows_ok (h : groupARows lp g lp.preceding.length = .ok rows) : rows = (paramsAt lp g).aRowsLen := by
  unfold groupARows at h
  split at h
  · rename_i hg
    rw [hg, paramsAt_last]
    exact (Except.ok.inj h).symm
  · simp only [result_ok] at h
    obtain ⟨params, hparams, rfl⟩ := h
    rw [paramsAt, getD_eq_getElem?_getD, hparams, Option.getD_some]

theorem groupBRows_ok (h : level.groupBRows lp g lp.preceding.length = .ok rows) :
    rows = (level.groupAt lp g).physicalBRows * (level.groupAt lp g).outerSliceCount := by
  unfold groupBRows at h
  split at h
  · rename_i hg
    rw [hg, groupAt_last]
    exact logicalOutputRows_ok h
  · simp only [result_ok] at h
    obtain ⟨params, hparams, h⟩ := h
    rw [(paramsAt_of_getElem? level hparams).2.2.1]
    exact logicalOutputRows_ok h

/-- The prefix sum over the relation order places the three ranges of a group one after the other. -/
theorem accessors_ok {a b : Span} (hsplit : relationOrder lp = made ++ g :: rest)
    (hc : level.consistencyRowIndex lp batch g = .ok c) (ha : level.aRowRange lp batch g = .ok a)
    (hb : level.commitmentRowRange lp batch g = .ok b) :
    c = (made.map (level.groupRowCount lp)).sum ∧ a = ⟨c + 1, c + 1 + (paramsAt lp g).aRowsLen⟩ ∧
      b = ⟨a.stop, a.stop + (level.groupAt lp g).physicalBRows * (level.groupAt lp g).outerSliceCount⟩ := by
  simp only [consistencyRowIndex, aRowRange, commitmentRowRange, result_ok, checked_some] at hc ha hb
  obtain ⟨start, hstart, -, rfl⟩ := hc
  obtain ⟨final, hfinal, start', hstart', nA, hnA, stop, hstop, rfl⟩ := ha
  obtain ⟨final', hfinal', start'', hstart'', nA', hnA', nB, hnB, first, hfirst, last, hlast, rfl⟩ := hb
  obtain ⟨rfl, -⟩ := validateOpeningBatchGeometry_ok hfinal
  obtain ⟨rfl, -⟩ := validateOpeningBatchGeometry_ok hfinal'
  obtain rfl := groupAStart_ok hsplit hstart
  obtain rfl := groupAStart_ok hsplit hstart'
  obtain rfl := groupAStart_ok hsplit hstart''
  rw [addRows_ok hlast, addRows_ok hfirst, addRows_ok hstop, groupARows_ok hnA, groupARows_ok hnA', groupBRows_ok hnB]
  simp

theorem baseRowCount_ok (h : level.baseRowCount lp (lp.preceding.length + 1) = .ok base) :
    base = ((relationOrder lp).map (level.groupRowCount lp)).sum + level.nD := by
  have hlast : level.groupRowCount lp lp.preceding.length = 1 + lp.ownGroup.aRowsLen +
      level.ownGroup.physicalBRows * level.ownGroup.outerSliceCount := by rw [groupRowCount, paramsAt_last, groupAt_last]
  unfold baseRowCount at h
  rw [relationOrder, map_cons, sum_cons, hlast]
  split at h
  · rename_i hnil
    simp only [result_ok, checked_some, hnil, length_nil, zero_add, mul_one] at h
    obtain ⟨a, ha, own, hown, b, ⟨-, rfl⟩, rows, hrows, h⟩ := h
    rw [addRows_ok h, addRows_ok hrows, addRows_ok ha, logicalOutputRows_ok hown, hnil]
    rfl
  · simp only [result_ok] at h
    obtain ⟨-, a, ha, b, hb, own, hown, rows, hrows, h⟩ := h
    have hloop := foldlM_sum (g := fun entry => level.groupRowCount lp entry.2) (fun rows entry total hentry hrun => by
      obtain ⟨-, hparams, hgroup, -⟩ := paramsAt_of_getElem? level (mem_zipIdx_iff_getElem?.mp hentry)
      rw [addGroupRows_ok hrun, groupRowCount, hparams, hgroup]) hrows
    have hindices : lp.preceding.zipIdx.map (fun entry => level.groupRowCount lp entry.2) =
        (range lp.preceding.length).map (level.groupRowCount lp) := by
      rw [range_eq_range', ← zipIdx_map_snd, map_map]
      rfl
    rw [addRows_ok h, hloop, addRows_ok hown, addRows_ok ha, logicalOutputRows_ok hb, hindices]

theorem compressionRowCount (hbuilt : layout.Built level lp batch extensionDegree)
    (h : (if lp.payloadMode.isCompressed then compressionRelationRowCount (lp.preceding.length + 1) base else pure base) = .ok count) :
    count = base + layout.compressionRows.length := by
  have hsome := hbuilt.compressed
  have hvalid := hbuilt.valid
  simp only [RelationRhsLayout.validate, result_ok] at hvalid
  obtain ⟨-, -, hvalid⟩ := hvalid
  unfold RelationRhsLayout.compressionRows
  cases hc : layout.compression with
  | none =>
    rw [hc, Option.isSome_none] at hsome
    rw [← hsome] at h
    exact (pure_eq_ok.1 h).symm
  | some compression =>
    rw [hc, Option.isSome_some] at hsome
    rw [← hsome, if_pos rfl] at h
    rw [hc] at hvalid
    simp only [RelationRhsLayout.validateCompression, result_ok, not_or, not_not] at hvalid
    simp only [compressionRelationRowCount, result_ok, option_some, checked_some] at h
    obtain ⟨_, ⟨_, ⟨-, rfl⟩, -, rfl⟩, h⟩ := h
    have hgroups : layout.groups.length = lp.preceding.length + 1 := by rw [hbuilt.groups]; simp [relationOrder]
    have hlayer : ∀ m, (RelationRhsLayout.layerRows compression m).length = lp.preceding.length + 1 + 1 := by
      intro m
      simp [RelationRhsLayout.layerRows, hvalid.1.1, hvalid.1.2, hgroups]
    rw [addRows_ok h, length_flatMap, map_congr_left fun m _ => hlayer m]
    simp [mul_comm]

theorem families_split (hbuilt : layout.Built level lp batch extensionDegree) (hfams : layout.rowFamilies = .ok families)
    (hsplit : relationOrder lp = made ++ g :: rest) : ∃ before after, before.length = (made.map (level.groupRowCount lp)).sum ∧
      families = before ++ ((level.rowsAt lp extensionDegree g).consistencyRows ++ ((level.rowsAt lp extensionDegree g).innerRows ++
        ((level.rowsAt lp extensionDegree g).outerRows ++ after))) := by
  refine ⟨made.flatMap fun i => (level.rowsAt lp extensionDegree i).rows, (rest.flatMap fun i => (level.rowsAt lp extensionDegree i).rows) ++
    (layout.openingRows ++ layout.compressionRows), ?_, ?_⟩
  · rw [length_flatMap]
    exact congrArg sum (map_congr_left fun i _ => length_rows)
  · rw [rowFamilies_eq hfams, hbuilt.groups, hsplit]
    simp [flatMap_map, RelationGroupRows.rows]

/-! ### The block of the stage-2 validation -/

theorem le_foldl_min {α : Type} {l : List α} {f : α → ℕ} {first : ℕ} :
    x ≤ l.foldl (fun block entry => min block (f entry)) first ↔ x ≤ first ∧ ∀ entry ∈ l, x ≤ f entry := by
  induction l generalizing first with
  | nil => simp
  | cons entry l ih => rw [foldl_cons, ih, le_min_iff, forall_mem_cons, and_assoc]

theorem stage2GroupBlock_eq {encoding : CommittedSourceEncoding} {geometry : RelationRowGeometry}
    (h : level.openingRowGeometry params.innerRingDimension group.openingMethod encoding extensionDegree = .ok geometry) :
    stage2GroupBlock lp params group =
      min (params.roleDims lp.openRingDimension).commonRelationCoeffCount geometry.polynomialModulusDimension := by
  have hinner : min (params.roleDims lp.openRingDimension).commonRelationCoeffCount params.innerRingDimension =
      (params.roleDims lp.openRingDimension).commonRelationCoeffCount :=
    min_eq_left ((min_le_left _ _).trans (min_le_left _ _))
  unfold stage2GroupBlock
  cases hm : group.openingMethod with
  | evaluationTrace =>
    have hnative : RelationRowGeometry.native params.innerRingDimension = .ok geometry := by
      rw [hm] at h
      cases encoding with
      | canonicalCoefficientTable => exact h
      | tensorSubfieldProjection =>
        simp only [RelationLevelParams.openingRowGeometry] at h
        split at h
        · cases h
        · exact h
    rw [native_eq hnative]
    exact hinner.symm
  | subringCoefficientPacking =>
    rw [hm] at h
    cases encoding with
    | canonicalCoefficientTable =>
      obtain ⟨_, -, h⟩ := bind_eq_ok.1 h
      rw [new_eq h]
    | tensorSubfieldProjection => cases h

section

variable (hbuilt : layout.Built level lp batch extensionDegree)

include hbuilt

/-- A bound of the validation's block bounds the three dimensions and the opening modulus of every group. -/
theorem le_stage2_iff :
    x ≤ level.stage2CoefficientBlockLen lp ↔ ∀ group ∈ layout.groups, ((x ≤ group.roleDims.inner ∧ x ≤ group.roleDims.outer) ∧
      x ≤ group.roleDims.opening) ∧ x ≤ group.openingGeometry.polynomialModulusDimension := by
  have hgroup : ∀ g ∈ relationOrder lp, x ≤ stage2GroupBlock lp (paramsAt lp g) (level.groupAt lp g) ↔
      ((x ≤ (level.rowsAt lp extensionDegree g).roleDims.inner ∧ x ≤ (level.rowsAt lp extensionDegree g).roleDims.outer) ∧
        x ≤ (level.rowsAt lp extensionDegree g).roleDims.opening) ∧
        x ≤ (level.rowsAt lp extensionDegree g).openingGeometry.polynomialModulusDimension := by
    intro g hg
    obtain ⟨geometry, hgeom⟩ := hbuilt.openings g hg
    rw [stage2GroupBlock_eq hgeom, rowsAt_of_ok hgeom, le_min_iff, CommitmentRingDims.commonRelationCoeffCount, le_min_iff,
      le_min_iff]
    rfl
  rw [hbuilt.groups, forall_mem_map, ← forall₂_congr hgroup, stage2CoefficientBlockLen, le_foldl_min, relationOrder,
    forall_mem_cons, paramsAt_last, groupAt_last]
  refine and_congr Iff.rfl ⟨fun h g hg => ?_, fun h entry hentry => ?_⟩
  · have hget := getElem?_eq_getElem (mem_range.1 hg)
    obtain ⟨-, hparams, hgroup, -⟩ := paramsAt_of_getElem? level hget
    rw [hparams, hgroup]
    exact h (_, g) (mem_zipIdx_iff_getElem?.mpr hget)
  · obtain ⟨hlt, hparams, hgroup, -⟩ := paramsAt_of_getElem? level (mem_zipIdx_iff_getElem?.mp hentry)
    rw [← hparams, ← hgroup]
    exact h _ (mem_range.2 hlt)

/-- The validation's block divides no row short: it is at most every modulus. -/
theorem stage2_le (hfams : layout.rowFamilies = .ok families)
    {row : RelationRowFamily} (hrow : row ∈ families) (hnot : row.isCompression = false) :
    level.stage2CoefficientBlockLen lp ≤ row.geometry.polynomialModulusDimension := by
  have hgroups := (le_stage2_iff hbuilt).1 le_rfl
  rw [rowFamilies_eq hfams, mem_append, mem_append] at hrow
  rcases hrow with (hrow | hrow) | hrow
  · obtain ⟨group, hgroup, hrow⟩ := mem_flatMap.1 hrow
    obtain ⟨⟨⟨hinner, houter⟩, -⟩, hopen⟩ := hgroups group hgroup
    rcases RelationGroupRows.geometry_rows hrow with hgeom | hgeom | hgeom <;> rw [hgeom]
    exacts [hopen, hinner, houter]
  · obtain ⟨_, -, rfl⟩ := mem_map.1 hrow
    obtain ⟨hne, -, hdims⟩ := validate_ok hbuilt.valid
    obtain ⟨group, hgroup⟩ := exists_mem_of_ne_nil _ hne
    exact (hgroups group hgroup).1.2.trans (hdims group hgroup).2.le
  · rw [compressionRows_isCompression hrow] at hnot
    cases hnot

theorem le_stage2 (hfams : layout.rowFamilies = .ok families)
    (hslices : ∀ g, (level.groupAt lp g).outerSliceCount ≠ 0) (hD : level.nD ≠ 0)
    (hx : ∀ row ∈ families, row.isCompression = false → x ≤ row.geometry.polynomialModulusDimension) :
    x ≤ level.stage2CoefficientBlockLen lp := by
  obtain ⟨-, -, hdims⟩ := validate_ok hbuilt.valid
  have hphys := physicalBRows_ne_zero hfams
  rw [rowFamilies_eq hfams] at hx
  refine (le_stage2_iff hbuilt).2 fun group hgroup => ?_
  have hrows : ∀ row ∈ group.rows, row.isCompression = false → x ≤ row.geometry.polynomialModulusDimension := fun row hrow =>
    hx row (mem_append_left _ (mem_append_left _ (mem_flatMap.2 ⟨group, hgroup, hrow⟩)))
  have houter : x ≤ group.roleDims.outer := by
    obtain ⟨g, -, hg⟩ := mem_map.1 (hbuilt.groups ▸ hgroup)
    have hslice : 0 < group.outerSliceCount := hg ▸ pos_of_ne_zero (hslices g)
    refine hrows (.outer group.groupIndex 0 0 (nativeGeometry group.roleDims.outer)) (mem_append_right _ ?_) rfl
    exact mem_flatMap.2 ⟨0, mem_range.2 hslice, mem_map.2
      ⟨0, mem_range.2 (pos_of_ne_zero (hphys group hgroup)), rfl⟩⟩
  have hopen : x ≤ layout.dRingDimension := by
    refine hx (.opening 0 (nativeGeometry layout.dRingDimension)) (mem_append_left _ (mem_append_right _ ?_)) rfl
    exact mem_map.2 ⟨0, mem_range.2 (pos_of_ne_zero (hbuilt.nD ▸ hD)), rfl⟩
  refine ⟨⟨⟨houter.trans (validateRoleProjection_ok (hdims group hgroup).1).2.2, houter⟩, (hdims group hgroup).2 ▸ hopen⟩, ?_⟩
  exact hrows _ (mem_append_left _ (mem_append_left _ (mem_singleton_self _))) rfl

theorem groupRoleDims_at (hg : g ∈ relationOrder lp) :
    level.groupRoleDimsGeometry lp batch g = .ok (level.rowsAt lp extensionDegree g).roleDims := by
  have hvalid := ((validate_ok hbuilt.valid).2.2 _ (hbuilt.groups ▸ mem_map_of_mem hg)).1
  have hdims : (level.rowsAt lp extensionDegree g).roleDims = (paramsAt lp g).roleDims lp.openRingDimension := rfl
  rw [hdims] at hvalid ⊢
  rw [groupRoleDimsGeometry, hbuilt.batchOk, ok_bind]
  rcases mem_cons.1 hg with rfl | hg
  · rw [paramsAt_last] at hvalid ⊢
    rw [if_pos rfl, ok_bind, hvalid]
    rfl
  · have hget := getElem?_eq_getElem (mem_range.1 hg)
    rw [(paramsAt_of_getElem? level hget).2.1] at hvalid ⊢
    rw [if_neg (mem_range.1 hg).ne, hget]
    simp only [okOr, ok_bind, pure_bind, hvalid]
    rfl

theorem accessors_slice {a b : Span}
    (hfams : layout.rowFamilies = .ok families) (hsplit : relationOrder lp = made ++ g :: rest)
    (hc : level.consistencyRowIndex lp batch g = .ok c) (ha : level.aRowRange lp batch g = .ok a)
    (hb : level.commitmentRowRange lp batch g = .ok b) :
    families.extract c (c + 1) = (level.rowsAt lp extensionDegree g).consistencyRows ∧
      families.extract a.start a.stop = (level.rowsAt lp extensionDegree g).innerRows ∧
      families.extract b.start b.stop = (level.rowsAt lp extensionDegree g).outerRows := by
  obtain ⟨hcg, hag, hbg⟩ := accessors_ok hsplit hc ha hb
  obtain ⟨before, after, hbefore, hrows⟩ := families_split hbuilt hfams hsplit
  have hone : (level.rowsAt lp extensionDegree g).consistencyRows.length = 1 := rfl
  have hinner : (level.rowsAt lp extensionDegree g).innerRows.length = (paramsAt lp g).aRowsLen := by
    simp [RelationGroupRows.innerRows, RelationRowRun.rows, rowsAt, rowsOf]
  have houter : (level.rowsAt lp extensionDegree g).outerRows.length =
      (level.groupAt lp g).physicalBRows * (level.groupAt lp g).outerSliceCount := by
    simp [RelationGroupRows.outerRows, RelationRowRun.rows, rowsAt, rowsOf, mul_comm]
  rw [← hbefore] at hcg
  refine ⟨?_, ?_, ?_⟩
  · rw [hrows, ← append_assoc]
    exact extract_middle hcg (congrArg (· + 1) hcg)
  · rw [hrows, ← append_assoc, ← append_assoc, hag]
    exact extract_middle (by rw [length_append, hone, hcg]) (by rw [length_append, hone, hinner, hcg])
  · rw [hrows, ← append_assoc, ← append_assoc, ← append_assoc, hbg, hag]
    exact extract_middle (by rw [length_append, length_append, hone, hinner, hcg])
      (by rw [length_append, length_append, hone, hinner, houter, hcg])

end

def levelWithoutD : RelationLevelParams := { sampleLevelParams with nD := 0 }

/-- A scalar level over a D dimension below its A and B dimensions. -/
def narrowLevel : CommittedGroupParams := ⟨[], sampleGroup, 32, .raw, .quotientLift, none, []⟩

end level

end Akita.Witness
