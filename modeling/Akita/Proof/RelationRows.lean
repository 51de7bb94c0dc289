import Akita.Lib.Accumulate
import Akita.Lib.Summary
import Akita.Spec.RelationLevel

/-!
# Relation rows of a level

`rowFamilies_eq`: the families of a relation layout, written out, are the rows of its groups, the D rows and the
compression rows. `buildRelationRhsLayout_ok`: the layout of a level holds its groups in relation order, the final group
first.
-/

namespace Akita.Witness

open Lib List RelationRhsLayout

/-! ### The rows of a layout -/

section rows

variable {layout : RelationRhsLayout} {group : RelationGroupRows} {families : List RelationRowFamily}
  {geometry : RelationRowGeometry} {runs : List RelationRowRun} {row : RelationRowFamily}

def nativeGeometry (d : ℕ) : RelationRowGeometry := ⟨d, 1, d⟩

theorem new_eq {modulus planes : ℕ} (h : RelationRowGeometry.new modulus planes = .ok geometry) :
    geometry = ⟨modulus, planes, modulus * planes⟩ := by
  simp only [RelationRowGeometry.new, result_ok, checked_some] at h
  obtain ⟨-, _, ⟨-, rfl⟩, rfl⟩ := h
  rfl

theorem native_eq {d : ℕ} (h : RelationRowGeometry.native d = .ok geometry) :
    geometry = nativeGeometry d := by rw [new_eq h, nativeGeometry, mul_one]

namespace RelationGroupRows

def consistencyRows (group : RelationGroupRows) : List RelationRowFamily :=
  [.consistency group.groupIndex group.openingMethod group.openingGeometry]

def innerRows (group : RelationGroupRows) : List RelationRowFamily :=
  (RelationRowRun.inner group.groupIndex group.nA (nativeGeometry group.roleDims.inner)).rows

def outerRows (group : RelationGroupRows) : List RelationRowFamily :=
  (List.range group.outerSliceCount).flatMap fun slice =>
    (RelationRowRun.outer group.groupIndex slice group.physicalBRows (nativeGeometry group.roleDims.outer)).rows

def rows (group : RelationGroupRows) : List RelationRowFamily := group.consistencyRows ++ group.innerRows ++ group.outerRows

end RelationGroupRows

namespace RelationRhsLayout

def openingRows (layout : RelationRhsLayout) : List RelationRowFamily :=
  (RelationRowRun.opening layout.nD (nativeGeometry layout.dRingDimension)).rows

/-- The rows of one compression layer: F for every group, then H. -/
def layerRows (compression : RelationCompressionLayout) (mapIndex : Fin compressionMapCount) : List RelationRowFamily :=
  ((compression.groupIndices.zip compression.groupPlans).map fun entry =>
    .compressionF entry.1 mapIndex (nativeGeometry (entry.2.maps mapIndex).ringDimension)) ++
    [.compressionH mapIndex (nativeGeometry (compression.openingPlan.maps mapIndex).ringDimension)]

def compressionRows (layout : RelationRhsLayout) : List RelationRowFamily :=
  match layout.compression with
  | none => []
  | some compression => (List.finRange compressionMapCount).flatMap (layerRows compression)

end RelationRhsLayout

theorem groupRuns_rows (h : groupRuns group = .ok runs) : runs.flatMap (·.rows) = group.rows := by
  simp only [groupRuns, result_ok] at h
  obtain ⟨inner, hinner, outer, houter, rfl⟩ := h
  rw [native_eq hinner, native_eq houter]
  simp only [flatMap_cons, flatMap_map]
  rfl

theorem mapRuns_rows {compression : RelationCompressionLayout} {m : Fin compressionMapCount}
    (h : mapRuns compression m = .ok runs) : runs.flatMap (·.rows) = RelationRhsLayout.layerRows compression m := by
  simp only [mapRuns, result_ok] at h
  obtain ⟨f, hf, geometry, hgeom, rfl⟩ := h
  have hrows : f.map (·.rows) = (compression.groupIndices.zip compression.groupPlans).map fun entry =>
      [.compressionF entry.1 m (nativeGeometry (entry.2.maps m).ringDimension)] := by
    refine map_of_mapM (fun entry run _ hrun => ?_) hf
    obtain ⟨geometry, hgeom, hrun⟩ := bind_eq_ok.1 hrun
    rw [← pure_eq_ok.1 hrun, native_eq hgeom]
    rfl
  rw [native_eq hgeom, flatMap_append, flatMap_def, hrows, ← flatMap_def, ← map_eq_flatMap]
  rfl

theorem flatMap_rows {α : Type} {l : List α} {f : α → Result (List RelationRowRun)} {g : α → List RelationRowFamily}
    {runs : List (List RelationRowRun)} (hf : ∀ x y, f x = .ok y → y.flatMap (·.rows) = g x) (h : l.mapM f = .ok runs) :
    runs.flatten.flatMap (·.rows) = l.flatMap g := by
  rw [flatten_eq_flatMap, flatMap_assoc, flatMap_def, flatMap_def, ← map_of_mapM (fun x y _ => hf x y) h]
  rfl

/-- **The families of a layout**, group by group, then the D rows and the compression rows. -/
theorem rowRuns_rows (h : layout.rowRuns = .ok runs) :
    runs.flatMap (·.rows) = layout.groups.flatMap (·.rows) ++ layout.openingRows ++ layout.compressionRows := by
  simp only [rowRuns, result_ok] at h
  obtain ⟨groups, hgroups, opening, hopen, compression, hcomp, rfl⟩ := h
  have hmaps : compression.flatMap (·.rows) = layout.compressionRows := by
    unfold compressionRuns at hcomp
    unfold compressionRows
    cases hc : layout.compression with
    | none =>
      rw [hc] at hcomp
      rw [← Except.ok.inj hcomp]
      rfl
    | some plans =>
      rw [hc] at hcomp
      obtain ⟨maps, hmaps, hflat⟩ := bind_eq_ok.1 hcomp
      rw [← pure_eq_ok.1 hflat, flatMap_rows (fun _ _ => mapRuns_rows) hmaps]
  rw [flatMap_append, flatMap_append, hmaps, flatMap_rows (fun _ _ => groupRuns_rows) hgroups, native_eq hopen,
    flatMap_singleton]
  rfl

theorem rowFamilies_eq (h : layout.rowFamilies = .ok families) :
    families = layout.groups.flatMap (·.rows) ++ layout.openingRows ++ layout.compressionRows := by
  simp only [rowFamilies, result_ok] at h
  obtain ⟨-, _, -, runs, hruns, rfl⟩ := h
  exact rowRuns_rows hruns

theorem rowFamilies_valid (h : layout.rowFamilies = .ok families) : layout.validate = .ok () := by
  simp only [rowFamilies, result_ok] at h
  exact h.1

theorem RelationGroupRows.geometry_rows (h : row ∈ group.rows) :
    row.geometry = group.openingGeometry ∨ row.geometry = nativeGeometry group.roleDims.inner ∨
      row.geometry = nativeGeometry group.roleDims.outer := by
  rcases mem_append.1 h with h | h
  · rcases mem_append.1 h with h | h
    · rw [mem_singleton.1 h]
      exact .inl rfl
    · obtain ⟨_, -, rfl⟩ := mem_map.1 h
      exact .inr (.inl rfl)
  · obtain ⟨_, -, h⟩ := mem_flatMap.1 h
    obtain ⟨_, -, rfl⟩ := mem_map.1 h
    exact .inr (.inr rfl)

theorem physicalBRows_ne_zero (h : layout.rowFamilies = .ok families) : ∀ group ∈ layout.groups, group.physicalBRows ≠ 0 := by
  simp only [rowFamilies, checkedUncompressedRowCount, bind_eq_ok] at h
  obtain ⟨-, -, _, ⟨_, hrows, -⟩, -⟩ := h
  refine foldlM_passes (P := fun made _ => ∀ group ∈ made, group.physicalBRows ≠ 0) (fun made group _ _ _ _ hmade hstep => ?_)
    (by simp) hrows
  simp only [okOr_eq_ok, option_some] at hstep
  obtain ⟨_, -, _, -, b, hb, -⟩ := hstep
  have hlogical : group.logicalBRows = .ok b := by
    cases hgroup : group.logicalBRows <;> simp_all [Except.toOption]
  simp only [RelationGroupRows.logicalBRows, result_ok] at hlogical
  exact forall_mem_append.2 ⟨hmade, forall_mem_singleton.2 hlogical.1⟩

theorem compressionRows_isCompression (h : row ∈ layout.compressionRows) : row.isCompression = true := by
  unfold compressionRows at h
  split at h
  · cases h
  · obtain ⟨_, -, h⟩ := mem_flatMap.1 h
    rcases mem_append.1 h with h | h
    · obtain ⟨_, -, rfl⟩ := mem_map.1 h
      rfl
    · rw [mem_singleton.1 h]
      rfl

theorem validateRoleProjection_ok {dims : CommitmentRingDims} (h : dims.validateRoleProjection = .ok ()) :
    0 < dims.inner ∧ 0 < dims.outer ∧ dims.outer ≤ dims.inner := by
  simp only [CommitmentRingDims.validateRoleProjection, validateRole, result_ok, not_or] at h
  omega

theorem validate_ok (h : layout.validate = .ok ()) : layout.groups ≠ [] ∧ 0 < layout.dRingDimension ∧
    ∀ group ∈ layout.groups, group.roleDims.validateRoleProjection = .ok () ∧ group.roleDims.opening = layout.dRingDimension := by
  simp only [RelationRhsLayout.validate, validateGroup, result_ok, not_or, forM_eq_ok] at h
  exact ⟨h.1.1, pos_of_ne_zero h.1.2, fun group hgroup => ⟨(h.2.1 group hgroup).1, (h.2.1 group hgroup).2.1⟩⟩

theorem length_rows : group.rows.length = 1 + group.nA + group.physicalBRows * group.outerSliceCount := by
  simp [RelationGroupRows.rows, RelationGroupRows.consistencyRows, RelationGroupRows.innerRows, RelationGroupRows.outerRows,
    RelationRowRun.rows, mul_comm]
  omega

end rows


/-! ### The groups of a level -/

namespace RelationLevelParams

variable (level : RelationLevelParams) (lp : CommittedGroupParams) (extensionDegree g : ℕ)

def paramsAt : GroupOpenPhaseParams := lp.preceding.getD g lp.ownGroup

def groupAt : RelationGroupParams := if g < lp.preceding.length then level.precedingGroup g else level.ownGroup

def encodingAt : CommittedSourceEncoding := if g < lp.preceding.length then .canonicalCoefficientTable else level.sourceEncoding

/-- The checked opening geometry of group `g`. -/
def openingAt : Result RelationRowGeometry :=
  level.openingRowGeometry (paramsAt lp g).innerRingDimension (level.groupAt lp g).openingMethod (level.encodingAt lp g) extensionDegree

/-- The record of group `g` in the relation layout. -/
def rowsAt : RelationGroupRows := rowsOf g ((paramsAt lp g).roleDims lp.openRingDimension)
    ((level.openingAt lp extensionDegree g).toOption.getD (nativeGeometry 0)) (paramsAt lp g) (level.groupAt lp g)

def relationOrder : List ℕ := lp.preceding.length :: List.range lp.preceding.length

/-- The rows of group `g`. -/
def groupRowCount : ℕ := 1 + (paramsAt lp g).aRowsLen + (level.groupAt lp g).physicalBRows * (level.groupAt lp g).outerSliceCount

end RelationLevelParams

open RelationLevelParams

section

variable {level : RelationLevelParams} {lp : CommittedGroupParams} {batch : OpeningClaimsLayout} {layout : RelationRhsLayout}
  {extensionDegree g : ℕ} {params : GroupOpenPhaseParams}

theorem paramsAt_last : paramsAt lp lp.preceding.length = lp.ownGroup := by simp [paramsAt]

theorem groupAt_last : level.groupAt lp lp.preceding.length = level.ownGroup := by simp [groupAt]

theorem encodingAt_last : level.encodingAt lp lp.preceding.length = level.sourceEncoding := by simp [encodingAt]

theorem paramsAt_of_getElem? (level : RelationLevelParams) (h : lp.preceding[g]? = some params) :
    g < lp.preceding.length ∧ paramsAt lp g = params ∧ level.groupAt lp g = level.precedingGroup g ∧
      level.encodingAt lp g = .canonicalCoefficientTable := by
  have hg : g < lp.preceding.length := (List.getElem?_eq_some_iff.1 h).1
  exact ⟨hg, by rw [paramsAt, List.getD_eq_getElem?_getD, h, Option.getD_some], if_pos hg, if_pos hg⟩

theorem validateOpeningBatchGeometry_ok {final : ℕ} (h : level.validateOpeningBatchGeometry lp batch = .ok final) :
    final = lp.preceding.length ∧ batch.numGroups = lp.preceding.length + 1 := by
  simp only [RelationLevelParams.validateOpeningBatchGeometry, OpeningClaimsLayout.rootFinalGroupIndex, result_ok,
    checked_some] at h
  obtain ⟨-, -, -, hcount, -, -, -, rfl⟩ := h
  have hlen : batch.groups.length = lp.preceding.length + 1 := hcount
  exact ⟨by omega, hcount⟩

theorem rowsAt_of_ok {geometry : RelationRowGeometry} (h : level.openingAt lp extensionDegree g = .ok geometry) :
    level.rowsAt lp extensionDegree g =
      rowsOf g ((paramsAt lp g).roleDims lp.openRingDimension) geometry (paramsAt lp g) (level.groupAt lp g) := by
  rw [rowsAt, h]
  rfl

theorem groupEntry_at {group : RelationGroupParams} {encoding : CommittedSourceEncoding}
    {entry : RelationGroupRows × Option CompressionChainPlan} (hparams : paramsAt lp g = params)
    (hgroup : level.groupAt lp g = group) (henc : level.encodingAt lp g = encoding)
    (h : level.groupEntry lp extensionDegree g params group encoding = .ok entry) :
    entry.1 = level.rowsAt lp extensionDegree g ∧ ∃ geometry, level.openingAt lp extensionDegree g = .ok geometry := by
  simp only [RelationLevelParams.groupEntry, result_ok] at h
  obtain ⟨-, geometry, hgeom, _, -, rfl⟩ := h
  have hopen : level.openingAt lp extensionDegree g = .ok geometry := by rw [openingAt, hparams, hgroup, henc, hgeom]
  rw [rowsAt_of_ok hopen, hparams, hgroup]
  exact ⟨rfl, geometry, hopen⟩

/-- **The groups of a level in relation order.** -/
theorem entries_at {entries : List (RelationGroupRows × Option CompressionChainPlan)} (hnum : batch.numGroups = lp.preceding.length + 1)
    (h : (if lp.preceding = [] then level.scalarEntries lp batch extensionDegree
      else level.groupedEntries lp lp.preceding.length extensionDegree) = .ok entries) :
    entries.map (·.1) = (relationOrder lp).map (level.rowsAt lp extensionDegree) ∧
      ∀ g ∈ relationOrder lp, ∃ geometry, level.openingAt lp extensionDegree g = .ok geometry := by
  split at h
  · rename_i hnil
    have hlast := @paramsAt_last lp
    have hgroup := @groupAt_last level lp
    have henc := @encodingAt_last level lp
    simp only [RelationLevelParams.scalarEntries, OpeningClaimsLayout.rootGroupOrder,
      OpeningClaimsLayout.rootFinalGroupIndex, result_ok, checked_some] at h
    obtain ⟨-, order, ⟨final, ⟨-, -, rfl⟩, rfl⟩, geometry, hgeom, plan, -, rfl⟩ := h
    rw [hnil, length_nil] at hlast hgroup henc hnum
    have hopen : level.openingAt lp extensionDegree 0 = .ok geometry := by rw [openingAt, hlast, hgroup, henc, hgeom]
    have horder : relationOrder lp = [0] := by rw [relationOrder, hnil]; rfl
    have hlen : batch.groups.length = 1 := hnum
    rw [horder, hnum, hlen]
    refine ⟨?_, fun g hg => ⟨geometry, mem_singleton.1 hg ▸ hopen⟩⟩
    rw [map_singleton, rowsAt_of_ok hopen, hlast, hgroup]
    rfl
  · simp only [RelationLevelParams.groupedEntries, result_ok] at h
    obtain ⟨first, hfirst, preceding, hprec, rfl⟩ := h
    obtain ⟨hrows, hopen⟩ := groupEntry_at paramsAt_last groupAt_last encodingAt_last hfirst
    have hat : ∀ entry ∈ lp.preceding.zipIdx, ∀ out,
        level.groupEntry lp extensionDegree entry.2 entry.1 (level.precedingGroup entry.2) .canonicalCoefficientTable = .ok out →
          out.1 = level.rowsAt lp extensionDegree entry.2 ∧
            ∃ geometry, level.openingAt lp extensionDegree entry.2 = .ok geometry := by
      intro entry hentry out hout
      obtain ⟨-, hparams, hgroup, henc⟩ := paramsAt_of_getElem? level (mem_zipIdx_iff_getElem?.mp hentry)
      exact groupEntry_at hparams hgroup henc hout
    have hmap := map_of_mapM (g := Prod.fst) (fun entry out hentry hout => (hat entry hentry out hout).1) hprec
    constructor
    · rw [map_cons, hrows, hmap, relationOrder, map_cons, range_eq_range', ← zipIdx_map_snd, map_map]
      rfl
    · intro g hg
      rcases mem_cons.1 hg with rfl | hg
      · exact hopen
      · have hg := mem_range.1 hg
        have hmem : (lp.preceding[g], g) ∈ lp.preceding.zipIdx := mem_zipIdx_iff_getElem?.mpr (getElem?_eq_getElem hg)
        obtain ⟨out, -, hout⟩ := mem_of_mapM_ok hprec hmem
        exact (hat _ hmem out hout).2

/-- What the construction of the relation layout leaves behind. -/
structure RelationRhsLayout.Built (level : RelationLevelParams) (lp : CommittedGroupParams) (batch : OpeningClaimsLayout)
    (extensionDegree : ℕ) (layout : RelationRhsLayout) : Prop where
  batchOk : level.validateOpeningBatchGeometry lp batch = .ok lp.preceding.length
  groups : layout.groups = (relationOrder lp).map (level.rowsAt lp extensionDegree)
  openings : ∀ g ∈ relationOrder lp, ∃ geometry, level.openingAt lp extensionDegree g = .ok geometry
  nD : layout.nD = level.nD
  compressed : layout.compression.isSome = lp.payloadMode.isCompressed
  indices : ∀ compression, layout.compression = some compression → compression.groupIndices = relationOrder lp
  valid : layout.validate = .ok ()

theorem buildRelationRhsLayout_ok (h : level.buildRelationRhsLayout lp batch extensionDegree = .ok layout) :
    layout.Built level lp batch extensionDegree := by
  simp only [RelationLevelParams.buildRelationRhsLayout, result_ok] at h
  obtain ⟨final, hfinal, openingPlan, hplan, entries, hentries, hvalid, rfl⟩ := h
  obtain ⟨rfl, hnum⟩ := validateOpeningBatchGeometry_ok hfinal
  obtain ⟨hgroups, hopenings⟩ := entries_at hnum hentries
  refine ⟨hfinal, hgroups, hopenings, rfl, ?_, ?_, hvalid⟩
  · rw [Option.isSome_map]
    split at hplan
    · rename_i hmode
      obtain ⟨plan, -, hplan⟩ := bind_eq_ok.1 hplan
      rw [hmode, ← pure_eq_ok.1 hplan, Option.isSome_some]
    · rename_i hmode
      rw [← Except.ok.inj hplan, Option.isSome_none, Bool.eq_false_iff.2 hmode]
  · intro compression hcomp
    obtain ⟨_, -, rfl⟩ := Option.map_eq_some_iff.1 hcomp
    have hindices : entries.map (fun entry => entry.1.groupIndex) = (entries.map (·.1)).map (·.groupIndex) := by rw [map_map]; rfl
    rw [hindices, hgroups, map_map]
    exact map_id _

end

end Akita.Witness
