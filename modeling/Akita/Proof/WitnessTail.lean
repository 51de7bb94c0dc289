import Akita.Proof.WitnessBody

/-!
# The tail of a witness layout

What `tail::materialize` places after the body. Each operation of the sink takes the next places;
quotient rows fill the slots in row order, and a compression layer is a run of F spans closed by
its H span.
-/

namespace Akita.Witness

open Lib List MaterializingTailSink

variable {alignment : ℕ} {overflow wide far : String} {geometry : RelationRowGeometry} {cursor : ℕ}

section

variable {slots : List (Option WitnessQuotientRowLayout)} {rows : List WitnessQuotientRowLayout}

/-- The first slots hold `rows`, the others nothing. -/
def Filled (slots : List (Option WitnessQuotientRowLayout)) (rows : List WitnessQuotientRowLayout) : Prop :=
  ∃ free, slots = rows.map some ++ List.replicate free none

theorem Filled.set (h : Filled slots rows) (hlt : rows.length < slots.length) (row : WitnessQuotientRowLayout) :
    Filled (slots.set rows.length (some row)) (rows ++ [row]) := by
  obtain ⟨free, rfl⟩ := h
  cases free with
  | zero => simp at hlt
  | succ free =>
    refine ⟨free, ?_⟩
    rw [set_append_right _ _ (by simp), length_map, Nat.sub_self, replicate_succ, set_cons_zero]
    simp

theorem Filled.collect : ∀ {slots rows} {i : ℕ} {out : List WitnessQuotientRowLayout}, Filled slots rows →
    collectQuotientRows i slots = .ok out → out = rows ∧ slots.length = rows.length := by
  intro slots rows
  induction rows generalizing slots with
  | nil =>
    intro i out h hcoll
    obtain ⟨free, rfl⟩ := h
    cases free with
    | zero => exact ⟨by simpa [collectQuotientRows, eq_comm] using hcoll, rfl⟩
    | succ free =>
      -- an empty slot is an error
      rw [map_nil, nil_append, replicate_succ, collectQuotientRows] at hcoll
      obtain ⟨row, hrow, -⟩ := bind_eq_ok.1 hcoll
      simp [okOr] at hrow
  | cons row rows ih =>
    intro i out h hcoll
    obtain ⟨free, rfl⟩ := h
    rw [map_cons, cons_append, collectQuotientRows] at hcoll
    obtain ⟨first, hfirst, h⟩ := bind_eq_ok.1 hcoll
    obtain ⟨others, hothers, h⟩ := bind_eq_ok.1 h
    obtain ⟨hout, hlen⟩ := ih ⟨free, rfl⟩ hothers
    have hrow : row = first := by simpa [okOr] using hfirst
    refine ⟨?_, by simpa using hlen⟩
    rw [← pure_eq_ok.1 h, hout, hrow]

end

/-- The rows placed are the first relation rows, in order, with the widths of the depth. -/
def RowsOf (families : List RelationRowFamily) (depth : ℕ) (rows : List WitnessQuotientRowLayout) : Prop :=
  ∀ (i : ℕ) (row : WitnessQuotientRowLayout), rows[i]? = some row → depth * row.geometry.physicalCoefficientWidth < 2 ^ 64 ∧
    row.range.stop = row.range.start + depth * row.geometry.physicalCoefficientWidth ∧
    (families[i]?).map (·.geometry) = some row.geometry

section

variable {sink sink' : MaterializingTailSink} {map : CompressionMapPlan} {geometry : RelationRowGeometry}

/-- **`align`** adds the gap up to the alignment. -/
theorem align_spec (h : sink.align alignment overflow = .ok sink') :
    alignUp sink.cursor alignment = some sink'.cursor ∧ sink' = { sink with
      cursor := sink'.cursor
      compressionAlignmentRanges := sink.compressionAlignmentRanges ++ gap sink.cursor sink'.cursor } := by
  obtain ⟨aligned, halign, h⟩ := bind_eq_ok.1 h
  have halign := okOr_eq_ok.1 halign
  have hsink := pure_eq_ok.1 h
  subst hsink
  by_cases heq : aligned = sink.cursor
  · simp [heq, gap, heq ▸ halign]
  · simp [heq, gap, halign]

/-- **`place_f_span`** takes the next places for its digits. -/
theorem placeFSpan_spec {groupIndex : ℕ} (h : sink.placeFSpan groupIndex map = .ok sink') : sink' = { sink with
      cursor := sink.cursor + map.paddedDigitCount
      currentFSpans := sink.currentFSpans ++ [(groupIndex, ⟨map, ⟨sink.cursor, sink.cursor + map.paddedDigitCount⟩⟩)] } := by
  obtain ⟨range, hrange, h⟩ := bind_eq_ok.1 h
  obtain ⟨-, rfl⟩ := witnessRange_spec hrange
  exact (pure_eq_ok.1 h).symm

/-- **`place_h_span`** takes the next places for its digits. -/
theorem placeHSpan_spec (h : sink.placeHSpan map = .ok sink') : sink' = { sink with
      cursor := sink.cursor + map.paddedDigitCount
      currentHSpan := some ⟨map, ⟨sink.cursor, sink.cursor + map.paddedDigitCount⟩⟩ } := by
  obtain ⟨range, hrange, h⟩ := bind_eq_ok.1 h
  obtain ⟨-, rfl⟩ := witnessRange_spec hrange
  exact (pure_eq_ok.1 h).symm

def rowAt (cursor : ℕ) (geometry : RelationRowGeometry) (depth : ℕ) : WitnessQuotientRowLayout :=
  ⟨geometry, ⟨cursor, cursor + depth * geometry.physicalCoefficientWidth⟩⟩

/-- **`place_quotient_row`** takes the next places and fills its slot. -/
theorem placeQuotientRow_spec {depth : ℕ+} {rowIndex : ℕ} (h : sink.placeQuotientRow rowIndex geometry depth wide far = .ok sink') :
    (depth : ℕ) * geometry.physicalCoefficientWidth < 2 ^ 64 ∧ rowIndex < sink.quotientRows.length ∧ sink' = { sink with
      cursor := (rowAt sink.cursor geometry depth).range.stop
      quotientRows := sink.quotientRows.set rowIndex (some (rowAt sink.cursor geometry depth)) } := by
  obtain ⟨len, hlen, h⟩ := bind_eq_ok.1 h
  obtain ⟨hwide, rfl⟩ := checkedMul_eq_some.1 (okOr_eq_ok.1 hlen)
  obtain ⟨range, hrange, h⟩ := bind_eq_ok.1 h
  obtain ⟨-, rfl⟩ := witnessRange_spec hrange
  obtain ⟨_, hindex, h⟩ := bind_eq_ok.1 h
  exact ⟨hwide, ensure_eq_ok.1 hindex, (pure_eq_ok.1 h).symm⟩

theorem RowsOf.concat {families : List RelationRowFamily} {rows : List WitnessQuotientRowLayout} {depth : ℕ}
    (h : RowsOf families depth rows) (hwide : depth * geometry.physicalCoefficientWidth < 2 ^ 64)
    (hgeom : (families[rows.length]?).map (·.geometry) = some geometry) :
    RowsOf families depth (rows ++ [rowAt cursor geometry depth]) := by
  intro i row hrow
  rcases lt_or_ge i rows.length with hi | hi
  · rw [getElem?_append_left hi] at hrow
    exact h i row hrow
  · rw [getElem?_append_right hi] at hrow
    have hi' : i = rows.length := by
      by_contra hne
      rw [getElem?_eq_none (by simp; omega)] at hrow
      simp at hrow
    subst hi'
    obtain rfl : rowAt cursor geometry depth = row := by simpa using hrow
    exact ⟨hwide, rfl, hgeom⟩

end

section

variable {families : List RelationRowFamily} {before rs : List WitnessQuotientRowLayout} {depth : ℕ+}
  {sink s s' : MaterializingTailSink}

/-- Between `sink` and `s` only the quotient rows `rs` were placed, in the slots after `before`. -/
structure RowsPlaced (families : List RelationRowFamily) (depth : ℕ) (before : List WitnessQuotientRowLayout)
    (sink s : MaterializingTailSink) (rs : List WitnessQuotientRowLayout) : Prop where
  frame : s = { sink with
    cursor := s.cursor
    quotientRows := s.quotientRows
    currentFQuotientRows := s.currentFQuotientRows }
  tiles : Tiles sink.cursor (rs.map (·.range)) s.cursor
  filled : Filled s.quotientRows (before ++ rs)
  slots : s.quotientRows.length = sink.quotientRows.length
  rowsOf : RowsOf families depth (before ++ rs)

theorem RowsPlaced.refl (hfilled : Filled sink.quotientRows before) (hrows : RowsOf families depth before) :
    RowsPlaced families depth before sink sink [] := ⟨rfl, rfl, by simpa using hfilled, rfl, by simpa using hrows⟩

theorem RowsPlaced.row (hinv : RowsPlaced families depth before sink s rs)
    (hgeom : (families[(before ++ rs).length]?).map (·.geometry) = some geometry)
    (h : s.placeQuotientRow (before ++ rs).length geometry depth wide far = .ok s') :
    RowsPlaced families depth before sink s' (rs ++ [rowAt s.cursor geometry depth]) := by
  obtain ⟨hwide, hlt, rfl⟩ := placeQuotientRow_spec h
  constructor
  · dsimp only
    rw [hinv.frame]
  · rw [map_append]
    exact hinv.tiles.concat rfl (Nat.le_add_right _ _)
  · rw [← append_assoc]
    exact hinv.filled.set hlt _
  · exact (length_set).trans hinv.slots
  · rw [← append_assoc]
    exact hinv.rowsOf.concat hwide hgeom

theorem RowsPlaced.record (hinv : RowsPlaced families depth before sink s rs) (groupIndex rowIndex : ℕ) :
    RowsPlaced families depth before sink (s.recordFQuotientRow groupIndex rowIndex) rs :=
  ⟨congrArg (recordFQuotientRow · groupIndex rowIndex) hinv.frame, hinv.tiles, hinv.filled, hinv.slots, hinv.rowsOf⟩

/-- **The ordinary rows** fill the first slots. -/
theorem placeOrdinaryRows_spec {rows : List RelationRowFamily} (hfront : rows <+: families)
    (hfilled : Filled sink.quotientRows []) (h : placeOrdinaryRows rows depth sink = .ok s') :
    ∃ rs, RowsPlaced families depth [] sink s' rs ∧ rs.length = rows.length := by
  have hrule := foldlM_passes (P := fun made s => ∃ rs, RowsPlaced families depth [] sink s rs ∧ rs.length = made.length)
    (l := rows.zipIdx) ?_ ⟨[], RowsPlaced.refl hfilled (by intro i row hrow; simp at hrow), rfl⟩ h
  · obtain ⟨rs, hrs, hlen⟩ := hrule
    exact ⟨rs, hrs, by rw [hlen, List.length_zipIdx]⟩
  · intro made x rest s s' hl hmade hstep
    obtain ⟨rs, hrs, hlen⟩ := hmade
    obtain ⟨row, index⟩ := x
    -- the pass number is the row's index
    have hx : rows.zipIdx[made.length]? = some (row, index) := by rw [hl]; simp
    rw [List.getElem?_zipIdx] at hx
    obtain ⟨row', hrow', hpair⟩ := Option.map_eq_some_iff.1 hx
    have hrow : row' = row := congrArg Prod.fst hpair
    have hindex : made.length = index := by simpa using congrArg Prod.snd hpair
    have hfam : families[made.length]? = some row := by
      obtain ⟨tail, rfl⟩ := hfront
      obtain ⟨hlt, _⟩ := List.getElem?_eq_some_iff.1 hrow'
      rw [List.getElem?_append_left hlt, hrow', hrow]
    have hplace : s.placeQuotientRow ([] ++ rs).length row.geometry depth "witness R width overflow"
        "witness R range overflow" = .ok s' := by
      rw [List.nil_append, hlen, hindex]
      exact hstep
    exact ⟨_, hrs.row (by rw [List.nil_append, hlen, hfam]; rfl) hplace, by simp [hlen]⟩

end

section layer

variable {layout : RelationRhsLayout} {numGroups : ℕ} {mapIndex : Fin compressionMapCount} {plan : RelationQuotientPlan}
  {families : List RelationRowFamily} {before : List WitnessQuotientRowLayout} {depth : ℕ+} {sink s s' : MaterializingTailSink}
  {row : RelationRowFamily}

/-- The map of a layer's span: a group's, or the opening's. -/
def LayerMap (layout : RelationRhsLayout) (numGroups : ℕ) (mapIndex : Fin compressionMapCount) (map : CompressionMapPlan) : Prop :=
  (∃ g < numGroups, ∃ entry, layout.groupCompressionPlan g = .ok entry ∧ map = entry.2.maps mapIndex) ∨
    ∃ opening, layout.openingCompressionPlan = .ok opening ∧ map = opening.maps mapIndex

/-- The layer alignment is at least every ring dimension of the layer. -/
theorem layerAlignment_spec (h : layerAlignment layout numGroups mapIndex = .ok alignment) {map : CompressionMapPlan}
    (hmap : LayerMap layout numGroups mapIndex map) : map.ringDimension ≤ alignment := by
  obtain ⟨opening, hopen, h⟩ := bind_eq_ok.1 h
  have hrule := foldlM_passes (P := fun made a => (opening.maps mapIndex).ringDimension ≤ a ∧
    ∀ g ∈ made, ∀ entry, layout.groupCompressionPlan g = .ok entry → (entry.2.maps mapIndex).ringDimension ≤ a)
    ?_ ⟨le_rfl, by simp⟩ h
  · rcases hmap with ⟨g, hg, entry, hentry, rfl⟩ | ⟨opening', hopen', rfl⟩
    · exact hrule.2 g (mem_range.2 hg) entry hentry
    · obtain rfl : opening = opening' := by rw [hopen] at hopen'; injection hopen'
      exact hrule.1
  · intro made g rest a a' _ hmade hstep
    obtain ⟨entry, hentry, hstep⟩ := bind_eq_ok.1 hstep
    have ha := pure_eq_ok.1 hstep
    subst ha
    refine ⟨hmade.1.trans (le_max_left _ _), ?_⟩
    intro g' hg' entry' hentry'
    rcases mem_append.1 hg' with hg' | hg'
    · exact (hmade.2 g' hg' entry' hentry').trans (le_max_left _ _)
    · obtain rfl : g' = g := by simpa using hg'
      obtain rfl : entry = entry' := by rw [hentry] at hentry'; injection hentry'
      exact le_max_right _ _

def SpanOk (layout : RelationRhsLayout) (numGroups : ℕ) (mapIndex : Fin compressionMapCount) (span : CompressionWitnessSpan) :
    Prop := LayerMap layout numGroups mapIndex span.map ∧ span.range.len = span.map.paddedDigitCount

/-- **The F spans** take consecutive places. -/
theorem placeFSpans_spec (h : placeFSpans layout numGroups mapIndex sink = .ok s') :
    ∃ fs, s' = { sink with cursor := s'.cursor, currentFSpans := sink.currentFSpans ++ fs } ∧
      Tiles sink.cursor (fs.map (·.2.range)) s'.cursor ∧ fs.length = numGroups ∧
      (∀ f ∈ fs, SpanOk layout numGroups mapIndex f.2) ∧
      ∀ g < numGroups, ∀ entry, layout.groupCompressionPlan g = .ok entry → ∃ f ∈ fs, f.2.map = entry.2.maps mapIndex := by
  have hrule := foldlM_passes (P := fun (made : List ℕ) (s : MaterializingTailSink) => ∃ fs : List (ℕ × CompressionWitnessSpan),
    s = { sink with cursor := s.cursor, currentFSpans := sink.currentFSpans ++ fs } ∧
      Tiles sink.cursor (fs.map (·.2.range)) s.cursor ∧ fs.length = made.length ∧
      (∀ f ∈ fs, SpanOk layout numGroups mapIndex f.2) ∧
      ∀ g ∈ made, ∀ entry, layout.groupCompressionPlan g = .ok entry → ∃ f ∈ fs, f.2.map = entry.2.maps mapIndex)
    ?_ ⟨[], by simp, by simp [Tiles], by simp, by simp, by simp⟩ h
  · simpa using hrule
  · intro made g rest s s' hl hmade hstep
    obtain ⟨fs, hs, htiles, hlen, hfs, hmaps⟩ := hmade
    obtain ⟨⟨groupIndex, groupPlan⟩, hentry, hstep⟩ := bind_eq_ok.1 hstep
    have hs' := placeFSpan_spec hstep
    have hg : g < numGroups := mem_range.1 (by rw [hl]; simp)
    refine ⟨fs ++ [(groupIndex, ⟨groupPlan.maps mapIndex, ⟨s.cursor, s.cursor + (groupPlan.maps mapIndex).paddedDigitCount⟩⟩)],
      ?_, ?_, by simp [hlen], ?_, ?_⟩
    · rw [hs', hs]
      simp
    · rw [hs', map_append]
      exact htiles.concat rfl (Nat.le_add_right _ _)
    · intro f hf
      rcases mem_append.1 hf with hf | hf
      · exact hfs f hf
      · obtain rfl : f = _ := mem_singleton.1 hf
        exact ⟨.inl ⟨g, hg, _, hentry, rfl⟩, Nat.add_sub_cancel_left ..⟩
    · intro g' hg' entry hentry'
      rcases mem_append.1 hg' with hg' | hg'
      · obtain ⟨f, hf, hmap⟩ := hmaps g' hg' entry hentry'
        exact ⟨f, mem_append_left _ hf, hmap⟩
      · obtain rfl : g' = g := mem_singleton.1 hg'
        obtain rfl : entry = (groupIndex, groupPlan) := Except.ok.inj (hentry'.symm.trans hentry)
        exact ⟨_, mem_append_right _ (mem_singleton.2 rfl), rfl⟩

theorem compressionRow_spec {offset : ℕ} {missing : String} {entry : ℕ × RelationRowFamily}
    (h : compressionRow numGroups families mapIndex offset missing = .ok entry) :
    entry.1 = families.findIdx (·.isCompression) + (mapIndex * (numGroups + 1) + offset) ∧ families[entry.1]? = some entry.2 := by
  obtain ⟨rowIndex, hindex, h⟩ := bind_eq_ok.1 h
  obtain ⟨-, rfl⟩ := checkedAdd_eq_some.1 (okOr_eq_ok.1 hindex)
  obtain ⟨row, hrow, h⟩ := bind_eq_ok.1 h
  have hentry := pure_eq_ok.1 h
  subst hentry
  exact ⟨rfl, okOr_eq_ok.1 hrow⟩

theorem expectF_spec {entry : ℕ × RelationRowGeometry} (h : expectF mapIndex row = .ok entry) :
    row.geometry = entry.2 := by
  cases row <;> simp only [expectF] at h
  case compressionF =>
    split at h
    · cases h
      rfl
    · cases h
  all_goals cases h

theorem expectH_spec (h : expectH mapIndex row = .ok geometry) : row.geometry = geometry := by
  cases row <;> simp only [expectH] at h
  case compressionH =>
    split at h
    · cases h
      rfl
    · cases h
  all_goals cases h

/-- **The F quotient rows** of a layer fill the next slots. -/
theorem placeFQuotientRows_spec (hfilled : Filled sink.quotientRows before) (hrows : RowsOf families depth before)
    (hbefore : before.length = families.findIdx (·.isCompression) + mapIndex * (numGroups + 1))
    (h : (range numGroups).foldlM (placeFQuotientRow layout numGroups families mapIndex depth) sink = .ok s') :
    ∃ rs, RowsPlaced families depth before sink s' rs ∧ rs.length = numGroups := by
  have hrule := foldlM_passes (P := fun (made : List ℕ) (s : MaterializingTailSink) => ∃ rs,
    RowsPlaced families depth before sink s rs ∧ rs.length = made.length) ?_ ⟨[], .refl hfilled hrows, rfl⟩ h
  · simpa using hrule
  · intro made g rest s s' hl hmade hstep
    obtain ⟨rs, hrs, hlen⟩ := hmade
    obtain rfl := eq_length_of_range hl
    obtain ⟨⟨rowIndex, row⟩, hrow, hstep⟩ := bind_eq_ok.1 hstep
    obtain ⟨⟨groupIndex, geometry⟩, hexpect, hstep⟩ := bind_eq_ok.1 hstep
    simp only [bind_eq_ok] at hstep
    obtain ⟨_, _, _, _, placed, hplaced, hstep⟩ := hstep
    have hs' := pure_eq_ok.1 hstep
    obtain ⟨hindex, hfam⟩ := compressionRow_spec hrow
    -- the row's index is the number of rows placed before it
    have hat : rowIndex = (before ++ rs).length := by
      rw [length_append, hbefore, hlen]
      omega
    subst hat
    have hnext := hrs.row (by rw [hfam]; exact congrArg some (expectF_spec hexpect)) hplaced
    refine ⟨rs ++ [rowAt s.cursor geometry depth], ?_, by simp [hlen]⟩
    rw [← hs']
    exact hnext.record groupIndex _

def layerRows (plan : RelationQuotientPlan) (numGroups : ℕ) : ℕ := if plan.quotientDepth.isSome then numGroups + 1 else 0

/-- **The quotient rows of a layer**: one for each F span, then one for the H span. -/
theorem placeLayerQuotientRows_spec {row : Option ℕ} (hfilled : Filled sink.quotientRows before)
    (hrows : ∀ depth, plan.quotientDepth = some depth → RowsOf families depth before)
    (hbefore : ∀ depth, plan.quotientDepth = some depth →
      before.length = families.findIdx (·.isCompression) + mapIndex * (numGroups + 1))
    (h : placeLayerQuotientRows layout numGroups plan families mapIndex sink = .ok (s', row)) : ∃ rs, s' = { sink with
        cursor := s'.cursor
        quotientRows := s'.quotientRows
        currentFQuotientRows := s'.currentFQuotientRows } ∧
      Tiles sink.cursor (rs.map (·.range)) s'.cursor ∧ Filled s'.quotientRows (before ++ rs) ∧
      s'.quotientRows.length = sink.quotientRows.length ∧ rs.length = layerRows plan numGroups ∧
      ∀ depth, plan.quotientDepth = some depth → RowsOf families depth (before ++ rs) := by
  unfold placeLayerQuotientRows at h
  unfold layerRows
  cases hdepth : plan.quotientDepth with
  | none =>
    rw [hdepth] at h
    obtain ⟨rfl, -⟩ := Prod.mk.inj (Except.ok.inj h)
    exact ⟨[], rfl, rfl, by simpa using hfilled, rfl, rfl, by simp⟩
  | some depth =>
    rw [hdepth] at h
    obtain ⟨s, hs, h⟩ := bind_eq_ok.1 h
    obtain ⟨⟨rowIndex, hRow⟩, hrow, h⟩ := bind_eq_ok.1 h
    simp only [bind_eq_ok] at h
    obtain ⟨geometry, hexpect, placed, hplaced, h⟩ := h
    obtain ⟨rfl, -⟩ := Prod.mk.inj (pure_eq_ok.1 h)
    obtain ⟨rs, hrs, hlen⟩ := placeFQuotientRows_spec hfilled (hrows depth hdepth) (hbefore depth hdepth) hs
    obtain ⟨hindex, hfam⟩ := compressionRow_spec hrow
    have hat : rowIndex = (before ++ rs).length := by
      rw [length_append, hbefore depth hdepth, hlen]
      omega
    subst hat
    have hnext := hrs.row (by rw [hfam]; exact congrArg some (expectH_spec hexpect)) hplaced
    refine ⟨_, hnext.frame, hnext.tiles, hnext.filled, hnext.slots, by simp [hlen], ?_⟩
    intro depth' hdepth'
    obtain rfl : depth = depth' := Option.some.inj hdepth'
    exact hnext.rowsOf

end layer

def layerStart (layer : CompressionWitnessLayerLayout) : ℕ :=
  (layer.fSpans.head?.map (·.2.range.start)).getD layer.hSpan.range.start

def layerRanges (layer : CompressionWitnessLayerLayout) : List Span := (WitnessLayout.layerSpans layer).map (·.range)

/-- A finished layer: consecutive spans, F spans first, with the lengths of their maps, starting at a
multiple of every ring dimension of the layer. -/
structure LayerOk (layer : CompressionWitnessLayerLayout) : Prop where
  nonempty : layer.fSpans ≠ []
  consecutive : Tiles (layerStart layer) (layerRanges layer) layer.hSpan.range.stop
  lengths : ∀ s ∈ WitnessLayout.layerSpans layer, s.range.len = s.map.paddedDigitCount
  aligned : ∀ s ∈ WitnessLayout.layerSpans layer, s.map.ringDimension ∣ layerStart layer

theorem layerStart_eq {layer : CompressionWitnessLayerLayout} {lo hi : ℕ} (h : Tiles lo (layerRanges layer) hi) :
    layerStart layer = lo := by
  unfold layerStart
  cases hf : layer.fSpans with
  | nil =>
    simp only [layerRanges, WitnessLayout.layerSpans, hf] at h
    exact h.1
  | cons f fs =>
    simp only [layerRanges, WitnessLayout.layerSpans, hf] at h
    exact h.1

section compression

variable {layout : RelationRhsLayout} {numGroups : ℕ} {plan : RelationQuotientPlan} {families : List RelationRowFamily}
  {rows : List WitnessQuotientRowLayout} {sink sink' : MaterializingTailSink} {start : ℕ} {suffixAlignment : ℕ}
  {tail : MaterializedWitnessTail}

/-- **One layer**: its gap, its spans, then its quotient rows. -/
theorem placeLayer_spec {mapIndex : Fin compressionMapCount} (hpos : 0 < numGroups) (hidle : sink.currentFSpans = [])
    (hfilled : Filled sink.quotientRows rows) (hrows : ∀ depth, plan.quotientDepth = some depth → RowsOf families depth rows)
    (hcount : ∀ depth, plan.quotientDepth = some depth →
      rows.length = families.findIdx (·.isCompression) + mapIndex * (numGroups + 1))
    (h : placeLayer layout numGroups plan families sink mapIndex = .ok sink') :
    ∃ layer rs alignment, alignUp sink.cursor alignment = some (layerStart layer) ∧ LayerOk layer ∧
      Tiles sink.cursor (gap sink.cursor (layerStart layer) ++ layerRanges layer ++ rs.map (·.range)) sink'.cursor ∧
      sink'.compressionLayers = sink.compressionLayers ++ [layer] ∧
      sink'.compressionAlignmentRanges = sink.compressionAlignmentRanges ++ gap sink.cursor (layerStart layer) ∧
      sink'.currentFSpans = [] ∧ Filled sink'.quotientRows (rows ++ rs) ∧
      sink'.quotientRows.length = sink.quotientRows.length ∧ rs.length = layerRows plan numGroups ∧
      (∀ depth, plan.quotientDepth = some depth → RowsOf families depth (rows ++ rs)) ∧
      layerAlignment layout numGroups mapIndex = .ok alignment ∧
      ∀ map, LayerMap layout numGroups mapIndex map ↔ ∃ s ∈ WitnessLayout.layerSpans layer, s.map = map := by
  obtain ⟨alignment, halign, h⟩ := bind_eq_ok.1 h
  obtain ⟨s1, h1, h⟩ := bind_eq_ok.1 h
  obtain ⟨s2, h2, h⟩ := bind_eq_ok.1 h
  obtain ⟨opening, hopen, h⟩ := bind_eq_ok.1 h
  obtain ⟨s3, h3, h⟩ := bind_eq_ok.1 h
  obtain ⟨⟨s4, hRow⟩, h4, h⟩ := bind_eq_ok.1 h
  unfold finishCompressionLayer at h
  simp only [bind_eq_ok] at h
  obtain ⟨hSpan, hspan, _, _, h⟩ := h
  have hsink' := pure_eq_ok.1 h
  have hspan := okOr_eq_ok.1 hspan
  obtain ⟨hup, hs1⟩ := align_spec h1
  obtain ⟨fs, hs2, hftiles, hflen, hfs, hmaps⟩ := placeFSpans_spec h2
  have hs3 := placeHSpan_spec h3
  have hslots3 : s3.quotientRows = sink.quotientRows := by rw [hs3, hs2, hs1]
  obtain ⟨rs, hs4, hrtiles, hrfilled, hrslots, hrlen, hrof⟩ :=
    placeLayerQuotientRows_spec (hslots3 ▸ hfilled) hrows hcount h4
  obtain ⟨hpow, hdvd, hle, -⟩ := alignUp_spec hup
  -- the layer that is pushed
  have hcur : s4.currentFSpans = fs := by rw [hs4, hs3, hs2, hs1, hidle]; rfl
  have hh : hSpan = ⟨opening.maps mapIndex, ⟨s2.cursor, s3.cursor⟩⟩ := by
    have hh4 : s4.currentHSpan = some ⟨opening.maps mapIndex, ⟨s2.cursor, s3.cursor⟩⟩ := by rw [hs4, hs3]
    exact Option.some.inj (hspan.symm.trans hh4)
  have hcursor3 : s2.cursor ≤ s3.cursor := by rw [hs3]; exact Nat.le_add_right _ _
  have hspans : Tiles s1.cursor (fs.map (·.2.range) ++ [hSpan.range]) s3.cursor := by
    rw [hh]
    exact hftiles.concat rfl hcursor3
  have hok : ∀ s ∈ fs.map (·.2) ++ [hSpan], SpanOk layout numGroups mapIndex s := by
    intro s hs
    rcases mem_append.1 hs with hs | hs
    · obtain ⟨f, hf, rfl⟩ := mem_map.1 hs
      exact hfs f hf
    · obtain rfl : s = hSpan := mem_singleton.1 hs
      rw [hh]
      refine ⟨.inr ⟨opening, hopen, rfl⟩, ?_⟩
      rw [hs3]
      exact Nat.add_sub_cancel_left ..
  subst hsink'
  rw [hcur]
  obtain ⟨layer, hlayer⟩ : ∃ layer : CompressionWitnessLayerLayout, layer = ⟨mapIndex, fs, hSpan,
    if plan.quotientDepth.isSome then some s4.currentFQuotientRows else none, hRow⟩ := ⟨_, rfl⟩
  have hlayerSpans : WitnessLayout.layerSpans layer = fs.map (·.2) ++ [hSpan] := by rw [hlayer]; rfl
  have hranges : layerRanges layer = fs.map (·.2.range) ++ [hSpan.range] := by
    rw [layerRanges, hlayerSpans, map_append, map_map]
    rfl
  have hstop : layer.hSpan.range.stop = s3.cursor := by rw [hlayer, hh]
  have hstart : layerStart layer = s1.cursor := layerStart_eq (hranges ▸ hspans)
  refine ⟨layer, rs, alignment, hstart ▸ hup, ⟨?_, ?_, ?_, ?_⟩, ?_, ?_, ?_, rfl, hrfilled, ?_, hrlen, hrof, halign, ?_⟩
  · rw [hlayer]
    exact ne_nil_of_length_pos (hflen ▸ hpos)
  · rw [hranges, hstart, hstop]
    exact hspans
  · intro s hs
    exact (hok s (hlayerSpans ▸ hs)).2
  · -- every ring dimension is a power of two below the layer alignment
    intro s hs
    rw [hstart]
    have hdim := layerAlignment_spec halign (hok s (hlayerSpans ▸ hs)).1
    exact (dvd_of_isPowerOfTwo s.map.isPow2 hpow hdim).trans hdvd
  · rw [hranges, hstart]
    exact ((gap_tiles hle).append hspans).append hrtiles
  · rw [hlayer, hs4, hs3, hs2, hs1]
  · rw [hs4, hs3, hs2, hs1, hstart, hs1]
  · rw [hrslots, hslots3]
  · intro map
    rw [hlayerSpans]
    constructor
    · rintro (⟨g, hg, entry, hentry, rfl⟩ | ⟨opening', hopen', rfl⟩)
      · obtain ⟨f, hf, hmap⟩ := hmaps g hg entry hentry
        exact ⟨f.2, mem_append_left _ (mem_map_of_mem hf), hmap⟩
      · obtain rfl : opening' = opening := Except.ok.inj (hopen'.symm.trans hopen)
        exact ⟨hSpan, mem_append_right _ (mem_singleton.2 rfl), by rw [hh]⟩
    · rintro ⟨s, hs, rfl⟩
      exact (hok s hs).1

/-- The places from `start` to `cursor` are taken by the rows, the spans of the layers and the gaps; the
rows come in order. -/
def Taken (start cursor : ℕ) (rows : List WitnessQuotientRowLayout) (layers : List CompressionWitnessLayerLayout)
    (gaps : List Span) : Prop :=
  ∃ trace : List Span, Tiles start trace cursor ∧ trace.Perm (rows.map (·.range) ++ layers.flatMap layerRanges ++ gaps) ∧
    (rows.map (·.range)).Sublist trace

theorem Taken.extend {rs : List WitnessQuotientRowLayout} {cursor' : ℕ} {layers layers' : List CompressionWitnessLayerLayout} {gaps gaps' : List Span} (h : Taken start cursor rows layers gaps)
    (hnext : Tiles cursor (gaps' ++ layers'.flatMap layerRanges ++ rs.map (·.range)) cursor') :
    Taken start cursor' (rows ++ rs) (layers ++ layers') (gaps ++ gaps') := by
  obtain ⟨trace, htiles, hperm, hsub⟩ := h
  refine ⟨_, htiles.append hnext, ?_, ?_⟩
  · refine (hperm.append_right _).trans (perm_iff_count.2 fun span => ?_)
    simp only [count_append, flatMap_append, map_append]
    omega
  · rw [map_append]
    exact hsub.append (sublist_append_right _ _)

structure TailInv (families : List RelationRowFamily) (plan : RelationQuotientPlan) (start slots : ℕ)
    (rows : List WitnessQuotientRowLayout) (sink : MaterializingTailSink) : Prop where
  taken : Taken start sink.cursor rows sink.compressionLayers sink.compressionAlignmentRanges
  idle : sink.currentFSpans = []
  filled : Filled sink.quotientRows rows
  slotCount : sink.quotientRows.length = slots
  rowsOf : ∀ depth, plan.quotientDepth = some depth → RowsOf families depth rows
  layers : ∀ layer ∈ sink.compressionLayers, LayerOk layer

variable {slots : ℕ}

theorem TailInv.align (hinv : TailInv families plan start slots rows sink) (h : sink.align alignment overflow = .ok sink') :
    TailInv families plan start slots rows sink' := by
  obtain ⟨hup, hsink'⟩ := align_spec h
  obtain ⟨-, -, hle, -⟩ := alignUp_spec hup
  have hgap : Tiles sink.cursor (gap sink.cursor sink'.cursor ++ ([] : List CompressionWitnessLayerLayout).flatMap layerRanges ++
      ([] : List WitnessQuotientRowLayout).map (·.range)) sink'.cursor := by simpa using gap_tiles hle
  have htaken := hinv.taken.extend hgap
  rw [append_nil, append_nil] at htaken
  rw [hsink']
  exact ⟨htaken, hinv.idle, hinv.filled, hinv.slotCount, hinv.rowsOf, hinv.layers⟩

/-- **The ordinary rows** come first. -/
theorem placeOrdinary_inv (h : placeOrdinary plan families (.new start) = .ok sink) :
    ∃ rows, TailInv families plan start (if plan.quotientDepth.isSome then families.length else 0) rows sink ∧
      sink.compressionLayers = [] ∧
      (∀ depth, plan.quotientDepth = some depth → rows.length = families.findIdx (·.isCompression)) ∧
      Tiles start (rows.map (·.range)) sink.cursor := by
  unfold placeOrdinary at h
  cases hdepth : plan.quotientDepth with
  | none =>
    rw [hdepth] at h
    cases h
    exact ⟨[], ⟨⟨[], rfl, .refl _, .refl _⟩, rfl, ⟨0, rfl⟩, rfl, by simp [hdepth], by simp [MaterializingTailSink.new]⟩, rfl,
      by simp, rfl⟩
  | some depth =>
    rw [hdepth] at h
    obtain ⟨rs, hrs, hlen⟩ := placeOrdinaryRows_spec ⟨_, take_append_drop _ _⟩ ⟨families.length, by
      simp [prepareQuotientRows]⟩ h
    have htaken : Taken start sink.cursor rs [] [] := ⟨rs.map WitnessQuotientRowLayout.range, hrs.tiles, by simp, .refl _⟩
    refine ⟨rs, ⟨?_, ?_, by simpa using hrs.filled, ?_, ?_, ?_⟩, ?_, ?_, hrs.tiles⟩
    · rw [hrs.frame]
      exact htaken
    · rw [hrs.frame]
      rfl
    · rw [hrs.slots]
      simp [prepareQuotientRows]
    · intro depth' hdepth'
      obtain rfl : depth = depth' := Option.some.inj (hdepth.symm.trans hdepth')
      simpa using hrs.rowsOf
    · rw [hrs.frame]
      simp [prepareQuotientRows, MaterializingTailSink.new]
    · rw [hrs.frame]
      rfl
    · intro _ _
      rw [hlen, length_take]
      exact min_eq_left findIdx_le_length

/-- The start of the first layer is a multiple of `block`; before any layer, the cursor is. -/
def FirstAligned (block : ℕ) (sink : MaterializingTailSink) : Prop :=
  match sink.compressionLayers with
  | [] => block ∣ sink.cursor
  | layer :: _ => block ∣ layerStart layer

/-- **The layers** keep the invariant. -/
theorem placeLayers_inv {block : ℕ} (hpos : 0 < numGroups) (hblock : block.isPowerOfTwo)
    (hinv : TailInv families plan start slots rows sink) (hfirst : FirstAligned block sink)
    (hcount : ∀ depth, plan.quotientDepth = some depth → rows.length = families.findIdx (·.isCompression))
    (h : (finRange compressionMapCount).foldlM (placeLayer layout numGroups plan families) sink = .ok sink') :
    ∃ rows', TailInv families plan start slots rows' sink' ∧ FirstAligned block sink' := by
  have hrule := foldlM_passes (P := fun (made : List (Fin compressionMapCount)) (s : MaterializingTailSink) => ∃ rows',
    TailInv families plan start slots rows' s ∧ FirstAligned block s ∧ ∀ depth, plan.quotientDepth = some depth →
      rows'.length = families.findIdx (·.isCompression) + made.length * (numGroups + 1))
    ?_ ⟨rows, hinv, hfirst, by simpa using hcount⟩ h
  · obtain ⟨rows', hinv', hfirst', -⟩ := hrule
    exact ⟨rows', hinv', hfirst'⟩
  · intro made mapIndex rest s s' hl hmade hstep
    obtain ⟨rows', hinv, hfirst, hcount⟩ := hmade
    have hindex : (mapIndex : ℕ) = made.length := by
      have hx : (finRange compressionMapCount)[made.length]? = some mapIndex := by rw [hl]; simp
      obtain ⟨hlt, hx⟩ := List.getElem?_eq_some_iff.1 hx
      rw [← hx]
      simp
    obtain ⟨layer, rs, alignment, hup, hlayer, htiles, hlayers, hgaps, hidle, hfilled, hslots, hrlen, hrof, -⟩ :=
      placeLayer_spec hpos hinv.idle hinv.filled hinv.rowsOf (hindex ▸ hcount) hstep
    refine ⟨rows' ++ rs, ⟨?_, hidle, hfilled, hslots.trans hinv.slotCount, hrof, ?_⟩, ?_, ?_⟩
    · rw [hlayers, hgaps]
      have hnext : Tiles s.cursor (gap s.cursor (layerStart layer) ++ [layer].flatMap layerRanges ++ rs.map (·.range))
          s'.cursor := by
        rw [List.flatMap_singleton]
        exact htiles
      exact hinv.taken.extend hnext
    · intro l hmem
      rw [hlayers] at hmem
      rcases List.mem_append.1 hmem with hmem | hmem
      · exact hinv.layers l hmem
      · obtain rfl : l = layer := List.mem_singleton.1 hmem
        exact hlayer
    · -- the first layer starts where the aligned cursor was aligned again
      unfold FirstAligned at hfirst ⊢
      rw [hlayers]
      cases hs : s.compressionLayers with
      | nil =>
        rw [hs] at hfirst
        exact alignUp_keeps hup hblock hfirst
      | cons first others =>
        rw [hs] at hfirst
        exact hfirst
    · intro depth hdepth
      rw [List.length_append, hcount depth hdepth, hrlen, layerRows, hdepth]
      simp only [Option.isSome_some, if_true, List.length_append, List.length_singleton]
      ring

/-- What `materialize` returns: the tail's rows, layers and gaps take all places from its start to its
end. -/
structure TailOk (layout : RelationRhsLayout) (compressed : Bool) (plan : RelationQuotientPlan) (suffixAlignment start : ℕ)
    (rows : List WitnessQuotientRowLayout) (tail : MaterializedWitnessTail) : Prop where
  taken : Taken start tail.stop rows tail.compressionLayers tail.compressionAlignmentRanges
  quotients : match plan with
    | .quotientLift depth => tail.relationQuotients = .quotientLift depth rows ∧
      ∃ families, layout.rowFamilies = .ok families ∧ rows.length = families.length ∧ RowsOf families depth rows
    | .reducedEvaluation => tail.relationQuotients = .reducedEvaluation ∧ rows = []
  layers : ∀ layer ∈ tail.compressionLayers, LayerOk layer
  first : ∀ block, layout.relationCoefficientBlockLen = .ok block → ∀ layer ∈ tail.compressionLayers.head?,
    block ∣ layerStart layer
  suffix : compressed = true → suffixAlignment ∣ tail.stop

theorem finish_ok {compressed : Bool} (hfams : plan.rowFamilies layout = .ok families)
    (hinv : TailInv families plan start (if plan.quotientDepth.isSome then families.length else 0) rows sink)
    (hfirst : ∀ block, layout.relationCoefficientBlockLen = .ok block → ∀ layer ∈ sink.compressionLayers.head?,
      block ∣ layerStart layer) (hsuffix : compressed = true → suffixAlignment ∣ sink.cursor) (h : sink.finish plan = .ok tail) :
    TailOk layout compressed plan suffixAlignment start rows tail := by
  obtain ⟨quotients, hquots, h⟩ := bind_eq_ok.1 h
  have htail := pure_eq_ok.1 h
  subst htail
  refine ⟨hinv.taken, ?_, hinv.layers, hfirst, hsuffix⟩
  have hslots := hinv.slotCount
  cases plan with
  | quotientLift depth =>
    obtain ⟨out, hout, hquots⟩ := bind_eq_ok.1 hquots
    have hq := pure_eq_ok.1 hquots
    obtain ⟨rfl, hlen⟩ := hinv.filled.collect hout
    exact ⟨hq.symm, families, hfams, hlen.symm.trans hslots, hinv.rowsOf depth rfl⟩
  | reducedEvaluation =>
    have hq := Except.ok.inj hquots
    refine ⟨hq.symm, ?_⟩
    -- without slots there are no rows
    obtain ⟨free, hfilled⟩ := hinv.filled
    have hlen := congrArg length hfilled
    rw [hslots] at hlen
    exact length_eq_zero_iff.1 (by simp [RelationQuotientPlan.quotientDepth] at hlen; omega)

/-- **The tail.** -/
theorem materialize_ok {params : CommittedGroupParams} (hpos : 0 < numGroups)
    (h : materialize params layout numGroups plan suffixAlignment start = .ok tail) :
    ∃ rows, TailOk layout params.payloadMode.isCompressed plan suffixAlignment start rows tail := by
  unfold materialize at h
  simp only [bind_eq_ok] at h
  obtain ⟨_, _, _, _, families, hfams, sink, hsink, h⟩ := h
  obtain ⟨rows, hinv, hnone, hcount, -⟩ := placeOrdinary_inv hsink
  split at h
  · next hcomp =>
    obtain ⟨last, hlast, h⟩ := bind_eq_ok.1 h
    unfold placeCompression at hlast
    simp only [bind_eq_ok] at hlast
    obtain ⟨block, hblock, s1, h1, s2, h2, hlast⟩ := hlast
    obtain ⟨hup1, hs1⟩ := align_spec h1
    obtain ⟨hpow, hdvd, -, -⟩ := alignUp_spec hup1
    have hfirst1 : FirstAligned block s1 := by
      have hnone1 : s1.compressionLayers = [] := by rw [hs1]; exact hnone
      rw [FirstAligned, hnone1]
      exact hdvd
    obtain ⟨rows', hinv', hfirst'⟩ := placeLayers_inv hpos hpow (hinv.align h1) hfirst1 hcount h2
    obtain ⟨hup3, hs3⟩ := align_spec hlast
    obtain ⟨-, hdvd3, -, -⟩ := alignUp_spec hup3
    refine ⟨rows', finish_ok hfams (hinv'.align hlast) ?_ (fun _ => hdvd3) h⟩
    intro block' hblock' layer hlayer
    obtain rfl : block = block' := by rw [hblock] at hblock'; injection hblock'
    have hlayers : last.compressionLayers = s2.compressionLayers := by rw [hs3]
    rw [hlayers] at hlayer
    unfold FirstAligned at hfirst'
    cases hl : s2.compressionLayers with
    | nil => rw [hl] at hlayer; simp at hlayer
    | cons first others =>
      rw [hl] at hlayer hfirst'
      obtain rfl : first = layer := by simpa using hlayer
      exact hfirst'
  · next hraw =>
    refine ⟨rows, finish_ok hfams hinv ?_ (fun hc => absurd hc hraw) h⟩
    intro _ _ layer hlayer
    rw [hnone] at hlayer
    simp at hlayer

end compression

end Akita.Witness
