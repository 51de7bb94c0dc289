import Akita.Proof.WitnessTail
import Akita.Spec.WitnessChunkShape

/-!
# The tail of a witness layout, from any start

* `CompressedRun.shift`: behind its first aligned place a compressed tail is the same wherever it starts.
* `CompressedRun.placed`: where the rows and the layers of a compressed tail are.
-/

namespace Akita.Witness

open Lib List

section tails

variable {layout : RelationRhsLayout} {numGroups : ℕ} {plan : RelationQuotientPlan} {families : List RelationRowFamily}
  {mapIndex : Fin compressionMapCount} {x y : ℕ} {s t s' t' : MaterializingTailSink} {alignment : ℕ}

/-- Two sinks that are equally far behind `x` and `y`. -/
def Shift (x y : ℕ) (s t : MaterializingTailSink) : Prop := ∃ n, s.cursor = x + n ∧ t.cursor = y + n

theorem Shift.add (h : Shift x y s t) {n : ℕ} (hs : s'.cursor = s.cursor + n) (ht : t'.cursor = t.cursor + n) : Shift x y s' t' := by
  obtain ⟨m, hm, hm'⟩ := h
  exact ⟨m + n, by omega, by omega⟩

/-- Behind multiples of the alignment, aligning keeps the distance. -/
theorem Shift.roundUp (h : Shift x y s t) (hpos : 0 < alignment) (hx : alignment ∣ x) (hy : alignment ∣ y)
    (hs : s'.cursor = roundUp alignment s.cursor) (ht : t'.cursor = roundUp alignment t.cursor) : Shift x y s' t' := by
  obtain ⟨m, hm, hm'⟩ := h
  exact ⟨Lib.roundUp alignment m, by rw [hs, hm, roundUp_add hpos hx], by rw [ht, hm', roundUp_add hpos hy]⟩

theorem placeFSpan_shift (groupIndex : ℕ) (map : CompressionMapPlan) (h : Shift x y s t) :
    Agrees (Shift x y) (s.placeFSpan groupIndex map) (t.placeFSpan groupIndex map) := by
  intro s' t' hs ht
  exact h.add (congrArg MaterializingTailSink.cursor (placeFSpan_spec hs)) (congrArg MaterializingTailSink.cursor (placeFSpan_spec ht))

theorem placeHSpan_shift (map : CompressionMapPlan) (h : Shift x y s t) :
    Agrees (Shift x y) (s.placeHSpan map) (t.placeHSpan map) := by
  intro s' t' hs ht
  exact h.add (congrArg MaterializingTailSink.cursor (placeHSpan_spec hs)) (congrArg MaterializingTailSink.cursor (placeHSpan_spec ht))

theorem placeQuotientRow_shift (rowIndex : ℕ) (geometry : RelationRowGeometry) (depth : ℕ+) (wide far : String) (h : Shift x y s t) :
    Agrees (Shift x y) (s.placeQuotientRow rowIndex geometry depth wide far) (t.placeQuotientRow rowIndex geometry depth wide far) := by
  intro s' t' hs ht
  obtain ⟨-, -, hs⟩ := placeQuotientRow_spec hs
  obtain ⟨-, -, ht⟩ := placeQuotientRow_spec ht
  exact h.add (congrArg MaterializingTailSink.cursor hs) (congrArg MaterializingTailSink.cursor ht)

theorem placeOrdinary_shift (families : List RelationRowFamily) (h : Shift x y s t) :
    Agrees (Shift x y) (placeOrdinary plan families s) (placeOrdinary plan families t) := by
  unfold placeOrdinary
  split
  · exact .ok h
  · exact Agrees.foldlM (fun row _ _ _ hst => placeQuotientRow_shift row.2 row.1.geometry _ _ _ hst) h

theorem placeFSpans_shift (h : Shift x y s t) :
    Agrees (Shift x y) (placeFSpans layout numGroups mapIndex s) (placeFSpans layout numGroups mapIndex t) := by
  refine Agrees.foldlM (fun g _ s t hst => ?_) h
  exact .share fun entry _ => placeFSpan_shift entry.1 (entry.2.maps mapIndex) hst

theorem placeFQuotientRow_shift (depth : ℕ+) (relationGroupIndex : ℕ) (h : Shift x y s t) :
    Agrees (Shift x y) (placeFQuotientRow layout numGroups families mapIndex depth s relationGroupIndex)
      (placeFQuotientRow layout numGroups families mapIndex depth t relationGroupIndex) := by
  refine .share fun row _ => .share fun entry _ => .share fun planned _ => .share fun _ _ => ?_
  exact (placeQuotientRow_shift row.1 entry.2 depth _ _ h).bind fun _ _ _ _ hst => .ok hst

theorem placeLayerQuotientRows_shift (h : Shift x y s t) :
    Agrees (fun p q : MaterializingTailSink × Option ℕ => Shift x y p.1 q.1)
      (placeLayerQuotientRows layout numGroups plan families mapIndex s)
      (placeLayerQuotientRows layout numGroups plan families mapIndex t) := by
  unfold placeLayerQuotientRows
  split
  · exact .ok h
  · next depth _ =>
    have hrows : Agrees (Shift x y) ((range numGroups).foldlM (placeFQuotientRow layout numGroups families mapIndex depth) s)
        ((range numGroups).foldlM (placeFQuotientRow layout numGroups families mapIndex depth) t) :=
      Agrees.foldlM (fun i _ _ _ hst => placeFQuotientRow_shift depth i hst) h
    refine hrows.bind fun _ _ _ _ hst => .share fun row _ => .share fun geometry _ => ?_
    exact (placeQuotientRow_shift row.1 geometry depth _ _ hst).bind fun _ _ _ _ hrow => .ok hrow

theorem finishCompressionLayer_cursor {index : ℕ} {row : Option ℕ} (h : s.finishCompressionLayer index row plan = .ok s') :
    s'.cursor = s.cursor := by
  obtain ⟨_, _, h⟩ := bind_eq_ok.1 h
  obtain ⟨_, _, h⟩ := bind_eq_ok.1 h
  rw [← pure_eq_ok.1 h]

/-- **A layer** is the same behind its aligned start, wherever that is. -/
theorem placeLayer_shift (halign : layerAlignment layout numGroups mapIndex = .ok alignment)
    (hstart : ∀ s₁ t₁ : MaterializingTailSink, s₁.cursor = roundUp alignment s.cursor → t₁.cursor = roundUp alignment t.cursor →
      Shift x y s₁ t₁) :
    Agrees (Shift x y) (placeLayer layout numGroups plan families s mapIndex) (placeLayer layout numGroups plan families t mapIndex) := by
  refine .share fun alignment' halign' => ?_
  obtain rfl : alignment = alignment' := Except.ok.inj (halign.symm.trans halign')
  have haligned : Agrees (Shift x y) (s.align alignment "compression layer alignment overflow")
      (t.align alignment "compression layer alignment overflow") :=
    fun s₁ t₁ hs ht => hstart s₁ t₁ (alignUp_eq (align_spec hs).1).2 (alignUp_eq (align_spec ht).1).2
  refine haligned.bind fun _ _ _ _ h₁ => (placeFSpans_shift h₁).bind fun _ _ _ _ h₂ => .share fun opening _ => ?_
  refine (placeHSpan_shift (opening.maps mapIndex) h₂).bind fun _ _ _ _ h₃ => ?_
  refine (placeLayerQuotientRows_shift h₃).bind fun p q _ _ h₄ => fun s' t' hs ht => ?_
  exact h₄.add (n := 0) (finishCompressionLayer_cursor hs) (finishCompressionLayer_cursor ht)

theorem layerAlignment_attained (h : layerAlignment layout numGroups mapIndex = .ok alignment) :
    ∃ map, LayerMap layout numGroups mapIndex map ∧ map.ringDimension = alignment := by
  obtain ⟨opening, hopen, h⟩ := bind_eq_ok.1 h
  refine foldlM_passes (P := fun _ a => ∃ map, LayerMap layout numGroups mapIndex map ∧ map.ringDimension = a) ?_
    ⟨_, .inr ⟨opening, hopen, rfl⟩, rfl⟩ h
  intro made g rest a a' hl ha hstep
  obtain ⟨entry, hentry, hstep⟩ := bind_eq_ok.1 hstep
  have ha' := pure_eq_ok.1 hstep
  subst ha'
  have hg : g < numGroups := mem_range.1 (by rw [hl]; simp)
  rcases le_total a (entry.2.maps mapIndex).ringDimension with hle | hle
  · exact ⟨_, .inl ⟨g, hg, entry, hentry, rfl⟩, (max_eq_right hle).symm⟩
  · rw [max_eq_left hle]
    exact ha

theorem layerAlignment_pow (h : layerAlignment layout numGroups mapIndex = .ok alignment) : alignment.isPowerOfTwo := by
  obtain ⟨map, -, rfl⟩ := layerAlignment_attained h
  exact map.isPow2

def firstMap : Fin compressionMapCount := ⟨0, by decide⟩

def secondMap : Fin compressionMapCount := ⟨1, by decide⟩

theorem CompressionChainPlan.Built.halves {chain : CompressionChainPlan} (h : chain.Built) :
    (chain.maps firstMap).ringDimension / 2 = (chain.maps secondMap).ringDimension := by
  obtain ⟨profile, maps, built, hnew, hmaps⟩ := h
  unfold Compression.CompressionChainPlan.new at hnew
  simp only [bind_eq_ok] at hnew
  obtain ⟨_, _, _, _, _, _, terminal, hcheck, _, _, _, _, hnew⟩ := hnew
  have hbuilt := pure_eq_ok.1 hnew
  have hlen : maps.toList.length = 2 := Vector.length_toList
  obtain ⟨first, second, hlist⟩ := length_eq_two.1 hlen
  rw [hlist] at hcheck
  obtain ⟨_, _, hcheck⟩ := bind_eq_ok.1 hcheck
  obtain ⟨_, _, hcheck⟩ := bind_eq_ok.1 hcheck
  obtain ⟨_, _, hcheck⟩ := bind_eq_ok.1 hcheck
  obtain ⟨_, _, hcheck⟩ := bind_eq_ok.1 hcheck
  obtain ⟨_, _, hcheck⟩ := bind_eq_ok.1 hcheck
  obtain ⟨_, hhalf, -⟩ := bind_eq_ok.1 hcheck
  have hhalf := ensure_eq_ok.1 hhalf _ rfl
  have hget : ∀ i : Fin Compression.compressionMapCount, maps.toList[(i : ℕ)]? = some (maps.get i) := by
    intro i
    rw [Vector.getElem?_toList, Vector.getElem?_eq_getElem i.isLt]
    rfl
  have h0 := hget firstMap
  have h1 := hget secondMap
  rw [hlist] at h0 h1
  rw [(hmaps firstMap).2.1, (hmaps secondMap).2.1, ← hbuilt]
  obtain rfl : first = maps.get firstMap := Option.some.inj h0
  obtain rfl : second = maps.get secondMap := Option.some.inj h1
  exact hhalf

theorem layerAlignment_dvd (hbuilt : layout.PlansBuilt) {first second : ℕ} (h0 : layerAlignment layout numGroups firstMap = .ok first)
    (h1 : layerAlignment layout numGroups secondMap = .ok second) : second ∣ first := by
  refine dvd_of_isPowerOfTwo (layerAlignment_pow h1) (layerAlignment_pow h0) ?_
  obtain ⟨map, hmap, rfl⟩ := layerAlignment_attained h1
  -- the plan of the widest map has at least twice its dimension in the first layer
  obtain ⟨chain, hchain, rfl, hzero⟩ : ∃ chain : CompressionChainPlan, chain.Built ∧ map = chain.maps secondMap ∧
      LayerMap layout numGroups firstMap (chain.maps firstMap) := by
    rcases hmap with ⟨g, hg, entry, hentry, hmap⟩ | ⟨opening, hopen, hmap⟩
    · refine ⟨entry.2, ?_, hmap, .inl ⟨g, hg, entry, hentry, rfl⟩⟩
      unfold RelationRhsLayout.groupCompressionPlan at hentry
      simp only [bind_eq_ok] at hentry
      obtain ⟨compression, hcomp, _, _, chain, hchain, hentry⟩ := hentry
      rw [← pure_eq_ok.1 hentry]
      exact hbuilt compression (okOr_eq_ok.1 hcomp) chain
        (mem_cons_of_mem _ (mem_of_getElem? (okOr_eq_ok.1 hchain)))
    · refine ⟨opening, ?_, hmap, .inr ⟨opening, hopen, rfl⟩⟩
      obtain ⟨compression, hcomp, rfl⟩ := Option.map_eq_some_iff.1 (okOr_eq_ok.1 hopen)
      exact hbuilt compression hcomp _ mem_cons_self
  have hle := layerAlignment_spec h0 hzero
  have hhalves := hchain.halves
  omega

structure CompressedRun (layout : RelationRhsLayout) (numGroups : ℕ) (plan : RelationQuotientPlan) (suffixAlignment start : ℕ)
    (tail : MaterializedWitnessTail) (families : List RelationRowFamily) (block : ℕ)
    (ordinary aligned first second stop : MaterializingTailSink) : Prop where
  familiesOk : plan.rowFamilies layout = .ok families
  ordinaryOk : placeOrdinary plan families (.new start) = .ok ordinary
  blockOk : layout.relationCoefficientBlockLen = .ok block
  alignedOk : ordinary.align block "compression witness alignment overflow" = .ok aligned
  firstOk : placeLayer layout numGroups plan families aligned firstMap = .ok first
  secondOk : placeLayer layout numGroups plan families first secondMap = .ok second
  stopOk : second.align suffixAlignment "compression witness suffix alignment overflow" = .ok stop
  finishOk : stop.finish plan = .ok tail

theorem materialize_run {params : CommittedGroupParams} {suffixAlignment start : ℕ} {tail : MaterializedWitnessTail}
    (hcomp : params.payloadMode.isCompressed = true)
    (h : materialize params layout numGroups plan suffixAlignment start = .ok tail) :
    ∃ families block ordinary aligned first second stop,
      CompressedRun layout numGroups plan suffixAlignment start tail families block ordinary aligned first second stop := by
  unfold materialize at h
  simp only [bind_eq_ok] at h
  obtain ⟨_, _, _, _, families, hfams, ordinary, hord, h⟩ := h
  rw [if_pos hcomp] at h
  obtain ⟨stop, hstop, h⟩ := bind_eq_ok.1 h
  unfold placeCompression at hstop
  simp only [bind_eq_ok] at hstop
  obtain ⟨block, hblock, aligned, halign, second, hlayers, hstop⟩ := hstop
  have hmaps : finRange compressionMapCount = [firstMap, secondMap] := rfl
  rw [hmaps, foldlM_cons] at hlayers
  obtain ⟨first, hfirst, hlayers⟩ := bind_eq_ok.1 hlayers
  rw [foldlM_cons] at hlayers
  obtain ⟨second', hsecond, hlayers⟩ := bind_eq_ok.1 hlayers
  obtain rfl := pure_eq_ok.1 hlayers
  exact ⟨families, block, ordinary, aligned, first, second', stop, hfams, hord, hblock, halign, hfirst, hsecond, hstop, h⟩

section

variable {suffixAlignment start start' block block' : ℕ} {tail tail' : MaterializedWitnessTail}
  {families' : List RelationRowFamily}
  {ordinary aligned first second stop ordinary' aligned' first' second' stop' : MaterializingTailSink}

theorem CompressedRun.length (h : CompressedRun layout numGroups plan suffixAlignment start tail families block ordinary aligned first
    second stop) : tail.stop = roundUp suffixAlignment second.cursor := by
  have hfinish := h.finishOk
  obtain ⟨_, _, hfinish⟩ := bind_eq_ok.1 hfinish
  rw [← pure_eq_ok.1 hfinish]
  exact (alignUp_eq (align_spec h.stopOk).1).2

/-- **Behind its first aligned place** a compressed tail is the same wherever it starts. -/
theorem CompressedRun.shift (hbuilt : layout.PlansBuilt)
    (h : CompressedRun layout numGroups plan suffixAlignment start tail families block ordinary aligned first second stop)
    (h' : CompressedRun layout numGroups plan suffixAlignment start' tail' families' block' ordinary' aligned' first' second' stop')
    (halign : layerAlignment layout numGroups firstMap = .ok alignment) :
    ∃ front back, ordinary.cursor = start + front ∧ ordinary'.cursor = start' + front ∧
      second.cursor = roundUp (max alignment block) ordinary.cursor + back ∧
      second'.cursor = roundUp (max alignment block) ordinary'.cursor + back := by
  obtain rfl : families' = families := Except.ok.inj (h'.familiesOk.symm.trans h.familiesOk)
  obtain rfl : block' = block := Except.ok.inj (h'.blockOk.symm.trans h.blockOk)
  obtain ⟨front, hfront, hfront'⟩ : Shift start start' ordinary ordinary' :=
    placeOrdinary_shift families' ⟨0, rfl, rfl⟩ ordinary ordinary' h.ordinaryOk h'.ordinaryOk
  obtain ⟨hblock, haligned⟩ := alignUp_eq (align_spec h.alignedOk).1
  obtain ⟨-, halign'⟩ := alignUp_eq (align_spec h'.alignedOk).1
  have hpow := layerAlignment_pow halign
  have hdvd : alignment ∣ max alignment block' := by
    rcases le_total alignment block' with hle | hle
    · rw [max_eq_right hle]
      exact dvd_of_isPowerOfTwo hpow hblock hle
    · rw [max_eq_left hle]
  -- both alignments in front of the first layer are one
  have hfirst : Shift (roundUp (max alignment block') ordinary.cursor) (roundUp (max alignment block') ordinary'.cursor) first first' := by
    refine placeLayer_shift halign (fun s t hs ht => ⟨0, ?_, ?_⟩) first first' h.firstOk h'.firstOk
    · rw [hs, haligned, roundUp_roundUp_max hpow hblock, add_zero]
    · rw [ht, halign', roundUp_roundUp_max hpow hblock, add_zero]
  obtain ⟨inner, hinner⟩ : ∃ inner, layerAlignment layout numGroups secondMap = .ok inner := by
    have hsecond := h.secondOk
    obtain ⟨inner, hinner, -⟩ := bind_eq_ok.1 hsecond
    exact ⟨inner, hinner⟩
  have hinnerDvd := (layerAlignment_dvd hbuilt halign hinner).trans hdvd
  obtain ⟨back, hback, hback'⟩ :=
    placeLayer_shift hinner (fun s t hs ht => hfirst.roundUp (Nat.pos_of_isPowerOfTwo (layerAlignment_pow hinner))
      (hinnerDvd.trans (dvd_roundUp _ _)) (hinnerDvd.trans (dvd_roundUp _ _)) hs ht) second second' h.secondOk h'.secondOk
  exact ⟨front, back, hfront, hfront', hback, hback'⟩

def quotientRows : RelationQuotientLayout → List WitnessQuotientRowLayout
  | .quotientLift _ rows => rows
  | .reducedEvaluation => []

theorem finish_rows {rows : List WitnessQuotientRowLayout} (h : s.finish plan = .ok tail) (hfilled : Filled s.quotientRows rows)
    (hslots : s.quotientRows.length = if plan.quotientDepth.isSome then families.length else 0) :
    quotientRows tail.relationQuotients = rows ∧ tail.compressionLayers = s.compressionLayers := by
  obtain ⟨quotients, hquots, h⟩ := bind_eq_ok.1 h
  rw [← pure_eq_ok.1 h]
  refine ⟨?_, rfl⟩
  cases plan with
  | quotientLift depth =>
    obtain ⟨out, hout, hquots⟩ := bind_eq_ok.1 hquots
    rw [← pure_eq_ok.1 hquots]
    exact (hfilled.collect hout).1
  | reducedEvaluation =>
    rw [← Except.ok.inj hquots]
    -- without slots there are no rows
    obtain ⟨free, hfilled⟩ := hfilled
    have hlen := congrArg length hfilled
    rw [hslots, length_append, length_map] at hlen
    exact (length_eq_zero_iff.1 (by simp [RelationQuotientPlan.quotientDepth] at hlen; omega)).symm

/-- What a compressed tail places: the rows `before` the first layer, then from its aligned start to `stop` the two layers
with the `later` rows. -/
structure PlacedTail (layout : RelationRhsLayout) (numGroups start base block stop : ℕ) (tail : MaterializedWitnessTail)
    (before later : List WitnessQuotientRowLayout) (l₁ l₂ : CompressionWitnessLayerLayout) (alignment : ℕ) : Prop where
  alignmentOk : layerAlignment layout numGroups firstMap = .ok alignment
  layers : tail.compressionLayers = [l₁, l₂]
  rows : quotientRows tail.relationQuotients = before ++ later
  ordinary : Tiles start (before.map (·.range)) base
  layerOk : LayerOk l₁
  first : layerStart l₁ = roundUp (max alignment block) base
  maps : ∀ map, LayerMap layout numGroups firstMap map ↔ ∃ s ∈ WitnessLayout.layerSpans l₁, s.map = map
  bounds : ∀ range ∈ later.map (·.range) ++ [l₁.hSpan.range, l₂.hSpan.range],
    layerStart l₁ ≤ range.start ∧ range.start ≤ range.stop ∧ range.stop ≤ stop
  ends : stop ∈ (later.map (·.range) ++ [l₁.hSpan.range, l₂.hSpan.range]).map (·.stop)

theorem layerRanges_eq (layer : CompressionWitnessLayerLayout) :
    layerRanges layer = layer.fSpans.map (·.2.range) ++ [layer.hSpan.range] := by
  simp [layerRanges, WitnessLayout.layerSpans]

/-- **A compressed tail** and where its parts are. -/
theorem CompressedRun.placed (hpos : 0 < numGroups)
    (h : CompressedRun layout numGroups plan suffixAlignment start tail families block ordinary aligned first second stop) :
    ∃ before later l₁ l₂ alignment,
      PlacedTail layout numGroups start ordinary.cursor block second.cursor tail before later l₁ l₂ alignment := by
  obtain ⟨before, hinv, hnone, hcount, htiles⟩ := placeOrdinary_inv h.ordinaryOk
  obtain ⟨hblock, halign⟩ := alignUp_eq (align_spec h.alignedOk).1
  have hinv := hinv.align h.alignedOk
  have hnone : aligned.compressionLayers = [] := by rw [(align_spec h.alignedOk).2]; exact hnone
  obtain ⟨l₁, rs₁, alignment, hup₁, hlayer₁, htiles₁, hlayers₁, -, hidle₁, hfilled₁, hslots₁, hlen₁, hrof₁, halignment, hmaps⟩ :=
    placeLayer_spec hpos hinv.idle hinv.filled hinv.rowsOf (fun depth hdepth => (hcount depth hdepth).trans (by simp [firstMap])) h.firstOk
  have hcount₁ : ∀ depth, plan.quotientDepth = some depth →
      (before ++ rs₁).length = families.findIdx (·.isCompression) + secondMap * (numGroups + 1) := by
    intro depth hdepth
    rw [length_append, hcount depth hdepth, hlen₁, layerRows, hdepth]
    simp [secondMap]
  obtain ⟨l₂, rs₂, _, -, -, htiles₂, hlayers₂, -, -, hfilled₂, hslots₂, -, -, -, -⟩ :=
    placeLayer_spec hpos hidle₁ hfilled₁ hrof₁ hcount₁ h.secondOk
  obtain ⟨-, hstop⟩ := align_spec h.stopOk
  have hslots : stop.quotientRows.length = if plan.quotientDepth.isSome then families.length else 0 := by
    rw [hstop]
    exact hslots₂.trans (hslots₁.trans hinv.slotCount)
  obtain ⟨hrows, hlayers⟩ := finish_rows h.finishOk (by rw [hstop]; exact hfilled₂) hslots
  have hfirst : layerStart l₁ = roundUp (max alignment block) ordinary.cursor := by
    rw [(alignUp_eq hup₁).2, halign, roundUp_roundUp_max (layerAlignment_pow halignment) hblock]
  -- behind the first gap, everything tiles the places up to the cursor
  have hplaced : Tiles (layerStart l₁) (layerRanges l₁ ++ rs₁.map (·.range) ++ (gap first.cursor (layerStart l₂) ++ layerRanges l₂ ++
      rs₂.map (·.range))) second.cursor := by
    refine Tiles.append ?_ htiles₂
    rw [append_assoc] at htiles₁
    exact (gap_tiles (alignUp_spec hup₁).2.2.1).of_append htiles₁
  refine ⟨before, rs₁ ++ rs₂, l₁, l₂, alignment, halignment, ?_, ?_, htiles, hlayer₁, hfirst, hmaps, ?_, ?_⟩
  · rw [hlayers, hstop, hlayers₂, hlayers₁, hnone]
    rfl
  · rw [hrows, append_assoc]
  · intro range hrange
    apply hplaced.bounds
    have h₁ : l₁.hSpan.range ∈ layerRanges l₁ := by simp [layerRanges_eq]
    have h₂ : l₂.hSpan.range ∈ layerRanges l₂ := by simp [layerRanges_eq]
    simp only [map_append, mem_append, mem_cons, not_mem_nil, or_false] at hrange ⊢
    rcases hrange with (hrange | hrange) | (rfl | rfl) <;> simp [*]
  · -- the last range placed is a row or, without rows, the H span
    rcases eq_nil_or_concat rs₂ with rfl | ⟨rows, row, rfl⟩
    · rw [map_nil, append_nil, layerRanges_eq l₂, ← append_assoc, ← append_assoc] at hplaced
      rw [← hplaced.stop_eq]
      simp
    · rw [concat_eq_append, map_append, map_singleton, ← append_assoc, ← append_assoc] at hplaced
      rw [← hplaced.stop_eq]
      simp

end

end tails

end Akita.Witness
