import Akita.Proof.BalancedDecompose
import Akita.Proof.CompressionWitness
import Akita.Proof.WitnessAddressing

/-!
# Emission of the tail

The quotient rows and the compression spans of a layout, each event through its own range, and the two tails, which
pass through the events in address order.
-/

namespace Akita.Witness

open Lib List
open Decompose (BalancedDecomposePow2Params CanonicalU128 digit canonAt kernel_digits new_ok
  balancedDecomposeCoefficientsPow2I8Into balancedDecomposeCoefficientsPow2SignedInto)
open Compression (PackedNegativeBinary FieldEncoding fieldModulus)

variable {depth : ℕ+} {S T : ℕ → ℤ → Prop} {row : WitnessQuotientRowLayout}

/-! ## Quotient rows -/

section

variable {F : Type} [Ring F] {toU128Checked : CanonicalU128 F} {q levels logBasis : ℕ} {params : BalancedDecomposePow2Params}

/-- **Signed bytes of a row of coefficients**, digit by digit. -/
theorem i8Into_digits {coefficients : List F} (hlaw : toU128Checked.Lawful q) (hq : 2 < q)
    (hnew : BalancedDecomposePow2Params.new toU128Checked levels logBasis = some params) {out digits : List ℤ}
    (h : balancedDecomposeCoefficientsPow2I8Into toU128Checked coefficients out params = some digits) :
    digits.length = levels * coefficients.length ∧ ∀ k < levels, ∀ i < coefficients.length,
      digits.getD (k * coefficients.length + i) 0 = digit params (canonAt toU128Checked coefficients i) k := by
  obtain ⟨-, hok⟩ := new_ok hlaw hq hnew
  unfold balancedDecomposeCoefficientsPow2I8Into balancedDecomposeCoefficientsPow2SignedInto at h
  simp only [option_some, checkedMul_eq_some, hok.levels_eq, hok.logBasis_eq] at h
  obtain ⟨_, ⟨-, rfl⟩, _, hlen, _, hwidth, h⟩ := h
  split at h
  · next hempty =>
    obtain rfl : out = digits := by simpa using h
    refine ⟨by rw [hlen, mul_comm], fun k hk i hi => ?_⟩
    rcases hempty with rfl | rfl
    · simp at hi
    · omega
  · simp only [option_some, checkedMul_eq_some] at h
    obtain ⟨_, ⟨-, rfl⟩, _, -, h⟩ := h
    obtain ⟨made, hmade, hmadeLen, hdigs⟩ := kernel_digits (T := .i8) (fun x => (hlaw.canonical x).imp fun _ hc => hc.2) hok hwidth hlen
    obtain rfl : made = digits := Option.some.inj (hmade.symm.trans h)
    refine ⟨by rw [hmadeLen, mul_comm], fun k hk i hi => ?_⟩
    rw [getD_eq_getElem?_getD, hdigs k hk i hi, Option.getD_some]

variable {row : WitnessQuotientRowLayout} {coefficients : List F} {digits : List ℤ}

theorem quotientDigits_spec (hlaw : toU128Checked.Lawful q) (hq : 2 < q)
    (hnew : BalancedDecomposePow2Params.new toU128Checked levels logBasis = some params)
    (h : quotientDigits toU128Checked coefficients row params = .ok digits) :
    digits.length = row.range.len ∧ row.range.len = levels * row.geometry.physicalCoefficientWidth ∧
      ∀ k < levels, ∀ i < row.geometry.physicalCoefficientWidth, digits.getD (k * row.geometry.physicalCoefficientWidth + i) 0 =
        digit params (canonAt toU128Checked coefficients i) k := by
  obtain ⟨-, hok⟩ := new_ok hlaw hq hnew
  simp only [quotientDigits, Checked.product, foldlM_cons, foldlM_nil, result_ok, option_some, checked_some,
    one_mul, hok.levels_eq] at h
  obtain ⟨_, ⟨_, ⟨-, rfl⟩, _, ⟨-, rfl⟩, rfl⟩, hlen, hwidth, h⟩ := h
  obtain ⟨hcount, hdigs⟩ := i8Into_digits hlaw hq hnew h
  rw [hwidth] at hcount hdigs
  exact ⟨hcount.trans hlen.symm, hlen, hdigs⟩

/-- Every tuple of a quotient row has its index, and the digit of its coefficient stands there. -/
def RStands (stands : ℕ → ℤ → Prop) (toU128Checked : CanonicalU128 F) (layout : WitnessLayout) (rowIndex : ℕ)
    (geometry : RelationRowGeometry) (coefficients : List F) (params : BalancedDecomposePow2Params) : Prop :=
  ∀ i : RTuple, i.InRange geometry params.levels →
    ∃ place, layout.rCoefficientIndex rowIndex i.digit i.plane i.coefficient = .ok place ∧ stands place
      (digit params (canonAt toU128Checked coefficients (i.plane * geometry.polynomialModulusDimension + i.coefficient)) i.digit)

variable {lp : CommittedGroupParams} {batch : OpeningClaimsLayout} {layout : WitnessLayout} {r : List (RelationQuotientRow F)} {rowIndex : ℕ}

theorem Through.write {range : Span} {items : List ℤ} (hle : range.start ≤ range.stop) (hlen : items.length = range.len) :
    Through [(⟨range.start, items⟩ : Write ℤ)] [range] := by
  refine Through.single ⟨rfl, Nat.le_add_right _ _, ?_⟩
  change range.start + items.length = range.stop
  unfold Span.len at hlen
  omega

structure RowWrites (ws : List (Write ℤ)) (toU128Checked : CanonicalU128 F) (layout : WitnessLayout) (rowIndex : ℕ)
    (row : WitnessQuotientRowLayout) (quotient : RelationQuotientRow F) (params : BalancedDecomposePow2Params) : Prop where
  through : Through ws [row.range]
  stands : RStands (Puts 0 ws) toU128Checked layout rowIndex row.geometry quotient.coefficients params

/-- **A quotient event.** -/
theorem emitQuotientEvent_yields (hlaw : toU128Checked.Lawful q) (hq : 2 < q)
    (hnew : BalancedDecomposePow2Params.new toU128Checked levels logBasis = some params) (hlayout : Emittable lp batch layout)
    (hdepth : layout.quotientDepth = some depth) (hlevels : depth = levels) (hrow : layout.rRows[rowIndex]? = some row) :
    Yields (fun _ write out => emitQuotientEvent write toU128Checked layout r params rowIndex out) fun ws =>
      ∃ quotient, r[rowIndex]? = some quotient ∧ RowWrites ws toU128Checked layout rowIndex row quotient params := by
  refine Yields.after fun quotient hquot => Yields.after fun row' hrow' => Yields.after fun _ _ => Yields.after fun digits hdigs => ?_
  obtain rfl : row = row' := Option.some.inj (hrow.symm.trans (okOr_eq_ok.1 hrow'))
  apply Yields.write
  obtain ⟨hcount, hlen, hvalue⟩ := quotientDigits_spec hlaw hq hnew hdigs
  have hmem := mem_of_getElem? hrow
  have hrange : row.range.Usize :=
    hlayout.usize (mem_append_left _ (mem_append_left _ (mem_append_right _ (mem_map_of_mem hmem))))
  obtain ⟨hgeom, -⟩ := hlayout.rows row hmem
  obtain ⟨-, hok⟩ := new_ok hlaw hq hnew
  refine ⟨quotient, okOr_eq_ok.1 hquot, Through.write hrange.1 hcount, ?_⟩
  rintro ⟨k, plane, coefficient⟩ ⟨hk, hplane, hcoeff⟩
  rw [hok.levels_eq] at hk
  have hindex := rCoefficientIndex_eq hdepth hrow ⟨k, plane, coefficient⟩
  rw [if_pos (by rw [hlevels]; exact hk), coefficientIndex_ok hrange hgeom hlen hk hplane hcoeff] at hindex
  refine ⟨_, hindex, ?_⟩
  have hphys := radix_lt hplane hcoeff
  rw [mul_comm row.geometry.coordinatePlaneCount, ← hgeom.width] at hphys
  have hputs := Puts.of_mem (d := (0 : ℤ)) (mem_singleton_self (⟨row.range.start, digits⟩ : Write ℤ))
    (i := rPlace row.geometry k plane coefficient) (by rw [hcount, hlen]; exact radix_lt hk hphys)
  rw [← hvalue k hk _ hphys]
  exact hputs

theorem RStands.imp {F : Type} {toU128Checked : CanonicalU128 F} {geometry : RelationRowGeometry} {coefficients : List F}
    (hST : ∀ p v, S p v → T p v) (h : RStands S toU128Checked layout rowIndex geometry coefficients params) :
    RStands T toU128Checked layout rowIndex geometry coefficients params :=
  fun i hi => (h i hi).imp fun _ h => ⟨h.1, hST _ _ h.2⟩

end

/-! ## Compression spans -/

section

variable {packed : PackedNegativeBinary} {span : CompressionWitnessSpan}

theorem packedDigits_spec {digits : List ℤ} {written count : ℕ} (h : packedDigits packed written count = .ok digits) :
    digits = (range count).map fun offset => packed.digit (written + offset) := by
  obtain ⟨hlen, hdigs⟩ := forall_of_mapM_range h
  refine ext_getElem (by simpa using hlen) fun i hi hi' => ?_
  have hi : i < count := by omega
  have hdigit := hdigs i hi
  rw [getD_eq_getElem _ _ (by omega)] at hdigit
  rw [getElem_map, getElem_range, PackedNegativeBinary.digit]
  dsimp only at hdigit
  split at hdigit
  · next hreal =>
    obtain ⟨byte, hbyte, hdigit⟩ := bind_eq_ok.1 hdigit
    rw [← pure_eq_ok.1 hdigit, bitAt, getD_eq_getElem?_getD, okOr_eq_ok.1 hbyte, Option.getD_some]
    simp only [hreal, true_and]
  · next hreal =>
    rw [if_neg fun h => hreal h.1]
    exact (Except.ok.inj hdigit).symm

/-- The negative-binary digits of the input of a map stand in its span, where the packing is one of an input: bit `b` of
the canonical negation of coefficient `j` at `b * len + j`, and zeros after the last digit. -/
def InputStands (stands : ℕ → ℤ → Prop) (span : CompressionWitnessSpan) (packed : PackedNegativeBinary) : Prop :=
  ∀ (F : Type) [CommRing F] (𝔢 : FieldEncoding F) (coefficients : List F), 𝔢.Lawful →
    Compression.CompressionMapPlan.new packed.map.modulusProfile packed.map.inputCoefficients packed.map.ringDimension
      packed.map.outputRank = .ok packed.map → PackedNegativeBinary.fromCoefficients 𝔢 packed.map coefficients = .ok packed →
    ∃ modulus, fieldModulus 𝔢 = .ok modulus ∧
      (∀ j (hj : j < coefficients.length), ∃ m < modulus, (m : F) = -coefficients[j] ∧ ∀ b < packed.map.modulusProfile.fieldBits,
        stands (span.range.start + (b * coefficients.length + j)) (if m.testBit b then -1 else 0)) ∧
      ∀ i, coefficients.length * packed.map.modulusProfile.fieldBits ≤ i → i < span.range.len → stands (span.range.start + i) 0

structure SpanStands (stands : ℕ → ℤ → Prop) (span : CompressionWitnessSpan) (packed : PackedNegativeBinary) : Prop where
  len : span.range.len = packed.map.paddedDigitCount
  digits : ∀ i < span.range.len, stands (span.range.start + i) (packed.digit i)
  input : InputStands stands span packed

/-- **The digits of a packing** are those of its input. -/
theorem SpanStands.ofDigits {stands : ℕ → ℤ → Prop} (hlen : span.range.len = packed.map.paddedDigitCount)
    (hdigs : ∀ i < span.range.len, stands (span.range.start + i) (packed.digit i)) : SpanStands stands span packed := by
  refine ⟨hlen, hdigs, fun F _ 𝔢 coefficients hlaw hmap hpacked => ?_⟩
  obtain ⟨-, modulus, hmod, -, hpacks⟩ := PackedNegativeBinary.fromCoefficients_packs hlaw hpacked
  obtain ⟨hfacts, -, -⟩ := Compression.CompressionMapPlan.new_facts hmap
  have hreal : packed.map.realDigitCount = coefficients.length * packed.map.modulusProfile.fieldBits := by
    rw [hpacks.length]
    exact hfacts.real
  have hpadded : packed.map.realDigitCount ≤ span.range.len := by
    rw [hlen, Compression.CompressionMapPlan.new_padded hmap]
    exact hfacts.real_le
  refine ⟨modulus, hmod, fun j hj => ?_, fun i hi hlt => ?_⟩
  · obtain ⟨m, hm, hcast, hbits⟩ := hpacks.bits j hj
    refine ⟨m, hm, hcast, fun b hb => ?_⟩
    have hplace := radix_lt hb hj
    rw [mul_comm packed.map.modulusProfile.fieldBits, ← hreal] at hplace
    have hdigit := hdigs _ (hplace.trans_le hpadded)
    rw [PackedNegativeBinary.digit, hbits b hb] at hdigit
    simpa only [hplace, true_and] using hdigit
  · have hdigit := hdigs i hlt
    rwa [PackedNegativeBinary.digit, if_neg fun h => by omega] at hdigit

theorem SpanStands.imp (hST : ∀ p v, S p v → T p v) (h : SpanStands S span packed) : SpanStands T span packed :=
  .ofDigits h.len fun i hi => hST _ _ (h.digits i hi)

structure SpanWrites (ws : List (Write ℤ)) (span : CompressionWitnessSpan) (packed : PackedNegativeBinary) : Prop where
  through : Through ws [span.range]
  empty : span.range.len = 0 → ws = []
  stands : SpanStands (Puts 0 ws) span packed

/-- **The packed digits** fill the span, pass by pass. -/
theorem emitPackedNegativeBinary_yields (hle : span.range.start ≤ span.range.stop) :
    Yields (fun _ write out => emitPackedNegativeBinary write span packed out) fun ws => SpanWrites ws span packed := by
  refine Yields.after fun _ hextent => ?_
  have hpadded : span.range.len = packed.map.paddedDigitCount := not_not.1 (not_or.1 (ensure_eq_ok.1 hextent)).2
  obtain ⟨len, hlen⟩ : ∃ len, len = span.range.len := ⟨_, rfl⟩
  obtain ⟨items, hitems⟩ : ∃ items : ℕ → List ℤ, items = fun pass =>
      (range (min packedChunk (len - pass * packedChunk))).map fun offset => packed.digit (pass * packedChunk + offset) := ⟨_, rfl⟩
  have hloop : Yields (fun _ write out => (range ((len + packedChunk - 1) / packedChunk)).foldlM (fun out pass => do
        let scratch ← packedDigits packed (pass * packedChunk) (min packedChunk (len - pass * packedChunk))
        write out (span.range.start + pass * packedChunk) scratch) out)
      fun ws => ws = ((range ((len + packedChunk - 1) / packedChunk)).map fun pass =>
        (⟨span.range.start + pass * packedChunk, items pass⟩ : Write ℤ)) ∧ ∀ pass ∈ range ((len + packedChunk - 1) / packedChunk), True := by
    apply Yields.foldlM_write
    intro pass _
    refine Yields.after fun scratch hscratch => Yields.write ?_
    rw [packedDigits_spec hscratch, hitems]
    exact ⟨rfl, trivial⟩
  rw [← hlen]
  apply hloop.imp
  rintro ws ⟨rfl, -⟩
  unfold packedChunk at hitems ⊢
  have hbefore : ∀ pass < (len + 4096 - 1) / 4096, pass * 4096 < len := by
    intro pass hpass
    omega
  have hcount : ∀ pass, (items pass).length = min 4096 (len - pass * 4096) := by
    intro pass
    rw [hitems, length_map, length_range]
  refine ⟨Through.single ?_, fun hzero => ?_, .ofDigits hpadded fun i hi => ?_⟩
  · -- the last pass ends with the span
    have htiles := @tiles_range ℤ (fun pass => span.range.start + min (pass * 4096) len) items ((len + 4096 - 1) / 4096) fun pass hpass => by
      rw [hcount]
      omega
    have hwrites : (range ((len + 4096 - 1) / 4096)).map (fun pass => (⟨span.range.start + pass * 4096, items pass⟩ : Write ℤ)) =
        (range ((len + 4096 - 1) / 4096)).map fun pass => (⟨span.range.start + min (pass * 4096) len, items pass⟩ : Write ℤ) := by
      refine map_congr_left fun pass hpass => ?_
      rw [min_eq_left (hbefore pass (mem_range.1 hpass)).le]
    have hstop : span.range.start + min ((len + 4096 - 1) / 4096 * 4096) len = span.range.stop := by
      unfold Span.len at hlen
      omega
    rw [hwrites, ← hstop]
    simpa using htiles
  · have hnone : (len + 4096 - 1) / 4096 = 0 := by omega
    rw [hnone]
    rfl
  · rw [← hlen] at hi
    have hpass : i / 4096 < (len + 4096 - 1) / 4096 := by omega
    have hoffset : i % 4096 < min 4096 (len - i / 4096 * 4096) := by omega
    have hputs := Puts.of_mem (d := (0 : ℤ)) (i := i % 4096) (mem_map_of_mem
      (f := fun pass => (⟨span.range.start + pass * 4096, items pass⟩ : Write ℤ)) (mem_range.2 hpass)) (by rw [hcount]; exact hoffset)
    have hplace : span.range.start + i / 4096 * 4096 + i % 4096 = span.range.start + i := by omega
    have hvalue : (items (i / 4096)).getD (i % 4096) 0 = packed.digit i := by
      rw [getD_eq_getElem _ _ (by rw [hcount]; exact hoffset)]
      subst hitems
      rw [getElem_map, getElem_range, Nat.div_add_mod']
    rw [← hplace, ← hvalue]
    exact hputs

end

/-! ## Events -/

def layerEntries (layer : CompressionWitnessLayerLayout) : List (CompressionSourceId × CompressionWitnessSpan) :=
  layer.fSpans.map (fun entry => (.outer entry.1, entry.2)) ++ [(.opening, layer.hSpan)]

inductive TailPiece
  | row (rowIndex : ℕ) (row : WitnessQuotientRowLayout)
  | span (layer : CompressionWitnessLayerLayout) (entry : CompressionSourceId × CompressionWitnessSpan)

def TailPiece.range : TailPiece → Span
  | .row _ quotientRow => quotientRow.range
  | .span _ entry => entry.2.range

def TailPiece.event : TailPiece → WitnessTailEvent
  | .row rowIndex _ => .quotient rowIndex
  | .span layer entry => .compression entry.1 layer.mapIndex

def spanPieces (layout : WitnessLayout) : List TailPiece :=
  layout.compressionLayers.flatMap fun layer => (layerEntries layer).map (.span layer)

def tailPieces (layout : WitnessLayout) : List TailPiece :=
  layout.rRows.zipIdx.map (fun entry => .row entry.2 entry.1) ++ spanPieces layout

def tailRanges (layout : WitnessLayout) : List Span :=
  layout.rRows.map (·.range) ++ layout.compressionLayers.flatMap layerRanges

def nonempty (ranges : List Span) : List Span := ranges.filter fun range => !range.isEmpty

section

variable {layout : WitnessLayout} {layer : CompressionWitnessLayerLayout}

theorem layerEntries_ranges : (layerEntries layer).map (·.2.range) = layerRanges layer := by
  simp [layerEntries, layerRanges, WitnessLayout.layerSpans, map_map, Function.comp_def]

theorem spanPieces_ranges : (spanPieces layout).map (·.range) = layout.compressionLayers.flatMap layerRanges := by
  rw [spanPieces, map_flatMap]
  congr 1
  funext layer
  rw [map_map, ← layerEntries_ranges]
  rfl

theorem tailPieces_ranges : (tailPieces layout).map (·.range) = tailRanges layout := by
  have hrows : (layout.rRows.zipIdx.map fun entry => TailPiece.row entry.2 entry.1).map (·.range) =
      (layout.rRows.zipIdx.map Prod.fst).map (·.range) := by
    rw [map_map, map_map]
    rfl
  rw [tailPieces, tailRanges, map_append, spanPieces_ranges, hrows, zipIdx_map_fst]

theorem witnessTailEvents_eq : witnessTailEvents layout = (tailPieces layout).map fun piece => (piece.range.start, piece.event) := by
  simp [witnessTailEvents, tailPieces, spanPieces, layerEntries, map_flatMap, Function.comp_def, TailPiece.range, TailPiece.event]

theorem row_mem_tailPieces {i : ℕ} : .row i row ∈ tailPieces layout ↔ layout.rRows[i]? = some row := by
  simp only [tailPieces, spanPieces, mem_append, mem_map, mem_flatMap, mem_zipIdx_iff_getElem?, TailPiece.row.injEq,
    Prod.exists, reduceCtorEq, and_false, exists_false, or_false]
  constructor
  · rintro ⟨_, _, h, rfl, rfl⟩
    exact h
  · exact fun h => ⟨row, i, h, rfl, rfl⟩

theorem span_mem_tailPieces {entry : CompressionSourceId × CompressionWitnessSpan} :
    .span layer entry ∈ tailPieces layout ↔ layer ∈ layout.compressionLayers ∧ entry ∈ layerEntries layer := by
  simp only [tailPieces, spanPieces, mem_append, mem_map, mem_flatMap, TailPiece.span.injEq, reduceCtorEq, and_false,
    exists_false, false_or]
  constructor
  · rintro ⟨_, hlayer, _, hentry, rfl, rfl⟩
    exact ⟨hlayer, hentry⟩
  · exact fun h => ⟨layer, h.1, entry, h.2, rfl, rfl⟩

theorem spanOf_entry {entry : CompressionSourceId × CompressionWitnessSpan} (hkeys : (layer.fSpans.map (·.1)).Nodup)
    (hentry : entry ∈ layerEntries layer) : layer.spanOf entry.1 = .ok entry.2 := by
  rcases mem_append.1 hentry with hentry | hentry
  · obtain ⟨f, hf, rfl⟩ := mem_map.1 hentry
    have hfind : layer.fSpans.find? (fun entry => decide (entry.1 = f.1)) = some f := by
      cases hfind : layer.fSpans.find? fun entry => decide (entry.1 = f.1) with
      | none => exact absurd (find?_eq_none.1 hfind f hf) (by simp)
      | some g =>
        have hkey : g.1 = f.1 := by simpa using find?_some hfind
        rw [inj_on_of_nodup_map hkeys (mem_of_find?_eq_some hfind) hf hkey]
    simp only [CompressionWitnessLayerLayout.spanOf, hfind]
    rfl
  · rw [mem_singleton.1 hentry]
    rfl

variable {lp : CommittedGroupParams} {batch : OpeningClaimsLayout} {compression : CompressionWitnessMaterialization}
  {entry : CompressionSourceId × CompressionWitnessSpan}

theorem tailRanges_sub : tailRanges layout ⊆ layout.ranges := by
  intro s hs
  apply mem_append_left
  unfold tailRanges layerRanges at hs
  simp only [mem_append] at hs ⊢
  exact hs.elim (fun h => .inl (.inr h)) .inr

theorem entry_range_mem (hlayer : layer ∈ layout.compressionLayers) (hentry : entry ∈ layerEntries layer) :
    entry.2.range ∈ tailRanges layout := by
  apply mem_append_right
  refine mem_flatMap.2 ⟨layer, hlayer, ?_⟩
  rw [← layerEntries_ranges]
  exact mem_map_of_mem hentry

/-- **A compression event.** -/
theorem emitCompressionWitnessEvent_yields (hlayout : Emittable lp batch layout) (hlayer : layer ∈ layout.compressionLayers)
    (hentry : entry ∈ layerEntries layer) :
    Yields (fun _ write out => emitCompressionWitnessEvent write layout compression entry.1 layer.mapIndex out) fun ws =>
      ∃ material packed, compression.source entry.1 = .ok material ∧ material.witness.stages[layer.mapIndex]? = some packed ∧
        SpanWrites ws entry.2 packed := by
  refine Yields.after fun layer' hlayer' => Yields.after fun span hspan => Yields.after fun material hmat =>
    Yields.after fun packed hpacked => ?_
  -- the event's layer is the one at its map index
  obtain ⟨i, hi⟩ := mem_iff_getElem?.mp hlayer
  rw [hlayout.layerIndices i layer hi, hi] at hlayer'
  obtain rfl : layer = layer' := Option.some.inj (okOr_eq_ok.1 hlayer')
  rw [spanOf_entry (hlayout.layerKeys layer hlayer) hentry] at hspan
  obtain rfl : entry.2 = span := Except.ok.inj hspan
  apply (emitPackedNegativeBinary_yields (hlayout.usize (tailRanges_sub (entry_range_mem hlayer hentry))).1).imp
  exact fun ws hws => ⟨material, packed, hmat, okOr_eq_ok.1 hpacked, hws⟩

theorem nonempty_map (pieces : List TailPiece) :
    nonempty (pieces.map (·.range)) = pieces.flatMap fun piece => nonempty [piece.range] := by
  induction pieces with
  | nil => rfl
  | cons piece pieces ih =>
    rw [flatMap_cons, ← ih, nonempty, nonempty, nonempty, ← filter_append]
    rfl

theorem ordered_of_sorted {ranges : List Span} (hsorted : ranges.Pairwise fun s t => s.start ≤ t.start)
    (hapart : ranges.Pairwise Span.Apart) : (nonempty ranges).Pairwise fun s t => s.stop ≤ t.start := by
  have hboth := (hsorted.and hapart).filter fun range => !range.isEmpty
  refine hboth.imp_of_mem fun {s t} _ ht h => ?_
  have ht : t.start < t.stop := by simpa [Span.isEmpty] using (mem_filter.1 ht).2
  by_contra hlt
  exact h.2 t.start ⟨⟨h.1, by omega⟩, le_rfl, ht⟩

theorem Emittable.tail_apart (hlayout : Emittable lp batch layout) : (tailRanges layout).Pairwise Span.Apart := by
  have hall := (pairwise_append.1 hlayout.apart).1
  rw [append_assoc] at hall
  exact (pairwise_append.1 hall).2.1

end

/-! ## Tails -/

section tails

variable {F : Type} (toU128Checked : CanonicalU128 F) (layout : WitnessLayout) (quotients : List (RelationQuotientRow F))
  (params : BalancedDecomposePow2Params) (compression : Option CompressionWitnessMaterialization)

def PieceStands (stands : ℕ → ℤ → Prop) : TailPiece → Prop
  | .row rowIndex row => ∃ quotient, quotients[rowIndex]? = some quotient ∧
      RStands stands toU128Checked layout rowIndex row.geometry quotient.coefficients params
  | .span layer entry => ∃ materials material packed, compression = some materials ∧ materials.source entry.1 = .ok material ∧
      material.witness.stages[layer.mapIndex]? = some packed ∧ SpanStands stands entry.2 packed

/-- What the emission of a piece leaves: writes through its range, if it holds an address. -/
structure PieceWrites (piece : TailPiece) (ws : List (Write ℤ)) : Prop where
  through : Through ws (nonempty [piece.range])
  stands : PieceStands toU128Checked layout quotients params compression (Puts 0 ws) piece

/-- The tail, written in order and every range once. -/
structure TailWrites (ws : List (Write ℤ)) : Prop where
  through : ∃ order, order.Perm (nonempty (tailRanges layout)) ∧ (order.Pairwise fun s t => s.stop ≤ t.start) ∧ Through ws order
  stands : ∀ piece ∈ tailPieces layout, PieceStands toU128Checked layout quotients params compression (Puts 0 ws) piece

variable {toU128Checked layout quotients params compression}

theorem PieceStands.imp (hST : ∀ p v, S p v → T p v) {piece : TailPiece}
    (h : PieceStands toU128Checked layout quotients params compression S piece) :
    PieceStands toU128Checked layout quotients params compression T piece := by
  cases piece with
  | row rowIndex row =>
    obtain ⟨quotient, hquot, hstands⟩ := h
    exact ⟨quotient, hquot, hstands.imp hST⟩
  | span layer entry =>
    obtain ⟨materials, material, packed, hmats, hmat, hpacked, hstands⟩ := h
    exact ⟨materials, material, packed, hmats, hmat, hpacked, hstands.imp hST⟩

/-- **Pieces in order** write the tail. -/
theorem tailWrites_of_pieces {pieces : List TailPiece} {wss : List (List (Write ℤ))} (hperm : pieces.Perm (tailPieces layout))
    (horder : (nonempty (pieces.map (·.range))).Pairwise fun s t => s.stop ≤ t.start)
    (h : Forall₂ (PieceWrites toU128Checked layout quotients params compression) pieces wss) :
    TailWrites toU128Checked layout quotients params compression wss.flatten := by
  have hranges := (hperm.map (·.range)).filter fun range => !range.isEmpty
  rw [tailPieces_ranges] at hranges
  refine ⟨⟨_, hranges, horder, ?_⟩, fun piece hpiece => ?_⟩
  · rw [← nonempty, nonempty_map]
    exact Through.flatten (h.imp fun _ _ hws => hws.through)
  · obtain ⟨ws, hws, hwrites⟩ := forall₂_mem_left h (hperm.mem_iff.2 hpiece)
    exact hwrites.stands.imp fun p v hputs => hputs.mono fun w hw => mem_flatten.2 ⟨ws, hws, hw⟩

variable {lp : CommittedGroupParams} {batch : OpeningClaimsLayout}

theorem spanPiece_yields {layer : CompressionWitnessLayerLayout} {entry : CompressionSourceId × CompressionWitnessSpan} (hlayout : Emittable lp batch layout)
    (hlayer : layer ∈ layout.compressionLayers)
    (hentry : entry ∈ layerEntries layer) {materials : CompressionWitnessMaterialization} (hmats : compression = some materials) :
    Yields (fun _ write out => emitCompressionWitnessEvent write layout materials entry.1 layer.mapIndex out)
      (PieceWrites toU128Checked layout quotients params compression (.span layer entry)) := by
  apply (emitCompressionWitnessEvent_yields hlayout hlayer hentry).imp
  rintro ws ⟨material, packed, hmat, hpacked, hws⟩
  refine ⟨?_, materials, material, packed, hmats, hmat, hpacked, hws.stands⟩
  change Through ws (nonempty [entry.2.range])
  by_cases hempty : entry.2.range.isEmpty = true
  · have hlen : entry.2.range.len = 0 := by
      have hnot : ¬ entry.2.range.start < entry.2.range.stop := by simpa [Span.isEmpty] using hempty
      unfold Span.len
      omega
    rw [hws.empty hlen, nonempty, filter_singleton, hempty]
    exact Through.nil
  · rw [nonempty, filter_singleton, Bool.eq_false_of_not_eq_true hempty]
    exact hws.through

/-- **The reduced tail** is written in the order of its layers. -/
theorem emitReducedWitnessTail_yields (hlayout : Emittable lp batch layout) :
    Yields (fun _ write out => emitReducedWitnessTail write layout compression out) fun ws =>
      TailWrites toU128Checked layout [] params compression ws := by
  refine Yields.after fun _ hrows => ?_
  have hnone : layout.rRows = [] := not_not.1 (not_or.1 (ensure_eq_ok.1 hrows)).1
  have hpieces : tailPieces layout = spanPieces layout := by rw [tailPieces, hnone, zipIdx_nil, map_nil, nil_append]
  refine Yields.imp (Yields.foldlM (R := fun layer ws => ∃ vss : List (List (Write ℤ)), vss.flatten = ws ∧
    Forall₂ (PieceWrites toU128Checked layout [] params compression) ((layerEntries layer).map (.span layer)) vss)
    fun layer hlayer => Yields.after fun materials hmats => ?_) ?_
  · have hmats := okOr_eq_ok.1 hmats
    have hf : ∀ entry ∈ layer.fSpans, (CompressionSourceId.outer entry.1, entry.2) ∈ layerEntries layer := fun entry hentry =>
      mem_append_left _ (mem_map_of_mem hentry)
    have hspans := Yields.foldlM (R := fun entry => PieceWrites toU128Checked layout [] params compression
      (.span layer (CompressionSourceId.outer entry.1, entry.2))) fun entry hentry => spanPiece_yields hlayout hlayer (hf entry hentry) hmats
    have hopen : Yields (fun _ write out => emitCompressionWitnessEvent write layout materials .opening layer.mapIndex out)
        (PieceWrites toU128Checked layout [] params compression (.span layer (.opening, layer.hSpan))) :=
      spanPiece_yields hlayout hlayer (mem_append_right _ (mem_singleton_self _)) hmats
    refine (hspans.bind hopen).imp ?_
    rintro ws ⟨_, vs, rfl, ⟨vss, rfl, hvss⟩, hvs⟩
    refine ⟨vss ++ [vs], by simp, ?_⟩
    rw [layerEntries, map_append, map_map]
    exact rel_append (forall₂_map_left_iff.2 hvss) (.cons hvs .nil)
  · rintro ws ⟨wss, rfl, hwss⟩
    obtain ⟨vss, hvss, hall⟩ := forall₂_flatMap hwss
    rw [← hvss]
    refine tailWrites_of_pieces (hpieces ▸ List.Perm.refl _) ?_ hall
    rw [← spanPieces, spanPieces_ranges]
    exact hlayout.spanOrder.filter _

variable [Ring F] {q levels logBasis : ℕ}

theorem rowPiece_yields {rowIndex : ℕ} (hlaw : toU128Checked.Lawful q) (hq : 2 < q)
    (hnew : BalancedDecomposePow2Params.new toU128Checked levels logBasis = some params) (hlayout : Emittable lp batch layout)
    (hdepth : layout.quotientDepth = some depth) (hlevels : depth = levels)
    (hrow : layout.rRows[rowIndex]? = some row) :
    Yields (fun _ write out => emitQuotientEvent write toU128Checked layout quotients params rowIndex out)
      (PieceWrites toU128Checked layout quotients params compression (.row rowIndex row)) := by
  apply (emitQuotientEvent_yields hlaw hq hnew hlayout hdepth hlevels hrow).imp
  rintro ws ⟨quotient, hquot, hws⟩
  refine ⟨?_, quotient, hquot, hws.stands⟩
  have hheld : row.range.isEmpty = false := by
    obtain ⟨hgeom, depth', -, hlen⟩ := hlayout.rows row (mem_of_getElem? hrow)
    have hpos := Nat.mul_pos depth'.pos hgeom.pos
    have hlt : row.range.start < row.range.stop := by
      unfold Span.len at hlen
      omega
    simpa [Span.isEmpty] using hlt
  change Through ws (nonempty [row.range])
  rw [nonempty, filter_singleton, hheld]
  exact hws.through

/-- **The quotient tail** is written in the order of its addresses. -/
theorem emitWitnessTail_yields (hlaw : toU128Checked.Lawful q) (hq : 2 < q) (hlayout : Emittable lp batch layout) :
    Yields (fun _ write out => emitWitnessTail write toU128Checked layout quotients levels logBasis compression out) fun ws =>
      ∃ params, BalancedDecomposePow2Params.new toU128Checked levels logBasis = some params ∧
        TailWrites toU128Checked layout quotients params compression ws := by
  refine Yields.after fun _ hdepth => Yields.after fun params hnew => ?_
  have hnew := okOr_eq_ok.1 hnew
  obtain ⟨depth, hdepth, hlevels⟩ : ∃ depth : ℕ+, layout.quotientDepth = some depth ∧ depth = levels := by
    exact Option.map_eq_some_iff.1 (not_not.1 (not_or.1 (ensure_eq_ok.1 hdepth)).2)
  -- the events are sorted with their pieces
  have hsort : (witnessTailEvents layout).mergeSort (fun s t => decide (s.1 ≤ t.1)) =
      ((tailPieces layout).mergeSort fun s t => decide (s.range.start ≤ t.range.start)).map fun piece => (piece.range.start, piece.event) := by
    rw [witnessTailEvents_eq, map_mergeSort (s := fun s t : ℕ × WitnessTailEvent => decide (s.1 ≤ t.1))]
    exact fun _ _ _ _ => rfl
  have hperm := mergeSort_perm (tailPieces layout) fun s t => decide (s.range.start ≤ t.range.start)
  simp only [hsort, foldlM_map]
  refine Yields.imp (Yields.foldlM (R := PieceWrites toU128Checked layout quotients params compression) fun piece hpiece => ?_) ?_
  · have hpiece := hperm.mem_iff.1 hpiece
    cases piece with
    | row rowIndex row => exact rowPiece_yields hlaw hq hnew hlayout hdepth hlevels (row_mem_tailPieces.1 hpiece)
    | span layer entry =>
      obtain ⟨hlayer, hentry⟩ := span_mem_tailPieces.1 hpiece
      exact Yields.after fun materials hmats => spanPiece_yields hlayout hlayer hentry (okOr_eq_ok.1 hmats)
  · rintro ws ⟨wss, rfl, hwss⟩
    refine ⟨params, hnew, tailWrites_of_pieces hperm (ordered_of_sorted ?_ ?_) hwss⟩
    · have hsorted : ((tailPieces layout).mergeSort fun s t => decide (s.range.start ≤ t.range.start)).Pairwise fun s t =>
          decide (s.range.start ≤ t.range.start) = true := by
        refine pairwise_mergeSort (fun a b c hab hbc => ?_) (fun a b => ?_) _
        · simp only [decide_eq_true_eq] at *
          omega
        · simp only [Bool.or_eq_true, decide_eq_true_eq]
          omega
      exact pairwise_map.2 (hsorted.imp fun h => of_decide_eq_true h)
    · have hapart := hlayout.tail_apart
      rw [← tailPieces_ranges] at hapart
      exact ((hperm.map (·.range)).pairwise_iff fun {s t} hst p hp => hst p ⟨hp.2, hp.1⟩).2 hapart

end tails

end Akita.Witness
