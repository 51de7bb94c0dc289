import Akita.Proof.WitnessLength
import Akita.Proof.WitnessTailShift

/-!
# Planned chunk alignment is that of the built layout

The chunk shape of one layout predicts the layout that is built for a successor block.

* `PlacedTail.shape`: the tail of a shape is the widths in front of and behind the first aligned place.
* `align_ok`: what an accepted alignment returns.
* `chunkShape_tail`: the tail of the shape predicts every tail of the level.
* `chunkShape_align_eq_layout`: the planned length is the live length, and the planned ends partition its blocks.
-/

/-!
## Dyadic block ranges

The boundaries are the floors `i * B / P`, whatever the number of blocks: the product that could overflow is never
formed. So the ranges tile the blocks, their sizes differ by at most one, and doubling the number of parts splits each
range in two.
-/

namespace Akita.Witness

open Lib
open List hiding Vector

section

variable {blocks parts index : ℕ} {ranges : List Span}

/-- The range between two consecutive floors. -/
def floorRange (blocks parts index : ℕ) : Span := ⟨index * blocks / parts, (index + 1) * blocks / parts⟩

theorem floor_split (hparts : 0 < parts) :
    blocks / parts * index + blocks % parts * index / parts = index * blocks / parts := by
  conv_rhs => rw [← Nat.div_add_mod blocks parts, mul_add, mul_left_comm, Nat.mul_add_div hparts]
  rw [mul_comm index, mul_comm index]

theorem floor_le (blocks : ℕ) (hindex : index ≤ parts) : index * blocks / parts ≤ blocks :=
  Nat.div_le_of_le_mul (Nat.mul_le_mul_right blocks hindex)

/-- **No boundary overflows**: the remainders are below the part count, and the rest is below the blocks. -/
theorem dyadicBoundary_ok (hlt : blocks < 2 ^ usizeBits) (hparts : 0 < parts) (hcap : parts ≤ maxWitnessChunks)
    (hindex : index ≤ parts) : dyadicBoundary blocks parts index = .ok (index * blocks / parts) := by
  have hfloor := floor_le blocks hindex
  rw [← floor_split hparts] at hfloor ⊢
  have hrem : blocks % parts * index ≤ maxWitnessChunks * maxWitnessChunks :=
    Nat.mul_le_mul ((Nat.mod_lt _ hparts).le.trans hcap) (hindex.trans hcap)
  simp only [dyadicBoundary, result_ok, checkedMul_eq_some, checkedAdd_eq_some]
  exact ⟨_, ⟨((Nat.le_add_right _ _).trans hfloor).trans_lt hlt, rfl⟩, _, ⟨hrem.trans_lt (by decide), rfl⟩,
    hfloor.trans_lt hlt, rfl⟩

theorem tiles_floorRange (blocks parts count : ℕ) :
    Tiles 0 ((range count).map (floorRange blocks parts)) (count * blocks / parts) := by
  induction count with
  | zero => simp [Tiles]
  | succ count ih =>
    rw [range_succ, map_append]
    exact ih.concat rfl (Nat.div_le_div_right (Nat.mul_le_mul_right blocks count.le_succ))

theorem dyadicBlockRanges_eq_ok (hlt : blocks < 2 ^ usizeBits) : dyadicBlockRanges blocks parts = .ok ranges ↔
    (blocks ≠ 0 ∧ parts ≤ maxWitnessChunks ∧ parts.isPowerOfTwo) ∧ ranges = (range parts).map (floorRange blocks parts) := by
  have hrun (hcap : parts ≤ maxWitnessChunks) (hparts : 0 < parts) : (range parts).mapM (fun partIndex => do
      let start ← dyadicBoundary blocks parts partIndex
      let stop ← dyadicBoundary blocks parts (partIndex + 1)
      ensure (¬ start > stop) (.invalidSetup "dyadic block partition boundaries are not ordered")
      return Span.mk start stop) = .ok ((range parts).map (floorRange blocks parts)) := by
    refine mapM_ok_of_forall fun index hindex => ?_
    have hindex := mem_range.1 hindex
    rw [dyadicBoundary_ok hlt hparts hcap hindex.le, ok_bind, dyadicBoundary_ok hlt hparts hcap hindex, ok_bind,
      (ensure_eq_ok (u := ())).2 (not_lt.2 (Nat.div_le_div_right (Nat.mul_le_mul_right blocks index.le_succ)))]
    rfl
  unfold dyadicBlockRanges
  simp only [bind_eq_ok, ensure_eq_ok, isPowerOfTwo_iff]
  constructor
  · rintro ⟨_, hgeom, _, hpow, made, hmade, _, -, h⟩
    rw [not_or, not_or, not_lt] at hgeom
    rw [hrun hgeom.2.1 (Nat.pos_of_ne_zero hgeom.1)] at hmade
    cases hmade
    exact ⟨⟨hgeom.2.2, hgeom.2.1, hpow⟩, (pure_eq_ok.1 h).symm⟩
  · rintro ⟨⟨hblocks, hcap, hpow⟩, rfl⟩
    have hparts := Nat.pos_of_isPowerOfTwo hpow
    obtain ⟨count, rfl⟩ : ∃ count, parts = count + 1 := ⟨parts - 1, by omega⟩
    refine ⟨(), not_or.2 ⟨hparts.ne', not_or.2 ⟨not_lt.2 hcap, hblocks⟩⟩, (), hpow, _, hrun hcap hparts, (),
      not_or.2 ⟨not_not.2 ?_, not_not.2 ?_⟩, rfl⟩
    · simp [range_succ_eq_map, floorRange]
    · simp [range_succ, floorRange, Nat.mul_div_cancel_left blocks hparts]

theorem floorRange_len (blocks parts index : ℕ) (hparts : 0 < parts) :
    blocks / parts ≤ (floorRange blocks parts index).len ∧ (floorRange blocks parts index).len ≤ blocks / parts + 1 := by
  rw [floorRange, Span.len, add_mul, one_mul, Nat.add_div hparts]
  dsimp only
  generalize blocks / parts = size, index * blocks / parts = first
  split <;> omega

/-- **Dyadic block ranges are the balanced floor partition.** For every number of blocks, the function accepts exactly
the power-of-two part counts up to the cap; no boundary overflows, the ranges lie between consecutive floors
`i * B / P`, they cover the blocks without gap or overlap, their sizes differ by at most one, and the partition into
twice as many parts cuts each of them in two. -/
theorem dyadic_block_ranges_balanced (blocks parts : ℕ) (hblocks : blocks < 2 ^ usizeBits) :
    ((∃ ranges, dyadicBlockRanges blocks parts = .ok ranges) ↔
      blocks ≠ 0 ∧ parts ≤ maxWitnessChunks ∧ parts.isPowerOfTwo) ∧
    ∀ ranges, dyadicBlockRanges blocks parts = .ok ranges →
      (∀ index ≤ parts, dyadicBoundary blocks parts index = .ok (index * blocks / parts)) ∧
      ranges = (List.range parts).map (fun i => ⟨i * blocks / parts, (i + 1) * blocks / parts⟩) ∧
      Tiles 0 ranges blocks ∧
      (∀ r ∈ ranges, ∀ r' ∈ ranges, r.len ≤ r'.len + 1) ∧
      ∀ finer, dyadicBlockRanges blocks (2 * parts) = .ok finer → ∀ i r, ranges[i]? = some r →
        ∃ a b, finer[2 * i]? = some a ∧ finer[2 * i + 1]? = some b ∧
          a.start = r.start ∧ a.stop = b.start ∧ b.stop = r.stop := by
  refine ⟨by simp only [dyadicBlockRanges_eq_ok hblocks, exists_and_left, exists_eq, and_true], fun ranges hranges => ?_⟩
  obtain ⟨⟨-, hcap, hpow⟩, rfl⟩ := (dyadicBlockRanges_eq_ok hblocks).1 hranges
  have hparts := Nat.pos_of_isPowerOfTwo hpow
  refine ⟨fun index hindex => dyadicBoundary_ok hblocks hparts hcap hindex, rfl, ?_, ?_, ?_⟩
  · have htiles := tiles_floorRange blocks parts parts
    rwa [Nat.mul_div_cancel_left blocks hparts] at htiles
  · simp only [mem_map]
    rintro _ ⟨i, -, rfl⟩ _ ⟨j, -, rfl⟩
    have hi := floorRange_len blocks parts i hparts
    have hj := floorRange_len blocks parts j hparts
    omega
  · intro finer hfiner i r hr
    obtain ⟨-, rfl⟩ := (dyadicBlockRanges_eq_ok hblocks).1 hfiner
    -- the even boundaries of the finer partition are those of the coarser one
    have heven (k : ℕ) : 2 * k * blocks / (2 * parts) = k * blocks / parts := by
      rw [mul_assoc, Nat.mul_div_mul_left _ _ two_pos]
    obtain ⟨hi, rfl⟩ : i < parts ∧ floorRange blocks parts i = r := by
      simpa [getElem?_map, getElem?_range', List.getElem?_eq_some_iff] using hr
    have hget {k : ℕ} (hk : k < 2 * parts) : ((List.range (2 * parts)).map (floorRange blocks (2 * parts)))[k]? =
        some (floorRange blocks (2 * parts) k) := by
      rw [getElem?_map, getElem?_range hk]
      rfl
    exact ⟨_, _, hget (by omega), hget (by omega), heven i, rfl, heven (i + 1)⟩

theorem dyadic_block_ranges_balanced_thirteen :
    dyadicBlockRanges 13 4 = .ok [⟨0, 3⟩, ⟨3, 6⟩, ⟨6, 9⟩, ⟨9, 13⟩] ∧ Tiles 0 [⟨0, 3⟩, ⟨3, 6⟩, ⟨6, 9⟩, ⟨9, 13⟩] 13 := by
  obtain ⟨haccepts, hranges⟩ := dyadic_block_ranges_balanced 13 4 (by decide)
  obtain ⟨ranges, h⟩ := haccepts.2 ⟨by decide, by decide, 2, rfl⟩
  obtain ⟨-, rfl, htiles, -⟩ := hranges ranges h
  exact ⟨h, htiles⟩

end

open Schedule (WitnessChunkShape)

/-! ## The tail of a shape -/

section

variable {layout : RelationRhsLayout} {numGroups : ℕ}

/-- The rows that end before the first layer are the ordinary ones, and rows without coefficients. -/
theorem sum_filter_len {rows later : List WitnessQuotientRowLayout} {start base first : ℕ}
    (hrows : Tiles start (rows.map (·.range)) base) (hbase : base ≤ first) (hlater : ∀ row ∈ later, first ≤ row.range.start) :
    (((rows ++ later).filter fun row => row.range.stop ≤ first).map (·.range.len)).sum = base - start := by
  have hall : rows.filter (fun row => decide (row.range.stop ≤ first)) = rows := by
    rw [filter_eq_self]
    intro row hrow
    have := (hrows.bounds row.range (mem_map_of_mem hrow)).2.2
    simp only [decide_eq_true_eq]
    omega
  have hzero : ((later.filter fun row => decide (row.range.stop ≤ first)).map (·.range.len)).sum = 0 := by
    apply sum_eq_zero
    intro n hn
    obtain ⟨row, hrow, rfl⟩ := mem_map.1 hn
    obtain ⟨hrow, hstop⟩ := mem_filter.1 hrow
    have hstart := hlater row hrow
    simp only [decide_eq_true_eq] at hstop
    rw [Span.len]
    omega
  have hsum := hrows.sum_len
  rw [map_map] at hsum
  rw [filter_append, map_append, sum_append, hall, hzero]
  exact Nat.eq_sub_of_add_eq' hsum

/-- **The tail of a chunk shape** is the widths in front of and behind the first aligned place. -/
theorem PlacedTail.shape {witness : WitnessLayout} {shape shape' : WitnessChunkShape} {tail : MaterializedWitnessTail}
    {start base block stop alignment : ℕ} {before later : List WitnessQuotientRowLayout} {l₁ l₂ : CompressionWitnessLayerLayout}
    (hp : PlacedTail layout numGroups start base block stop tail before later l₁ l₂ alignment)
    (hlayers : witness.compressionLayers = tail.compressionLayers) (hquots : witness.relationQuotients = tail.relationQuotients)
    (hblock : witness.compressionAlignment = block) (h : witness.compressedShape shape l₁ = .ok shape') :
    shape' = { shape with
      tailPrefixLen := base - start
      tailAlignment := max alignment block
      tailLen := stop - layerStart l₁
      tailSuffixAlignment := witness.tailSuffixAlignment } := by
  unfold WitnessLayout.compressedShape at h
  simp only [bind_eq_ok] at h
  obtain ⟨head, hhead, front, hfront, last, hlast, len, hlen, h⟩ := h
  have hstart : head.2.range.start = layerStart l₁ := by
    rw [layerStart, okOr_eq_ok.1 hhead]
    rfl
  have hrows : witness.rRows = before ++ later := by
    rw [← hp.rows, ← hquots]
    rfl
  have hbase : base ≤ layerStart l₁ := by
    obtain ⟨map, -, hdim⟩ := layerAlignment_attained hp.alignmentOk
    have hpos := Nat.pos_of_isPowerOfTwo map.isPow2
    rw [hp.first]
    exact le_roundUp (lt_of_lt_of_le (hdim ▸ hpos) (le_max_left _ _)) _
  have hprefix : front = base - start := by
    obtain ⟨-, hsum⟩ := Checked.sum_eq_some.1 (okOr_eq_ok.1 hfront)
    rw [hsum, hstart, hrows]
    exact sum_filter_len hp.ordinary hbase fun row hrow =>
      (hp.bounds row.range (mem_append_left _ (mem_map_of_mem hrow))).1
  have hdims : (l₁.fSpans.map (·.2.map.ringDimension) ++ [l₁.hSpan.map.ringDimension, witness.compressionAlignment]).max? =
      some (max alignment block) := by
    have hspans : l₁.fSpans.map (·.2.map.ringDimension) ++ [l₁.hSpan.map.ringDimension, witness.compressionAlignment] =
        (WitnessLayout.layerSpans l₁).map (·.map.ringDimension) ++ [block] := by
      simp [WitnessLayout.layerSpans, hblock]
    rw [hspans, max?_eq_some_iff]
    constructor
    · rcases le_total alignment block with hle | hle
      · simp [max_eq_right hle]
      · obtain ⟨map, hmap, hdim⟩ := layerAlignment_attained hp.alignmentOk
        obtain ⟨s, hs, hmap⟩ := (hp.maps map).1 hmap
        rw [max_eq_left hle]
        exact mem_append_left _ (mem_map.2 ⟨s, hs, by rw [hmap, hdim]⟩)
    · intro d hd
      rcases mem_append.1 hd with hd | hd
      · obtain ⟨s, hs, rfl⟩ := mem_map.1 hd
        exact (layerAlignment_spec hp.alignmentOk ((hp.maps s.map).2 ⟨s, hs, rfl⟩)).trans (le_max_left _ _)
      · obtain rfl := mem_singleton.1 hd
        exact le_max_right _ _
  have hstop : last = stop := by
    obtain ⟨hmem, hmax⟩ := max?_eq_some_iff.1 (okOr_eq_ok.1 hlast)
    rw [hrows, hlayers, hp.layers] at hmem hmax
    apply le_antisymm
    · -- ordinary rows end before the first layer, which is not behind the end
      have hh := hp.bounds l₁.hSpan.range (by simp)
      simp only [map_append, mem_append, mem_map, map_cons, map_nil, mem_cons, not_mem_nil, or_false] at hmem
      rcases hmem with (⟨row, hrow, rfl⟩ | ⟨row, hrow, rfl⟩) | (rfl | rfl)
      · have := (hp.ordinary.bounds row.range (mem_map_of_mem hrow)).2.2
        omega
      · exact (hp.bounds row.range (mem_append_left _ (mem_map_of_mem hrow))).2.2
      · exact hh.2.2
      · exact (hp.bounds l₂.hSpan.range (by simp)).2.2
    · apply hmax
      have hends := hp.ends
      simp only [map_append, map_map, map_cons, map_nil, mem_append, mem_map, Function.comp_apply] at hends ⊢
      rcases hends with hrow | hspan
      · exact .inl (.inr hrow)
      · exact .inr hspan
  obtain ⟨-, hlen⟩ := checkedSub_eq_some.1 (okOr_eq_ok.1 hlen)
  rw [← pure_eq_ok.1 h, hdims, hprefix, hlen, hstop, hstart]
  rfl

end

/-! ## Owners -/

section owners

variable {a b len : ℕ} {ends : List ℕ}

theorem alignUp_lt {value alignment aligned : ℕ} (h : alignUp value alignment = some aligned) (hvalue : value < 2 ^ 64) :
    aligned < 2 ^ 64 := by
  unfold alignUp at h
  split at h
  · cases h
  · split at h
    · cases h
      exact hvalue
    · obtain ⟨hlt, rfl⟩ := checkedAdd_eq_some.1 h
      exact hlt

theorem div_le_divCeil (a b : ℕ) : a / b ≤ Schedule.divCeil a b := Nat.le_add_right _ _

theorem divCeil_pos (ha : 0 < a) : 0 < Schedule.divCeil a b := by
  unfold Schedule.divCeil PhysicalL2.divCeil
  by_cases hmod : 0 < a % b
  · rw [if_pos hmod]
    exact Nat.succ_pos _
  · have := Nat.div_add_mod a b
    rw [if_neg hmod, add_zero]
    apply pos_of_ne_zero
    intro hzero
    rw [hzero] at this
    omega

theorem divCeil_le (hb : 0 < b) : Schedule.divCeil a b ≤ a := by
  unfold Schedule.divCeil PhysicalL2.divCeil
  have hdiv := Nat.div_add_mod a b
  have hle : a / b ≤ b * (a / b) := Nat.le_mul_of_pos_left _ hb
  split <;> omega

variable {shape : WitnessChunkShape} {blockLen numChunks : ℕ}

/-- The length of body `i` of a shape. -/
def shapeLen (shape : WitnessChunkShape) (i : ℕ) : ℕ := shape.bodyLengths.toList.getD i 0

def bodyAlignment (shape : WitnessChunkShape) (blockLen : ℕ) : ℕ := if shape.numChunks > 1 then blockLen else 1

/-- The blocks that are full before chunk `chunk`. -/
def blocksBefore (shape : WitnessChunkShape) (blockLen chunk : ℕ) : ℕ :=
  chunkStart (bodyAlignment shape blockLen) (shapeLen shape) chunk / blockLen

/-- The ends recorded after `made` bodies, of `per` bodies an owner. -/
def endsAfter (shape : WitnessChunkShape) (blockLen per made : ℕ) : List ℕ :=
  (List.range (made / per)).map fun owner => blocksBefore shape blockLen ((owner + 1) * per)

theorem endsAfter_succ (per made : ℕ) : endsAfter shape blockLen per (made + 1) = if (made + 1) % per = 0 then
      endsAfter shape blockLen per made ++ [blocksBefore shape blockLen (made + 1)] else endsAfter shape blockLen per made := by
  unfold endsAfter
  have hdiv := Nat.succ_div (a := made) (b := per)
  by_cases hmod : (made + 1) % per = 0
  · have hdvd := Nat.dvd_of_mod_eq_zero hmod
    rw [if_pos hdvd] at hdiv
    have hlast : (made / per + 1) * per = made + 1 := by rw [← hdiv]; exact Nat.div_mul_cancel hdvd
    rw [if_pos hmod, hdiv, range_succ, map_append, map_singleton, hlast]
  · have hndvd : ¬ per ∣ made + 1 := fun hdvd => hmod (Nat.mod_eq_zero_of_dvd hdvd)
    rw [if_neg hndvd, add_zero] at hdiv
    rw [if_neg hmod, hdiv]

/-- **The body loop** pads every body and records the end of every owner. -/
theorem alignBody_spec {cursor : ℕ} (hchunks : shape.numChunks ≤ maxWitnessChunks)
    (h : (shape.bodyLengths.toList.take shape.numChunks).zipIdx.foldlM (shape.alignBody blockLen numChunks) (0, []) =
      .ok (cursor, ends)) :
    cursor < 2 ^ 64 ∧ cursor = chunkStart (bodyAlignment shape blockLen) (shapeLen shape) shape.numChunks ∧
      ends = endsAfter shape blockLen (shape.numChunks / numChunks) shape.numChunks := by
  have hlen : (shape.bodyLengths.toList.take shape.numChunks).zipIdx.length = shape.numChunks := by
    rw [List.length_zipIdx, List.length_take, Vector.length_toList]
    exact min_eq_left hchunks
  have hrule := foldlM_passes (P := fun (made : List (ℕ × ℕ)) (state : ℕ × List ℕ) => state.1 < 2 ^ 64 ∧
    state.1 = chunkStart (bodyAlignment shape blockLen) (shapeLen shape) made.length ∧
    state.2 = endsAfter shape blockLen (shape.numChunks / numChunks) made.length) ?_ ⟨by decide, rfl, by simp [endsAfter]⟩ h
  · rw [hlen] at hrule
    exact hrule
  · intro made x rest state state' hl hmade hstep
    obtain ⟨-, hcursor, hends⟩ := hmade
    -- the pass reads the body of its number
    have hx : (shape.bodyLengths.toList.take shape.numChunks).zipIdx[made.length]? = some x := by rw [hl]; simp
    rw [List.getElem?_zipIdx] at hx
    obtain ⟨len, hget, rfl⟩ := Option.map_eq_some_iff.1 hx
    obtain ⟨hlt, hget⟩ := List.getElem?_eq_some_iff.1 hget
    have hlenOf : len = shapeLen shape made.length := by
      rw [List.getElem_take] at hget
      rw [shapeLen, List.getD_eq_getElem?_getD, List.getElem?_eq_getElem (by simp at hlt ⊢; omega), ← hget]
      rfl
    obtain ⟨next, hnext, hstep⟩ := bind_eq_ok.1 hstep
    have hstate := pure_eq_ok.1 hstep
    obtain ⟨padded, hpadded, hadd⟩ := Option.bind_eq_some_iff.1 (okOr_eq_ok.1 hnext)
    obtain ⟨hfits, rfl⟩ := checkedAdd_eq_some.1 hadd
    obtain ⟨-, rfl⟩ := alignUp_eq hpadded
    have hadvance : state.1 + roundUp (bodyAlignment shape blockLen) len =
        chunkStart (bodyAlignment shape blockLen) (shapeLen shape) (made.length + 1) := by
      rw [chunkStart_succ, hcursor, hlenOf]
    rw [← hstate, List.length_append, List.length_singleton]
    refine ⟨hfits, hadvance, ?_⟩
    rw [endsAfter_succ, ← hends]
    simp only [zero_add]
    congr 2
    exact congrArg (fun n => [n / blockLen]) hadvance

def ownerEnds (shape : WitnessChunkShape) (blockLen numChunks : ℕ) : List ℕ :=
  (List.range (numChunks - 1)).map fun owner => blocksBefore shape blockLen ((owner + 1) * (shape.numChunks / numChunks))

theorem blocksBefore_mono (shape : WitnessChunkShape) (blockLen : ℕ) : Monotone (blocksBefore shape blockLen) :=
  fun _ _ h => Nat.div_le_div_right (chunkStart_mono _ _ h)

structure AlignOk (shape : WitnessChunkShape) (blockLen numChunks len : ℕ) (ends : List ℕ) : Prop where
  block : blockLen.isPowerOfTwo
  owners : numChunks.isPowerOfTwo ∧ numChunks ∣ shape.numChunks
  chunks : 0 < shape.numChunks ∧ shape.numChunks ≤ maxWitnessChunks
  len_eq : len = roundUp shape.tailSuffixAlignment (roundUp shape.tailAlignment
    (chunkStart (bodyAlignment shape blockLen) (shapeLen shape) shape.numChunks + shape.tailPrefixLen) + shape.tailLen)
  len_lt : len < 2 ^ 64
  le_len : chunkStart (bodyAlignment shape blockLen) (shapeLen shape) shape.numChunks ≤ len
  ends_eq : ends = if numChunks = 1 then [] else ownerEnds shape blockLen numChunks ++ [Schedule.divCeil len blockLen]

/-- **`align`.** -/
theorem align_ok (h : shape.align blockLen numChunks = .ok (len, ends)) : AlignOk shape blockLen numChunks len ends := by
  unfold WitnessChunkShape.align at h
  simp only [bind_eq_ok] at h
  obtain ⟨_, hcheck, state, hstate, len', hlen, h⟩ := h
  have hout := pure_eq_ok.1 h
  have hcheck := ensure_eq_ok.1 hcheck
  simp only [not_or, Bool.not_eq_false, not_not, not_lt] at hcheck
  obtain ⟨-, -, hblock, hzero, howners, hchunks, hcap, hdvd⟩ := hcheck
  have hblock := isPowerOfTwo_iff.1 hblock
  have howners := isPowerOfTwo_iff.1 howners
  have hchunks := Nat.pos_of_isPowerOfTwo (isPowerOfTwo_iff.1 hchunks)
  have hdvd := Nat.dvd_of_mod_eq_zero hdvd
  obtain ⟨-, hcursor, hends⟩ := alignBody_spec hcap hstate
  simp only [option_some, okOr_eq_ok, checkedAdd_eq_some] at hlen
  obtain ⟨_, ⟨_, rfl⟩, start, hstart, _, ⟨hfits, rfl⟩, hstop⟩ := hlen
  obtain ⟨-, -, hle, -⟩ := alignUp_spec hstart
  obtain ⟨-, -, hleStop, -⟩ := alignUp_spec hstop
  have hlt := alignUp_lt hstop hfits
  obtain ⟨hlenEq, hendsEq⟩ := Prod.mk.inj hout
  subst hlenEq
  -- one end for every owner
  have hcount : shape.numChunks / (shape.numChunks / numChunks) = numChunks := Nat.div_div_self hdvd hchunks.ne'
  have hlast : (numChunks - 1) + 1 = numChunks := Nat.succ_pred_eq_of_ne_zero hzero
  have hall : state.2 = ownerEnds shape blockLen numChunks ++
      [blocksBefore shape blockLen (numChunks * (shape.numChunks / numChunks))] := by
    rw [hends, endsAfter, hcount, ownerEnds, ← hlast, range_succ, map_append, map_singleton, hlast]
  refine ⟨hblock, ⟨howners, hdvd⟩, ⟨hchunks, hcap⟩, ?_, hlt, ?_, ?_⟩
  · rw [← hcursor, (alignUp_eq hstop).2, (alignUp_eq hstart).2]
  · rw [← hcursor]
    omega
  · rw [← hendsEq, hall, if_neg (append_ne_nil_of_right_ne_nil _ (by simp)), dropLast_concat]

/-- **The ends of the owners are ordered.** -/
theorem AlignOk.ordered (h : AlignOk shape blockLen numChunks len ends) :
    (ownerEnds shape blockLen numChunks ++ [Schedule.divCeil len blockLen]).Pairwise (· ≤ ·) := by
  apply pairwise_append.2
  refine ⟨?_, pairwise_singleton _ _, ?_⟩
  · rw [ownerEnds, pairwise_map]
    exact pairwise_lt_range.imp fun hlt => blocksBefore_mono shape blockLen (Nat.mul_le_mul_right _ (by omega))
  · intro stop hstop last hlast
    obtain rfl := mem_singleton.1 hlast
    obtain ⟨owner, howner, rfl⟩ := mem_map.1 hstop
    have howner := mem_range.1 howner
    have hwithin : (owner + 1) * (shape.numChunks / numChunks) ≤ shape.numChunks :=
      (Nat.mul_le_mul_right _ (by omega)).trans (Nat.mul_div_le _ numChunks)
    exact ((blocksBefore_mono shape blockLen hwithin).trans (Nat.div_le_div_right h.le_len)).trans (div_le_divCeil _ _)

/-- An owner before the last one ends a whole number of blocks from the first place. -/
theorem AlignOk.owner_stop {owner stop : ℕ} (h : AlignOk shape blockLen numChunks len ends) (howner : owner + 1 < numChunks)
    (hstop : ends[owner]? = some stop) : (owner + 1) * (shape.numChunks / numChunks) < shape.numChunks ∧
      stop * blockLen = chunkStart (bodyAlignment shape blockLen) (shapeLen shape) ((owner + 1) * (shape.numChunks / numChunks)) := by
  have hper := Nat.div_pos (Nat.le_of_dvd h.chunks.1 h.owners.2) (Nat.pos_of_isPowerOfTwo h.owners.1)
  have hmany : shape.numChunks > 1 := by
    have := Nat.le_of_dvd h.chunks.1 h.owners.2
    omega
  constructor
  · exact (Nat.mul_lt_mul_of_pos_right howner hper).trans_eq (Nat.mul_div_cancel' h.owners.2)
  · rw [h.ends_eq, if_neg (by omega), getElem?_append_left (by simp [ownerEnds]; omega), ownerEnds, getElem?_map,
      getElem?_range (by omega)] at hstop
    cases hstop
    have hdvd : blockLen ∣ chunkStart (bodyAlignment shape blockLen) (shapeLen shape) ((owner + 1) * (shape.numChunks / numChunks)) := by
      have hdvd := dvd_chunkStart (bodyAlignment shape blockLen) (shapeLen shape) ((owner + 1) * (shape.numChunks / numChunks))
      rw [bodyAlignment, if_pos hmany] at hdvd ⊢
      exact hdvd
    exact Nat.div_mul_cancel hdvd

end owners

section

variable {blocks : ℕ} {successor : CommittedGroupParams}

theorem inheritedRanges_ok : ∀ {ends : List ℕ} {start last : ℕ}, (start :: (ends ++ [last])).Pairwise (· ≤ ·) →
    ∃ ranges, inheritedRanges start (ends ++ [last]) = .ok ranges ∧ ranges.length = ends.length + 1 ∧ Tiles start ranges last := by
  intro ends
  induction ends with
  | nil =>
    intro start last h
    have hle : start ≤ last := (pairwise_cons.1 h).1 last (by simp)
    refine ⟨[⟨start, last⟩], ?_, rfl, rfl, hle, rfl⟩
    rw [nil_append, inheritedRanges, (ensure_eq_ok (u := ())).2 (not_lt.2 hle)]
    rfl
  | cons stop ends ih =>
    intro start last h
    obtain ⟨hstart, hrest⟩ := pairwise_cons.1 h
    have hle : start ≤ stop := hstart stop (by simp)
    obtain ⟨ranges, hranges, hlen, htiles⟩ := ih hrest
    refine ⟨⟨start, stop⟩ :: ranges, ?_, by simp [hlen], rfl, hle, htiles⟩
    rw [cons_append, inheritedRanges, ensure_bind (not_lt.2 hle), hranges]
    rfl

/-- **A level whose own group inherits ordered ends** partitions its blocks by them. -/
theorem witnessBlockRanges_inherited {numChunks : ℕ} {ends : List ℕ} (hends : successor.witnessChunkEnds = ends ++ [blocks])
    (hlen : ends.length + 1 = numChunks) (hpow : numChunks.isPowerOfTwo) (hcap : numChunks ≤ maxWitnessChunks)
    (hblocks : successor.ownGroup.numLiveBlocks = blocks) (hordered : (ends ++ [blocks]).Pairwise (· ≤ ·)) :
    ∃ ranges, successor.witnessBlockRanges successor.preceding.length numChunks = .ok ranges ∧ ranges.length = numChunks ∧
      Tiles 0 ranges blocks := by
  obtain ⟨ranges, hranges, hcount, htiles⟩ := inheritedRanges_ok (pairwise_cons.2 ⟨fun _ _ => Nat.zero_le _, hordered⟩)
  refine ⟨ranges, ?_, hcount.trans hlen, htiles⟩
  have hextent : ¬ ((ends ++ [blocks]).length ≠ numChunks ∨ isPowerOfTwo numChunks = false ∨ numChunks > maxWitnessChunks ∨
      (ends ++ [blocks]).getLast? ≠ some successor.ownGroup.numLiveBlocks) := by
    simp only [length_append, length_singleton, hlen, isPowerOfTwo_iff.2 hpow, getLast?_append, getLast?_singleton,
      Option.some_or, hblocks]
    simpa using hcap
  have hne : ¬ (successor.preceding.length ≠ successor.preceding.length ∨ ends ++ [blocks] = []) := by simp
  unfold CommittedGroupParams.witnessBlockRanges
  rw [if_pos rfl, hends]
  simp only [okOr, ok_bind]
  rw [if_neg hne, ensure_bind hextent, hranges]

theorem witnessBlockRanges_single (hends : successor.witnessChunkEnds = []) (hblocks : successor.ownGroup.numLiveBlocks = blocks)
    (hpos : 0 < blocks) (hlt : blocks < 2 ^ 64) :
    ∃ ranges, successor.witnessBlockRanges successor.preceding.length 1 = .ok ranges ∧ ranges.length = 1 ∧ Tiles 0 ranges blocks := by
  refine ⟨[⟨0, blocks⟩], ?_, rfl, rfl, Nat.zero_le _, rfl⟩
  unfold CommittedGroupParams.witnessBlockRanges
  rw [if_pos rfl, hends]
  simp only [okOr, ok_bind]
  rw [if_pos (.inr trivial), hblocks]
  exact (dyadicBlockRanges_eq_ok hlt).2 ⟨⟨hpos.ne', by decide, 0, rfl⟩, by simp [floorRange]⟩

end

/-! ## The layout -/

section layouts

variable {forLevel : CommittedGroupParams → OpeningClaimsLayout → ℕ → Result RelationWitnessGeometry} {lp : CommittedGroupParams}
  {batch : OpeningClaimsLayout} {geometry : RelationWitnessGeometry} {numChunks : ℕ} {plan : RelationQuotientPlan}
  {layout : WitnessLayout} {order : List ℕ} {groups : List GroupGeometry} {body : WitnessBody} {tail : MaterializedWitnessTail}
  {chunkIndex : ℕ}

structure NewRun (lp : CommittedGroupParams) (batch : OpeningClaimsLayout) (geometry : RelationWitnessGeometry) (numChunks : ℕ)
    (plan : RelationQuotientPlan) (layout : WitnessLayout) (order : List ℕ) (groups : List GroupGeometry) (body : WitnessBody)
    (tail : MaterializedWitnessTail) : Prop where
  counts : 0 < batch.numGroups ∧ 0 < numChunks
  orderOk : batch.rootGroupOrder = .ok order
  groupsOk : ∃ final, batch.rootFinalGroupIndex = .ok final ∧ order.mapM (groupGeometry lp batch geometry numChunks final) = .ok groups
  bodyOk : (List.range numChunks).foldlM (placeChunk lp numChunks groups) ⟨0, [], []⟩ = .ok body
  suffixOk : successorAAlignment batch geometry groups = .ok layout.tailSuffixAlignment
  tailOk : materialize lp geometry.rhsLayout batch.numGroups plan layout.tailSuffixAlignment body.cursor = .ok tail
  blockOk : geometry.rhsLayout.relationCoefficientBlockLen = .ok layout.compressionAlignment
  chunkCount : layout.numChunks = numChunks
  units : layout.units = body.units
  layers : layout.compressionLayers = tail.compressionLayers
  quotients : layout.relationQuotients = tail.relationQuotients
  range : layout.tailRange = ⟨body.cursor, tail.stop⟩

theorem new_run (h : WitnessLayout.new lp batch geometry numChunks forLevel plan = .ok layout) :
    ∃ order groups body tail, NewRun lp batch geometry numChunks plan layout order groups body tail := by
  obtain ⟨_, hcounts, h⟩ := bind_eq_ok.1 h
  obtain ⟨_, _, h⟩ := bind_eq_ok.1 h
  obtain ⟨_, _, h⟩ := bind_eq_ok.1 h
  obtain ⟨_, _, h⟩ := bind_eq_ok.1 h
  obtain ⟨order, horder, h⟩ := bind_eq_ok.1 h
  obtain ⟨final, hfinal, h⟩ := bind_eq_ok.1 h
  obtain ⟨_, _, h⟩ := bind_eq_ok.1 h
  obtain ⟨groups, hgroups, h⟩ := bind_eq_ok.1 h
  obtain ⟨body, hbody, h⟩ := bind_eq_ok.1 h
  obtain ⟨suffix, hsuffix, h⟩ := bind_eq_ok.1 h
  obtain ⟨tail, htail, h⟩ := bind_eq_ok.1 h
  obtain ⟨block, hblock, h⟩ := bind_eq_ok.1 h
  have hlayout := pure_eq_ok.1 h
  subst hlayout
  have hcounts := ensure_eq_ok.1 hcounts
  rw [not_or] at hcounts
  exact ⟨order, groups, body, tail, ⟨pos_of_ne_zero hcounts.1, pos_of_ne_zero hcounts.2⟩, horder, ⟨final, hfinal, hgroups⟩, hbody,
    hsuffix, htail, hblock, rfl, rfl, rfl, rfl, rfl⟩

theorem NewRun.padded (h : NewRun lp batch geometry numChunks plan layout order groups body tail) :
    PaddedBody (chunkAlignment lp numChunks) order numChunks body := by
  obtain ⟨final, rest, rfl, hfinal, -⟩ := rootGroupOrder_spec h.orderOk
  obtain ⟨final', -, hgroups⟩ := h.groupsOk
  exact body_spec (groupGeometry_indices hgroups) hfinal h.bodyOk

theorem placeUnit_pos {body' : WitnessBody} {group : GroupGeometry} {i final : ℕ}
    (hgroup : groupGeometry lp batch geometry numChunks final i = .ok group) (h : placeUnit chunkIndex body group = .ok body') :
    body.cursor < body'.cursor := by
  simp only [groupGeometry, result_ok, Prod.exists, not_or] at hgroup
  obtain ⟨params, dims, -, hdims, polynomials, -, opening, -, hposv, ranges, -, rfl⟩ := hgroup
  have hinner := (validateRoleProjection_ok hdims).1
  obtain ⟨-, -, hposs, -, hdigs, -, hfold, -⟩ := hposv
  simp only [placeUnit, result_ok, Prod.exists] at h
  obtain ⟨blocks, -, zLen, eLen, tLen, hlens, z, hz, e, he, t, ht, rfl⟩ := h
  obtain ⟨-, rfl⟩ := witnessRange_spec hz
  obtain ⟨-, rfl⟩ := witnessRange_spec he
  obtain ⟨-, rfl⟩ := witnessRange_spec ht
  obtain ⟨hzLen, -, -⟩ := witnessUnitLengths_spec hlens
  have hzPos : 0 < zLen := by
    rw [hzLen]
    exact Nat.mul_pos (Nat.mul_pos (Nat.mul_pos (pos_of_ne_zero hposs) (pos_of_ne_zero hdigs))
      (pos_of_ne_zero hfold)) hinner
  dsimp only
  omega

theorem le_placeUnits {body' : WitnessBody} (h : groups.foldlM (placeUnit chunkIndex) body = .ok body') :
    body.cursor ≤ body'.cursor := by
  obtain ⟨_, _, htiles, _⟩ := placeUnits_spec h
  exact htiles.le

theorem le_placeChunk {body' : WitnessBody} (h : placeChunk lp numChunks groups body chunkIndex = .ok body') :
    body.cursor ≤ body'.cursor := by
  obtain ⟨_, _, _, htiles, hle, -⟩ := placeChunk_spec h
  exact htiles.le.trans hle

theorem NewRun.body_pos (h : NewRun lp batch geometry numChunks plan layout order groups body tail) : 0 < body.cursor := by
  obtain ⟨final, rest, rfl, -⟩ := rootGroupOrder_spec h.orderOk
  obtain ⟨final', -, hgroups⟩ := h.groupsOk
  have hbody := h.bodyOk
  obtain ⟨n, hn⟩ := Nat.exists_eq_succ_of_ne_zero h.counts.2.ne'
  rw [hn, range_succ_eq_map, foldlM_cons] at hbody
  obtain ⟨first, hfirst, hbody⟩ := bind_eq_ok.1 hbody
  have hrest : first.cursor ≤ body.cursor :=
    foldlM_inv (P := fun b => first.cursor ≤ b.cursor) (fun _ _ _ _ hle hstep => hle.trans (le_placeChunk hstep)) le_rfl hbody
  -- the first unit of the first chunk has coefficients
  rw [mapM_cons] at hgroups
  simp only [bind_eq_ok] at hgroups
  obtain ⟨group, hgroup, others, _, hgroups⟩ := hgroups
  have hgroups := pure_eq_ok.1 hgroups
  subst hgroups
  unfold placeChunk at hfirst
  simp only [bind_eq_ok] at hfirst
  obtain ⟨placed, hplaced, aligned, halign, hfirst⟩ := hfirst
  obtain ⟨-, -, hle, -⟩ := alignUp_spec (okOr_eq_ok.1 halign)
  have hcursor : first.cursor = aligned := by rw [← pure_eq_ok.1 hfirst]
  rw [foldlM_cons] at hplaced
  obtain ⟨unit, hunit, hplaced⟩ := bind_eq_ok.1 hplaced
  have hpos := placeUnit_pos hgroup hunit
  have hunits := le_placeUnits hplaced
  omega

theorem addBodyLengths_spec {units : List WitnessUnitLayout} {lengths : Vector ℕ maxWitnessChunks}
    (h : units.foldlM WitnessLayout.addBodyLength (.replicate maxWitnessChunks 0) = .ok lengths) :
    ∀ i (hi : i < maxWitnessChunks), lengths[i] = bodyLen units i := by
  refine foldlM_passes (P := fun made (lengths : Vector ℕ maxWitnessChunks) =>
    ∀ i (hi : i < maxWitnessChunks), lengths[i] = bodyLen made i) ?_ (by simp [bodyLen]) h
  intro made u rest lengths lengths' _ hmade hstep i hi
  unfold WitnessLayout.addBodyLength at hstep
  simp only [bind_eq_ok] at hstep
  obtain ⟨len, hlen, before, hbefore, after, hafter, hstep⟩ := hstep
  obtain ⟨-, rfl⟩ := checkedSub_eq_some.1 (okOr_eq_ok.1 hlen)
  obtain ⟨hu, hbefore⟩ := Vector.getElem?_eq_some_iff.1 (okOr_eq_ok.1 hbefore)
  obtain ⟨-, rfl⟩ := checkedAdd_eq_some.1 (okOr_eq_ok.1 hafter)
  rw [← pure_eq_ok.1 hstep, Vector.getElem_setIfInBounds hi, bodyLen_append]
  split
  · next heq =>
    subst heq
    have hunit : bodyLen [u] u.chunkIndex = unitLen u := by simp [bodyLen]
    rw [← hbefore, hmade _ hi, hunit, unitLen]
  · next hne =>
    have hunit : bodyLen [u] i = 0 := bodyLen_of_ne (by simpa using hne)
    rw [hmade _ hi, hunit, add_zero]

/-- The tail fields of a shape, for the layout whose body ends at `base`. -/
structure ShapeOk (layout : WitnessLayout) (shape : WitnessChunkShape) : Prop where
  chunks : shape.numChunks = layout.numChunks
  bodies : ∀ i < maxWitnessChunks, shapeLen shape i = bodyLen layout.units i

theorem chunkShape_bodies {shape : WitnessChunkShape} (h : layout.chunkShape = .ok shape) : ShapeOk layout shape := by
  obtain ⟨lengths, hlens, h⟩ := bind_eq_ok.1 h
  have hbodies := addBodyLengths_spec hlens
  have hread : ∀ s : WitnessChunkShape, s.bodyLengths = lengths → s.numChunks = layout.numChunks → ShapeOk layout s := by
    intro s hs hcount
    refine ⟨hcount, fun i hi => ?_⟩
    rw [shapeLen, hs, getD_eq_getElem?_getD, getElem?_eq_getElem (by simpa using hi), ← hbodies i hi]
    rfl
  cases hlayer : layout.compressionLayers.head? with
  | none =>
    rw [hlayer] at h
    have hshape := pure_eq_ok.1 h
    exact hread shape (by rw [← hshape]) (by rw [← hshape])
  | some layer =>
    rw [hlayer] at h
    simp only [WitnessLayout.compressedShape] at h
    simp only [bind_eq_ok] at h
    obtain ⟨_, _, _, _, _, _, _, _, h⟩ := h
    have hshape := pure_eq_ok.1 h
    exact hread shape (by rw [← hshape]) (by rw [← hshape])

variable {lp' : CommittedGroupParams} {shape : WitnessChunkShape} {layout' : WitnessLayout} {order' : List ℕ} {groups' : List GroupGeometry}
  {body' : WitnessBody} {tail' : MaterializedWitnessTail}

theorem materialize_raw {params : CommittedGroupParams} {rhs : RelationRhsLayout} {numGroups suffixAlignment start : ℕ}
    (hraw : params.payloadMode.isCompressed ≠ true) (h : materialize params rhs numGroups plan suffixAlignment start = .ok tail) :
    tail.compressionLayers = [] ∧ ∃ families sink, plan.rowFamilies rhs = .ok families ∧
      placeOrdinary plan families (.new start) = .ok sink ∧ tail.stop = sink.cursor := by
  unfold materialize at h
  simp only [bind_eq_ok] at h
  obtain ⟨_, _, _, _, families, hfams, sink, hsink, h⟩ := h
  rw [if_neg hraw] at h
  obtain ⟨_, _, hnone, -⟩ := placeOrdinary_inv hsink
  obtain ⟨_, _, h⟩ := bind_eq_ok.1 h
  have htail := pure_eq_ok.1 h
  subst htail
  exact ⟨hnone, families, sink, hfams, hsink, rfl⟩

/-- **The tail of the shape predicts every tail** of the level. -/
theorem chunkShape_tail (hbuilt : geometry.rhsLayout.PlansBuilt) (hmode : lp'.payloadMode = lp.payloadMode)
    (h : NewRun lp batch geometry numChunks plan layout order groups body tail)
    (h' : NewRun lp' batch geometry numChunks plan layout' order' groups' body' tail')
    (hsuffix : layout'.tailSuffixAlignment = layout.tailSuffixAlignment) (hshape : layout.chunkShape = .ok shape) :
    tail'.stop = roundUp shape.tailSuffixAlignment (roundUp shape.tailAlignment (body'.cursor + shape.tailPrefixLen) + shape.tailLen) := by
  obtain ⟨lengths, _, hshape⟩ := bind_eq_ok.1 hshape
  by_cases hcomp : lp.payloadMode.isCompressed = true
  · obtain ⟨families, block, ordinary, aligned, first, second, stop, hrun⟩ := materialize_run hcomp h.tailOk
    obtain ⟨families', block', ordinary', aligned', first', second', stop', hrun'⟩ :=
      materialize_run (hmode ▸ hcomp) (hsuffix ▸ h'.tailOk)
    obtain ⟨before, later, l₁, l₂, alignment, hplaced⟩ := hrun.placed h.counts.1
    have hblock : layout.compressionAlignment = block := Except.ok.inj (h.blockOk.symm.trans hrun.blockOk)
    have hhead : layout.compressionLayers.head? = some l₁ := by rw [h.layers, hplaced.layers]; rfl
    rw [hhead] at hshape
    have hfields := hplaced.shape h.layers h.quotients hblock hshape
    obtain ⟨front, back, hfront, hfront', hback, hback'⟩ := hrun.shift hbuilt hrun' hplaced.alignmentOk
    have hfronts : ordinary.cursor - body.cursor = front := by omega
    have hlen : second.cursor - layerStart l₁ = back := by rw [hplaced.first]; omega
    rw [hrun'.length, hback', hfront', hfields]
    rw [hfronts, hlen]
  · obtain ⟨hnone, families, sink, hfams, hsink, hstop⟩ := materialize_raw hcomp h.tailOk
    obtain ⟨-, families', sink', hfams', hsink', hstop'⟩ := materialize_raw (hmode ▸ hcomp) h'.tailOk
    obtain rfl : families = families' := Except.ok.inj (hfams.symm.trans hfams')
    obtain ⟨width, hwidth, hwidth'⟩ : Shift body.cursor body'.cursor sink sink' :=
      placeOrdinary_shift families ⟨0, rfl, rfl⟩ sink sink' hsink hsink'
    have hhead : layout.compressionLayers.head? = none := by rw [h.layers, hnone]; rfl
    rw [hhead] at hshape
    have hlen : layout.tailRange.len = width := by
      rw [h.range, Span.len, hstop, hwidth]
      exact Nat.add_sub_cancel_left ..
    rw [← pure_eq_ok.1 hshape, hstop', hwidth', hlen]
    simp

end layouts

/-- **Planned chunk alignment is that of the built layout.** The shape of any layout of a level, aligned for a block of the
successor, gives the live length of the layout that is built for that block; the ends are ordered, the owners before the
last one end where a chunk starts, a whole number of blocks from the first place, and the last one owns every block that is
left; and every successor level over these blocks accepts the ends as the partition of its own group. -/
theorem chunkShape_align_eq_layout
    (forLevel : CommittedGroupParams → OpeningClaimsLayout → ℕ → Result RelationWitnessGeometry) (lp : CommittedGroupParams)
    (batch : OpeningClaimsLayout) (geometry : RelationWitnessGeometry) (numChunks : ℕ) (plan : RelationQuotientPlan)
    (hbuilt : geometry.rhsLayout.PlansBuilt) (blockLen k : ℕ) (layout aligned : WitnessLayout) (shape : WitnessChunkShape) (len : ℕ)
    (ends : List ℕ) (hlayout : WitnessLayout.new lp batch geometry numChunks forLevel plan = .ok layout)
    (hshape : layout.chunkShape = .ok shape) (halign : shape.align blockLen k = .ok (len, ends))
    (haligned : WitnessLayout.new { lp with successorBlockLen := some blockLen } batch geometry numChunks forLevel plan = .ok aligned) :
    len = aligned.liveCoeffLen ∧ ends.Pairwise (· ≤ ·) ∧ ends.length = (if k = 1 then 0 else k) ∧
    (∀ owner stop, owner + 1 < k → ends[owner]? = some stop → ∃ u ∈ aligned.units, u.chunkIndex = (owner + 1) * (numChunks / k) ∧
      u.groupIndex + 1 = batch.numGroups ∧ u.zRange.start = stop * blockLen) ∧
    (k ≠ 1 → ends.getLast? = some (Schedule.divCeil aligned.liveCoeffLen blockLen)) ∧
    ∀ successor : CommittedGroupParams, successor.ownGroup.numLiveBlocks = Schedule.divCeil aligned.liveCoeffLen blockLen →
      successor.witnessChunkEnds = ends → ∃ ranges, successor.witnessBlockRanges successor.preceding.length k = .ok ranges ∧
        ranges.length = k ∧ Tiles 0 ranges (Schedule.divCeil aligned.liveCoeffLen blockLen) := by
  obtain ⟨order, groups, body, tail, hrun⟩ := new_run hlayout
  obtain ⟨order', groups', body', tail', hrun'⟩ := new_run haligned
  have halign := align_ok halign
  have hbodies := chunkShape_bodies hshape
  -- both layouts have the same groups, and so the same units
  obtain rfl : order = order' := Except.ok.inj (hrun.orderOk.symm.trans hrun'.orderOk)
  obtain ⟨final, hfinal, hgroups⟩ := hrun.groupsOk
  obtain ⟨final', hfinal', hgroups'⟩ := hrun'.groupsOk
  obtain rfl : final = final' := Except.ok.inj (hfinal.symm.trans hfinal')
  obtain rfl : groups = groups' := Except.ok.inj (hgroups.symm.trans hgroups')
  have hsuffix : aligned.tailSuffixAlignment = layout.tailSuffixAlignment := Except.ok.inj (hrun'.suffixOk.symm.trans hrun.suffixOk)
  have hunits := body_agree hrun.bodyOk hrun'.bodyOk
  have hpadded := hrun'.padded
  have hcount : shape.numChunks = numChunks := hbodies.chunks.trans hrun.chunkCount
  have hblock : bodyAlignment shape blockLen = chunkAlignment { lp with successorBlockLen := some blockLen } numChunks := by
    rw [bodyAlignment, hcount]
    rfl
  have hcap : numChunks ≤ maxWitnessChunks := hcount ▸ halign.chunks.2
  have hstarts : ∀ chunk ≤ numChunks, chunkStart (bodyAlignment shape blockLen) (shapeLen shape) chunk =
      chunkStart (chunkAlignment { lp with successorBlockLen := some blockLen } numChunks) (bodyLen body'.units) chunk := by
    intro chunk hchunk
    rw [hblock]
    apply chunkStart_congr
    intro i hi
    rw [hbodies.bodies i (by omega), hrun.units]
    exact bodyLen_congr hunits i
  have hmode : ({ lp with successorBlockLen := some blockLen } : CommittedGroupParams).payloadMode = lp.payloadMode := rfl
  have hlen : len = aligned.liveCoeffLen := by
    rw [WitnessLayout.liveCoeffLen, hrun'.range]
    rw [chunkShape_tail hbuilt hmode hrun hrun' hsuffix hshape, halign.len_eq, hcount, hstarts _ le_rfl, ← hpadded.cursor]
  rw [← hlen]
  refine ⟨rfl, ?_, ?_, ?_, ?_, ?_⟩
  · rw [halign.ends_eq]
    split
    · exact .nil
    · exact halign.ordered
  · have hpos := Nat.pos_of_isPowerOfTwo halign.owners.1
    rw [halign.ends_eq]
    split
    · rfl
    · simp [ownerEnds]
      omega
  · intro owner stop howner hstop
    obtain ⟨hchunk, hplace⟩ := halign.owner_stop howner hstop
    rw [hcount] at hchunk hplace
    obtain ⟨first, rest, rfl, hfirst, hlast⟩ := rootGroupOrder_spec hrun'.orderOk
    have hkeys := (body_inv (groupGeometry_indices hgroups) hfirst hrun'.bodyOk).keys
    have hmem : ((owner + 1) * (numChunks / k), first) ∈ body'.units.map unitKey := by
      rw [hkeys]
      exact mem_flatMap.2 ⟨_, mem_range.2 hchunk, by simp⟩
    obtain ⟨u, hu, hkey⟩ := mem_map.1 hmem
    obtain ⟨hindex, hgroup⟩ := Prod.mk.inj hkey
    refine ⟨u, hrun'.units ▸ hu, hindex, hgroup ▸ hlast, ?_⟩
    rw [hpadded.starts u hu (by rw [hgroup]; rfl), hindex, hplace]
    exact (hstarts _ hchunk.le).symm
  · intro hk
    rw [halign.ends_eq, if_neg hk]
    simp
  · intro successor hblocks hends
    rw [halign.ends_eq] at hends
    split at hends
    · next hone =>
      rw [hone]
      have hpos : 0 < len := by
        have hle := halign.le_len
        have hbody := hrun'.body_pos
        rw [hcount, hstarts _ le_rfl, ← hpadded.cursor] at hle
        omega
      exact witnessBlockRanges_single hends hblocks (divCeil_pos hpos)
        (lt_of_le_of_lt (divCeil_le (Nat.pos_of_isPowerOfTwo halign.block)) halign.len_lt)
    · have hpos := Nat.pos_of_isPowerOfTwo halign.owners.1
      have hk : k ≤ maxWitnessChunks := (Nat.le_of_dvd halign.chunks.1 halign.owners.2).trans halign.chunks.2
      exact witnessBlockRanges_inherited hends (by simp [ownerEnds]; omega) halign.owners.1 hk hblocks halign.ordered

section

def unalignedLevel : CommittedGroupParams := { sampleLevel with successorBlockLen := none }

theorem sampleChain_built : sampleChain.Built := by
  have hchain : ∃ first second, Compression.CompressionMapPlan.new .q128OffsetA7F7 64 32 1 = .ok first ∧
      Compression.CompressionMapPlan.new .q128OffsetA7F7 32 16 1 = .ok second ∧
      ∃ chain, Compression.CompressionChainPlan.new .q128OffsetA7F7 64 ⟨#[first, second], rfl⟩ = .ok chain ∧
        ∀ mapIndex : Fin compressionMapCount, (sampleChain.maps mapIndex).inputCoefficients = (chain.maps.get mapIndex).inputCoefficients ∧
          (sampleChain.maps mapIndex).ringDimension = (chain.maps.get mapIndex).ringDimension ∧
          (sampleChain.maps mapIndex).inputWidth = (chain.maps.get mapIndex).inputWidth :=
    ⟨_, _, rfl, rfl, _, rfl, by decide⟩
  obtain ⟨first, second, -, -, chain, hnew, hmaps⟩ := hchain
  exact ⟨_, _, chain, hnew, hmaps⟩

theorem sampleGeometry_built : sampleGeometry.rhsLayout.PlansBuilt := by
  intro compression hcomp chain hchain
  cases hcomp
  have hall : ∀ c ∈ [sampleChain, sampleChain, sampleChain], c = sampleChain := by simp
  rw [hall chain hchain]
  exact sampleChain_built

theorem chunkShape_align_two_owners : ∃ layout aligned shape,
    WitnessLayout.new unalignedLevel sampleBatch sampleGeometry 2 (fun _ _ _ => .ok sampleGeometry) (.quotientLift 43) = .ok layout ∧
      layout.chunkShape = .ok shape ∧ shape.align 1024 2 = .ok (66432, [2, 65]) ∧ layout.liveCoeffLen = 65920 ∧
      WitnessLayout.new sampleLevel sampleBatch sampleGeometry 2 (fun _ _ _ => .ok sampleGeometry) (.quotientLift 43) = .ok aligned ∧
      66432 = aligned.liveCoeffLen := by
  have hplanned : (do
      let layout ← WitnessLayout.new unalignedLevel sampleBatch sampleGeometry 2 (fun _ _ _ => .ok sampleGeometry) (.quotientLift 43)
      let shape ← layout.chunkShape
      let planned ← shape.align 1024 2
      return (layout.liveCoeffLen, planned) : Result (ℕ × ℕ × List ℕ)) = .ok (65920, 66432, [2, 65]) := by
    decide +kernel
  have hnew : (WitnessLayout.new sampleLevel sampleBatch sampleGeometry 2 (fun _ _ _ => .ok sampleGeometry)
      (.quotientLift 43)).toBool = true := by
    decide +kernel
  obtain ⟨aligned, haligned⟩ := toBool_ok hnew
  simp only [bind_eq_ok] at hplanned
  obtain ⟨layout, hlayout, shape, hshape, planned, halign, hplanned⟩ := hplanned
  obtain ⟨hlen, rfl⟩ := Prod.mk.inj (pure_eq_ok.1 hplanned)
  have hspec := chunkShape_align_eq_layout (fun _ _ _ => .ok sampleGeometry) unalignedLevel sampleBatch sampleGeometry 2
    (.quotientLift 43) sampleGeometry_built 1024 2 layout aligned shape 66432 [2, 65] hlayout hshape halign haligned
  exact ⟨layout, aligned, shape, hlayout, hshape, halign, hlen, haligned, hspec.1⟩

end

end Akita.Witness
