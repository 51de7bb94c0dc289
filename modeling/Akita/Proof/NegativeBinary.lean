import Akita.Lib.Enumerate
import Akita.Proof.CompressionExecution

/-!
# Negative-binary packing is exact

The bits of a packing are those of the canonical negations of its coefficients, bit-major over the whole image. Recomposition
takes the powers of the bits back from zero, bit by bit, and the expanded rows hold the same digits cut at the ring dimension;
past the real digits they are zero. So a packing has one image, and distinct images have distinct bytes.

Main results: `recompose_eq`, `negative_binary_packing_exact`.
-/

namespace Akita.Compression

open Lib Finset
open Schedule (SisModulusProfileId)

namespace PackedNegativeBinary

variable {F : Type} [CommRing F] {𝔢 : FieldEncoding F} {packed : PackedNegativeBinary} {image : List F} {modulus : ℕ}

/-! ## Recomposition -/

/-- The part of a coefficient that the bits below `B` give. -/
def partialDigits (packed : PackedNegativeBinary) (n B j : ℕ) : F :=
  ∑ b ∈ range B, if bitAt packed.bytes (b * n + j) then -2 ^ b else 0

theorem partialDigits_succ (n B j : ℕ) : (packed.partialDigits n (B + 1) j : F) =
    if bitAt packed.bytes (B * n + j) then packed.partialDigits n B j - 2 ^ B else packed.partialDigits n B j := by
  rw [partialDigits, sum_range_succ, ← partialDigits]
  split_ifs
  · rw [sub_eq_add_neg]
  · rw [add_zero]

theorem recomposeDigit_eq {n bit : ℕ} {power : F} {entry : F × ℕ} (hsmall : 8 * packed.bytes.length ≤ 2 ^ usizeBits)
    (hplace : bit * n + entry.2 < 8 * packed.bytes.length) : packed.recomposeDigit n bit power entry =
      .ok (if bitAt packed.bytes (bit * n + entry.2) then entry.1 - power else entry.1) := by
  have hbyte : (bit * n + entry.2) / 8 < packed.bytes.length := by omega
  have hbase : checkedMul usizeBits bit n = some (bit * n) := checkedMul_eq_some.2 ⟨by omega, rfl⟩
  have hlinear : checkedAdd usizeBits (bit * n) entry.2 = some (bit * n + entry.2) := checkedAdd_eq_some.2 ⟨by omega, rfl⟩
  rw [recomposeDigit, hbase]
  change (okOr (checkedAdd usizeBits (bit * n) entry.2) _ >>= _) = _
  rw [hlinear]
  change (okOr packed.bytes[(bit * n + entry.2) / 8]? _ >>= _) = _
  rw [List.getElem?_eq_getElem hbyte, bitAt, List.getD_eq_getElem?_getD, List.getElem?_eq_getElem hbyte]
  rfl

/-- **The loop over the bits**: each pass takes the next power from the coefficients with the bit. -/
theorem recompose_loop {n : ℕ} (hsmall : 8 * packed.bytes.length ≤ 2 ^ usizeBits) : ∀ B : ℕ, B * n ≤ 8 * packed.bytes.length →
    ((List.range B).foldlM (fun state bit => do
      let output ← state.1.zipIdx.mapM (packed.recomposeDigit state.1.length bit state.2)
      return (output, state.2 + state.2)) (List.replicate n (0 : F), (1 : F)) : Result (List F × F)) =
      .ok ((List.range n).map (packed.partialDigits n B), 2 ^ B) := by
  intro B
  induction B with
  | zero =>
    intro _
    have hzero : (List.range n).map (packed.partialDigits n 0) = List.replicate n (0 : F) := by
      refine (List.map_congr_left fun j _ => ?_).trans (List.map_const' .. |>.trans (by rw [List.length_range]))
      rw [partialDigits, range_zero, sum_empty]
    rw [hzero, pow_zero]
    rfl
  | succ B ih =>
    intro hfit
    rw [Nat.succ_mul] at hfit
    have hpass : ((List.range n).map (packed.partialDigits n B)).zipIdx.mapM (packed.recomposeDigit n B ((2 : F) ^ B)) =
        .ok ((List.range n).map (packed.partialDigits n (B + 1))) := by
      rw [mapM_ok_of_forall (g := fun entry => if bitAt packed.bytes (B * n + entry.2) then entry.1 - (2 : F) ^ B else entry.1)]
      · congr 1
        refine List.ext_getElem (by simp) fun j hj _ => ?_
        simp only [List.getElem_map, List.getElem_zipIdx, List.getElem_range, zero_add]
        rw [partialDigits_succ]
      · intro entry hentry
        have hindex : entry.2 < n := by
          obtain ⟨hlt, -⟩ := List.getElem?_eq_some_iff.1 (List.mem_zipIdx_iff_getElem?.mp hentry)
          simpa using hlt
        exact recomposeDigit_eq hsmall (by omega)
    rw [List.range_succ, List.foldlM_append, ih (by omega), ok_bind, List.foldlM_cons]
    dsimp only
    rw [List.length_map, List.length_range, hpass, ok_bind, pow_succ, mul_two]
    rfl

theorem sum_testBit {m B : ℕ} (hm : m < 2 ^ B) : (∑ b ∈ range B, if m.testBit b then -(2 : F) ^ b else 0) = -(m : F) := by
  have hterm : ∀ b ∈ range B, (if m.testBit b then -(2 : F) ^ b else 0) = -((m / 2 ^ (1 * b) % 2 ^ 1 * 2 ^ (1 * b) : ℕ) : F) := by
    intro b _
    rw [Nat.testBit_eq_decide_div_mod_eq, one_mul, pow_one]
    rcases Nat.mod_two_eq_zero_or_one (m / 2 ^ b) with hbit | hbit <;> simp [hbit]
  rw [sum_congr rfl hterm, sum_neg_distrib, ← Nat.cast_sum, sum_fields, one_mul, Nat.mod_eq_of_lt hm]

/-- **Recomposition gives the image back.** -/
theorem recompose_eq (hmod : fieldModulus 𝔢 = .ok modulus) (hpacks : Packs modulus packed image)
    (hmatches : packed.map.modulusProfile.modulus = modulus) (hbits : 𝔢.modulusBits ≤ packed.map.modulusProfile.fieldBits)
    (hle : modulus ≤ 2 ^ 𝔢.modulusBits) (hreal : packed.map.realDigitCount = image.length * packed.map.modulusProfile.fieldBits)
    (hsmall : packed.map.realDigitCount < 2 ^ 63) : packed.recompose 𝔢 = .ok image := by
  have hbytes : packed.bytes.length = (packed.map.realDigitCount + 7) / 8 := hpacks.bytes_length
  have hfit : 𝔢.modulusBits * image.length ≤ 8 * packed.bytes.length := by
    have hmul := Nat.mul_le_mul_right image.length hbits
    rw [mul_comm packed.map.modulusProfile.fieldBits, ← hreal] at hmul
    omega
  have hloop := recompose_loop (F := F) (by unfold usizeBits; omega) 𝔢.modulusBits hfit
  have himage : (List.range image.length).map (packed.partialDigits image.length 𝔢.modulusBits) = image := by
    refine List.ext_getElem (by simp) fun j _ hj => ?_
    obtain ⟨m, hlt, hcast, hbit⟩ := hpacks.bits j hj
    have hsum : (packed.partialDigits image.length 𝔢.modulusBits j : F) = ∑ b ∈ range 𝔢.modulusBits, if m.testBit b then -2 ^ b else 0 :=
      sum_congr rfl fun b hb => by rw [hbit b ((mem_range.1 hb).trans_le hbits)]
    rw [List.getElem_map, List.getElem_range, hsum, sum_testBit (hlt.trans_le hle), hcast, neg_neg]
  have hmatches' : matchesModulus packed.map.modulusProfile modulus := hmatches
  rw [recompose, hmod, ok_bind, ensure_bind hmatches', ← hpacks.length, hloop, ok_bind, himage]
  rfl

/-! ## The rows -/

theorem getElem?_rows {D linear : ℕ} (hD : 0 < D) (hlinear : linear < packed.map.inputWidth * D) :
    (packed.rows D).flatten[linear]? = some (packed.digit linear) := by
  have hrow : linear / D < packed.map.inputWidth := Nat.div_lt_of_lt_mul (by rwa [mul_comm])
  have hcolumn := Nat.mod_lt linear hD
  have hplace : linear / D * D + linear % D = linear := by rw [mul_comm, Nat.div_add_mod]
  conv_lhs => rw [← hplace]
  rw [getElem?_flatten (fun row hrow => (rows_wellFormed packed D row hrow).1) hcolumn, rows, List.getElem?_map,
    List.getElem?_range hrow, Option.map_some, Option.bind_some, List.getElem?_map, List.getElem?_range hcolumn, Option.map_some, hplace]

/-- What an exact gadget shows of a packing: its rows hold digits only, which recompose to the image, and are zero past the
real digits. -/
structure Expands (packed : PackedNegativeBinary) (image : List F) (rows : List (List ℤ)) : Prop where
  length : rows.length = packed.map.inputWidth
  width : ∀ row ∈ rows, row.length = packed.map.ringDimension
  digits : ∀ row ∈ rows, ∀ digit ∈ row, digit = -1 ∨ digit = 0
  recomposes : ∀ i (hi : i < image.length), ∑ b ∈ range packed.map.modulusProfile.fieldBits,
    2 ^ b * ((rows.flatten.getD (b * image.length + i) 0 : ℤ) : F) = image[i]
  padding : ∀ linear, packed.map.realDigitCount ≤ linear → linear < packed.map.paddedDigitCount → rows.flatten[linear]? = some 0

theorem expands (hfacts : packed.map.Facts) (hpadded : packed.map.paddedDigitCount = packed.map.inputWidth * packed.map.ringDimension)
    (hpacks : Packs modulus packed image) (hmatches : packed.map.modulusProfile.modulus = modulus) :
    ∃ rows, packed.expandRows packed.map.ringDimension = .ok rows ∧ Expands packed image rows := by
  have hD := hfacts.dimension_pos
  have hwell := rows_wellFormed packed packed.map.ringDimension
  have hreal : packed.map.realDigitCount = image.length * packed.map.modulusProfile.fieldBits := by rw [hpacks.length, hfacts.real]
  refine ⟨_, (expandRows_eq_ok hD).2 ⟨rfl, rfl⟩, rows_length _ _, fun row hrow => (hwell row hrow).1,
    fun row hrow => (hwell row hrow).2, fun i hi => ?_, fun linear hge hlt => ?_⟩
  · rw [← hpacks.recompose hmatches hreal hi]
    refine sum_congr rfl fun b hb => ?_
    have hplace : b * image.length + i < packed.map.inputWidth * packed.map.ringDimension := by
      have hmul := Nat.mul_le_mul_right image.length (Nat.succ_le_of_lt (mem_range.1 hb))
      rw [Nat.succ_mul, mul_comm packed.map.modulusProfile.fieldBits, ← hreal] at hmul
      have := hfacts.real_le
      omega
    rw [List.getD_eq_getElem?_getD, getElem?_rows hD hplace, Option.getD_some]
  · rw [getElem?_rows hD (by rwa [← hpadded]), digit, if_neg fun h => by omega]

end PackedNegativeBinary

open PackedNegativeBinary

theorem PackedNegativeBinary.Packs.image_unique {F : Type} {modulus : ℕ} {packed : PackedNegativeBinary} [CommRing F] {image image' : List F}
    (h : Packs modulus packed image) (h' : Packs modulus packed image') (hmatches : packed.map.modulusProfile.modulus = modulus)
    (hreal : packed.map.realDigitCount = packed.map.inputCoefficients * packed.map.modulusProfile.fieldBits) : image = image' := by
  have hlen : image.length = image'.length := by rw [h.length, h'.length]
  refine List.ext_getElem hlen fun i hi hi' => ?_
  rw [← h.recompose hmatches (by rw [h.length, hreal]) hi, ← h'.recompose hmatches (by rw [h'.length, hreal]) hi', hlen]

section

variable {F : Type} [CommRing F] {𝔢 : FieldEncoding F}

/-- **Negative-binary packing is an exact gadget.** For a plan that its constructor gives and a field of its modulus, every image of
the plan's length is packed; the packing recomposes to the image, its bytes are valid, and its rows hold digits `-1` and `0` that
recompose to the image at the bit-major places and are zero past the real digits. Distinct images have distinct bytes. -/
theorem negative_binary_packing_exact (hlaw : 𝔢.Lawful) {profile : SisModulusProfileId} {input dimension rank : ℕ}
    {map : CompressionMapPlan} (hmap : CompressionMapPlan.new profile input dimension rank = .ok map)
    (hfield : fieldModulus 𝔢 = .ok profile.modulus) (hbits : 𝔢.modulusBits = profile.modulus.size)
    (hcanonical : ∀ x, ∃ n < profile.modulus, 𝔢.toU128Checked x = some n) :
    (∀ image : List F, image.length = input → ∃ packed, fromCoefficients 𝔢 map image = .ok packed ∧ packed.map = map ∧
      packed.recompose 𝔢 = .ok image ∧ validateBytes map packed.bytes = .ok () ∧
      ∃ rows, packed.expandRows dimension = .ok rows ∧ Expands packed image rows) ∧
    ∀ image image' packed packed', fromCoefficients 𝔢 map image = .ok packed → fromCoefficients 𝔢 map image' = .ok packed' →
      packed.bytes = packed'.bytes → image = image' := by
  obtain ⟨hfacts, hprofile, hinput⟩ := CompressionMapPlan.new_facts hmap
  have hpadded := CompressionMapPlan.new_padded hmap
  have hdimension : map.ringDimension = dimension := by
    simp only [CompressionMapPlan.new, result_ok, checked_some] at hmap
    obtain ⟨-, -, -, _, -, _, -, _, -, _, -, -, _, -, -, rfl⟩ := hmap
    rfl
  subst hprofile hinput hdimension
  have hsmall : map.realDigitCount < 2 ^ 63 := by
    have hmul := mul_le_mul hfacts.width_le hfacts.dimension_le
    have hle := hfacts.real_le
    omega
  have hpack : ∀ image : List F, ∀ packed, fromCoefficients 𝔢 map image = .ok packed →
      packed.map = map ∧ Packs map.modulusProfile.modulus packed image := by
    intro image packed hrun
    obtain ⟨hmap, modulus, hmodulus, hmatches, hpacks⟩ := fromCoefficients_packs hlaw hrun
    exact ⟨hmap, hmatches ▸ hpacks⟩
  constructor
  · intro image hlen
    obtain ⟨packed, hrun⟩ := fromCoefficients_runs hlaw hfield rfl (fun x => (hcanonical x).imp fun n hn => ⟨hn.1.le, hn.2⟩)
      hfacts.real hsmall hlen
    obtain ⟨hpackedMap, hpacks⟩ := hpack image packed hrun
    obtain ⟨_, bytes⟩ := packed
    dsimp only at hpackedMap
    subst hpackedMap
    refine ⟨_, hrun, rfl, ?_, ?_, expands hfacts hpadded hpacks rfl⟩
    · refine recompose_eq hfield hpacks rfl ?_ ?_ (by rw [hlen]; exact hfacts.real) hsmall
      · rw [hbits]
        exact Nat.size_le.2 (modulus_lt _)
      · rw [hbits]
        exact (Nat.lt_size_self _).le
    · simp only [fromCoefficients, fromBytes, result_ok] at hrun
      obtain ⟨-, _, -, -, bytes', -, hvalid, heq⟩ := hrun
      obtain rfl := (PackedNegativeBinary.mk.inj heq).2
      exact hvalid
  · intro image image' packed packed' hrun hrun' hbytes
    obtain ⟨hmap, hpacks⟩ := hpack image packed hrun
    obtain ⟨hmap', hpacks'⟩ := hpack image' packed' hrun'
    obtain rfl : packed = packed' := by
      cases packed
      cases packed'
      simp_all
    exact hpacks.image_unique hpacks' (by rw [hmap]) (by rw [hmap]; exact hfacts.real)

theorem negative_binary_packing_exact_sample : ∃ map packed, CompressionMapPlan.new .q32Offset99 1 128 1 = .ok map ∧
    fromCoefficients sampleEncoding map [5] = .ok packed ∧ packed.recompose sampleEncoding = .ok [5] := by
  have hmap : CompressionMapPlan.new .q32Offset99 1 128 1 = .ok ⟨.q32Offset99, 1, 128, 1, 1, 128, 32, 128⟩ := by decide +kernel
  have hfield : fieldModulus sampleEncoding = .ok SisModulusProfileId.q32Offset99.modulus := by decide +kernel
  have hbits : sampleEncoding.modulusBits = SisModulusProfileId.q32Offset99.modulus.size := by
    have hsize : Nat.size 4294967197 = 32 := le_antisymm (Nat.size_le.2 (by norm_num)) (Nat.lt_size.2 (by norm_num))
    exact hsize.symm
  obtain ⟨hexact, -⟩ := negative_binary_packing_exact sampleEncoding_lawful hmap hfield hbits
    fun x => ⟨x.val, ZMod.val_lt x, rfl⟩
  obtain ⟨packed, hrun, -, hrecompose, -⟩ := hexact [5] rfl
  exact ⟨_, packed, hmap, hrun, hrecompose⟩

end

end Akita.Compression
