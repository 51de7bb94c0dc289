import Mathlib.Algebra.QuadraticAlgebra.Basic
import Akita.Proof.OpeningPoint
import Akita.Proof.TraceInnerProduct

/-!
# Prepared points open to the right evaluation

A multiplier multiplies by the image of its weight in the ring, whether it is a base scalar or the
coordinates of a subfield element. So the folded evaluation is packed from the weighted sums of the
slots, and recovery against the packed inner weights is the sum over all three axes.
-/

namespace Akita.Opening

open Lib FieldReduction Negacyclic Finset SubfieldMultiplierOpeningPoint
open List hiding mem_range range sum_singleton
open OffsetEq (Runtime)
open FieldReduction.CyclotomicRing
open Nat (clog)

/-! ## Products -/

section

variable {F : Type} [Field F] {D : ℕ}

/-- `product` adds the multiple of its argument by `x` to the output. -/
def Multiplies (product : CyclotomicRing F D → CyclotomicRing F D → Result (CyclotomicRing F D)) (x : Negacyclic F D) :
    Prop := ∀ rhs output, ∃ out, product rhs output = .ok out ∧ value F D out = value F D output + x * value F D rhs

theorem value_shiftScaleAccumulateInto (source dst : CyclotomicRing F D) {k : ℕ} (hk : k < D) (c : F) :
    value F D (shiftScaleAccumulateInto source dst k c) = value F D dst + c • root F D ^ k * value F D source := by
  have hshift : shiftScaleAccumulateInto source dst k c = dst + c • shifted source k := by
    funext t
    simp only [shiftScaleAccumulateInto, shifted, Pi.add_apply, Pi.smul_apply, smul_eq_mul]
    by_cases hle : k ≤ (t : ℕ)
    · rw [dif_pos hle, if_pos hle, coef, dif_pos (by omega), mul_comm]
    · rw [dif_neg hle, if_neg hle, coef, dif_pos (by omega), mul_neg, mul_comm, ← sub_eq_add_neg]
      congr 4
      omega
  rw [hshift, map_add, map_smul, value_shifted source hk, smul_mul_assoc, mul_comm (root F D ^ k)]

variable [DecidableEq F] {K κ m : ℕ}

/-- **Coordinates multiply** by the subfield element they are of. -/
theorem addSubfieldProduct_multiplies (hs : Shape D K κ m) (hD : D * 2 < 2 ^ usizeBits) {coordinates : List F}
    (hlen : coordinates.length = K) :
    Multiplies (addSubfieldProduct (D := D) coordinates K) (subfieldValue F D K m fun j => coordinates.getD j 0) := by
  intro rhs output
  have hD' : D = K * 2 ^ m + K * 2 ^ m := by rw [hs.D_eq]; ring
  have hpos : 0 < 2 ^ m := by positivity
  have hpass : ∀ made (x : F × ℕ) rest (output : CyclotomicRing F D), coordinates.zipIdx = made ++ x :: rest → True →
      ∃ out, (if x.1 = 0 then return output
        else do
          let shift ← okOr (checkedMul usizeBits x.2 (2 ^ m)) (.internal "validated subfield product shift overflow")
          ensure (shift < D) (.internal "validated subfield product shift exceeds ring dimension")
          let output := shiftScaleAccumulateInto rhs output shift x.1
          return if shift ≠ 0 then shiftScaleAccumulateInto rhs output (D - shift) (-x.1) else output :
          Result (CyclotomicRing F D)) = .ok out ∧ True ∧
        value F D out = value F D output + x.1 • subfieldBasis (root F D ^ 2 ^ m) K x.2 * value F D rhs := by
    rintro made ⟨c, j⟩ rest output hl -
    have hmem : (c, j) ∈ coordinates.zipIdx := by rw [hl]; simp
    have hj : j < K := by
      have hlt := snd_lt_of_mem_zipIdx hmem
      omega
    have hoff := offset_le (m := m) hj
    have hmul : checkedMul usizeBits j (2 ^ m) = some (j * 2 ^ m) := checkedMul_eq_some.2 ⟨by omega, rfl⟩
    have hin : ensure (j * 2 ^ m < D) (.internal "validated subfield product shift exceeds ring dimension") = .ok () :=
      ensure_eq_ok.2 (by omega)
    by_cases hc : c = 0
    · exact ⟨output, by rw [if_pos hc]; rfl, trivial, by rw [hc, zero_smul, zero_mul, add_zero]⟩
    · simp only [if_neg hc, hmul, okOr, ok_bind, hin]
      refine ⟨_, rfl, trivial, ?_⟩
      rcases Nat.eq_zero_or_pos j with rfl | hj0
      · rw [zero_mul, if_neg (by simp), value_shiftScaleAccumulateInto _ _ hs.D_pos, pow_zero, subfieldBasis, if_pos rfl]
      · have hstep : 2 ^ m ≤ j * 2 ^ m := Nat.le_mul_of_pos_left _ hj0
        have hmirror : D - j * 2 ^ m = 2 ^ m * (2 * K - j) := by
          rw [Nat.mul_sub, mul_comm (2 ^ m) j, show 2 ^ m * (2 * K) = D by rw [hs.D_eq]; ring]
        rw [if_pos (by omega), value_shiftScaleAccumulateInto _ _ (by omega), value_shiftScaleAccumulateInto _ _ (by omega),
          hmirror, subfieldBasis, if_neg (by omega), conjSum, pow_mul', pow_mul _ (2 ^ m), smul_sub, neg_smul, sub_mul]
        rw [neg_mul, ← sub_eq_add_neg, ← add_sub_assoc]
  obtain ⟨out, hok, -, hval⟩ := foldlM_runs (s := output) hpass trivial
  refine ⟨out, ?_, ?_⟩
  · rw [addSubfieldProduct, hs.step_eq]
    exact hok
  · rw [hval, sum_map_zipIdx coordinates 0 fun c j => c • subfieldBasis (root F D ^ 2 ^ m) K j * value F D rhs, hlen,
      subfieldValue, subfieldSum_eq hs.K_pos, sum_mul]

/-- **The folded evaluation** weighs every ring by its position and by its block. -/
theorem foldedEvaluation_ok {B M : ℕ} {multiplier : RingMultiplierOpeningPoint F} {u f : ℕ → Negacyclic F D}
    (hu : ∀ p < M, Multiplies (multiplier.accumulatePositionProduct (D := D) p) (u p))
    (hf : ∀ b < B, Multiplies (multiplier.accumulateFoldProduct (D := D) b) (f b))
    (rings : ℕ → ℕ → CyclotomicRing F D) : ∃ Y, foldedEvaluation multiplier B M rings = .ok Y ∧
      value F D Y = ∑ b ∈ range B, f b * ∑ p ∈ range M, u p * value F D (rings b p) := by
  have hblock : ∀ b, ∃ folded, (List.range M).foldlM (fun folded position =>
      multiplier.accumulatePositionProduct position (rings b position) folded) (0 : CyclotomicRing F D) = .ok folded ∧
      value F D folded = ∑ p ∈ range M, u p * value F D (rings b p) := by
    intro b
    obtain ⟨folded, hok, -, hval⟩ := foldlM_runs (l := List.range M) (s := (0 : CyclotomicRing F D)) (P := fun _ _ => True)
      (μ := value F D) (f := fun folded position => multiplier.accumulatePositionProduct position (rings b position) folded)
      (g := fun p => u p * value F D (rings b p)) (by
        intro made p rest folded hl _
        have hp : p ∈ List.range M := by rw [hl]; simp
        obtain ⟨out, hout, hvout⟩ := hu p (List.mem_range.1 hp) (rings b p) folded
        exact ⟨out, hout, trivial, hvout⟩) trivial
    exact ⟨folded, hok, by rw [hval, map_zero, zero_add, sum_map_range]⟩
  obtain ⟨Y, hok, -, hval⟩ := foldlM_runs (l := List.range B) (s := (0 : CyclotomicRing F D)) (P := fun _ _ => True)
    (μ := value F D) (f := fun eval block => do
      let folded ← (List.range M).foldlM (fun folded position =>
        multiplier.accumulatePositionProduct position (rings block position) folded) (0 : CyclotomicRing F D)
      multiplier.accumulateFoldProduct block folded eval)
    (g := fun b => f b * ∑ p ∈ range M, u p * value F D (rings b p))
    (by
      intro made b rest eval hl _
      have hb : b ∈ List.range B := by rw [hl]; simp
      obtain ⟨folded, hfolded, hvfolded⟩ := hblock b
      obtain ⟨out, hout, hvout⟩ := hf b (List.mem_range.1 hb) folded eval
      exact ⟨out, by rw [hfolded]; exact hout, trivial, by rw [hvout, hvfolded]⟩) trivial
  exact ⟨Y, hok, by rw [hval, map_zero, zero_add, sum_map_range]⟩

end

/-! ## Weights of the outer axes -/

section

variable {F : Type} [Field F] {rt : Runtime} {basis : BasisMode}

theorem outerIndexBits_ok {M B : ℕ} {bits : ℕ × ℕ} (h : outerIndexBits M B = .ok bits) :
    bits = (trailingZeros M, trailingZeros M + clog 2 B) ∧ (∃ k, M = 2 ^ k) ∧ B ≠ 0 := by
  unfold outerIndexBits at h
  simp only [result_ok, checked_some] at h
  obtain ⟨⟨hpow, hB⟩, blockIndexBits, hblock, _, ⟨-, rfl⟩, rfl⟩ := h
  obtain ⟨w, hw, rfl⟩ := Option.map_eq_some_iff.1 hblock
  obtain ⟨-, -, hlt⟩ := checkedNextPowerOfTwo_eq hw
  unfold checkedNextPowerOfTwo at hw
  split_ifs at hw with hsmall
  cases hw
  have hclog : clog 2 B < 64 := (Nat.pow_lt_pow_iff_right (by norm_num)).1 hsmall
  exact ⟨by rw [trailingZeros_two_pow hclog, positionIndexBitsFor], hpow, hB⟩

theorem basisWeights_length_lt {point weights : List F} (h : basisWeights rt point basis = .ok weights) : point.length < 64 := by
  cases basis with
  | lagrange =>
    simp only [basisWeights, lagrangeWeights, bind_eq_ok] at h
    obtain ⟨_, hlen, -⟩ := h
    exact (basisWeightLen_ok hlen).2
  | monomial =>
    simp only [basisWeights, monomialWeights, bind_eq_ok] at h
    obtain ⟨_, hlen, -⟩ := h
    exact (basisWeightLen_ok hlen).2

/-- The weights of the position axis and of the block axis, along the outer coordinates. -/
structure OuterAxes (basis : BasisMode) (M B : ℕ) (point pos blk : List F) (weights : List F × List F) : Prop where
  point_eq : point = pos ++ blk
  width_eq : M = 2 ^ pos.length
  blk_length : blk.length = clog 2 B
  positions : weights.1.length = M
  blocks : weights.2.length = B
  position : ∀ p < M, weights.1.getD p 0 = basisWeight basis pos p
  block : ∀ b < B, weights.2.getD b 0 = basisWeight basis blk b

/-- **The outer weights** are the weights of the two axes of the outer coordinates. -/
theorem outerWeights_ok {M B : ℕ} {point : List F} {weights : List F × List F} (h : outerWeights rt point M B basis = .ok weights) :
    ∃ pos blk, OuterAxes basis M B point pos blk weights := by
  unfold outerWeights at h
  simp only [result_ok] at h
  obtain ⟨bits, hbits, hlen, u, hu, f, hf, rfl⟩ := h
  obtain ⟨rfl, ⟨k, rfl⟩, -⟩ := outerIndexBits_ok hbits
  obtain ⟨hflen, -, -, hfget⟩ := basisWeightsPrefix_ok hf
  have htake : (point.take (trailingZeros (2 ^ k))).length = trailingZeros (2 ^ k) := by
    rw [length_take, min_eq_left (by omega)]
  have hk : k < 64 := by
    have hbound := basisWeights_length_lt hu
    by_contra hge
    rw [htake, trailingZeros_two_pow_of_ge (by omega)] at hbound
    omega
  rw [trailingZeros_two_pow hk] at htake hu hlen hfget
  refine ⟨point.take k, point.drop k, ?_⟩
  exact { point_eq := (take_append_drop _ _).symm, width_eq := by rw [htake], positions := by rw [basisWeights_length hu, htake],
          blk_length := by rw [length_drop]; omega, blocks := hflen,
          position := fun p _ => basisWeights_getD hu p, block := hfget }

end

/-! ## Multipliers -/

section

variable {F E : Type} [Field F] [DecidableEq F] [Field E] [Algebra F E] {𝔼 : ExtBackend F E} {e : ℕ → E} {base : Runtime}
  {D κ m : ℕ} {values : List E} {idx : ℕ}

omit [Field F] [DecidableEq F] [Field E] [Algebra F E] in
theorem collectSubfieldCoordinates_ok {error : AkitaError} {coordinates : List F}
    (hok : collectSubfieldCoordinates 𝔼 base values error = .ok coordinates) :
    coordinates = values.flatMap 𝔼.extCoords ∧ values.length * 𝔼.degree < 2 ^ usizeBits := by
  unfold collectSubfieldCoordinates at hok
  simp only [result_ok, checked_some] at hok
  obtain ⟨_, ⟨hlt, rfl⟩, -, hfold⟩ := hok
  refine ⟨?_, hlt⟩
  have hrun : coordinates = [] ++ values.flatMap 𝔼.extCoords := by
    refine foldlM_passes (P := fun made coordinates => coordinates = [] ++ made.flatMap 𝔼.extCoords) ?_ rfl hfold
    intro made x rest coordinates coordinates' _ hP hx
    simp only [result_ok] at hx
    obtain ⟨-, rfl⟩ := hx
    rw [hP, flatMap_append, flatMap_singleton, append_assoc]
  simpa using hrun

omit [DecidableEq F] in
theorem coordinateChunk_ok (h : 𝔼.Lawful e) (hlt : values.length * 𝔼.degree < 2 ^ usizeBits) (hidx : idx < values.length) :
    ∃ chunk, coordinateChunk (values.flatMap 𝔼.extCoords) 𝔼.degree idx = .ok chunk ∧
      chunk.length = 𝔼.degree ∧ ∀ j < 𝔼.degree, chunk.getD j 0 = 𝔼.coord (values.getD idx 0) j := by
  obtain ⟨hflat, hcoord⟩ := flatMap_coords h values
  have hrow : idx * 𝔼.degree + 𝔼.degree ≤ values.length * 𝔼.degree := by
    rw [← Nat.succ_mul]
    exact Nat.mul_le_mul_right _ hidx
  have hmul : checkedMul usizeBits idx 𝔼.degree = some (idx * 𝔼.degree) := checkedMul_eq_some.2 ⟨by omega, rfl⟩
  have hadd : checkedAdd usizeBits (idx * 𝔼.degree) 𝔼.degree = some (idx * 𝔼.degree + 𝔼.degree) :=
    checkedAdd_eq_some.2 ⟨by omega, rfl⟩
  have hin : ensure (idx * 𝔼.degree + 𝔼.degree ≤ (values.flatMap 𝔼.extCoords).length)
      (.invalidInput "subfield multiplier coordinate index out of range") = .ok () := ensure_eq_ok.2 (by omega)
  refine ⟨_, by simp only [coordinateChunk, hmul, hadd, okOr, ok_bind, hin]; rfl, ?_, fun j hj => ?_⟩
  · rw [length_take, length_drop, min_eq_left (by omega)]
  · rw [← hcoord idx hidx j hj, getD_eq_getElem?_getD, getD_eq_getElem?_getD, getElem?_take_of_lt hj, getElem?_drop]

/-- **A subfield multiplier multiplies** by the image of its value. -/
theorem subfieldProduct_multiplies (hs : Shape D 𝔼.degree κ m) (hD : D * 2 < 2 ^ usizeBits) (h : 𝔼.Lawful e)
    (hlt : values.length * 𝔼.degree < 2 ^ usizeBits) (hidx : idx < values.length) :
    Multiplies (fun rhs (output : CyclotomicRing F D) => do
      let coordinates ← coordinateChunk (values.flatMap 𝔼.extCoords) 𝔼.degree idx
      addSubfieldProduct coordinates 𝔼.degree rhs output) (embed 𝔼 D m (values.getD idx 0)) := by
  intro rhs output
  obtain ⟨chunk, hchunk, hlen, hcoord⟩ := coordinateChunk_ok h hlt hidx
  obtain ⟨out, hok, hval⟩ := addSubfieldProduct_multiplies hs hD hlen rhs output
  refine ⟨out, by simp only [hchunk, ok_bind, hok], ?_⟩
  rw [hval, embed, subfieldValue, subfieldValue, subfieldSum_congr hs.K_pos hcoord]

omit [DecidableEq F] in
theorem embed_algebraMap (h : 𝔼.Lawful e) (hs : Shape D 𝔼.degree κ m) (c : F) :
    embed 𝔼 D m (algebraMap F E c) = c • 1 := by
  have hone := embed_basis h hs hs.K_pos
  rw [if_pos rfl, subfieldBasis, if_pos rfl] at hone
  rw [Algebra.algebraMap_eq_smul_one, embed_smul h hs, hone]

omit [DecidableEq F] in
/-- **A base multiplier multiplies** by its scalar. -/
theorem baseProduct_multiplies (h : 𝔼.Lawful e) (hs : Shape D 𝔼.degree κ m) {weights : List F} (hidx : idx < weights.length) :
    Multiplies (fun rhs (output : CyclotomicRing F D) => do
      let scalar ← okOr weights[idx]? (.invalidInput "base multiplier product index out of range")
      return output + rhs.scale scalar) (embed 𝔼 D m (algebraMap F E (weights.getD idx 0))) := by
  intro rhs output
  refine ⟨output + rhs.scale (weights.getD idx 0), by rw [okOr_getElem? hidx]; rfl, ?_⟩
  rw [map_add, value_scale, embed_algebraMap h hs, smul_mul_assoc, one_mul]

end

/-! ## Slots of an evaluation -/

section

variable {F : Type} [Field F] {D : ℕ} {error : AkitaError}

theorem packed_mul (k s : ℕ) (x : Negacyclic F D) (a b : ℕ → Negacyclic F D) :
    x * packed k s a b = packed k s (fun i => x * a i) (fun i => x * b i) := by
  rw [packed, packed, mul_sum]
  refine sum_congr rfl fun i _ => ?_
  ring

theorem packed_sum (k s n : ℕ) (a b : ℕ → ℕ → Negacyclic F D) :
    ∑ j ∈ range n, packed k s (a j) (b j) = packed k s (fun i => ∑ j ∈ range n, a j i) (fun i => ∑ j ∈ range n, b j i) := by
  simp only [packed]
  rw [sum_comm]
  refine sum_congr rfl fun i _ => ?_
  rw [← mul_sum, sum_add_distrib, ← mul_sum]

theorem packed_congr {k s : ℕ} {a b a' b' : ℕ → Negacyclic F D} (ha : ∀ i < s, a i = a' i) (hb : ∀ i < s, b i = b' i) :
    packed k s a b = packed k s a' b' := sum_congr rfl fun i hi => by rw [ha i (mem_range.1 hi), hb i (mem_range.1 hi)]

variable {E : Type} [Field E] [Algebra F E] {𝔼 : ExtBackend F E} {e : ℕ → E} {κ m : ℕ}

def HasSlots (𝔼 : ExtBackend F E) (m : ℕ) (a : CyclotomicRing F D) (s : ℕ → E) : Prop :=
  ∀ r < 2 ^ m, lowSlot 𝔼 m a r = s r ∧ highSlot 𝔼 m a r = s (2 ^ m + r)

variable {a y : CyclotomicRing F D} {s : ℕ → E} {values : List E}

theorem HasSlots.value_eq (hs : Shape D 𝔼.degree κ m) (h : 𝔼.Lawful e) (h2 : (2 : F) ≠ 0) (ha : HasSlots 𝔼 m a s) : value F D a =
      packed 𝔼.degree (2 ^ m) (fun r => embed 𝔼 D m (s r)) (fun r => embed 𝔼 D m (s (2 ^ m + r))) := by
  rw [value_slots hs h h2]
  exact packed_congr (fun r hr => by rw [(ha r hr).1]) fun r hr => by rw [(ha r hr).2]

/-- An accepted embedding comes with a validated pair and has the slots it was made from. -/
theorem embedRingSubfieldVector_ok [DecidableEq F] (h : 𝔼.Lawful e) (hok : embedRingSubfieldVector 𝔼 D values error = .ok y) :
    ∃ params : SubfieldParams D 𝔼.degree, 𝔼.degree ∈ supportedDegrees ∧ values.length = D / 𝔼.degree ∧
      psiEmbed params (values.flatMap 𝔼.extCoords) = .ok y := by
  by_cases hdeg : 𝔼.degree ∈ supportedDegrees
  · cases hnew : SubfieldParams.new D 𝔼.degree with
    | error err =>
      have hcases : 𝔼.degree = 1 ∨ 𝔼.degree = 2 ∨ 𝔼.degree = 4 ∨ 𝔼.degree = 8 := by simpa [supportedDegrees] using hdeg
      rw [embedRingSubfieldVector, dispatchDegree, if_pos hcases, hnew] at hok
      cases hok
    | ok params =>
      have hall := hok
      rw [embedRingSubfieldVector, dispatchDegree_ok params hdeg] at hok
      simp only [result_ok] at hok
      obtain ⟨hlen, -⟩ := hok
      have hcoords : (values.flatMap 𝔼.extCoords).length = D := by
        obtain ⟨κ, m, hs⟩ := params.shape
        rw [(flatMap_coords h values).1, hlen, SubfieldParams.packedLen, hs.packed_eq, hs.D_eq]
        ring
      obtain ⟨κ, m, hs⟩ := params.shape
      obtain ⟨y', hy', -⟩ := psiEmbed_ok hs params hcoords
      rw [embedRingSubfieldVector_eq h params hlen hy', if_pos hdeg] at hall
      cases hall
      exact ⟨params, hdeg, hlen, hy'⟩
  · rw [embedRingSubfieldVector, dispatchDegree_unsupported hdeg] at hok
    cases hok

section

variable (hs : Shape D 𝔼.degree κ m) (h : 𝔼.Lawful e) (h2 : (2 : F) ≠ 0)

include hs h h2

theorem embedRingSubfieldVector_slots [DecidableEq F]
    (hok : embedRingSubfieldVector 𝔼 D values error = .ok y) : HasSlots 𝔼 m y fun i => values.getD i 0 := by
  obtain ⟨params, -, hlen, hpsi⟩ := embedRingSubfieldVector_ok h hok
  rw [hs.packed_eq] at hlen
  obtain ⟨y', hy', hslots⟩ := psiEmbed_slots hs h h2 params hlen
  obtain rfl := Except.ok.inj (hy'.symm.trans hpsi)
  exact hslots

theorem hasSlots_of_value (params : SubfieldParams D 𝔼.degree) (ha : value F D a =
      packed 𝔼.degree (2 ^ m) (fun r => embed 𝔼 D m (s r)) (fun r => embed 𝔼 D m (s (2 ^ m + r)))) : HasSlots 𝔼 m a s := by
  obtain ⟨y, -, hy⟩ := psiEmbed_slots hs h h2 params (s := (List.range (2 * 2 ^ m)).map s) (by simp)
  have hslots : HasSlots 𝔼 m y s := by
    intro r hr
    have hlow : ((List.range (2 * 2 ^ m)).map s).getD r 0 = s r := by
      simp [getD_eq_getElem?_getD, (by omega : r < 2 * 2 ^ m)]
    have hhigh : ((List.range (2 * 2 ^ m)).map s).getD (2 ^ m + r) 0 = s (2 ^ m + r) := by
      simp [getD_eq_getElem?_getD, (by omega : 2 ^ m + r < 2 * 2 ^ m)]
    rw [(hy r hr).1, (hy r hr).2, hlow, hhigh]
    exact ⟨rfl, rfl⟩
  have hsame : a = y := value_injective hs.D_pos (by rw [ha, hslots.value_eq hs h h2])
  rw [hsame]
  exact hslots

/-- **The slots of the folded evaluation** are the weighted sums of the slots of the rings. -/
theorem foldedEvaluation_slots {B M : ℕ} [DecidableEq F]
    (params : SubfieldParams D 𝔼.degree) {multiplier : RingMultiplierOpeningPoint F} {u f : ℕ → E}
    (hu : ∀ p < M, Multiplies (multiplier.accumulatePositionProduct (D := D) p) (embed 𝔼 D m (u p)))
    (hf : ∀ b < B, Multiplies (multiplier.accumulateFoldProduct (D := D) b) (embed 𝔼 D m (f b)))
    {rings : ℕ → ℕ → CyclotomicRing F D} {s : ℕ → ℕ → ℕ → E}
    (hrings : ∀ b < B, ∀ p < M, HasSlots 𝔼 m (rings b p) (s b p)) : ∃ Y, foldedEvaluation multiplier B M rings = .ok Y ∧
      HasSlots 𝔼 m Y fun i => ∑ b ∈ range B, f b * ∑ p ∈ range M, u p * s b p i := by
  obtain ⟨Y, hok, hval⟩ := foldedEvaluation_ok hu hf rings
  refine ⟨Y, hok, hasSlots_of_value hs h h2 params ?_⟩
  have hring : ∀ b ∈ range B, ∀ p ∈ range M, embed 𝔼 D m (u p) * value F D (rings b p) =
      packed 𝔼.degree (2 ^ m) (fun r => embed 𝔼 D m (u p * s b p r)) (fun r => embed 𝔼 D m (u p * s b p (2 ^ m + r))) := by
    intro b hb p hp
    simp only [(hrings b (mem_range.1 hb) p (mem_range.1 hp)).value_eq hs h h2, packed_mul, embed_mul h hs]
  rw [hval, sum_congr rfl fun b hb => by rw [sum_congr rfl (hring b hb)]]
  simp only [packed_sum, packed_mul, embed_sum h hs, embed_mul h hs]

end

end

/-! ## Prepared points -/

section prepared

variable {F E : Type} [Field F] [DecidableEq F] [Field E] [DecidableEq E] [Algebra F E] {𝔼 : ExtBackend F E} {e : ℕ → E}
  {rt base : Runtime} {D κ m M B : ℕ} {basis : BasisMode} {prepared : PreparedOpeningPoint F E D} {degreeOneBase : E → Option F}
  {point : List E}

/-- The point with zeros up to `n` coordinates. -/
def zeroPadded (point : List E) (n : ℕ) : List E := point ++ List.replicate (n - point.length) 0

/-- What a prepared point stands for: the weights of the three axes of `inner ++ pos ++ blk`. -/
structure OpensAlong (𝔼 : ExtBackend F E) (m M B : ℕ) (basis : BasisMode) (inner pos blk : List E)
    (prepared : PreparedOpeningPoint F E D) : Prop where
  inner_length : inner.length = m + 1
  width_eq : M = 2 ^ pos.length
  blk_length : blk.length = clog 2 B
  position : ∀ p < M, Multiplies (prepared.ringMultiplierPoint.accumulatePositionProduct (D := D) p)
    (embed 𝔼 D m (basisWeight basis pos p))
  fold : ∀ b < B, Multiplies (prepared.ringMultiplierPoint.accumulateFoldProduct (D := D) b)
    (embed 𝔼 D m (basisWeight basis blk b))
  slots : HasSlots 𝔼 m prepared.packedInnerPoint (basisWeight basis inner)

omit [DecidableEq E] in
/-- **The three axes join**: recovery is the sum against the weights of the whole point. -/
theorem OpensAlong.recover {inner pos blk : List E} (hp : OpensAlong 𝔼 m M B basis inner pos blk prepared)
    (hs : Shape D 𝔼.degree κ m) (h : 𝔼.Lawful e) (h2 : (2 : F) ≠ 0) (params : SubfieldParams D 𝔼.degree)
    (hdeg : 𝔼.degree ∈ supportedDegrees) {rings : ℕ → ℕ → CyclotomicRing F D} {s : ℕ → ℕ → ℕ → E}
    (hrings : ∀ b < B, ∀ p < M, HasSlots 𝔼 m (rings b p) (s b p)) :
    ∃ Y, foldedEvaluation prepared.ringMultiplierPoint B M rings = .ok Y ∧
      recoverRingSubfieldInnerProduct 𝔼 Y prepared.packedInnerPoint = .ok (∑ b ∈ range B, ∑ p ∈ range M,
        ∑ i ∈ range (D / 𝔼.degree),
          basisWeight basis (inner ++ (pos ++ blk)) (i + D / 𝔼.degree * (p + M * b)) * s b p i) := by
  obtain ⟨Y, hY, hYslots⟩ := foldedEvaluation_slots hs h h2 params hp.position hp.fold hrings
  refine ⟨Y, hY, ?_⟩
  rw [recoverRingSubfieldInnerProduct, dispatchDegree_ok params hdeg, recoverPsiInnerProduct_ok hs h2 params.twoD_lt]
  have hwidth : D / 𝔼.degree = 2 ^ inner.length := by rw [hs.packed_eq, hp.inner_length, pow_succ]; ring
  have hslots : slotProduct 𝔼 m Y prepared.packedInnerPoint = ∑ i ∈ range (D / 𝔼.degree),
      (∑ b ∈ range B, basisWeight basis blk b * ∑ p ∈ range M, basisWeight basis pos p * s b p i) *
        basisWeight basis inner i := by
    rw [hs.packed_eq, two_mul, sum_range_add, ← sum_add_distrib, slotProduct]
    refine sum_congr rfl fun r hr => ?_
    rw [mem_range] at hr
    rw [(hYslots r hr).1, (hYslots r hr).2, (hp.slots r hr).1, (hp.slots r hr).2]
  have hweight : ∀ i < D / 𝔼.degree, ∀ p < M, ∀ b,
      basisWeight basis (inner ++ (pos ++ blk)) (i + D / 𝔼.degree * (p + M * b)) =
        basisWeight basis inner i * (basisWeight basis pos p * basisWeight basis blk b) := by
    intro i hi p hpM b
    rw [hwidth] at hi ⊢
    rw [hp.width_eq] at hpM ⊢
    rw [basisWeight_append_add basis inner _ hi, basisWeight_append_add basis pos blk hpM]
  rw [hslots]
  simp only [sum_mul, mul_sum]
  rw [sum_comm]
  refine congrArg _ (sum_congr rfl fun b _ => ?_)
  rw [sum_comm]
  refine sum_congr rfl fun p hpM => sum_congr rfl fun i hi => ?_
  rw [hweight i (mem_range.1 hi) p (mem_range.1 hpM)]
  ring

theorem shape_bits {K : ℕ} (hs : Shape D K κ m) (hD : D * 2 < 2 ^ usizeBits) :
    trailingZeros D = κ + m + 1 ∧ trailingZeros (D / K) = m + 1 ∧ trailingZeros K = κ := by
  have hpow : D = 2 ^ (κ + m + 1) := by rw [hs.D_eq, hs.K_eq]; ring
  have hlt : κ + m + 1 < 64 := by
    have hlt : 2 ^ (κ + m + 1) < 2 ^ 64 := by rw [← hpow]; simp only [usizeBits] at hD; omega
    exact (Nat.pow_lt_pow_iff_right (by norm_num)).1 hlt
  have hpacked : D / K = 2 ^ (m + 1) := by rw [hs.packed_eq]; ring
  refine ⟨?_, ?_, ?_⟩
  · rw [hpow, trailingZeros_two_pow hlt]
  · rw [hpacked, trailingZeros_two_pow (by omega)]
  · rw [hs.K_eq, trailingZeros_two_pow (by omega)]

omit [DecidableEq F] [Algebra F E] in
/-- The first result of a preparation: the bits of the outer axes, and a point that fits. -/
theorem prepareOpeningPoint_arity {alphaBits : ℕ}
    (hok : prepareOpeningPoint 𝔼 rt base degreeOneBase D point basis M B alphaBits = .ok prepared) :
    point.length ≤ trailingZeros M + clog 2 B + alphaBits := by
  unfold prepareOpeningPoint at hok
  simp only [result_ok, checked_some] at hok
  obtain ⟨bits, hbits, _, ⟨-, rfl⟩, hle, -⟩ := hok
  obtain ⟨rfl, -⟩ := outerIndexBits_ok hbits
  exact hle

/-- **Preparation over a proper extension.** -/
theorem prepareOpeningPoint_extension (hs : Shape D 𝔼.degree κ m) (h : 𝔼.Lawful e) (h2 : (2 : F) ≠ 0) (hD : D * 2 < 2 ^ usizeBits)
    (hK : 𝔼.degree ≠ 1) (hok : prepareOpeningPoint 𝔼 rt base degreeOneBase D point basis M B (trailingZeros D) = .ok prepared) :
    ∃ pos blk, pos ++ blk = (zeroPadded point (trailingZeros M + clog 2 B + trailingZeros D)).drop (trailingZeros D) ∧
      OpensAlong 𝔼 m M B basis
        ((zeroPadded point (trailingZeros M + clog 2 B + trailingZeros D)).take (m + 1)) pos blk prepared := by
  obtain ⟨hbitsD, hbitsSlots, -⟩ := shape_bits hs hD
  unfold prepareOpeningPoint at hok
  simp only [bind_eq_ok, exists_unit, ensure_eq_ok, okOr_eq_ok, checkedAdd_eq_some, if_neg hK] at hok
  obtain ⟨bits, hbits, _, ⟨-, rfl⟩, hle, -, -, -, weights, hweights, packedInnerPoint, hpacked, multiplier, hmult, hprep⟩ :=
    hok
  obtain rfl := pure_eq_ok.1 hprep
  obtain ⟨rfl, -⟩ := outerIndexBits_ok hbits
  unfold ringMultiplierOpeningPointFromExt SubfieldMultiplierOpeningPoint.new at hmult
  simp only [result_ok] at hmult
  obtain ⟨outer, houter, multiplierPoint, ⟨-, positions, hposs, blocks, hblocks, rfl⟩, rfl⟩ := hmult
  obtain ⟨pos, blk, axes⟩ := outerWeights_ok houter
  obtain ⟨rfl, hposlt⟩ := collectSubfieldCoordinates_ok hposs
  obtain ⟨rfl, hblklt⟩ := collectSubfieldCoordinates_ok hblocks
  have hlen : (zeroPadded point (trailingZeros M + clog 2 B + trailingZeros D)).length =
      trailingZeros M + clog 2 B + trailingZeros D := by
    rw [zeroPadded, length_append, length_replicate]
    omega
  rw [hbitsSlots] at hweights
  refine ⟨pos, blk, axes.point_eq.symm, ?_⟩
  constructor
  case inner_length => rw [length_take, hlen]; omega
  case width_eq => exact axes.width_eq
  case blk_length => exact axes.blk_length
  case position =>
    intro p hp rhs output
    have hmul := subfieldProduct_multiplies hs hD h hposlt (by rw [axes.positions]; exact hp) rhs output
    rw [axes.position p hp] at hmul
    simpa only [RingMultiplierOpeningPoint.accumulatePositionProduct,
      accumulatePositionProduct, ensureRingDim, ensure, if_true, ok_bind] using hmul
  case fold =>
    intro b hb rhs output
    have hmul := subfieldProduct_multiplies hs hD h hblklt (by rw [axes.blocks]; exact hb) rhs output
    rw [axes.block b hb] at hmul
    simpa only [RingMultiplierOpeningPoint.accumulateFoldProduct, accumulateFoldProduct, ensureRingDim, ensure, if_true,
      ok_bind] using hmul
  case slots =>
    have hslots := embedRingSubfieldVector_slots hs h h2 hpacked
    simp only [basisWeights_getD hweights] at hslots
    exact hslots

omit [DecidableEq F] [DecidableEq E] in
theorem algebraMap_of_head (h : 𝔼.Lawful e) (hK : 𝔼.degree = 1) {x : E} {c : F} (hc : (𝔼.extCoords x).head? = some c) :
    algebraMap F E c = x := by
  have hlen := h.extCoords_length x
  rw [hK] at hlen
  obtain ⟨c', hc'⟩ := length_eq_one_iff.1 hlen
  obtain rfl : c' = c := by simpa [hc'] using hc
  rw [← h.fromBaseSlice_extCoords x, h.fromBaseSlice_eq _ (h.extCoords_length x), hc', hK, Algebra.algebraMap_eq_smul_one]
  simp

omit [Field F] [DecidableEq F] [Field E] [DecidableEq E] [Algebra F E] in
theorem kappa_eq_zero (hs : Shape D 𝔼.degree κ m) (hK : 𝔼.degree = 1) : κ = 0 := by
  have hone : 2 ^ κ = 2 ^ 0 := by rw [← hs.K_eq, hK, pow_zero]
  exact Nat.pow_right_injective le_rfl hone

/-- **Preparation at degree one**, through the base scalars of the coordinates. -/
theorem prepareOpeningPoint_base (hs : Shape D 𝔼.degree κ m) (h : 𝔼.Lawful e) (hD : D * 2 < 2 ^ usizeBits) (hK : 𝔼.degree = 1)
    (hbase : ∀ x, degreeOneBase x = (𝔼.extCoords x).head?)
    (hok : prepareOpeningPoint 𝔼 rt base degreeOneBase D point basis M B (trailingZeros D) = .ok prepared) :
    ∃ pos blk, pos ++ blk = (zeroPadded point (trailingZeros M + clog 2 B + trailingZeros D)).drop (trailingZeros D) ∧
      OpensAlong 𝔼 m M B basis
        ((zeroPadded point (trailingZeros M + clog 2 B + trailingZeros D)).take (m + 1)) pos blk prepared := by
  obtain ⟨hbitsD, -, -⟩ := shape_bits hs hD
  have hκ := kappa_eq_zero hs hK
  have hDm : D = 2 * 2 ^ m := by rw [hs.D_eq, hK]
  unfold prepareOpeningPoint at hok
  simp only [bind_eq_ok, exists_unit, ensure_eq_ok, okOr_eq_ok, checkedAdd_eq_some, if_pos hK] at hok
  obtain ⟨bits, hbits, _, ⟨-, rfl⟩, hle, basePoint, hbasePoint, outer, houter, packedInnerPoint, hpacked, hprep⟩ := hok
  obtain rfl := pure_eq_ok.1 hprep
  obtain ⟨rfl, -⟩ := outerIndexBits_ok hbits
  unfold ringOpeningPointFromField at houter
  unfold reduceInnerOpeningToRingElement at hpacked
  simp only [result_ok] at houter hpacked
  obtain ⟨outerPoint, houter, rfl⟩ := houter
  obtain ⟨weights, hweights, hwidth, rfl⟩ := hpacked
  obtain ⟨pos, blk, axes⟩ := outerWeights_ok houter
  -- the padded point is the image of its base scalars
  have hpadded : zeroPadded point (trailingZeros M + clog 2 B + trailingZeros D) = basePoint.map (algebraMap F E) := by
    have hall := forall₂_of_mapM hbasePoint
    refine ext_getElem (by simpa [zeroPadded] using hall.length_eq) fun n h1 h2 => ?_
    rw [getElem_map]
    have hget := (forall₂_iff_get.1 hall).2 n h1 (by simpa using h2)
    rw [okOr_eq_ok, hbase] at hget
    exact (algebraMap_of_head h hK hget).symm
  have hlen : basePoint.length = trailingZeros M + clog 2 B + trailingZeros D := by
    rw [← length_map (f := algebraMap F E), ← hpadded, zeroPadded, length_append, length_replicate]
    omega
  have hinner : basePoint.take (trailingZeros D) = basePoint.take (m + 1) := by rw [hbitsD, hκ, zero_add]
  rw [hinner] at hweights
  refine ⟨pos.map (algebraMap F E), blk.map (algebraMap F E), ?_, ?_⟩
  · rw [hpadded, ← map_append, ← axes.point_eq, map_drop]
  rw [hpadded, ← map_take]
  constructor
  case inner_length => rw [length_map, length_take, hlen]; omega
  case width_eq => rw [length_map]; exact axes.width_eq
  case blk_length => rw [length_map]; exact axes.blk_length
  case position =>
    intro p hp rhs output
    rw [basisWeight_map, ← axes.position p hp]
    exact baseProduct_multiplies h hs (by rw [axes.positions]; exact hp) rhs output
  case fold =>
    intro b hb rhs output
    rw [basisWeight_map, ← axes.block b hb]
    exact baseProduct_multiplies h hs (by rw [axes.blocks]; exact hb) rhs output
  case slots =>
    -- the one coordinate of a slot is a coefficient of the ring
    have hcoef : ∀ n < D, coef (fromSlice D weights) n = weights.getD n 0 := fun n hn => by rw [coef, dif_pos hn, fromSlice]
    have hslot : ∀ c : ℕ → F, 𝔼.ofCoord c = algebraMap F E (c 0) := by
      intro c
      rw [h.ofCoord_eq hs.K_pos, hK, sum_range_one, if_pos rfl, Algebra.algebraMap_eq_smul_one]
    intro r hr
    rw [lowSlot, highSlot, hslot, hslot, lowCoords, highCoords, if_pos rfl, if_pos rfl, basisWeight_map, basisWeight_map, hK,
      zero_mul, one_mul, add_zero, hcoef r (by omega), hcoef (r + 2 ^ m) (by omega), basisWeights_getD hweights,
      basisWeights_getD hweights, add_comm r]
    exact ⟨rfl, rfl⟩

omit [Field F] [DecidableEq F] [DecidableEq E] [Algebra F E] in
/-- **The inserted zeros fall between the inner and the outer coordinates**, so the axes of the transformed point are
those of the point padded with zeros. -/
theorem packedPoint_axes (hs : Shape D 𝔼.degree κ m) (hD : D * 2 < 2 ^ usizeBits) {extensionNumVars outer : ℕ} {rho : List E}
    (hok : ringSubfieldPackedExtensionOpeningPoint 𝔼 D extensionNumVars rho = .ok point)
    (hle : point.length ≤ outer + trailingZeros D) : rho.length ≤ m + 1 + outer ∧
      (zeroPadded point (outer + trailingZeros D)).take (m + 1) ++
        (zeroPadded point (outer + trailingZeros D)).drop (trailingZeros D) = zeroPadded rho (m + 1 + outer) := by
  obtain ⟨hbitsD, -, hbitsK⟩ := shape_bits hs hD
  unfold ringSubfieldPackedExtensionOpeningPoint at hok
  by_cases hK : 𝔼.degree = 1
  · simp only [if_pos hK] at hok
    cases hok
    rw [hbitsD, kappa_eq_zero hs hK, zero_add] at hle ⊢
    rw [take_append_drop, add_comm outer]
    exact ⟨by omega, rfl⟩
  · simp only [if_neg hK, result_ok, checked_some] at hok
    obtain ⟨-, hlen, _, ⟨-, rfl⟩, hinner, rfl⟩ := hok
    rw [hbitsD, hbitsK, show κ + m + 1 - κ = m + 1 by omega] at hle ⊢
    rw [hbitsD, hbitsK, show κ + m + 1 - κ = m + 1 by omega] at hinner
    have htake : (rho.take (m + 1)).length = m + 1 := by rw [length_take, min_eq_left (by omega)]
    have hfront : (rho.take (m + 1) ++ replicate (κ + m + 1 - (m + 1)) (0 : E)).length = κ + m + 1 := by
      rw [length_append, htake, length_replicate]
      omega
    simp only [length_append, htake, length_replicate, length_drop] at hle
    have hdrop : (zeroPadded (rho.take (m + 1) ++ replicate (κ + m + 1 - (m + 1)) 0 ++ rho.drop (m + 1))
        (outer + (κ + m + 1))).drop (κ + m + 1) = rho.drop (m + 1) ++ replicate (m + 1 + outer - rho.length) 0 := by
      rw [zeroPadded, append_assoc, drop_append_of_le_length (by omega), drop_of_length_le (by omega),
        nil_append, length_append, length_append, htake, length_replicate, length_drop]
      congr 2
      omega
    have hfirst : (zeroPadded (rho.take (m + 1) ++ replicate (κ + m + 1 - (m + 1)) 0 ++ rho.drop (m + 1))
        (outer + (κ + m + 1))).take (m + 1) = rho.take (m + 1) := by
      rw [zeroPadded, append_assoc, append_assoc, take_append_of_le_length (by omega), take_of_length_le (by omega)]
    refine ⟨by omega, ?_⟩
    rw [hfirst, hdrop, ← append_assoc, take_append_drop]
    rfl

/-- **Prepared points open to the right evaluation.** For every accepted preparation and every table of slots packed ring
by ring, recovery from the folded evaluation and the packed inner point is the sum of the slots against the basis weights
of the point, padded with zeros to its target arity: the slot index is the low axis, then the position, then the block. -/
theorem prepared_opening_point_opens (h2 : (2 : F) ≠ 0) (h : 𝔼.Lawful e) {degreeOneBase : E → Option F}
    (hbase : 𝔼.degree = 1 → ∀ x, degreeOneBase x = (𝔼.extCoords x).head?) {extensionNumVars : ℕ} {rho point : List E}
    (hpoint : ringSubfieldPackedExtensionOpeningPoint 𝔼 D extensionNumVars rho = .ok point)
    {prepared : PreparedOpeningPoint F E D}
    (hprepared : prepareOpeningPoint 𝔼 rt base degreeOneBase D point basis M B (trailingZeros D) = .ok prepared)
    {s : ℕ → ℕ → ℕ → E} {rings : ℕ → ℕ → CyclotomicRing F D} {error : AkitaError} (hrings : ∀ b < B, ∀ p < M,
      embedRingSubfieldVector 𝔼 D ((List.range (D / 𝔼.degree)).map (s b p)) error = .ok (rings b p)) :
    rho.length ≤ Nat.log 2 (D / 𝔼.degree) + Nat.log 2 M + Nat.clog 2 B ∧
      ∃ Y, foldedEvaluation prepared.ringMultiplierPoint B M rings = .ok Y ∧
        recoverRingSubfieldInnerProduct 𝔼 Y prepared.packedInnerPoint = .ok (∑ b ∈ range B, ∑ p ∈ range M,
          ∑ i ∈ range (D / 𝔼.degree), basisWeight basis
            (zeroPadded rho (Nat.log 2 (D / 𝔼.degree) + Nat.log 2 M + Nat.clog 2 B)) (i + D / 𝔼.degree * (p + M * b)) *
              s b p i) := by
  have hgeometry : (∃ k, M = 2 ^ k) ∧ B ≠ 0 := by
    have hrun := hprepared
    unfold prepareOpeningPoint at hrun
    simp only [bind_eq_ok] at hrun
    obtain ⟨_, hbits, -⟩ := hrun
    exact (outerIndexBits_ok hbits).2
  -- the first ring comes with the validated pair
  obtain ⟨params, hdeg, -, -⟩ := embedRingSubfieldVector_ok h
    (hrings 0 (pos_of_ne_zero hgeometry.2) 0 (by obtain ⟨k, rfl⟩ := hgeometry.1; positivity))
  obtain ⟨κ, m, hs⟩ := params.shape
  have hD := params.twoD_lt
  obtain ⟨pos, blk, houter, hopens⟩ : ∃ pos blk,
      pos ++ blk = (zeroPadded point (trailingZeros M + Nat.clog 2 B + trailingZeros D)).drop (trailingZeros D) ∧
      OpensAlong 𝔼 m M B basis
        ((zeroPadded point (trailingZeros M + Nat.clog 2 B + trailingZeros D)).take (m + 1)) pos blk prepared := by
    by_cases hK : 𝔼.degree = 1
    · exact prepareOpeningPoint_base hs h hD hK (hbase hK) hprepared
    · exact prepareOpeningPoint_extension hs h h2 hD hK hprepared
  have harity := prepareOpeningPoint_arity hprepared
  obtain ⟨hrho, hjoin⟩ := packedPoint_axes hs hD hpoint harity
  have hM : Nat.log 2 M = trailingZeros M := by
    have hlen := congrArg List.length houter
    rw [length_append, length_drop, zeroPadded, length_append, length_replicate, hopens.blk_length] at hlen
    have hpos : pos.length = trailingZeros M := by omega
    conv_lhs => rw [hopens.width_eq]
    rw [Nat.log_pow (by norm_num), hpos]
  have hslots : Nat.log 2 (D / 𝔼.degree) = m + 1 := by
    rw [hs.packed_eq, ← pow_succ', Nat.log_pow (by norm_num)]
  have hring : ∀ b < B, ∀ p < M, HasSlots 𝔼 m (rings b p) (s b p) := by
    intro b hb p hp r hr
    have hmade := embedRingSubfieldVector_slots hs h h2 (hrings b hb p hp) r hr
    have hget : ∀ i < 2 * 2 ^ m, ((List.range (D / 𝔼.degree)).map (s b p)).getD i 0 = s b p i := by
      intro i hi
      simp [getD_eq_getElem?_getD, hs.packed_eq, hi]
    simp only [hget r (by omega), hget (2 ^ m + r) (by omega)] at hmade
    exact hmade
  obtain ⟨Y, hY, hrecover⟩ := hopens.recover hs h h2 params hdeg hring
  rw [hslots, hM, add_assoc, ← hjoin, ← houter]
  exact ⟨hrho, Y, hY, hrecover⟩

end prepared

/-! ## Over a quadratic extension -/

/-- `2` is not a square modulo three. -/
instance two_not_square : Fact (∀ r : ZMod 3, r ^ 2 ≠ 2 + 0 * r) := ⟨by decide⟩

/-- The quadratic extension with `e_1 ^ 2 = 2`. -/
abbrev Quadratic : Type := QuadraticAlgebra (ZMod 3) 2 0

def quadraticBackend : ExtBackend (ZMod 3) Quadratic where
  degree := 2
  extCoords x := [x.re, x.im]
  fromBaseSlice c := ⟨c.getD 0 0, c.getD 1 0⟩

def quadraticUnit (n : ℕ) : Quadratic :=
  if n = 0 then 2 else if n = 1 then ⟨0, 1⟩ else if n = 2 then 0 else if n = 3 then ⟨0, -1⟩ else -2

theorem quadraticBackend_lawful : quadraticBackend.Lawful quadraticUnit where
  extCoords_length _ := rfl
  fromBaseSlice_extCoords _ := rfl
  extCoords_fromBaseSlice c hc := by
    obtain ⟨a, b, rfl⟩ := length_eq_two.1 hc
    rfl
  fromBaseSlice_eq c hc := by
    obtain ⟨a, b, rfl⟩ := length_eq_two.1 hc
    have hone : Finset.Ico 1 quadraticBackend.degree = {1} := rfl
    rw [hone, sum_singleton]
    apply QuadraticAlgebra.ext
    · change a = a * 1 + b * 0
      ring
    · change b = a * 0 + b * 1
      ring
  basis_zero := rfl
  basis_degree := rfl
  basis_reflect i hi := by
    have hi : i ≤ 4 := hi
    interval_cases i <;> decide
  basis_mul i hi j hj := by
    have hi : i < 2 := hi
    interval_cases i <;> interval_cases j <;> decide

def params42 : SubfieldParams 4 quadraticBackend.degree where
  twoD_lt := by decide
  pow2 := ⟨2, rfl⟩
  two_dvd := by decide
  K_pos := by decide
  K_dvd := by decide
  step_lt := by decide
  coprime := by simp [FieldReduction.gcd, quadraticBackend]

theorem degree_supported : quadraticBackend.degree ∈ supportedDegrees := by simp [supportedDegrees, quadraticBackend]

def serialRuntime : Runtime where
  elemSize := 1
  reserves _ := true
  parallel := false
  foldTree n := .items (List.range n)
  foldTree_toList := OffsetEq.serialFold_toList

set_option maxRecDepth 10000 in
/-- Two slots a ring, two positions and three live blocks; the point stops one coordinate short. -/
theorem sample_prepares : ∃ prepared, prepareOpeningPoint quadraticBackend serialRuntime serialRuntime (fun _ => none) 4
    [⟨1, 1⟩, 0, 2, ⟨0, 1⟩] .lagrange 2 3 (trailingZeros 4) = .ok prepared := by
  simp only [prepareOpeningPoint, embedRingSubfieldVector, ringMultiplierOpeningPointFromExt,
    SubfieldMultiplierOpeningPoint.new, dispatchDegree_ok params42 degree_supported]
  exact ⟨_, rfl⟩

def sampleSlots (b p i : ℕ) : Quadratic := ⟨(b + p : ℕ), i⟩

theorem sample_embeds : ∃ rings : ℕ → ℕ → CyclotomicRing (ZMod 3) 4, ∀ b p, embedRingSubfieldVector quadraticBackend 4
    ((List.range (4 / quadraticBackend.degree)).map (sampleSlots b p)) .invalidProof = .ok (rings b p) := by
  simp only [embedRingSubfieldVector, dispatchDegree_ok params42 degree_supported]
  exact ⟨fun b p => _, fun b p => rfl⟩

theorem prepared_opening_point_opens_sample :
    ∃ (prepared : PreparedOpeningPoint (ZMod 3) Quadratic 4) (rings : ℕ → ℕ → CyclotomicRing (ZMod 3) 4)
      (Y : CyclotomicRing (ZMod 3) 4),
      prepareOpeningPoint quadraticBackend serialRuntime serialRuntime (fun _ => none) 4 [⟨1, 1⟩, 0, 2, ⟨0, 1⟩] .lagrange 2 3
        (trailingZeros 4) = .ok prepared ∧ foldedEvaluation prepared.ringMultiplierPoint 3 2 rings = .ok Y ∧
      recoverRingSubfieldInnerProduct quadraticBackend Y prepared.packedInnerPoint = .ok (∑ b ∈ range 3, ∑ p ∈ range 2,
        ∑ i ∈ range 2, basisWeight .lagrange [⟨1, 1⟩, 2, ⟨0, 1⟩, 0] (i + 2 * (p + 2 * b)) * sampleSlots b p i) := by
  obtain ⟨prepared, hprepared⟩ := sample_prepares
  obtain ⟨rings, hrings⟩ := sample_embeds
  have hpoint : ringSubfieldPackedExtensionOpeningPoint quadraticBackend 4 3 [⟨1, 1⟩, 2, ⟨0, 1⟩] =
      .ok [⟨1, 1⟩, 0, 2, ⟨0, 1⟩] := rfl
  obtain ⟨-, Y, hY, hrecover⟩ := prepared_opening_point_opens (by decide) quadraticBackend_lawful (fun h => by cases h) hpoint
    hprepared (fun b _ p _ => hrings b p)
  have harity : Nat.log 2 (4 / quadraticBackend.degree) + Nat.log 2 2 + Nat.clog 2 3 = 4 := by decide
  rw [harity] at hrecover
  exact ⟨prepared, rings, Y, hprepared, hY, hrecover⟩

end Akita.Opening
