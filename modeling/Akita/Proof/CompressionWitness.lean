import Akita.Lib.Accumulate
import Akita.Spec.CompressionWitness

/-!
# The digits of a compression map

* `fieldModulus_eq`: the modulus is one more than the encoding of `-1`.
* `fromCoefficients_packs`: a packing holds, bit-major, the bits of the canonical negation of every coefficient, so
  its digits recompose to the coefficients (`Packs.recompose`).
* `expandRows_eq_ok`: the expanded rows are the digits, row by row, zero past the last real one.
-/

namespace Akita.Compression

open Lib List
open Schedule (SisModulusProfileId)

variable {profile : SisModulusProfileId} {map : CompressionMapPlan} {dimension input rank : ℕ}

/-! ## The modulus -/

/-- What `Field` and `CanonicalEncoding` document of an encoding: `NUM_BYTES` little-endian bytes of the canonical
value, which `to_u128_checked` returns when it fits; `MODULUS_BITS` holds the modulus; `half` undoes doubling. -/
structure FieldEncoding.Lawful {F : Type} [CommRing F] (𝔢 : FieldEncoding F) : Prop where
  length : ∀ x, (𝔢.toBytesLe x).length = 𝔢.numBytes
  value : ∀ x, (leValue (𝔢.toBytesLe x) : F) = x
  canonical : ∀ x n, 𝔢.toU128Checked x = some n → n = leValue (𝔢.toBytesLe x)
  modulus_le : leValue (𝔢.toBytesLe (-1)) + 1 ≤ 2 ^ 𝔢.modulusBits
  half : ∀ x, 𝔢.half (x + x) = x

theorem addCarry_value (carry : ℕ) (bytes : List UInt8) : (addCarry carry bytes).1.length = bytes.length ∧
      leValue (addCarry carry bytes).1 + 256 ^ bytes.length * (addCarry carry bytes).2 = leValue bytes + carry := by
  induction bytes generalizing carry with
  | nil => simp [addCarry, leValue]
  | cons byte bytes ih =>
    have hbyte : (UInt8.ofNat (byte.toNat + carry)).toNat = (byte.toNat + carry) % 256 := by simp
    have hsplit := Nat.div_add_mod (byte.toNat + carry) 256
    rw [addCarry]
    split
    · rename_i hspent
      rw [hspent] at hsplit
      refine ⟨by simp, ?_⟩
      simp only [leValue, hbyte]
      omega
    · obtain ⟨hlen, hvalue⟩ := ih ((byte.toNat + carry) / 256)
      refine ⟨by simp [hlen], ?_⟩
      calc (byte.toNat + carry) % 256 + 256 * leValue (addCarry ((byte.toNat + carry) / 256) bytes).1 +
            256 ^ bytes.length * 256 * (addCarry ((byte.toNat + carry) / 256) bytes).2
          = (byte.toNat + carry) % 256 + 256 * (leValue (addCarry ((byte.toNat + carry) / 256) bytes).1 +
            256 ^ bytes.length * (addCarry ((byte.toNat + carry) / 256) bytes).2) := by ring
        _ = byte.toNat + 256 * leValue bytes + carry := by rw [hvalue]; omega

section field

variable {F : Type} [CommRing F] {𝔢 : FieldEncoding F} {modulus : ℕ}

theorem fieldModulusBeBytes_value {bytes : List UInt8} (hlaw : 𝔢.Lawful) (h : fieldModulusBeBytes 𝔢 = .ok bytes) :
    bytes.length = 32 ∧ leValue bytes.reverse = leValue (𝔢.toBytesLe (-1)) + 1 := by
  simp only [fieldModulusBeBytes, result_ok] at h
  obtain ⟨hbytes, littleEndian, hle, rfl⟩ := h
  obtain ⟨hlen, hvalue⟩ := addCarry_value 1 (𝔢.toBytesLe (-1))
  rw [hlaw.length] at hlen
  have hlt := leValue_lt (𝔢.toBytesLe (-1))
  rw [hlaw.length, pow_mul, show (2 : ℕ) ^ 8 = 256 by norm_num] at hlt
  rw [hlaw.length] at hvalue
  -- the carry out of the top byte is at most one
  have hfacts : littleEndian.length ≤ 32 ∧ leValue littleEndian = leValue (𝔢.toBytesLe (-1)) + 1 := by
    split at hle
    · rename_i hcarry
      cases hle
      rw [hcarry, mul_zero, add_zero] at hvalue
      exact ⟨by omega, hvalue⟩
    · split at hle
      · rename_i hcarry hroom
        cases hle
        have hone : (addCarry 1 (𝔢.toBytesLe (-1))).2 ≤ 1 := by
          by_contra hbig
          have hmul := Nat.mul_le_mul_left (256 ^ 𝔢.numBytes) (Nat.succ_le_of_lt (not_le.1 hbig))
          omega
        have hsmall : (addCarry 1 (𝔢.toBytesLe (-1))).2 % 256 = (addCarry 1 (𝔢.toBytesLe (-1))).2 :=
          Nat.mod_eq_of_lt (by omega)
        refine ⟨by simp [hlen]; omega, ?_⟩
        rw [leValue_append, hlen, ← hvalue]
        simp [leValue, hsmall]
      · simp at hle
  refine ⟨by simp; omega, ?_⟩
  rw [reverse_append, reverse_reverse, leValue_append, reverse_replicate,
    leValue_eq_zero fun b hb => eq_of_mem_replicate hb, Nat.mul_zero, Nat.add_zero, hfacts.2]

/-- **The field modulus** is one more than the encoding of `-1`. -/
theorem fieldModulus_eq (hlaw : 𝔢.Lawful) (h : fieldModulus 𝔢 = .ok modulus) : modulus = leValue (𝔢.toBytesLe (-1)) + 1 := by
  simp only [fieldModulus, result_ok] at h
  obtain ⟨bytes, hbytes, hhigh, rfl⟩ := h
  obtain ⟨hlen, hvalue⟩ := fieldModulusBeBytes_value hlaw hbytes
  have hzero : leValue (bytes.take 16).reverse = 0 := by
    refine leValue_eq_zero fun b hb => ?_
    by_contra hne
    exact hhigh (any_eq_true.2 ⟨b, mem_reverse.1 hb, by simpa using hne⟩)
  rw [← hvalue]
  conv_rhs => rw [← take_append_drop 16 bytes, reverse_append, leValue_append, hzero, mul_zero, add_zero]

theorem fieldModulus_cast (hlaw : 𝔢.Lawful) (h : fieldModulus 𝔢 = .ok modulus) : (modulus : F) = 0 := by
  rw [fieldModulus_eq hlaw h, Nat.cast_add, hlaw.value, Nat.cast_one, neg_add_cancel]

/-! ## Packing -/

/-- A bit-major place fixes the bit and the coefficient. -/
theorem place_inj {n b b' j j' : ℕ} (hj : j < n) (hj' : j' < n) (h : b * n + j = b' * n + j') : b = b' ∧ j = j' := by
  have hdiv := congrArg (· / n) h
  have hmod := congrArg (· % n) h
  simp only [mul_comm _ n, Nat.mul_add_mod, Nat.mod_eq_of_lt hj, Nat.mod_eq_of_lt hj',
    Nat.mul_add_div (by omega : 0 < n), Nat.div_eq_of_lt hj, Nat.div_eq_of_lt hj', add_zero] at hdiv hmod
  exact ⟨hdiv, hmod⟩

namespace PackedNegativeBinary

variable {bytes bytes' : List UInt8} {fieldBits count index : ℕ} {coefficients : List F} {packed : PackedNegativeBinary}

theorem setDigit_spec {linear : ℕ} (h : setDigit bytes linear = .ok bytes') :
    bytes'.length = bytes.length ∧ ∀ p, bitAt bytes' p = (bitAt bytes p || decide (p = linear)) := by
  simp only [setDigit, result_ok] at h
  obtain ⟨byte, hbyte, rfl⟩ := h
  exact ⟨by simp, bitAt_set_or hbyte⟩

theorem packMagnitude_spec {magnitude : ℕ} (h : packMagnitude fieldBits count magnitude index bytes = .ok bytes') :
    bytes'.length = bytes.length ∧ ∀ p, bitAt bytes' p = true ↔
      bitAt bytes p = true ∨ ∃ bit < fieldBits, magnitude.testBit bit = true ∧ p = bit * count + index := by
  rw [packMagnitude] at h
  have hloop := foldlM_passes (P := fun (made : List ℕ) (out : List UInt8) => out.length = bytes.length ∧
    ∀ p, bitAt out p = true ↔ bitAt bytes p = true ∨ ∃ bit ∈ made, magnitude.testBit bit = true ∧ p = bit * count + index)
    ?_ ⟨rfl, by simp⟩ h
  · simpa only [mem_range] using hloop
  · rintro made bit rest out out' - ⟨hlen, hbits⟩ hpass
    split at hpass
    · rename_i hbit
      simp only [result_ok, checked_some] at hpass
      obtain ⟨base, ⟨-, rfl⟩, linear, ⟨-, rfl⟩, hpass⟩ := hpass
      obtain ⟨hlen', hbits'⟩ := setDigit_spec hpass
      refine ⟨hlen'.trans hlen, fun p => ?_⟩
      rw [hbits', Bool.or_eq_true, hbits, decide_eq_true_eq, or_assoc]
      simp only [mem_append, mem_singleton, or_and_right, exists_or, exists_eq_left, hbit, true_and]
    · rename_i hbit
      cases hpass
      refine ⟨hlen, fun p => ?_⟩
      rw [hbits]
      simp only [mem_append, mem_singleton, or_and_right, exists_or, exists_eq_left, hbit, Bool.false_eq_true,
        false_and, or_false]

theorem magnitude_spec (hlaw : 𝔢.Lawful) {m : ℕ} {coefficient : F} (hmod : fieldModulus 𝔢 = .ok modulus)
    (h : magnitude 𝔢 modulus coefficient = .ok m) : m < modulus ∧ (m : F) = -coefficient := by
  simp only [magnitude, result_ok] at h
  obtain ⟨canonical, hcanon, h⟩ := h
  have hcast : (canonical : F) = coefficient := by rw [hlaw.canonical _ _ hcanon, hlaw.value]
  have hpos : 0 < modulus := by rw [fieldModulus_eq hlaw hmod]; omega
  split at h
  · rename_i hzero
    cases h
    rw [hzero, Nat.cast_zero] at hcast
    rw [← hcast, Nat.cast_zero, neg_zero]
    exact ⟨hpos, rfl⟩
  · rename_i hne
    rw [okOr_eq_ok, checkedSub_eq_some] at h
    obtain ⟨hle, rfl⟩ := h
    refine ⟨by omega, ?_⟩
    rw [Nat.cast_sub hle, fieldModulus_cast hlaw hmod, hcast, zero_sub]

/-- Digit `linear` of a packing: bit one stands for `-1`; past the real digits it is zero. -/
def digit (packed : PackedNegativeBinary) (linear : ℕ) : ℤ :=
  if linear < packed.map.realDigitCount ∧ bitAt packed.bytes linear = true then -1 else 0

/-- **The negative-binary packing of an image**: bit `b` of coefficient `j` stands at `b * len + j`, and the bits of a
coefficient are those of the canonical value of its negation. -/
structure Packs (modulus : ℕ) (packed : PackedNegativeBinary) (image : List F) : Prop where
  length : image.length = packed.map.inputCoefficients
  bytes_length : packed.bytes.length = packed.map.packedDigitBytes
  bits : ∀ j (hj : j < image.length), ∃ m < modulus, (m : F) = -image[j] ∧
    ∀ b < packed.map.modulusProfile.fieldBits, bitAt packed.bytes (b * image.length + j) = m.testBit b

theorem modulus_lt (profile : SisModulusProfileId) : profile.modulus < 2 ^ profile.fieldBits := by
  cases profile <;> decide

/-- **A packing packs its coefficients.** -/
theorem fromCoefficients_packs (hlaw : 𝔢.Lawful) (h : fromCoefficients 𝔢 map coefficients = .ok packed) :
    packed.map = map ∧ ∃ modulus, fieldModulus 𝔢 = .ok modulus ∧ map.modulusProfile.modulus = modulus ∧
      Packs modulus packed coefficients := by
  simp only [fromCoefficients, fromBytes, validateBytes, result_ok] at h
  obtain ⟨hlen, modulus, hmod, hmatches, bytes, hbytes, ⟨hlengthBytes, -⟩, rfl⟩ := h
  refine ⟨rfl, modulus, hmod, hmatches, hlen, hlengthBytes, fun j hj => ?_⟩
  -- after some coefficients, the bits set are those of their magnitudes
  have hloop := foldlM_passes (P := fun (made : List (F × ℕ)) (out : List UInt8) =>
    (∀ entry ∈ made, ∃ m, magnitude 𝔢 modulus entry.1 = .ok m) ∧
      ∀ p, bitAt out p = true ↔ ∃ entry ∈ made, ∃ m, magnitude 𝔢 modulus entry.1 = .ok m ∧
        ∃ bit < 𝔢.modulusBits, m.testBit bit = true ∧ p = bit * coefficients.length + entry.2)
    ?_ ?_ hbytes
  · have hentry : (coefficients[j], j) ∈ coefficients.zipIdx := by
      simp [List.mem_zipIdx_iff_getElem?]
    obtain ⟨m, hm⟩ := hloop.1 _ hentry
    obtain ⟨hlt, hcast⟩ := magnitude_spec hlaw hmod hm
    refine ⟨m, hlt, hcast, fun b hb => ?_⟩
    rw [Bool.eq_iff_iff, hloop.2]
    constructor
    · rintro ⟨⟨coefficient, j'⟩, hentry', m', hm', bit, -, htest, hp⟩
      -- the place fixes the bit and the coefficient
      have hcoeff := List.mem_zipIdx_iff_getElem?.1 hentry'
      have hj' : j' < coefficients.length := (List.getElem?_eq_some_iff.1 hcoeff).1
      obtain ⟨rfl, rfl⟩ := place_inj hj hj' hp
      simp only [List.getElem?_eq_getElem hj, Option.some.injEq] at hcoeff
      subst hcoeff
      rw [hm] at hm'
      cases hm'
      exact htest
    · intro htest
      refine ⟨_, hentry, m, hm, b, ?_, htest, rfl⟩
      by_contra hbig
      have hbound : m < 2 ^ b := by
        refine hlt.trans_le ?_
        rw [fieldModulus_eq hlaw hmod]
        exact hlaw.modulus_le.trans (Nat.pow_le_pow_right (by norm_num) (not_lt.1 hbig))
      rw [Nat.testBit_lt_two_pow hbound] at htest
      simp at htest
  · rintro made ⟨coefficient, index⟩ rest out out' - ⟨hmade, hbits⟩ hpass
    simp only [bind_eq_ok] at hpass
    obtain ⟨m, hm, hpass⟩ := hpass
    obtain ⟨-, hbits'⟩ := packMagnitude_spec hpass
    refine ⟨fun entry hentry => ?_, fun p => ?_⟩
    · rcases List.mem_append.1 hentry with hentry | hentry
      · exact hmade entry hentry
      · obtain rfl := List.mem_singleton.1 hentry
        exact ⟨m, hm⟩
    · rw [hbits', hbits]
      simp only [List.mem_append, List.mem_singleton, or_and_right, exists_or, exists_eq_left, hm, Except.ok.injEq,
        exists_eq_left']
  · refine ⟨by simp, fun p => ?_⟩
    have hzero : bitAt (replicate map.packedDigitBytes (0 : UInt8)) p = false := by
      unfold bitAt
      rw [List.getD_eq_getElem?_getD, List.getElem?_replicate]
      split <;> simp
    simp [hzero]

theorem packMagnitude_runs {magnitude : ℕ} (hsmall : 8 * bytes.length ≤ 2 ^ 64)
    (hfit : ∀ bit, magnitude.testBit bit = true → bit * count + index < 8 * bytes.length) :
    ∃ bytes', packMagnitude fieldBits count magnitude index bytes = .ok bytes' ∧ bytes'.length = bytes.length := by
  have hloop := foldlM_runs (P := fun (_ : List ℕ) (out : List UInt8) => out.length = bytes.length)
    (μ := fun _ => (0 : ℕ)) (g := fun _ => 0) (l := range fieldBits) (f := fun (bytes : List UInt8) (bit : ℕ) =>
      if magnitude.testBit bit then do
        let base ← okOr (checkedMul usizeBits bit count) (.invalidSetup "compression digit index overflow")
        let linear ← okOr (checkedAdd usizeBits base index) (.invalidSetup "compression digit index overflow")
        setDigit bytes linear
      else (.ok bytes : Result (List UInt8))) ?_ rfl
  · obtain ⟨bytes', hrun, hlen, -⟩ := hloop
    exact ⟨bytes', hrun, hlen⟩
  · rintro made bit rest out - hlen
    by_cases hbit : magnitude.testBit bit = true
    · have hplace := hfit bit hbit
      have hin : (bit * count + index) / 8 < out.length := by omega
      refine ⟨out.set ((bit * count + index) / 8) (out[(bit * count + index) / 8] |||
        1 <<< UInt8.ofNat ((bit * count + index) % 8)), ?_, by simp [hlen], rfl⟩
      rw [if_pos hbit]
      simp only [result_ok, checked_some, setDigit, usizeBits]
      exact ⟨_, ⟨by omega, rfl⟩, _, ⟨by omega, rfl⟩, _, getElem?_eq_getElem hin, rfl⟩
    · exact ⟨out, by rw [if_neg hbit], hlen, rfl⟩

/-- **Every image of the right length is packed**, when all its coefficients have canonical values. -/
theorem fromCoefficients_runs (hlaw : 𝔢.Lawful) (hmodulus : fieldModulus 𝔢 = .ok modulus)
    (hmatches : map.modulusProfile.modulus = modulus) (hcanon : ∀ x, ∃ n ≤ modulus, 𝔢.toU128Checked x = some n)
    (hreal : map.realDigitCount = map.inputCoefficients * map.modulusProfile.fieldBits) (hsmall : map.realDigitCount < 2 ^ 63)
    (hlen : coefficients.length = map.inputCoefficients) : ∃ packed, fromCoefficients 𝔢 map coefficients = .ok packed := by
  have hbytes : 8 * map.packedDigitBytes = map.realDigitCount := by
    have height : map.modulusProfile.fieldBits % 8 = 0 := by cases map.modulusProfile <;> decide
    have hmod : map.realDigitCount % 8 = 0 := by rw [hreal, Nat.mul_mod, height, mul_zero, Nat.zero_mod]
    rw [CompressionMapPlan.packedDigitBytes]
    omega
  have hmag : ∀ x : F, ∃ m, magnitude 𝔢 modulus x = .ok m := by
    intro x
    obtain ⟨n, hle, hn⟩ := hcanon x
    simp only [magnitude, result_ok, hn, Option.some.injEq, exists_eq_left']
    by_cases hzero : n = 0
    · exact ⟨0, by rw [if_pos hzero]; rfl⟩
    · exact ⟨modulus - n, by rw [if_neg hzero, okOr_eq_ok, checkedSub_eq_some]; exact ⟨hle, rfl⟩⟩
  have hloop := foldlM_runs (P := fun (_ : List (F × ℕ)) (out : List UInt8) => out.length = map.packedDigitBytes)
    (μ := fun _ => (0 : ℕ)) (g := fun _ => 0) (l := coefficients.zipIdx)
    (f := fun (bytes : List UInt8) (entry : F × ℕ) => do
      let magnitude ← magnitude 𝔢 modulus entry.1
      packMagnitude 𝔢.modulusBits coefficients.length magnitude entry.2 bytes) ?_
    (List.length_replicate (a := (0 : UInt8)))
  · obtain ⟨bytes, hrun, hbytesLength, -⟩ := hloop
    refine ⟨⟨map, bytes⟩, ?_⟩
    simp only [fromCoefficients, fromBytes, validateBytes, result_ok]
    exact ⟨hlen, modulus, hmodulus, hmatches, bytes, hrun, ⟨hbytesLength, Or.inl (by omega)⟩, rfl⟩
  · rintro made ⟨coefficient, index⟩ rest out hsplit hout
    obtain ⟨m, hm⟩ := hmag coefficient
    have hindex : index < coefficients.length := by
      have hmem : (coefficient, index) ∈ coefficients.zipIdx := by rw [hsplit]; simp
      exact (List.getElem?_eq_some_iff.1 (List.mem_zipIdx_iff_getElem?.1 hmem)).1
    have hlt := (magnitude_spec hlaw hmodulus hm).1
    -- the bits of a magnitude end before the width of the profile
    have hfit : ∀ bit, m.testBit bit = true → bit * coefficients.length + index < 8 * out.length := by
      intro bit hbit
      have hwidth : bit < map.modulusProfile.fieldBits := by
        by_contra hge
        have hbound : m < 2 ^ bit := hlt.trans ((hmatches ▸ modulus_lt map.modulusProfile).trans_le
          (Nat.pow_le_pow_right (by norm_num) (not_lt.1 hge)))
        rw [Nat.testBit_lt_two_pow hbound] at hbit
        simp at hbit
      have hmul := Nat.mul_le_mul_left coefficients.length (Nat.succ_le_of_lt hwidth)
      rw [hout, hbytes, hreal, ← hlen]
      rw [Nat.mul_succ, mul_comm _ bit] at hmul
      omega
    obtain ⟨out', hrun, hlen'⟩ : ∃ out', packMagnitude 𝔢.modulusBits coefficients.length m index out = .ok out' ∧
        out'.length = out.length := packMagnitude_runs (by omega) hfit
    exact ⟨out', by simp only [bind_eq_ok]; exact ⟨m, hm, hrun⟩, hlen'.trans hout, rfl⟩

/-- **The digits recompose to the coefficients.** -/
theorem Packs.recompose {image : List F} (h : Packs modulus packed image) (hmod : packed.map.modulusProfile.modulus = modulus)
    (hreal : packed.map.realDigitCount = image.length * packed.map.modulusProfile.fieldBits) {j : ℕ} (hj : j < image.length) :
    ∑ b ∈ Finset.range packed.map.modulusProfile.fieldBits,
      2 ^ b * (packed.digit (b * image.length + j) : F) = image[j] := by
  obtain ⟨m, hlt, hcast, hbits⟩ := h.bits j hj
  have hterm : ∀ b ∈ Finset.range packed.map.modulusProfile.fieldBits,
      2 ^ b * (packed.digit (b * image.length + j) : F) = -((m / 2 ^ (1 * b) % 2 ^ 1 * 2 ^ (1 * b) : ℕ) : F) := by
    intro b hb
    have hb := Finset.mem_range.1 hb
    have hplace : b * image.length + j < packed.map.realDigitCount := by
      have hmul := Nat.mul_le_mul_left image.length (Nat.succ_le_of_lt hb)
      rw [hreal]
      rw [Nat.mul_succ, mul_comm _ b] at hmul
      omega
    rw [digit, hbits b hb, Nat.testBit_eq_decide_div_mod_eq, one_mul, pow_one]
    rcases Nat.mod_two_eq_zero_or_one (m / 2 ^ b) with hbit | hbit <;> simp [hbit, hplace]
  have hsmall : m < 2 ^ (1 * packed.map.modulusProfile.fieldBits) := by
    rw [one_mul]
    exact hlt.trans (hmod ▸ modulus_lt _)
  rw [Finset.sum_congr rfl hterm, Finset.sum_neg_distrib, ← Nat.cast_sum, sum_fields, Nat.mod_eq_of_lt hsmall, hcast,
    neg_neg]

end PackedNegativeBinary

end field

/-! ## Expansion -/

namespace PackedNegativeBinary

/-- The rows of a ring of dimension `D`. -/
def rows (packed : PackedNegativeBinary) (D : ℕ) : List (List ℤ) :=
  (List.range packed.map.inputWidth).map fun c => (List.range D).map fun k => packed.digit (c * D + k)

/-- The expansion loop writes the digits it has passed. -/
theorem expand_loop {bytes : List UInt8} {D width : ℕ} (hD : 0 < D) (n : ℕ) : (range n).foldl (fun rows linear =>
        if bitAt bytes linear then rows.modify (linear / D) (·.set (linear % D) (-1)) else rows)
      (replicate width (replicate D (0 : ℤ))) =
    (range width).map fun c => (range D).map fun k =>
      if c * D + k < n ∧ bitAt bytes (c * D + k) = true then (-1 : ℤ) else 0 := by
  induction n with
  | zero => simp [map_const']
  | succ n ih =>
    have hsplit := Nat.div_add_mod n D
    rw [mul_comm] at hsplit
    have hmod := Nat.mod_lt n hD
    rw [range_succ, foldl_append, ih, foldl_cons, foldl_nil]
    split
    · rename_i hbit
      refine ext_getElem (by simp) fun c hc _ => ?_
      rw [getElem_modify]
      split
      · rename_i hrow
        refine ext_getElem (by simp) fun k hk _ => ?_
        simp only [getElem_map, getElem_range, length_set, length_map, length_range] at hk
        rw [getElem_set]
        simp only [getElem_map, getElem_range]
        split
        · rename_i hcolumn
          have hplace : c * D + k = n := by rw [← hrow, ← hcolumn, hsplit]
          rw [hplace, if_pos ⟨Nat.lt_succ_self n, hbit⟩]
        · rename_i hcolumn
          have hne : c * D + k ≠ n := fun h => hcolumn (place_inj hmod hk (hsplit.trans h.symm)).2
          have hiff : c * D + k < n ↔ c * D + k < n + 1 := by omega
          simp only [hiff]
      · rename_i hrow
        simp only [getElem_map, getElem_range]
        refine map_congr_left fun k hk => ?_
        have hne : c * D + k ≠ n := fun h => hrow (place_inj hmod (mem_range.1 hk) (hsplit.trans h.symm)).1
        have hiff : c * D + k < n ↔ c * D + k < n + 1 := by omega
        simp only [hiff]
    · rename_i hbit
      refine map_congr_left fun c _ => map_congr_left fun k _ => ?_
      by_cases hplace : c * D + k = n
      · rw [hplace, if_neg fun h => hbit h.2, if_neg fun h => hbit h.2]
      · have hiff : c * D + k < n ↔ c * D + k < n + 1 := by omega
        simp only [hiff]

/-- **The expansion** is the digits, row by row. -/
theorem expandRows_eq_ok {packed : PackedNegativeBinary} {D : ℕ} (hD : 0 < D) {out : List (List ℤ)} :
    expandRows D packed = .ok out ↔ packed.map.ringDimension = D ∧ out = packed.rows D := by
  simp only [expandRows, result_ok, expand_loop hD]
  exact and_congr_right fun _ => eq_comm

/-- Every row has the ring's dimension and holds digits only. -/
theorem rows_wellFormed (packed : PackedNegativeBinary) (D : ℕ) :
    ∀ row ∈ packed.rows D, row.length = D ∧ ∀ digit ∈ row, digit = -1 ∨ digit = 0 := by
  intro row hrow
  obtain ⟨c, -, rfl⟩ := mem_map.1 hrow
  refine ⟨by simp, fun digit hdigit => ?_⟩
  obtain ⟨k, -, rfl⟩ := mem_map.1 hdigit
  unfold PackedNegativeBinary.digit
  split <;> simp

@[simp] theorem rows_length (packed : PackedNegativeBinary) (D : ℕ) : (packed.rows D).length = packed.map.inputWidth := by
  simp [rows]

end PackedNegativeBinary

/-! ## Plans -/

structure CompressionMapPlan.Facts (map : CompressionMapPlan) : Prop where
  rank : map.outputRank = 1
  dimension_pos : 0 < map.ringDimension
  dimension_le : map.ringDimension ≤ 128
  real : map.realDigitCount = map.inputCoefficients * map.modulusProfile.fieldBits
  real_le : map.realDigitCount ≤ map.inputWidth * map.ringDimension
  output : map.outputCoefficients = map.ringDimension
  width_pos : 0 < map.inputWidth
  width_le : map.inputWidth ≤ 60460

theorem CompressionMapPlan.new_facts (h : CompressionMapPlan.new profile input dimension rank = .ok map) :
    map.Facts ∧ map.modulusProfile = profile ∧ map.inputCoefficients = input := by
  simp only [CompressionMapPlan.new, result_ok, checked_some] at h
  obtain ⟨-, rfl, hladder, real, ⟨-, rfl⟩, width, hwidth, padded, ⟨-, rfl⟩, output, ⟨-, rfl⟩, -, secure, hsecure, -, rfl⟩ := h
  have hdim : 0 < dimension ∧ dimension ≤ 128 := by
    cases profile <;> simp [compressionRingDimensions] at hladder <;> omega
  have hceil : input * profile.fieldBits ≤ width * dimension := by
    rw [checkedDivCeil, if_neg (by omega), checkedAdd_eq_some] at hwidth
    obtain ⟨-, rfl⟩ := hwidth
    have hsplit := Nat.div_add_mod (input * profile.fieldBits) dimension
    have hmod := Nat.mod_lt (input * profile.fieldBits) hdim.1
    rw [add_mul, mul_comm _ dimension]
    split <;> omega
  have hcap : 0 < width ∧ width ≤ 60460 := by
    simp only [minCompressionSecureRank, option_some] at hsecure
    obtain ⟨⟨p, d, cap⟩, hcell, hcap⟩ := hsecure
    have hmem := mem_of_find?_eq_some hcell
    simp only [compressionSisCells, mem_cons, Prod.mk.injEq, not_mem_nil, or_false] at hmem
    have hle : cap ≤ 60460 := by omega
    split at hcap
    · rename_i hwidth
      exact ⟨hwidth.1, hwidth.2.trans hle⟩
    · simp at hcap
  exact ⟨⟨rfl, hdim.1, hdim.2, rfl, hceil, one_mul _, hcap.1, hcap.2⟩, rfl, rfl⟩

theorem CompressionMapPlan.new_padded (h : CompressionMapPlan.new profile input dimension rank = .ok map) :
    map.paddedDigitCount = map.inputWidth * map.ringDimension := by
  simp only [CompressionMapPlan.new, result_ok, checked_some] at h
  obtain ⟨-, -, -, _, -, _, -, _, ⟨-, rfl⟩, _, -, -, _, -, -, rfl⟩ := h
  rfl

namespace CompressionChainPlan

/-- **A checked plan has two maps**, the second on the image of the first and the terminal image last. -/
theorem Checked.two_maps {plan : CompressionChainPlan} (h : plan.Checked) : ∃ first second,
    plan.maps.toList = [first, second] ∧ first.Facts ∧ second.Facts ∧
      first.modulusProfile = plan.modulusProfile ∧ second.modulusProfile = plan.modulusProfile ∧
      first.inputCoefficients = plan.sourceCoefficients ∧ second.inputCoefficients = first.outputCoefficients ∧
      plan.sourceCoefficients * plan.fieldBytes ≤ 8192 := by
  have hlen : plan.maps.toList.length = 2 := Vector.length_toList
  obtain ⟨first, second, hmaps⟩ := length_eq_two.1 hlen
  have hchain := h.chain
  simp only [CompressionChainPlan.new, result_ok, checked_some, hmaps, checkMaps] at hchain
  obtain ⟨_, ⟨-, rfl⟩, -, hcap, _, ⟨hfirst, hinput, -, hsecond, hinput', -⟩, -⟩ := hchain
  have hfacts := fun map hmap => (CompressionMapPlan.new_facts (h.maps map hmap)).1
  rw [hmaps] at hfacts
  exact ⟨first, second, hmaps, hfacts first (by simp), hfacts second (by simp), hfirst, hsecond, hinput, hinput',
    not_lt.1 hcap⟩

end CompressionChainPlan

end Akita.Compression
