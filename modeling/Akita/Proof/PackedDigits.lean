import Akita.Lib.Accumulate
import Akita.Spec.PackedDigits

/-!
# The codec of packed digits

Digit `i` of width `w` holds the bits `i * w` up to `(i + 1) * w` of the storage, whatever bytes these fall in.

* `encodeDigits_spec`: encoding into cleared bytes stores those bits.
* `decodeAt_spec`: decoding reads back every digit that its width represents.
* `signedDigitBounds_le`: the bounds are the least that cover the digits.
* `Holds`, `Covers`: what packed digits hold, and bounds that are exact.
-/

namespace Akita.PackedDigits

open Lib List

variable {base : ℕ}

def Fits (bitWidth : ℕ) (digit : ℤ) : Prop := -2 ^ (bitWidth - 1) ≤ digit ∧ digit < 2 ^ (bitWidth - 1)

theorem fits_zero (bitWidth : ℕ) : Fits bitWidth 0 := ⟨by simp, by positivity⟩

/-- Bit `p` of digits of one width in a row. -/
def valueBit (value : ℕ → ℤ) (bitWidth p : ℕ) : Bool := (rawDigit (value (p / bitWidth)) bitWidth).toNat.testBit (p % bitWidth)

/-- A list of digits, with zeros past its end. -/
def digitOf (digits : List ℤ) (i : ℕ) : ℤ := digits.getD i 0

section

variable {w : ℕ}

theorem bitMask_lt (hw : w ≤ 8) : (bitMask w).toNat < 2 ^ w := by interval_cases w <;> decide

theorem testBit_bitMask (hw : w ≤ 8) {j : ℕ} (hj : j < w) : (bitMask w).toNat.testBit j = true := by
  interval_cases w <;> interval_cases j <;> decide

theorem rawDigit_lt (hw : w ≤ 8) (digit : ℤ) : (rawDigit digit w).toNat < 2 ^ w := by
  rw [rawDigit, UInt8.toNat_and]
  exact lt_of_le_of_lt Nat.and_le_right (bitMask_lt hw)

@[simp] theorem rawDigit_zero : rawDigit 0 w = 0 := by
  have hzero : UInt8.ofInt 0 = 0 := rfl
  rw [rawDigit, hzero, UInt8.zero_and]

theorem rawDigit_eight (digit : ℤ) : rawDigit digit 8 = UInt8.ofInt digit := by
  have hmask : bitMask 8 = -1 := rfl
  rw [rawDigit, hmask, UInt8.and_neg_one]

theorem signExtend_rawDigit_table : ∀ w : Fin 9, 1 ≤ w.val → ∀ n : Fin 256, n.val < 2 ^ w.val →
    signExtend (rawDigit ((n.val : ℤ) - 2 ^ (w.val - 1)) w.val) w.val = (n.val : ℤ) - 2 ^ (w.val - 1) := by
  decide +kernel

theorem signExtend_rawDigit (hw : 1 ≤ w ∧ w ≤ 8) {digit : ℤ} (h : Fits w digit) : signExtend (rawDigit digit w) w = digit := by
  obtain ⟨hlow, hhigh⟩ := h
  have hdouble : (2 : ℤ) ^ w = 2 ^ (w - 1) + 2 ^ (w - 1) := by
    rw [← two_mul, ← pow_succ', Nat.sub_add_cancel hw.1]
  obtain ⟨n, hn⟩ := Int.eq_ofNat_of_zero_le (a := digit + 2 ^ (w - 1)) (by linarith)
  have hlt : n < 2 ^ w := by
    have hcast : (n : ℤ) < 2 ^ w := by rw [hdouble, ← hn]; linarith
    exact_mod_cast hcast
  have h256 : n < 256 := lt_of_lt_of_le hlt (Nat.pow_le_pow_right (by norm_num) hw.2)
  have htable := signExtend_rawDigit_table ⟨w, by omega⟩ hw.1 ⟨n, h256⟩ hlt
  have hdigit : (n : ℤ) - 2 ^ (w - 1) = digit := by rw [← hn]; ring
  simpa only [hdigit] using htable

theorem bitPosition_spec (index w : ℕ) :
    8 * (bitPosition index w).1 + (bitPosition index w).2 = index * w ∧ (bitPosition index w).2 < 8 := by
  refine ⟨?_, Nat.mod_lt _ (by norm_num)⟩
  have hdiv := Nat.div_add_mod (index % 8 * w) 8
  have hindex := Nat.div_add_mod index 8
  calc 8 * (index / 8 * w + index % 8 * w / 8) + index % 8 * w % 8
      = 8 * (index / 8) * w + (8 * (index % 8 * w / 8) + index % 8 * w % 8) := by ring
    _ = (8 * (index / 8) + index % 8) * w := by rw [hdiv]; ring
    _ = index * w := by rw [hindex]

theorem orByte_ok {storage : List UInt8} {k : ℕ} (hk : k < storage.length) (c : UInt8) :
    ∃ out, orByte storage k c = .ok out ∧ out.length = storage.length ∧
      ∀ q, bitAt out q = (bitAt storage q || (decide (q / 8 = k) && c.toNat.testBit (q % 8))) := by
  refine ⟨storage.set k (storage[k] ||| c), ?_, length_set, fun q => ?_⟩
  · unfold orByte
    rw [getElem?_eq_getElem hk]
    rfl
  · exact bitAt_set_orByte (getElem?_eq_getElem hk) c q

/-- **One digit** is joined to its own bits. -/
theorem encodeAt_ok (hw : 1 ≤ w ∧ w ≤ 8) {storage : List UInt8} {index : ℕ} (digit : ℤ)
    (hroom : index * w + w ≤ 8 * storage.length) :
    ∃ out, encodeAt storage index w digit = .ok out ∧ out.length = storage.length ∧
      ∀ q, bitAt out q = (bitAt storage q ||
        (decide (index * w ≤ q) && (rawDigit digit w).toNat.testBit (q - index * w))) := by
  obtain ⟨hpos, hshift⟩ := bitPosition_spec index w
  set k := (bitPosition index w).1 with hk
  set shift := (bitPosition index w).2 with hs
  set raw := rawDigit digit w with hraw
  have hrawlt : raw.toNat < 2 ^ w := rawDigit_lt hw.2 digit
  have hhigh : ∀ j, w ≤ j → raw.toNat.testBit j = false := fun j hj =>
    Nat.testBit_lt_two_pow (lt_of_lt_of_le hrawlt (Nat.pow_le_pow_right (by norm_num) hj))
  have hofNat : (UInt8.ofNat shift).toNat % 8 = shift := by
    rw [UInt8.toNat_ofNat']
    omega
  -- the two bytes that the digit can reach
  have hlow : ∀ j < 8, (raw <<< UInt8.ofNat shift).toNat.testBit j = (decide (shift ≤ j) && raw.toNat.testBit (j - shift)) := by
    intro j hj
    rw [UInt8.toNat_shiftLeft, hofNat, Nat.testBit_mod_two_pow, Nat.testBit_shiftLeft]
    simp [hj]
  obtain ⟨out₁, hout₁, hlen₁, hbits₁⟩ := @orByte_ok storage k (by omega) (raw <<< UInt8.ofNat shift)
  by_cases hcross : shift + w > 8
  · have hofNat' : (UInt8.ofNat (8 - shift)).toNat % 8 = 8 - shift := by
      rw [UInt8.toNat_ofNat']
      omega
    obtain ⟨out, hout, hlen, hbits⟩ := @orByte_ok out₁ (k + 1) (by omega) (raw >>> UInt8.ofNat (8 - shift))
    refine ⟨out, ?_, by rw [hlen, hlen₁], fun q => ?_⟩
    · unfold encodeAt
      simp only [← hk, ← hs, ← hraw, hout₁, bind, Except.bind, if_pos hcross]
      exact hout
    · rw [hbits, hbits₁, hlow _ (Nat.mod_lt _ (by norm_num)), UInt8.toNat_shiftRight, hofNat', Nat.testBit_shiftRight,
        Bool.or_assoc]
      congr 1
      by_cases hq : q / 8 = k
      · have hne : q / 8 ≠ k + 1 := by omega
        have hsub : q % 8 - shift = q - index * w := by omega
        have hiff : shift ≤ q % 8 ↔ index * w ≤ q := by omega
        simp [hq, hsub, hiff]
      · by_cases hq' : q / 8 = k + 1
        · have hle : index * w ≤ q := by omega
          have hsub : 8 - shift + q % 8 = q - index * w := by omega
          simp [hq', hsub, hle]
        · have hfar : index * w ≤ q → w ≤ q - index * w := by omega
          by_cases hle : index * w ≤ q
          · simp [hq, hq', hhigh _ (hfar hle)]
          · simp [hq, hq', hle]
  · refine ⟨out₁, ?_, hlen₁, fun q => ?_⟩
    · unfold encodeAt
      simp only [← hk, ← hs, ← hraw, hout₁, bind, Except.bind, if_neg hcross]
      rfl
    · rw [hbits₁, hlow _ (Nat.mod_lt _ (by norm_num))]
      congr 1
      by_cases hq : q / 8 = k
      · have hsub : q % 8 - shift = q - index * w := by omega
        have hiff : shift ≤ q % 8 ↔ index * w ≤ q := by omega
        simp [hq, hsub, hiff]
      · by_cases hle : index * w ≤ q
        · simp [hq, hhigh (q - index * w) (by omega)]
        · simp [hq, hle]

end

/-! ## Lengths -/

theorem encodedByteLen_eq (len w : ℕ) : encodedByteLen len w = (len * w + 7) / 8 := by
  unfold encodedByteLen
  have hlen : len * w + 7 = len % 8 * w + 7 + len / 8 * w * 8 := by
    conv_lhs => rw [← Nat.div_add_mod len 8]
    ring
  rw [hlen, Nat.add_mul_div_right _ _ (by norm_num : 0 < 8), add_comm]

theorem encodedByteLen_room (len w : ℕ) : len * w ≤ 8 * encodedByteLen len w := by
  rw [encodedByteLen_eq]
  omega

theorem encodedByteLen_of_dvd (h : 64 ∣ base) (w : ℕ) : 8 * encodedByteLen base w = base * w := by
  obtain ⟨k, rfl⟩ := h
  rw [encodedByteLen_eq, show 64 * k * w = 8 * (8 * k * w) by ring]
  omega

theorem encodedByteLen_add (h : 64 ∣ base) (n w : ℕ) :
    encodedByteLen (base + n) w = encodedByteLen base w + encodedByteLen n w := by
  have hbase := encodedByteLen_of_dvd h w
  rw [encodedByteLen_eq (base + n), encodedByteLen_eq n, add_mul, ← hbase]
  omega

theorem encodedByteLen_mono {m n : ℕ} (h : m ≤ n) (w : ℕ) : encodedByteLen m w ≤ encodedByteLen n w := by
  have hmul := Nat.mul_le_mul_right w h
  rw [encodedByteLen_eq, encodedByteLen_eq]
  omega

@[simp] theorem encodedByteLen_zero (w : ℕ) : encodedByteLen 0 w = 0 := by
  rw [encodedByteLen_eq]
  norm_num

theorem encodedByteLen_block (w : ℕ) : encodedByteLen 64 w = w * 8 := by
  rw [encodedByteLen_eq]
  omega

/-! ## Encoding -/

section encode

variable {w : ℕ} {p : ℕ} {digits : List ℤ}

theorem valueBit_cons (hw : 1 ≤ w) (digit : ℤ) (digits : List ℤ) (p : ℕ) : valueBit (digitOf (digit :: digits)) w p =
      if p < w then (rawDigit digit w).toNat.testBit p else valueBit (digitOf digits) w (p - w) := by
  unfold valueBit
  split
  · next hp => rw [Nat.div_eq_of_lt hp, Nat.mod_eq_of_lt hp]; rfl
  · next hp =>
    obtain ⟨q, rfl⟩ := Nat.exists_eq_add_of_le (Nat.le_of_not_lt hp)
    rw [Nat.add_sub_cancel_left, Nat.add_div_left _ hw, Nat.add_mod_left]
    rfl

theorem valueBit_of_zero {value : ℕ → ℤ} (h : value (p / w) = 0) : valueBit value w p = false := by
  unfold valueBit
  rw [h, rawDigit_zero]
  exact Nat.zero_testBit _

theorem valueBit_nil (p : ℕ) : valueBit (digitOf []) w p = false := valueBit_of_zero rfl

theorem valueBit_of_length_le (hw : 1 ≤ w) (h : digits.length * w ≤ p) : valueBit (digitOf digits) w p = false := by
  have hdiv : digits.length ≤ p / w := (Nat.le_div_iff_mul_le hw).2 h
  exact valueBit_of_zero (getD_eq_default _ _ hdiv)

section

variable (hw : 1 ≤ w ∧ w ≤ 8)

include hw

theorem encodeLoop_ok : ∀ (source : List ℤ) (first : ℕ) (output : List UInt8),
    (first + source.length) * w ≤ 8 * output.length →
    ∃ out, (source.zipIdx first).foldlM (fun output (entry : ℤ × ℕ) => encodeAt output entry.2 w entry.1) output = .ok out ∧
      out.length = output.length ∧
      ∀ q, bitAt out q = (bitAt output q || (decide (first * w ≤ q) && valueBit (digitOf source) w (q - first * w))) := by
  intro source
  induction source with
  | nil =>
    intro first output _
    exact ⟨output, rfl, rfl, fun q => by simp [valueBit_nil]⟩
  | cons digit source ih =>
    intro first output hroom
    rw [length_cons] at hroom
    have hstep : (first + (source.length + 1)) * w = first * w + w + source.length * w := by ring
    obtain ⟨mid, hmid, hlen, hbits⟩ := @encodeAt_ok w hw output first digit (by rw [hstep] at hroom; omega)
    obtain ⟨out, hout, hlen', hbits'⟩ := ih (first + 1) mid (by
      rw [hlen]
      have heq : (first + 1 + source.length) * w = first * w + w + source.length * w := by ring
      omega)
    refine ⟨out, ?_, by rw [hlen', hlen], fun q => ?_⟩
    · rw [zipIdx_cons, foldlM_cons]
      simp only [hmid]
      exact hout
    · rw [hbits', hbits, Bool.or_assoc, Nat.succ_mul]
      congr 1
      have hlt := rawDigit_lt hw.2 digit
      by_cases hle : first * w ≤ q
      · rw [valueBit_cons hw.1]
        by_cases hin : q - first * w < w
        · have hnot : ¬ first * w + w ≤ q := by omega
          simp [hle, hin, hnot]
        · have hge : first * w + w ≤ q := by omega
          have hhigh : (rawDigit digit w).toNat.testBit (q - first * w) = false :=
            Nat.testBit_lt_two_pow (lt_of_lt_of_le hlt (Nat.pow_le_pow_right (by norm_num) (by omega)))
          rw [show q - first * w - w = q - (first * w + w) by omega]
          simp [hle, hin, hge, hhigh]
      · have hnot : ¬ first * w + w ≤ q := by omega
        simp [hle, hnot]

/-- **One block** stores the bits of its digits in cleared bytes. -/
theorem encodeBlock_ok {source : List ℤ} {output : List UInt8}
    (hroom : source.length * w ≤ 8 * output.length) (hclear : ∀ q, bitAt output q = false) :
    ∃ out, encodeBlock source w output = .ok out ∧ out.length = output.length ∧
      ∀ q, bitAt out q = valueBit (digitOf source) w q := by
  unfold encodeBlock
  by_cases h8 : w = 8
  · subst h8
    have hle : source.length ≤ output.length := by omega
    refine ⟨source.map UInt8.ofInt ++ output.drop source.length, ?_, ?_, fun q => ?_⟩
    · rw [if_pos rfl, take_of_length_le hle]
    · simp only [length_append, length_map, length_drop]
      omega
    · rw [bitAt_append, length_map]
      split
      · next hq =>
        unfold bitAt valueBit digitOf
        rw [rawDigit_eight, getD_eq_getElem?_getD, getElem?_map, getElem?_eq_getElem (by omega),
          Option.map_some, Option.getD_some, getD_eq_getElem?_getD, getElem?_eq_getElem (by omega), Option.getD_some]
      · next hq =>
        have hdrop : bitAt (output.drop source.length) (q - 8 * source.length) = bitAt output q := by
          unfold bitAt
          rw [getD_eq_getElem?_getD, getElem?_drop, ← getD_eq_getElem?_getD,
            show source.length + (q - 8 * source.length) / 8 = q / 8 by omega,
            show (q - 8 * source.length) % 8 = q % 8 by omega]
        rw [hdrop, hclear, valueBit_of_length_le (by norm_num) (by omega)]
  · obtain ⟨out, hout, hlen, hbits⟩ := encodeLoop_ok hw source 0 output (by simpa using hroom)
    refine ⟨out, ?_, hlen, fun q => ?_⟩
    · rw [if_neg h8]
      exact hout
    · rw [hbits, hclear]
      simp

theorem encodeBlocks_ok : ∀ (n : ℕ) (digits : List ℤ) (output : List UInt8), digits.length ≤ n →
    output.length = encodedByteLen digits.length w → (∀ q, bitAt output q = false) →
    ∃ blocks, encodeBlocks w (chunks digitsPerBlock digits) (chunks (w * 8) output) = .ok blocks ∧
      blocks.flatten.length = output.length ∧ ∀ q, bitAt blocks.flatten q = valueBit (digitOf digits) w q := by
  have hblock : 0 < digitsPerBlock := by decide
  have hbytes : 0 < w * 8 := by omega
  intro n
  induction n with
  | zero =>
    intro digits output hlen hout _
    obtain rfl := length_eq_zero_iff.1 (Nat.le_zero.1 hlen)
    rw [length_nil, encodedByteLen_zero] at hout
    obtain rfl := length_eq_zero_iff.1 hout
    rw [chunks_nil hblock, chunks_nil hbytes]
    exact ⟨[], rfl, rfl, fun q => by rw [valueBit_nil]; exact bitAt_of_ge (Nat.zero_le q)⟩
  | succ n ih =>
    intro digits output hlen hout hclear
    by_cases hnil : digits = []
    · exact ih digits output (by rw [hnil]; exact Nat.zero_le n) hout hclear
    have hpos := length_pos_iff.2 hnil
    have hone : 1 ≤ encodedByteLen digits.length w := by
      rw [encodedByteLen_eq]
      have := mul_le_mul hpos hw.1
      omega
    have hout_ne : output ≠ [] := length_pos_iff.1 (by omega)
    rw [chunks_of_ne_nil hblock hnil, chunks_of_ne_nil hbytes hout_ne]
    have hroom := encodedByteLen_room digits.length w
    -- what the first block and the rest take of the storage
    have hsplit : (output.drop (w * 8)).length = encodedByteLen (digits.drop digitsPerBlock).length w := by
      rw [length_drop, length_drop, hout]
      by_cases hle : digits.length ≤ digitsPerBlock
      · have hmono := encodedByteLen_mono hle w
        rw [digitsPerBlock, encodedByteLen_block] at hmono
        rw [Nat.sub_eq_zero_of_le hle, encodedByteLen_zero]
        omega
      · obtain ⟨m, hm⟩ := Nat.exists_eq_add_of_le (Nat.le_of_not_le hle)
        rw [hm, digitsPerBlock, encodedByteLen_add (dvd_refl 64), encodedByteLen_block, Nat.add_sub_cancel_left,
          Nat.add_sub_cancel_left]
    have htake : (output.take (w * 8)).length = min (w * 8) output.length := length_take
    obtain ⟨first, hfirst, hfirstLen, hfirstBits⟩ := @encodeBlock_ok w hw (digits.take digitsPerBlock)
      (output.take (w * 8)) (by
        rw [htake, length_take, digitsPerBlock, hout]
        have hmin : min 64 digits.length * w ≤ 64 * w := Nat.mul_le_mul_right w (Nat.min_le_left _ _)
        have hmin' : min 64 digits.length * w ≤ digits.length * w := Nat.mul_le_mul_right w (Nat.min_le_right _ _)
        omega) (fun q => by
        by_cases hq : q < 8 * (w * 8)
        · have h := bitAt_take_drop output (k := 0) hq
          rw [drop_zero] at h
          rw [h, hclear]
        · exact bitAt_of_ge (by rw [htake]; omega))
    obtain ⟨rest, hrest, hrestLen, hrestBits⟩ := ih (digits.drop digitsPerBlock) (output.drop (w * 8))
      (by rw [length_drop, digitsPerBlock]; omega) hsplit (fun q => by
        have hdrop : bitAt (output.drop (w * 8)) q = bitAt output (8 * (w * 8) + q) := by
          unfold bitAt
          rw [getD_eq_getElem?_getD, getElem?_drop, ← getD_eq_getElem?_getD,
            show w * 8 + q / 8 = (8 * (w * 8) + q) / 8 by omega, show q % 8 = (8 * (w * 8) + q) % 8 by omega]
        rw [hdrop, hclear])
    refine ⟨first :: rest, ?_, ?_, fun q => ?_⟩
    · rw [encodeBlocks]
      simp only [hfirst, hrest, bind, Except.bind]
      rfl
    · rw [flatten_cons, length_append, hfirstLen, hrestLen, ← length_append, take_append_drop]
    · rw [flatten_cons, bitAt_append, hfirstLen, htake]
      split
      · next hq =>
        rw [hfirstBits]
        unfold valueBit
        congr 3
        have hdiv : q / w < digitsPerBlock := by
          apply Nat.div_lt_of_lt_mul
          rw [digitsPerBlock]
          omega
        rw [digitOf, digitOf, getD_eq_getElem?_getD, getElem?_take_of_lt hdiv, ← getD_eq_getElem?_getD]
      · next hq =>
        rw [hrestBits]
        by_cases hlong : w * 8 ≤ output.length
        · rw [Nat.min_eq_left hlong] at hq ⊢
          obtain ⟨r, rfl⟩ := Nat.exists_eq_add_of_le (Nat.le_of_not_lt hq)
          rw [Nat.add_sub_cancel_left, show 8 * (w * 8) + r = w * 64 + r by ring]
          unfold valueBit
          rw [Nat.mul_add_mod, Nat.mul_add_div hw.1]
          congr 3
          rw [digitOf, digitOf, getD_eq_getElem?_getD, getElem?_drop, ← getD_eq_getElem?_getD]
        · -- a short block is the last one
          rw [Nat.min_eq_right (Nat.le_of_not_le hlong)] at hq ⊢
          have hshort : digits.length ≤ digitsPerBlock := by
            by_contra hlt
            have hmono := encodedByteLen_mono (Nat.le_of_not_le hlt) w
            rw [digitsPerBlock, encodedByteLen_block] at hmono
            omega
          rw [drop_of_length_le hshort, valueBit_nil, valueBit_of_length_le hw.1 (by omega)]

/-- **Encoding into cleared bytes** stores the bits of the digits. -/
theorem encodeDigits_spec {output : List UInt8} (hlen : output.length = encodedByteLen digits.length w)
    (hclear : ∀ q, bitAt output q = false) :
    ∃ out, encodeDigits digits w output = .ok (out, signedDigitBounds digits) ∧ out.length = output.length ∧
      ∀ q, bitAt out q = valueBit (digitOf digits) w q := by
  obtain ⟨blocks, hblocks, hlength, hbits⟩ := encodeBlocks_ok hw digits.length digits output le_rfl hlen hclear
  refine ⟨blocks.flatten, ?_, hlength, hbits⟩
  unfold encodeDigits
  rw [hblocks]
  rfl

end

end encode

/-! ## Decoding -/

/-- Decoding extends the sign of the bits stored at the index. -/
theorem decodeAt_raw {w : ℕ} (hw : 1 ≤ w ∧ w ≤ 8) {storage : List UInt8} {index : ℕ}
    (hroom : (bitPosition index w).1 + 1 < storage.length) {raw : UInt8} (hlt : raw.toNat < 2 ^ w)
    (hbits : ∀ j < w, raw.toNat.testBit j = bitAt storage (index * w + j)) :
    decodeAt storage index w = .ok (signExtend raw w) := by
  obtain ⟨hpos, hshift⟩ := bitPosition_spec index w
  unfold decodeAt
  set k := (bitPosition index w).1 with hk
  set shift := (bitPosition index w).2 with hs
  simp only [← hk, ← hs, getElem?_eq_getElem hroom, getElem?_eq_getElem (Nat.lt_of_succ_lt hroom), okOr, ok_run]
  have hraw : ((storage[k].toUInt16 ||| storage[k + 1].toUInt16 <<< 8) >>> UInt16.ofNat shift).toUInt8 &&& bitMask w = raw := by
    apply UInt8.toNat_inj.1
    apply Nat.eq_of_testBit_eq
    intro j
    by_cases hj : j < w
    · have hword : (storage[k].toUInt16 ||| storage[k + 1].toUInt16 <<< 8).toNat.testBit (shift + j) =
          bitAt storage (8 * k + (shift + j)) := by
        have h8 : (8 : UInt16).toNat % 16 = 8 := rfl
        rw [UInt16.toNat_or, UInt16.toNat_shiftLeft, h8, UInt8.toNat_toUInt16, UInt8.toNat_toUInt16, Nat.testBit_or,
          Nat.testBit_mod_two_pow, Nat.testBit_shiftLeft]
        unfold bitAt
        rw [show (8 * k + (shift + j)) / 8 = k + (shift + j) / 8 by omega,
          show (8 * k + (shift + j)) % 8 = (shift + j) % 8 by omega]
        by_cases hlow : shift + j < 8
        · have hnot : ¬ 8 ≤ shift + j := by omega
          rw [Nat.div_eq_of_lt hlow, Nat.mod_eq_of_lt hlow, add_zero k, getD_eq_getElem _ _ (Nat.lt_of_succ_lt hroom)]
          simp [hnot]
        · have hdiv : (shift + j) / 8 = 1 := by omega
          have hmod : (shift + j) % 8 = shift + j - 8 := by omega
          have hhigh : storage[k].toNat.testBit (shift + j) = false :=
            Nat.testBit_lt_two_pow (lt_of_lt_of_le storage[k].toNat_lt (Nat.pow_le_pow_right (by norm_num) (by omega)))
          rw [hdiv, hmod, getD_eq_getElem _ _ hroom, hhigh]
          have h16 : shift + j < 16 := by omega
          simp [Nat.le_of_not_lt hlow, h16]
      have hofNat : (UInt16.ofNat shift).toNat % 16 = shift := by
        rw [UInt16.toNat_ofNat']
        omega
      rw [UInt8.toNat_and, Nat.testBit_and, testBit_bitMask hw.2 hj, Bool.and_true, UInt16.toNat_toUInt8,
        Nat.testBit_mod_two_pow, UInt16.toNat_shiftRight, hofNat, Nat.testBit_shiftRight, hword, hbits j hj, ← add_assoc,
        hpos]
      have h8 : j < 8 := by omega
      simp [h8]
    · have hle : 2 ^ w ≤ 2 ^ j := Nat.pow_le_pow_right (by norm_num) (Nat.le_of_not_lt hj)
      rw [UInt8.toNat_and, Nat.testBit_lt_two_pow (lt_of_lt_of_le (lt_of_le_of_lt Nat.and_le_right (bitMask_lt hw.2)) hle),
        Nat.testBit_lt_two_pow (lt_of_lt_of_le hlt hle)]
  rw [hraw]

theorem valueBit_mul_add {w : ℕ} (hw : 1 ≤ w) (value : ℕ → ℤ) (index : ℕ) {j : ℕ} (hj : j < w) :
    valueBit value w (index * w + j) = (rawDigit (value index) w).toNat.testBit j := by
  unfold valueBit
  rw [mul_comm index, Nat.mul_add_div hw, Nat.mul_add_mod, Nat.div_eq_of_lt hj, Nat.mod_eq_of_lt hj, add_zero]

/-- **Decoding** reads back a digit whose bits are stored. -/
theorem decodeAt_spec {w : ℕ} {value : ℕ → ℤ} (hw : 1 ≤ w ∧ w ≤ 8) {storage : List UInt8} {index : ℕ}
    (hroom : (bitPosition index w).1 + 1 < storage.length) (hbits : ∀ q, bitAt storage q = valueBit value w q)
    (hfits : Fits w (value index)) : decodeAt storage index w = .ok (value index) := by
  rw [decodeAt_raw hw hroom (rawDigit_lt hw.2 _) fun j hj => by rw [hbits, valueBit_mul_add hw.1 value index hj],
    signExtend_rawDigit hw hfits]

/-! ## Bounds -/

/-- The loop of `signed_digit_bounds` keeps the least and the largest digit. -/
theorem extrema_le (digits : List ℤ) (low high a b : ℤ) :
    (a ≤ (digits.foldl (fun (m : ℤ × ℤ) digit => (min m.1 digit, max m.2 digit)) (low, high)).1 ∧
      (digits.foldl (fun (m : ℤ × ℤ) digit => (min m.1 digit, max m.2 digit)) (low, high)).2 ≤ b) ↔
      (a ≤ low ∧ high ≤ b) ∧ ∀ digit ∈ digits, a ≤ digit ∧ digit ≤ b := by
  induction digits generalizing low high with
  | nil => simp
  | cons digit digits ih =>
    rw [foldl_cons, ih]
    simp only [forall_mem_cons, le_min_iff, max_le_iff]
    tauto

/-- **The bounds** are the least that cover the digits. -/
theorem signedDigitBounds_le (digits : List ℤ) (a b : ℕ) :
    ((signedDigitBounds digits).negativeAbsMax ≤ a ∧ (signedDigitBounds digits).positiveMax ≤ b) ↔
      ∀ digit ∈ digits, -(a : ℤ) ≤ digit ∧ digit ≤ b := by
  have hkeep := extrema_le digits 0 0
  have hsign := (hkeep _ _).1 ⟨le_rfl, le_rfl⟩
  have hcover := hkeep (-(a : ℤ)) b
  change (Int.natAbs (digits.foldl (fun (m : ℤ × ℤ) digit => (min m.1 digit, max m.2 digit)) (0, 0)).1 ≤ a ∧
    Int.toNat (digits.foldl (fun (m : ℤ × ℤ) digit => (min m.1 digit, max m.2 digit)) (0, 0)).2 ≤ b) ↔ _
  have hzero : (-(a : ℤ) ≤ 0 ∧ (0 : ℤ) ≤ b) := ⟨by omega, by omega⟩
  simp only [hzero, and_self, true_and] at hcover
  rw [← hcover]
  constructor
  · rintro ⟨h1, h2⟩
    exact ⟨by omega, by omega⟩
  · rintro ⟨h1, h2⟩
    exact ⟨by omega, by omega⟩

/-! ## What packed digits hold -/

/-- The storage holds the bits of a sequence of digits, and zeros beyond its length. -/
structure Holds (packed : PackedSignedDigits) (value : ℕ → ℤ) : Prop where
  width : 1 ≤ packed.bitWidth ∧ packed.bitWidth ≤ 8
  storageLen : packed.storage.length = encodedByteLen packed.len packed.bitWidth + vectorLoadPadding
  encodedLen : packed.encodedLen = encodedByteLen packed.len packed.bitWidth
  bits : ∀ p, bitAt packed.storage p = valueBit value packed.bitWidth p
  fits : ∀ i, Fits packed.bitWidth (value i)
  beyond : ∀ i, packed.len ≤ i → value i = 0

/-- The bounds are the extrema of zero and the digits at some indices. -/
def Covers (bounds : SignedDigitBounds) (P : ℕ → Prop) (value : ℕ → ℤ) : Prop :=
  ∀ a b : ℕ, (bounds.negativeAbsMax ≤ a ∧ bounds.positiveMax ≤ b) ↔ ∀ i, P i → -(a : ℤ) ≤ value i ∧ value i ≤ b

section

variable {packed : PackedSignedDigits} {value : ℕ → ℤ} {i : ℕ} {bounds other : SignedDigitBounds} {P Q : ℕ → Prop}

theorem Holds.room (h : Holds packed value) (hi : i < packed.len) :
    (bitPosition i packed.bitWidth).1 + 1 < packed.storage.length := by
  have hpos := (bitPosition_spec i packed.bitWidth).1
  have hmul : i * packed.bitWidth ≤ packed.len * packed.bitWidth := Nat.mul_le_mul_right _ (by omega)
  have hfull := encodedByteLen_room packed.len packed.bitWidth
  rw [h.storageLen, vectorLoadPadding]
  omega

theorem Holds.decodeAt (h : Holds packed value) (hi : i < packed.len) :
    decodeAt packed.storage i packed.bitWidth = .ok (value i) := decodeAt_spec h.width (h.room hi) h.bits (h.fits i)

/-- Zeros do not count. -/
theorem Covers.congr (h : Covers bounds P value) (hPQ : ∀ i, value i ≠ 0 → (P i ↔ Q i)) : Covers bounds Q value := by
  intro a b
  refine (h a b).trans (forall_congr' fun i => ?_)
  by_cases hi : value i = 0
  · simp [hi]
  · rw [hPQ i hi]

theorem Covers.unique (h : Covers bounds P value) (h' : Covers other P value) : bounds = other := by
  obtain ⟨hneg, hposv⟩ := (h _ _).2 ((h' _ _).1 ⟨le_rfl, le_rfl⟩)
  obtain ⟨hneg', hposv'⟩ := (h' _ _).2 ((h _ _).1 ⟨le_rfl, le_rfl⟩)
  cases bounds
  cases other
  rw [SignedDigitBounds.mk.injEq]
  exact ⟨hneg.antisymm hneg', hposv.antisymm hposv'⟩

end

end Akita.PackedDigits
