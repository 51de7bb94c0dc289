import Akita.Proof.BitCursor

/-!
# The tail codec is a bijection

* `golombRiceDecodeOneFrom_eq`: the window path and the bitwise path decode one code
  alike, as `riceParse` on the unread bits.
* `decodeLoop_sound`, `decodeLoop_complete`: accepted vectors were read from their own
  codes, and codes within the quotient cap are read back.
* `golombRice_codec`: encoding and decoding are inverse to each other.
-/

namespace Akita.GolombRice

open Lib List BitReader
open BitVec (ofNat ofInt eq_of_toNat_eq toNat_ushiftRight)

section

variable {n : ℤ} {u q rem cap : ℕ} {l : List Bool} {v : List ℤ}

/-! ## Zigzag -/

def zig (n : ℤ) : ℕ := if 0 ≤ n then 2 * n.toNat else 2 * (-n - 1).toNat + 1

def zag (u : ℕ) : ℤ := if u % 2 = 0 then (u / 2 : ℕ) else -(u / 2 : ℕ) - 1

theorem zag_zig (n : ℤ) : zag (zig n) = n := by
  unfold zig zag
  split <;> split <;> omega

theorem zig_zag (u : ℕ) : zig (zag u) = u := by
  unfold zig zag
  split <;> split <;> omega

section

variable (h1 : -2 ^ 62 ≤ n) (h2 : n < 2 ^ 62)

include h1 h2

theorem shl_one_toNat : ((ofInt 64 n) <<< 1).toNat = (2 * n % 2 ^ 64).toNat := by
  rw [BitVec.toNat_shiftLeft, BitVec.toNat_ofInt, Nat.shiftLeft_eq]
  omega

theorem ofInt_msb : (ofInt 64 n).msb = decide (n < 0) := by
  rw [BitVec.msb_eq_toInt, BitVec.toInt_ofInt, Int.bmod_eq_of_le (by norm_num; omega) (by norm_num; omega)]

theorem zigzag_word : ((ofInt 64 n <<< 1) ^^^ (ofInt 64 n).sshiftRight 63).toNat = zig n := by
  have hs := shl_one_toNat h1 h2
  have hm := ofInt_msb h1 h2
  have hn := BitVec.toNat_ofInt (n := 64) n
  set x := ofInt 64 n
  by_cases h : n < 0
  · have hz : (~~~x) >>> 63 = 0#64 := by
      apply eq_of_toNat_eq
      rw [toNat_ushiftRight, BitVec.toNat_not, Nat.shiftRight_eq_div_pow, hn]
      push_cast
      omega
    rw [BitVec.sshiftRight_eq_of_msb_true (by rw [hm]; simpa using h), hz,
      show ~~~(0#64) = BitVec.allOnes 64 by rfl, BitVec.xor_allOnes, BitVec.toNat_not, hs, zig, if_neg (by omega)]
    omega
  · have hz : x >>> 63 = 0#64 := by
      apply eq_of_toNat_eq
      rw [toNat_ushiftRight, Nat.shiftRight_eq_div_pow, hn]
      push_cast
      omega
    rw [BitVec.sshiftRight_eq_of_msb_false (by rw [hm]; simpa using h), hz, BitVec.xor_zero, hs, zig, if_pos (by omega)]
    omega

end

theorem unzigzag_word (h : u < 2 ^ 64) : ((ofNat 64 u >>> 1) ^^^ (-(ofNat 64 u &&& 1))).toInt = zag u := by
  have hand : (ofNat 64 u &&& 1).toNat = u % 2 := by
    rw [BitVec.toNat_and, BitVec.toNat_ofNat, Nat.mod_eq_of_lt h]
    exact Nat.and_one_is_mod u
  have hshr : (ofNat 64 u >>> 1).toNat = u / 2 := by
    rw [toNat_ushiftRight, BitVec.toNat_ofNat, Nat.mod_eq_of_lt h, Nat.shiftRight_eq_div_pow, pow_one]
  rcases Nat.mod_two_eq_zero_or_one u with h0 | h1
  · have hz : ofNat 64 u &&& 1 = 0#64 := eq_of_toNat_eq (by rw [hand, h0]; rfl)
    rw [hz, BitVec.neg_zero, BitVec.xor_zero, BitVec.toInt_eq_toNat_of_lt (by rw [hshr]; omega), hshr, zag, if_pos h0]
  · have hz : ofNat 64 u &&& 1 = 1#64 := eq_of_toNat_eq (by rw [hand, h1]; rfl)
    rw [hz, show -(1#64) = BitVec.allOnes 64 by decide, BitVec.xor_allOnes, BitVec.toInt_not, hshr, zag,
      if_neg (by omega), Int.bmod_def]
    omega

theorem zigzagEncode_ok_iff {w : ℕ} : zigzagEncode n w = .ok u ↔
    1 ≤ w ∧ w ≤ 63 ∧ -2 ^ (w - 1) ≤ n ∧ n ≤ 2 ^ (w - 1) - 1 ∧ u = zig n := by
  unfold zigzagEncode
  split
  · simp; omega
  split
  · simp; omega
  rename_i hw hn
  have hp : (2 : ℤ) ^ (w - 1) ≤ 2 ^ 62 := pow_le_pow_right₀ (by norm_num) (by omega)
  rw [show ∀ a b : ℕ, (Except.ok a : Result ℕ) = .ok b ↔ a = b by simp, zigzag_word (by omega) (by omega)]
  constructor
  · intro h; exact ⟨by omega, by omega, by omega, by omega, h.symm⟩
  · intro h; exact h.2.2.2.2.symm

theorem zigzagDecode_ok_iff {w : ℕ} (hu : u < 2 ^ 64) : zigzagDecode u w = .ok n ↔
    1 ≤ w ∧ w ≤ 63 ∧ -2 ^ (w - 1) ≤ n ∧ n ≤ 2 ^ (w - 1) - 1 ∧ n = zag u := by
  unfold zigzagDecode
  simp only [unzigzag_word hu]
  split
  · simp; omega
  split
  · simp; omega
  · simp; omega

/-! ## One code -/

/-- The code of quotient `q` and remainder `rem`. -/
def riceCode (rice q rem : ℕ) : List Bool := List.replicate q true ++ false :: natBits rice rem

/-- Reading one code off a bit string: quotient and remainder. -/
def riceParse (rice maxQ : ℕ) (l : List Bool) : Option (ℕ × ℕ) :=
  if run l ≤ maxQ ∧ run l + 1 + rice ≤ l.length then
    some (run l, bitsValue ((l.drop (run l + 1)).take rice))
  else none

theorem riceCode_length (rice q rem : ℕ) : (riceCode rice q rem).length = q + 1 + rice := by
  simp [riceCode]; omega

theorem run_riceCode_append (rice q rem : ℕ) (t : List Bool) : run (riceCode rice q rem ++ t) = q := by
  unfold run riceCode
  rw [append_assoc, takeWhile_append_of_pos (by simp)]
  simp

theorem riceParse_riceCode {rice maxQ : ℕ} (hq : q ≤ maxQ) (hrem : rem < 2 ^ rice) (t : List Bool) :
    riceParse rice maxQ (riceCode rice q rem ++ t) = some (q, rem) := by
  unfold riceParse
  rw [run_riceCode_append, length_append, riceCode_length, if_pos ⟨hq, by omega⟩]
  have hd : (riceCode rice q rem ++ t).drop (q + 1) = natBits rice rem ++ t := by
    unfold riceCode
    rw [append_assoc, drop_append, drop_of_length_le (by simp)]
    simp
  rw [hd, take_left' (by simp), bitsValue_natBits hrem]

theorem riceParse_sound {rice maxQ : ℕ} (h : riceParse rice maxQ l = some (q, rem)) :
    q ≤ maxQ ∧ rem < 2 ^ rice ∧ q + 1 + rice ≤ l.length ∧
      l = riceCode rice q rem ++ l.drop (q + 1 + rice) := by
  unfold riceParse at h
  split at h
  · rename_i hc
    obtain ⟨hq, hl⟩ := hc
    obtain ⟨rfl, rfl⟩ := h
    have htl : ((l.drop (run l + 1)).take rice).length = rice := by simp; omega
    refine ⟨hq, ?_, hl, ?_⟩
    · have := bitsValue_lt ((l.drop (run l + 1)).take rice)
      rwa [htl] at this
    · have hn := natBits_bitsValue ((l.drop (run l + 1)).take rice)
      rw [htl] at hn
      have hstop : l[run l]? = some false := by
        have hlt : run l < l.length := by omega
        rw [getElem?_eq_getElem hlt]
        by_contra hne
        have ht : l[run l]? = some true := by
          rw [getElem?_eq_getElem hlt]
          simpa using hne
        have : run l + 1 ≤ run l := by
          rw [le_run_iff]
          intro i hi
          rcases Nat.lt_succ_iff_lt_or_eq.1 hi with hi | hi
          · exact (le_run_iff l (run l)).1 le_rfl i hi
          · rw [hi]; exact ht
        omega
      have hones : l.take (run l) = replicate (run l) true := by
        apply ext_getElem?
        intro i
        rw [getElem?_take, getElem?_replicate]
        split
        · rename_i hi; exact (le_run_iff l (run l)).1 le_rfl i hi
        · rfl
      have hmid : l.drop (run l) = false :: l.drop (run l + 1) := by
        have hlt : run l < l.length := by omega
        rw [drop_eq_getElem_cons hlt]
        rw [getElem?_eq_getElem hlt] at hstop
        rw [Option.some.inj hstop]
      calc l = l.take (run l) ++ l.drop (run l) := (take_append_drop _ _).symm
        _ = replicate (run l) true ++ (false :: l.drop (run l + 1)) := by rw [hones, hmid]
        _ = replicate (run l) true ++ (false ::
              ((l.drop (run l + 1)).take rice ++ (l.drop (run l + 1)).drop rice)) := by
            rw [take_append_drop]
        _ = riceCode rice (run l) (bitsValue ((l.drop (run l + 1)).take rice)) ++
              l.drop (run l + 1 + rice) := by
            rw [riceCode, hn, drop_drop]; simp
  · simp at h

/-- What `golomb_rice_decode_one_from` does with a parsed code. -/
def decodeParsed (r : BitReader) (rice w : ℕ) : Option (ℕ × ℕ) → Result (ℤ × BitReader)
  | none => .error .invalidProof
  | some (q, rem) => do
    let n ← zigzagDecode (wrapping 64 (q <<< rice) ||| rem) w
    return (n, r.advance (q + 1 + rice))

theorem golombRiceDecodeSlow_eq {rice maxQ : ℕ} (r : BitReader) (w : ℕ) (hr : rice ≤ 63) (hmax : maxQ < 2 ^ 64) :
    golombRiceDecodeSlow r rice w maxQ = decodeParsed r rice w (riceParse rice maxQ r.rest) := by
  unfold golombRiceDecodeSlow riceParse
  rw [readUnaryOnes_eq hmax, rest_length]
  by_cases hu : run r.rest ≤ maxQ ∧ run r.rest < r.remainingBits
  · rw [if_pos hu]
    have hrem : (r.advance (run r.rest + 1)).remainingBits = r.remainingBits - (run r.rest + 1) := by
      simp [remainingBits]; omega
    by_cases h0 : rice = 0
    · subst h0
      rw [if_pos ⟨hu.1, by omega⟩]
      have hq : wrapping 64 (run r.rest) = run r.rest := wrapping_of_lt (lt_of_le_of_lt hu.1 hmax)
      have hu0 : wrapping 64 (run r.rest <<< 0) ||| bitsValue ((r.rest.drop (run r.rest + 1)).take 0) = run r.rest := by
        rw [take_zero, bitsValue, Nat.or_zero, Nat.shiftLeft_zero, hq]
      rw [decodeParsed, hu0]
      rfl
    · simp only [ok_run, if_neg h0]
      rw [readBits_eq _ hr, hrem]
      by_cases hl : run r.rest + 1 + rice ≤ r.remainingBits
      · rw [if_pos (by omega), if_pos ⟨hu.1, hl⟩]
        simp only [decodeParsed, rest_advance, advance_advance, ok_run]
      · rw [if_neg (by omega), if_neg (by omega)]
        rfl
  · rw [if_neg hu, if_neg (by omega)]
    rfl

/-- **One code, whichever path decodes it.** -/
theorem golombRiceDecodeOneFrom_eq {rice maxQ : ℕ} (r : BitReader) (w : ℕ) (hr : rice ≤ 63) (hmax : maxQ < 2 ^ 64) :
    golombRiceDecodeOneFrom r rice w maxQ = decodeParsed r rice w (riceParse rice maxQ r.rest) := by
  unfold golombRiceDecodeOneFrom
  rw [if_pos (by omega)]
  cases hw : r.wordWindow 64 with
  | none => exact golombRiceDecodeSlow_eq r w hr hmax
  | some window =>
    simp only
    obtain ⟨hrem, hbits⟩ := wordWindow_spec le_rfl hw
    have hrun : trailingOnes window = min 64 (run r.rest) := by
      have key : ∀ k, k ≤ trailingOnes window ↔ k ≤ min 64 (run r.rest) := by
        intro k
        rw [le_trailingOnes_iff, le_min_iff, le_run_iff]
        refine and_congr_right fun hk => forall_congr' fun i => ?_
        constructor
        · intro h hi; rw [hbits i (by omega), h hi]
        · intro h hi
          have := h hi
          rw [hbits i (by omega)] at this
          exact Option.some.inj this
      exact le_antisymm ((key _).1 le_rfl) ((key _).2 le_rfl)
    by_cases hfit : trailingOnes window + rice < 64
    · have hq : trailingOnes window = run r.rest := by omega
      rw [if_pos hfit, hq]
      rw [hq] at hfit
      unfold riceParse
      rw [rest_length]
      by_cases hle : run r.rest ≤ maxQ
      · rw [if_neg (Nat.not_lt.2 hle)]
        have hv : (if rice = 0 then 0 else (window >>> (run r.rest + 1)) &&& (2 ^ rice - 1)) =
            bitsValue ((r.rest.drop (run r.rest + 1)).take rice) := by
          split
          · rename_i h0; rw [h0]; rfl
          apply value_eq_of_testBit (and_mask_lt _ _)
          intro i hi
          rw [getElem?_drop, hbits _ (by omega), Nat.testBit_and, Nat.testBit_two_pow_sub_one, Nat.testBit_shiftRight]
          simp [hi]
        rw [hv, if_pos ⟨hle, by omega⟩]
        rfl
      · rw [if_pos (Nat.not_le.1 hle), if_neg (by omega)]
        rfl
    · rw [if_neg hfit]
      exact golombRiceDecodeSlow_eq r w hr hmax

/-! ## The vector -/

section

variable (rice w : ℕ)

def codeOf (n : ℤ) : List Bool := riceCode rice (zig n >>> rice) (zig n % 2 ^ rice)

def codesOf (v : List ℤ) : List Bool := v.flatMap (codeOf rice)

def InWidth (n : ℤ) : Prop := -2 ^ (w - 1) ≤ n ∧ n ≤ 2 ^ (w - 1) - 1

end

variable {rice w maxQ : ℕ}

theorem codesOf_cons (n : ℤ) (v : List ℤ) : codesOf rice (n :: v) = codeOf rice n ++ codesOf rice v := by
  simp [codesOf]

theorem join_parts (hrem : rem < 2 ^ rice) (hq : q * 2 ^ rice < 2 ^ 64) :
    wrapping 64 (q <<< rice) ||| rem = q * 2 ^ rice + rem := by
  rw [wrapping_of_lt (by rwa [Nat.shiftLeft_eq]), ← Nat.shiftLeft_add_eq_or_of_lt hrem, Nat.shiftLeft_eq]

theorem split_parts (u rice : ℕ) : (u >>> rice) * 2 ^ rice + u % 2 ^ rice = u := by
  rw [Nat.shiftRight_eq_div_pow, mul_comm]; exact Nat.div_add_mod u (2 ^ rice)

theorem parts_of_join (hrem : rem < 2 ^ rice) : (q * 2 ^ rice + rem) >>> rice = q ∧ (q * 2 ^ rice + rem) % 2 ^ rice = rem := by
  rw [Nat.shiftRight_eq_div_pow, mul_comm q]
  constructor
  · rw [Nat.mul_add_div (by positivity), Nat.div_eq_of_lt hrem, add_zero]
  · rw [Nat.mul_add_mod, Nat.mod_eq_of_lt hrem]

/-- The parameters of a decode: the quotient cap leaves room for a 64-bit value. -/
structure Bounds (rice w maxQ : ℕ) : Prop where
  rice_le : rice ≤ 63
  width_pos : 1 ≤ w
  width_le : w ≤ 63
  room : (maxQ + 1) * 2 ^ rice ≤ 2 ^ 64

theorem Bounds.maxQ_lt (h : Bounds rice w maxQ) : maxQ < 2 ^ 64 := by
  have h1 := h.room
  have h2 : maxQ + 1 ≤ (maxQ + 1) * 2 ^ rice := Nat.le_mul_of_pos_right _ (by positivity)
  omega

theorem Bounds.join_lt (h : Bounds rice w maxQ) (hq : q ≤ maxQ) (hrem : rem < 2 ^ rice) : q * 2 ^ rice + rem < 2 ^ 64 := by
  have h1 := h.room
  have h2 : (q + 1) * 2 ^ rice ≤ (maxQ + 1) * 2 ^ rice := Nat.mul_le_mul_right _ (by omega)
  rw [add_mul, one_mul] at h2
  omega

theorem decodeOne_sound (hB : Bounds rice w maxQ) {r r' : BitReader} (h : golombRiceDecodeOneFrom r rice w maxQ = .ok (n, r')) :
    (InWidth w n ∧ zig n >>> rice ≤ maxQ) ∧ r' = r.advance (codeOf rice n).length ∧ r.rest = codeOf rice n ++ r'.rest := by
  rw [golombRiceDecodeOneFrom_eq r w hB.rice_le hB.maxQ_lt] at h
  cases hp : riceParse rice maxQ r.rest with
  | none => rw [hp] at h; simp [decodeParsed] at h
  | some p =>
    obtain ⟨q, rem⟩ := p
    rw [hp] at h
    obtain ⟨hq, hrem, -, hl⟩ := riceParse_sound hp
    have hlt := hB.join_lt hq hrem
    rw [decodeParsed, join_parts hrem (by omega)] at h
    cases hz : zigzagDecode (q * 2 ^ rice + rem) w with
    | error e => rw [hz] at h; simp [bind, Except.bind] at h
    | ok m =>
      rw [hz] at h
      obtain ⟨rfl, rfl⟩ := h
      obtain ⟨-, -, h1, h2, rfl⟩ := (zigzagDecode_ok_iff hlt).1 hz
      obtain ⟨hp1, hp2⟩ := parts_of_join (q := q) hrem
      have hc : codeOf rice (zag (q * 2 ^ rice + rem)) = riceCode rice q rem := by
        rw [codeOf, zig_zag, hp1, hp2]
      rw [hc, riceCode_length, rest_advance, zig_zag, hp1]
      exact ⟨⟨⟨h1, h2⟩, hq⟩, rfl, hl⟩

/-- A coordinate within the quotient cap is read back from its code. -/
theorem decodeOne_complete (hB : Bounds rice w maxQ) {r : BitReader} {t : List Bool} (hn : InWidth w n)
    (hq : zig n >>> rice ≤ maxQ) (hr : r.rest = codeOf rice n ++ t) :
    golombRiceDecodeOneFrom r rice w maxQ = .ok (n, r.advance (codeOf rice n).length) := by
  have hrem : zig n % 2 ^ rice < 2 ^ rice := Nat.mod_lt _ (by positivity)
  have hlt := hB.join_lt hq hrem
  rw [golombRiceDecodeOneFrom_eq r w hB.rice_le hB.maxQ_lt, hr, codeOf, riceParse_riceCode hq hrem,
    decodeParsed, join_parts hrem (by omega), riceCode_length]
  rw [split_parts] at hlt ⊢
  rw [(zigzagDecode_ok_iff hlt).2 ⟨hB.width_pos, hB.width_le, hn.1, hn.2, (zag_zig n).symm⟩]
  rfl

/-- The coordinates a decode returns: in the zigzag width, within the quotient cap, and kept by the conversion. -/
def Reads (rice w maxQ : ℕ) (convert : ℤ → Result ℤ) (n : ℤ) : Prop :=
  InWidth w n ∧ zig n >>> rice ≤ maxQ ∧ convert n = .ok n

variable {convert : ℤ → Result ℤ}

/-- **What an accepted vector was read from**, when the conversion keeps what it passes. -/
theorem decodeLoop_sound (hB : Bounds rice w maxQ) (hconv : ∀ n m, convert n = .ok m → m = n) :
    ∀ (count : ℕ) (r r' : BitReader) (v : List ℤ), golombRiceDecodeLoop rice w maxQ convert count r = .ok (v, r') →
    (v.length = count ∧ ∀ n ∈ v, Reads rice w maxQ convert n) ∧ r' = r.advance (codesOf rice v).length ∧
      r.rest = codesOf rice v ++ r'.rest := by
  intro count
  induction count with
  | zero =>
    intro r r' v h
    obtain ⟨rfl, rfl⟩ := h
    exact ⟨by simp, rfl, rfl⟩
  | succ count ih =>
    intro r r' v h
    obtain ⟨⟨n, r1⟩, h1, h⟩ := bind_eq_ok.1 h
    obtain ⟨m, hm, h⟩ := bind_eq_ok.1 h
    obtain ⟨⟨v', r2⟩, h2, h⟩ := bind_eq_ok.1 h
    obtain ⟨rfl, rfl⟩ := h
    obtain rfl : m = n := hconv _ _ hm
    obtain ⟨⟨hn, hq⟩, hr1, hrest1⟩ := decodeOne_sound hB h1
    obtain ⟨⟨hlen, hv⟩, hr2, hrest2⟩ := ih _ _ v' h2
    refine ⟨⟨by rw [length_cons, hlen], forall_mem_cons.2 ⟨⟨hn, hq, hm⟩, hv⟩⟩, ?_, ?_⟩
    · rw [hr2, hr1, advance_advance, codesOf_cons, length_append]
    · rw [hrest1, hrest2, codesOf_cons, append_assoc]

/-- **A vector within the quotient cap is read back from its codes.** -/
theorem decodeLoop_complete (hB : Bounds rice w maxQ) : ∀ (v : List ℤ) (r : BitReader) (t : List Bool),
    (∀ n ∈ v, Reads rice w maxQ convert n) → r.rest = codesOf rice v ++ t →
    golombRiceDecodeLoop rice w maxQ convert v.length r = .ok (v, r.advance (codesOf rice v).length) := by
  intro v
  induction v with
  | nil => intro r t _ _; rfl
  | cons n v ih =>
    intro r t hv hr
    rw [codesOf_cons, append_assoc] at hr
    obtain ⟨⟨hn, hq, hm⟩, hv⟩ := forall_mem_cons.1 hv
    rw [length_cons, golombRiceDecodeLoop, decodeOne_complete hB hn hq hr]
    have hr' : (r.advance (codeOf rice n).length).rest = codesOf rice v ++ t := by
      rw [rest_advance, hr, drop_left]
    simp only [ok_bind, hm, ih _ t hv hr', codesOf_cons, length_append, advance_advance]
    rfl

/-! ## Encoding -/

theorem encodeOne_ok (rice : ℕ) (hr : w ≤ 63) (hw : 1 ≤ w) {wr : BitWriter} (h : Holds wr l) (hn : InWidth w n) :
    ∃ wr', golombRiceEncodeOneInto wr n rice w = .ok wr' ∧ Holds wr' (l ++ codeOf rice n) := by
  have hz := zigzagEncode_ok_iff.2 ⟨hw, hr, hn.1, hn.2, rfl⟩
  unfold golombRiceEncodeOneInto
  rw [hz]
  refine ⟨_, rfl, ?_⟩
  by_cases h0 : rice = 0
  · subst h0
    have hc : codeOf 0 n = replicate (zig n) true ++ [false] := by simp [codeOf, riceCode, natBits]
    simp only [if_true, hc, ← append_assoc]
    exact (h.writeOnes _).writeBit false
  · have hc : codeOf rice n = replicate (zig n >>> rice) true ++ [false] ++
        natBits rice (zig n % 2 ^ rice) := by simp [codeOf, riceCode]
    simp only [if_neg h0, hc, Nat.and_two_pow_sub_one_eq_mod, ← append_assoc]
    exact ((h.writeOnes _).writeBit false).writeBits _ _

/-- **Encoding succeeds on the zigzag range and writes the codes, padded.** -/
theorem encodeVec_ok (rice : ℕ) (hr : w ≤ 63) (hw : 1 ≤ w) (hv : ∀ n ∈ v, InWidth w n) :
    ∃ b, golombRiceEncodeVec v rice w = .ok b ∧ bits b = codesOf rice v ++ padding (codesOf rice v).length := by
  have key : ∀ (v : List ℤ) (wr : BitWriter) (l : List Bool), (∀ n ∈ v, InWidth w n) → Holds wr l →
      ∃ wr', v.foldlM (fun wr n => golombRiceEncodeOneInto wr n rice w) wr = .ok wr' ∧
        Holds wr' (l ++ codesOf rice v) := by
    intro v
    induction v with
    | nil => intro wr l _ h; exact ⟨wr, rfl, by simpa [codesOf] using h⟩
    | cons n v ih =>
      intro wr l hv h
      obtain ⟨wr1, h1, hh1⟩ := encodeOne_ok rice hr hw h (hv n mem_cons_self)
      obtain ⟨wr2, h2, hh2⟩ := ih wr1 _ (fun m hm => hv m (mem_cons_of_mem _ hm)) hh1
      refine ⟨wr2, ?_, ?_⟩
      · rw [foldlM_cons, h1]; exact h2
      · rwa [codesOf_cons, ← append_assoc]
  obtain ⟨wr, h, hh⟩ := key v BitWriter.empty [] hv Holds.empty
  refine ⟨wr.bytes, ?_, by simpa using hh.bits_eq⟩
  unfold golombRiceEncodeVec
  rw [h]
  rfl

/-! ## The codec -/

/-- **What a byte string decodes to**: the vector whose codes its bits are, up to the padding. -/
theorem decodeVec_ok_iff (hB : Bounds rice w maxQ) (hconv : ∀ n m, convert n = .ok m → m = n) {b : List UInt8}
    {al : AlignTo b} {count : ℕ} : golombRiceDecodeVec b al count rice w maxQ convert = .ok v ↔
      (v.length = count ∧ ∀ n ∈ v, Reads rice w maxQ convert n) ∧
        bits b = codesOf rice v ++ padding (codesOf rice v).length := by
  constructor
  · intro h
    obtain ⟨⟨v', r⟩, hloop, h⟩ := bind_eq_ok.1 h
    obtain ⟨u, hpad, h⟩ := bind_eq_ok.1 h
    obtain rfl : v' = v := Except.ok.inj h
    obtain ⟨hv, hr, hrest⟩ := decodeLoop_sound hB hconv count _ r v' hloop
    have hpos : r.bitPos = (codesOf rice v').length := by rw [hr]; simp [BitReader.new]
    rw [← hpos, ← (consumePadding_ok_iff r).1 hpad]
    exact ⟨hv, hrest⟩
  · rintro ⟨⟨rfl, hv⟩, hbits⟩
    have hrest : (BitReader.new b al).rest = codesOf rice v ++ padding (codesOf rice v).length := hbits
    have hpad := (consumePadding_ok_iff ((BitReader.new b al).advance (codesOf rice v).length)).2 (by
      rw [rest_advance, hrest, drop_left, advance_bitPos]
      simp [BitReader.new])
    unfold golombRiceDecodeVec
    rw [decodeLoop_complete hB v _ _ hv hrest]
    simp only [ok_bind, hpad]
    rfl

theorem zigzagWidth_eq (hcap : cap < 2 ^ 62) : golombRiceZigzagWidth cap = cap.size + 1 := by
  unfold golombRiceZigzagWidth leadingZeros128
  have hs : cap.size ≤ 62 := Nat.size_le.2 hcap
  split
  · rename_i h; subst h; rfl
  · omega

theorem Bounds.of_cap (hcap : cap < 2 ^ 62) (hr : rice ≤ 63) : Bounds rice (golombRiceZigzagWidth cap) ((2 * cap) >>> rice) := by
  have hs : cap.size ≤ 62 := Nat.size_le.2 hcap
  rw [zigzagWidth_eq hcap]
  refine ⟨hr, by omega, by omega, ?_⟩
  -- `2 ^ 63` is a multiple of `2 ^ rice` above `2 * cap`
  rw [Nat.shiftRight_eq_div_pow]
  have hpow : (2 : ℕ) ^ 63 = 2 ^ (63 - rice) * 2 ^ rice := by rw [← pow_add]; congr 1; omega
  have hd : 2 * cap / 2 ^ rice < 2 ^ (63 - rice) := by
    rw [Nat.div_lt_iff_lt_mul (by positivity), ← hpow]; omega
  calc (2 * cap / 2 ^ rice + 1) * 2 ^ rice ≤ 2 ^ (63 - rice) * 2 ^ rice := Nat.mul_le_mul_right _ hd
    _ = 2 ^ 63 := hpow.symm
    _ ≤ 2 ^ 64 := by norm_num

theorem inWidth_of_cap (hcap : cap < 2 ^ 62) (h1 : -cap ≤ n) (h2 : n ≤ cap) : InWidth (golombRiceZigzagWidth cap) n := by
  have hlt : cap < 2 ^ cap.size := Nat.lt_size_self cap
  have hlt' : (cap : ℤ) < 2 ^ cap.size := by exact_mod_cast hlt
  rw [zigzagWidth_eq hcap]
  unfold InWidth
  rw [Nat.add_sub_cancel]
  exact ⟨by omega, by omega⟩

theorem zig_le_of_cap (h1 : -cap ≤ n) (h2 : n ≤ cap) : zig n ≤ 2 * cap := by
  unfold zig; split <;> omega

theorem maxQuotientForCap_eq (hcap : cap < 2 ^ 62) :
    golombRiceMaxQuotientForCap cap rice (golombRiceZigzagWidth cap) = .ok ((2 * cap) >>> rice) := by
  have hw := zigzagWidth_eq hcap
  have hs : cap.size ≤ 62 := Nat.size_le.2 hcap
  have hin := inWidth_of_cap hcap (n := cap) (by omega) le_rfl
  have hz : zigzagEncode cap (golombRiceZigzagWidth cap) = .ok (2 * cap) :=
    zigzagEncode_ok_iff.2 ⟨by omega, by omega, hin.1, hin.2, by simp [zig]⟩
  unfold golombRiceMaxQuotientForCap golombRiceQuotientForCoord
  rw [if_pos (by omega), hz]
  by_cases h0 : rice = 0
  · simp [h0]
  · simp [h0]

/-- **The tail codec is a bijection on its accepted set.** For every cap below `2 ^ 62` and
every remainder width, at the width and quotient cap the cap determines: every vector within
the cap encodes and decodes back to itself, at every alignment of the encoded bytes; and
every byte string that decodes is the encoding of what it decodes to. -/
theorem golombRice_codec (cap rice : ℕ) (hcap : cap < 2 ^ 62) (hrice : rice ≤ 63) :
    ∃ maxQ, golombRiceMaxQuotientForCap cap rice (golombRiceZigzagWidth cap) = .ok maxQ ∧
      (∀ v : List ℤ, (∀ n ∈ v, -(cap : ℤ) ≤ n ∧ n ≤ cap) →
        ∃ b, golombRiceEncodeVec v rice (golombRiceZigzagWidth cap) = .ok b ∧
          ∀ al : AlignTo b, golombRiceDecodeVec b al v.length rice (golombRiceZigzagWidth cap) maxQ .ok = .ok v) ∧
      (∀ (b : List UInt8) (al : AlignTo b) (count : ℕ) (v : List ℤ),
        golombRiceDecodeVec b al count rice (golombRiceZigzagWidth cap) maxQ .ok = .ok v →
        golombRiceEncodeVec v rice (golombRiceZigzagWidth cap) = .ok b) := by
  have hB := Bounds.of_cap hcap hrice
  refine ⟨_, maxQuotientForCap_eq hcap, ?_, ?_⟩
  · intro v hv
    have hin : ∀ n ∈ v, InWidth (golombRiceZigzagWidth cap) n := fun n hn =>
      inWidth_of_cap hcap (hv n hn).1 (hv n hn).2
    obtain ⟨b, hb, hbits⟩ := encodeVec_ok rice hB.width_le hB.width_pos hin
    refine ⟨b, hb, fun al => (decodeVec_ok_iff hB fun _ _ => (Except.ok.inj ·.symm)).2 ⟨⟨rfl, fun n hn => ⟨hin n hn, ?_, rfl⟩⟩, hbits⟩⟩
    rw [Nat.shiftRight_eq_div_pow, Nat.shiftRight_eq_div_pow]
    exact Nat.div_le_div_right (zig_le_of_cap (hv n hn).1 (hv n hn).2)
  · intro b al count v h
    obtain ⟨⟨-, hv⟩, hb⟩ := (decodeVec_ok_iff hB fun _ _ => (Except.ok.inj ·.symm)).1 h
    obtain ⟨b', hb', hbits⟩ := encodeVec_ok rice hB.width_le hB.width_pos fun n hn => (hv n hn).1
    rw [hb', bits_injective (hb.trans hbits.symm)]

theorem golombRice_codec_cap_five : golombRiceMaxQuotientForCap 5 1 (golombRiceZigzagWidth 5) = .ok 5 ∧
      ∃ b, golombRiceEncodeVec [3, -5, 0] 1 (golombRiceZigzagWidth 5) = .ok b ∧
        ∀ al : AlignTo b, golombRiceDecodeVec b al 3 1 (golombRiceZigzagWidth 5) 5 .ok = .ok [3, -5, 0] := by
  have hq : golombRiceMaxQuotientForCap 5 1 (golombRiceZigzagWidth 5) = .ok 5 := by decide
  obtain ⟨maxQ, hmax, henc, -⟩ := golombRice_codec 5 1 (by norm_num) (by norm_num)
  obtain rfl : (5 : ℕ) = maxQ := Except.ok.inj (hq.symm.trans hmax)
  exact ⟨hq, henc [3, -5, 0] (by decide)⟩

end

/-!
## Word windows read what a bit-by-bit decoder reads

* `readOnesBitwise_eq`, `readBitsBitwise_eq`: unary and fixed-width reads one bit at a time, in the
  closed form that `readUnaryOnes_eq` and `readBits_eq` give for the windowed ones.
* `readBitsInPlace_eq`: `read_bits` moves the cursor by what it returned, and leaves it on failure.
* `golombRiceDecodeOneFrom_bitwise`: one code, at every alignment of the bytes and every cursor.
-/

theorem run_true (t : List Bool) : run (true :: t) = run t + 1 := by simp [run]

theorem run_false (t : List Bool) : run (false :: t) = 0 := by simp [run]

theorem BitReader.remainingBits_advance (r : BitReader) (n : ℕ) :
    (r.advance n).remainingBits = r.remainingBits - n := by
  unfold remainingBits
  rw [advance_bitPos]
  simp only [advance]
  omega

theorem BitReader.readBit_cases (r : BitReader) : (r.remainingBits = 0 ∧ r.readBit = .error .invalidProof) ∨
      ∃ bit t, r.rest = bit :: t ∧ r.readBit = .ok (bit, r.advance 1) ∧ (r.advance 1).rest = t ∧
        r.remainingBits = (r.advance 1).remainingBits + 1 := by
  have hread := readBit_eq r
  cases hrest : r.rest with
  | nil =>
    rw [hrest] at hread
    exact .inl ⟨by rw [← rest_length, hrest, List.length_nil], hread⟩
  | cons bit t =>
    rw [hrest] at hread
    have htail : (r.advance 1).rest = t := by rw [rest_advance, hrest, List.drop_one, List.tail_cons]
    refine .inr ⟨bit, t, rfl, hread, htail, ?_⟩
    rw [← rest_length, ← rest_length, htail, hrest, List.length_cons]

/-- **Unary ones, bit by bit.** The induction is on the cap: each one read spends one of it. -/
theorem readOnesBitwise_eq : ∀ (cap : ℕ) (r : BitReader), readOnesBitwise cap r =
    if run r.rest ≤ cap ∧ run r.rest < r.remainingBits then .ok (run r.rest, r.advance (run r.rest + 1))
    else .error .invalidProof := by
  intro cap
  induction cap with
  | zero =>
    intro r
    rw [readOnesBitwise]
    rcases r.readBit_cases with ⟨h0, hread⟩ | ⟨bit, t, hrest, hread, -, hrem⟩
    · rw [hread, if_neg (by omega)]
      rfl
    · rw [hread, hrest]
      cases bit with
      | false =>
        rw [run_false, if_pos ⟨le_rfl, by omega⟩]
        rfl
      | true =>
        rw [run_true, if_neg (by omega)]
        rfl
  | succ cap ih =>
    intro r
    rw [readOnesBitwise]
    rcases r.readBit_cases with ⟨h0, hread⟩ | ⟨bit, t, hrest, hread, htail, hrem⟩
    · rw [hread, if_neg (by omega)]
      rfl
    · rw [hread, hrest]
      simp only [ok_bind]
      cases bit with
      | false =>
        rw [if_neg Bool.false_ne_true, run_false, if_pos ⟨Nat.zero_le _, by omega⟩]
        rfl
      | true =>
        rw [if_pos rfl, ih, htail, run_true]
        by_cases hfits : run t ≤ cap ∧ run t < (r.advance 1).remainingBits
        · rw [if_pos hfits, if_pos ⟨by omega, by omega⟩]
          simp only [ok_bind, BitReader.advance_advance, add_comm 1]
          rfl
        · rw [if_neg hfits, if_neg (by omega)]
          rfl

/-- **Remainder bits, bit by bit.** -/
theorem readBitsBitwise_eq : ∀ (count : ℕ) (r : BitReader), readBitsBitwise count r =
    if count ≤ r.remainingBits then .ok (bitsValue (r.rest.take count), r.advance count)
    else .error .invalidProof := by
  intro count
  induction count with
  | zero =>
    intro r
    rw [readBitsBitwise, if_pos (Nat.zero_le _), List.take_zero, bitsValue, BitReader.advance_zero]
  | succ count ih =>
    intro r
    rw [readBitsBitwise]
    rcases r.readBit_cases with ⟨h0, hread⟩ | ⟨bit, t, hrest, hread, htail, hrem⟩
    · rw [hread, if_neg (by omega)]
      rfl
    · rw [hread, hrest]
      simp only [ok_bind]
      rw [ih, htail]
      by_cases hfits : count ≤ (r.advance 1).remainingBits
      · rw [if_pos hfits, if_pos (by omega), List.take_succ_cons, bitsValue, add_comm count 1]
        simp only [ok_bind, BitReader.advance_advance]
        rfl
      · rw [if_neg hfits, if_neg (by omega)]
        rfl

/-- **`read_bits` and its cursor**: the next bits and a cursor behind them, or the cursor as it was. -/
theorem readBitsInPlace_eq (r : BitReader) {count : ℕ} (hc : count ≤ 63) : r.readBitsInPlace count =
    if count ≤ r.remainingBits then (.ok (bitsValue (r.rest.take count)), r.advance count)
    else (.error .invalidProof, r) := by
  have hvalue := r.readBits_eq hc
  unfold BitReader.readBits at hvalue
  unfold BitReader.readBitsInPlace
  by_cases h0 : count = 0
  · rw [if_pos h0] at hvalue ⊢
    rw [if_pos (by omega), Except.ok.injEq, Prod.mk.injEq] at hvalue
    rw [if_pos (by omega), ← hvalue.1, ← hvalue.2]
  rw [if_neg h0, if_neg (by omega)] at hvalue ⊢
  by_cases hshort : r.remainingBits < count
  · rw [if_pos hshort, if_neg (by omega)]
  rw [if_neg hshort, if_pos (by omega)] at hvalue ⊢
  cases hw : r.wordWindow count with
  | some word =>
    rw [hw] at hvalue
    simp only [Except.ok.injEq, Prod.mk.injEq] at hvalue
    simp only [← hvalue.1]
    rfl
  | none =>
    rw [hw] at hvalue
    simp only [Except.ok.injEq, Prod.mk.injEq] at hvalue
    -- the bits wanted are there, so their bytes are
    have hbytes : (r.bitPos + count + 7) / 8 ≤ r.bytes.length := by
      unfold BitReader.remainingBits at hshort
      omega
    simp only [if_pos hbytes, ← hvalue.1]
    rfl

theorem golombRiceDecodeBitwise_eq {rice : ℕ} (r : BitReader) (w maxQ : ℕ) (hr : rice ≤ 63) :
    golombRiceDecodeBitwise r rice w maxQ = decodeParsed r rice w (riceParse rice maxQ r.rest) := by
  unfold golombRiceDecodeBitwise riceParse
  rw [readOnesBitwise_eq, BitReader.rest_length]
  by_cases hones : run r.rest ≤ maxQ ∧ run r.rest < r.remainingBits
  · rw [if_pos hones]
    simp only [ok_bind]
    rw [readBitsBitwise_eq, BitReader.remainingBits_advance, BitReader.rest_advance]
    by_cases hrem : run r.rest + 1 + rice ≤ r.remainingBits
    · rw [if_pos (by omega), if_pos ⟨hones.1, hrem⟩]
      -- the remainder lies below the word size, so cutting the word does not touch it
      have hword : bitsValue ((r.rest.drop (run r.rest + 1)).take rice) < 2 ^ 64 :=
        lt_of_lt_of_le (bitsValue_lt _) (Nat.pow_le_pow_right (by omega) (by rw [List.length_take]; omega))
      have hjoin : wrapping 64 (run r.rest <<< rice ||| bitsValue ((r.rest.drop (run r.rest + 1)).take rice)) =
          wrapping 64 (run r.rest <<< rice) ||| bitsValue ((r.rest.drop (run r.rest + 1)).take rice) := by
        rw [wrapping, Nat.or_mod_two_pow, Nat.mod_eq_of_lt hword, wrapping]
      simp only [ok_bind, hjoin, decodeParsed, BitReader.advance_advance]
    · rw [if_neg (by omega), if_neg (by omega)]
      rfl
  · rw [if_neg hones, if_neg (by omega)]
    rfl

/-- **Windows read what single bits read.** At every alignment, cursor, remainder width up to 63, zigzag
width and 64-bit quotient cap, one code decodes to the value and the cursor that the bit-by-bit decoder
ends with, or both fail; and a fixed-width read up to 63 bits returns the value of the next bits and moves
past them, or fails and does not move. -/
theorem golombRiceDecodeOneFrom_bitwise (r : BitReader) (rice zigzagW : ℕ) (maxQuotient : UInt64) (hrice : rice ≤ 63) :
    golombRiceDecodeOneFrom r rice zigzagW maxQuotient.toNat =
        golombRiceDecodeBitwise r rice zigzagW maxQuotient.toNat ∧ ∀ count ≤ 63, r.readBitsInPlace count =
        if r.bitPos + count ≤ 8 * r.bytes.length ∨ count = 0 then
          (.ok (bitsValue (((bits r.bytes).drop r.bitPos).take count)), { r with bitPos := r.bitPos + count })
        else (.error .invalidProof, r) := by
  constructor
  · rw [golombRiceDecodeOneFrom_eq r zigzagW hrice maxQuotient.toNat_lt, golombRiceDecodeBitwise_eq r zigzagW _ hrice]
  · intro count hcount
    rw [readBitsInPlace_eq r hcount]
    have hiff : count ≤ r.remainingBits ↔ r.bitPos + count ≤ 8 * r.bytes.length ∨ count = 0 := by
      unfold BitReader.remainingBits
      omega
    simp only [hiff]
    rfl

/-- Nine bytes, three of them before the aligned word: a code that starts inside the word. -/
def sampleReader : BitReader where
  bytes := [0xff, 0x03, 0x00, 0x2b, 0, 0, 0, 0, 0, 0, 0x80]
  bitPos := 24
  aligned := { prefixLen := 3, wordCount := 1, fits := by decide }

theorem golombRiceDecodeOneFrom_bitwise_sample :
    golombRiceDecodeOneFrom sampleReader 3 9 (7 : UInt64).toNat = golombRiceDecodeBitwise sampleReader 3 9 (7 : UInt64).toNat ∧
      ∀ count ≤ 63, sampleReader.readBitsInPlace count =
        if sampleReader.bitPos + count ≤ 8 * sampleReader.bytes.length ∨ count = 0 then
          (.ok (bitsValue (((bits sampleReader.bytes).drop sampleReader.bitPos).take count)),
            { sampleReader with bitPos := sampleReader.bitPos + count })
        else (.error .invalidProof, sampleReader) :=
  golombRiceDecodeOneFrom_bitwise sampleReader 3 9 7 (by decide)

end Akita.GolombRice
