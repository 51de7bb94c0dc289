import Akita.Spec.GolombRice

/-!
# The bit reader and the bit writer

A cursor is described by the bits it has not read (`BitReader.rest`). Each read is
computed from them, whichever path it takes:

* `wordWindow_spec`: the word window, at any alignment, holds the next bits.
* `readBits_eq`, `readUnaryOnes_eq`, `readBit_eq`: fixed-width, unary and single-bit
  reads in closed form.
* `consumePadding_ok_iff`: the padding check accepts exactly zeros to the byte
  boundary and nothing after.
* `Holds`: what a writer has written, kept by every write.
-/

namespace Akita.GolombRice

open Lib List BitReader

variable {l : List Bool} {k maxQ : ℕ} {wr : BitWriter}

/-- The length of the leading run of ones. -/
def run (l : List Bool) : ℕ := (l.takeWhile id).length

theorem le_takeWhile_length_iff {α : Type*} (p : α → Bool) : ∀ (l : List α) (k : ℕ),
    k ≤ (l.takeWhile p).length ↔ ∀ i < k, ∃ a, l[i]? = some a ∧ p a = true := by
  intro l
  induction l with
  | nil =>
    intro k
    rcases k with _ | k
    · simp
    · simp only [takeWhile_nil, length_nil, Nat.le_zero, Nat.add_one_ne_zero, false_iff]
      intro h; obtain ⟨a, ha, -⟩ := h 0 (by omega); simp at ha
  | cons x l ih =>
    intro k
    rcases k with _ | k
    · simp
    by_cases hx : p x
    · rw [takeWhile_cons_of_pos hx, length_cons, Nat.add_le_add_iff_right, ih]
      constructor
      · intro h i hi
        rcases i with _ | i
        · exact ⟨x, rfl, hx⟩
        · exact h i (by omega)
      · intro h i hi
        exact h (i + 1) (by omega)
    · rw [takeWhile_cons_of_neg hx]
      simp only [length_nil, Nat.le_zero, Nat.add_one_ne_zero, false_iff]
      intro h
      obtain ⟨a, ha, hpa⟩ := h 0 (by omega)
      simp only [getElem?_cons_zero, Option.some.injEq] at ha
      rw [ha] at hx
      exact hx hpa

theorem le_run_iff (l : List Bool) (k : ℕ) : k ≤ run l ↔ ∀ i < k, l[i]? = some true := by
  unfold run
  rw [le_takeWhile_length_iff]
  simp

/-- The leading ones among the low `n` bits of `x`. -/
def lowRun (n x : ℕ) : ℕ := ((List.range n).takeWhile x.testBit).length

theorem le_lowRun_iff (n x k : ℕ) : k ≤ lowRun n x ↔ k ≤ n ∧ ∀ i < k, x.testBit i = true := by
  unfold lowRun
  rw [le_takeWhile_length_iff]
  constructor
  · intro h
    have hk : k ≤ n := by
      by_contra hk
      obtain ⟨a, ha, -⟩ := h n (by omega)
      simp at ha
    refine ⟨hk, fun i hi => ?_⟩
    obtain ⟨a, ha, hpa⟩ := h i hi
    rw [getElem?_range (by omega)] at ha
    cases ha
    exact hpa
  · rintro ⟨hk, h⟩ i hi
    exact ⟨i, getElem?_range (by omega), h i hi⟩

theorem le_trailingOnes_iff (w k : ℕ) :
    k ≤ trailingOnes w ↔ k ≤ 64 ∧ ∀ i < k, w.testBit i = true := le_lowRun_iff 64 w k

theorem run_drop (h : k ≤ run l) : run (l.drop k) = run l - k := by
  have key : ∀ j, j ≤ run (l.drop k) ↔ j ≤ run l - k := by
    intro j
    rw [le_run_iff]
    constructor
    · intro hj
      have : k + j ≤ run l := by
        rw [le_run_iff]
        intro i hi
        rcases lt_or_ge i k with hik | hik
        · exact (le_run_iff l k).1 h i hik
        · have := hj (i - k) (by omega)
          rwa [getElem?_drop, Nat.add_sub_cancel' hik] at this
      omega
    · intro hj i hi
      rw [getElem?_drop]
      exact (le_run_iff l (run l)).1 le_rfl _ (by omega)
  exact le_antisymm ((key _).1 le_rfl) ((key _).2 le_rfl)

namespace BitReader

variable {r : BitReader}

def rest (r : BitReader) : List Bool := (bits r.bytes).drop r.bitPos

@[simp] theorem advance_bytes (r : BitReader) (n : ℕ) : (r.advance n).bytes = r.bytes := rfl

@[simp] theorem advance_bitPos (r : BitReader) (n : ℕ) : (r.advance n).bitPos = r.bitPos + n := rfl

@[simp] theorem advance_advance (r : BitReader) (m n : ℕ) : (r.advance m).advance n = r.advance (m + n) := by
  simp [advance, add_assoc]

theorem advance_zero (r : BitReader) : r.advance 0 = r := rfl

theorem rest_advance (r : BitReader) (n : ℕ) : (r.advance n).rest = r.rest.drop n := by
  simp [rest, drop_drop]

theorem rest_length (r : BitReader) : r.rest.length = r.remainingBits := by
  simp [rest, remainingBits, mul_comm]

theorem rest_getElem? (r : BitReader) (i : ℕ) :
    r.rest[i]? = if i < r.remainingBits then some (bitAt r.bytes (r.bitPos + i)) else none := by
  rw [rest, getElem?_drop, bits_getElem?]
  unfold remainingBits
  split <;> split <;> first | rfl | omega

theorem alignedWord_spec {i w : ℕ} (h : r.alignedWord i = some w) :
    w < 2 ^ 64 ∧ 8 * r.aligned.prefixLen + 64 * (i + 1) ≤ 8 * r.bytes.length ∧
      ∀ j < 64, w.testBit j = bitAt r.bytes (8 * r.aligned.prefixLen + 64 * i + j) := by
  unfold alignedWord at h
  split at h
  · rename_i hi
    cases h
    have hf := r.aligned.fits
    have hlen : ((r.bytes.drop (r.aligned.prefixLen + 8 * i)).take 8).length = 8 := by
      simp; omega
    refine ⟨?_, by omega, fun j hj => ?_⟩
    · have := leValue_lt ((r.bytes.drop (r.aligned.prefixLen + 8 * i)).take 8)
      rwa [hlen] at this
    · rw [testBit_leValue, bitAt_take_drop _ (by omega)]
      congr 1
      ring
  · simp at h

theorem wordWindow_spec {count w : ℕ} (hc : count ≤ 64) (h : r.wordWindow count = some w) :
    count ≤ r.remainingBits ∧ ∀ i < count, r.rest[i]? = some (w.testBit i) := by
  unfold wordWindow at h
  simp only [option_some, checkedSub_eq_some] at h
  obtain ⟨offset, ⟨hle, rfl⟩, low, hlow, h⟩ := h
  obtain ⟨hl1, hl2, hl3⟩ := alignedWord_spec hlow
  set offset := r.bitPos - r.aligned.prefixLen * 8
  -- it is enough to find the bits in memory
  suffices hs : r.bitPos + count ≤ 8 * r.bytes.length ∧ ∀ i < count, w.testBit i = bitAt r.bytes (r.bitPos + i) by
    have hrem : count ≤ r.remainingBits := by unfold remainingBits; omega
    refine ⟨hrem, fun i hi => ?_⟩
    rw [rest_getElem?, if_pos (by omega), hs.2 i hi]
  split at h
  · rename_i hsc
    cases h
    refine ⟨by omega, fun i hi => ?_⟩
    rw [Nat.testBit_shiftRight, hl3 _ (by omega)]
    congr 1; omega
  · rename_i hsc
    rw [Option.bind_eq_some_iff] at h
    obtain ⟨high, hhigh, h⟩ := h
    obtain ⟨hh1, hh2, hh3⟩ := alignedWord_spec hhigh
    cases h
    refine ⟨by omega, fun i hi => ?_⟩
    rw [Nat.testBit_or, Nat.testBit_shiftRight, wrapping, Nat.testBit_mod_two_pow, Nat.testBit_shiftLeft]
    rcases lt_or_ge i (64 - offset % 64) with hi' | hi'
    · rw [hl3 _ (by omega)]
      have : ¬ (64 - offset % 64 ≤ i) := by omega
      simp only [this, decide_false, Bool.false_and, Bool.and_false, Bool.or_false]
      congr 1; omega
    · have hlz : low.testBit (offset % 64 + i) = false :=
        Nat.testBit_lt_two_pow (lt_of_lt_of_le hl1 (Nat.pow_le_pow_right (by omega) (by omega)))
      rw [hlz, hh3 _ (by omega)]
      have h1 : i < 64 := by omega
      simp only [h1, decide_true, Bool.true_and, ge_iff_le, hi', Bool.false_or]
      congr 1; omega

theorem value_eq_of_testBit {v : ℕ} (hv : v < 2 ^ k) (h : ∀ i < k, l[i]? = some (v.testBit i)) : v = bitsValue (l.take k) := by
  apply Nat.eq_of_testBit_eq
  intro i
  rw [testBit_bitsValue, getD_eq_getElem?_getD, getElem?_take]
  split
  · rename_i hi; rw [h i hi]; rfl
  · rename_i hi
    rw [Nat.testBit_lt_two_pow (lt_of_lt_of_le hv (Nat.pow_le_pow_right (by omega) (by omega)))]
    rfl

theorem and_mask_lt (x k : ℕ) : x &&& (2 ^ k - 1) < 2 ^ k := by
  rw [Nat.and_two_pow_sub_one_eq_mod]; exact Nat.mod_lt _ (by positivity)

theorem readBits_eq (r : BitReader) {count : ℕ} (hc : count ≤ 63) : r.readBits count = if count ≤ r.remainingBits then
      .ok (bitsValue (r.rest.take count), r.advance count) else .error .invalidProof := by
  unfold readBits
  split
  · rename_i h0; subst h0; simp [bitsValue, advance_zero]
  rw [if_neg (by omega)]
  split
  · rw [if_neg (by omega)]
  rename_i h0 hrem
  rw [if_pos (by omega)]
  cases hw : r.wordWindow count with
  | some word =>
    simp only
    obtain ⟨-, hbits⟩ := wordWindow_spec (by omega) hw
    rw [← value_eq_of_testBit (and_mask_lt word count)]
    intro i hi
    rw [hbits i hi, Nat.testBit_and, Nat.testBit_two_pow_sub_one]
    simp [hi]
  | none =>
    simp only
    rw [← value_eq_of_testBit (and_mask_lt _ count)]
    intro i hi
    rw [rest_getElem?, if_pos (by omega), Nat.testBit_and, Nat.testBit_two_pow_sub_one,
      Nat.testBit_shiftRight, testBit_leValue, bitAt_take_drop _ (by omega)]
    simp only [hi, decide_true, Bool.and_true, Option.some.injEq]
    congr 1; omega

end BitReader

/-- The ones left in the cursor's byte are the leading run, cut at the byte boundary. -/
theorem byte_run (r : BitReader) {byte : UInt8} (hb : r.bytes[r.bitPos / 8]? = some byte) :
    min (trailingOnes (byte.toNat >>> (r.bitPos % 8))) (8 - r.bitPos % 8) = min (run r.rest) (8 - r.bitPos % 8) := by
  have hlen : r.bitPos / 8 < r.bytes.length := (List.getElem?_eq_some_iff.1 hb).1
  have hbit : ∀ i < 8 - r.bitPos % 8, r.rest[i]? = some ((byte.toNat >>> (r.bitPos % 8)).testBit i) := by
    intro i hi
    rw [rest_getElem?, if_pos (by unfold remainingBits; omega),
      Nat.testBit_shiftRight, bitAt, List.getD_eq_getElem?_getD,
      show (r.bitPos + i) / 8 = r.bitPos / 8 by omega, hb,
      show (r.bitPos + i) % 8 = r.bitPos % 8 + i by omega]
    rfl
  have key : ∀ k, k ≤ min (trailingOnes (byte.toNat >>> (r.bitPos % 8))) (8 - r.bitPos % 8) ↔
      k ≤ min (run r.rest) (8 - r.bitPos % 8) := by
    intro k
    rw [le_min_iff, le_min_iff, le_trailingOnes_iff, le_run_iff]
    constructor
    · rintro ⟨⟨-, h⟩, hk⟩
      exact ⟨fun i hi => by rw [hbit i (by omega), h i hi], hk⟩
    · rintro ⟨h, hk⟩
      refine ⟨⟨by omega, fun i hi => ?_⟩, hk⟩
      have := h i hi
      rw [hbit i (by omega)] at this
      exact Option.some.inj this
  exact le_antisymm ((key _).1 le_rfl) ((key _).2 le_rfl)

/-- The unary loop reads the leading run of ones and its stop bit. The induction is on the
rounds left: a round that does not return has used up the rest of a byte. -/
theorem readUnaryOnesLoop_eq (hmax : maxQ < 2 ^ 64) : ∀ (fuel : ℕ) (r : BitReader) (quo : ℕ),
    r.bytes.length < fuel + r.bitPos / 8 → quo ≤ maxQ →
    readUnaryOnesLoop maxQ fuel r quo =
      if quo + run r.rest ≤ maxQ ∧ run r.rest < r.remainingBits then
        .ok (quo + run r.rest, r.advance (run r.rest + 1)) else .error .invalidProof := by
  intro fuel
  induction fuel with
  | zero =>
    intro r quo hf hq
    have h0 : r.remainingBits = 0 := by unfold remainingBits; omega
    simp [readUnaryOnesLoop, h0]
  | succ fuel ih =>
    intro r quo hf hq
    rw [readUnaryOnesLoop]
    split
    · rename_i h0; simp [h0]
    rename_i h0
    have hlt : r.bitPos / 8 < r.bytes.length := by
      unfold remainingBits at h0; omega
    have hb : r.bytes[r.bitPos / 8]? = some r.bytes[r.bitPos / 8] := getElem?_eq_getElem hlt
    have hones := byte_run r hb
    have hav : 8 - r.bitPos % 8 ≤ r.remainingBits := by unfold remainingBits; omega
    rw [hb]
    simp only [hones]
    set ones := min (run r.rest) (8 - r.bitPos % 8) with hdef
    have hle : ones ≤ run r.rest := min_le_left _ _
    by_cases hov : quo + ones < 2 ^ 64
    · rw [checkedAdd, if_pos hov]
      simp only
      split
      · rename_i hgt
        rw [if_neg (by omega)]
      rename_i hle'
      split
      · rename_i hstop
        have hr : run r.rest = ones := by omega
        rw [hr, if_pos ⟨by omega, by omega⟩, advance_advance]
      · rename_i hfull
        have hon : ones = 8 - r.bitPos % 8 := by omega
        rw [ih _ _ (by simp; omega) (by omega), rest_advance, run_drop hle]
        have hrem : (r.advance ones).remainingBits = r.remainingBits - ones := by
          simp [remainingBits]; omega
        rw [hrem, advance_advance, show quo + ones + (run r.rest - ones) = quo + run r.rest by omega,
          show ones + (run r.rest - ones + 1) = run r.rest + 1 by omega]
        by_cases hc : quo + run r.rest ≤ maxQ ∧ run r.rest < r.remainingBits
        · rw [if_pos hc, if_pos ⟨hc.1, by omega⟩]
        · rw [if_neg hc, if_neg (by omega)]
    · rw [checkedAdd, if_neg hov, if_neg (by omega)]

theorem readUnaryOnes_eq (hmax : maxQ < 2 ^ 64) (r : BitReader) :
    r.readUnaryOnes maxQ = if run r.rest ≤ maxQ ∧ run r.rest < r.remainingBits then
      .ok (run r.rest, r.advance (run r.rest + 1)) else .error .invalidProof := by
  have h := readUnaryOnesLoop_eq hmax (r.bytes.length + 1) r 0 (by omega) (Nat.zero_le _)
  rwa [zero_add] at h

/-! ## Padding -/

/-- Zero bits to the next byte boundary. -/
def padding (k : ℕ) : List Bool := List.replicate ((8 - k % 8) % 8) false

theorem readBit_eq (r : BitReader) : r.readBit =
    match r.rest with
    | [] => .error .invalidProof
    | b :: _ => .ok (b, r.advance 1) := by
  have h0 := rest_getElem? r 0
  have hl := rest_length r
  unfold readBit
  unfold remainingBits at h0 hl
  cases hrest : r.rest with
  | nil => rw [hrest] at hl; simp only [length_nil] at hl; rw [if_pos (by omega)]
  | cons b t =>
    rw [hrest] at hl h0
    simp only [length_cons] at hl
    rw [if_neg (by omega), getElem?_eq_getElem (show r.bitPos / 8 < r.bytes.length by omega)]
    rw [if_pos (by omega), getElem?_cons_zero, Option.some.injEq, add_zero, bitAt,
      getD_eq_getElem _ _ (show r.bitPos / 8 < r.bytes.length by omega)] at h0
    simp only [h0, Nat.testBit, Nat.and_comm _ 1, Except.ok.injEq, Prod.mk.injEq, and_true]
    rw [Nat.one_and_eq_mod_two]
    rcases Nat.mod_two_eq_zero_or_one (r.bytes[r.bitPos / 8].toNat >>> (r.bitPos % 8)) with h | h <;>
      simp [h]

theorem consumeZeroBits_ok_iff : ∀ (n : ℕ) (r r' : BitReader), consumeZeroBits n r = .ok r' ↔
    r' = r.advance n ∧ r.rest = replicate n false ++ r'.rest := by
  intro n
  induction n with
  | zero =>
    intro r r'
    simp only [consumeZeroBits, Except.ok.injEq, replicate_zero, nil_append]
    constructor
    · rintro rfl; exact ⟨rfl, rfl⟩
    · rintro ⟨rfl, -⟩; rfl
  | succ n ih =>
    intro r r'
    rw [consumeZeroBits, readBit_eq]
    cases hrest : r.rest with
    | nil => simp [bind, Except.bind, replicate_succ]
    | cons b t =>
      have ht : (r.advance 1).rest = t := by rw [rest_advance, hrest]; rfl
      simp only [bind, Except.bind]
      cases b with
      | true => simp [replicate_succ]
      | false =>
        simp only [Bool.false_eq_true, if_false]
        rw [ih, ht, advance_advance, add_comm 1 n, replicate_succ, cons_append]
        simp

theorem consumePadding_ok_iff (r : BitReader) :
    golombRiceConsumeCanonicalPadding r = .ok () ↔ r.rest = padding r.bitPos := by
  unfold golombRiceConsumeCanonicalPadding padding
  set k := (8 - r.bitPos % 8) % 8
  constructor
  · intro h
    cases h1 : consumeZeroBits k r with
    | error e => rw [h1] at h; simp [bind, Except.bind] at h
    | ok r' =>
      rw [h1] at h
      simp only [bind, Except.bind] at h
      obtain ⟨-, hrest⟩ := (consumeZeroBits_ok_iff k r r').1 h1
      split at h
      · simp at h
      · rename_i h0
        have hnil : r'.rest = [] := length_eq_zero_iff.1 (by rw [rest_length]; omega)
        rw [hrest, hnil, append_nil]
  · intro h
    have hnil : (r.advance k).rest = [] := by rw [rest_advance, h]; simp
    rw [(consumeZeroBits_ok_iff k r (r.advance k)).2 ⟨rfl, by rw [h, hnil, append_nil]⟩]
    have h0 : (r.advance k).remainingBits = 0 := by rw [← rest_length, hnil]; rfl
    simp [bind, Except.bind, h0]

/-! ## The writer -/

/-- The writer holds exactly the bits `l`, and zeros up to the byte boundary. -/
structure Holds (wr : BitWriter) (l : List Bool) : Prop where
  pos : wr.bitPos = l.length
  len : wr.bytes.length = (l.length + 7) / 8
  bit : ∀ p, bitAt wr.bytes p = l.getD p false

theorem Holds.empty : Holds BitWriter.empty [] := ⟨rfl, rfl, fun p => by simp [BitWriter.empty, bitAt]⟩

theorem bitAt_append_zero (bs : List UInt8) (p : ℕ) : bitAt (bs ++ [0]) p = bitAt bs p := by
  unfold bitAt
  congr 2
  rw [getD_eq_getElem?_getD, getD_eq_getElem?_getD, getElem?_append]
  split
  · rfl
  · rename_i h
    rw [getElem?_eq_none (Nat.not_lt.1 h)]
    rcases hk : p / 8 - bs.length with _ | k <;> simp

theorem bitAt_modify (bs : List UInt8) (hk : k / 8 < bs.length) (p : ℕ) :
    bitAt (bs.modify (k / 8) fun byte => UInt8.ofNat (byte.toNat ||| (1 <<< (k % 8)))) p =
      (bitAt bs p || decide (p = k)) := by
  unfold bitAt
  rw [getD_eq_getElem?_getD, getD_eq_getElem?_getD, getElem?_modify]
  by_cases hb : k / 8 = p / 8
  · have hp : p / 8 < bs.length := by omega
    rw [getElem?_eq_getElem hp]
    simp only [hb, if_true, Option.map_eq_map, Option.map_some, Option.getD_some]
    have hlt : (bs[p / 8]).toNat ||| 1 <<< (k % 8) < 2 ^ 8 := by
      apply Nat.or_lt_two_pow (UInt8.toNat_lt _)
      rw [Nat.shiftLeft_eq, one_mul]
      exact Nat.pow_lt_pow_right (by norm_num) (by omega)
    rw [UInt8.toNat_ofNat_of_lt' (by simpa using hlt), Nat.testBit_or, Nat.shiftLeft_eq, one_mul, Nat.testBit_two_pow]
    congr 1
    rw [decide_eq_decide]
    omega
  · have hne : p ≠ k := by rintro rfl; exact hb rfl
    simp [hb, hne]

theorem getD_append_single (l : List Bool) (b : Bool) (p : ℕ) :
    (l ++ [b]).getD p false = (l.getD p false || (b && decide (p = l.length))) := by
  rw [getD_eq_getElem?_getD, getD_eq_getElem?_getD, getElem?_append]
  split
  · rename_i h
    have : p ≠ l.length := by omega
    simp [this]
  · rename_i h
    rw [getElem?_eq_none (Nat.not_lt.1 h)]
    rcases hk : p - l.length with _ | k
    · have : p = l.length := by omega
      simp [this]
    · have : p ≠ l.length := by omega
      simp [this]

theorem Holds.writeBit (h : Holds wr l) (b : Bool) : Holds (wr.writeBit b) (l ++ [b]) := by
  obtain ⟨hpos, hlen, hbit⟩ := h
  -- the byte the bit goes to is there, with all its bits unchanged
  set bytes := if wr.bitPos / 8 ≥ wr.bytes.length then wr.bytes ++ [0] else wr.bytes with hbytes
  have hbl : bytes.length = (l.length + 1 + 7) / 8 := by
    rw [hbytes]; split
    · rw [length_append, length_singleton]; omega
    · omega
  have hbb : ∀ p, bitAt bytes p = l.getD p false := by
    intro p
    rw [hbytes]; split
    · rw [bitAt_append_zero, hbit]
    · exact hbit p
  have hw : wr.writeBit b = ⟨if b then bytes.modify (wr.bitPos / 8)
      fun byte => UInt8.ofNat (byte.toNat ||| (1 <<< (wr.bitPos % 8))) else bytes, wr.bitPos + 1⟩ := rfl
  rw [hw]
  refine ⟨by simp [hpos], ?_, fun p => ?_⟩
  · rw [length_append, length_singleton, ← hbl]
    split
    · exact length_modify _ _ _
    · rfl
  · simp only
    rw [getD_append_single]
    cases b with
    | false => simpa using hbb p
    | true =>
      rw [if_pos rfl, bitAt_modify _ (by omega), hbb, hpos, Bool.true_and]

theorem Holds.writeOnes (h : Holds wr l) : ∀ q : ℕ,
    Holds ((fun w : BitWriter => w.writeBit true)^[q] wr) (l ++ replicate q true) := by
  intro q
  induction q with
  | zero => simpa using h
  | succ q ih =>
    rw [Function.iterate_succ_apply', replicate_succ', ← append_assoc]
    exact ih.writeBit true

theorem Holds.writeBits (h : Holds wr l) (value : ℕ) : ∀ count : ℕ,
    Holds (wr.writeBits value count) (l ++ natBits count value) := by
  intro count
  induction count with
  | zero => simpa [BitWriter.writeBits, natBits] using h
  | succ count ih =>
    unfold BitWriter.writeBits natBits at ih ⊢
    rw [range_succ, foldl_append, map_append, ← append_assoc]
    have hb : ((value >>> count) &&& 1 == 1) = value.testBit count := by
      simp only [Nat.testBit, Nat.and_comm _ 1, Nat.one_and_eq_mod_two]
      rcases Nat.mod_two_eq_zero_or_one (value >>> count) with h | h <;> simp [h]
    simp only [foldl_cons, foldl_nil, map_cons, map_nil, hb]
    exact ih.writeBit _

theorem Holds.bits_eq (h : Holds wr l) : bits wr.bytes = l ++ padding l.length := by
  apply ext_getElem?
  intro p
  rw [bits_getElem?, h.len, h.bit, getElem?_append, padding]
  by_cases hp : p < l.length
  · rw [if_pos (by omega), if_pos hp, getD_eq_getElem _ _ hp, getElem?_eq_getElem hp]
  · rw [if_neg hp, getElem?_replicate, getD_eq_default _ _ (Nat.not_lt.1 hp)]
    split <;> split <;> first | rfl | omega

end Akita.GolombRice
