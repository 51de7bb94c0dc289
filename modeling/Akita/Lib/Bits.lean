import Mathlib.Data.Nat.Bitwise
import Mathlib.Data.Nat.Size
import Akita.Lib.Numerals

/-!
# Bits of numbers and byte strings

Little-endian bits throughout: bit `p` of a byte string is bit `p % 8` of its byte
`p / 8`. A bit string and its value, the bits of a byte string, and the value of a
byte string as one number; each is described by its bits (`testBit`), so that two
readings of the same bits agree.
-/

namespace Akita.Lib

open List

variable {b : UInt8} {bs : List UInt8} {p k : ℕ}

/-- The low `w` bits of `n`, least significant first. -/
def natBits (w n : ℕ) : List Bool := (List.range w).map n.testBit

/-- The value of a bit string, least significant bit first. -/
def bitsValue : List Bool → ℕ
  | [] => 0
  | b :: bs => b.toNat + 2 * bitsValue bs

/-- The bits of a byte string, byte by byte, least significant first. -/
def bits (bs : List UInt8) : List Bool := bs.flatMap fun b => natBits 8 b.toNat

/-- Bit `p` of a byte string, `false` past its end. -/
def bitAt (bs : List UInt8) (p : ℕ) : Bool := (bs.getD (p / 8) 0).toNat.testBit (p % 8)

/-- The little-endian value of a byte string. -/
def leValue : List UInt8 → ℕ
  | [] => 0
  | b :: bs => b.toNat + 256 * leValue bs

@[simp] theorem natBits_length (w n : ℕ) : (natBits w n).length = w := by simp [natBits]

theorem natBits_getElem? (w n i : ℕ) : (natBits w n)[i]? = if i < w then some (n.testBit i) else none := by
  unfold natBits
  split
  · rename_i h; simp [h]
  · rename_i h; simp [h]

theorem testBit_bitsValue : ∀ (l : List Bool) (i : ℕ), (bitsValue l).testBit i = l.getD i false := by
  intro l
  induction l with
  | nil => intro i; simp [bitsValue]
  | cons b bs ih =>
    intro i
    have hb : b.toNat < 2 ^ 1 := by cases b <;> decide
    have h := Nat.testBit_two_pow_mul_add (bitsValue bs) hb i
    rw [pow_one, add_comm] at h
    rw [bitsValue, h]
    rcases i with _ | i
    · cases b <;> simp
    · simp [ih]

theorem bitsValue_lt : ∀ l : List Bool, bitsValue l < 2 ^ l.length := by
  intro l
  induction l with
  | nil => simp [bitsValue]
  | cons b bs ih =>
    have hb : b.toNat ≤ 1 := by cases b <;> decide
    rw [bitsValue, length_cons, pow_succ]
    omega

theorem bitsValue_natBits {w n : ℕ} (h : n < 2 ^ w) : bitsValue (natBits w n) = n := by
  apply Nat.eq_of_testBit_eq
  intro i
  rw [testBit_bitsValue, getD_eq_getElem?_getD, natBits_getElem?]
  split
  · rfl
  · rename_i hi
    have hle : 2 ^ w ≤ 2 ^ i := Nat.pow_le_pow_right (by omega) (by omega)
    simp [Nat.testBit_lt_two_pow (lt_of_lt_of_le h hle)]

theorem natBits_bitsValue (l : List Bool) : natBits l.length (bitsValue l) = l := by
  apply ext_getElem?
  intro i
  rw [natBits_getElem?, testBit_bitsValue]
  split
  · rename_i h; simp [h]
  · rename_i h; simp [Nat.not_lt.1 h]

theorem bits_cons (b : UInt8) (bs : List UInt8) : bits (b :: bs) = natBits 8 b.toNat ++ bits bs := by
  simp [bits]

@[simp] theorem bits_length : ∀ bs : List UInt8, (bits bs).length = 8 * bs.length := by
  intro bs
  induction bs with
  | nil => rfl
  | cons b bs ih => rw [bits_cons, length_append, ih, natBits_length, length_cons]; ring

theorem bitAt_cons_lt (h : p < 8) : bitAt (b :: bs) p = b.toNat.testBit p := by
  simp [bitAt, Nat.div_eq_of_lt h, Nat.mod_eq_of_lt h]

theorem bitAt_cons_ge (h : 8 ≤ p) : bitAt (b :: bs) p = bitAt bs (p - 8) := by
  unfold bitAt
  rw [show p / 8 = (p - 8) / 8 + 1 by omega, show p % 8 = (p - 8) % 8 by omega]
  simp

theorem bitAt_of_ge (h : 8 * bs.length ≤ p) : bitAt bs p = false := by
  unfold bitAt
  rw [getD_eq_default _ _ (by omega)]
  simp

theorem bits_getElem? : ∀ (bs : List UInt8) (p : ℕ),
    (bits bs)[p]? = if p < 8 * bs.length then some (bitAt bs p) else none := by
  intro bs
  induction bs with
  | nil => intro p; simp [bits]
  | cons b bs ih =>
    intro p
    rw [bits_cons]
    by_cases hp : p < 8
    · rw [getElem?_append_left (by simpa using hp), natBits_getElem?, if_pos hp,
        if_pos (by simp; omega), bitAt_cons_lt hp]
    · rw [getElem?_append_right (by simpa using hp), natBits_length, ih, bitAt_cons_ge (by omega)]
      simp only [length_cons]
      split <;> split <;> first | rfl | omega

theorem testBit_leValue : ∀ (bs : List UInt8) (p : ℕ), (leValue bs).testBit p = bitAt bs p := by
  intro bs
  induction bs with
  | nil => intro p; simp [leValue, bitAt]
  | cons b bs ih =>
    intro p
    have hb : b.toNat < 2 ^ 8 := b.toNat_lt
    have h := Nat.testBit_two_pow_mul_add (leValue bs) hb p
    rw [add_comm] at h
    rw [leValue, show (256 : ℕ) = 2 ^ 8 by norm_num, h]
    split
    · rename_i hp; rw [bitAt_cons_lt hp]
    · rename_i hp; rw [ih, bitAt_cons_ge (by omega)]

theorem leValue_lt : ∀ bs : List UInt8, leValue bs < 2 ^ (8 * bs.length) := by
  intro bs
  induction bs with
  | nil => simp [leValue]
  | cons b bs ih =>
    have hb : b.toNat < 256 := b.toNat_lt
    rw [leValue, length_cons, mul_add, pow_add]
    omega

theorem bitAt_take_drop (bs : List UInt8) {n : ℕ} (hp : p < 8 * n) : bitAt ((bs.drop k).take n) p = bitAt bs (8 * k + p) := by
  unfold bitAt
  rw [getD_eq_getElem?_getD, getD_eq_getElem?_getD, getElem?_take,
    if_pos (by omega), getElem?_drop, show (8 * k + p) / 8 = k + p / 8 by omega,
    show (8 * k + p) % 8 = p % 8 by omega]

/-- **A byte string is determined by its bits.** -/
theorem bits_injective : Function.Injective bits := by
  intro bs cs h
  induction bs generalizing cs with
  | nil =>
    have hl := congrArg length h
    simp only [bits_length, length_nil] at hl
    exact (length_eq_zero_iff.1 (by omega)).symm
  | cons b bs ih =>
    cases cs with
    | nil => have hl := congrArg length h; simp at hl
    | cons c cs =>
      rw [bits_cons, bits_cons] at h
      obtain ⟨h1, h2⟩ := append_inj h (by simp)
      have hv := congrArg bitsValue h1
      rw [bitsValue_natBits b.toNat_lt, bitsValue_natBits c.toNat_lt] at hv
      rw [UInt8.toNat_inj.1 hv, ih h2]

theorem leValue_append (as bs : List UInt8) : leValue (as ++ bs) = leValue as + 256 ^ as.length * leValue bs := by
  induction as with
  | nil => simp [leValue]
  | cons a as ih => rw [cons_append, leValue, leValue, ih, length_cons, pow_succ]; ring

theorem leValue_eq_zero (h : ∀ b ∈ bs, b = 0) : leValue bs = 0 := by
  induction bs with
  | nil => simp [leValue]
  | cons b bs ih =>
    rw [leValue, ih fun c hc => h c (mem_cons_of_mem b hc), h b mem_cons_self]
    simp

/-- **A byte joined to a byte of a string**, and the others kept. -/
theorem bitAt_set_orByte (hb : bs[k]? = some b) (c : UInt8) (q : ℕ) :
    bitAt (bs.set k (b ||| c)) q = (bitAt bs q || (decide (q / 8 = k) && c.toNat.testBit (q % 8))) := by
  obtain ⟨hlt, rfl⟩ := List.getElem?_eq_some_iff.1 hb
  unfold bitAt
  by_cases hq : q / 8 = k
  · subst hq
    rw [List.getD_eq_getElem?_getD, List.getElem?_set_self hlt, Option.getD_some, UInt8.toNat_or, Nat.testBit_or,
      List.getD_eq_getElem _ _ hlt]
    simp
  · rw [List.getD_eq_getElem?_getD, List.getElem?_set_ne (Ne.symm hq), ← List.getD_eq_getElem?_getD]
    simp [hq]

theorem testBit_one_shift {j : ℕ} (hk : k < 8) (hj : j < 8) : (1 <<< UInt8.ofNat k : UInt8).toNat.testBit j = decide (j = k) := by
  interval_cases k <;> interval_cases j <;> decide

/-- **One bit set in a byte string**, and the others kept. -/
theorem bitAt_set_or (hb : bs[p / 8]? = some b) (q : ℕ) :
    bitAt (bs.set (p / 8) (b ||| 1 <<< UInt8.ofNat (p % 8))) q = (bitAt bs q || decide (q = p)) := by
  rw [bitAt_set_orByte hb, testBit_one_shift (Nat.mod_lt _ (by norm_num)) (Nat.mod_lt _ (by norm_num)),
    ← Bool.decide_and]
  have hiff : q / 8 = p / 8 ∧ q % 8 = p % 8 ↔ q = p := by omega
  simp only [hiff]

/-- Bits of two byte strings in a row. -/
theorem bitAt_append (as bs : List UInt8) (p : ℕ) :
    bitAt (as ++ bs) p = if p < 8 * as.length then bitAt as p else bitAt bs (p - 8 * as.length) := by
  unfold bitAt
  rw [getD_eq_getElem?_getD]
  split
  · next hp => rw [getElem?_append_left (by omega), getD_eq_getElem?_getD]
  · next hp =>
    rw [getElem?_append_right (by omega), getD_eq_getElem?_getD,
      show (p - 8 * as.length) / 8 = p / 8 - as.length by omega, show (p - 8 * as.length) % 8 = p % 8 by omega]

theorem bitAt_replicate_zero (n p : ℕ) : bitAt (replicate n 0) p = false := by
  unfold bitAt
  rw [getD_eq_getElem?_getD, getElem?_replicate]
  split <;> simp

/-!
## Little-endian words of 64 bits

The value of a list of words, its bits, the carry and borrow of one word, and the fields of a
number to a power-of-two base.
-/

/-- The number with these words, low word first. -/
def wordsValue : List (BitVec 64) → ℕ
  | [] => 0
  | w :: ws => w.toNat + 2 ^ 64 * wordsValue ws

theorem testBit_wordsValue : ∀ (ws : List (BitVec 64)) (i : ℕ),
    (wordsValue ws).testBit i = (ws.getD (i / 64) 0).toNat.testBit (i % 64) := by
  intro ws
  induction ws with
  | nil => intro i; simp [wordsValue]
  | cons w ws ih =>
    intro i
    rw [wordsValue, add_comm, Nat.testBit_two_pow_mul_add _ w.isLt]
    by_cases hi : i < 64
    · have hdiv : i / 64 = 0 := by omega
      have hmod : i % 64 = i := by omega
      rw [if_pos hi, hdiv, hmod]
      rfl
    · have hdiv : i / 64 = (i - 64) / 64 + 1 := by omega
      have hmod : i % 64 = (i - 64) % 64 := by omega
      rw [if_neg hi, ih, hdiv, hmod]
      rfl

theorem wordsValue_modify_or : ∀ (ws : List (BitVec 64)) {bit : ℕ}, bit < 64 * ws.length → wordsValue ws < 2 ^ bit →
    wordsValue (ws.modify (bit / 64) (· ||| 1#64 <<< (bit % 64))) = wordsValue ws + 2 ^ bit := by
  intro ws
  induction ws with
  | nil => intro bit hbit; simp at hbit
  | cons w ws ih =>
    intro bit hbit hlt
    rw [wordsValue] at hlt
    by_cases h64 : bit < 64
    · have hpow : 2 ^ bit < 2 ^ 64 := Nat.pow_lt_pow_right (by omega) h64
      have hdiv : bit / 64 = 0 := by omega
      have hmod : bit % 64 = bit := by omega
      have hw : w.toNat < 2 ^ bit := by omega
      have hor : (w ||| 1#64 <<< bit).toNat = w.toNat + 2 ^ bit := by
        rw [BitVec.toNat_or, BitVec.toNat_shiftLeft, BitVec.toNat_ofNat, Nat.shiftLeft_eq,
          Nat.mod_eq_of_lt (by omega : 1 < 2 ^ 64), one_mul, Nat.mod_eq_of_lt hpow, Nat.or_comm, add_comm]
        simpa using (Nat.two_pow_add_eq_or_of_lt hw 1).symm
      rw [hdiv, hmod, modify_zero_cons, wordsValue, wordsValue, hor]
      omega
    · obtain ⟨bit', rfl⟩ : ∃ bit', bit = bit' + 64 := ⟨bit - 64, by omega⟩
      have hdiv : (bit' + 64) / 64 = bit' / 64 + 1 := by omega
      have hmod : (bit' + 64) % 64 = bit' % 64 := by omega
      have hpow : 2 ^ (bit' + 64) = 2 ^ 64 * 2 ^ bit' := by rw [pow_add, mul_comm]
      have htail : wordsValue ws < 2 ^ bit' := by
        by_contra hge
        omega
      have hlen : bit' < 64 * ws.length := by simp at hbit; omega
      rw [hdiv, hmod, modify_succ_cons, wordsValue, wordsValue, ih hlen htail, hpow]
      ring

theorem toNat_add_carry (a b : BitVec 64) :
    (a + b).toNat + 2 ^ 64 * (if a + b < a then 1 else 0) = a.toNat + b.toNat := by
  simp only [BitVec.lt_def, BitVec.toNat_add]
  split <;> omega

theorem toNat_sub_borrow (a b : BitVec 64) : (a - b).toNat + b.toNat = a.toNat + 2 ^ 64 * (if a < b then 1 else 0) := by
  simp only [BitVec.lt_def, BitVec.toNat_sub]
  split <;> omega

theorem sum_fields (v L n : ℕ) : ∑ k ∈ Finset.range n, v / 2 ^ (L * k) % 2 ^ L * 2 ^ (L * k) = v % 2 ^ (L * n) := by
  induction n with
  | zero => simp [Nat.mod_one]
  | succ n ih =>
    rw [Finset.sum_range_succ, ih, pow_mul, pow_mul, Nat.mod_pow_succ]
    ring

/-- The field of width `L` at `shift`, from the word it starts in and the next one. -/
theorem field_of_words (ws : List (BitVec 64)) {shift L : ℕ} (hL : L ≤ 16) {field : BitVec 16}
    (hfield : field = if shift % 64 + L ≤ 64 then (ws.getD (shift / 64) 0 >>> (shift % 64)).setWidth 16
      else (ws.getD (shift / 64) 0 >>> (shift % 64) ||| ws.getD (shift / 64 + 1) 0 <<< (64 - shift % 64)).setWidth 16) :
    (field &&& BitVec.ofNat 16 (2 ^ L - 1)).toNat = wordsValue ws / 2 ^ shift % 2 ^ L := by
  apply Nat.eq_of_testBit_eq
  intro j
  have hmask : (2 ^ L - 1) % 2 ^ 16 = 2 ^ L - 1 := by
    apply Nat.mod_eq_of_lt
    have := Nat.pow_le_pow_right (n := 2) (by omega) hL
    omega
  rw [BitVec.toNat_and, BitVec.toNat_ofNat, hmask, Nat.testBit_and, Nat.testBit_two_pow_sub_one, Nat.testBit_mod_two_pow,
    Nat.testBit_div_two_pow, testBit_wordsValue, Bool.and_comm]
  by_cases hj : j < L
  · simp only [hj, decide_true, Bool.true_and]
    have h16 : j < 16 := by omega
    rw [hfield]
    split
    · next hfit =>
      -- the field lies in one word
      have hdiv : (j + shift) / 64 = shift / 64 := by omega
      have hmod : (j + shift) % 64 = shift % 64 + j := by omega
      rw [hdiv, hmod, BitVec.toNat_setWidth, Nat.testBit_mod_two_pow, BitVec.toNat_ushiftRight, Nat.testBit_shiftRight]
      simp [h16]
    · next hfit =>
      rw [BitVec.toNat_setWidth, Nat.testBit_mod_two_pow, BitVec.toNat_or, Nat.testBit_or, BitVec.toNat_ushiftRight,
        Nat.testBit_shiftRight, BitVec.toNat_shiftLeft, Nat.testBit_mod_two_pow, Nat.testBit_shiftLeft]
      by_cases hlow : shift % 64 + j < 64
      · have hdiv : (j + shift) / 64 = shift / 64 := by omega
        have hmod : (j + shift) % 64 = shift % 64 + j := by omega
        have hnot : ¬ 64 - shift % 64 ≤ j := by omega
        rw [hdiv, hmod]
        simp [h16, hnot]
      · -- the bit is in the next word, past the end of the first
        have hdiv : (j + shift) / 64 = shift / 64 + 1 := by omega
        have hmod : (j + shift) % 64 = j - (64 - shift % 64) := by omega
        have hge : 64 - shift % 64 ≤ j := by omega
        have h64 : j < 64 := by omega
        have hpast : (ws.getD (shift / 64) 0).toNat.testBit (shift % 64 + j) = false :=
          Nat.testBit_lt_two_pow (lt_of_lt_of_le (BitVec.isLt _) (Nat.pow_le_pow_right (by omega) (by omega)))
        rw [hdiv, hmod, hpast]
        simp [h16, hge, h64]
  · simp [hj]

end Akita.Lib
