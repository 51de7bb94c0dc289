import Akita.Lib.Enumerate
import Akita.Lib.Bits
import Akita.Spec.BalancedDecompose

/-!
# Balanced decomposition is exact

The words of `biased` hold `x + H` modulo `2^192`, where `H` has the top bit of every digit
field set. Digit `k` is field `k` of it less half the base, so the digits add up to
`(x + H) mod b^n - H`: congruent to `x`, and equal to it exactly on `[-H, b^n - 1 - H]`. The
kernel writes these digits, whatever the number of coefficients.
-/

namespace Akita.Decompose

open Lib Finset
open List hiding mem_range range_zero sum_range_succ
open BitVec (ofNat toNat_ofNat)
open Bool (toNat_le toNat_true)

variable {L : ℕ} {n c q lane : ℕ} {params : BalancedDecomposePow2Params} {out : List ℤ}

/-- `1 + b + .. + b^(n-1)` for `b = 2^L`. -/
def series (L n : ℕ) : ℕ := ∑ k ∈ range n, 2 ^ (L * k)

/-- `H`: half the base in every digit. -/
def halfSum (L n : ℕ) : ℕ := 2 ^ (L - 1) * series L n

theorem series_succ (L n : ℕ) : series L (n + 1) = series L n + 2 ^ (L * n) := sum_range_succ _ n

theorem series_mul (L n : ℕ) : (2 ^ L - 1) * series L n + 1 = 2 ^ (L * n) := by
  induction n with
  | zero => simp [series]
  | succ n ih =>
    have hpos : 0 < 2 ^ L := by positivity
    have hsplit : (2 ^ L - 1) * 2 ^ (L * n) + 2 ^ (L * n) = 2 ^ L * 2 ^ (L * n) := by
      rw [← Nat.succ_mul, Nat.succ_eq_add_one, Nat.sub_add_cancel hpos]
    have hpow : 2 ^ (L * (n + 1)) = 2 ^ L * 2 ^ (L * n) := by rw [← pow_add]; ring
    rw [series_succ, mul_add, hpow]
    omega

theorem halfSum_add_reach (hL : 0 < L) (n : ℕ) : halfSum L n + (2 ^ (L - 1) - 1) * series L n + 1 = 2 ^ (L * n) := by
  have hpow : 2 ^ L = 2 * 2 ^ (L - 1) := by
    rw [← pow_succ']; congr 1; omega
  rw [← series_mul L n, halfSum, ← add_mul]
  congr 2
  omega

theorem halfSum_lt (hL : 0 < L) (n : ℕ) : halfSum L n < 2 ^ (L * n) := by
  have := halfSum_add_reach hL n
  omega

section

theorem length_biasNonnegativeWords (L n : ℕ) : (biasNonnegativeWords L n).length = 3 := by
  unfold biasNonnegativeWords
  induction n with
  | zero => rfl
  | succ n ih => simpa [range_succ, foldl_append] using ih

/-- The bias loop sets the top bit of each field. -/
theorem wordsValue_biasNonnegativeWords (hL : 0 < L) (hn : n * L ≤ 192) :
    wordsValue (biasNonnegativeWords L n) = halfSum L n := by
  induction n with
  | zero => simp [biasNonnegativeWords, halfSum, series, wordsValue]
  | succ n ih =>
    have hmul : (n + 1) * L = n * L + L := by ring
    have hcomm : n * L = L * n := mul_comm n L
    have hvalue := ih (by omega)
    have hlen := length_biasNonnegativeWords L n
    have hlt : wordsValue (biasNonnegativeWords L n) < 2 ^ (n * L + L - 1) := by
      rw [hvalue]
      exact lt_of_lt_of_le (halfSum_lt hL n) (Nat.pow_le_pow_right (by omega) (by omega))
    have hstep := wordsValue_modify_or (biasNonnegativeWords L n)
      (by omega : n * L + L - 1 < 64 * (biasNonnegativeWords L n).length) hlt
    have hpow : 2 ^ (n * L + L - 1) = 2 ^ (L - 1) * 2 ^ (L * n) := by
      rw [← pow_add]; congr 1; omega
    have hloop : biasNonnegativeWords L (n + 1) = (biasNonnegativeWords L n).modify ((n * L + L - 1) / 64)
        (· ||| 1#64 <<< ((n * L + L - 1) % 64)) := by
      simp [biasNonnegativeWords, range_succ, foldl_append]
    rw [hloop, hstep, hvalue, hpow, halfSum, halfSum, series_succ, mul_add]

theorem toNat_u64OfBool (b : Bool) : (u64OfBool b).toNat = b.toNat := by
  cases b <;> rfl

theorem overflowingSub_toNat (a b : BitVec 64) :
    (overflowingSub a b).1.toNat + b.toNat = a.toNat + 2 ^ 64 * (overflowingSub a b).2.toNat := by
  have h := toNat_sub_borrow a b
  unfold overflowingSub
  by_cases hlt : a < b <;> simp_all

theorem toNat_or_borrow {p q : Bool} (h : ¬ (p = true ∧ q = true)) : (p || q).toNat = p.toNat + q.toNat := by
  cases p <;> cases q <;> simp_all

theorem wordsValue_three (a b c : BitVec 64) : wordsValue [a, b, c] = a.toNat + 2 ^ 64 * b.toNat + 2 ^ 128 * c.toNat := by
  simp only [wordsValue]
  ring

theorem wordsValue_getD {ws : List (BitVec 64)} (h : ws.length = 3) :
    wordsValue ws = (ws.getD 0 0).toNat + 2 ^ 64 * (ws.getD 1 0).toNat + 2 ^ 128 * (ws.getD 2 0).toNat := by
  obtain ⟨a, b, c, rfl⟩ := length_eq_three.1 h
  exact wordsValue_three a b c

theorem toNat_low_high (hc : c < 2 ^ 128) : (ofNat 64 c).toNat + 2 ^ 64 * (ofNat 64 (c >>> 64)).toNat = c := by
  rw [toNat_ofNat, toNat_ofNat, Nat.shiftRight_eq_div_pow]
  omega

theorem wordsValue_borrow (a b c : BitVec 64) (hq : q < 2 ^ 128) : let r0 := overflowingSub a (ofNat 64 q)
    let p1 := overflowingSub b (ofNat 64 (q >>> 64))
    let r1 := overflowingSub p1.1 (u64OfBool r0.2)
    (wordsValue [r0.1, r1.1, c - u64OfBool (p1.2 || r1.2)] + q) % 2 ^ 192 = wordsValue [a, b, c] := by
  intro r0 p1 r1
  have h0 : r0.1.toNat + _ = _ := overflowingSub_toNat a (ofNat 64 q)
  have h1 : p1.1.toNat + _ = _ := overflowingSub_toNat b (ofNat 64 (q >>> 64))
  have h2 : r1.1.toNat + _ = _ := overflowingSub_toNat p1.1 (u64OfBool r0.2)
  have h3 := toNat_sub_borrow c (u64OfBool (p1.2 || r1.2))
  have hlow := toNat_low_high hq
  have hr1 := r1.1.isLt
  have hb := b.isLt
  have ha := a.isLt
  have hbool0 := toNat_le r0.2
  rw [toNat_u64OfBool] at h2
  have hboth : ¬ (p1.2 = true ∧ r1.2 = true) := by
    rintro ⟨hp, hr⟩
    have hp1 : (overflowingSub b (ofNat 64 (q >>> 64))).2 = true := hp
    have hr1' : (overflowingSub p1.1 (u64OfBool r0.2)).2 = true := hr
    rw [hp1, toNat_true] at h1
    rw [hr1', toNat_true] at h2
    omega
  rw [toNat_u64OfBool, toNat_or_borrow hboth] at h3
  have hc' := (c - u64OfBool (p1.2 || r1.2)).isLt
  have hbool1 := toNat_le p1.2
  have hbool2 := toNat_le r1.2
  change _ = b.toNat + 2 ^ 64 * p1.2.toNat at h1
  change _ = p1.1.toNat + 2 ^ 64 * r1.2.toNat at h2
  change _ = a.toNat + 2 ^ 64 * r0.2.toNat at h0
  rw [wordsValue_three, wordsValue_three]
  split at h3 <;> omega

end

section

theorem select_word (a b : BitVec 64) (negative : Bool) :
    a ^^^ ((a ^^^ b) &&& -u64OfBool negative) = if negative then b else a := by
  cases negative
  · simp [u64OfBool]
  · have hones : -u64OfBool true = BitVec.allOnes 64 := by decide
    rw [hones, BitVec.and_allOnes, ← BitVec.xor_assoc, BitVec.xor_self, BitVec.zero_xor, if_pos rfl]

/-- Words compare as the number does: by the high word, then by the low one. -/
theorem gt_threshold {t : ℕ} (hc : c < 2 ^ 128) (ht : t < 2 ^ 128) :
    (decide (ofNat 64 (c >>> 64) > ofNat 64 (t >>> 64)) || (decide (ofNat 64 (c >>> 64) = ofNat 64 (t >>> 64)) &&
        decide (ofNat 64 c > ofNat 64 t))) = decide (t < c) := by
  have h1 := toNat_low_high hc
  have h2 := toNat_low_high ht
  generalize ofNat 64 (c >>> 64) = ch at *
  generalize ofNat 64 (t >>> 64) = th at *
  generalize ofNat 64 c = cl at *
  generalize ofNat 64 t = tl at *
  rw [Bool.eq_iff_iff]
  simp only [Bool.or_eq_true, Bool.and_eq_true, decide_eq_true_eq, gt_iff_lt, BitVec.lt_def, BitVec.toNat_eq]
  omega

theorem wordsValue_carry (low high b0 b1 b2 : BitVec 64) :
    let word0 := low + b0
    let partial1 := high + b1
    let word1 := partial1 + u64OfBool (decide (word0 < low))
    wordsValue [word0, word1, b2 + u64OfBool (decide (partial1 < high) || decide (word1 < partial1))] =
      (low.toNat + 2 ^ 64 * high.toNat + wordsValue [b0, b1, b2]) % 2 ^ 192 := by
  intro word0 partial1 word1
  have h0 : word0.toNat + 2 ^ 64 * (decide (word0 < low)).toNat = low.toNat + b0.toNat := by
    rw [← toNat_add_carry low b0]
    by_cases h : low + b0 < low <;> simp [word0, h]
  have h1 : partial1.toNat + 2 ^ 64 * (decide (partial1 < high)).toNat = high.toNat + b1.toNat := by
    rw [← toNat_add_carry high b1]
    by_cases h : high + b1 < high <;> simp [partial1, h]
  have h2 : word1.toNat + 2 ^ 64 * (decide (word1 < partial1)).toNat = partial1.toNat + (decide (word0 < low)).toNat := by
    have hadd := toNat_add_carry partial1 (u64OfBool (decide (word0 < low)))
    rw [toNat_u64OfBool] at hadd
    rw [← hadd]
    by_cases h : partial1 + u64OfBool (decide (word0 < low)) < partial1 <;> simp [word1, h]
  have hw1 := word1.isLt
  have hb2 := b2.isLt
  have hbool0 := toNat_le (decide (word0 < low))
  have hbool1 := toNat_le (decide (partial1 < high))
  have hbool2 := toNat_le (decide (word1 < partial1))
  have hboth : ¬ (decide (partial1 < high) = true ∧ decide (word1 < partial1) = true) := by
    rintro ⟨hp, hr⟩
    rw [hp, toNat_true] at h1
    rw [hr, toNat_true] at h2
    omega
  rw [wordsValue_three, wordsValue_three, BitVec.toNat_add b2, toNat_u64OfBool, toNat_or_borrow hboth]
  omega

variable {params : BalancedDecomposePow2Params}

/-- **`biased` adds the bias of the coefficient's side.** -/
theorem wordsValue_biased (hn : params.biasNonnegative.length = 3) (hm : params.biasNegative.length = 3)
    (ht : params.threshold < 2 ^ 128) (hc : c < 2 ^ 128) : wordsValue (params.biased c) =
      (c + wordsValue (if params.threshold < c then params.biasNegative else params.biasNonnegative)) % 2 ^ 192 := by
  have hcarry := wordsValue_carry (ofNat 64 c) (ofNat 64 (c >>> 64))
  unfold BalancedDecomposePow2Params.biased
  simp only [gt_threshold hc ht, select_word]
  rw [hcarry, toNat_low_high hc]
  by_cases hneg : params.threshold < c
  · simp only [hneg, decide_true, if_true]
    rw [wordsValue_getD hm, wordsValue_three]
  · simp only [hneg, decide_false, if_false, Bool.false_eq_true]
    rw [wordsValue_getD hn, wordsValue_three]

theorem length_biased (c : ℕ) : (params.biased c).length = 3 := rfl

end

/-- What `new` establishes: the ranges it asserts and the two biases, `H` and `H - q`. -/
structure BalancedDecomposePow2Params.Ok (params : BalancedDecomposePow2Params) (q levels logBasis : ℕ) : Prop where
  levels_eq : params.levels = levels
  logBasis_eq : params.logBasis = logBasis
  logBasis_pos : 0 < logBasis
  logBasis_le : logBasis ≤ 16
  bits_le : levels * logBasis ≤ 128 + logBasis
  narrow : 1 < logBasis ∨ levels ≤ bitLength (q - 1)
  threshold_eq : params.threshold = decomposeCenteringThreshold levels logBasis q
  length_nonnegative : params.biasNonnegative.length = 3
  length_negative : params.biasNegative.length = 3
  value_nonnegative : wordsValue params.biasNonnegative = halfSum logBasis levels
  value_negative : (wordsValue params.biasNegative + q) % 2 ^ 192 = halfSum logBasis levels

/-- The coefficients of a prime field with modulus `q` are canonically encoded by `0..q`. -/
structure CanonicalU128.Lawful {F : Type} [Ring F] (toU128Checked : CanonicalU128 F) (q : ℕ) : Prop where
  neg_one : toU128Checked (-1) = some (q - 1)
  canonical : ∀ x, ∃ c < q, toU128Checked x = some c

theorem new_ok {F : Type} [Ring F] {toU128Checked : CanonicalU128 F} {levels logBasis : ℕ} (hlaw : toU128Checked.Lawful q)
    (hq : 2 < q) (h : BalancedDecomposePow2Params.new toU128Checked levels logBasis = some params) :
    q < 2 ^ 128 ∧ params.Ok q levels logBasis := by
  unfold BalancedDecomposePow2Params.new at h
  have hq1 : q - 1 + 1 = q := by omega
  simp only [hlaw.neg_one, option_some, Option.bind_some, checkedAdd_eq_some, hq1, exists_and_left] at h
  obtain ⟨_, ⟨hlt, rfl⟩, hL, hlevels, hbits, hnarrow, _, _, _, _, rfl⟩ := h
  have hbits' : levels * logBasis ≤ 128 + logBasis := by omega
  have hvalue := wordsValue_biasNonnegativeWords (L := logBasis) (n := levels) hL.1 (by omega)
  refine ⟨hlt, rfl, rfl, hL.1, hL.2, hbits', hnarrow, rfl, length_biasNonnegativeWords _ _, rfl, hvalue, ?_⟩
  have hborrow := wordsValue_borrow ((biasNonnegativeWords logBasis levels).getD 0 0)
    ((biasNonnegativeWords logBasis levels).getD 1 0) ((biasNonnegativeWords logBasis levels).getD 2 0) hlt
  rw [hborrow, ← hvalue, wordsValue_getD (length_biasNonnegativeWords _ _), wordsValue_three]

def centered (levels logBasis q c : ℕ) : ℤ :=
  if c ≤ decomposeCenteringThreshold levels logBasis q then c else (c : ℤ) - q

section

variable {params : BalancedDecomposePow2Params} {q n : ℕ} {c : ℕ}

/-- Digit `k` of a coefficient: field `k` of the biased words, less half the base. -/
def digit (params : BalancedDecomposePow2Params) (c k : ℕ) : ℤ :=
  ((wordsValue (params.biased c) / 2 ^ (params.logBasis * k) % 2 ^ params.logBasis : ℕ) : ℤ) - 2 ^ (params.logBasis - 1)

theorem digit_range (hL : 0 < params.logBasis) (c k : ℕ) :
    -2 ^ (params.logBasis - 1) ≤ digit params c k ∧ digit params c k ≤ 2 ^ (params.logBasis - 1) - 1 := by
  have hpow : 2 ^ params.logBasis = 2 * 2 ^ (params.logBasis - 1) := by
    rw [← pow_succ']; congr 1; omega
  have hcast : ((2 ^ (params.logBasis - 1) : ℕ) : ℤ) = 2 ^ (params.logBasis - 1) := by push_cast; rfl
  unfold digit
  rw [← hcast]
  omega

theorem threshold_le (levels logBasis q : ℕ) : decomposeCenteringThreshold levels logBasis q ≤ q / 2 := by
  unfold decomposeCenteringThreshold
  dsimp only
  split
  · exact min_le_right _ _
  · exact le_rfl

section

variable (hp : params.Ok q n L) (hq : q < 2 ^ 128) (hc : c < q)

include hp hq hc

theorem biased_emod :
    ((wordsValue (params.biased c) : ℕ) : ℤ) % 2 ^ (L * n) = (centered n L q c + halfSum L n) % 2 ^ (L * n) := by
  have hbits := hp.bits_le
  have hle := hp.logBasis_le
  have hcomm : L * n = n * L := mul_comm L n
  have ht : params.threshold < 2 ^ 128 := by
    have := threshold_le n L q
    rw [hp.threshold_eq]
    omega
  have hdvd : ((2 : ℤ) ^ (L * n)) ∣ 2 ^ 192 := pow_dvd_pow 2 (by omega)
  have h192 : ((2 ^ 192 : ℕ) : ℤ) = 2 ^ 192 := by norm_num
  rw [wordsValue_biased hp.length_nonnegative hp.length_negative ht (by omega), hp.threshold_eq, centered,
    Int.natCast_emod, Nat.cast_add, h192]
  by_cases hneg : decomposeCenteringThreshold n L q < c
  · rw [if_pos hneg, if_neg (by omega), Int.emod_emod_of_dvd _ hdvd]
    -- the negative bias is `H - q` modulo `2^192`
    have hM : ((wordsValue params.biasNegative : ℤ) + q) % 2 ^ 192 = halfSum L n % 2 ^ 192 := by
      rw [← hp.value_negative, Int.natCast_emod, Nat.cast_add, h192]
      exact (Int.emod_emod_of_dvd _ (dvd_refl _)).symm
    have hmod : ((wordsValue params.biasNegative : ℤ) + q) ≡ halfSum L n [ZMOD 2 ^ (L * n)] := Int.ModEq.of_dvd hdvd hM
    have hsub := (hmod.add_left (c : ℤ)).sub_right (q : ℤ)
    have hleft : (c : ℤ) + (wordsValue params.biasNegative + q) - q = c + wordsValue params.biasNegative := by ring
    have hright : (c : ℤ) + halfSum L n - q = c - q + halfSum L n := by ring
    rw [hleft, hright] at hsub
    exact hsub
  · rw [if_neg hneg, if_pos (by omega), hp.value_nonnegative, Int.emod_emod_of_dvd _ hdvd]

/-- **The digits add up to `(x + H) mod b^n - H`.** -/
theorem sum_digits : ∑ k ∈ range n, digit params c k * 2 ^ (L * k) =
      (centered n L q c + halfSum L n) % 2 ^ (L * n) - halfSum L n := by
  have hfields := sum_fields (wordsValue (params.biased c)) L n
  have hcast : (∑ k ∈ range n, ((wordsValue (params.biased c) / 2 ^ (L * k) % 2 ^ L : ℕ) : ℤ) * 2 ^ (L * k)) =
      (wordsValue (params.biased c) : ℤ) % 2 ^ (L * n) := by
    have := congrArg (Nat.cast : ℕ → ℤ) hfields
    push_cast at this ⊢
    exact this
  have hhalf : (halfSum L n : ℤ) = ∑ k ∈ range n, (2 : ℤ) ^ (L - 1) * 2 ^ (L * k) := by
    rw [halfSum, series, Nat.cast_mul, Nat.cast_sum, mul_sum]
    rfl
  rw [← biased_emod hp hq hc, ← hcast, hhalf, ← sum_sub_distrib]
  apply sum_congr rfl
  intro k _
  rw [digit, hp.logBasis_eq, sub_mul]

/-- Exactly the values in `[-H, b^n - 1 - H]` are their digits. -/
theorem sum_digits_eq_iff : ∑ k ∈ range n, digit params c k * 2 ^ (L * k) = centered n L q c ↔
      -(halfSum L n : ℤ) ≤ centered n L q c ∧ centered n L q c ≤ ((2 ^ (L - 1) - 1) * series L n : ℕ) := by
  have hreach := halfSum_add_reach hp.logBasis_pos n
  have hpos : (0 : ℤ) < 2 ^ (L * n) := by positivity
  have hpow : ((2 ^ (L * n) : ℕ) : ℤ) = 2 ^ (L * n) := by push_cast; rfl
  rw [sum_digits hp hq hc]
  generalize (2 ^ (L - 1) - 1) * series L n = P at *
  constructor
  · intro h
    omega
  · rintro ⟨hlo, hhi⟩
    rw [Int.emod_eq_of_lt (by omega) (by omega)]
    ring

end

end

section

variable {q n : ℕ}

theorem threshold_total (hL : L ≤ 16) (hbits : n * L ≤ 128 + L) (hpos : 0 < L) : min (n % 2 ^ 32 * L) (2 ^ 32 - 1) = n * L := by
  have hn : n ≤ n * L := Nat.le_mul_of_pos_right n hpos
  rw [Nat.mod_eq_of_lt (by omega)]
  omega

/-- At exact field width the threshold is the positive reach, or the middle if that is lower. -/
theorem threshold_exact (hL : 0 < L) (hL' : L ≤ 16) (hq : q < 2 ^ 128) (hbits : n * L ≤ 128 + L)
    (hexact : n * L = bitLength (q - 1)) :
    decomposeCenteringThreshold n L q = min ((2 ^ (L - 1) - 1) * series L n) (q / 2) := by
  have hwidth : n * L ≤ 128 := by
    rw [hexact, bitLength, Nat.size_le]
    omega
  have hhalf : 2 ^ L / 2 = 2 ^ (L - 1) := by
    have hpow : 2 ^ L = 2 * 2 ^ (L - 1) := by rw [← pow_succ']; congr 1; omega
    omega
  have htop : (if n * L ≥ 128 then 2 ^ 128 - 1 else 2 ^ (n * L) - 1) = (2 ^ L - 1) * series L n := by
    have hseries := series_mul L n
    rw [mul_comm L n] at hseries
    have hsame : (if n * L ≥ 128 then 2 ^ 128 - 1 else 2 ^ (n * L) - 1) = 2 ^ (n * L) - 1 := by
      split
      · have heq : n * L = 128 := by omega
        rw [heq]
      · rfl
    omega
  have hbase : 0 < 2 ^ L - 1 := by
    have := Nat.pow_le_pow_right (n := 2) (by omega) hL
    omega
  unfold decomposeCenteringThreshold
  dsimp only
  rw [threshold_total hL' hbits hL, if_pos hexact, htop, hhalf, Nat.mul_div_cancel_left _ hbase]

/-- **Enough digits for the field reach every centered coefficient.** -/
theorem centered_reached (hp : params.Ok q n L) (hq2 : 2 < q) (hq : q < 2 ^ 128) (hwidth : bitLength (q - 1) ≤ n * L) (hc : c < q) :
    -(halfSum L n : ℤ) ≤ centered n L q c ∧ centered n L q c ≤ ((2 ^ (L - 1) - 1) * series L n : ℕ) := by
  have hreach := halfSum_add_reach hp.logBasis_pos n
  have hcomm : L * n = n * L := mul_comm L n
  have hsize : q - 1 < 2 ^ bitLength (q - 1) := Nat.lt_size_self _
  have hle : (2 ^ (L - 1) - 1) * series L n ≤ halfSum L n := Nat.mul_le_mul_right _ (Nat.sub_le _ _)
  rcases Nat.eq_or_lt_of_le hwidth with hexact | hwide
  · have hT := threshold_exact hp.logBasis_pos hp.logBasis_le hq hp.bits_le hexact.symm
    rw [hexact, ← hcomm] at hsize
    unfold centered
    rw [hT]
    generalize (2 ^ (L - 1) - 1) * series L n = P at *
    split <;> omega
  · -- past the field width the base is at least 4, and a third of the range covers half of `q`
    have hL2 : 2 ≤ L := by
      rcases hp.narrow with h | h
      · omega
      · by_contra hlt
        have hL1 : L = 1 := by have := hp.logBasis_pos; omega
        subst hL1
        omega
    have hhalf : 2 ≤ 2 ^ (L - 1) := by
      calc 2 = 2 ^ 1 := rfl
        _ ≤ 2 ^ (L - 1) := Nat.pow_le_pow_right (by omega) (by omega)
    have hthird : halfSum L n + (2 ^ (L - 1) - 1) * series L n ≤ 3 * ((2 ^ (L - 1) - 1) * series L n) := by
      have hmul : 2 ^ (L - 1) * series L n ≤ 2 * (2 ^ (L - 1) - 1) * series L n := Nat.mul_le_mul_right _ (by omega)
      rw [halfSum]
      nlinarith
    have hpow : 2 ^ (bitLength (q - 1) + 1) ≤ 2 ^ (L * n) := Nat.pow_le_pow_right (by omega) (by omega)
    rw [pow_succ] at hpow
    have hT := threshold_le n L q
    have htotal := threshold_total hp.logBasis_le hp.bits_le hp.logBasis_pos
    have hmiddle : decomposeCenteringThreshold n L q = q / 2 := by
      unfold decomposeCenteringThreshold
      rw [htotal, if_neg (by omega)]
    unfold centered
    rw [hmiddle]
    generalize (2 ^ (L - 1) - 1) * series L n = P at *
    split <;> omega

end

section

theorem checkedDigitSeries_eq (hL : 0 < L) (hL' : L < 128) (n : ℕ) :
    checkedDigitSeries L n = if series L n < 2 ^ 128 then some (series L n) else none := by
  have hloop : (List.range n).foldlM (fun (state : ℕ × Option ℕ) _ => do
      let series ← checkedAdd 128 state.1 (← state.2)
      let power := do checkedMul 128 (← state.2) (← some (2 ^ L))
      return (series, power)) (0, some 1) = if series L n < 2 ^ 128 then
        some (series L n, if 2 ^ (L * n) < 2 ^ 128 then some (2 ^ (L * n)) else none) else none := by
    induction n with
    | zero => simp [series]
    | succ n ih =>
      have hpow : 2 ^ (L * (n + 1)) = 2 ^ (L * n) * 2 ^ L := by rw [← pow_add]; ring
      have hpos : 0 ≤ 2 ^ (L * n) := Nat.zero_le _
      rw [range_succ, foldlM_append, ih, series_succ]
      by_cases hs : series L n < 2 ^ 128
      · rw [if_pos hs]
        by_cases hb : 2 ^ (L * n) < 2 ^ 128
        · rw [if_pos hb, hpow]
          simp only [foldlM_cons, foldlM_nil, checkedAdd, checkedMul, Option.bind_eq_bind, Option.bind_some]
          split <;> rfl
        · rw [if_neg hb, if_neg (by omega)]
          rfl
      · rw [if_neg hs, if_neg (by omega)]
        rfl
  unfold checkedDigitSeries
  rw [if_neg (by omega), if_pos hL']
  dsimp only at hloop ⊢
  rw [hloop]
  split <;> rfl

theorem checkedDigitReach_eq (hL : 0 < L) (hL' : L < 128) (hn : 0 < n) (f : ℕ) :
    checkedDigitReach (some f) L n = if f * series L n < 2 ^ 128 then some (f * series L n) else none := by
  unfold checkedDigitReach
  rcases Nat.eq_zero_or_pos f with rfl | hf
  · rw [if_pos (Or.inl rfl), zero_mul, if_pos (by positivity)]
  · rw [if_neg (by simp; omega), checkedDigitSeries_eq hL hL']
    by_cases hs : series L n < 2 ^ 128
    · rw [if_pos hs]
      simp [checkedMul]
    · have hmul : series L n ≤ f * series L n := Nat.le_mul_of_pos_left _ hf
      rw [if_neg hs, if_neg (by omega)]
      rfl

/-- `x` lies in a reported interval; a side without a bound holds every coefficient. -/
def Represents (bounds : Option ℕ × Option ℕ) (x : ℤ) : Prop :=
  (∀ m, bounds.1 = some m → -(m : ℤ) ≤ x) ∧ ∀ m, bounds.2 = some m → x ≤ m

/-- The reported interval is `[-H, b^n - 1 - H]` on the values a `u128` can hold. -/
theorem represents_iff (hL : 0 < L) (hL' : L ≤ 16) (hn : 0 < n) {x : ℤ} (hx : |x| < 2 ^ 128) :
    Represents (checkedBalancedDigitRepresentableBounds L n) x ↔
      -(halfSum L n : ℤ) ≤ x ∧ x ≤ ((2 ^ (L - 1) - 1) * series L n : ℕ) := by
  have hlt := abs_lt.1 hx
  have hmax : max n 1 = n := by omega
  unfold Represents checkedBalancedDigitRepresentableBounds
  rw [if_neg (by omega)]
  dsimp only
  rw [hmax, checkedDigitReach_eq hL (by omega) hn, checkedDigitReach_eq hL (by omega) hn, ← halfSum]
  generalize (2 ^ (L - 1) - 1) * series L n = P at *
  generalize halfSum L n = H at *
  apply and_congr
  · by_cases hH : H < 2 ^ 128
    · rw [if_pos hH]; simp
    · rw [if_neg hH]
      constructor
      · intro _; omega
      · intro _ m hm; cases hm
  · by_cases hP : P < 2 ^ 128
    · rw [if_pos hP]; simp
    · rw [if_neg hP]
      constructor
      · intro _; omega
      · intro _ m hm; cases hm

end

section kernel

variable {F : Type} [Ring F] {toU128Checked : CanonicalU128 F} {params : BalancedDecomposePow2Params} {q n WORDS : ℕ}
  {words : List (List (BitVec 64))} {T : BalancedSignedDigit} {coefficients : List F}

/-- The staged rows: `WORDS` of them, each as long as a chunk. -/
structure Rows (WORDS : ℕ) (words : List (List (BitVec 64))) : Prop where
  length_eq : words.length = WORDS
  row_length : ∀ row ∈ words, row.length = biasedChunk

/-- A lane holds the biased words of `c`. -/
def Holds (params : BalancedDecomposePow2Params) (WORDS : ℕ) (words : List (List (BitVec 64))) (lane c : ℕ) : Prop :=
  ∀ w < WORDS, ∃ row, words[w]? = some row ∧ row[lane]? = some ((params.biased c).getD w 0)

theorem Rows.write (h : Rows WORDS words) (hW : WORDS ≤ 3) (lane c : ℕ) :
    Rows WORDS (zipWith (fun row word => row.set lane word) words (params.biased c)) := by
  constructor
  · rw [length_zipWith, h.length_eq, length_biased]
    omega
  · intro row hrow
    obtain ⟨j, hj, rfl⟩ := getElem_of_mem hrow
    simp only [getElem_zipWith, length_set]
    exact h.row_length _ (getElem_mem _)

theorem Holds.write (h : Rows WORDS words) (hW : WORDS ≤ 3) (hlane : lane < biasedChunk) (c : ℕ) {j d : ℕ}
    (hj : (j = lane ∧ d = c) ∨ (j ≠ lane ∧ Holds params WORDS words j d)) :
    Holds params WORDS (zipWith (fun row word => row.set lane word) words (params.biased c)) j d := by
  intro w hw
  have hlen := h.length_eq
  have hrow : words[w]? = some words[w] := getElem?_eq_getElem (by omega)
  have hword : (params.biased c)[w]? = some ((params.biased c).getD w 0) := by
    rw [getElem?_eq_getElem (by rw [length_biased]; omega), getD_eq_getElem _ _ (by rw [length_biased]; omega)]
  refine ⟨words[w].set lane ((params.biased c).getD w 0), ?_, ?_⟩
  · rw [getElem?_zipWith, hrow, hword]
  · rcases hj with ⟨rfl, rfl⟩ | ⟨hne, hold⟩
    · rw [getElem?_set_self (by rw [h.row_length _ (getElem_mem _)]; exact hlane)]
    · obtain ⟨row, hrow', hvalue⟩ := hold w hw
      rw [hrow, Option.some.injEq] at hrow'
      rw [getElem?_set_ne (Ne.symm hne), hrow', hvalue]

omit [Ring F] in
/-- **Staging a chunk** puts the biased words of its coefficients in their lanes. -/
theorem stage_lanes (params : BalancedDecomposePow2Params) (hcanon : ∀ x, ∃ c, toU128Checked x = some c) (hW : WORDS ≤ 3) :
    ∀ (chunk : List F) (k : ℕ) (words : List (List (BitVec 64))), Rows WORDS words → k + chunk.length ≤ biasedChunk →
      ∃ words', (chunk.zipIdx k).foldlM (fun words (coefficient, lane) => do
          let canonical ← toU128Checked coefficient
          return zipWith (fun row word => row.set lane word) words (params.biased canonical)) words = some words' ∧
        Rows WORDS words' ∧ (∀ j < k, ∀ c, Holds params WORDS words j c → Holds params WORDS words' j c) ∧
        ∀ j x c, chunk[j]? = some x → toU128Checked x = some c → Holds params WORDS words' (k + j) c := by
  intro chunk
  induction chunk with
  | nil =>
    intro k words hrows _
    exact ⟨words, rfl, hrows, fun j _ c hc => hc, by simp⟩
  | cons x chunk ih =>
    intro k words hrows hlen
    rw [length_cons] at hlen
    obtain ⟨c, hc⟩ := hcanon x
    obtain ⟨words', hfold, hrows', hkeep, hset⟩ := ih (k + 1)
      (zipWith (fun row word => row.set k word) words (params.biased c)) (hrows.write hW k c) (by omega)
    refine ⟨words', ?_, hrows', ?_, ?_⟩
    · rw [zipIdx_cons, foldlM_cons, ← hfold]
      simp [hc]
    · intro j hj d hd
      exact hkeep j (by omega) d (Holds.write hrows hW (by omega) c (Or.inr ⟨by omega, hd⟩))
    · intro j y d hy hd
      rcases j with _ | j
      · have hxy : x = y := by simpa using hy
        subst hxy
        have hcd : c = d := by rw [hc] at hd; exact Option.some.inj hd
        subst hcd
        exact hkeep k (by omega) c (Holds.write hrows hW (by omega) c (Or.inl ⟨rfl, rfl⟩))
      · have hidx : k + (j + 1) = k + 1 + j := by omega
        rw [hidx]
        exact hset j y d (by simpa using hy) hd

theorem readField_eq (hp : params.Ok q n L) (hbits : n * L ≤ 64 * WORDS) {level : ℕ} (hlevel : level < n)
    (hc : Holds params WORDS words lane c) : ∃ field, readField params words level lane = some field ∧
      (field &&& ofNat 16 (2 ^ params.logBasis - 1)).toNat =
        wordsValue (params.biased c) / 2 ^ (params.logBasis * level) % 2 ^ params.logBasis := by
  have hL := hp.logBasis_eq
  have hL16 := hp.logBasis_le
  have hpos := hp.logBasis_pos
  have hend : level * L + L ≤ n * L := by
    calc level * L + L = (level + 1) * L := by ring
      _ ≤ n * L := Nat.mul_le_mul_right _ hlevel
  obtain ⟨row, hrow, hlow⟩ := hc (level * L / 64) (by omega)
  rw [hL, mul_comm L level]
  unfold readField
  rw [hL]
  by_cases hfit : level * L % 64 + L ≤ 64
  · refine ⟨_, ?_, field_of_words (params.biased c) hL16 rfl⟩
    rw [if_pos hfit]
    simp [hrow, hlow, hfit]
  · -- a field that runs over its word ends inside the staged bits
    obtain ⟨row', hrow', hhigh⟩ := hc (level * L / 64 + 1) (by omega)
    refine ⟨_, ?_, field_of_words (params.biased c) hL16 rfl⟩
    rw [if_neg hfit]
    simp [hrow, hlow, hrow', hhigh, hfit]

theorem fromBiasedField_eq {v : ℕ} (hL : 0 < L) (hT : L ≤ T.maxLogBasis) {field : BitVec 16}
    (hfield : (field &&& ofNat 16 (2 ^ L - 1)).toNat = v) (hv : v < 2 ^ L) :
    T.fromBiasedField field (ofNat 16 (2 ^ L - 1)) (ofNat 16 (2 ^ (L - 1))) = v - 2 ^ (L - 1) := by
  have hpow : 2 ^ L = 2 * 2 ^ (L - 1) := by
    rw [← pow_succ']; congr 1; omega
  have hcast : ((2 ^ (L - 1) : ℕ) : ℤ) = 2 ^ (L - 1) := by push_cast; rfl
  unfold BalancedSignedDigit.fromBiasedField
  rw [BitVec.toInt_eq_toNat_cond, BitVec.toNat_setWidth, BitVec.toNat_sub, hfield, toNat_ofNat, ← hcast]
  have hwidth : T.maxLogBasis = 8 ∨ T.maxLogBasis = 16 := by cases T <;> simp [BalancedSignedDigit.maxLogBasis]
  generalize T.maxLogBasis = width at *
  have hle : 2 ^ L ≤ 2 ^ width := Nat.pow_le_pow_right (by omega) hT
  generalize 2 ^ (L - 1) = half at *
  rcases hwidth with rfl | rfl
  · split <;> omega
  · split <;> omega

def canonAt (toU128Checked : CanonicalU128 F) (coefficients : List F) (i : ℕ) : ℕ :=
  (coefficients[i]?.bind toU128Checked).getD 0

/-- The digit that belongs at a flat index of the output. -/
def digitAt (toU128Checked : CanonicalU128 F) (params : BalancedDecomposePow2Params) (coefficients : List F) (k : ℕ) : ℤ :=
  digit params (canonAt toU128Checked coefficients (k % coefficients.length)) (k / coefficients.length)

omit [Ring F] in
/-- The places of a chunk, filled level by level and lane by lane. -/
theorem chunk_writes {start len N : ℕ} (hp : params.Ok q n L) (hT : L ≤ T.maxLogBasis) (hbits : n * L ≤ 64 * WORDS)
    (hend : start + len ≤ coefficients.length)
    (hholds : ∀ lane < len, Holds params WORDS words lane (canonAt toU128Checked coefficients (start + lane))) :
    Writes N (digitAt toU128Checked params coefficients)
      {k | ∃ level ∈ List.range n, k ∈ {k | ∃ lane ∈ List.range len, k ∈ ({level * coefficients.length + (start + lane)} : Set ℕ)}}
      (writePlanes T params coefficients.length n words start len) := by
  apply Writes.foldlM
  intro level hlevel
  apply Writes.foldlM
  intro lane hlane
  have hlane' := List.mem_range.1 hlane
  obtain ⟨field, hread, hfield⟩ := readField_eq hp hbits (List.mem_range.1 hlevel) (hholds lane hlane')
  have hwidth : 0 < coefficients.length := by omega
  have hcol : start + lane < coefficients.length := by omega
  have hvalue : T.fromBiasedField field (ofNat 16 (2 ^ params.logBasis - 1)) (ofNat 16 (2 ^ (params.logBasis - 1))) =
      digitAt toU128Checked params coefficients (level * coefficients.length + (start + lane)) := by
    have hmod : (level * coefficients.length + (start + lane)) % coefficients.length = start + lane := by
      rw [add_comm, Nat.add_mul_mod_self_right, Nat.mod_eq_of_lt hcol]
    have hdiv : (level * coefficients.length + (start + lane)) / coefficients.length = level := by
      rw [add_comm, Nat.add_mul_div_right _ _ hwidth, Nat.div_eq_of_lt hcol, zero_add]
    rw [fromBiasedField_eq (by rw [hp.logBasis_eq]; exact hp.logBasis_pos) (by rw [hp.logBasis_eq]; exact hT) hfield
      (Nat.mod_lt _ (by positivity)), digitAt, hmod, hdiv, digit]
  simp only [hread, hvalue, Option.bind_eq_bind, Option.bind_some]
  exact Writes.set

/-- After the chunks before `m` the rows have their shape and the columns before `64 m` are right. -/
structure ChunksDone (toU128Checked : CanonicalU128 F) (params : BalancedDecomposePow2Params) (WORDS n : ℕ)
    (coefficients : List F) (m : ℕ) (state : List (List (BitVec 64)) × List ℤ) : Prop where
  rows : Rows WORDS state.1
  length_eq : state.2.length = coefficients.length * n
  digits : ∀ level < n, ∀ i < coefficients.length, i < m * biasedChunk → state.2[level * coefficients.length + i]? =
    some (digit params (canonAt toU128Checked coefficients i) level)

omit [Ring F] in
theorem digitAt_flat {i : ℕ} (hi : i < coefficients.length) (level : ℕ) :
    digitAt toU128Checked params coefficients (level * coefficients.length + i) =
      digit params (canonAt toU128Checked coefficients i) level := by
  have hpos : 0 < coefficients.length := by omega
  rw [digitAt, add_comm, Nat.add_mul_mod_self_right, Nat.mod_eq_of_lt hi, Nat.add_mul_div_right _ _ hpos,
    Nat.div_eq_of_lt hi, zero_add]

omit [Ring F] in
theorem decomposeChunk_done {m : ℕ} {state : List (List (BitVec 64)) × List ℤ} (hcanon : ∀ x, ∃ c, toU128Checked x = some c)
    (hp : params.Ok q n L) (hT : L ≤ T.maxLogBasis) (hW : WORDS ≤ 3) (hbits : n * L ≤ 64 * WORDS)
    (hm : m * biasedChunk < coefficients.length) (hdone : ChunksDone toU128Checked params WORDS n coefficients m state) :
    ∃ state', decomposeChunk toU128Checked T params coefficients n state m = some state' ∧
      ChunksDone toU128Checked params WORDS n coefficients (m + 1) state' := by
  set chunk := (coefficients.drop (m * biasedChunk)).take biasedChunk with hchunkdef
  have hchunklen : chunk.length = min biasedChunk (coefficients.length - m * biasedChunk) := by
    rw [hchunkdef, length_take, length_drop]
  have hadd : (m + 1) * biasedChunk = m * biasedChunk + biasedChunk := by ring
  obtain ⟨words', hstage, hrows', -, hset⟩ := stage_lanes params hcanon hW chunk 0 state.1 hdone.rows (by omega)
  have hholds : ∀ lane < min chunk.length biasedChunk,
      Holds params WORDS words' lane (canonAt toU128Checked coefficients (m * biasedChunk + lane)) := by
    intro lane hlane
    have hidx : m * biasedChunk + lane < coefficients.length := by omega
    obtain ⟨c, hc⟩ := hcanon coefficients[m * biasedChunk + lane]
    have hget : chunk[lane]? = some coefficients[m * biasedChunk + lane] := by
      rw [hchunkdef, getElem?_take, if_pos (by omega), getElem?_drop, getElem?_eq_getElem hidx]
    have hat : canonAt toU128Checked coefficients (m * biasedChunk + lane) = c := by
      simp [canonAt, getElem?_eq_getElem hidx, hc]
    rw [hat]
    simpa using hset lane _ c hget hc
  obtain ⟨out', hplanes, hlen', hplaces⟩ := chunk_writes (N := coefficients.length * n) (T := T) hp hT hbits
    (by omega : m * biasedChunk + min chunk.length biasedChunk ≤ coefficients.length) hholds state.2 hdone.length_eq
  refine ⟨(words', out'), ?_, hrows', hlen', ?_⟩
  · have hstage' : stageChunk toU128Checked params chunk state.1 = some words' := hstage
    simp only [decomposeChunk, ← hchunkdef, hstage', hplanes, option_some, Option.bind_some]
  · intro level hlevel i hi him
    have hflat : level * coefficients.length + i < coefficients.length * n := by
      calc level * coefficients.length + i < level * coefficients.length + coefficients.length := by omega
        _ = (level + 1) * coefficients.length := by ring
        _ ≤ n * coefficients.length := Nat.mul_le_mul_right _ hlevel
        _ = coefficients.length * n := mul_comm _ _
    rw [← digitAt_flat hi]
    apply hplaces _ hflat
    -- a column of an earlier chunk is kept, one of this chunk is written
    by_cases hold : i < m * biasedChunk
    · refine Or.inr ?_
      rw [digitAt_flat hi]
      exact hdone.digits level hlevel i hi hold
    · refine Or.inl ⟨level, List.mem_range.2 hlevel, i - m * biasedChunk, List.mem_range.2 (by omega), ?_⟩
      rw [Set.mem_singleton_iff]
      omega

omit [Ring F] in
/-- **The add-bias kernel** writes digit `level` of coefficient `i` at `level * width + i`. -/
theorem biasedWords_digits (hcanon : ∀ x, ∃ c, toU128Checked x = some c) (hp : params.Ok q n L) (hT : L ≤ T.maxLogBasis)
    (hW : WORDS ≤ 3) (hbits : n * L ≤ 64 * WORDS) (hout : out.length = coefficients.length * n) :
    ∃ out', balancedDecomposeBiasedWords toU128Checked T WORDS coefficients out params = some out' ∧
      out'.length = coefficients.length * n ∧
      ∀ level < n, ∀ i < coefficients.length, out'[level * coefficients.length + i]? =
        some (digit params (canonAt toU128Checked coefficients i) level) := by
  have hceil := Nat.div_add_mod (coefficients.length + biasedChunk - 1) biasedChunk
  have hmod := Nat.mod_lt (coefficients.length + biasedChunk - 1) (y := biasedChunk) (by decide)
  rw [mul_comm] at hceil
  have hchunks : ∀ m, m ≤ (coefficients.length + biasedChunk - 1) / biasedChunk →
      ∃ state, (List.range m).foldlM (decomposeChunk toU128Checked T params coefficients (out.length / coefficients.length))
          (replicate WORDS (replicate biasedChunk 0#64), out) = some state ∧
        ChunksDone toU128Checked params WORDS n coefficients m state := by
    intro m
    induction m with
    | zero =>
      intro _
      refine ⟨_, rfl, ⟨by simp, ?_⟩, hout, by intro _ _ i _ hi; simp at hi⟩
      intro row hrow
      rw [eq_of_mem_replicate hrow, length_replicate]
    | succ m ih =>
      intro hm
      obtain ⟨state, hfold, hdone⟩ := ih (by omega)
      have hmul : (m + 1) * biasedChunk ≤ (coefficients.length + biasedChunk - 1) / biasedChunk * biasedChunk :=
        Nat.mul_le_mul_right _ hm
      have hadd : (m + 1) * biasedChunk = m * biasedChunk + biasedChunk := by ring
      have hstart : m * biasedChunk < coefficients.length := by
        omega
      have hplanes : out.length / coefficients.length = n := by
        rw [hout, Nat.mul_div_cancel_left _ (by omega)]
      obtain ⟨state', hstep, hdone'⟩ := decomposeChunk_done hcanon hp hT hW hbits hstart hdone
      refine ⟨state', ?_, hdone'⟩
      rw [range_succ, foldlM_append, hfold, hplanes]
      simp [hstep]
  obtain ⟨state, hfold, hdone⟩ := hchunks _ le_rfl
  refine ⟨state.2, ?_, hdone.length_eq, ?_⟩
  · simp [balancedDecomposeBiasedWords, hfold]
  · intro level hlevel i hi
    exact hdone.digits level hlevel i hi (by omega)

end kernel

section

variable {F : Type} [Ring F] {toU128Checked : CanonicalU128 F} {q n L : ℕ} {params : BalancedDecomposePow2Params}

omit [Ring F] in
theorem kernel_digits {T : BalancedSignedDigit} {coefficients : List F} (hcanon : ∀ x, ∃ c, toU128Checked x = some c)
    (hp : params.Ok q n L) (hT : L ≤ T.maxLogBasis) (hout : out.length = coefficients.length * n) :
    ∃ out', balancedDecomposeCoefficientsPow2SignedKernel toU128Checked T coefficients out params = some out' ∧
      out'.length = coefficients.length * n ∧
      ∀ level < n, ∀ i < coefficients.length, out'[level * coefficients.length + i]? =
        some (digit params (canonAt toU128Checked coefficients i) level) := by
  have hbits := hp.bits_le
  have hL := hp.logBasis_le
  have hdigs : params.digitBits = n * L := by
    rw [BalancedDecomposePow2Params.digitBits, hp.levels_eq, hp.logBasis_eq]
  unfold balancedDecomposeCoefficientsPow2SignedKernel
  rw [hdigs]
  split
  · exact biasedWords_digits hcanon hp hT (by omega) (by omega) hout
  · exact biasedWords_digits hcanon hp hT (by omega) (by omega) hout
  · exact biasedWords_digits hcanon hp hT (by omega) (by omega) hout
  · exact biasedWords_digits hcanon hp hT (by omega) (by omega) hout

theorem abs_centered_lt (hc : c < q) (hq : q < 2 ^ 128) : |centered n L q c| < 2 ^ 128 := by
  rw [abs_lt]
  unfold centered
  split <;> omega

/-- **Balanced power-of-two decomposition is exact.** For accepted parameters with at least
one level the kernel writes, for every coefficient, balanced digits that recompose to its
centered value modulo `b^n`; to the value itself exactly when it lies in the reported
interval; and to the coefficient modulo `q` when the digits span the field width. -/
theorem balancedDecompose_exact (hlaw : toU128Checked.Lawful q) (hq : 2 < q) (hn : 0 < n)
    (hnew : BalancedDecomposePow2Params.new toU128Checked n L = some params) {T : BalancedSignedDigit}
    (hT : L ≤ T.maxLogBasis) (coefficients : List F) {out : List ℤ} (hout : out.length = coefficients.length * n) :
    ∃ out', balancedDecomposeCoefficientsPow2SignedKernel toU128Checked T coefficients out params = some out' ∧
      out'.length = coefficients.length * n ∧
      ∀ i x c, coefficients[i]? = some x → toU128Checked x = some c → ∃ d : ℕ → ℤ,
        (∀ k < n, out'[k * coefficients.length + i]? = some (d k)) ∧
        (∀ k < n, -2 ^ (L - 1) ≤ d k ∧ d k ≤ 2 ^ (L - 1) - 1) ∧
        ∑ k ∈ range n, d k * 2 ^ (L * k) ≡ centered n L q c [ZMOD 2 ^ (L * n)] ∧
        (∑ k ∈ range n, d k * 2 ^ (L * k) = centered n L q c ↔
          Represents (checkedBalancedDigitRepresentableBounds L n) (centered n L q c)) ∧
        (bitLength (q - 1) ≤ n * L → ∑ k ∈ range n, d k * 2 ^ (L * k) ≡ c [ZMOD q]) := by
  obtain ⟨hlt, hp⟩ := new_ok hlaw hq hnew
  have hcanon : ∀ x, ∃ c, toU128Checked x = some c := by
    intro x
    obtain ⟨c, -, hc⟩ := hlaw.canonical x
    exact ⟨c, hc⟩
  obtain ⟨out', hkernel, hlen, hdigits⟩ := kernel_digits (T := T) hcanon hp hT hout
  refine ⟨out', hkernel, hlen, ?_⟩
  intro i x c hx hc
  have hcq : c < q := by
    obtain ⟨c', hc', hx'⟩ := hlaw.canonical x
    rw [hx'] at hc
    cases hc
    exact hc'
  have hi : i < coefficients.length := (List.getElem?_eq_some_iff.1 hx).1
  have hat : canonAt toU128Checked coefficients i = c := by simp [canonAt, hx, hc]
  have hiff := sum_digits_eq_iff hp hlt hcq
  refine ⟨digit params c, ?_, ?_, ?_, ?_, ?_⟩
  · intro k hk
    rw [hdigits k hk i hi, hat]
  · intro k _
    have hrange : _ ≤ digit params c k ∧ _ := digit_range (by rw [hp.logBasis_eq]; exact hp.logBasis_pos) c k
    rwa [hp.logBasis_eq] at hrange
  · rw [sum_digits hp hlt hcq]
    have hmod := (Int.mod_modEq (centered n L q c + halfSum L n) (2 ^ (L * n))).sub_right (halfSum L n : ℤ)
    rwa [add_sub_cancel_right] at hmod
  · rw [hiff, represents_iff hp.logBasis_pos hp.logBasis_le hn (abs_centered_lt hcq hlt)]
  · intro hwidth
    rw [hiff.2 (centered_reached hp hq hlt hwidth hcq), centered]
    split
    · exact Int.ModEq.refl _
    · exact Int.modEq_iff_dvd.2 ⟨1, by ring⟩

end

/-- The canonical encoding of the field with `q` elements. -/
def zmodCanonical (q : ℕ) : CanonicalU128 (ZMod q) := fun x => some x.val

theorem zmodCanonical_lawful : (zmodCanonical 5).Lawful 5 where
  neg_one := by decide
  canonical x := ⟨x.val, ZMod.val_lt x, rfl⟩

/-- Two digits to base 4 over the field with five elements. -/
theorem balancedDecompose_exact_five :
    ∃ params out', BalancedDecomposePow2Params.new (zmodCanonical 5) 2 2 = some params ∧
      balancedDecomposeCoefficientsPow2SignedKernel (zmodCanonical 5) .i8 [3, 1] [0, 0, 0, 0] params = some out' ∧
      ∃ d : ℕ → ℤ, (∀ k < 2, out'[k * 2]? = some (d k)) ∧ ∑ k ∈ range 2, d k * 2 ^ (2 * k) ≡ 3 [ZMOD 5] := by
  obtain ⟨params, hnew⟩ : ∃ params, BalancedDecomposePow2Params.new (zmodCanonical 5) 2 2 = some params :=
    Option.isSome_iff_exists.1 (by decide +kernel)
  obtain ⟨out', hkernel, -, hdigits⟩ := balancedDecompose_exact zmodCanonical_lawful (by decide) (by decide) hnew
    (T := .i8) (by decide) [3, 1] (rfl : List.length [(0 : ℤ), 0, 0, 0] = 2 * 2)
  obtain ⟨d, hd, -, -, -, hmod⟩ := hdigits 0 3 3 rfl rfl
  exact ⟨params, out', hnew, hkernel, d, hd, hmod (by decide +kernel)⟩

/-- With no level at all the interval is that of one digit, and the empty sum does not reach it. -/
theorem balancedDecompose_zero_levels : ∃ params, BalancedDecomposePow2Params.new (zmodCanonical 5) 0 2 = some params ∧
      balancedDecomposeCoefficientsPow2SignedKernel (zmodCanonical 5) .i8 [1] [] params = some [] ∧
      ¬ (∑ k ∈ range 0, digit params 1 k * 2 ^ (2 * k) = centered 0 2 5 1 ↔
        Represents (checkedBalancedDigitRepresentableBounds 2 0) (centered 0 2 5 1)) := by
  obtain ⟨params, hnew⟩ : ∃ params, BalancedDecomposePow2Params.new (zmodCanonical 5) 0 2 = some params :=
    Option.isSome_iff_exists.1 (by decide +kernel)
  obtain ⟨-, hp⟩ := new_ok zmodCanonical_lawful (by decide) hnew
  have hcanon : ∀ x, ∃ c, zmodCanonical 5 x = some c := fun x => ⟨x.val, rfl⟩
  obtain ⟨out', hkernel, hlen, -⟩ := kernel_digits hcanon hp (by decide) (rfl : [].length = [(1 : ZMod 5)].length * 0)
    (T := .i8)
  have hnil : out' = [] := length_eq_zero_iff.1 (by simpa using hlen)
  have hcentered : centered 0 2 5 1 = 1 := by decide +kernel
  have hbounds : checkedBalancedDigitRepresentableBounds 2 0 = (some 2, some 1) := by decide +kernel
  refine ⟨params, hnew, by rw [hkernel, hnil], ?_⟩
  rw [hcentered, hbounds, range_zero, sum_empty]
  intro hiff
  have hrepresents : Represents (some 2, some 1) 1 :=
    ⟨fun m hm => by cases hm; norm_num, fun m hm => by cases hm; norm_num⟩
  exact absurd (hiff.2 hrepresents) (by norm_num)

end Akita.Decompose
