import Akita.Lib.Bits
import Akita.Proof.NttPrime
import Mathlib.Algebra.BigOperators.ModEq

/-!
# Field limbs reduce exactly

A centered coefficient is the sum of its signed limbs, every scale is a power of two centered
modulo the prime, and the scaled sum stays inside the bound of one signed Montgomery reduction.

* `reduceI32_ok`: one reduction, inside `i64`.
* `slices_getD`: the slices are the base-`2^26` digits.
* `reduce_ok`: the 26-bit limbs reduce to the residue.
* `fieldResidues_ok`: every written entry, and nothing else.
* `balancedLimbs_ok`: the 32-bit limbs of a value up to `2^127`.
* `field_limbs_exact`: all three converters.
-/

namespace Akita.Ntt

open Lib Finset
open List hiding mem_range mem_singleton sum_range_succ

section

/-- Four Newton steps invert an odd number. -/
theorem inverseI32_ok {p : ℤ} (hodd : p % 2 = 1) : p * inverseI32 p ≡ 1 [ZMOD 2 ^ 32] := by
  unfold inverseI32
  have hp : p % 2 ^ 32 ≡ p [ZMOD 2 ^ 32] := Int.mod_modEq _ _
  generalize hq : p % 2 ^ 32 = q at *
  let f : ℤ → ℤ := fun inverse => inverse * ((2 - q * inverse % 2 ^ 32) % 2 ^ 32) % 2 ^ 32
  have hf : ∀ x, f x ≡ x * (2 - q * x) [ZMOD 2 ^ 32] := by
    intro x
    calc x * ((2 - q * x % 2 ^ 32) % 2 ^ 32) % 2 ^ 32 ≡ x * ((2 - q * x % 2 ^ 32) % 2 ^ 32) [ZMOD 2 ^ 32] := Int.mod_modEq _ _
      _ ≡ x * (2 - q * x % 2 ^ 32) [ZMOD 2 ^ 32] := (Int.mod_modEq _ _).mul_left x
      _ ≡ x * (2 - q * x) [ZMOD 2 ^ 32] := ((Int.mod_modEq _ _).sub_left 2).mul_left x
  -- an odd number is its own inverse modulo eight
  have height : (2 ^ 3 : ℤ) ∣ 1 - q * q := by
    have : q % 8 = 1 ∨ q % 8 = 3 ∨ q % 8 = 5 ∨ q % 8 = 7 := by omega
    refine Int.dvd_of_emod_eq_zero ?_
    rcases this with h | h | h | h <;> norm_num [Int.sub_emod, Int.mul_emod, h]
  have hinv := inverse_of_residual (show (2 ^ 32 : ℤ) ∣ 2 ^ 32 from dvd_rfl) (newton_iterate hf 4 q) height (by norm_num)
  calc p * (f^[4] q).bmod (2 ^ 32) ≡ q * f^[4] q [ZMOD 2 ^ 32] := hp.symm.mul (by exact_mod_cast bmod_modEq (f^[4] q) (2 ^ 32))
    _ ≡ 1 [ZMOD 2 ^ 32] := hinv

/-- **One signed Montgomery reduction**, inside `i64`. -/
theorem reduceI32_ok {p pinv t : ℤ} (hinv : p * pinv ≡ 1 [ZMOD 2 ^ 32]) (hp : 0 < p) (hp' : p < 2 ^ 30) (ht : |t| < 2 ^ 31 * p) :
    ∃ r, reduceI32 t p pinv = .ok r ∧ |r| < p ∧ 2 ^ 32 * r ≡ t [ZMOD p] := by
  have hm : (t.bmod (2 ^ 32) * pinv).bmod (2 ^ 32) ≡ t * pinv [ZMOD 2 ^ 32] :=
    calc (t.bmod (2 ^ 32) * pinv).bmod (2 ^ 32) ≡ t.bmod (2 ^ 32) * pinv [ZMOD 2 ^ 32] := by exact_mod_cast bmod_modEq _ _
      _ ≡ t * pinv [ZMOD 2 ^ 32] := (by exact_mod_cast bmod_modEq t (2 ^ 32) : _ ≡ _ [ZMOD 2 ^ 32]).mul_right pinv
  have hbounds := bmod_two_pow_bounds (show 0 < 32 by norm_num) (t.bmod (2 ^ 32) * pinv)
  generalize hmdef : (t.bmod (2 ^ 32) * pinv).bmod (2 ^ 32) = m at *
  have habs : |m| ≤ 2 ^ 31 := abs_le.2 ⟨by omega, by omega⟩
  obtain ⟨r, hr, hrlt⟩ := montgomery_reduce hinv hm habs (by norm_num) hp ht
  have hmp : |m * p| ≤ 2 ^ 31 * p := by
    rw [abs_mul, abs_of_pos hp]
    exact mul_le_mul_of_nonneg_right habs hp.le
  have hdiff : |t - m * p| < 2 ^ 63 := lt_of_le_of_lt (abs_sub _ _) (by linarith)
  have hrb := abs_lt.1 hrlt
  refine ⟨r, ?_, hrlt, Int.modEq_iff_dvd.2 ⟨m, by rw [← hr]; ring⟩⟩
  unfold reduceI32
  dsimp only
  rw [hmdef, i64_ok (by linarith), ok_bind, i64_ok hdiff, ok_bind, hr, Int.mul_ediv_cancel_left _ (by norm_num),
    bmod_two_pow_of_fits (by norm_num) (by norm_num; omega) (by norm_num; omega)]
  rfl

end

theorem NttModulus.bmod_eq {W : PrimeWidth} {p : ℤ} (h : NttModulus W p) : p.bmod (2 ^ 32) = p := by
  have h1 := h.one_lt
  have h2 := h.lt_thirty
  exact bmod_two_pow_of_fits (by norm_num) (by norm_num; omega) (by norm_num; omega)

section slices

variable {W : PrimeWidth}

structure ScalesOk (W : PrimeWidth) (p : ℤ) (scales : FieldLimbScales) : Prop where
  p_eq : scales.p = p
  inverse : p * scales.pinv ≡ 1 [ZMOD 2 ^ 32]
  length_eq : scales.scales.length = 5
  half : ∀ j < 5, 2 * |scales.scales.getD j 0| < p
  congr : ∀ j < 5, scales.scales.getD j 0 ≡ 2 ^ (26 * j + W.rLog + 32) [ZMOD p]

theorem scales_ok {prime : NttPrime W} (h : NttModulus W prime.p) :
    ∃ scales, FieldLimbScales.new W prime = .ok scales ∧ ScalesOk W prime.p scales := by
  have hpos := h.one_lt
  have hlt := h.lt_thirty
  have hres : ∀ exponent, ∃ residue, (List.range exponent).foldlM (fun x _ => do return (← i64 (2 * x)).tmod prime.p) 1 =
      .ok residue ∧ residue = 2 ^ exponent % prime.p := by
    intro exponent
    refine @foldlM_range_runs _ _ _ (fun i x => x = 2 ^ i % prime.p) _ (fun i _ x hx => ?_) _
      (Int.emod_eq_of_lt (by norm_num) (by omega)).symm
    have h1 := Int.emod_nonneg (2 ^ i) (show prime.p ≠ 0 by omega)
    have h2 := Int.emod_lt_of_pos (2 ^ i) (show 0 < prime.p by omega)
    rw [← hx] at h1 h2
    refine ⟨2 * x % prime.p, ?_, ?_⟩
    · rw [i64_ok (by rw [abs_of_nonneg (by omega)]; omega), ok_bind, Int.tmod_eq_emod_of_nonneg (by omega)]
      rfl
    · rw [hx, pow_succ', Int.mul_emod, Int.emod_emod_of_dvd _ dvd_rfl, ← Int.mul_emod]
  obtain ⟨scales, hscales, hlen, hall⟩ := @mapM_range_runs _ _ (fun j => do
      let exponent := limbBits * j + W.rLog + 32
      let residue ← (List.range exponent).foldlM (fun x _ => do return (← i64 (2 * x)).tmod prime.p) 1
      return (if residue > prime.p / 2 then residue - prime.p else residue).bmod (2 ^ 32))
    (fun j s => 2 * |s| < prime.p ∧ s ≡ 2 ^ (26 * j + W.rLog + 32) [ZMOD prime.p]) maxFieldLimbs 0 (by
      intro j _
      obtain ⟨residue, hrun, hval⟩ := hres (limbBits * j + W.rLog + 32)
      have hcent := centered_ok h.odd (show 0 ≤ residue by rw [hval]; exact Int.emod_nonneg _ (by omega))
        (show residue < prime.p by rw [hval]; exact Int.emod_lt_of_pos _ (by omega))
      have hfits := abs_lt.1 (show |if residue > prime.p / 2 then residue - prime.p else residue| < 2 ^ 30 by
        have := abs_nonneg (if residue > prime.p / 2 then residue - prime.p else residue)
        omega)
      refine ⟨if residue > prime.p / 2 then residue - prime.p else residue, ?_, hcent.1, hcent.2.trans ?_⟩
      · dsimp only
        rw [hrun, ok_bind, bmod_two_pow_of_fits (by norm_num) (by norm_num; omega) (by norm_num; omega)]
        rfl
      · rw [hval]
        exact Int.mod_modEq _ _)
  refine ⟨⟨prime.p.bmod (2 ^ 32), inverseI32 (prime.p.bmod (2 ^ 32)), scales⟩, ?_, h.bmod_eq, ?_, hlen, fun j hj => (hall j hj).1,
    fun j hj => (hall j hj).2⟩
  · unfold FieldLimbScales.new
    dsimp only at hscales ⊢
    rw [hscales]
    rfl
  · dsimp only
    rw [h.bmod_eq]
    exact inverseI32_ok h.odd

/-- **The scaled sum of the limbs reduces to their value.** -/
theorem reduce_ok {p : ℤ} (h : NttModulus W p) {scales : FieldLimbScales} (hs : ScalesOk W p scales) {limbs : List ℤ}
    (hlen : limbs.length ≤ 5) (hlimb : ∀ j < limbs.length, |limbs.getD j 0| < 2 ^ 26) :
    ∃ r, scales.reduce limbs = .ok r ∧ |r| < p ∧
      r ≡ (∑ j ∈ range limbs.length, 2 ^ (26 * j) * limbs.getD j 0) * 2 ^ W.rLog [ZMOD p] := by
  have hpos := h.one_lt
  have hlt := h.lt_thirty
  have hziplen : (limbs.zip scales.scales).length = limbs.length := by
    rw [length_zip, hs.length_eq]; omega
  have hprod : ∀ j < limbs.length, 2 * |limbs.getD j 0 * scales.scales.getD j 0| ≤ 2 ^ 26 * p := by
    intro j hj
    rw [abs_mul]
    have h1 := (hlimb j hj).le
    have h2 := (hs.half j (by omega)).le
    calc 2 * (|limbs.getD j 0| * |scales.scales.getD j 0|) = |limbs.getD j 0| * (2 * |scales.scales.getD j 0|) := by ring
      _ ≤ 2 ^ 26 * p := mul_le_mul h1 h2 (by positivity) (by norm_num)
  obtain ⟨t, ht, hsum, hbound⟩ := @foldlM_runs_getD _ _ _ (fun sum (entry : ℤ × ℤ) => do i64 (sum + (← i64 (entry.1 * entry.2))))
    (fun i sum => sum = ∑ j ∈ range i, limbs.getD j 0 * scales.scales.getD j 0 ∧ 2 * |sum| ≤ i * (2 ^ 26 * p))
    (limbs.zip scales.scales) (0, 0) (by
      rintro i hi sum ⟨hsum, hbound⟩
      rw [hziplen] at hi
      have hget : (limbs.zip scales.scales).getD i (0, 0) = (limbs.getD i 0, scales.scales.getD i 0) := by
        rw [getD_eq_getElem _ _ (by omega), getElem_zip, getD_eq_getElem _ _ hi,
          getD_eq_getElem _ _ (by rw [hs.length_eq]; omega)]
      have hterm := hprod i hi
      have hsum' : ∑ j ∈ range (i + 1), limbs.getD j 0 * scales.scales.getD j 0 = sum + limbs.getD i 0 * scales.scales.getD i 0 := by
        rw [sum_range_succ, hsum]
      rw [hget, hsum']
      generalize limbs.getD i 0 * scales.scales.getD i 0 = term at *
      have hnext : 2 * |sum + term| ≤ (i + 1 : ℕ) * (2 ^ 26 * p) := by
        push_cast
        have := abs_add_le sum term
        linarith
      have hfive : ((i + 1 : ℕ) : ℤ) * (2 ^ 26 * p) ≤ 5 * (2 ^ 26 * p) :=
        mul_le_mul_of_nonneg_right (by norm_cast; omega) (by positivity)
      refine ⟨sum + term, ?_, rfl, hnext⟩
      rw [i64_ok (by linarith), ok_bind, i64_ok (by linarith)]) 0 ⟨by simp, by simp⟩
  rw [hziplen] at hsum hbound
  have hfive : (limbs.length : ℤ) * (2 ^ 26 * p) ≤ 5 * (2 ^ 26 * p) :=
    mul_le_mul_of_nonneg_right (by exact_mod_cast hlen) (by positivity)
  obtain ⟨r, hr, hrlt, hrcongr⟩ := reduceI32_ok hs.inverse (by omega) hlt (show |t| < 2 ^ 31 * p by linarith)
  refine ⟨r, ?_, hrlt, modEq_of_two_pow_mul h.odd 32 ?_⟩
  · unfold FieldLimbScales.reduce
    rw [ht, ok_bind, hs.p_eq, hr]
  · calc 2 ^ 32 * r ≡ t [ZMOD p] := hrcongr
      _ = ∑ j ∈ range limbs.length, limbs.getD j 0 * scales.scales.getD j 0 := hsum
      _ ≡ ∑ j ∈ range limbs.length, limbs.getD j 0 * 2 ^ (26 * j + W.rLog + 32) [ZMOD p] := by
        refine Int.ModEq.sum fun j hj => ?_
        have hj := mem_range.1 hj
        exact (hs.congr j (by omega)).mul_left _
      _ = 2 ^ 32 * ((∑ j ∈ range limbs.length, 2 ^ (26 * j) * limbs.getD j 0) * 2 ^ W.rLog) := by
        rw [sum_mul, mul_sum]
        exact sum_congr rfl fun j _ => by rw [pow_add, pow_add]; ring

theorem slice_join (x s : ℕ) {b : ℕ} (hb : b < 32) :
    (x >>> s % 2 ^ 32) >>> b % 2 ^ 26 ||| (x >>> (s + 32) % 2 ^ 32) <<< (32 - b) % 2 ^ 32 % 2 ^ 26 = x / 2 ^ (s + b) % 2 ^ 26 := by
  apply Nat.eq_of_testBit_eq
  intro i
  rw [← Nat.shiftRight_eq_div_pow]
  simp only [Nat.testBit_or, Nat.testBit_mod_two_pow, Nat.testBit_shiftRight, Nat.testBit_shiftLeft]
  by_cases hi : i < 26
  · by_cases hlow : b + i < 32
    · have : ¬ i ≥ 32 - b := by omega
      simp [hi, hlow, this, add_assoc]
    · have hge : i ≥ 32 - b := by omega
      have hlt : i < 32 := by omega
      have hshift : i - (32 - b) < 32 := by omega
      simp [hi, hlow, hge, hlt, hshift, show s + 32 + (i - (32 - b)) = s + b + i by omega]
  · simp [hi]

/-- **The slices are the base-`2^26` digits.** -/
theorem slices_getD {x : ℕ} (hx : x < 2 ^ 128) {j : ℕ} (hj : j < 5) : (slices x).getD j 0 = x / 2 ^ (26 * j) % 2 ^ 26 := by
  have hmask : ∀ y, y &&& limbMask = y % 2 ^ 26 := fun y => Nat.and_two_pow_sub_one_eq_mod y 26
  unfold slices wrapping
  simp only [hmask, Nat.or_mod_two_pow]
  interval_cases j
  · rw [mul_zero, pow_zero, Nat.div_one]
    exact Nat.mod_mod_of_dvd x (show 2 ^ 26 ∣ 2 ^ 32 by norm_num)
  · exact slice_join x 0 (by norm_num)
  · exact slice_join x 32 (by norm_num)
  · exact slice_join x 64 (by norm_num)
  · simp only [getD_cons_succ, getD_cons_zero, Nat.shiftRight_eq_div_pow]
    omega

def centeredValue (q c : ℕ) : ℤ := c - if c > q / 2 then (q : ℤ) else 0

theorem modulus_lt_len {q : ℕ} (hq : q < 2 ^ 128) :
    q < 2 ^ (26 * (FieldModulusLimbs.new q).len) ∧ (FieldModulusLimbs.new q).len ≤ 5 := by
  have hsize : q.size ≤ 128 := Nat.size_le.2 hq
  have hlen : (FieldModulusLimbs.new q).len = max 1 (min ((q.size + 26 - 1) / 26) 5) := rfl
  rw [hlen]
  refine ⟨(Nat.lt_size_self q).trans_le (Nat.pow_le_pow_right (by norm_num) ?_), by omega⟩
  omega

/-- **A centered coefficient is the sum of its limbs**, each below `2^26`. -/
theorem centeredLimbs_ok {q c : ℕ} (hq : q < 2 ^ 128) (hc : c < q) :
    (∀ j < (FieldModulusLimbs.new q).len, |(centeredLimbs (FieldModulusLimbs.new q).len (FieldModulusLimbs.new q) c).getD j 0| < 2 ^ 26) ∧
      ∑ j ∈ range (FieldModulusLimbs.new q).len,
        2 ^ (26 * j) * (centeredLimbs (FieldModulusLimbs.new q).len (FieldModulusLimbs.new q) c).getD j 0 = centeredValue q c := by
  obtain ⟨hcover, hlen⟩ := modulus_lt_len hq
  generalize hL : (FieldModulusLimbs.new q).len = L at *
  have hword : ∀ {x : ℕ}, x < 2 ^ 128 → ∀ j < 5, ((slices x).getD j 0 : ℤ).bmod (2 ^ 32) = (x / 2 ^ (26 * j) % 2 ^ 26 : ℕ) := by
    intro x hx j hj
    rw [slices_getD hx hj]
    exact bmod_two_pow_of_fits (by norm_num) (by norm_num; omega) (by norm_num; omega)
  have hlimb : ∀ j < L, (centeredLimbs L (FieldModulusLimbs.new q) c).getD j 0 =
      (c / 2 ^ (26 * j) % 2 ^ 26 : ℕ) - if c > q / 2 then ((q / 2 ^ (26 * j) % 2 ^ 26 : ℕ) : ℤ) else 0 := by
    intro j hj
    unfold centeredLimbs
    rw [getD_eq_getElem _ _ (by simpa using hj), getElem_map, getElem_range, hword (hc.trans hq) j (by omega)]
    have hmod : (FieldModulusLimbs.new q).limbs.getD j 0 = (q / 2 ^ (26 * j) % 2 ^ 26 : ℕ) := by
      unfold FieldModulusLimbs.new
      rw [← hword hq j (by omega), getD_eq_getElem _ _ (by simp [slices]; omega), getElem_map,
        getD_eq_getElem _ _ (by simp [slices]; omega)]
    rw [hmod]
    rfl
  constructor
  · intro j hj
    rw [hlimb j hj, abs_lt]
    split <;> constructor <;> omega
  · have hsum : ∀ x : ℕ, x < 2 ^ (26 * L) → ∑ j ∈ range L, (2 : ℤ) ^ (26 * j) * (x / 2 ^ (26 * j) % 2 ^ 26 : ℕ) = x := by
      intro x hx
      have := sum_fields x 26 L
      rw [Nat.mod_eq_of_lt hx] at this
      calc ∑ j ∈ range L, (2 : ℤ) ^ (26 * j) * (x / 2 ^ (26 * j) % 2 ^ 26 : ℕ)
          = ((∑ j ∈ range L, x / 2 ^ (26 * j) % 2 ^ 26 * 2 ^ (26 * j) : ℕ) : ℤ) := by
            push_cast
            exact sum_congr rfl fun j _ => mul_comm _ _
        _ = x := by rw [this]
    rw [sum_congr rfl fun j hj => by rw [hlimb j (mem_range.1 hj), mul_sub], sum_sub_distrib, hsum c (hc.trans hcover),
      centeredValue]
    congr 1
    split
    · exact hsum q hcover
    · simp

/-- What the rows hold once the coefficients below `i` are written. -/
structure Written (W : PrimeWidth) (q start : ℕ) (canonical : List ℕ) (primes : List (NttPrime W)) (before : List (List ℤ)) (i : ℕ)
    (after : List (List ℤ)) : Prop where
  length_eq : after.length = before.length
  row_length : ∀ k < before.length, (after.getD k []).length = (before.getD k []).length
  residue : ∀ k < before.length, ∀ j < i, |(after.getD k []).getD (start + j) 0| < (primes.getD k ⟨0, 0, 0, 0⟩).p ∧
      (after.getD k []).getD (start + j) 0 ≡ centeredValue q (canonical.getD j 0) * 2 ^ W.rLog
        [ZMOD (primes.getD k ⟨0, 0, 0, 0⟩).p]
  frame : ∀ k < before.length, ∀ col, col < start ∨ start + i ≤ col →
    (after.getD k []).getD col 0 = (before.getD k []).getD col 0

/-- **Every written entry is the Montgomery form of its centered coefficient**, and no other entry changes. -/
theorem fieldResidues_ok {q start : ℕ} {canonical : List ℕ} {primes : List (NttPrime W)} {out : List (List ℤ)}
    {scales : List FieldLimbScales} (hq : q < 2 ^ 128) (hcanon : ∀ j < canonical.length, canonical.getD j 0 < q)
    (hprimes : ∀ k < out.length, NttModulus W (primes.getD k ⟨0, 0, 0, 0⟩).p) (hlen : scales.length = out.length)
    (hscales : ∀ k < out.length, ScalesOk W (primes.getD k ⟨0, 0, 0, 0⟩).p (scales.getD k ⟨0, 0, []⟩))
    (hroom : ∀ k < out.length, start + canonical.length ≤ (out.getD k []).length) :
    ∃ after, fieldResidues W (FieldModulusLimbs.new q).len out start canonical (FieldModulusLimbs.new q) scales = .ok after ∧
      Written W q start canonical primes out canonical.length after := by
  refine @foldlM_zipIdx_runs _ _ _ _ (Written W q start canonical primes out) canonical 0 (fun i hi rows hrows => ?_) out
    ⟨rfl, fun _ _ => rfl, fun _ _ _ hj => absurd hj (Nat.not_lt_zero _), fun _ _ _ _ => rfl⟩
  obtain ⟨hlimb, hvalue⟩ := centeredLimbs_ok hq (hcanon i hi)
  have hlimbs : (centeredLimbs (FieldModulusLimbs.new q).len (FieldModulusLimbs.new q) (canonical.getD i 0)).length =
      (FieldModulusLimbs.new q).len := by simp [centeredLimbs]
  have hfive := (modulus_lt_len hq).2
  generalize centeredLimbs (FieldModulusLimbs.new q).len (FieldModulusLimbs.new q) (canonical.getD i 0) = limbs at *
  have hziplen : (rows.zip scales).length = out.length := by
    rw [length_zip, hrows.length_eq, hlen, Nat.min_self]
  obtain ⟨after, hafter, hlength, hrow⟩ := @mapM_runs _ _ _ (fun entry : List ℤ × FieldLimbScales => do
      writeAt entry.1 (start + i) (W.fromI64 (← entry.2.reduce limbs)))
    (fun k row => ∃ r, row = (rows.getD k []).set (start + i) r ∧ |r| < (primes.getD k ⟨0, 0, 0, 0⟩).p ∧
      r ≡ centeredValue q (canonical.getD i 0) * 2 ^ W.rLog [ZMOD (primes.getD k ⟨0, 0, 0, 0⟩).p])
    (rows.zip scales) ([], ⟨0, 0, []⟩) [] (by
      intro k hk
      rw [hziplen] at hk
      have hget : (rows.zip scales).getD k ([], ⟨0, 0, []⟩) = (rows.getD k [], scales.getD k ⟨0, 0, []⟩) := by
        rw [getD_eq_getElem _ _ (by omega), getElem_zip, getD_eq_getElem _ _ (by rw [hrows.length_eq]; exact hk),
          getD_eq_getElem _ _ (by omega)]
      obtain ⟨r, hr, hlt, hcongr⟩ := reduce_ok (hprimes k hk) (hscales k hk) (show limbs.length ≤ 5 by omega) (by rwa [hlimbs])
      rw [hlimbs, hvalue] at hcongr
      refine ⟨_, ?_, r, rfl, hlt, hcongr⟩
      rw [hget]
      have hin : start + i < (rows.getD k []).length := by
        rw [hrows.row_length k hk]
        exact lt_of_lt_of_le (by omega) (hroom k hk)
      rw [hr, ok_bind, (hprimes k hk).fromI64_eq hlt, writeAt, if_pos hin])
  rw [hziplen] at hlength hrow
  refine ⟨after, hafter, hlength, fun k hk => ?_, fun k hk j hj => ?_, fun k hk col hcol => ?_⟩
  · obtain ⟨r, hr, -⟩ := hrow k hk
    rw [hr, length_set]
    exact hrows.row_length k hk
  · obtain ⟨r, hr, hlt, hcongr⟩ := hrow k hk
    have hin := hroom k hk
    rw [← hrows.row_length k hk] at hin
    rw [hr]
    rcases eq_or_ne j i with rfl | hne
    · rw [getD_set_self (by omega)]
      exact ⟨hlt, hcongr⟩
    · rw [getD_set_ne (by omega)]
      exact hrows.residue k hk j (by omega)
  · obtain ⟨r, hr, -⟩ := hrow k hk
    rw [hr, getD_set_ne (by omega)]
    exact hrows.frame k hk col (by omega)

end slices

section reducer

variable {W : PrimeWidth} {v : ℤ}

/-- **The balanced limbs of a value up to `2^127`.** -/
theorem balancedLimbs_ok (hv : |v| ≤ 2 ^ 127) :
    ∃ l0 l1 l2 l3, balancedLimbs v = [l0, l1, l2, l3] ∧ |l0| ≤ 2 ^ 31 ∧ |l1| ≤ 2 ^ 31 ∧ |l2| ≤ 2 ^ 31 ∧ |l3| ≤ 2 ^ 31 ∧
      v = l0 + 2 ^ 32 * l1 + 2 ^ 64 * l2 + 2 ^ 96 * l3 := by
  -- one step cuts a balanced limb off, and the rest loses 32 bits
  have hstep : ∀ x : ℤ, x = x.bmod (2 ^ 32) + 2 ^ 32 * (x / 2 ^ 32 + if x.bmod (2 ^ 32) < 0 then 1 else 0) ∧
      |x.bmod (2 ^ 32)| ≤ 2 ^ 31 := by
    intro x
    have hbounds := bmod_two_pow_bounds (show 0 < 32 by norm_num) x
    have hdvd := (bmod_modEq x (2 ^ 32)).dvd
    refine ⟨?_, abs_le.2 ⟨by omega, by omega⟩⟩
    split <;> omega
  have hrest : ∀ (x : ℤ) (n : ℕ), |x| ≤ 2 ^ (n + 32 + 31) → |x / 2 ^ 32 + if x.bmod (2 ^ 32) < 0 then 1 else 0| ≤ 2 ^ (n + 31) := by
    intro x n hx
    have hx := abs_le.1 hx
    have hbounds := bmod_two_pow_bounds (show 0 < 32 by norm_num) x
    have := (hstep x).1
    have hpow : (2 : ℤ) ^ (n + 32 + 31) = 2 ^ 32 * 2 ^ (n + 31) := by rw [← pow_add]; congr 1; omega
    rw [hpow] at hx
    generalize (2 : ℤ) ^ (n + 31) = B at *
    refine abs_le.2 ⟨by omega, by omega⟩
  obtain ⟨v1, hv1⟩ : ∃ v1, v / 2 ^ 32 + (if v.bmod (2 ^ 32) < 0 then 1 else 0) = v1 := ⟨_, rfl⟩
  obtain ⟨v2, hv2⟩ : ∃ v2, v1 / 2 ^ 32 + (if v1.bmod (2 ^ 32) < 0 then 1 else 0) = v2 := ⟨_, rfl⟩
  obtain ⟨v3, hv3⟩ : ∃ v3, v2 / 2 ^ 32 + (if v2.bmod (2 ^ 32) < 0 then 1 else 0) = v3 := ⟨_, rfl⟩
  have h1 : |v1| ≤ 2 ^ (64 + 31) := hv1 ▸ hrest v 64 hv
  have h2 : |v2| ≤ 2 ^ (32 + 31) := hv2 ▸ hrest v1 32 h1
  have h3 : |v3| ≤ 2 ^ (0 + 31) := hv3 ▸ hrest v2 0 h2
  have htop := abs_le.1 h3
  refine ⟨v.bmod (2 ^ 32), v1.bmod (2 ^ 32), v2.bmod (2 ^ 32), v3, ?_, (hstep v).2, (hstep v1).2, (hstep v2).2, h3, ?_⟩
  · have hlimbs : balancedLimbs v = [v.bmod (2 ^ 32), v1.bmod (2 ^ 32), v2.bmod (2 ^ 32), v3.bmod (2 ^ 64)] := by
      rw [← hv3, ← hv2, ← hv1]
      rfl
    rw [hlimbs, bmod_two_pow_of_fits (show 0 < 64 by norm_num) (x := v3) (by norm_num at htop ⊢; omega) (by norm_num at htop ⊢; omega)]
  · have e1 := (hstep v).1
    have e2 := (hstep v1).1
    have e3 := (hstep v2).1
    rw [hv1] at e1
    rw [hv2] at e2
    rw [hv3] at e3
    linarith

theorem scaleLoop_ok {p two32 : ℤ} (hodd : p % 2 = 1) (hp : 1 < p) (hp' : p < 2 ^ 30) (h0 : 0 ≤ two32) (htwo : two32 < p) (n : ℕ) :
    ∀ {power : ℤ}, 0 ≤ power → power < p → ∃ scale, CenteredMontReducer.scaleLoop p two32 n power = .ok scale ∧ scale.length = n ∧
      ∀ j < n, 2 * |scale.getD j 0| < p ∧ scale.getD j 0 ≡ power * two32 ^ j [ZMOD p] := by
  induction n with
  | zero => exact fun _ _ => ⟨[], rfl, rfl, fun j hj => absurd hj (Nat.not_lt_zero j)⟩
  | succ n ih =>
    intro power hpower hlt
    have hprod : |power * two32| < 2 ^ 63 := by
      rw [abs_of_nonneg (mul_nonneg hpower h0)]
      calc power * two32 ≤ 2 ^ 30 * 2 ^ 30 := mul_le_mul (by omega) (by omega) h0 (by norm_num)
        _ < 2 ^ 63 := by norm_num
    have hnext : (power * two32).tmod p = power * two32 % p := Int.tmod_eq_emod_of_nonneg (mul_nonneg hpower h0)
    obtain ⟨scale, hrun, hlen, hscale⟩ := @ih ((power * two32).tmod p) (by rw [hnext]; exact Int.emod_nonneg _ (by omega))
      (by rw [hnext]; exact Int.emod_lt_of_pos _ (by omega))
    have hcent := centered_ok hodd hpower hlt
    refine ⟨(if power > p / 2 then power - p else power) :: scale, ?_, by simp [hlen], ?_⟩
    · rw [CenteredMontReducer.scaleLoop]
      rw [i64_ok hprod, ok_bind, hrun, ok_bind]
      rfl
    · rintro (_ | j) hj
      · rw [getD_cons_zero, pow_zero, mul_one]
        exact hcent
      · rw [getD_cons_succ]
        refine ⟨(hscale j (by omega)).1, (hscale j (by omega)).2.trans ?_⟩
        calc (power * two32).tmod p * two32 ^ j ≡ power * two32 * two32 ^ j [ZMOD p] := by
              rw [hnext]
              exact (Int.mod_modEq _ _).mul_right _
          _ = power * two32 ^ (j + 1) := by ring

structure ReducerOk (W : PrimeWidth) (p : ℤ) (reducer : CenteredMontReducer) : Prop where
  p_eq : reducer.p = p
  inverse : p * reducer.pinv ≡ 1 [ZMOD 2 ^ 32]
  half : ∀ j < 4, 2 * |reducer.scale.getD j 0| < p
  congr : ∀ j < 4, reducer.scale.getD j 0 ≡ 2 ^ (W.rLog + 32) * 2 ^ (32 * j) [ZMOD p]

theorem reducer_ok {prime : NttPrime W} (h : NttModulus W prime.p) :
    ∃ reducer, CenteredMontReducer.new W prime = .ok reducer ∧ ReducerOk W prime.p reducer := by
  have hpos := h.one_lt
  have hne : prime.p ≠ 0 := by omega
  have hpow : ∀ n : ℕ, (2 ^ n : ℤ).tmod prime.p = 2 ^ n % prime.p := fun n => Int.tmod_eq_emod_of_nonneg (by positivity)
  obtain ⟨scale, hrun, -, hscale⟩ := @scaleLoop_ok prime.p ((2 ^ 32 : ℤ).tmod prime.p) h.odd hpos h.lt_thirty
    (by rw [hpow]; exact Int.emod_nonneg _ hne) (by rw [hpow]; exact Int.emod_lt_of_pos _ (by omega)) 4
    ((2 ^ (W.rLog + 32) : ℤ).tmod prime.p) (by rw [hpow]; exact Int.emod_nonneg _ hne)
    (by rw [hpow]; exact Int.emod_lt_of_pos _ (by omega))
  refine ⟨⟨prime.p, inverseI32 (prime.p.bmod (2 ^ 32)), scale⟩, ?_, rfl, ?_, fun j hj => (hscale j hj).1, fun j hj => ?_⟩
  · unfold CenteredMontReducer.new
    dsimp only
    rw [hrun]
    rfl
  · dsimp only
    rw [h.bmod_eq]
    exact inverseI32_ok h.odd
  · refine (hscale j hj).2.trans ?_
    rw [hpow, hpow, pow_mul]
    exact (Int.mod_modEq _ _).mul ((Int.mod_modEq _ _).pow j)

variable {p : ℤ} {reducer : CenteredMontReducer}

theorem redc_ok (h : NttModulus W p) (hr : ReducerOk W p reducer) {t : ℤ} (ht : |t| < 2 ^ 31 * p) :
    ∃ r, reducer.redc t = .ok r ∧ |r| < p ∧ 2 ^ 32 * r ≡ t [ZMOD p] := by
  unfold CenteredMontReducer.redc
  rw [hr.p_eq, h.bmod_eq]
  exact reduceI32_ok hr.inverse (by linarith [h.one_lt]) h.lt_thirty ht

theorem scaled_le (hr : ReducerOk W p reducer) {l : ℤ} (hl : |l| ≤ 2 ^ 31) {j : ℕ} (hj : j < 4) :
    2 * |l * reducer.scale.getD j 0| ≤ 2 ^ 31 * (p - 1) := by
  rw [abs_mul]
  have hhalf := hr.half j hj
  calc 2 * (|l| * |reducer.scale.getD j 0|) = |l| * (2 * |reducer.scale.getD j 0|) := by ring
    _ ≤ 2 ^ 31 * (p - 1) := mul_le_mul hl (by omega) (by positivity) (by norm_num)

section

variable (h : NttModulus W p) (hr : ReducerOk W p reducer)

include h hr

/-- **`reduce_i32`** on every value of its type. -/
theorem reducer_reduceI32_ok (hv : |v| ≤ 2 ^ 31) :
    ∃ r, reducer.reduceI32 W v = .ok r ∧ |r| < p ∧ r ≡ v * 2 ^ W.rLog [ZMOD p] := by
  have hlt := h.lt_thirty
  have hscaled := scaled_le hr hv (show 0 < 4 by norm_num)
  have hnonneg := abs_nonneg (v * reducer.scale.getD 0 0)
  obtain ⟨r, hrun, hrlt, hcongr⟩ := redc_ok h hr (show |v * reducer.scale.getD 0 0| < 2 ^ 31 * p by linarith)
  refine ⟨r, ?_, hrlt, modEq_of_two_pow_mul h.odd 32 ?_⟩
  · unfold CenteredMontReducer.reduceI32
    rw [i64_ok (by linarith), ok_bind, hrun, ok_bind, h.fromI64_eq hrlt]
    rfl
  · calc 2 ^ 32 * r ≡ v * reducer.scale.getD 0 0 [ZMOD p] := hcongr
      _ ≡ v * (2 ^ (W.rLog + 32) * 2 ^ (32 * 0)) [ZMOD p] := (hr.congr 0 (by norm_num)).mul_left v
      _ = 2 ^ 32 * (v * 2 ^ W.rLog) := by rw [pow_add]; ring

theorem pair_ok {limbs : List ℤ} {j : ℕ} (hj : j + 1 < 4)
    (hlow : |limbs.getD j 0| ≤ 2 ^ 31) (hhigh : |limbs.getD (j + 1) 0| ≤ 2 ^ 31) :
    ∃ r, (do reducer.redc (← reducer.pairSum limbs j)) = .ok r ∧ |r| < p ∧
      2 ^ 32 * r ≡ (limbs.getD j 0 + 2 ^ 32 * limbs.getD (j + 1) 0) * (2 ^ (W.rLog + 32) * 2 ^ (32 * j)) [ZMOD p] := by
  have hlt := h.lt_thirty
  have b0 := scaled_le hr hlow (show j < 4 by omega)
  have b1 := scaled_le hr hhigh hj
  have n0 := abs_nonneg (limbs.getD j 0 * reducer.scale.getD j 0)
  have n1 := abs_nonneg (limbs.getD (j + 1) 0 * reducer.scale.getD (j + 1) 0)
  have hsum := abs_add_le (limbs.getD j 0 * reducer.scale.getD j 0) (limbs.getD (j + 1) 0 * reducer.scale.getD (j + 1) 0)
  obtain ⟨r, hrun, hrlt, hcongr⟩ := redc_ok h hr
    (show |limbs.getD j 0 * reducer.scale.getD j 0 + limbs.getD (j + 1) 0 * reducer.scale.getD (j + 1) 0| < 2 ^ 31 * p by linarith)
  refine ⟨r, ?_, hrlt, ?_⟩
  · unfold CenteredMontReducer.pairSum
    rw [i64_ok (show |limbs.getD j 0 * reducer.scale.getD j 0| < 2 ^ 63 by linarith), ok_bind,
      i64_ok (show |limbs.getD (j + 1) 0 * reducer.scale.getD (j + 1) 0| < 2 ^ 63 by linarith), ok_bind, i64_ok (by linarith), ok_bind,
      hrun]
  · calc 2 ^ 32 * r ≡ limbs.getD j 0 * reducer.scale.getD j 0 + limbs.getD (j + 1) 0 * reducer.scale.getD (j + 1) 0 [ZMOD p] := hcongr
      _ ≡ limbs.getD j 0 * (2 ^ (W.rLog + 32) * 2 ^ (32 * j)) + limbs.getD (j + 1) 0 * (2 ^ (W.rLog + 32) * 2 ^ (32 * (j + 1))) [ZMOD p] :=
        ((hr.congr j (by omega)).mul_left _).add ((hr.congr (j + 1) hj).mul_left _)
      _ = (limbs.getD j 0 + 2 ^ 32 * limbs.getD (j + 1) 0) * (2 ^ (W.rLog + 32) * 2 ^ (32 * j)) := by
        rw [show 32 * (j + 1) = 32 * j + 32 by ring, pow_add _ (32 * j)]
        ring

/-- **The balanced limbs reduce to their value.** -/
theorem reduceLimbs_ok (hv : |v| ≤ 2 ^ 127) :
    ∃ r, reducer.reduceLimbs W (balancedLimbs v) = .ok r ∧ |r| < p ∧ r ≡ v * 2 ^ W.rLog [ZMOD p] := by
  have hlt := h.lt_thirty
  obtain ⟨l0, l1, l2, l3, hlimbs, h0, h1, h2, h3, hvalue⟩ := balancedLimbs_ok hv
  obtain ⟨low, hlow, hlowlt, hlowcongr⟩ := @pair_ok _ _ _ h hr [l0, l1, l2, l3] 0 (by norm_num) h0 h1
  obtain ⟨high, hhigh, hhighlt, hhighcongr⟩ := @pair_ok _ _ _ h hr [l0, l1, l2, l3] 2 (by norm_num) h2 h3
  have hlowb := abs_lt.1 hlowlt
  have hhighb := abs_lt.1 hhighlt
  have hsum : |low + high| < 2 ^ 63 := (abs_add_le low high).trans_lt (by linarith)
  have hcongr : low + high ≡ v * 2 ^ W.rLog [ZMOD p] := by
    refine modEq_of_two_pow_mul h.odd 32 ?_
    rw [mul_add]
    refine (hlowcongr.add hhighcongr).trans ?_
    rw [hvalue, pow_add]
    ring_nf
    exact Int.ModEq.refl _
  rw [hlimbs]
  unfold CenteredMontReducer.reduceLimbs
  obtain ⟨lowSum, hlowSum, hlow⟩ := bind_eq_ok.1 hlow
  obtain ⟨highSum, hhighSum, hhigh⟩ := bind_eq_ok.1 hhigh
  rw [hlowSum, ok_bind, hlow, ok_bind, hhighSum, ok_bind, hhigh, ok_bind, i64_ok hsum, ok_bind, hr.p_eq]
  obtain ⟨s, hs, hslt, hscongr⟩ : ∃ s, (if low + high ≥ p then low + high - p else if low + high ≤ -p then low + high + p
      else low + high) = s ∧ |s| < p ∧ s ≡ low + high [ZMOD p] := by
    refine ⟨_, rfl, ?_⟩
    split
    · exact ⟨abs_lt.2 ⟨by omega, by omega⟩, Int.modEq_iff_dvd.2 ⟨1, by ring⟩⟩
    · split
      · exact ⟨abs_lt.2 ⟨by omega, by omega⟩, Int.modEq_iff_dvd.2 ⟨-1, by ring⟩⟩
      · exact ⟨abs_lt.2 ⟨by omega, by omega⟩, Int.ModEq.refl _⟩
  refine ⟨s, ?_, hslt, hscongr.trans hcongr⟩
  rw [hs, h.fromI64_eq hslt]
  rfl

end

end reducer

/-- **Field limb reduction is exact**: of canonical coefficients by 26-bit limbs, of values up to `2^127` by balanced 32-bit limbs,
and of every 32-bit value. -/
theorem field_limbs_exact (W : PrimeWidth) :
    (∀ (q start : ℕ) (canonical : List ℕ) (primes : List (NttPrime W)) (out : List (List ℤ)), q < 2 ^ 128 →
      (∀ c ∈ canonical, c < q) → (∀ prime ∈ primes, NttModulus W prime.p) → out.length = primes.length →
      (∀ row ∈ out, start + canonical.length ≤ row.length) →
      ∃ scales after, primes.mapM (FieldLimbScales.new W) = .ok scales ∧
        fieldResidues W (FieldModulusLimbs.new q).len out start canonical (FieldModulusLimbs.new q) scales = .ok after ∧
        Written W q start canonical primes out canonical.length after) ∧
    ∀ prime : NttPrime W, NttModulus W prime.p → ∃ reducer, CenteredMontReducer.new W prime = .ok reducer ∧
      (∀ v : ℤ, |v| ≤ 2 ^ 127 →
        ∃ r, reducer.reduceLimbs W (balancedLimbs v) = .ok r ∧ |r| < prime.p ∧ r ≡ v * 2 ^ W.rLog [ZMOD prime.p]) ∧
      ∀ v : ℤ, -2 ^ 31 ≤ v → v < 2 ^ 31 → ∃ r, reducer.reduceI32 W v = .ok r ∧ |r| < prime.p ∧ r ≡ v * 2 ^ W.rLog [ZMOD prime.p] := by
  refine ⟨fun q start canonical primes out hq hcanonical hprimes hlen hroom => ?_, fun prime hprime => ?_⟩
  · have hmem : ∀ k < primes.length, NttModulus W (primes.getD k ⟨0, 0, 0, 0⟩).p := fun k hk => by
      rw [getD_eq_getElem _ _ hk]
      exact hprimes _ (getElem_mem hk)
    obtain ⟨scales, hscales, hscalesLen, hok⟩ := @mapM_runs _ _ _ (FieldLimbScales.new W)
      (fun k => ScalesOk W (primes.getD k ⟨0, 0, 0, 0⟩).p) primes ⟨0, 0, 0, 0⟩ ⟨0, 0, []⟩ fun k hk => scales_ok (hmem k hk)
    rw [hlen.symm] at hscalesLen hok hmem
    obtain ⟨after, hafter, hwritten⟩ := @fieldResidues_ok W q start canonical primes out scales hq
      (fun j hj => by rw [getD_eq_getElem _ _ hj]; exact hcanonical _ (getElem_mem hj)) hmem hscalesLen hok
      (fun k hk => by rw [getD_eq_getElem _ _ hk]; exact hroom _ (getElem_mem hk))
    exact ⟨scales, after, hscales, hafter, hwritten⟩
  · obtain ⟨reducer, hnew, hok⟩ := reducer_ok hprime
    exact ⟨reducer, hnew, fun v hv => reduceLimbs_ok hprime hok hv,
      fun v hlow hhigh => reducer_reduceI32_ok hprime hok (abs_le.2 ⟨hlow, hhigh.le⟩)⟩

/-- Two coefficients modulo one prime, after an entry that stays. -/
theorem field_limbs_exact_two :
    ∃ scales after, [NttPrime.compute .i16 257].mapM (FieldLimbScales.new .i16) = .ok scales ∧
      fieldResidues .i16 (FieldModulusLimbs.new 97).len [[7, 0, 0]] 1 [5, 90] (FieldModulusLimbs.new 97) scales = .ok after ∧
      Written .i16 97 1 [5, 90] [NttPrime.compute .i16 257] [[7, 0, 0]] 2 after :=
  (field_limbs_exact .i16).1 97 1 [5, 90] [NttPrime.compute .i16 257] [[7, 0, 0]] (by norm_num) (by decide)
    (fun prime hprime => by
      rw [List.mem_singleton.1 hprime]
      exact ⟨by decide, by decide, by decide⟩) rfl (by decide)

end Akita.Ntt
