import Akita.Proof.BalancedDecompose
import Akita.Spec.DigitDepth

/-!
# Digit depths are least

`n` balanced digits in base `2^L` hold exactly the integers of `[-H, P]`, where `H` and `P` are
half the base and half the base less one in every digit.

* `balancedValues_eq_Icc`: the interval of `n` digits.
* `le_balancedDigitMax_iff`: the saturated reach answers as the exact one does.
* `computeNumDigitsOn_least`: the quotient depth with its one-digit correction is the least.
* `digit_depth_least`: both depth functions return the least depth that covers their range.
-/

namespace Akita.Decompose

open Finset

/-- `P`: half the base less one in every digit. -/
def positiveReach (L n : ℕ) : ℕ := (2 ^ (L - 1) - 1) * series L n

/-- The values of `n` balanced digits in base `2^L`. -/
def balancedValues (L n : ℕ) : Set ℤ :=
  {x | ∃ d : ℕ → ℤ, (∀ i < n, -2 ^ (L - 1) ≤ d i ∧ d i < 2 ^ (L - 1)) ∧ x = ∑ i ∈ range n, d i * 2 ^ (L * i)}

/-- `[-2^(k-1), 2^(k-1) - 1]`, with both ends doubled. -/
def signedRange (k : ℕ) : Set ℤ := {x | -2 ^ k ≤ 2 * x ∧ 2 * x ≤ 2 ^ k - 2}

section

variable {L : ℕ}

theorem series_succ' (L n : ℕ) : series L (n + 1) = 1 + 2 ^ L * series L n := by
  unfold series
  rw [sum_range_succ', mul_sum, add_comm]
  congr 1
  exact sum_congr rfl fun i _ => by rw [← pow_add]; congr 1; ring

theorem exists_low_digit (hL : 0 < L) (x : ℤ) : ∃ d y : ℤ, -2 ^ (L - 1) ≤ d ∧ d < 2 ^ (L - 1) ∧ x = d + 2 ^ L * y := by
  have hpow : (2 : ℤ) ^ L = 2 * 2 ^ (L - 1) := by
    rw [← pow_succ']; congr 1; omega
  have hpos : (0 : ℤ) < 2 ^ L := by positivity
  have hdiv := Int.emod_add_mul_ediv (x + 2 ^ (L - 1)) (2 ^ L)
  exact ⟨(x + 2 ^ (L - 1)) % 2 ^ L - 2 ^ (L - 1), (x + 2 ^ (L - 1)) / 2 ^ L, by omega, by omega, by omega⟩

theorem balancedValues_succ (n : ℕ) (x : ℤ) : x ∈ balancedValues L (n + 1) ↔
    ∃ d y : ℤ, (-2 ^ (L - 1) ≤ d ∧ d < 2 ^ (L - 1)) ∧ y ∈ balancedValues L n ∧ x = d + 2 ^ L * y := by
  have hshift (f : ℕ → ℤ) : ∑ i ∈ range n, f i * 2 ^ (L * (i + 1)) = 2 ^ L * ∑ i ∈ range n, f i * 2 ^ (L * i) := by
    rw [mul_sum]
    exact sum_congr rfl fun i _ => by rw [Nat.mul_succ, pow_add]; ring
  constructor
  · rintro ⟨d, hd, rfl⟩
    refine ⟨d 0, _, hd 0 (by omega), ⟨fun i => d (i + 1), fun i hi => hd (i + 1) (by omega), rfl⟩, ?_⟩
    rw [sum_range_succ', hshift, mul_zero, pow_zero, mul_one, add_comm]
  · rintro ⟨d0, _, hd0, ⟨d, hd, rfl⟩, rfl⟩
    refine ⟨fun i => if i = 0 then d0 else d (i - 1), ?_, ?_⟩
    · intro i hi
      dsimp only
      split
      · exact hd0
      · exact hd (i - 1) (by omega)
    · simp only [sum_range_succ', Nat.add_eq_zero_iff, one_ne_zero, and_false, if_false, Nat.add_sub_cancel, if_true,
        mul_zero, pow_zero, mul_one]
      rw [hshift, add_comm]

/-- **The interval of `n` balanced digits.** -/
theorem balancedValues_eq_Icc (hL : 0 < L) (n : ℕ) :
    balancedValues L n = Set.Icc (-(halfSum L n : ℤ)) (positiveReach L n) := by
  have hpow : (2 : ℤ) ^ L = 2 * 2 ^ (L - 1) := by
    rw [← pow_succ']; congr 1; omega
  induction n with
  | zero =>
    ext x
    simp [balancedValues, halfSum, positiveReach, series]
  | succ n ih =>
    have hhalf : (halfSum L (n + 1) : ℤ) = 2 ^ (L - 1) + 2 ^ L * halfSum L n := by
      simp only [halfSum, series_succ']; push_cast; ring
    have hreach : (positiveReach L (n + 1) : ℤ) = 2 ^ (L - 1) - 1 + 2 ^ L * positiveReach L n := by
      simp only [positiveReach, series_succ']
      rw [Nat.cast_mul, Nat.cast_mul, Nat.cast_sub Nat.one_le_two_pow]
      push_cast; ring
    ext x
    rw [balancedValues_succ, ih, Set.mem_Icc, hhalf, hreach]
    generalize (halfSum L n : ℤ) = H
    generalize (positiveReach L n : ℤ) = P
    constructor
    · rintro ⟨d, y, ⟨hd, hd'⟩, ⟨hy, hy'⟩, rfl⟩
      have h1 : 2 ^ L * -H ≤ 2 ^ L * y := by gcongr
      have h2 : 2 ^ L * y ≤ 2 ^ L * P := by gcongr
      rw [mul_neg] at h1
      omega
    · rintro ⟨hx, hx'⟩
      obtain ⟨d, y, hd, hd', rfl⟩ := exists_low_digit hL x
      refine ⟨d, y, ⟨hd, hd'⟩, ⟨?_, ?_⟩, rfl⟩
      · by_contra hy
        have : 2 ^ L * y ≤ 2 ^ L * (-H - 1) := by gcongr; omega
        rw [mul_sub, mul_neg] at this
        omega
      · by_contra hy
        have : 2 ^ L * (P + 1) ≤ 2 ^ L * y := by gcongr; omega
        rw [mul_add] at this
        omega

end

section

variable {L : ℕ}

theorem balancedDigitMax_eq {n : ℕ} (hL : 0 < L) (hL' : L < 128) (hn : 0 < n) :
    balancedDigitMax L n = if positiveReach L n < 2 ^ 128 then positiveReach L n else 2 ^ 128 - 1 := by
  unfold balancedDigitMax checkedShlOne
  rw [if_neg (by omega), if_pos (by omega), Option.map_some]
  dsimp only
  rw [checkedDigitReach_eq hL hL' hn]
  unfold positiveReach
  split <;> rfl

/-- A reach that answers as the exact one does on what a `u128` can hold. -/
def ReachesAs (digitMax : ℕ → ℕ → ℕ) (L : ℕ) : Prop :=
  ∀ n v, 0 < n → v < 2 ^ 128 → (v ≤ digitMax L n ↔ v ≤ positiveReach L n)

theorem positiveReach_reachesAs (L : ℕ) : ReachesAs positiveReach L := fun _ _ _ _ => Iff.rfl

/-- **Saturation does not change a comparison.** -/
theorem le_balancedDigitMax_iff (hL : 0 < L) (hL' : L < 128) : ReachesAs balancedDigitMax L := by
  intro n v hn hv
  rw [balancedDigitMax_eq hL hL' hn]
  split <;> omega

theorem series_mono (L : ℕ) : Monotone (series L) :=
  monotone_nat_of_le_succ fun n => by rw [series_succ]; exact Nat.le_add_right _ _

theorem positiveReach_mono (L : ℕ) : Monotone (positiveReach L) := fun _ _ h => Nat.mul_le_mul_left _ (series_mono L h)

theorem positiveReach_le_halfSum (L n : ℕ) : positiveReach L n ≤ halfSum L n := Nat.mul_le_mul_right _ (Nat.sub_le _ _)

theorem two_mul_positiveReach_lt (hL : 0 < L) (n : ℕ) : 2 * positiveReach L n < 2 ^ (L * n) := by
  have hsum := halfSum_add_reach hL n
  have hle := positiveReach_le_halfSum L n
  rw [← positiveReach] at hsum
  omega

theorem pow_le_positiveReach_succ (hL : 2 ≤ L) (n : ℕ) : 2 ^ (L * n) ≤ positiveReach L (n + 1) := by
  have hdigit : 2 ^ 1 ≤ 2 ^ (L - 1) := Nat.pow_le_pow_right (by omega) (by omega)
  calc 2 ^ (L * n) ≤ series L (n + 1) := by rw [series_succ]; exact Nat.le_add_left _ _
    _ ≤ positiveReach L (n + 1) := Nat.le_mul_of_pos_left _ (by omega)

theorem isLeast_of_step {v n : ℕ} (hn : 1 ≤ n) (hreach : v ≤ positiveReach L n)
    (hbelow : ∀ m, 1 ≤ m → m + 1 = n → positiveReach L m < v) : IsLeast {n | 1 ≤ n ∧ v ≤ positiveReach L n} n := by
  refine ⟨⟨hn, hreach⟩, fun m hm => ?_⟩
  by_contra hlt
  obtain ⟨k, rfl⟩ : ∃ k, n = k + 1 := ⟨n - 1, by omega⟩
  have hstep := hbelow k (hm.1.trans (by omega)) rfl
  have hmono := positiveReach_mono L (show m ≤ k by omega)
  exact absurd (hm.2.trans hmono) (by omega)

end

section depth

variable {L : ℕ} {digitMax : ℕ → ℕ → ℕ} {k n : ℕ}

/-- **The quotient depth with its one-digit correction is the least.** -/
theorem computeNumDigitsOn_least (hL : 2 ≤ L) (hL' : L < 128) (hmax : ReachesAs digitMax L) (hk : k ≤ 128) :
    ∃ n, computeNumDigitsOn digitMax k L = .ok n ∧ IsLeast {n | 1 ≤ n ∧ 2 ^ (k - 1) - 1 ≤ positiveReach L n} n := by
  unfold computeNumDigitsOn
  rw [ensure, if_pos ⟨by omega, hL'⟩, ok_bind, ensure, if_pos hk, ok_bind]
  by_cases h0 : k = 0
  · subst h0
    exact ⟨1, rfl, isLeast_of_step le_rfl (by simp) (by omega)⟩
  rw [if_neg h0]
  dsimp only
  obtain ⟨m, hm⟩ : ∃ m, (k + L - 1) / L = m + 1 := ⟨(k + L - 1) / L - 1, by
    have : 1 ≤ (k + L - 1) / L := (Nat.one_le_div_iff (by omega)).2 (by omega)
    omega⟩
  have hlow : L * m < k := by
    have := Nat.div_mul_le_self (k + L - 1) L
    rw [hm, add_mul, mul_comm m] at this
    omega
  have hhigh : k ≤ L * (m + 1) := by
    have := Nat.lt_mul_div_succ (k + L - 1) (show 0 < L by omega)
    rw [hm, Nat.mul_succ] at this
    omega
  have hbound : 2 ^ (k - 1) - 1 < 2 ^ 128 :=
    lt_of_le_of_lt (Nat.sub_le _ _) (Nat.pow_lt_pow_right (by omega) (by omega))
  rw [hm]
  by_cases hshort : digitMax L (m + 1) < 2 ^ (k - 1) - 1
  · -- the quotient falls short, and the next power of the base exceeds the bound
    have hcover : 2 ^ (k - 1) ≤ 2 ^ (L * (m + 1)) := Nat.pow_le_pow_right (by omega) (by omega)
    have hreach := pow_le_positiveReach_succ hL (m + 1)
    have hbelow := (hmax (m + 1) _ (by omega) hbound).not.1 (by omega)
    refine ⟨m + 1 + 1, by rw [if_pos hshort, max_eq_left (by omega)]; rfl, isLeast_of_step (by omega) (by omega) ?_⟩
    rintro j - hj
    obtain rfl : j = m + 1 := by omega
    omega
  · refine ⟨m + 1, by rw [if_neg hshort, max_eq_left (by omega)]; rfl, isLeast_of_step (by omega)
      ((hmax (m + 1) _ (by omega) hbound).1 (by omega)) ?_⟩
    rintro j hj1 hj
    obtain rfl : j = m := by omega
    -- `L * j` bits lie below the sign bit, and the reach is less than half of them
    have hhalf := two_mul_positiveReach_lt (show 0 < L by omega) j
    have hpow : 2 ^ (L * j) ≤ 2 ^ (k - 1) := Nat.pow_le_pow_right (by omega) (by omega)
    have htwo : L ≤ L * j := Nat.le_mul_of_pos_right _ (by omega)
    have hfour : 2 ^ 2 ≤ 2 ^ (k - 1) := Nat.pow_le_pow_right (by omega) (by omega)
    omega

/-- Both searches agree with the exact reach, so both return the least depth. -/
theorem numDigitsForLinfCapOn_least (hL : 2 ≤ L) (hL' : L < 128) (hmax : ReachesAs digitMax L) {cap fieldBits : ℕ}
    (hbits : fieldBits ≤ 128) (hcap : cap.size + 1 < fieldBits) :
    ∃ n, numDigitsForLinfCapOn digitMax cap fieldBits L = .ok n ∧ IsLeast {n | 1 ≤ n ∧ cap ≤ positiveReach L n} n := by
  unfold numDigitsForLinfCapOn
  rw [ensure, if_pos ⟨by omega, hL'⟩, ok_bind]
  by_cases h0 : cap = 0
  · subst h0
    exact ⟨1, rfl, isLeast_of_step le_rfl (Nat.zero_le _) (by omega)⟩
  have hsigned : min (bitLength cap + 1) (2 ^ 32 - 1) = cap.size + 1 := by unfold bitLength; omega
  obtain ⟨fallback, hfallback, hleast⟩ := computeNumDigitsOn_least hL hL' hmax (show cap.size + 1 ≤ 128 by omega)
  rw [if_neg h0]
  rw [hsigned, if_neg (by omega), numDigitsForBoundOn, if_neg (by omega), hfallback, ok_bind]
  have hsize := Nat.lt_size_self cap
  have hlt : cap < 2 ^ 128 := hsize.trans (Nat.pow_lt_pow_right (by omega) (by omega))
  have hcover : cap ≤ positiveReach L fallback := by
    have := hleast.1.2
    rw [Nat.add_sub_cancel] at this
    omega
  refine ⟨_, rfl, ?_⟩
  cases hfind : (List.range' 1 (fallback - 1)).find? fun digits => decide (digitMax L digits ≥ cap) with
  | none =>
    have hnone := List.find?_range'_eq_none.1 hfind
    rw [Option.getD_none]
    refine isLeast_of_step hleast.1.1 hcover fun m hm hsucc => ?_
    have hiff := hmax m cap hm hlt
    have := hnone m hm (by omega)
    simp only [ge_iff_le, Bool.not_eq_true', decide_eq_false_iff_not] at this
    omega
  | some n =>
    obtain ⟨hn, hmem, hearlier⟩ := List.find?_range'_eq_some.1 hfind
    have hpos := (List.mem_range'_1.1 hmem).1
    rw [Option.getD_some]
    refine isLeast_of_step hpos ((hmax n cap hpos hlt).1 (by simpa using hn)) fun m hm hsucc => ?_
    have hiff := hmax m cap hm hlt
    have := hearlier m hm (by omega)
    simp only [ge_iff_le, Bool.not_eq_true', decide_eq_false_iff_not] at this
    omega

/-- The negative side reaches one power of the base per digit further. -/
theorem halfSum_eq (L n : ℕ) : halfSum L n = positiveReach L n + series L n := by
  unfold halfSum positiveReach
  rw [← Nat.succ_mul, Nat.succ_eq_add_one, Nat.sub_add_cancel Nat.one_le_two_pow]

theorem one_le_series (hn : 1 ≤ n) : 1 ≤ series L n := (show 1 ≤ series L 1 by simp [series]).trans (series_mono L hn)

/-- The positive end of a signed range is the binding one. -/
theorem signedRange_subset_iff (hL : 0 < L) (hn : 1 ≤ n) :
    signedRange k ⊆ balancedValues L n ↔ 2 ^ (k - 1) - 1 ≤ positiveReach L n := by
  rw [balancedValues_eq_Icc hL]
  cases k with
  | zero =>
    refine iff_of_true ?_ (Nat.zero_le _)
    rintro x ⟨hx, hx'⟩
    omega
  | succ j =>
    have hpow : (2 : ℤ) ^ (j + 1) = 2 * ((2 ^ j : ℕ) : ℤ) := by push_cast; ring
    have hpos : 0 < 2 ^ j := by positivity
    have hhalf := halfSum_eq L n
    have hseries : 1 ≤ series L n := one_le_series hn
    rw [Nat.add_sub_cancel]
    generalize 2 ^ j = t at *
    unfold signedRange
    rw [hpow]
    constructor
    · intro hsub
      have hmem := (hsub (show (t : ℤ) - 1 ∈ _ from ⟨by omega, by omega⟩)).2
      omega
    · rintro hreach x ⟨hx, hx'⟩
      exact ⟨by omega, by omega⟩

theorem linf_subset (hL : 0 < L) {cap : ℕ} (hreach : cap ≤ positiveReach L n) :
    Set.Icc (-(cap : ℤ)) cap ⊆ balancedValues L n := by
  have hle := positiveReach_le_halfSum L n
  rw [balancedValues_eq_Icc hL]
  exact Set.Icc_subset_Icc (by omega) (by omega)

/-- **Both depth functions return the least depth that covers their range**: that of the exact
positive reach for a cap, that of the interval for a bit bound; read with the exact reach in
place of the saturated one, both return the same. -/
theorem digit_depth_least {L fieldBits : ℕ} (hL : 2 ≤ L) (hL' : L ≤ 127) (hbits : fieldBits ≤ 128) :
    (∀ cap : ℕ, cap.size + 1 < fieldBits → ∃ n, numDigitsForLinfCap cap fieldBits L = .ok n ∧
      IsLeast {n | 1 ≤ n ∧ cap ≤ positiveReach L n} n ∧ Set.Icc (-(cap : ℤ)) cap ⊆ balancedValues L n ∧
      numDigitsForLinfCapOn positiveReach cap fieldBits L = .ok n) ∧ ∀ logBound < fieldBits, ∃ n,
      numDigitsForBound logBound fieldBits L = .ok n ∧
      IsLeast {n | 1 ≤ n ∧ signedRange logBound ⊆ balancedValues L n} n ∧
      numDigitsForBoundOn positiveReach logBound fieldBits L = .ok n := by
  have hL0 : 0 < L := by omega
  have hlt : L < 128 := by omega
  have hsat := le_balancedDigitMax_iff hL0 hlt
  constructor
  · intro cap hcap
    obtain ⟨n, hn, hleast⟩ := numDigitsForLinfCapOn_least hL hlt hsat hbits hcap
    obtain ⟨m, hm, hleast'⟩ := numDigitsForLinfCapOn_least hL hlt (positiveReach_reachesAs L) hbits hcap
    rw [hleast'.unique hleast] at hm
    exact ⟨n, hn, hleast, linf_subset hL0 hleast.1.2, hm⟩
  · intro logBound hbound
    obtain ⟨n, hn, hleast⟩ := computeNumDigitsOn_least hL hlt hsat (show logBound ≤ 128 by omega)
    obtain ⟨m, hm, hleast'⟩ := computeNumDigitsOn_least hL hlt (positiveReach_reachesAs L) (show logBound ≤ 128 by omega)
    rw [hleast'.unique hleast] at hm
    have hset : {n | 1 ≤ n ∧ signedRange logBound ⊆ balancedValues L n} =
        {n | 1 ≤ n ∧ 2 ^ (logBound - 1) - 1 ≤ positiveReach L n} :=
      Set.ext fun j => and_congr_right fun hj => signedRange_subset_iff hL0 hj
    unfold numDigitsForBound numDigitsForBoundOn
    rw [if_neg (by omega), if_neg (by omega), hset]
    exact ⟨n, hn, hleast, hm⟩

/-- The depths of a cap and of a bit bound in base 8. -/
theorem digit_depth_least_eight :
    (numDigitsForLinfCap 28 128 3 = .ok 3 ∧ IsLeast {n | 1 ≤ n ∧ 28 ≤ positiveReach 3 n} 3) ∧
      numDigitsForBound 6 128 3 = .ok 3 ∧ IsLeast {n | 1 ≤ n ∧ signedRange 6 ⊆ balancedValues 3 n} 3 := by
  have hcap : numDigitsForLinfCap 28 128 3 = .ok 3 := by decide
  have hbound : numDigitsForBound 6 128 3 = .ok 3 := by decide
  have h := @digit_depth_least 3 128 (by decide) (by decide) (by decide)
  obtain ⟨n, hn, hleast, -⟩ := h.1 28 (by decide)
  obtain ⟨m, hm, hleast', -⟩ := h.2 6 (by decide)
  obtain rfl : n = 3 := Except.ok.inj (hn.symm.trans hcap)
  obtain rfl : m = 3 := Except.ok.inj (hm.symm.trans hbound)
  exact ⟨⟨hn, hleast⟩, hm, hleast'⟩

end depth

end Akita.Decompose
