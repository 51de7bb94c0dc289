import Mathlib.Tactic

/-!
# Montgomery reduction

A signed word of `w` bits is an integer kept by `Int.bmod` of `2^w`. Newton's step doubles the bits
of an inverse, and the reduction of a small multiple of an odd modulus stays below it.
-/

namespace Akita.Lib

variable {w : ℕ}

theorem bmod_modEq (x : ℤ) (n : ℕ) : x.bmod n ≡ x [ZMOD n] := Int.modEq_iff_dvd.2 Int.dvd_self_sub_bmod

theorem bmod_two_pow_bounds (hw : 0 < w) (x : ℤ) : -2 ^ (w - 1) ≤ x.bmod (2 ^ w) ∧ x.bmod (2 ^ w) < 2 ^ (w - 1) := by
  obtain ⟨v, rfl⟩ : ∃ v, w = v + 1 := ⟨w - 1, by omega⟩
  have hpos : 0 < 2 ^ (v + 1) := by positivity
  have hlow := Int.le_bmod (x := x) hpos
  have hhigh := Int.bmod_lt (x := x) hpos
  have hpow : ((2 ^ (v + 1) : ℕ) : ℤ) = 2 * 2 ^ v := by push_cast; ring
  rw [hpow] at hlow hhigh
  rw [Nat.add_sub_cancel]
  constructor <;> omega

theorem bmod_two_pow_of_fits (hw : 0 < w) {x : ℤ} (hlow : -2 ^ (w - 1) ≤ x) (hhigh : x < 2 ^ (w - 1)) : x.bmod (2 ^ w) = x := by
  obtain ⟨v, rfl⟩ : ∃ v, w = v + 1 := ⟨w - 1, by omega⟩
  have hbounds := bmod_two_pow_bounds hw x
  have hdvd := (bmod_modEq x (2 ^ (v + 1))).dvd
  have hpow : ((2 ^ (v + 1) : ℕ) : ℤ) = 2 * 2 ^ v := by push_cast; ring
  rw [hpow] at hdvd
  rw [Nat.add_sub_cancel] at *
  have := Int.eq_zero_of_abs_lt_dvd hdvd (by rw [abs_lt]; constructor <;> omega)
  omega

/-- **Newton's step squares the residual.** -/
theorem newton_iterate {M p : ℤ} {f : ℤ → ℤ} (hf : ∀ x, f x ≡ x * (2 - p * x) [ZMOD M]) (n : ℕ) (x : ℤ) :
    1 - p * f^[n] x ≡ (1 - p * x) ^ 2 ^ n [ZMOD M] := by
  induction n generalizing x with
  | zero => simp [Int.ModEq.refl]
  | succ n ih =>
    rw [Function.iterate_succ_apply, pow_succ', pow_mul]
    calc 1 - p * f^[n] (f x) ≡ (1 - p * f x) ^ 2 ^ n [ZMOD M] := ih (f x)
      _ ≡ (1 - p * (x * (2 - p * x))) ^ 2 ^ n [ZMOD M] := (((hf x).mul_left p).sub_left 1).pow _
      _ = ((1 - p * x) ^ 2) ^ 2 ^ n := by congr 1; ring

theorem inverse_of_residual {a b : ℕ} {M p x y : ℤ} (hM : (2 ^ w : ℤ) ∣ M) (hres : 1 - p * y ≡ (1 - p * x) ^ b [ZMOD M])
    (hx : (2 ^ a : ℤ) ∣ 1 - p * x) (hab : w ≤ a * b) : p * y ≡ 1 [ZMOD 2 ^ w] := by
  have hpow : (2 ^ w : ℤ) ∣ (1 - p * x) ^ b :=
    (pow_dvd_pow 2 hab).trans (by rw [pow_mul]; exact pow_dvd_pow_of_dvd hx b)
  refine Int.modEq_iff_dvd.2 ?_
  have := (hres.of_dvd hM).dvd
  have := dvd_sub hpow this
  rwa [sub_sub_cancel] at this

/-- **Signed Montgomery reduction**: `t - m p` is a multiple of `2^w`, and the quotient is below `p`. -/
theorem montgomery_reduce {p pinv t m : ℤ} (hinv : p * pinv ≡ 1 [ZMOD 2 ^ w]) (hm : m ≡ t * pinv [ZMOD 2 ^ w])
    (hbound : |m| ≤ 2 ^ (w - 1)) (hw : 0 < w) (hp : 0 < p) (ht : |t| < 2 ^ (w - 1) * p) :
    ∃ r, t - m * p = 2 ^ w * r ∧ |r| < p := by
  have hdvd : (2 ^ w : ℤ) ∣ t - m * p := by
    refine (Int.modEq_iff_dvd.1 ?_)
    calc m * p ≡ t * pinv * p [ZMOD 2 ^ w] := hm.mul_right p
      _ = t * (p * pinv) := by ring
      _ ≡ t * 1 [ZMOD 2 ^ w] := hinv.mul_left t
      _ = t := mul_one t
  obtain ⟨r, hr⟩ := hdvd
  refine ⟨r, hr, ?_⟩
  have hpow : (2 : ℤ) ^ w = 2 * 2 ^ (w - 1) := by
    rw [← pow_succ']; congr 1; omega
  have hpos : (0 : ℤ) < 2 ^ w := by positivity
  have hmp : |m * p| ≤ 2 ^ (w - 1) * p := by
    rw [abs_mul, abs_of_pos hp]
    exact mul_le_mul_of_nonneg_right hbound hp.le
  have hsum : 2 ^ w * |r| < 2 ^ w * p := by
    calc 2 ^ w * |r| = |t - m * p| := by rw [hr, abs_mul, abs_of_pos hpos]
      _ ≤ |t| + |m * p| := abs_sub _ _
      _ < 2 ^ (w - 1) * p + 2 ^ (w - 1) * p := add_lt_add_of_lt_of_le ht hmp
      _ = 2 ^ w * p := by rw [hpow]; ring
  exact lt_of_mul_lt_mul_left hsum hpos.le

end Akita.Lib
