import Mathlib.RingTheory.ZMod.UnitsCyclic
import Akita.Lib.Accumulate

/-!
# The negacyclic ring

`F[X] / (X^d + 1)` in coefficients: a ring element is the sum of its coefficients against
the powers of the root, and the odd powers of the root give its automorphisms. The sums of
a power and its inverse multiply as cosines do; for `d` a power of two the subgroup of
exponents that are `±1` modulo `4k` has `d / k` members, and the sum over it keeps the
powers at multiples of `d / 2k` only.
-/

namespace Akita.Lib

open Polynomial Finset

section powers

variable {R : Type*} [CommRing R] {y : R} {n : ℕ} {k j e m s : ℕ}

theorem pow_two_mul_eq_one (hy : y ^ n = -1) : y ^ (2 * n) = 1 := by
  rw [mul_comm, pow_mul, hy]; norm_num

theorem pow_mod_two_mul (hy : y ^ n = -1) (m : ℕ) : y ^ (m % (2 * n)) = y ^ m := by
  conv_rhs => rw [← Nat.mod_add_div m (2 * n), pow_add, pow_mul, pow_two_mul_eq_one hy, one_pow, mul_one]

theorem pow_congr_two_mul (hy : y ^ n = -1) {a b : ℕ} (h : a ≡ b [MOD 2 * n]) : y ^ a = y ^ b := by
  rw [← pow_mod_two_mul hy a, ← pow_mod_two_mul hy b, h]

/-- `y^j + y^(-j)`, for `j ≤ n` and `y^n = -1`. -/
def conjSum (y : R) (n j : ℕ) : R := y ^ j - y ^ (n - j)

theorem conjSum_zero (hy : y ^ n = -1) : conjSum y n 0 = 2 := by
  rw [conjSum, pow_zero, Nat.sub_zero, hy]; norm_num

theorem conjSum_half : conjSum y (2 * k) k = 0 := by
  rw [conjSum, show 2 * k - k = k by omega, sub_self]

theorem conjSum_reflect (hj : j ≤ n) : conjSum y n (n - j) = -conjSum y n j := by
  rw [conjSum, conjSum, Nat.sub_sub_self hj]; ring

/-- **The product rule** of the sums: `e_i e_j = e_(i+j) + e_(i-j)`. -/
theorem conjSum_mul (hy : y ^ n = -1) {i : ℕ} (hji : j ≤ i) (hij : i + j ≤ n) :
    conjSum y n i * conjSum y n j = conjSum y n (i + j) + conjSum y n (i - j) := by
  have h3 : y ^ (n - (i - j)) = y ^ (n - i) * y ^ j := by rw [← pow_add]; congr 1; omega
  have h4 : y ^ i * y ^ (n - j) = -y ^ (i - j) := by
    rw [← pow_add, show i + (n - j) = n + (i - j) by omega, pow_add, hy]; ring
  have h5 : y ^ (n - i) * y ^ (n - j) = -y ^ (n - (i + j)) := by
    rw [← pow_add, show n - i + (n - j) = n + (n - (i + j)) by omega, pow_add, hy]; ring
  have h6 : y ^ (i + j) = y ^ i * y ^ j := pow_add y i j
  rw [conjSum, conjSum, conjSum, conjSum, h3, h6]
  linear_combination -h4 + h5

theorem pow_neg_exponent (hy : y ^ n = -1) (he : e + 1 ≡ 0 [MOD 2 * n]) (hj : j ≤ n) : y ^ (e * j) = -y ^ (n - j) := by
  have hmod : e * j ≡ n + (n - j) [MOD 2 * n] := by
    refine Nat.ModEq.add_right_cancel' j ?_
    calc e * j + j = (e + 1) * j := by ring
      _ ≡ 0 * j [MOD 2 * n] := he.mul_right j
      _ ≡ 2 * n [MOD 2 * n] := by rw [zero_mul]; exact (Nat.modEq_zero_iff_dvd.2 dvd_rfl).symm
      _ = n + (n - j) + j := by omega
  rw [pow_congr_two_mul hy hmod, pow_add, hy, neg_one_mul]

theorem pow_one_exponent (hy : y ^ n = -1) (he : e ≡ 1 [MOD 2 * n]) (j : ℕ) : y ^ (e * j) = y ^ j :=
  pow_congr_two_mul hy (by simpa using he.mul_right j)

/-- The geometric sum over a power of two vanishes when some square step reaches `-1`. -/
theorem geom_sum_two_pow_eq_zero {z : R} (hj : j < m) (hz : z ^ 2 ^ j = -1) : ∑ t ∈ range (2 ^ m), z ^ t = 0 := by
  induction m with
  | zero => omega
  | succ m ih =>
    have hsplit : ∑ t ∈ range (2 ^ (m + 1)), z ^ t = (1 + z ^ 2 ^ m) * ∑ t ∈ range (2 ^ m), z ^ t := by
      rw [pow_succ, mul_two, sum_range_add, add_mul, one_mul, mul_sum]
      simp only [pow_add]
    rw [hsplit]
    rcases lt_or_ge j m with hlt | hge
    · rw [ih hlt, mul_zero]
    · rw [show m = j by omega, hz]; ring

/-! ## The subgroup of exponents -/

/-- The exponents below `4ks` that are `±1` modulo `4k`. -/
def traceExponents (k s : ℕ) : Finset ℕ := {e ∈ range (s * (4 * k)) | e % (4 * k) = 1 ∨ e % (4 * k) = 4 * k - 1}

theorem sum_traceExponents {M : Type*} [AddCommMonoid M] (hk : 0 < k) (f : ℕ → M) :
    ∑ e ∈ traceExponents k s, f e = ∑ t ∈ range s, (f (t * (4 * k) + 1) + f (t * (4 * k) + (4 * k - 1))) := by
  rw [traceExponents, sum_filter, sum_range_rows]
  refine sum_congr rfl fun t _ => ?_
  have hpair : ({1, 4 * k - 1} : Finset ℕ) ⊆ range (4 * k) := by
    intro e he
    simp only [mem_insert, mem_singleton] at he
    rw [mem_range]
    omega
  rw [← sum_pair (f := fun j => f (t * (4 * k) + j)) (by omega : 1 ≠ 4 * k - 1), ← sum_subset hpair]
  · refine sum_congr rfl fun j hj => ?_
    have hlt : j < 4 * k := mem_range.1 (hpair hj)
    have hmod : (t * (4 * k) + j) % (4 * k) = j := by
      rw [add_comm, Nat.add_mul_mod_self_right, Nat.mod_eq_of_lt hlt]
    simp only [mem_insert, mem_singleton] at hj
    rw [hmod, if_pos hj]
  · intro j hj hnot
    have hmod : (t * (4 * k) + j) % (4 * k) = j := by
      rw [add_comm, Nat.add_mul_mod_self_right, Nat.mod_eq_of_lt (mem_range.1 hj)]
    simp only [mem_insert, mem_singleton] at hnot
    rw [hmod, if_neg hnot]

theorem card_traceExponents (hk : 0 < k) : (traceExponents k s).card = 2 * s := by
  rw [card_eq_sum_ones, sum_traceExponents hk, sum_const, card_range, smul_eq_mul, mul_comm]

theorem odd_of_mem_traceExponents (he : e ∈ traceExponents k s) : Odd e := by
  rw [traceExponents, mem_filter, mem_range] at he
  have hk : 0 < k := by
    by_contra h
    have : s * (4 * k) = 0 := by rw [show k = 0 by omega]; ring
    omega
  rw [Nat.odd_iff, ← Nat.mod_mod_of_dvd e (show 2 ∣ 4 * k from ⟨2 * k, by ring⟩)]
  omega

theorem mem_traceExponents_cases (hk : 0 < k) (he : e ∈ traceExponents k s) :
    e ≡ 1 [MOD 2 * (2 * k)] ∨ e + 1 ≡ 0 [MOD 2 * (2 * k)] := by
  rw [traceExponents, mem_filter] at he
  rw [show 2 * (2 * k) = 4 * k by ring]
  rcases he.2 with h | h
  · left
    rw [Nat.ModEq, h, Nat.mod_eq_of_lt (by omega)]
  · right
    rw [Nat.ModEq, Nat.add_mod, h, Nat.mod_eq_of_lt (by omega : 1 < 4 * k), Nat.sub_add_cancel (by omega)]
    simp

section

variable {κ : ℕ}

/-- **The order of `4k + 1` modulo `4ks`**, for powers of two `k` and `s`. -/
theorem generator_pow_modEq {a b : ℕ} :
    (4 * 2 ^ κ + 1) ^ a ≡ (4 * 2 ^ κ + 1) ^ b [MOD 2 ^ m * (4 * 2 ^ κ)] ↔ a ≡ b [MOD 2 ^ m] := by
  have hmod : 2 ^ m * (4 * 2 ^ κ) = 2 ^ (m + (κ + 2)) := by rw [pow_add, pow_add]; ring
  have horder := ZMod.orderOf_one_add_mul_prime_pow Nat.prime_two (κ + 2) (by omega) (by omega) 1 (by decide) m
  have hgen : (1 + (2 : ℕ) ^ (κ + 2) * (1 : ℤ) : ZMod (2 ^ (m + (κ + 2)))) = ((4 * 2 ^ κ + 1 : ℕ) : ZMod _) := by
    push_cast
    rw [pow_add]
    ring
  rw [hgen] at horder
  have hunit : IsUnit ((4 * 2 ^ κ + 1 : ℕ) : ZMod (2 ^ (m + (κ + 2)))) := by
    refine IsUnit.of_pow_eq_one (n := 2 ^ m) ?_ (by positivity)
    rw [← horder, pow_orderOf_eq_one]
  obtain ⟨u, hu⟩ := hunit
  rw [hmod, ← ZMod.natCast_eq_natCast_iff, Nat.cast_pow, Nat.cast_pow, ← horder, ← hu, orderOf_units, ← Units.val_pow_eq_pow_val,
    ← Units.val_pow_eq_pow_val, Units.val_inj, pow_eq_pow_iff_modEq]

theorem generator_powers : (range (2 ^ m)).image (fun t => (4 * 2 ^ κ + 1) ^ t % (2 ^ m * (4 * 2 ^ κ))) =
    {e ∈ range (2 ^ m * (4 * 2 ^ κ)) | e % (4 * 2 ^ κ) = 1} := by
  have hpos : 0 < 2 ^ κ := by positivity
  refine eq_of_subset_of_card_le ?_ ?_
  · intro e he
    obtain ⟨t, -, rfl⟩ := mem_image.1 he
    rw [mem_filter, mem_range]
    refine ⟨Nat.mod_lt _ (by positivity), ?_⟩
    rw [Nat.mod_mul_left_mod, Nat.pow_mod, Nat.add_mod_left, Nat.mod_eq_of_lt (by omega : 1 < 4 * 2 ^ κ), one_pow,
      Nat.mod_eq_of_lt (by omega)]
  · have hinj : Set.InjOn (fun t => (4 * 2 ^ κ + 1) ^ t % (2 ^ m * (4 * 2 ^ κ))) (range (2 ^ m)) := by
      intro a ha b hb h
      have hab := generator_pow_modEq.1 h
      rw [coe_range, Set.mem_Iio] at ha hb
      exact Nat.ModEq.eq_of_lt_of_lt hab ha hb
    rw [card_image_of_injOn hinj, card_range, card_filter, sum_range_rows]
    have hrow : ∀ t ∈ range (2 ^ m), ∑ j ∈ range (4 * 2 ^ κ), (if (t * (4 * 2 ^ κ) + j) % (4 * 2 ^ κ) = 1 then 1 else 0) = 1 := by
      intro t _
      rw [sum_eq_single_of_mem 1 (mem_range.2 (by omega))]
      · rw [Nat.mul_add_mod_self_right, Nat.mod_eq_of_lt (by omega), if_pos rfl]
      · intro j hj hne
        rw [Nat.mul_add_mod_self_right, Nat.mod_eq_of_lt (mem_range.1 hj), if_neg hne]
    rw [sum_congr rfl hrow, sum_const, card_range, smul_eq_mul, mul_one]

/-- **The subgroup is generated** by `4k + 1` and `-1`. -/
theorem mem_traceExponents_iff : e ∈ traceExponents (2 ^ κ) (2 ^ m) ↔
    ∃ t < 2 ^ m, e = (4 * 2 ^ κ + 1) ^ t % (2 ^ m * (4 * 2 ^ κ)) ∨
      e = 2 ^ m * (4 * 2 ^ κ) - (4 * 2 ^ κ + 1) ^ t % (2 ^ m * (4 * 2 ^ κ)) := by
  have hpos : 0 < 2 ^ κ := by positivity
  have hpower : ∀ p, (∃ t < 2 ^ m, p = (4 * 2 ^ κ + 1) ^ t % (2 ^ m * (4 * 2 ^ κ))) ↔
      p < 2 ^ m * (4 * 2 ^ κ) ∧ p % (4 * 2 ^ κ) = 1 := by
    intro p
    have hmem : p ∈ (range (2 ^ m)).image (fun t => (4 * 2 ^ κ + 1) ^ t % (2 ^ m * (4 * 2 ^ κ))) ↔
        p ∈ ({e ∈ range (2 ^ m * (4 * 2 ^ κ)) | e % (4 * 2 ^ κ) = 1} : Finset ℕ) := by rw [generator_powers]
    rw [mem_image, mem_filter, mem_range] at hmem
    rw [← hmem]
    exact ⟨fun ⟨t, ht, h⟩ => ⟨t, mem_range.2 ht, h.symm⟩, fun ⟨t, ht, h⟩ => ⟨t, mem_range.1 ht, h.symm⟩⟩
  -- the complement to the modulus turns `1` into `-1`
  have hflip : ∀ p, 0 < p → p < 2 ^ m * (4 * 2 ^ κ) →
      (p % (4 * 2 ^ κ) = 4 * 2 ^ κ - 1 ↔ (2 ^ m * (4 * 2 ^ κ) - p) % (4 * 2 ^ κ) = 1) := by
    intro p hp hlt
    have hsum : (p % (4 * 2 ^ κ) + (2 ^ m * (4 * 2 ^ κ) - p) % (4 * 2 ^ κ)) % (4 * 2 ^ κ) = 0 := by
      rw [← Nat.add_mod, Nat.add_sub_cancel' hlt.le, Nat.mul_mod_left]
    have h1 := Nat.mod_lt p (by omega : 0 < 4 * 2 ^ κ)
    have h2 := Nat.mod_lt (2 ^ m * (4 * 2 ^ κ) - p) (by omega : 0 < 4 * 2 ^ κ)
    constructor
    · intro h
      obtain ⟨c, hc⟩ := Nat.dvd_of_mod_eq_zero hsum
      have hc1 : c = 1 := by
        rcases lt_or_ge c 2 with hlt2 | hge
        · interval_cases c <;> omega
        · nlinarith
      subst hc1; omega
    · intro h
      obtain ⟨c, hc⟩ := Nat.dvd_of_mod_eq_zero hsum
      have hc1 : c = 1 := by
        rcases lt_or_ge c 2 with hlt2 | hge
        · interval_cases c <;> omega
        · nlinarith
      subst hc1; omega
  rw [traceExponents, mem_filter, mem_range]
  constructor
  · rintro ⟨hlt, hone | hneg⟩
    · obtain ⟨t, ht, h⟩ := (hpower e).2 ⟨hlt, hone⟩
      exact ⟨t, ht, Or.inl h⟩
    · have hzero : 0 < e := by
        rcases Nat.eq_zero_or_pos e with rfl | h
        · rw [Nat.zero_mod] at hneg; omega
        · exact h
      obtain ⟨t, ht, h⟩ := (hpower _).2 ⟨by omega, (hflip e hzero hlt).1 hneg⟩
      exact ⟨t, ht, Or.inr (by omega)⟩
  · rintro ⟨t, ht, rfl | rfl⟩
    · obtain ⟨hlt, hone⟩ := (hpower _).1 ⟨t, ht, rfl⟩
      exact ⟨hlt, Or.inl hone⟩
    · obtain ⟨hlt, hone⟩ := (hpower _).1 ⟨t, ht, rfl⟩
      have hzero : 0 < (4 * 2 ^ κ + 1) ^ t % (2 ^ m * (4 * 2 ^ κ)) := by
        rcases Nat.eq_zero_or_pos ((4 * 2 ^ κ + 1) ^ t % (2 ^ m * (4 * 2 ^ κ))) with h | h
        · rw [h, Nat.zero_mod] at hone; omega
        · exact h
      refine ⟨by omega, Or.inr ((hflip _ (by omega) (by omega)).2 ?_)⟩
      rwa [Nat.sub_sub_self hlt.le]

end

/-- **The sum of a power over the subgroup**: a multiple of `s` meets its inverse `s` times, any other
exponent cancels. -/
theorem sum_pow_traceExponents {x : R} (hk : 0 < k) (hx : x ^ (2 * k * 2 ^ m) = -1) (n : ℕ) :
    ∑ e ∈ traceExponents k (2 ^ m), x ^ (e * n) =
      if 2 ^ m ∣ n then 2 ^ m * (x ^ n + x ^ ((4 * k - 1) * n)) else 0 := by
  have hterm : ∀ t, x ^ ((t * (4 * k) + 1) * n) + x ^ ((t * (4 * k) + (4 * k - 1)) * n) =
      (x ^ (4 * k * n)) ^ t * (x ^ n + x ^ ((4 * k - 1) * n)) := by
    intro t
    rw [← pow_mul, mul_add, ← pow_add, ← pow_add]
    congr 2 <;> ring
  rw [sum_traceExponents hk, sum_congr rfl fun t _ => hterm t, ← sum_mul]
  split_ifs with hdvd
  · obtain ⟨c, rfl⟩ := hdvd
    have hone : x ^ (4 * k * (2 ^ m * c)) = 1 := by
      rw [show 4 * k * (2 ^ m * c) = 2 * (2 * k * 2 ^ m) * c by ring, pow_mul, pow_two_mul_eq_one hx, one_pow]
    simp [hone]
  · -- the exponent is an odd multiple of a smaller power of two
    obtain ⟨j, c, hc, hn⟩ := Nat.exists_eq_two_pow_mul_odd (n := n) (by rintro rfl; exact hdvd (dvd_zero _))
    have hjm : j < m := by
      by_contra hge
      exact hdvd (hn ▸ (pow_dvd_pow 2 (by omega)).mul_right c)
    rw [geom_sum_two_pow_eq_zero (j := m - 1 - j) (by omega), zero_mul]
    have hexp : 4 * k * n * 2 ^ (m - 1 - j) = 2 * k * 2 ^ m * c := by
      have hpow : 2 * (2 ^ j * 2 ^ (m - 1 - j)) = 2 ^ m := by
        rw [← pow_add, ← pow_succ']; congr 1; omega
      calc 4 * k * n * 2 ^ (m - 1 - j) = 2 * k * (2 * (2 ^ j * 2 ^ (m - 1 - j))) * c := by rw [hn]; ring
        _ = 2 * k * 2 ^ m * c := by rw [hpow]
    rw [← pow_mul, hexp, pow_mul, hx, hc.neg_one_pow]

end powers

section halves

variable {F R : Type*} [Field F] [CommRing R] [Algebra F R] {y : R} {k : ℕ}

/-- `c_0 + Σ_{0 < j < k} c_j (y^j + y^(-j))`. -/
def subfieldSum (y : R) (k : ℕ) (c : ℕ → F) : R := c 0 • 1 + ∑ j ∈ Ico 1 k, c j • conjSum y (2 * k) j

/-- The basis `[1, e_1, .., e_(k-1)]`. -/
def subfieldBasis (y : R) (k j : ℕ) : R := if j = 0 then 1 else conjSum y (2 * k) j

theorem subfieldSum_eq (hk : 0 < k) (c : ℕ → F) : subfieldSum y k c = ∑ j ∈ range k, c j • subfieldBasis y k j := by
  rw [range_eq_Ico, sum_eq_sum_Ico_succ_bot hk, subfieldSum]
  congr 1
  refine sum_congr rfl fun j hj => ?_
  rw [subfieldBasis, if_neg (by rw [mem_Ico] at hj; omega)]

theorem subfieldSum_congr (hk : 0 < k) {c c' : ℕ → F} (h : ∀ j < k, c j = c' j) : subfieldSum y k c = subfieldSum y k c' := by
  rw [subfieldSum_eq hk, subfieldSum_eq hk]
  exact sum_congr rfl fun j hj => by rw [h j (mem_range.1 hj)]

theorem subfieldSum_add (c c' : ℕ → F) :
    subfieldSum y k (fun j => c j + c' j) = subfieldSum y k c + subfieldSum y k c' := by
  simp only [subfieldSum, add_smul, sum_add_distrib]
  abel

theorem subfieldSum_smul (x : F) (c : ℕ → F) : subfieldSum y k (fun j => x * c j) = x • subfieldSum y k c := by
  simp only [subfieldSum, mul_smul, smul_add, smul_sum]

def subfieldSpan (F : Type*) [Field F] {R : Type*} [CommRing R] [Algebra F R] (y : R) (k : ℕ) : Submodule F R where
  carrier := Set.range (subfieldSum (F := F) y k)
  add_mem' := by
    rintro _ _ ⟨c, rfl⟩ ⟨c', rfl⟩
    exact ⟨_, subfieldSum_add c c'⟩
  zero_mem' := ⟨fun _ => 0, by simp [subfieldSum]⟩
  smul_mem' := by
    rintro x _ ⟨c, rfl⟩
    exact ⟨_, subfieldSum_smul x c⟩

theorem mem_subfieldSpan {u : R} : u ∈ subfieldSpan F y k ↔ ∃ c : ℕ → F, subfieldSum y k c = u := Iff.rfl

theorem subfieldBasis_mem {j : ℕ} (hj : j < k) : subfieldBasis y k j ∈ subfieldSpan F y k := by
  refine mem_subfieldSpan.2 ⟨fun i => if i = j then 1 else 0, ?_⟩
  rw [subfieldSum_eq (by omega), sum_eq_single_of_mem j (mem_range.2 hj) fun i _ hi => by simp [hi]]
  simp

section

variable (hk : 0 < k) (hy : y ^ (2 * k) = -1)

include hk hy

theorem conjSum_mem {n : ℕ} (hn : n ≤ 2 * k) : conjSum y (2 * k) n ∈ subfieldSpan F y k := by
  have hsmall : ∀ j < k, conjSum y (2 * k) j ∈ subfieldSpan F y k := by
    intro j hj
    have hmem := subfieldBasis_mem (F := F) (y := y) hj
    rcases Nat.eq_zero_or_pos j with rfl | hpos
    · rw [subfieldBasis, if_pos rfl] at hmem
      rw [conjSum_zero hy, ← one_add_one_eq_two]
      exact add_mem hmem hmem
    · rwa [subfieldBasis, if_neg (by omega)] at hmem
  rcases Nat.lt_trichotomy n k with hlt | rfl | hgt
  · exact hsmall n hlt
  · rw [conjSum_half]
    exact zero_mem _
  · rw [show n = 2 * k - (2 * k - n) by omega, conjSum_reflect (by omega)]
    exact neg_mem (hsmall _ (by omega))

theorem subfieldBasis_mul_mem {i j : ℕ} (hi : i < k) (hj : j ≤ i) :
    subfieldBasis y k i * subfieldBasis y k j ∈ subfieldSpan F y k := by
  rcases Nat.eq_zero_or_pos j with rfl | hpos
  · have hone : subfieldBasis y k 0 = 1 := if_pos rfl
    rw [hone, mul_one]
    exact subfieldBasis_mem hi
  · rw [subfieldBasis, subfieldBasis, if_neg (by omega), if_neg (by omega), conjSum_mul hy hj (by omega)]
    exact add_mem (conjSum_mem hk hy (by omega)) (conjSum_mem hk hy (by omega))

/-- **The span of the basis is closed under products.** -/
theorem subfieldSum_mul_mem (c c' : ℕ → F) : subfieldSum y k c * subfieldSum y k c' ∈ subfieldSpan F y k := by
  rw [subfieldSum_eq hk, subfieldSum_eq hk, sum_mul_sum]
  refine sum_mem fun i hi => sum_mem fun j hj => ?_
  rw [mem_range] at hi hj
  rw [smul_mul_smul_comm]
  refine Submodule.smul_mem _ _ ?_
  rcases le_total j i with hle | hle
  · exact subfieldBasis_mul_mem hk hy hi hle
  · rw [mul_comm]
    exact subfieldBasis_mul_mem hk hy hj hle

end

def subfieldAlgebra (F : Type*) [Field F] {R : Type*} [CommRing R] [Algebra F R] {y : R} {k : ℕ} (hk : 0 < k)
    (hy : y ^ (2 * k) = -1) : Subalgebra F R := (subfieldSpan F y k).toSubalgebra (subfieldBasis_mem hk) (by
    rintro _ _ ⟨c, rfl⟩ ⟨c', rfl⟩
    exact subfieldSum_mul_mem hk hy c c')

/-- A sum of `2k` terms, each below `k` paired with its reflection. -/
theorem sum_range_two_mul {M : Type*} [AddCommMonoid M] (hk : 0 < k) (f : ℕ → M) :
    ∑ b ∈ range (2 * k), f b = f 0 + f k + ∑ j ∈ Ico 1 k, (f j + f (2 * k - j)) := by
  have hupper := sum_Ico_reflect f 1 (by omega : k ≤ 2 * k + 1)
  rw [show 2 * k + 1 - k = k + 1 by omega, Nat.add_sub_cancel] at hupper
  rw [sum_add_distrib, hupper, range_eq_Ico, ← sum_Ico_consecutive f (by omega : 0 ≤ 1) (by omega : 1 ≤ 2 * k),
    ← sum_Ico_consecutive f hk (by omega : k ≤ 2 * k), ← sum_Ico_consecutive f (by omega : k ≤ k + 1) (by omega : k + 1 ≤ 2 * k)]
  simp only [Nat.Ico_succ_singleton, sum_singleton, show Ico 0 1 = {0} from rfl]
  abel

/-- The coordinates of the first half of `2k` coefficients. -/
def lowCoords (k : ℕ) (α : ℕ → F) (j : ℕ) : F := if j = 0 then α 0 else (α j - α (2 * k - j)) * 2⁻¹

/-- The values of a half of the powers, folded onto their inverses. -/
theorem sum_conjSum (h2 : (2 : F) ≠ 0) (hk : 0 < k) (hy : y ^ (2 * k) = -1) (α : ℕ → F) :
    ∑ b ∈ range (2 * k), α b • conjSum y (2 * k) b = (2 : F) • subfieldSum y k (lowCoords k α) := by
  have hterm : ∀ j ∈ Ico 1 k, α j • conjSum y (2 * k) j + α (2 * k - j) • conjSum y (2 * k) (2 * k - j) =
      (2 : F) • (lowCoords k α j • conjSum y (2 * k) j) := by
    intro j hj
    rw [mem_Ico] at hj
    rw [conjSum_reflect (by omega), smul_neg, lowCoords, if_neg (by omega), smul_smul, mul_comm (α j - _), ← mul_assoc,
      mul_inv_cancel₀ h2, one_mul, sub_smul, sub_eq_add_neg]
  rw [sum_range_two_mul hk, conjSum_half, smul_zero, add_zero, conjSum_zero hy, sum_congr rfl hterm, ← smul_sum,
    subfieldSum, smul_add, lowCoords, if_pos rfl]
  congr 1
  rw [smul_comm (2 : F), Algebra.smul_def (2 : F), map_ofNat, mul_one]

/-- The coordinates of the second half of `2k` coefficients. -/
def highCoords (k : ℕ) (α : ℕ → F) (j : ℕ) : F := if j = 0 then α k else (α (k - j) + α (k + j)) * 2⁻¹

/-- **Two halves**: `2k` coefficients are two coordinate vectors, the second one turned by `y^k`. -/
theorem sum_eq_halves (h2 : (2 : F) ≠ 0) (hk : 0 < k) (hy : y ^ (2 * k) = -1) (α : ℕ → F) :
    ∑ b ∈ range (2 * k), α b • y ^ b = subfieldSum y k (lowCoords k α) + y ^ k * subfieldSum y k (highCoords k α) := by
  have hhalf : (2⁻¹ : F) + 2⁻¹ = 1 := by rw [← two_mul, mul_inv_cancel₀ h2]
  -- the second sum is read from its end, so that both sums meet the powers `j` and `2k - j`
  have hreflect : ∑ j ∈ Ico 1 k, highCoords k α j • (y ^ k * conjSum y (2 * k) j) =
      ∑ j ∈ Ico 1 k, ((α j + α (2 * k - j)) * 2⁻¹) • (y ^ j + y ^ (2 * k - j)) := by
    have hends := sum_Ico_reflect (fun j => highCoords k α j • (y ^ k * conjSum y (2 * k) j)) 1 (Nat.le_succ k)
    rw [Nat.add_sub_cancel_left, Nat.add_sub_cancel] at hends
    rw [← hends]
    refine sum_congr rfl fun j hj => ?_
    rw [mem_Ico] at hj
    have hup : y ^ k * y ^ (k - j) = y ^ (2 * k - j) := by rw [← pow_add]; congr 1; omega
    have hdown : y ^ k * y ^ (2 * k - (k - j)) = -y ^ j := by
      rw [← pow_add, show k + (2 * k - (k - j)) = 2 * k + j by omega, pow_add, hy, neg_one_mul]
    rw [highCoords, if_neg (by omega), conjSum, mul_sub, hup, hdown, sub_neg_eq_add, add_comm (y ^ (2 * k - j)),
      show k - (k - j) = j by omega, show k + (k - j) = 2 * k - j by omega]
  have hlow : ∀ j ∈ Ico 1 k, lowCoords k α j • conjSum y (2 * k) j +
      ((α j + α (2 * k - j)) * 2⁻¹) • (y ^ j + y ^ (2 * k - j)) = α j • y ^ j + α (2 * k - j) • y ^ (2 * k - j) := by
    intro j hj
    rw [mem_Ico] at hj
    have h1 : α j = (α j - α (2 * k - j)) * 2⁻¹ + (α j + α (2 * k - j)) * 2⁻¹ := by linear_combination -α j * hhalf
    have h3 : α (2 * k - j) = (α j + α (2 * k - j)) * 2⁻¹ - (α j - α (2 * k - j)) * 2⁻¹ := by
      linear_combination -α (2 * k - j) * hhalf
    rw [lowCoords, if_neg (by omega), conjSum]
    conv_rhs => rw [h1, h3]
    module
  have hright : subfieldSum y k (lowCoords k α) + y ^ k * subfieldSum y k (highCoords k α) =
      α 0 • 1 + α k • y ^ k + ∑ j ∈ Ico 1 k, (α j • y ^ j + α (2 * k - j) • y ^ (2 * k - j)) := by
    rw [← sum_congr rfl hlow, sum_add_distrib, ← hreflect]
    simp only [subfieldSum, mul_add, mul_sum, mul_smul_comm, mul_one, lowCoords, highCoords, if_true]
    abel
  rw [hright, sum_range_two_mul hk, pow_zero]

end halves

section ring

variable (F : Type*) [Field F] (d : ℕ)

/-- `F[X] / (X^d + 1)`. -/
abbrev Negacyclic : Type _ := AdjoinRoot (X ^ d + 1 : F[X])

namespace Negacyclic

/-- The class of `X`. -/
noncomputable def root : Negacyclic F d := AdjoinRoot.root _

theorem root_pow_self : root F d ^ d = -1 := by
  have h : AdjoinRoot.mk (X ^ d + 1 : F[X]) (X ^ d + 1) = 0 := AdjoinRoot.mk_self
  have hsum : root F d ^ d + 1 = 0 := by simpa [root, map_add, map_pow] using h
  exact eq_neg_of_add_eq_zero_left hsum

/-- The ring element with the given coefficients. -/
noncomputable def value : (Fin d → F) →ₗ[F] Negacyclic F d :=
  Fintype.linearCombination F fun i => root F d ^ (i : ℕ)

variable {F d}

theorem value_apply (a : Fin d → F) : value F d a = ∑ i, a i • root F d ^ (i : ℕ) := rfl

theorem value_single (i : Fin d) (c : F) : value F d (Pi.single i c) = c • root F d ^ (i : ℕ) := by
  rw [value, Fintype.linearCombination_apply_single]

/-- **Coefficients are unique.** -/
theorem value_injective (hd : 0 < d) : Function.Injective (value F d) := by
  refine (injective_iff_map_eq_zero _).2 fun a ha => ?_
  -- the polynomial with these coefficients has a degree below that of `X^d + 1`
  have hmk : AdjoinRoot.mk (X ^ d + 1 : F[X]) (∑ i, C (a i) * X ^ (i : ℕ)) = 0 := by
    rw [value_apply] at ha
    rw [map_sum, ← ha]
    refine sum_congr rfl fun i _ => ?_
    rw [map_mul, map_pow, AdjoinRoot.mk_C, AdjoinRoot.mk_X, Algebra.smul_def]
    rfl
  have hmonic : (X ^ d + 1 : F[X]).Monic := by
    simpa using monic_X_pow_add_C (1 : F) hd.ne'
  have hdeg : (∑ i : Fin d, C (a i) * X ^ (i : ℕ)).degree < (X ^ d + 1 : F[X]).degree := by
    have hX : (X ^ d + 1 : F[X]).degree = d := by simpa using degree_X_pow_add_C hd (1 : F)
    rw [hX]
    refine (degree_sum_le _ _).trans_lt ?_
    rw [Finset.sup_lt_iff (by exact WithBot.bot_lt_coe d)]
    intro i _
    exact (degree_C_mul_X_pow_le _ _).trans_lt (by exact_mod_cast i.isLt)
  have hzero : ∑ i : Fin d, C (a i) * X ^ (i : ℕ) = 0 := by
    by_contra hne
    exact hmonic.not_dvd_of_degree_lt hne hdeg (AdjoinRoot.mk_eq_zero.1 hmk)
  funext i
  have hcoeff := congrArg (fun p => p.coeff (i : ℕ)) hzero
  have hpick : ∀ j : Fin d, (C (a j) * X ^ (j : ℕ)).coeff (i : ℕ) = if j = i then a i else 0 := by
    intro j
    rw [coeff_C_mul_X_pow]
    by_cases hji : j = i
    · simp [hji]
    · have : ¬ (i : ℕ) = j := fun h => hji (Fin.ext h.symm)
      simp [hji, this]
  simpa [finsetSum_coeff, hpick] using hcoeff

/-- Coefficient `n`, and zero past the end. -/
def coef (a : Fin d → F) (n : ℕ) : F := if h : n < d then a ⟨n, h⟩ else 0

theorem value_eq_sum (a : Fin d → F) : value F d a = ∑ n ∈ range d, coef a n • root F d ^ n := by
  rw [value_apply, sum_range]
  exact sum_congr rfl fun i _ => by rw [coef, dif_pos i.isLt]

/-! ## Automorphisms -/

/-- `X ↦ X^e`. -/
noncomputable def sigma (e : ℕ) (he : Odd e) : Negacyclic F d →ₐ[F] Negacyclic F d :=
  AdjoinRoot.liftAlgHom _ (Algebra.ofId F _) (root F d ^ e) (by
    rw [eval₂_add, eval₂_pow, eval₂_X, eval₂_one, pow_right_comm, root_pow_self, he.neg_one_pow, neg_add_cancel])

@[simp] theorem sigma_root (e : ℕ) (he : Odd e) : sigma e he (root F d) = root F d ^ e :=
  AdjoinRoot.liftAlgHom_root _ _ _ _

theorem sigma_root_pow (e : ℕ) (he : Odd e) (n : ℕ) : sigma e he (root F d ^ n) = root F d ^ (e * n) := by
  rw [map_pow, sigma_root, pow_mul]

theorem sigma_value (e : ℕ) (he : Odd e) (a : Fin d → F) :
    sigma e he (value F d a) = ∑ i, a i • root F d ^ (e * (i : ℕ)) := by
  rw [value_apply, map_sum]
  exact sum_congr rfl fun i _ => by rw [map_smul, sigma_root_pow]

/-- `X ↦ X^e` for odd `e`, and zero for even `e`. -/
noncomputable def power (e : ℕ) : Negacyclic F d →ₗ[F] Negacyclic F d :=
  if h : Odd e then (sigma e h).toLinearMap else 0

theorem power_of_odd {e : ℕ} (he : Odd e) (u : Negacyclic F d) : power e u = sigma e he u := by
  rw [power, dif_pos he]; rfl

/-! ## The trace -/

section trace

variable {k s m : ℕ}

theorem root_pow_step (hd : d = 2 * k * s) : (root F d ^ s) ^ (2 * k) = -1 := by
  rw [← pow_mul, show s * (2 * k) = d by rw [hd]; ring, root_pow_self]

/-- **The ring-subfield is fixed** by the exponents that are `±1` modulo `4k`. -/
theorem sigma_subfieldSum {e : ℕ} (hd : d = 2 * k * s) (he : Odd e)
    (hmod : e ≡ 1 [MOD 2 * (2 * k)] ∨ e + 1 ≡ 0 [MOD 2 * (2 * k)]) (c : ℕ → F) :
    sigma e he (subfieldSum (root F d ^ s) k c) = subfieldSum (root F d ^ s) k c := by
  have hy := root_pow_step (F := F) hd
  have hpow : ∀ j, sigma e he ((root F d ^ s) ^ j) = (root F d ^ s) ^ (e * j) := by
    intro j
    rw [← pow_mul, sigma_root_pow, ← pow_mul]
    congr 1; ring
  have hfix : ∀ j ≤ 2 * k, sigma e he (conjSum (root F d ^ s) (2 * k) j) = conjSum (root F d ^ s) (2 * k) j := by
    intro j hj
    rw [conjSum, map_sub, hpow, hpow]
    rcases hmod with h | h
    · rw [pow_one_exponent hy h, pow_one_exponent hy h]
    · rw [pow_neg_exponent hy h hj, pow_neg_exponent hy h (Nat.sub_le _ _), Nat.sub_sub_self hj]; ring
  rw [subfieldSum, map_add, map_smul, map_one, map_sum]
  congr 1
  refine sum_congr rfl fun j hj => ?_
  rw [mem_Ico] at hj
  rw [map_smul, hfix j (by omega)]

/-- The sum of the automorphisms of the subgroup. -/
noncomputable def trace (k s : ℕ) : Negacyclic F d →ₗ[F] Negacyclic F d := ∑ e ∈ traceExponents k s, power e

theorem trace_apply (u : Negacyclic F d) : trace k s u = ∑ e ∈ traceExponents k s, power e u := by
  rw [trace, LinearMap.sum_apply]

theorem trace_root_pow (hk : 0 < k) (hd : d = 2 * k * 2 ^ m) (n : ℕ) : trace k (2 ^ m) (root F d ^ n) =
    if 2 ^ m ∣ n then 2 ^ m * (root F d ^ n + root F d ^ ((4 * k - 1) * n)) else 0 := by
  rw [trace_apply, ← sum_pow_traceExponents hk (by rw [← hd, root_pow_self])]
  exact sum_congr rfl fun e he => by rw [power_of_odd (odd_of_mem_traceExponents he), sigma_root_pow]

theorem trace_fixed_mul {u : Negacyclic F d} (hu : ∀ e ∈ traceExponents k s, power e u = u) (w : Negacyclic F d) :
    trace k s (u * w) = u * trace k s w := by
  rw [trace_apply, trace_apply, mul_sum]
  refine sum_congr rfl fun e he => ?_
  have hodd := odd_of_mem_traceExponents he
  have hfix := hu e he
  rw [power_of_odd hodd] at hfix
  rw [power_of_odd hodd, power_of_odd hodd, map_mul, hfix]

/-- Two vectors of subfield elements in one ring element. -/
noncomputable def packed (k s : ℕ) (a b : ℕ → Negacyclic F d) : Negacyclic F d :=
  ∑ i ∈ range s, root F d ^ i * (a i + root F d ^ (k * s) * b i)

/-- **Every element is packed**: the coefficients of a residue class are two coordinate vectors. -/
theorem value_eq_packed (h2 : (2 : F) ≠ 0) (hk : 0 < k) (hd : d = 2 * k * s) (c : Fin d → F) :
    value F d c = packed k s (fun r => subfieldSum (root F d ^ s) k (lowCoords k fun b => coef c (r + b * s)))
      (fun r => subfieldSum (root F d ^ s) k (highCoords k fun b => coef c (r + b * s))) := by
  have hy := root_pow_step (F := F) hd
  have hclass : ∀ r, root F d ^ r * ∑ b ∈ range (2 * k), coef c (r + b * s) • (root F d ^ s) ^ b =
      ∑ b ∈ range (2 * k), coef c (b * s + r) • root F d ^ (b * s + r) := by
    intro r
    rw [mul_sum]
    refine sum_congr rfl fun b _ => ?_
    rw [mul_smul_comm, ← pow_mul, ← pow_add, add_comm r, mul_comm s b, add_comm r]
  have hrange : ∑ n ∈ range d, coef c n • root F d ^ n = ∑ n ∈ range (2 * k * s), coef c n • root F d ^ n := by
    rw [← hd]
  rw [value_eq_sum, hrange, sum_range_rows, sum_comm, packed]
  refine sum_congr rfl fun r _ => ?_
  rw [← hclass, sum_eq_halves h2 hk hy, ← pow_mul, mul_comm s k]

/-- **The trace in coefficients**: the class of zero, folded onto the inverses. -/
theorem trace_value (h2 : (2 : F) ≠ 0) (hk : 0 < k) (hd : d = 2 * k * 2 ^ m) (c : Fin d → F) :
    trace k (2 ^ m) (value F d c) =
      (2 * 2 ^ m : F) • subfieldSum (root F d ^ 2 ^ m) k (lowCoords k fun b => coef c (b * 2 ^ m)) := by
  have hy := root_pow_step (F := F) hd
  have hneg : 4 * k - 1 + 1 ≡ 0 [MOD 2 * (2 * k)] := by
    rw [Nat.sub_add_cancel (by omega)]
    exact Nat.modEq_zero_iff_dvd.2 ⟨1, by ring⟩
  have hrow : ∀ b ∈ range (2 * k), ∑ r ∈ range (2 ^ m), coef c (b * 2 ^ m + r) • trace k (2 ^ m) (root F d ^ (b * 2 ^ m + r)) =
      (2 ^ m : F) • (coef c (b * 2 ^ m) • conjSum (root F d ^ 2 ^ m) (2 * k) b) := by
    intro b hb
    rw [mem_range] at hb
    rw [sum_eq_single_of_mem 0 (mem_range.2 (by positivity))]
    · have hpow : root F d ^ ((4 * k - 1) * (b * 2 ^ m)) = -(root F d ^ 2 ^ m) ^ (2 * k - b) := by
        rw [← pow_neg_exponent hy hneg (by omega), ← pow_mul]
        congr 1; ring
      rw [add_zero, trace_root_pow hk hd, if_pos (Dvd.intro_left b rfl), hpow, conjSum, mul_comm b, pow_mul,
        ← sub_eq_add_neg, smul_comm, Algebra.smul_def (2 ^ m : F), map_pow, map_ofNat]
    · intro r hr hne
      rw [mem_range] at hr
      have hnot : ¬ 2 ^ m ∣ b * 2 ^ m + r := by
        intro h
        exact absurd (Nat.le_of_dvd (by omega) ((Nat.dvd_add_right (Dvd.intro_left b rfl)).1 h)) (by omega)
      rw [trace_root_pow hk hd, if_neg hnot, smul_zero]
  have hrange : ∑ n ∈ range d, coef c n • trace k (2 ^ m) (root F d ^ n) =
      ∑ n ∈ range (2 * k * 2 ^ m), coef c n • trace k (2 ^ m) (root F d ^ n) := by rw [← hd]
  rw [value_eq_sum, map_sum]
  simp only [map_smul]
  rw [hrange, sum_range_rows, sum_congr rfl hrow, ← smul_sum, sum_conjSum h2 hk hy, smul_smul, mul_comm (2 ^ m : F)]

variable {a b a' b' : ℕ → Negacyclic F d}

theorem sigma_neg_packed (hk : 0 < k) (hs : 0 < s) (hd : d = 2 * k * s) (he : Odd (2 * d - 1))
    (ha : ∀ i, sigma (2 * d - 1) he (a i) = a i) (hb : ∀ i, sigma (2 * d - 1) he (b i) = b i) :
    sigma (2 * d - 1) he (packed k s a b) =
      ∑ i ∈ range s, root F d ^ ((2 * d - 1) * i) * (a i - root F d ^ (k * s) * b i) := by
  have hpos : 0 < d := by rw [hd]; positivity
  have hneg : 2 * d - 1 + 1 ≡ 0 [MOD 2 * d] := by
    rw [Nat.sub_add_cancel (by omega)]
    exact Nat.modEq_zero_iff_dvd.2 dvd_rfl
  have hhalf : root F d ^ ((2 * d - 1) * (k * s)) = -root F d ^ (k * s) := by
    rw [pow_neg_exponent (root_pow_self F d) hneg (by nlinarith), show d - k * s = k * s by rw [hd, mul_assoc]; omega]
  rw [packed, map_sum]
  refine sum_congr rfl fun i _ => ?_
  rw [map_mul, map_add, map_mul, sigma_root_pow, sigma_root_pow, ha, hb, hhalf]
  ring

/-- **The trace of a product of packed vectors is their inner product.** -/
theorem trace_packed_mul (hk : 0 < k) (hd : d = 2 * k * 2 ^ m) (he : Odd (2 * d - 1))
    (ha : ∀ i, ∀ e ∈ traceExponents k (2 ^ m), power e (a i) = a i)
    (hb : ∀ i, ∀ e ∈ traceExponents k (2 ^ m), power e (b i) = b i)
    (ha' : ∀ i, ∀ e ∈ traceExponents k (2 ^ m), power e (a' i) = a' i)
    (hb' : ∀ i, ∀ e ∈ traceExponents k (2 ^ m), power e (b' i) = b' i) :
    trace k (2 ^ m) (packed k (2 ^ m) a b * sigma (2 * d - 1) he (packed k (2 ^ m) a' b')) =
      2 * 2 ^ m * ∑ i ∈ range (2 ^ m), (a i * a' i + b i * b' i) := by
  have hs : 0 < 2 ^ m := by positivity
  have hpos : 0 < d := by rw [hd]; positivity
  have hlast : 2 * d - 1 ∈ traceExponents k (2 ^ m) := by
    have h2d : 2 * d = 2 ^ m * (4 * k) := by rw [hd]; ring
    rw [traceExponents, mem_filter, mem_range, ← h2d]
    refine ⟨by omega, Or.inr ?_⟩
    have hsplit : 2 * d - 1 = (4 * k - 1) + 4 * k * (2 ^ m - 1) := by
      have : 4 * k * 2 ^ m = 4 * k * (2 ^ m - 1) + 4 * k := by
        rw [← Nat.mul_succ, Nat.succ_eq_add_one, Nat.sub_add_cancel hs]
      rw [h2d, mul_comm]; omega
    rw [hsplit, Nat.add_mul_mod_self_left, Nat.mod_eq_of_lt (by omega)]
  have hx := root_pow_self F d
  have hsq : root F d ^ (k * 2 ^ m) * root F d ^ (k * 2 ^ m) = -1 := by
    rw [← pow_add, show k * 2 ^ m + k * 2 ^ m = d by rw [hd]; ring, hx]
  -- the exponents of a pair of positions meet the subgroup only on the diagonal
  have hdiag : ∀ i < 2 ^ m, ∀ j < 2 ^ m, (2 ^ m ∣ i + (2 * d - 1) * j ↔ i = j) := by
    intro i hi j hj
    have hsum : i + (2 * d - 1) * j + j = i + 2 ^ m * (4 * k * j) := by
      calc i + (2 * d - 1) * j + j = i + ((2 * d - 1) + 1) * j := by ring
        _ = i + 2 ^ m * (4 * k * j) := by rw [Nat.sub_add_cancel (by omega), hd]; ring
    constructor
    · rintro ⟨c, hc⟩
      have hmod : (2 ^ m * c + j) % 2 ^ m = (i + 2 ^ m * (4 * k * j)) % 2 ^ m := by rw [← hsum, hc]
      rwa [Nat.mul_add_mod, Nat.add_mul_mod_self_left, Nat.mod_eq_of_lt hj, Nat.mod_eq_of_lt hi, eq_comm] at hmod
    · rintro rfl
      have hsum' : i + (2 * d - 1) * i = 2 ^ m * (4 * k * i) := by omega
      exact ⟨_, hsum'⟩
  have hpair : ∀ i < 2 ^ m, ∀ j < 2 ^ m, trace k (2 ^ m) (root F d ^ i * (a i + root F d ^ (k * 2 ^ m) * b i) *
        (root F d ^ ((2 * d - 1) * j) * (a' j - root F d ^ (k * 2 ^ m) * b' j))) =
      if j = i then 2 * 2 ^ m * (a i * a' i + b i * b' i) else 0 := by
    intro i hi j hj
    have hexpand : root F d ^ i * (a i + root F d ^ (k * 2 ^ m) * b i) *
        (root F d ^ ((2 * d - 1) * j) * (a' j - root F d ^ (k * 2 ^ m) * b' j)) =
        (a i * a' j + b i * b' j) * root F d ^ (i + (2 * d - 1) * j) +
          (b i * a' j - a i * b' j) * root F d ^ (i + (2 * d - 1) * j + k * 2 ^ m) := by
      rw [pow_add, pow_add]
      linear_combination (-root F d ^ i * root F d ^ ((2 * d - 1) * j) * b i * b' j) * hsq
    have hmul : ∀ u v : Negacyclic F d, (∀ e ∈ traceExponents k (2 ^ m), power e u = u) →
        (∀ e ∈ traceExponents k (2 ^ m), power e v = v) → ∀ e ∈ traceExponents k (2 ^ m), power e (u * v) = u * v := by
      intro u v hu hv e hmem
      have hodd := odd_of_mem_traceExponents hmem
      have h1 := hu e hmem
      have h2 := hv e hmem
      rw [power_of_odd hodd] at h1 h2 ⊢
      rw [map_mul, h1, h2]
    have hsame : ∀ e ∈ traceExponents k (2 ^ m), power e (a i * a' j + b i * b' j) = a i * a' j + b i * b' j := by
      intro e hmem
      rw [map_add, hmul _ _ (ha i) (ha' j) e hmem, hmul _ _ (hb i) (hb' j) e hmem]
    have hcross : ∀ e ∈ traceExponents k (2 ^ m), power e (b i * a' j - a i * b' j) = b i * a' j - a i * b' j := by
      intro e hmem
      rw [map_sub, hmul _ _ (hb i) (ha' j) e hmem, hmul _ _ (ha i) (hb' j) e hmem]
    rw [hexpand, map_add, trace_fixed_mul hsame, trace_fixed_mul hcross, trace_root_pow hk hd, trace_root_pow hk hd]
    have hshift : 2 ^ m ∣ i + (2 * d - 1) * j + k * 2 ^ m ↔ 2 ^ m ∣ i + (2 * d - 1) * j :=
      (Nat.dvd_add_iff_left (Dvd.intro_left k rfl)).symm
    rw [if_congr (hshift.trans (hdiag i hi j hj)) rfl rfl, if_congr (hdiag i hi j hj) rfl rfl]
    by_cases hij : i = j
    · subst hij
      have hfull : i + (2 * d - 1) * i = 2 * d * i := by
        calc i + (2 * d - 1) * i = ((2 * d - 1) + 1) * i := by ring
          _ = 2 * d * i := by rw [Nat.sub_add_cancel (by omega)]
      have hone : ∀ c, root F d ^ (2 * d * c) = 1 := by
        intro c; rw [pow_mul, pow_two_mul_eq_one hx, one_pow]
      have hneg : 4 * k - 1 + 1 ≡ 0 [MOD 2 * (2 * k)] := by
        rw [Nat.sub_add_cancel (by omega)]
        exact Nat.modEq_zero_iff_dvd.2 ⟨1, by ring⟩
      have hcancel : root F d ^ ((4 * k - 1) * (k * 2 ^ m)) = -root F d ^ (k * 2 ^ m) := by
        have h := pow_neg_exponent (root_pow_step (F := F) hd) hneg (show k ≤ 2 * k by omega)
        rw [← pow_mul, ← pow_mul, show 2 * k - k = k by omega] at h
        rw [show (4 * k - 1) * (k * 2 ^ m) = 2 ^ m * ((4 * k - 1) * k) by ring, h, mul_comm]
      rw [if_pos rfl, if_pos rfl, if_pos rfl, hfull, hone, pow_add, hone, mul_add (4 * k - 1), pow_add, hcancel,
        show (4 * k - 1) * (2 * d * i) = 2 * d * ((4 * k - 1) * i) by ring, hone]
      ring
    · rw [if_neg hij, if_neg hij, if_neg (Ne.symm hij), mul_zero, mul_zero, add_zero]
  have hfixed : ∀ u : Negacyclic F d, (∀ e ∈ traceExponents k (2 ^ m), power e u = u) → sigma (2 * d - 1) he u = u := by
    intro u hu
    rw [← power_of_odd he]
    exact hu _ hlast
  rw [sigma_neg_packed hk hs hd he (fun i => hfixed _ (ha' i)) (fun i => hfixed _ (hb' i)), packed, sum_mul_sum, map_sum,
    mul_sum]
  refine sum_congr rfl fun i hi => ?_
  rw [mem_range] at hi
  rw [map_sum, sum_congr rfl fun j hj => hpair i hi j (mem_range.1 hj), sum_ite_eq', if_pos (mem_range.2 hi)]

end trace

end Negacyclic

end ring

end Akita.Lib

/-!
## The tower of even-power subrings

`F[X] / (X^m + 1)` sits in `F[X] / (X^2m + 1)` as the elements with even powers only, which are those that the
conjugation `X ↦ -X` fixes when `2 ≠ 0`. The norm of an element, its product with its conjugate, is fixed, and an element
is a unit exactly when its norm is one below.
-/

namespace Akita.Lib.Negacyclic

open Polynomial Finset

variable {F : Type*} [Field F] {m n : ℕ} {a : Fin n → F}

/-- **Every element has coefficients.** -/
theorem value_surjective (hn : 0 < n) : Function.Surjective (value F n) := by
  intro u
  obtain ⟨p, rfl⟩ := AdjoinRoot.mk_surjective u
  have hmonic : (X ^ n + 1 : F[X]).Monic := by simpa using monic_X_pow_add_C (1 : F) hn.ne'
  have hdeg : (X ^ n + 1 : F[X]).natDegree = n := by simpa using natDegree_X_pow_add_C (n := n) (r := (1 : F))
  have hne : (X ^ n + 1 : F[X]) ≠ 1 := by
    intro heq
    rw [heq, natDegree_one] at hdeg
    omega
  have hlt := natDegree_modByMonic_lt p hmonic hne
  rw [hdeg] at hlt
  refine ⟨fun i => (p %ₘ (X ^ n + 1)).coeff i, ?_⟩
  have hmod : AdjoinRoot.mk (X ^ n + 1 : F[X]) p = AdjoinRoot.mk (X ^ n + 1) (p %ₘ (X ^ n + 1)) := by
    conv_lhs => rw [← modByMonic_add_div p (X ^ n + 1 : F[X]), map_add, map_mul, AdjoinRoot.mk_self, zero_mul, add_zero]
  rw [hmod, value_apply, ← sum_range fun i => (p %ₘ (X ^ n + 1)).coeff i • root F n ^ i,
    (p %ₘ (X ^ n + 1)).as_sum_range_C_mul_X_pow' hlt, map_sum, ← (p %ₘ (X ^ n + 1)).as_sum_range_C_mul_X_pow' hlt]
  refine sum_congr rfl fun i _ => ?_
  rw [map_mul, map_pow, AdjoinRoot.mk_C, AdjoinRoot.mk_X, Algebra.smul_def]
  rfl

/-! ### The even powers -/

noncomputable def double (h : n = 2 * m) : Negacyclic F m →ₐ[F] Negacyclic F n :=
  AdjoinRoot.liftAlgHom _ (Algebra.ofId F _) (root F n ^ 2) (by
    rw [eval₂_add, eval₂_pow, eval₂_X, eval₂_one, ← pow_mul, ← h, root_pow_self, neg_add_cancel])

theorem double_value (h : n = 2 * m) (q : Fin m → F) : double h (value F m q) = ∑ i, q i • root F n ^ (2 * (i : ℕ)) := by
  rw [value_apply, map_sum]
  refine sum_congr rfl fun i _ => ?_
  rw [map_smul, map_pow, root, double, AdjoinRoot.liftAlgHom_root, pow_mul]

/-- Coefficients that are zero at the odd places are those of an included element. -/
theorem value_eq_double (h : n = 2 * m) {q : Fin m → F} (heven : ∀ (i : Fin n) (j : Fin m), (i : ℕ) = 2 * j → a i = q j)
    (hodd : ∀ i : Fin n, (i : ℕ) % 2 = 1 → a i = 0) : value F n a = double h (value F m q) := by
  have hrows : range n = range (m * 2) := by rw [h, mul_comm]
  rw [value_eq_sum, hrows, sum_range_rows, double_value, sum_range]
  refine sum_congr rfl fun j _ => ?_
  rw [sum_range_succ, sum_range_one, add_zero, coef, coef, dif_pos (by omega), dif_pos (by omega),
    heven ⟨j * 2, by omega⟩ j (mul_comm _ _), hodd ⟨j * 2 + 1, by omega⟩ (by dsimp only; omega), zero_smul, add_zero, mul_comm]

theorem double_injective (hm : 0 < m) (h : n = 2 * m) : Function.Injective (double (F := F) h) := by
  refine (injective_iff_map_eq_zero _).2 fun u hu => ?_
  obtain ⟨q, rfl⟩ := value_surjective hm u
  have hzero : value F n (fun i => if (i : ℕ) % 2 = 0 then q ⟨i / 2, by omega⟩ else 0) = 0 := by
    rw [← hu]
    refine value_eq_double h ?_ ?_
    · intro i j hij
      rw [if_pos (by omega)]
      congr 1
      exact Fin.ext (by dsimp only; omega)
    · intro i hi
      rw [if_neg (by omega)]
  have hcoeffs := value_injective (F := F) (by omega : 0 < n) (hzero.trans (map_zero _).symm)
  have hq : q = 0 := by
    funext j
    have hj := congrFun hcoeffs ⟨2 * j, by omega⟩
    dsimp only at hj
    rw [if_pos (by omega)] at hj
    rw [← show q ⟨2 * j / 2, by omega⟩ = q j from congrArg q (Fin.ext (by dsimp only; omega))]
    exact hj
  rw [hq, map_zero]

/-! ### The conjugation -/

/-- The conjugation `X ↦ -X`, as the automorphism of the exponent `n + 1`. -/
noncomputable def conj (hn : Even n) : Negacyclic F n →ₐ[F] Negacyclic F n := sigma (n + 1) hn.add_one

theorem conj_root_pow (hn : Even n) (i : ℕ) : conj hn (root F n ^ i) = (-1) ^ i * root F n ^ i := by
  rw [conj, sigma_root_pow, add_mul, one_mul, pow_add, pow_mul, root_pow_self]

theorem conj_value (hn : Even n) (a : Fin n → F) :
    conj hn (value F n a) = value F n fun i => if (i : ℕ) % 2 = 0 then a i else -a i := by
  rw [value_apply, map_sum, value_apply]
  refine sum_congr rfl fun i _ => ?_
  rw [map_smul, conj_root_pow]
  split_ifs with hi
  · rw [(Nat.even_iff.2 hi).neg_one_pow, one_mul]
  · rw [(Nat.odd_iff.2 (by omega)).neg_one_pow, neg_one_mul, smul_neg, neg_smul]

theorem conj_conj (hn : Even n) (hpos : 0 < n) (u : Negacyclic F n) : conj hn (conj hn u) = u := by
  obtain ⟨a, rfl⟩ := value_surjective hpos u
  rw [conj_value, conj_value]
  congr 1
  funext i
  split_ifs
  · rfl
  · exact neg_neg _

theorem conj_norm (hn : Even n) (hpos : 0 < n) (u : Negacyclic F n) : conj hn (u * conj hn u) = u * conj hn u := by
  rw [map_mul, conj_conj hn hpos, mul_comm]

/-- **A fixed element has even powers only.** -/
theorem odd_coeff_of_conj (h2 : (2 : F) ≠ 0) (hn : Even n) (hpos : 0 < n) (hfix : conj hn (value F n a) = value F n a) {i : Fin n}
    (hi : (i : ℕ) % 2 = 1) : a i = 0 := by
  rw [conj_value] at hfix
  have hcoeff := congrFun (value_injective hpos hfix) i
  rw [if_neg (by omega)] at hcoeff
  have htwo : 2 * a i = 0 := by linear_combination -hcoeff
  exact (mul_eq_zero.1 htwo).resolve_left h2

theorem exists_double (h2 : (2 : F) ≠ 0) (hn : Even n) (hpos : 0 < n) (h : n = 2 * m) {u : Negacyclic F n} (hfix : conj hn u = u) :
    ∃ v, double h v = u := by
  obtain ⟨a, rfl⟩ := value_surjective hpos u
  refine ⟨value F m fun j => a ⟨2 * j, by omega⟩, (value_eq_double h ?_ fun i hi => odd_coeff_of_conj h2 hn hpos hfix hi).symm⟩
  intro i j hij
  exact congrArg a (Fin.ext hij)

/-- **An included element is a unit** only when it is one below. -/
theorem isUnit_of_double (h2 : (2 : F) ≠ 0) (hm : 0 < m) (h : n = 2 * m) {v : Negacyclic F m} (hv : IsUnit (double h v))
    (hn : Even n) (hfix : conj hn (double h v) = double h v) : IsUnit v := by
  obtain ⟨w, hw⟩ := hv.exists_right_inv
  -- the inverse of a fixed element is fixed
  have hw' : double h v * conj hn w = 1 := by rw [← hfix, ← map_mul, hw, map_one]
  have hfixw : conj hn w = w := hv.mul_left_cancel (hw'.trans hw.symm)
  obtain ⟨v', rfl⟩ := exists_double h2 hn (by omega) h hfixw
  refine IsUnit.of_mul_eq_one v' (double_injective hm h ?_)
  rw [map_mul, hw, map_one]

end Akita.Lib.Negacyclic

/-!
## The roots of `X^d + 1`

The primitive `2d`-th roots of unity are roots of `X^d + 1`, and when `d` is a power of two
there are no others. Over the complex numbers the roots are the odd powers of
`exp (π i / d)`; the conjugate of power `2k + 1` is power `2(d - 1 - k) + 1`.
-/

namespace Akita.Lib

section

variable {K : Type*} [Field K] {d : ℕ} {ζ : K}

theorem primitive_pow_half (h : IsPrimitiveRoot ζ (2 * d)) (hd : 0 < d) : ζ ^ d = -1 := by
  have hsq : ζ ^ d * ζ ^ d = 1 := by rw [← pow_add, ← two_mul, h.pow_eq_one]
  rcases mul_self_eq_one_iff.1 hsq with hone | hneg
  · exact absurd hone (h.pow_ne_one_of_pos_of_lt hd.ne' (by omega))
  · exact hneg

theorem isPrimitiveRoot_of_pow_eq_neg_one (h2 : (-1 : K) ≠ 1) {m : ℕ} (h : ζ ^ 2 ^ m = -1) :
    IsPrimitiveRoot ζ (2 * 2 ^ m) := by
  have hne : ¬ ζ ^ 2 ^ m = 1 := by rw [h]; exact h2
  have hone : ζ ^ 2 ^ (m + 1) = 1 := by rw [pow_succ, pow_mul, h]; norm_num
  have horder : orderOf ζ = 2 ^ (m + 1) := orderOf_eq_prime_pow hne hone
  rw [← pow_succ', ← horder]
  exact IsPrimitiveRoot.orderOf ζ

end

section

open Complex

variable {d : ℕ}

/-- The root of angle `π (2k + 1) / d`. -/
noncomputable def negacyclicRoot (d k : ℕ) : ℂ := exp ((Real.pi * (2 * k + 1) / d : ℝ) * I)

theorem negacyclicRoot_pow (d k n : ℕ) :
    negacyclicRoot d k ^ n = exp ((Real.pi * ((2 * k + 1) * n : ℕ) / d : ℝ) * I) := by
  unfold negacyclicRoot
  rw [← Complex.exp_nat_mul]
  congr 1
  push_cast
  ring

theorem negacyclicRoot_pow_re (d k n : ℕ) : (negacyclicRoot d k ^ n).re = Real.cos (Real.pi * ((2 * k + 1) * n : ℕ) / d) := by
  rw [negacyclicRoot_pow, exp_ofReal_mul_I_re]

theorem negacyclicRoot_pow_im (d k n : ℕ) : (negacyclicRoot d k ^ n).im = Real.sin (Real.pi * ((2 * k + 1) * n : ℕ) / d) := by
  rw [negacyclicRoot_pow, exp_ofReal_mul_I_im]

theorem negacyclicRoot_pow_self (hd : 0 < d) (k : ℕ) : negacyclicRoot d k ^ d = -1 := by
  have hangle : Real.pi * ((2 * k + 1) * d : ℕ) / d = Real.pi + k * (2 * Real.pi) := by
    push_cast
    field_simp
    ring
  rw [negacyclicRoot_pow, hangle]
  push_cast
  rw [add_mul, exp_add, exp_pi_mul_I, mul_assoc, exp_nat_mul_two_pi_mul_I, mul_one]

/-- **The roots**: `z^d = -1` has only the roots of angle `π (2k + 1) / d`, `k < d`. -/
theorem eq_negacyclicRoot (hd : 0 < d) {ζ : ℂ} (h : ζ ^ d = -1) : ∃ k < d, ζ = negacyclicRoot d k := by
  have hprim := isPrimitiveRoot_exp (2 * d) (by omega)
  have hone : ζ ^ (2 * d) = 1 := by rw [mul_comm, pow_mul, h]; norm_num
  have : NeZero (2 * d) := ⟨by omega⟩
  obtain ⟨i, hi, rfl⟩ := hprim.eq_pow_of_pow_eq_one hone
  -- an even power of the generator has `d`-th power `1`
  have hodd : Odd i := by
    by_contra heven
    rw [Nat.not_odd_iff_even] at heven
    rw [pow_right_comm, primitive_pow_half hprim hd, heven.neg_one_pow] at h
    norm_num at h
  obtain ⟨k, rfl⟩ := hodd
  refine ⟨k, by omega, ?_⟩
  rw [← Complex.exp_nat_mul]
  congr 1
  push_cast
  field_simp

/-- **Conjugate symmetry** of the frequencies. -/
theorem conj_negacyclicRoot {k : ℕ} (hk : k < d) :
    (starRingEnd ℂ) (negacyclicRoot d k) = negacyclicRoot d (d - 1 - k) := by
  have hd' : (d : ℂ) ≠ 0 := by
    have : d ≠ 0 := by omega
    exact_mod_cast this
  have hcast : ((d - 1 - k : ℕ) : ℂ) = d - 1 - k := by
    rw [Nat.cast_sub (by omega), Nat.cast_sub (by omega)]
    simp
  unfold negacyclicRoot
  rw [← exp_conj, Complex.exp_eq_exp_iff_exists_int]
  refine ⟨-1, ?_⟩
  simp only [map_mul, conj_ofReal, conj_I]
  push_cast
  rw [hcast]
  field_simp
  ring

end

end Akita.Lib
