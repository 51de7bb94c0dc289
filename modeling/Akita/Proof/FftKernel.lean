import Akita.Lib.Fourier
import Akita.Proof.NttPrime
import Akita.Spec.Fft

/-!
# The stages of a Fourier transform

The plan of a size and what one stage of it computes.

* `factorize_ok`, `digitReversalPermutation_eq`, `stageData_ok`: the radices, the permutation and the tables of a stage.
* `kernel_ok`, `butterflyStage_ok`: the tuned kernels and a stage.
-/

/-!
## The stage plan

A size whose prime factors are at most seven splits into radices two, three, five and seven. The
permutation reverses the mixed-radix digits, and a stage holds the powers of its roots.

* `factorize_ok`: the radices and their product.
* `digitReversalPermutation_eq`: the permutation.
* `stageData_ok`: the tables of a stage.
-/

namespace Akita.Fft

open Lib List
open OffsetEq (inverse)
open SetupContribution (fieldPow fieldPowLoop)

variable {n r : ℕ}

def Radix (r : ℕ) : Prop := r = 2 ∨ r = 3 ∨ r = 5 ∨ r = 7

def Smooth (n : ℕ) : Prop := ∀ p, p.Prime → p ∣ n → p ≤ 7

theorem radix_of_prime {p : ℕ} (hp : p.Prime) (hle : p ≤ 7) : Radix p := by
  have htwo := hp.two_le
  unfold Radix
  interval_cases p
  · omega
  · omega
  · exact absurd hp (by norm_num)
  · omega
  · exact absurd hp (by norm_num)
  · omega

theorem smallestPrimeFactor_ok (hn : 1 < n) (h : Smooth n) : Radix (smallestPrimeFactor n) ∧ smallestPrimeFactor n ∣ n := by
  have hmin := radix_of_prime (Nat.minFac_prime (by omega)) (h _ (Nat.minFac_prime (by omega)) (Nat.minFac_dvd n))
  have hdvd := Nat.minFac_dvd n
  have hor : n % 2 = 0 ∨ n % 3 = 0 ∨ n % 5 = 0 ∨ n % 7 = 0 := by
    rcases hmin with h2 | h3 | h5 | h7
    · exact Or.inl (Nat.mod_eq_zero_of_dvd (h2 ▸ hdvd))
    · exact Or.inr (Or.inl (Nat.mod_eq_zero_of_dvd (h3 ▸ hdvd)))
    · exact Or.inr (Or.inr (Or.inl (Nat.mod_eq_zero_of_dvd (h5 ▸ hdvd))))
    · exact Or.inr (Or.inr (Or.inr (Nat.mod_eq_zero_of_dvd (h7 ▸ hdvd))))
  unfold smallestPrimeFactor
  rw [if_neg (by omega)]
  by_cases h2 : n % 2 = 0
  · simp only [List.find?, h2, decide_true]
    exact ⟨Or.inl rfl, Nat.dvd_of_mod_eq_zero h2⟩
  by_cases h3 : n % 3 = 0
  · simp only [List.find?, h2, h3, decide_true, decide_false]
    exact ⟨Or.inr (Or.inl rfl), Nat.dvd_of_mod_eq_zero h3⟩
  by_cases h5 : n % 5 = 0
  · simp only [List.find?, h2, h3, h5, decide_true, decide_false]
    exact ⟨Or.inr (Or.inr (Or.inl rfl)), Nat.dvd_of_mod_eq_zero h5⟩
  have h7 : n % 7 = 0 := by omega
  simp only [List.find?, h2, h3, h5, h7, decide_true, decide_false]
  exact ⟨Or.inr (Or.inr (Or.inr rfl)), Nat.dvd_of_mod_eq_zero h7⟩

/-- **The factors are radices**, and multiply to the size. -/
theorem factorize_ok (hn : 0 < n) (h : Smooth n) : (∀ r ∈ factorize n, Radix r) ∧ (factorize n).prod = n := by
  induction n using Nat.strong_induction_on with
  | _ n ih =>
    rw [factorize]
    by_cases hone : 1 < n
    · obtain ⟨hradix, hdvd⟩ := smallestPrimeFactor_ok hone h
      have hgt := one_lt_smallestPrimeFactor hone
      have hlt := Nat.div_lt_self hn hgt
      have hpos := Nat.div_pos (Nat.le_of_dvd hn hdvd) (by omega)
      obtain ⟨hall, hprod⟩ := ih _ hlt hpos fun p hp hpn => h p hp (hpn.trans (Nat.div_dvd_of_dvd hdvd))
      rw [if_pos hone, prod_cons, hprod, Nat.mul_div_cancel' hdvd]
      refine ⟨fun r hr => ?_, rfl⟩
      rcases mem_cons.1 hr with rfl | hr
      · exact hradix
      · exact hall r hr
    · rw [if_neg hone]
      exact ⟨fun r hr => absurd hr not_mem_nil, by rw [prod_nil]; omega⟩

theorem reverse_digits (factors : List ℕ) (k rev : ℕ) :
    (factors.zip (mixedDigits factors k)).foldl (fun rev digit => rev * digit.1 + digit.2) rev =
      rev * factors.prod + digitReverse factors k := by
  induction factors generalizing k rev with
  | nil => simp [mixedDigits, digitReverse]
  | cons f factors ih =>
    rw [mixedDigits, zip_cons_cons, foldl_cons, ih, prod_cons, digitReverse]
    ring

/-- **The permutation reverses the digits.** -/
theorem digitReversalPermutation_eq (n : ℕ) (factors : List ℕ) :
    digitReversalPermutation n factors = (range n).map (digitReverse factors) := by
  unfold digitReversalPermutation
  refine map_congr_left fun k _ => ?_
  rw [reverse_digits, zero_mul, zero_add]

variable {F : Type} [Field F]

theorem fieldPowLoop_eq {rounds exp : ℕ} (h : exp ≤ rounds) (result b : F) : fieldPowLoop rounds result b exp = result * b ^ exp := by
  induction rounds generalizing exp result b with
  | zero =>
    obtain rfl : exp = 0 := by omega
    simp [fieldPowLoop]
  | succ rounds ih =>
    rw [fieldPowLoop]
    split
    · next hzero => rw [hzero, pow_zero, mul_one]
    · have hhalf : b ^ exp = (b * b) ^ (exp / 2) * b ^ (exp % 2) := by
        rw [← pow_two, ← pow_mul, ← pow_add, Nat.div_add_mod]
      rw [ih (by omega), hhalf]
      split
      · next hbit =>
        rw [hbit, pow_one]
        ring
      · next hbit => rw [show exp % 2 = 0 by omega, pow_zero, mul_one]

theorem fieldPow_eq (base : F) (exp : ℕ) : fieldPow base exp = base ^ exp := by
  rw [fieldPow, fieldPowLoop_eq le_rfl, one_mul]

theorem powersFrom_length (base : F) (n : ℕ) (tw : F) : (powersFrom base n tw).length = n := by
  induction n generalizing tw with
  | zero => rfl
  | succ n ih => rw [powersFrom, length_cons, ih]

theorem powersFrom_getD {i : ℕ} (base : F) (hi : i < n) (tw : F) : (powersFrom base n tw).getD i 0 = tw * base ^ i := by
  induction n generalizing i tw with
  | zero => omega
  | succ n ih =>
    rw [powersFrom]
    cases i with
    | zero => rw [getD_cons_zero, pow_zero, mul_one]
    | succ i => rw [getD_cons_succ, ih (by omega), pow_succ', mul_assoc]

theorem powerTable_ok (ζ : F) {m : ℕ} (hm : m < 8) :
    ((range' 1 m).foldl (fun (pow : List F) q => pow.set q (pow.getD (q - 1) 0 * ζ)) (replicate 8 1)).length = 8 ∧
      ∀ q ≤ m, ((range' 1 m).foldl (fun (pow : List F) q => pow.set q (pow.getD (q - 1) 0 * ζ)) (replicate 8 1)).getD q 0 =
        ζ ^ q := by
  rw [range'_eq_map_range, foldl_map]
  refine @foldl_range_inv _ _ (fun i (pow : List F) => pow.length = 8 ∧ ∀ q ≤ i, pow.getD q 0 = ζ ^ q) m (fun i hi pow hpow => ?_) _ ?_
  · obtain ⟨hlen, hpow⟩ := hpow
    refine ⟨by rw [length_set, hlen], fun q hq => ?_⟩
    rcases eq_or_ne (1 + i) q with rfl | hne
    · rw [getD_set_self (by omega), Nat.add_sub_cancel_left, hpow i le_rfl, add_comm, pow_succ]
    · rw [getD_set_ne hne]
      exact hpow q (by omega)
  · refine ⟨length_replicate, fun q hq => ?_⟩
    obtain rfl : q = 0 := by omega
    rw [pow_zero]
    rfl

variable [DecidableEq F]

/-- The tables of the stage of radix `r` that fills blocks of `block * r` with the powers of `w`. -/
structure StageOk (w : F) (r block : ℕ) (stage : StageData F) : Prop where
  r_eq : stage.r = r
  block_eq : stage.block = block
  powers : ∀ q < r, stage.omegaRPow.getD q 0 = (w ^ block) ^ q
  table_length : stage.twiddleTable.length = block
  table : ∀ j < block, stage.twiddleTable.getD j 0 = w ^ j
  winograd : winogradConstsForRadix r stage.omegaRPow = .ok stage.winograd

theorem Radix.two_le (h : Radix r) : 2 ≤ r := by
  rcases h with h | h | h | h <;> omega

theorem Radix.le_seven (h : Radix r) : r ≤ 7 := by
  rcases h with h | h | h | h <;> omega

/-- **The tables of a stage.** -/
theorem stageData_ok (h2 : (2 : F) ≠ 0) (omega : F) (n : ℕ) (hr : Radix r) (block : ℕ) :
    ∃ stage, stageData omega n r block = .ok stage ∧ StageOk (omega ^ (n / (block * r))) r block stage := by
  have hhigh := hr.le_seven
  obtain ⟨hlen, hpow⟩ := powerTable_ok ((omega ^ (n / (block * r))) ^ block) (show r - 1 < 8 by omega)
  generalize htable : (range' 1 (r - 1)).foldl (fun (pow : List F) q => pow.set q (pow.getD (q - 1) 0 *
    (omega ^ (n / (block * r))) ^ block)) (replicate 8 1) = table at *
  have hhalf : inverse ((2 : ℕ) : F) = some (2 : F)⁻¹ := by
    rw [inverse, Nat.cast_ofNat, if_neg h2]
  obtain ⟨consts, hconsts⟩ : ∃ consts, winogradConstsForRadix r table = .ok consts := by
    unfold winogradConstsForRadix
    rcases hr with rfl | rfl | rfl | rfl
    · exact ⟨_, rfl⟩
    · exact ⟨_, rfl⟩
    · dsimp only
      rw [hhalf]
      exact ⟨_, rfl⟩
    · dsimp only
      rw [hhalf]
      exact ⟨_, rfl⟩
  refine ⟨⟨r, block, table, powersFrom (omega ^ (n / (block * r))) block 1, consts⟩, ?_, rfl, rfl, fun q hq => hpow q (by omega),
    powersFrom_length _ _ _, fun j hj => ?_, hconsts⟩
  · unfold stageData
    dsimp only
    rw [ensure, if_pos (by omega), ok_bind, fieldPow_eq, fieldPow_eq, htable, hconsts]
    rfl
  · rw [powersFrom_getD _ hj, one_mul]

end Akita.Fft

/-!
## The kernels are small Fourier sums

Each tuned kernel returns the size-`r` sums of its lanes, and a stage of butterflies combines the
blocks of every group in place.

* `kernel_ok`: radix two, three, five and seven.
* `butterflyStage_ok`: a stage.
-/

namespace Akita.Fft

open Lib Finset
open Ntt (readAt writeAt readAt_ok writeAt_ok)
open OffsetEq (inverse)

variable {F : Type} [Field F] [DecidableEq F]

omit [DecidableEq F] in
theorem laneTwiddles_ok {r : ℕ} (hr : Radix r) (tw : F) :
    (laneTwiddles r tw).length = r - 1 ∧ ∀ k < r - 1, (laneTwiddles r tw).getD k 0 = tw ^ (k + 1) := by
  rcases hr with rfl | rfl | rfl | rfl
  all_goals
    refine ⟨rfl, fun k hk => ?_⟩
    simp only [laneTwiddles]
    interval_cases k <;> simp only [List.getD_cons_zero, List.getD_cons_succ] <;> ring

section

variable {w : F} {block : ℕ} {stage : StageData F} (lanes : List F) {r : ℕ}

theorem inverse_two (h2 : (2 : F) ≠ 0) : inverse ((2 : ℕ) : F) = some (2 : F)⁻¹ := by
  rw [inverse, Nat.cast_ofNat, if_neg h2]

omit [DecidableEq F] in
theorem root_pow {ζ : F} (h : ζ ^ r = 1) (q k : ℕ) : (ζ ^ q) ^ k = ζ ^ (q * k % r) := by
  rw [← pow_mul, pow_eq_pow_mod _ h]

theorem kernel_two (h : StageOk w 2 block stage) (hroot : IsPrimitiveRoot (w ^ block) 2) :
    ∃ y, kernel stage lanes = .ok y ∧ y.length = 2 ∧ ∀ q < 2, y.getD q 0 = ∑ k ∈ range 2, lanes.getD k 0 * ((w ^ block) ^ q) ^ k := by
  have hneg := hroot.eq_neg_one_of_two_right
  unfold kernel
  rw [h.r_eq]
  refine ⟨_, rfl, rfl, fun q hq => ?_⟩
  rw [hneg]
  interval_cases q <;> simp [sum_range_succ, sub_eq_add_neg]

theorem kernel_three (h : StageOk w 3 block stage) (hroot : IsPrimitiveRoot (w ^ block) 3) :
    ∃ y, kernel stage lanes = .ok y ∧ y.length = 3 ∧ ∀ q < 3, y.getD q 0 = ∑ k ∈ range 3, lanes.getD k 0 * ((w ^ block) ^ q) ^ k := by
  have hone := hroot.pow_eq_one
  have hsum := hroot.geom_sum_eq_zero (by norm_num)
  have hkernel : kernel stage lanes = .ok (dft3 (fun i => lanes.getD i 0) fun q => stage.omegaRPow.getD q 0) := by
    unfold kernel
    rw [h.r_eq]
    rfl
  refine ⟨_, hkernel, rfl, fun q hq => ?_⟩
  unfold dft3
  dsimp only
  rw [h.powers 1 (by norm_num), h.powers 2 (by norm_num)]
  generalize w ^ block = ζ at *
  simp only [sum_range_succ, sum_range_zero] at hsum
  simp only [root_pow hone, sum_range_succ, sum_range_zero]
  interval_cases q
  all_goals simp only [List.getD_cons_zero, List.getD_cons_succ, Nat.reduceMul, Nat.reduceMod]
  · ring
  · ring
  · linear_combination -(lanes.getD 1 0 + lanes.getD 2 0) * hsum

theorem kernel_five (h2 : (2 : F) ≠ 0) (h : StageOk w 5 block stage) (hroot : IsPrimitiveRoot (w ^ block) 5) :
    ∃ y, kernel stage lanes = .ok y ∧ y.length = 5 ∧ ∀ q < 5, y.getD q 0 = ∑ k ∈ range 5, lanes.getD k 0 * ((w ^ block) ^ q) ^ k := by
  have hone := hroot.pow_eq_one
  have htwo : 2 * (2 : F)⁻¹ = 1 := mul_inv_cancel₀ h2
  have hconsts := h.winograd
  unfold winogradConstsForRadix at hconsts
  dsimp only at hconsts
  rw [inverse_two h2, h.powers 1 (by norm_num), h.powers 2 (by norm_num), h.powers 3 (by norm_num), h.powers 4 (by norm_num)] at hconsts
  have hconsts := (Except.ok.inj hconsts).symm
  have hkernel : kernel stage lanes = .ok (dft5 (fun i => lanes.getD i 0) fun i => stage.winograd.getD i 0) := by
    unfold kernel
    rw [h.r_eq]
    rw [ensure, if_pos (by rw [hconsts]; rfl)]
    rfl
  refine ⟨_, hkernel, rfl, fun q hq => ?_⟩
  rw [hconsts]
  unfold dft5
  generalize w ^ block = ζ at *
  simp only [root_pow hone, sum_range_succ, sum_range_zero]
  -- every output but the first is twice a half of its sum
  interval_cases q
  all_goals simp only [List.getD_cons_zero, List.getD_cons_succ, Nat.reduceMul, Nat.reduceMod]
  · ring
  · linear_combination (lanes.getD 1 0 * ζ + lanes.getD 2 0 * ζ ^ 2 + lanes.getD 3 0 * ζ ^ 3 + lanes.getD 4 0 * ζ ^ 4) * htwo
  · linear_combination (lanes.getD 1 0 * ζ ^ 2 + lanes.getD 2 0 * ζ ^ 4 + lanes.getD 3 0 * ζ + lanes.getD 4 0 * ζ ^ 3) * htwo
  · linear_combination (lanes.getD 1 0 * ζ ^ 3 + lanes.getD 2 0 * ζ + lanes.getD 3 0 * ζ ^ 4 + lanes.getD 4 0 * ζ ^ 2) * htwo
  · linear_combination (lanes.getD 1 0 * ζ ^ 4 + lanes.getD 2 0 * ζ ^ 3 + lanes.getD 3 0 * ζ ^ 2 + lanes.getD 4 0 * ζ) * htwo

/-- The exponents of the conjugate pairs of radix seven, row by row. -/
def conjugatePairs : List (ℕ × ℕ) := [(1, 6), (2, 5), (3, 4), (2, 5), (4, 3), (6, 1), (3, 4), (6, 1), (2, 5)]

theorem winograd_seven (h2 : (2 : F) ≠ 0) (h : StageOk w 7 block stage) :
    stage.winograd = (conjugatePairs.map fun e => ((w ^ block) ^ e.1 + (w ^ block) ^ e.2) * (2 : F)⁻¹) ++
      conjugatePairs.map fun e => ((w ^ block) ^ e.1 - (w ^ block) ^ e.2) * (2 : F)⁻¹ := by
  have hconsts := h.winograd
  unfold winogradConstsForRadix at hconsts
  dsimp only at hconsts
  rw [inverse_two h2] at hconsts
  have hconsts := (Except.ok.inj hconsts).symm
  have hlt : ∀ e ∈ conjugatePairs, e.1 < 7 ∧ e.2 < 7 := by decide
  have hsum : (conjugatePairs.map fun e => ((w ^ block) ^ e.1 + (w ^ block) ^ e.2) * (2 : F)⁻¹) =
      conjugatePairs.map fun e => (stage.omegaRPow.getD e.1 0 + stage.omegaRPow.getD e.2 0) * (2 : F)⁻¹ :=
    List.map_congr_left fun e he => by rw [h.powers e.1 (hlt e he).1, h.powers e.2 (hlt e he).2]
  have hdiff : (conjugatePairs.map fun e => ((w ^ block) ^ e.1 - (w ^ block) ^ e.2) * (2 : F)⁻¹) =
      conjugatePairs.map fun e => (stage.omegaRPow.getD e.1 0 - stage.omegaRPow.getD e.2 0) * (2 : F)⁻¹ :=
    List.map_congr_left fun e he => by rw [h.powers e.1 (hlt e he).1, h.powers e.2 (hlt e he).2]
  rw [hsum, hdiff]
  exact hconsts

theorem kernel_seven (h2 : (2 : F) ≠ 0) (h : StageOk w 7 block stage) (hroot : IsPrimitiveRoot (w ^ block) 7) :
    ∃ y, kernel stage lanes = .ok y ∧ y.length = 7 ∧ ∀ q < 7, y.getD q 0 = ∑ k ∈ range 7, lanes.getD k 0 * ((w ^ block) ^ q) ^ k := by
  have hone := hroot.pow_eq_one
  have htwo : 2 * (2 : F)⁻¹ = 1 := mul_inv_cancel₀ h2
  have hconsts := winograd_seven h2 h
  have hkernel : kernel stage lanes = .ok (dft7 (fun i => lanes.getD i 0) fun i => stage.winograd.getD i 0) := by
    unfold kernel
    rw [h.r_eq]
    change (do
      ensure (stage.winograd.length = 18) _
      return dft7 _ _ : Result (List F)) = _
    rw [ensure, if_pos (by rw [hconsts]; rfl)]
    rfl
  refine ⟨_, hkernel, rfl, fun q hq => ?_⟩
  rw [hconsts]
  unfold dft7 conjugatePairs
  generalize w ^ block = ζ at *
  simp only [root_pow hone, sum_range_succ, sum_range_zero, List.map_cons, List.map_nil, List.cons_append, List.nil_append]
  interval_cases q
  all_goals simp only [List.getD_cons_zero, List.getD_cons_succ, Nat.reduceMul, Nat.reduceMod]
  · ring
  · linear_combination (lanes.getD 1 0 * ζ + lanes.getD 2 0 * ζ ^ 2 + lanes.getD 3 0 * ζ ^ 3 + lanes.getD 4 0 * ζ ^ 4 +
      lanes.getD 5 0 * ζ ^ 5 + lanes.getD 6 0 * ζ ^ 6) * htwo
  · linear_combination (lanes.getD 1 0 * ζ ^ 2 + lanes.getD 2 0 * ζ ^ 4 + lanes.getD 3 0 * ζ ^ 6 + lanes.getD 4 0 * ζ +
      lanes.getD 5 0 * ζ ^ 3 + lanes.getD 6 0 * ζ ^ 5) * htwo
  · linear_combination (lanes.getD 1 0 * ζ ^ 3 + lanes.getD 2 0 * ζ ^ 6 + lanes.getD 3 0 * ζ ^ 2 + lanes.getD 4 0 * ζ ^ 5 +
      lanes.getD 5 0 * ζ + lanes.getD 6 0 * ζ ^ 4) * htwo
  · linear_combination (lanes.getD 1 0 * ζ ^ 4 + lanes.getD 2 0 * ζ + lanes.getD 3 0 * ζ ^ 5 + lanes.getD 4 0 * ζ ^ 2 +
      lanes.getD 5 0 * ζ ^ 6 + lanes.getD 6 0 * ζ ^ 3) * htwo
  · linear_combination (lanes.getD 1 0 * ζ ^ 5 + lanes.getD 2 0 * ζ ^ 3 + lanes.getD 3 0 * ζ + lanes.getD 4 0 * ζ ^ 6 +
      lanes.getD 5 0 * ζ ^ 4 + lanes.getD 6 0 * ζ ^ 2) * htwo
  · linear_combination (lanes.getD 1 0 * ζ ^ 6 + lanes.getD 2 0 * ζ ^ 5 + lanes.getD 3 0 * ζ ^ 4 + lanes.getD 4 0 * ζ ^ 3 +
      lanes.getD 5 0 * ζ ^ 2 + lanes.getD 6 0 * ζ) * htwo

/-- **The kernels are the Fourier sums of their radix.** -/
theorem kernel_ok (h2 : (2 : F) ≠ 0) (h : StageOk w r block stage) (hr : Radix r) (hroot : IsPrimitiveRoot (w ^ block) r) :
    ∃ y, kernel stage lanes = .ok y ∧ y.length = r ∧ ∀ q < r, y.getD q 0 = ∑ k ∈ range r, lanes.getD k 0 * ((w ^ block) ^ q) ^ k := by
  rcases hr with rfl | rfl | rfl | rfl
  · exact kernel_two lanes h hroot
  · exact kernel_three lanes h hroot
  · exact kernel_five lanes h2 h hroot
  · exact kernel_seven lanes h2 h hroot

end

section

variable {r block group j q i : ℕ}

variable (group) in
theorem lane_position (hj : j < block) (hq : q < r) : (group * (block * r) + j + q * block) / (block * r) = group ∧
    (group * (block * r) + j + q * block) % (block * r) = j + q * block ∧ (group * (block * r) + j + q * block) % block = j := by
  have hlt : j + q * block < block * r := by
    have := Nat.mul_le_mul_right block (Nat.succ_le_of_lt hq)
    rw [Nat.succ_mul, mul_comm r] at this
    omega
  refine ⟨?_, ?_, ?_⟩
  · rw [add_assoc, Nat.mul_comm group, Nat.mul_add_div (by omega), Nat.div_eq_of_lt hlt, Nat.add_zero]
  · rw [Nat.add_assoc, Nat.mul_comm group, Nat.mul_add_mod, Nat.mod_eq_of_lt hlt]
  · rw [Nat.add_mul_mod_self_right, show group * (block * r) + j = block * (r * group) + j by ring, Nat.mul_add_mod,
      Nat.mod_eq_of_lt hj]

theorem exists_lane (hpos : 0 < block * r) (hgroup : i / (block * r) = group) (hj : i % block = j) :
    ∃ q < r, i = group * (block * r) + j + q * block := by
  have hi := Nat.div_add_mod i (block * r)
  have hlow := Nat.div_add_mod (i % (block * r)) block
  rw [Nat.mod_mul_right_mod, hj] at hlow
  rw [hgroup] at hi
  refine ⟨i % (block * r) / block, Nat.div_lt_of_lt_mul (Nat.mod_lt i hpos), ?_⟩
  rw [mul_comm group, mul_comm (i % (block * r) / block)]
  omega

end

omit [DecidableEq F] in
theorem twiddled_getD {r j : ℕ} {w : F} (hr : Radix r) {x : List F} (hx : x.length = r) {k : ℕ} (hk : k < r) :
    (if j > 0 then x.take 1 ++ List.zipWith (· * ·) (x.drop 1) (laneTwiddles r (w ^ j)) else x).getD k 0 =
      x.getD k 0 * (w ^ j) ^ k := by
  obtain ⟨hlen, htw⟩ := laneTwiddles_ok hr (w ^ j)
  by_cases hj : j > 0
  · rw [if_pos hj]
    have htake : (x.take 1).length = 1 := by rw [List.length_take]; have := hr.two_le; omega
    cases k with
    | zero =>
      rw [List.getD_append _ _ _ _ (by omega), pow_zero, mul_one, List.getD_eq_getElem _ _ (by omega), List.getElem_take,
        List.getD_eq_getElem _ _ (by omega)]
    | succ k =>
      have hzip : (List.zipWith (· * ·) (x.drop 1) (laneTwiddles r (w ^ j))).length = r - 1 := by
        rw [List.length_zipWith, List.length_drop, hlen, hx, Nat.min_self]
      rw [List.getD_append_right _ _ _ _ (by omega), htake, Nat.add_sub_cancel, List.getD_eq_getElem _ _ (by omega),
        List.getElem_zipWith, List.getElem_drop, ← htw k (by omega), List.getD_eq_getElem _ _ (by omega),
        List.getD_eq_getElem _ _ (by omega)]
      congr 2
      omega
  · rw [if_neg hj, show j = 0 by omega, pow_zero, one_pow, mul_one]

section

variable {w : F} {r block : ℕ} {stage : StageData F} (h2 : (2 : F) ≠ 0) (h : StageOk w r block stage) (hr : Radix r)
  (hroot : IsPrimitiveRoot (w ^ block) r) {buf : List F} {old : ℕ → F}

include h2 h hr hroot

/-- **One butterfly** combines its lanes and leaves the rest. -/
theorem butterfly_ok {n group j : ℕ} (hj : j < block) (hin : ∀ q < r, group * (block * r) + j + q * block < n)
    (hlen : buf.length = n)
    (hold : ∀ q < r, buf.getD (group * (block * r) + j + q * block) 0 = old (group * (block * r) + j + q * block)) :
    ∃ out, butterfly stage (group * (block * r)) buf (w ^ j, j) = .ok out ∧ out.length = n ∧
      (∀ q < r, out.getD (group * (block * r) + j + q * block) 0 = combine w r block old (group * (block * r) + j + q * block)) ∧
      ∀ i, (∀ q < r, group * (block * r) + j + q * block ≠ i) → out.getD i 0 = buf.getD i 0 := by
  obtain ⟨x, hx, hxlen, hxval⟩ := @mapM_range_runs _ _ (fun ki => readAt buf (group * (block * r) + j + ki * block))
    (fun k v => v = old (group * (block * r) + j + k * block)) r 0
    fun k hk => ⟨_, by rw [readAt_ok 0 (by rw [hlen]; exact hin k hk), hold k hk], rfl⟩
  obtain ⟨y, hy, hylen, hyval⟩ := kernel_ok
    (if j > 0 then x.take 1 ++ List.zipWith (· * ·) (x.drop 1) (laneTwiddles r (w ^ j)) else x) h2 h hr hroot
  obtain ⟨out, hout, houtlen, hnew, hframe⟩ := @foldlM_zipIdx_runs _ _ _
    (fun (buf : List F) (out : F × ℕ) => writeAt buf (group * (block * r) + j + out.2 * block) out.1)
    (fun m out => out.length = n ∧ (∀ q < m, out.getD (group * (block * r) + j + q * block) 0 = y.getD q 0) ∧
      ∀ i, (∀ q < m, group * (block * r) + j + q * block ≠ i) → out.getD i 0 = buf.getD i 0) y 0 (by
      rintro m hm out ⟨houtlen, hnew, hframe⟩
      rw [hylen] at hm
      have hroom := hin m hm
      refine ⟨_, writeAt_ok (by rw [houtlen]; exact hroom) _, by rw [List.length_set, houtlen], fun q hq => ?_, fun i hi => ?_⟩
      · rcases eq_or_ne m q with rfl | hne
        · rw [getD_set_self (by rw [houtlen]; exact hroom)]
        · rw [getD_set_ne, hnew q (by omega)]
          intro heq
          exact hne (Nat.eq_of_mul_eq_mul_right (by omega) (Nat.add_left_cancel heq))
      · rw [getD_set_ne (hi m (by omega))]
        exact hframe i fun q hq => hi q (by omega)) buf
    ⟨hlen, fun q hq => absurd hq (Nat.not_lt_zero q), fun _ _ => rfl⟩
  rw [hylen] at hnew hframe
  refine ⟨out, ?_, houtlen, fun q hq => ?_, hframe⟩
  · unfold butterfly
    dsimp only
    rw [h.r_eq, h.block_eq, ensure, if_pos (by have := hr.le_seven; omega), ok_bind, hx, ok_bind, hy, ok_bind]
    exact hout
  · obtain ⟨hdiv, hmod, hlow⟩ := lane_position group hj hq
    rw [hnew q hq, hyval q hq, combine, hdiv, hmod, hlow]
    refine sum_congr rfl fun k hk => ?_
    have hk := mem_range.1 hk
    rw [twiddled_getD hr hxlen hk, hxval k hk, show group * (block * r) + k * block + j = group * (block * r) + j + k * block by ring,
      mul_assoc, ← mul_pow, ← pow_mul, ← pow_add, mul_comm block q]

/-- **A stage of butterflies**, in place. -/
theorem butterflyStage_ok {n : ℕ} (hblock : 0 < block) (hn : block * r ∣ n) (hlen : buf.length = n)
    (hold : ∀ i < n, buf.getD i 0 = old i) :
    ∃ out, butterflyStage n buf stage = .ok out ∧ out.length = n ∧ ∀ i < n, out.getD i 0 = combine w r block old i := by
  obtain ⟨groups, rfl⟩ := hn
  have hpos : 0 < block * r := Nat.mul_pos hblock (by have := hr.two_le; omega)
  have hcount : (block * r * groups + block * r - 1) / (block * r) = groups := by
    rw [show block * r * groups + block * r - 1 = block * r * groups + (block * r - 1) by omega, Nat.mul_add_div (by omega),
      Nat.div_eq_of_lt (by omega), add_zero]
  have hgroup : ∀ i, i / (block * r) < groups ↔ i < block * r * groups := fun i => by
    rw [Nat.div_lt_iff_lt_mul hpos, mul_comm]
  have hroom : ∀ group < groups, ∀ j < block, ∀ q < r, group * (block * r) + j + q * block < block * r * groups := by
    intro group hg j hj q hq
    rw [← hgroup, (lane_position group hj hq).1]
    exact hg
  have htable : stage.twiddleTable.zipIdx = (List.range block).map fun j => (stage.twiddleTable.getD j 0, j) := by
    rw [zipIdx_eq_map stage.twiddleTable 0, h.table_length]
  obtain ⟨out, hrun, hout, hnew, -⟩ := @foldlM_in_place _ _ Unit (fun _ => True)
    (fun _ buf group => stage.twiddleTable.zipIdx.foldlM (butterfly stage (group * (block * r))) buf) _
    (fun buf i v => buf.getD i 0 = v) (fun buf => buf.length = block * r * groups) (fun i => i / (block * r)) old
    (combine w r block old) groups (by
      intro group hg buf hlen hold
      obtain ⟨out, hrun, hout, hnew, hframe⟩ := @foldlM_in_place _ _ Unit (fun _ => True)
        (fun _ buf j => butterfly stage (group * (block * r)) buf (stage.twiddleTable.getD j 0, j)) _
        (fun buf i v => buf.getD i 0 = v) (fun buf => buf.length = block * r * groups)
        (fun i => if i / (block * r) = group then i % block else block) old (combine w r block old) block (by
          intro j hj buf hlen hold
          have hlane := fun q hq => lane_position group hj (show q < r from hq)
          obtain ⟨out, hrun, hout, hnew, hframe⟩ := butterfly_ok h2 h hr hroot hj (hroom group hg j hj) hlen
            fun q hq => hold _ (by rw [if_pos (hlane q hq).1, (hlane q hq).2.2])
          refine ⟨out, fun _ _ => by rw [h.table j hj, hrun], hout, fun i hi => ?_, fun i hi v hv => ?_⟩
          · have hdiv : i / (block * r) = group := by
              by_contra hne
              rw [if_neg hne] at hi
              omega
            rw [if_pos hdiv] at hi
            obtain ⟨q, hq, rfl⟩ := exists_lane hpos hdiv hi
            exact hnew q hq
          · rw [hframe i ?_, hv]
            rintro q hq rfl
            exact hi (by rw [if_pos (hlane q hq).1, (hlane q hq).2.2])) buf hlen (by
          intro i hi
          refine hold i ?_
          by_contra hne
          rw [if_neg hne] at hi
          omega)
      refine ⟨out, fun _ _ => ?_, hout, fun i hi => hnew i ?_, fun i hi => hframe i ?_⟩
      · rw [htable, List.foldlM_map]
        exact hrun () trivial
      · rw [if_pos hi]
        exact Nat.mod_lt i hblock
      · rw [if_neg hi]) buf hlen fun i hi => hold i ((hgroup i).1 hi)
  refine ⟨out, ?_, hout, fun i hi => hnew i ((hgroup i).2 hi)⟩
  unfold butterflyStage
  dsimp only
  rw [h.r_eq, h.block_eq, hcount]
  exact hrun () trivial

end

end Akita.Fft
