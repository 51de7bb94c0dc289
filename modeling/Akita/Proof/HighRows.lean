import Akita.Proof.AffineSum

/-!
# High rows

The rows of the families of one low residue, contracted against their carry summaries. The
direct loop and the carry buckets add the same sum: a row's carry window meets at most two
blocks of the high point, so bucketing by the position in the window loses nothing.
-/

namespace Akita.OffsetEq

open Lib Finset AffineWeight

section

variable {F A : Type} [Field F] [CommRing A] [Algebra F A]

/-! ## The direct loop -/

/-- One row of one family against the carry summaries. -/
def rowTerm (highWeights : AffineWeightSource A) (highChallenges : List F) (outerStride lowBits firstHigh : ℕ)
    (summaries : List A) (address : AffineAddress F) (row : ℕ) : A :=
  address.scale.getD 1 • ((highWeights.get (firstHigh + row)).getD 0 *
    slotSum summaries fun c => algebraMap F A (eqAt highChallenges ((address.first >>> lowBits) + outerStride * row + c)))

variable [AffineWeight F A] [LawfulAffineWeight F A] {rt : Runtime}
  {address : AffineAddress F} {summaries : List A} {row : ℕ}

namespace AffineDigitIntervals

variable [DecidableEq F] {I : AffineDigitIntervals F A} {lowChallenges highChallenges : List F}

theorem directRow_ok (hQ : I.lowLen = 2 ^ lowChallenges.length) {window : Option (OffsetEqWindow F)}
    (hwindow : ReadsAmortized highChallenges window) {firstHigh : ℕ} {out out' : A}
    (h : I.directRow lowChallenges highChallenges window firstHigh summaries address out row = .ok out') : out' = out +
      rowTerm I.highWeights highChallenges I.outerStride lowChallenges.length firstHigh summaries address row := by
  unfold directRow at h
  simp only [result_ok, Option.bind_eq_some_iff, checked_some] at h
  obtain ⟨_, ⟨-, rfl⟩, _, ⟨_, ⟨-, rfl⟩, -, rfl⟩, _, ⟨-, rfl⟩, highFactor, hhigh, hloop⟩ := h
  have hshift : (address.first + I.outerStride * I.lowLen * row) >>> lowChallenges.length =
      (address.first >>> lowChallenges.length) + I.outerStride * row := by
    have hmul : I.outerStride * I.lowLen * row = 2 ^ lowChallenges.length * (I.outerStride * row) := by rw [hQ]; ring
    rw [hmul, Nat.shiftRight_eq_div_pow, Nat.shiftRight_eq_div_pow, Nat.add_mul_div_left _ _ (Nat.two_pow_pos _)]
  rw [hshift] at hloop
  set addressHigh := (address.first >>> lowChallenges.length) + I.outerStride * row
  have hsum := foldlM_sum (g := fun p : A × ℕ =>
    (eqAt highChallenges (addressHigh + p.2) * address.scale.getD 1) • (highFactor * p.1)) (fun s p s' _ hstep => by
      simp only [result_ok, checked_some] at hstep
      obtain ⟨_, ⟨hbound, rfl⟩, hstep⟩ := hstep
      rw [hwindow.eval hbound] at hstep
      split at hstep
      · simp only [pure_eq_ok, addScaled_eq, multiply_eq, scaledBy_eq] at hstep
        exact hstep.symm
      · rename_i hzero
        simp only [pure_eq_ok] at hstep
        simp [not_not.1 hzero, hstep]) hloop
  rw [hsum, sum_map_zipIdx _ 0 fun summary c =>
    (eqAt highChallenges (addressHigh + c) * address.scale.getD 1) • (highFactor * summary), rowTerm, hhigh]
  simp only [Option.getD_some, slotSum, mul_sum, smul_sum]
  congr 1
  apply sum_congr rfl
  intro c _
  simp only [Algebra.smul_def, map_mul]
  ring

end AffineDigitIntervals

/-! ## Buckets -/

theorem bucketedHighRowsPlan_ok {totalRows carryCount highChallengeCount window : ℕ}
    (h : bucketedHighRowsPlan totalRows carryCount highChallengeCount = .ok (some window)) :
    8 ≤ totalRows ∧ carryCount ≤ window ∧ window = 2 ^ trailingZeros window ∧
      trailingZeros window ≤ highChallengeCount ∧ highChallengeCount - trailingZeros window < 64 := by
  unfold bucketedHighRowsPlan at h
  split at h
  · simp [pure, Except.pure] at h
  rename_i hsmall
  simp only [result_ok] at h
  obtain ⟨w, hw, h⟩ := h
  obtain ⟨hpow, hle, -⟩ := checkedNextPowerOfTwo_eq hw
  split at h
  · simp [pure, Except.pure] at h
  split at h
  · simp [pure, Except.pure] at h
  rename_i splitBits hsplit
  split at h
  · simp [pure, Except.pure] at h
  rename_i hcap
  simp only [bind_eq_ok] at h
  obtain ⟨_, -, _, -, _, -, h⟩ := h
  split at h
  · simp [pure, Except.pure] at h
  simp only [bind_eq_ok, pure_eq_ok] at h
  obtain ⟨_, -, hwindow⟩ := h
  cases hwindow
  obtain ⟨hbits, rfl⟩ := checkedSub_eq_some.1 hsplit
  simp only [not_or, not_lt, fastHighRowsMin] at hsmall
  simp only [offsetEqHighBitsCap, not_lt] at hcap
  exact ⟨hsmall.1, hle, hpow, hbits, by omega⟩

section buckets

variable {highHi : List F} {splitHigh : SplitEqEvals F} {windowBits outerStride lowBits firstHigh : ℕ}
  {highWeights : AffineWeightSource A} {buckets buckets' : List A × List A} {rows c : ℕ} {addresses : List (AffineAddress F)}
  {highChallenges : List F}

/-- What one row puts into the buckets, against a weight per slot. -/
def bucketShare (highWeights : AffineWeightSource A) (highHi : List F) (windowBits outerStride lowBits firstHigh : ℕ)
    (u0 u1 : ℕ → A) (address : AffineAddress F) (row : ℕ) : A :=
  let addressHigh := (address.first >>> lowBits) + outerStride * row
  address.scale.getD 1 • ((highWeights.get (firstHigh + row)).getD 0 *
    (algebraMap F A (eqAt highHi (addressHigh / 2 ^ windowBits)) * u0 (addressHigh % 2 ^ windowBits) +
      algebraMap F A (eqAt highHi (addressHigh / 2 ^ windowBits + 1)) * u1 (addressHigh % 2 ^ windowBits)))

/-- Both bucket lists have one slot per window position. -/
def BucketsFit (windowBits : ℕ) (buckets : List A × List A) : Prop :=
  buckets.1.length = 2 ^ windowBits ∧ buckets.2.length = 2 ^ windowBits

def bucketsSum (u0 u1 : ℕ → A) (buckets : List A × List A) : A := slotSum buckets.1 u0 + slotSum buckets.2 u1

section

variable (hsplit : SplitEqEvals.new rt highHi = .ok splitHigh)

include hsplit

theorem evalHighBlock_ok {block : ℕ} {v : F}
    (h : evalHighBlock splitHigh (2 ^ highHi.length) block = .ok v) : v = eqAt highHi block := by
  unfold evalHighBlock at h
  split at h
  · exact SplitEqEvals.evalAt_ok hsplit h
  · rename_i hout
    have hv : (0 : F) = v := by simpa using h
    rw [← hv, eqAt_of_ge (Nat.not_lt.1 hout)]

theorem bucketRow_ok (u0 u1 : ℕ → A) (hfit : BucketsFit windowBits buckets)
    (h : bucketRow splitHigh (2 ^ highHi.length) windowBits outerStride lowBits firstHigh highWeights address buckets row =
      .ok buckets') : BucketsFit windowBits buckets' ∧ bucketsSum u0 u1 buckets' = bucketsSum u0 u1 buckets +
      bucketShare highWeights highHi windowBits outerStride lowBits firstHigh u0 u1 address row := by
  unfold bucketRow at h
  simp only [result_ok, checked_some, and_pred_two_pow, Nat.shiftRight_eq_div_pow _ windowBits, scaledBy_eq] at h
  obtain ⟨_, ⟨-, rfl⟩, _, ⟨-, rfl⟩, _, ⟨-, rfl⟩, eq0, h0, _, ⟨-, rfl⟩, eq1, h1, highFactor, hhigh, rfl⟩ := h
  have hpos : ((address.first >>> lowBits) + outerStride * row) % 2 ^ windowBits < 2 ^ windowBits :=
    Nat.mod_lt _ (Nat.two_pow_pos _)
  refine ⟨⟨by simpa using hfit.1, by simpa using hfit.2⟩, ?_⟩
  unfold bucketsSum bucketShare
  rw [slotSum_modify (hfit.1 ▸ hpos) (fun v => addScaled_eq v _ _), slotSum_modify (hfit.2 ▸ hpos) (fun v => addScaled_eq v _ _),
    evalHighBlock_ok hsplit h0, evalHighBlock_ok hsplit h1, hhigh]
  simp only [Option.getD_some, Algebra.smul_def, map_mul]
  ring

theorem bucketTask_ok (u0 u1 : ℕ → A) {perTask task : ℕ} (hfit : BucketsFit windowBits buckets)
    (h : bucketTask splitHigh (2 ^ highHi.length) windowBits outerStride lowBits firstHigh rows highWeights addresses perTask
      buckets task = .ok buckets') : BucketsFit windowBits buckets' ∧ bucketsSum u0 u1 buckets' = bucketsSum u0 u1 buckets +
      (((addresses.drop (task * perTask)).take perTask).map fun address => ∑ row ∈ range rows,
        bucketShare highWeights highHi windowBits outerStride lowBits firstHigh u0 u1 address row).sum := by
  unfold bucketTask at h
  simp only [result_ok, checked_some] at h
  obtain ⟨_, ⟨-, rfl⟩, _, ⟨-, rfl⟩, hrange, h⟩ := h
  have hslice : (addresses.drop (task * perTask)).take (min (task * perTask + perTask) addresses.length - task * perTask) =
      (addresses.drop (task * perTask)).take perTask := by
    rw [List.take_eq_take_iff, List.length_drop]
    omega
  rw [hslice] at h
  refine foldlM_measure (P := BucketsFit windowBits) (μ := bucketsSum u0 u1) ?_ hfit h
  intro s address s' _ hs hrows
  rw [← sum_map_range]
  exact foldlM_measure (fun s row s' _ hs hrow => bucketRow_ok hsplit u0 u1 hs hrow) hs hrows

end

def joinBuckets (lhs rhs : List A × List A) : List A × List A :=
  (List.zipWith (· + ·) lhs.1 rhs.1, List.zipWith (· + ·) lhs.2 rhs.2)

theorem joinBuckets_ok (u0 u1 : ℕ → A) {lhs rhs : List A × List A} (hl : BucketsFit windowBits lhs)
    (hr : BucketsFit windowBits rhs) : BucketsFit windowBits (joinBuckets lhs rhs) ∧
      bucketsSum u0 u1 (joinBuckets lhs rhs) = bucketsSum u0 u1 lhs + bucketsSum u0 u1 rhs := by
  have h0 : lhs.1.length = rhs.1.length := hl.1.trans hr.1.symm
  have h1 : lhs.2.length = rhs.2.length := hl.2.trans hr.2.symm
  refine ⟨⟨by simp [joinBuckets, hl.1, hr.1], by simp [joinBuckets, hl.2, hr.2]⟩, ?_⟩
  simp only [bucketsSum, joinBuckets, slotSum_zipWith_add h0, slotSum_zipWith_add h1]
  ring

/-- The weights of the first bucket list for a carry: positions that stay in their block. -/
def stayWeight (lowHi : List F) (c pos : ℕ) : A :=
  if pos + c < 2 ^ lowHi.length then algebraMap F A (eqAt lowHi (pos + c)) else 0

/-- The weights of the second bucket list for a carry: positions that cross into the next block. -/
def crossWeight (lowHi : List F) (c pos : ℕ) : A :=
  if pos + c < 2 ^ lowHi.length then 0 else algebraMap F A (eqAt lowHi (pos + c - 2 ^ lowHi.length))

/-- The two batches of a carry are the bucket sum against its weights. -/
theorem phi_eq {lowHi : List F} (hc : c ≤ 2 ^ lowHi.length) (hfit : BucketsFit lowHi.length buckets) :
    addScaledBatch (addScaledBatch (0 : A) (buckets.1.take (2 ^ lowHi.length - c)) ((bitTable (eqFactors lowHi)).drop c))
        (buckets.2.drop (2 ^ lowHi.length - c)) ((bitTable (eqFactors lowHi)).take c) =
      bucketsSum (stayWeight lowHi c) (crossWeight lowHi c) buckets := by
  obtain ⟨h0, h1⟩ := hfit
  set W := 2 ^ lowHi.length with hW
  have htable : (bitTable (eqFactors lowHi)).length = W := by simp [hW]
  have hstay0 : (buckets.1.take (W - c)).length = W - c := by simp [h0]
  have hstay1 : ((bitTable (eqFactors lowHi)).drop c).length = W - c := by rw [List.length_drop, htable]
  have hcross0 : (buckets.2.drop (W - c)).length = c := by rw [List.length_drop, h1]; omega
  have hcross1 : ((bitTable (eqFactors lowHi)).take c).length = c := by rw [List.length_take, htable]; omega
  rw [addScaledBatch_eq _ _ _ (hcross0.trans hcross1.symm), addScaledBatch_eq _ _ _ (hstay0.trans hstay1.symm), zero_add,
    sum_zipWith _ hstay0 hstay1 0 0, sum_zipWith _ hcross0 hcross1 0 0, bucketsSum, slotSum, slotSum, h0, h1]
  have hsplit : W = (W - c) + c := by omega
  have hread : ∀ i, (bitTable (eqFactors lowHi)).getD i 0 = eqAt lowHi i := bitTable_getD _
  congr 1
  · rw [hsplit, sum_range_add, ← hsplit]
    have hnone : ∑ i ∈ range c, buckets.1.getD (W - c + i) 0 * stayWeight lowHi c (W - c + i) = 0 := by
      apply sum_eq_zero
      intro i _
      rw [stayWeight, if_neg (by omega), mul_zero]
    rw [hnone, add_zero]
    apply sum_congr rfl
    intro i hi
    have hi : i < W - c := by simpa using hi
    rw [stayWeight, if_pos (by omega), List.getD_eq_getElem?_getD, List.getD_eq_getElem?_getD, List.getElem?_take_of_lt hi,
      List.getElem?_drop, ← List.getD_eq_getElem?_getD, ← List.getD_eq_getElem?_getD, hread, Algebra.smul_def, mul_comm,
      add_comm]
  · rw [hsplit, sum_range_add, ← hsplit]
    have hnone : ∑ i ∈ range (W - c), buckets.2.getD i 0 * crossWeight lowHi c i = 0 := by
      apply sum_eq_zero
      intro i hi
      have hi : i < W - c := by simpa using hi
      rw [crossWeight, if_pos (by omega), mul_zero]
    rw [hnone, zero_add]
    apply sum_congr rfl
    intro i hi
    have hi : i < c := by simpa using hi
    have hindex : W - c + i + c - W = i := by omega
    rw [crossWeight, if_neg (by omega), List.getD_eq_getElem?_getD, List.getD_eq_getElem?_getD,
      List.getElem?_take_of_lt hi, List.getElem?_drop, ← List.getD_eq_getElem?_getD, ← List.getD_eq_getElem?_getD, hread, hindex,
      Algebra.smul_def, mul_comm]

omit [AffineWeight F A] [LawfulAffineWeight F A] in
/-- **The carry window of a row meets at most two blocks.** -/
theorem bucketShare_eq (hbits : windowBits ≤ highChallenges.length) (hc : c ≤ 2 ^ windowBits) (address : AffineAddress F)
    (row : ℕ) : bucketShare highWeights (highChallenges.drop windowBits) windowBits outerStride lowBits firstHigh
        (stayWeight (highChallenges.take windowBits) c) (crossWeight (highChallenges.take windowBits) c) address row =
      address.scale.getD 1 • ((highWeights.get (firstHigh + row)).getD 0 *
        algebraMap F A (eqAt highChallenges ((address.first >>> lowBits) + outerStride * row + c))) := by
  have hlen : (highChallenges.take windowBits).length = windowBits := by simp [hbits]
  unfold bucketShare stayWeight crossWeight
  simp only [hlen]
  set a := (address.first >>> lowBits) + outerStride * row
  set W := 2 ^ windowBits with hW
  have hpos : 0 < W := Nat.two_pow_pos _
  have hlt : a % W < W := Nat.mod_lt _ hpos
  have ha : a = W * (a / W) + a % W := (Nat.div_add_mod a W).symm
  congr 2
  rw [eqAt_split hbits, ← hW]
  by_cases hstay : a % W + c < W
  · have haddr : a + c = a % W + c + W * (a / W) := by omega
    rw [if_pos hstay, if_pos hstay, mul_zero, add_zero, haddr, Nat.add_mul_mod_self_left, Nat.mod_eq_of_lt hstay,
      Nat.add_mul_div_left _ _ hpos, Nat.div_eq_of_lt hstay, zero_add, ← map_mul, mul_comm]
  · have hnext : W * (a / W + 1) = W * (a / W) + W := by ring
    have hcross : a % W + c - W < W := by omega
    have haddr : a + c = a % W + c - W + W * (a / W + 1) := by omega
    rw [if_neg hstay, if_neg hstay, mul_zero, zero_add, haddr, Nat.add_mul_mod_self_left, Nat.mod_eq_of_lt hcross,
      Nat.add_mul_div_left _ _ hpos, Nat.div_eq_of_lt hcross, zero_add, ← map_mul, mul_comm]

/-- **The buckets add every row of every family against the carry summaries.** -/
theorem accumulateHighRowsBucketed_ok {out out' : A}
    (h : accumulateHighRowsBucketed rt out highChallenges addresses outerStride lowBits highWeights firstHigh rows summaries =
      .ok (some out')) : out' = out + (addresses.map fun address => ∑ row ∈ range rows,
      rowTerm highWeights highChallenges outerStride lowBits firstHigh summaries address row).sum := by
  unfold accumulateHighRowsBucketed at h
  simp only [result_ok, checked_some] at h
  obtain ⟨_, ⟨-, rfl⟩, plan, hplan, h⟩ := h
  cases plan with
  | none => simp [pure, Except.pure] at h
  | some window =>
    obtain ⟨htotal, hcarry, hpow, hbits, hshort⟩ := bucketedHighRowsPlan_ok hplan
    simp only [result_ok, zeroLike_eq] at h
    obtain ⟨template, -, eqLowHi, hlow, splitHigh, hsplit, buckets, hbuckets, result, hloop, hout⟩ := h
    cases hout
    set windowBits := trailingZeros window
    have hlowLen : (highChallenges.take windowBits).length = windowBits := by simp [hbits]
    have hdomain : (if (highChallenges.drop windowBits).length ≥ usizeBits then 2 ^ usizeBits - 1
        else 2 ^ (highChallenges.drop windowBits).length) = 2 ^ (highChallenges.drop windowBits).length := by
      rw [if_neg]
      simpa [usizeBits] using hshort
    have hadd : (AffineWeight.add F : A → A → A) = (· + ·) := by
      funext a b
      exact add_eq a b
    rw [hdomain, hadd] at hbuckets
    -- the tasks cover the families
    set tasks := if rows * addresses.length ≥ parallelHighRowsMin then addresses.length else 1 with htasks
    have hcover : addresses.length ≤ tasks * ((addresses.length + tasks - 1) / tasks) := by
      have hpos : 0 < tasks := by
        by_cases hlarge : rows * addresses.length ≥ parallelHighRowsMin
        · rw [htasks, if_pos hlarge]
          apply pos_of_ne_zero
          intro hzero
          rw [hzero, mul_zero] at htotal
          omega
        · rw [htasks, if_neg hlarge]
          exact Nat.one_pos
      have hmod := Nat.mod_lt (addresses.length + tasks - 1) hpos
      have hdiv := Nat.div_add_mod (addresses.length + tasks - 1) tasks
      omega
    have hfit : ∀ u0 u1 : ℕ → A, BucketsFit windowBits buckets ∧ bucketsSum u0 u1 buckets =
        (addresses.map fun address => ∑ row ∈ range rows,
          bucketShare highWeights (highChallenges.drop windowBits) windowBits outerStride lowBits firstHigh u0 u1 address
            row).sum := by
      intro u0 u1
      have hzero : bucketsSum u0 u1 ((List.replicate window (0 : A), List.replicate window (0 : A)) : List A × List A) = 0 := by
        simp [bucketsSum, slotSum_replicate]
      have hrun := FoldTree.run_measure (μ := bucketsSum u0 u1) (rt.foldTree tasks)
        ⟨by simpa using hpow, by simpa using hpow⟩ hzero (fun s task s' _ hs hstep => bucketTask_ok hsplit u0 u1 hs hstep)
        (fun s s' => joinBuckets_ok u0 u1) hbuckets
      rw [rt.foldTree_toList, sum_map_range, sum_chunks, List.take_of_length_le hcover] at hrun
      exact hrun
    -- every carry combines its share of the buckets
    have hsum := foldlM_sum (g := fun p : A × ℕ => bucketsSum (stayWeight (highChallenges.take windowBits) p.2)
      (crossWeight (highChallenges.take windowBits) p.2) buckets * p.1) (fun s p s' hp hstep => by
        simp only [result_ok, checked_some, add_eq, multiply_eq] at hstep
        obtain ⟨_, ⟨hle, rfl⟩, rfl⟩ := hstep
        have hle' : p.2 ≤ 2 ^ (highChallenges.take windowBits).length := by rw [hlowLen, ← hpow]; exact hle
        rw [EqPolynomial.evals_ok hlow, ← phi_eq hle' (hlowLen.symm ▸ (hfit 0 0).1), hlowLen, ← hpow]) hloop
    rw [hsum, sum_map_zipIdx _ 0 fun summary c => bucketsSum (stayWeight (highChallenges.take windowBits) c)
      (crossWeight (highChallenges.take windowBits) c) buckets * summary]
    congr 1
    calc _ = ∑ c ∈ range summaries.length, (addresses.map fun address => ∑ row ∈ range rows,
          address.scale.getD 1 • ((highWeights.get (firstHigh + row)).getD 0 * (summaries.getD c 0 *
            algebraMap F A (eqAt highChallenges ((address.first >>> lowBits) + outerStride * row + c))))).sum := by
          apply sum_congr rfl
          intro c hc
          have hc : c ≤ 2 ^ windowBits := by
            have hlt : c < summaries.length := by simpa using hc
            omega
          rw [(hfit _ _).2, ← List.sum_map_mul_right]
          congr 2
          funext address
          rw [sum_mul]
          apply sum_congr rfl
          intro row _
          rw [bucketShare_eq hbits hc, smul_mul_assoc, mul_assoc, mul_comm (algebraMap F A _)]
      _ = _ := by
          rw [sum_map_comm]
          congr 2
          funext address
          rw [sum_comm]
          apply sum_congr rfl
          intro row _
          simp only [rowTerm, slotSum, mul_sum, smul_sum]

end buckets

end

/-!
## Affine rows

The families of one low residue share their carry summaries; the group loop over the sorted
families therefore adds, for every base, the outer indices of its rows.
-/

/-- An address reads as its low residue with the carry into the high part. -/
theorem eqAt_row {F : Type} {n : ℕ} [Field F] {challenges : List F} (hn : n ≤ challenges.length) (stride first row x : ℕ) :
    eqAt challenges (first + stride * (2 ^ n * row) + x) = eqAt (challenges.take n) ((first % 2 ^ n + x) % 2 ^ n) *
      eqAt (challenges.drop n) (first / 2 ^ n + stride * row + (first % 2 ^ n + x) / 2 ^ n) := by
  have hpos : 0 < 2 ^ n := Nat.two_pow_pos n
  have hfirst : 2 ^ n * (first / 2 ^ n) + first % 2 ^ n = first := Nat.div_add_mod first (2 ^ n)
  have haddr : first + stride * (2 ^ n * row) + x = first % 2 ^ n + x + 2 ^ n * (first / 2 ^ n + stride * row) := by
    have hmul : stride * (2 ^ n * row) = 2 ^ n * (stride * row) := by ring
    rw [hmul, mul_add]
    omega
  rw [eqAt_split hn, haddr, Nat.add_mul_mod_self_left, Nat.add_mul_div_left _ _ hpos, add_comm (_ / _)]

variable {F A : Type} [Field F] [CommRing A] [Algebra F A]

namespace AffineDigitIntervals

variable {eqLowTable : Option (List F)} {template : A}

def familySum (I : AffineDigitIntervals F A) (firstHigh lowStart lowEnd rows : ℕ) (address : AffineAddress F) : A :=
  address.scale.getD 1 • ∑ row ∈ range rows, ∑ k ∈ range (lowEnd - lowStart), ∑ d ∈ range I.digitWeights.length,
    (I.digitWeights.getD d 0 *
      eqAt I.challenges (address.first + I.outerStride * (I.lowLen * row + k) + I.digitStride * d)) •
        (I.highAt (firstHigh + row) * I.lowAt (lowStart + k))

variable {I : AffineDigitIntervals F A} {n firstHigh lowStart lowEnd rows carryCount addressLow : ℕ} {summaries : List A}

theorem sum_rowTerm (hn : n ≤ I.challenges.length) (hQ : I.lowLen = 2 ^ n) {address : AffineAddress F}
    (hsummary : I.IsSummary (I.challenges.take n) (address.first % I.lowLen) lowStart lowEnd carryCount summaries) :
    ∑ row ∈ range rows, rowTerm I.highWeights (I.challenges.drop n) I.outerStride n firstHigh summaries address row =
      I.familySum firstHigh lowStart lowEnd rows address := by
  unfold familySum rowTerm
  rw [smul_sum]
  apply sum_congr rfl
  intro row _
  rw [hsummary.2, lowSum, mul_sum]
  congr 1
  apply sum_congr rfl
  intro k _
  rw [positionSum, mul_sum]
  apply sum_congr rfl
  intro d _
  have haddr : address.first + I.outerStride * (I.lowLen * row + k) + I.digitStride * d =
      address.first + I.outerStride * (I.lowLen * row) + (I.outerStride * k + I.digitStride * d) := by ring
  rw [haddr, hQ, eqAt_row hn, Nat.shiftRight_eq_div_pow, highAt, ← add_assoc]
  simp only [Algebra.smul_def, map_mul]
  ring

variable [AffineWeight F A] [LawfulAffineWeight F A] [DecidableEq F] {rt : Runtime}

section

variable (hn : n ≤ I.challenges.length) (hQ : I.lowLen = 2 ^ n) (htable : LowTable (I.challenges.take n) eqLowTable)

include hn hQ htable

/-- **One group adds its families**, and the equality window it leaves behind is still one of the high point. -/
theorem accumulateGroup_ok {addresses : List (AffineAddress F)} {state state' : A × Option (OffsetEqWindow F)}
    (hwindow : ReadsAmortized (I.challenges.drop n) state.2)
    (hlow : ∀ address ∈ addresses, address.first % I.lowLen = addressLow)
    (h : I.accumulateGroup rt (I.challenges.take n) (I.challenges.drop n) template eqLowTable firstHigh lowStart lowEnd rows
      state addressLow addresses = .ok state') : ReadsAmortized (I.challenges.drop n) state'.2 ∧
      state'.1 = state.1 + (addresses.map (I.familySum firstHigh lowStart lowEnd rows)).sum := by
  have hlen : (I.challenges.take n).length = n := by simp [hn]
  obtain ⟨out, window⟩ := state
  unfold accumulateGroup at h
  simp only [bind_eq_ok, hlen] at h
  obtain ⟨_, -, _, -, _, -, _, -, carryCount, -, summaries, hbuild, bucketed, hbucketed, h⟩ := h
  have hsummary := buildAffineLowSummaries_ok (hlen.symm ▸ hQ) htable hbuild
  have hfams : (addresses.map fun address => ∑ row ∈ range rows,
      rowTerm I.highWeights (I.challenges.drop n) I.outerStride n firstHigh summaries address row).sum =
        (addresses.map (I.familySum firstHigh lowStart lowEnd rows)).sum := by
    congr 1
    apply List.map_congr_left
    intro address haddr
    exact sum_rowTerm hn hQ (hlow address haddr ▸ hsummary)
  cases bucketed with
  | some result =>
    have hstate : (result, window) = state' := by simpa [pure, Except.pure] using h
    rw [← hstate, accumulateHighRowsBucketed_ok hbucketed, hfams]
    exact ⟨hwindow, rfl⟩
  | none =>
    simp only [result_ok] at h
    obtain ⟨window', hprep, result, hloop, rfl⟩ := h
    have hreads := hwindow.prepare hprep
    refine ⟨hreads, ?_⟩
    rw [← hfams]
    refine foldlM_sum (fun s address s' _ hrows => ?_) hloop
    rw [← sum_map_range]
    exact foldlM_sum (fun s row s' _ hrow => by simpa [hlen] using directRow_ok (hlen.symm ▸ hQ) hreads hrow) hrows

theorem accumulateGroups_ok (addresses : List (AffineAddress F)) :
    ∀ {state state' : A × Option (OffsetEqWindow F)}, ReadsAmortized (I.challenges.drop n) state.2 →
      I.accumulateGroups rt (I.challenges.take n) (I.challenges.drop n) template eqLowTable firstHigh lowStart lowEnd rows
        state addresses = .ok state' →
      state'.1 = state.1 + (addresses.map (I.familySum firstHigh lowStart lowEnd rows)).sum := by
  induction hlen : addresses.length using Nat.strong_induction_on generalizing addresses with
  | _ m ih =>
    intro state state' hwindow h
    cases addresses with
    | nil =>
      rw [accumulateGroups] at h
      have hstate : state = state' := by simpa [pure, Except.pure] using h
      simp [hstate]
    | cons address rest =>
      rw [accumulateGroups] at h
      simp only [bind_eq_ok] at h
      obtain ⟨middle, hgroup, hrest⟩ := h
      have hmask : ∀ other : AffineAddress F, other.first &&& (I.lowLen - 1) = other.first % I.lowLen := by
        intro other
        rw [hQ, and_pred_two_pow]
      simp only [hmask] at hgroup hrest
      set same := rest.takeWhile fun other => other.first % I.lowLen == address.first % I.lowLen with hsame
      have hlow : ∀ other ∈ address :: same, other.first % I.lowLen = address.first % I.lowLen := by
        intro other hother
        rcases List.mem_cons.1 hother with rfl | hother
        · rfl
        · have hall := List.all_takeWhile (l := rest)
            (p := fun other : AffineAddress F => other.first % I.lowLen == address.first % I.lowLen)
          simpa using List.all_eq_true.1 hall other (hsame ▸ hother)
      obtain ⟨hreads, hmiddle⟩ := accumulateGroup_ok hn hQ htable hwindow hlow hgroup
      have hshort : (rest.drop same.length).length < m := by
        rw [← hlen, List.length_drop, List.length_cons]
        omega
      have hpre : rest = same ++ rest.drop same.length := by
        obtain ⟨tail, htail⟩ := List.takeWhile_prefix (l := rest)
          (fun other : AffineAddress F => other.first % I.lowLen == address.first % I.lowLen)
        rw [← hsame] at htail
        conv_rhs => rw [← htail, List.drop_left]
        exact htail.symm
      have hmap : ((address :: rest).map (I.familySum firstHigh lowStart lowEnd rows)).sum =
          ((address :: same).map (I.familySum firstHigh lowStart lowEnd rows)).sum +
            ((rest.drop same.length).map (I.familySum firstHigh lowStart lowEnd rows)).sum := by
        rw [← List.sum_append, ← List.map_append, List.cons_append, ← hpre]
      rw [ih _ hshort _ rfl hreads hrest, hmiddle, hmap, add_assoc]

end

omit [AffineWeight F A] [LawfulAffineWeight F A] [DecidableEq F] in
theorem familySum_eq (hle : lowEnd ≤ I.lowLen) (hstart : I.outerStart ≤ firstHigh * I.lowLen + lowStart) (base : ℕ)
    (scale : Option F) : I.familySum firstHigh lowStart lowEnd rows
        { first := base + I.outerStride * (firstHigh * I.lowLen + lowStart - I.outerStart), scale } =
      scale.getD 1 • I.rowsSum firstHigh lowStart lowEnd rows base := by
  unfold familySum rowsSum
  congr 1
  apply sum_congr rfl
  intro row _
  apply sum_congr rfl
  intro k hk
  have hk : k < lowEnd - lowStart := by simpa using hk
  have hlt : lowStart + k < I.lowLen := by omega
  have hdiv : ((firstHigh + row) * I.lowLen + (lowStart + k)) / I.lowLen = firstHigh + row := by
    rw [add_comm, Nat.add_mul_div_right _ _ I.lowLen_pos, Nat.div_eq_of_lt hlt, zero_add]
  have hmod : ((firstHigh + row) * I.lowLen + (lowStart + k)) % I.lowLen = lowStart + k := by
    rw [add_comm, Nat.add_mul_mod_self_right, Nat.mod_eq_of_lt hlt]
  have hlocal : (firstHigh + row) * I.lowLen + (lowStart + k) - I.outerStart =
      firstHigh * I.lowLen + lowStart - I.outerStart + (I.lowLen * row + k) := by
    have hmul : (firstHigh + row) * I.lowLen = firstHigh * I.lowLen + I.lowLen * row := by ring
    omega
  apply sum_congr rfl
  intro d _
  rw [hdiv, hmod, hlocal, mul_add I.outerStride _ (I.lowLen * row + k), ← add_assoc base]

omit [CommRing A] [Algebra F A] [AffineWeight F A] [LawfulAffineWeight F A] [DecidableEq F] in
theorem lowTable_ok {lowChallenges : List F} (h : (if I.lowWeights = [] then .ok none
      else if lowChallenges.length ≤ offsetEqLowBitsCap then do
        let table ← EqPolynomial.evals rt lowChallenges
        return some table
      else .ok none : Result (Option (List F))) = .ok eqLowTable) : LowTable lowChallenges eqLowTable := by
  intro table htable
  subst htable
  split at h
  · simp at h
  split at h
  · simp only [result_ok] at h
    obtain ⟨found, hfound, hsome⟩ := h
    rw [← Option.some.inj hsome, EqPolynomial.evals_ok hfound]
  · simp at h

/-- **Rows add, for every base, the outer indices they hold.** -/
theorem accumulateAffineRows_ok (hn : n ≤ I.challenges.length) (hQ : I.lowLen = 2 ^ n) (hle : lowEnd ≤ I.lowLen)
    {out out' : A}
    (h : I.accumulateAffineRows rt out (I.challenges.take n) (I.challenges.drop n) firstHigh lowStart lowEnd rows =
      .ok out') : out' = out + I.basesSum (I.rowsSum firstHigh lowStart lowEnd rows) := by
  unfold accumulateAffineRows at h
  simp only [result_ok, Option.bind_eq_some_iff, checked_some] at h
  obtain ⟨_, ⟨_, ⟨-, rfl⟩, -, rfl⟩, _, ⟨hstart, rfl⟩, _, ⟨-, rfl⟩, _, -, eqLowTable, heqLow, h⟩ := h
  have htable := lowTable_ok heqLow
  have hnone : ReadsAmortized (I.challenges.drop n) none := by
    intro w hw
    simp at hw
  split at h
  · -- a single base is its own group
    rename_i baseOffset hbases
    simp only [result_ok, checked_some] at h
    obtain ⟨_, ⟨-, rfl⟩, state', hgroup, rfl⟩ := h
    rw [hQ, and_pred_two_pow, ← hQ] at hgroup
    obtain ⟨-, hsum⟩ := accumulateGroup_ok hn hQ htable hnone (by simp) hgroup
    rw [hsum]
    simp [familySum_eq hle hstart, basesSum, hbases, List.head?_eq_getElem?, List.getD_eq_getElem?_getD]
  · rename_i hbases
    simp only [result_ok] at h
    obtain ⟨addresses, haddresses, state', hgroups, rfl⟩ := h
    rw [accumulateGroups_ok hn hQ htable _ hnone hgroups, (List.mergeSort_perm _ _).map _ |>.sum_eq]
    congr 1
    rw [map_of_mapM (h := fun p : ℕ × ℕ => I.baseScales.getD p.2 1 • I.rowsSum firstHigh lowStart lowEnd rows p.1)
      (fun p address _ haddr => by
        simp only [result_ok, checked_some] at haddr
        obtain ⟨_, ⟨-, rfl⟩, rfl⟩ := haddr
        rw [familySum_eq hle hstart, List.getD_eq_getElem?_getD]) haddresses,
      sum_map_zipIdx _ 0 fun base b => I.baseScales.getD b 1 • I.rowsSum firstHigh lowStart lowEnd rows base]
    rfl

end AffineDigitIntervals

end Akita.OffsetEq
