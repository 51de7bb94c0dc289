import Akita.Proof.PreparedDigits

/-!
# Affine digit intervals are exact

Every kernel of `evalAffineDigitIntervals` returns `affineSum`, so the choice by work
estimates is not visible in the result.
-/

namespace Akita.OffsetEq

open Lib Finset AffineWeight

namespace AffineDigitIntervals

variable {F A : Type} [Field F] [DecidableEq F] [CommRing A] [Algebra F A] [AffineWeight F A] [LawfulAffineWeight F A]
  {rt : Runtime} {I : AffineDigitIntervals F A} {outerEnd : ℕ} {split : RowSplit} {value template : A}

/-! ## The bit-aligned kernel -/

section

variable {evaluations : List F} {window : OffsetEqWindow F}

omit [DecidableEq F] [CommRing A] [Algebra F A] [AffineWeight F A] [LawfulAffineWeight F A] in
theorem alignedDigitEvaluations_ok {lowChallenges : List F} (hstride : I.outerStride = 2 ^ lowChallenges.length) {baseLow : ℕ}
    (h : I.alignedDigitEvaluations lowChallenges baseLow = .ok evaluations) (g : ℕ → F) :
    slotSum evaluations g = ∑ d ∈ range I.digitWeights.length, I.digitWeights.getD d 0 *
      eqAt lowChallenges ((baseLow + I.digitStride * d) % I.outerStride) * g ((baseLow + I.digitStride * d) / I.outerStride) := by
  have hrule := foldlM_measure (P := fun _ : List F => True) (μ := fun s => slotSum s g)
    (g := fun p : F × ℕ => p.1 * eqAt lowChallenges ((baseLow + I.digitStride * p.2) % I.outerStride) *
      g ((baseLow + I.digitStride * p.2) / I.outerStride)) (fun s p s' _ _ hstep => by
      simp only [result_ok, checked_some] at hstep
      obtain ⟨_, ⟨-, rfl⟩, _, ⟨hbound, rfl⟩, hupdate⟩ := hstep
      obtain ⟨-, hsum⟩ := updateSlot_add (fun v v' hv => (Except.ok.inj hv).symm) hupdate
      have hmask : baseLow + p.2 * I.digitStride &&& (I.outerStride - 1) =
          (baseLow + I.digitStride * p.2) % I.outerStride := by rw [hstride, and_pred_two_pow, mul_comm p.2]
      have hsmall : (baseLow + I.digitStride * p.2) % I.outerStride < 2 ^ 64 := by
        rw [mul_comm p.2] at hbound
        exact lt_of_le_of_lt (Nat.mod_le _ _) hbound
      refine ⟨trivial, ?_⟩
      rw [hsum, hmask, eqEvalAtIndex_eq _ hsmall, mul_comm p.2]) trivial h
  have hzero : slotSum [(0 : F), 0] g = 0 := slotSum_replicate 2 g
  rw [hrule.2, hzero, zero_add, sum_map_zipIdx _ 0 fun w d =>
    w * eqAt lowChallenges ((baseLow + I.digitStride * d) % I.outerStride) * g ((baseLow + I.digitStride * d) / I.outerStride)]

theorem alignedOuterEvaluation_ok {high : List F} (hwindow : window.Reads high) {baseHigh carry : ℕ} {out : A}
    (h : I.alignedOuterEvaluation window (0 : A) baseHigh carry (I.outerStart + I.liveLen) = .ok out) :
    out = ∑ j ∈ range I.liveLen, eqAt high (baseHigh + carry + j) • I.highAt (I.outerStart + j) := by
  unfold alignedOuterEvaluation at h
  rw [Nat.add_sub_cancel_left] at h
  have hsum := foldlM_sum (g := fun outer => eqAt high (baseHigh + carry + (outer - I.outerStart)) • I.highAt outer)
    (fun s outer s' _ hstep => by
      simp only [result_ok, Option.bind_eq_some_iff, checked_some] at hstep
      obtain ⟨_, ⟨_, ⟨-, rfl⟩, hbound, rfl⟩, hstep⟩ := hstep
      rw [hwindow _ hbound] at hstep
      split at hstep
      · simp only [result_ok, addScaled_eq] at hstep
        obtain ⟨weight, hweight, rfl⟩ := hstep
        simp [highAt, hweight]
      · rename_i hzero
        simp only [pure_eq_ok] at hstep
        simp [not_not.1 hzero, hstep]) h
  rw [hsum, zero_add, sum_map_range']
  simp

theorem alignedBase_ok (hlow : I.lowWeights = []) {n : ℕ} (hn : n ≤ I.challenges.length) (hstride : I.outerStride = 2 ^ n)
    (hwindow : window.Reads (I.challenges.drop n)) {out out' : A} {scale : Option F} {base : ℕ}
    (hevals : I.alignedDigitEvaluations (I.challenges.take n) (base % 2 ^ n) = .ok evaluations)
    (h : evaluations.zipIdx.foldlM (fun (out : A) (p : F × ℕ) =>
      I.alignedCarry window template (base / 2 ^ n) (I.outerStart + I.liveLen) scale out p.1 p.2) out = .ok out') :
    out' = out + scale.getD 1 • ∑ i ∈ Ico I.outerStart (I.outerStart + I.liveLen), I.indexSum base i := by
  have hlen : (I.challenges.take n).length = n := by simp [hn]
  have hQ : I.lowLen = 1 := by simp [lowLen, hlow]
  have hsum := foldlM_sum (g := fun p : F × ℕ => (p.1 * scale.getD 1) • ∑ j ∈ range I.liveLen,
    eqAt (I.challenges.drop n) (base / 2 ^ n + p.2 + j) • I.highAt (I.outerStart + j)) (fun s p s' _ hstep => by
      unfold alignedCarry at hstep
      simp only [scaledBy_eq, zeroLike_eq] at hstep
      split at hstep
      · rename_i hzero
        simp only [pure_eq_ok] at hstep
        simp [hzero, hstep]
      · simp only [result_ok, addScaled_eq] at hstep
        obtain ⟨outer, houter, rfl⟩ := hstep
        rw [alignedOuterEvaluation_ok hwindow houter]) h
  rw [hsum, sum_map_zipIdx _ 0 fun evaluation c => (evaluation * scale.getD 1) • ∑ j ∈ range I.liveLen,
    eqAt (I.challenges.drop n) (base / 2 ^ n + c + j) • I.highAt (I.outerStart + j), sum_Ico_eq_sum_range,
    Nat.add_sub_cancel_left]
  congr 1
  -- both sides outer index by outer index
  have hindex : ∀ j, I.indexSum base (I.outerStart + j) =
      slotSum evaluations (fun c => eqAt (I.challenges.drop n) (base / 2 ^ n + c + j)) • I.highAt (I.outerStart + j) := by
    intro j
    rw [alignedDigitEvaluations_ok (hlen.symm ▸ hstride) hevals, sum_smul, indexSum]
    apply sum_congr rfl
    intro d _
    have hsplit := eqAt_row hn 1 base j (I.digitStride * d)
    rw [one_mul, one_mul] at hsplit
    rw [hQ, Nat.div_one, lowAt, if_pos hlow, mul_one, Nat.add_sub_cancel_left, hstride, hsplit, Nat.add_right_comm (base / 2 ^ n),
      mul_assoc]
  simp only [hindex, slotSum, sum_smul, smul_sum]
  rw [sum_comm]
  apply sum_congr rfl
  intro j _
  apply sum_congr rfl
  intro c _
  simp only [Algebra.smul_def, map_mul]
  ring

/-- **The bit-aligned kernel is exact.** -/
theorem tryEvalBitAlignedDigitIntervals_ok (hsize : I.outerStride < 2 ^ 64)
    (h : I.tryEvalBitAlignedDigitIntervals rt = .ok (some value)) : value = I.affineSum := by
  unfold tryEvalBitAlignedDigitIntervals at h
  split at h
  · simp [ok_run] at h
  rename_i hguard
  simp only [not_or, not_not] at hguard
  obtain ⟨hlow, n, hn⟩ := hguard
  have hbits : trailingZeros I.outerStride = n := by
    rw [hn] at hsize ⊢
    exact trailingZeros_two_pow ((Nat.pow_lt_pow_iff_right (by norm_num)).1 hsize)
  simp only [hbits] at h
  split at h
  · simp [ok_run] at h
  rename_i hle
  have hle : n ≤ I.challenges.length := by omega
  simp only [bind_eq_ok, okOr_eq_ok, checkedAdd_eq_some, pure_eq_ok, zeroLike_eq] at h
  obtain ⟨_, -, _, -, _, -, window, hwindow, weight, -, _, ⟨-, rfl⟩, out, hloop, hout⟩ := h
  cases hout
  have hsum := foldlM_sum (g := fun p : ℕ × ℕ => I.baseScales.getD p.2 1 •
    ∑ i ∈ Ico I.outerStart (I.outerStart + I.liveLen), I.indexSum p.1 i) (fun s p s' _ hstep => by
      simp only [bind_eq_ok] at hstep
      obtain ⟨evaluations, hevals, hcarries⟩ := hstep
      rw [hn, and_pred_two_pow] at hevals
      rw [Nat.shiftRight_eq_div_pow] at hcarries
      rw [alignedBase_ok hlow hle hn (OffsetEqWindow.new_reads hwindow) hevals hcarries,
        ← List.getD_eq_getElem?_getD]) hloop
  rw [hsum, zero_add, sum_map_zipIdx _ 0 fun base b => I.baseScales.getD b 1 •
    ∑ i ∈ Ico I.outerStart (I.outerStart + I.liveLen), I.indexSum base i]
  rfl

end

/-! ## The prepared window -/

/-- **The prepared window is exact.** -/
theorem tryEvalPreparedDigitIntervals_ok {work : ℕ}
    (h : I.tryEvalPreparedDigitIntervals rt template work = .ok (some value)) : value = I.affineSum := by
  unfold tryEvalPreparedDigitIntervals at h
  simp only at h
  split at h
  · simp [ok_run] at h
  rename_i hguard
  simp only [not_or, not_not] at hguard
  obtain ⟨hdigit, hstride, hstart, hlive⟩ := hguard
  split at h
  · simp [ok_run] at h
  simp only [bind_eq_ok] at h
  obtain ⟨prepared, hprep, h⟩ := h
  cases prepared with
  | none => simp [ok_run] at h
  | some p =>
    simp only [result_ok, zeroLike_eq] at h
    obtain ⟨out, hloop, hout⟩ := h
    cases hout
    have hp := PreparedDigits.new_ok hprep
    have hfirst : I.outerStart / I.lowLen * I.lowLen = I.outerStart := Nat.div_mul_cancel (Nat.dvd_of_mod_eq_zero hstart)
    have hrows : I.liveLen / I.lowLen * I.lowLen = I.liveLen := Nat.div_mul_cancel (Nat.dvd_of_mod_eq_zero hlive)
    -- the rows of one base
    have hbase : ∀ base : ℕ, ∑ row ∈ range (I.liveLen / I.lowLen), ∑ lane ∈ range (max I.lowWeights.length 1),
        ∑ d ∈ range I.digitWeights.length, (I.digitWeights.getD d 0 *
          eqAt I.challenges (base + p.stride * row + lane * I.digitWeights.length + d)) •
            ((I.highWeights.get (I.outerStart / I.lowLen + row)).getD 0 * PreparedDigits.lowFactor I.lowWeights lane) =
        ∑ i ∈ Ico I.outerStart (I.outerStart + I.liveLen), I.indexSum base i := by
      intro base
      have hfull := I.rowsSum_full (I.outerStart / I.lowLen) (I.liveLen / I.lowLen) base
      rw [add_mul, hfirst, hrows] at hfull
      rw [← hfull, rowsSum]
      apply sum_congr rfl
      intro row _
      apply sum_congr rfl
      intro lane hlane
      have hlane : lane < I.lowLen := mem_range.1 hlane
      have hdiv : ((I.outerStart / I.lowLen + row) * I.lowLen + (0 + lane)) / I.lowLen = I.outerStart / I.lowLen + row := by
        rw [zero_add, add_comm, Nat.add_mul_div_right _ _ I.lowLen_pos, Nat.div_eq_of_lt hlane, zero_add]
      have hmod : ((I.outerStart / I.lowLen + row) * I.lowLen + (0 + lane)) % I.lowLen = lane := by
        rw [zero_add, add_comm, Nat.add_mul_mod_self_right, Nat.mod_eq_of_lt hlane]
      have hlocal : (I.outerStart / I.lowLen + row) * I.lowLen + (0 + lane) - I.outerStart = row * I.lowLen + lane := by
        rw [add_mul, hfirst]
        omega
      unfold indexSum
      apply sum_congr rfl
      intro d _
      have haddr : base + p.stride * row + lane * I.digitWeights.length + d =
          base + I.outerStride * (row * I.lowLen + lane) + I.digitStride * d := by
        rw [hp.stride_eq, hstride, hdigit, lowLen]
        ring
      rw [hdiv, hmod, hlocal, haddr]
      rfl
    have hsum := foldlM_sum (g := fun p : ℕ × ℕ => I.baseScales.getD p.2 1 •
      ∑ i ∈ Ico I.outerStart (I.outerStart + I.liveLen), I.indexSum p.1 i) (fun s p s' _ hstep => by
        simp only [result_ok] at hstep
        obtain ⟨rowsSum, hacc, hscaled⟩ := hstep
        have hrowsSum := PreparedDigits.accumulate_ok hp hacc
        rw [zero_add, hbase] at hrowsSum
        rw [← hscaled, ← hrowsSum, List.getD_eq_getElem?_getD]
        cases I.baseScales[p.2]? with
        | some scale => simp [addScaled_eq]
        | none => simp [add_eq]) hloop
    rw [hsum, zero_add, sum_map_zipIdx _ 0 fun base b => I.baseScales.getD b 1 •
      ∑ i ∈ Ico I.outerStart (I.outerStart + I.liveLen), I.indexSum base i]
    rfl

/-! ## Rows -/

/-- The parts of the outer window meet end to end, and full rows and the last row start at row boundaries. -/
structure IsRowSplit (I : AffineDigitIntervals F A) (outerEnd : ℕ) (split : RowSplit) : Prop where
  prefix_le : I.outerStart % I.lowLen + split.prefixSpan ≤ I.lowLen
  full_eq : I.outerStart + split.prefixSpan = split.fullStart
  suffix_eq : split.fullStart + split.fullRows * I.lowLen = split.suffixStart
  end_eq : split.suffixStart + split.suffixSpan = outerEnd
  full_dvd : split.fullRows ≠ 0 → I.lowLen ∣ split.fullStart
  suffix_dvd : split.suffixSpan ≠ 0 → I.lowLen ∣ split.suffixStart
  suffix_le : split.suffixSpan ≤ I.lowLen

omit [Field F] [DecidableEq F] [CommRing A] [Algebra F A] [AffineWeight F A] [LawfulAffineWeight F A] in
theorem fullRows_eq {m : ℕ} (hm : I.lowLen * m ≤ outerEnd) :
    (min (max (outerEnd - outerEnd % I.lowLen) (I.lowLen * m)) outerEnd - I.lowLen * m) / I.lowLen * I.lowLen =
      outerEnd - outerEnd % I.lowLen - I.lowLen * m ∧ I.lowLen * m ≤ outerEnd - outerEnd % I.lowLen := by
  have hend : outerEnd - outerEnd % I.lowLen = I.lowLen * (outerEnd / I.lowLen) := by
    have := Nat.div_add_mod outerEnd I.lowLen
    omega
  have hle : m ≤ outerEnd / I.lowLen := (Nat.le_div_iff_mul_le I.lowLen_pos).2 (by rw [mul_comm]; exact hm)
  have hmul : I.lowLen * m ≤ I.lowLen * (outerEnd / I.lowLen) := Nat.mul_le_mul_left _ hle
  have hlast : I.lowLen * (outerEnd / I.lowLen) ≤ outerEnd := Nat.mul_div_le _ _
  refine ⟨?_, by omega⟩
  rw [hend, max_eq_left hmul, min_eq_left hlast, ← Nat.mul_sub, Nat.mul_div_cancel_left _ I.lowLen_pos, mul_comm]

omit [Field F] [DecidableEq F] [CommRing A] [Algebra F A] [AffineWeight F A] [LawfulAffineWeight F A] in
theorem rowSplit_ok (hle : I.outerStart ≤ outerEnd) (h : I.rowSplit outerEnd = .ok split) : IsRowSplit I outerEnd split := by
  have hpos := I.lowLen_pos
  have hmod := Nat.mod_lt I.outerStart hpos
  have hdivmod := Nat.div_add_mod I.outerStart I.lowLen
  have hendmod := Nat.mod_lt outerEnd hpos
  unfold rowSplit at h
  simp only [result_ok, checked_some] at h
  obtain ⟨prefixEnd, hpre, _, ⟨-, rfl⟩, _, ⟨-, rfl⟩, rfl⟩ := h
  -- the first row ends at a boundary, or the window ends inside it
  have hcases : (∃ m, prefixEnd = I.lowLen * m ∧ prefixEnd ≤ outerEnd) ∨ prefixEnd = outerEnd := by
    split at hpre
    · rename_i hzero
      have heq : I.outerStart = prefixEnd := by simpa using hpre
      exact Or.inl ⟨I.outerStart / I.lowLen, by omega, by omega⟩
    · simp only [result_ok, checked_some] at hpre
      obtain ⟨_, ⟨-, rfl⟩, rfl⟩ := hpre
      by_cases hend : I.outerStart + (I.lowLen - I.outerStart % I.lowLen) ≤ outerEnd
      · refine Or.inl ⟨I.outerStart / I.lowLen + 1, ?_, by omega⟩
        rw [mul_add, mul_one]
        omega
      · exact Or.inr (by omega)
  have hspan : I.outerStart ≤ prefixEnd ∧ I.outerStart % I.lowLen + (prefixEnd - I.outerStart) ≤ I.lowLen := by
    split at hpre
    · rename_i hzero
      have heq : I.outerStart = prefixEnd := by simpa using hpre
      omega
    · simp only [result_ok, checked_some] at hpre
      obtain ⟨_, ⟨-, rfl⟩, rfl⟩ := hpre
      omega
  rcases hcases with ⟨m, hm, hmle⟩ | hend
  · obtain ⟨hrows, hbdry⟩ := I.fullRows_eq (hm ▸ hmle)
    rw [hm] at hspan ⊢
    have hcursor : I.lowLen * m + (min (max (outerEnd - outerEnd % I.lowLen) (I.lowLen * m)) outerEnd - I.lowLen * m) /
        I.lowLen * I.lowLen = outerEnd - outerEnd % I.lowLen := by omega
    have hdvd : I.lowLen ∣ outerEnd - outerEnd % I.lowLen := Nat.dvd_sub_mod outerEnd
    exact
      { prefix_le := hspan.2
        full_eq := by simp only; omega
        suffix_eq := rfl
        end_eq := by simp only; omega
        full_dvd := fun _ => Dvd.intro m rfl
        suffix_dvd := fun _ => by simp only [hcursor]; exact hdvd
        suffix_le := by simp only [hcursor]; omega }
  · subst hend
    have hnone : (min (max (prefixEnd - prefixEnd % I.lowLen) prefixEnd) prefixEnd - prefixEnd) / I.lowLen = 0 := by
      have hzero : min (max (prefixEnd - prefixEnd % I.lowLen) prefixEnd) prefixEnd - prefixEnd = 0 := by omega
      rw [hzero, Nat.zero_div]
    exact
      { prefix_le := hspan.2
        full_eq := by simp only; omega
        suffix_eq := rfl
        end_eq := by simp only [hnone]; omega
        full_dvd := fun hne => absurd hnone hne
        suffix_dvd := fun hne => by simp at hne
        suffix_le := by simp }

/-- **The rows are exact.** -/
theorem evalRows_ok {n : ℕ} (hn : n ≤ I.challenges.length) (hn64 : n < 64) (hQ : I.lowLen = 2 ^ n)
    (hsplit : IsRowSplit I (I.outerStart + I.liveLen) split) (h : I.evalRows rt split (0 : A) = .ok value) :
    value = I.affineSum := by
  have hbits : trailingZeros I.lowLen = n := by rw [hQ, trailingZeros_two_pow hn64]
  unfold evalRows at h
  simp only [bind_eq_ok, hbits] at h
  obtain ⟨first, hfirst, middle, hmiddle, hlast⟩ := h
  have hspan := hsplit.prefix_le
  have hstart : I.outerStart / I.lowLen * I.lowLen + I.outerStart % I.lowLen = I.outerStart := by
    rw [mul_comm]
    exact Nat.div_add_mod _ _
  -- each group adds its part of the window
  have hpre : first = I.basesSum fun base => ∑ i ∈ Ico I.outerStart (I.outerStart + split.prefixSpan), I.indexSum base i := by
    split at hfirst
    · rw [accumulateAffineRows_ok hn hQ hspan hfirst, zero_add]
      apply I.basesSum_congr
      intro base _
      rw [rowsSum_one, hstart]
    · rename_i hzero
      have hnone : (0 : A) = first := by simpa [ok_run] using hfirst
      simp [← hnone, not_not.1 hzero, basesSum]
  have hfull : middle = first + I.basesSum fun base => ∑ i ∈ Ico split.fullStart split.suffixStart, I.indexSum base i := by
    split at hmiddle
    · rename_i hrows
      rw [accumulateAffineRows_ok hn hQ le_rfl hmiddle]
      congr 1
      apply I.basesSum_congr
      intro base _
      rw [rowsSum_full, add_mul, Nat.div_mul_cancel (hsplit.full_dvd hrows), hsplit.suffix_eq]
    · rename_i hzero
      have hnone : first = middle := by simpa [ok_run] using hmiddle
      have hempty := hsplit.suffix_eq
      rw [not_not.1 hzero, zero_mul, add_zero] at hempty
      simp [← hnone, hempty, basesSum]
  have hsuffix : value = middle + I.basesSum fun base =>
      ∑ i ∈ Ico split.suffixStart (split.suffixStart + split.suffixSpan), I.indexSum base i := by
    split at hlast
    · rename_i hspan
      have hone : split.suffixSpan = 0 + split.suffixSpan := (zero_add _).symm
      rw [accumulateAffineRows_ok hn hQ hsplit.suffix_le hlast]
      congr 1
      apply I.basesSum_congr
      intro base _
      rw [hone, rowsSum_one, Nat.div_mul_cancel (hsplit.suffix_dvd hspan), add_zero, ← hone]
    · rename_i hzero
      have hnone : middle = value := by simpa [ok_run] using hlast
      simp [← hnone, not_not.1 hzero, basesSum]
  rw [hsuffix, hfull, hpre, ← basesSum_add, ← basesSum_add, affineSum]
  apply I.basesSum_congr
  intro base _
  have hge1 : I.outerStart ≤ split.fullStart := by have := hsplit.full_eq; omega
  have hge2 : split.fullStart ≤ split.suffixStart := by have := hsplit.suffix_eq; omega
  have hge3 : split.suffixStart ≤ I.outerStart + I.liveLen := by have := hsplit.end_eq; omega
  rw [hsplit.full_eq, hsplit.end_eq, sum_Ico_consecutive _ hge1 hge2, sum_Ico_consecutive _ (hge1.trans hge2) hge3]

/-! ## The evaluator -/

/-- **Affine digit intervals are exact**: whichever kernel runs, an accepted input gives the sum over every base,
outer index and digit. -/
theorem evalAffineDigitIntervals_exact {value : A} (h : I.evalAffineDigitIntervals rt = .ok value) : value = I.affineSum := by
  unfold evalAffineDigitIntervals at h
  simp only [bind_eq_ok] at h
  obtain ⟨template, -, h⟩ := h
  split at h
  · rename_i hempty
    have hzero : (0 : A) = value := by simpa [ok_run, zeroLike_eq] using h
    rw [← hzero, affineSum, basesSum]
    rcases hempty with hlive | hbases
    · simp [hlive]
    · simp [hbases]
  rename_i hlive
  simp only [bind_eq_ok, okOr_eq_ok, checkedAdd_eq_some] at h
  obtain ⟨⟨digitSpan, outerEnd⟩, hgeometry, _, ⟨hcarry, -⟩, _, -, aligned, haligned, h⟩ := h
  have hsize : I.outerStride < 2 ^ 64 := by unfold usizeBits at hcarry; omega
  cases aligned with
  | some found =>
    have hvalue : found = value := by simpa [ok_run] using h
    rw [← hvalue, tryEvalBitAlignedDigitIntervals_ok hsize haligned]
  | none =>
    simp only [bind_eq_ok] at h
    obtain ⟨split, hsplit, work, -, _, -, prepared, hprepared, h⟩ := h
    cases prepared with
    | some found =>
      have hvalue : found = value := by simpa [ok_run] using h
      rw [← hvalue, tryEvalPreparedDigitIntervals_ok hprepared]
    | none =>
      unfold checkGeometry at hgeometry
      simp only [result_ok, checked_some, Prod.mk.injEq, not_or, not_not] at hgeometry
      obtain ⟨-, _, -, ⟨⟨n, hn⟩, -⟩, hbits, _, ⟨-, rfl⟩, _, ⟨hcapacity, rfl⟩, hfits, rfl, rfl⟩ := hgeometry
      have hhigh : 0 < I.highWeights.len := by
        apply pos_of_ne_zero
        intro hzero
        rw [hzero, zero_mul] at hfits
        omega
      have hlow : I.lowLen < 2 ^ 64 := by
        have hmul : I.lowLen ≤ I.highWeights.len * I.lowLen := Nat.le_mul_of_pos_left _ hhigh
        unfold usizeBits at hcapacity
        omega
      have hn64 : n < 64 := by
        rw [hn] at hlow
        exact (Nat.pow_lt_pow_iff_right (by norm_num)).1 hlow
      rw [hn, trailingZeros_two_pow hn64] at hbits
      rw [zeroLike_eq] at h
      exact evalRows_ok hbits hn64 hn (rowSplit_ok (by omega) hsplit) h

def plainRuntime : Runtime where
  elemSize := 16
  reserves _ := true
  parallel := false
  foldTree n := .items (List.range n)
  foldTree_toList := serialFold_toList

/-- An unaligned window of a non-power-of-two stride: a partial first row and a full row. -/
def sampleIntervals : AffineDigitIntervals (ZMod 5) (ZMod 5) where
  challenges := [2, 3, 1, 4]
  baseOffsets := [2]
  outerStart := 1
  liveLen := 3
  outerStride := 3
  digitStride := 1
  digitWeights := [1, 2, 3]
  highWeights := .ofList [1, 3]
  lowWeights := [1, 4]
  baseScales := [2]

theorem sampleIntervals_value : sampleIntervals.evalAffineDigitIntervals plainRuntime = .ok 2 := by decide +kernel

theorem evalAffineDigitIntervals_exact_sample :
    sampleIntervals.evalAffineDigitIntervals plainRuntime = .ok 2 ∧ 2 = sampleIntervals.affineSum :=
  ⟨sampleIntervals_value, evalAffineDigitIntervals_exact sampleIntervals_value⟩

end AffineDigitIntervals

end Akita.OffsetEq
