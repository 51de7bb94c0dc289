import Akita.Proof.EqPoly
import Akita.Spec.PreparedDigits

/-!
# The sum an affine contraction stands for

Weights are assumed to be a commutative algebra over the field under the weight operations.
`affineSum` is the plain double sum over outer indices and digits for every base. The outer
window is read row by row: row `q` of the window holds the indices `q * Q + low`.
-/

namespace Akita.OffsetEq

open Lib Finset AffineWeight
open List hiding sum_range_succ

/-- The weight operations are those of a commutative algebra. -/
class LawfulAffineWeight (F A : Type) [Field F] [CommRing A] [Algebra F A] [AffineWeight F A] : Prop where
  zeroLike_eq : ∀ a : A, zeroLike F a = 0
  addScaled_eq : ∀ (a x : A) (s : F), addScaled a x s = a + s • x
  addScaledBatch_eq : ∀ (a : A) (xs : List A) (ss : List F), xs.length = ss.length →
    addScaledBatch a xs ss = a + (List.zipWith (fun x s => s • x) xs ss).sum
  add_eq : ∀ a b : A, AffineWeight.add F a b = a + b
  addScalar_eq : ∀ (a b : A) (s : F), addScalar a s = .ok b → b = a + algebraMap F A s
  multiply_eq : ∀ a b : A, multiply F a b = a * b

export LawfulAffineWeight (zeroLike_eq addScaled_eq addScaledBatch_eq add_eq addScalar_eq multiply_eq)

instance {F : Type} [Field F] : LawfulAffineWeight F F where
  zeroLike_eq _ := rfl
  addScaled_eq a x s := by simp [addScaled, mul_comm, add_comm]
  addScaledBatch_eq a xs ss _ := by simp [addScaledBatch, mul_comm]
  add_eq _ _ := rfl
  addScalar_eq a b s h := by
    have hb : a + s = b := by simpa [addScalar] using h
    simp [← hb]
  multiply_eq _ _ := rfl

namespace AffineDigitIntervals

theorem lowLen_pos {F A : Type} (I : AffineDigitIntervals F A) : 0 < I.lowLen :=
  lt_of_lt_of_le Nat.zero_lt_one (le_max_right _ _)

variable {F A : Type} [Field F] [CommRing A] [Algebra F A] (I : AffineDigitIntervals F A)

/-- The low factor; no low weights stand for the identity. -/
def lowAt (k : ℕ) : A := if I.lowWeights = [] then 1 else I.lowWeights.getD k 0

def highAt (k : ℕ) : A := (I.highWeights.get k).getD 0

def indexSum (base i : ℕ) : A := ∑ d ∈ range I.digitWeights.length,
    (I.digitWeights.getD d 0 * eqAt I.challenges (base + I.outerStride * (i - I.outerStart) + I.digitStride * d)) •
      (I.highAt (i / I.lowLen) * I.lowAt (i % I.lowLen))

def basesSum (part : ℕ → A) : A :=
  ∑ b ∈ range I.baseOffsets.length, I.baseScales.getD b 1 • part (I.baseOffsets.getD b 0)

/-- **What the contraction computes**: for every base the outer window and all digits. -/
def affineSum : A := I.basesSum fun base => ∑ i ∈ Ico I.outerStart (I.outerStart + I.liveLen), I.indexSum base i

/-- The rows `[firstHigh, firstHigh + rows)` over the low positions `[lowStart, lowEnd)`. -/
def rowsSum (firstHigh lowStart lowEnd rows base : ℕ) : A :=
  ∑ row ∈ range rows, ∑ k ∈ range (lowEnd - lowStart), I.indexSum base ((firstHigh + row) * I.lowLen + (lowStart + k))

theorem basesSum_add (f g : ℕ → A) : I.basesSum (fun base => f base + g base) = I.basesSum f + I.basesSum g := by
  simp only [basesSum, smul_add, sum_add_distrib]

theorem basesSum_congr {f g : ℕ → A} (h : ∀ base ∈ I.baseOffsets, f base = g base) : I.basesSum f = I.basesSum g := by
  apply sum_congr rfl
  intro b hb
  have hlt : b < I.baseOffsets.length := by simpa using hb
  have hmem : I.baseOffsets.getD b 0 ∈ I.baseOffsets := by
    simp [getD_eq_getElem?_getD, getElem?_eq_getElem hlt]
  rw [h _ hmem]

theorem rowsSum_full (firstHigh rows base : ℕ) : I.rowsSum firstHigh 0 I.lowLen rows base =
      ∑ i ∈ Ico (firstHigh * I.lowLen) ((firstHigh + rows) * I.lowLen), I.indexSum base i := by
  induction rows with
  | zero => simp [rowsSum]
  | succ rows ih =>
    have hle : (firstHigh + rows) * I.lowLen ≤ (firstHigh + (rows + 1)) * I.lowLen := Nat.mul_le_mul_right _ (by omega)
    have hge : firstHigh * I.lowLen ≤ (firstHigh + rows) * I.lowLen := Nat.mul_le_mul_right _ (by omega)
    have hlast : (firstHigh + (rows + 1)) * I.lowLen - (firstHigh + rows) * I.lowLen = I.lowLen := by
      rw [← Nat.sub_mul, Nat.add_sub_add_left, Nat.add_sub_cancel_left, one_mul]
    unfold rowsSum at ih ⊢
    rw [sum_range_succ, ih, ← sum_Ico_consecutive _ hge hle, sum_Ico_eq_sum_range _ ((firstHigh + rows) * I.lowLen), hlast]
    simp

theorem rowsSum_one (firstHigh lowStart span base : ℕ) : I.rowsSum firstHigh lowStart (lowStart + span) 1 base =
      ∑ i ∈ Ico (firstHigh * I.lowLen + lowStart) (firstHigh * I.lowLen + lowStart + span), I.indexSum base i := by
  rw [sum_Ico_eq_sum_range, Nat.add_sub_cancel_left]
  simp [rowsSum, add_assoc]

end AffineDigitIntervals

theorem scaledBy_eq {F : Type} [Field F] (scale : Option F) (v : F) : scaledBy scale v = v * scale.getD 1 := by
  cases scale <;> simp [scaledBy]

/-!
## Low carry summaries

A list of carry summaries is characterised by what it contributes against any weight per
carry: `IsSummary` says that slot `c` collects exactly the low positions and digits whose
shifted address carries `c`. The identity, dense and geometric constructions all are such
lists, so the contraction of the high rows does not see which one ran.
-/

section

variable {A : Type} [CommRing A]

theorem updateSlot_add {slots slots' : List A} {i : ℕ} {e : AkitaError} {f : A → Result A} {x : A}
    (hf : ∀ v v', f v = .ok v' → v' = v + x) (h : updateSlot slots i e f = .ok slots') :
    slots'.length = slots.length ∧ ∀ g, slotSum slots' g = slotSum slots g + x * g i := by
  unfold updateSlot at h
  simp only [result_ok] at h
  obtain ⟨v, hv, v', hv', rfl⟩ := h
  obtain ⟨hi, -⟩ := List.getElem?_eq_some_iff.1 hv
  have hget : slots.getD i 0 = v := by simp [List.getD_eq_getElem?_getD, hv]
  refine ⟨by simp, fun g => ?_⟩
  rw [hf v v' hv', ← hget, slotSum_set hi]

end

namespace AffineDigitIntervals

variable {F A : Type} [Field F] [CommRing A] [Algebra F A]

/-- The digits of one low position, at address `start`, against a weight for the carry of each. -/
def positionSum (I : AffineDigitIntervals F A) (lowChallenges : List F) (start low : ℕ) (g : ℕ → A) : A :=
  ∑ d ∈ range I.digitWeights.length,
    (I.digitWeights.getD d 0 * eqAt lowChallenges ((start + I.digitStride * d) % I.lowLen)) • I.lowAt low *
      g ((start + I.digitStride * d) / I.lowLen)

/-- The low positions against a weight for each carry. -/
def lowSum (I : AffineDigitIntervals F A) (lowChallenges : List F) (addressLow lowStart lowEnd : ℕ) (g : ℕ → A) : A :=
  ∑ k ∈ range (lowEnd - lowStart), I.positionSum lowChallenges (addressLow + I.outerStride * k) (lowStart + k) g

def IsSummary (I : AffineDigitIntervals F A) (lowChallenges : List F) (addressLow lowStart lowEnd carryCount : ℕ)
    (summaries : List A) : Prop :=
  summaries.length = carryCount ∧ ∀ g, slotSum summaries g = I.lowSum lowChallenges addressLow lowStart lowEnd g

variable {I : AffineDigitIntervals F A} {lowChallenges : List F} {addressLow lowStart lowEnd carryCount : ℕ}
  {summaries : List A}

theorem isSummary_of_positions {f : List A → ℕ → Result (List A)}
    (hstep : ∀ s low s', f s low = .ok s' → s'.length = s.length ∧ ∀ g, slotSum s' g = slotSum s g +
      I.positionSum lowChallenges (addressLow + I.outerStride * (low - lowStart)) low g)
    (h : (range' lowStart (lowEnd - lowStart)).foldlM f (replicate carryCount 0) = .ok summaries) :
    I.IsSummary lowChallenges addressLow lowStart lowEnd carryCount summaries := by
  have hrule : ∀ g : ℕ → A, summaries.length = carryCount ∧ slotSum summaries g =
      slotSum (replicate carryCount 0) g + ((range' lowStart (lowEnd - lowStart)).map fun low =>
        I.positionSum lowChallenges (addressLow + I.outerStride * (low - lowStart)) low g).sum := by
    intro g
    refine foldlM_measure (P := fun s : List A => s.length = carryCount) (μ := fun s => slotSum s g) ?_ (by simp) h
    intro s low s' _ hs hlow
    obtain ⟨hl, hsum⟩ := hstep s low s' hlow
    exact ⟨hl.trans hs, hsum g⟩
  refine ⟨(hrule 0).1, fun g => ?_⟩
  rw [(hrule g).2, slotSum_replicate, zero_add, sum_map_range']
  simp [lowSum]

variable [AffineWeight F A] [LawfulAffineWeight F A]

/-! ### Identity and dense summaries -/

theorem identityLowSummaries_ok (hlow : I.lowWeights = [])
    (h : I.identityLowSummaries (0 : A) carryCount = .ok summaries) : I.IsSummary [] 0 0 1 carryCount summaries := by
  have hlen : I.lowLen = 1 := by simp [lowLen, hlow]
  have hrule : ∀ g : ℕ → A, summaries.length = carryCount ∧ slotSum summaries g = slotSum (replicate carryCount 0) g +
      (I.digitWeights.zipIdx.map fun p => algebraMap F A p.1 * g (I.digitStride * p.2)).sum := by
    intro g
    refine foldlM_measure (P := fun s : List A => s.length = carryCount) (μ := fun s => slotSum s g) ?_ (by simp) h
    intro s p s' _ hs hstep
    simp only [result_ok, checked_some] at hstep
    obtain ⟨_, ⟨-, rfl⟩, hupdate⟩ := hstep
    obtain ⟨hl, hsum⟩ := updateSlot_add (fun v v' hv => addScalar_eq v v' _ hv) hupdate
    exact ⟨hl.trans hs, hsum g⟩
  refine ⟨(hrule 0).1, fun g => ?_⟩
  rw [(hrule g).2, slotSum_replicate, zero_add, sum_map_zipIdx _ 0 fun w d => algebraMap F A w * g (I.digitStride * d)]
  simp [lowSum, positionSum, lowAt, hlow, hlen, Nat.mod_one, eqAt_nil_zero, Algebra.smul_def]

/-- How the low equality value of an address is read. -/
def LowTable (lowChallenges : List F) (eqLowTable : Option (List F)) : Prop :=
  ∀ table, eqLowTable = some table → table = bitTable (eqFactors lowChallenges)

variable {eqLowTable : Option (List F)}

variable {s s' : List A}

theorem denseLowDigit_ok (hQ : I.lowLen = 2 ^ lowChallenges.length) (htable : LowTable lowChallenges eqLowTable)
    {lowDelta digit : ℕ} {lowFactor : A} {digitWeight : F}
    (h : I.denseLowDigit lowChallenges eqLowTable addressLow lowDelta lowFactor s digitWeight digit = .ok s') :
    s'.length = s.length ∧ ∀ g, slotSum s' g = slotSum s g +
      (digitWeight * eqAt lowChallenges ((addressLow + lowDelta + I.digitStride * digit) % I.lowLen)) • lowFactor *
        g ((addressLow + lowDelta + I.digitStride * digit) / I.lowLen) := by
  unfold denseLowDigit at h
  simp only [result_ok, Option.bind_eq_some_iff, checked_some] at h
  obtain ⟨_, ⟨-, rfl⟩, _, ⟨_, ⟨-, rfl⟩, hbound, rfl⟩, eqLow, heq, hupdate⟩ := h
  set shifted := addressLow + lowDelta + I.digitStride * digit with hshifted
  have hindex : shifted &&& (I.lowLen - 1) = shifted % I.lowLen := by rw [hQ, and_pred_two_pow]
  have hlt : shifted % I.lowLen < 2 ^ lowChallenges.length := by
    rw [hQ]
    exact Nat.mod_lt _ (Nat.two_pow_pos _)
  have heqLow : eqLow = eqAt lowChallenges (shifted % I.lowLen) := by
    cases eqLowTable with
    | none =>
      have hsmall : shifted % I.lowLen < 2 ^ 64 := lt_of_le_of_lt (Nat.mod_le _ _) hbound
      have hok : eqEvalAtIndex lowChallenges (shifted % I.lowLen) = eqLow := by simpa [hindex] using heq
      rw [← hok, eqEvalAtIndex_eq _ hsmall]
    | some table =>
      rw [htable table rfl] at heq
      simp only [okOr_eq_ok, hindex] at heq
      rw [bitTable_getElem? (by simpa using hlt)] at heq
      exact (Option.some.inj heq).symm
  obtain ⟨hl, hsum⟩ := updateSlot_add (x := (digitWeight * eqLow) • lowFactor)
    (fun v v' hv => by rw [← Except.ok.inj hv, addScaled_eq]) hupdate
  refine ⟨hl, fun g => ?_⟩
  rw [hsum g, heqLow]

theorem denseLowSummaries_ok (hlow : I.lowWeights ≠ []) (hQ : I.lowLen = 2 ^ lowChallenges.length)
    (htable : LowTable lowChallenges eqLowTable)
    (h : I.denseLowSummaries (0 : A) lowChallenges eqLowTable addressLow lowStart lowEnd carryCount = .ok summaries) :
    I.IsSummary lowChallenges addressLow lowStart lowEnd carryCount summaries := by
  refine isSummary_of_positions (fun s low s' hstep => ?_) h
  simp only [result_ok, checked_some] at hstep
  obtain ⟨lowFactor, hfactor, _, ⟨-, rfl⟩, hdigs⟩ := hstep
  have hlowAt : I.lowAt low = lowFactor := by simp [lowAt, hlow, getD_eq_getElem?_getD, hfactor]
  set start := addressLow + I.outerStride * (low - lowStart)
  have hrule : ∀ g : ℕ → A, s'.length = s.length ∧ slotSum s' g = slotSum s g + (I.digitWeights.zipIdx.map fun p =>
      (p.1 * eqAt lowChallenges ((start + I.digitStride * p.2) % I.lowLen)) • lowFactor *
        g ((start + I.digitStride * p.2) / I.lowLen)).sum := by
    intro g
    refine foldlM_measure (P := fun t : List A => t.length = s.length) (μ := fun t => slotSum t g) ?_ rfl hdigs
    intro t p t' _ ht hdigit
    obtain ⟨hl, hsum⟩ := denseLowDigit_ok hQ htable hdigit
    exact ⟨hl.trans ht, hsum g⟩
  refine ⟨(hrule 0).1, fun g => ?_⟩
  rw [(hrule g).2, positionSum, hlowAt, sum_map_zipIdx _ 0 fun w d =>
    (w * eqAt lowChallenges ((start + I.digitStride * d) % I.lowLen)) • lowFactor *
      g ((start + I.digitStride * d) / I.lowLen)]

/-! ### Geometric summaries -/

section

variable {r : F}

theorem powersOf_getD (n : ℕ) : ∀ k < n, (powersOf r n).getD k 0 = r ^ k := by
  induction n with
  | zero => intro k hk; omega
  | succ n ih =>
    intro k hk
    cases k with
    | zero => simp [powersOf]
    | succ k =>
      have hlt : k < n := by omega
      have hprev := ih k hlt
      have hlen : ∀ m, (powersOf r m).length = m := by
        intro m
        induction m with
        | zero => rfl
        | succ m ihm => simp [powersOf, ihm]
      rw [getD_eq_getElem?_getD] at hprev ⊢
      have hk' : k < (powersOf r n).length := by rw [hlen]; exact hlt
      rw [getElem?_eq_getElem hk', Option.getD_some] at hprev
      simp [powersOf, getElem?_eq_getElem hk', hprev, pow_succ]

theorem geometricPrefix_getD (rpow eqLow : List F) (n : ℕ) : (geometricPrefix rpow eqLow n).length = n + 1 ∧ ∀ t ≤ n,
      (geometricPrefix rpow eqLow n).getD t 0 = ∑ u ∈ range t, rpow.getD u 0 * eqLow.getD u 0 := by
  induction n with
  | zero =>
    refine ⟨rfl, fun t ht => ?_⟩
    have h0 : t = 0 := by omega
    subst h0
    rfl
  | succ n ih =>
    obtain ⟨hlen, hget⟩ := ih
    have hstep : geometricPrefix rpow eqLow (n + 1) = geometricPrefix rpow eqLow n ++
        [(geometricPrefix rpow eqLow n).getD n 0 + rpow.getD n 0 * eqLow.getD n 0] := by
      unfold geometricPrefix
      rw [range_succ, foldl_append]
      rfl
    rw [hstep]
    refine ⟨by simp [hlen], fun t ht => ?_⟩
    by_cases hlast : t = n + 1
    · subst hlast
      rw [sum_range_succ, ← hget n le_rfl, getD_eq_getElem?_getD (l := _ ++ _), getElem?_append_right (by omega), hlen]
      simp
    · rw [getD_eq_getElem?_getD, getElem?_append_left (by omega), ← getD_eq_getElem?_getD, hget t (by omega)]

theorem geometric_of_all [DecidableEq F] {digits : List F} {n : ℕ} (hle : digits.length ≤ n)
    (h : (digits.zipIdx.all fun p => p.1 = digits.getD 0 0 * (powersOf r (n + 1)).getD p.2 0) = true) :
    ∀ d < digits.length, digits.getD d 0 = digits.getD 0 0 * r ^ d := by
  intro d hd
  have hmem : (digits.getD d 0, d) ∈ digits.zipIdx := by
    simp [mem_zipIdx_iff_getElem?, getD_eq_getElem?_getD, getElem?_eq_getElem hd]
  have hthis := all_eq_true.1 h _ hmem
  rw [powersOf_getD _ d (by omega)] at hthis
  exact of_decide_eq_true hthis

end

theorem geometricLow_ok (hlow : I.lowWeights ≠ []) (hQ : I.lowLen = 2 ^ lowChallenges.length) (hstride : I.digitStride = 1)
    {d0 r : F} (hr : r ≠ 0) (hdelta : I.digitWeights.length ≤ I.lowLen)
    (hdigit : ∀ d < I.digitWeights.length, I.digitWeights.getD d 0 = d0 * r ^ d) {low : ℕ}
    (h : I.geometricLow d0 (powersOf r (I.lowLen + 1)) (powersOf r⁻¹ I.lowLen)
      (geometricPrefix (powersOf r (I.lowLen + 1)) (bitTable (eqFactors lowChallenges)) I.lowLen) addressLow lowStart s low =
      .ok s') : s'.length = s.length ∧ ∀ g, slotSum s' g = slotSum s g +
      I.positionSum lowChallenges (addressLow + I.outerStride * (low - lowStart)) low g := by
  unfold geometricLow at h
  simp only [result_ok, checked_some] at h
  obtain ⟨lowFactor, hfactor, _, ⟨-, rfl⟩, _, ⟨-, rfl⟩, middle, hfirst, hsecond⟩ := h
  have hlowAt : I.lowAt low = lowFactor := by simp [lowAt, hlow, getD_eq_getElem?_getD, hfactor]
  set start := addressLow + I.outerStride * (low - lowStart) with hstart
  have hpos := I.lowLen_pos
  have hmask : start &&& (I.lowLen - 1) = start % I.lowLen := by rw [hQ, and_pred_two_pow]
  have hmod : start % I.lowLen < I.lowLen := Nat.mod_lt _ hpos
  rw [hmask] at hfirst hsecond
  -- the tables hold powers and prefix sums
  have hpre : ∀ t ≤ I.lowLen, (geometricPrefix (powersOf r (I.lowLen + 1)) (bitTable (eqFactors lowChallenges))
      I.lowLen).getD t 0 = ∑ u ∈ range t, r ^ u * eqAt lowChallenges u := by
    intro t ht
    rw [(geometricPrefix_getD _ _ _).2 t ht]
    apply sum_congr rfl
    intro u hu
    have hu : u < t := by simpa using hu
    rw [powersOf_getD _ u (by omega), bitTable_getD]
    rfl
  rw [hpre _ (by omega), hpre _ (by omega), powersOf_getD _ _ hmod] at hfirst
  obtain ⟨hlen1, hsum1⟩ := updateSlot_add (fun v v' hv => by rw [← Except.ok.inj hv, addScaled_eq]) hfirst
  have hwindow : ∀ g : ℕ → A, I.positionSum lowChallenges start low g =
      ∑ d ∈ range I.digitWeights.length, (d0 * r ^ d * eqAt lowChallenges ((start + d) % I.lowLen)) •
        (lowFactor * g ((start + d) / I.lowLen)) := by
    intro g
    apply sum_congr rfl
    intro d hd
    rw [hdigit d (by simpa using hd), hstride, one_mul, hlowAt, smul_mul_assoc]
  by_cases hwrap : min I.digitWeights.length (I.lowLen - start % I.lowLen) < I.digitWeights.length
  · rw [if_pos hwrap] at hsecond
    simp only [result_ok, checked_some] at hsecond
    obtain ⟨_, ⟨-, rfl⟩, hsecond⟩ := hsecond
    rw [hpre _ (by omega), powersOf_getD _ _ (by omega)] at hsecond
    obtain ⟨hlen2, hsum2⟩ := updateSlot_add (fun v v' hv => by rw [← Except.ok.inj hv, addScaled_eq]) hsecond
    refine ⟨hlen2.trans hlen1, fun g => ?_⟩
    rw [hsum2, hsum1, hwindow, geometric_window_wrap hpos hdelta hr d0 (eqAt lowChallenges) fun c => lowFactor * g c,
      smul_mul_assoc, smul_mul_assoc, add_assoc]
  · rw [if_neg hwrap] at hsecond
    simp only [pure_eq_ok] at hsecond
    subst hsecond
    have hnone : I.digitWeights.length - min I.digitWeights.length (I.lowLen - start % I.lowLen) = 0 := by omega
    refine ⟨hlen1, fun g => ?_⟩
    rw [hsum1, hwindow, geometric_window_wrap hpos hdelta hr d0 (eqAt lowChallenges) fun c => lowFactor * g c, hnone,
      smul_mul_assoc]
    simp

variable [DecidableEq F]

theorem buildGeometricLowSummaries_ok (hlow : I.lowWeights ≠ []) (hQ : I.lowLen = 2 ^ lowChallenges.length)
    (hstride : I.digitStride = 1)
    (h : I.buildGeometricLowSummaries (0 : A) (bitTable (eqFactors lowChallenges)) addressLow lowStart lowEnd carryCount =
      .ok (some summaries)) : I.IsSummary lowChallenges addressLow lowStart lowEnd carryCount summaries := by
  unfold buildGeometricLowSummaries at h
  simp only at h
  split at h
  · simp [pure, Except.pure] at h
  rename_i hguard
  split at h
  · simp [pure, Except.pure] at h
  split at h
  · simp [pure, Except.pure] at h
  rename_i r hratio
  split at h
  · simp [pure, Except.pure] at h
  rename_i hgeo
  split at h
  · simp [pure, Except.pure] at h
  rename_i rInv hinv
  obtain ⟨hr, hall⟩ : r ≠ 0 ∧ _ := not_or.1 hgeo
  have hrInv : rInv = r⁻¹ := by simpa [inverse, hr, eq_comm] using hinv
  have hdelta : I.digitWeights.length ≤ I.lowLen := by
    simp only [not_or, not_lt] at hguard
    exact hguard.2.1
  have hdigit := geometric_of_all hdelta (not_not.1 hall)
  subst hrInv
  simp only [result_ok] at h
  obtain ⟨t, hloop, ht⟩ := h
  cases ht
  exact isSummary_of_positions (fun s low s' => geometricLow_ok hlow hQ hstride hr hdelta hdigit) hloop

/-! ### The choice -/

/-- **Whichever construction runs, its result is the summary of the low positions.** -/
theorem buildAffineLowSummaries_ok (hQ : I.lowLen = 2 ^ lowChallenges.length) (htable : LowTable lowChallenges eqLowTable)
    {template : A}
    (h : I.buildAffineLowSummaries template lowChallenges eqLowTable addressLow lowStart lowEnd carryCount =
      .ok summaries) : I.IsSummary lowChallenges addressLow lowStart lowEnd carryCount summaries := by
  unfold buildAffineLowSummaries at h
  simp only [zeroLike_eq] at h
  split at h
  · rename_i hlow
    simp only [result_ok, not_or, not_not] at h
    obtain ⟨⟨-, rfl, rfl, rfl, rfl⟩, h⟩ := h
    exact identityLowSummaries_ok hlow h
  · rename_i hlow
    simp only [bind_eq_ok] at h
    obtain ⟨geometric, hgeo, h⟩ := h
    cases geometric with
    | none => exact denseLowSummaries_ok hlow hQ htable h
    | some found =>
      have hfound : found = summaries := by simpa [pure, Except.pure] using h
      subst hfound
      cases eqLowTable with
      | none => simp at hgeo
      | some table =>
        simp only at hgeo
        split at hgeo
        · rename_i hstride
          rw [htable table rfl] at hgeo
          exact buildGeometricLowSummaries_ok hlow hQ hstride hgeo
        · simp at hgeo

end AffineDigitIntervals

end Akita.OffsetEq
