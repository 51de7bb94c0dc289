import Akita.Lib.MixedRadix
import Akita.Lib.Loops
import Akita.Spec.Garner

/-!
# Garner reconstruction is exact

A Shoup step multiplies the difference of a residue and a prior digit by an inverse modulus, and
the digits it leaves are the centered mixed-radix digits of the residues.

* `euclid_ok`: the Euclidean loop ends at the greatest common divisor, inside `i128`.
* `garnerStep_ok`: the constants of two coprime moduli.
* `shoupStep_ok`: one Shoup step is exact, with every sum inside its type.
* `digitColumn_ok`: the digits of one column.
* `runs_grouping`: the runs of the constructor stay below `2^126`.
* `garner_exact`: the digits are congruent to the residues, represent every small integer, and its
  field image is read from them for every grouping.
-/

namespace Akita.Garner

open Lib Finset List

section

/-- The Bezout coefficients alternate in sign and stay below the modulus. -/
structure Euclid (value modulus : ℕ) (old new : ℤ × ℤ) : Prop where
  pos : 0 < old.1
  nonneg : 0 ≤ new.1
  lt : new.1 < old.1
  gcd : Int.gcd old.1 new.1 = Nat.gcd modulus value
  oldCongr : (modulus : ℤ) ∣ old.1 - old.2 * value
  newCongr : (modulus : ℤ) ∣ new.1 - new.2 * value
  sign : ∃ s A B : ℤ, (s = 1 ∨ s = -1) ∧ 0 ≤ A ∧ 1 ≤ B ∧ old.2 = -s * A ∧ new.2 = s * B ∧
    A * new.1 + B * old.1 = modulus

variable {value : ℕ}

/-- **One division** keeps the invariant, and no value exceeds the modulus. -/
theorem Euclid.next {modulus : ℕ} {old new : ℤ × ℤ} (h : Euclid value modulus old new) (h0 : new.1 ≠ 0) {q : ℤ}
    (hq : q = old.1 / new.1) : Euclid value modulus new (old.1 - q * new.1, old.2 - q * new.2) ∧
      |q * new.1| ≤ modulus ∧ |old.1 - q * new.1| ≤ modulus ∧ |q * new.2| ≤ modulus ∧ |old.2 - q * new.2| ≤ modulus := by
  obtain ⟨s, A, B, hs, hA, hB, holdc, hnewc, hsum⟩ := h.sign
  have hpos := h.pos
  have hnew : 0 < new.1 := lt_of_le_of_ne h.nonneg (Ne.symm h0)
  have hdiv := Int.emod_add_mul_ediv old.1 new.1
  have hrem := Int.emod_nonneg old.1 h0
  have hremlt := Int.emod_lt_of_pos old.1 hnew
  have hq1 : 1 ≤ q := by
    rw [hq]
    exact (Int.le_ediv_iff_mul_le hnew).2 (by have := h.lt; omega)
  rw [← hq] at hdiv
  generalize old.1 % new.1 = r at *
  have hprod : q * new.1 = old.1 - r := by linarith
  have hlt := h.lt
  -- the next coefficient has the other sign and size `A + q B`
  have hnext : (A + q * B) * new.1 + B * r = modulus := by rw [← hsum, ← hdiv]; ring
  have hqB : 0 ≤ q * B := mul_nonneg (by omega) (by omega)
  have hBr : 0 ≤ B * r := mul_nonneg (by omega) hrem
  have hBq : B ≤ q * B := le_mul_of_one_le_left (by omega) hq1
  have hsize : A + q * B ≤ modulus := by
    have : A + q * B ≤ (A + q * B) * new.1 := le_mul_of_one_le_right (by omega) hnew
    omega
  have hold : old.1 ≤ modulus := by
    have hmul : old.1 ≤ B * old.1 := le_mul_of_one_le_left hpos.le hB
    have : 0 ≤ A * new.1 := mul_nonneg hA hnew.le
    omega
  have hcoef : q * new.2 = s * (q * B) := by rw [hnewc]; ring
  have hnewcoef : old.2 - q * new.2 = -s * (A + q * B) := by rw [hcoef, holdc]; ring
  have hsigned : ∀ v : ℤ, 0 ≤ v → v ≤ modulus → |s * v| ≤ modulus ∧ |-s * v| ≤ modulus := by
    intro v h1 h2
    have hv : |v| ≤ modulus := by rwa [abs_of_nonneg h1]
    rcases hs with rfl | rfl <;> simpa using hv
  refine ⟨⟨hnew, ?_, ?_, ?_, h.newCongr, ?_, -s, B, A + q * B, ?_, by omega, by omega, ?_, hnewcoef, ?_⟩,
    abs_le.2 ⟨by omega, by omega⟩, abs_le.2 ⟨by omega, by omega⟩, ?_, ?_⟩
  · dsimp only; omega
  · dsimp only; omega
  · dsimp only
    rw [← h.gcd, Int.gcd_comm old.1, show old.1 - q * new.1 = old.1 + new.1 * -q by ring, Int.gcd_add_mul_left_right]
  · dsimp only
    rw [show old.1 - q * new.1 - (old.2 - q * new.2) * value = (old.1 - old.2 * value) - q * (new.1 - new.2 * value) by ring]
    exact dvd_sub h.oldCongr (h.newCongr.mul_left q)
  · omega
  · rw [hnewc]; ring
  · dsimp only
    rw [← hnext, hprod]; ring
  · rw [hcoef]
    exact (hsigned _ hqB (by omega)).1
  · rw [hnewcoef]
    exact (hsigned _ (by omega) hsize).2

/-- **The Euclidean loop ends at the greatest common divisor**, with every product inside `i128`. -/
theorem euclid_ok {modulus : ℕ} (hm : modulus < 2 ^ 127) {fuel : ℕ} {old new : ℤ × ℤ} (h : Euclid value modulus old new)
    (hfuel : new.1 < fuel) : ∃ last, euclid fuel old new = .ok last ∧ last.1 = Nat.gcd modulus value ∧
      (modulus : ℤ) ∣ last.1 - last.2 * value := by
  induction fuel generalizing old new with
  | zero =>
    have := h.nonneg
    omega
  | succ fuel ih =>
    rw [euclid]
    by_cases h0 : new.1 = 0
    · rw [if_pos h0]
      refine ⟨old, rfl, ?_, h.oldCongr⟩
      have hgcd := h.gcd
      rw [h0, Int.gcd_zero_right] at hgcd
      have hpos := h.pos
      omega
    · obtain ⟨hstep, h1, h2, h3, h4⟩ := h.next h0 rfl
      have hfit : ∀ v : ℤ, |v| ≤ modulus → checkedI128 v = some v := fun v hv =>
        checkedI128_eq_some.2 ⟨by have := abs_le.1 hv; omega, rfl⟩
      rw [if_neg h0, Int.tdiv_eq_ediv_of_nonneg h.pos.le]
      simp only [hfit _ h1, hfit _ h2, hfit _ h3, hfit _ h4, Option.bind_eq_bind, Option.bind_some, okOr, ok_bind]
      refine ih hstep ?_
      have := hstep.lt
      omega

theorem modularInverse_ok {modulus : ℕ} (hm : modulus < 2 ^ 127) (hlt : value < modulus)
    (hcop : modulus.Coprime value) : ∃ inverse, modularInverse value modulus = .ok inverse ∧ inverse < modulus ∧
      (inverse * value : ℤ) ≡ 1 [ZMOD modulus] := by
  have hpos : (0 : ℤ) < modulus := by omega
  have hstart : Euclid value modulus (modulus, 0) (value, 1) :=
    ⟨hpos, by simp, by simpa using hlt, by simp, by simp, by simp, 1, 0, 1, by simp, by simp, by simp, by simp, by simp, by simp⟩
  obtain ⟨last, hlast, hgcd, hcongr⟩ := @euclid_ok value modulus hm (value + 1) _ _ hstart (by push_cast; omega)
  rw [hcop.gcd_eq_one] at hgcd
  have hmod := Int.emod_nonneg last.2 hpos.ne'
  have hmodlt := Int.emod_lt_of_pos last.2 hpos
  refine ⟨(last.2 % modulus).toNat, ?_, by omega, ?_⟩
  · unfold modularInverse
    rw [hlast, ok_bind, ensure, if_pos (by exact_mod_cast hgcd)]
    rfl
  · rw [Int.toNat_of_nonneg hmod]
    calc last.2 % modulus * value ≡ last.2 * value [ZMOD modulus] := (Int.mod_modEq _ _).mul_right _
      _ ≡ last.1 [ZMOD modulus] := Int.modEq_iff_dvd.2 hcongr
      _ = 1 := by exact_mod_cast hgcd

end

section

/-- The constants of limb modulus `p` against a prior modulus `m`. -/
structure StepOk (p m : ℕ) (step : GarnerStep) : Prop where
  gamma_lt : step.gamma < p
  inverse : (step.gamma * m : ℤ) ≡ 1 [ZMOD p]
  shoup : step.gammaShoup = 2 ^ 64 * step.gamma / p
  lift_ge : m / 2 ≤ step.lift
  lift_lt : step.lift < m / 2 + p
  lift_dvd : p ∣ step.lift

theorem garnerStep_ok {p m : ℕ} (hp : 2 ≤ p) (hp' : p < 2 ^ 62) (hm : m < 2 ^ 62) (hcop : p.Coprime m) :
    ∃ step, garnerStep p m = .ok step ∧ StepOk p m step := by
  have hpos : 0 < p := by omega
  have hcop' : p.Coprime (m % p) := by
    have := hcop.gcd_eq_one
    rw [Nat.gcd_rec, Nat.gcd_comm] at this
    exact this
  obtain ⟨gamma, hgamma, hlt, hinv⟩ := modularInverse_ok (show p < 2 ^ 127 by omega) (Nat.mod_lt m hpos) hcop'
  have hceil := Nat.div_add_mod (m / 2 + p - 1) p
  have hmod := Nat.mod_lt (m / 2 + p - 1) hpos
  rw [mul_comm p] at hceil
  have hlift : (m / 2 + p - 1) / p * p < 2 ^ 64 := by omega
  refine ⟨⟨gamma, wrapping 64 (2 ^ 64 * gamma / p), (m / 2 + p - 1) / p * p⟩, ?_, hlt, ?_, ?_, ?_, ?_, dvd_mul_left _ _⟩
  · unfold garnerStep
    rw [hgamma, ok_bind, checkedMul, if_pos hlift]
    rfl
  · calc (gamma * m : ℤ) ≡ gamma * (m % p : ℕ) [ZMOD p] := by
          exact (Int.mod_modEq (m : ℤ) p).symm.mul_left _
      _ ≡ 1 [ZMOD p] := hinv
  · refine wrapping_of_lt ?_
    rw [Nat.div_lt_iff_lt_mul hpos]
    exact Nat.mul_lt_mul_of_pos_left hlt (by positivity)
  · dsimp only; omega
  · dsimp only; omega

/-- **The Shoup quotient is off by at most one.** -/
theorem shoup_remainder {p x : ℕ} (gamma : ℕ) (hp : 0 < p) (hx : x < 2 ^ 64) :
    x * (2 ^ 64 * gamma / p) / 2 ^ 64 * p ≤ x * gamma ∧ x * gamma < x * (2 ^ 64 * gamma / p) / 2 ^ 64 * p + 2 * p := by
  have hs := Nat.div_add_mod (2 ^ 64 * gamma) p
  have he := Nat.mod_lt (2 ^ 64 * gamma) hp
  generalize 2 ^ 64 * gamma / p = s at *
  generalize 2 ^ 64 * gamma % p = e at *
  have hq := Nat.div_add_mod (x * s) (2 ^ 64)
  have hf := Nat.mod_lt (x * s) (show 0 < 2 ^ 64 by norm_num)
  generalize x * s / 2 ^ 64 = q at *
  generalize x * s % 2 ^ 64 = f at *
  -- both roundings, scaled by `2^64`
  have hscaled : 2 ^ 64 * (x * gamma) = 2 ^ 64 * (q * p) + (f * p + x * e) := by
    calc 2 ^ 64 * (x * gamma) = x * (2 ^ 64 * gamma) := by ring
      _ = x * s * p + x * e := by rw [← hs]; ring
      _ = 2 ^ 64 * (q * p) + (f * p + x * e) := by rw [← hq]; ring
  have hfp : f * p < 2 ^ 64 * p := Nat.mul_lt_mul_of_pos_right hf hp
  have hxe : x * e ≤ 2 ^ 64 * p := Nat.mul_le_mul hx.le he.le
  omega

/-- **One Shoup step is exact**, and its sums stay inside their types. -/
theorem shoupStep_ok {p m : ℕ} {step : GarnerStep} (h : StepOk p m step) (hp' : p < 2 ^ 62) (hm : m < 2 ^ 62) {value prior : ℤ}
    (hvalue : 0 ≤ value) (hlt : value < p) (hprior : |prior| ≤ (m / 2 : ℕ)) :
    ∃ next, shoupStep p step value prior = .ok next ∧ 0 ≤ next ∧ next < p ∧
      next ≡ (value - prior) * step.gamma [ZMOD p] := by
  have hpos : 0 < p := by omega
  have hprior := abs_le.1 hprior
  have hge := h.lift_ge
  have hlift := h.lift_lt
  obtain ⟨v, rfl⟩ := Int.eq_ofNat_of_zero_le hvalue
  have hword : ((v : ℤ) % 2 ^ 64).toNat = v := by
    rw [Int.emod_eq_of_lt (by omega) (by omega)]; simp
  obtain ⟨x, hx⟩ := Int.eq_ofNat_of_zero_le (show 0 ≤ (v : ℤ) + step.lift - prior by omega)
  have hx64 : x < 2 ^ 64 := by omega
  have hshift : (((v + step.lift : ℕ) : ℤ) + -prior) % 2 ^ 64 = x := by
    rw [show ((v + step.lift : ℕ) : ℤ) + -prior = x by push_cast; omega]
    exact Int.emod_eq_of_lt (by omega) (by exact_mod_cast hx64)
  obtain ⟨hlow, hhigh⟩ := shoup_remainder step.gamma hpos hx64
  have hquot : x * (2 ^ 64 * step.gamma / p) / 2 ^ 64 < 2 ^ 64 := by
    rw [Nat.div_lt_iff_lt_mul (by positivity), ← h.shoup]
    have hshoup : step.gammaShoup < 2 ^ 64 := by
      rw [h.shoup, Nat.div_lt_iff_lt_mul hpos]
      exact Nat.mul_lt_mul_of_pos_left h.gamma_lt (by positivity)
    exact Nat.mul_lt_mul'' hx64 hshoup
  generalize hq : x * (2 ^ 64 * step.gamma / p) / 2 ^ 64 = q at *
  have hdigit : (((wrapping 64 (x * step.gamma) : ℕ) : ℤ) - (wrapping 64 (q * p) : ℕ)) % 2 ^ 64 =
      ((x * step.gamma - q * p : ℕ) : ℤ) := by
    unfold wrapping
    push_cast
    rw [← Int.sub_emod, Nat.cast_sub hlow]
    refine Int.emod_eq_of_lt ?_ ?_
    · have : (q : ℤ) * p ≤ x * step.gamma := by exact_mod_cast hlow
      omega
    · have : (x : ℤ) * step.gamma < q * p + 2 * p := by exact_mod_cast hhigh
      omega
  refine ⟨((x * step.gamma - q * p : ℕ) : ℤ) - if x * step.gamma - q * p ≥ p then p else 0, ?_, ?_, ?_, ?_⟩
  · unfold shoupStep
    rw [hword, checkedAdd, if_pos (by omega)]
    simp only [okOr, ok_bind, checkedI64_eq_some.2 ⟨(by omega : -2 ^ 63 ≤ -prior ∧ -prior < 2 ^ 63), rfl⟩]
    rw [hshift, Int.toNat_natCast, h.shoup, hq, wrapping_of_lt hquot, hdigit, Int.toNat_natCast]
    rfl
  · split <;> omega
  · split <;> omega
  · have hsub : ((x * step.gamma - q * p : ℕ) : ℤ) ≡ (v - prior) * step.gamma [ZMOD p] := by
      obtain ⟨t, ht⟩ := h.lift_dvd
      rw [Nat.cast_sub hlow]
      refine Int.modEq_iff_dvd.2 ⟨q - t * step.gamma, ?_⟩
      have hx' : (x : ℤ) = v + p * t - prior := by rw [← hx, ht]; push_cast; ring
      push_cast
      rw [hx']
      ring
    refine Int.ModEq.trans (Int.modEq_iff_dvd.2 ?_) hsub
    split
    · exact ⟨1, by ring⟩
    · exact ⟨0, by ring⟩

end

section columns

variable {p i index D : ℕ} {garner : GarnerData} {prior residues : List (List ℤ)} {column : List ℤ}

theorem makeNonnegative_ok (hp' : p < 2 ^ 62) {r : ℤ} (hr : |r| < p) :
    ∃ v, makeNonnegative p r = .ok v ∧ 0 ≤ v ∧ v < p ∧ v ≡ r [ZMOD p] := by
  have hr := abs_lt.1 hr
  refine ⟨r + if r < 0 then (p : ℤ) else 0, ?_, ?_, ?_, ?_⟩
  · unfold makeNonnegative
    rw [checkedI64_eq_some.2 ⟨(by split <;> omega), rfl⟩]
    rfl
  · split <;> omega
  · split <;> omega
  · split
    · exact Int.modEq_iff_dvd.2 ⟨-1, by ring⟩
    · rw [add_zero]

theorem center_ok (hp' : p < 2 ^ 62) {v : ℤ} (hv : 0 ≤ v) (hlt : v < p) :
    ∃ d, center p v = .ok d ∧ |d| ≤ (p / 2 : ℕ) ∧ d ≡ v [ZMOD p] := by
  refine ⟨v - if v > (p / 2 : ℕ) then (p : ℤ) else 0, ?_, ?_, ?_⟩
  · unfold center
    rw [checkedI64_eq_some.2 ⟨(by split <;> omega), rfl⟩]
    rfl
  · rw [abs_le]
    split <;> omega
  · split
    · exact Int.modEq_iff_dvd.2 ⟨1, by ring⟩
    · rw [sub_zero]

/-- The modulus of limb `i`. -/
def GarnerData.modulus (garner : GarnerData) (i : ℕ) : ℕ := garner.moduli.getD i 0

/-- Constants of coprime moduli. -/
structure DataOk (garner : GarnerData) : Prop where
  ge_two : ∀ i < garner.moduli.length, 2 ≤ garner.modulus i
  lt : ∀ i < garner.moduli.length, garner.modulus i < 2 ^ 62
  step : ∀ i < garner.moduli.length, ∀ j < i, StepOk (garner.modulus i) (garner.modulus j)
    ((garner.steps.getD i []).getD j default)

theorem getD_zip {α β : Type*} {l : List α} {l' : List β} {a : α} {b : β} (h : i < l.length) (h' : i < l'.length) :
    (l.zip l').getD i (a, b) = (l.getD i a, l'.getD i b) := by
  rw [getD_eq_getElem _ _ h, getD_eq_getElem _ _ h', getD_eq_getElem _ _ (by rw [length_zip]; omega), getElem_zip]

/-- Entry `c` of column `k`. -/
def entry (limbs : List (List ℤ)) (c k : ℕ) : ℤ := (limbs.getD k []).getD c 0

/-- The prior columns: one digit for each residue of the column. -/
structure PriorOk (garner : GarnerData) (index : ℕ) (prior : List (List ℤ)) (column : List ℤ) : Prop where
  lt : index < garner.moduli.length
  length_eq : prior.length = index
  rows : ∀ k < index, (prior.getD k []).length = column.length
  digits : ∀ k < index, ∀ c < column.length, |entry prior c k| ≤ (garner.modulus k / 2 : ℕ)

/-- After `m` prior columns every value completes their digits to the residue. -/
def Completes (garner : GarnerData) (index : ℕ) (prior : List (List ℤ)) (column : List ℤ) (m : ℕ) (values : List ℤ) : Prop :=
  values.length = column.length ∧ ∀ c < column.length, (0 ≤ values.getD c 0 ∧ values.getD c 0 < garner.modulus index) ∧
    radixValue garner.modulus (entry prior c) m + values.getD c 0 * radixWeight garner.modulus m ≡
      column.getD c 0 [ZMOD garner.modulus index]

theorem Completes.next (h : DataOk garner) {values : List ℤ} (hprior : PriorOk garner index prior column) {m : ℕ}
    (hm : m < index) (hvalues : Completes garner index prior column m values) :
    ∃ next, ((values.zip (prior.getD m [])).mapM fun e =>
        shoupStep (garner.modulus index) ((garner.steps.getD index []).getD m default) e.1 e.2) = .ok next ∧
      Completes garner index prior column (m + 1) next := by
  obtain ⟨hlen, hvalues⟩ := hvalues
  have hrow := hprior.rows m hm
  have hstep := h.step index hprior.lt m hm
  have hinv := hstep.inverse
  have hziplen : (values.zip (prior.getD m [])).length = column.length := by
    rw [length_zip, hlen, hrow, Nat.min_self]
  obtain ⟨next, hnext, hnextLen, hnextVal⟩ := @mapM_runs _ _ _ (fun e : ℤ × ℤ =>
      shoupStep (garner.modulus index) ((garner.steps.getD index []).getD m default) e.1 e.2)
    (fun c v => 0 ≤ v ∧ v < garner.modulus index ∧ v ≡ (values.getD c 0 - entry prior c m) *
      ((garner.steps.getD index []).getD m default).gamma [ZMOD garner.modulus index]) (values.zip (prior.getD m [])) (0, 0) 0 (by
      intro c hc
      rw [hziplen] at hc
      rw [getD_zip (by omega) (by omega)]
      exact shoupStep_ok hstep (h.lt index hprior.lt) (h.lt m (hm.trans hprior.lt)) (hvalues c hc).1.1 (hvalues c hc).1.2
        (hprior.digits m hm c hc))
  refine ⟨next, hnext, by omega, fun c hc => ?_⟩
  obtain ⟨h1, h2, h3⟩ := hnextVal c (by omega)
  refine ⟨⟨h1, h2⟩, ?_⟩
  rw [radixValue_succ, radixWeight_succ]
  generalize radixWeight garner.modulus m = w at *
  generalize ((garner.steps.getD index []).getD m default).gamma = gamma at *
  calc radixValue garner.modulus (entry prior c) m + entry prior c m * w + next.getD c 0 * (w * garner.modulus m)
      ≡ radixValue garner.modulus (entry prior c) m + entry prior c m * w +
          (values.getD c 0 - entry prior c m) * gamma * (w * garner.modulus m) [ZMOD garner.modulus index] :=
        (h3.mul_right _).add_left _
    _ = radixValue garner.modulus (entry prior c) m + entry prior c m * w +
          (values.getD c 0 - entry prior c m) * w * (gamma * garner.modulus m) := by ring
    _ ≡ radixValue garner.modulus (entry prior c) m + entry prior c m * w +
          (values.getD c 0 - entry prior c m) * w * 1 [ZMOD garner.modulus index] := (hinv.mul_left _).add_left _
    _ = radixValue garner.modulus (entry prior c) m + values.getD c 0 * w := by ring
    _ ≡ column.getD c 0 [ZMOD garner.modulus index] := (hvalues c hc).2

/-- **The digits of one column**, from its residues and the columns before it. -/
theorem digitColumn_ok (h : DataOk garner) (hprior : PriorOk garner index prior column)
    (hcolumn : ∀ c < column.length, |column.getD c 0| < garner.modulus index) :
    ∃ out, digitColumn garner index prior column = .ok out ∧ out.length = column.length ∧ ∀ c < column.length,
      |out.getD c 0| ≤ (garner.modulus index / 2 : ℕ) ∧
        radixValue garner.modulus (entry prior c) index + out.getD c 0 * radixWeight garner.modulus index ≡
          column.getD c 0 [ZMOD garner.modulus index] := by
  have hlt := h.lt index hprior.lt
  obtain ⟨start, hstart, hstartLen, hstartVal⟩ := @mapM_runs _ _ _ (makeNonnegative (garner.modulus index))
    (fun c v => 0 ≤ v ∧ v < garner.modulus index ∧ v ≡ column.getD c 0 [ZMOD garner.modulus index]) column 0 0
    fun c hc => makeNonnegative_ok hlt (hcolumn c hc)
  have hzero : Completes garner index prior column 0 start := by
    refine ⟨hstartLen, fun c hc => ?_⟩
    obtain ⟨h1, h2, h3⟩ := hstartVal c hc
    exact ⟨⟨h1, h2⟩, by simpa using h3⟩
  obtain ⟨values, hvalues, hlen, hval⟩ := @foldlM_zipIdx_runs _ _ _ (fun values entry =>
      (values.zip entry.1).mapM fun e =>
        shoupStep (garner.modulus index) ((garner.steps.getD index []).getD entry.2 default) e.1 e.2)
    (Completes garner index prior column) prior [] (fun m hm values hvalues =>
      hvalues.next h hprior (hprior.length_eq ▸ hm)) _ hzero
  obtain ⟨out, hout, houtLen, houtVal⟩ := @mapM_runs _ _ _ (center (garner.modulus index))
    (fun c d => |d| ≤ (garner.modulus index / 2 : ℕ) ∧ d ≡ values.getD c 0 [ZMOD garner.modulus index]) values 0 0
    fun c hc => center_ok hlt (hval c (by omega)).1.1 (hval c (by omega)).1.2
  refine ⟨out, ?_, by omega, fun c hc => ⟨(houtVal c (by omega)).1, ?_⟩⟩
  · unfold digitColumn
    dsimp only
    rw [← GarnerData.modulus, hstart, ok_bind, hvalues, ok_bind, hout]
  · have := (hval c hc).2
    rw [hprior.length_eq] at this
    exact (((houtVal c (by omega)).2.mul_right _).add_left _).trans this

/-- The first `i` columns hold digits, the others still hold residues. -/
structure DigitsOk (garner : GarnerData) (residues : List (List ℤ)) (D i : ℕ) (limbs : List (List ℤ)) : Prop where
  length_eq : limbs.length = garner.moduli.length
  rows : ∀ k < garner.moduli.length, (limbs.getD k []).length = D
  rest : ∀ k, i ≤ k → limbs.getD k [] = residues.getD k []
  digits : ∀ k < i, ∀ c < D, |entry limbs c k| ≤ (garner.modulus k / 2 : ℕ)
  congr : ∀ k < i, ∀ c < D, radixValue garner.modulus (entry limbs c) (k + 1) ≡ entry residues c k [ZMOD garner.modulus k]

theorem DigitsOk.next (h : DataOk garner) {limbs : List (List ℤ)} (hi : i < garner.moduli.length)
    (hres : ∀ c < D, |entry residues c i| < garner.modulus i) (hlimbs : DigitsOk garner residues D i limbs) :
    ∃ column, digitColumn garner i (limbs.take i) (limbs.getD i []) = .ok column ∧
      DigitsOk garner residues D (i + 1) (limbs.set i column) := by
  have hlen := hlimbs.length_eq
  have hrow := hlimbs.rows i hi
  have htake : ∀ k < i, (limbs.take i).getD k [] = limbs.getD k [] := fun k hk => by
    simp [getD_eq_getElem?_getD, hk]
  have hentry : ∀ k < i, ∀ c, entry (limbs.take i) c k = entry limbs c k := fun k hk c => by
    unfold entry; rw [htake k hk]
  have hprior : PriorOk garner i (limbs.take i) (limbs.getD i []) := by
    refine ⟨hi, by rw [length_take]; omega, fun k hk => ?_, fun k hk c hc => ?_⟩
    · rw [htake k hk, hlimbs.rows k (by omega), hrow]
    · rw [hentry k hk]
      exact hlimbs.digits k hk c (by omega)
  obtain ⟨column, hcolumn, hcolLen, hcol⟩ := digitColumn_ok h hprior fun c hc => by
    rw [hlimbs.rest i le_rfl]
    exact hres c (by omega)
  rw [hrow] at hcolLen hcol
  have hset : ∀ k, (limbs.set i column).getD k [] = if k = i then column else limbs.getD k [] := by
    intro k
    rw [getD_eq_getElem?_getD, getElem?_set]
    by_cases hk : i = k
    · subst hk
      simp [hlen, hi]
    · simp [hk, Ne.symm hk]
  have hentry' : ∀ k c, entry (limbs.set i column) c k = if k = i then column.getD c 0 else entry limbs c k := by
    intro k c
    unfold entry
    rw [hset]
    split <;> rfl
  have hbelow : ∀ c n, n ≤ i → radixValue garner.modulus (entry (limbs.set i column) c) n =
      radixValue garner.modulus (entry limbs c) n := fun c n hn =>
    radixValue_congr (fun _ _ => rfl) fun k hk => by rw [hentry', if_neg (by omega)]
  refine ⟨column, hcolumn, by rw [length_set, hlen], fun k hk => ?_, fun k hk => ?_, fun k hk c hc => ?_, fun k hk c hc => ?_⟩
  · rw [hset]
    split
    · exact hcolLen
    · exact hlimbs.rows k hk
  · rw [hset, if_neg (by omega)]
    exact hlimbs.rest k (by omega)
  · rw [hentry']
    split
    · rename_i heq
      rw [heq]
      exact (hcol c hc).1
    · exact hlimbs.digits k (by omega) c hc
  · rcases lt_or_ge k i with hlt | hge
    · rw [hbelow c (k + 1) hlt]
      exact hlimbs.congr k hlt c hc
    · obtain rfl : k = i := by omega
      have hval := (hcol c hc).2
      rw [radixValue_congr (fun _ _ => rfl) fun j hj => hentry j hj c, hlimbs.rest k le_rfl] at hval
      rw [radixValue_succ, hbelow c k le_rfl, hentry', if_pos rfl]
      exact hval

/-- **All columns**, with every sum inside its type. -/
theorem centeredMixedRadix_ok (h : DataOk garner) (hlen : residues.length = garner.moduli.length)
    (hrows : ∀ k < garner.moduli.length, (residues.getD k []).length = D)
    (hres : ∀ k < garner.moduli.length, ∀ c < D, |entry residues c k| < garner.modulus k) :
    ∃ digits, garner.centeredMixedRadix residues = .ok digits ∧ DigitsOk garner residues D garner.moduli.length digits := by
  have hstart : DigitsOk garner residues D 0 residues :=
    ⟨hlen, hrows, fun _ _ => rfl, fun _ h => absurd h (Nat.not_lt_zero _), fun _ h => absurd h (Nat.not_lt_zero _)⟩
  refine foldlM_range_runs (fun i hi limbs hlimbs => ?_) hstart
  obtain ⟨column, hcolumn, hnext⟩ := hlimbs.next h hi (hres i hi)
  exact ⟨limbs.set i column, by rw [hcolumn]; rfl, hnext⟩

end columns

section

variable {F : Type} [CommRing F] {garner : GarnerData}

/-- The radices of a run from limb `start` on. -/
def GarnerData.run (garner : GarnerData) (start j : ℕ) : ℕ := garner.modulus (start + j)

/-- Every limb's run starts at or before it, and its moduli up to the limb stay below `2^126`. -/
structure Grouping (garner : GarnerData) : Prop where
  le : ∀ i < garner.moduli.length, garner.runStart.getD i 0 ≤ i
  product : ∀ i < garner.moduli.length,
    radixWeight (garner.run (garner.runStart.getD i 0)) (i + 1 - garner.runStart.getD i 0) < 2 ^ 126

/-- **A run is evaluated exactly in `i128`.** -/
theorem runValue_ok {digits : List ℤ} {len start : ℕ}
    (hdigit : ∀ k < start + len, 2 * |digits.getD k 0| < garner.modulus k)
    (hprod : radixWeight (garner.run start) len < 2 ^ 126) :
    runValue garner digits start len = .ok (radixValue (garner.run start) (fun j => digits.getD (start + j) 0) len) := by
  induction len generalizing start with
  | zero => rw [radixValue_zero]; rfl
  | succ len ih =>
    have hrun : (fun j => garner.run start (1 + j)) = garner.run (start + 1) := by
      funext j; unfold GarnerData.run; rw [add_assoc]
    have hshift : (fun j => digits.getD (start + (1 + j)) 0) = fun j => digits.getD (start + 1 + j) 0 := by
      funext j; rw [add_assoc]
    have hweight : radixWeight (garner.run start) (len + 1) = garner.modulus start * radixWeight (garner.run (start + 1)) len := by
      rw [add_comm len, radixWeight_add, radixWeight_succ, radixWeight_zero, hrun, one_mul]
      rfl
    have hvalue := radixValue_succ' (garner.run start) (fun j => digits.getD (start + j) 0) len
    rw [hrun, hshift] at hvalue
    have hhead : 2 * |digits.getD start 0| < garner.modulus start := hdigit start (by omega)
    have hpos : 0 < garner.modulus start := by have := abs_nonneg (digits.getD start 0); omega
    have hinner : radixWeight (garner.run (start + 1)) len < 2 ^ 126 := by
      refine lt_of_le_of_lt ?_ hprod
      rw [hweight]
      exact Nat.le_mul_of_pos_left _ hpos
    rw [runValue, ih (fun k hk => hdigit k (by omega)) hinner, ok_bind]
    -- the inner value times the modulus and the full value are both below half the product
    have habs := @two_mul_abs_radixValue_lt len (garner.run (start + 1)) (fun j => digits.getD (start + 1 + j) 0)
      fun k hk => hdigit (start + 1 + k) (by omega)
    have habs' := @two_mul_abs_radixValue_lt (len + 1) (garner.run start) (fun j => digits.getD (start + j) 0)
      fun k hk => hdigit (start + k) (by omega)
    have hprod' : ((radixWeight (garner.run start) (len + 1) : ℕ) : ℤ) < 2 ^ 126 := by exact_mod_cast hprod
    have hmul : 2 * |radixValue (garner.run (start + 1)) (fun j => digits.getD (start + 1 + j) 0) len * garner.modulus start| <
        2 ^ 126 := by
      rw [abs_mul, Nat.abs_cast, ← mul_assoc]
      refine lt_trans (mul_lt_mul_of_pos_right habs (by exact_mod_cast hpos)) ?_
      rw [hweight] at hprod'
      linarith
    have hmod : garner.run start 0 = garner.modulus start := rfl
    have hdigit0 : digits.getD (start + 0) 0 = digits.getD start 0 := rfl
    rw [hvalue, hmod, hdigit0] at habs' ⊢
    generalize radixValue (garner.run (start + 1)) (fun j => digits.getD (start + 1 + j) 0) len = v at *
    have hfirst := abs_lt.1 (show |v * garner.modulus start| < 2 ^ 126 by omega)
    have hsecond := abs_lt.1 (show |digits.getD start 0 + garner.modulus start * v| < 2 ^ 126 by omega)
    rw [add_comm, mul_comm (garner.modulus start : ℤ)] at hsecond ⊢
    change (okOr (checkedI128 (v * (garner.modulus start : ℤ))) overflowed >>= fun product =>
      okOr (checkedI128 (product + digits.getD start 0)) overflowed) = _
    rw [checkedI128_eq_some.2 ⟨⟨by omega, by omega⟩, rfl⟩]
    change okOr (checkedI128 (v * (garner.modulus start : ℤ) + digits.getD start 0)) overflowed = _
    rw [checkedI128_eq_some.2 ⟨⟨by omega, by omega⟩, rfl⟩]
    rfl

theorem fieldWeights_eq (garner : GarnerData) : (garner.fieldWeights : List F × F).1 =
    (List.range garner.moduli.length).map fun i => (radixWeight garner.modulus i : F) := by
  have hfold : ∀ n ≤ garner.moduli.length, (garner.moduli.take n).foldl
      (fun (state : List F × F) (modulus : ℕ) => (state.1 ++ [state.2], state.2 * (modulus : F))) ([], 1) =
        ((List.range n).map fun i => (radixWeight garner.modulus i : F), (radixWeight garner.modulus n : F)) := by
    intro n hn
    induction n with
    | zero => simp
    | succ n ih =>
      have hget : garner.moduli[n] = garner.modulus n := (getD_eq_getElem _ _ hn).symm
      rw [take_succ_eq_append_getElem hn, foldl_append, ih (by omega), range_succ, map_append, radixWeight_succ, hget]
      simp
  have := hfold garner.moduli.length le_rfl
  rw [take_length] at this
  unfold GarnerData.fieldWeights
  rw [this]

/-- **The field image is read from the digits**, for every grouping into runs. -/
theorem digitsToField_ok (hgroup : Grouping garner) {digits : List ℤ}
    (hdigit : ∀ k < garner.moduli.length, 2 * |digits.getD k 0| < garner.modulus k) :
    garner.digitsToField digits (garner.fieldWeights : List F × F).1 =
      .ok ((radixValue garner.modulus (fun k => digits.getD k 0) garner.moduli.length : ℤ) : F) := by
  have hruns : ∀ fuel stop, stop ≤ fuel → stop ≤ garner.moduli.length → ∀ result : F,
      liftRuns garner digits (garner.fieldWeights : List F × F).1 fuel stop result =
        .ok (result + ((radixValue garner.modulus (fun k => digits.getD k 0) stop : ℤ) : F)) := by
    intro fuel
    induction fuel with
    | zero =>
      intro stop hle _ result
      obtain rfl : stop = 0 := by omega
      simp [liftRuns]
    | succ fuel ih =>
      intro stop hle hlen result
      rw [liftRuns]
      by_cases hstop : stop > 0
      · rw [if_pos hstop]
        dsimp only
        have hstart := hgroup.le (stop - 1) (by omega)
        have hprod := hgroup.product (stop - 1) (by omega)
        generalize garner.runStart.getD (stop - 1) 0 = start at *
        obtain ⟨len, rfl⟩ : ∃ len, stop = start + len := ⟨stop - start, by omega⟩
        rw [show start + len - 1 + 1 - start = len by omega] at hprod
        rw [Nat.add_sub_cancel_left, runValue_ok (fun k hk => hdigit k (by omega)) hprod, ok_bind,
          ih start (by omega) (by omega)]
        have hweight : ((garner.fieldWeights : List F × F).1).getD start 0 = (radixWeight garner.modulus start : F) := by
          rw [fieldWeights_eq, getD_eq_getElem _ _ (by simp; omega)]
          simp
        have hadd := radixValue_add garner.modulus (fun k => digits.getD k 0) start len
        have hrun : (fun j => garner.modulus (start + j)) = garner.run start := rfl
        rw [hrun] at hadd
        rw [hadd, hweight]
        congr 1
        push_cast
        split
        · rename_i h0
          subst h0
          simp
        · ring
      · obtain rfl : stop = 0 := by omega
        simp
  unfold GarnerData.digitsToField
  rw [hruns _ _ le_rfl le_rfl, zero_add]

end

section setup

variable {garner : GarnerData} {i : ℕ}

theorem modulus_mem (hi : i < garner.moduli.length) : garner.modulus i ∈ garner.moduli := by
  unfold GarnerData.modulus
  rw [getD_eq_getElem _ _ hi]
  exact getElem_mem hi

/-- The state of the run loop before limb `i`. -/
structure RunsOk (garner : GarnerData) (i : ℕ) (state : (ℕ × ℕ) × List ℕ) : Prop where
  length_eq : state.2.length = i
  le : state.1.1 ≤ i
  product : state.1.2 = radixWeight (garner.run state.1.1) (i - state.1.1)
  starts : ∀ k < i, state.2.getD k 0 ≤ k ∧
    radixWeight (garner.run (state.2.getD k 0)) (k + 1 - state.2.getD k 0) < 2 ^ 126

/-- A limb joins the run `(start, product)`. -/
theorem RunsOk.push {state : (ℕ × ℕ) × List ℕ} (h : RunsOk garner i state) {start product : ℕ} (hle : start ≤ i)
    (hprod : product = radixWeight (garner.run start) (i + 1 - start)) (hlt : product < 2 ^ 126) :
    RunsOk garner (i + 1) ((start, product), state.2 ++ [start]) := by
  have hlen := h.length_eq
  refine ⟨by simp [hlen], by dsimp only; omega, hprod, fun k hk => ?_⟩
  rcases lt_or_ge k i with hlt' | hge
  · rw [getD_append _ _ _ _ (by omega)]
    exact h.starts k hlt'
  · obtain rfl : k = i := by omega
    rw [getD_append_right _ _ _ _ (by omega), hlen, Nat.sub_self, getD_cons_zero, ← hprod]
    exact ⟨hle, hlt⟩

/-- **The runs of the constructor**: a run that would reach `2^126` is closed before the limb. -/
theorem runs_grouping (hlt : ∀ m ∈ garner.moduli, m < 2 ^ 62) (hruns : garner.runStart = runStarts garner.moduli) :
    Grouping garner := by
  let step := fun (state : (ℕ × ℕ) × List ℕ) (limb : ℕ × ℕ) =>
    let run := (checkedMul 128 state.1.2 limb.1).elim (limb.2, limb.1) fun next =>
      if next < 2 ^ 126 then (state.1.1, next) else (limb.2, limb.1)
    (run, state.2 ++ [run.1])
  have hstep : ∀ i < garner.moduli.length, ∀ state, RunsOk garner i state →
      RunsOk garner (i + 1) (step state (garner.moduli.getD i 0, i)) := by
    intro i hi state h
    have hm : garner.modulus i < 2 ^ 62 := hlt _ (modulus_mem hi)
    have hsingle : RunsOk garner (i + 1) ((i, garner.modulus i), state.2 ++ [i]) := by
      refine h.push le_rfl ?_ (by omega)
      rw [Nat.add_sub_cancel_left, ← zero_add 1, radixWeight_succ, radixWeight_zero, one_mul]
      rfl
    change RunsOk garner (i + 1) (step state (garner.modulus i, i))
    unfold step checkedMul
    by_cases hfit : state.1.2 * garner.modulus i < 2 ^ 128
    · dsimp only
      rw [if_pos hfit]
      dsimp only [Option.elim]
      by_cases hbelow : state.1.2 * garner.modulus i < 2 ^ 126
      · rw [if_pos hbelow]
        refine h.push h.le ?_ hbelow
        have hle := h.le
        rw [Nat.sub_add_comm hle, radixWeight_succ, ← h.product]
        unfold GarnerData.run
        rw [Nat.add_sub_cancel' hle]
      · rw [if_neg hbelow]
        exact hsingle
    · dsimp only
      rw [if_neg hfit]
      exact hsingle
  have hstart : RunsOk garner 0 ((0, 1), []) := ⟨rfl, le_rfl, by simp, fun _ h => absurd h (Nat.not_lt_zero _)⟩
  have hall := foldl_zipIdx_inv 0 hstep hstart
  have heq : garner.runStart = (garner.moduli.zipIdx.foldl step ((0, 1), [])).2 := by
    rw [hruns, runStarts]
    congr 2
    funext state limb
    dsimp only [step]
    cases checkedMul 128 state.1.2 limb.1 <;> rfl
  exact ⟨fun i hi => by rw [heq]; exact (hall.starts i hi).1, fun i hi => by rw [heq]; exact (hall.starts i hi).2⟩

/-- **The constructor accepts pairwise coprime moduli.** -/
theorem tryFromModuli_ok {moduli : List ℕ} (hrange : ∀ m ∈ moduli, 2 ≤ m ∧ m < 2 ^ 62) (hcop : moduli.Pairwise Nat.Coprime) :
    ∃ garner, GarnerData.tryFromModuli moduli = .ok garner ∧ garner.moduli = moduli ∧ DataOk garner ∧ Grouping garner := by
  have hget : ∀ i < moduli.length, moduli.getD i 0 ∈ moduli := fun i hi => by
    rw [getD_eq_getElem _ _ hi]
    exact getElem_mem hi
  have hpair : ∀ i < moduli.length, ∀ j < i, (moduli.getD i 0).Coprime (moduli.getD j 0) := by
    intro i hi j hj
    rw [getD_eq_getElem _ _ hi, getD_eq_getElem _ _ (hj.trans hi)]
    exact (pairwise_iff_getElem.1 hcop j i (hj.trans hi) hi hj).symm
  have hrow : ∀ i < moduli.length, ∃ row, ((List.range moduli.length).mapM fun j =>
      if j < i then garnerStep (moduli.getD i 0) (moduli.getD j 0) else .ok ⟨0, 0, 0⟩) = .ok row ∧
        ∀ j < i, StepOk (moduli.getD i 0) (moduli.getD j 0) (row.getD j default) := by
    intro i hi
    obtain ⟨row, hrow, -, hsteps⟩ := @mapM_range_runs _ _ (fun j => if j < i then
        garnerStep (moduli.getD i 0) (moduli.getD j 0) else .ok ⟨0, 0, 0⟩)
      (fun j step => j < i → StepOk (moduli.getD i 0) (moduli.getD j 0) step) moduli.length default (by
        intro j hj
        by_cases hlt : j < i
        · obtain ⟨step, hstep, hok⟩ := garnerStep_ok (hrange _ (hget i hi)).1 (hrange _ (hget i hi)).2 (hrange _ (hget j hj)).2
            (hpair i hi j hlt)
          exact ⟨step, by rw [if_pos hlt, hstep], fun _ => hok⟩
        · exact ⟨_, by rw [if_neg hlt], fun h => absurd h hlt⟩)
    exact ⟨row, hrow, fun j hj => hsteps j (by omega) hj⟩
  obtain ⟨steps, hsteps, -, hall⟩ := @mapM_range_runs _ _ (fun i => (List.range moduli.length).mapM fun j =>
      if j < i then garnerStep (moduli.getD i 0) (moduli.getD j 0) else .ok ⟨0, 0, 0⟩)
    (fun i row => ∀ j < i, StepOk (moduli.getD i 0) (moduli.getD j 0) (row.getD j default)) moduli.length [] hrow
  refine ⟨⟨moduli, steps, runStarts moduli⟩, ?_, rfl, ⟨fun i hi => (hrange _ (hget i hi)).1, fun i hi => (hrange _ (hget i hi)).2,
    fun i hi j hj => hall i hi j hj⟩, runs_grouping (fun m hm => (hrange m hm).2) rfl⟩
  unfold GarnerData.tryFromModuli
  rw [ensure, if_pos hrange, ok_bind, hsteps]
  rfl

/-- The value of the digits of coefficient `c`. -/
def digitValue (moduli : List ℕ) (digits : List (List ℤ)) (c : ℕ) : ℤ :=
  ∑ i ∈ range moduli.length, entry digits c i * (∏ j ∈ range i, moduli.getD j 0 : ℕ)

theorem radixWeight_eq_prod (moduli : List ℕ) : radixWeight (fun i => moduli.getD i 0) moduli.length = moduli.prod := by
  unfold radixWeight
  rw [prod_range fun i => moduli.getD i 0, ← prod_ofFn]
  congr 1
  apply ext_getElem
  · simp
  · intro i hi _
    simp

/-- **Garner reconstruction is exact** for all pairwise coprime odd moduli below `2^62`: the digits lie in
`[-floor(p_i / 2), floor(p_i / 2)]` and are congruent to the residues, no sum leaves its type, the digits of a
small integer represent it, and its image is read from them for every grouping of the limbs. -/
theorem garner_exact {moduli : List ℕ} (hrange : ∀ p ∈ moduli, (3 ≤ p ∧ p < 2 ^ 62) ∧ Odd p)
    (hcoprime : moduli.Pairwise Nat.Coprime) :
    ∃ garner, GarnerData.tryFromModuli moduli = .ok garner ∧ Grouping garner ∧
      ∀ (D : ℕ) (residues : List (List ℤ)), residues.length = moduli.length →
        (∀ k < moduli.length, (residues.getD k []).length = D) →
        (∀ k < moduli.length, ∀ c < D, |entry residues c k| < moduli.getD k 0) →
        ∃ digits, garner.centeredMixedRadix residues = .ok digits ∧ digits.length = moduli.length ∧
          (∀ k < moduli.length, (digits.getD k []).length = D) ∧
          ∀ c < D, (∀ k < moduli.length, |entry digits c k| ≤ (moduli.getD k 0 / 2 : ℕ) ∧
              digitValue moduli digits c ≡ entry residues c k [ZMOD moduli.getD k 0]) ∧
            ∀ N : ℤ, 2 * |N| < moduli.prod → (∀ k < moduli.length, entry residues c k ≡ N [ZMOD moduli.getD k 0]) →
              digitValue moduli digits c = N ∧
              ∀ (F : Type) [CommRing F] (runStart : List ℕ), Grouping { garner with runStart } →
                GarnerData.digitsToField { garner with runStart } (digits.map fun column => column.getD c 0)
                  (garner.fieldWeights : List F × F).1 = .ok (N : F) := by
  obtain ⟨garner, hnew, rfl, hdata, hgroup⟩ := tryFromModuli_ok (fun p hp => ⟨by have := (hrange p hp).1; omega,
    (hrange p hp).1.2⟩) hcoprime
  refine ⟨garner, hnew, hgroup, fun D residues hlen hrows hres => ?_⟩
  obtain ⟨digits, hdigits, hok⟩ := centeredMixedRadix_ok hdata hlen hrows hres
  refine ⟨digits, hdigits, hok.length_eq, hok.rows, fun c hc => ?_⟩
  have hvalue : digitValue garner.moduli digits c = radixValue garner.modulus (entry digits c) garner.moduli.length := rfl
  have hcongr : ∀ k < garner.moduli.length,
      digitValue garner.moduli digits c ≡ entry residues c k [ZMOD garner.modulus k] := fun k hk => by
    rw [hvalue]
    exact (radixValue_modEq hk).trans (hok.congr k hk c hc)
  have hhalf : ∀ k < garner.moduli.length, 2 * |entry digits c k| < garner.modulus k := fun k hk => by
    obtain ⟨h, hodd⟩ := hrange _ (modulus_mem hk)
    obtain ⟨t, ht⟩ := hodd
    have := hok.digits k hk c hc
    omega
  refine ⟨fun k hk => ⟨hok.digits k hk c hc, hcongr k hk⟩, fun N hN hresN => ?_⟩
  have hcop : ∀ i < garner.moduli.length, ∀ j < garner.moduli.length, i ≠ j →
      (garner.modulus i).Coprime (garner.modulus j) := by
    intro i hi j hj hij
    unfold GarnerData.modulus
    rw [getD_eq_getElem _ _ hi, getD_eq_getElem _ _ hj]
    rcases Nat.lt_or_gt_of_ne hij with hlt | hgt
    · exact pairwise_iff_getElem.1 hcoprime i j hi hj hlt
    · exact (pairwise_iff_getElem.1 hcoprime j i hj hi hgt).symm
  have hN' : 2 * |N| < radixWeight garner.modulus garner.moduli.length := by
    change 2 * |N| < radixWeight (fun i => garner.moduli.getD i 0) garner.moduli.length
    rwa [radixWeight_eq_prod]
  have hrep := radixValue_unique hcop hhalf (fun k hk => (hcongr k hk).trans (hresN k hk)) hN'
  refine ⟨hrep, fun F _ runStart hrun => ?_⟩
  have hentry : ∀ k < garner.moduli.length, (digits.map fun column => column.getD c 0).getD k 0 = entry digits c k := by
    intro k hk
    have hk' : k < digits.length := by rw [hok.length_eq]; exact hk
    unfold entry
    rw [getD_eq_getElem _ _ (by simpa using hk'), getElem_map, getD_eq_getElem digits [] hk']
  have hfield := @digitsToField_ok F _ _ hrun (digits.map fun column => column.getD c 0) fun k hk => by
    rw [hentry k hk]
    exact hhalf k hk
  refine hfield.trans ?_
  rw [← hrep]
  exact congrArg (fun v : ℤ => Except.ok (v : F)) (radixValue_congr (fun _ _ => rfl) hentry)

/-- Two coefficients modulo 3, 5 and 7. -/
theorem garner_exact_three : ∃ garner digits, GarnerData.tryFromModuli [3, 5, 7] = .ok garner ∧
    garner.centeredMixedRadix [[2, -1], [-3, -1], [4, -1]] = .ok digits ∧
      digitValue [3, 5, 7] digits 0 = 32 ∧ digitValue [3, 5, 7] digits 1 = -1 := by
  obtain ⟨garner, hnew, -, hall⟩ := @garner_exact [3, 5, 7] (by decide) (by decide)
  obtain ⟨digits, hdigits, -, -, hval⟩ := hall 2 [[2, -1], [-3, -1], [4, -1]] rfl (by decide) (by decide)
  exact ⟨garner, digits, hnew, hdigits, ((hval 0 (by decide)).2 32 (by decide) (by decide)).1,
    ((hval 1 (by decide)).2 (-1) (by decide) (by decide)).1⟩

end setup

end Akita.Garner
