import Akita.Lib.Loops
import Akita.Lib.Montgomery
import Akita.Spec.Ntt

/-!
# The prime kernels never overflow

A raw value in `(-p, p)` stands for itself over the radix. The kernels return such values, and every
operation of theirs fits its type, so that wrapping and failing on overflow are the same.

* `montMulRaw_ok`: a Montgomery product.
* `mul_ok`, `reduceRange_ok`: the kernels of the transforms, from `(-2p, 2p)`.
* `fromCanonical_ok`: into Montgomery form.
-/

namespace Akita.Ntt

open Lib

variable {v p : ℤ} {keep : Keep} {α : Type}

theorem i64_ok (h : |v| < 2 ^ 63) : i64 v = .ok v := by
  have := abs_lt.1 h
  unfold i64
  rw [checkedI64_eq_some.2 ⟨⟨by omega, by omega⟩, rfl⟩]
  rfl

/-- An NTT prime of its width: odd, and below a quarter of the radix. -/
structure NttModulus (W : PrimeWidth) (p : ℤ) : Prop where
  one_lt : 1 < p
  lt : p < 2 ^ (W.rLog - 2)
  odd : p % 2 = 1

theorem NttModulus.lt_thirty {W : PrimeWidth} (h : NttModulus W p) : p < 2 ^ 30 := by
  have := h.lt
  cases W with
  | i16 => exact this.trans (by norm_num [PrimeWidth.rLog])
  | i32 => exact this

theorem PrimeWidth.rLog_pos (W : PrimeWidth) : 0 < W.rLog := by cases W <;> decide

theorem PrimeWidth.half_radix (W : PrimeWidth) : (2 : ℤ) ^ (W.rLog - 1) = 2 * 2 ^ (W.rLog - 2) := by
  cases W <;> norm_num [PrimeWidth.rLog]

theorem NttModulus.fromI64_eq {W : PrimeWidth} {r : ℤ} (h : NttModulus W p) (hr : |r| < p) : W.fromI64 r = r := by
  have hlt := h.lt
  have hhalf := W.half_radix
  have hr := abs_lt.1 hr
  exact bmod_two_pow_of_fits W.rLog_pos (by omega) (by omega)

theorem centered_ok {x : ℤ} (hodd : p % 2 = 1) (hx : 0 ≤ x) (hlt : x < p) :
    2 * |if x > p / 2 then x - p else x| < p ∧ (if x > p / 2 then x - p else x) ≡ x [ZMOD p] := by
  split
  · refine ⟨?_, Int.modEq_iff_dvd.2 ⟨1, by ring⟩⟩
    rw [abs_of_neg (by omega)]
    omega
  · refine ⟨?_, Int.ModEq.refl _⟩
    rw [abs_of_nonneg hx]
    omega

theorem modEq_of_two_pow_mul {a b : ℤ} (hodd : p % 2 = 1) (n : ℕ) (h : 2 ^ n * a ≡ 2 ^ n * b [ZMOD p]) : a ≡ b [ZMOD p] := by
  have hcop : IsCoprime p (2 ^ n) := by
    refine IsCoprime.pow_right ⟨1, -(p / 2), ?_⟩
    omega
  refine Int.modEq_iff_dvd.2 (hcop.dvd_of_dvd_mul_left ?_)
  rw [mul_sub]
  exact h.dvd

theorem readAt_ok {a : List α} {i : ℕ} (d : α) (h : i < a.length) : readAt a i = .ok (a.getD i d) := by
  rw [readAt, List.getElem?_eq_getElem h, List.getD_eq_getElem _ _ h]
  rfl

theorem writeAt_ok {a : List α} {i : ℕ} (h : i < a.length) (v : α) : writeAt a i v = .ok (a.set i v) := if_pos h

def Keep.Sound (keep : Keep) : Prop := keep = trapped ∨ keep = wrapped

/-- `prog` returns `out` with operations that wrap and with operations that fail on overflow: no operation of the run overflows. -/
def Fits {α : Type} (prog : Keep → Result α) (out : α) : Prop := ∀ keep : Keep, keep.Sound → prog keep = .ok out

/-- The exact value is kept when it fits. -/
theorem Keep.Sound.keep_eq (h : keep.Sound) {bits : ℕ} (hbits : 0 < bits) (hlow : -2 ^ (bits - 1) ≤ v)
    (hhigh : v < 2 ^ (bits - 1)) : keep bits v = .ok v := by
  rcases h with rfl | rfl
  · exact if_pos ⟨hlow, hhigh⟩
  · exact congrArg Except.ok (bmod_two_pow_of_fits hbits hlow hhigh)

theorem Fits.run {prog : Keep → Result α} {out : α} (h : Fits prog out) (hkeep : keep.Sound) :
    prog keep = .ok out := h keep hkeep

theorem Fits.bind {β : Type} {f : Keep → Result α} {g : Keep → α → Result β} {a : α} {b : β} (hf : Fits f a)
    (hg : Fits (fun keep => g keep a) b) : Fits (fun keep => f keep >>= g keep) b := by
  intro keep hkeep
  change f keep >>= g keep = .ok b
  rw [hf keep hkeep]
  exact hg keep hkeep

variable {W : PrimeWidth}

structure PrimeOk (prime : NttPrime W) : Prop where
  modulus : NttModulus W prime.p
  inverse : prime.p * prime.pinv ≡ 1 [ZMOD 2 ^ W.rLog]
  montsq_lt : |prime.montsq| < prime.p
  montsq : prime.montsq ≡ 2 ^ (2 * W.rLog) [ZMOD prime.p]

theorem PrimeWidth.rLog_le (W : PrimeWidth) : W.rLog ≤ 32 := by cases W <;> decide

theorem newtonStep_inverse (hodd : p % 2 = 1) : p * (newtonStep p)^[5] 1 ≡ 1 [ZMOD 2 ^ 32] := by
  have hstep : ∀ x, newtonStep p x ≡ x * (2 - p * x) [ZMOD 2 ^ 64] := by
    intro x
    have hb : ∀ y : ℤ, y.bmod (2 ^ 64) ≡ y [ZMOD 2 ^ 64] := fun y => by exact_mod_cast bmod_modEq y (2 ^ 64)
    calc newtonStep p x ≡ x * (2 - (p * x).bmod (2 ^ 64)).bmod (2 ^ 64) [ZMOD 2 ^ 64] := hb _
      _ ≡ x * (2 - (p * x).bmod (2 ^ 64)) [ZMOD 2 ^ 64] := (hb _).mul_left x
      _ ≡ x * (2 - p * x) [ZMOD 2 ^ 64] := ((hb _).sub_left 2).mul_left x
  refine inverse_of_residual (show (2 ^ 32 : ℤ) ∣ 2 ^ 64 from pow_dvd_pow 2 (by norm_num)) (newton_iterate hstep 5 1)
    (show (2 ^ 1 : ℤ) ∣ 1 - p * 1 from ?_) (by norm_num)
  omega

/-- **The computed constants of a prime.** -/
theorem compute_ok (h : NttModulus W p) : PrimeOk (NttPrime.compute W p) := by
  have hpos := h.one_lt
  have hcent := centered_ok h.odd (Int.emod_nonneg (2 ^ (2 * W.rLog)) (show p ≠ 0 by omega))
    (Int.emod_lt_of_pos (2 ^ (2 * W.rLog)) (show 0 < p by omega))
  have hlt : |if 2 ^ (2 * W.rLog) % p > p / 2 then 2 ^ (2 * W.rLog) % p - p else 2 ^ (2 * W.rLog) % p| < p := by
    omega
  have hmontsq : (NttPrime.compute W p).montsq =
      if 2 ^ (2 * W.rLog) % p > p / 2 then 2 ^ (2 * W.rLog) % p - p else 2 ^ (2 * W.rLog) % p := h.fromI64_eq hlt
  refine ⟨h, ?_, ?_, ?_⟩
  · have hnewton := (newtonStep_inverse h.odd).of_dvd (pow_dvd_pow 2 W.rLog_le)
    refine Int.ModEq.trans ?_ hnewton
    exact Int.ModEq.mul_left p (by exact_mod_cast bmod_modEq _ (2 ^ W.rLog))
  · rw [hmontsq]
    exact hlt
  · rw [hmontsq]
    exact hcent.2.trans (Int.mod_modEq _ _)

section

variable {prime : NttPrime W} (h : PrimeOk prime) {a b : ℤ}

include h

theorem PrimeOk.width_keeps (hkeep : keep.Sound) (hv : |v| < 2 * prime.p) : keep W.rLog v = .ok v := by
  have hv := abs_lt.1 hv
  have hlt := h.modulus.lt
  have hhalf := W.half_radix
  exact hkeep.keep_eq W.rLog_pos (by omega) (by omega)

/-- **A Montgomery product**, inside the double width. -/
theorem montMulRaw_ok (hab : |a * b| < 2 ^ (W.rLog - 1) * prime.p) :
    ∃ r, Fits (fun keep => prime.montMulRaw keep a b) r ∧ |r| < prime.p ∧ 2 ^ W.rLog * r ≡ a * b [ZMOD prime.p] := by
  have hpos := h.modulus.one_lt
  have hlt := h.modulus.lt
  have hhalf := W.half_radix
  have htwo := W.rLog_pos
  have hcast : (W.fromI64 (a * b) * prime.pinv).bmod (2 ^ W.rLog) ≡ a * b * prime.pinv [ZMOD 2 ^ W.rLog] :=
    calc (W.fromI64 (a * b) * prime.pinv).bmod (2 ^ W.rLog) ≡ W.fromI64 (a * b) * prime.pinv [ZMOD 2 ^ W.rLog] := by
          exact_mod_cast bmod_modEq _ _
      _ ≡ a * b * prime.pinv [ZMOD 2 ^ W.rLog] := by
          refine Int.ModEq.mul_right _ ?_
          exact_mod_cast bmod_modEq (a * b) (2 ^ W.rLog)
  have hbounds := bmod_two_pow_bounds htwo (W.fromI64 (a * b) * prime.pinv)
  obtain ⟨t, ht⟩ : ∃ t, (W.fromI64 (a * b) * prime.pinv).bmod (2 ^ W.rLog) = t := ⟨_, rfl⟩
  rw [ht] at hcast hbounds
  have habs : |t| ≤ 2 ^ (W.rLog - 1) := abs_le.2 ⟨hbounds.1, hbounds.2.le⟩
  obtain ⟨r, hr, hrlt⟩ := montgomery_reduce h.inverse hcast habs htwo (by omega) hab
  have htp : |t * prime.p| ≤ 2 ^ (W.rLog - 1) * prime.p := by
    rw [abs_mul, abs_of_pos (show 0 < prime.p by omega)]
    exact mul_le_mul_of_nonneg_right habs (by omega)
  -- twice the bound of one product fits the double width
  have hwide : 2 * (2 ^ (W.rLog - 1) * prime.p) ≤ 2 ^ (2 * W.rLog - 1) := by
    have hsplit : (2 : ℤ) ^ (2 * W.rLog - 1) = 2 * (2 ^ (W.rLog - 1) * 2 ^ (W.rLog - 1)) := by
      rw [← pow_add, ← pow_succ']
      congr 1
      omega
    rw [hsplit]
    have : prime.p ≤ 2 ^ (W.rLog - 1) := by omega
    have := mul_le_mul_of_nonneg_left this (show (0 : ℤ) ≤ 2 ^ (W.rLog - 1) by positivity)
    linarith
  have hfits : ∀ {keep : Keep}, keep.Sound → ∀ {v : ℤ}, |v| < 2 * (2 ^ (W.rLog - 1) * prime.p) → keep (2 * W.rLog) v = .ok v := by
    intro keep hkeep v hv
    have hv := abs_lt.1 hv
    exact hkeep.keep_eq (by omega) (by linarith) (by linarith)
  have hdiff : |a * b - t * prime.p| < 2 * (2 ^ (W.rLog - 1) * prime.p) := (abs_sub _ _).trans_lt (by linarith)
  have hP : 0 < 2 ^ (W.rLog - 1) * prime.p := by positivity
  refine ⟨r, fun keep hkeep => ?_, hrlt, Int.modEq_iff_dvd.2 ⟨t, by rw [← hr]; ring⟩⟩
  change prime.montMulRaw keep a b = .ok r
  unfold NttPrime.montMulRaw
  rw [hfits hkeep (by linarith), ok_bind]
  dsimp only
  rw [ht, hfits hkeep (by linarith), ok_bind, hfits hkeep hdiff, ok_bind, hr, Int.mul_ediv_cancel_left _ (by positivity)]
  exact h.width_keeps hkeep (by linarith [abs_nonneg r])

theorem csubp_ok (ha : |a| < 2 * prime.p) :
    Fits (fun keep => prime.csubp keep a) (if a < prime.p then a else a - prime.p) := by
  intro keep hkeep
  have ha := abs_lt.1 ha
  unfold NttPrime.csubp
  dsimp only
  by_cases hlt : a < prime.p
  · rw [if_pos (show a - prime.p < 0 by omega), if_pos hlt, h.width_keeps hkeep (abs_lt.2 ⟨by omega, by omega⟩),
      Int.sub_add_cancel]
  · rw [if_neg (show ¬ a - prime.p < 0 by omega), if_neg hlt, Int.add_zero, h.width_keeps hkeep (abs_lt.2 ⟨by omega, by omega⟩)]

theorem caddp_ok (ha : |a| < 2 * prime.p) : Fits (fun keep => prime.caddp keep a) (if a < 0 then a + prime.p else a) := by
  intro keep hkeep
  have ha := abs_lt.1 ha
  unfold NttPrime.caddp
  split
  · exact h.width_keeps hkeep (abs_lt.2 ⟨by omega, by omega⟩)
  · rw [Int.add_zero]
    exact h.width_keeps hkeep (abs_lt.2 ⟨by omega, by omega⟩)

/-- **The range reduction** of the butterflies. -/
theorem reduceRange_ok (ha : |a| < 2 * prime.p) :
    ∃ r, Fits (fun keep => prime.reduceRange keep a) r ∧ |r| < prime.p ∧ r ≡ a [ZMOD prime.p] := by
  have hb := abs_lt.1 ha
  obtain ⟨s, hs, hslow, hshigh, hscongr⟩ : ∃ s, (if a < prime.p then a else a - prime.p) = s ∧ -2 * prime.p < s ∧ s < prime.p ∧
      s ≡ a [ZMOD prime.p] := by
    refine ⟨_, rfl, ?_⟩
    split
    · exact ⟨by omega, by omega, Int.ModEq.refl _⟩
    · exact ⟨by omega, by omega, Int.modEq_iff_dvd.2 ⟨1, by ring⟩⟩
  have hcsubp := csubp_ok h ha
  rw [hs] at hcsubp
  refine ⟨if s < 0 then s + prime.p else s, hcsubp.bind (caddp_ok h (abs_lt.2 ⟨by omega, by omega⟩)), ?_, ?_⟩
  · split <;> exact abs_lt.2 ⟨by omega, by omega⟩
  · split
    · exact (Int.modEq_iff_dvd.2 ⟨-1, by ring⟩ : s + prime.p ≡ s [ZMOD prime.p]).trans hscongr
    · exact hscongr

end

section

variable {p : ℕ} [Fact p.Prime] {prime : NttPrime W}

def montValue (W : PrimeWidth) (p : ℕ) [Fact p.Prime] (x : ℤ) : ZMod p := (x : ZMod p) * ((2 : ZMod p) ^ W.rLog)⁻¹

/-- A raw value in `(-p, p)` that stands for `v`. -/
structure Holds (W : PrimeWidth) (p : ℕ) [Fact p.Prime] (x : ℤ) (v : ZMod p) : Prop where
  lt : |x| < p
  value : montValue W p x = v

variable (h : PrimeOk prime) (hp : prime.p = p) {a b : ℤ} {y : ZMod p}

theorem montValue_add (a b : ℤ) : montValue W p (a + b) = montValue W p a + montValue W p b := by
  unfold montValue
  push_cast
  ring

theorem montValue_sub (a b : ℤ) : montValue W p (a - b) = montValue W p a - montValue W p b := by
  unfold montValue
  push_cast
  ring

theorem montValue_congr (hab : a ≡ b [ZMOD p]) : montValue W p a = montValue W p b := by
  unfold montValue
  rw [(ZMod.intCast_eq_intCast_iff a b p).2 hab]

include h hp

theorem two_pow_ne_zero (n : ℕ) : (2 : ZMod p) ^ n ≠ 0 := by
  refine pow_ne_zero n fun hzero => ?_
  have hodd := h.modulus.odd
  have hone := h.modulus.one_lt
  have hdvd : p ∣ 2 := (ZMod.natCast_eq_zero_iff 2 p).1 (by exact_mod_cast hzero)
  have := Nat.le_of_dvd (by norm_num) hdvd
  omega

theorem montValue_mul {r : ℤ} (hr : 2 ^ W.rLog * r ≡ a * b [ZMOD p]) : montValue W p r = montValue W p a * montValue W p b := by
  have hne := two_pow_ne_zero h hp W.rLog
  have hcast := (ZMod.intCast_eq_intCast_iff _ _ p).2 hr
  push_cast at hcast
  unfold montValue
  field_simp
  linear_combination hcast

theorem mul_ok (ha : |a| < 2 * p) (hb : Holds W p b y) :
    ∃ r, Fits (fun keep => prime.mul keep a b) r ∧ Holds W p r (montValue W p a * y) := by
  have hlt := h.modulus.lt
  have hhalf := W.half_radix
  have hab : |a * b| < 2 ^ (W.rLog - 1) * prime.p := by
    rw [abs_mul, hp]
    refine mul_lt_mul' ?_ hb.lt (abs_nonneg b) (by positivity)
    omega
  obtain ⟨r, hrun, hrlt, hcongr⟩ := montMulRaw_ok h hab
  rw [hp] at hrlt hcongr
  exact ⟨r, hrun, hrlt, by rw [montValue_mul h hp hcongr, hb.value]⟩

theorem reduce_holds (ha : |a| < 2 * p) : ∃ r, Fits (fun keep => prime.reduceRange keep a) r ∧ Holds W p r (montValue W p a) := by
  rw [← hp] at ha
  obtain ⟨r, hrun, hrlt, hcongr⟩ := reduceRange_ok h ha
  rw [hp] at hrlt hcongr
  exact ⟨r, hrun, hrlt, montValue_congr hcongr⟩

/-- **Into Montgomery form.** -/
theorem fromCanonical_ok (ha : |a| < p) : ∃ r, Fits (fun keep => prime.fromCanonical keep a) r ∧ Holds W p r a := by
  have hne := two_pow_ne_zero h hp W.rLog
  have hmontsq : Holds W p prime.montsq (2 ^ W.rLog) := by
    refine ⟨hp ▸ h.montsq_lt, ?_⟩
    have hcast := (ZMod.intCast_eq_intCast_iff _ _ p).2 (hp ▸ h.montsq)
    push_cast at hcast
    unfold montValue
    rw [hcast]
    field_simp
    ring
  obtain ⟨r, hrun, hholds⟩ := mul_ok h hp (show |a| < 2 * (p : ℤ) by linarith [abs_nonneg a]) hmontsq
  refine ⟨r, hrun, hholds.lt, ?_⟩
  rw [hholds.value, montValue]
  field_simp

end

end Akita.Ntt
