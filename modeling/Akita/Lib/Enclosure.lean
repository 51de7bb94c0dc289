import Mathlib.Analysis.SpecialFunctions.Trigonometric.Series
import Akita.Lib.Numerals

/-!
# Integer enclosures of real numbers

A pair of integers encloses a real number. Floor and ceiling division round an enclosure
outward, and the partial sums of an alternating series enclose the cosine and the sine on
`[0, 1]`.
-/

namespace Akita.Lib

open Finset

variable {b : ℤ} {x : ℝ}

/-- The number lies between the two integers. -/
def Encloses (v : ℤ × ℤ) (x : ℝ) : Prop := (v.1 : ℝ) ≤ x ∧ x ≤ (v.2 : ℝ)

theorem ediv_cast_le (a : ℤ) (hb : 0 < b) : ((a / b : ℤ) : ℝ) ≤ (a : ℝ) / b := by
  have hmul : a / b * b ≤ a := Int.ediv_mul_le a hb.ne'
  have hb' : (0 : ℝ) < b := by exact_mod_cast hb
  rw [le_div_iff₀ hb']
  exact_mod_cast hmul

theorem le_neg_ediv_neg_cast (a : ℤ) (hb : 0 < b) : (a : ℝ) / b ≤ ((-(-a / b) : ℤ) : ℝ) := by
  have h := ediv_cast_le (-a) hb
  push_cast at h ⊢
  rw [neg_div] at h
  linarith

theorem neg_ediv_neg_lt (a : ℤ) (hb : 0 < b) : -(-a / b) * b < a + b := by
  have h := Int.lt_ediv_add_one_mul_self (-a) hb
  have hring : (-a / b + 1) * b = -a / b * b + b := by ring
  have hneg : -(-a / b) * b = -(-a / b * b) := by ring
  omega

namespace Encloses

variable {v w : ℤ × ℤ} {y : ℝ}

section

variable (hv : Encloses v x)

include hv

theorem add (hw : Encloses w y) : Encloses (v.1 + w.1, v.2 + w.2) (x + y) := by
  obtain ⟨h1, h2⟩ := hv
  obtain ⟨h3, h4⟩ := hw
  refine ⟨?_, ?_⟩ <;> push_cast <;> linarith

theorem sub (hw : Encloses w y) : Encloses (v.1 - w.2, v.2 - w.1) (x - y) := by
  obtain ⟨h1, h2⟩ := hv
  obtain ⟨h3, h4⟩ := hw
  refine ⟨?_, ?_⟩ <;> push_cast <;> linarith

theorem neg : Encloses (-v.2, -v.1) (-x) := by
  obtain ⟨h1, h2⟩ := hv
  refine ⟨?_, ?_⟩ <;> push_cast <;> linarith

theorem div (hb : 0 < b) : Encloses (v.1 / b, -(-v.2 / b)) (x / b) := by
  have hb' : (0 : ℝ) < b := by exact_mod_cast hb
  refine ⟨(ediv_cast_le v.1 hb).trans ?_, le_trans ?_ (le_neg_ediv_neg_cast v.2 hb)⟩
  · exact div_le_div_of_nonneg_right hv.1 hb'.le
  · exact div_le_div_of_nonneg_right hv.2 hb'.le

theorem mul (hw : Encloses w y) (hv0 : 0 ≤ v.1) (hw0 : 0 ≤ w.1) : Encloses (v.1 * w.1, v.2 * w.2) (x * y) := by
  have hv0' : (0 : ℝ) ≤ v.1 := by exact_mod_cast hv0
  have hw0' : (0 : ℝ) ≤ w.1 := by exact_mod_cast hw0
  refine ⟨?_, ?_⟩ <;> push_cast
  · exact mul_le_mul hv.1 hw.1 hw0' (hv0'.trans hv.1)
  · exact mul_le_mul hv.2 hw.2 (hw0'.trans hw.1) ((hv0'.trans hv.1).trans hv.2)

theorem le : v.1 ≤ v.2 := by exact_mod_cast hv.1.trans hv.2

end

end Encloses

/-- The first `n` terms of the series with terms `x^(2i+s) / (2i+s)!`: the cosine for `s = 0`,
the sine for `s = 1`. -/
noncomputable def alternating (s n : ℕ) (x : ℝ) : ℝ :=
  ∑ i ∈ range n, (-1) ^ i * (x ^ (2 * i + s) / (2 * i + s).factorial)

theorem antitone_terms (s : ℕ) (h0 : 0 ≤ x) (h1 : x ≤ 1) :
    Antitone fun i : ℕ => x ^ (2 * i + s) / ((2 * i + s).factorial : ℝ) := by
  apply antitone_nat_of_succ_le
  intro i
  have hpow : x ^ (2 * (i + 1) + s) ≤ x ^ (2 * i + s) := pow_le_pow_of_le_one h0 h1 (by omega)
  have hfact : ((2 * i + s).factorial : ℝ) ≤ ((2 * (i + 1) + s).factorial : ℝ) := by
    exact_mod_cast Nat.factorial_le (by omega)
  exact div_le_div₀ (by positivity) hpow (by positivity) hfact

/-- Partial sums of an even and an odd number of terms enclose the limit. -/
theorem alternating_encloses {s : ℕ} {l : ℝ} (h0 : 0 ≤ x) (h1 : x ≤ 1)
    (hsum : HasSum (fun i : ℕ => (-1) ^ i * (x ^ (2 * i + s) / ((2 * i + s).factorial : ℝ))) l) (k : ℕ) :
    l ≤ alternating s (2 * k + 1) x ∧
      alternating s (2 * k + 1) x - x ^ (2 * (2 * k + 1) + s) / (2 * (2 * k + 1) + s).factorial ≤ l := by
  have hanti := antitone_terms s h0 h1
  refine ⟨hanti.tendsto_le_alternating_series hsum.tendsto_sum_nat k, ?_⟩
  have heven := hanti.alternating_series_le_tendsto hsum.tendsto_sum_nat (k + 1)
  have hsplit : 2 * (k + 1) = 2 * k + 1 + 1 := by ring
  rw [hsplit, sum_range_succ, pow_succ, pow_mul] at heven
  simp only [neg_one_sq, one_pow, one_mul, neg_mul] at heven
  exact heven

theorem cos_alternating (h0 : 0 ≤ x) (h1 : x ≤ 1) (k : ℕ) : Real.cos x ≤ alternating 0 (2 * k + 1) x ∧
      alternating 0 (2 * k + 1) x - x ^ (2 * (2 * k + 1)) / (2 * (2 * k + 1)).factorial ≤ Real.cos x := by
  apply alternating_encloses (s := 0) h0 h1
  simpa [mul_div_assoc] using Real.hasSum_cos x

theorem sin_alternating (h0 : 0 ≤ x) (h1 : x ≤ 1) (k : ℕ) : Real.sin x ≤ alternating 1 (2 * k + 1) x ∧
      alternating 1 (2 * k + 1) x - x ^ (2 * (2 * k + 1) + 1) / (2 * (2 * k + 1) + 1).factorial ≤ Real.sin x := by
  apply alternating_encloses (s := 1) h0 h1
  simpa [mul_div_assoc] using Real.hasSum_sin x

end Akita.Lib
