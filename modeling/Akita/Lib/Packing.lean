import Akita.Lib.Accumulate

/-!
# Packing a polynomial along a stride

Weights `w` contract the low part of every exponent: `X^i` goes to `w (i mod n) · Y^(i / n)`. The map
is linear, and a factor in `X^n` passes through it as the same factor in `Y`. So it takes residues
modulo `f(X^n)` to residues modulo `f(Y)`.
-/

namespace Akita.Lib

open Polynomial Finset

variable {F E : Type*} [CommRing F] [CommRing E] [Algebra F E]

/-- The image of a polynomial under `X^i ↦ w (i mod n) · Y^(i / n)`. -/
noncomputable def pack (n : ℕ) (w : ℕ → E) (P : F[X]) : E[X] :=
  P.sum fun i c => C (w (i % n) * algebraMap F E c) * X ^ (i / n)

variable {n : ℕ} {w : ℕ → E}

theorem pack_monomial (i : ℕ) (c : F) : pack n w (monomial i c) = C (w (i % n) * algebraMap F E c) * X ^ (i / n) := by
  unfold pack
  rw [sum_monomial_index]
  simp

theorem pack_add (P Q : F[X]) : pack n w (P + Q) = pack n w P + pack n w Q := by
  unfold pack
  rw [sum_add_index]
  · intro i
    simp
  · intro i a b
    rw [map_add, mul_add, C_add, add_mul]

theorem pack_zero : pack n w (0 : F[X]) = 0 := by simp [pack]

theorem pack_expand_mul (hn : 0 < n) (c P : F[X]) :
    pack n w (expand F n c * P) = c.map (algebraMap F E) * pack n w P := by
  induction c using Polynomial.induction_on' with
  | add c d hc hd => rw [map_add, add_mul, pack_add, hc, hd, Polynomial.map_add, add_mul]
  | monomial j a =>
    induction P using Polynomial.induction_on' with
    | add P Q hP hQ => rw [mul_add, pack_add, hP, hQ, pack_add, mul_add]
    | monomial i b =>
      have hmod : (j * n + i) % n = i % n := by rw [mul_comm, Nat.mul_add_mod]
      have hdiv : (j * n + i) / n = j + i / n := by rw [mul_comm, Nat.mul_add_div hn]
      rw [expand_monomial, monomial_mul_monomial, pack_monomial, pack_monomial, map_monomial, hmod, hdiv,
        ← C_mul_X_pow_eq_monomial, pow_add, (algebraMap F E).map_mul]
      simp only [C_mul]
      ring

theorem pack_eq_sum {s : ℕ} {P : F[X]} (hP : P.degree < (n * s : ℕ)) :
    pack n w P = ∑ y ∈ range s, C (∑ a ∈ range n, w a * algebraMap F E (P.coeff (y * n + a))) * X ^ y := by
  rcases eq_or_ne P 0 with rfl | hne
  · simp [pack_zero]
  have hdegree : P.natDegree < s * n := by
    rw [mul_comm]
    exact (natDegree_lt_iff_degree_lt hne).2 hP
  unfold pack
  rw [sum_over_range' P (by simp) (s * n) hdegree, sum_range_rows]
  apply sum_congr rfl
  intro y _
  rw [map_sum, sum_mul]
  apply sum_congr rfl
  intro a ha
  have ha : a < n := mem_range.1 ha
  have hmod : (y * n + a) % n = a := by rw [mul_comm, Nat.mul_add_mod, Nat.mod_eq_of_lt ha]
  have hdiv : (y * n + a) / n = y := by
    rw [mul_comm, Nat.mul_add_div (by omega), Nat.div_eq_of_lt ha, add_zero]
  rw [hmod, hdiv]

theorem degree_sum_C_mul_X_pow_lt (s : ℕ) (c : ℕ → E) : (∑ y ∈ range s, C (c y) * X ^ y).degree < (s : WithBot ℕ) := by
  refine (degree_sum_le _ _).trans_lt ((Finset.sup_lt_iff (WithBot.bot_lt_coe s)).2 fun y hy => ?_)
  exact (degree_C_mul_X_pow_le y _).trans_lt (WithBot.coe_lt_coe.2 (mem_range.1 hy))

theorem coeff_sum_C_mul_X_pow (s : ℕ) (c : ℕ → E) (y : ℕ) :
    (∑ j ∈ range s, C (c j) * X ^ j).coeff y = if y < s then c y else 0 := by
  simp [coeff_C_mul, coeff_X_pow]

/-- **Packing takes residues to residues**: reduction modulo `f(X^n)` before it is reduction modulo `f(Y)` after. -/
theorem pack_modByMonic [Nontrivial F] [Nontrivial E] (hn : 0 < n) {f : F[X]} (hf : f.Monic) (P : F[X]) :
    pack n w (P %ₘ expand F n f) = pack n w P %ₘ f.map (algebraMap F E) := by
  have hmonic : (expand F n f).Monic := hf.expand hn
  have hdegree : (P %ₘ expand F n f).degree < (n * f.natDegree : ℕ) := by
    rw [mul_comm, ← natDegree_expand, ← degree_eq_natDegree hmonic.ne_zero]
    exact degree_modByMonic_lt P hmonic
  have hpack : (pack n w (P %ₘ expand F n f)).degree < (f.map (algebraMap F E)).degree := by
    rw [hf.degree_map, degree_eq_natDegree hf.ne_zero, pack_eq_sum hdegree]
    exact degree_sum_C_mul_X_pow_lt _ _
  -- the quotient is packed as well
  have hsplit : pack n w (P %ₘ expand F n f) + f.map (algebraMap F E) * pack n w (P /ₘ expand F n f) = pack n w P := by
    rw [← pack_expand_mul hn, ← pack_add, modByMonic_add_div]
  exact (div_modByMonic_unique _ _ (hf.map _) ⟨hsplit, hpack⟩).2.symm

end Akita.Lib
