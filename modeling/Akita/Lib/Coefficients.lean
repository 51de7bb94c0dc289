import Akita.Lib.Numerals

/-!
# Polynomials by their coefficients

A polynomial from the list of its coefficients, low degree first; the polynomial that is
fixed by all its coefficients but the linear one and the sum of its values at zero and one;
and the polynomial that is fixed by all its coefficients but the constant one and a weighted
sum of these values.
-/

namespace Akita.Lib

open Polynomial List

variable {R : Type*} [CommRing R] {d : ℕ}

/-- The polynomial with the given coefficients, low degree first. -/
noncomputable def ofCoeffs : List R → R[X]
  | [] => 0
  | c :: cs => C c + X * ofCoeffs cs

theorem coeff_ofCoeffs (cs : List R) (n : ℕ) : (ofCoeffs cs).coeff n = cs.getD n 0 := by
  induction cs generalizing n with
  | nil => simp [ofCoeffs]
  | cons c cs ih =>
    cases n with
    | zero => simp [ofCoeffs]
    | succ n => simp [ofCoeffs, ih]

theorem natDegree_ofCoeffs_le (cs : List R) : (ofCoeffs cs).natDegree ≤ cs.length - 1 := by
  refine natDegree_le_iff_coeff_eq_zero.2 fun n hn => ?_
  rw [coeff_ofCoeffs, getD_eq_getElem?_getD, getElem?_eq_none (by omega), Option.getD_none]

@[simp] theorem eval_ofCoeffs_cons (c : R) (cs : List R) (x : R) :
    (ofCoeffs (c :: cs)).eval x = c + x * (ofCoeffs cs).eval x := by
  simp [ofCoeffs]

theorem eval_ofCoeffs_one (cs : List R) : (ofCoeffs cs).eval 1 = cs.sum := by
  induction cs with
  | nil => simp [ofCoeffs]
  | cons c cs ih => simp [ih]

theorem ofCoeffs_append_replicate_zero (cs : List R) (n : ℕ) : ofCoeffs (cs ++ replicate n 0) = ofCoeffs cs := by
  ext i
  rw [coeff_ofCoeffs, coeff_ofCoeffs, getD_eq_getElem?_getD, getD_eq_getElem?_getD]
  by_cases hi : i < cs.length
  · rw [getElem?_append_left hi]
  · rw [getElem?_append_right (by omega), getElem?_eq_none (by omega : cs.length ≤ i), getElem?_replicate]
    split <;> simp

/-- The coefficients but the linear one, up to degree `d`. -/
def nonlinear (d : ℕ) (g : R[X]) : List R := g.coeff 0 :: (List.range (d - 1)).map fun i => g.coeff (i + 2)

theorem nonlinear_length (hd : 0 < d) (g : R[X]) : (nonlinear d g).length = d := by
  simp only [nonlinear, length_cons, length_map, length_range]
  omega

/-- The polynomial with the given coefficients but the linear one, whose values at zero and one
add up to `hint`. -/
noncomputable def fromHint (hint : R) : List R → R[X]
  | [] => 0
  | c :: cs => ofCoeffs (c :: (hint - c - c - cs.sum) :: cs)

section

variable {hint : R} {body : List R}

theorem fromHint_sum (h : body ≠ []) : (fromHint hint body).eval 0 + (fromHint hint body).eval 1 = hint := by
  cases body with
  | nil => exact absurd rfl h
  | cons c cs =>
    simp only [fromHint, eval_ofCoeffs_cons, eval_ofCoeffs_one, zero_mul, one_mul]
    ring

theorem natDegree_fromHint_le (h : body ≠ []) : (fromHint hint body).natDegree ≤ body.length := by
  cases body with
  | nil => exact absurd rfl h
  | cons c cs => exact natDegree_ofCoeffs_le _

theorem nonlinear_fromHint (h : body ≠ []) : nonlinear body.length (fromHint hint body) = body := by
  cases body with
  | nil => exact absurd rfl h
  | cons c cs =>
    refine ext_getElem (nonlinear_length (by simp) _) fun i h1 h2 => ?_
    cases i with
    | zero => simp [nonlinear, fromHint, coeff_ofCoeffs]
    | succ i =>
      have hi : i < cs.length := by simpa using h2
      simp [nonlinear, fromHint, coeff_ofCoeffs, getD_eq_getElem?_getD, hi]

/-- **The linear coefficient is no freedom**: the others and the sum at zero and one determine a
polynomial of degree at most `d`. -/
theorem eq_fromHint (hd : 0 < d) {g : R[X]} (hdeg : g.natDegree ≤ d) (hsum : g.eval 0 + g.eval 1 = hint) :
    g = fromHint hint (nonlinear d g) := by
  have hcoeff : g = ofCoeffs (g.coeff 0 :: g.coeff 1 :: (range (d - 1)).map fun i => g.coeff (i + 2)) := by
    ext n
    rw [coeff_ofCoeffs]
    rcases n with _ | _ | n
    · simp
    · simp
    · by_cases hn : n < d - 1
      · simp [getD_eq_getElem?_getD, hn]
      · simp only [getD_eq_getElem?_getD, getElem?_cons_succ]
        rw [getElem?_eq_none (by simpa using hn), Option.getD_none]
        exact coeff_eq_zero_of_natDegree_lt (by omega)
  have h0 : g.eval 0 = g.coeff 0 := by rw [← coeff_zero_eq_eval_zero]
  have h1 : g.eval 1 = g.coeff 0 + (g.coeff 1 + ((range (d - 1)).map fun i => g.coeff (i + 2)).sum) := by
    conv_lhs => rw [hcoeff, eval_ofCoeffs_one]
    simp
  have hlin : g.coeff 1 = hint - g.coeff 0 - g.coeff 0 - ((range (d - 1)).map fun i => g.coeff (i + 2)).sum := by
    rw [← hsum, h0, h1]
    ring
  conv_lhs => rw [hcoeff, hlin]
  rfl

end

/-- The coefficients but the constant one, up to degree `d`. -/
def nonconstant (d : ℕ) (g : R[X]) : List R := (List.range d).map fun i => g.coeff (i + 1)

theorem nonconstant_length (d : ℕ) (g : R[X]) : (nonconstant d g).length = d := by simp [nonconstant]

/-- The polynomial with the given coefficients but the constant one, whose values at zero and one, weighted by
`1 - t` and `t`, add up to `hint`. -/
noncomputable def fromWeighted (hint t : R) (body : List R) : R[X] := ofCoeffs ((hint - t * body.sum) :: body)

section

variable {hint t : R} {body : List R}

theorem eval_fromWeighted (x : R) :
    (fromWeighted hint t body).eval x = hint - t * body.sum + x * (ofCoeffs body).eval x := eval_ofCoeffs_cons _ _ _

theorem fromWeighted_sum :
    (1 - t) * (fromWeighted hint t body).eval 0 + t * (fromWeighted hint t body).eval 1 = hint := by
  rw [eval_fromWeighted, eval_fromWeighted, eval_ofCoeffs_one]
  ring

theorem natDegree_fromWeighted_le : (fromWeighted hint t body).natDegree ≤ body.length := natDegree_ofCoeffs_le _

theorem nonconstant_fromWeighted : nonconstant body.length (fromWeighted hint t body) = body := by
  refine ext_getElem (nonconstant_length _ _) fun i h1 h2 => ?_
  simp [nonconstant, fromWeighted, coeff_ofCoeffs, getD_eq_getElem?_getD, h2]

/-- **The constant coefficient is no freedom**: the others and the weighted sum determine a polynomial of degree at
most `d`, whatever the weight. -/
theorem eq_fromWeighted {g : R[X]} (hdeg : g.natDegree ≤ d) (hsum : (1 - t) * g.eval 0 + t * g.eval 1 = hint) :
    g = fromWeighted hint t (nonconstant d g) := by
  have hcoeff : g = ofCoeffs (g.coeff 0 :: nonconstant d g) := by
    ext n
    rw [coeff_ofCoeffs]
    cases n with
    | zero => simp
    | succ n =>
      by_cases hn : n < d
      · simp [nonconstant, getD_eq_getElem?_getD, hn]
      · simp only [getD_eq_getElem?_getD, getElem?_cons_succ]
        rw [getElem?_eq_none (by rw [nonconstant_length]; omega), Option.getD_none]
        exact coeff_eq_zero_of_natDegree_lt (by omega)
  have h0 : g.eval 0 = g.coeff 0 := by rw [← coeff_zero_eq_eval_zero]
  have h1 : g.eval 1 = g.coeff 0 + (nonconstant d g).sum := by
    conv_lhs => rw [hcoeff, eval_ofCoeffs_one]
    simp
  have hconst : g.coeff 0 = hint - t * (nonconstant d g).sum := by
    rw [← hsum, h0, h1]
    ring
  conv_lhs => rw [hcoeff, hconst]
  rfl

end

end Akita.Lib
