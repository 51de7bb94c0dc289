import Akita.Lib.Coefficients

/-!
# Products folded at a power

A polynomial with fewer than `2d` coefficients folded at `X^d`: the negacyclic fold subtracts the upper half from
the lower one and the cyclic fold adds it. The negacyclic fold is the remainder modulo `X^d + 1`, the quotient is
the upper half, and twice the upper half is the difference of the two folds.
-/

namespace Akita.Lib

open Polynomial List

section

variable {R : Type*} [CommRing R] {P : R[X]} {d : ℕ}

def negacyclicFold (d : ℕ) (p : ℕ → R) : List R := (List.range d).map fun k => p k - p (k + d)

/-- The fold that adds the upper half. -/
def cyclicFold (d : ℕ) (p : ℕ → R) : List R := (List.range d).map fun k => p k + p (k + d)

def upperHalf {α : Type*} (d : ℕ) (p : ℕ → α) : List α := (List.range d).map fun k => p (k + d)

@[simp] theorem negacyclicFold_length (d : ℕ) (p : ℕ → R) : (negacyclicFold d p).length = d := by simp [negacyclicFold]

@[simp] theorem upperHalf_length {α : Type*} (d : ℕ) (p : ℕ → α) : (upperHalf d p).length = d := by simp [upperHalf]

theorem coeff_ofCoeffs_range (d : ℕ) (f : ℕ → R) (n : ℕ) :
    (ofCoeffs ((range d).map f)).coeff n = if n < d then f n else 0 := by
  rw [coeff_ofCoeffs, getD_eq_getElem?_getD, getElem?_map]
  by_cases hn : n < d
  · rw [getElem?_range hn, if_pos hn, Option.map_some, Option.getD_some]
  · rw [getElem?_eq_none (by simpa using hn), if_neg hn, Option.map_none, Option.getD_none]

/-- **A polynomial is its negacyclic fold and a multiple of `X^d + 1`**, by its upper half. -/
theorem eq_negacyclicFold_add (hP : ∀ n, 2 * d ≤ n → P.coeff n = 0) :
    P = ofCoeffs (negacyclicFold d P.coeff) + (X ^ d + 1) * ofCoeffs (upperHalf d P.coeff) := by
  ext n
  rw [coeff_add, add_mul, one_mul, coeff_add, coeff_X_pow_mul', negacyclicFold, upperHalf, coeff_ofCoeffs_range,
    coeff_ofCoeffs_range, coeff_ofCoeffs_range]
  by_cases hlow : n < d
  · rw [if_pos hlow, if_pos hlow, if_neg (by omega)]
    ring
  · rw [if_neg hlow, if_neg hlow, if_pos (by omega)]
    by_cases hhigh : n - d < d
    · rw [if_pos hhigh, Nat.sub_add_cancel (by omega)]
      ring
    · rw [if_neg hhigh, hP n (by omega)]
      ring

theorem degree_ofCoeffs_lt (cs : List R) : (ofCoeffs cs).degree < (cs.length : WithBot ℕ) := by
  rw [degree_lt_iff_coeff_zero]
  intro n hn
  rw [coeff_ofCoeffs, getD_eq_getElem?_getD, getElem?_eq_none hn, Option.getD_none]

/-- **The negacyclic fold is the remainder** modulo `X^d + 1`. -/
theorem negacyclicFold_eq_mod (hd : 0 < d) (hP : ∀ n, 2 * d ≤ n → P.coeff n = 0) :
    ofCoeffs (negacyclicFold d P.coeff) = P %ₘ (X ^ d + 1) := by
  nontriviality R
  have hmonic : (X ^ d + 1 : R[X]).Monic := by
    rw [← C_1]
    exact monic_X_pow_add_C 1 hd.ne'
  have hdegree : (X ^ d + 1 : R[X]).degree = d := by
    rw [← C_1]
    exact degree_X_pow_add_C hd 1
  refine ((div_modByMonic_unique (ofCoeffs (upperHalf d P.coeff)) _ hmonic ⟨(eq_negacyclicFold_add hP).symm, ?_⟩).2).symm
  rw [hdegree]
  exact (degree_ofCoeffs_lt _).trans_eq (by rw [negacyclicFold_length])

theorem zipWith_half_folds {half : R → R} (hhalf : ∀ x, half (x + x) = x) (d : ℕ) (p : ℕ → R) :
    (cyclicFold d p).zipWith (fun c n => half (c - n)) (negacyclicFold d p) = upperHalf d p := by
  rw [cyclicFold, negacyclicFold, upperHalf, zipWith_map, zipWith_self]
  refine map_congr_left fun k _ => ?_
  rw [add_sub_sub_cancel, hhalf]

theorem coeff_mul_ofCoeffs {as bs : List R} (ha : as.length ≤ d) (hb : bs.length ≤ d) (n : ℕ) :
    (ofCoeffs as * ofCoeffs bs).coeff n =
      ∑ i ∈ Finset.range d, if i ≤ n ∧ n - i < d then as.getD i 0 * bs.getD (n - i) 0 else 0 := by
  have hvanish : ∀ (cs : List R), cs.length ≤ d → ∀ k, d ≤ k → cs.getD k 0 = 0 := fun cs hcs k hk => by
    rw [getD_eq_getElem?_getD, getElem?_eq_none (by omega), Option.getD_none]
  rw [coeff_mul, Finset.Nat.sum_antidiagonal_eq_sum_range_succ_mk]
  simp only [coeff_ofCoeffs]
  rw [← Finset.sum_filter]
  -- only the indices at which both factors are below `d` contribute
  refine (Finset.sum_subset_zero_on_sdiff (fun i hi => ?_) (fun i hi => ?_) fun i _ => rfl).symm
  · simp only [Finset.mem_filter, Finset.mem_range] at hi ⊢
    omega
  · simp only [Finset.mem_sdiff, Finset.mem_filter, Finset.mem_range, not_and, not_lt] at hi
    by_cases hid : i < d
    · rw [hvanish bs hb _ (hi.2 hid (by omega)), mul_zero]
    · rw [hvanish as ha _ (not_lt.1 hid), zero_mul]

end

/-!
## Shifts modulo `X^d + 1`

The shift of a polynomial by one more power, reduced modulo `X^d + 1`: the coefficient that leaves at the top comes back at
the bottom with the other sign. So the values of the shifts at a point follow one recurrence, at the roots of the modulus too,
and the value of a reduced product is the sum of the values of the shifts.
-/

open Finset

variable {E : Type*} [Field E] {d : ℕ} {A : E[X]}

/-- `A X^j` reduced. -/
noncomputable def shiftMod (d : ℕ) (A : E[X]) (j : ℕ) : E[X] := (A * X ^ j) %ₘ (X ^ d + 1)

theorem modulus_monic (hd : 0 < d) : (X ^ d + 1 : E[X]).Monic := by simpa using monic_X_pow_add_C (1 : E) hd.ne'

theorem modulus_degree (hd : 0 < d) : (X ^ d + 1 : E[X]).degree = d := by simpa using degree_X_pow_add_C hd (1 : E)

theorem coeff_modulus (i : ℕ) : (X ^ d + 1 : E[X]).coeff i = (if i = d then 1 else 0) + if i = 0 then 1 else 0 := by
  rw [coeff_add, coeff_X_pow, coeff_one]

theorem shiftMod_zero (hd : 0 < d) (hA : A.degree < d) : shiftMod d A 0 = A := by
  rw [shiftMod, pow_zero, mul_one, modByMonic_eq_self_iff (modulus_monic hd), modulus_degree hd]
  exact hA

theorem coeff_shiftMod_of_le (hd : 0 < d) {i : ℕ} (hi : d ≤ i) (j : ℕ) : (shiftMod d A j).coeff i = 0 := by
  have hdeg := degree_modByMonic_lt (A * X ^ j) (modulus_monic (E := E) hd)
  rw [modulus_degree hd] at hdeg
  exact coeff_eq_zero_of_degree_lt (hdeg.trans_le (by exact_mod_cast hi))

/-- **One more power**: the top coefficient wraps. -/
theorem shiftMod_succ (hd : 0 < d) (j : ℕ) :
    shiftMod d A (j + 1) = X * shiftMod d A j - C ((shiftMod d A j).coeff (d - 1)) * (X ^ d + 1) := by
  set c := (shiftMod d A j).coeff (d - 1) with hc
  refine (div_modByMonic_unique (X * (A * X ^ j /ₘ (X ^ d + 1)) + C c) _ (modulus_monic hd) ⟨?_, ?_⟩).2
  · have hdiv := modByMonic_add_div (A * X ^ j) (X ^ d + 1 : E[X])
    rw [← shiftMod] at hdiv
    linear_combination X * hdiv
  · -- what is left has no coefficient from `d` on
    rw [modulus_degree hd, degree_lt_iff_coeff_zero]
    intro i hi
    obtain ⟨i, rfl⟩ : ∃ below, i = below + 1 := ⟨i - 1, by omega⟩
    rw [coeff_sub, coeff_X_mul, coeff_C_mul, coeff_modulus, if_neg (Nat.succ_ne_zero i), add_zero]
    split_ifs with heq
    · rw [hc, mul_one, ← heq, Nat.add_sub_cancel, sub_self]
    · rw [mul_zero, sub_zero, coeff_shiftMod_of_le hd (by omega)]

theorem coeff_shiftMod (hd : 0 < d) (hA : A.degree < d) (j : ℕ) : ∀ i, j ≤ i → i < d → (shiftMod d A j).coeff i = A.coeff (i - j) := by
  induction j with
  | zero =>
    intro i _ _
    rw [shiftMod_zero hd hA, Nat.sub_zero]
  | succ j ih =>
    intro i hji hid
    obtain ⟨i, rfl⟩ : ∃ below, i = below + 1 := ⟨i - 1, by omega⟩
    rw [shiftMod_succ hd, coeff_sub, coeff_X_mul, coeff_C_mul, coeff_modulus, if_neg (by omega), if_neg (Nat.succ_ne_zero i),
      add_zero, mul_zero, sub_zero, ih i (by omega) (by omega), Nat.add_sub_add_right]

/-- **The recurrence of the values.** -/
theorem eval_shiftMod_succ (hd : 0 < d) (hA : A.degree < d) {j : ℕ} (hj : j < d) (x : E) :
    (shiftMod d A (j + 1)).eval x = x * (shiftMod d A j).eval x - (x ^ d + 1) * A.coeff (d - 1 - j) := by
  rw [shiftMod_succ hd, coeff_shiftMod hd hA j (d - 1) (by omega) (by omega)]
  simp only [eval_sub, eval_mul, eval_X, eval_C, eval_add, eval_pow, eval_one]
  ring

/-- **A reduced product** is the sum of the shifts. -/
theorem sum_shiftMod {w : E[X]} (hw : w.degree < d) (x : E) :
    ∑ j ∈ range d, (shiftMod d A j).eval x * w.coeff j = ((A * w) %ₘ (X ^ d + 1)).eval x := by
  have hdeg : w.natDegree < d ∨ w = 0 := by
    rcases eq_or_ne w 0 with hzero | hne
    · exact Or.inr hzero
    · exact Or.inl ((natDegree_lt_iff_degree_lt hne).2 hw)
  rcases hdeg with hdeg | rfl
  · have hexpand : A * w = ∑ j ∈ range d, w.coeff j • (A * X ^ j) := by
      conv_lhs => rw [w.as_sum_range_C_mul_X_pow' hdeg, mul_sum]
      refine sum_congr rfl fun j _ => ?_
      rw [smul_eq_C_mul]
      ring
    rw [hexpand, ← modByMonicHom_apply, map_sum, eval_finsetSum]
    refine sum_congr rfl fun j _ => ?_
    rw [map_smul, modByMonicHom_apply, eval_smul, smul_eq_mul, mul_comm, shiftMod]
  · simp

end Akita.Lib
