import Akita.Lib.Numerals

/-!
# Equality-weighted sums over the cube

The 0/1 vectors of a length, the equality polynomial between a point and a vector, and a
multivariate polynomial with its first variables bound, one left free and the others on the
cube. Binding the variables one by one turns a weighted sum over the cube into a value of the
polynomial.
-/

namespace Akita.Lib

variable {R : Type*} [CommRing R]

/-- The 0/1 vectors of length `n`. -/
def boolCube (R : Type*) [CommRing R] : ℕ → List (List R)
  | 0 => [[]]
  | n + 1 => (boolCube R n).map (0 :: ·) ++ (boolCube R n).map (1 :: ·)

/-- `∏ (τ_i x_i + (1 - τ_i) (1 - x_i))`. -/
def eqMle : List R → List R → R
  | t :: τ, x :: xs => (t * x + (1 - t) * (1 - x)) * eqMle τ xs
  | _, _ => 1

/-- The sum of `g` over the cube, weighted by the equality polynomial at `τ`. -/
def cubeSum (τ : List R) (g : List R → R) : R := ((boolCube R τ.length).map fun x => eqMle τ x * g x).sum

theorem cubeSum_nil (g : List R → R) : cubeSum [] g = g [] := by simp [cubeSum, boolCube, eqMle]

/-- The first coordinate splits the sum into its two faces. -/
theorem cubeSum_cons (t : R) (τ : List R) (g : List R → R) :
    cubeSum (t :: τ) g = (1 - t) * cubeSum τ (fun x => g (0 :: x)) + t * cubeSum τ (fun x => g (1 :: x)) := by
  simp [cubeSum, boolCube, eqMle, Function.comp_def, List.sum_map_mul_left, mul_assoc]

theorem cubeSum_mul (τ : List R) (c : R) (g : List R → R) : cubeSum τ (fun x => c * g x) = c * cubeSum τ g := by
  simp only [cubeSum, mul_left_comm _ c, List.sum_map_mul_left]

theorem cubeSum_listSum {α : Type*} (τ : List R) (l : List α) (g : α → List R → R) :
    cubeSum τ (fun x => (l.map fun a => g a x).sum) = (l.map fun a => cubeSum τ (g a)).sum := by
  induction l with
  | nil => simp [cubeSum]
  | cons a l ih =>
    simp only [List.map_cons, List.sum_cons, ← ih]
    simp only [cubeSum, mul_add, List.sum_map_add]

/-! ## Weighted sums of lists -/

/-- The values weighted by their places; places without a value count for nothing. -/
def weightedSum (weights values : List R) : R := (weights.zipIdx.map fun w => w.1 * values.getD w.2 0).sum

theorem weightedSum_eq_zip {weights values : List R} (h : weights.length = values.length) :
    weightedSum weights values = ((weights.zip values).map fun p => p.1 * p.2).sum := by
  refine congrArg List.sum (List.ext_getElem (by simp [h]) fun i hi _ => ?_)
  have hlt : i < values.length := by simpa [h] using hi
  simp [hlt]

/-- The weighted sum of the extensions of many tables is that of their values. -/
theorem cubeSum_weightedSum (τ weights : List R) (f : List R → List R) :
    cubeSum τ (fun x => weightedSum weights (f x)) =
      weightedSum weights ((List.range weights.length).map fun i => cubeSum τ fun x => (f x).getD i 0) := by
  unfold weightedSum
  rw [cubeSum_listSum]
  refine congrArg List.sum (List.map_congr_left fun w hw => ?_)
  have hlt : w.2 < weights.length := by
    obtain ⟨_, h, _⟩ := List.mem_zipIdx hw
    omega
  rw [cubeSum_mul]
  simp [hlt]

section

open Polynomial List

variable {n : ℕ} {f : MvPolynomial (Fin n) R} {d : ℕ}

noncomputable def evalList (f : MvPolynomial (Fin n) R) (point : List R) : R :=
  MvPolynomial.eval (fun i : Fin n => point.getD i 0) f

/-- The polynomial with its first variables at `rs`, the next one free and the others at `xs`. -/
noncomputable def slice (f : MvPolynomial (Fin n) R) (rs xs : List R) : R[X] :=
  MvPolynomial.aeval (fun i : Fin n => if (i : ℕ) < rs.length then C (rs.getD i 0) else
    if (i : ℕ) = rs.length then X else C (xs.getD (i - rs.length - 1) 0)) f

theorem eval_slice (f : MvPolynomial (Fin n) R) (rs xs : List R) (y : R) :
    (slice f rs xs).eval y = evalList f (rs ++ y :: xs) := by
  have hpoint : ∀ i : Fin n, eval y (if (i : ℕ) < rs.length then C (rs.getD i 0) else
      if (i : ℕ) = rs.length then X else C (xs.getD (i - rs.length - 1) 0)) = (rs ++ y :: xs).getD i 0 := by
    intro i
    simp only [getD_eq_getElem?_getD]
    by_cases hlt : (i : ℕ) < rs.length
    · rw [if_pos hlt, getElem?_append_left hlt, eval_C]
    · rw [if_neg hlt, getElem?_append_right (by omega)]
      by_cases heq : (i : ℕ) = rs.length
      · simp [heq]
      · obtain ⟨k, hk⟩ : ∃ k, (i : ℕ) - rs.length = k + 1 := ⟨i - rs.length - 1, by omega⟩
        rw [if_neg heq, hk, getElem?_cons_succ, Nat.add_sub_cancel, eval_C]
  unfold slice evalList
  rw [MvPolynomial.aeval_def, MvPolynomial.eval₂_eq', eval_finsetSum, MvPolynomial.eval_eq']
  apply Finset.sum_congr rfl
  intro m _
  rw [eval_mul, eval_prod, algebraMap_eq, eval_C]
  congr 1
  apply Finset.prod_congr rfl
  intro i _
  rw [eval_pow, hpoint]

theorem natDegree_slice_le (hf : ∀ i, f.degreeOf i ≤ d) (rs xs : List R) : (slice f rs xs).natDegree ≤ d := by
  unfold slice
  rw [MvPolynomial.aeval_def, MvPolynomial.eval₂_eq']
  apply natDegree_sum_le_of_forall_le
  intro m hm
  rw [algebraMap_eq]
  refine (natDegree_C_mul_le _ _).trans ((natDegree_prod_le _ _).trans ?_)
  -- only the free variable has a degree
  have hfactor : ∀ i : Fin n, ((if (i : ℕ) < rs.length then C (rs.getD i 0) else
      if (i : ℕ) = rs.length then X else C (xs.getD (i - rs.length - 1) 0) : R[X]) ^ m i).natDegree ≤
        if (i : ℕ) = rs.length then m i else 0 := by
    intro i
    by_cases hlt : (i : ℕ) < rs.length
    · rw [if_pos hlt, ← C_pow, natDegree_C]
      exact Nat.zero_le _
    · rw [if_neg hlt]
      by_cases heq : (i : ℕ) = rs.length
      · rw [if_pos heq, if_pos heq]
        exact natDegree_X_pow_le _
      · rw [if_neg heq, if_neg heq, ← C_pow, natDegree_C]
  refine (Finset.sum_le_sum fun i _ => hfactor i).trans ?_
  by_cases hn : rs.length < n
  · have hsingle : ∀ i : Fin n, (if (i : ℕ) = rs.length then m i else 0) = if i = ⟨rs.length, hn⟩ then m i else 0 := by
      intro i
      simp only [Fin.ext_iff]
    rw [Finset.sum_congr rfl fun i _ => hsingle i, Finset.sum_ite_eq' Finset.univ]
    simp only [Finset.mem_univ, if_true]
    exact (MvPolynomial.monomial_le_degreeOf _ hm).trans (hf _)
  · rw [Finset.sum_eq_zero]
    · exact Nat.zero_le _
    · intro i _
      rw [if_neg (by omega)]

/-- The weighted sum of the slices over the variables after the free one. -/
noncomputable def cubeSlice (τ : List R) (f : MvPolynomial (Fin n) R) (rs : List R) : R[X] :=
  ((boolCube R τ.length).map fun x => C (eqMle τ x) * slice f rs x).sum

theorem eval_cubeSlice (τ : List R) (f : MvPolynomial (Fin n) R) (rs : List R) (y : R) :
    (cubeSlice τ f rs).eval y = cubeSum τ fun x => evalList f (rs ++ y :: x) := by
  unfold cubeSlice cubeSum
  rw [eval_listSum, map_map]
  congr 1
  apply map_congr_left
  intro x _
  simp [eval_slice]

theorem natDegree_cubeSlice_le (hf : ∀ i, f.degreeOf i ≤ d) (τ rs : List R) : (cubeSlice τ f rs).natDegree ≤ d := by
  unfold cubeSlice
  generalize boolCube R τ.length = vectors
  induction vectors with
  | nil => simp
  | cons x vectors ih =>
    rw [map_cons, sum_cons]
    exact natDegree_add_le_of_degree_le ((natDegree_C_mul_le _ _).trans (natDegree_slice_le hf rs x)) ih

theorem cubeSlice_faces (t : R) (τ : List R) (f : MvPolynomial (Fin n) R) (rs : List R) :
    (1 - t) * (cubeSlice τ f rs).eval 0 + t * (cubeSlice τ f rs).eval 1 =
      cubeSum (t :: τ) fun x => evalList f (rs ++ x) := by
  rw [eval_cubeSlice, eval_cubeSlice, cubeSum_cons]

end

end Akita.Lib
