import Akita.Lib.Negacyclic
import Akita.Spec.FieldReduction

/-!
# The ring operations compute in `F[X] / (X^D + 1)`

Each operation on coefficients is read in the negacyclic ring: an update adds a multiple of a
power of the root, `sigma` is the automorphism of its exponent, the shift multiplies by a
power of the root and the schoolbook convolution is the product.
-/

namespace Akita.FieldReduction.CyclotomicRing

open Lib Negacyclic Finset

section

variable {F : Type} [Field F] {D : ℕ} {a : CyclotomicRing F D} {k : ℕ}

theorem root_pow_sub (n : ℕ) (hn : D ≤ n) : root F D ^ (n - D) = -root F D ^ n := by
  conv_rhs => rw [← Nat.sub_add_cancel hn, pow_add, root_pow_self]
  ring

theorem value_update {out : CyclotomicRing F D} {i : Fin D} {c v : F} (hv : v = out i + c) :
    value F D (Function.update out i v) = value F D out + c • root F D ^ (i : ℕ) := by
  have hsum : Function.update out i v = out + Pi.single i c := by
    funext n
    by_cases hn : n = i
    · subst hn; simp [hv]
    · simp [hn]
  rw [hsum, map_add, value_single]

theorem update_ok {i : ℕ} (hi : i < D) {f : F → F} {c : F} (hf : ∀ n : Fin D, (n : ℕ) = i → f (a n) = a n + c) :
    ∃ out', update a i f = .ok out' ∧ value F D out' = value F D a + c • root F D ^ i ∧
      ∀ n : Fin D, (n : ℕ) ≠ i → out' n = a n := by
  refine ⟨Function.update a ⟨i, hi⟩ (f (a ⟨i, hi⟩)), by rw [update, dif_pos hi], ?_, ?_⟩
  · exact value_update (hf ⟨i, hi⟩ rfl)
  · intro n hn
    exact Function.update_of_ne (fun h => hn (by rw [h])) _ _

/-- An update at an index modulo `2D`: past `D` the sign flips. -/
theorem update_wrapped {n : ℕ} (hD : 0 < D) (c : F) :
    ∃ out', (if n % (2 * D) < D then update a (n % (2 * D)) (· + c) else update a (n % (2 * D) - D) (· - c)) =
      .ok out' ∧ value F D out' = value F D a + c • root F D ^ n := by
  have hlt : n % (2 * D) < 2 * D := Nat.mod_lt _ (by omega)
  have hpow := pow_mod_two_mul (root_pow_self F D) n
  split_ifs with h
  · obtain ⟨out', hok, hval, -⟩ := update_ok (a := a) h (f := (· + c)) fun _ _ => rfl
    exact ⟨out', hok, by rw [hval, hpow]⟩
  · obtain ⟨out', hok, hval, -⟩ := update_ok (a := a) (by omega : n % (2 * D) - D < D) (f := (· - c)) (c := -c)
      fun _ _ => sub_eq_add_neg _ _
    refine ⟨out', hok, ?_⟩
    rw [hval, root_pow_sub _ (by omega), hpow, smul_neg, neg_smul, neg_neg]

/-- **`sigma` is the automorphism of its exponent.** -/
theorem sigma_ok (hD : 0 < D) (hk : Odd k) (a : CyclotomicRing F D) :
    ∃ b, a.sigma k = .ok b ∧ value F D b = Negacyclic.sigma k hk (value F D a) := by
  have hodd : k % (2 * D) % 2 = 1 := by rw [Nat.mod_mod_of_dvd k ⟨D, rfl⟩]; exact Nat.odd_iff.1 hk
  have hpass : ∀ (out : CyclotomicRing F D) (j : Fin D), ∃ out',
      (if (j : ℕ) * (k % (2 * D)) % (2 * D) < D then update out ((j : ℕ) * (k % (2 * D)) % (2 * D)) (· + a j)
        else update out ((j : ℕ) * (k % (2 * D)) % (2 * D) - D) (· - a j)) = .ok out' ∧ True ∧
        value F D out' = value F D out + a j • root F D ^ (k * (j : ℕ)) := by
    intro out j
    obtain ⟨out', hok, hval⟩ := update_wrapped (a := out) (n := (j : ℕ) * (k % (2 * D))) hD (a j)
    refine ⟨out', hok, trivial, ?_⟩
    rw [hval, mul_comm k, pow_congr_two_mul (root_pow_self F D) ((Nat.mod_modEq k (2 * D)).mul_left (j : ℕ))]
  obtain ⟨b, hb, -, hval⟩ := foldlM_runs (l := List.finRange D) (P := fun _ _ => True) (μ := value F D) (s := 0)
    (fun _ j _ out _ _ => hpass out j) trivial
  refine ⟨b, ?_, ?_⟩
  · simp only [sigma, ensure, if_pos hD, if_pos hodd]
    exact hb
  · rw [hval, map_zero, zero_add, ← Fin.sum_univ_def, sigma_value]

theorem odd_two_mul_sub_one (hD : 0 < D) : Odd (2 * D - 1) := ⟨D - 1, by omega⟩

theorem sigmaM1_ok (hD : 0 < D) (a : CyclotomicRing F D) :
    ∃ b, a.sigmaM1 = .ok b ∧ value F D b = Negacyclic.sigma (2 * D - 1) (odd_two_mul_sub_one hD) (value F D a) := by
  obtain ⟨b, hb, hval⟩ := sigma_ok hD (odd_two_mul_sub_one hD) a
  refine ⟨b, ?_, hval⟩
  simp only [sigmaM1, ensure, if_pos hD]
  exact hb

/-- **The shift multiplies by a power of the root.** -/
theorem negacyclicShift_ok (a : CyclotomicRing F D) (hk : k < D) :
    ∃ b, a.negacyclicShift k = .ok b ∧ value F D b = value F D a * root F D ^ k := by
  have hmod : k % (2 * D) = k := Nat.mod_eq_of_lt (by omega)
  have hshift : k % D = k := Nat.mod_eq_of_lt hk
  rw [negacyclicShift, hmod]
  by_cases hzero : k = 0
  · exact ⟨a, by rw [if_pos hzero], by rw [hzero, pow_zero, mul_one]⟩
  · have hneg : decide (k ≥ D) = false := by simpa using hk
    simp only [if_neg hzero, hshift, hneg]
    -- every target is met once, so it still holds zero when it is written
    let target : Fin D → ℕ := fun i => if (i : ℕ) + k < D then i + k else i + k - D
    have hinj : ∀ i j : Fin D, target i = target j → i = j := by
      intro i j h
      have hi := i.isLt
      have hj := j.isLt
      simp only [target] at h
      split_ifs at h <;> exact Fin.ext (by omega)
    have hpass : ∀ (made : List (Fin D)) (i : Fin D) (rest : List (Fin D)) (out : CyclotomicRing F D),
        List.finRange D = made ++ i :: rest → (∀ n : Fin D, (∀ j ∈ made, target j ≠ n) → out n = 0) →
        ∃ out', (if (i : ℕ) + k < D then update out (i + k) (fun _ => if false ^^ decide ((i : ℕ) + k ≥ D) then -a i else a i)
            else update out (i + k - D) (fun _ => if false ^^ decide ((i : ℕ) + k ≥ D) then -a i else a i)) = .ok out' ∧
          (∀ n : Fin D, (∀ j ∈ made ++ [i], target j ≠ n) → out' n = 0) ∧
          value F D out' = value F D out + a i • root F D ^ ((i : ℕ) + k) := by
      intro made i rest out hl hP
      have hnew : ∀ j ∈ made, target j ≠ target i := by
        intro j hj h
        have hnodup := List.nodup_finRange D
        rw [hl, List.nodup_append] at hnodup
        exact hnodup.2.2 j hj i (by simp) (hinj _ _ h)
      have hi := i.isLt
      have hfresh : ∀ (c : F) (n : Fin D), (n : ℕ) = target i → c = out n + c := by
        intro c n hn
        rw [hP n fun j hj => hn ▸ hnew j hj, zero_add]
      have hkeep : ∀ out' : CyclotomicRing F D, (∀ n : Fin D, (n : ℕ) ≠ target i → out' n = out n) →
          ∀ n : Fin D, (∀ j ∈ made ++ [i], target j ≠ n) → out' n = 0 := by
        intro out' hother n hn
        rw [hother n fun h => hn i (by simp) h.symm, hP n fun j hj => hn j (by simp [hj])]
      by_cases hlt : (i : ℕ) + k < D
      · have htarget : target i = (i : ℕ) + k := if_pos hlt
        have hwrap : decide ((i : ℕ) + k ≥ D) = false := by simpa using hlt
        obtain ⟨out', hok, hv, hother⟩ := update_ok (a := out) hlt (f := fun _ => a i) fun n hn =>
          hfresh (a i) n (by rw [htarget, hn])
        rw [← htarget] at hother
        exact ⟨out', by simpa [hlt, hwrap] using hok, hkeep out' hother, hv⟩
      · have htarget : target i = (i : ℕ) + k - D := if_neg hlt
        have hwrap : decide ((i : ℕ) + k ≥ D) = true := by simpa using Nat.not_lt.1 hlt
        obtain ⟨out', hok, hv, hother⟩ := update_ok (a := out) (by omega : (i : ℕ) + k - D < D) (f := fun _ => -a i)
          fun n hn => hfresh (-a i) n (by rw [htarget, hn])
        rw [← htarget] at hother
        refine ⟨out', by simpa [hlt, hwrap] using hok, hkeep out' hother, ?_⟩
        rw [hv, root_pow_sub _ (by omega), smul_neg, neg_smul, neg_neg]
    obtain ⟨b, hb, -, hval⟩ := foldlM_runs (s := (0 : CyclotomicRing F D)) hpass (fun _ _ => rfl)
    refine ⟨b, hb, ?_⟩
    rw [hval, map_zero, zero_add, ← Fin.sum_univ_def, value_apply, sum_mul]
    exact sum_congr rfl fun i _ => by rw [pow_add, smul_mul_assoc]

theorem mulRow_ok (out rhs : CyclotomicRing F D) (i : Fin D) (c : F) :
    ∃ out', (List.finRange D).foldlM (fun out (j : Fin D) =>
      if (j : ℕ) < D - i then update out (i + j) (· + c * rhs j) else update out (j - (D - i)) (· - c * rhs j)) out =
        .ok out' ∧ value F D out' = value F D out + (c • root F D ^ (i : ℕ)) * value F D rhs := by
  have hpass : ∀ (out : CyclotomicRing F D) (j : Fin D), ∃ out',
      (if (j : ℕ) < D - i then update out (i + j) (· + c * rhs j) else update out (j - (D - i)) (· - c * rhs j)) =
        .ok out' ∧ True ∧ value F D out' = value F D out + (c * rhs j) • root F D ^ ((i : ℕ) + j) := by
    intro out j
    by_cases hlt : (j : ℕ) < D - i
    · obtain ⟨out', hok, hv, -⟩ := update_ok (a := out) (by omega : (i : ℕ) + j < D) (f := (· + c * rhs j))
        fun _ _ => rfl
      exact ⟨out', by rw [if_pos hlt]; exact hok, trivial, hv⟩
    · obtain ⟨out', hok, hv, -⟩ := update_ok (a := out) (by omega : (j : ℕ) - (D - i) < D) (f := (· - c * rhs j))
        (c := -(c * rhs j)) fun _ _ => sub_eq_add_neg _ _
      refine ⟨out', by rw [if_neg hlt]; exact hok, trivial, ?_⟩
      rw [hv, show (j : ℕ) - (D - i) = i + j - D by omega, root_pow_sub _ (by omega), smul_neg, neg_smul, neg_neg]
  obtain ⟨out', hok, -, hval⟩ := foldlM_runs (P := fun _ _ => True) (l := List.finRange D) (s := out)
    (fun _ j _ out _ _ => hpass out j) trivial
  refine ⟨out', hok, ?_⟩
  rw [hval, ← Fin.sum_univ_def, value_apply rhs, mul_sum]
  congr 1
  exact sum_congr rfl fun j _ => by rw [pow_add, smul_mul_smul_comm]

/-- **The convolution is the product.** -/
theorem mulAccumulateInto_ok [DecidableEq F] (lhs rhs dst : CyclotomicRing F D) :
    ∃ out, mulAccumulateInto lhs rhs dst = .ok out ∧ value F D out = value F D dst + value F D lhs * value F D rhs := by
  have hpass : ∀ (out : CyclotomicRing F D) (i : Fin D), ∃ out', (if lhs i = 0 then pure out else
      (List.finRange D).foldlM (fun out (j : Fin D) => if (j : ℕ) < D - i then update out (i + j) (· + lhs i * rhs j)
        else update out (j - (D - i)) (· - lhs i * rhs j)) out) = .ok out' ∧ True ∧
      value F D out' = value F D out + (lhs i • root F D ^ (i : ℕ)) * value F D rhs := by
    intro out i
    by_cases hzero : lhs i = 0
    · exact ⟨out, by rw [if_pos hzero]; rfl, trivial, by rw [hzero]; simp⟩
    · obtain ⟨out', hok, hv⟩ := mulRow_ok out rhs i (lhs i)
      exact ⟨out', by rw [if_neg hzero]; exact hok, trivial, hv⟩
  obtain ⟨out, hok, -, hval⟩ := foldlM_runs (P := fun _ _ => True) (l := List.finRange D) (s := dst)
    (fun _ i _ out _ _ => hpass out i) trivial
  refine ⟨out, hok, ?_⟩
  rw [hval, ← Fin.sum_univ_def, value_apply lhs, sum_mul]

/-- The product with the turned partner, as the trace and the opening row take it. -/
theorem partner_mul_ok [DecidableEq F] (hD : 0 < D) (ring p : CyclotomicRing F D) :
    ∃ partner product, p.sigmaM1 = .ok partner ∧ ring.mulAccumulateInto partner 0 = .ok product ∧
      value F D product = value F D ring * Negacyclic.sigma (2 * D - 1) (odd_two_mul_sub_one hD) (value F D p) := by
  obtain ⟨partner, hpartner, hvpartner⟩ := sigmaM1_ok hD p
  obtain ⟨product, hprod, hvproduct⟩ := mulAccumulateInto_ok ring partner 0
  rw [map_zero, zero_add, hvpartner] at hvproduct
  exact ⟨partner, product, hpartner, hprod, hvproduct⟩

theorem value_scale (a : CyclotomicRing F D) (k : F) : value F D (a.scale k) = k • value F D a := by
  have hsmul : a.scale k = k • a := by
    funext i
    exact mul_comm _ _
  rw [hsmul, map_smul]

end

/-!
## Inversion is complete

The recursion goes down the tower of even-power subrings. At every level the norm of the element has even powers only, so
the inverse of the norm below gives that of the element, and an element that is a unit has a norm that is one below. The
degree halves with every call, so a degree `2^k` takes `k + 1` of them.

Main results: `negacyclicInverse_spec`, `inverse_complete`.
-/

variable {F : Type} [Field F] [DecidableEq F] {n : ℕ} {a : CyclotomicRing F n}

theorem negacyclicMul_ok (lhs rhs : CyclotomicRing F n) :
    ∃ out, negacyclicMul lhs rhs = .ok out ∧ value F n out = value F n lhs * value F n rhs := by
  obtain ⟨out, hout, hval⟩ := mulAccumulateInto_ok lhs rhs 0
  rw [map_zero, zero_add] at hval
  exact ⟨out, hout, hval⟩

omit [DecidableEq F] in
theorem value_conjugate (hn : Even n) (a : CyclotomicRing F n) : value F n a.conjugate = conj hn (value F n a) :=
  (conj_value hn a).symm

omit [DecidableEq F] in
theorem value_lift (h : n = 2 * ((n + 1) / 2)) (q : CyclotomicRing F ((n + 1) / 2)) :
    value F n q.lift = double h (value F ((n + 1) / 2) q) := by
  refine value_eq_double h ?_ ?_
  · intro i j hij
    rw [lift, if_pos (by omega)]
    exact congrArg q (Fin.ext (by dsimp only; omega))
  · intro i hi
    rw [lift, if_neg (by omega)]

omit [DecidableEq F] in
theorem value_norm (h2 : (2 : F) ≠ 0) (hn : Even n) (hpos : 0 < n) (h : n = 2 * ((n + 1) / 2)) {norm : CyclotomicRing F n}
    (hfix : conj hn (value F n norm) = value F n norm) : value F n norm = double h (value F ((n + 1) / 2) norm.evenCoeffs) := by
  refine value_eq_double h ?_ fun i hi => odd_coeff_of_conj h2 hn hpos hfix hi
  intro i j hij
  exact congrArg norm (Fin.ext hij)

omit [DecidableEq F] in
theorem value_one (a : CyclotomicRing F 1) : value F 1 a = algebraMap F (Negacyclic F 1) (a 0) := by
  rw [value_apply, Fin.sum_univ_one, Fin.val_zero, pow_zero, Algebra.algebraMap_eq_smul_one]

omit [DecidableEq F] in
theorem negacyclic_nontrivial (hn : 0 < n) : Nontrivial (Negacyclic F n) := by
  apply AdjoinRoot.nontrivial
  have hdeg : (Polynomial.X ^ n + 1 : Polynomial F).degree = n := by simpa using Polynomial.degree_X_pow_add_C hn (1 : F)
  rw [hdeg]
  exact_mod_cast hn.ne'

/-- **The recursion** ends within `k + 1` calls, with an inverse exactly when there is one. -/
theorem negacyclicInverse_spec {k : ℕ} (h2 : (2 : F) ≠ 0) : ∀ {n depth : ℕ} (a : CyclotomicRing F n), n = 2 ^ k → k < depth →
    ∃ r, negacyclicInverse depth a = .ok r ∧ (∀ b, r = some b → value F n a * value F n b = 1) ∧
      (r = none → ¬ IsUnit (value F n a)) := by
  induction k with
  | zero =>
    intro n depth a hn hdepth
    obtain ⟨depth, rfl⟩ : ∃ below, depth = below + 1 := ⟨depth - 1, by omega⟩
    rw [pow_zero] at hn
    subst hn
    refine ⟨_, by rw [negacyclicInverse, dif_pos rfl], ?_⟩
    rw [value_one, fieldInverse]
    split_ifs with hzero
    · refine ⟨by simp, fun _ hunit => ?_⟩
      have hzero' : a 0 = 0 := hzero
      have := negacyclic_nontrivial (F := F) Nat.one_pos
      rw [hzero', map_zero] at hunit
      exact not_isUnit_zero hunit
    · refine ⟨fun b hb => ?_, by simp⟩
      have hzero' : a 0 ≠ 0 := hzero
      cases hb
      rw [value_one, ← map_mul]
      exact (congrArg _ (mul_inv_cancel₀ hzero')).trans (map_one _)
  | succ k ih =>
    intro n depth a hn hdepth
    obtain ⟨depth, rfl⟩ : ∃ below, depth = below + 1 := ⟨depth - 1, by omega⟩
    have hhalf : (n + 1) / 2 = 2 ^ k := by
      rw [hn, pow_succ]
      omega
    have hpos : 0 < (n + 1) / 2 := by rw [hhalf]; positivity
    have hn2 : n = 2 * ((n + 1) / 2) := by rw [hhalf, hn, pow_succ, mul_comm]
    have heven : Even n := ⟨(n + 1) / 2, by omega⟩
    obtain ⟨norm, hnorm, hvalue⟩ := negacyclicMul_ok a a.conjugate
    rw [value_conjugate heven] at hvalue
    have hfix : conj heven (value F n norm) = value F n norm := by
      rw [hvalue]
      exact conj_norm heven (by omega) _
    have hbelow := value_norm h2 heven (by omega) hn2 hfix
    obtain ⟨r, hr, hsome, hnone⟩ := ih norm.evenCoeffs hhalf (Nat.lt_of_succ_lt_succ hdepth)
    cases r with
    | none =>
      refine ⟨none, ?_, by simp, fun _ hunit => hnone rfl ?_⟩
      · rw [negacyclicInverse, dif_neg (by omega), hnorm, ok_bind, hr, ok_bind]
        rfl
      · -- the norm of a unit is a unit, and then a unit below
        have hnormUnit : IsUnit (value F n norm) := by
          rw [hvalue]
          exact hunit.mul (hunit.map (conj heven))
        rw [hbelow] at hnormUnit hfix
        exact isUnit_of_double h2 hpos hn2 hnormUnit heven hfix
    | some normInverse =>
      obtain ⟨b, hb, hvalueb⟩ := negacyclicMul_ok normInverse.lift a.conjugate
      refine ⟨some b, ?_, fun b' hb' => ?_, by simp⟩
      · rw [negacyclicInverse, dif_neg (by omega), hnorm, ok_bind, hr, ok_bind]
        dsimp only
        rw [hb, ok_bind]
        rfl
      · cases hb'
        rw [hvalueb, value_lift hn2, value_conjugate heven, mul_left_comm, ← hvalue, hbelow, mul_comm, ← map_mul, hsome _ rfl, map_one]

def one (n : ℕ) : CyclotomicRing F n := fun i => if (i : ℕ) = 0 then 1 else 0

omit [DecidableEq F] in
theorem value_ringOne (hn : 0 < n) : value F n (one n) = 1 := by
  have hsingle : (one n : CyclotomicRing F n) = Pi.single ⟨0, hn⟩ 1 := by
    funext i
    by_cases hi : (i : ℕ) = 0
    · have hfin : i = ⟨0, hn⟩ := Fin.ext hi
      rw [hfin, Pi.single_eq_same]
      rfl
    · rw [Pi.single_eq_of_ne (fun heq => hi (by rw [heq])), one, if_neg hi]
  rw [hsingle, value_single, pow_zero, one_smul]

theorem mul_eq_one_iff (hn : 0 < n) {b : CyclotomicRing F n} :
    mulAccumulateInto a b 0 = .ok (one n) ↔ value F n a * value F n b = 1 := by
  obtain ⟨out, hout, hval⟩ := negacyclicMul_ok a b
  rw [negacyclicMul] at hout
  rw [hout, Except.ok.injEq, ← hval, ← value_ringOne hn]
  exact ⟨fun heq => by rw [heq], fun heq => value_injective hn heq⟩

theorem isUnit_iff (hn : 0 < n) : IsUnit (value F n a) ↔ ∃ b, mulAccumulateInto a b 0 = .ok (one n) := by
  constructor
  · intro hunit
    obtain ⟨w, hw⟩ := hunit.exists_right_inv
    obtain ⟨b, rfl⟩ := value_surjective hn w
    exact ⟨b, (mul_eq_one_iff hn).2 hw⟩
  · rintro ⟨b, hb⟩
    exact IsUnit.of_mul_eq_one _ ((mul_eq_one_iff hn).1 hb)

omit [DecidableEq F] in
theorem result_unique (hn : 0 < n) {r r' : Option (CyclotomicRing F n)} (hsome : ∀ b, r = some b → value F n a * value F n b = 1)
    (hnone : r = none → ¬ IsUnit (value F n a)) (hsome' : ∀ b, r' = some b → value F n a * value F n b = 1)
    (hnone' : r' = none → ¬ IsUnit (value F n a)) : r = r' := by
  cases r with
  | none =>
    cases r' with
    | none => rfl
    | some b => exact absurd (IsUnit.of_mul_eq_one _ (hsome' b rfl)) (hnone rfl)
  | some b =>
    cases r' with
    | none => exact absurd (IsUnit.of_mul_eq_one _ (hsome b rfl)) (hnone' rfl)
    | some b' =>
      have hunit := IsUnit.of_mul_eq_one _ (hsome b rfl)
      rw [value_injective hn (hunit.mul_left_cancel ((hsome b rfl).trans (hsome' b' rfl).symm))]

/-- **Cyclotomic inversion is complete.** For a degree `2^k` and `2 ≠ 0`, the inverse ends within `k + 1` calls, with the same
result for every deeper stack: an element whose product with `a` is one when `a` is a unit, and none exactly when it is not,
in the ring and for the product of the code. -/
theorem inverse_complete (h2 : (2 : F) ≠ 0) {k D : ℕ} (hD : D = 2 ^ k) (a : CyclotomicRing F D) :
    ∃ r, (∀ depth, k < depth → a.inverse depth = .ok r) ∧ (∀ b, r = some b → mulAccumulateInto a b 0 = .ok (one D)) ∧
      (r = none ↔ ¬ IsUnit (value F D a)) ∧ (r = none ↔ ∀ b, mulAccumulateInto a b 0 ≠ .ok (one D)) := by
  have hpos : 0 < D := by rw [hD]; positivity
  have hpow : D.isPowerOfTwo := ⟨k, hD⟩
  obtain ⟨r, -, hsome, hnone⟩ := negacyclicInverse_spec h2 a hD (Nat.lt_succ_self k)
  have hunit : r = none ↔ ¬ IsUnit (value F D a) := by
    refine ⟨hnone, fun hnot => ?_⟩
    cases r with
    | none => rfl
    | some b => exact absurd (IsUnit.of_mul_eq_one _ (hsome b rfl)) hnot
  refine ⟨r, ?_, fun b hb => (mul_eq_one_iff hpos).2 (hsome b hb), hunit, ?_⟩
  · intro depth hdepth
    obtain ⟨r', hr', hsome', hnone'⟩ := negacyclicInverse_spec h2 a hD hdepth
    rw [inverse, if_pos hpow, hr', result_unique hpos hsome hnone hsome' hnone']
  · rw [hunit, isUnit_iff hpos, not_exists]

theorem inverse_complete_two : (2 : ZMod 3) ≠ 0 ∧ ∃ r, r ≠ none ∧
    ∀ depth, 1 < depth → CyclotomicRing.inverse depth (fun i => (i : ℕ) + 1 : CyclotomicRing (ZMod 3) 2) = .ok r := by
  have h2 : (2 : ZMod 3) ≠ 0 := by decide
  obtain ⟨r, hr, -⟩ := inverse_complete h2 (k := 1) (D := 2) rfl (fun i => (i : ℕ) + 1)
  refine ⟨h2, r, ?_, hr⟩
  have hrun : ((CyclotomicRing.inverse 2 (fun i => (i : ℕ) + 1 : CyclotomicRing (ZMod 3) 2)).toOption.map Option.isSome) = some true := by
    decide +kernel
  rw [hr 2 (by norm_num)] at hrun
  rintro rfl
  simp [Except.toOption] at hrun

end Akita.FieldReduction.CyclotomicRing
