import Mathlib.Data.List.GetD
import Akita.Lib.Accumulate
import Akita.Lib.Wraparound
import Akita.Lib.Summary
import Akita.Spec.ResidueKernel

/-!
# Residue kernels evaluate reduced products

A prepared point holds the powers of `alpha` and the value of the modulus. The recurrence of a kernel is that of the values of
the reduced shifts, with the coefficients of the multiplier from the top down as its wraps. The dense variants read the wraps
from the reversed weights; the sparse one finds them among its sorted terms, and meets every term above the wrap position
before.

Main results: `new_ok`, `kernelWithInto_eq`, `sparseKernel_iff`, `residue_kernels_exact`.
-/

namespace Akita.ResidueKernel

open Polynomial Finset Lib
open List hiding map_cons map_singleton mem_range mem_singleton mem_singleton_self map_map

variable {E : Type} [Field E] {d : ℕ} {alpha : E} {A : E[X]}

noncomputable def residues (alpha : E) (d : ℕ) (A : E[X]) : List E := (List.range d).map fun j => (shiftMod d A j).eval alpha

/-- The recurrence: each wrap gives the next value. -/
def recurrence (alpha modulus : E) : E → List E → List E
  | _, [] => []
  | current, wrap :: wraps =>
    let current := alpha * current - modulus * wrap
    current :: recurrence alpha modulus current wraps

variable (alpha) in
/-- **The recurrence from a value on** gives the values of the later shifts. -/
theorem recurrence_eq (hd : 0 < d) (hA : A.degree < d) : ∀ (n j : ℕ), j + n < d →
    recurrence alpha (alpha ^ d + 1) ((shiftMod d A j).eval alpha) ((List.range n).map fun i => A.coeff (d - 1 - j - i)) =
      (List.range n).map fun i => (shiftMod d A (j + 1 + i)).eval alpha := by
  intro n
  induction n with
  | zero =>
    intro j _
    rfl
  | succ n ih =>
    intro j hj
    have hnext := ih (j + 1) (by omega)
    have hwraps : ((List.range n).map fun i => A.coeff (d - 1 - j - (i + 1))) = (List.range n).map fun i => A.coeff (d - 1 - (j + 1) - i) :=
      map_congr_left fun i _ => by rw [show d - 1 - j - (i + 1) = d - 1 - (j + 1) - i by omega]
    have hvalues : ((List.range n).map fun i => (shiftMod d A (j + 1 + (i + 1))).eval alpha) =
        (List.range n).map fun i => (shiftMod d A (j + 1 + 1 + i)).eval alpha :=
      map_congr_left fun i _ => by rw [show j + 1 + (i + 1) = j + 1 + 1 + i by omega]
    rw [range_succ_eq_map, List.map_cons, List.map_map, List.map_cons, List.map_map, recurrence]
    dsimp only [Function.comp_def]
    rw [Nat.sub_zero, add_zero, ← eval_shiftMod_succ hd hA (by omega), hwraps, hvalues, hnext]

theorem residues_eq_recurrence (hd : 0 < d) (hA : A.degree < d) : residues alpha d A =
    A.eval alpha :: recurrence alpha (alpha ^ d + 1) (A.eval alpha) ((List.range (d - 1)).map fun i => A.coeff (d - 1 - i)) := by
  have hrest := recurrence_eq alpha hd hA (d - 1) 0 (by omega)
  simp only [shiftMod_zero hd hA, Nat.sub_zero, zero_add] at hrest
  obtain ⟨n, rfl⟩ : ∃ n, d = n + 1 := ⟨d - 1, by omega⟩
  rw [Nat.add_sub_cancel] at hrest ⊢
  rw [hrest, residues, range_succ_eq_map, List.map_cons, List.map_map, shiftMod_zero hd hA]
  refine congrArg _ (map_congr_left fun i _ => ?_)
  rw [Function.comp_apply, add_comm 1 i]

namespace ResidueKernelPoint

/-! ## Preparation -/

structure Prepared (alpha : E) (d : ℕ) (point : ResidueKernelPoint E) : Prop where
  alpha_eq : point.alpha = alpha
  powers_eq : point.powers = (List.range d).map fun i => alpha ^ i
  modulus_eq : point.modulusEvaluation = alpha ^ d + 1

theorem Prepared.dimension_eq {point : ResidueKernelPoint E} (h : Prepared alpha d point) : point.dimension = d := by
  rw [dimension, h.powers_eq, length_map, length_range]

theorem prepare_eq (alpha : E) (n : ℕ) :
    (List.range n).foldl (fun state _ => (state.1 ++ [state.2], state.2 * alpha)) (([] : List E), (1 : E)) =
      ((List.range n).map fun i => alpha ^ i, alpha ^ n) := by
  induction n with
  | zero => simp
  | succ n ih => rw [range_succ, foldl_append, ih, foldl_cons, foldl_nil, map_append, List.map_singleton, pow_succ]

variable (alpha) in
/-- **A power of two is prepared.** -/
theorem new_ok (hd : d.isPowerOfTwo) : ∃ point, new alpha d = .ok point ∧ Prepared alpha d point := by
  have hne : d ≠ 0 := by
    obtain ⟨k, rfl⟩ := hd
    exact (Nat.two_pow_pos k).ne'
  refine ⟨⟨alpha, (List.range d).map fun i => alpha ^ i, alpha ^ d + 1⟩, ?_, ⟨rfl, rfl, rfl⟩⟩
  unfold new
  rw [prepare_eq, ensure_bind (by simp [hne, hd])]
  rfl

variable {point : ResidueKernelPoint E}

/-! ## Dense multipliers -/

section

variable {W : Type} {multiply : E → W → E} {embed : W → E} {weights : List W}

theorem wrapSlots_eq (h : Prepared alpha d point) (hmul : ∀ v w, multiply v w = v * embed w) :
    ∀ (wraps : List W) (slots : List E) (current : E), slots.length = wraps.length →
      point.wrapSlots multiply current slots wraps = recurrence alpha (alpha ^ d + 1) current (wraps.map embed) := by
  intro wraps
  induction wraps with
  | nil =>
    intro slots current hlen
    obtain rfl := length_eq_zero_iff.1 hlen
    simp [wrapSlots, recurrence]
  | cons wrap wraps ih =>
    intro slots current hlen
    cases slots with
    | nil => simp at hlen
    | cons slot slots =>
      rw [wrapSlots, List.map_cons, recurrence, h.alpha_eq, h.modulus_eq, hmul, ih slots _ (by simpa using hlen)]

theorem weights_sum_from (hmul : ∀ v w, multiply v w = v * embed w) : ∀ (weights : List W) (start : ℕ) (sum : E),
    (weights.zip ((range' start weights.length).map fun i => alpha ^ i)).foldl (fun sum term => sum + multiply term.2 term.1) sum =
      sum + alpha ^ start * (ofCoeffs (weights.map embed)).eval alpha := by
  intro weights
  induction weights with
  | nil =>
    intro start sum
    simp [ofCoeffs]
  | cons weight weights ih =>
    intro start sum
    rw [length_cons, range'_succ, List.map_cons, zip_cons_cons, foldl_cons, ih, hmul, List.map_cons,
      eval_ofCoeffs_cons, pow_succ]
    ring

theorem weights_sum (h : Prepared alpha d point) (hmul : ∀ v w, multiply v w = v * embed w) (hlen : weights.length = d) :
    (weights.zip point.powers).foldl (fun sum term => sum + multiply term.2 term.1) 0 = (ofCoeffs (weights.map embed)).eval alpha := by
  rw [h.powers_eq, range_eq_range', ← hlen, weights_sum_from hmul, zero_add, pow_zero, one_mul]

theorem degree_ofCoeffs_lt {weights : List E} (hlen : weights.length = d) : (ofCoeffs weights).degree < d := by
  rw [degree_lt_iff_coeff_zero]
  intro i hi
  rw [coeff_ofCoeffs, getD_eq_default _ _ (by omega)]

theorem reversed_wraps {weights : List E} (hlen : weights.length = d) :
    weights.reverse.take (d - 1) = (List.range (d - 1)).map fun i => (ofCoeffs weights).coeff (d - 1 - i) := by
  refine ext_getElem (by simp [hlen]) fun i hi hi' => ?_
  rw [length_map, length_range] at hi'
  rw [getElem_take, getElem_reverse, getElem_map, getElem_range, coeff_ofCoeffs, getD_eq_getElem _ _ (by omega)]
  congr 1
  omega

section

variable (h : Prepared alpha d point) (hd : 0 < d) (hmul : ∀ v w, multiply v w = v * embed w) (hweights : weights.length = d)

include h hd hmul hweights

/-- **A dense kernel**, whatever its buffer held. -/
theorem kernelWithInto_eq {output : List E} (houtput : output.length = d) :
    point.kernelWithInto multiply weights output = .ok (residues alpha d (ofCoeffs (weights.map embed))) := by
  have hmap : (weights.map embed).length = d := by rw [length_map, hweights]
  cases output with
  | nil =>
    simp only [length_nil] at houtput
    omega
  | cons slot slots =>
    have hslots : slots.length = (weights.reverse.take (d - 1)).length := by
      rw [length_take, length_reverse, hweights]
      simp only [length_cons] at houtput
      omega
    unfold kernelWithInto
    rw [h.dimension_eq, ensure_bind (by simp [hweights, houtput])]
    dsimp only
    rw [wrapSlots_eq h hmul _ _ _ hslots, weights_sum h hmul hweights, map_take, map_reverse, reversed_wraps hmap,
      residues_eq_recurrence hd (degree_ofCoeffs_lt hmap)]
    rfl

theorem kernelWith_eq : point.kernelWith multiply weights = .ok (residues alpha d (ofCoeffs (weights.map embed))) :=
  kernelWithInto_eq h hd hmul hweights (by rw [length_replicate, h.dimension_eq])

end

end

/-! ## Sparse multipliers -/

section sparse

variable {terms : List (ℕ × E)}

noncomputable def termSum (terms : List (ℕ × E)) : E[X] := (terms.map fun t => C t.2 * X ^ t.1).sum

theorem termSum_perm {terms' : List (ℕ × E)} (h : terms.Perm terms') : termSum terms = termSum terms' := (h.map _).sum_eq

theorem termSum_append (terms terms' : List (ℕ × E)) : termSum (terms ++ terms') = termSum terms + termSum terms' := by
  rw [termSum, map_append, sum_append, termSum, termSum]

theorem coeff_termSum (terms : List (ℕ × E)) (i : ℕ) : (termSum terms).coeff i = (terms.map fun t => if i = t.1 then t.2 else 0).sum := by
  induction terms with
  | nil => simp [termSum]
  | cons t terms ih =>
    rw [← singleton_append, termSum_append, coeff_add, ih, map_append, sum_append]
    simp [termSum, coeff_C_mul, coeff_X_pow]

theorem coeff_termSum_of_ne {i : ℕ} (h : ∀ t ∈ terms, t.1 ≠ i) : (termSum terms).coeff i = 0 := by
  rw [coeff_termSum]
  apply List.sum_eq_zero
  intro x hx
  obtain ⟨t, ht, rfl⟩ := List.mem_map.1 hx
  exact if_neg fun heq => h t ht heq.symm

theorem degree_termSum_lt (h : ∀ t ∈ terms, t.1 < d) : (termSum terms).degree < d := by
  rw [degree_lt_iff_coeff_zero]
  intro i hi
  exact coeff_termSum_of_ne fun t ht heq => absurd (h t ht) (by omega)

theorem eval_termSum (terms : List (ℕ × E)) (x : E) : (termSum terms).eval x = (terms.map fun t => t.2 * x ^ t.1).sum := by
  induction terms with
  | nil => simp [termSum]
  | cons t terms ih =>
    rw [← singleton_append, termSum_append, eval_add, ih, map_append, sum_append]
    simp [termSum]

/-- **The wraps found among the sorted terms**: those above the wrap position are met, the others are still in front. -/
theorem wrapTerms_eq (h : Prepared alpha d point) : ∀ (n : ℕ) (front back : List (ℕ × E)) (current : E),
    (front ++ back).Pairwise (fun s t => s.1 < t.1) → (∀ t ∈ front, t.1 ≤ n) → (∀ t ∈ back, n < t.1) →
    point.wrapTerms (front ++ back) n current front.length = recurrence alpha (alpha ^ d + 1) current
      ((List.range n).map fun i => (termSum (front ++ back)).coeff (n - i)) := by
  intro n
  induction n with
  | zero =>
    intro front back current _ _ _
    rfl
  | succ n ih =>
    intro front back current hsorted hfront hback
    have hwraps : ((List.range (n + 1)).map fun i => (termSum (front ++ back)).coeff (n + 1 - i)) =
        (termSum (front ++ back)).coeff (n + 1) :: (List.range n).map fun i => (termSum (front ++ back)).coeff (n - i) := by
      rw [range_succ_eq_map, List.map_cons, List.map_map, Nat.sub_zero]
      refine congrArg _ (map_congr_left fun i _ => ?_)
      rw [Function.comp_apply, Nat.add_sub_add_right]
    rw [hwraps, recurrence, wrapTerms, h.alpha_eq, h.modulus_eq]
    rcases eq_nil_or_concat front with rfl | ⟨init, t, hconcat⟩
    · -- every term is met already
      have hzero : (termSum ([] ++ back)).coeff (n + 1) = 0 := coeff_termSum_of_ne fun t ht => (hback t ht).ne'
      simp only [length_nil, ne_eq, not_true_eq_false, false_and, decide_false, Bool.false_eq_true, if_false]
      rw [hzero, ← ih [] back _ hsorted (by simp) fun t ht => Nat.lt_of_succ_lt (hback t ht)]
      rfl
    · rw [concat_eq_append] at hconcat
      subst hconcat
      have hlast : ((init ++ [t]) ++ back).getD ((init ++ [t]).length - 1) (0, 0) = t := by
        rw [length_append, length_singleton, Nat.add_sub_cancel, append_assoc, getD_append_right _ _ _ _ le_rfl,
          Nat.sub_self]
        rfl
      have hpos : (init ++ [t]).length ≠ 0 := by simp
      have hbelow : ∀ s ∈ init, s.1 < t.1 := by
        intro s hs
        have hpairs := (pairwise_append.1 hsorted).1
        exact (pairwise_append.1 hpairs).2.2 s hs t (List.mem_singleton_self t)
      have ht := hfront t (by simp)
      simp only [hlast, hpos, ne_eq, not_false_eq_true, true_and, decide_eq_true_eq]
      by_cases hit : t.1 = n + 1
      · -- the last term in front is the wrap
        have hsame : init ++ [t] ++ back = init ++ (t :: back) := by simp
        have hcoeff : (termSum (init ++ [t] ++ back)).coeff (n + 1) = t.2 := by
          have hinit : (termSum init).coeff (n + 1) = 0 := coeff_termSum_of_ne fun s hs heq => by
            have := hbelow s hs
            omega
          have hbackZero : (termSum back).coeff (n + 1) = 0 := coeff_termSum_of_ne fun s hs => (hback s hs).ne'
          rw [termSum_append, termSum_append, coeff_add, coeff_add, hinit, hbackZero, zero_add, add_zero, coeff_termSum]
          simp [hit]
        have hrest := ih init (t :: back) (alpha * current - (alpha ^ d + 1) * t.2) (hsame ▸ hsorted)
          (fun s hs => by have := hbelow s hs; omega) (by
            rintro s (_ | ⟨_, hs⟩)
            · omega
            · exact Nat.lt_of_succ_lt (hback s hs))
        rw [if_pos hit, if_pos hit, length_append, length_singleton, Nat.add_sub_cancel, hcoeff, hsame, hrest]
      · have hcoeff : (termSum (init ++ [t] ++ back)).coeff (n + 1) = 0 := by
          apply coeff_termSum_of_ne
          intro s hs heq
          rcases mem_append.1 hs with hs | hs
          · rcases mem_append.1 hs with hs | hs
            · have := hbelow s hs
              omega
            · obtain rfl := List.mem_singleton.1 hs
              exact hit heq
          · exact absurd (hback s hs) (by omega)
        have hrest := ih (init ++ [t]) back (alpha * current - (alpha ^ d + 1) * 0) hsorted (fun s hs => by
            rcases mem_append.1 hs with hs | hs
            · have := hbelow s hs
              omega
            · obtain rfl := List.mem_singleton.1 hs
              omega) fun s hs => Nat.lt_of_succ_lt (hback s hs)
        rw [if_neg hit, if_neg hit, hcoeff, hrest]

/-! ### The checks -/

variable [DecidableEq E]

theorem checkTerm_iff (h : Prepared alpha d point) {entry : (ℕ × E) × ℕ} : point.checkTerm terms entry = .ok () ↔
    entry.1.1 < d ∧ entry.1.2 ≠ 0 ∧ (entry.2 ≠ 0 → (terms[entry.2 - 1]?.map Prod.fst) ≠ some entry.1.1) := by
  unfold checkTerm
  simp only [result_ok, h.dimension_eq, not_le, not_and]

/-- **The checks of the sorted terms**: in range, nonzero and strictly increasing. -/
theorem checks_iff (h : Prepared alpha d point) (hsorted : terms.Pairwise fun s t => s.1 ≤ t.1) :
    terms.zipIdx.forM (point.checkTerm terms) = .ok () ↔
      (∀ t ∈ terms, t.1 < d ∧ t.2 ≠ 0) ∧ terms.Pairwise fun s t => s.1 < t.1 := by
  rw [forM_eq_ok]
  constructor
  · intro hchecks
    have hat : ∀ i (hi : i < terms.length), terms[i].1 < d ∧ terms[i].2 ≠ 0 ∧
        (i ≠ 0 → (terms[i - 1]?.map Prod.fst) ≠ some terms[i].1) := by
      intro i hi
      exact (checkTerm_iff h).1 (hchecks (terms[i], i) (List.mem_zipIdx_iff_getElem?.mpr (List.getElem?_eq_getElem hi)))
    refine ⟨?_, List.isChain_iff_pairwise.1 (List.isChain_iff_getElem.2 fun i hi => ?_)⟩
    · intro t ht
      obtain ⟨i, hi, rfl⟩ := List.getElem_of_mem ht
      exact ⟨(hat i hi).1, (hat i hi).2.1⟩
    · have hne := (hat (i + 1) hi).2.2 (Nat.succ_ne_zero i)
      rw [Nat.add_sub_cancel, List.getElem?_eq_getElem (by omega), Option.map_some, Ne, Option.some.injEq] at hne
      have hle := List.pairwise_iff_getElem.1 hsorted i (i + 1) (by omega) hi (Nat.lt_succ_self i)
      omega
  · rintro ⟨hin, hstrict⟩ entry hentry
    have hget := List.mem_zipIdx_iff_getElem?.mp hentry
    obtain ⟨hi, hat⟩ := List.getElem?_eq_some_iff.1 hget
    have ht := hin entry.1 (hat ▸ List.getElem_mem hi)
    refine (checkTerm_iff h).2 ⟨ht.1, ht.2, fun hne => ?_⟩
    have hlt := List.pairwise_iff_getElem.1 hstrict (entry.2 - 1) entry.2 (by omega) hi (by omega)
    rw [List.getElem?_eq_getElem (by omega), Option.map_some, Ne, Option.some.injEq, ← hat]
    omega

omit [DecidableEq E] in
theorem sparse_sum (h : Prepared alpha d point) (hin : ∀ t ∈ terms, t.1 < d) : (terms.foldlM (fun sum term => do
      return sum + term.2 * (← okOr point.powers[term.1]? (.internal "index out of bounds"))) 0 : Result E) =
      .ok ((termSum terms).eval alpha) := by
  have hstep : ∀ (made : List (ℕ × E)) t rest sum, terms = made ++ t :: rest → True → ∃ sum',
      (do return sum + t.2 * (← okOr point.powers[t.1]? (.internal "index out of bounds")) : Result E) = .ok sum' ∧ True ∧
        id sum' = id sum + t.2 * alpha ^ t.1 := by
    intro made t rest sum hsplit _
    have hget : point.powers[t.1]? = some (alpha ^ t.1) := by
      rw [h.powers_eq, getElem?_map, getElem?_range (hin t (by simp [hsplit]))]
      rfl
    exact ⟨_, by rw [hget]; rfl, trivial, rfl⟩
  obtain ⟨sum, hrun, -, hsum⟩ := foldlM_runs hstep trivial
  rw [hrun, eval_termSum]
  congr 1
  exact hsum.trans (zero_add _)

/-- **A sparse kernel** is computed exactly of the terms in range with distinct positions and nonzero weights. -/
theorem sparseKernel_iff (h : Prepared alpha d point) (hd : 0 < d) {kernel : List E} : point.sparseKernel terms = .ok kernel ↔
      ((∀ t ∈ terms, t.1 < d ∧ t.2 ≠ 0) ∧ (terms.map Prod.fst).Nodup) ∧ kernel = residues alpha d (termSum terms) := by
  unfold sparseKernel
  set sorted := terms.mergeSort fun s t => decide (s.1 ≤ t.1) with hsortedDef
  have hperm : sorted.Perm terms := mergeSort_perm _ _
  have hsorted : sorted.Pairwise fun s t => s.1 ≤ t.1 := by
    have hpairs : sorted.Pairwise fun s t => decide (s.1 ≤ t.1) = true := by
      refine pairwise_mergeSort (fun a b c hab hbc => ?_) (fun a b => ?_) terms
      · simp only [decide_eq_true_eq] at hab hbc ⊢
        omega
      · simp only [Bool.or_eq_true, decide_eq_true_eq]
        omega
    exact hpairs.imp fun hle => by simpa using hle
  have hnodup : (sorted.Pairwise fun s t => s.1 < t.1) ↔ (terms.map Prod.fst).Nodup := by
    rw [← (hperm.map Prod.fst).nodup_iff, Nodup, pairwise_map]
    constructor
    · exact fun hlt => hlt.imp fun hst => hst.ne
    · exact fun hne => (hsorted.and hne).imp fun hst => lt_of_le_of_ne hst.1 hst.2
  have hmem : (∀ t ∈ sorted, t.1 < d ∧ t.2 ≠ 0) ↔ ∀ t ∈ terms, t.1 < d ∧ t.2 ≠ 0 :=
    ⟨fun hin t ht => hin t (hperm.mem_iff.2 ht), fun hin t ht => hin t (hperm.mem_iff.1 ht)⟩
  -- a run that passes the checks sums the terms and wraps over them
  have hrun : (∀ t ∈ sorted, t.1 < d ∧ t.2 ≠ 0) → (sorted.Pairwise fun s t => s.1 < t.1) → ((do
      let current ← sorted.foldlM (fun sum term => do
        return sum + term.2 * (← okOr point.powers[term.1]? (.internal "index out of bounds"))) 0
      return current :: point.wrapTerms sorted (point.dimension - 1) current sorted.length) : Result (List E)) =
        .ok (residues alpha d (termSum terms)) := by
    intro hin hstrict
    have hwrap := wrapTerms_eq h (d - 1) sorted [] ((termSum sorted).eval alpha) (by simpa using hstrict)
      (fun t ht => by have := (hin t ht).1; omega) (by simp)
    rw [append_nil] at hwrap
    rw [sparse_sum h fun t ht => (hin t ht).1, ok_bind, h.dimension_eq, hwrap, ← termSum_perm hperm,
      residues_eq_recurrence hd (degree_termSum_lt fun t ht => (hin t ht).1)]
    rfl
  rw [bind_eq_ok]
  simp only [exists_unit, checks_iff h hsorted]
  rw [← hnodup, ← hmem]
  constructor
  · rintro ⟨hchecks, hkernel⟩
    rw [hrun hchecks.1 hchecks.2] at hkernel
    exact ⟨hchecks, (Except.ok.inj hkernel).symm⟩
  · rintro ⟨hchecks, rfl⟩
    exact ⟨hchecks, hrun hchecks.1 hchecks.2⟩

end sparse

end ResidueKernelPoint

/-- **Residue kernels evaluate reduced negacyclic products**, at every point. A dimension `2^k` is prepared; entry `j` of every
kernel is the value of `A X^j` modulo `X^d + 1`, for a multiplier over the base field, over the extension, in a buffer with any
contents, and for the terms of a sparse one in any order; a sparse one is rejected exactly when a position is out of range or
met twice or a weight is zero; and the kernel against a witness is the value of the reduced product. -/
theorem residue_kernels_exact {F : Type} [Field F] [DecidableEq E] [Algebra F E] {mulBase : E → F → E}
    (hmul : ∀ v c, mulBase v c = v * algebraMap F E c) {k : ℕ} (hd : d = 2 ^ k) (alpha : E) :
    (∃ point, ResidueKernelPoint.new alpha d = .ok point ∧
      (∀ A : List F, A.length = d → point.kernel mulBase A = .ok (residues alpha d (ofCoeffs (A.map (algebraMap F E)))) ∧
        residueKernel mulBase A alpha = point.kernel mulBase A) ∧
      (∀ A : List E, A.length = d → point.fieldKernel A = .ok (residues alpha d (ofCoeffs A)) ∧
        terminalResidueKernel A alpha = point.fieldKernel A ∧
        ∀ output : List E, output.length = d → point.fieldKernelInto A output = point.fieldKernel A) ∧
      ∀ terms kernel, point.sparseKernel terms = .ok kernel ↔
        ((∀ t ∈ terms, t.1 < d ∧ t.2 ≠ 0) ∧ (terms.map Prod.fst).Nodup) ∧
          kernel = residues alpha d (terms.map fun t => C t.2 * X ^ t.1).sum) ∧
    (∀ A j, j < d → (residues alpha d A)[j]? = some (((A * X ^ j) %ₘ (X ^ d + 1)).eval alpha)) ∧
    ∀ A w : E[X], w.degree < d →
      ∑ j ∈ range d, (residues alpha d A).getD j 0 * w.coeff j = ((A * w) %ₘ (X ^ d + 1)).eval alpha := by
  have hpos : 0 < d := by rw [hd]; positivity
  have hentry : ∀ A j, j < d → (residues alpha d A)[j]? = some (((A * X ^ j) %ₘ (X ^ d + 1)).eval alpha) := by
    intro A j hj
    rw [residues, getElem?_map, getElem?_range hj]
    rfl
  refine ⟨?_, hentry, ?_⟩
  · obtain ⟨point, hnew, h⟩ := ResidueKernelPoint.new_ok alpha ⟨k, hd⟩
    refine ⟨point, hnew, ?_, ?_, fun terms kernel => ResidueKernelPoint.sparseKernel_iff h hpos⟩
    · intro A hA
      refine ⟨ResidueKernelPoint.kernelWith_eq h hpos hmul hA, ?_⟩
      rw [residueKernel, hA, hnew, ok_bind]
    · intro A hA
      have hself : ∀ v w : E, (fun value weight => value * weight) v w = v * id w := fun _ _ => rfl
      have hfield := ResidueKernelPoint.kernelWith_eq h hpos hself hA
      rw [map_id] at hfield
      refine ⟨hfield, ?_, fun output houtput => ?_⟩
      · rw [terminalResidueKernel, hA, hnew, ok_bind]
      · have hinto := ResidueKernelPoint.kernelWithInto_eq h hpos hself hA houtput
        rw [map_id] at hinto
        exact hinto.trans hfield.symm
  · intro A w hw
    rw [← sum_shiftMod hw]
    refine sum_congr rfl fun j hj => ?_
    rw [getD_eq_getElem?_getD, hentry A j (mem_range.1 hj)]
    rfl

theorem residue_kernels_exact_two : ∃ point, ResidueKernelPoint.new (2 : ℚ) 2 = .ok point ∧
    point.fieldKernel [1, 3] = .ok (residues 2 2 (ofCoeffs [1, 3])) := by
  have hmul : ∀ v c : ℚ, v * c = v * algebraMap (ℚ) (ℚ) c := fun _ _ => rfl
  obtain ⟨⟨point, hnew, -, hfield, -⟩, -⟩ := residue_kernels_exact (F := ℚ) hmul (k := 1) (d := 2) rfl (2 : ℚ)
  exact ⟨point, hnew, (hfield [1, 3] rfl).1⟩

end Akita.ResidueKernel
