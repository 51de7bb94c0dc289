import Akita.Proof.EqTables

/-!
# Split equality tracks the folded table

* `Tracks`: the scalar, the round and the suffix tables of both halves after a run of challenges, and the folded table.
* `Tracks.bind`: binding a variable keeps it, whichever half gives up a table.
* `mulLinear_eval`: the product with a linear factor, as a function.
* `recoversRound`: the recovery of the linear coefficient, by cases on the factor.
* `split_eq_tracks`: the state is the folded table, foretells its later tables and recovers its rounds.
-/

namespace Akita.OffsetEq

open Lib List
open ExtensionOpening (ReductionField UnivariateBackend foldEvalsInPlace foldEvalsInPlace_eq listUnivariate
  listUnivariate_lawful plainReduction plainReduction_lawful)

variable {F : Type} [Field F]

/-! ## Suffix tables -/

/-- The table of the last `j` coordinates. -/
def suffixTable (r : List F) (j : ℕ) : List F := bitTable (eqFactors (r.drop (r.length - j)))

/-- The cached tables that are left when the largest is that of the last `count` coordinates. -/
def suffixTables (r : List F) (count : ℕ) : List (List F) := (EqPolynomial.cachedLayers [1] r.reverse).take (count + 1)

section

variable {r : List F} {count j : ℕ}

theorem suffixTables_length (h : count ≤ r.length) : (suffixTables r count).length = count + 1 := by
  rw [suffixTables, length_take, EqPolynomial.length_cachedLayers, length_reverse]
  omega

theorem suffixTables_getD (h : count ≤ r.length) (hj : j ≤ count) : (suffixTables r count).getD j [] = suffixTable r j := by
  rw [suffixTables, getD_eq_getElem?_getD, getElem?_take_of_lt (by omega),
    EqPolynomial.cachedLayers_reverse r (le_trans hj h)]
  rfl

theorem suffixTables_getLastD (h : count ≤ r.length) : (suffixTables r count).getLastD [] = suffixTable r count := by
  rw [getLastD_eq_getLast?, getLast?_eq_getElem?, suffixTables_length h, Nat.add_sub_cancel,
    ← getD_eq_getElem?_getD, suffixTables_getD h le_rfl]

theorem suffixTables_dropLast (h : count + 1 ≤ r.length) : (suffixTables r (count + 1)).dropLast = suffixTables r count := by
  rw [dropLast_eq_take, suffixTables_length h, suffixTables, take_take, min_eq_left (by omega)]
  rfl

theorem suffixTables_full (r : List F) : suffixTables r r.length = EqPolynomial.cachedLayers [1] r.reverse := by
  rw [suffixTables, take_of_length_le]
  rw [EqPolynomial.length_cachedLayers, length_reverse]

theorem suffixTable_length (h : j ≤ r.length) : (suffixTable r j).length = 2 ^ j := by
  rw [suffixTable, bitTable_length, eqFactors_length, length_drop, Nat.sub_sub_self h]

theorem suffixTable_getElem? (h : j ≤ r.length) {i : ℕ} (hi : i < 2 ^ j) :
    (suffixTable r j)[i]? = some (eqAt (r.drop (r.length - j)) i) := by
  rw [suffixTable, bitTable_getElem?]
  · rfl
  · rwa [eqFactors_length, length_drop, Nat.sub_sub_self h]

end

/-! ## The state of a run -/

namespace GruenSplitEq

variable {tau rs : List F} {c : F} {s : GruenSplitEq F} {rt : Runtime}

def bindMany (s : GruenSplitEq F) (rs : List F) : GruenSplitEq F := rs.foldl bind s

/-- The variables of the first half: those after the current one. -/
def firstHalf (tau : List F) : List F := (tau.take (1 + (tau.length - 1) / 2)).drop 1

def secondHalf (tau : List F) : List F := tau.drop (1 + (tau.length - 1) / 2)

omit [Field F] in
theorem firstHalf_length (tau : List F) : (firstHalf tau).length = (tau.length - 1) / 2 := by
  rw [firstHalf, length_drop, length_take]
  omega

omit [Field F] in
theorem secondHalf_length (tau : List F) : (secondHalf tau).length = tau.length - 1 - (tau.length - 1) / 2 := by
  rw [secondHalf, length_drop]
  omega

/-- **The state after `rs`**: first the tables of the first half go, then those of the second. -/
structure Tracks (tau : List F) (c : F) (rs : List F) (s : GruenSplitEq F) : Prop where
  tau_eq : s.tau = tau
  round_eq : s.currentRound = rs.length
  first_eq : s.eFirst = suffixTables (firstHalf tau) ((tau.length - 1) / 2 - rs.length)
  second_eq : s.eSecond = suffixTables (secondHalf tau)
    (tau.length - 1 - (tau.length - 1) / 2 - (rs.length - (tau.length - 1) / 2))
  folds : bindAll (fun b => c * eqAt tau b) rs = fun b => s.currentScalar * eqAt (tau.drop rs.length) b

theorem tracks_new (h : withInitialScalar rt tau c = .ok s) : Tracks tau c [] s := by
  simp only [withInitialScalar, EqPolynomial.evalsCached, bind_eq_ok, ensure_eq_ok, pure_eq_ok] at h
  obtain ⟨-, -, _, ⟨-, -, rfl⟩, _, ⟨-, -, rfl⟩, rfl⟩ := h
  have hfirst := suffixTables_full (firstHalf tau)
  have hsecond := suffixTables_full (secondHalf tau)
  rw [firstHalf_length tau] at hfirst
  rw [secondHalf_length tau] at hsecond
  refine ⟨rfl, rfl, hfirst.symm, ?_, rfl⟩
  rw [length_nil, Nat.zero_sub, Nat.sub_zero]
  exact hsecond.symm

theorem bindLow_eqAt (a x r : F) (tau : List F) :
    bindLow r (fun b => a * eqAt (x :: tau) b) = fun b => a * (x * r + (1 - x) * (1 - r)) * eqAt tau b := by
  funext b
  have hleft : eqAt (x :: tau) (2 * b) = (1 - x) * eqAt tau b := bitProduct_cons_double _ _ _
  have hright : eqAt (x :: tau) (2 * b + 1) = x * eqAt tau b := bitProduct_cons_double_add_one _ _ _
  rw [bindLow, hleft, hright]
  ring

namespace Tracks

section

variable (h : Tracks tau c rs s)

include h

theorem drop_eq (hrs : rs.length < tau.length) : tau.drop rs.length = s.currentTau :: tau.drop (rs.length + 1) := by
  rw [drop_eq_getElem_cons hrs, currentTau, h.tau_eq, h.round_eq, getD_eq_getElem _ _ hrs]

/-- **Binding a variable.** -/
theorem bind (hrs : rs.length < tau.length) (r : F) : Tracks tau c (rs ++ [r]) (s.bind r) := by
  have hfirst := firstHalf_length tau
  have hsecond := secondHalf_length tau
  have hfirstLen : s.eFirst.length = (tau.length - 1) / 2 - rs.length + 1 := by
    rw [h.first_eq, suffixTables_length (by omega)]
  have hsecondLen : s.eSecond.length = tau.length - 1 - (tau.length - 1) / 2 - (rs.length - (tau.length - 1) / 2) + 1 := by
    rw [h.second_eq, suffixTables_length (by omega)]
  have hround : (rs ++ [r]).length = rs.length + 1 := length_append
  refine ⟨h.tau_eq, by rw [hround, bind_currentRound, h.round_eq], ?_, ?_, ?_⟩
  · rw [hround]
    by_cases hlevel : s.eFirst.length > 1
    · obtain ⟨d, hd⟩ := Nat.exists_eq_add_of_lt (by omega : 0 < (tau.length - 1) / 2 - rs.length)
      have hnext : (tau.length - 1) / 2 - (rs.length + 1) = d := by omega
      rw [GruenSplitEq.bind, if_pos hlevel, h.first_eq, hnext, hd, zero_add, suffixTables_dropLast (by omega)]
    · have hnext : (tau.length - 1) / 2 - (rs.length + 1) = (tau.length - 1) / 2 - rs.length := by omega
      rw [GruenSplitEq.bind, if_neg hlevel, hnext, h.first_eq]
  · rw [hround]
    by_cases hlevel : ¬ s.eFirst.length > 1 ∧ s.eSecond.length > 1
    · obtain ⟨d, hd⟩ := Nat.exists_eq_add_of_lt
        (by omega : 0 < tau.length - 1 - (tau.length - 1) / 2 - (rs.length - (tau.length - 1) / 2))
      have hnext : tau.length - 1 - (tau.length - 1) / 2 - (rs.length + 1 - (tau.length - 1) / 2) = d := by omega
      rw [GruenSplitEq.bind, if_pos hlevel, h.second_eq, hnext, hd, zero_add, suffixTables_dropLast (by omega)]
    · have hnext : tau.length - 1 - (tau.length - 1) / 2 - (rs.length + 1 - (tau.length - 1) / 2) =
          tau.length - 1 - (tau.length - 1) / 2 - (rs.length - (tau.length - 1) / 2) := by omega
      rw [GruenSplitEq.bind, if_neg hlevel, hnext, h.second_eq]
  · rw [bindAll_append, h.folds, h.drop_eq hrs, hround]
    exact bindLow_eqAt _ _ _ _

/-- **A run of challenges.** -/
theorem bindMany : ∀ {rs' : List F}, rs.length + rs'.length ≤ tau.length →
    Tracks tau c (rs ++ rs') (s.bindMany rs') := by
  intro rs'
  induction rs' generalizing rs s with
  | nil => intro _; simpa [GruenSplitEq.bindMany] using h
  | cons r rs' ih =>
    intro hlen
    rw [length_cons] at hlen
    have hnext := ih (h.bind (by omega) r) (by rw [length_append, length_singleton]; omega)
    rwa [append_assoc, singleton_append] at hnext

theorem remainingEqTables_eq : s.remainingEqTables = (suffixTable (firstHalf tau) ((tau.length - 1) / 2 - rs.length),
      suffixTable (secondHalf tau) (tau.length - 1 - (tau.length - 1) / 2 - (rs.length - (tau.length - 1) / 2))) := by
  have hfirst := firstHalf_length tau
  have hsecond := secondHalf_length tau
  rw [remainingEqTables, h.first_eq, h.second_eq, suffixTables_getLastD (by omega), suffixTables_getLastD (by omega)]

end

/-- The value after the current variable is read through the two tables. -/
theorem eqAt_halves (hrs : rs.length < tau.length) (j : ℕ) : eqAt (tau.drop (rs.length + 1)) j =
    eqAt ((firstHalf tau).drop ((firstHalf tau).length - ((tau.length - 1) / 2 - rs.length)))
        (j % 2 ^ ((tau.length - 1) / 2 - rs.length)) * eqAt ((secondHalf tau).drop ((secondHalf tau).length -
          (tau.length - 1 - (tau.length - 1) / 2 - (rs.length - (tau.length - 1) / 2))))
        (j / 2 ^ ((tau.length - 1) / 2 - rs.length)) := by
  have hlen : (tau.length - 1) / 2 - rs.length ≤ (tau.drop (rs.length + 1)).length := by
    rw [length_drop]
    omega
  rw [eqAt_split hlen, firstHalf_length tau, secondHalf_length tau, firstHalf, secondHalf, drop_drop, drop_drop,
    drop_drop, drop_take]
  congr 2
  · rcases le_total rs.length ((tau.length - 1) / 2) with hle | hle
    · have hdrop : 1 + ((tau.length - 1) / 2 - ((tau.length - 1) / 2 - rs.length)) = rs.length + 1 := by omega
      rw [hdrop]
      congr 1
      omega
    · have hnone : (tau.length - 1) / 2 - rs.length = 0 := by omega
      have hnone' : 1 + (tau.length - 1) / 2 - (1 + ((tau.length - 1) / 2 - 0)) = 0 := by omega
      rw [hnone, hnone', take_zero, take_zero]
  · congr 1
    omega

/-- **The remaining factor** at a pair of the folded table. -/
theorem remaining_at {j : ℕ} (h : Tracks tau c rs s) (hrs : rs.length < tau.length)
    (hj : j < 2 ^ (tau.length - rs.length - 1)) : ∃ e f,
      s.remainingEqTables.1[j % s.remainingEqTables.1.length]? = some e ∧
      s.remainingEqTables.2[j / s.remainingEqTables.1.length]? = some f ∧ e * f = eqAt (tau.drop (rs.length + 1)) j := by
  have hfirst := firstHalf_length tau
  have hsecond := secondHalf_length tau
  have hhigh : j / 2 ^ ((tau.length - 1) / 2 - rs.length) <
      2 ^ (tau.length - 1 - (tau.length - 1) / 2 - (rs.length - (tau.length - 1) / 2)) := by
    rw [Nat.div_lt_iff_lt_mul (Nat.two_pow_pos _), ← pow_add]
    refine lt_of_lt_of_le hj (Nat.pow_le_pow_right (by decide) ?_)
    omega
  rw [h.remainingEqTables_eq, suffixTable_length (by omega)]
  exact ⟨_, _, suffixTable_getElem? (by omega) (Nat.mod_lt _ (Nat.two_pow_pos _)), suffixTable_getElem? (by omega) hhigh,
    (eqAt_halves hrs j).symm⟩

/-- **The tables of a later round** are those that the challenges will leave, whatever they are. -/
theorem remainingEqTablesAfter_eq (h : Tracks tau c rs s) {rs' : List F} (hlen : rs.length + rs'.length < tau.length) :
    s.remainingEqTablesAfter rs'.length = some (s.bindMany rs').remainingEqTables := by
  have hfirst := firstHalf_length tau
  have hsecond := secondHalf_length tau
  rw [(h.bindMany (by omega : rs.length + rs'.length ≤ tau.length)).remainingEqTables_eq, length_append,
    remainingEqTablesAfter, h.first_eq, h.second_eq, suffixTables_length (by omega), suffixTables_length (by omega)]
  by_cases hlow : rs'.length ≤ (tau.length - 1) / 2 - rs.length
  · rw [if_pos (by omega), suffixTables_getD (by omega) (by omega), suffixTables_getD (by omega) (by omega)]
    congr 3 <;> omega
  · rw [if_neg (by omega), checkedSub, if_pos (by omega), Option.bind_eq_bind, Option.bind_some,
      suffixTables_getD (by omega) (by omega), suffixTables_getD (by omega) (by omega)]
    congr 3 <;> omega

theorem remainingEqTablesAfter_none (h : Tracks tau c rs s) (hrs : rs.length < tau.length) (m : ℕ) :
    s.remainingEqTablesAfter m = none ↔ tau.length - 1 - rs.length < m := by
  have hfirst := firstHalf_length tau
  have hsecond := secondHalf_length tau
  rw [remainingEqTablesAfter, h.first_eq, h.second_eq, suffixTables_length (by omega), suffixTables_length (by omega)]
  simp only [Nat.add_sub_cancel, checkedSub]
  split
  · simp only [reduceCtorEq, false_iff]
    omega
  · split
    · simp only [option_some, Option.bind_some, reduceCtorEq, false_iff]
      omega
    · simp only [Option.bind_eq_bind, Option.bind_none, true_iff]
      omega

end Tracks

end GruenSplitEq

/-! ## Products with a linear factor -/

section product

variable {𝔲 : UnivariateBackend F}

theorem eval_modify (x a : F) : ∀ {l : List F} {i : ℕ}, i < l.length →
    (ofCoeffs (l.modify i (· + a))).eval x = (ofCoeffs l).eval x + a * x ^ i := by
  intro l
  induction l with
  | nil => intro i hi; exact absurd hi (Nat.not_lt_zero i)
  | cons c l ih =>
    intro i hi
    cases i with
    | zero =>
      rw [modify_cons, if_pos rfl, eval_ofCoeffs_cons, eval_ofCoeffs_cons]
      ring
    | succ i =>
      rw [modify_cons, if_neg (Nat.succ_ne_zero i), Nat.add_sub_cancel, eval_ofCoeffs_cons, eval_ofCoeffs_cons,
        ih (Nat.lt_of_succ_lt_succ hi)]
      ring

theorem mulLinear_loop (x atZero slope : F) (q : List F) : ∀ {k : ℕ} {acc : List F}, k + q.length < acc.length →
    (ofCoeffs ((q.zipIdx k).foldl
      (fun coeffs p => (coeffs.modify p.2 (· + p.1 * atZero)).modify (p.2 + 1) (· + p.1 * slope)) acc)).eval x =
      (ofCoeffs acc).eval x + x ^ k * ((atZero + slope * x) * (ofCoeffs q).eval x) := by
  induction q with
  | nil =>
    intro k acc _
    simp [ofCoeffs]
  | cons c q ih =>
    intro k acc hlen
    rw [length_cons] at hlen
    have hsecond := eval_modify x (c * slope) (by rw [length_modify]; omega :
      k + 1 < (acc.modify k (· + c * atZero)).length)
    have hfirst := eval_modify x (c * atZero) (by omega : k < acc.length)
    have hrest := ih (by rw [length_modify, length_modify]; omega :
      k + 1 + q.length < ((acc.modify k (· + c * atZero)).modify (k + 1) (· + c * slope)).length)
    rw [zipIdx_cons, foldl_cons, hrest, hsecond, hfirst, eval_ofCoeffs_cons]
    ring

/-- **The product with a linear factor**, as a function. -/
theorem mulLinear_eval (h𝔲 : 𝔲.Lawful) (q : List F) (atZero slope x : F) :
    𝔲.evaluate (mulLinear 𝔲 q atZero slope) x = (atZero + slope * x) * (ofCoeffs q).eval x := by
  have hzero : (ofCoeffs (replicate (q.length + 1) (0 : F))).eval x = 0 := by
    have h := ofCoeffs_append_replicate_zero ([] : List F) (q.length + 1)
    rw [nil_append] at h
    rw [h]
    exact Polynomial.eval_zero
  have hloop := @mulLinear_loop F _ x atZero slope q 0 (replicate (q.length + 1) 0) (by rw [length_replicate]; omega)
  rw [h𝔲.evaluate, mulLinear, h𝔲.new_eq, hloop, hzero]
  ring

theorem zeroPoly_eval (h𝔲 : 𝔲.Lawful) (x : F) : 𝔲.evaluate (𝔲.new [0]) x = 0 := by
  rw [h𝔲.evaluate, h𝔲.new_eq]
  simp [ofCoeffs]

namespace GruenSplitEq

variable (s : GruenSplitEq F)

theorem gruenMul_eval (h𝔲 : 𝔲.Lawful) (q : 𝔲.UnivariatePoly) (x : F) :
    𝔲.evaluate (s.gruenMul 𝔲 q) x = (s.linearFactorEvals.1 + (s.linearFactorEvals.2 - s.linearFactorEvals.1) * x) *
      (ofCoeffs (𝔲.coefficients q)).eval x := mulLinear_eval h𝔲 _ _ _ x

variable [DecidableEq F] {s}

/-- The claim of the round polynomial of `q`, and `q` without its linear coefficient. -/
def roundClaim (𝔲 : UnivariateBackend F) (s : GruenSplitEq F) (q : 𝔲.UnivariatePoly) : F :=
  𝔲.evaluate (s.gruenMul 𝔲 q) 0 + 𝔲.evaluate (s.gruenMul 𝔲 q) 1

def exceptLinear (𝔲 : UnivariateBackend F) (q : 𝔲.UnivariatePoly) : List F :=
  (𝔲.coefficients q).take 1 ++ (𝔲.coefficients q).drop 2

/-- **The recovery in a round**: what is returned is the round polynomial, it is returned if the factor does not vanish
at one, and refused if the factor vanishes at one alone and there is a coefficient. -/
structure RecoversRound (𝔲 : UnivariateBackend F) (s : GruenSplitEq F) (q : 𝔲.UnivariatePoly) : Prop where
  exact : ∀ t, s.tryGruenPolyFromCoeffsExceptLinear 𝔲 (exceptLinear 𝔲 q) (roundClaim 𝔲 s q) = some t →
    ∀ x, 𝔲.evaluate t x = 𝔲.evaluate (s.gruenMul 𝔲 q) x
  returned : s.linearFactorEvals.2 ≠ 0 →
    ∃ t, s.tryGruenPolyFromCoeffsExceptLinear 𝔲 (exceptLinear 𝔲 q) (roundClaim 𝔲 s q) = some t
  refused : s.tryGruenPolyFromCoeffsExceptLinear 𝔲 (exceptLinear 𝔲 q) (roundClaim 𝔲 s q) = none ↔
    𝔲.coefficients q ≠ [] ∧ s.linearFactorEvals.2 = 0 ∧ s.linearFactorEvals.1 ≠ 0

omit [DecidableEq F] in
theorem linearTerm_eq (atZero slope q₀ q₁ : F) (rest : List F) (hone : atZero + slope ≠ 0) :
    (⟨atZero, slope, (atZero + slope)⁻¹⟩ : PreparedLinearQRecovery F).linearTerm q₀ (q₀ + rest.sum)
      (atZero * q₀ + (atZero + slope) * (q₀ + (q₁ + rest.sum))) = q₁ := by
  rw [PreparedLinearQRecovery.linearTerm]
  field_simp
  ring

omit [DecidableEq F] in
/-- **Recovery from the claim** of a polynomial with a constant coefficient. -/
theorem gruenPolyFromCoeffsExceptLinear_eval (h𝔲 : 𝔲.Lawful) {atZero slope : F} (hone : atZero + slope ≠ 0)
    (q₀ : F) (rest : List F) (x : F) :
    𝔲.evaluate ((⟨atZero, slope, (atZero + slope)⁻¹⟩ : PreparedLinearQRecovery F).gruenPolyFromCoeffsExceptLinear 𝔲
      (q₀ :: rest.drop 1) (atZero * q₀ + (atZero + slope) * (q₀ + rest.sum))) x =
      (atZero + slope * x) * (ofCoeffs (q₀ :: rest)).eval x := by
  have hsum : (q₀ :: rest.drop 1).foldl (· + ·) 0 = q₀ + (rest.drop 1).sum := by
    rw [← sum_eq_foldl, sum_cons]
  rw [PreparedLinearQRecovery.gruenPolyFromCoeffsExceptLinear]
  simp only [hsum]
  rw [mulLinear_eval h𝔲]
  cases rest with
  | nil =>
    have hterm := linearTerm_eq atZero slope q₀ 0 [] hone
    rw [zero_add] at hterm
    rw [drop_nil, hterm]
    simp [ofCoeffs]
  | cons q₁ rest =>
    rw [drop_one, tail_cons, sum_cons, linearTerm_eq atZero slope q₀ q₁ rest hone]

theorem prepareLinearQRecovery_eq (h : s.currentRound < s.tau.length) : s.prepareLinearQRecovery =
    if s.linearFactorEvals.2 = 0 then none
    else some ⟨s.linearFactorEvals.1, s.linearFactorEvals.2 - s.linearFactorEvals.1, s.linearFactorEvals.2⁻¹⟩ := by
  have htau : s.tau[s.currentRound]? = some s.currentTau := by
    rw [currentTau, getD_eq_getElem _ _ h, getElem?_eq_getElem h]
  by_cases hzero : s.linearFactorEvals.2 = 0
  · have hone : s.currentScalar * s.currentTau = 0 := hzero
    rw [if_pos hzero, prepareLinearQRecovery, htau]
    simp only [Option.bind_eq_bind, Option.bind_some, inverse, if_pos hone]
    rfl
  · have hone : s.currentScalar * s.currentTau ≠ 0 := hzero
    rw [if_neg hzero, prepareLinearQRecovery, htau]
    simp only [Option.bind_eq_bind, Option.bind_some, inverse, if_neg hone]
    rfl

omit [DecidableEq F] in
theorem roundClaim_eq (h𝔲 : 𝔲.Lawful) {q : 𝔲.UnivariatePoly} {q₀ : F} {rest : List F} (hq : 𝔲.coefficients q = q₀ :: rest) :
    roundClaim 𝔲 s q = s.linearFactorEvals.1 * q₀ + s.linearFactorEvals.2 * (q₀ + rest.sum) := by
  rw [roundClaim, s.gruenMul_eval h𝔲, s.gruenMul_eval h𝔲, hq, eval_ofCoeffs_cons, eval_ofCoeffs_cons, eval_ofCoeffs_one]
  ring

/-- **The recovery of a round** while a variable is left. -/
theorem recoversRound (h𝔲 : 𝔲.Lawful) (h : s.currentRound < s.tau.length) (q : 𝔲.UnivariatePoly) : RecoversRound 𝔲 s q := by
  have hmul := s.gruenMul_eval h𝔲 q
  cases hq : 𝔲.coefficients q with
  | nil =>
    -- no coefficient: the zero polynomial, whatever the factor is
    have hexcept : exceptLinear 𝔲 q = [] := by rw [exceptLinear, hq]; rfl
    have htry : s.tryGruenPolyFromCoeffsExceptLinear 𝔲 (exceptLinear 𝔲 q) (roundClaim 𝔲 s q) = some (𝔲.new [0]) := by
      rw [hexcept]
      rfl
    refine ⟨fun t ht x => ?_, fun _ => ⟨_, htry⟩, ?_⟩
    · obtain rfl : 𝔲.new [0] = t := Option.some.inj (htry.symm.trans ht)
      rw [zeroPoly_eval h𝔲, hmul, hq]
      simp [ofCoeffs]
    · rw [htry, hq]
      simp
  | cons q₀ rest =>
    have hexcept : exceptLinear 𝔲 q = q₀ :: rest.drop 1 := by rw [exceptLinear, hq]; rfl
    have hne : 𝔲.coefficients q ≠ [] := by rw [hq]; exact cons_ne_nil _ _
    have hclaim := roundClaim_eq (s := s) h𝔲 hq
    by_cases hboth : s.linearFactorEvals.1 = 0 ∧ s.linearFactorEvals.2 = 0
    · have htry : s.tryGruenPolyFromCoeffsExceptLinear 𝔲 (exceptLinear 𝔲 q) (roundClaim 𝔲 s q) = some (𝔲.new [0]) := by
        rw [hexcept, tryGruenPolyFromCoeffsExceptLinear, if_neg (by simp)]
        exact if_pos hboth
      refine ⟨fun t ht x => ?_, fun _ => ⟨_, htry⟩, ?_⟩
      · obtain rfl : 𝔲.new [0] = t := Option.some.inj (htry.symm.trans ht)
        rw [zeroPoly_eval h𝔲, hmul, hboth.1, hboth.2]
        ring
      · rw [htry]
        simp [hboth.1]
    · have htry : s.tryGruenPolyFromCoeffsExceptLinear 𝔲 (exceptLinear 𝔲 q) (roundClaim 𝔲 s q) =
          s.prepareLinearQRecovery.map fun p => p.gruenPolyFromCoeffsExceptLinear 𝔲 (exceptLinear 𝔲 q) (roundClaim 𝔲 s q) := by
        rw [tryGruenPolyFromCoeffsExceptLinear, if_neg (by rw [hexcept]; simp)]
        exact (if_neg hboth).trans (Option.map_eq_bind).symm
      rw [prepareLinearQRecovery_eq h] at htry
      by_cases hone : s.linearFactorEvals.2 = 0
      · rw [if_pos hone, Option.map_none] at htry
        refine ⟨fun t ht => absurd (htry.symm.trans ht) (by simp), fun h' => absurd hone h', ?_⟩
        exact iff_of_true htry ⟨hne, hone, fun hzero => hboth ⟨hzero, hone⟩⟩
      · rw [if_neg hone, Option.map_some] at htry
        refine ⟨fun t ht x => ?_, fun _ => ⟨_, htry⟩, ?_⟩
        · rw [← Option.some.inj (htry.symm.trans ht), hmul, hq]
          have hsum : s.linearFactorEvals.1 + (s.linearFactorEvals.2 - s.linearFactorEvals.1) = s.linearFactorEvals.2 := by ring
          have heval := gruenPolyFromCoeffsExceptLinear_eval h𝔲 (hsum ▸ hone) q₀ rest x
          rw [hsum, ← hexcept, ← hclaim] at heval
          exact heval
        · rw [htry]
          simp [hone]

end GruenSplitEq

end product

/-! ## The folded table -/

namespace GruenSplitEq

variable {K : Type} [Field K] [Algebra K F] [DecidableEq F] {𝔯 : ReductionField K F} {𝔲 : UnivariateBackend F}
  {rt 𝔪 : Runtime} {tau rs : List F} {c : F} {s : GruenSplitEq F}

/-- The scaled equality table after it is folded at the challenges. -/
def foldedTable (𝔪 : Runtime) (𝔯 : ReductionField K F) (tau : List F) (c : F) (rs : List F) : List F :=
  rs.foldl (foldEvalsInPlace 𝔪 𝔯) (entries (2 ^ tau.length) fun b => c * eqProduct tau b)

omit [DecidableEq F] in
/-- Folds of a table bind its lowest coordinates. -/
theorem foldl_foldEvalsInPlace (h𝔯 : 𝔯.Lawful) : ∀ {rs : List F} {t : ℕ → F} {n : ℕ}, rs.length ≤ n →
    rs.foldl (foldEvalsInPlace 𝔪 𝔯) (entries (2 ^ n) t) = entries (2 ^ (n - rs.length)) (bindAll t rs) := by
  intro rs
  induction rs with
  | nil => intro t n _; rfl
  | cons r rs ih =>
    intro t n hn
    rw [length_cons] at hn
    obtain ⟨n, rfl⟩ := Nat.exists_eq_add_of_lt (by omega : 0 < n)
    rw [zero_add] at hn ⊢
    rw [foldl_cons, pow_succ', foldEvalsInPlace_eq h𝔯, ih (by omega), length_cons, Nat.add_sub_add_right]
    rfl

omit [DecidableEq F] in
theorem Tracks.foldedTable_eq (h : Tracks tau c rs s) (𝔪 : Runtime) (h𝔯 : 𝔯.Lawful) (hrs : rs.length < tau.length) :
    foldedTable 𝔪 𝔯 tau c rs =
      entries (2 ^ (tau.length - rs.length)) fun b => s.currentScalar * eqAt (tau.drop rs.length) b := by
  have hstart : entries (2 ^ tau.length) (fun b => c * eqProduct tau b) = entries (2 ^ tau.length) fun b => c * eqAt tau b :=
    map_congr_left fun b hb => by rw [eqAt_eq_eqProduct tau (mem_range.1 hb)]
  rw [foldedTable, hstart, foldl_foldEvalsInPlace h𝔯 hrs.le, h.folds]

/-- **Split equality tracks the folded table**, foretells the tables of later rounds, and recovers the round polynomials
of the current one. -/
theorem split_eq_tracks (h𝔲 : 𝔲.Lawful) (h𝔯 : 𝔯.Lawful) (hs : withInitialScalar rt tau c = .ok s) (rs : List F)
    (hrs : rs.length < tau.length) : (foldedTable 𝔪 𝔯 tau c rs).length = 2 ^ (tau.length - rs.length) ∧
    (∀ j, 2 * j + 1 < (foldedTable 𝔪 𝔯 tau c rs).length → ∃ e f,
      (s.bindMany rs).remainingEqTables.1[j % (s.bindMany rs).remainingEqTables.1.length]? = some e ∧
      (s.bindMany rs).remainingEqTables.2[j / (s.bindMany rs).remainingEqTables.1.length]? = some f ∧
      (foldedTable 𝔪 𝔯 tau c rs)[2 * j]? =
        some ((s.bindMany rs).currentScalar * (1 - (s.bindMany rs).currentTau) * (e * f)) ∧
      (foldedTable 𝔪 𝔯 tau c rs)[2 * j + 1]? = some ((s.bindMany rs).currentScalar * (s.bindMany rs).currentTau * (e * f))) ∧
    (∀ rs' : List F, rs.length + rs'.length < tau.length →
      (s.bindMany rs).remainingEqTablesAfter rs'.length = some ((s.bindMany rs).bindMany rs').remainingEqTables) ∧
    (∀ m, (s.bindMany rs).remainingEqTablesAfter m = none ↔ tau.length - 1 - rs.length < m) ∧
    ∀ q, RecoversRound 𝔲 (s.bindMany rs) q := by
  have h : Tracks tau c rs (s.bindMany rs) := (tracks_new hs).bindMany (by rw [length_nil, zero_add]; exact hrs.le)
  have htable := h.foldedTable_eq 𝔪 h𝔯 hrs
  have hlen : (foldedTable 𝔪 𝔯 tau c rs).length = 2 ^ (tau.length - rs.length) := by rw [htable, entries_length]
  refine ⟨hlen, fun j hj => ?_, fun rs' hrs' => h.remainingEqTablesAfter_eq hrs', h.remainingEqTablesAfter_none hrs, fun q => ?_⟩
  · rw [hlen] at hj
    have hpow : 2 ^ (tau.length - rs.length) = 2 * 2 ^ (tau.length - rs.length - 1) := by
      rw [← pow_succ', Nat.sub_add_cancel (by omega)]
    obtain ⟨e, f, he, hf, hef⟩ := h.remaining_at hrs (j := j) (by omega)
    have hentry : ∀ i < 2 ^ (tau.length - rs.length), (foldedTable 𝔪 𝔯 tau c rs)[i]? =
        some ((s.bindMany rs).currentScalar * eqAt ((s.bindMany rs).currentTau :: tau.drop (rs.length + 1)) i) := by
      intro i hi
      rw [htable, h.drop_eq hrs, entries, getElem?_map, getElem?_range hi]
      rfl
    have hleft : eqAt ((s.bindMany rs).currentTau :: tau.drop (rs.length + 1)) (2 * j) =
        (1 - (s.bindMany rs).currentTau) * eqAt (tau.drop (rs.length + 1)) j := bitProduct_cons_double _ _ _
    have hright : eqAt ((s.bindMany rs).currentTau :: tau.drop (rs.length + 1)) (2 * j + 1) =
        (s.bindMany rs).currentTau * eqAt (tau.drop (rs.length + 1)) j := bitProduct_cons_double_add_one _ _ _
    refine ⟨e, f, he, hf, ?_, ?_⟩
    · rw [hentry _ (by omega), hleft, hef, mul_assoc]
    · rw [hentry _ hj, hright, hef, mul_assoc]
  · refine recoversRound h𝔲 ?_ q
    rw [h.tau_eq, h.round_eq]
    exact hrs

theorem split_eq_tracks_sample : ∃ s : GruenSplitEq ℚ, withInitialScalar serialTables [2, 3, 5] 7 = .ok s ∧
    (foldedTable serialTables (plainReduction ℚ ℚ) [2, 3, 5] 7 [4]).length = 4 ∧
    (s.bindMany [4]).remainingEqTablesAfter 1 = some ((s.bindMany [4]).bindMany [6]).remainingEqTables ∧
    ((s.bindMany [4]).remainingEqTablesAfter 2 = none) ∧ RecoversRound (listUnivariate ℚ) (s.bindMany [4]) [1, 2, 3] := by
  refine ⟨_, rfl, ?_⟩
  have h := split_eq_tracks (𝔪 := serialTables) (s := _) listUnivariate_lawful (plainReduction_lawful (F := ℚ) (E := ℚ))
    (rfl : withInitialScalar serialTables [(2 : ℚ), 3, 5] 7 = .ok _) [4] (by decide)
  exact ⟨h.1, h.2.2.1 [6] (by decide), (h.2.2.2.1 2).2 (by decide), h.2.2.2.2 [1, 2, 3]⟩

/-- **No coefficient at all**: the zero polynomial is returned although the factor vanishes at one alone. -/
theorem empty_polynomial_recovered : ∃ s : GruenSplitEq ℚ, withInitialScalar serialTables [0] 1 = .ok s ∧
    s.linearFactorEvals.2 = 0 ∧ s.linearFactorEvals.1 ≠ 0 ∧
    s.tryGruenPolyFromCoeffsExceptLinear (listUnivariate ℚ) (exceptLinear (listUnivariate ℚ) [])
      (roundClaim (listUnivariate ℚ) s []) ≠ none := by
  refine ⟨_, rfl, ?_, ?_, ?_⟩
  · simp [linearFactorEvals, currentTau]
  · simp [linearFactorEvals, currentTau]
  · exact Option.some_ne_none _

end GruenSplitEq

end Akita.OffsetEq
