import Akita.Proof.DigitRangeSession
import Akita.Proof.EqFactored
import Akita.Spec.Stage1Verifier

/-!
# The range check of a digit

`digit_range_check`: **the leaves of a basis vanish together exactly on its balanced digits, and
the product stages of an accepted run reduce the claim on their product to the batched leaf.**

The lanes above a stage are the products of its children, so a claim that is true of the children at
the stage's point is true of the lanes below it on the cube. The weights follow the children, and the
batched leaf polynomial has the value of the weighted leaves everywhere.
-/

namespace Akita.DigitRange

open Lib Sumcheck Transcript Polynomial List DigitRangePlan

variable {E : Type} [Field E] {weights : List E} {α : Type} {stage : ProductStage E} {input : ProductClaim E}

/-! ## The leaves -/

/-- `w (w + 1)`, which a digit shares with its mirror image. -/
def rangeImage (w : E) : E := w * (w + 1)

/-- The leaf polynomials at an image. -/
def DigitRangePlan.leafValues (plan : DigitRangePlan) (image : E) : List E :=
  (plan.leafCoeffs E).map fun coeffs => evaluateLeafPolynomial coeffs image

theorem evaluateLeafPolynomial_eq (coeffs : List E) (x : E) :
    evaluateLeafPolynomial coeffs x = (ofCoeffs coeffs).eval x := by
  rw [evaluateLeafPolynomial, foldl_reverse]
  induction coeffs with
  | nil => simp [ofCoeffs]
  | cons c cs ih => rw [foldr_cons, ih, eval_ofCoeffs_cons]; ring

theorem eval_ofCoeffs_zipWith (x : E) : ∀ {as bs : List E}, as.length = bs.length →
    (ofCoeffs (zipWith (· + ·) as bs)).eval x = (ofCoeffs as).eval x + (ofCoeffs bs).eval x
  | [], [], _ => by simp [ofCoeffs]
  | a :: as, b :: bs, h => by
    rw [zipWith_cons_cons, eval_ofCoeffs_cons, eval_ofCoeffs_zipWith x (Nat.succ.inj h), eval_ofCoeffs_cons,
      eval_ofCoeffs_cons]
    ring

theorem eval_ofCoeffs_map_mul (c x : E) (cs : List E) :
    (ofCoeffs (cs.map fun coeff => -(coeff * c))).eval x = -((ofCoeffs cs).eval x * c) := by
  induction cs with
  | nil => simp [ofCoeffs]
  | cons a cs ih => rw [map_cons, eval_ofCoeffs_cons, ih, eval_ofCoeffs_cons]; ring

theorem eval_polyCoeffsFromRoots (x : E) (roots : List E) :
    (ofCoeffs (polyCoeffsFromRoots roots)).eval x = (roots.map (x - ·)).prod := by
  -- the coefficients so far are those of the factors so far
  have hfold : ∀ (roots coeffs : List E), (ofCoeffs (roots.foldl (fun coeffs root =>
      zipWith (· + ·) (coeffs.map (fun coeff => -(coeff * root)) ++ [0]) (0 :: coeffs)) coeffs)).eval x =
        (ofCoeffs coeffs).eval x * (roots.map (x - ·)).prod := by
    intro roots
    induction roots with
    | nil => simp
    | cons r roots ih =>
      intro coeffs
      have hpad := congrArg (eval x) (ofCoeffs_append_replicate_zero (coeffs.map fun coeff => -(coeff * r)) 1)
      rw [replicate_one, eval_ofCoeffs_map_mul] at hpad
      rw [foldl_cons, ih, eval_ofCoeffs_zipWith x (by simp), hpad, eval_ofCoeffs_cons, map_cons, prod_cons]
      ring
  rw [polyCoeffsFromRoots, hfold]
  simp [ofCoeffs]

theorem toChunks_go_flatten (n : ℕ) (xs : List α) : ∀ (acc : Array α) (out : Array (List α)),
    (List.toChunks.go n xs acc out).flatten = out.toList.flatten ++ acc.toList ++ xs := by
  induction xs with
  | nil => intro acc out; simp [List.toChunks.go]
  | cons x xs ih =>
    intro acc out
    rw [List.toChunks.go]
    split <;> simp [ih]

theorem toChunks_flatten (n : ℕ) (l : List α) : (l.toChunks n).flatten = l := by
  cases l with
  | nil => simp [List.toChunks]
  | cons x xs =>
    cases n with
    | zero => simp [List.toChunks]
    | succ n => simp [List.toChunks, toChunks_go_flatten]

theorem leafValues_prod (plan : DigitRangePlan) (image : E) :
    (plan.leafValues image).prod = ((range (plan.basis / 2)).map fun k : ℕ => image - k * (k + 1)).prod := by
  have hroots := congrArg (fun roots : List E => (roots.map (image - ·)).prod)
    (toChunks_flatten 4 (stage1RootValues E plan.basis))
  simpa [leafValues, leafCoeffs, stage1RootValues, Function.comp_def,
    evaluateLeafPolynomial_eq, eval_polyCoeffsFromRoots] using hroots

theorem leafValues_prod_eq_zero (plan : DigitRangePlan) (w : E) : (plan.leafValues (rangeImage w)).prod = 0 ↔
    ∃ d : ℤ, -((plan.basis / 2 : ℕ) : ℤ) ≤ d ∧ d ≤ ((plan.basis / 2 : ℕ) : ℤ) - 1 ∧ (d : E) = w := by
  have hfactor : ∀ k : ℕ, rangeImage w - (k : E) * (k + 1) = (w - k) * (w + (k + 1)) := fun k => by
    rw [rangeImage]; ring
  simp only [leafValues_prod, hfactor, prod_eq_zero_iff, mem_map, mem_range, mul_eq_zero, sub_eq_zero]
  constructor
  · rintro ⟨k, hk, hw | hw⟩
    · exact ⟨k, by omega, by omega, by simp [hw]⟩
    · exact ⟨-(k + 1 : ℕ), by omega, by omega, by push_cast; linear_combination -hw⟩
  · rintro ⟨d, hlow, hhigh, rfl⟩
    by_cases hd : 0 ≤ d
    · obtain ⟨k, rfl⟩ := Int.eq_ofNat_of_zero_le hd
      exact ⟨k, by omega, .inl (by simp)⟩
    · obtain ⟨k, hk⟩ := Int.eq_ofNat_of_zero_le (by omega : 0 ≤ -d - 1)
      obtain rfl : d = -((k : ℤ) + 1) := by omega
      exact ⟨k, by omega, .inr (by push_cast; ring)⟩

/-! ## Lanes and batches -/

/-- The lanes over the leaves, of the product stages of the arities. -/
def laneValues : List ℕ → List E → List E
  | [], leaves => leaves
  | arity :: arities, leaves => ((laneValues arities leaves).toChunks arity).map List.prod

/-- Whichever the tree, its root is the product of the leaves. -/
theorem laneValues_root (plan : DigitRangePlan) (image : E) :
    weightedSum [1] (laneValues plan.productStageArities (plan.leafValues image)) = (plan.leafValues image).prod := by
  have hlen : (plan.leafValues image).length = (plan.leafCoeffs E).length := length_map _
  generalize plan.leafValues image = leaves at hlen
  have hcount : leaves.length = if plan.logBasis ≤ 3 then 1 else 2 ^ (plan.logBasis - 3) := by
    rw [hlen]
    obtain ⟨n, htwo, hsix⟩ := plan
    interval_cases n <;>
      simp [leafCoeffs, stage1RootValues, basis, List.toChunks, List.toChunks.go, range_succ]
  obtain ⟨n, htwo, hsix⟩ := plan
  have hcases : n = 2 ∨ n = 3 ∨ n = 4 ∨ n = 5 ∨ n = 6 := by omega
  rcases hcases with rfl | rfl | rfl | rfl | rfl
  · obtain ⟨a, rfl⟩ := length_eq_one_iff.1 hcount
    simp [weightedSum, laneValues, productStageArities]
  · obtain ⟨a, rfl⟩ := length_eq_one_iff.1 hcount
    simp [weightedSum, laneValues, productStageArities]
  · obtain ⟨a, b, rfl⟩ := length_eq_two.1 hcount
    simp [weightedSum, laneValues, productStageArities, List.toChunks, List.toChunks.go]
  · obtain ⟨a, b, c, d, rfl⟩ := length_eq_four.1 hcount
    simp [weightedSum, laneValues, productStageArities, List.toChunks, List.toChunks.go]
  · obtain _ | ⟨a, _ | ⟨b, _ | ⟨c, _ | ⟨d, _ | ⟨e, _ | ⟨f, _ | ⟨g, _ | ⟨h, _ | _⟩⟩⟩⟩⟩⟩⟩⟩ := leaves <;> simp at hcount
    simp [weightedSum, laneValues, productStageArities, List.toChunks, List.toChunks.go, mul_assoc]

theorem batchClaims_eq {claims : List E} {claim : E} (h : batchClaims weights claims = .ok claim) :
    claim = weightedSum weights claims := by
  simp only [batchClaims, bind_eq_ok, pure_eq_ok, ensure_eq_ok] at h
  obtain ⟨_, hlen, rfl⟩ := h
  rw [foldl_add_eq (fun x : E × E => x.1 * x.2), zero_add, weightedSum_eq_zip hlen]

theorem ofCoeffs_accumulate (weight : E) {batched poly : List E} (h : poly.length ≤ batched.length) {out : List E}
    (hlen : out.length = batched.length)
    (hget : ∀ i < batched.length, out.getD i 0 = batched.getD i 0 + weight * poly.getD i 0) :
    ofCoeffs out = ofCoeffs batched + C weight * ofCoeffs poly := by
  ext i
  rw [coeff_add, coeff_C_mul, coeff_ofCoeffs, coeff_ofCoeffs, coeff_ofCoeffs]
  by_cases hi : i < batched.length
  · exact hget i hi
  · simp [hlen, not_lt.1 hi, h.trans (not_lt.1 hi)]

theorem eval_foldl_batch {step : List E → E × List E → List E} (x : E)
    (hstep : ∀ batched term, term.2.length ≤ batched.length → (step batched term).length = batched.length ∧
      ofCoeffs (step batched term) = ofCoeffs batched + C term.1 * ofCoeffs term.2) :
    ∀ (terms : List (E × List E)) (batched : List E), (∀ term ∈ terms, term.2.length ≤ batched.length) →
      (ofCoeffs (terms.foldl step batched)).eval x =
        (ofCoeffs batched).eval x + (terms.map fun term => term.1 * (ofCoeffs term.2).eval x).sum := by
  intro terms
  induction terms with
  | nil => simp
  | cons term terms ih =>
    intro batched hfit
    obtain ⟨hterm, hfit⟩ := forall_mem_cons.1 hfit
    obtain ⟨hlen, heq⟩ := hstep batched term hterm
    rw [foldl_cons, ih _ (by rwa [hlen]), heq, eval_add, eval_C_mul, map_cons, sum_cons, add_assoc]

theorem le_foldl_max (l : List ℕ) : ∀ init : ℕ, init ≤ l.foldl max init ∧ ∀ n ∈ l, n ≤ l.foldl max init := by
  induction l with
  | nil => simp
  | cons a l ih =>
    intro init
    obtain ⟨hinit, hmem⟩ := ih (max init a)
    simp only [foldl_cons, mem_cons, forall_eq_or_imp]
    exact ⟨le_trans (le_max_left _ _) hinit, le_trans (le_max_right _ _) hinit, hmem⟩

theorem eval_batchLeafPolynomials {leaves : List (List E)} {coeffs : List E}
    (h : batchLeafPolynomials weights leaves = .ok coeffs) (x : E) : weights.length = leaves.length ∧
      (ofCoeffs coeffs).eval x = weightedSum weights (leaves.map fun leaf => (ofCoeffs leaf).eval x) := by
  simp only [batchLeafPolynomials, bind_eq_ok, pure_eq_ok, ensure_eq_ok] at h
  obtain ⟨_, hlen, rfl⟩ := h
  refine ⟨hlen, ?_⟩
  have hfit := (le_foldl_max (leaves.map length) 0).2
  generalize (leaves.map length).foldl max 0 = maxLen at hfit ⊢
  have hzero : (ofCoeffs (replicate maxLen (0 : E))).eval x = 0 := by
    simpa [ofCoeffs] using congrArg (eval x) (ofCoeffs_append_replicate_zero ([] : List E) maxLen)
  rw [weightedSum_eq_zip (by simpa using hlen), zip_map_right, map_map, eval_foldl_batch x, hzero, zero_add]
  · rfl
  · intro batched term hterm
    refine ⟨by simp, ofCoeffs_accumulate term.1 hterm (by simp) fun i hi => ?_⟩
    by_cases hp : i < term.2.length <;> simp [hi, hp]
  · intro term hterm
    simpa using hfit _ (mem_map_of_mem (of_mem_zip hterm).2)

/-! ## Runs -/

/-- The claim is the sum of its weighted lanes over the cube. -/
def ProductClaim.TrueFor (input : ProductClaim E) (lanes : List E → List E) : Prop :=
  input.claim = cubeSum input.equalityPoint fun x => weightedSum input.weights (lanes x)

/-- The sumcheck claim of a stage is true for its children, and so are the claims on them at its point. -/
structure ProductStage.TrueFor (stage : ProductStage E) (children : List E → List E) : Prop where
  claim : stage.toProductClaim.TrueFor fun x => ((children x).toChunks stage.arity).map List.prod
  childClaims : stage.childClaims = (List.range stage.childClaims.length).map fun i =>
    cubeSum stage.replay.challenges fun x => (children x).getD i 0

/-- Each stage of a run is true, for the lanes that the remaining arities leave over the leaves. -/
def TrueStages (leaves : List E → List E) : List ℕ → List (ProductStage E) → Prop
  | _ :: arities, stage :: stages =>
    stage.TrueFor (fun x => laneValues arities (leaves x)) ∧ TrueStages leaves arities stages
  | _, _ => True

/-- True child claims batch to a true claim. -/
theorem ProductStage.TrueFor.next {children : List E → List E} (h : stage.TrueFor children) (hnext : stage.next = .ok input) : input.TrueFor children := by
  simp only [ProductStage.next, result_ok] at hnext
  obtain ⟨claim, hclaim, rfl⟩ := hnext
  have hcount : (interstageBatchWeights stage.gamma stage.childClaims.length).length =
      stage.childClaims.length := by simp [interstageBatchWeights_eq]
  rw [ProductClaim.TrueFor, cubeSum_weightedSum, batchClaims_eq hclaim, hcount, ← h.childClaims]

section

variable [DecidableEq E] {F : Type} [CanonicalEncoding F] [ExtField F E] {𝔱 : TranscriptBackend} {κ : Type}
  {𝔬 : OmittedBackend E} {𝔤 : Stage1Grinding 𝔱 κ E} {level : UInt32} {plan : DigitRangePlan} {rounds : ℕ}

theorem productStage_ok {i arity : ℕ} {s s' : 𝔱.Verifier × κ}
    (h : (productStage F 𝔬 𝔤 level plan rounds i arity input).run s = .ok stage s') :
    stage.toProductClaim = input ∧ stage.arity = arity ∧ stage.replay.outputClaim = stage.expectedOutput := by
  simp only [productStage, run_bind_ok, run_ofResult_ok, ensure_eq_ok] at h
  obtain ⟨_, _, -, _, _, -, _, _, -, replay, _, -, _, _, -, _, _, -, _, _, ⟨hout, -⟩, _, _, -, hpure⟩ := h
  obtain ⟨rfl, -⟩ := EStateM.Result.ok.inj hpure
  exact ⟨rfl, rfl, hout⟩

theorem productStages_ok : ∀ (arities : List ℕ) (i : ℕ) (input : ProductClaim E) (s s' : 𝔱.Verifier × κ)
    (stages : List (ProductStage E)) (last : ProductClaim E),
    (productStages F 𝔬 𝔤 level plan rounds arities i input).run s = .ok (stages, last) s' →
    (stages.map ProductStage.arity = arities ∧ ∀ stage ∈ stages, stage.replay.outputClaim = stage.expectedOutput) ∧
    ∀ leaves : List E → List E, TrueStages leaves arities stages →
      (stages ≠ [] → input.TrueFor fun x => laneValues arities (leaves x)) ∧
      (input.TrueFor (fun x => laneValues arities (leaves x)) → last.TrueFor leaves) := by
  intro arities
  induction arities with
  | nil =>
    intro i input s s' stages last h
    obtain ⟨heq, -⟩ := EStateM.Result.ok.inj h
    cases heq
    exact ⟨⟨rfl, by simp⟩, fun _ _ => ⟨fun hne => absurd rfl hne, id⟩⟩
  | cons arity arities ih =>
    intro i input s s' stages last h
    simp only [productStages, run_bind_ok, run_ofResult_ok] at h
    obtain ⟨stage, s1, hstage, next, _, ⟨hnext, rfl⟩, ⟨rest, _⟩, _, hrest, hpure⟩ := h
    cases hpure
    obtain ⟨rfl, rfl, hout⟩ := productStage_ok hstage
    obtain ⟨⟨harities, houts⟩, hrun⟩ := ih _ _ _ _ _ _ hrest
    refine ⟨⟨by rw [map_cons, harities], by simpa using ⟨hout, houts⟩⟩, fun leaves htrue => ?_⟩
    exact ⟨fun _ => htrue.1.claim, fun _ => (hrun leaves htrue.2).2 (htrue.1.next hnext)⟩

/-- **The range check of a digit.** Over any field the leaf polynomials of a basis vanish together at `w (w + 1)` exactly
when `w` is the image of a balanced digit. In every run of the product stages whose sumcheck claims are true for their
children, the starting claim is that on the product of the leaves over the cube and the leaf claim that on the batched
leaf polynomial, which is everywhere the sum of the leaves in the weights of the last children; and what `verify` checks
the last sumcheck against is its value at the claimed image. -/
theorem digit_range_check (F : Type) [CanonicalEncoding F] [ExtField F E] {𝔱 : TranscriptBackend} {κ : Type}
    (𝔬 : OmittedBackend E) (𝔤 : Stage1Grinding 𝔱 κ E) (level : UInt32) (plan : DigitRangePlan) :
    (∀ w : E, (plan.leafValues (rangeImage w)).prod = 0 ↔
      ∃ d : ℤ, -((plan.basis / 2 : ℕ) : ℤ) ≤ d ∧ d ≤ ((plan.basis / 2 : ℕ) : ℤ) - 1 ∧ (d : E) = w) ∧
    (∀ (τ : List E) (s s' : 𝔱.Verifier × κ) (leaf : RangeLeafVerifierInput E),
      (verifyProductPrefix F 𝔬 𝔤 level plan τ).run s = .ok leaf s' → ∃ stages last,
        (productStages F 𝔬 𝔤 level plan τ.length plan.productStageArities 0 ⟨τ, 0, [1]⟩).run s = .ok (stages, last) s' ∧
        (stages.map ProductStage.arity = plan.productStageArities ∧
          ∀ stage ∈ stages, stage.replay.outputClaim = stage.expectedOutput) ∧
        (leaf.equalityPoint = last.equalityPoint ∧ leaf.inputClaim = last.claim ∧
          last.weights.length = (plan.leafCoeffs E).length) ∧
        (∀ image : E, evaluateLeafPolynomial leaf.polynomialCoefficients image =
          weightedSum last.weights (plan.leafValues image)) ∧ ∀ witness : List E → E,
          TrueStages (fun x => plan.leafValues (rangeImage (witness x))) plan.productStageArities stages →
          (stages ≠ [] → 0 = cubeSum τ fun x => (plan.leafValues (rangeImage (witness x))).prod) ∧
          (0 = cubeSum τ (fun x => (plan.leafValues (rangeImage (witness x))).prod) →
            leaf.inputClaim = cubeSum leaf.equalityPoint fun x =>
              evaluateLeafPolynomial leaf.polynomialCoefficients (rangeImage (witness x)))) ∧
    ∀ (τ : List E) (s s' : 𝔱.Verifier × κ) (out : Stage1VerifyOutput E),
      (verify F 𝔬 𝔤 level plan τ none).run s = .ok out s' → ∃ leaf s1 shape replay s2,
        (verifyProductPrefix F 𝔬 𝔤 level plan τ).run s = .ok leaf s1 ∧
        (verifyEqFactoredSumcheckRounds F 𝔬 leaf.equalityPoint leaf.inputClaim shape
          (𝔤.sumcheck (UInt32.ofNat plan.productStageArities.length)) 0).run s1 = .ok replay s2 ∧
        out.point = replay.challenges ∧ replay.outputClaim =
          evaluateLeafPolynomial leaf.polynomialCoefficients out.rangeImageEvaluation := by
  refine ⟨leafValues_prod_eq_zero plan, fun τ s s' leaf h => ?_, fun τ s s' out h => ?_⟩
  · simp only [verifyProductPrefix, run_bind_ok, run_ofResult_ok] at h
    obtain ⟨⟨stages, last⟩, _, hstages, coeffs, _, ⟨hbatch, rfl⟩, hpure⟩ := h
    cases hpure
    obtain ⟨hchecked, hrun⟩ := productStages_ok _ _ _ _ _ _ _ hstages
    have heval : ∀ image : E, evaluateLeafPolynomial coeffs image =
        weightedSum last.weights (plan.leafValues image) := by
      intro image
      simp only [evaluateLeafPolynomial_eq, (eval_batchLeafPolynomials hbatch image).2, leafValues]
    refine ⟨stages, last, hstages, hchecked, ⟨rfl, rfl, (eval_batchLeafPolynomials hbatch 0).1⟩, heval,
      fun witness htrue => ?_⟩
    have hrun := hrun _ htrue
    simp only [ProductClaim.TrueFor, laneValues_root] at hrun
    exact ⟨hrun.1, fun hinitial => by simpa only [heval] using hrun.2 hinitial⟩
  · simp only [verify, run_bind_ok, run_ofResult_ok, u32TryFrom_ok, ensure_eq_ok] at h
    obtain ⟨leaf, s1, hleaf, _, _, ⟨⟨-, rfl⟩, rfl⟩, shape, _, ⟨-, rfl⟩, replay, s2, hreplay, _, _, -, _, _, ⟨hout, -⟩,
      hpure⟩ := h
    obtain ⟨rfl, -⟩ := EStateM.Result.ok.inj hpure
    exact ⟨leaf, s1, shape, replay, s2, hleaf, hreplay, rfl, hout⟩

end

def sampleGrinding : Stage1Grinding plainBackend UInt32 (ZMod 5) where
  codec := byteCodec
  replay := ⟨Sumcheck.onState, id, fun _ => pure ()⟩
  sumcheck _ := directChannel plainBackend.Verifier byteCodec

theorem digit_range_check_two_lanes : ∃ leaf s',
    (verifyProductPrefix (ZMod 5) (listOmitted (ZMod 5)) sampleGrinding 0 sampleProver.plan [2]).run
      (plainBackend.verifierNew [] [0, 0, 0, 0], 0) = .ok leaf s' ∧
    leaf.inputClaim = cubeSum leaf.equalityPoint fun x =>
      evaluateLeafPolynomial leaf.polynomialCoefficients (rangeImage (x.headD 0)) := by
  obtain ⟨leaf, s', hrun⟩ : ∃ leaf s', (verifyProductPrefix (ZMod 5) (listOmitted (ZMod 5)) sampleGrinding 0
    sampleProver.plan [2]).run (plainBackend.verifierNew [] [0, 0, 0, 0], 0) = .ok leaf s' := ⟨_, _, rfl⟩
  obtain ⟨stages, last, hstages, -, -, -, hreduce⟩ := (digit_range_check (ZMod 5) (listOmitted (ZMod 5)) sampleGrinding 0
    sampleProver.plan).2.1 _ _ _ _ hrun
  obtain ⟨t, ht⟩ : ∃ t, (productStages (ZMod 5) (listOmitted (ZMod 5)) sampleGrinding 0 sampleProver.plan 1 [2] 0
    ⟨[2], 0, [1]⟩).run (plainBackend.verifierNew [] [0, 0, 0, 0], 0) =
      .ok ([⟨⟨[2], 0, [1]⟩, 2, ⟨0, [0]⟩, [0, 0], 0⟩], ⟨[0], 0, [1, 0]⟩) t := ⟨_, rfl⟩
  obtain ⟨heq, -⟩ := EStateM.Result.ok.inj (ht.symm.trans hstages)
  cases heq
  have hreduce := hreduce (fun x => x.headD 0) ⟨⟨by rw [ProductClaim.TrueFor]; decide +kernel, by decide +kernel⟩, trivial⟩
  exact ⟨leaf, s', hrun, hreduce.2 (hreduce.1 (by simp))⟩

end Akita.DigitRange
