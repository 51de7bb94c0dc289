import Akita.Proof.FftKernel

/-!
# The mixed-radix FFT is the Fourier transform

The sweep over the stages is decimation in time, so it computes the Fourier sums of its root from
any workspace. The other transforms follow: the inverse from the inverse root, the coset evaluation
from twisted coefficients, and the extension from both.

* `stages_ok`: all the stages of a plan.
* `sweep_ok`: the Fourier sums.
* `domain_ok`: a domain is built.
* `fft_exact`: every transform of a domain.
-/

namespace Akita.Fft

open Lib Finset
open List hiding mem_range prod_cons
open Ntt (readAt_ok writeAt_ok)
open SetupContribution (fieldPow)

variable {F : Type} {n : ℕ}

/-- A workspace of size `n`. -/
structure FftWorkspace.Shaped (ws : FftWorkspace F) (n : ℕ) : Prop where
  n_eq : ws.n = n
  bufA : ws.bufA.length = n
  bufB : ws.bufB.length = n

variable {ws : FftWorkspace F}

theorem FftWorkspace.Shaped.withA (h : ws.Shaped n) {bufA : List F} (hlen : bufA.length = n) :
    FftWorkspace.Shaped { ws with bufA := bufA } n := ⟨h.n_eq, hlen, h.bufB⟩

variable [Field F]

theorem FftWorkspace.new_shaped (n : ℕ) : (FftWorkspace.new n : FftWorkspace F).Shaped n :=
  ⟨rfl, length_replicate, length_replicate⟩

theorem eq_of_getD {a b : List F} (ha : a.length = n) (hb : b.length = n) (h : ∀ i < n, a.getD i 0 = b.getD i 0) : a = b := by
  apply ext_getElem (by rw [ha, hb])
  intro i hi hi'
  have := h i (by omega)
  rwa [getD_eq_getElem _ _ hi, getD_eq_getElem _ _ hi'] at this

/-- What a plan computes, from any workspace of its size. -/
def Transforms (ω : F) (n : ℕ) (stages : List (StageData F)) (digitRev : List ℕ) : Prop :=
  ∀ (ws : FftWorkspace F) (input : List F), ws.n = n → ws.bufA.length = n → input.length = n →
    ∃ out, ws.sweep input stages digitRev = .ok (out, { ws with bufA := out }) ∧ out.length = n ∧
      ∀ i < n, out.getD i 0 = ∑ k ∈ range n, input.getD k 0 * ω ^ (i * k)

theorem Transforms.execute {ω : F} {stages : List (StageData F)} {digitRev : List ℕ} (h : Transforms ω n stages digitRev)
    (hws : ws.Shaped n) {input : List F} (hinput : input.length = n) :
    ∃ out, ws.execute input stages digitRev = .ok (out, { ws with bufA := out }) ∧ out.length = n ∧
      ∀ i < n, out.getD i 0 = ∑ k ∈ range n, input.getD k 0 * ω ^ (i * k) := by
  obtain ⟨out, hrun, hlen, hval⟩ := h ws input hws.n_eq hws.bufA hinput
  refine ⟨out, ?_, hlen, hval⟩
  rw [FftWorkspace.execute, ensure, if_pos (by rw [hinput, hws.n_eq]), ok_bind, hrun]

structure DomainOk (ω : F) (n : ℕ) (domain : SmoothDomain F) : Prop where
  n_eq : domain.n = n
  nInv : domain.nInv = (n : F)⁻¹
  forward : Transforms ω n domain.fwdStages domain.digitRev
  inverse : Transforms ω⁻¹ n domain.invStages domain.digitRev

section

variable [DecidableEq F] {ω : F}

theorem stagesFrom_append (omega : F) (n : ℕ) (radices : List ℕ) (r block : ℕ) :
    stagesFrom omega n (radices ++ [r]) block = do
      let stages ← stagesFrom omega n radices block
      let stage ← stageData omega n r (block * radices.prod)
      return stages ++ [stage] := by
  induction radices generalizing block with
  | nil =>
    simp only [nil_append, stagesFrom, prod_nil, mul_one, ok_bind]
  | cons r' radices ih =>
    rw [cons_append, stagesFrom, stagesFrom, ih, List.prod_cons, mul_assoc]
    cases stageData omega n r' block with
    | error e => rfl
    | ok stage =>
      cases stagesFrom omega n radices (block * r') with
      | error e => rfl
      | ok stages =>
        cases stageData omega n r (block * (r' * radices.prod)) <;> rfl

/-- **All the stages of a plan** are decimation in time. -/
theorem stages_ok (h2 : (2 : F) ≠ 0) {omega : F} (hn : 0 < n) (hroot : IsPrimitiveRoot omega n) {fs : List ℕ}
    (hfs : ∀ r ∈ fs, Radix r) (hdvd : fs.prod ∣ n) :
    ∃ stages, precomputeStages omega n fs = .ok stages ∧ ∀ (buf : List F) (v : ℕ → F), buf.length = n →
      (∀ i < n, buf.getD i 0 = v i) → ∃ out, stages.foldlM (butterflyStage n) buf = .ok out ∧ out.length = n ∧
        ∀ i < n, out.getD i 0 = dit (omega ^ (n / fs.prod)) fs v i := by
  induction fs with
  | nil => exact ⟨[], rfl, fun buf v hlen hv => ⟨buf, rfl, hlen, hv⟩⟩
  | cons r rest ih =>
    have hr := hfs r mem_cons_self
    rw [List.prod_cons] at hdvd
    have hrpos : 0 < r := by have := hr.two_le; omega
    have hrest : 0 < rest.prod := by
      rcases Nat.eq_zero_or_pos rest.prod with hzero | hrest
      · rw [hzero, mul_zero, zero_dvd_iff] at hdvd
        omega
      · exact hrest
    obtain ⟨stages, hstages, hsweep⟩ := ih (fun s hs => hfs s (mem_cons_of_mem r hs)) (dvd_of_mul_left_dvd hdvd)
    obtain ⟨stage, hstage, hok⟩ := stageData_ok h2 omega n hr rest.prod
    -- the root of the stage and of its radix
    have hprim : IsPrimitiveRoot ((omega ^ (n / (rest.prod * r))) ^ rest.prod) r := by
      refine IsPrimitiveRoot.pow (Nat.mul_pos hrest hrpos) (hroot.pow hn ?_) rfl
      rw [Nat.div_mul_cancel (by rwa [mul_comm])]
    have hdown : (omega ^ (n / (r * rest.prod))) ^ r = omega ^ (n / rest.prod) := by
      obtain ⟨m, rfl⟩ := hdvd
      rw [← pow_mul, Nat.mul_div_cancel_left _ (Nat.mul_pos hrpos hrest), mul_comm r rest.prod, mul_assoc,
        Nat.mul_div_cancel_left _ hrest, mul_comm]
    refine ⟨stages ++ [stage], ?_, fun buf v hlen hv => ?_⟩
    · unfold precomputeStages at hstages ⊢
      rw [reverse_cons, stagesFrom_append, hstages, ok_bind, prod_reverse, one_mul, hstage]
      rfl
    · obtain ⟨mid, hmid, hmidLen, hmidVal⟩ := hsweep buf v hlen hv
      obtain ⟨out, hout, houtLen, houtVal⟩ := butterflyStage_ok h2 hok hr hprim hrest (by rwa [mul_comm]) hmidLen hmidVal
      refine ⟨out, ?_, houtLen, fun i hi => ?_⟩
      · rw [foldlM_append, hmid, ok_bind, foldlM_cons, hout]
        rfl
      · rw [houtVal i hi, List.prod_cons, dit, hdown, mul_comm rest.prod r]

/-- **The sweep computes the Fourier sums.** -/
theorem sweep_ok (h2 : (2 : F) ≠ 0) (hn : 0 < n) (hsmooth : Smooth n) (hroot : IsPrimitiveRoot ω n) :
    ∃ stages, precomputeStages ω n (factorize n) = .ok stages ∧
      Transforms ω n stages (digitReversalPermutation n (factorize n)) := by
  obtain ⟨hradix, hprod⟩ := factorize_ok hn hsmooth
  obtain ⟨stages, hstages, hsweep⟩ := stages_ok h2 hn hroot hradix (dvd_of_eq hprod)
  refine ⟨stages, hstages, fun ws input hws hlen hinput => ?_⟩
  have hperm : (digitReversalPermutation n (factorize n)).length = n := by
    rw [digitReversalPermutation_eq, length_map, length_range]
  have hentry : ∀ i < n, (digitReversalPermutation n (factorize n)).getD i 0 = digitReverse (factorize n) i := by
    intro i hi
    rw [digitReversalPermutation_eq, getD_eq_getElem _ _ (by rw [length_map, length_range]; exact hi), getElem_map,
      getElem_range]
  have hlt : ∀ i < n, digitReverse (factorize n) i < n := fun i hi => by
    have hreverse := digitReverse_lt (show i < (factorize n).prod by rwa [hprod])
    rwa [hprod] at hreverse
  -- the permutation writes every position once
  obtain ⟨bufA, hbufA, hbufALen, hbufAVal⟩ := @foldlM_zipIdx_runs _ _ _
    (fun (bufA : List F) (entry : ℕ × ℕ) => do Ntt.writeAt bufA entry.1 (← Ntt.readAt input entry.2))
    (fun i bufA => bufA.length = n ∧ ∀ k < i, bufA.getD (digitReverse (factorize n) k) 0 = input.getD k 0)
    (digitReversalPermutation n (factorize n)) 0 (by
      rintro i hi bufA ⟨hbufALen, hbufAVal⟩
      rw [hperm] at hi
      refine ⟨bufA.set (digitReverse (factorize n) i) (input.getD i 0), ?_, by rw [length_set, hbufALen], fun k hk => ?_⟩
      · dsimp only
        rw [readAt_ok 0 (by rw [hinput]; exact hi), ok_bind, hentry i hi, writeAt_ok (by rw [hbufALen]; exact hlt i hi)]
      · rcases eq_or_ne i k with rfl | hne
        · rw [getD_set_self (by rw [hbufALen]; exact hlt i hi)]
        · rw [getD_set_ne, hbufAVal k (by omega)]
          exact fun heq => hne (digitReverse_inj (by omega) (by omega) heq)) ws.bufA
    ⟨hlen, fun k hk => absurd hk (Nat.not_lt_zero k)⟩
  rw [hperm] at hbufAVal
  obtain ⟨out, hout, houtLen, houtVal⟩ := hsweep bufA (fun i => bufA.getD i 0) hbufALen fun _ _ => rfl
  refine ⟨out, ?_, houtLen, fun i hi => ?_⟩
  · unfold FftWorkspace.sweep
    rw [hbufA, ok_bind, hws, hout, ok_bind, take_of_length_le houtLen.le]
    rfl
  · rw [houtVal i hi, hprod, Nat.div_self hn, pow_one]
    have hdft := @dit_eq_dft F _ (factorize n) ω i (by rw [hprod, hroot.pow_eq_one]) (fun i => bufA.getD i 0) (fun k => input.getD k 0)
      (by rw [hprod]; exact hbufAVal) (by rwa [hprod])
    rwa [hprod] at hdft

theorem debugAssert_ok (hn : 0 < n) (hsmooth : Smooth n) (hroot : IsPrimitiveRoot ω n) :
    debugAssertPrimitiveNthRoot ω n = .ok () := by
  obtain ⟨hradix, hprod⟩ := factorize_ok hn hsmooth
  have hall : isPrimitiveNthRoot ω n (distinctPrimeFactors n) = true := by
    unfold isPrimitiveNthRoot
    rw [fieldPow_eq, hroot.pow_eq_one, if_neg (by simp), all_eq_true]
    intro q hq
    have hmem : q ∈ factorize n := mem_mergeSort.1 ((destutter_sublist _ _).subset hq)
    have htwo := (hradix q hmem).two_le
    have hdvd : q ∣ n := hprod ▸ dvd_prod hmem
    rw [fieldPow_eq, decide_eq_true_eq]
    exact hroot.pow_ne_one_of_pos_of_lt (Nat.div_pos (Nat.le_of_dvd hn hdvd) (by omega)).ne' (Nat.div_lt_self hn (by omega))
  unfold debugAssertPrimitiveNthRoot
  rw [ensure, if_pos hall]

/-- **A domain is built.** -/
theorem domain_ok (h2 : (2 : F) ≠ 0) (hn : 0 < n) (hsmooth : Smooth n) (hroot : IsPrimitiveRoot ω n) :
    ∃ domain, SmoothDomain.new ω n = .ok domain ∧ DomainOk ω n domain := by
  have hω : ω ≠ 0 := hroot.ne_zero hn.ne'
  have : NeZero n := ⟨hn.ne'⟩
  have hcast : (n : F) ≠ 0 := hroot.neZero'.out
  obtain ⟨fwdStages, hfwd, hfwdOk⟩ := sweep_ok h2 hn hsmooth hroot
  obtain ⟨invStages, hinv, hinvOk⟩ := sweep_ok h2 hn hsmooth hroot.inv
  refine ⟨⟨n, ω, (n : F)⁻¹, digitReversalPermutation n (factorize n), fwdStages, invStages⟩, ?_, rfl, rfl, hfwdOk, hinvOk⟩
  unfold SmoothDomain.new
  rw [debugAssert_ok hn hsmooth hroot, ok_bind, OffsetEq.inverse, if_neg hω, OffsetEq.inverse, if_neg hcast]
  simp only [okOr, ok_bind]
  rw [hfwd, ok_bind, hinv]
  rfl

end

section domain

variable {ω : F} {domain : SmoothDomain F} (h : DomainOk ω n domain) {x coeffs : List F}

theorem ensureLen_ok {length : ℕ} (hlen : length = n) : SmoothDomain.ensureLen length n = .ok () := by
  rw [SmoothDomain.ensureLen, ensure, if_pos hlen]

include h

/-- **The forward transform**, and the same into any output and workspace. -/
theorem forward_ok (hx : x.length = n) :
    ∃ y, domain.forward x = .ok y ∧ y.length = n ∧ (∀ k < n, y.getD k 0 = ∑ j ∈ range n, x.getD j 0 * ω ^ (k * j)) ∧
      ∀ output : List F, ∀ ws : FftWorkspace F, output.length = n → ws.Shaped n →
        domain.forwardInto x output ws = .ok (y, { ws with bufA := y }) := by
  obtain ⟨y, hy, hylen, hyval⟩ := h.forward.execute (FftWorkspace.new_shaped n) hx
  refine ⟨y, ?_, hylen, hyval, fun output ws houtput hws => ?_⟩
  · unfold SmoothDomain.forward
    rw [h.n_eq, ensureLen_ok hx, ok_bind, hy]
    rfl
  · obtain ⟨z, hz, hzlen, hzval⟩ := h.forward.execute hws hx
    obtain rfl : z = y := eq_of_getD hzlen hylen fun i hi => by rw [hzval i hi, hyval i hi]
    unfold SmoothDomain.forwardInto
    rw [h.n_eq, ensureLen_ok hx, ok_bind, ensureLen_ok houtput, ok_bind, ensureLen_ok hws.n_eq, ok_bind, hz, ok_bind, ensure,
      if_pos (by rw [houtput, hzlen])]
    rfl

/-- **The inverse transform**, and the same into any output and workspace. -/
theorem inverse_ok (hx : x.length = n) : ∃ y, domain.inverse x = .ok y ∧ y.length = n ∧
      (∀ k < n, y.getD k 0 = (∑ j ∈ range n, x.getD j 0 * ω⁻¹ ^ (k * j)) * (n : F)⁻¹) ∧
      ∀ output : List F, ∀ ws : FftWorkspace F, output.length = n → ws.Shaped n →
        ∃ ws', domain.inverseInto x output ws = .ok (y, ws') ∧ ws'.Shaped n := by
  obtain ⟨y, hy, hylen, hyval⟩ := h.inverse.execute (FftWorkspace.new_shaped n) hx
  refine ⟨y.map (· * domain.nInv), ?_, by rw [length_map, hylen], fun k hk => ?_, fun output ws houtput hws => ?_⟩
  · unfold SmoothDomain.inverse
    rw [h.n_eq, ensureLen_ok hx, ok_bind, hy]
    rfl
  · rw [getD_eq_getElem _ _ (by rw [length_map, hylen]; exact hk), getElem_map, ← hyval k hk,
      getD_eq_getElem _ _ (by rw [hylen]; exact hk), h.nInv]
  · obtain ⟨z, hz, hzlen, hzval⟩ := h.inverse.execute hws hx
    obtain rfl : z = y := eq_of_getD hzlen hylen fun i hi => by rw [hzval i hi, hyval i hi]
    refine ⟨{ ws with bufA := z }, ?_, hws.withA hzlen⟩
    unfold SmoothDomain.inverseInto
    rw [h.n_eq, ensureLen_ok hx, ok_bind, ensureLen_ok houtput, ok_bind, ensureLen_ok hws.n_eq, ok_bind, hz, ok_bind, ensure,
      if_pos (by rw [houtput, hzlen])]
    rfl

omit h in
theorem twist_ok (hws : ws.Shaped n) (hcoeffs : coeffs.length ≤ n) (shift : F) :
    ∃ bufB, ws.twist coeffs shift = .ok { ws with bufB } ∧ bufB.length = n ∧
      ∀ i < coeffs.length, bufB.getD i 0 = coeffs.getD i 0 * shift ^ i := by
  obtain ⟨last, hrun, ⟨hlen, -⟩, hval⟩ := @foldlM_zipIdx_runs _ _ _ (fun (state : List F × F) (entry : F × ℕ) => do
      let buf ← Ntt.writeAt state.1 entry.2 (entry.1 * state.2)
      return (buf, state.2 * shift))
    (fun i state => (state.1.length = n ∧ state.2 = shift ^ i) ∧ ∀ k < i, state.1.getD k 0 = coeffs.getD k 0 * shift ^ k) coeffs 0 (by
      rintro i hi state ⟨⟨hlen, hpow⟩, hval⟩
      refine ⟨(state.1.set i (coeffs.getD i 0 * state.2), state.2 * shift), ?_, ⟨by rw [length_set, hlen], ?_⟩, fun k hk => ?_⟩
      · dsimp only
        rw [writeAt_ok (by omega)]
        rfl
      · rw [hpow, pow_succ]
      · rcases eq_or_ne i k with rfl | hne
        · rw [getD_set_self (by omega), hpow]
        · rw [getD_set_ne hne]
          exact hval k (by omega)) (ws.bufB, 1)
    ⟨⟨hws.bufB, (pow_zero shift).symm⟩, fun k hk => absurd hk (Nat.not_lt_zero k)⟩
  refine ⟨last.1, ?_, hlen, hval⟩
  unfold FftWorkspace.twist
  rw [hrun]
  rfl

/-- **Evaluation on a coset.** -/
theorem cosetForward_ok (hcoeffs : coeffs.length ≤ n) (shift : F) : ∃ y, domain.cosetForward coeffs shift = .ok y ∧ y.length = n ∧
      ∀ i < n, y.getD i 0 = ∑ j ∈ range coeffs.length, coeffs.getD j 0 * (shift * ω ^ i) ^ j := by
  obtain ⟨bufB, htwist, hlen, hval⟩ := twist_ok (FftWorkspace.new_shaped n) hcoeffs shift
  have hpadLen : (bufB.mapIdx fun i v => if coeffs.length ≤ i then 0 else v).length = n := by rw [length_mapIdx, hlen]
  have hpad : ∀ i < n, (bufB.mapIdx fun i v => if coeffs.length ≤ i then 0 else v).getD i 0 =
      if i < coeffs.length then coeffs.getD i 0 * shift ^ i else 0 := by
    intro i hi
    rw [getD_eq_getElem _ _ (by omega), getElem_mapIdx]
    by_cases hin : i < coeffs.length
    · rw [if_neg (by omega), if_pos hin, ← hval i hin, getD_eq_getElem _ _ (by omega)]
    · rw [if_pos (by omega), if_neg hin]
  obtain ⟨y, hy, hylen, hyval⟩ := h.forward { (FftWorkspace.new n : FftWorkspace F) with
    bufB := bufB.mapIdx fun i v => if coeffs.length ≤ i then 0 else v } _ rfl (FftWorkspace.new_shaped n).bufA hpadLen
  refine ⟨y, ?_, hylen, fun i hi => ?_⟩
  · unfold SmoothDomain.cosetForward
    rw [h.n_eq, ensure, if_pos hcoeffs, ok_bind, htwist, ok_bind]
    dsimp only [FftWorkspace.executeFromB]
    rw [hy]
    rfl
  · rw [hyval i hi, ← sum_subset (range_subset_range.2 hcoeffs)]
    · refine sum_congr rfl fun j hj => ?_
      have hj := mem_range.1 hj
      rw [hpad j (by omega), if_pos hj, mul_pow, ← pow_mul]
      ring
    · intro j hj hout
      rw [hpad j (mem_range.1 hj), if_neg (by simpa using hout), zero_mul]

open Polynomial in
omit h in
theorem polynomial_ok (c : ℕ → F) (n : ℕ) : (∑ j ∈ range n, monomial j (c j)).degree < n ∧
    ∀ x, (∑ j ∈ range n, monomial j (c j)).eval x = ∑ j ∈ range n, c j * x ^ j := by
  refine ⟨mem_degreeLT.1 (Submodule.sum_mem _ fun j hj => mem_degreeLT.2 ?_), fun x => ?_⟩
  · exact (degree_monomial_le j (c j)).trans_lt (by exact_mod_cast mem_range.1 hj)
  · rw [eval_finsetSum]
    exact sum_congr rfl fun j _ => eval_monomial

/-- **The extension** lists, coset by coset, the values of the polynomial of the inverse transform. -/
theorem rsExtendBatch_ok {evals : List F} (hevals : evals.length = n) (w : F) {blowup : ℕ} (hblowup : 1 ≤ blowup) :
    ∃ coeffs out, domain.inverse evals = .ok coeffs ∧ domain.rsExtendBatch evals w blowup = .ok out ∧ coeffs.length = n ∧
      out.length = (blowup - 1) * n ∧ ∀ m < blowup - 1, ∀ i < n,
        out.getD (m * n + i) 0 = ∑ j ∈ range n, coeffs.getD j 0 * (w ^ (m + 1) * ω ^ i) ^ j := by
  obtain ⟨raw, hraw, hrawLen, hrawVal⟩ := h.inverse.execute (FftWorkspace.new_shaped n) hevals
  have hlen : (raw.map (· * domain.nInv)).length = n := by rw [length_map, hrawLen]
  have hinv : domain.inverse evals = .ok (raw.map (· * domain.nInv)) := by
    unfold SmoothDomain.inverse
    rw [h.n_eq, ensureLen_ok hevals, ok_bind, hraw]
    rfl
  generalize hcoeffs : raw.map (· * domain.nInv) = coeffs at *
  obtain ⟨last, hrun, hshaped, houtLen, hval⟩ := @foldlM_range_runs _ _ (fun (state : FftWorkspace F × List F) m => do
      let ws ← state.1.twist coeffs (fieldPow w (1 + m))
      let result ← ws.executeFromB domain.fwdStages domain.digitRev
      return (result.2, state.2 ++ result.1))
    (fun m state => state.1.Shaped n ∧ state.2.length = m * n ∧ ∀ m' < m, ∀ i < n,
      state.2.getD (m' * n + i) 0 = ∑ j ∈ range n, coeffs.getD j 0 * (w ^ (m' + 1) * ω ^ i) ^ j) (blowup - 1) (by
      rintro m - state ⟨hshaped, houtLen, hval⟩
      obtain ⟨bufB, htwist, hbufB, hbufBVal⟩ := twist_ok hshaped hlen.le (fieldPow w (1 + m))
      obtain ⟨y, hy, hylen, hyval⟩ := h.forward { state.1 with bufB } bufB hshaped.n_eq hshaped.bufA hbufB
      refine ⟨({ state.1 with bufA := y, bufB }, state.2 ++ y), ?_, ⟨hshaped.n_eq, hylen, hbufB⟩, ?_, fun m' hm' i hi => ?_⟩
      · rw [htwist, ok_bind]
        dsimp only [FftWorkspace.executeFromB]
        rw [hy]
        rfl
      · rw [length_append, houtLen, hylen, Nat.succ_mul]
      · dsimp only
        rcases Nat.lt_succ_iff_lt_or_eq.1 hm' with hlt | rfl
        · have hin : m' * n + i < m * n := by
            have := Nat.mul_le_mul_right n (Nat.succ_le_of_lt hlt)
            rw [Nat.succ_mul] at this
            omega
          rw [getD_append _ _ _ _ (by omega)]
          exact hval m' hlt i hi
        · rw [getD_append_right _ _ _ _ (by omega), houtLen, Nat.add_sub_cancel_left, hyval i hi]
          refine sum_congr rfl fun j hj => ?_
          have hj := mem_range.1 hj
          rw [hbufBVal j (by omega), fieldPow_eq, add_comm 1, mul_pow, ← pow_mul ω]
          ring) ({ (FftWorkspace.new n : FftWorkspace F) with bufA := raw }, [])
    ⟨(FftWorkspace.new_shaped n).withA hrawLen, by simp, fun m hm => absurd hm (Nat.not_lt_zero m)⟩
  refine ⟨coeffs, last.2, hinv, ?_, hlen, houtLen, hval⟩
  unfold SmoothDomain.rsExtendBatch
  rw [h.n_eq, ensureLen_ok hevals, ok_bind, hraw, ok_bind]
  dsimp only
  rw [hcoeffs, ensure, if_pos hblowup, ok_bind, range'_eq_map_range, foldlM_map, hrun]
  rfl

/-- **The inverse undoes the forward transform.** -/
theorem inverse_forward_ok (hn : 0 < n) (hroot : IsPrimitiveRoot ω n) (hx : x.length = n) :
    ∃ y, domain.forward x = .ok y ∧ domain.inverse y = .ok x := by
  have : NeZero n := ⟨hn.ne'⟩
  have hcast : (n : F) ≠ 0 := hroot.neZero'.out
  obtain ⟨y, hy, hylen, hyval, -⟩ := forward_ok h hx
  obtain ⟨z, hz, hzlen, hzval, -⟩ := inverse_ok h hylen
  refine ⟨y, hy, ?_⟩
  rw [hz, eq_of_getD hzlen hx fun j hj => ?_]
  rw [hzval j hj, sum_congr rfl fun k hk => by rw [hyval k (mem_range.1 hk)], dft_dft hroot (fun i => x.getD i 0) hj]
  field_simp

/-- **The forward transform undoes the inverse.** -/
theorem forward_inverse_ok (hn : 0 < n) (hroot : IsPrimitiveRoot ω n) {y : List F} (hy : y.length = n) :
    ∃ x, domain.inverse y = .ok x ∧ domain.forward x = .ok y := by
  have : NeZero n := ⟨hn.ne'⟩
  have hcast : (n : F) ≠ 0 := hroot.neZero'.out
  obtain ⟨x, hx, hxlen, hxval, -⟩ := inverse_ok h hy
  obtain ⟨z, hz, hzlen, hzval, -⟩ := forward_ok h hxlen
  refine ⟨x, hx, ?_⟩
  rw [hz, eq_of_getD hzlen hy fun k hk => ?_]
  have hdft := dft_dft hroot.inv (fun i => y.getD i 0) hk
  rw [inv_inv] at hdft
  rw [hzval k hk, sum_congr rfl fun j hj => by rw [hxval j (mem_range.1 hj), mul_right_comm], ← sum_mul, hdft]
  field_simp

end domain

/-- **Every transform of a domain.** -/
structure DomainExact (ω : F) (n : ℕ) (domain : SmoothDomain F) : Prop where
  forward : ∀ x : List F, x.length = n → ∃ y, domain.forward x = .ok y ∧ y.length = n ∧
    ∀ k < n, y.getD k 0 = ∑ j ∈ range n, x.getD j 0 * ω ^ (k * j)
  inverse_forward : ∀ x : List F, x.length = n → ∃ y, domain.forward x = .ok y ∧ domain.inverse y = .ok x
  forward_inverse : ∀ y : List F, y.length = n → ∃ x, domain.inverse y = .ok x ∧ domain.forward x = .ok y
  forwardInto : ∀ (x output : List F) (ws : FftWorkspace F), x.length = n → output.length = n → ws.Shaped n →
    ∃ y ws', domain.forward x = .ok y ∧ domain.forwardInto x output ws = .ok (y, ws') ∧ ws'.Shaped n
  inverseInto : ∀ (x output : List F) (ws : FftWorkspace F), x.length = n → output.length = n → ws.Shaped n →
    ∃ y ws', domain.inverse x = .ok y ∧ domain.inverseInto x output ws = .ok (y, ws') ∧ ws'.Shaped n
  cosetForward : ∀ (c : List F) (s : F), c.length ≤ n → ∃ y, domain.cosetForward c s = .ok y ∧ y.length = n ∧
    ∀ i < n, y.getD i 0 = ∑ j ∈ range c.length, c.getD j 0 * (s * ω ^ i) ^ j
  rsExtendBatch : ∀ (evals : List F) (w : F) (blowup : ℕ), evals.length = n → 1 ≤ blowup → w ^ blowup = ω →
    ∃ out, domain.rsExtendBatch evals w blowup = .ok out ∧ out.length = (blowup - 1) * n ∧
      ∃ P : Polynomial F, (P.degree < n ∧ ∀ i < n, P.eval (ω ^ i) = evals.getD i 0) ∧
        (∀ Q : Polynomial F, Q.degree < n → (∀ i < n, Q.eval (ω ^ i) = evals.getD i 0) → Q = P) ∧
        ∀ j, 1 ≤ j → j < blowup → ∀ i < n, out.getD ((j - 1) * n + i) 0 = P.eval (w ^ j * ω ^ i)

/-- **The mixed-radix FFT is the Fourier transform** of every smooth size, with its inverse, coset evaluation and extension. -/
theorem fft_exact [DecidableEq F] (h2 : (2 : F) ≠ 0) {n : ℕ} (hn : 0 < n) (hsmooth : ∀ p, p.Prime → p ∣ n → p ≤ 7) {ω : F}
    (hroot : IsPrimitiveRoot ω n) : ∃ domain, SmoothDomain.new ω n = .ok domain ∧ DomainExact ω n domain := by
  obtain ⟨domain, hnew, h⟩ := domain_ok h2 hn hsmooth hroot
  refine ⟨domain, hnew, fun x hx => ?_, fun x hx => inverse_forward_ok h hn hroot hx, fun y hy => forward_inverse_ok h hn hroot hy,
    fun x output ws hx houtput hws => ?_, fun x output ws hx houtput hws => ?_, fun c s hc => cosetForward_ok h hc s,
    fun evals w blowup hevals hblowup _ => ?_⟩
  · obtain ⟨y, hy, hlen, hval, -⟩ := forward_ok h hx
    exact ⟨y, hy, hlen, hval⟩
  · obtain ⟨y, hy, hlen, -, hinto⟩ := forward_ok h hx
    exact ⟨y, _, hy, hinto output ws houtput hws, hws.withA hlen⟩
  · obtain ⟨y, hy, -, -, hinto⟩ := inverse_ok h hx
    obtain ⟨ws', hrun, hws'⟩ := hinto output ws houtput hws
    exact ⟨y, ws', hy, hrun, hws'⟩
  · obtain ⟨coeffs, out, hcoeffs, hout, hlen, houtLen, hval⟩ := rsExtendBatch_ok h hevals w hblowup
    obtain ⟨hdegree, heval⟩ := polynomial_ok (fun j => coeffs.getD j 0) n
    have hinterpolates : ∀ i < n, (∑ j ∈ range n, Polynomial.monomial j (coeffs.getD j 0)).eval (ω ^ i) = evals.getD i 0 := by
      intro i hi
      obtain ⟨coeffs', hcoeffs', hforward⟩ := forward_inverse_ok h hn hroot hevals
      obtain rfl : coeffs' = coeffs := Except.ok.inj (hcoeffs'.symm.trans hcoeffs)
      obtain ⟨y, hy, -, hyval, -⟩ := forward_ok h hlen
      obtain rfl : y = evals := Except.ok.inj (hy.symm.trans hforward)
      rw [heval, hyval i hi]
      exact sum_congr rfl fun j _ => by rw [← pow_mul]
    refine ⟨out, hout, houtLen, _, ⟨hdegree, hinterpolates⟩, fun Q hQ hQeval => ?_, fun j hj hlt i hi => ?_⟩
    · exact interpolation_unique hroot hQ hdegree fun i hi => by rw [hQeval i hi, hinterpolates i hi]
    · rw [hval (j - 1) (by omega) i hi, heval, Nat.sub_add_cancel hj]

/-- Size six over the field of seven elements: radices two and three. -/
theorem fft_exact_six : ∃ domain, SmoothDomain.new (3 : ZMod 7) 6 = .ok domain ∧ DomainExact 3 6 domain := by
  refine fft_exact (by decide) (by norm_num) (fun p _ hdvd => ?_) (IsPrimitiveRoot.mk_of_lt 3 (by norm_num) (by decide) ?_)
  · exact (Nat.le_of_dvd (by norm_num) hdvd).trans (by norm_num)
  · intro l hpos hlt
    interval_cases l <;> decide

end Akita.Fft
