import Akita.Lib.Hypercube
import Akita.Lib.RoundSoundness
import Akita.Proof.Sumcheck

/-!
# The equality-factored sumcheck driver

The constant coefficient that is not sent is `claim - τ * Σ c_i`, with no division, so a body
determines its round polynomial at every coordinate of the equality point. For the weighted
sum of a multivariate polynomial over the cube, the running claim after some rounds is the sum
over the coordinates left, and the last claim is the value at the challenges.
-/

namespace Akita.Sumcheck

open Lib Transcript Polynomial List
open EStateM.Result (ok.inj)
open UInt32 (ofNat)

variable {E : Type} [Field E] {F : Type} [CanonicalEncoding F] [ExtField F E]
  {𝔱 : TranscriptBackend} {𝔬 : OmittedBackend E} {K κ κ' : Type} {d : ℕ} {invocation : UInt32} {rs : List E}
  {channel : SumcheckChannel 𝔱.Verifier κ E} {n round : ℕ} {claim out : E} {p : 𝔱.Prover} {k : κ} {q : K} {s' : 𝔱.Prover × κ × K}
  {τ : List E} {v : 𝔱.Verifier}

/-! ## One round -/

theorem advanceEqFactoredClaim_eq (h𝔬 : 𝔬.Lawful) (claim tau r : E) (body : List E) :
    advanceEqFactoredClaim 𝔬 claim tau body r = (fromWeighted claim tau body).eval r := by
  unfold advanceEqFactoredClaim
  rw [h𝔬.nonconstantTermSumAtOne, h𝔬.evaluateNonconstantTerms, eval_fromWeighted]

theorem omittedBody_ok {cs body : List E} :
    omittedBody d cs = .ok body ↔ cs.length ≤ d ∧ cs ++ List.replicate (d - cs.length) 0 = body := by
  unfold omittedBody
  simp only [result_ok]

theorem proveEqFactoredRounds_succ {kernel : EqFactoredSumcheckKernel E K} {channel : SumcheckChannel 𝔱.Prover κ E} :
    (proveEqFactoredRounds F 𝔬 kernel channel invocation d (n + 1) round claim).run (p, k, q) = .ok (rs, out) s' ↔
      round < 2 ^ 32 ∧ ∃ cs q1 sent body p1 r p2 k2 q2 rs', (kernel.roundPolynomial round claim).run q = .ok cs q1 ∧
        omittedBody d cs = .ok sent ∧
        (exchangeExtensionGroup F (channel.sumcheckSite k invocation (ofNat round) .roundBody) sent).run p =
          .ok body p1 ∧ (channel.roundChallenge invocation (ofNat round)).run (p1, k) = .ok r (p2, k2) ∧
        (kernel.bindChallenge round r).run q1 = .ok () q2 ∧
        (proveEqFactoredRounds F 𝔬 kernel channel invocation d n (round + 1)
          (advanceEqFactoredClaim 𝔬 claim (kernel.currentTau q1) body r)).run (p2, k2, q2) = .ok (rs', out) s' ∧
        rs = r :: rs' := by
  rw [proveEqFactoredRounds]
  simp only [run_bind_ok, run_ofResult_ok, u32TryFrom_ok, onKernel, onState, onChannel, run_zoom_ok]
  constructor
  · rintro ⟨_, _, ⟨⟨hr, rfl⟩, rfl⟩, cs, _, ⟨q1, hpoly, rfl⟩, sent, _, ⟨hsent, rfl⟩, _, _, hget, body, _,
      ⟨p1, hbody, rfl⟩, r, _, ⟨⟨p2, k2⟩, hchal, rfl⟩, _, _, hget', _, _, ⟨q2, hbind, rfl⟩, ⟨rs', out'⟩, _, hrest, hpure⟩
    cases hget
    cases hget'
    cases hpure
    exact ⟨hr, cs, q1, sent, body, p1, r, p2, k2, q2, rs', hpoly, hsent, hbody, hchal, hbind, hrest, rfl⟩
  · rintro ⟨hr, cs, q1, sent, body, p1, r, p2, k2, q2, rs', hpoly, hsent, hbody, hchal, hbind, hrest, rfl⟩
    exact ⟨_, _, ⟨⟨hr, rfl⟩, rfl⟩, cs, _, ⟨q1, hpoly, rfl⟩, sent, _, ⟨hsent, rfl⟩, _, _, rfl, body, _,
      ⟨p1, hbody, rfl⟩, r, _, ⟨⟨p2, k2⟩, hchal, rfl⟩, _, _, rfl, _, _, ⟨q2, hbind, rfl⟩, ⟨rs', out⟩, _, hrest, rfl⟩

theorem verifyEqFactoredRounds_cons {t : E} {l : κ} {s' : 𝔱.Verifier × κ} :
    (verifyEqFactoredRounds F 𝔬 channel invocation d (t :: τ) round claim).run (v, l) = .ok (rs, out) s' ↔
      (round < 2 ^ 32 ∧ 𝔱.verifierReserve v d = true) ∧ ∃ body v1 r s2 rs',
        (exchangeExtensionGroup F (channel.sumcheckSite l invocation (ofNat round) .roundBody)
          (List.replicate d (0 : E))).run v = .ok body v1 ∧
        (channel.roundChallenge invocation (ofNat round)).run (v1, l) = .ok r s2 ∧
        (verifyEqFactoredRounds F 𝔬 channel invocation d τ (round + 1) (advanceEqFactoredClaim 𝔬 claim t body r)).run s2 =
          .ok (rs', out) s' ∧ rs = r :: rs' := by
  rw [verifyEqFactoredRounds]
  simp only [run_bind_ok, run_ofResult_ok, u32TryFrom_ok, onState, run_zoom_ok, run_extensionSlots]
  constructor
  · rintro ⟨_, _, ⟨⟨hr, rfl⟩, rfl⟩, _, _, hget, _, _, ⟨_, ⟨hmem, rfl, rfl⟩, rfl⟩, body, _, ⟨v1, hbody, rfl⟩, r, s2,
      hchal, ⟨rs', out'⟩, _, hrest, hpure⟩
    cases hget
    cases hpure
    exact ⟨⟨hr, hmem⟩, body, v1, r, s2, rs', hbody, hchal, hrest, rfl⟩
  · rintro ⟨⟨hr, hmem⟩, body, v1, r, s2, rs', hbody, hchal, hrest, rfl⟩
    exact ⟨_, _, ⟨⟨hr, rfl⟩, rfl⟩, _, _, rfl, _, _, ⟨_, ⟨hmem, rfl, rfl⟩, rfl⟩, body, _, ⟨v1, hbody, rfl⟩, r, s2,
      hchal, ⟨rs', out⟩, _, hrest, rfl⟩

/-! ## Reconstruction -/

/-- Each polynomial has the running claim as its weighted sum at zero and one, and gives the next claim at its
challenge; `out` is the last claim. -/
def EqRoundRelation : List E → E → List E[X] → List E → E → Prop
  | [], claim, [], [], out => out = claim
  | t :: τ, claim, g :: gs, r :: rs, out =>
    (1 - t) * g.eval 0 + t * g.eval 1 = claim ∧ EqRoundRelation τ (g.eval r) gs rs out
  | _, _, _, _, _ => False

theorem EqRoundRelation.unique : ∀ {τ : List E} {gs hs : List E[X]} {rs : List E} {claim out out' : E},
    (∀ g ∈ gs, g.natDegree ≤ d) → (∀ h ∈ hs, h.natDegree ≤ d) → gs.map (nonconstant d) = hs.map (nonconstant d) →
    EqRoundRelation τ claim gs rs out → EqRoundRelation τ claim hs rs out' → gs = hs := by
  intro τ gs
  induction gs generalizing τ with
  | nil =>
    intro hs rs claim out out' _ _ hmap _ _
    exact (map_eq_nil_iff.1 hmap.symm).symm
  | cons g gs ih =>
    intro hs rs claim out out' hg hh hmap h1 h2
    cases hs with
    | nil => simp at hmap
    | cons h hs =>
      cases τ with
      | nil => exact absurd h1 (by simp [EqRoundRelation])
      | cons t τ =>
        cases rs with
        | nil => exact absurd h1 (by simp [EqRoundRelation])
        | cons r rs =>
          obtain ⟨hsum, h1⟩ := h1
          obtain ⟨hsum', h2⟩ := h2
          obtain ⟨hgh, hrest⟩ := List.cons.inj hmap
          -- the running claim restores the same constant coefficient
          have heq : g = h := by
            rw [eq_fromWeighted (hg g mem_cons_self) hsum, eq_fromWeighted (hh h mem_cons_self) hsum', hgh]
          subst heq
          rw [ih (fun x hx => hg x (mem_cons_of_mem _ hx)) (fun x hx => hh x (mem_cons_of_mem _ hx)) hrest h1 h2]

/-- **The round relation.** The rounds of an accepting verifier are those of polynomials with the bodies it read. -/
theorem eqRoundRelation_of_verifyRounds (h𝔬 : 𝔬.Lawful) :
    ∀ (τ : List E) (round : ℕ) (claim out : E) (rs : List E) (s s' : 𝔱.Verifier × κ),
    (verifyEqFactoredRounds F 𝔬 channel invocation d τ round claim).run s = .ok (rs, out) s' →
    ∃ bodies, (readRounds F channel invocation d τ.length round).run s = .ok (bodies, rs) s' ∧
      ∃ gs : List E[X], gs.length = τ.length ∧ (∀ g ∈ gs, g.natDegree ≤ d) ∧ gs.map (nonconstant d) = bodies ∧
        EqRoundRelation τ claim gs rs out := by
  intro τ
  induction τ with
  | nil =>
    intro round claim out rs s s' h
    cases h
    exact ⟨[], rfl, [], rfl, by simp, rfl, rfl⟩
  | cons t τ ih =>
    rintro round claim out rs ⟨v, l⟩ s' h
    obtain ⟨hpre, body, v1, r, s2, rs', hbody, hchal, hrest, rfl⟩ := verifyEqFactoredRounds_cons.1 h
    obtain ⟨bodies, hread, gs, hlen, hdeg, hmap, hrel⟩ := ih (round + 1) _ out rs' s2 s' hrest
    have hlen1 : body.length = d := by rw [exchange_length hbody, length_replicate]
    refine ⟨body :: bodies, readRounds_succ.2 ⟨hpre, body, v1, r, s2, bodies, rs', hbody, hchal, hread, rfl, rfl⟩,
      fromWeighted claim t body :: gs, by simp [hlen], ?_, ?_, fromWeighted_sum, ?_⟩
    · intro g hg
      rcases mem_cons.1 hg with rfl | hg
      · exact hlen1 ▸ natDegree_fromWeighted_le
      · exact hdeg g hg
    · rw [map_cons, hmap, ← hlen1, nonconstant_fromWeighted]
    · rwa [advanceEqFactoredClaim_eq h𝔬] at hrel

/-! ## The sum over the cube -/

section

variable {n : ℕ} {f : MvPolynomial (Fin n) E} {kernel : EqFactoredSumcheckKernel E K}

/-- The round polynomials over the coordinates left, from the challenges bound so far. -/
noncomputable def roundPolys (f : MvPolynomial (Fin n) E) : List E → List E → List E → List E[X]
  | _ :: τ, bound, r :: rs => cubeSlice τ f bound :: roundPolys f τ (bound ++ [r]) rs
  | _, _, _ => []

/-- **The round polynomials reduce the sum over the cube to the value at the challenges.** -/
theorem roundPolys_relation : ∀ (τ bound rs : List E), rs.length = τ.length →
    EqRoundRelation τ (cubeSum τ fun x => evalList f (bound ++ x)) (roundPolys f τ bound rs) rs
      (evalList f (bound ++ rs)) := by
  intro τ
  induction τ with
  | nil =>
    intro bound rs hlen
    have hnil : rs = [] := length_eq_zero_iff.1 (by simpa using hlen)
    subst hnil
    simp [roundPolys, EqRoundRelation, cubeSum_nil]
  | cons t τ ih =>
    intro bound rs hlen
    cases rs with
    | nil => simp at hlen
    | cons r rs =>
      have hnext := ih (bound ++ [r]) rs (by simpa using hlen)
      simp only [append_assoc, singleton_append] at hnext
      refine ⟨cubeSlice_faces t τ f bound, ?_⟩
      rw [eval_cubeSlice]
      exact hnext

/-- A kernel that sends the round polynomials from a state on, whatever is drawn. -/
def SendsRounds (kernel : EqFactoredSumcheckKernel E K) (f : MvPolynomial (Fin n) E) (d : ℕ) :
    List E → List E → E → K → Prop
  | [], _, _, q => ∃ q', kernel.finish.run q = .ok () q'
  | t :: τ, bound, claim, q => ∃ cs q1, (kernel.roundPolynomial bound.length claim).run q = .ok cs q1 ∧
      kernel.currentTau q1 = t ∧
      (cs.length ≤ d ∧ cs ++ List.replicate (d - cs.length) 0 = nonconstant d (cubeSlice τ f bound)) ∧
      ∀ r, ∃ q2, (kernel.bindChallenge bound.length r).run q1 = .ok () q2 ∧
        SendsRounds kernel f d τ (bound ++ [r]) ((cubeSlice τ f bound).eval r) q2

/-- The body of a round polynomial advances the sum over the cube to the next one. -/
theorem advance_cubeSum (h𝔬 : 𝔬.Lawful) (hf : ∀ i, f.degreeOf i ≤ d) (t r : E) (τ bound : List E) :
    advanceEqFactoredClaim 𝔬 (cubeSum (t :: τ) fun x => evalList f (bound ++ x)) t
      (nonconstant d (cubeSlice τ f bound)) r = (cubeSlice τ f bound).eval r := by
  rw [advanceEqFactoredClaim_eq h𝔬, ← eq_fromWeighted (natDegree_cubeSlice_le hf τ bound) (cubeSlice_faces t τ f bound)]

variable [Nontrivial F] [LawfulEncoding F] [LawfulExtField F E] {prover : SumcheckChannel 𝔱.Prover κ E}
  {verifier : SumcheckChannel 𝔱.Verifier κ' E} {sync : κ → κ' → Prop}

omit [Nontrivial F] [LawfulEncoding F] [LawfulExtField F E] in
/-- **Progress.** The rounds of a kernel that sends them fail only with the challenge source. -/
theorem proveEqFactoredRounds_of_sends (h𝔱 : 𝔱.Lawful) (h𝔬 : 𝔬.Lawful) (hf : ∀ i, f.degreeOf i ≤ d)
    (hsize : d * ExtField.degree F E < 2 ^ 64 ∧ d * ExtField.degree F E * CanonicalEncoding.numBytes F < 2 ^ 64)
    (hdraw : ∀ round s, ∃ r s', (prover.roundChallenge invocation round).run s = .ok r s') :
    ∀ (τ bound : List E) (p : 𝔱.Prover) (k : κ) (q : K), bound.length + τ.length ≤ 2 ^ 32 →
    SendsRounds kernel f d τ bound (cubeSum τ fun x => evalList f (bound ++ x)) q → ∃ rs out p' k' q',
      (proveEqFactoredRounds F 𝔬 kernel prover invocation d τ.length bound.length
        (cubeSum τ fun x => evalList f (bound ++ x))).run (p, k, q) = .ok (rs, out) (p', k', q') ∧
        ∃ q'', kernel.finish.run q' = .ok () q'' := by
  intro τ
  induction τ with
  | nil =>
    intro bound p k q _ hq
    exact ⟨[], _, p, k, q, rfl, hq⟩
  | cons t τ ih =>
    rintro bound p k q hround ⟨cs, q1, hpoly, htau, ⟨hlen, hbody⟩, hbind⟩
    have hblen : (nonconstant d (cubeSlice τ f bound)).length = d := nonconstant_length _ _
    have he := emits_extensionGroup (F := F) h𝔱
      (prover.sumcheckSite k invocation (ofNat bound.length) .roundBody) (nonconstant d (cubeSlice τ f bound))
    obtain ⟨p1, hp1, -⟩ := he.run_ok p (groupRecord_extension.2 (by rwa [hblen]))
    obtain ⟨r, ⟨p2, k2⟩, hr⟩ := hdraw (ofNat bound.length) (p1, k)
    obtain ⟨q2, hq2, hsends⟩ := hbind r
    have hclaim : (cubeSlice τ f bound).eval r = cubeSum τ fun x => evalList f ((bound ++ [r]) ++ x) := by
      rw [eval_cubeSlice]
      simp
    rw [hclaim] at hsends
    have hnext : (bound ++ [r]).length = bound.length + 1 := by simp
    simp only [length_cons] at hround
    obtain ⟨rs, out, p', k', q', hrest, hfin⟩ := ih (bound ++ [r]) p2 k2 q2 (by rw [hnext]; omega) hsends
    refine ⟨r :: rs, out, p', k', q', proveEqFactoredRounds_succ.2 ⟨by omega, cs, q1, _, _, p1, r, p2, k2, q2, rs,
      hpoly, omittedBody_ok.2 ⟨hlen, hbody⟩, hp1, hr, hq2, ?_, rfl⟩, hfin⟩
    rw [htau, advance_cubeSum h𝔬 hf, hclaim, ← hnext]
    exact hrest

/-- **The two loops over one argument string**: the verifier reads the bodies of the round polynomials and ends with
the value of the polynomial. -/
theorem eqFactoredRounds_coupled (h𝔱 : 𝔱.Lawful) (h𝔬 : 𝔬.Lawful) (hmem : Reserves 𝔱) (hf : ∀ i, f.degreeOf i ≤ d)
    (hc : Coupled prover verifier sync) : ∀ (τ bound : List E) (out : E) (rs : List E) (p p' : 𝔱.Prover) (k k' : κ) (q q' : K),
    SendsRounds kernel f d τ bound (cubeSum τ fun x => evalList f (bound ++ x)) q →
    (proveEqFactoredRounds F 𝔬 kernel prover invocation d τ.length bound.length
      (cubeSum τ fun x => evalList f (bound ++ x))).run (p, k, q) = .ok (rs, out) (p', k', q') →
    (rs.length = τ.length ∧ out = evalList f (bound ++ rs)) ∧
    ∃ wire, 𝔱.argument p' = 𝔱.argument p ++ wire ∧ ∀ v l rest, sync k l → Synced p v →
      𝔱.remaining v = wire ++ rest → ∃ v' l', (verifyEqFactoredRounds F 𝔬 verifier invocation d τ bound.length
          (cubeSum τ fun x => evalList f (bound ++ x))).run (v, l) = .ok (rs, out) (v', l') ∧
        (readRounds F verifier invocation d τ.length bound.length).run (v, l) =
          .ok ((roundPolys f τ bound rs).map (nonconstant d), rs) (v', l') ∧
        𝔱.remaining v' = rest ∧ Synced p' v' ∧ sync k' l' := by
  intro τ
  induction τ with
  | nil =>
    intro bound out rs p p' k k' q q' _ h
    obtain ⟨heq, hs⟩ := ok.inj h
    cases heq
    obtain ⟨rfl, rfl, rfl⟩ : p = p' ∧ k = k' ∧ q = q' := by simpa using hs
    exact ⟨⟨rfl, cubeSum_nil _⟩, [], by simp, fun v l rest hs hsync hrest => ⟨v, l, rfl, rfl, hrest, hsync, hs⟩⟩
  | cons t τ ih =>
    rintro bound out rs p p' k k' q q' ⟨cs, q1, hpoly, htau, ⟨hlen, hsends⟩, hnext⟩ h
    obtain ⟨hround, cs', q1', sent, body, p1, r, p2, k2, q2, rs', hpoly', hsent, hbody, hchal, hbind, hrest, rfl⟩ :=
      proveEqFactoredRounds_succ.1 h
    obtain ⟨rfl, rfl⟩ := ok.inj (hpoly'.symm.trans hpoly)
    obtain ⟨q2', hbind', hsends'⟩ := hnext r
    obtain ⟨-, rfl⟩ := ok.inj (hbind'.symm.trans hbind)
    have hsent' : nonconstant d (cubeSlice τ f bound) = sent := hsends.symm.trans (omittedBody_ok.1 hsent).2
    have hbody' : body = sent := (body_coupled h𝔱 hmem hbody {}).1
    have hclaim : (cubeSlice τ f bound).eval r = cubeSum τ fun x => evalList f ((bound ++ [r]) ++ x) := by
      rw [eval_cubeSlice]
      simp
    have hstep : (bound ++ [r]).length = bound.length + 1 := by simp
    rw [htau, hbody', ← hsent', advance_cubeSum h𝔬 hf, hclaim, ← hstep] at hrest
    rw [hclaim] at hsends'
    obtain ⟨⟨hcount, hvalue⟩, w3, harg3, h3⟩ := ih (bound ++ [r]) out rs' p2 p' k2 k' q2' q' hsends' hrest
    obtain ⟨w2, harg2, h2⟩ := hc _ _ _ _ _ _ _ hchal
    have hd : sent.length = d := by rw [← hsent', nonconstant_length]
    obtain ⟨w1, harg1, -⟩ := (body_coupled h𝔱 hmem hbody {}).2
    refine ⟨⟨by simp [hcount], by rw [hvalue]; simp⟩, w1 ++ (w2 ++ w3), by rw [harg3, harg2, harg1]; simp,
      fun v l rest hs hsync hrem => ?_⟩
    simp only [append_assoc] at hrem
    obtain ⟨-, w1', harg1', h1⟩ := body_coupled h𝔱 hmem hbody
      (verifier.sumcheckSite l invocation (ofNat bound.length) .roundBody)
    obtain rfl : w1 = w1' := append_cancel_left (harg1.symm.trans harg1')
    obtain ⟨v1, hv1, hrem1, hsync1⟩ := h1 v _ hsync hrem
    obtain ⟨v2, l2, hv2, hrem2, hsync2, hs2⟩ := h2 v1 l _ hs hsync1 hrem1
    obtain ⟨v3, l3, hv3, hread3, hrem3, hsync3, hs3⟩ := h3 v2 l2 rest hs2 hsync2 hrem2
    rw [hd] at hv1
    have hadvance : advanceEqFactoredClaim 𝔬 (cubeSum (t :: τ) fun x => evalList f (bound ++ x)) t body r =
        cubeSum τ fun x => evalList f ((bound ++ [r]) ++ x) := by
      rw [hbody', ← hsent', advance_cubeSum h𝔬 hf, hclaim]
    refine ⟨v3, l3, verifyEqFactoredRounds_cons.2 ⟨⟨hround, hmem v d⟩, body, v1, r, _, rs', hv1, hv2, ?_, rfl⟩,
      readRounds_succ.2 ⟨⟨hround, hmem v d⟩, body, v1, r, _, (roundPolys f τ (bound ++ [r]) rs').map (nonconstant d), rs',
        hv1, hv2, ?_, ?_, rfl⟩, hrem3, hsync3, hs3⟩
    · rw [hadvance, ← hstep]
      exact hv3
    · rw [← hstep]
      exact hread3
    · rw [roundPolys, map_cons, hbody', hsent']

end

/-! ## The driver -/

section

variable {kernel : EqFactoredSumcheckKernel E K} {prover : SumcheckChannel 𝔱.Prover κ E}
  {verifier : SumcheckChannel 𝔱.Verifier κ' E} {shape : SumcheckShape}

theorem proveEqFactoredSumcheck_run :
    (proveEqFactoredSumcheck F 𝔬 kernel prover shape invocation).run (p, k, q) = .ok (rs, out) s' ↔
      (shape.numRounds = kernel.numRounds q ∧ shape.degreeBound = kernel.degreeBound q) ∧ ∃ p1 p2 k2 q2 q3,
        (publicExtensions F (prover.sumcheckSite k invocation 0 .claim) [kernel.inputClaim q]).run p = .ok () p1 ∧
        (proveEqFactoredRounds F 𝔬 kernel prover invocation shape.degreeBound shape.numRounds 0 (kernel.inputClaim q)).run
          (p1, k, q) = .ok (rs, out) (p2, k2, q2) ∧ kernel.finish.run q2 = .ok () q3 ∧ (p2, k2, q3) = s' := by
  unfold proveEqFactoredSumcheck
  simp only [run_bind_ok, run_ofResult_ok, SumcheckShape.validateInstance, ensure_eq_ok, onState, onKernel,
    run_zoom_ok, not_or, not_not]
  constructor
  · rintro ⟨_, _, hget, _, _, ⟨hval, rfl⟩, _, _, hget', _, _, ⟨p1, hpub, rfl⟩, ⟨rs', out'⟩, ⟨p2, k2, q2⟩, hrounds,
      _, _, ⟨q3, hfin, rfl⟩, hpure⟩
    cases hget
    cases hget'
    cases hpure
    exact ⟨hval, p1, p2, k2, q2, q3, hpub, hrounds, hfin, rfl⟩
  · rintro ⟨hval, p1, p2, k2, q2, q3, hpub, hrounds, hfin, rfl⟩
    exact ⟨_, _, rfl, (), _, ⟨hval, rfl⟩, _, _, rfl, (), _, ⟨p1, hpub, rfl⟩, ⟨rs, out⟩, ⟨p2, k2, q2⟩, hrounds,
      (), _, ⟨q3, hfin, rfl⟩, rfl⟩

theorem verifyEqFactoredSumcheckRounds_run {l : κ'} {result : SumcheckRoundResult E} {s' : 𝔱.Verifier × κ'} :
    (verifyEqFactoredSumcheckRounds F 𝔬 τ claim shape verifier invocation).run (v, l) = .ok result s' ↔
      (shape.numRounds = τ.length ∧ τ ≠ []) ∧ ∃ v1,
        (publicExtensions F (verifier.sumcheckSite l invocation 0 .claim) [claim]).run v = .ok () v1 ∧
        (verifyEqFactoredRounds F 𝔬 verifier invocation shape.degreeBound τ 0 claim).run (v1, l) =
          .ok (result.challenges, result.outputClaim) s' := by
  unfold verifyEqFactoredSumcheckRounds
  simp only [run_bind_ok, run_ofResult_ok, SumcheckShape.validateInstance, ensure_eq_ok, onState, run_zoom_ok, not_or,
    not_not, and_true]
  constructor
  · rintro ⟨_, _, ⟨hval, rfl⟩, _, _, ⟨hne, rfl⟩, _, _, hget, _, _, ⟨v1, hpub, rfl⟩, ⟨rs, out⟩, _, hrounds, hpure⟩
    cases hget
    cases hpure
    exact ⟨⟨hval, hne⟩, v1, hpub, hrounds⟩
  · rintro ⟨⟨hval, hne⟩, v1, hpub, hrounds⟩
    exact ⟨(), _, ⟨hval, rfl⟩, (), _, ⟨hne, rfl⟩, _, _, rfl, (), _, ⟨v1, hpub, rfl⟩, ⟨_, _⟩, _, hrounds, rfl⟩

/-- **Equality-factored sumcheck**, for a polynomial within the degree bound and any equality point. A kernel that
sends the round polynomials completes its proof, up to the challenge source. Over the bytes it wrote, with coupled
challenge sources, the verifier reads the bodies of exactly these polynomials, its claims are their values, and it ends
with the value of the polynomial at the challenges. And whatever a verifier accepts, at any equality point, the bodies
it read are those of unique polynomials within the degree bound whose weighted sums are the running claims. -/
theorem eqFactored_sumcheck [Nontrivial F] [LawfulEncoding F] [LawfulExtField F E] (h𝔱 : 𝔱.Lawful) (h𝔬 : 𝔬.Lawful)
    (kernel : EqFactoredSumcheckKernel E K) (prover : SumcheckChannel 𝔱.Prover κ E)
    (verifier : SumcheckChannel 𝔱.Verifier κ' E) (shape : SumcheckShape) (invocation : UInt32) :
    (∀ (f : MvPolynomial (Fin shape.numRounds) E) (τ : List E), (∀ i, f.degreeOf i ≤ shape.degreeBound) →
      τ.length = shape.numRounds → τ ≠ [] → ∀ (p : 𝔱.Prover) (k : κ) (q : K),
      shape.numRounds = kernel.numRounds q ∧ shape.degreeBound = kernel.degreeBound q →
      kernel.inputClaim q = cubeSum τ (evalList f) →
      SendsRounds kernel f shape.degreeBound τ [] (kernel.inputClaim q) q →
      ((∀ round s, ∃ r s', (prover.roundChallenge invocation round).run s = .ok r s') →
        shape.degreeBound * ExtField.degree F E < 2 ^ 64 ∧
          shape.degreeBound * ExtField.degree F E * CanonicalEncoding.numBytes F < 2 ^ 64 →
        ∃ rs out s', (proveEqFactoredSumcheck F 𝔬 kernel prover shape invocation).run (p, k, q) = .ok (rs, out) s') ∧
      ∀ (sync : κ → κ' → Prop) (p' : 𝔱.Prover) (k' : κ) (q' : K) (rs : List E) (out : E), Reserves 𝔱 →
        Coupled prover verifier sync →
        (proveEqFactoredSumcheck F 𝔬 kernel prover shape invocation).run (p, k, q) = .ok (rs, out) (p', k', q') →
        EqRoundRelation τ (kernel.inputClaim q) (roundPolys f τ [] rs) rs (evalList f rs) ∧ out = evalList f rs ∧
        ∃ wire, 𝔱.argument p' = 𝔱.argument p ++ wire ∧ ∀ v l rest, sync k l → Synced p v →
          𝔱.remaining v = wire ++ rest → ∃ v' l',
            (verifyEqFactoredSumcheckRounds F 𝔬 τ (kernel.inputClaim q) shape verifier invocation).run (v, l) =
              .ok { outputClaim := evalList f rs, challenges := rs } (v', l') ∧
            (readSumcheck F verifier invocation (kernel.inputClaim q) shape).run (v, l) =
              .ok ((roundPolys f τ [] rs).map (nonconstant shape.degreeBound), rs) (v', l') ∧
            𝔱.remaining v' = rest ∧ Synced p' v' ∧ sync k' l') ∧
    (∀ (τ : List E) (claim : E) (s s' : 𝔱.Verifier × κ') (result : SumcheckRoundResult E),
      (verifyEqFactoredSumcheckRounds F 𝔬 τ claim shape verifier invocation).run s = .ok result s' →
      ∃ bodies, (readSumcheck F verifier invocation claim shape).run s = .ok (bodies, result.challenges) s' ∧
        ∃! gs : List E[X], gs.length = τ.length ∧ (∀ g ∈ gs, g.natDegree ≤ shape.degreeBound) ∧
          gs.map (nonconstant shape.degreeBound) = bodies ∧
          EqRoundRelation τ claim gs result.challenges result.outputClaim) := by
  have hd : 0 < shape.degreeBound := pos_of_ne_zero shape.degreeBound_ne_zero
  refine ⟨fun f τ hf hτ hne p k q hval hclaim hsends => ⟨fun hdraw hsize => ?_,
    fun sync p' k' q' rs out hmem hc hrun => ?_⟩, fun τ claim s s' result hrun => ?_⟩
  · obtain ⟨p1, hp1⟩ := claim_emitted h𝔱 hd hsize (prover.sumcheckSite k invocation 0 .claim) (kernel.inputClaim q) p
    have hrounds := proveEqFactoredRounds_of_sends (𝔬 := 𝔬) h𝔱 h𝔬 hf hsize hdraw τ [] p1 k q
      (by have := shape.numRounds_lt; simp only [length_nil]; omega) (by simpa [← hclaim] using hsends)
    simp only [nil_append, length_nil, hτ, ← hclaim] at hrounds
    obtain ⟨rs, out, p2, k2, q2, hrounds, q3, hfin⟩ := hrounds
    exact ⟨rs, out, _, proveEqFactoredSumcheck_run.2 ⟨hval, p1, p2, k2, q2, q3, hp1, hrounds, hfin, rfl⟩⟩
  · obtain ⟨-, p1, p2, k2, q2, q3, hpub, hrounds, -, heq⟩ := proveEqFactoredSumcheck_run.1 hrun
    obtain ⟨rfl, rfl, -⟩ : p2 = p' ∧ k2 = k' ∧ q3 = q' := by simpa using heq
    have hprover : (proveEqFactoredRounds F 𝔬 kernel prover invocation shape.degreeBound τ.length ([] : List E).length
        (cubeSum τ fun x => evalList f ([] ++ x))).run (p1, k, q) = .ok (rs, out) (p2, k2, q2) := by
      simpa [hτ, ← hclaim] using hrounds
    have hcoupled := eqFactoredRounds_coupled h𝔱 h𝔬 hmem hf hc τ [] out rs p1 p2 k k2 q q2
      (by simpa [← hclaim] using hsends) hprover
    simp only [nil_append, length_nil, hτ, ← hclaim] at hcoupled
    obtain ⟨⟨hcount, rfl⟩, wire, harg, hverify⟩ := hcoupled
    have hrel := roundPolys_relation (f := f) τ [] rs (hcount.trans hτ.symm)
    simp only [nil_append, ← hclaim] at hrel
    refine ⟨hrel, rfl, wire, by rw [harg, (claim_coupled h𝔱 hmem hpub {}).1], fun v l rest hsync hs hrest => ?_⟩
    obtain ⟨v1, hv1, hrem1, hs1⟩ := (claim_coupled h𝔱 hmem hpub (verifier.sumcheckSite l invocation 0 .claim)).2 v hs
    obtain ⟨v', l', hv', hread, hrem, hs', hsync'⟩ := hverify v1 l rest hsync hs1 (hrem1.trans hrest)
    refine ⟨v', l', verifyEqFactoredSumcheckRounds_run.2 ⟨⟨hτ.symm, hne⟩, v1, hv1, hv'⟩, ?_, hrem, hs', hsync'⟩
    unfold readSumcheck
    simp only [run_bind_ok, onState, run_zoom_ok]
    exact ⟨_, _, rfl, (), _, ⟨v1, hv1, rfl⟩, hread⟩
  · obtain ⟨v, l⟩ := s
    obtain ⟨⟨hlen, -⟩, v1, hpub, hrounds⟩ := verifyEqFactoredSumcheckRounds_run.1 hrun
    obtain ⟨bodies, hread, gs, hcount, hdeg, hmap, hrel⟩ :=
      eqRoundRelation_of_verifyRounds h𝔬 τ 0 claim _ _ _ s' hrounds
    refine ⟨bodies, ?_, gs, ⟨hcount, hdeg, hmap, hrel⟩, ?_⟩
    · unfold readSumcheck
      simp only [run_bind_ok, onState, run_zoom_ok]
      rw [← hlen] at hread
      exact ⟨_, _, rfl, (), _, ⟨v1, hpub, rfl⟩, hread⟩
    · rintro hs ⟨-, hdeg', hmap', hrel'⟩
      exact EqRoundRelation.unique hdeg' hdeg (hmap'.trans hmap.symm) hrel' hrel

end

/-! ## A kernel that sends the round polynomials -/

/-- The kernel that keeps the challenges bound so far. -/
noncomputable def cubeKernel {n : ℕ} (f : MvPolynomial (Fin n) E) (τ : List E) (d : ℕ) :
    EqFactoredSumcheckKernel E (List E) where
  numRounds _ := τ.length
  degreeBound _ := d
  inputClaim _ := cubeSum τ (evalList f)
  currentTau bound := τ.getD bound.length 0
  roundPolynomial _ _ := fun bound => .ok (nonconstant d (cubeSlice (τ.drop (bound.length + 1)) f bound)) bound
  bindChallenge _ r := fun bound => .ok () (bound ++ [r])
  finish := pure ()

theorem cubeKernel_sends (f : MvPolynomial (Fin n) E) (d : ℕ) : ∀ (τ' τ bound : List E) (claim : E),
    τ.drop bound.length = τ' → SendsRounds (cubeKernel f τ d) f d τ' bound claim bound := by
  intro τ'
  induction τ' with
  | nil => intro τ bound claim _; exact ⟨bound, rfl⟩
  | cons t τ' ih =>
    intro τ bound claim hdrop
    have htail : τ.drop (bound.length + 1) = τ' := by rw [← drop_drop, hdrop]; rfl
    have hhead : τ.getD bound.length 0 = t := by
      rw [getD_eq_getElem?_getD, ← head?_drop, hdrop]
      rfl
    refine ⟨nonconstant d (cubeSlice τ' f bound), bound, by rw [← htail]; rfl, hhead, ⟨by rw [nonconstant_length], ?_⟩,
      fun r => ⟨bound ++ [r], rfl, ih τ (bound ++ [r]) _ ?_⟩⟩
    · simp [nonconstant_length]
    · simpa using htail

/-- Coefficient vectors evaluated by Horner's rule. -/
def listOmitted (E : Type) [Field E] : OmittedBackend E where
  nonconstantTermSumAtOne cs := cs.sum
  evaluateNonconstantTerms cs x := x * cs.foldr (fun c acc => c + x * acc) 0

theorem listOmitted_lawful : (listOmitted E).Lawful where
  nonconstantTermSumAtOne _ := rfl
  evaluateNonconstantTerms cs x := congrArg (x * ·) (foldr_horner cs x)

noncomputable def sampleProduct : MvPolynomial (Fin 2) (ZMod 5) := MvPolynomial.X 0 * MvPolynomial.X 1

theorem degreeOf_sampleProduct (i : Fin 2) : sampleProduct.degreeOf i ≤ 2 := by
  refine (MvPolynomial.degreeOf_mul_le _ _ _).trans ?_
  have hX : ∀ j : Fin 2, (MvPolynomial.X j : MvPolynomial (Fin 2) (ZMod 5)).degreeOf i ≤ 1 := by
    intro j
    rw [MvPolynomial.degreeOf_X]
    split <;> omega
  have h0 := hX 0
  have h1 := hX 1
  omega

theorem eqFactored_sumcheck_boolean_point :
    ∃ (rs : List (ZMod 5)) (wire : List UInt8) (v' : plainBackend.Verifier) (l' : UInt32),
      (verifyEqFactoredSumcheckRounds (ZMod 5) (listOmitted (ZMod 5)) [0, 1] (cubeSum [0, 1] (evalList sampleProduct))
        sampleShape (directChannel plainBackend.Verifier byteCodec) 0).run (plainBackend.verifierNew [] wire, 0) =
          .ok { outputClaim := evalList sampleProduct rs, challenges := rs } (v', l') ∧
      ∃ bodies, ∃! gs : List (ZMod 5)[X], gs.length = 2 ∧ (∀ g ∈ gs, g.natDegree ≤ 2) ∧
        gs.map (nonconstant 2) = bodies ∧ EqRoundRelation [0, 1] (cubeSum [0, 1] (evalList sampleProduct)) gs rs
          (evalList sampleProduct rs) := by
  obtain ⟨hprove, hsound⟩ := eqFactored_sumcheck (F := ZMod 5) plainBackend_lawful listOmitted_lawful
    (cubeKernel sampleProduct [0, 1] 2) (directChannel plainBackend.Prover byteCodec)
    (directChannel plainBackend.Verifier byteCodec) sampleShape 0
  obtain ⟨hrun, hverify⟩ := hprove sampleProduct [0, 1] degreeOf_sampleProduct rfl (by simp) (plainBackend.proverNew []) 0 []
    ⟨rfl, rfl⟩ rfl (cubeKernel_sends sampleProduct 2 _ _ _ _ rfl)
  obtain ⟨rs, out, ⟨p', k', q'⟩, hok⟩ := hrun (fun round s => ⟨_, _, rfl⟩) (by decide)
  obtain ⟨-, -, wire, -, hv⟩ := hverify Eq p' k' q' rs out plainBackend_reserves
    (directChannel_coupled plainBackend_lawful byteCodec) hok
  obtain ⟨v', l', hv', -⟩ := hv (plainBackend.verifierNew [] wire) 0 [] rfl ⟨rfl, by simp [plainBackend]⟩ (by simp [plainBackend])
  obtain ⟨bodies, -, hgs⟩ := hsound [0, 1] _ _ _ _ hv'
  exact ⟨rs, wire, v', l', hv', bodies, hgs⟩

/-! ## Soundness, round by round -/

/-- The polynomial of a body, from the running claim and the current coordinate. -/
noncomputable def bodyPoly (d : ℕ) (τ bound : List E) (claim : E) (body : List E) : E[X] :=
  fromWeighted claim (τ.getD bound.length 0) (body.take d)

theorem claimAfter_of_relation {gs : List E[X]} : ∀ {τ' bound : List E} {claim : E}, τ' = τ.drop bound.length →
    (∀ g ∈ gs, g.natDegree ≤ d) → EqRoundRelation τ' claim gs rs out →
    (gs.length = rs.length ∧ rs.length = τ'.length) ∧ claimAfter (bodyPoly d τ) bound claim (gs.map (nonconstant d)) rs = out := by
  induction gs generalizing rs with
  | nil =>
    intro τ' bound claim _ _ hrel
    match τ', rs, hrel with
    | [], [], hrel => exact ⟨⟨rfl, rfl⟩, hrel.symm⟩
  | cons g gs ih =>
    intro τ' bound claim hdrop hdeg hrel
    match τ', rs, hrel with
    | t :: τ', r :: rs, ⟨hsum, hrel⟩ =>
      have hhead : τ.getD bound.length 0 = t := by rw [getD_eq_getElem?_getD, ← head?_drop, ← hdrop]; rfl
      -- the body gives back the polynomial
      have hbody : bodyPoly d τ bound claim (nonconstant d g) = g := by
        rw [bodyPoly, hhead, take_of_length_le (nonconstant_length d g).le]
        exact (eq_fromWeighted (hdeg g mem_cons_self) hsum).symm
      obtain ⟨⟨hlen, hcount⟩, hafter⟩ := @ih rs τ' (bound ++ [r]) (g.eval r) (by rw [length_append, ← drop_drop, ← hdrop]; rfl)
        (fun x hx => hdeg x (mem_cons_of_mem _ hx)) hrel
      exact ⟨⟨congrArg (· + 1) hlen, congrArg (· + 1) hcount⟩, by rw [map_cons, claimAfter, hbody, hafter]⟩

/-- **Soundness, round by round.** For a wrong claim, each round has at most as many lucky challenges as the degree bound, fixed by the
bodies up to it and the challenges before it; every accepting run that ends on the true value has drawn one of them. -/
theorem eqFactored_sumcheck_sound {f : MvPolynomial (Fin n) E} {shape : SumcheckShape} (h𝔬 : 𝔬.Lawful)
    (hf : ∀ i, f.degreeOf i ≤ shape.degreeBound) (hclaim : claim ≠ cubeSum τ (evalList f)) :
    ∃ lucky : List (List E) → List E → Multiset E, (∀ bodies rs, (lucky bodies rs).card ≤ shape.degreeBound) ∧
      ∀ (verifier : SumcheckChannel 𝔱.Verifier κ E) (invocation : UInt32) (s s' : 𝔱.Verifier × κ) (result : SumcheckRoundResult E),
        (verifyEqFactoredSumcheckRounds F 𝔬 τ claim shape verifier invocation).run s = .ok result s' →
        result.outputClaim = evalList f result.challenges →
        ∃ bodies, (readSumcheck F verifier invocation claim shape).run s = .ok (bodies, result.challenges) s' ∧
          ∃ i r, result.challenges[i]? = some r ∧ r ∈ lucky (bodies.take (i + 1)) (result.challenges.take i) := by
  refine ⟨lucky (bodyPoly shape.degreeBound τ) (fun bound => cubeSlice (τ.drop (bound.length + 1)) f bound) [] claim,
    card_lucky_le (fun _ _ _ => natDegree_fromWeighted_le.trans (length_take_le _ _)) (fun bound => natDegree_cubeSlice_le hf _ bound) [] claim,
    fun verifier invocation ⟨v, l⟩ s' result hrun hout => ?_⟩
  obtain ⟨⟨hrounds, -⟩, v1, hpub, hrun⟩ := verifyEqFactoredSumcheckRounds_run.1 hrun
  obtain ⟨bodies, hread, gs, -, hdeg, rfl, hrel⟩ := eqRoundRelation_of_verifyRounds h𝔬 τ 0 claim _ _ _ s' hrun
  obtain ⟨⟨hlen, hcount⟩, hafter⟩ := @claimAfter_of_relation _ _ _ _ _ τ gs τ [] claim rfl hdeg hrel
  refine ⟨gs.map (nonconstant shape.degreeBound), ?_, @exists_lucky _ _ _ _ _ _ τ.length
    (fun bound => cubeSum (τ.drop bound.length) fun x => evalList f (bound ++ x)) ?_ ?_ _ _ (by rw [length_map, hlen]) [] claim
    (by simp [hcount]) hclaim ?_⟩
  · unfold readSumcheck
    simp only [run_bind_ok, onState, run_zoom_ok, hrounds]
    exact ⟨_, _, rfl, (), _, ⟨v1, hpub, rfl⟩, hread⟩
  · intro bound claim body hlt heq
    rw [drop_eq_getElem_cons hlt, ← cubeSlice_faces, ← heq, bodyPoly, getD_eq_getElem _ _ hlt]
    exact fromWeighted_sum.symm
  · intro bound r
    simp [eval_cubeSlice]
  · rw [hafter, hout, nil_append, hcount, drop_length, cubeSum_nil, append_nil]

/-- At a zero polynomial: the claim one becomes the value zero at a challenge of zero. -/
theorem eqFactored_sumcheck_sound_one :
    ∃ lucky : List (List (ZMod 5)) → List (ZMod 5) → Multiset (ZMod 5), (∀ bodies rs, (lucky bodies rs).card ≤ 2) ∧
      ∃ (bodies : List (List (ZMod 5))) (i : ℕ) (r : ZMod 5), [0, 0][i]? = some r ∧ r ∈ lucky (bodies.take (i + 1)) ([0, 0].take i) := by
  obtain ⟨lucky, hcard, hrun⟩ := @eqFactored_sumcheck_sound (ZMod 5) _ (ZMod 5) _ _ plainBackend _ UInt32 2 1 [1, 1] 0 sampleShape
    listOmitted_lawful (by simp) (by decide)
  obtain ⟨bodies, -, hmem⟩ := hrun (directChannel plainBackend.Verifier byteCodec) 0 (plainBackend.verifierNew [] [1, 0, 0, 0], 0) _
    { outputClaim := 0, challenges := [0, 0] } rfl (by simp [evalList])
  exact ⟨lucky, hcard, bodies, hmem⟩

end Akita.Sumcheck
