import Akita.Spec.Sumcheck
import Akita.Proof.Agreement

/-!
# The sumcheck driver

Completeness: the two loops are coupled round by round over one argument string. Soundness:
what an accepting verifier read determines the round polynomials, since the running claim
gives back the coefficient that is not sent.
-/

namespace Akita.Sumcheck

open Lib Transcript Polynomial List
open List (replicate)
open EStateM.Result (ok.inj)
open UInt32 (ofNat)

variable {E : Type} [Field E] {F : Type} [CanonicalEncoding F] [ExtField F E]
  {𝔱 : TranscriptBackend} {𝔲 : PolyBackend E} {K κ κ' : Type} {n d round : ℕ} {site : ProtocolSiteId}
  {kernel : SumcheckKernel 𝔲 K} {invocation : UInt32} {v v' : 𝔱.Verifier} {l : κ} {s' : 𝔱.Verifier × κ} {p p' : 𝔱.Prover} {k : κ}
  {q : K} {poly : 𝔲.UnivariatePoly}

/-! ## One round -/

theorem u32TryFrom_ok {e : AkitaError} {m : UInt32} : u32TryFrom n e = .ok m ↔ n < 2 ^ 32 ∧ ofNat n = m := by
  unfold u32TryFrom
  split <;> simp_all

/-- Whether the record of an extension group can be built depends on the sizes only. -/
theorem groupRecord_extension {kind : ProtocolMessageKind} {degree bytes : ℕ} :
    (groupRecord site kind (checkedMul usizeBits n degree) bytes).isOk = true ↔
      n * degree < 2 ^ 64 ∧ n * degree * bytes < 2 ^ 64 := by
  rw [isOk_iff]
  unfold groupRecord
  simp only [result_ok, checked_some, usizeToU64_ok, usizeBits]
  constructor
  · rintro ⟨_, _, ⟨h1, rfl⟩, _, ⟨h2, rfl⟩, _⟩
    exact ⟨h1, h2⟩
  · rintro ⟨h1, h2⟩
    exact ⟨_, _, ⟨h1, rfl⟩, _, ⟨h2, rfl⟩, _, ⟨h1, rfl⟩, _, ⟨h2, rfl⟩, rfl⟩

variable {channel : SumcheckChannel 𝔱.Verifier κ E} {claim out : E} {rs : List E}

theorem proveRounds_succ [DecidableEq E] {channel : SumcheckChannel 𝔱.Prover κ E} {s' : 𝔱.Prover × κ × K} :
    (proveRounds F kernel channel invocation d (n + 1) round claim).run (p, k, q) = .ok (rs, out) s' ↔
      round < 2 ^ 32 ∧ ∃ poly q1 sent body p1 r p2 k2 q2 rs', (kernel.roundPolynomial round claim).run q = .ok poly q1 ∧
        compressedBody d poly claim = .ok sent ∧
        (exchangeExtensionGroup F (channel.sumcheckSite k invocation (ofNat round) .roundBody) sent).run p =
          .ok body p1 ∧ (channel.roundChallenge invocation (ofNat round)).run (p1, k) = .ok r (p2, k2) ∧
        (kernel.bindChallenge round r).run q1 = .ok () q2 ∧
        (proveRounds F kernel channel invocation d n (round + 1) (𝔲.evalFromHint body claim r)).run (p2, k2, q2) =
          .ok (rs', out) s' ∧ rs = r :: rs' := by
  rw [proveRounds]
  simp only [run_bind_ok, run_ofResult_ok, u32TryFrom_ok, onKernel, onState, onChannel, run_zoom_ok]
  constructor
  · rintro ⟨_, _, ⟨⟨hr, rfl⟩, rfl⟩, poly, _, ⟨q1, hpoly, rfl⟩, sent, _, ⟨hsent, rfl⟩, _, _, hget, body, _,
      ⟨p1, hbody, rfl⟩, r, _, ⟨⟨p2, k2⟩, hchal, rfl⟩, _, _, ⟨q2, hbind, rfl⟩, ⟨rs', out'⟩, _, hrest, hpure⟩
    cases hget
    cases hpure
    exact ⟨hr, poly, q1, sent, body, p1, r, p2, k2, q2, rs', hpoly, hsent, hbody, hchal, hbind, hrest, rfl⟩
  · rintro ⟨hr, poly, q1, sent, body, p1, r, p2, k2, q2, rs', hpoly, hsent, hbody, hchal, hbind, hrest, rfl⟩
    exact ⟨_, _, ⟨⟨hr, rfl⟩, rfl⟩, poly, _, ⟨q1, hpoly, rfl⟩, sent, _, ⟨hsent, rfl⟩, _, _, rfl, body, _,
      ⟨p1, hbody, rfl⟩, r, _, ⟨⟨p2, k2⟩, hchal, rfl⟩, _, _, ⟨q2, hbind, rfl⟩, ⟨rs', out⟩, _, hrest, rfl⟩

theorem run_extensionSlots {slots : List E} : (extensionSlots d : Chan 𝔱.Verifier (List E)).run v = .ok slots v' ↔
      𝔱.verifierReserve v d = true ∧ replicate d 0 = slots ∧ v = v' := by
  unfold extensionSlots
  simp only [run_bind_ok, verifier_transparent _ _ _ _]
  constructor
  · rintro ⟨b, _, hb, _, _, ⟨hguard, rfl⟩, hpure⟩
    cases hb
    cases hpure
    refine ⟨?_, rfl, rfl⟩
    by_contra hn
    simp [hn] at hguard
  · rintro ⟨hmem, rfl, rfl⟩
    exact ⟨true, v, congrArg (EStateM.Result.ok · v) hmem, (), v, ⟨rfl, rfl⟩, rfl⟩

theorem verifyRounds_succ : (verifyRounds F 𝔲 channel invocation d (n + 1) round claim).run (v, l) = .ok (rs, out) s' ↔
      (round < 2 ^ 32 ∧ 𝔱.verifierReserve v d = true) ∧ ∃ body v1 r s2 rs',
        (exchangeExtensionGroup F (channel.sumcheckSite l invocation (ofNat round) .roundBody)
          (replicate d (0 : E))).run v = .ok body v1 ∧
        (channel.roundChallenge invocation (ofNat round)).run (v1, l) = .ok r s2 ∧
        (verifyRounds F 𝔲 channel invocation d n (round + 1) (𝔲.evalFromHint body claim r)).run s2 =
          .ok (rs', out) s' ∧ rs = r :: rs' := by
  rw [verifyRounds]
  simp only [run_bind_ok, run_ofResult_ok, u32TryFrom_ok, onState, run_zoom_ok, run_extensionSlots]
  constructor
  · rintro ⟨_, _, ⟨⟨hr, rfl⟩, rfl⟩, _, _, hget, _, _, ⟨_, ⟨hmem, rfl, rfl⟩, rfl⟩, body, _, ⟨v1, hbody, rfl⟩, r, s2,
      hchal, ⟨rs', out'⟩, _, hrest, hpure⟩
    cases hget
    cases hpure
    exact ⟨⟨hr, hmem⟩, body, v1, r, s2, rs', hbody, hchal, hrest, rfl⟩
  · rintro ⟨⟨hr, hmem⟩, body, v1, r, s2, rs', hbody, hchal, hrest, rfl⟩
    exact ⟨_, _, ⟨⟨hr, rfl⟩, rfl⟩, _, _, rfl, _, _, ⟨_, ⟨hmem, rfl, rfl⟩, rfl⟩, body, _, ⟨v1, hbody, rfl⟩, r, s2,
      hchal, ⟨rs', out⟩, _, hrest, rfl⟩

/-! ## Completeness -/

/-- The prover's and the verifier's states have made the same sponge calls. -/
structure Synced (p : 𝔱.Prover) (v : 𝔱.Verifier) : Prop where
  calls : 𝔱.proverCalls p = 𝔱.verifierCalls v
  clean : ¬ 𝔱.poisoned v

/-- Two challenge sources are coupled by `sync`: what the prover's writes while it draws, the
verifier's reads while it draws the same challenge. -/
def Coupled (prover : SumcheckChannel 𝔱.Prover κ E) (verifier : SumcheckChannel 𝔱.Verifier κ' E)
    (sync : κ → κ' → Prop) : Prop :=
  ∀ invocation round p k r p' k', (prover.roundChallenge invocation round).run (p, k) = .ok r (p', k') →
    ∃ wire, 𝔱.argument p' = 𝔱.argument p ++ wire ∧ ∀ v l rest, sync k l → Synced p v →
      𝔱.remaining v = wire ++ rest → ∃ v' l', (verifier.roundChallenge invocation round).run (v, l) = .ok r (v', l') ∧
        𝔱.remaining v' = rest ∧ Synced p' v' ∧ sync k' l'

/-- The input claim is absorbed on both sides and written on neither. -/
theorem claim_coupled {E : Type} [ExtField F E] (h𝔱 : 𝔱.Lawful) (hmem : Reserves 𝔱) {claim : E}
    (h : (publicExtensions F site [claim]).run p = .ok () p') (site' : ProtocolSiteId) :
    𝔱.argument p' = 𝔱.argument p ∧ ∀ v, Synced p v → ∃ v', (publicExtensions F site' [claim]).run v = .ok () v' ∧
      𝔱.remaining v' = 𝔱.remaining v ∧ Synced p' v' := by
  have he := (emits_publicMessage h𝔱 (encodeAtoms ([claim].map (ExtensionAtom.mk (F := F))))).guarded
    (groupRecord site .publicValue (checkedMul usizeBits [claim].length (ExtField.degree F E))
      (CanonicalEncoding.numBytes F))
  have hfit := he.ok_of_run p () p' h
  obtain ⟨p1, h1, harg, hcalls⟩ := he.run_ok p hfit
  obtain rfl : p' = p1 := (ok.inj (h.symm.trans h1)).2
  refine ⟨harg.trans (append_nil _), fun v hs => ?_⟩
  have hr := (receives_publicMessage h𝔱 (encodeAtoms ([claim].map (ExtensionAtom.mk (F := F))))).guarded
    (groupRecord site' .publicValue (checkedMul usizeBits [claim].length (ExtField.degree F E))
      (CanonicalEncoding.numBytes F))
  obtain ⟨v', hv'⟩ := hr.complete hmem v () _ hs.clean
    ⟨groupRecord_extension.2 (groupRecord_extension.1 hfit.1), rfl⟩ rfl
  obtain ⟨-, hrem, hcalls', hclean⟩ := hr.sound v () v' hs.clean hv'
  refine ⟨v', hv', hrem.symm, ?_, hclean⟩
  rw [hcalls, hcalls', hs.calls]

/-- A claim is sent wherever a round of `d` coefficients would be. -/
theorem claim_emitted {E : Type} [ExtField F E] (h𝔱 : 𝔱.Lawful) (hd : 0 < d)
    (hsize : d * ExtField.degree F E < 2 ^ 64 ∧ d * ExtField.degree F E * CanonicalEncoding.numBytes F < 2 ^ 64)
    (site : ProtocolSiteId) (claim : E) (p : 𝔱.Prover) : ∃ p', (publicExtensions F site [claim]).run p = .ok () p' := by
  have he := (emits_publicMessage h𝔱 (encodeAtoms ([claim].map (ExtensionAtom.mk (F := F))))).guarded
    (groupRecord site .publicValue (checkedMul usizeBits [claim].length (ExtField.degree F E)) (CanonicalEncoding.numBytes F))
  have hone : [claim].length * ExtField.degree F E ≤ d * ExtField.degree F E := Nat.mul_le_mul_right _ hd
  obtain ⟨p', hp, -⟩ := he.run_ok p ⟨groupRecord_extension.2 ⟨hone.trans_lt hsize.1,
    (Nat.mul_le_mul_right _ hone).trans_lt hsize.2⟩, trivial⟩
  exact ⟨p', hp⟩

section

variable [Nontrivial F] [LawfulEncoding F] [LawfulExtField F E] {prover : SumcheckChannel 𝔱.Prover κ E}
  {verifier : SumcheckChannel 𝔱.Verifier κ' E} {sync : κ → κ' → Prop}

theorem body_coupled (h𝔱 : 𝔱.Lawful) (hmem : Reserves 𝔱) {sent body : List E}
    (h : (exchangeExtensionGroup F site sent).run p = .ok body p') (site' : ProtocolSiteId) :
    body = sent ∧ ∃ wire, 𝔱.argument p' = 𝔱.argument p ++ wire ∧ ∀ v rest, Synced p v →
      𝔱.remaining v = wire ++ rest → ∃ v',
        (exchangeExtensionGroup F site' (replicate sent.length (0 : E))).run v = .ok body v' ∧
        𝔱.remaining v' = rest ∧ Synced p' v' := by
  have he := emits_extensionGroup (F := F) h𝔱 site sent
  have hfit := he.ok_of_run p body p' h
  obtain ⟨p1, h1, harg, hcalls⟩ := he.run_ok p hfit
  rw [h] at h1
  obtain ⟨rfl, rfl⟩ := ok.inj h1
  refine ⟨rfl, _, harg, fun v rest hs hrest => ?_⟩
  have hr := receives_extensionGroup (F := F) h𝔱 site' (replicate body.length (0 : E))
  have hfit' : (groupRecord site' .proofAtoms
      (checkedMul usizeBits (replicate body.length (0 : E)).length (ExtField.degree F E))
      (CanonicalEncoding.numBytes F)).isOk = true := by
    rw [length_replicate]
    exact groupRecord_extension.2 (groupRecord_extension.1 hfit)
  obtain ⟨v', hv'⟩ := hr.complete hmem v body rest hs.clean ⟨by simp, hfit'⟩ hrest
  obtain ⟨-, hrem, hcalls', hclean⟩ := hr.sound v body v' hs.clean hv'
  refine ⟨v', hv', append_cancel_left (hrem.symm.trans hrest), ?_, hclean⟩
  rw [hcalls, hcalls', hs.calls]

theorem compressedBody_ok [DecidableEq E] {body : List E} :
    compressedBody d poly claim = .ok body ↔ 𝔲.evaluate poly 0 + 𝔲.evaluate poly 1 = claim ∧
      (𝔲.coeffsExceptLinearTerm poly).length ≠ 0 ∧ (𝔲.coeffsExceptLinearTerm poly).length ≤ d ∧
      body = 𝔲.coeffsExceptLinearTerm poly ++ replicate (d - (𝔲.coeffsExceptLinearTerm poly).length) 0 := by
  unfold compressedBody
  simp only [result_ok, eq_comm (b := body)]

theorem rounds_coupled [DecidableEq E] (h𝔱 : 𝔱.Lawful) (hmem : Reserves 𝔱) (hc : Coupled prover verifier sync) :
    ∀ (n round : ℕ) (claim out : E) (rs : List E) (p p' : 𝔱.Prover) (k k' : κ) (q q' : K),
    (proveRounds F kernel prover invocation d n round claim).run (p, k, q) = .ok (rs, out) (p', k', q') →
    ∃ wire, 𝔱.argument p' = 𝔱.argument p ++ wire ∧ ∀ v l rest, sync k l → Synced p v →
      𝔱.remaining v = wire ++ rest → ∃ v' l',
        (verifyRounds F 𝔲 verifier invocation d n round claim).run (v, l) = .ok (rs, out) (v', l') ∧
        𝔱.remaining v' = rest ∧ Synced p' v' ∧ sync k' l' := by
  intro n
  induction n with
  | zero =>
    intro round claim out rs p p' k k' q q' h
    obtain ⟨heq, hs⟩ := ok.inj h
    cases heq
    obtain ⟨rfl, rfl, rfl⟩ : p = p' ∧ k = k' ∧ q = q' := by simpa using hs
    exact ⟨[], by simp, fun v l rest hs hsync hrest => ⟨v, l, rfl, hrest, hsync, hs⟩⟩
  | succ n ih =>
    intro round claim out rs p p' k k' q q' h
    obtain ⟨hround, poly, q1, sent, body, p1, r, p2, k2, q2, rs', hpoly, hsent, hbody, hchal, hbind, hrest, rfl⟩ :=
      proveRounds_succ.1 h
    obtain ⟨w3, harg3, h3⟩ := ih (round + 1) _ out rs' p2 p' k2 k' q2 q' hrest
    obtain ⟨w2, harg2, h2⟩ := hc _ _ _ _ _ _ _ hchal
    -- the verifier's slots are as many as the coefficients sent
    have hlen : sent.length = d := by
      obtain ⟨-, -, hle, rfl⟩ := compressedBody_ok.1 hsent
      simp only [length_append, length_replicate]
      omega
    obtain ⟨w1, harg1, -⟩ := (body_coupled h𝔱 hmem hbody {}).2
    refine ⟨w1 ++ (w2 ++ w3), by rw [harg3, harg2, harg1]; simp, fun v l rest hs hsync hrem => ?_⟩
    simp only [append_assoc] at hrem
    obtain ⟨-, w1', harg1', h1⟩ := body_coupled h𝔱 hmem hbody
      (verifier.sumcheckSite l invocation (ofNat round) .roundBody)
    obtain rfl : w1 = w1' := append_cancel_left (harg1.symm.trans harg1')
    obtain ⟨v1, hv1, hrem1, hsync1⟩ := h1 v _ hsync hrem
    obtain ⟨v2, l2, hv2, hrem2, hsync2, hs2⟩ := h2 v1 l _ hs hsync1 hrem1
    obtain ⟨v3, l3, hv3, hrem3, hsync3, hs3⟩ := h3 v2 l2 rest hs2 hsync2 hrem2
    rw [hlen] at hv1
    exact ⟨v3, l3, verifyRounds_succ.2 ⟨⟨hround, hmem v d⟩, body, v1, r, _, rs', hv1, hv2, hv3, rfl⟩, hrem3,
      hsync3, hs3⟩

end

/-! ## Soundness -/

/-- The bodies and challenges of the rounds, without the claims. -/
def readRounds (F : Type) [CanonicalEncoding F] [ExtField F E] (channel : SumcheckChannel 𝔱.Verifier κ E)
    (invocation : UInt32) (degreeBound : ℕ) : ℕ → ℕ → EStateM AkitaError (𝔱.Verifier × κ) (List (List E) × List E)
  | 0, _ => pure ([], [])
  | n + 1, round => do
    let roundId ← ofResult (u32TryFrom round .invalidProof)
    let bodySite := channel.sumcheckSite (← get).2 invocation roundId .roundBody
    let coefficients ← onState (extensionSlots degreeBound)
    let coefficients ← onState (exchangeExtensionGroup F bodySite coefficients)
    let challenge ← channel.roundChallenge invocation roundId
    let (bodies, challenges) ← readRounds F channel invocation degreeBound n (round + 1)
    return (coefficients :: bodies, challenge :: challenges)

/-- The bodies and challenges of a whole sumcheck with a given input claim. -/
def readSumcheck (F : Type) [CanonicalEncoding F] [ExtField F E] (channel : SumcheckChannel 𝔱.Verifier κ E)
    (invocation : UInt32) (claim : E) (shape : SumcheckShape) :
    EStateM AkitaError (𝔱.Verifier × κ) (List (List E) × List E) := do
  let claimSite := channel.sumcheckSite (← get).2 invocation 0 .claim
  onState (publicExtensions F claimSite [claim])
  readRounds F channel invocation shape.degreeBound shape.numRounds 0

/-- Each polynomial sums to the running claim at zero and one, and gives the next claim at its
challenge; `out` is the last claim. -/
def RoundRelation : E → List E[X] → List E → E → Prop
  | claim, [], [], out => out = claim
  | claim, g :: gs, r :: rs, out => g.eval 0 + g.eval 1 = claim ∧ RoundRelation (g.eval r) gs rs out
  | _, _, _, _ => False

theorem RoundRelation.unique (hd : 0 < d) : ∀ {gs hs : List E[X]} {rs : List E} {claim out out' : E},
    (∀ g ∈ gs, g.natDegree ≤ d) → (∀ h ∈ hs, h.natDegree ≤ d) → gs.map (nonlinear d) = hs.map (nonlinear d) →
    RoundRelation claim gs rs out → RoundRelation claim hs rs out' → gs = hs := by
  intro gs
  induction gs with
  | nil =>
    intro hs rs claim out out' _ _ hmap _ _
    exact (map_eq_nil_iff.1 hmap.symm).symm
  | cons g gs ih =>
    intro hs rs claim out out' hg hh hmap h1 h2
    cases hs with
    | nil => simp at hmap
    | cons h hs =>
      cases rs with
      | nil => exact absurd h1 (by simp [RoundRelation])
      | cons r rs =>
        obtain ⟨hsum, h1⟩ := h1
        obtain ⟨hsum', h2⟩ := h2
        obtain ⟨hgh, hrest⟩ := List.cons.inj hmap
        -- the running claim restores the same linear coefficient
        have heq : g = h := by
          rw [eq_fromHint hd (hg g mem_cons_self) hsum, eq_fromHint hd (hh h mem_cons_self) hsum', hgh]
        subst heq
        rw [ih (fun x hx => hg x (mem_cons_of_mem _ hx)) (fun x hx => hh x (mem_cons_of_mem _ hx)) hrest h1 h2]

/-- Every slot is filled or kept, so as many coefficients come back as there were slots. -/
theorem exchange_length {E : Type} [ExtField F E] {slots body : List E}
    (h : (exchangeExtensionGroup F site slots).run v = .ok body v') : body.length = slots.length := by
  obtain ⟨_, _, -, h⟩ := run_bind_ok.1 h
  obtain ⟨atoms, _, hx, hpure⟩ := run_bind_ok.1 h
  obtain ⟨received, _, -, hret⟩ := run_bind_ok.1 hx
  obtain ⟨rfl, -⟩ := ok.inj hret
  obtain ⟨rfl, -⟩ := ok.inj hpure
  simp only [length_map, length_append, length_take, length_drop]
  omega

theorem readRounds_succ {bodies : List (List E)} :
    (readRounds F channel invocation d (n + 1) round).run (v, l) = .ok (bodies, rs) s' ↔
      (round < 2 ^ 32 ∧ 𝔱.verifierReserve v d = true) ∧ ∃ body v1 r s2 bodies' rs',
        (exchangeExtensionGroup F (channel.sumcheckSite l invocation (ofNat round) .roundBody)
          (replicate d (0 : E))).run v = .ok body v1 ∧
        (channel.roundChallenge invocation (ofNat round)).run (v1, l) = .ok r s2 ∧
        (readRounds F channel invocation d n (round + 1)).run s2 = .ok (bodies', rs') s' ∧
        bodies = body :: bodies' ∧ rs = r :: rs' := by
  rw [readRounds]
  simp only [run_bind_ok, run_ofResult_ok, u32TryFrom_ok, onState, run_zoom_ok, run_extensionSlots]
  constructor
  · rintro ⟨_, _, ⟨⟨hr, rfl⟩, rfl⟩, _, _, hget, _, _, ⟨_, ⟨hmem, rfl, rfl⟩, rfl⟩, body, _, ⟨v1, hbody, rfl⟩, r, s2,
      hchal, ⟨bodies', rs'⟩, _, hrest, hpure⟩
    cases hget
    cases hpure
    exact ⟨⟨hr, hmem⟩, body, v1, r, s2, bodies', rs', hbody, hchal, hrest, rfl, rfl⟩
  · rintro ⟨⟨hr, hmem⟩, body, v1, r, s2, bodies', rs', hbody, hchal, hrest, rfl, rfl⟩
    exact ⟨_, _, ⟨⟨hr, rfl⟩, rfl⟩, _, _, rfl, _, _, ⟨_, ⟨hmem, rfl, rfl⟩, rfl⟩, body, _, ⟨v1, hbody, rfl⟩, r, s2,
      hchal, ⟨bodies', rs'⟩, _, hrest, rfl⟩

/-- **The round relation.** The rounds of an accepting verifier are those of polynomials with the
bodies it read. -/
theorem roundRelation_of_verifyRounds (h𝔲 : 𝔲.Lawful) (hd : 0 < d) : ∀ (n round : ℕ) (claim out : E) (rs : List E)
    (s s' : 𝔱.Verifier × κ), (verifyRounds F 𝔲 channel invocation d n round claim).run s = .ok (rs, out) s' →
    ∃ bodies, (readRounds F channel invocation d n round).run s = .ok (bodies, rs) s' ∧
      ∃ gs : List E[X], gs.length = n ∧ (∀ g ∈ gs, g.natDegree ≤ d) ∧ gs.map (nonlinear d) = bodies ∧
        RoundRelation claim gs rs out := by
  intro n
  induction n with
  | zero =>
    intro round claim out rs s s' h
    cases h
    exact ⟨[], rfl, [], rfl, by simp, rfl, rfl⟩
  | succ n ih =>
    rintro round claim out rs ⟨v, l⟩ s' h
    obtain ⟨hpre, body, v1, r, s2, rs', hbody, hchal, hrest, rfl⟩ := verifyRounds_succ.1 h
    obtain ⟨bodies, hread, gs, hlen, hdeg, hmap, hrel⟩ := ih (round + 1) _ out rs' s2 s' hrest
    have hlen1 : body.length = d := by rw [exchange_length hbody, length_replicate]
    have hne : body ≠ [] := length_pos_iff.1 (by omega)
    refine ⟨body :: bodies, readRounds_succ.2 ⟨hpre, body, v1, r, s2, bodies, rs', hbody, hchal, hread, rfl, rfl⟩,
      fromHint claim body :: gs, by simp [hlen], ?_, ?_, fromHint_sum hne, ?_⟩
    · intro g hg
      rcases mem_cons.1 hg with rfl | hg
      · exact hlen1 ▸ natDegree_fromHint_le hne
      · exact hdeg g hg
    · rw [map_cons, hmap, ← hlen1, nonlinear_fromHint hne]
    · rwa [h𝔲.evalFromHint body claim r hne] at hrel

/-! ## An honest kernel -/

/-- A kernel whose rounds go through from a state: its polynomials sum to the running claim at zero
and one and have at most as many coefficients as the bound allows, whatever is drawn. -/
def Honest (kernel : SumcheckKernel 𝔲 K) (d : ℕ) : ℕ → ℕ → E → K → Prop
  | 0, _, _, q => ∃ q', kernel.finish.run q = .ok () q'
  | n + 1, round, claim, q => ∃ poly q1, (kernel.roundPolynomial round claim).run q = .ok poly q1 ∧
      𝔲.evaluate poly 0 + 𝔲.evaluate poly 1 = claim ∧
      (𝔲.coefficients poly ≠ [] ∧ (𝔲.coefficients poly).length ≤ d + 1) ∧
      ∀ r, ∃ q2, (kernel.bindChallenge round r).run q1 = .ok () q2 ∧
        Honest kernel d n (round + 1) (𝔲.evaluate poly r) q2

theorem fromHint_take_drop {cs : List E} (hne : cs ≠ []) {hint : E}
    (hsum : (ofCoeffs cs).eval 0 + (ofCoeffs cs).eval 1 = hint) (n : ℕ) :
    fromHint hint (cs.take 1 ++ cs.drop 2 ++ replicate n 0) = ofCoeffs cs := by
  have hpad : ∀ c b : E, ∀ bs : List E, hint = c + (c + (b + bs.sum)) →
      fromHint hint (c :: (bs ++ replicate n 0)) = ofCoeffs (c :: b :: bs) := by
    intro c b bs hs
    have hb : hint - c - c - (bs ++ replicate n 0).sum = b := by
      rw [hs, sum_append, sum_replicate, smul_zero]
      ring
    rw [fromHint, hb]
    exact ofCoeffs_append_replicate_zero (c :: b :: bs) n
  rcases cs with _ | ⟨c, _ | ⟨b, bs⟩⟩
  · exact absurd rfl hne
  · have h := hpad c 0 [] (by rw [← hsum]; simp [ofCoeffs])
    simpa [ofCoeffs] using h
  · refine hpad c b bs ?_
    rw [← hsum]
    simp [eval_ofCoeffs_one]

variable [DecidableEq E]

/-- A polynomial that sums to the claim and fits the bound is sent, and its body evaluates to it. -/
theorem compressedBody_of_sum (h𝔲 : 𝔲.Lawful) (hd : 0 < d) (hsum : 𝔲.evaluate poly 0 + 𝔲.evaluate poly 1 = claim)
    (hne : 𝔲.coefficients poly ≠ []) (hlen : (𝔲.coefficients poly).length ≤ d + 1) :
    ∃ body, compressedBody d poly claim = .ok body ∧ body.length = d ∧
      ∀ r, 𝔲.evalFromHint body claim r = 𝔲.evaluate poly r := by
  have hcount : (𝔲.coeffsExceptLinearTerm poly).length ≠ 0 ∧ (𝔲.coeffsExceptLinearTerm poly).length ≤ d := by
    have hpos := length_pos_iff.2 hne
    rw [h𝔲.compress, length_append, length_take, length_drop]
    omega
  refine ⟨_, compressedBody_ok.2 ⟨hsum, hcount.1, hcount.2, rfl⟩, ?_, fun r => ?_⟩
  · rw [length_append, length_replicate]
    omega
  · have hbody : 𝔲.coeffsExceptLinearTerm poly ++ replicate (d - (𝔲.coeffsExceptLinearTerm poly).length) 0 ≠ [] := by
      simp only [ne_eq, append_eq_nil_iff, not_and]
      exact fun hnil => absurd (congrArg List.length hnil) hcount.1
    rw [h𝔲.evalFromHint _ _ r hbody, h𝔲.evaluate, h𝔲.compress, fromHint_take_drop hne]
    rw [← hsum, h𝔲.evaluate, h𝔲.evaluate]

/-- **Progress.** An honest kernel's rounds fail only with the challenge source. -/
theorem proveRounds_of_honest (h𝔱 : 𝔱.Lawful) (h𝔲 : 𝔲.Lawful) {channel : SumcheckChannel 𝔱.Prover κ E} (hd : 0 < d)
    (hsize : d * ExtField.degree F E < 2 ^ 64 ∧ d * ExtField.degree F E * CanonicalEncoding.numBytes F < 2 ^ 64)
    (hdraw : ∀ round s, ∃ r s', (channel.roundChallenge invocation round).run s = .ok r s') :
    ∀ (n round : ℕ) (claim : E) (p : 𝔱.Prover) (k : κ) (q : K), round + n ≤ 2 ^ 32 →
    Honest kernel d n round claim q → ∃ rs out p' k' q',
      (proveRounds F kernel channel invocation d n round claim).run (p, k, q) = .ok (rs, out) (p', k', q') ∧
        ∃ q'', kernel.finish.run q' = .ok () q'' := by
  intro n
  induction n with
  | zero =>
    intro round claim p k q _ hq
    exact ⟨[], claim, p, k, q, rfl, hq⟩
  | succ n ih =>
    rintro round claim p k q hround ⟨poly, q1, hpoly, hsum, ⟨hne, hlen⟩, hbind⟩
    obtain ⟨body, hbody, hblen, heval⟩ := compressedBody_of_sum h𝔲 hd hsum hne hlen
    have he := emits_extensionGroup (F := F) h𝔱 (channel.sumcheckSite k invocation (ofNat round) .roundBody) body
    obtain ⟨p1, hp1, -⟩ := he.run_ok p (groupRecord_extension.2 (by rwa [hblen]))
    obtain ⟨r, ⟨p2, k2⟩, hr⟩ := hdraw (ofNat round) (p1, k)
    obtain ⟨q2, hq2, hhonest⟩ := hbind r
    obtain ⟨rs, out, p', k', q', hrest, hfin⟩ := ih (round + 1) _ p2 k2 q2 (by omega) hhonest
    refine ⟨r :: rs, out, p', k', q', proveRounds_succ.2 ⟨by omega, poly, q1, body, body, p1, r, p2, k2, q2, rs,
      hpoly, hbody, hp1, hr, hq2, ?_, rfl⟩, hfin⟩
    rw [heval]
    exact hrest

/-! ## The driver -/

section

variable {prover : SumcheckChannel 𝔱.Prover κ E} {verifier : SumcheckChannel 𝔱.Verifier κ' E} {shape : SumcheckShape}

theorem proveSumcheck_run {s' : 𝔱.Prover × κ × K} :
    (proveSumcheck F kernel prover shape invocation).run (p, k, q) = .ok (rs, out) s' ↔
      (shape.numRounds = kernel.numRounds q ∧ shape.degreeBound = kernel.degreeBound q) ∧ ∃ p1 p2 k2 q2 q3,
        (publicExtensions F (prover.sumcheckSite k invocation 0 .claim) [kernel.inputClaim q]).run p = .ok () p1 ∧
        (proveRounds F kernel prover invocation shape.degreeBound shape.numRounds 0 (kernel.inputClaim q)).run
          (p1, k, q) = .ok (rs, out) (p2, k2, q2) ∧ kernel.finish.run q2 = .ok () q3 ∧ (p2, k2, q3) = s' := by
  unfold proveSumcheck
  simp only [run_bind_ok, run_ofResult_ok, SumcheckShape.validateInstance, ensure_eq_ok, onState, onKernel,
    run_zoom_ok, not_or, not_not]
  constructor
  · rintro ⟨_, _, hget, _, _, ⟨hval, rfl⟩, _, _, hget', _, _, ⟨p1, hpub, rfl⟩, ⟨rs', out'⟩, ⟨p2, k2, q2⟩, hrounds,
      _, _, ⟨q3, hfin, rfl⟩, hpure⟩
    cases hget
    cases hget'
    cases hpure
    exact ⟨hval, p1, p2, k2, q2, q3, hpub, hrounds, hfin, rfl⟩
  · rintro ⟨hval, p1, p2, k2, q2, q3, hpub, hrounds, hfin, rfl⟩
    exact ⟨_, _, rfl, (), _, ⟨hval, rfl⟩, _, _, rfl, (), _, ⟨p1, hpub, rfl⟩, ⟨rs, out⟩, ⟨p2, k2, q2⟩, hrounds,
      (), _, ⟨q3, hfin, rfl⟩, rfl⟩

omit [DecidableEq E] in
theorem verifySumcheckRounds_run {l : κ'} {result : SumcheckRoundResult E} {s' : 𝔱.Verifier × κ'} :
    (verifySumcheckRounds F 𝔲 verifier invocation claim shape).run (v, l) = .ok result s' ↔ ∃ v1,
      (publicExtensions F (verifier.sumcheckSite l invocation 0 .claim) [claim]).run v = .ok () v1 ∧
      (verifyRounds F 𝔲 verifier invocation shape.degreeBound shape.numRounds 0 claim).run (v1, l) =
        .ok (result.challenges, result.outputClaim) s' := by
  unfold verifySumcheckRounds
  simp only [run_bind_ok, onState, run_zoom_ok]
  constructor
  · rintro ⟨_, _, hget, _, _, ⟨v1, hpub, rfl⟩, ⟨rs, out⟩, _, hrounds, hpure⟩
    cases hget
    cases hpure
    exact ⟨v1, hpub, hrounds⟩
  · rintro ⟨v1, hpub, hrounds⟩
    exact ⟨_, _, rfl, (), _, ⟨v1, hpub, rfl⟩, ⟨_, _⟩, _, hrounds, rfl⟩

/-- **The sumcheck driver.** An honest kernel's proof is written, up to the challenge source. Over
the bytes a prover wrote, with coupled challenge sources, the verifier reads exactly those bytes
and returns the prover's challenges and final claim. And whatever a verifier accepts, the bodies
it read are those of unique polynomials within the degree bound that reduce the input claim round
by round to the claim it returns. -/
theorem sumcheck_driver [Nontrivial F] [LawfulEncoding F] [LawfulExtField F E] (h𝔱 : 𝔱.Lawful) (h𝔲 : 𝔲.Lawful)
    (kernel : SumcheckKernel 𝔲 K) (prover : SumcheckChannel 𝔱.Prover κ E)
    (verifier : SumcheckChannel 𝔱.Verifier κ' E) (shape : SumcheckShape) (invocation : UInt32) :
    (∀ (p : 𝔱.Prover) (k : κ) (q : K), (∀ round s, ∃ r s', (prover.roundChallenge invocation round).run s = .ok r s') →
      shape.degreeBound * ExtField.degree F E < 2 ^ 64 ∧
        shape.degreeBound * ExtField.degree F E * CanonicalEncoding.numBytes F < 2 ^ 64 →
      shape.numRounds = kernel.numRounds q ∧ shape.degreeBound = kernel.degreeBound q →
      Honest kernel shape.degreeBound shape.numRounds 0 (kernel.inputClaim q) q →
      ∃ rs out s', (proveSumcheck F kernel prover shape invocation).run (p, k, q) = .ok (rs, out) s') ∧
    (∀ (sync : κ → κ' → Prop) (p p' : 𝔱.Prover) (k k' : κ) (q q' : K) (rs : List E) (out : E), Reserves 𝔱 →
      Coupled prover verifier sync →
      (proveSumcheck F kernel prover shape invocation).run (p, k, q) = .ok (rs, out) (p', k', q') →
      ∃ wire, 𝔱.argument p' = 𝔱.argument p ++ wire ∧ ∀ v l rest, sync k l → Synced p v →
        𝔱.remaining v = wire ++ rest → ∃ v' l',
          (verifySumcheckRounds F 𝔲 verifier invocation (kernel.inputClaim q) shape).run (v, l) =
            .ok { outputClaim := out, challenges := rs } (v', l') ∧ 𝔱.remaining v' = rest ∧ Synced p' v' ∧ sync k' l') ∧
    (∀ (claim : E) (s s' : 𝔱.Verifier × κ') (result : SumcheckRoundResult E),
      (verifySumcheckRounds F 𝔲 verifier invocation claim shape).run s = .ok result s' →
      ∃ bodies, (readSumcheck F verifier invocation claim shape).run s = .ok (bodies, result.challenges) s' ∧
        ∃! gs : List E[X], gs.length = shape.numRounds ∧ (∀ g ∈ gs, g.natDegree ≤ shape.degreeBound) ∧
          gs.map (nonlinear shape.degreeBound) = bodies ∧
          RoundRelation claim gs result.challenges result.outputClaim) := by
  have hd : 0 < shape.degreeBound := pos_of_ne_zero shape.degreeBound_ne_zero
  refine ⟨fun p k q hdraw hsize hval hhonest => ?_, fun sync p p' k k' q q' rs out hmem hc hrun => ?_,
    fun claim s s' result hrun => ?_⟩
  · obtain ⟨p1, hp1⟩ := claim_emitted h𝔱 hd hsize (prover.sumcheckSite k invocation 0 .claim) (kernel.inputClaim q) p
    obtain ⟨rs, out, p2, k2, q2, hrounds, q3, hfin⟩ := proveRounds_of_honest h𝔱 h𝔲 hd hsize hdraw shape.numRounds 0
      (kernel.inputClaim q) p1 k q (by have := shape.numRounds_lt; omega) hhonest
    exact ⟨rs, out, _, proveSumcheck_run.2 ⟨hval, p1, p2, k2, q2, q3, hp1, hrounds, hfin, rfl⟩⟩
  · obtain ⟨-, p1, p2, k2, q2, q3, hpub, hrounds, -, heq⟩ := proveSumcheck_run.1 hrun
    obtain ⟨rfl, rfl, -⟩ : p2 = p' ∧ k2 = k' ∧ q3 = q' := by simpa using heq
    obtain ⟨wire, harg, hverify⟩ := rounds_coupled h𝔱 hmem hc _ _ _ _ _ _ _ _ _ _ _ hrounds
    refine ⟨wire, by rw [harg, (claim_coupled h𝔱 hmem hpub {}).1], fun v l rest hsync hs hrest => ?_⟩
    obtain ⟨v1, hv1, hrem1, hs1⟩ := (claim_coupled h𝔱 hmem hpub (verifier.sumcheckSite l invocation 0 .claim)).2 v hs
    obtain ⟨v', l', hv', hrem, hs', hsync'⟩ := hverify v1 l rest hsync hs1 (hrem1.trans hrest)
    exact ⟨v', l', verifySumcheckRounds_run.2 ⟨v1, hv1, hv'⟩, hrem, hs', hsync'⟩
  · obtain ⟨v, l⟩ := s
    obtain ⟨v1, hpub, hrounds⟩ := verifySumcheckRounds_run.1 hrun
    obtain ⟨bodies, hread, gs, hlen, hdeg, hmap, hrel⟩ :=
      roundRelation_of_verifyRounds h𝔲 hd shape.numRounds 0 claim _ _ _ s' hrounds
    refine ⟨bodies, ?_, gs, ⟨hlen, hdeg, hmap, hrel⟩, ?_⟩
    · unfold readSumcheck
      simp only [run_bind_ok, onState, run_zoom_ok]
      exact ⟨_, _, rfl, (), _, ⟨v1, hpub, rfl⟩, hread⟩
    · rintro hs ⟨-, hdeg', hmap', hrel'⟩
      exact RoundRelation.unique hd hdeg' hdeg (hmap'.trans hmap.symm) hrel' hrel

end

/-! ## A sumcheck over plain states -/

/-- A source that draws its challenges from the channel, with its invocation as state. -/
def directChannel (S : Type) [ProofChannel S] (codec : ChallengeCodec E) : SumcheckChannel S UInt32 E where
  sumcheckSite own invocation round role := { invocation := own, round, group := invocation, detail := role.code }
  roundChallenge invocation round := do
    let own := (← get).2
    onState (extChallenge codec { invocation := own, round, group := invocation, detail := SumcheckRole.challenge.code })

omit [Field E] [DecidableEq E] in
/-- Both ends draw the same challenge after the same sponge calls. -/
theorem directChannel_coupled (h𝔱 : 𝔱.Lawful) (codec : ChallengeCodec E) :
    Coupled (directChannel 𝔱.Prover codec) (directChannel 𝔱.Verifier codec) Eq := by
  intro invocation round p k r p' k' h
  obtain ⟨_, _, hget, h⟩ := run_bind_ok.1 h
  cases hget
  obtain ⟨u, hu, heq⟩ := run_zoom_ok.1 h
  obtain ⟨rfl, rfl⟩ : u = p' ∧ k = k' := by simpa using heq
  obtain ⟨hfit, es, hes, hlast⟩ := (extChallenge_ok prover_transparent _).1 hu
  obtain ⟨hdrawn, harg⟩ := proverChallenges_sound h𝔱 hes
  refine ⟨[], by simpa using harg, fun v l rest hsync hs hrest => ?_⟩
  subst hsync
  obtain ⟨v', hv'⟩ := verifierChallenges_complete h𝔱 hs.clean (congrArg Prod.fst (hs.calls ▸ hdrawn))
  obtain ⟨hdrawn', hrem, hclean⟩ := verifierChallenges_sound h𝔱 hs.clean hv'
  refine ⟨v', k, run_bind_ok.2 ⟨_, _, rfl, run_zoom_ok.2 ⟨v', ?_, rfl⟩⟩, by simpa [hrem] using hrest, ⟨?_, hclean⟩, rfl⟩
  · exact (extChallenge_ok verifier_transparent _).2 ⟨hfit, es, hv', hlast⟩
  · rw [hs.calls] at hdrawn
    exact congrArg Prod.snd (hdrawn.symm.trans hdrawn')

/-- Polynomials as coefficient lists, evaluated by Horner's rule. -/
def listPolys (E : Type) [Field E] : PolyBackend E where
  UnivariatePoly := List E
  coefficients := id
  evaluate cs x := cs.foldr (fun c acc => c + x * acc) 0
  coeffsExceptLinearTerm cs := cs.take 1 ++ cs.drop 2
  evalFromHint
    | [], _, _ => 0
    | c :: cs, hint, x => (c :: (hint - c - c - cs.sum) :: cs).foldr (fun c acc => c + x * acc) 0

omit [DecidableEq E] in
theorem foldr_horner (cs : List E) (x : E) : cs.foldr (fun c acc => c + x * acc) 0 = (ofCoeffs cs).eval x := by
  induction cs with
  | nil => simp [ofCoeffs]
  | cons c cs ih => rw [foldr_cons, ih, eval_ofCoeffs_cons]

omit [DecidableEq E] in
theorem listPolys_lawful : (listPolys E).Lawful where
  evaluate p x := foldr_horner p x
  compress p := rfl
  evalFromHint coeffs hint x h := by
    cases coeffs with
    | nil => exact absurd rfl h
    | cons c cs => exact foldr_horner _ x

def listKernel : SumcheckKernel (listPolys (ZMod 5)) (List (List (ZMod 5))) where
  numRounds polys := polys.length
  degreeBound _ := 2
  inputClaim
    | [] => 0
    | poly :: _ => (listPolys (ZMod 5)).evaluate poly 0 + (listPolys (ZMod 5)).evaluate poly 1
  roundPolynomial _ _ := fun polys =>
    match polys with
    | [] => .error .invalidProof polys
    | poly :: rest => .ok poly rest
  bindChallenge _ _ := pure ()
  finish := pure ()

def byteCodec : ChallengeCodec (ZMod 5) where
  challengeBytes n := some n
  decode _ bytes := some (bytes.map fun b => (b.toNat : ZMod 5))

def sampleShape : SumcheckShape := ⟨2, 2, by decide, by decide, by decide⟩

theorem sumcheck_driver_two_rounds :
    ∃ s', (proveSumcheck (ZMod 5) listKernel (directChannel plainBackend.Prover byteCodec) sampleShape 0).run
        (plainBackend.proverNew [], 0, [[1, 3, 0], [2, 2]]) = .ok ([0, 0], 2) s' ∧
      plainBackend.argument s'.1 = [1, 0, 2, 0] ∧
      ∃ v' l', (verifySumcheckRounds (ZMod 5) (listPolys (ZMod 5)) (directChannel plainBackend.Verifier byteCodec) 0 0
          sampleShape).run (plainBackend.verifierNew [] [1, 0, 2, 0], 0) =
          .ok { outputClaim := 2, challenges := [0, 0] } (v', l') ∧ plainBackend.remaining v' = [] ∧
        ∃ bodies, ∃! gs : List (ZMod 5)[X], gs.length = 2 ∧ (∀ g ∈ gs, g.natDegree ≤ 2) ∧
          gs.map (nonlinear 2) = bodies ∧ RoundRelation 0 gs [0, 0] 2 := by
  obtain ⟨-, hcomplete, hsound⟩ := sumcheck_driver (F := ZMod 5) plainBackend_lawful listPolys_lawful listKernel
    (directChannel plainBackend.Prover byteCodec) (directChannel plainBackend.Verifier byteCodec) sampleShape 0
  have hrun : (proveSumcheck (ZMod 5) listKernel (directChannel plainBackend.Prover byteCodec) sampleShape 0).run
      (plainBackend.proverNew [], 0, [[1, 3, 0], [2, 2]]) = .ok ([0, 0], 2)
        ((⟨[1, 0, 2, 0], [.absorb [], .absorb [0, 0, 0, 0, 0, 0, 0, 0], .absorb [1, 0, 0, 0, 0, 0, 0, 0], .squeeze 1,
          .absorb [2, 0, 0, 0, 0, 0, 0, 0], .squeeze 1]⟩ : PlainProver), 0, []) := by rfl
  obtain ⟨wire, hwire, hverify⟩ := hcomplete Eq _ _ _ _ _ _ _ _ plainBackend_reserves
    (directChannel_coupled plainBackend_lawful byteCodec) hrun
  obtain rfl : [1, 0, 2, 0] = wire := hwire
  obtain ⟨v', l', hv', hrem, -⟩ := hverify (plainBackend.verifierNew [] [1, 0, 2, 0]) 0 [] rfl
    ⟨rfl, by simp [plainBackend]⟩ rfl
  obtain ⟨bodies, -, hgs⟩ := hsound 0 _ _ _ hv'
  exact ⟨_, hrun, rfl, v', l', hv', hrem, bodies, hgs⟩

end Akita.Sumcheck
