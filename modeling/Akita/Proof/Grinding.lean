import Akita.Spec.Grinding

/-!
# Validated runs and plans

What the validator established of a run, of a challenge order and of a plan, and that the
canonical bytes identify a validated plan: every part splits off the front of the bytes in
one way only.
-/

namespace Akita.Grinding

open Lib List

variable {𝔭 : Pricing}

/-! ## What validation establishes -/

structure GrindingRun.Checked (𝔭 : Pricing) (r : GrindingRun) : Prop where
  site : r.site.validate = .ok ()
  setBits : r.kind = .foldChallengeWork ↔ r.challengeSetBits ≠ 0
  work : r.kind = .proofOfWork ∨ r.kind = .foldChallengeWork → r.lossFactor ≠ 0 ∧ r.multiplicity = 1 ∧
    r.grindBits ≤ maxGrindingBits ∧ powNonceBits r.grindBits = .ok r.nonceBits
  target : r.kind = .foldChallengeWork → ∃ order : ChallengeFieldOrder 𝔭,
    ChallengeFieldOrder.fromFullCapacity r.challengeSetBits = .ok order ∧ order.grindBits r.lossFactor = .ok r.grindBits
  response : r.kind = .foldResponse → r.lossFactor = 0 ∧ r.grindBits = 0 ∧
    r.nonceBits = foldResponseNonceBits ∧ r.multiplicity = 1
  group : r.kind = .foldChallengeGroup → r.lossFactor = 0 ∧ r.grindBits = 0 ∧ r.nonceBits = 0 ∧ 1 < r.multiplicity

theorem GrindingRun.validate_ok (r : GrindingRun) : r.validate 𝔭 = .ok () ↔ r.Checked 𝔭 := by
  unfold GrindingRun.validate
  simp only [result_ok]
  cases hk : r.kind with
  | proofOfWork =>
    simp only [reduceCtorEq, if_false, result_ok, beq_iff_eq, and_true]
    constructor
    · rintro ⟨hsite, hset, hloss, hmax, bits, hbits, hn⟩
      rw [not_or, not_not] at hloss
      exact ⟨hsite, by simp [hk, hset], fun _ => ⟨hloss.1, hloss.2, hmax, hn ▸ hbits⟩,
        by simp [hk], by simp [hk], by simp [hk]⟩
    · intro h
      have hset : r.challengeSetBits = 0 := by simpa [hk] using h.setBits
      obtain ⟨h1, h2, h3, h4⟩ := h.work (Or.inl hk)
      exact ⟨h.site, hset, by simp [h1, h2], h3, _, h4, rfl⟩
  | foldChallengeWork =>
    simp only [if_true, result_ok, bne_iff_ne, ne_eq]
    constructor
    · rintro ⟨hsite, hset, hloss, hmax, bits, hbits, hn, order, ho, g, hg, hgb⟩
      rw [not_or, not_not] at hloss
      exact ⟨hsite, by simp [hk, hset], fun _ => ⟨hloss.1, hloss.2, hmax, hn ▸ hbits⟩,
        fun _ => ⟨order, ho, hgb ▸ hg⟩, by simp [hk], by simp [hk]⟩
    · intro h
      obtain ⟨h1, h2, h3, h4⟩ := h.work (Or.inr hk)
      obtain ⟨order, ho, hg⟩ := h.target hk
      exact ⟨h.site, h.setBits.1 hk, by simp [h1, h2], h3, _, h4, rfl, order, ho, _, hg, rfl⟩
  | foldResponse =>
    simp only [ensure_eq_ok, beq_iff_eq]
    constructor
    · rintro ⟨hsite, hset, h⟩
      exact ⟨hsite, by simp [hk, hset], by simp [hk], by simp [hk], fun _ => h, by simp [hk]⟩
    · intro h
      exact ⟨h.site, by simpa [hk] using h.setBits, h.response hk⟩
  | foldChallengeGroup =>
    simp only [ensure_eq_ok, beq_iff_eq]
    constructor
    · rintro ⟨hsite, hset, h⟩
      exact ⟨hsite, by simp [hk, hset], by simp [hk], by simp [hk], by simp [hk], fun _ => h⟩
    · intro h
      exact ⟨h.site, by simpa [hk] using h.setBits, h.group hk⟩

structure GrindingPlanAccumulator.Counts (acc acc' : GrindingPlanAccumulator 𝔭) (run : GrindingRun)
    (repetitions : ℕ) : Prop where
  checked : run.Checked 𝔭
  order : acc'.challengeOrder = acc.challengeOrder
  runCount : acc'.runCount = acc.runCount + repetitions
  runCount_lt : acc'.runCount < 2 ^ 32
  totalNonceBits : acc'.totalNonceBits = acc.totalNonceBits + run.nonceBits.toNat * run.multiplicity.toNat * repetitions
  totalNonceBits_lt : acc'.totalNonceBits < 2 ^ 64
  nonceMaxBytes : acc'.nonceMaxBytes =
    acc.nonceMaxBytes + Transcript.nonceMaxBytes run.nonceBits.toNat * run.multiplicity.toNat * repetitions
  nonceMaxBytes_lt : acc'.nonceMaxBytes < 2 ^ 64
  expandedQueryCount : acc'.expandedQueryCount = acc.expandedQueryCount + run.multiplicity.toNat * repetitions
  expandedQueryCount_lt : acc'.expandedQueryCount < 2 ^ 64

namespace GrindingPlanAccumulator

variable {acc acc' : GrindingPlanAccumulator 𝔭} {run : GrindingRun} {n : UInt32}

theorem addCounts_ok {runs bits bytes queries : ℕ} : acc.addCounts runs bits bytes queries = .ok acc' ↔
      acc.runCount + runs < 2 ^ 32 ∧ acc.totalNonceBits + bits < 2 ^ 64 ∧
      acc.nonceMaxBytes + bytes < 2 ^ 64 ∧ acc.expandedQueryCount + queries < 2 ^ 64 ∧ acc' = { acc with
        runCount := acc.runCount + runs, totalNonceBits := acc.totalNonceBits + bits,
        nonceMaxBytes := acc.nonceMaxBytes + bytes, expandedQueryCount := acc.expandedQueryCount + queries } := by
  unfold addCounts
  simp only [result_ok, checked_some, usizeBits]
  constructor
  · rintro ⟨_, ⟨h1, rfl⟩, _, ⟨h2, rfl⟩, _, ⟨h3, rfl⟩, _, ⟨h4, rfl⟩, rfl⟩
    exact ⟨h1, h2, h3, h4, rfl⟩
  · rintro ⟨h1, h2, h3, h4, rfl⟩
    exact ⟨_, ⟨h1, rfl⟩, _, ⟨h2, rfl⟩, _, ⟨h3, rfl⟩, _, ⟨h4, rfl⟩, rfl⟩

/-- **Counting a run.** -/
theorem counts_of_countRepeated (h : acc.countRepeated run n = .ok acc') : acc.Counts acc' run n.toNat := by
  unfold countRepeated at h
  simp only [result_ok, checked_some, GrindingRun.nonceMaxBytes, addCounts_ok, usizeBits, GrindingRun.validate_ok] at h
  obtain ⟨hc, _, ⟨h1, rfl⟩, _, ⟨h2, rfl⟩, _, ⟨h3, rfl⟩, _, ⟨h4, rfl⟩, _, ⟨h5, rfl⟩, h6, h7, h8, h9, rfl⟩ := h
  exact ⟨hc, rfl, rfl, h6, rfl, h7, rfl, h8, rfl, h9⟩

/-- Nothing but the bounds on the sums can stop a validated run from being counted. -/
theorem countRepeated_of_counts (hn : 0 < n.toNat) (h : acc.Counts acc' run n.toNat) : acc.countRepeated run n = .ok acc' := by
  have hle : ∀ a : ℕ, a ≤ a * n.toNat := fun a => Nat.le_mul_of_pos_right a hn
  have hb := h.totalNonceBits ▸ h.totalNonceBits_lt
  have hy := h.nonceMaxBytes ▸ h.nonceMaxBytes_lt
  have hq := h.expandedQueryCount ▸ h.expandedQueryCount_lt
  have hr := h.runCount ▸ h.runCount_lt
  have hb1 := hle (run.nonceBits.toNat * run.multiplicity.toNat)
  have hy1 := hle (Transcript.nonceMaxBytes run.nonceBits.toNat * run.multiplicity.toNat)
  unfold countRepeated
  simp only [result_ok, checked_some, GrindingRun.nonceMaxBytes, addCounts_ok, usizeBits, GrindingRun.validate_ok]
  refine ⟨h.checked, _, ⟨by omega, rfl⟩, _, ⟨by omega, rfl⟩, _, ⟨by omega, rfl⟩, _, ⟨by omega, rfl⟩, _,
    ⟨by omega, rfl⟩, hr, hb, hy, hq, ?_⟩
  obtain ⟨o, rc, nb, mb, qc⟩ := acc'
  obtain ⟨-, ho, h1, -, h2, -, h3, -, h4, -⟩ := h
  subst ho h1 h2 h3 h4
  rfl

theorem counts_of_push (h : acc.push run = .ok acc') : acc.Counts acc' run 1 := by
  unfold push pushRepeated at h
  split at h
  · simp only [bind_eq_ok] at h
    obtain ⟨_, -, _, -, h⟩ := h
    exact counts_of_countRepeated h
  · exact counts_of_countRepeated h

end GrindingPlanAccumulator

/-! ## Accepted plans -/

theorem counts_of_pushes : ∀ (runs : List GrindingRun) (acc acc' : GrindingPlanAccumulator 𝔭),
    runs.foldlM GrindingPlanAccumulator.push acc = .ok acc' →
    (∀ r ∈ runs, r.Checked 𝔭) ∧ acc'.runCount = acc.runCount + runs.length ∧
      (acc.runCount < 2 ^ 32 → acc'.runCount < 2 ^ 32) := by
  intro runs
  induction runs with
  | nil =>
    intro acc acc' h
    obtain rfl : acc = acc' := by simpa [pure_eq_ok] using h
    simp
  | cons r runs ih =>
    intro acc acc' h
    rw [foldlM_cons, bind_eq_ok] at h
    obtain ⟨acc1, h1, h2⟩ := h
    have hc := GrindingPlanAccumulator.counts_of_push h1
    obtain ⟨hall, hcount, hlt⟩ := ih acc1 acc' h2
    refine ⟨?_, ?_, fun _ => hlt hc.runCount_lt⟩
    · intro r' hr'
      rcases mem_cons.1 hr' with rfl | hr'
      · exact hc.checked
      · exact hall r' hr'
    · rw [hcount, hc.runCount, length_cons]; omega

namespace GrindingPlan

variable {p : GrindingPlan 𝔭}

theorem new_ok {runs : List GrindingRun} {order : ChallengeFieldOrder 𝔭} (h : GrindingPlan.new runs order = .ok p) : ∃ acc,
      runs.foldlM GrindingPlanAccumulator.push (GrindingPlanAccumulator.new order) = .ok acc ∧
      acc.expandedQueryCount < transcriptGrindingQueryLimit ∧
      p = { runs, challengeOrder := order, totalNonceBits := acc.totalNonceBits,
            nonceMaxBytes := acc.nonceMaxBytes, expandedQueryCount := acc.expandedQueryCount } := by
  unfold GrindingPlan.new at h
  simp only [result_ok] at h
  obtain ⟨acc, h1, h2, rfl⟩ := h
  exact ⟨acc, h1, h2, rfl⟩

theorem Valid.built (h : p.Valid) : p.challengeOrder.Built := by
  obtain ⟨runs, order, hb, h⟩ := h
  obtain ⟨acc, -, -, rfl⟩ := new_ok h
  exact hb

theorem Valid.checked (h : p.Valid) : ∀ r ∈ p.runs, r.Checked 𝔭 := by
  obtain ⟨runs, order, -, h⟩ := h
  obtain ⟨acc, h1, -, rfl⟩ := new_ok h
  exact (counts_of_pushes runs _ acc h1).1

theorem Valid.length_lt (h : p.Valid) : p.runs.length < 2 ^ 32 := by
  obtain ⟨runs, order, -, h⟩ := h
  obtain ⟨acc, h1, -, rfl⟩ := new_ok h
  obtain ⟨-, hcount, hlt⟩ := counts_of_pushes runs _ acc h1
  have h0 := hlt (by simp [GrindingPlanAccumulator.new])
  simp only [GrindingPlanAccumulator.new, zero_add] at hcount
  exact hcount ▸ h0

end GrindingPlan

/-! ## Canonical bytes -/

theorem pushU32_prefixFreeOn : PrefixFreeOn pushU32 Set.univ :=
  (leBytes_prefixFreeOn 4).comap (fun v _ => v.toNat_lt) fun _ _ _ _ h => UInt32.toNat_inj.1 h

theorem u64Bytes_prefixFreeOn : PrefixFreeOn (fun v : UInt64 => leBytes 8 v.toNat) Set.univ :=
  (leBytes_prefixFreeOn 8).comap (fun v _ => v.toNat_lt) fun _ _ _ _ h => UInt64.toNat_inj.1 h

namespace GrindingSite

def tag : GrindingSite → UInt8
  | .evaluationBatch _ => 0
  | .extensionOpeningPoint _ => 1
  | .extensionOpeningClaimBatch _ => 2
  | .sumcheckRound _ _ _ _ => 3
  | .foldResponse _ => 4
  | .foldChallengeGroup _ _ => 5
  | .ringSwitchAlpha _ => 6
  | .tau0Point _ => 7
  | .tau1Point _ => 8
  | .stage1InterstageBatch _ _ => 9
  | .l2SubclaimBatch _ => 10
  | .l2NormMerge _ => 11
  | .l2VirtualBatch _ => 12
  | .compressionBinary _ => 13
  | .stage2Batch _ => 14
  | .foldChallengeWork _ => 15
  | .setupBatch _ => 16

/-- The coordinates of a site, in the order they are written. -/
def words : GrindingSite → List UInt32
  | .sumcheckRound protocol level stage round => [protocol.tag, level, stage, round]
  | .foldChallengeGroup level group => [level, group]
  | .stage1InterstageBatch level stage => [level, stage]
  | .evaluationBatch level | .extensionOpeningPoint level | .extensionOpeningClaimBatch level
  | .foldResponse level | .ringSwitchAlpha level | .tau0Point level | .tau1Point level
  | .l2SubclaimBatch level | .l2NormMerge level | .l2VirtualBatch level | .compressionBinary level
  | .stage2Batch level | .foldChallengeWork level | .setupBatch level => [level]

def ofWords (tag : UInt8) (words : List UInt32) : Option GrindingSite :=
  match tag.toNat, words with
  | 0, [level] => some (.evaluationBatch level)
  | 1, [level] => some (.extensionOpeningPoint level)
  | 2, [level] => some (.extensionOpeningClaimBatch level)
  | 3, [protocol, level, stage, round] =>
    (SumcheckProtocol.fromTag protocol).map fun p => .sumcheckRound p level stage round
  | 4, [level] => some (.foldResponse level)
  | 5, [level, group] => some (.foldChallengeGroup level group)
  | 6, [level] => some (.ringSwitchAlpha level)
  | 7, [level] => some (.tau0Point level)
  | 8, [level] => some (.tau1Point level)
  | 9, [level, stage] => some (.stage1InterstageBatch level stage)
  | 10, [level] => some (.l2SubclaimBatch level)
  | 11, [level] => some (.l2NormMerge level)
  | 12, [level] => some (.l2VirtualBatch level)
  | 13, [level] => some (.compressionBinary level)
  | 14, [level] => some (.stage2Batch level)
  | 15, [level] => some (.foldChallengeWork level)
  | 16, [level] => some (.setupBatch level)
  | _, _ => none

/-- How many coordinates follow a tag. -/
def arity (tag : UInt8) : ℕ := if tag = 3 then 4 else if tag = 5 ∨ tag = 9 then 2 else 1

theorem ofWords_words (s : GrindingSite) : ofWords s.tag s.words = some s := by
  cases s with
  | sumcheckRound protocol level stage round => cases protocol <;> rfl
  | _ => rfl

theorem words_length (s : GrindingSite) : s.words.length = arity s.tag := by
  cases s <;> rfl

theorem canonicalBytes_eq (s : GrindingSite) : s.canonicalBytes = s.tag :: s.words.flatMap pushU32 := by
  cases s <;> simp [canonicalBytes, tag, words]

/-- A tag says how many words follow it, so sites are prefix-free. -/
theorem canonicalBytes_prefixFreeOn : PrefixFreeOn canonicalBytes Set.univ := by
  intro s _ t _ r r' h
  rw [canonicalBytes_eq, canonicalBytes_eq, cons_append, cons_append, List.cons.injEq] at h
  obtain ⟨htag, h⟩ := h
  have hlen : s.words.length = t.words.length := by rw [words_length, words_length, htag]
  obtain ⟨hwords, hrest⟩ := (pushU32_prefixFreeOn.flatMap t.words.length) s.words
    ⟨hlen, fun _ _ => Set.mem_univ _⟩ t.words ⟨rfl, fun _ _ => Set.mem_univ _⟩ r r' h
  have hs := ofWords_words s
  rw [htag, hwords, ofWords_words] at hs
  exact ⟨(Option.some.inj hs).symm, hrest⟩

end GrindingSite

/-- A run ends where its site says: only a fold's proof of work carries a further word. -/
theorem GrindingRun.canonicalBytes_prefixFreeOn : PrefixFreeOn GrindingRun.canonicalBytes {r | r.Checked 𝔭} := by
  rintro r hr t ht x y h
  simp only [GrindingRun.canonicalBytes, append_assoc, cons_append, nil_append] at h
  obtain ⟨hsite, h⟩ := GrindingSite.canonicalBytes_prefixFreeOn _ trivial _ trivial _ _ h
  obtain ⟨hloss, h⟩ := u64Bytes_prefixFreeOn _ trivial _ trivial _ _ h
  obtain ⟨hgrind, h⟩ := List.cons.inj h
  obtain ⟨hnonce, h⟩ := List.cons.inj h
  obtain ⟨hmult, h⟩ := u64Bytes_prefixFreeOn _ trivial _ trivial _ _ h
  have hkind : r.kind = t.kind := by rw [GrindingRun.kind, GrindingRun.kind, hsite]
  have hset : r.challengeSetBits = t.challengeSetBits ∧ x = y := by
    by_cases hw : t.kind = .foldChallengeWork
    · rw [if_pos (hkind.trans hw), if_pos hw] at h
      exact pushU32_prefixFreeOn _ trivial _ trivial _ _ h
    · rw [if_neg (hkind ▸ hw), if_neg hw] at h
      have h1 : r.challengeSetBits = 0 := not_not.1 (mt hr.setBits.2 (hkind ▸ hw))
      have h2 : t.challengeSetBits = 0 := not_not.1 (mt ht.setBits.2 hw)
      exact ⟨h1.trans h2.symm, by simpa using h⟩
  obtain ⟨s1, l1, g1, n1, m1, c1⟩ := r
  obtain ⟨s2, l2, g2, n2, m2, c2⟩ := t
  obtain ⟨hset, hxy⟩ := hset
  subst hsite hloss hgrind hnonce hmult hset
  exact ⟨rfl, hxy⟩

namespace ChallengeFieldOrder

theorem Built.cases {o : ChallengeFieldOrder 𝔭} (h : o.Built) :
    (o.extensionDegree ≠ 0 ∧ (∃ bits : UInt32, o.nominalCapacityBits.toNat = bits.toNat * o.extensionDegree.toNat) ∧
      𝔭.fieldOrder o.fieldModulus o.extensionDegree = .ok o.setSize) ∨
    (o.extensionDegree = 0 ∧ o.fieldModulus = 0 ∧ o.setSize = 𝔭.powerOfTwo o.nominalCapacityBits) := by
  rcases h with ⟨bits, deg, modulus, h⟩ | ⟨cap, h⟩
  · left
    unfold fromField at h
    simp only [result_ok, mapErr_eq_ok, checked_some] at h
    obtain ⟨-, hdeg, hpow, _, ⟨hcap, rfl⟩, size, hsize, rfl⟩ := h
    have hd : (UInt32.ofNat deg).toNat = deg := by rw [UInt32.toNat_ofNat', Nat.mod_eq_of_lt hdeg]
    have h0 : deg ≠ 0 := by
      rintro rfl
      simp at hpow
    refine ⟨?_, ⟨bits, ?_⟩, hsize⟩
    · intro hz
      exact h0 (hd.symm.trans (congrArg UInt32.toNat hz))
    · rw [hd, UInt32.toNat_ofNat', Nat.mod_eq_of_lt hcap]
  · right
    unfold fromFullCapacity at h
    simp only [result_ok] at h
    obtain ⟨-, rfl⟩ := h
    exact ⟨rfl, rfl, rfl⟩

/-- An order is the tag of its constructor and that constructor's own arguments. -/
theorem canonicalBytes_prefixFreeOn : PrefixFreeOn (canonicalBytes : ChallengeFieldOrder 𝔭 → _) {o | o.Built} := by
  rintro ⟨cap, modulus, deg, size⟩ ha ⟨cap', modulus', deg', size'⟩ hb x y h
  rcases Built.cases ha with ⟨hd, ⟨bits, hcap⟩, hsize⟩ | ⟨hd, hm, hsize⟩ <;>
  rcases Built.cases hb with ⟨hd', ⟨bits', hcap'⟩, hsize'⟩ | ⟨hd', hm', hsize'⟩ <;>
  simp only at hd hd' hsize hsize'
  · simp only [canonicalBytes, ne_eq, hd, hd', not_false_eq_true, if_true, append_assoc] at h
    obtain ⟨-, h⟩ := append_inj h rfl
    obtain ⟨hq, h⟩ := pushU32_prefixFreeOn _ trivial _ trivial _ _ h
    obtain ⟨rfl, h'⟩ := pushU32_prefixFreeOn _ trivial _ trivial _ _ h
    obtain ⟨hmod, hrest⟩ := leBytes_prefixFreeOn 16 _ modulus.isLt _ modulus'.isLt _ _ h'
    obtain rfl := BitVec.eq_of_toNat_eq hmod
    obtain rfl : size = size' := Except.ok.inj (hsize.symm.trans hsize')
    -- the capacity is a multiple of the degree, so the quotient gives it back
    have hpos : 0 < deg.toNat := pos_of_ne_zero fun h0 => hd (UInt32.toNat_inj.1 h0)
    have hbits := congrArg UInt32.toNat hq
    rw [UInt32.toNat_div, UInt32.toNat_div, hcap, hcap', Nat.mul_div_cancel _ hpos, Nat.mul_div_cancel _ hpos] at hbits
    obtain rfl : cap = cap' := UInt32.toNat_inj.1 (by rw [hcap, hcap', hbits])
    exact ⟨rfl, hrest⟩
  · simp [canonicalBytes, hd, hd'] at h
  · simp [canonicalBytes, hd, hd'] at h
  · simp only at hm hm'
    subst hd hd' hm hm'
    simp only [canonicalBytes, ne_eq, not_true_eq_false, if_false, append_assoc] at h
    obtain ⟨-, h⟩ := append_inj h rfl
    obtain ⟨rfl, hrest⟩ := pushU32_prefixFreeOn _ trivial _ trivial _ _ h
    exact ⟨by rw [hsize, hsize'], hrest⟩

end ChallengeFieldOrder

namespace GrindingPlan

theorem Valid.canonicalBytes_eq {p : GrindingPlan 𝔭} (h : p.Valid) :
    p.canonicalBytes = .ok (grindingPlanDomain ++ activeGrindingPolicyBytes ++ p.challengeOrder.canonicalBytes ++
      leBytes 4 p.runs.length ++ p.runs.flatMap GrindingRun.canonicalBytes) := by
  simp only [canonicalBytes, ensure, if_pos h.length_lt]
  rfl

/-- **The canonical bytes identify the plan.** A validated plan has canonical bytes, and two
validated plans with the same ones have the same challenge order and the same runs. -/
theorem canonicalBytes_identify (p q : GrindingPlan 𝔭) (hp : p.Valid) (hq : q.Valid)
    (h : p.canonicalBytes = q.canonicalBytes) : p.challengeOrder = q.challengeOrder ∧ p.runs = q.runs := by
  rw [hp.canonicalBytes_eq, hq.canonicalBytes_eq, Except.ok.injEq] at h
  simp only [append_assoc] at h
  replace h := append_cancel_left (append_cancel_left h)
  obtain ⟨horder, h⟩ := ChallengeFieldOrder.canonicalBytes_prefixFreeOn _ hp.built _ hq.built _ _ h
  obtain ⟨hlen, h⟩ := leBytes_prefixFreeOn 4 _ hp.length_lt _ hq.length_lt _ _ h
  have hruns := (GrindingRun.canonicalBytes_prefixFreeOn (𝔭 := 𝔭)).flatMap q.runs.length
    p.runs ⟨hlen, hp.checked⟩ q.runs ⟨rfl, hq.checked⟩ [] [] (by simpa using h)
  exact ⟨horder, hruns.1⟩

/-- The least target `b` with `loss / (size * 2 ^ b) ≤ 2 ^ -security`, over plain numbers. -/
def samplePricing : Pricing where
  SetSize := ℕ
  fieldOrder modulus degree := .ok (modulus.toNat ^ degree.toNat)
  powerOfTwo bits := 2 ^ bits.toNat
  grindBitsForLoss loss size security :=
    let excess := (loss.toNat * 2 ^ security.toNat - 1) / size
    .ok (if excess = 0 then 0 else UInt32.ofNat (excess.log2 + 1))

/-- A fold response, its work and its challenges, and one sumcheck round. -/
def sampleRuns : List GrindingRun := [GrindingRun.foldResponse 0,
    { site := .foldChallengeWork 0, lossFactor := 4, grindBits := 2, nonceBits := 9, multiplicity := 1,
      challengeSetBits := 128 },
    { site := .foldChallengeGroup 0 0, lossFactor := 0, grindBits := 0, nonceBits := 0, multiplicity := 5,
      challengeSetBits := 0 },
    { site := .sumcheckRound .stage2 0 0 0, lossFactor := 2, grindBits := 1, nonceBits := 8, multiplicity := 1,
      challengeSetBits := 0 }]

def sampleOrder : ChallengeFieldOrder samplePricing :=
  { nominalCapacityBits := 128, fieldModulus := 0, extensionDegree := 0, setSize := (2 ^ 128 : ℕ) }

def samplePlan : GrindingPlan samplePricing :=
  { runs := sampleRuns, challengeOrder := sampleOrder, totalNonceBits := 29, nonceMaxBytes := 6,
    expandedQueryCount := 8 }

theorem samplePlan_valid : samplePlan.Valid := ⟨sampleRuns, sampleOrder, Or.inr ⟨128, rfl⟩, rfl⟩

theorem canonicalBytes_identify_sample :
    samplePlan.challengeOrder = samplePlan.challengeOrder ∧ samplePlan.runs = samplePlan.runs :=
  canonicalBytes_identify samplePlan samplePlan samplePlan_valid samplePlan_valid rfl

end GrindingPlan

end Akita.Grinding
