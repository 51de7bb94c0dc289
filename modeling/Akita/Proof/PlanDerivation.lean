import Akita.Spec.PlanDerivation
import Akita.Proof.Grinding

/-!
# Planner pricing agrees with the derived plan

The plan's sink lists runs, the planner's sink counts them. Every counting sink summarises
the listing one, so each planner edge costs what the runs of its level cost, and the edges
together cost what the plan counts.
-/

namespace Akita.Grinding

open Lib List GrindingPlanSink GrindingRun GrindingPlanAccumulator SumcheckRoundBatch
open UInt32 (ofNat toNat_ofNat')

variable {𝔭 : Pricing} {acc acc' : GrindingPlanAccumulator 𝔭} {level : UInt32} {work : GrindingRun}
  {l l' groups : List GrindingRun} {u : Unit} {fold : FoldChallengeCost 𝔭} {r : GrindingRun} {params : CommittedGroupParams}
  {layout : OpeningClaimsLayout}

/-! ## Counting runs one by one -/

namespace GrindingRun

def totalBits (r : GrindingRun) : ℕ := r.nonceBits.toNat * r.multiplicity.toNat

def totalBytes (r : GrindingRun) : ℕ := Transcript.nonceMaxBytes r.nonceBits.toNat * r.multiplicity.toNat

def shape (r : GrindingRun) : UInt8 × UInt64 := (r.nonceBits, r.multiplicity)

end GrindingRun

namespace GrindingPlanAccumulator

variable {run : GrindingRun} {n : UInt32}

/-- The counts after more runs. -/
def plus (acc : GrindingPlanAccumulator 𝔭) (runs : List GrindingRun) : GrindingPlanAccumulator 𝔭 :=
  { acc with
    runCount := acc.runCount + runs.length
    totalNonceBits := acc.totalNonceBits + (runs.map totalBits).sum
    nonceMaxBytes := acc.nonceMaxBytes + (runs.map totalBytes).sum
    expandedQueryCount := acc.expandedQueryCount + (runs.map fun r => r.multiplicity.toNat).sum }

/-- The counts fit their widths. -/
def Fits (acc : GrindingPlanAccumulator 𝔭) : Prop :=
  acc.runCount < 2 ^ 32 ∧ acc.totalNonceBits < 2 ^ 64 ∧ acc.nonceMaxBytes < 2 ^ 64 ∧ acc.expandedQueryCount < 2 ^ 64

@[simp] theorem plus_nil (acc : GrindingPlanAccumulator 𝔭) : acc.plus [] = acc := by
  simp [plus]

theorem plus_append (acc : GrindingPlanAccumulator 𝔭) (l l' : List GrindingRun) :
    acc.plus (l ++ l') = (acc.plus l).plus l' := by
  simp [plus, add_assoc]

theorem plus_congr {runs runs' : List GrindingRun} (h : runs'.map shape = runs.map shape) :
    acc.plus runs' = acc.plus runs := by
  have hmap : ∀ f : UInt8 × UInt64 → ℕ, runs'.map (fun r => f r.shape) = runs.map fun r => f r.shape := by
    intro f
    have := congrArg (map f) h
    simpa only [map_map, Function.comp_def] using this
  have hlen : runs'.length = runs.length := by simpa using congrArg length h
  have hbits := hmap fun s => s.1.toNat * s.2.toNat
  have hbytes := hmap fun s => Transcript.nonceMaxBytes s.1.toNat * s.2.toNat
  have hqueries := hmap fun s => s.2.toNat
  simp only [shape] at hbits hbytes hqueries
  simp only [plus, hlen]
  unfold totalBits totalBytes
  rw [hbits, hbytes, hqueries]

theorem Fits.of_append {m : List GrindingRun} (h : (acc.plus (l ++ m)).Fits) : (acc.plus l).Fits := by
  rw [plus_append] at h
  obtain ⟨h1, h2, h3, h4⟩ := h
  simp only [plus] at h1 h2 h3 h4 ⊢
  exact ⟨by simp only; omega, by simp only; omega, by simp only; omega, by simp only; omega⟩

/-- A sublist of runs, counted from zero, fits where the whole list fits. -/
theorem Fits.of_part (order : ChallengeFieldOrder 𝔭) (h : (acc.plus (l ++ l')).Fits) : ((new order).plus l').Fits := by
  rw [plus_append] at h
  obtain ⟨h1, h2, h3, h4⟩ := h
  simp only [plus, new] at h1 h2 h3 h4 ⊢
  exact ⟨by simp only; omega, by simp only; omega, by simp only; omega, by simp only; omega⟩

/-- Counting a run so many times is counting so many copies. -/
theorem countRepeated_ok (hn : 0 < n.toNat) : acc.countRepeated run n = .ok acc' ↔
      run.Checked 𝔭 ∧ acc' = acc.plus (replicate n.toNat run) ∧ acc'.Fits := by
  constructor
  · intro h
    have hc := counts_of_countRepeated h
    refine ⟨hc.checked, ?_, hc.runCount_lt, hc.totalNonceBits_lt, hc.nonceMaxBytes_lt, hc.expandedQueryCount_lt⟩
    obtain ⟨o, rc, nb, mb, qc⟩ := acc'
    obtain ⟨-, ho, h1, -, h2, -, h3, -, h4, -⟩ := hc
    subst ho h1 h2 h3 h4
    simp [plus, totalBits, totalBytes, mul_comm n.toNat]
  · rintro ⟨hc, rfl, h1, h2, h3, h4⟩
    apply countRepeated_of_counts hn
    refine ⟨hc, rfl, ?_, h1, ?_, h2, ?_, h3, ?_, h4⟩ <;>
      simp [plus, totalBits, totalBytes, mul_comm n.toNat]

/-- `PlannerEdgeSink::push`. -/
def count (acc : GrindingPlanAccumulator 𝔭) (run : GrindingRun) : Result (GrindingPlanAccumulator 𝔭) :=
  acc.countRepeated run 1

theorem count_ok : acc.count run = .ok acc' ↔ run.Checked 𝔭 ∧ acc' = acc.plus [run] ∧ acc'.Fits :=
  countRepeated_ok (by decide)

/-- **Counting a list of runs**: all are validated, and the sums fit. -/
theorem counts_ok {runs : List GrindingRun} : runs.foldlM count acc = .ok acc' ↔
      (∀ r ∈ runs, r.Checked 𝔭) ∧ acc' = acc.plus runs ∧ (runs ≠ [] → acc'.Fits) := by
  induction runs generalizing acc with
  | nil =>
    rw [foldlM_nil, pure_eq_ok]
    simp [eq_comm]
  | cons r runs ih =>
    rw [foldlM_cons, bind_eq_ok]
    simp only [count_ok, ih]
    have happ : acc.plus (r :: runs) = (acc.plus [r]).plus runs := plus_append acc [r] runs
    constructor
    · rintro ⟨_, ⟨hr, rfl, hfit⟩, hall, rfl, hfits⟩
      refine ⟨by simpa [hr] using hall, happ.symm, fun _ => ?_⟩
      by_cases h0 : runs = []
      · simpa [h0] using hfit
      · exact hfits h0
    · rintro ⟨hall, rfl, hfits⟩
      have hfits := hfits (by simp)
      refine ⟨_, ⟨hall r (by simp), rfl, ?_⟩, fun x hx => hall x (by simp [hx]), happ, fun _ => hfits⟩
      exact Fits.of_append (l := [r]) (m := runs) hfits

theorem push_ok : acc.pushRepeated run n = .ok acc' ↔
      (run.kind = .proofOfWork → acc.challengeOrder.grindBits run.lossFactor = .ok run.grindBits) ∧
        acc.countRepeated run n = .ok acc' := by
  unfold pushRepeated
  by_cases hk : run.kind = .proofOfWork
  · simp only [hk, if_true, result_ok, true_implies]
    constructor
    · rintro ⟨bits, hbits, hrun, h⟩
      exact ⟨hrun ▸ hbits, h⟩
    · rintro ⟨hbits, h⟩
      exact ⟨_, hbits, rfl, h⟩
  · simp [hk]

theorem pushes_ok {runs : List GrindingRun} : runs.foldlM push acc = .ok acc' ↔
      (∀ r ∈ runs, r.kind = .proofOfWork → acc.challengeOrder.grindBits r.lossFactor = .ok r.grindBits) ∧
        runs.foldlM count acc = .ok acc' := by
  induction runs generalizing acc with
  | nil => simp
  | cons r runs ih =>
    simp only [foldlM_cons, bind_eq_ok, push, push_ok, ih, forall_mem_cons]
    constructor
    · rintro ⟨mid, ⟨hr, hcount⟩, hall, hrest⟩
      have horder : mid.challengeOrder = acc.challengeOrder := (counts_of_countRepeated hcount).order
      exact ⟨⟨hr, horder ▸ hall⟩, mid, hcount, hrest⟩
    · rintro ⟨⟨hr, hall⟩, mid, hcount, hrest⟩
      have horder : mid.challengeOrder = acc.challengeOrder := (counts_of_countRepeated hcount).order
      exact ⟨mid, ⟨hr, hcount⟩, horder ▸ hall, hrest⟩

theorem add_plus (order : ChallengeFieldOrder 𝔭) {runs runs' : List GrindingRun}
    (hshape : runs'.map shape = runs.map shape) (h : (acc.plus runs).Fits) :
    acc.add ((new order).plus runs') = .ok (acc.plus runs) := by
  rw [plus_congr hshape, add, addCounts_ok]
  obtain ⟨h1, h2, h3, h4⟩ := h
  simp only [plus, new, zero_add]
  exact ⟨h1, h2, h3, h4, trivial⟩

end GrindingPlanAccumulator

/-! ## A sumcheck's rounds, batched and one by one -/

theorem usizeToU32_ok {n : ℕ} {name : String} {v : UInt32} :
    usizeToU32 n name = .ok v ↔ n < 2 ^ 32 ∧ v = ofNat n := by
  unfold usizeToU32
  split <;> simp_all [eq_comm]

theorem onCounts_ok {f : GrindingPlanAccumulator 𝔭 → Result (GrindingPlanAccumulator 𝔭)} :
    onCounts f acc = .ok (u, acc') ↔ f acc = .ok acc' := by
  have hget : (get : SinkM (GrindingPlanAccumulator 𝔭) _) acc = .ok (acc, acc) := rfl
  have hset : ∀ a : GrindingPlanAccumulator 𝔭, (set a : SinkM _ PUnit) acc = .ok ((), a) := fun _ => rfl
  unfold onCounts
  simp only [stateT_bind_ok, hget, Except.ok.injEq, Prod.mk.injEq, stateT_lift_ok]
  constructor
  · rintro ⟨_, _, ⟨rfl, rfl⟩, a, _, ⟨hf, rfl⟩, h⟩
    obtain rfl : a = acc' := by simpa [hset] using h
    exact hf
  · intro hf
    exact ⟨_, _, ⟨rfl, rfl⟩, acc', _, ⟨hf, rfl⟩, hset acc'⟩

namespace SumcheckRoundBatch

variable {i j : ℕ} {u : Unit}

/-- The run of one round, with the target and the width of another. -/
def runOf (b : SumcheckRoundBatch 𝔭) (rep : GrindingRun) (round : ℕ) : GrindingRun :=
  { rep with site := .sumcheckRound b.protocol b.level b.stage (ofNat round) }

variable {b : SumcheckRoundBatch 𝔭} {rep run : GrindingRun}

theorem runAt_ok : b.runAt rep i = .ok run ↔ i < 2 ^ 32 ∧ run = b.runOf rep i := by
  unfold runAt
  simp only [result_ok, usizeToU32_ok]
  constructor
  · rintro ⟨_, ⟨hi, rfl⟩, rfl⟩
    exact ⟨hi, rfl⟩
  · rintro ⟨hi, rfl⟩
    exact ⟨_, ⟨hi, rfl⟩, rfl⟩

theorem roundRun_ok (h : b.roundRun j = .ok rep) : b.roundRun i = .ok run ↔ b.runAt rep i = .ok run := by
  rw [runAt_ok]
  unfold roundRun proofOfWork at h ⊢
  simp only [result_ok, usizeToU32_ok] at h ⊢
  obtain ⟨_, ⟨hj, rfl⟩, loss, hloss, hkind, bits, hbits, nonce, hnonce, rfl⟩ := h
  constructor
  · rintro ⟨_, ⟨hi, rfl⟩, loss', hloss', -, bits', hbits', nonce', hnonce', rfl⟩
    obtain rfl : loss = loss' := Except.ok.inj (hloss.symm.trans hloss')
    obtain rfl : bits = bits' := Except.ok.inj (hbits.symm.trans hbits')
    obtain rfl : nonce = nonce' := Except.ok.inj (hnonce.symm.trans hnonce')
    exact ⟨hi, rfl⟩
  · rintro ⟨hi, rfl⟩
    exact ⟨_, ⟨hi, rfl⟩, loss, hloss, rfl, bits, hbits, nonce, hnonce, rfl⟩

theorem roundRun_kind (h : b.roundRun j = .ok rep) : rep = b.runOf rep j := by
  have hself := (roundRun_ok h).1 h
  exact (runAt_ok.1 hself).2

theorem representative_ok {o : Option GrindingRun} :
    b.representative = .ok o ↔
      (b.rounds = 0 ∧ o = none) ∨ (0 < b.rounds ∧ ∃ rep, b.roundRun (b.rounds - 1) = .ok rep ∧ o = some rep) := by
  unfold representative
  by_cases h0 : b.rounds = 0
  · simp [h0, checkedSub, eq_comm]
  · have h1 : checkedSub b.rounds 1 = some (b.rounds - 1) := checkedSub_eq_some.2 ⟨by omega, rfl⟩
    simp only [h1, result_ok, h0, false_and, false_or, pos_of_ne_zero h0, true_and]
    simp only [eq_comm]

def runs (b : SumcheckRoundBatch 𝔭) (rep : GrindingRun) : List GrindingRun := (List.range b.rounds).map (b.runOf rep)

theorem runs_shape (b : SumcheckRoundBatch 𝔭) (rep : GrindingRun) :
    (replicate b.rounds rep).map shape = (b.runs rep).map shape := by
  rw [runs, map_map, map_replicate, ← length_range (n := b.rounds), map_const'.symm]
  simp [Function.comp_def, shape, runOf]

theorem rounds_le (h : b.roundRun j = .ok rep) : j < 2 ^ 32 :=
  (runAt_ok.1 ((roundRun_ok h).1 h)).1

theorem runAt_of_lt (h : b.roundRun j = .ok rep) (hi : i ≤ j) : b.runAt rep i = .ok (b.runOf rep i) :=
  runAt_ok.2 ⟨lt_of_le_of_lt hi (rounds_le h), rfl⟩

theorem mapM_runAt (h : b.roundRun (b.rounds - 1) = .ok rep) :
    (range b.rounds).mapM (b.runAt rep) = .ok (b.runs rep) := by
  refine mapM_ok_of_forall fun i hi => ?_
  have hlt := mem_range.1 hi
  exact runAt_of_lt h (by omega)

theorem appendSumcheck_ok {σ : Type} {sink : GrindingPlanSink 𝔭 σ} {s t : σ} :
    appendSumcheck sink b s = .ok (u, t) ↔ (b.rounds = 0 ∧ s = t) ∨
      (0 < b.rounds ∧ ∃ rep, b.roundRun (b.rounds - 1) = .ok rep ∧ (b.runs rep).forM sink.push s = .ok (u, t)) := by
  have hloop : appendSumcheck sink b = (range b.rounds).forM fun round =>
    (liftM (b.roundRun round) : SinkM σ GrindingRun) >>= sink.push := rfl
  rw [hloop, forM_lift_ok]
  by_cases h0 : b.rounds = 0
  · have hnil : (range 0).mapM b.roundRun = .ok [] := rfl
    have hpure : ([] : List GrindingRun).forM sink.push s = .ok (u, t) ↔ s = t := by
      have h : ([] : List GrindingRun).forM sink.push s = .ok ((), s) := rfl
      simp [h]
    simp only [h0, hnil, Except.ok.injEq, exists_eq_left', hpure, true_and, lt_irrefl, false_and, or_false]
  · have hpos : 0 < b.rounds := pos_of_ne_zero h0
    have hall : ∀ rep, b.roundRun (b.rounds - 1) = .ok rep →
        (range b.rounds).mapM b.roundRun = .ok (b.runs rep) := by
      intro rep hrep
      refine mapM_ok_of_forall fun i hi => ?_
      rw [roundRun_ok hrep]
      have hlt := mem_range.1 hi
      exact runAt_of_lt hrep (by omega)
    simp only [h0, false_and, false_or, hpos, true_and]
    constructor
    · rintro ⟨events, hevents, hpush⟩
      have hlast : b.rounds - 1 ∈ range b.rounds := mem_range.2 (by omega)
      obtain ⟨rep, -, hrep⟩ := mem_of_mapM_ok hevents hlast
      obtain rfl : b.runs rep = events := Except.ok.inj ((hall rep hrep).symm.trans hevents)
      exact ⟨rep, hrep, hpush⟩
    · rintro ⟨rep, hrep, hpush⟩
      exact ⟨_, hall rep hrep, hpush⟩

theorem defaultSumcheckRounds_ok {σ : Type} (sink : GrindingPlanSink 𝔭 σ) {s t : σ} :
    defaultSumcheckRounds sink.push b s = .ok (u, t) ↔ appendSumcheck sink b s = .ok (u, t) := by
  rw [appendSumcheck_ok]
  unfold defaultSumcheckRounds
  rw [stateT_bind_ok]
  simp only [stateT_lift_ok, representative_ok]
  constructor
  · rintro ⟨o, _, ⟨⟨h0, rfl⟩ | ⟨hpos, rep, hrep, rfl⟩, rfl⟩, h⟩
    · exact Or.inl ⟨h0, (stateT_pure_ok.1 h).2⟩
    · refine Or.inr ⟨hpos, rep, hrep, ?_⟩
      obtain ⟨events, hevents, hpush⟩ := (forM_lift_ok _).1 h
      obtain rfl : b.runs rep = events := Except.ok.inj ((mapM_runAt hrep).symm.trans hevents)
      exact hpush
  · rintro (⟨h0, rfl⟩ | ⟨hpos, rep, hrep, h⟩)
    · exact ⟨none, s, ⟨Or.inl ⟨h0, rfl⟩, rfl⟩, stateT_pure_ok.2 ⟨rfl, rfl⟩⟩
    · refine ⟨some rep, s, ⟨Or.inr ⟨hpos, rep, hrep, rfl⟩, rfl⟩, ?_⟩
      exact (forM_lift_ok _).2 ⟨_, mapM_runAt hrep, h⟩

section

variable (hrep : b.roundRun (b.rounds - 1) = .ok rep) (hpos : 0 < b.rounds)

include hrep hpos

/-- With the last round validated every round is: no other coordinate changes, and only the last round
of a full `u32` could be the reserved one. -/
theorem checked_runs (hlt : b.rounds < 2 ^ 32) :
    (∀ r ∈ b.runs rep, r.Checked 𝔭) ↔ rep.Checked 𝔭 := by
  have hself := roundRun_kind hrep
  constructor
  · intro h
    apply h rep
    rw [runs, mem_map]
    exact ⟨b.rounds - 1, mem_range.2 (by omega), hself.symm⟩
  · intro h r hr
    rw [runs, mem_map] at hr
    obtain ⟨i, hi, rfl⟩ := hr
    have hi := mem_range.1 hi
    have hkind : rep.kind = .proofOfWork := by rw [hself]; rfl
    have hsite : rep.site.validate = .ok () := h.site
    have hround : (ofNat i == GrindingSite.sentinel) = false := by
      rw [beq_eq_false_iff_ne]
      intro heq
      have := congrArg UInt32.toNat heq
      rw [toNat_ofNat', Nat.mod_eq_of_lt (by omega)] at this
      simp only [GrindingSite.sentinel] at this
      have hs : (0xffffffff : UInt32).toNat = 2 ^ 32 - 1 := rfl
      omega
    rw [hself] at hsite
    simp only [runOf, GrindingSite.validate, ensure_eq_ok, Bool.not_eq_true', Bool.or_eq_false_iff] at hsite
    refine ⟨?_, ?_, ?_, ?_, ?_, ?_⟩
    · simp [runOf, GrindingSite.validate, ensure_eq_ok, hround, hsite]
    · have := h.setBits
      rw [hkind] at this
      simpa [runOf, GrindingRun.kind, GrindingSite.kind] using this
    · intro _
      exact h.work (Or.inl hkind)
    · intro hk
      cases hk
    · intro hk
      cases hk
    · intro hk
      cases hk

/-- **Counting a batch** is counting its rounds one by one. -/
theorem counts_runs :
    (b.runs rep).foldlM GrindingPlanAccumulator.count acc = .ok acc' ↔
      b.rounds < 2 ^ 32 ∧ acc.countRepeated rep (ofNat b.rounds) = .ok acc' := by
  have hne : b.runs rep ≠ [] := by
    intro h
    have := congrArg length h
    simp only [runs, length_map, length_range, length_nil] at this
    omega
  rw [counts_ok]
  constructor
  · rintro ⟨hall, rfl, hfits⟩
    have hfits := hfits hne
    have hlt : b.rounds < 2 ^ 32 := by
      have h := hfits.1
      simp only [GrindingPlanAccumulator.plus, runs, length_map, length_range] at h
      omega
    have hn : (ofNat b.rounds).toNat = b.rounds := by rw [toNat_ofNat', Nat.mod_eq_of_lt hlt]
    refine ⟨hlt, (countRepeated_ok (by omega)).2 ⟨?_, ?_, hfits⟩⟩
    · exact (checked_runs hrep hpos hlt).1 hall
    · rw [hn]
      exact (plus_congr (b.runs_shape rep)).symm
  · rintro ⟨hlt, hcount⟩
    have hn : (ofNat b.rounds).toNat = b.rounds := by rw [toNat_ofNat', Nat.mod_eq_of_lt hlt]
    obtain ⟨hc, rfl, hfits⟩ := (countRepeated_ok (by omega)).1 hcount
    refine ⟨(checked_runs hrep hpos hlt).2 hc, ?_, fun _ => hfits⟩
    rw [hn]
    exact plus_congr (b.runs_shape rep)

/-- **Pushing a batch** is pushing its rounds one by one: they have one target. -/
theorem pushes_runs :
    (b.runs rep).foldlM GrindingPlanAccumulator.push acc = .ok acc' ↔
      b.rounds < 2 ^ 32 ∧ acc.pushRepeated rep (ofNat b.rounds) = .ok acc' := by
  rw [pushes_ok, counts_runs hrep hpos, push_ok]
  have hkind : rep.kind = .proofOfWork := by rw [roundRun_kind hrep]; rfl
  have htarget : (∀ r ∈ b.runs rep, r.kind = .proofOfWork →
      acc.challengeOrder.grindBits r.lossFactor = .ok r.grindBits) ↔
      (rep.kind = .proofOfWork → acc.challengeOrder.grindBits rep.lossFactor = .ok rep.grindBits) := by
    constructor
    · intro h hk
      have hmem : b.runOf rep 0 ∈ b.runs rep := mem_map.2 ⟨0, mem_range.2 hpos, rfl⟩
      exact h (b.runOf rep 0) hmem rfl
    · intro h r hr _
      obtain ⟨i, -, rfl⟩ := mem_map.1 hr
      exact h hkind
  rw [htarget]
  tauto

end

theorem repeated_ok {o : Option (GrindingRun × UInt32)} :
    b.repeated = .ok o ↔ (b.rounds = 0 ∧ o = none) ∨ (0 < b.rounds ∧ ∃ rep, b.roundRun (b.rounds - 1) = .ok rep ∧
      b.rounds < 2 ^ 32 ∧ o = some (rep, ofNat b.rounds)) := by
  unfold repeated
  simp only [bind_eq_ok, representative_ok]
  constructor
  · rintro ⟨_, ⟨h0, rfl⟩ | ⟨hpos, rep, hrep, rfl⟩, h⟩
    · exact Or.inl ⟨h0, (pure_eq_ok.1 h).symm⟩
    · simp only [result_ok] at h
      exact Or.inr ⟨hpos, rep, hrep, h.1, h.2.symm⟩
  · rintro (⟨h0, rfl⟩ | ⟨hpos, rep, hrep, hlt, rfl⟩)
    · exact ⟨none, Or.inl ⟨h0, rfl⟩, rfl⟩
    · refine ⟨some rep, Or.inr ⟨hpos, rep, hrep, rfl⟩, ?_⟩
      simp only [result_ok]
      exact ⟨hlt, trivial⟩

/-- A sink that counts runs with `count`, and a batch of them with `countBatch`, counts a batch as its rounds. -/
theorem batched_ok {sink : GrindingPlanSink 𝔭 (GrindingPlanAccumulator 𝔭)}
    {count : GrindingPlanAccumulator 𝔭 → GrindingRun → Result (GrindingPlanAccumulator 𝔭)}
    {countBatch : GrindingPlanAccumulator 𝔭 → GrindingRun → UInt32 → Result (GrindingPlanAccumulator 𝔭)}
    (hpush : ∀ r, sink.push r = onCounts fun acc => count acc r) (hbatch : sink.sumcheckRounds b = (do
      match ← (b.repeated : Result _) with
      | none => return ()
      | some (run, repetitions) => onCounts fun acc => countBatch acc run repetitions))
    (hcount : ∀ rep acc acc', b.roundRun (b.rounds - 1) = .ok rep → 0 < b.rounds →
      ((b.runs rep).foldlM count acc = .ok acc' ↔
        b.rounds < 2 ^ 32 ∧ countBatch acc rep (ofNat b.rounds) = .ok acc')) :
    sink.sumcheckRounds b acc = .ok (u, acc') ↔ appendSumcheck sink b acc = .ok (u, acc') := by
  have hfold : ∀ runs : List GrindingRun, runs.forM sink.push acc = .ok (u, acc') ↔
      runs.foldlM count acc = .ok acc' :=
    fun runs => forM_foldlM (fun r s t v => by rw [hpush]; exact onCounts_ok) runs
  rw [appendSumcheck_ok, hbatch, stateT_bind_ok]
  simp only [stateT_lift_ok, repeated_ok, hfold]
  constructor
  · rintro ⟨_, _, ⟨⟨h0, rfl⟩ | ⟨hpos, rep, hrep, hlt, rfl⟩, rfl⟩, h⟩
    · exact Or.inl ⟨h0, (stateT_pure_ok.1 h).2⟩
    · exact Or.inr ⟨hpos, rep, hrep, (hcount rep _ _ hrep hpos).2 ⟨hlt, onCounts_ok.1 h⟩⟩
  · rintro (⟨h0, rfl⟩ | ⟨hpos, rep, hrep, h⟩)
    · exact ⟨none, acc, ⟨Or.inl ⟨h0, rfl⟩, rfl⟩, stateT_pure_ok.2 ⟨rfl, rfl⟩⟩
    · obtain ⟨hlt, h⟩ := (hcount rep _ _ hrep hpos).1 h
      exact ⟨some (rep, ofNat b.rounds), acc, ⟨Or.inr ⟨hpos, rep, hrep, hlt, rfl⟩, rfl⟩, onCounts_ok.2 h⟩

theorem listing_rounds_ok : (listing 𝔭).sumcheckRounds b l = .ok (u, l') ↔
      appendSumcheck (listing 𝔭) b l = .ok (u, l') :=
  defaultSumcheckRounds_ok (listing 𝔭)

theorem accumulator_rounds_ok : (accumulator 𝔭).sumcheckRounds b acc = .ok (u, acc') ↔
      appendSumcheck (accumulator 𝔭) b acc = .ok (u, acc') :=
  batched_ok (fun _ => rfl) rfl fun _ _ _ hrep hpos => pushes_runs hrep hpos

theorem plannerEdge_rounds_ok {terminalFold : Option (FoldChallengeCost 𝔭)} :
    (plannerEdge fold terminalFold).sumcheckRounds b acc = .ok (u, acc') ↔
      appendSumcheck (plannerEdge fold terminalFold) b acc = .ok (u, acc') :=
  batched_ok (fun _ => rfl) rfl fun _ _ _ hrep hpos => counts_runs hrep hpos

end SumcheckRoundBatch

/-! ## The planner's sink summarises the listed runs -/

section

variable {u : Unit}

theorem listing_push_ok : (listing 𝔭).push r l = .ok (u, l') ↔ l' = l ++ [r] := by
  have h : (listing 𝔭).push r l = .ok ((), l ++ [r]) := rfl
  simp [h, eq_comm]

theorem listing_forM_ok {runs : List GrindingRun} :
    runs.forM (listing 𝔭).push l = .ok (u, l') ↔ l' = l ++ runs := by
  induction runs generalizing l with
  | nil =>
    have h : ([] : List GrindingRun).forM (listing 𝔭).push l = .ok ((), l) := rfl
    simp [h, eq_comm]
  | cons r runs ih =>
    have hloop : (r :: runs).forM (listing 𝔭).push =
      (listing 𝔭).push r >>= fun _ => runs.forM (listing 𝔭).push := rfl
    simp only [hloop, stateT_bind_ok, listing_push_ok, ih, exists_eq_left]
    simp

variable (fold : FoldChallengeCost 𝔭) (terminalFold : Option (FoldChallengeCost 𝔭))
  (order : ChallengeFieldOrder 𝔭)

/-- What any sink is sent, the planner's counts as the list has it. -/
abbrev Counted (emit : {σ : Type} → GrindingPlanSink 𝔭 σ → SinkM σ Unit) : Prop :=
  Summarises GrindingPlanAccumulator.count (emit (listing 𝔭)) (emit (plannerEdge fold terminalFold))

theorem summarises_push (r : GrindingRun) : Counted fold terminalFold (·.push r) := by
  intro l u l' h
  refine ⟨[r], listing_push_ok.1 h, fun s t hs => ?_⟩
  have hs : s.count r = .ok t := by simpa using hs
  exact onCounts_ok.2 hs

theorem summarises_sumcheckRounds (b : SumcheckRoundBatch 𝔭) : Counted fold terminalFold (·.sumcheckRounds b) := by
  intro l u l' h
  have h := listing_rounds_ok.1 h
  rcases appendSumcheck_ok.1 h with ⟨h0, rfl⟩ | ⟨hpos, rep, hrep, h⟩
  · refine ⟨[], by simp, fun s t hs => ?_⟩
    have hst : s = t := by rwa [foldlM_nil, pure_eq_ok] at hs
    rw [plannerEdge_rounds_ok, appendSumcheck_ok]
    exact Or.inl ⟨h0, hst⟩
  · refine ⟨b.runs rep, listing_forM_ok.1 h, fun s t hs => ?_⟩
    rw [plannerEdge_rounds_ok, appendSumcheck_ok]
    refine Or.inr ⟨hpos, rep, hrep, ?_⟩
    exact (forM_foldlM (fun r s t v => onCounts_ok) _).2 hs

theorem summarises_pushProofOfWork (site : GrindingSite) (loss : Result UInt64) :
    Counted fold terminalFold (pushProofOfWork · order site loss) :=
  (Summarises.lift loss).bind fun loss =>
    (Summarises.lift (proofOfWork site loss order)).bind fun run => summarises_push fold terminalFold run

theorem summarises_appendClaimBatch (site : GrindingSite) (layout : OpeningClaimsLayout) :
    Counted fold terminalFold (appendClaimBatch · order site layout) :=
  Summarises.ite (summarises_pushProofOfWork fold terminalFold order _ _) (Summarises.pure ())

theorem summarises_appendEor (extensionDegree : ℕ) (level : UInt32) (layout : OpeningClaimsLayout) :
    Counted fold terminalFold (appendEor · order extensionDegree level layout) := by
  refine (Summarises.lift _).bind fun _ => ?_
  refine (summarises_pushProofOfWork fold terminalFold order _ _).bind fun _ => ?_
  refine (summarises_appendClaimBatch fold terminalFold order _ _).bind fun _ => ?_
  exact summarises_sumcheckRounds fold terminalFold _

theorem summarises_appendStage1 (level : UInt32) (stageShape : Stage1StageShape) (stageIndex : ℕ) :
    Counted fold terminalFold (appendStage1 · order level stageShape stageIndex) := by
  refine (Summarises.lift _).bind fun _ => ?_
  refine (Summarises.lift _).bind fun _ => ?_
  refine (summarises_sumcheckRounds fold terminalFold _).bind fun _ => ?_
  exact Summarises.ite (summarises_pushProofOfWork fold terminalFold order _ _) (Summarises.pure ())

theorem summarises_appendNorm (level : UInt32) (norm : PhysicalL2NormShape) :
    Counted fold terminalFold (appendNorm · order level norm) := by
  refine (Summarises.ite (summarises_pushProofOfWork fold terminalFold order _ _) (Summarises.pure ())).bind
    fun _ => ?_
  refine (summarises_pushProofOfWork fold terminalFold order _ _).bind fun _ => ?_
  refine (summarises_sumcheckRounds fold terminalFold _).bind fun _ => ?_
  exact summarises_pushProofOfWork fold terminalFold order _ _

theorem summarises_appendStage3 (level : UInt32) (successor : FoldSuccessor) :
    Counted fold terminalFold (appendStage3 · order level successor) := by
  unfold appendStage3
  cases successor with
  | terminal params => exact Summarises.pure ()
  | recursive next =>
    cases h : next.setupPrefix with
    | none => simpa only [h] using Summarises.pure ()
    | some numVars => simpa only [h] using summarises_sumcheckRounds fold terminalFold _

theorem summarises_appendOpening (extensionDegree : ℕ) (level : UInt32) (params : CommittedGroupParams)
    (layout : OpeningClaimsLayout) :
    Counted fold terminalFold (appendOpening · order extensionDegree level params layout) := by
  refine (Summarises.lift _).bind fun _ => ?_
  refine (Summarises.ite (summarises_appendEor fold terminalFold order _ _ _) (Summarises.pure ())).bind fun _ => ?_
  refine (summarises_appendClaimBatch fold terminalFold order _ _).bind fun _ => ?_
  exact summarises_push fold terminalFold _

theorem summarises_appendRelation (level : UInt32) (params : CommittedGroupParams) (relationRounds : ℕ)
    (layout : OpeningClaimsLayout) (successor : FoldSuccessor) (setupBatch : Bool) :
    Counted fold terminalFold (appendRelation · order level params relationRounds layout successor setupBatch) := by
  have hwork := summarises_pushProofOfWork fold terminalFold order
  refine (Summarises.lift _).bind fun _ => ?_
  refine (Summarises.lift _).bind fun _ => ?_
  refine (hwork _ _).bind fun _ => ?_
  refine (Summarises.lift _).bind fun _ => ?_
  refine (Summarises.lift _).bind fun _ => ?_
  refine (hwork _ _).bind fun _ => ?_
  refine (Summarises.lift _).bind fun _ => ?_
  refine (hwork _ _).bind fun _ => ?_
  refine (Summarises.lift _).bind fun _ => ?_
  refine (Summarises.lift _).bind fun _ => ?_
  refine (Summarises.lift _).bind fun shape => ?_
  obtain ⟨stages, norm⟩ := shape
  refine (Summarises.forM (fun _ => summarises_appendStage1 fold terminalFold order _ _ _) _).bind fun _ => ?_
  have hnorm : Counted fold terminalFold fun sink => norm.forM (appendNorm sink order level) := by
    cases norm with
    | none => exact Summarises.pure ()
    | some norm => exact summarises_appendNorm fold terminalFold order level norm
  refine hnorm.bind fun _ => ?_
  refine (Summarises.ite (hwork _ _) (Summarises.pure ())).bind fun _ => ?_
  refine (hwork _ _).bind fun _ => ?_
  refine (summarises_sumcheckRounds fold terminalFold _).bind fun _ => ?_
  refine (Summarises.ite (hwork _ _) (Summarises.pure ())).bind fun _ => ?_
  exact summarises_appendStage3 fold terminalFold order _ _

end

/-! ## Fold costs -/

/-- A fold's run as it is priced ahead, at level zero. -/
def GrindingRun.atRoot (r : GrindingRun) : GrindingRun :=
  { r with
    site := match r.site with
      | .foldChallengeGroup _ group => .foldChallengeGroup 0 group
      | .foldChallengeWork _ => .foldChallengeWork 0
      | site => site }

namespace GrindingRun

variable {run : GrindingRun}

theorem atRoot_kind (r : GrindingRun) : r.atRoot.kind = r.kind := by
  obtain ⟨site, loss, bits, nonce, mult, set⟩ := r
  cases site <;> rfl

theorem Checked.atRoot (h : r.Checked 𝔭) : r.atRoot.Checked 𝔭 := by
  have hkind := atRoot_kind r
  refine ⟨?_, by rw [hkind]; exact h.setBits, by rw [hkind]; exact h.work, by rw [hkind]; exact h.target,
    by rw [hkind]; exact h.response, by rw [hkind]; exact h.group⟩
  have hsite := h.site
  obtain ⟨site, loss, bits, nonce, mult, set⟩ := r
  cases site with
  | foldChallengeGroup level group =>
    simp only [GrindingSite.validate, ensure_eq_ok, Bool.not_eq_true', Bool.or_eq_false_iff] at hsite
    simp only [atRoot, GrindingSite.validate, ensure_eq_ok, hsite.2, Bool.or_false]
    rfl
  | foldChallengeWork level => rfl
  | _ => exact hsite

theorem map_atRoot_shape (runs : List GrindingRun) :
    (runs.map atRoot).map shape = runs.map shape := by
  rw [map_map]
  rfl

theorem foldChallengeGroup_atRoot {group : UInt32} {count : UInt64} (h : foldChallengeGroup level group count = .ok run) :
    foldChallengeGroup 0 group count = .ok run.atRoot ∧ run.kind = .foldChallengeGroup := by
  unfold foldChallengeGroup at h ⊢
  simp only [result_ok] at h ⊢
  obtain ⟨mult, hmult, rfl⟩ := h
  exact ⟨⟨mult, hmult, rfl⟩, rfl⟩

theorem foldChallengeWork_atRoot {setBits : UInt32} {challenges : UInt64}
    (h : foldChallengeWork 𝔭 level challenges setBits = .ok run) :
    foldChallengeWork 𝔭 0 challenges setBits = .ok run.atRoot ∧ run.kind = .foldChallengeWork := by
  unfold foldChallengeWork at h ⊢
  simp only [result_ok] at h ⊢
  obtain ⟨order, horder, bits, hbits, nonce, hnonce, rfl⟩ := h
  exact ⟨⟨order, horder, bits, hbits, nonce, hnonce, rfl⟩, rfl⟩

end GrindingRun

theorem foldChallengeGroupRun_atRoot {acc acc' : List GrindingRun × UInt64 × UInt32}
    {item : (PolynomialGroupLayout × GroupOpenPhaseParams) × ℕ} (h : foldChallengeGroupRun level acc item = .ok acc')
    (hacc : ∀ r ∈ acc.1, r.kind = .foldChallengeGroup) :
    foldChallengeGroupRun 0 (acc.1.map atRoot, acc.2) item = .ok (acc'.1.map atRoot, acc'.2) ∧
      ∀ r ∈ acc'.1, r.kind = .foldChallengeGroup := by
  obtain ⟨⟨groupLayout, groupParams⟩, groupIndex⟩ := item
  obtain ⟨runs, challenges, setBits⟩ := acc
  unfold foldChallengeGroupRun at h ⊢
  simp only [result_ok] at h ⊢
  obtain ⟨group, hgroup, count, hcount, family, hfam, hstream, count', hcount', sum, hsum, run, hrun, rfl⟩ := h
  obtain ⟨hroot, hkind⟩ := foldChallengeGroup_atRoot hrun
  refine ⟨⟨group, hgroup, count, hcount, family, hfam, hstream, count', hcount', sum, hsum, run.atRoot, hroot, ?_⟩,
    ?_⟩
  · simp
  · intro r hr
    rcases mem_append.1 hr with hr | hr
    · exact hacc r hr
    · rw [mem_singleton.1 hr]
      exact hkind

theorem foldChallengeGroupRuns_atRoot (items : List ((PolynomialGroupLayout × GroupOpenPhaseParams) × ℕ))
    {acc acc' : List GrindingRun × UInt64 × UInt32} (h : items.foldlM (foldChallengeGroupRun level) acc = .ok acc')
    (hacc : ∀ r ∈ acc.1, r.kind = .foldChallengeGroup) :
    items.foldlM (foldChallengeGroupRun 0) (acc.1.map atRoot, acc.2) =
        .ok (acc'.1.map atRoot, acc'.2) ∧ ∀ r ∈ acc'.1, r.kind = .foldChallengeGroup := by
  induction items generalizing acc with
  | nil =>
    rw [foldlM_nil, pure_eq_ok] at h
    subst h
    exact ⟨rfl, hacc⟩
  | cons item items ih =>
    rw [foldlM_cons, bind_eq_ok] at h
    obtain ⟨mid, h1, h2⟩ := h
    obtain ⟨hstep, hmid⟩ := foldChallengeGroupRun_atRoot h1 hacc
    obtain ⟨hrest, hall⟩ := ih h2 hmid
    refine ⟨?_, hall⟩
    rw [foldlM_cons, bind_eq_ok]
    exact ⟨_, hstep, hrest⟩

theorem foldChallengeRuns_atRoot (h : foldChallengeRuns 𝔭 level params layout = .ok (work, groups)) :
    foldChallengeRuns 𝔭 0 params layout = .ok (work.atRoot, groups.map atRoot) ∧
      work.kind = .foldChallengeWork ∧ ∀ r ∈ groups, r.kind = .foldChallengeGroup := by
  unfold foldChallengeRuns at h ⊢
  simp only [result_ok] at h ⊢
  obtain ⟨valid, hvalid, ⟨runs, challenges, setBits⟩, hruns, work', hwork, heq⟩ := h
  cases heq
  obtain ⟨hroots, hall⟩ := foldChallengeGroupRuns_atRoot _ hruns (by simp)
  obtain ⟨hroot, hkind⟩ := foldChallengeWork_atRoot hwork
  exact ⟨⟨valid, hvalid, _, hroots, _, hroot, rfl⟩, hkind, hall⟩

/-- **A fold priced ahead** counts what its runs count, wherever they stand among counted runs. -/
theorem fromRuns_ok {before after : List GrindingRun} (hwork : work.kind = .foldChallengeWork)
    (hgroups : ∀ r ∈ groups, r.kind = .foldChallengeGroup)
    (h : (before ++ (work :: groups) ++ after).foldlM GrindingPlanAccumulator.count acc = .ok acc') :
    ∃ fold : FoldChallengeCost 𝔭, FoldChallengeCost.fromRuns work.atRoot (groups.map atRoot) = .ok fold ∧
      ∀ a b : GrindingPlanAccumulator 𝔭, (work :: groups).foldlM GrindingPlanAccumulator.count a = .ok b →
        a.add fold.counts = .ok b := by
  obtain ⟨hchk, rfl, hfits⟩ := counts_ok.1 h
  have hchk : ∀ r ∈ work :: groups, r.Checked 𝔭 := fun r hr =>
    hchk r (mem_append.2 (Or.inl (mem_append.2 (Or.inr hr))))
  obtain ⟨order, horder, -⟩ := (hchk work (by simp)).target hwork
  have hfits := ((hfits (by simp)).of_append).of_part order
  have hcounts : (work.atRoot :: groups.map atRoot).foldlM GrindingPlanAccumulator.push
      (GrindingPlanAccumulator.new order) =
      .ok ((GrindingPlanAccumulator.new order).plus ((work :: groups).map atRoot)) := by
    rw [← map_cons, pushes_ok, counts_ok]
    refine ⟨?_, ?_, rfl, fun _ => ?_⟩
    · intro r hr hk
      obtain ⟨r', hr', rfl⟩ := mem_map.1 hr
      rw [atRoot_kind] at hk
      rcases mem_cons.1 hr' with rfl | hr'
      · simp [hwork] at hk
      · simp [hgroups r' hr'] at hk
    · intro r hr
      obtain ⟨r', hr', rfl⟩ := mem_map.1 hr
      exact (hchk r' hr').atRoot
    · rw [plus_congr (map_atRoot_shape _)]
      exact hfits
  refine ⟨⟨(GrindingPlanAccumulator.new order).plus ((work :: groups).map atRoot), work.challengeSetBits⟩,
    ?_, fun a b hab => ?_⟩
  · unfold FoldChallengeCost.fromRuns
    simp only [result_ok]
    exact ⟨order, horder, _, hcounts, rfl⟩
  · obtain ⟨-, rfl, hb⟩ := counts_ok.1 hab
    exact add_plus order (map_atRoot_shape _) (hb (by simp))

/-! ## One level -/

section

variable {order : ChallengeFieldOrder 𝔭} {extensionDegree : ℕ} {l l' : List GrindingRun} {terminal : TerminalFoldParams}

/-- **A level priced.** Where the runs a level lists can be counted, its fold cost exists and the planner's
sink, given that cost, counts exactly them. -/
theorem appendNonterminal_priced {relationRounds rounds : ℕ} {successor : FoldSuccessor} {setupBatch : Bool}
    (h : appendNonterminal (listing 𝔭) order extensionDegree level params relationRounds layout successor
      setupBatch l = .ok (rounds, l')) :
    rounds = relationRounds ∧ ∃ new, l' = l ++ new ∧ ∀ s t, new.foldlM GrindingPlanAccumulator.count s = .ok t →
      ∃ fold, FoldChallengeCost.new params layout = .ok fold ∧ ∀ terminalFold,
        appendNonterminal (plannerEdge fold terminalFold) order extensionDegree level params
          relationRounds layout successor setupBatch s = .ok (rounds, t) := by
  unfold appendNonterminal at h
  simp only [stateT_bind_ok] at h
  obtain ⟨_, m1, hopen, _, m2, hfold, _, m3, hrel, hret⟩ := h
  obtain ⟨rfl, rfl⟩ := stateT_pure_ok.1 hret
  have hqueries : ∃ work groups, foldChallengeRuns 𝔭 level params layout = .ok (work, groups) ∧
      m2 = m1 ++ (work :: groups) := by
    obtain ⟨⟨work, groups⟩, _, hlift, hpush⟩ := stateT_bind_ok.1 hfold
    obtain ⟨hruns, rfl⟩ := stateT_lift_ok.1 hlift
    exact ⟨work, groups, hruns, (listing_forM_ok (𝔭 := 𝔭)).1 hpush⟩
  obtain ⟨work, groups, hruns, rfl⟩ := hqueries
  obtain ⟨hroot, hwork, hgroups⟩ := foldChallengeRuns_atRoot hruns
  -- what is listed does not depend on the fold cost, which is only known once the runs are
  obtain ⟨n1, rfl, -⟩ := summarises_appendOpening ⟨GrindingPlanAccumulator.new order, 0⟩ none order _ _ _ _ l _ _ hopen
  obtain ⟨n3, rfl, -⟩ := summarises_appendRelation ⟨GrindingPlanAccumulator.new order, 0⟩ none order _ _ _ _ _ _ _ _ _
    hrel
  refine ⟨rfl, n1 ++ (work :: groups) ++ n3, by simp, fun s t hs => ?_⟩
  obtain ⟨fold, hcost, hadd⟩ := fromRuns_ok hwork hgroups hs
  refine ⟨fold, ?_, fun terminalFold => ?_⟩
  · unfold FoldChallengeCost.new
    rw [bind_eq_ok]
    exact ⟨_, hroot, hcost⟩
  obtain ⟨n1', h1, hopen'⟩ := summarises_appendOpening fold terminalFold order _ _ _ _ l _ _ hopen
  obtain ⟨n3', h3, hrel'⟩ := summarises_appendRelation fold terminalFold order _ _ _ _ _ _ _ _ _ hrel
  obtain rfl : n1 = n1' := append_cancel_left h1
  obtain rfl : n3 = n3' := append_cancel_left h3
  simp only [foldlM_append, bind_eq_ok] at hs
  obtain ⟨t2, ⟨t1, hs1, hs2⟩, hs3⟩ := hs
  unfold appendNonterminal
  simp only [stateT_bind_ok]
  exact ⟨_, t1, hopen' s t1 hs1, (), t2, onCounts_ok.2 (hadd t1 t2 hs2), _, t, hrel' t2 t hs3,
    stateT_pure_ok.2 ⟨rfl, rfl⟩⟩

theorem terminalFoldChallengeRuns_atRoot {group : GrindingRun}
    (h : terminalFoldChallengeRuns 𝔭 level terminal = .ok (work, group)) :
    terminalFoldChallengeRuns 𝔭 0 terminal = .ok (work.atRoot, group.atRoot) ∧
      work.kind = .foldChallengeWork ∧ group.kind = .foldChallengeGroup := by
  unfold terminalFoldChallengeRuns at h ⊢
  simp only [result_ok] at h ⊢
  obtain ⟨family, hfam, hstream, challenges, hchals, work', hwork, group', hgroup, heq⟩ := h
  cases heq
  obtain ⟨hroot, hkind⟩ := foldChallengeWork_atRoot hwork
  obtain ⟨hroot', hkind'⟩ := foldChallengeGroup_atRoot hgroup
  exact ⟨⟨family, hfam, hstream, challenges, hchals, _, hroot, _, hroot', rfl⟩, hkind, hkind'⟩

/-- **The terminal fold priced.** -/
theorem appendTerminal_priced {predecessorRounds : ℕ}
    (h : appendTerminal (listing 𝔭) order extensionDegree level predecessorRounds terminal l =
      .ok (u, l')) : ∃ new, l' = l ++ new ∧ ∀ s t, new.foldlM GrindingPlanAccumulator.count s = .ok t →
      ∃ terminalFold, FoldChallengeCost.terminal terminal = .ok terminalFold ∧ ∀ fold,
        appendTerminal (plannerEdge fold (some terminalFold)) order extensionDegree level
          predecessorRounds terminal s = .ok (u, t) := by
  unfold appendTerminal at h
  simp only [stateT_bind_ok] at h
  obtain ⟨layout, m0, hlift, _, m1, heor, _, m2, hpush, hfold⟩ := h
  have hqueries : ∃ work group, terminalFoldChallengeRuns 𝔭 level terminal = .ok (work, group) ∧
      l' = m2 ++ [work, group] := by
    obtain ⟨⟨work, group⟩, _, hlift, hrest⟩ := stateT_bind_ok.1 hfold
    obtain ⟨hruns, rfl⟩ := stateT_lift_ok.1 hlift
    obtain ⟨_, m3, h1, h2⟩ := stateT_bind_ok.1 hrest
    refine ⟨work, group, hruns, ?_⟩
    rw [(listing_push_ok (𝔭 := 𝔭)).1 h2, (listing_push_ok (𝔭 := 𝔭)).1 h1]
    simp
  obtain ⟨work, group, hruns, rfl⟩ := hqueries
  obtain ⟨hroot, hwork, hgroup⟩ := terminalFoldChallengeRuns_atRoot hruns
  obtain ⟨hlayout, rfl⟩ := stateT_lift_ok.1 hlift
  have hbefore := fun fold terminalFold =>
    (Summarises.ite (p := extensionDegree > 1)
      (summarises_appendEor (𝔭 := 𝔭) fold terminalFold order extensionDegree level layout) (Summarises.pure ())).bind
        fun _ => summarises_push fold terminalFold (foldResponse level)
  have hlisted : ((if extensionDegree > 1 then
        appendEor (listing 𝔭) order extensionDegree level layout else pure ()) >>=
      fun _ => (listing 𝔭).push (foldResponse level)) _ = .ok ((), m2) :=
    stateT_bind_ok.2 ⟨_, _, heor, hpush⟩
  obtain ⟨n1, rfl, -⟩ := hbefore ⟨GrindingPlanAccumulator.new order, 0⟩ none _ _ _ hlisted
  refine ⟨n1 ++ [work, group], by simp, fun s t hs => ?_⟩
  have hall : (n1 ++ (work :: [group]) ++ []).foldlM GrindingPlanAccumulator.count s = .ok t := by simpa using hs
  obtain ⟨terminalFold, hcost, hadd⟩ := fromRuns_ok hwork (by simpa using hgroup) hall
  refine ⟨terminalFold, ?_, fun fold => ?_⟩
  · unfold FoldChallengeCost.terminal
    rw [bind_eq_ok]
    exact ⟨_, hroot, hcost⟩
  obtain ⟨n1', h1, hbefore'⟩ := hbefore fold (some terminalFold) _ _ _ hlisted
  obtain rfl : n1 = n1' := append_cancel_left h1
  rw [foldlM_append, bind_eq_ok] at hs
  obtain ⟨t1, hs1, hs2⟩ := hs
  obtain ⟨_, m, hm1, hm2⟩ := stateT_bind_ok.1 (hbefore' s t1 hs1)
  unfold appendTerminal
  simp only [stateT_bind_ok]
  refine ⟨layout, s, stateT_lift_ok.2 ⟨hlayout, rfl⟩, _, m, hm1, _, t1, hm2, ?_⟩
  exact stateT_bind_ok.2 ⟨terminalFold, t1, stateT_lift_ok.2 ⟨rfl, rfl⟩, onCounts_ok.2 (hadd t1 t hs2)⟩

end

/-! ## All levels -/

section levels

variable {order : ChallengeFieldOrder 𝔭} {extensionDegree : ℕ} {e : PlannerEdge} {rounds : ℕ} {terminal : TerminalFoldParams}
  {u : Unit}

def runsCost (runs : List GrindingRun) : TranscriptGrindingCost :=
  { totalNonceBits := (runs.map totalBits).sum
    nonceMaxBytes := (runs.map totalBytes).sum
    expandedQueryCount := (runs.map fun r => r.multiplicity.toNat).sum }

theorem cost_plus (order : ChallengeFieldOrder 𝔭) (runs : List GrindingRun) :
    ((GrindingPlanAccumulator.new order).plus runs).cost = runsCost runs := by
  simp [GrindingPlanAccumulator.plus, GrindingPlanAccumulator.new, GrindingPlanAccumulator.cost, runsCost]

theorem openingLayoutForFinalGroup_check {group : PolynomialGroupLayout}
    (h : params.openingLayoutForFinalGroup group = .ok layout) : layout.check = .ok () := by
  unfold CommittedGroupParams.openingLayoutForFinalGroup OpeningClaimsLayout.fromRootGroups
    OpeningClaimsLayout.fromGroups at h
  simp only [result_ok] at h
  obtain ⟨hcheck, rfl⟩ := h
  exact hcheck

theorem grindingCost_recursive {next : CommittedGroupParams} (hnext : e.successor = .recursive next)
    (hcheck : e.layout.check = .ok ()) (hdegree : validateClaimExtensionDegree extensionDegree = .ok ())
    (hlevel : e.level < 2 ^ 32) (hfold : FoldChallengeCost.new e.params e.layout = .ok fold)
    (h : appendNonterminal (plannerEdge fold none) order extensionDegree (ofNat e.level) e.params
      e.relationRounds e.layout e.successor false (GrindingPlanAccumulator.new order) = .ok (rounds, acc)) :
    e.grindingCost order extensionDegree = .ok acc.cost := by
  unfold PlannerEdge.grindingCost transcriptGrindingCostForPlannerEdge
  rw [hnext] at h ⊢
  simp only [result_ok, usizeToU32_ok]
  exact ⟨fold, hfold, none, rfl, _, ⟨hlevel, rfl⟩, hcheck, hdegree, rfl, _, h, rfl⟩

theorem grindingCost_terminal (hnext : e.successor = .terminal terminal) (hcheck : e.layout.check = .ok ())
    (hdegree : validateClaimExtensionDegree extensionDegree = .ok ()) (hlevel : e.level + 1 < 2 ^ 32)
    {terminalFold : FoldChallengeCost 𝔭} (hfold : FoldChallengeCost.new e.params e.layout = .ok fold)
    (hterm : FoldChallengeCost.terminal terminal = .ok terminalFold) {mid : GrindingPlanAccumulator 𝔭}
    (h : appendNonterminal (plannerEdge fold (some terminalFold)) order extensionDegree
      (ofNat e.level) e.params e.relationRounds e.layout e.successor false (GrindingPlanAccumulator.new order) =
        .ok (rounds, mid)) (h' : appendTerminal (plannerEdge fold (some terminalFold)) order extensionDegree
      (ofNat (e.level + 1)) rounds terminal mid = .ok (u, acc)) : e.grindingCost order extensionDegree = .ok acc.cost := by
  have htoNat : (ofNat e.level).toNat = e.level := by
    rw [toNat_ofNat', Nat.mod_eq_of_lt (by omega)]
  unfold PlannerEdge.grindingCost transcriptGrindingCostForPlannerEdge
  rw [hnext] at h ⊢
  simp only [result_ok, usizeToU32_ok, checked_some]
  refine ⟨fold, hfold, some terminalFold, ?_, _, ⟨by omega, rfl⟩, hcheck, hdegree, rfl, _, h, _, ⟨?_, rfl⟩, ?_⟩
  · rw [hterm]
    rfl
  · rw [htoNat]
    exact hlevel
  · rw [htoNat]
    exact ⟨_, h', rfl⟩

def appendFrom (order : ChallengeFieldOrder 𝔭) (extensionDegree : ℕ) (terminal : TerminalFoldParams) (e : PlannerEdge)
    (folds : List FoldParams) : SinkM (List GrindingRun) Unit := do
  let rounds ← appendNonterminal (listing 𝔭) order extensionDegree (ofNat e.level) e.params
    e.relationRounds e.layout e.successor false
  let rounds ← appendRecursiveFolds (listing 𝔭) order extensionDegree terminal none folds e.level rounds
  let level ← (usizeToU32 (e.level + folds.length + 1) "terminal grinding level" : Result _)
  appendTerminal (listing 𝔭) order extensionDegree level rounds terminal

/-- **From any level on**, the edges cost what the derivation lists. -/
theorem appendFrom_priced (hdegree : validateClaimExtensionDegree extensionDegree = .ok ()) (folds : List FoldParams) :
    ∀ (e : PlannerEdge) (l l' : List GrindingRun) (u : Unit),
    e.successor = successorOf terminal folds → e.layout.check = .ok () →
    appendFrom order extensionDegree terminal e folds l = .ok (u, l') →
    ∃ new, l' = l ++ new ∧ ((∀ r ∈ new, r.Checked 𝔭) → ((GrindingPlanAccumulator.new order).plus new).Fits →
      ∃ rest costs, recursiveEdges extensionDegree terminal folds (e.level + 1) e.relationRounds = .ok rest ∧
        (e :: rest).mapM (fun e => e.grindingCost order extensionDegree) = .ok costs ∧
        (costs.map TranscriptGrindingCost.totalNonceBits).sum = (runsCost new).totalNonceBits ∧
        (costs.map TranscriptGrindingCost.nonceMaxBytes).sum = (runsCost new).nonceMaxBytes ∧
        (costs.map TranscriptGrindingCost.expandedQueryCount).sum = (runsCost new).expandedQueryCount) := by
  induction folds with
  | nil =>
    intro e l l' u hsucc hcheck h
    unfold appendFrom at h
    simp only [stateT_bind_ok, appendRecursiveFolds, stateT_pure_ok, stateT_lift_ok, usizeToU32_ok] at h
    obtain ⟨_, m, hlevel, _, _, ⟨rfl, rfl⟩, _, _, ⟨⟨hlt, rfl⟩, rfl⟩, hterm⟩ := h
    obtain ⟨rfl, n1, rfl, hn1⟩ := appendNonterminal_priced hlevel
    obtain ⟨n2, rfl, hn2⟩ := appendTerminal_priced hterm
    refine ⟨n1 ++ n2, by simp, fun hchk hfits => ?_⟩
    have hcounts : (n1 ++ n2).foldlM GrindingPlanAccumulator.count (GrindingPlanAccumulator.new order) =
        .ok ((GrindingPlanAccumulator.new order).plus (n1 ++ n2)) :=
      counts_ok.2 ⟨hchk, rfl, fun _ => hfits⟩
    rw [foldlM_append, bind_eq_ok] at hcounts
    obtain ⟨mid, hc1, hc2⟩ := hcounts
    obtain ⟨fold, hfold, happend⟩ := hn1 _ _ hc1
    obtain ⟨terminalFold, hterminalFold, hterm'⟩ := hn2 _ _ hc2
    have hcost := grindingCost_terminal hsucc hcheck hdegree hlt hfold hterminalFold (happend _) (hterm' fold)
    refine ⟨[], _, rfl, mapM_ok_of_forall (g := fun _ => runsCost (n1 ++ n2)) ?_, ?_⟩
    · intro e' he'
      rw [mem_singleton.1 he', hcost, cost_plus]
    · simp
  | cons fold folds ih =>
    intro e l l' u hsucc hcheck h
    unfold appendFrom at h
    simp only [stateT_bind_ok, appendRecursiveFolds, stateT_lift_ok, usizeToU32_ok] at h
    obtain ⟨_, m, hlevel, r, m', ⟨layout, _, ⟨hlayout, rfl⟩, rr, _, ⟨hrr, rfl⟩, _, _, ⟨⟨hlt, rfl⟩, rfl⟩, r', m'',
      hnext, hrest⟩, _, _, ⟨⟨hlen, rfl⟩, rfl⟩, hterm⟩ := h
    obtain ⟨rfl, n1, rfl, hn1⟩ := appendNonterminal_priced hlevel
    let e' : PlannerEdge :=
      { params := fold.params, layout, relationRounds := rr, successor := successorOf terminal folds,
        level := e.level + 1 }
    have htail : appendFrom order extensionDegree terminal e' folds (l ++ n1) = .ok (u, l') := by
      unfold appendFrom
      simp only [stateT_bind_ok, stateT_lift_ok, usizeToU32_ok]
      have hsum : e'.level + folds.length + 1 = e.level + (fold :: folds).length + 1 := by
        simp only [e', length_cons]
        omega
      refine ⟨r', m'', hnext, r, m', hrest, _, m', ⟨⟨?_, rfl⟩, rfl⟩, ?_⟩
      · rw [hsum]
        exact hlen
      · rw [hsum]
        exact hterm
    obtain ⟨n2, rfl, hn2⟩ := ih e' _ _ _ rfl (openingLayoutForFinalGroup_check hlayout) htail
    refine ⟨n1 ++ n2, by simp, fun hchk hfits => ?_⟩
    obtain ⟨rest, costs, hedges, hcosts, hbits, hbytes, hqueries⟩ :=
      hn2 (fun r hr => hchk r (mem_append.2 (Or.inr hr))) (hfits.of_part order)
    have hcounts : n1.foldlM GrindingPlanAccumulator.count (GrindingPlanAccumulator.new order) =
        .ok ((GrindingPlanAccumulator.new order).plus n1) :=
      counts_ok.2
        ⟨fun r hr => hchk r (mem_append.2 (Or.inl hr)), rfl, fun _ => hfits.of_append⟩
    obtain ⟨foldCost, hfold, happend⟩ := hn1 _ _ hcounts
    have hcost := grindingCost_recursive hsucc hcheck hdegree (by omega) hfold (happend none)
    rw [cost_plus] at hcost
    refine ⟨e' :: rest, runsCost n1 :: costs, ?_, ?_, ?_, ?_, ?_⟩
    · simp only [recursiveEdges, result_ok]
      exact ⟨layout, hlayout, rr, hrr, rest, hedges, rfl⟩
    · rw [mapM_cons, hcost, hcosts]
      rfl
    · simp only [map_cons, sum_cons, hbits, runsCost, map_append, sum_append]
    · simp only [map_cons, sum_cons, hbytes, runsCost, map_append, sum_append]
    · simp only [map_cons, sum_cons, hqueries, runsCost, map_append, sum_append]

theorem listing_requests {b : SumcheckRoundBatch 𝔭} (h : (listing 𝔭).sumcheckRounds b l = .ok (u, l')) :
    l'.flatMap requests = l.flatMap requests ++ (range b.rounds).map fun round =>
      ⟨.sumcheckRound b.protocol b.level b.stage (ofNat round), .proofOfWork, 1⟩ := by
  have h := listing_rounds_ok.1 h
  rcases appendSumcheck_ok.1 h with ⟨h0, rfl⟩ | ⟨hpos, rep, hrep, h⟩
  · simp [h0]
  · have hmult : rep.multiplicity = 1 := by
      unfold roundRun proofOfWork at hrep
      simp only [result_ok] at hrep
      obtain ⟨_, -, _, -, -, _, -, _, -, rfl⟩ := hrep
      rfl
    rw [(listing_forM_ok (𝔭 := 𝔭)).1 h, flatMap_append, SumcheckRoundBatch.runs]
    congr 1
    rw [flatMap_map, map_eq_flatMap]
    congr 1
    funext i
    simp [requests, runOf, GrindingRun.kind, GrindingSite.kind, hmult]

/-- **Planner pricing agrees with the plan.** For a shape without a setup batch, whenever the plan is
derived, every planner edge is priced, and the edges' nonce bits, nonce bytes and queries add up to the plan's.
And a sumcheck's rounds emitted as one batch do what the rounds emitted one by one do: the listing sink lists
the same runs, one query for each round, and the counting sinks end in the same totals. -/
theorem plannerCost_eq_plan (schedule : FoldSchedule) (rootLayout : OpeningClaimsLayout)
    (order : ChallengeFieldOrder 𝔭) (claimExtensionDegree : ℕ) :
    (∀ plan : GrindingPlan 𝔭,
      deriveTranscriptGrindingPlanFromPublicShape schedule rootLayout order claimExtensionDegree none = .ok plan →
      ∃ edges costs, plannerEdges schedule rootLayout claimExtensionDegree = .ok edges ∧
        edges.mapM (fun e => e.grindingCost order claimExtensionDegree) = .ok costs ∧
        (costs.map TranscriptGrindingCost.totalNonceBits).sum = plan.totalNonceBits ∧
        (costs.map TranscriptGrindingCost.nonceMaxBytes).sum = plan.nonceMaxBytes ∧
        (costs.map TranscriptGrindingCost.expandedQueryCount).sum = plan.expandedQueryCount) ∧
    ∀ b : SumcheckRoundBatch 𝔭,
      (∀ l l', (listing 𝔭).sumcheckRounds b l = .ok ((), l') ↔
        appendSumcheck (listing 𝔭) b l = .ok ((), l')) ∧
      (∀ l l', (listing 𝔭).sumcheckRounds b l = .ok ((), l') →
        l'.flatMap requests = l.flatMap requests ++ (List.range b.rounds).map fun round =>
          ⟨.sumcheckRound b.protocol b.level b.stage (UInt32.ofNat round), .proofOfWork, 1⟩) ∧
      (∀ acc acc', (accumulator 𝔭).sumcheckRounds b acc = .ok ((), acc') ↔
        appendSumcheck (accumulator 𝔭) b acc = .ok ((), acc')) ∧
      (∀ fold terminalFold acc acc',
        (plannerEdge fold terminalFold).sumcheckRounds b acc = .ok ((), acc') ↔
          appendSumcheck (plannerEdge fold terminalFold) b acc = .ok ((), acc')) := by
  refine ⟨fun plan h => ?_, fun b => ⟨fun _ _ => listing_rounds_ok,
    fun _ _ => listing_requests, fun _ _ => accumulator_rounds_ok,
    fun _ _ _ _ => plannerEdge_rounds_ok⟩⟩
  unfold deriveTranscriptGrindingPlanFromPublicShape at h
  simp only [result_ok] at h
  obtain ⟨-, -, hcheck, hdegree, rootRounds, hrounds, -, ⟨_, runs⟩, hemit, hplan⟩ := h
  let root : PlannerEdge :=
    { params := schedule.root.params, layout := rootLayout, relationRounds := rootRounds,
      successor := successorOf schedule.terminal schedule.recursiveFolds, level := 0 }
  have hfrom : appendFrom order claimExtensionDegree schedule.terminal root schedule.recursiveFolds [] =
      .ok ((), runs) := by
    unfold appendFrom
    simp only [root, zero_add]
    exact hemit
  obtain ⟨new, hnew, hpriced⟩ := appendFrom_priced hdegree _ root _ _ _ rfl hcheck hfrom
  obtain rfl : runs = new := by simpa using hnew
  obtain ⟨acc, hpushes, -, rfl⟩ := GrindingPlan.new_ok hplan
  obtain ⟨-, hcounts⟩ := pushes_ok.1 hpushes
  obtain ⟨hchecked, rfl, hfits⟩ := counts_ok.1 hcounts
  have hfits : ((GrindingPlanAccumulator.new order).plus runs).Fits := by
    by_cases h0 : runs = []
    · simp [h0, GrindingPlanAccumulator.Fits, GrindingPlanAccumulator.new]
    · exact hfits h0
  obtain ⟨rest, costs, hedges, hcosts, hbits, hbytes, hqueries⟩ := hpriced hchecked hfits
  have hcost := cost_plus order runs
  refine ⟨root :: rest, costs, ?_, hcosts, ?_, ?_, ?_⟩
  · simp only [plannerEdges, result_ok]
    exact ⟨rootRounds, hrounds, rest, hedges, rfl⟩
  · rw [hbits, ← hcost]
    rfl
  · rw [hbytes, ← hcost]
    rfl
  · rw [hqueries, ← hcost]
    rfl

end levels

/-! ## A shape -/

/-- A level with one group of four blocks and basis four. -/
def sampleParams : CommittedGroupParams where
  groups := [{ openingMethod := .evaluationTrace, innerRingDimension := 64, numLiveBlocks := 4,
               foldChallengeFamily := .ok ⟨128, fun _ => .ok ()⟩ }]
  precommitted := []
  validateOpeningBatch _ := .ok ()
  relationPointVariableCount _ _ _ _ := .ok 1
  relationRowIndexNumVars _ := .ok 1
  openLogBasis := 2
  securityRoute := .linf
  compressedPayload := false
  setupPrefix := none
  ringDimension := 64
  recursiveOpeningNumVars := .ok 3

def sampleSchedule : FoldSchedule where
  root := ⟨sampleParams, 64⟩
  recursiveFolds := [⟨sampleParams, 64⟩]
  terminal := { liveBlocks := 4, foldChallengeFamily := .ok ⟨128, fun _ => .ok ()⟩, ringDimension := 64,
                recursiveOpeningNumVars := .ok 3 }
  validateStructure := .ok ()
  validateNonterminalOpeningExecution _ := .ok ()

def sampleDerivedPlan : GrindingPlan GrindingPlan.samplePricing :=
  match deriveTranscriptGrindingPlanFromPublicShape sampleSchedule ⟨[⟨2, 1⟩]⟩ GrindingPlan.sampleOrder 2 none with
  | .ok plan => plan
  | .error _ => GrindingPlan.samplePlan

theorem sampleDerivedPlan_derived :
    deriveTranscriptGrindingPlanFromPublicShape sampleSchedule ⟨[⟨2, 1⟩]⟩ GrindingPlan.sampleOrder 2 none =
      .ok sampleDerivedPlan := rfl

theorem plannerCost_eq_plan_sample :
    ∃ edges costs, plannerEdges sampleSchedule ⟨[⟨2, 1⟩]⟩ 2 = .ok edges ∧
      edges.mapM (fun e => e.grindingCost GrindingPlan.sampleOrder 2) = .ok costs ∧
      (costs.map TranscriptGrindingCost.totalNonceBits).sum = sampleDerivedPlan.totalNonceBits ∧
      (costs.map TranscriptGrindingCost.nonceMaxBytes).sum = sampleDerivedPlan.nonceMaxBytes ∧
      (costs.map TranscriptGrindingCost.expandedQueryCount).sum = sampleDerivedPlan.expandedQueryCount :=
  (plannerCost_eq_plan sampleSchedule ⟨[⟨2, 1⟩]⟩ GrindingPlan.sampleOrder 2).1 sampleDerivedPlan
    sampleDerivedPlan_derived

end Akita.Grinding
