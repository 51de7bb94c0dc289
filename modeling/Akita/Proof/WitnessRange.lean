import Akita.Proof.Stage1Verifier
import Akita.Proof.WitnessEmission

/-!
# The digits of a build pass the range check
-/

namespace Akita.Witness

open Lib List DigitRange
open PackedDigits (PackedSignedDigits)

/-- The digit at an index, and zero from the length on. -/
def digitAt (packed : PackedSignedDigits) (index : ℕ) : ℤ :=
  match packed.get index with
  | .ok (some digit) => digit
  | _ => 0

variable {F : Type} [Ring F] {toU128Checked : Decompose.CanonicalU128 F} {q : ℕ} {lp : CommittedGroupParams} {batch : OpeningClaimsLayout}
  {layout : WitnessLayout} {inputs : WitnessInputs F} {witnessLogBasis : ℕ} {packed : PackedSignedDigits}

theorem digitAt_fits (hlaw : toU128Checked.Lawful q) (hq : 2 < q) (hlayout : Emittable lp batch layout)
    (h : cpuRecursiveWitnessBuild toU128Checked batch layout inputs witnessLogBasis = .ok packed) (i : ℕ) :
    PackedDigits.Fits witnessLogBasis (digitAt packed i) := by
  obtain ⟨hlen, ws, -, -, -, hfits, hget⟩ := build_writes hlaw hq hlayout h
  unfold digitAt
  by_cases hi : i < layout.liveCoeffLen
  · rw [hget i hi]
    exact hfits i
  · rw [PackedSignedDigits.get, if_pos (by omega)]
    exact PackedDigits.fits_zero _

/-- **The digits of a build pass the range check.** Of every layout that the constructor returns: each packed digit of a build is in the
balanced range of every plan whose basis is not below the packed width, so the claim zero of the range check is true of the digits, at any
point and in any order. -/
theorem recursive_witness_in_range (hlaw : toU128Checked.Lawful q) (hq : 2 < q) {level : RelationLevelParams}
    {geometry : RelationWitnessGeometry} {numChunks : ℕ} {quotients : RelationQuotientPlan}
    (hlayout : WitnessLayout.new lp batch geometry numChunks level.forLevel quotients = .ok layout)
    (hbuild : cpuRecursiveWitnessBuild toU128Checked batch layout inputs witnessLogBasis = .ok packed)
    (plan : DigitRangePlan) (hbasis : witnessLogBasis ≤ plan.logBasis) (E : Type) [Field E] (τ : List E) (index : List E → ℕ) :
    (∀ i, -((plan.basis / 2 : ℕ) : ℤ) ≤ digitAt packed i ∧ digitAt packed i ≤ ((plan.basis / 2 : ℕ) : ℤ) - 1) ∧
      0 = cubeSum τ fun x => (plan.leafValues (rangeImage (digitAt packed (index x) : E))).prod := by
  have hrange : ∀ i, -((plan.basis / 2 : ℕ) : ℤ) ≤ digitAt packed i ∧ digitAt packed i ≤ ((plan.basis / 2 : ℕ) : ℤ) - 1 := fun i => by
    obtain ⟨hlow, hhigh⟩ := digitAt_fits hlaw hq (new_emittable hlayout) hbuild i
    have hhalf : plan.basis / 2 = 2 ^ (plan.logBasis - 1) := Nat.pow_div (one_le_two.trans plan.two_le) two_pos
    have hle : (2 : ℤ) ^ (witnessLogBasis - 1) ≤ 2 ^ (plan.logBasis - 1) := pow_le_pow_right₀ one_le_two (by omega)
    rw [hhalf]
    push_cast
    omega
  have hzero : ∀ i, (plan.leafValues (rangeImage (digitAt packed i : E))).prod = 0 := fun i =>
    (leafValues_prod_eq_zero plan _).2 ⟨_, (hrange i).1, (hrange i).2, rfl⟩
  exact ⟨hrange, by simp [hzero, cubeSum]⟩

theorem recursive_witness_in_range_raw : ∃ packed,
    0 = cubeSum [0, 1] fun x => (sampleProver.plan.leafValues (rangeImage (digitAt packed x.length : ZMod 5))).prod := by
  have hrun : (do
      let layout ← WitnessLayout.new rawLevel rawBatch rawGeometry 1 sampleLevelParams.forLevel .reducedEvaluation
      cpuRecursiveWitnessBuild (Decompose.zmodCanonical 5) rawBatch layout rawInputs 2).isOk = true := by decide +kernel
  obtain ⟨packed, hrun⟩ := Transcript.isOk_iff.1 hrun
  obtain ⟨layout, hnew, hbuild⟩ := bind_eq_ok.1 hrun
  exact ⟨packed, (recursive_witness_in_range Decompose.zmodCanonical_lawful (by decide) hnew hbuild sampleProver.plan (by decide)
    (ZMod 5) [0, 1] length).2⟩

end Akita.Witness
