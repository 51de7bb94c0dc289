import Akita.Spec.CompressionPlan

/-!
# A derived chain ends in its target

A plan is built by `CompressionChainPlan::new` on every path that derives one, so its last image is the
256-byte payload (`forImage_terminal`) whatever image it starts from.
-/

namespace Akita.Compression

open Schedule (SisModulusProfileId)

namespace CompressionChainPlan

variable {profile : SisModulusProfileId} {maps : List CompressionMapPlan} {source rows d : ℕ} {plan : CompressionChainPlan}

theorem checkMaps_eq_ok {expected t : ℕ} {previous : Option ℕ} (h : checkMaps profile expected previous maps = .ok t) :
    t = (maps.getLast?.map (·.outputCoefficients)).getD expected := by
  induction maps generalizing expected previous with
  | nil =>
    simp only [checkMaps, Except.ok.injEq] at h
    exact h.symm
  | cons map maps ih =>
    simp only [checkMaps, result_ok] at h
    obtain ⟨-, -, -, h⟩ := h
    rw [ih h]
    cases maps with
    | nil => rfl
    | cons next maps => rw [List.getLast?_cons_cons]; cases hl : (next :: maps).getLast? <;> simp_all

theorem new_terminal {maps : Vector CompressionMapPlan compressionMapCount} (h : new profile source maps = .ok plan) :
    plan.terminalCoefficients * profileFieldBytes profile = compressionTargetBytes := by
  simp only [new, result_ok, checked_some] at h
  obtain ⟨_, -, -, -, terminal, hterm, _, ⟨-, rfl⟩, htarget, rfl⟩ := h
  obtain ⟨maps, hmaps⟩ := maps
  rw [← htarget, checkMaps_eq_ok hterm]
  cases hl : maps.toList.getLast? with
  | some map => simp [terminalCoefficients, hl]
  | none =>
    -- there are two maps
    have hempty : maps.toList = [] := List.getLast?_eq_none_iff.1 hl
    rw [← Array.length_toList, hempty] at hmaps
    simp [compressionMapCount] at hmaps

theorem deriveMaps_terminal {ladder : List ℕ} {input : ℕ} (h : deriveMaps profile source maps input ladder = .ok plan) :
    plan.terminalCoefficients * profileFieldBytes profile = compressionTargetBytes := by
  induction ladder generalizing maps input with
  | nil => simp [deriveMaps] at h
  | cons d ladder ih =>
    simp only [deriveMaps, result_ok] at h
    obtain ⟨-, map, -, outputBytes, -, h⟩ := h
    split at h
    · split at h
      · exact new_terminal h
      · simp at h
    · split at h
      · simp at h
      · exact ih h

/-- **The payload of a derived chain** has exactly the target size. -/
theorem forImage_terminal (h : forImage profile rows d = .ok plan) :
    plan.terminalCoefficients * profileFieldBytes profile = compressionTargetBytes := by
  simp only [forImage, forCompleteSource, tryForCompleteSource, result_ok] at h
  obtain ⟨-, coefficients, -, plan', ⟨sourceBytes, -, -, h⟩, rfl⟩ := h
  split at h
  · simp [pure_eq_ok] at h
  · simp only [result_ok, Option.some.injEq] at h
    obtain ⟨plan', h, rfl⟩ := h
    exact deriveMaps_terminal h

theorem forImage_terminal_le (h : forImage profile rows d = .ok plan) : plan.terminalCoefficients ≤ compressionTargetBytes := by
  have hbytes : 1 ≤ profileFieldBytes profile := by cases profile <;> decide
  exact (Nat.le_mul_of_pos_right _ hbytes).trans_eq (forImage_terminal h)

end CompressionChainPlan

end Akita.Compression
