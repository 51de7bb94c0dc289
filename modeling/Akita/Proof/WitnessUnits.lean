import Akita.Proof.WitnessAddressing

/-!
# Emission of the claim planes

The E and the T planes of the blocks that a unit owns, claim by claim: each range is written without a gap and every
digit stands at its index.
-/

namespace Akita.Witness

open Lib List

/-! ## Planes of claims -/

section

variable {unit : WitnessUnitLayout} {digits : List ℤ} {role claims blocks perBlock claim : ℕ}

/-- **The planes of a claim** that a unit owns are a slice of the digits. -/
theorem unitClaimPlanes_spec {source : List (List ℤ)} (hrole : 0 < role) (hdvd : role ∣ digits.length)
    (h : unitClaimPlanes unit claim blocks perBlock (chunks role digits) = .ok source) :
    source.flatten = (digits.drop ((claim * blocks + unit.globalBlockStart) * perBlock * role)).take
        (unit.numLiveBlocks * perBlock * role) ∧ source.flatten.length = unit.numLiveBlocks * perBlock * role := by
  simp only [unitClaimPlanes, WitnessUnitLayout.globalBlockRange, Span.len, Nat.add_sub_cancel_left, result_ok,
    option_some, checked_some] at h
  obtain ⟨-, _, ⟨-, rfl⟩, _, ⟨-, rfl⟩, _, ⟨-, rfl⟩, _, ⟨-, rfl⟩, _, ⟨-, rfl⟩, hstop, rfl⟩ := h
  have hcount := length_chunks hrole hdvd
  have hend := Nat.mul_le_mul_right role hstop
  rw [hcount, add_mul] at hend
  have hslice := flatten_slice_chunks hrole digits ((claim * blocks + unit.globalBlockStart) * perBlock) (unit.numLiveBlocks * perBlock)
  refine ⟨hslice, ?_⟩
  rw [hslice, length_take, length_drop]
  omega

structure ClaimWrites (ws : List (Write ℤ)) (range : Span) (digits : List ℤ) (unit : WitnessUnitLayout)
    (claims blocks perBlock role : ℕ) : Prop where
  through : Through ws [range]
  puts : ∀ claim < claims, ∀ i < unit.numLiveBlocks * perBlock * role,
    Puts 0 ws (range.start + (claim * (unit.numLiveBlocks * perBlock * role) + i))
      (digits.getD ((claim * blocks + unit.globalBlockStart) * perBlock * role + i) 0)

/-- **The loop over the claims.** A destination fixes the shape of the range. -/
theorem claimPlanes_yields (unit : WitnessUnitLayout) (range : Span) (blocks perBlock : ℕ) (destination : ℕ → Result ℕ)
    (Shape : Prop) (hrole : 0 < role) (hdvd : role ∣ digits.length)
    (hrange : range.start ≤ range.stop) (hclaims : 0 < claims)
    (hdest : ∀ claim place, destination claim = .ok place →
      place = range.start + claim * (unit.numLiveBlocks * perBlock * role) ∧ Shape)
    (hshape : Shape → range.len = claims * (unit.numLiveBlocks * perBlock * role)) :
    Yields (fun _ write out => (List.range claims).foldlM (fun out claim => do
        let source ← unitClaimPlanes unit claim blocks perBlock (chunks role digits)
        let destination ← destination claim
        write out destination source.flatten) out)
      fun ws => ClaimWrites ws range digits unit claims blocks perBlock role ∧ Shape := by
  obtain ⟨size, hsize⟩ : ∃ size, size = unit.numLiveBlocks * perBlock * role := ⟨_, rfl⟩
  obtain ⟨items, hitems⟩ : ∃ items : ℕ → List ℤ, items = fun claim =>
      (digits.drop ((claim * blocks + unit.globalBlockStart) * perBlock * role)).take size := ⟨_, rfl⟩
  rw [← hsize] at hdest hshape
  have hloop : Yields (fun _ write out => (List.range claims).foldlM (fun out claim => do
        let source ← unitClaimPlanes unit claim blocks perBlock (chunks role digits)
        let destination ← destination claim
        write out destination source.flatten) out)
      fun ws => ws = ((List.range claims).map fun claim => (⟨range.start + claim * size, items claim⟩ : Write ℤ)) ∧
        ∀ claim ∈ List.range claims, (items claim).length = size ∧ Shape := by
    apply Yields.foldlM_write
    intro claim _
    refine Yields.after fun source hsource => Yields.after fun place hplace => Yields.write ?_
    obtain ⟨hflat, hlen⟩ := unitClaimPlanes_spec hrole hdvd hsource
    obtain ⟨hplace, hshape⟩ := hdest claim place hplace
    rw [← hsize] at hflat hlen
    have hclaim : source.flatten = items claim := by rw [hflat, hitems]
    rw [hplace, hclaim]
    exact ⟨rfl, hclaim ▸ hlen, hshape⟩
  apply hloop.imp
  rintro ws ⟨rfl, hall⟩
  have hfirst := (hall 0 (mem_range.2 hclaims)).2
  have hlen := hshape hfirst
  refine ⟨⟨Through.single ?_, fun claim hclaim i hi => ?_⟩, hfirst⟩
  · have htiles := @tiles_range ℤ (fun claim => range.start + claim * size) items claims fun k hk => by
      rw [(hall k (mem_range.2 hk)).1, add_mul, one_mul, add_assoc]
    have hstop : range.start + claims * size = range.stop := by
      unfold Span.len at hlen
      omega
    rwa [zero_mul, add_zero, hstop] at htiles
  · rw [← hsize] at hi ⊢
    have hmem : (⟨range.start + claim * size, items claim⟩ : Write ℤ) ∈
        (List.range claims).map fun claim => (⟨range.start + claim * size, items claim⟩ : Write ℤ) :=
      mem_map_of_mem (mem_range.2 hclaim)
    have hputs := Puts.of_mem (d := (0 : ℤ)) hmem (i := i) (by rw [(hall claim (mem_range.2 hclaim)).1]; exact hi)
    have hvalue : (items claim).getD i 0 = digits.getD ((claim * blocks + unit.globalBlockStart) * perBlock * role + i) 0 := by
      rw [hitems, getD_eq_getElem?_getD, getElem?_take_of_lt hi, getElem?_drop, getD_eq_getElem?_getD]
    rw [← add_assoc, ← hvalue]
    exact hputs

end

def DigitBlocks.digitAt (blocks : DigitBlocks) (plane coefficient : ℕ) : ℤ := blocks.digits.getD (plane * blocks.digitStride + coefficient) 0

section planes

variable {unit : WitnessUnitLayout} {digits : DigitBlocks} {role claims depth blocks : ℕ}

/-- Every E tuple in range has its index, and the digit of its plane stands there. -/
def EStands (stands : ℕ → ℤ → Prop) (unit : WitnessUnitLayout) (digits : DigitBlocks) (role claims depth blocks : ℕ) : Prop :=
  ∀ i : ETuple, i.InRange unit role claims depth →
    ∃ place, unit.eCoefficientIndex role claims depth i.claim i.block i.sub i.digit i.coefficient = .ok place ∧
      stands place (digits.digitAt
        (((i.claim * blocks + i.block) * (unit.eGeometry.physicalCoefficientWidth / role) + i.sub) * depth + i.digit) i.coefficient)

/-- The writes go through the E range and leave its digits. -/
structure EWrites (ws : List (Write ℤ)) (unit : WitnessUnitLayout) (digits : DigitBlocks) (role claims depth blocks : ℕ) : Prop where
  through : Through ws [unit.eRange]
  stands : EStands (Puts 0 ws) unit digits role claims depth blocks

theorem Through.empty {range : Span} (hrange : range.start ≤ range.stop) (hlen : range.len = 0) :
    Through ([] : List (Write ℤ)) [range] := by
  refine Through.single ?_
  change range.start = range.stop
  unfold Span.len at hlen
  omega

/-- **E planes.** -/
theorem emitWitnessEPlanes_yields (hrole : 0 < role) (hrange : unit.eRange.Usize) (hclaims : 0 < claims)
    (hempty : unit.numLiveBlocks = 0 → unit.eRange.len = 0) :
    Yields (fun _ write out => emitWitnessEPlanes write role unit unit.eGeometry.physicalCoefficientWidth claims depth digits blocks out)
      fun ws => EWrites ws unit digits role claims depth blocks := by
  unfold emitWitnessEPlanes
  refine Yields.after fun _ hdvd => Yields.after fun _ hstride => Yields.after fun _ _ => Yields.after fun _ _ => ?_
  refine Yields.after fun flat hflat => Yields.after fun _ _ => Yields.after fun perBlock hperBlock => ?_
  simp only [DigitBlocks.typedPlanes, result_ok] at hflat
  obtain ⟨-, hwhole, rfl⟩ := hflat
  obtain ⟨-, rfl⟩ := checkedMul_eq_some.1 (okOr_eq_ok.1 hperBlock)
  have hstride : digits.digitStride = role := ensure_eq_ok.1 hstride
  have hdvd : role ∣ unit.eGeometry.physicalCoefficientWidth := Nat.dvd_of_mod_eq_zero (ensure_eq_ok.1 hdvd)
  have hwidth := Nat.div_mul_cancel hdvd
  by_cases hblocks : unit.numLiveBlocks = 0
  · simp only [if_pos hblocks]
    apply Yields.done
    exact ⟨Through.empty hrange.1 (hempty hblocks), fun i hi => by
      obtain ⟨-, ⟨hge, hlt⟩, -⟩ := hi
      omega⟩
  · simp only [if_neg hblocks]
    have hloop := claimPlanes_yields unit unit.eRange blocks (unit.eGeometry.physicalCoefficientWidth / role * depth)
      (fun claim => unit.eCoefficientIndex role claims depth claim unit.globalBlockStart 0 0 0)
      (EShape unit role claims depth) hrole (Nat.dvd_of_mod_eq_zero hwhole) hrange.1 hclaims ?_ ?_
    · apply hloop.imp
      rintro ws ⟨hws, hshape⟩
      refine ⟨hws.through, ?_⟩
      rintro ⟨claim, block, sub, digit, coefficient⟩ ⟨hclaim, ⟨hge, hlt⟩, hsub, hdigit, hcoeff⟩
      dsimp only at hclaim hge hlt hsub hdigit hcoeff ⊢
      refine ⟨_, eCoefficientIndex_ok hrange hshape hclaim hge hlt hsub hdigit hcoeff, ?_⟩
      obtain ⟨own, rfl⟩ := Nat.exists_eq_add_of_le hge
      have hown : own < unit.numLiveBlocks := by omega
      have hplace := radix_lt (radix_lt (radix_lt hown hsub) hdigit) hcoeff
      have hputs := hws.puts claim hclaim _ (by rw [← mul_assoc unit.numLiveBlocks]; exact hplace)
      have hindex : claim * (unit.numLiveBlocks * (unit.eGeometry.physicalCoefficientWidth / role * depth) * role) +
          (((own * (unit.eGeometry.physicalCoefficientWidth / role) + sub) * depth + digit) * role + coefficient) =
          ePlace unit role depth claim (unit.globalBlockStart + own) sub digit coefficient := by
        rw [ePlace, Nat.add_sub_cancel_left]
        ring
      have hsource : (claim * blocks + unit.globalBlockStart) * (unit.eGeometry.physicalCoefficientWidth / role * depth) * role +
          (((own * (unit.eGeometry.physicalCoefficientWidth / role) + sub) * depth + digit) * role + coefficient) =
          (((claim * blocks + (unit.globalBlockStart + own)) * (unit.eGeometry.physicalCoefficientWidth / role) + sub) * depth + digit) *
            role + coefficient := by ring
      rw [DigitBlocks.digitAt, hstride, ← hsource, ← hindex]
      exact hputs
    · intro claim place hplace
      obtain ⟨hshape, rfl⟩ := eCoefficientIndex_spec hplace
      refine ⟨?_, hshape⟩
      rw [ePlace, Nat.sub_self]
      ring
    · intro hshape
      rw [hshape.len]
      conv_lhs => rw [← hwidth]
      ring

variable {source nA : ℕ}

/-- Every T tuple in range has its index, and the digit of its plane stands there. -/
def TStands (stands : ℕ → ℤ → Prop) (unit : WitnessUnitLayout) (digits : DigitBlocks) (source role claims nA depth blocks : ℕ) :
    Prop := ∀ i : TTuple, i.InRange unit source role claims nA depth →
    ∃ place, unit.tCoefficientIndex source role claims nA depth i.claim i.block i.row i.sub i.digit i.coefficient = .ok place ∧
      stands place (digits.digitAt ((((i.claim * blocks + i.block) * nA + i.row) * (source / role) + i.sub) * depth + i.digit)
        i.coefficient)

/-- The writes go through the T range and leave its digits. -/
structure TWrites (ws : List (Write ℤ)) (unit : WitnessUnitLayout) (digits : DigitBlocks) (source role claims nA depth blocks : ℕ) :
    Prop where
  through : Through ws [unit.tRange]
  stands : TStands (Puts 0 ws) unit digits source role claims nA depth blocks

/-- **T planes.** -/
theorem emitWitnessTPlanes_yields (hrole : 0 < role) (hrange : unit.tRange.Usize) (hclaims : 0 < claims)
    (hempty : unit.numLiveBlocks = 0 → unit.tRange.len = 0) :
    Yields (fun _ write out => emitWitnessTPlanes write source role unit claims nA depth digits blocks out)
      fun ws => TWrites ws unit digits source role claims nA depth blocks := by
  unfold emitWitnessTPlanes
  refine Yields.after fun _ hdvd => Yields.after fun _ hstride => Yields.after fun _ _ => Yields.after fun _ _ => ?_
  refine Yields.after fun flat hflat => Yields.after fun perBlock hperBlock => ?_
  simp only [DigitBlocks.typedPlanes, result_ok] at hflat
  obtain ⟨-, hwhole, rfl⟩ := hflat
  simp only [okOr_eq_ok, option_some, checkedMul_eq_some] at hperBlock
  obtain ⟨_, ⟨-, rfl⟩, -, rfl⟩ := hperBlock
  have hstride : digits.digitStride = role := ensure_eq_ok.1 hstride
  have hdvd : role ∣ source := Nat.dvd_of_mod_eq_zero (ensure_eq_ok.1 hdvd)
  have hwidth := Nat.div_mul_cancel hdvd
  by_cases hblocks : unit.numLiveBlocks = 0
  · simp only [if_pos hblocks]
    apply Yields.done
    exact ⟨Through.empty hrange.1 (hempty hblocks), fun i hi => by
      obtain ⟨-, ⟨hge, hlt⟩, -⟩ := hi
      omega⟩
  · simp only [if_neg hblocks]
    have hloop := claimPlanes_yields unit unit.tRange blocks (nA * (source / role) * depth)
      (fun claim => unit.tCoefficientIndex source role claims nA depth claim unit.globalBlockStart 0 0 0 0)
      (TShape unit source role claims nA depth) hrole (Nat.dvd_of_mod_eq_zero hwhole) hrange.1 hclaims ?_ ?_
    · apply hloop.imp
      rintro ws ⟨hws, hshape⟩
      refine ⟨hws.through, ?_⟩
      rintro ⟨claim, block, row, sub, digit, coefficient⟩ ⟨hclaim, ⟨hge, hlt⟩, hrow, hsub, hdigit, hcoeff⟩
      dsimp only at hclaim hge hlt hrow hsub hdigit hcoeff ⊢
      refine ⟨_, tCoefficientIndex_ok hrange hshape hclaim hge hlt hrow hsub hdigit hcoeff, ?_⟩
      obtain ⟨own, rfl⟩ := Nat.exists_eq_add_of_le hge
      have hown : own < unit.numLiveBlocks := by omega
      have hplace := radix_lt (radix_lt (radix_lt (radix_lt hown hrow) hsub) hdigit) hcoeff
      have hputs := hws.puts claim hclaim _ (by
        rw [← mul_assoc unit.numLiveBlocks, ← mul_assoc unit.numLiveBlocks]
        exact hplace)
      have hindex : claim * (unit.numLiveBlocks * (nA * (source / role) * depth) * role) +
          ((((own * nA + row) * (source / role) + sub) * depth + digit) * role + coefficient) =
          tPlace unit source role nA depth claim (unit.globalBlockStart + own) row sub digit coefficient := by
        rw [tPlace, Nat.add_sub_cancel_left]
        ring
      have hsource : (claim * blocks + unit.globalBlockStart) * (nA * (source / role) * depth) * role +
          ((((own * nA + row) * (source / role) + sub) * depth + digit) * role + coefficient) =
          ((((claim * blocks + (unit.globalBlockStart + own)) * nA + row) * (source / role) + sub) * depth + digit) * role +
            coefficient := by ring
      rw [DigitBlocks.digitAt, hstride, ← hsource, ← hindex]
      exact hputs
    · intro claim place hplace
      obtain ⟨hshape, rfl⟩ := tCoefficientIndex_spec hplace
      refine ⟨?_, hshape⟩
      rw [tPlace, Nat.sub_self]
      ring
    · intro hshape
      rw [hshape.len]
      conv_lhs => rw [← hwidth]
      ring

end planes

end Akita.Witness
