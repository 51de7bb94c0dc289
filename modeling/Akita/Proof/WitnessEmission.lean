import Akita.Proof.PackedWriter
import Akita.Proof.WitnessTailEmission
import Akita.Proof.WitnessUnits

/-!
# The emitted witness realizes its layout

Every unit writes its Z, E and T ranges, the tail its rows and spans: the ranges are written once each and in the
order of their addresses, so the packed writer takes an emission that any sink takes, and what it returns holds every
digit at its index and zeros elsewhere.

* `emitWitness_yields`: what an emission writes, whatever the sink.
* `recursive_witness_realizes_layout`: the packed digits of a build.
-/

/-!
## Fold digits

The balanced digits of a fold response, carry by carry, and the Z planes of a unit.

* `foldDigit_recompose`: a response that the digits represent is the sum of its digits.
* `carryPlanes_eq`: the plane loop writes the digit of every plane.
* `emitZPlanes_yields`: a unit's range is written once, every digit at its index.
-/

namespace Akita.Witness

open Lib List
open Decompose (series halfSum series_succ Represents represents_iff checkedBalancedDigitRepresentableBounds)

section

variable {n : ℕ} {x : ℤ}

/-! ### Digits and carries -/

def carryInto (logBasis plane : ℕ) (x : ℤ) : ℤ := (nextCarry logBasis)^[plane] x

def foldDigit (logBasis plane : ℕ) (x : ℤ) : ℤ := balancedDigit logBasis (carryInto logBasis plane x)

variable {L : ℕ}

theorem balancedDigit_bounds (hL : 0 < L) (c : ℤ) : -2 ^ (L - 1) ≤ balancedDigit L c ∧ balancedDigit L c < 2 ^ (L - 1) := by
  obtain ⟨k, rfl⟩ := Nat.exists_eq_add_of_lt hL
  have hpow : (2 : ℤ) ^ (0 + k + 1) = 2 * 2 ^ (0 + k + 1 - 1) := by
    rw [Nat.add_sub_cancel, pow_succ]
    ring
  have hpos : (0 : ℤ) < 2 ^ (0 + k + 1) := by positivity
  have hlt := Int.emod_lt_of_pos c hpos
  simp only [balancedDigit]
  split <;> omega

theorem nextCarry_mul (c : ℤ) : c = balancedDigit L c + 2 ^ L * nextCarry L c := by
  have hdvd : (2 : ℤ) ^ L ∣ c - balancedDigit L c := by
    have hmod : c - c % 2 ^ L = 2 ^ L * (c / 2 ^ L) := by
      have := Int.emod_add_mul_ediv c (2 ^ L)
      omega
    simp only [balancedDigit]
    split
    · refine ⟨c / 2 ^ L + 1, ?_⟩
      rw [mul_add, mul_one, ← hmod]
      ring
    · exact ⟨c / 2 ^ L, hmod⟩
  rw [nextCarry, Int.mul_ediv_cancel' hdvd]
  ring

/-- **Digits and carry recompose the coefficient.** -/
theorem foldDigit_sum (x : ℤ) (n : ℕ) :
    x = ∑ k ∈ Finset.range n, foldDigit L k x * 2 ^ (L * k) + 2 ^ (L * n) * carryInto L n x := by
  induction n with
  | zero => simp [carryInto]
  | succ n ih =>
    have hstep : carryInto L n x = foldDigit L n x + 2 ^ L * carryInto L (n + 1) x := by
      rw [carryInto, carryInto, Function.iterate_succ_apply']
      exact nextCarry_mul _
    rw [Finset.sum_range_succ, Nat.mul_succ, pow_add]
    rw [hstep] at ih
    linear_combination ih

theorem series_succ' (L n : ℕ) : series L (n + 1) = 1 + 2 ^ L * series L n := by
  unfold series
  rw [Finset.sum_range_succ', Finset.mul_sum, mul_zero, pow_zero, add_comm]
  congr 1
  refine Finset.sum_congr rfl fun k _ => ?_
  rw [← pow_add, Nat.mul_succ, add_comm]

/-- The interval that `n` digits reach. -/
def Reached (L n : ℕ) (x : ℤ) : Prop := -(2 ^ (L - 1) * series L n : ℕ) ≤ x ∧ x ≤ ((2 ^ (L - 1) - 1) * series L n : ℕ)

theorem Reached.next (hL : 0 < L) (h : Reached L (n + 1) x) : Reached L n (nextCarry L x) := by
  obtain ⟨hlow, hhigh⟩ := h
  obtain ⟨hdlow, hdhigh⟩ := balancedDigit_bounds hL x
  have hsplit := nextCarry_mul (L := L) x
  have hbase : (2 : ℤ) ^ L = 2 * 2 ^ (L - 1) := by rw [← pow_succ', Nat.sub_add_cancel hL]
  have hhalf : 1 ≤ 2 ^ (L - 1) := Nat.one_le_two_pow
  rw [series_succ'] at hlow hhigh
  push_cast [Nat.cast_sub hhalf] at hlow hhigh
  set H : ℤ := 2 ^ (L - 1)
  set d := balancedDigit L x
  set c := nextCarry L x
  have hpos : 0 < 2 * H := by
    rw [← hbase]
    positivity
  rw [hbase] at hsplit hlow hhigh
  unfold Reached
  push_cast [Nat.cast_sub hhalf]
  constructor
  · have hmul : 0 < 2 * H * (c + H * series L n + 1) := by linarith
    have := pos_of_mul_pos_right hmul hpos.le
    linarith
  · have hmul : 0 < 2 * H * ((H - 1) * series L n + 1 - c) := by linarith
    have := pos_of_mul_pos_right hmul hpos.le
    linarith

/-- **A reached coefficient leaves no carry.** -/
theorem carryInto_of_reached (hL : 0 < L) (h : Reached L n x) : carryInto L n x = 0 := by
  induction n generalizing x with
  | zero =>
    obtain ⟨hlow, hhigh⟩ := h
    exact le_antisymm hhigh hlow
  | succ n ih =>
    rw [carryInto, Function.iterate_succ_apply]
    exact ih (h.next hL)

/-- **A represented coefficient is the sum of its digits.** -/
theorem foldDigit_recompose (hL : 0 < L) (hL' : L ≤ 16) (hn : 0 < n) (hx : |x| < 2 ^ 128)
    (h : Represents (checkedBalancedDigitRepresentableBounds L n) x) :
    ∑ k ∈ Finset.range n, foldDigit L k x * 2 ^ (L * k) = x := by
  have hreached : Reached L n x := (represents_iff hL hL' hn hx).1 h
  have hsum := foldDigit_sum (L := L) x n
  rw [carryInto_of_reached hL hreached, mul_zero, add_zero] at hsum
  exact hsum.symm

/-! ### Planes -/

theorem asI8_balancedDigit (hL : 0 < L) (hL' : L ≤ 8) (c : ℤ) : asI8 (balancedDigit L c) = balancedDigit L c := by
  obtain ⟨hlow, hhigh⟩ := balancedDigit_bounds hL c
  have hhalf : (2 : ℤ) ^ (L - 1) ≤ 2 ^ 7 := pow_le_pow_right₀ one_le_two (by omega)
  simp only [asI8, Int.bmod]
  split <;> omega

/-- **The plane loop** writes the digit of every plane. -/
theorem carryPlanes_eq (hL : 0 < L) (hL' : L ≤ 8) (n : ℕ) (row : List ℤ) :
    carryPlanes L n row = (range n).map fun k => row.map (foldDigit L k) := by
  induction n generalizing row with
  | zero => rfl
  | succ n ih =>
    rw [carryPlanes, ih, range_succ_eq_map, map_cons, map_map]
    congr 1
    · exact map_congr_left fun c _ => asI8_balancedDigit hL hL' c
    · refine map_congr_left fun k _ => ?_
      rw [map_map, Function.comp_apply]
      refine map_congr_left fun c _ => ?_
      rw [Function.comp_apply, foldDigit, foldDigit, carryInto, carryInto, Function.iterate_succ_apply]

theorem balancedDecompose_spec {row : List ℤ} {planes : List (List ℤ)}
    (h : balancedDecomposeCenteredI32I8Into row n L = .ok planes) :
    planes = (range n).map fun k => row.map (foldDigit L k) := by
  obtain ⟨_, hbasis, h⟩ := bind_eq_ok.1 h
  obtain ⟨hL, hL'⟩ := ensure_eq_ok.1 hbasis
  rw [← pure_eq_ok.1 h, carryPlanes_eq hL hL']

section

variable {D : ℕ} {centered : List ℤ} {planes : List (List (List ℤ))}

theorem planes_eq (h : (chunks D centered).mapM (fun row => balancedDecomposeCenteredI32I8Into row n L) = .ok planes) :
    planes = (chunks D centered).map fun row => (range n).map fun k => row.map (foldDigit L k) := by
  have hall := (forall₂_of_mapM h).imp fun _ _ => balancedDecompose_spec
  rw [← forall₂_eq_eq_eq, forall₂_map_right_iff]
  exact hall.flip.imp fun _ _ heq => heq

section

variable (hD : 0 < D) (hdvd : D ∣ centered.length) (h : (chunks D centered).mapM (fun row => balancedDecomposeCenteredI32I8Into row n L) = .ok planes)

include hD hdvd h

/-- The planes have the width of the rows, and each row has as many planes as digits. -/
theorem planes_width : (∀ row ∈ planes, row.length = n) ∧ ∀ plane ∈ planes.flatten, plane.length = D := by
  rw [planes_eq h]
  constructor
  · intro row hrow
    obtain ⟨_, -, rfl⟩ := mem_map.1 hrow
    simp
  · intro plane hplane
    obtain ⟨row, hrow, hplane⟩ := mem_flatten.1 hplane
    obtain ⟨source, hsource, rfl⟩ := mem_map.1 hrow
    obtain ⟨k, -, rfl⟩ := mem_map.1 hplane
    rw [length_map, length_of_mem_chunks hD hdvd hsource]

/-- **The planes of a response**, read coefficient by coefficient. -/
theorem planes_getElem? {r k c : ℕ} (hk : k < n) (hc : c < D) :
    planes.flatten.flatten[(r * n + k) * D + c]? = (centered[r * D + c]?).map (foldDigit L k) := by
  obtain ⟨hrows, hplanes⟩ := planes_width hD hdvd h
  have hsource : centered[r * D + c]? = ((chunks D centered)[r]?).bind fun row => row[c]? := by
    rw [← getElem?_flatten (fun _ hrow => length_of_mem_chunks hD hdvd hrow) hc, flatten_chunks hD]
  rw [getElem?_flatten hplanes hc, getElem?_flatten hrows hk, planes_eq h, getElem?_map, hsource]
  cases (chunks D centered)[r]? with
  | none => rfl
  | some row => simp [hk]

end

end

/-! ### Emission -/

/-- Every Z tuple in range has its index, and the fold digit of its coefficient stands there. -/
def ZStands (stands : ℕ → ℤ → Prop) (unit : WitnessUnitLayout) (centered : List ℤ)
    (source positions depthWitness depthFold logBasis : ℕ) : Prop :=
  ∀ i : ZTuple, i.InRange source positions depthWitness depthFold →
    ∃ place, unit.zCoefficientIndex source positions depthWitness depthFold i.position i.witnessDigit i.foldDigit i.coefficient =
        .ok place ∧ stands place (foldDigit logBasis i.foldDigit
        (centered.getD ((i.position * depthWitness + i.witnessDigit) * source + i.coefficient) 0))

/-- The writes go through the Z range and leave its digits. -/
structure ZWrites (ws : List (Write ℤ)) (unit : WitnessUnitLayout) (centered : List ℤ) (source positions depthWitness depthFold logBasis : ℕ) :
    Prop where
  through : Through ws [unit.zRange]
  stands : ZStands (Puts 0 ws) unit centered source positions depthWitness depthFold logBasis

/-- **Z planes.** -/
theorem emitZPlanes_yields {D : ℕ} {fold : CpuAcceptedFold} {plan : CpuRecursiveWitnessUnitPlan} (hrange : plan.unit.zRange.Usize) :
    Yields (fun _ write out => fold.emitZPlanes write D plan out) fun ws =>
      ∃ centered, fold.centeredFor plan.unit.chunkIndex = .ok centered ∧
        ZWrites ws plan.unit centered D plan.numPositionsPerBlock plan.numDigitsInner plan.numDigitsFold plan.logBasisOpen := by
  refine Yields.after fun _ hring => Yields.after fun _ _ => Yields.after fun centered hcent => Yields.after fun _ hdvd => ?_
  refine Yields.after fun _ _ => Yields.after fun planes hplanes => Yields.after fun expected hexp => Yields.after fun _ hextent => ?_
  apply Yields.write
  simp only [CpuAcceptedFold.ensureRingDim, result_ok, not_or] at hring
  have hD : 0 < D := pos_of_ne_zero hring.2.2.1.1
  have hdvd : D ∣ centered.length := Nat.dvd_of_mod_eq_zero (ensure_eq_ok.1 hdvd)
  simp only [okOr_eq_ok, option_some, checkedMul_eq_some] at hexp
  obtain ⟨_, ⟨-, rfl⟩, -, hexp⟩ := hexp
  obtain ⟨hcount, hlen⟩ := not_or.1 (ensure_eq_ok.1 hextent)
  have hcount := not_not.1 hcount
  have hlen := not_not.1 hlen
  obtain ⟨hrows, hwidth⟩ := planes_width hD hdvd hplanes
  have hflat : planes.flatten.flatten.length = plan.numPositionsPerBlock * plan.numDigitsInner * plan.numDigitsFold * D := by
    rw [length_flatten_of_width hwidth, hcount, hexp]
  rw [hflat] at hlen
  refine ⟨centered, hcent, Through.single ?_, ?_⟩
  · have hle := hrange.1
    refine ⟨rfl, Nat.le_add_right _ _, ?_⟩
    change plan.unit.zRange.start + planes.flatten.flatten.length = plan.unit.zRange.stop
    unfold Span.len at hlen
    omega
  · rintro ⟨position, witnessDigit, k, coefficient⟩ ⟨hpos, hwit, hk, hcoeff⟩
    dsimp only at hpos hwit hk hcoeff ⊢
    refine ⟨_, zCoefficientIndex_ok hrange hlen.symm hpos hwit hk hcoeff, ?_⟩
    have hrow := radix_lt hpos hwit
    have hplace := radix_lt (radix_lt hrow hk) hcoeff
    have hputs := Puts.of_mem (d := (0 : ℤ)) (mem_singleton_self (⟨plan.unit.zRange.start, planes.flatten.flatten⟩ : Write ℤ))
      (hflat ▸ hplace)
    -- the row of the tuple is one of the response
    have hrowsLen : (chunks D centered).length = plan.numPositionsPerBlock * plan.numDigitsInner := by
      have hplanesLen := length_flatten_of_width hrows
      rw [hcount, hexp, planes_eq hplanes, length_map] at hplanesLen
      exact (Nat.eq_of_mul_eq_mul_right (by omega) hplanesLen).symm
    have hsource : (position * plan.numDigitsInner + witnessDigit) * D + coefficient < centered.length := by
      rw [← length_chunks hD hdvd, hrowsLen]
      exact radix_lt hrow hcoeff
    have hvalue : planes.flatten.flatten.getD (zPlace D plan.numDigitsInner plan.numDigitsFold position witnessDigit k coefficient) 0 =
        foldDigit plan.logBasisOpen k (centered.getD ((position * plan.numDigitsInner + witnessDigit) * D + coefficient) 0) := by
      rw [zPlace, getD_eq_getElem?_getD, planes_getElem? hD hdvd hplanes hk hcoeff, getElem?_eq_getElem hsource,
        getD_eq_getElem _ _ hsource]
      rfl
    rw [← hvalue]
    exact hputs

end

open Decompose (BalancedDecomposePow2Params CanonicalU128 Represents checkedBalancedDigitRepresentableBounds)
open PackedDigits (PackedSignedDigits PackedSignedDigitWriter)

/-! ## Units -/

section

variable {S T : ℕ → ℤ → Prop} {unit : WitnessUnitLayout} {digits : DigitBlocks}

section

variable (hST : ∀ p v, S p v → T p v) {blocks source depth role : ℕ}

include hST

theorem EStands.imp {claims : ℕ}
    (h : EStands S unit digits role claims depth blocks) : EStands T unit digits role claims depth blocks :=
  fun i hi => (h i hi).imp fun _ h => ⟨h.1, hST _ _ h.2⟩

theorem TStands.imp {claims nA : ℕ}
    (h : TStands S unit digits source role claims nA depth blocks) : TStands T unit digits source role claims nA depth blocks :=
  fun i hi => (h i hi).imp fun _ h => ⟨h.1, hST _ _ h.2⟩

theorem ZStands.imp {centered : List ℤ} {positions depthWitness depthFold logBasis : ℕ}
    (h : ZStands S unit centered source positions depthWitness depthFold logBasis) :
    ZStands T unit centered source positions depthWitness depthFold logBasis :=
  fun i hi => (h i hi).imp fun _ h => ⟨h.1, hST _ _ h.2⟩

end

/-- The digits of a unit stand at their indices: the E and T digits of its group, and the digits of the fold response
of its own chunk. -/
structure UnitStands (stands : ℕ → ℤ → Prop) (unit : WitnessUnitLayout) (group : PreparedRingSwitchGroup) (claims : ℕ) : Prop where
  e : EStands stands unit group.eHat group.roleDims.opening claims group.params.numDigitsOpen group.params.numLiveBlocks
  t : TStands stands unit group.tHat group.roleDims.inner group.roleDims.outer claims group.params.aRowsLen group.params.numDigitsOuter
    group.params.numLiveBlocks
  z : ∃ centered, group.fold.centeredFor unit.chunkIndex = .ok centered ∧
    ZStands stands unit centered group.roleDims.inner group.params.numPositionsPerBlock group.params.numDigitsInner
      group.params.numDigitsFold group.logBasisOpen

variable {group : PreparedRingSwitchGroup} {claims : ℕ} {modulusBits : ℕ}

theorem UnitStands.imp (hST : ∀ p v, S p v → T p v) (h : UnitStands S unit group claims) : UnitStands T unit group claims := by
  obtain ⟨centered, hcent, hz⟩ := h.z
  exact ⟨h.e.imp hST, h.t.imp hST, centered, hcent, hz.imp hST⟩

theorem dispatchForField_pos {d : ℕ} {role : RingRole} {done : Unit}
    (h : dispatchForField modulusBits role d = .ok done) : 0 < d := by
  have hmem := ensure_eq_ok.1 h
  by_contra hzero
  obtain rfl : d = 0 := by omega
  cases role
  · simp only [roleArms] at hmem
    split at hmem <;> simp at hmem
  · simp [roleArms] at hmem
  · simp [roleArms] at hmem

/-- What a unit leaves: writes through its three ranges. -/
structure UnitWrites (ws : List (Write ℤ)) (unit : WitnessUnitLayout) (group : PreparedRingSwitchGroup) (claims : ℕ) : Prop where
  through : Through ws (unitRanges unit)
  stands : UnitStands (Puts 0 ws) unit group claims

/-- **A unit** writes its Z, E and T planes. -/
theorem buildWitnessUnit_yields {expectedChunks : ℕ} (hranges : ∀ range ∈ unitRanges unit, range.Usize) (hclaims : 0 < claims)
    (hempty : unit.numLiveBlocks = 0 → unit.eRange.len = 0 ∧ unit.tRange.len = 0) :
    Yields (fun _ write out => buildWitnessUnit write modulusBits unit group claims expectedChunks out) fun ws =>
      UnitWrites ws unit group claims := by
  refine Yields.after fun _ _ => Yields.after fun plan hplan => Yields.after fun _ _ => ?_
  simp only [CpuRecursiveWitnessUnitPlan.new, result_ok] at hplan
  obtain ⟨-, rfl⟩ := hplan
  have hz : Yields (fun _ write out => group.fold.emitZPlanes write group.roleDims.inner ⟨unit, group.params.numPositionsPerBlock,
      group.params.numDigitsInner, group.params.numDigitsFold, group.logBasisOpen, expectedChunks⟩ out) fun ws =>
      ∃ centered, group.fold.centeredFor unit.chunkIndex = .ok centered ∧ ZWrites ws unit centered group.roleDims.inner
        group.params.numPositionsPerBlock group.params.numDigitsInner group.params.numDigitsFold group.logBasisOpen :=
    emitZPlanes_yields (hranges _ (by simp [unitRanges]))
  have hrest : Yields (fun _ write out => do
      dispatchForField modulusBits .opening group.roleDims.opening
      let out ← emitWitnessEPlanes write group.roleDims.opening unit unit.eGeometry.physicalCoefficientWidth claims
        group.params.numDigitsOpen group.eHat group.params.numLiveBlocks out
      dispatchForField modulusBits .inner group.roleDims.inner
      dispatchForField modulusBits .outer group.roleDims.outer
      emitWitnessTPlanes write group.roleDims.inner group.roleDims.outer unit claims group.params.aRowsLen
        group.params.numDigitsOuter group.tHat group.params.numLiveBlocks out) fun ws => ∃ us vs, ws = us ++ vs ∧
      EWrites us unit group.eHat group.roleDims.opening claims group.params.numDigitsOpen group.params.numLiveBlocks ∧
      TWrites vs unit group.tHat group.roleDims.inner group.roleDims.outer claims group.params.aRowsLen group.params.numDigitsOuter
        group.params.numLiveBlocks := by
    refine Yields.after fun _ hopen => Yields.bind ?_ (Yields.after fun _ _ => Yields.after fun _ houter => ?_)
    · exact emitWitnessEPlanes_yields (dispatchForField_pos hopen) (hranges _ (by simp [unitRanges])) hclaims fun h => (hempty h).1
    · exact emitWitnessTPlanes_yields (dispatchForField_pos houter) (hranges _ (by simp [unitRanges])) hclaims fun h => (hempty h).2
  apply (hz.bind hrest).imp
  rintro ws ⟨zs, _, rfl, ⟨centered, hcent, hzs⟩, us, vs, rfl, hus, hvs⟩
  have hsub : ∀ {ws' : List (Write ℤ)}, ws' ⊆ zs ++ (us ++ vs) → ∀ p v, Puts 0 ws' p v → Puts 0 (zs ++ (us ++ vs)) p v :=
    fun hsub p v hputs => hputs.mono hsub
  refine ⟨hzs.through.append (hus.through.append hvs.through), hus.stands.imp (hsub ?_), hvs.stands.imp (hsub ?_), centered, hcent,
    hzs.stands.imp (hsub ?_)⟩
  · exact fun w hw => mem_append_right _ (mem_append_left _ hw)
  · exact fun w hw => mem_append_right _ (mem_append_right _ hw)
  · exact fun w hw => mem_append_left _ hw

end

/-! ## The whole emission -/

section whole

variable {F : Type} (toU128Checked : CanonicalU128 F) (batch : OpeningClaimsLayout) (layout : WitnessLayout) (inputs : WitnessInputs F)
  {ws : List (Write ℤ)}

def emittedRanges : List Span := layout.units.flatMap unitRanges ++ tailRanges layout

def UnitsStand (stands : ℕ → ℤ → Prop) : Prop :=
  ∀ u ∈ layout.units, ∃ claims group, batch.groupLayout u.groupIndex = .ok claims ∧ inputs.owned[u.groupIndex]? = some group ∧
    UnitStands stands u group claims.numPolynomials

/-- The digits of every quotient row stand at their indices. -/
def RowsStand [Ring F] (stands : ℕ → ℤ → Prop) : Prop :=
  ∀ (i : ℕ) (row : WitnessQuotientRowLayout), layout.rRows[i]? = some row → ∃ quotients levels params quotient,
    inputs.tail = .quotientLift quotients ∧ computeNumDigitsFieldWidth inputs.modulusBits inputs.logBasisOpen = .ok levels ∧
      BalancedDecomposePow2Params.new toU128Checked levels inputs.logBasisOpen = some params ∧ quotients[i]? = some quotient ∧
      RStands stands toU128Checked layout i row.geometry quotient.coefficients params

/-- The digits of the map of every source stand in its span. -/
def SpansStand (stands : ℕ → ℤ → Prop) : Prop :=
  ∀ layer ∈ layout.compressionLayers, ∀ entry ∈ layerEntries layer, ∃ materials material packed,
    inputs.compression = some materials ∧ materials.source entry.1 = .ok material ∧
      material.witness.stages[layer.mapIndex]? = some packed ∧ SpanStands stands entry.2 packed

/-- What stands in the units, the quotient rows and the spans. -/
structure Stands [Ring F] (stands : ℕ → ℤ → Prop) : Prop where
  units : UnitsStand batch layout inputs stands
  rows : RowsStand toU128Checked layout inputs stands
  spans : SpansStand layout inputs stands

/-- Every range that holds an address is written once, in the order of the addresses. -/
structure WrittenOnce (ws : List (Write ℤ)) : Prop where
  inOrder : InOrder ws
  through : ∃ order, order.Perm (layout.units.flatMap unitRanges ++ nonempty (tailRanges layout)) ∧
    (order.Pairwise fun s t => s.stop ≤ t.start) ∧ Through ws order

variable {toU128Checked batch layout inputs}

section

variable {S T : ℕ → ℤ → Prop} (hST : ∀ p v, S p v → T p v)

include hST

theorem UnitsStand.imp (h : UnitsStand batch layout inputs S) : UnitsStand batch layout inputs T := by
  intro u hu
  obtain ⟨claims, group, hclaims, hgroup, hstands⟩ := h u hu
  exact ⟨claims, group, hclaims, hgroup, hstands.imp hST⟩

theorem RowsStand.imp [Ring F] (h : RowsStand toU128Checked layout inputs S) : RowsStand toU128Checked layout inputs T := by
  intro i row hrow
  obtain ⟨quotients, levels, params, quotient, htail, hlevels, hnew, hquot, hstands⟩ := h i row hrow
  exact ⟨quotients, levels, params, quotient, htail, hlevels, hnew, hquot, hstands.imp hST⟩

theorem SpansStand.imp (h : SpansStand layout inputs S) : SpansStand layout inputs T := by
  intro layer hlayer entry hentry
  obtain ⟨materials, material, packed, hmats, hmat, hpacked, hstands⟩ := h layer hlayer entry hentry
  exact ⟨materials, material, packed, hmats, hmat, hpacked, hstands.imp hST⟩

end

theorem WrittenOnce.holds_iff (h : WrittenOnce layout ws) (p : ℕ) :
    (∃ w ∈ ws, w.span.Holds p) ↔ ∃ range ∈ emittedRanges layout, range.Holds p := by
  obtain ⟨order, hperm, -, hthrough⟩ := h.through
  rw [hthrough.holds_iff]
  simp only [hperm.mem_iff, emittedRanges, nonempty, mem_append, mem_filter]
  constructor
  · rintro ⟨range, hrange | ⟨hrange, -⟩, hp⟩
    · exact ⟨range, .inl hrange, hp⟩
    · exact ⟨range, .inr hrange, hp⟩
  · rintro ⟨range, hrange | hrange, hp⟩
    · exact ⟨range, .inl hrange, hp⟩
    · have hlt : range.start < range.stop := hp.1.trans_lt hp.2
      exact ⟨range, .inr ⟨hrange, by simpa [Span.isEmpty] using hlt⟩, hp⟩

variable {lp : CommittedGroupParams}

section

variable (hlayout : Emittable lp batch layout)

include hlayout

theorem Emittable.unit_usize {u : WitnessUnitLayout} (hu : u ∈ layout.units) :
    ∀ range ∈ unitRanges u, range.Usize := fun _ hrange =>
  hlayout.usize (mem_append_left _ (mem_append_left _ (mem_append_left _ (mem_flatMap.2 ⟨u, hu, hrange⟩))))

theorem Emittable.emitted : ∀ range ∈ emittedRanges layout, range.stop ≤ layout.liveCoeffLen := by
  intro range hrange
  refine (hlayout.bounds range ?_).2
  rcases mem_append.1 hrange with hrange | hrange
  · exact mem_append_left _ (mem_append_left _ (mem_append_left _ hrange))
  · exact tailRanges_sub hrange

/-- **Units before the tail** keep the order. -/
theorem writtenOnce_append {us vs : List (Write ℤ)} {order : List Span}
    (hus : Through us (layout.units.flatMap unitRanges)) (hperm : order.Perm (nonempty (tailRanges layout)))
    (horder : order.Pairwise fun s t => s.stop ≤ t.start) (hvs : Through vs order) : WrittenOnce layout (us ++ vs) := by
  have hthrough := hus.append hvs
  have hall : (layout.units.flatMap unitRanges ++ order).Pairwise fun s t => s.stop ≤ t.start := by
    refine pairwise_append.2 ⟨hlayout.unitOrder, horder, fun s hs t ht => (hlayout.body s hs).trans (hlayout.tail t ?_)⟩
    exact (mem_filter.1 (hperm.mem_iff.1 ht)).1
  exact ⟨hthrough.inOrder hall, _, hperm.append_left _, hall, hthrough⟩

theorem units_yields : Yields (fun _ write out => layout.units.foldlM (fun out unit => do
        let groupLayout ← batch.groupLayout unit.groupIndex
        let group ← okOr inputs.owned[unit.groupIndex]? PackedDigits.indexOutOfBounds
        buildWitnessUnit write inputs.modulusBits unit group groupLayout.numPolynomials (layout.numChunksForGroup unit.groupIndex) out) out)
      fun ws => Through ws (layout.units.flatMap unitRanges) ∧ UnitsStand batch layout inputs (Puts 0 ws) := by
  refine Yields.imp (Yields.foldlM (R := fun u ws => ∃ claims group, batch.groupLayout u.groupIndex = .ok claims ∧
    inputs.owned[u.groupIndex]? = some group ∧ UnitWrites ws u group claims.numPolynomials) fun u hu => ?_) ?_
  · refine Yields.after fun claims hclaims => Yields.after fun group hgroup => ?_
    obtain ⟨final, -, hunits⟩ := hlayout.units
    obtain ⟨params, dims, polynomials, hof⟩ := hunits u hu
    obtain rfl : polynomials = claims := Except.ok.inj (hof.claimsOk.symm.trans hclaims)
    apply (buildWitnessUnit_yields (hlayout.unit_usize hu) (pos_of_ne_zero hof.positive) fun hzero => ?_).imp
    · exact fun ws hws => ⟨polynomials, group, hclaims, okOr_eq_ok.1 hgroup, hws⟩
    · rw [hof.e, hof.t, hzero]
      simp
  · rintro ws ⟨wss, rfl, hwss⟩
    refine ⟨Through.flatten (hwss.imp fun _ _ h => ?_), fun u hu => ?_⟩
    · obtain ⟨_, _, -, -, h⟩ := h
      exact h.through
    · obtain ⟨ws, hws, claims, group, hclaims, hgroup, hwrites⟩ := forall₂_mem_left hwss hu
      exact ⟨claims, group, hclaims, hgroup, hwrites.stands.imp fun p v hputs => hputs.mono fun w hw => mem_flatten.2 ⟨ws, hws, hw⟩⟩

end

variable [Ring F] {q : ℕ}

/-- **What an emission writes**, whatever the sink. -/
theorem emitWitness_yields (hlaw : toU128Checked.Lawful q) (hq : 2 < q) (hlayout : Emittable lp batch layout) :
    Yields (fun _ write out => emitWitness write toU128Checked batch layout inputs out) fun ws =>
      WrittenOnce layout ws ∧ Stands toU128Checked batch layout inputs (Puts 0 ws) := by
  unfold emitWitness
  rcases htail : inputs.tail with quotients | _
  · have hquot : Yields (fun _ write out => do
        let levels ← computeNumDigitsFieldWidth inputs.modulusBits inputs.logBasisOpen
        emitWitnessTail write toU128Checked layout quotients levels inputs.logBasisOpen inputs.compression out) fun vs =>
        ∃ levels, computeNumDigitsFieldWidth inputs.modulusBits inputs.logBasisOpen = .ok levels ∧
          ∃ params, BalancedDecomposePow2Params.new toU128Checked levels inputs.logBasisOpen = some params ∧
            TailWrites toU128Checked layout quotients params inputs.compression vs :=
      Yields.after fun levels hlevels => (emitWitnessTail_yields hlaw hq hlayout).imp fun vs hvs => ⟨levels, hlevels, hvs⟩
    refine Yields.imp ((units_yields hlayout).bind hquot) ?_
    rintro ws ⟨us, vs, rfl, ⟨hus, hunits⟩, levels, hlevels, params, hnew, ⟨order, hperm, horder, hvs⟩, hpieces⟩
    have hright : ∀ p v, Puts 0 vs p v → Puts 0 (us ++ vs) p v := fun p v hputs => hputs.mono (subset_append_right us vs)
    refine ⟨writtenOnce_append hlayout hus hperm horder hvs, hunits.imp fun p v hputs => hputs.mono (subset_append_left us vs),
      RowsStand.imp hright fun i row hrow => ?_, SpansStand.imp hright fun layer hlayer entry hentry => ?_⟩
    · obtain ⟨quotient, hquot, hstands⟩ := hpieces _ (row_mem_tailPieces.2 hrow)
      exact ⟨quotients, levels, params, quotient, htail, hlevels, hnew, hquot, hstands⟩
    · exact hpieces _ (span_mem_tailPieces.2 ⟨hlayer, hentry⟩)
  · have hreduced : Yields (fun _ write out => emitReducedWitnessTail write layout inputs.compression out)
        (TailWrites toU128Checked layout [] ⟨0, 0, 0, 0, [], []⟩ inputs.compression) := emitReducedWitnessTail_yields hlayout
    refine Yields.imp ((units_yields hlayout).bind hreduced) ?_
    rintro ws ⟨us, vs, rfl, ⟨hus, hunits⟩, ⟨order, hperm, horder, hvs⟩, hpieces⟩
    have hright : ∀ p v, Puts 0 vs p v → Puts 0 (us ++ vs) p v := fun p v hputs => hputs.mono (subset_append_right us vs)
    refine ⟨writtenOnce_append hlayout hus hperm horder hvs, hunits.imp fun p v hputs => hputs.mono (subset_append_left us vs),
      RowsStand.imp hright fun i row hrow => ?_, SpansStand.imp hright fun layer hlayer entry hentry => ?_⟩
    · obtain ⟨quotient, hquot, -⟩ := hpieces _ (row_mem_tailPieces.2 hrow)
      cases hquot
    · exact hpieces _ (span_mem_tailPieces.2 ⟨hlayer, hentry⟩)

/-! ## The build -/

/-- Packed digits that realize a layout: every digit at its index, and zeros at the other addresses. -/
structure Realizes (toU128Checked : CanonicalU128 F) (batch : OpeningClaimsLayout) (layout : WitnessLayout) (inputs : WitnessInputs F)
    (packed : PackedSignedDigits) : Prop where
  len : packed.len = layout.liveCoeffLen
  digits : Stands toU128Checked batch layout inputs fun p v => packed.get p = .ok (some v)
  elsewhere : ∀ p < layout.liveCoeffLen, (∀ range ∈ emittedRanges layout, ¬ range.Holds p) → packed.get p = .ok (some 0)

variable {witnessLogBasis : ℕ} {packed : PackedSignedDigits}

/-- What a build writes, and that the packed digits hold it and fit their width. -/
theorem build_writes (hlaw : toU128Checked.Lawful q) (hq : 2 < q) (hlayout : Emittable lp batch layout)
    (h : cpuRecursiveWitnessBuild toU128Checked batch layout inputs witnessLogBasis = .ok packed) :
    packed.len = layout.liveCoeffLen ∧ ∃ ws, (WrittenOnce layout ws ∧ Stands toU128Checked batch layout inputs (Puts 0 ws)) ∧
      InOrder ws ∧ (∀ w ∈ ws, w.span.stop ≤ layout.liveCoeffLen) ∧ (∀ p, PackedDigits.Fits witnessLogBasis (itemAt 0 ws p)) ∧
      ∀ p < layout.liveCoeffLen, packed.get p = .ok (some (itemAt 0 ws p)) := by
  obtain ⟨_, -, h⟩ := bind_eq_ok.1 h
  obtain ⟨writer, hwriter, h⟩ := bind_eq_ok.1 h
  obtain ⟨written, hwritten, h⟩ := bind_eq_ok.1 h
  obtain ⟨_, -, h⟩ := bind_eq_ok.1 h
  obtain ⟨digits, hfinish, hflat⟩ := bind_eq_ok.1 h
  simp only [fromWitnessLayout, result_ok] at hflat
  obtain ⟨hlen, -, hdigs⟩ := hflat
  rw [hdigs] at hfinish hlen
  obtain ⟨ws, hemits, hws, hstands⟩ := emitWitness_yields hlaw hq hlayout _ _ _ _ hwritten
  have hwrites : writeAll PackedSignedDigitWriter.writeAt ws writer = .ok written := (hemits _ _ _).symm.trans hwritten
  obtain ⟨hnew, -, hwriterLen, hwidth⟩ := PackedDigits.new_represents hlayout.live hwriter
  obtain ⟨hrep, horder, hstops, hwrittenLen, hkept⟩ := PackedDigits.writeAll_represents hnew hwrites
  obtain ⟨-, -, hfits, hget⟩ := PackedDigits.finish_spec hrep hfinish
  rw [hwrittenLen, hwriterLen] at hget
  rw [hwriterLen] at hstops
  rw [hkept, hwidth] at hfits
  exact ⟨hlen, ws, ⟨hws, hstands⟩, horder, hstops, hfits, hget⟩

/-- **A build realizes its layout.** -/
theorem build_realizes (hlaw : toU128Checked.Lawful q) (hq : 2 < q) (hlayout : Emittable lp batch layout)
    (h : cpuRecursiveWitnessBuild toU128Checked batch layout inputs witnessLogBasis = .ok packed) :
    Realizes toU128Checked batch layout inputs packed := by
  obtain ⟨hlen, ws, ⟨hws, hstands⟩, horder, hstops, -, hget⟩ := build_writes hlaw hq hlayout h
  have hputs : ∀ p v, Puts 0 ws p v → packed.get p = .ok (some v) := by
    intro p v hputs
    have hvalue := hputs.itemAt_eq horder
    obtain ⟨w, hw, hp, -⟩ := hputs
    rw [hget p (hp.2.trans_le (hstops w hw)), hvalue]
  refine ⟨hlen, ⟨hstands.units.imp hputs, hstands.rows.imp hputs, hstands.spans.imp hputs⟩, fun p hp hnot => ?_⟩
  have hfree : ∀ w ∈ ws, ¬ w.span.Holds p := by
    intro w hw hholds
    obtain ⟨range, hrange, hin⟩ := (hws.holds_iff p).1 ⟨w, hw, hholds⟩
    exact hnot range hrange hin
  rw [hget p hp, itemAt_of_not_holds hfree]

/-- **The writer takes an honest emission**: one whose own checks pass, so that some sink takes it. -/
theorem writer_takes (hlayout : Emittable lp batch layout) (hws : WrittenOnce layout ws) {width : ℕ}
    {writer : PackedSignedDigitWriter} (hwriter : PackedSignedDigitWriter.new layout.liveCoeffLen width = .ok writer) :
    ∃ written, writeAll PackedSignedDigitWriter.writeAt ws writer = .ok written ∧
      ((∀ w ∈ ws, ∀ digit ∈ w.items, PackedDigits.Fits width digit) → ∃ packed, written.finish = .ok packed) := by
  obtain ⟨hnew, hpos, hlen, hwidth⟩ := PackedDigits.new_represents hlayout.live hwriter
  obtain ⟨order, hperm, -, hthrough⟩ := hws.through
  obtain ⟨written, hwritten⟩ := PackedDigits.writeAll_taken hnew hws.inOrder fun w hw => by
    obtain ⟨range, hrange, -, hstop⟩ := hthrough.bounds w hw
    have hemitted : range ∈ emittedRanges layout := by
      rcases mem_append.1 (hperm.mem_iff.1 hrange) with hrange | hrange
      · exact mem_append_left _ hrange
      · exact mem_append_right _ (mem_filter.1 hrange).1
    rw [hpos, hlen]
    exact ⟨Nat.zero_le _, hstop.trans (hlayout.emitted range hemitted)⟩
  refine ⟨written, hwritten, fun hfits => ?_⟩
  obtain ⟨hrep, -, -, -, hwrittenWidth⟩ := PackedDigits.writeAll_represents hnew hwritten
  refine PackedDigits.finish_ok hrep fun i => ?_
  rw [hwrittenWidth, hwidth]
  exact itemAt_of_forall (PackedDigits.fits_zero width) hfits

/-- **The emitted recursive witness realizes its layout.** Of every layout that the constructor returns: the packed digits
of a build hold every digit at its index and zeros elsewhere; an emission that any sink takes writes every range once, in
the order of the addresses, so that the packed writer takes it, and finishes it where its width represents the digits; and
the fold digits of a represented response recompose to it. -/
theorem recursive_witness_realizes_layout (hlaw : toU128Checked.Lawful q) (hq : 2 < q) (level : RelationLevelParams)
    (lp : CommittedGroupParams) (batch : OpeningClaimsLayout) (geometry : RelationWitnessGeometry) (numChunks : ℕ)
    (plan : RelationQuotientPlan) (layout : WitnessLayout)
    (hlayout : WitnessLayout.new lp batch geometry numChunks level.forLevel plan = .ok layout) (inputs : WitnessInputs F) :
    (∀ witnessLogBasis packed, cpuRecursiveWitnessBuild toU128Checked batch layout inputs witnessLogBasis = .ok packed →
      Realizes toU128Checked batch layout inputs packed) ∧
    (∀ (S : Type) (write : S → ℕ → List ℤ → Result S) (s s' : S), emitWitness write toU128Checked batch layout inputs s = .ok s' →
      ∃ ws, WrittenOnce layout ws ∧
        (∀ (T : Type) (write : T → ℕ → List ℤ → Result T) (t : T), emitWitness write toU128Checked batch layout inputs t =
          writeAll write ws t) ∧ ∀ width writer, PackedSignedDigitWriter.new layout.liveCoeffLen width = .ok writer →
          ∃ written, emitWitness PackedSignedDigitWriter.writeAt toU128Checked batch layout inputs writer = .ok written ∧
            ((∀ w ∈ ws, ∀ digit ∈ w.items, PackedDigits.Fits width digit) → ∃ packed, written.finish = .ok packed)) ∧
    ∀ (logBasis numDigits : ℕ) (centered : List ℤ) (planes : List (List ℤ)), 0 < numDigits →
      balancedDecomposeCenteredI32I8Into centered numDigits logBasis = .ok planes → ∀ c x, centered[c]? = some x →
        -2 ^ 31 ≤ x → x < 2 ^ 31 → Represents (checkedBalancedDigitRepresentableBounds logBasis numDigits) x →
          (∀ k < numDigits, (planes.getD k []).getD c 0 = foldDigit logBasis k x) ∧
            ∑ k ∈ Finset.range numDigits, (planes.getD k []).getD c 0 * 2 ^ (logBasis * k) = x := by
  have hemittable := new_emittable hlayout
  refine ⟨fun witnessLogBasis packed h => build_realizes hlaw hq hemittable h, fun S write s s' h => ?_,
    fun logBasis numDigits centered planes hpos hplanes c x hx hlow hhigh hrep => ?_⟩
  · obtain ⟨ws, hemits, hws, -⟩ := emitWitness_yields hlaw hq hemittable S write s s' h
    refine ⟨ws, hws, fun T write t => hemits T write t, fun width writer hwriter => ?_⟩
    obtain ⟨written, hwritten, hfinish⟩ := writer_takes hemittable hws hwriter
    exact ⟨written, (hemits _ _ _).trans hwritten, hfinish⟩
  · have hdigits : ∀ k < numDigits, (planes.getD k []).getD c 0 = foldDigit logBasis k x := by
      intro k hk
      have hplane : planes.getD k [] = centered.map (foldDigit logBasis k) := by
        rw [balancedDecompose_spec hplanes, getD_eq_getElem?_getD, getElem?_map, getElem?_range hk]
        rfl
      rw [hplane, getD_eq_getElem?_getD, getElem?_map, hx]
      rfl
    refine ⟨hdigits, ?_⟩
    obtain ⟨_, hbasis, -⟩ := bind_eq_ok.1 hplanes
    obtain ⟨hL, hL'⟩ := ensure_eq_ok.1 hbasis
    have habs : |x| < 2 ^ 128 := by
      rw [abs_lt]
      omega
    rw [Finset.sum_congr rfl fun k hk => by rw [hdigits k (Finset.mem_range.1 hk)]]
    exact foldDigit_recompose hL (by omega) hpos habs hrep

end whole

/-! ## A build -/

/-- A raw level without quotients: one group of one block. -/
def rawLevel : CommittedGroupParams := ⟨[], ⟨1, 1, 1, 1, 1, 2, 1, 64, 64⟩, 64, .raw, .reducedEvaluation, none, []⟩

def rawBatch : OpeningClaimsLayout := ⟨[⟨6, 1⟩]⟩

def rawGeometry : RelationWitnessGeometry :=
  ⟨1, ⟨64, 1, [⟨0, ⟨64, 64, 64⟩, ⟨64, 1, 64⟩, .evaluationTrace, 1, 1, 1⟩], none⟩⟩

/-- The digits of its group, with the response five everywhere. -/
def rawInputs : WitnessInputs (ZMod 5) :=
  ⟨[⟨rawLevel.ownGroup, 2, ⟨64, 64, 64⟩, ⟨List.replicate 64 1, [1], 64⟩, ⟨List.replicate 64 (-1), [1], 64⟩,
    ⟨List.replicate 64 5, 64, none, 64, 1⟩⟩], .reducedEvaluation, none, 3, 2⟩

theorem recursive_witness_realizes_layout_raw : ∃ layout packed,
    WitnessLayout.new rawLevel rawBatch rawGeometry 1 sampleLevelParams.forLevel .reducedEvaluation = .ok layout ∧
      cpuRecursiveWitnessBuild (Decompose.zmodCanonical 5) rawBatch layout rawInputs 2 = .ok packed ∧
      Realizes (Decompose.zmodCanonical 5) rawBatch layout rawInputs packed := by
  have hbuild : ((WitnessLayout.new rawLevel rawBatch rawGeometry 1 sampleLevelParams.forLevel .reducedEvaluation).toOption.map
      fun layout => (cpuRecursiveWitnessBuild (Decompose.zmodCanonical 5) rawBatch layout rawInputs 2).toOption.isSome) = some true := by
    decide +kernel
  cases hnew : WitnessLayout.new rawLevel rawBatch rawGeometry 1 sampleLevelParams.forLevel .reducedEvaluation with
  | error e =>
    rw [hnew] at hbuild
    cases hbuild
  | ok layout =>
    rw [hnew] at hbuild
    cases hpacked : cpuRecursiveWitnessBuild (Decompose.zmodCanonical 5) rawBatch layout rawInputs 2 with
    | error e =>
      have hsome : (cpuRecursiveWitnessBuild (Decompose.zmodCanonical 5) rawBatch layout rawInputs 2).toOption.isSome = true :=
        Option.some.inj hbuild
      rw [hpacked] at hsome
      cases hsome
    | ok packed =>
      have hall := recursive_witness_realizes_layout Decompose.zmodCanonical_lawful (by decide) sampleLevelParams rawLevel rawBatch
        rawGeometry 1 .reducedEvaluation layout hnew rawInputs
      exact ⟨layout, packed, rfl, hpacked, hall.1 2 packed hpacked⟩

end Akita.Witness
