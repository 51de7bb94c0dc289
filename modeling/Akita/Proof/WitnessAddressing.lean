import Akita.Lib.MixedRadix
import Akita.Proof.WitnessGeometry

/-!
# Witness addressing is a bijection

In a layout, the coefficient indices of a unit number the tuples of its group in mixed radix: one-to-one onto the
unit's range, at every role dimension that divides the source width. A tuple out of range is an error.
-/

namespace Akita.Witness

open Lib List

/-- The tuples of `e_coefficient_index`. -/
structure ETuple where
  claim : ℕ
  block : ℕ
  sub : ℕ
  digit : ℕ
  coefficient : ℕ

/-- The tuples of `t_coefficient_index`. -/
structure TTuple where
  claim : ℕ
  block : ℕ
  row : ℕ
  sub : ℕ
  digit : ℕ
  coefficient : ℕ

/-- The tuples of `z_coefficient_index`. -/
structure ZTuple where
  position : ℕ
  witnessDigit : ℕ
  foldDigit : ℕ
  coefficient : ℕ

/-- The tuples of `r_coefficient_index` in one row. -/
structure RTuple where
  digit : ℕ
  plane : ℕ
  coefficient : ℕ

def WitnessUnitLayout.Owns (unit : WitnessUnitLayout) (block : ℕ) : Prop :=
  unit.globalBlockStart ≤ block ∧ block < unit.globalBlockStart + unit.numLiveBlocks

def ETuple.InRange (unit : WitnessUnitLayout) (role claims depth : ℕ) (i : ETuple) : Prop :=
  i.claim < claims ∧ unit.Owns i.block ∧ i.sub < unit.eGeometry.physicalCoefficientWidth / role ∧ i.digit < depth ∧ i.coefficient < role

def TTuple.InRange (unit : WitnessUnitLayout) (source role claims nA depth : ℕ) (i : TTuple) : Prop :=
  i.claim < claims ∧ unit.Owns i.block ∧ i.row < nA ∧ i.sub < source / role ∧ i.digit < depth ∧ i.coefficient < role

def ZTuple.InRange (source positions depthWitness depthFold : ℕ) (i : ZTuple) : Prop :=
  i.position < positions ∧ i.witnessDigit < depthWitness ∧ i.foldDigit < depthFold ∧ i.coefficient < source

def RTuple.InRange (geometry : RelationRowGeometry) (depth : ℕ) (i : RTuple) : Prop :=
  i.digit < depth ∧ i.plane < geometry.coordinatePlaneCount ∧ i.coefficient < geometry.polynomialModulusDimension

section

variable {unit : WitnessUnitLayout} {source role claims nA depth index : ℕ} {positions depthWitness depthFold : ℕ}

theorem projectedCoefficientIndex_inRange {range : Span} {label : String} {count semantic sub digit coefficient : ℕ}
    (h : projectedCoefficientIndex range label source role count depth semantic sub digit coefficient = .ok index) :
    sub < source / role ∧ digit < depth ∧ coefficient < role := by
  simp only [projectedCoefficientIndex, result_ok, not_or] at h
  obtain ⟨-, -, -, -, ⟨-, hsub, hdigit, hcoeff⟩, -⟩ := h
  omega

theorem checkedOwnedBlock_owns {block place : ℕ} (h : unit.checkedOwnedBlock block = .ok place) : unit.Owns block := by
  obtain ⟨hge, rfl, hlt⟩ := checkedOwnedBlock_spec h
  exact ⟨hge, by omega⟩

theorem eCoefficientIndex_inRange {i : ETuple}
    (h : unit.eCoefficientIndex role claims depth i.claim i.block i.sub i.digit i.coefficient = .ok index) :
    i.InRange unit role claims depth := by
  simp only [WitnessUnitLayout.eCoefficientIndex, result_ok, not_or] at h
  obtain ⟨_, -, _, -, -, _, hblock, ⟨hclaim, -⟩, _, -, _, -, h⟩ := h
  exact ⟨by omega, checkedOwnedBlock_owns hblock, projectedCoefficientIndex_inRange h⟩

theorem tCoefficientIndex_inRange {i : TTuple}
    (h : unit.tCoefficientIndex source role claims nA depth i.claim i.block i.row i.sub i.digit i.coefficient = .ok index) :
    i.InRange unit source role claims nA depth := by
  simp only [WitnessUnitLayout.tCoefficientIndex, result_ok, not_or] at h
  obtain ⟨_, -, -, _, hblock, ⟨hclaim, hrow, -⟩, _, -, _, -, _, -, h⟩ := h
  exact ⟨by omega, checkedOwnedBlock_owns hblock, by omega, projectedCoefficientIndex_inRange h⟩

theorem zCoefficientIndex_inRange {i : ZTuple}
    (h : unit.zCoefficientIndex source positions depthWitness depthFold i.position i.witnessDigit i.foldDigit i.coefficient = .ok index) :
    i.InRange source positions depthWitness depthFold := by
  simp only [WitnessUnitLayout.zCoefficientIndex, result_ok, not_or] at h
  obtain ⟨_, -, _, -, -, ⟨hpos, hwit, hfold, hcoeff⟩, -⟩ := h
  exact ⟨by omega, by omega, by omega, by omega⟩

/-- **E tuples** are numbered through the E range. -/
theorem eAddresses (hrange : unit.eRange.Usize) (hrole : 0 < role) (hdvd : role ∣ unit.eGeometry.physicalCoefficientWidth)
    (hlen : unit.eRange.len = claims * unit.numLiveBlocks * depth * unit.eGeometry.physicalCoefficientWidth) :
    Addresses unit.eRange (ETuple.InRange unit role claims depth) fun i =>
      unit.eCoefficientIndex role claims depth i.claim i.block i.sub i.digit i.coefficient := by
  have hnumbers := ((((Numbers.digit claims).pair (Numbers.shift unit.globalBlockStart unit.numLiveBlocks)).pair
    (Numbers.digit (unit.eGeometry.physicalCoefficientWidth / role))).pair (Numbers.digit depth)).pair (Numbers.digit role)
  have htuples := hnumbers.comp (κ := ETuple) ⟨fun i => ((((i.claim, i.block), i.sub), i.digit), i.coefficient),
    fun i => ⟨i.1.1.1.1, i.1.1.1.2, i.1.1.2, i.1.2, i.2⟩, fun _ => rfl, fun _ => rfl⟩
  have hcount : claims * unit.numLiveBlocks * (unit.eGeometry.physicalCoefficientWidth / role) * depth * role = unit.eRange.len := by
    rw [hlen, ← Nat.div_mul_cancel hdvd, Nat.mul_div_cancel _ hrole]
    ring
  apply (htuples.congr (fun i => ?_) hcount).addresses
  · rintro i ⟨hclaim, hblock, hsub, hdigit, hcoeff⟩
    exact eCoefficientIndex_ok hrange ⟨hrole, hdvd, hlen⟩ hclaim hblock.1 hblock.2 hsub hdigit hcoeff
  · exact fun i _ h => eCoefficientIndex_inRange h
  · change ((((i.claim < claims ∧ unit.Owns i.block) ∧ i.sub < _) ∧ i.digit < depth) ∧ i.coefficient < role) ↔ ETuple.InRange ..
    simp only [ETuple.InRange, and_assoc]

/-- **T tuples** are numbered through the T range. -/
theorem tAddresses (hrange : unit.tRange.Usize) (hrole : 0 < role) (hdvd : role ∣ source)
    (hlen : unit.tRange.len = claims * unit.numLiveBlocks * nA * depth * source) :
    Addresses unit.tRange (TTuple.InRange unit source role claims nA depth) fun i =>
      unit.tCoefficientIndex source role claims nA depth i.claim i.block i.row i.sub i.digit i.coefficient := by
  have hnumbers := (((((Numbers.digit claims).pair (Numbers.shift unit.globalBlockStart unit.numLiveBlocks)).pair
    (Numbers.digit nA)).pair (Numbers.digit (source / role))).pair (Numbers.digit depth)).pair (Numbers.digit role)
  have htuples := hnumbers.comp (κ := TTuple) ⟨fun i => (((((i.claim, i.block), i.row), i.sub), i.digit), i.coefficient),
    fun i => ⟨i.1.1.1.1.1, i.1.1.1.1.2, i.1.1.1.2, i.1.1.2, i.1.2, i.2⟩, fun _ => rfl, fun _ => rfl⟩
  have hcount : claims * unit.numLiveBlocks * nA * (source / role) * depth * role = unit.tRange.len := by
    rw [hlen]
    conv_rhs => rw [← Nat.div_mul_cancel hdvd]
    ring
  apply (htuples.congr (fun i => ?_) hcount).addresses
  · rintro i ⟨hclaim, hblock, hrow, hsub, hdigit, hcoeff⟩
    exact tCoefficientIndex_ok hrange ⟨hrole, hdvd, hlen⟩ hclaim hblock.1 hblock.2 hrow hsub hdigit hcoeff
  · exact fun i _ h => tCoefficientIndex_inRange h
  · change (((((i.claim < claims ∧ unit.Owns i.block) ∧ i.row < nA) ∧ i.sub < _) ∧ i.digit < depth) ∧ i.coefficient < role) ↔
      TTuple.InRange ..
    simp only [TTuple.InRange, and_assoc]

/-- **Z tuples** are numbered through the Z range. -/
theorem zAddresses (hrange : unit.zRange.Usize) (hlen : unit.zRange.len = positions * depthWitness * depthFold * source) :
    Addresses unit.zRange (ZTuple.InRange source positions depthWitness depthFold) fun i =>
      unit.zCoefficientIndex source positions depthWitness depthFold i.position i.witnessDigit i.foldDigit i.coefficient := by
  have hnumbers := (((Numbers.digit positions).pair (Numbers.digit depthWitness)).pair (Numbers.digit depthFold)).pair
    (Numbers.digit source)
  have htuples := hnumbers.comp (κ := ZTuple) ⟨fun i => (((i.position, i.witnessDigit), i.foldDigit), i.coefficient),
    fun i => ⟨i.1.1.1, i.1.1.2, i.1.2, i.2⟩, fun _ => rfl, fun _ => rfl⟩
  apply (htuples.congr (fun i => ?_) hlen.symm).addresses
  · rintro i ⟨hpos, hwit, hfold, hcoeff⟩
    exact zCoefficientIndex_ok hrange hlen hpos hwit hfold hcoeff
  · exact fun i _ h => zCoefficientIndex_inRange h
  · change (((i.position < positions ∧ i.witnessDigit < depthWitness) ∧ i.foldDigit < depthFold) ∧ i.coefficient < source) ↔
      ZTuple.InRange ..
    simp only [ZTuple.InRange, and_assoc]

end

section

variable {layout : WitnessLayout} {row : WitnessQuotientRowLayout} {r index : ℕ} {depth : ℕ+}

theorem rCoefficientIndex_eq (hdepth : layout.quotientDepth = some depth) (hrow : layout.rRows[r]? = some row) (i : RTuple) :
    layout.rCoefficientIndex r i.digit i.plane i.coefficient =
      (if i.digit < depth then row.coefficientIndex i.digit i.plane i.coefficient
        else .error (.invalidInput "witness R semantic index out of range")) := by
  unfold WitnessLayout.quotientDepth at hdepth
  unfold WitnessLayout.rRows at hrow
  unfold WitnessLayout.rCoefficientIndex
  cases hq : layout.relationQuotients with
  | reducedEvaluation =>
    rw [hq] at hdepth
    cases hdepth
  | quotientLift quotientDepth rows =>
    rw [hq] at hdepth hrow
    obtain rfl : quotientDepth = depth := Option.some.inj hdepth
    have hrow : rows[r]? = some row := hrow
    simp only [hrow]
    by_cases hlt : i.digit < quotientDepth
    · rw [if_pos hlt, okOr_eq_ok.2 rfl, ok_bind, ensure_bind (not_le.2 hlt)]
    · rw [if_neg hlt, okOr_eq_ok.2 rfl, ok_bind, ensure, if_neg (by omega)]
      rfl

theorem coefficientIndex_inRange {digit plane coefficient : ℕ} (h : row.coefficientIndex digit plane coefficient = .ok index) :
    plane < row.geometry.coordinatePlaneCount ∧ coefficient < row.geometry.polynomialModulusDimension := by
  simp only [WitnessQuotientRowLayout.coefficientIndex, RelationRowGeometry.physicalCoefficientIndex, result_ok,
    not_or] at h
  obtain ⟨_, ⟨⟨hplane, hcoeff⟩, -⟩, -⟩ := h
  omega

/-- **Quotient tuples** are numbered through the range of their row. -/
theorem rAddresses (hdepth : layout.quotientDepth = some depth) (hrow : layout.rRows[r]? = some row) (hrange : row.range.Usize)
    (hgeom : row.geometry.WellFormed) (hlen : row.range.len = depth * row.geometry.physicalCoefficientWidth) :
    Addresses row.range (RTuple.InRange row.geometry depth) fun i => layout.rCoefficientIndex r i.digit i.plane i.coefficient := by
  have hnumbers := (Numbers.digit (depth : ℕ)).pair
    ((Numbers.digit row.geometry.coordinatePlaneCount).pair (Numbers.digit row.geometry.polynomialModulusDimension))
  have htuples := hnumbers.comp (κ := RTuple) ⟨fun i => (i.digit, (i.plane, i.coefficient)), fun i => ⟨i.1, i.2.1, i.2.2⟩,
    fun _ => rfl, fun _ => rfl⟩
  have hwidth : row.geometry.coordinatePlaneCount * row.geometry.polynomialModulusDimension = row.geometry.physicalCoefficientWidth := by
    rw [hgeom.width, mul_comm]
  have hall : Numbers row.range.len (RTuple.InRange row.geometry depth) _ :=
    htuples.congr (fun i => Iff.rfl) (by rw [hlen, hwidth])
  apply hall.addresses
  · rintro i ⟨hdigit, hplane, hcoeff⟩
    rw [rCoefficientIndex_eq hdepth hrow, if_pos hdigit, coefficientIndex_ok hrange hgeom hlen hdigit hplane hcoeff, rPlace,
      ← hwidth]
    rfl
  · intro i p hp
    rw [rCoefficientIndex_eq hdepth hrow] at hp
    split at hp
    · next hdigit => exact ⟨hdigit, coefficientIndex_inRange hp⟩
    · cases hp

theorem rCoefficientIndex_error (hr : layout.rRows.length ≤ r) (i : RTuple) :
    ∃ e, layout.rCoefficientIndex r i.digit i.plane i.coefficient = .error e := by
  unfold WitnessLayout.rRows at hr
  unfold WitnessLayout.rCoefficientIndex
  cases hq : layout.relationQuotients with
  | reducedEvaluation => exact ⟨_, rfl⟩
  | quotientLift quotientDepth rows =>
    rw [hq] at hr
    refine ⟨.invalidInput "witness R semantic index out of range", ?_⟩
    simp only [getElem?_eq_none hr]
    rfl

end

/-- The indices of a layout are bijections: those of a unit onto its ranges, at every role dimension that divides the
source width, and those of a quotient row onto its range. -/
structure Addressed (lp : CommittedGroupParams) (batch : OpeningClaimsLayout) (layout : WitnessLayout) : Prop where
  units : ∀ u ∈ layout.units, ∃ final params dims polynomials, batch.rootFinalGroupIndex = .ok final ∧
    groupParams lp final u.groupIndex = .ok (params, dims) ∧ batch.groupLayout u.groupIndex = .ok polynomials ∧
    (∀ role, role ∣ u.eGeometry.physicalCoefficientWidth →
      Addresses u.eRange (ETuple.InRange u role polynomials.numPolynomials params.numDigitsOpen) fun i =>
        u.eCoefficientIndex role polynomials.numPolynomials params.numDigitsOpen i.claim i.block i.sub i.digit i.coefficient) ∧
    (∀ role, role ∣ dims.inner →
      Addresses u.tRange (TTuple.InRange u dims.inner role polynomials.numPolynomials params.aRowsLen params.numDigitsOuter) fun i =>
        u.tCoefficientIndex dims.inner role polynomials.numPolynomials params.aRowsLen params.numDigitsOuter i.claim i.block i.row i.sub
          i.digit i.coefficient) ∧
    Addresses u.zRange (ZTuple.InRange dims.inner params.numPositionsPerBlock params.numDigitsInner params.numDigitsFold) fun i =>
      u.zCoefficientIndex dims.inner params.numPositionsPerBlock params.numDigitsInner params.numDigitsFold i.position i.witnessDigit
        i.foldDigit i.coefficient
  rows : ∀ (r : ℕ) (row : WitnessQuotientRowLayout), layout.rRows[r]? = some row → ∃ depth, layout.quotientDepth = some depth ∧
    Addresses row.range (RTuple.InRange row.geometry depth) fun i => layout.rCoefficientIndex r i.digit i.plane i.coefficient
  noRow : ∀ r, layout.rRows.length ≤ r → ∀ i : RTuple, ∃ e, layout.rCoefficientIndex r i.digit i.plane i.coefficient = .error e

theorem Emittable.usize {layout : WitnessLayout} {lp : CommittedGroupParams} {batch : OpeningClaimsLayout}
    (h : Emittable lp batch layout) {s : Span} (hs : s ∈ layout.ranges) : s.Usize := by
  obtain ⟨hle, hstop⟩ := h.bounds s hs
  exact ⟨hle, hstop.trans_lt h.live⟩

/-- **Witness addressing is a bijection**, in every layout that the constructor returns. -/
theorem witness_addressing_bijective (level : RelationLevelParams) (lp : CommittedGroupParams) (batch : OpeningClaimsLayout)
    (geometry : RelationWitnessGeometry) (numChunks : ℕ) (plan : RelationQuotientPlan) (layout : WitnessLayout)
    (h : WitnessLayout.new lp batch geometry numChunks level.forLevel plan = .ok layout) : Addressed lp batch layout := by
  have hlayout := new_emittable h
  have hunit : ∀ u ∈ layout.units, ∀ s ∈ [u.zRange, u.eRange, u.tRange], s.Usize := by
    intro u hu s hs
    exact hlayout.usize (mem_append_left _ (mem_append_left _ (mem_append_left _ (mem_flatMap.2 ⟨u, hu, hs⟩))))
  constructor
  · intro u hu
    obtain ⟨final, hfinal, hunits⟩ := hlayout.units
    obtain ⟨params, dims, polynomials, hof⟩ := hunits u hu
    refine ⟨final, params, dims, polynomials, hfinal, hof.paramsOk, hof.claimsOk, fun role hrole => ?_, fun role hrole => ?_, ?_⟩
    · exact eAddresses (hunit u hu _ (by simp)) (Nat.pos_of_dvd_of_pos hrole hof.geometry.pos) hrole hof.e
    · exact tAddresses (hunit u hu _ (by simp)) (Nat.pos_of_dvd_of_pos hrole hof.inner) hrole hof.t
    · exact zAddresses (hunit u hu _ (by simp)) hof.z
  · intro r row hrow
    have hmem := mem_of_getElem? hrow
    obtain ⟨hgeometry, depth, hdepth, hlen⟩ := hlayout.rows row hmem
    have hrange : row.range ∈ layout.ranges :=
      mem_append_left _ (mem_append_left _ (mem_append_right _ (mem_map_of_mem hmem)))
    exact ⟨depth, hdepth, rAddresses hdepth hrow (hlayout.usize hrange) hgeometry hlen⟩
  · exact fun r hr i => rCoefficientIndex_error hr i

theorem witness_addressing_two_chunks : ∃ layout,
    WitnessLayout.new sampleLevel sampleBatch sampleGeometry 2 sampleLevelParams.forLevel (.quotientLift 43) = .ok layout ∧
      layout.units.length = 4 ∧ layout.rRows.length = 13 ∧ Addressed sampleLevel sampleBatch layout := by
  have hcounts : ((WitnessLayout.new sampleLevel sampleBatch sampleGeometry 2 sampleLevelParams.forLevel (.quotientLift 43)).toOption.map
      fun layout => (layout.units.length, layout.rRows.length)) = some (4, 13) := by
    decide +kernel
  cases hnew : WitnessLayout.new sampleLevel sampleBatch sampleGeometry 2 sampleLevelParams.forLevel (.quotientLift 43) with
  | error e =>
    rw [hnew] at hcounts
    cases hcounts
  | ok layout =>
    rw [hnew] at hcounts
    obtain ⟨hunits, hrows⟩ := Prod.mk.inj (Option.some.inj hcounts)
    exact ⟨layout, rfl, hunits, hrows,
      witness_addressing_bijective sampleLevelParams sampleLevel sampleBatch sampleGeometry 2 (.quotientLift 43) layout hnew⟩

end Akita.Witness
