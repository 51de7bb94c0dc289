import Akita.Spec.WitnessEmission

/-!
# Witness coefficient indices

The coefficient indices in closed form: in a range of the right length every tuple in range has an index, the place
of its mixed-radix value from the start of the range, and a tuple that has one fixes the shape of its range.
-/

namespace Akita.Lib

/-- A range of `usize` addresses. -/
def Span.Usize (range : Span) : Prop := range.start ≤ range.stop ∧ range.stop < 2 ^ 64

theorem Span.Usize.len_lt {range : Span} (h : range.Usize) : range.len < 2 ^ 64 := by
  have hlt := h.2
  unfold Span.len
  omega

end Akita.Lib

namespace Akita.Witness

open Lib (Span)

theorem radix_lt {a b m n : ℕ} (ha : a < m) (hb : b < n) : a * n + b < m * n := by
  have hle : (a + 1) * n ≤ m * n := Nat.mul_le_mul_right n ha
  rw [add_mul, one_mul] at hle
  omega

section

variable {range : Span} {label : String} {source role count digits semantic sub digit coefficient index : ℕ}

theorem projectedCoefficientIndex_spec
    (h : projectedCoefficientIndex range label source role count digits semantic sub digit coefficient = .ok index) :
    0 < role ∧ role ∣ source ∧ range.len = count * digits * source ∧
      index = range.start + (((semantic * (source / role) + sub) * digits + digit) * role + coefficient) := by
  simp only [projectedCoefficientIndex, result_ok, option_some, checked_some, not_or, not_not] at h
  obtain ⟨⟨-, hrole, hdvd⟩, expected, ⟨_, ⟨-, rfl⟩, -, rfl⟩, hlen, -, place, ⟨_, ⟨-, rfl⟩, _, ⟨-, rfl⟩, _, ⟨-, rfl⟩, _, ⟨-, rfl⟩, _,
    ⟨-, rfl⟩, -, rfl⟩, _, ⟨-, rfl⟩, -, rfl⟩ := h
  exact ⟨pos_of_ne_zero hrole, Nat.dvd_of_mod_eq_zero hdvd, hlen, rfl⟩

/-- **A tuple in range has its index.** -/
theorem projectedCoefficientIndex_ok (label : String) (hrange : range.Usize) (hrole : 0 < role) (hdvd : role ∣ source)
    (hlen : range.len = count * digits * source) (hsemantic : semantic < count) (hsub : sub < source / role)
    (hdigit : digit < digits) (hcoeff : coefficient < role) :
    projectedCoefficientIndex range label source role count digits semantic sub digit coefficient =
      .ok (range.start + (((semantic * (source / role) + sub) * digits + digit) * role + coefficient)) := by
  obtain ⟨hle, hstop⟩ := hrange
  have hsource : 0 < source := by
    rcases Nat.eq_zero_or_pos source with hzero | hpos
    · rw [hzero, Nat.zero_div] at hsub
      omega
    · exact hpos
  have hplane := radix_lt hsemantic hsub
  have hdigs := radix_lt hplane hdigit
  have hplace := radix_lt hdigs hcoeff
  -- every partial place is at most the whole one
  have hfull : count * (source / role) * digits * role = count * digits * source := by
    obtain ⟨k, rfl⟩ := hdvd
    rw [Nat.mul_div_cancel_left k hrole]
    ring
  rw [hfull, ← hlen] at hplace
  have hstep1 : semantic * (source / role) + sub ≤ (semantic * (source / role) + sub) * digits := Nat.le_mul_of_pos_right _ (by omega)
  have hstep2 : (semantic * (source / role) + sub) * digits + digit ≤ ((semantic * (source / role) + sub) * digits + digit) * role :=
    Nat.le_mul_of_pos_right _ hrole
  have hcount : count * digits ≤ count * digits * source := Nat.le_mul_of_pos_right _ hsource
  have hlenLe : range.len < 2 ^ 64 := by
    unfold Span.len
    omega
  have hin : range.start + (((semantic * (source / role) + sub) * digits + digit) * role + coefficient) < range.stop := by
    unfold Span.len at hplace
    omega
  simp only [projectedCoefficientIndex, result_ok, option_some, checked_some, not_or, not_not, usizeBits]
  refine ⟨⟨by omega, by omega, Nat.mod_eq_zero_of_dvd hdvd⟩, _, ⟨_, ⟨by omega, rfl⟩, by omega, rfl⟩, hlen,
    ⟨by omega, by omega, by omega, by omega⟩, _, ⟨_, ⟨by omega, rfl⟩, _, ⟨by omega, rfl⟩, _, ⟨by omega, rfl⟩, _, ⟨by omega, rfl⟩, _,
    ⟨by omega, rfl⟩, by omega, rfl⟩, _, ⟨by omega, rfl⟩, by omega, rfl⟩

end

section

variable {unit : WitnessUnitLayout} {role claims claim block sub digit coefficient index : ℕ} {depth : ℕ}

theorem checkedOwnedBlock_ok (hge : unit.globalBlockStart ≤ block) (hlt : block < unit.globalBlockStart + unit.numLiveBlocks) :
    unit.checkedOwnedBlock block = .ok (block - unit.globalBlockStart) := by
  simp only [WitnessUnitLayout.checkedOwnedBlock, result_ok, checked_some]
  exact ⟨_, ⟨hge, rfl⟩, by omega, rfl⟩

theorem checkedOwnedBlock_spec {place : ℕ} (h : unit.checkedOwnedBlock block = .ok place) :
    unit.globalBlockStart ≤ block ∧ place = block - unit.globalBlockStart ∧ place < unit.numLiveBlocks := by
  simp only [WitnessUnitLayout.checkedOwnedBlock, result_ok, checked_some] at h
  obtain ⟨_, ⟨hle, rfl⟩, hlt, rfl⟩ := h
  exact ⟨hle, rfl, by omega⟩

def ePlace (unit : WitnessUnitLayout) (role depth claim block sub digit coefficient : ℕ) : ℕ :=
  (((claim * unit.numLiveBlocks + (block - unit.globalBlockStart)) * (unit.eGeometry.physicalCoefficientWidth / role) + sub) * depth +
    digit) * role + coefficient

structure EShape (unit : WitnessUnitLayout) (role claims depth : ℕ) : Prop where
  role_pos : 0 < role
  dvd : role ∣ unit.eGeometry.physicalCoefficientWidth
  len : unit.eRange.len = claims * unit.numLiveBlocks * depth * unit.eGeometry.physicalCoefficientWidth

theorem eCoefficientIndex_spec (h : unit.eCoefficientIndex role claims depth claim block sub digit coefficient = .ok index) :
    EShape unit role claims depth ∧ index = unit.eRange.start + ePlace unit role depth claim block sub digit coefficient := by
  simp only [WitnessUnitLayout.eCoefficientIndex, result_ok, option_some, checked_some] at h
  obtain ⟨_, -, _, -, -, place, hplace, -, _, ⟨_, ⟨-, rfl⟩, -, rfl⟩, _, ⟨-, rfl⟩, h⟩ := h
  obtain ⟨hrole, hdvd, hlen, rfl⟩ := projectedCoefficientIndex_spec h
  obtain ⟨-, rfl, -⟩ := checkedOwnedBlock_spec hplace
  refine ⟨⟨hrole, hdvd, hlen⟩, ?_⟩
  rw [ePlace, mul_comm unit.numLiveBlocks]

/-- **E tuples in range have their index.** -/
theorem eCoefficientIndex_ok (hrange : unit.eRange.Usize) (hshape : EShape unit role claims depth) (hclaim : claim < claims)
    (hge : unit.globalBlockStart ≤ block) (hlt : block < unit.globalBlockStart + unit.numLiveBlocks)
    (hsub : sub < unit.eGeometry.physicalCoefficientWidth / role) (hdigit : digit < depth) (hcoeff : coefficient < role) :
    unit.eCoefficientIndex role claims depth claim block sub digit coefficient =
      .ok (unit.eRange.start + ePlace unit role depth claim block sub digit coefficient) := by
  have hblock : block - unit.globalBlockStart < unit.numLiveBlocks := by omega
  have hclaims := radix_lt hclaim hblock
  have hproj := projectedCoefficientIndex_ok "witness E" hrange hshape.role_pos hshape.dvd hshape.len hclaims hsub hdigit
    hcoeff
  have hwidth : 0 < unit.eGeometry.physicalCoefficientWidth := by
    by_contra hzero
    rw [Nat.eq_zero_of_not_pos hzero, Nat.zero_div] at hsub
    omega
  have hlen := hshape.len
  have hlenLt : unit.eRange.len < 2 ^ 64 := by
    unfold Span.len
    have := hrange.2
    omega
  have h1 : claims * unit.numLiveBlocks ≤ claims * unit.numLiveBlocks * depth := Nat.le_mul_of_pos_right _ (by omega)
  have h2 : claims * unit.numLiveBlocks * depth ≤ claims * unit.numLiveBlocks * depth * unit.eGeometry.physicalCoefficientWidth :=
    Nat.le_mul_of_pos_right _ hwidth
  have h3 : claims ≤ claims * unit.numLiveBlocks := Nat.le_mul_of_pos_right _ (by omega)
  have h4 : unit.numLiveBlocks * claim = claim * unit.numLiveBlocks := mul_comm _ _
  simp only [WitnessUnitLayout.eCoefficientIndex, Checked.product, List.foldlM_cons, List.foldlM_nil, result_ok,
    option_some, checked_some, usizeBits, one_mul]
  refine ⟨_, ⟨_, ⟨by omega, rfl⟩, _, ⟨by omega, rfl⟩, _, ⟨by omega, rfl⟩, rfl⟩, _, ⟨by omega, rfl⟩, hlen, _,
    checkedOwnedBlock_ok hge hlt, by omega, _, ⟨_, ⟨by omega, rfl⟩, by omega, rfl⟩, _, ⟨by omega, rfl⟩, ?_⟩
  rw [h4]
  exact hproj

def tPlace (unit : WitnessUnitLayout) (source role nA depth claim block row sub digit coefficient : ℕ) : ℕ :=
  ((((claim * unit.numLiveBlocks + (block - unit.globalBlockStart)) * nA + row) * (source / role) + sub) * depth + digit) * role +
    coefficient

structure TShape (unit : WitnessUnitLayout) (source role claims nA depth : ℕ) : Prop where
  role_pos : 0 < role
  dvd : role ∣ source
  len : unit.tRange.len = claims * unit.numLiveBlocks * nA * depth * source

variable {source nA row : ℕ}

theorem tCoefficientIndex_spec
    (h : unit.tCoefficientIndex source role claims nA depth claim block row sub digit coefficient = .ok index) :
    TShape unit source role claims nA depth ∧
      index = unit.tRange.start + tPlace unit source role nA depth claim block row sub digit coefficient := by
  simp only [WitnessUnitLayout.tCoefficientIndex, result_ok, option_some, checked_some] at h
  obtain ⟨_, -, -, place, hplace, -, _, ⟨_, ⟨-, rfl⟩, -, rfl⟩, _, ⟨_, ⟨-, rfl⟩, -, rfl⟩, _, ⟨_, ⟨-, rfl⟩, -, rfl⟩, h⟩ := h
  obtain ⟨hrole, hdvd, hlen, rfl⟩ := projectedCoefficientIndex_spec h
  obtain ⟨-, rfl, -⟩ := checkedOwnedBlock_spec hplace
  refine ⟨⟨hrole, hdvd, hlen⟩, ?_⟩
  rw [tPlace, mul_comm unit.numLiveBlocks, mul_comm nA]

/-- **T tuples in range have their index.** -/
theorem tCoefficientIndex_ok (hrange : unit.tRange.Usize) (hshape : TShape unit source role claims nA depth)
    (hclaim : claim < claims) (hge : unit.globalBlockStart ≤ block) (hlt : block < unit.globalBlockStart + unit.numLiveBlocks)
    (hrow : row < nA) (hsub : sub < source / role) (hdigit : digit < depth) (hcoeff : coefficient < role) :
    unit.tCoefficientIndex source role claims nA depth claim block row sub digit coefficient =
      .ok (unit.tRange.start + tPlace unit source role nA depth claim block row sub digit coefficient) := by
  have hblock : block - unit.globalBlockStart < unit.numLiveBlocks := by omega
  have hclaims := radix_lt hclaim hblock
  have hrows := radix_lt hclaims hrow
  have hproj := projectedCoefficientIndex_ok "witness T" hrange hshape.role_pos hshape.dvd hshape.len hrows hsub hdigit
    hcoeff
  have hsource : 0 < source := by
    by_contra hzero
    rw [Nat.eq_zero_of_not_pos hzero, Nat.zero_div] at hsub
    omega
  have hlen := hshape.len
  have hlenLt := hrange.len_lt
  have h2 : claims * unit.numLiveBlocks ≤ claims * unit.numLiveBlocks * nA := Nat.le_mul_of_pos_right _ (by omega)
  have h3 : claims * unit.numLiveBlocks * nA ≤ claims * unit.numLiveBlocks * nA * depth := Nat.le_mul_of_pos_right _ (by omega)
  have h4 : claims * unit.numLiveBlocks * nA * depth ≤ claims * unit.numLiveBlocks * nA * depth * source :=
    Nat.le_mul_of_pos_right _ hsource
  have hcomm : unit.numLiveBlocks * claim = claim * unit.numLiveBlocks := mul_comm _ _
  have hcomm' : nA * (claim * unit.numLiveBlocks + (block - unit.globalBlockStart)) =
      (claim * unit.numLiveBlocks + (block - unit.globalBlockStart)) * nA := mul_comm _ _
  simp only [WitnessUnitLayout.tCoefficientIndex, result_ok, option_some, checked_some, usizeBits, hcomm]
  refine ⟨_, ⟨_, ⟨by omega, rfl⟩, _, ⟨by omega, rfl⟩, _, ⟨by omega, rfl⟩, by omega, rfl⟩, hlen, _, checkedOwnedBlock_ok hge hlt, by omega,
    _, ⟨_, ⟨by omega, rfl⟩, by omega, rfl⟩, _, ⟨_, ⟨by omega, rfl⟩, by omega, rfl⟩, _, ⟨_, ⟨by omega, rfl⟩, by omega, rfl⟩, ?_⟩
  rw [hcomm']
  exact hproj

def zPlace (source depthWitness depthFold position witnessDigit foldDigit coefficient : ℕ) : ℕ :=
  ((position * depthWitness + witnessDigit) * depthFold + foldDigit) * source + coefficient

variable {positions depthWitness depthFold position witnessDigit foldDigit : ℕ}

/-- **Z tuples in range have their index.** -/
theorem zCoefficientIndex_ok (hrange : unit.zRange.Usize)
    (hlen : unit.zRange.len = positions * depthWitness * depthFold * source) (hpos : position < positions)
    (hwit : witnessDigit < depthWitness) (hfold : foldDigit < depthFold) (hcoeff : coefficient < source) :
    unit.zCoefficientIndex source positions depthWitness depthFold position witnessDigit foldDigit coefficient =
      .ok (unit.zRange.start + zPlace source depthWitness depthFold position witnessDigit foldDigit coefficient) := by
  have hplane := radix_lt hpos hwit
  have hring := radix_lt hplane hfold
  have hplace := radix_lt hring hcoeff
  have hlenLt := hrange.len_lt
  obtain ⟨hle, hstop⟩ := hrange
  have hin : unit.zRange.start + zPlace source depthWitness depthFold position witnessDigit foldDigit coefficient < unit.zRange.stop := by
    unfold zPlace
    unfold Span.len at hlen
    omega
  have h1 : positions ≤ positions * depthWitness := Nat.le_mul_of_pos_right _ (by omega)
  have h2 : positions * depthWitness ≤ positions * depthWitness * depthFold := Nat.le_mul_of_pos_right _ (by omega)
  have h3 : positions * depthWitness * depthFold ≤ positions * depthWitness * depthFold * source := Nat.le_mul_of_pos_right _ (by omega)
  unfold zPlace at hin ⊢
  simp only [WitnessUnitLayout.zCoefficientIndex, checkedRangeIndex, Checked.product, List.foldlM_cons,
    List.foldlM_nil, result_ok, option_some, checked_some, usizeBits, one_mul, mul_comm depthWitness position]
  refine ⟨_, ⟨_, ⟨by omega, rfl⟩, _, ⟨by omega, rfl⟩, _, ⟨by omega, rfl⟩, rfl⟩, _, ⟨by omega, rfl⟩, hlen, by omega, _,
    ⟨_, ⟨by omega, rfl⟩, by omega, rfl⟩, ?_⟩
  simp only [mul_comm depthFold (position * depthWitness + witnessDigit)]
  exact ⟨_, ⟨_, ⟨by omega, rfl⟩, by omega, rfl⟩, _, ⟨_, ⟨by omega, rfl⟩, by omega, rfl⟩, _, ⟨by omega, rfl⟩, by omega, rfl⟩

end

section

variable {row : WitnessQuotientRowLayout} {digit plane coefficient : ℕ}

def rPlace (geometry : RelationRowGeometry) (digit plane coefficient : ℕ) : ℕ :=
  digit * geometry.physicalCoefficientWidth + (plane * geometry.polynomialModulusDimension + coefficient)

/-- What `RelationRowGeometry::new` promises. -/
structure RelationRowGeometry.WellFormed (geometry : RelationRowGeometry) : Prop where
  pos : 0 < geometry.physicalCoefficientWidth
  width : geometry.physicalCoefficientWidth = geometry.polynomialModulusDimension * geometry.coordinatePlaneCount

/-- **Quotient tuples in range have their index.** -/
theorem coefficientIndex_ok {depth : ℕ} (hrange : row.range.Usize) (hgeom : row.geometry.WellFormed)
    (hlen : row.range.len = depth * row.geometry.physicalCoefficientWidth) (hdigit : digit < depth)
    (hplane : plane < row.geometry.coordinatePlaneCount) (hcoeff : coefficient < row.geometry.polynomialModulusDimension) :
    row.coefficientIndex digit plane coefficient = .ok (row.range.start + rPlace row.geometry digit plane coefficient) := by
  have hphys := radix_lt hplane hcoeff
  rw [mul_comm row.geometry.coordinatePlaneCount, ← hgeom.width] at hphys
  have hplace := radix_lt hdigit hphys
  obtain ⟨hle, hstop⟩ := hrange
  have hin : row.range.start + rPlace row.geometry digit plane coefficient < row.range.stop := by
    unfold rPlace
    unfold Span.len at hlen
    omega
  unfold rPlace at hin ⊢
  simp only [WitnessQuotientRowLayout.coefficientIndex, RelationRowGeometry.physicalCoefficientIndex,
    checkedRangeIndex, result_ok, option_some, Option.filter_eq_some_iff, checked_some, usizeBits, decide_eq_true_eq]
  exact ⟨_, ⟨by omega, ⟨_, ⟨by omega, rfl⟩, by omega, rfl⟩, hphys⟩, _, ⟨_, ⟨by omega, rfl⟩, by omega, rfl⟩, _, ⟨by omega, rfl⟩,
    by omega, rfl⟩

theorem RelationRowGeometry.new_wellFormed {modulus planes : ℕ} {geometry : RelationRowGeometry}
    (h : RelationRowGeometry.new modulus planes = .ok geometry) : geometry.WellFormed := by
  simp only [RelationRowGeometry.new, isPowerOfTwo, result_ok, checked_some, Bool.or_eq_true, Bool.not_eq_true',
    decide_eq_false_iff_not, not_or, not_not] at h
  obtain ⟨⟨hmod, hplanes⟩, _, ⟨-, rfl⟩, rfl⟩ := h
  exact ⟨Nat.mul_pos (Nat.pos_of_isPowerOfTwo hmod) (Nat.pos_of_isPowerOfTwo hplanes), rfl⟩

end

end Akita.Witness
