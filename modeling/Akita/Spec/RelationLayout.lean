import Akita.Spec.Error

/-!
# Relation rows of one opening level

`akita-params/src/layout/relation_layout.rs`, `relation_rows.rs` and the queries of
`relation_rhs_layout.rs`: the geometry of the relation rows, their canonical order and the
common coefficient block, with the compression plans of the level. Ring dimensions and counts
are `usize`.
-/

namespace Akita.Witness

def isPowerOfTwo (n : ℕ) : Bool := decide (n.isPowerOfTwo)

structure RelationRowGeometry where
  polynomialModulusDimension : ℕ
  coordinatePlaneCount : ℕ
  physicalCoefficientWidth : ℕ
  deriving DecidableEq, Repr

def RelationRowGeometry.new (modulus planes : ℕ) : Result RelationRowGeometry := do
  ensure (¬ (!isPowerOfTwo modulus || !isPowerOfTwo planes)) (.invalidSetup
    "relation row modulus and coordinate-plane count must be nonzero powers of two")
  let width ← okOr (checkedMul usizeBits modulus planes) (.invalidSetup "relation row width overflow")
  return ⟨modulus, planes, width⟩

def RelationRowGeometry.native (ringDimension : ℕ) : Result RelationRowGeometry :=
  RelationRowGeometry.new ringDimension 1

structure CommitmentRingDims where
  inner : ℕ
  outer : ℕ
  opening : ℕ
  deriving DecidableEq, Repr

/-- One role's check of `validate_role_projection`. -/
def validateRole (role : String) (d : ℕ) : Result Unit := ensure (¬ (d = 0 ∨ isPowerOfTwo d = false))
    (.invalidSetup (role ++ " ring dimension must be a non-zero power of two, got " ++ toString d))

def CommitmentRingDims.validateRoleProjection (dims : CommitmentRingDims) : Result Unit := do
  validateRole "Inner" dims.inner
  validateRole "Outer" dims.outer
  validateRole "Opening" dims.opening
  ensure (¬ (dims.outer > dims.inner ∨ dims.opening > dims.inner))
    (.invalidSetup ("A-role ring dimension d_a=" ++ toString dims.inner ++ " must be at least d_b=" ++ toString dims.outer ++
      " and d_d=" ++ toString dims.opening))

inductive OpeningMethod
  | evaluationTrace
  | subringCoefficientPacking (challengeSubringDimension : ℕ)
  deriving DecidableEq, Repr

/-- `RelationGroupRows`; a slice count is its value. -/
structure RelationGroupRows where
  groupIndex : ℕ
  roleDims : CommitmentRingDims
  openingGeometry : RelationRowGeometry
  openingMethod : OpeningMethod
  nA : ℕ
  physicalBRows : ℕ
  outerSliceCount : ℕ
  deriving DecidableEq, Repr

def RelationGroupRows.logicalBRows (group : RelationGroupRows) : Result ℕ := do
  ensure (group.physicalBRows ≠ 0) (.invalidSetup "physical B output rank must be nonzero")
  okOr (checkedMul usizeBits group.physicalBRows group.outerSliceCount) (.invalidSetup "logical B row count overflow")

/-- `CompressionMapPlan`, as its constructor leaves it: the digits padded to whole rows of a ring
whose dimension is a power of two. -/
structure CompressionMapPlan where
  inputCoefficients : ℕ
  ringDimension : ℕ
  inputWidth : ℕ
  isPow2 : ringDimension.isPowerOfTwo
  deriving DecidableEq

def CompressionMapPlan.paddedDigitCount (map : CompressionMapPlan) : ℕ := map.inputWidth * map.ringDimension

def compressionMapCount : ℕ := 2

structure CompressionChainPlan where
  sourceCoefficients : ℕ
  maps : Fin compressionMapCount → CompressionMapPlan
  deriving DecidableEq

structure RelationCompressionLayout where
  groupIndices : List ℕ
  groupPlans : List CompressionChainPlan
  openingPlan : CompressionChainPlan
  deriving DecidableEq

structure RelationRhsLayout where
  dRingDimension : ℕ
  nD : ℕ
  groups : List RelationGroupRows
  compression : Option RelationCompressionLayout
  deriving DecidableEq

structure RelationWitnessGeometry where
  extensionDegree : ℕ
  rhsLayout : RelationRhsLayout
  deriving DecidableEq

def RelationWitnessGeometry.groupOpeningGeometry (geometry : RelationWitnessGeometry) (groupIndex : ℕ) :
    Result RelationRowGeometry :=
  okOr ((geometry.rhsLayout.groups.find? fun group => group.groupIndex = groupIndex).map (·.openingGeometry))
    (.invalidInput "relation group index is invalid")

inductive RelationRowFamily
  | consistency (groupIndex : ℕ) (openingMethod : OpeningMethod) (geometry : RelationRowGeometry)
  | inner (groupIndex row : ℕ) (geometry : RelationRowGeometry)
  | outer (groupIndex sliceIndex physicalRow : ℕ) (geometry : RelationRowGeometry)
  | opening (row : ℕ) (geometry : RelationRowGeometry)
  | compressionF (groupIndex mapIndex : ℕ) (geometry : RelationRowGeometry)
  | compressionH (mapIndex : ℕ) (geometry : RelationRowGeometry)
  deriving DecidableEq, Repr

namespace RelationRowFamily

def geometry : RelationRowFamily → RelationRowGeometry
  | consistency _ _ g | inner _ _ g | outer _ _ _ g | opening _ g | compressionF _ _ g | compressionH _ g => g

def isCompression : RelationRowFamily → Bool
  | compressionF .. | compressionH .. => true
  | _ => false

end RelationRowFamily

/-- `RelationRowRun`: a run of rows before their expansion. -/
inductive RelationRowRun
  | consistency (groupIndex : ℕ) (openingMethod : OpeningMethod) (geometry : RelationRowGeometry)
  | inner (groupIndex count : ℕ) (geometry : RelationRowGeometry)
  | outer (groupIndex sliceIndex count : ℕ) (geometry : RelationRowGeometry)
  | opening (count : ℕ) (geometry : RelationRowGeometry)
  | compressionF (groupIndex mapIndex : ℕ) (geometry : RelationRowGeometry)
  | compressionH (mapIndex : ℕ) (geometry : RelationRowGeometry)

namespace RelationRowRun

def commonBlockModulus : RelationRowRun → Option ℕ
  | consistency _ _ g => some g.polynomialModulusDimension
  | inner _ count g | outer _ _ count g | opening count g => if count = 0 then none else some g.polynomialModulusDimension
  | compressionF .. | compressionH .. => none

/-- `append_rows`: the rows of a run. -/
def rows : RelationRowRun → List RelationRowFamily
  | consistency group method g => [.consistency group method g]
  | inner group count g => (List.range count).map fun row => .inner group row g
  | outer group slice count g => (List.range count).map fun row => .outer group slice row g
  | opening count g => (List.range count).map fun row => .opening row g
  | compressionF group map g => [.compressionF group map g]
  | compressionH map g => [.compressionH map g]

end RelationRowRun

namespace RelationRhsLayout

variable (layout : RelationRhsLayout)

/-- The group checks of `validate`. -/
def validateGroup (group : RelationGroupRows) : Result Unit := do
  group.roleDims.validateRoleProjection
  ensure (group.roleDims.opening = layout.dRingDimension)
    (.invalidSetup "relation rhs groups disagree with the level-shared D dimension")
  ensure (group.openingGeometry.physicalCoefficientWidth % layout.dRingDimension = 0)
    (.invalidSetup "relation opening width is not divisible by the D dimension")

/-- The compression checks of `validate`. -/
def validateCompression (compression : RelationCompressionLayout) : Result Unit := do
  ensure (¬ (compression.groupIndices.length ≠ layout.groups.length ∨ compression.groupPlans.length ≠ layout.groups.length))
    (.invalidSetup "relation compression groups disagree with relation groups")
  (layout.groups.zip compression.groupPlans).forM fun (group, plan) => do
    let expected ← okOr (checkedMul usizeBits (← group.logicalBRows) group.roleDims.outer)
      (.invalidSetup "relation B compression shape overflow")
    ensure (plan.sourceCoefficients = expected) (.invalidSetup "relation B compression plan has the wrong source shape")
  let expected ← okOr (checkedMul usizeBits layout.nD layout.dRingDimension)
    (.invalidSetup "relation D compression shape overflow")
  ensure (compression.openingPlan.sourceCoefficients = expected)
    (.invalidSetup "relation D compression plan has the wrong source shape")

def validate : Result Unit := do
  ensure (¬ (layout.groups = [] ∨ layout.dRingDimension = 0))
    (.invalidSetup "relation rhs layout requires non-empty group and ring geometry")
  layout.groups.forM layout.validateGroup
  match layout.compression with
  | some compression => layout.validateCompression compression
  | none => return ()

def groupCompressionPlan (relationGroupIndex : ℕ) : Result (ℕ × CompressionChainPlan) := do
  let compression ← okOr layout.compression (.invalidSetup "relation layout has no compression geometry")
  let groupIndex ← okOr compression.groupIndices[relationGroupIndex]? (.invalidInput "relation group index is invalid")
  let plan ← okOr compression.groupPlans[relationGroupIndex]? (.invalidSetup "relation compression group is missing")
  return (groupIndex, plan)

def openingCompressionPlan : Result CompressionChainPlan :=
  okOr (layout.compression.map (·.openingPlan)) (.invalidSetup "relation layout has no compression geometry")

def rowCountOverflow : AkitaError := .invalidSetup "relation quotient row count overflow"

def checkedUncompressedRowCount : Result ℕ := do
  let count ← layout.groups.foldlM (fun rows group => okOr (do
    let rows ← checkedAdd usizeBits rows 1
    let rows ← checkedAdd usizeBits rows group.nA
    checkedAdd usizeBits rows (← group.logicalBRows.toOption)) rowCountOverflow) 0
  okOr (checkedAdd usizeBits count layout.nD) rowCountOverflow

def groupRuns (group : RelationGroupRows) : Result (List RelationRowRun) := do
  let inner ← RelationRowGeometry.native group.roleDims.inner
  let outer ← RelationRowGeometry.native group.roleDims.outer
  return .consistency group.groupIndex group.openingMethod group.openingGeometry :: .inner group.groupIndex group.nA inner ::
    (List.range group.outerSliceCount).map fun slice => .outer group.groupIndex slice group.physicalBRows outer

def mapRuns (compression : RelationCompressionLayout) (mapIndex : Fin compressionMapCount) : Result (List RelationRowRun) := do
  let f ← (compression.groupIndices.zip compression.groupPlans).mapM fun (groupIndex, plan) => do
    return RelationRowRun.compressionF groupIndex mapIndex (← RelationRowGeometry.native (plan.maps mapIndex).ringDimension)
  let h ← RelationRowGeometry.native (compression.openingPlan.maps mapIndex).ringDimension
  return f ++ [.compressionH mapIndex h]

def compressionRuns : Result (List RelationRowRun) :=
  match layout.compression with
  | none => .ok []
  | some compression => do return (← (List.finRange compressionMapCount).mapM (mapRuns compression)).flatten

/-- `visit_row_runs`: the runs in canonical relation order. -/
def rowRuns : Result (List RelationRowRun) := do
  let groups ← layout.groups.mapM groupRuns
  let opening ← RelationRowGeometry.native layout.dRingDimension
  let compression ← layout.compressionRuns
  return groups.flatten ++ [.opening layout.nD opening] ++ compression

def rowFamilies : Result (List RelationRowFamily) := do
  layout.validate
  let _ ← layout.checkedUncompressedRowCount
  let runs ← layout.rowRuns
  return runs.flatMap (·.rows)

def relationCoefficientBlockLen : Result ℕ := do
  layout.validate
  let _ ← layout.checkedUncompressedRowCount
  let runs ← layout.rowRuns
  okOr ((runs.filterMap (·.commonBlockModulus)).min?) (.invalidSetup "relation rows are empty")

end RelationRhsLayout

end Akita.Witness
