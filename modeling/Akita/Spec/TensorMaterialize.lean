import Akita.Spec.OffsetEq

/-!
# Dense left weights of paired tensors

`akita-algebra/src/offset_eq/tensor_pair/materialize.rs` with its submodules `runs` and `separate`,
and `OffsetEqWindow::fill_interval`: the weight that the families put on every left address, for
one equality point on the right. Disjoint contiguous families are filled as intervals, families
over one dense destination are contracted coordinate by coordinate, all others are visited.
-/

/-!
## Paired equality tensors

`akita-algebra/src/offset_eq/tensor_pair/mod.rs`: a tensor family is a product of weighted axes,
and a coordinate of an axis moves an address in a left and in a right equality domain. The
constructor folds singleton axes into the scalar and merges adjacent contiguous unit axes.
-/

namespace Akita.OffsetEq

section

inductive EqPairTensorWeights (F : Type)
  | unit
  | dense (weights : List F)
  | bitProduct (bitFactors : List (F × F))
  deriving DecidableEq

/-- One axis in a tensor product of paired equality addresses. -/
structure EqPairTensorAxis (F : Type) where
  len : ℕ
  leftStride : ℕ
  rightStride : ℕ
  weights : EqPairTensorWeights F
  deriving DecidableEq

variable {F : Type} [Field F] [DecidableEq F]

def checkedAxisOffset (base stride coordinate : ℕ) (side : String) : Result ℕ :=
  okOr (Checked.mulAdd stride coordinate base) (.invalidInput ("paired tensor " ++ side ++ " address overflow"))

/-- `charge_work`: the work after one more charge. -/
def chargeWork (work additional : ℕ) : Result ℕ := do
  let work ← okOr (checkedAdd usizeBits work additional) (.invalidInput "paired tensor work overflow")
  ensure (work ≤ maxCompactStrideTerms) (.invalidSize maxCompactStrideTerms work)
  return work

namespace EqPairTensorAxis

/-- An axis whose coordinate coefficients are all one. -/
def unit (len leftStride rightStride : ℕ) : EqPairTensorAxis F := ⟨len, leftStride, rightStride, .unit⟩

def dense (leftStride rightStride : ℕ) (weights : List F) : EqPairTensorAxis F :=
  ⟨weights.length, leftStride, rightStride, .dense weights⟩

variable (axis : EqPairTensorAxis F)

def coordinateWeight (coordinate : ℕ) : Option F :=
  if coordinate ≥ axis.len then none
  else
    match axis.weights with
    | .unit => some 1
    | .dense weights => weights[coordinate]?
    | .bitProduct bitFactors =>
      some (bitFactors.zipIdx.foldl
        (fun weight (factors, bit) => weight * if (coordinate >>> bit) &&& 1 = 1 then factors.2 else factors.1) 1)

/-- The weight table describes exactly `len` coordinates. -/
def validateWeights : Result Unit :=
  match axis.weights with
  | .unit => .ok ()
  | .dense weights => ensure (weights.length = axis.len) (.invalidInput "paired tensor axis weight length mismatch")
  | .bitProduct factors =>
    ensure (Checked.pow2 factors.length = some axis.len) (.invalidInput "paired tensor bit-product length mismatch")

/-- Number of coordinates with a nonzero weight. -/
def nonzeroLen : Result ℕ := do
  axis.validateWeights
  return match axis.weights with
    | .unit => axis.len
    | .dense weights => weights.countP (· ≠ 0)
    | .bitProduct bitFactors =>
      bitFactors.foldl (fun count factors => count * [factors.1, factors.2].countP (· ≠ 0)) 1

def isUnit : Bool :=
  match axis.weights with
  | .unit => true
  | _ => false

end EqPairTensorAxis

/-- A direct tensor description of paired equality-address geometry, axes from innermost to outermost. -/
structure EqPairTensorFamily (F : Type) where
  leftOffset : ℕ
  rightOffset : ℕ
  scalar : F
  axes : List (EqPairTensorAxis F)
  deriving DecidableEq

end

/-- What the build decides for the materialization: its two features and the size of a table entry. -/
structure TensorFeatures where
  noCarry : Bool
  eqRuns : Bool
  entrySize : ℕ

variable {F : Type} [Field F] [DecidableEq F] (rt : Runtime) (ft : TensorFeatures)

namespace OffsetEqWindow

variable (w : OffsetEqWindow F)

/-- The values that `fill_bounded_high_interval` writes, run by run through the low table. At most `len` rounds. -/
def fillBoundedHighInterval (eqHigh : List F) : ℕ → ℕ → ℕ → Result (List F)
  | 0, _, _ => .ok []
  | rounds + 1, start, len =>
    if len = 0 then .ok []
    else do
      let low := start &&& w.lowMask
      let availableLow ← okOr (checkedSub w.eqLow.length low)
        (.internal "bounded equality low index exceeds the prepared table")
      let take := min availableLow len
      let lowEnd ← okOr (checkedAdd usizeBits low take) (.internal "bounded equality low interval end overflow")
      ensure (lowEnd ≤ w.eqLow.length) (.internal "bounded equality low interval exceeds the prepared table")
      let lowValues := (w.eqLow.drop low).take take
      match eqHigh[start >>> w.lowBits]? with
      | none => return List.replicate len 0
      | some scale => do
        let destination := if scale = 0 then List.replicate take 0
          else if scale = 1 then lowValues else lowValues.map (· * scale)
        let start ← okOr (checkedAdd usizeBits start take) (.invalidInput "equality interval overflow")
        let tail ← fillBoundedHighInterval eqHigh rounds start (len - take)
        return destination ++ tail

/-- The parallel threshold of `fill_interval`. -/
def fillThreshold : ℕ := 2 ^ 14

/-- `fill_interval`: the equality values at `len` consecutive addresses. -/
def fillInterval (start len : ℕ) : Result (List F) := do
  let _ ← okOr (checkedAdd usizeBits start len) (.invalidInput "equality interval overflow")
  match w.eqHigh with
  | some eqHigh =>
    if len ≥ fillThreshold then do
      let chunks ← (List.range ((len + fillThreshold - 1) / fillThreshold)).mapM fun chunkIndex => do
        let chunkStart ← okOr (do checkedAdd usizeBits start (← checkedMul usizeBits chunkIndex fillThreshold))
          (.invalidInput "equality interval overflow")
        let chunkLen := min fillThreshold (len - chunkIndex * fillThreshold)
        w.fillBoundedHighInterval eqHigh chunkLen chunkStart chunkLen
      return chunks.flatten
    else w.fillBoundedHighInterval eqHigh len start len
  | none => return (List.range len).map fun offset => w.eval (start + offset)

end OffsetEqWindow

/-- The new values of `output[start..stop]`. -/
def writeSlice (output : List F) (start : ℕ) (values : List F) : List F :=
  output.take start ++ values ++ output.drop (start + values.length)

/-! ## Disjoint unit intervals -/

def outOfRange : AkitaError := .invalidInput "paired tensor left address out of range"

/-- A single contiguous unit axis on both sides. -/
def contiguousUnit (axes : List (EqPairTensorAxis F)) : Option (EqPairTensorAxis F) :=
  match axes with
  | [axis] => if axis.isUnit ∧ axis.leftStride = 1 ∧ axis.rightStride = 1 then some axis else none
  | _ => none

/-- The family loop: `(left start, left end, right start)` of every family, or `none` when one has another shape. -/
def collectUnitIntervals (outputLen : ℕ) : List (EqPairTensorFamily F) → ℕ → List (ℕ × ℕ × ℕ) →
    Result (Option (List (ℕ × ℕ × ℕ)))
  | [], _, intervals => .ok (some intervals)
  | family :: families, work, intervals =>
    if family.scalar = 0 then collectUnitIntervals outputLen families work intervals
    else
      match contiguousUnit family.axes with
      | none => .ok none
      | some axis =>
        if family.scalar ≠ 1 then .ok none
        else do
          let leftEnd ← okOr (checkedAdd usizeBits family.leftOffset axis.len)
            (.invalidInput "paired tensor left span overflow")
          ensure (leftEnd ≤ outputLen) outOfRange
          let work ← chargeWork work axis.len
          collectUnitIntervals outputLen families work (intervals ++ [(family.leftOffset, leftEnd, family.rightOffset)])

/-- Merge neighbours of the sorted intervals; `none` when two overlap. -/
def mergeUnitIntervals : List (ℕ × ℕ × ℕ) → List (ℕ × ℕ × ℕ) → Result (Option (List (ℕ × ℕ × ℕ)))
  | [], merged => .ok (some merged)
  | (leftStart, leftEnd, rightStart) :: rest, merged =>
    match merged.getLast? with
    | none => mergeUnitIntervals rest (merged ++ [(leftStart, leftEnd, rightStart)])
    | some (previousStart, previousEnd, previousRight) =>
      if leftStart < previousEnd then .ok none
      else do
        let previousLen ← okOr (checkedSub previousEnd previousStart)
          (.internal "merged tensor interval has reversed endpoints")
        let previousRightEnd ← okOr (checkedAdd usizeBits previousRight previousLen)
          (.invalidInput "paired tensor right span overflow")
        if leftStart = previousEnd ∧ rightStart = previousRightEnd then
          mergeUnitIntervals rest (merged.dropLast ++ [(previousStart, leftEnd, previousRight)])
        else mergeUnitIntervals rest (merged ++ [(leftStart, leftEnd, rightStart)])

def fillUnitInterval (equality : OffsetEqWindow F) (output : List F) (interval : ℕ × ℕ × ℕ) : Result (List F) := do
  let (leftStart, leftEnd, rightStart) := interval
  ensure (leftStart ≤ leftEnd ∧ leftEnd ≤ output.length) (.internal "merged tensor interval exceeds the output")
  let values ← equality.fillInterval rightStart (leftEnd - leftStart)
  return writeSlice output leftStart values

def materializeDisjointUnitIntervals (equality : OffsetEqWindow F) (families : List (EqPairTensorFamily F)) (outputLen : ℕ) :
    Result (Option (List F)) := do
  ensure (rt.reserves families.length) (.invalidInput "paired tensor interval allocation failed")
  match ← collectUnitIntervals outputLen families 0 [] with
  | none => return none
  | some intervals => do
    match ← mergeUnitIntervals (intervals.mergeSort fun a b => decide (a.1 ≤ b.1)) [] with
    | none => return none
    | some intervals => do
      let output ← intervals.foldlM (fillUnitInterval equality) (List.replicate outputLen 0)
      return some output

/-! ## Dense destinations -/

/-- Precomputed nonzero `(right offset, weight)` terms, or the residual axes walked for every coordinate. -/
inductive ResidualTerms (F : Type)
  | table (terms : List (ℕ × F))
  | streamed

structure DenseLeftTensorView (F : Type) where
  family : EqPairTensorFamily F
  destinationAxis : ℕ
  residual : ResidualTerms F

/-- The product of weights, with the multiplications by one left out. -/
def scaleWeight (weight factor : F) : F :=
  if factor = 1 then weight else if weight = 1 then factor else weight * factor

/-- A weighted value, with a multiplication by one left out. -/
def weighted (weight value : F) : F := if weight = 1 then value else weight * value

/-- `visit_residual_terms`: the `(right offset, weight)` leaves in the order of the walk. -/
def visitResidualTerms (destinationAxis : ℕ) : List (EqPairTensorAxis F) → ℕ → ℕ → F → Result (List (ℕ × F))
  | [], _, offset, weight => .ok [(offset, weight)]
  | axis :: axes, axisIndex, offset, weight =>
    if axisIndex = destinationAxis then visitResidualTerms destinationAxis axes (axisIndex + 1) offset weight
    else do
      let leaves ← (List.range axis.len).mapM fun coordinate => do
        let factor ← okOr (axis.coordinateWeight coordinate)
          (.invalidInput "residual tensor axis coordinate weight is absent")
        if factor = 0 then return []
        else do
          let next ← checkedAxisOffset offset axis.rightStride coordinate "right"
          visitResidualTerms destinationAxis axes (axisIndex + 1) next (scaleWeight weight factor)
      return leaves.flatten

namespace DenseLeftTensorView

variable (view : DenseLeftTensorView F)

def residualAxes : List (EqPairTensorAxis F) := view.family.axes.eraseIdx view.destinationAxis

/-- Number of nonzero-weight residual terms. -/
def liveResidualLen : Result ℕ :=
  if view.family.scalar = 0 then .ok 0
  else view.residualAxes.foldlM (fun count axis => do
    okOr (checkedMul usizeBits count (← axis.nonzeroLen)) (.invalidInput "paired tensor residual count overflow")) 1

def tabulateResidual (live : ℕ) : Result (DenseLeftTensorView F) := do
  ensure (rt.reserves live) (.invalidInput "paired tensor residual table allocation failed")
  let table ← visitResidualTerms view.destinationAxis view.family.axes 0 0 1
  return { view with residual := .table table }

/-- Contract the residual axes at one destination coordinate, including the family scalar. -/
def evaluateResidual (equality : OffsetEqWindow F) (base : ℕ) : Result F :=
  match view.residual with
  | .table table => do
    let value ← table.foldlM (fun value (offset, weight) => do
      let index ← okOr (checkedAdd usizeBits base offset) (.invalidInput "paired tensor right offset overflow")
      return value + weighted weight (equality.eval index)) 0
    return weighted view.family.scalar value
  | .streamed =>
    if view.family.scalar = 0 then return 0
    else do
      let leaves ← visitResidualTerms view.destinationAxis view.family.axes 0 base view.family.scalar
      return leaves.foldl (fun value (index, weight) => value + weighted weight (equality.eval index)) 0

end DenseLeftTensorView

/-- `DenseLeftOverlap`: families that all write one left interval through a unit destination axis. -/
structure DenseLeftOverlap (F : Type) where
  views : List (DenseLeftTensorView F)
  destinationStart : ℕ
  destinationLen : ℕ

/-- The axis loop of `dense_left_destination_axis`. -/
def destinationAxisFrom : List (EqPairTensorAxis F) → ℕ → Option ℕ → Option ℕ
  | [], _, destination => destination
  | axis :: axes, index, destination =>
    if axis.leftStride = 1 ∧ axis.isUnit then
      if destination.isSome then none else destinationAxisFrom axes (index + 1) (some index)
    else if axis.leftStride ≠ 0 then none
    else destinationAxisFrom axes (index + 1) destination

def denseLeftDestinationAxis (family : EqPairTensorFamily F) : Option ℕ := destinationAxisFrom family.axes 0 none

namespace DenseLeftOverlap

def maxResidualTableBytes : ℕ := 2 ^ 20

def coordinateOverflow : AkitaError := .invalidInput "paired tensor coordinate count overflow"

/-- The family loop of `plan`: the views and the residual coordinates, or `none` for another shape. -/
def planViews (start len : ℕ) : List (EqPairTensorFamily F) → List (DenseLeftTensorView F) → ℕ →
    Result (Option (List (DenseLeftTensorView F) × ℕ))
  | [], views, residualCoordinates => .ok (some (views, residualCoordinates))
  | family :: families, views, residualCoordinates =>
    match denseLeftDestinationAxis family with
    | none => .ok none
    | some destinationAxis => do
      let axis ← okOr family.axes[destinationAxis]? (.internal "selected tensor destination axis is absent")
      if family.leftOffset ≠ start ∨ axis.len ≠ len then return none
      else do
        let familyResidual ← (family.axes.eraseIdx destinationAxis).foldlM
          (fun product axis => okOr (checkedMul usizeBits product axis.len) coordinateOverflow) 1
        let residualCoordinates ← okOr (checkedAdd usizeBits residualCoordinates familyResidual) coordinateOverflow
        planViews start len families (views ++ [⟨family, destinationAxis, .streamed⟩]) residualCoordinates

/-- The residuals are tabulated when all live terms fit the byte budget. -/
def tabulateViews (views : List (DenseLeftTensorView F)) (budgetBytes : ℕ) : Result (List (DenseLeftTensorView F)) := do
  let live ← views.mapM fun view => view.liveResidualLen
  let liveTotal ← live.foldlM (fun total count =>
    okOr (checkedAdd usizeBits total count) (.invalidInput "paired tensor residual count overflow")) 0
  let fits := (checkedMul usizeBits liveTotal ft.entrySize).any (· ≤ budgetBytes)
  (views.zip live).mapM fun (view, count) =>
    if count = 0 then pure { view with residual := .table [] }
    else if fits then view.tabulateResidual rt count
    else pure view

def plan (families : List (EqPairTensorFamily F)) (outputLen budgetBytes : ℕ) : Result (Option (DenseLeftOverlap F)) :=
  match families.head? with
  | none => .ok none
  | some first =>
    match denseLeftDestinationAxis first with
    | none => .ok none
    | some firstDestinationAxis => do
      let firstAxis ← okOr first.axes[firstDestinationAxis]?
        (.internal "selected first tensor destination axis is absent")
      let destinationEnd ← okOr (checkedAdd usizeBits first.leftOffset firstAxis.len)
        (.invalidInput "paired tensor left span overflow")
      ensure (destinationEnd ≤ outputLen) outOfRange
      match ← planViews first.leftOffset firstAxis.len families [] 0 with
      | none => return none
      | some (views, residualCoordinates) => do
        let work ← okOr (checkedMul usizeBits firstAxis.len residualCoordinates)
          (.invalidInput "paired tensor work overflow")
        ensure (work ≤ maxCompactStrideTerms) (.invalidSize maxCompactStrideTerms work)
        let views ← (if firstAxis.len > 1 then tabulateViews rt ft views budgetBytes else pure views : Result _)
        return some ⟨views, first.leftOffset, firstAxis.len⟩

end DenseLeftOverlap

/-! ## The no-carry feature -/

structure SeparatedResidual (F : Type) where
  origin : ℕ
  lowOrigin : ℕ
  highSum : F

namespace SeparatedResidual

/-- Every residual keeps the low index and does not overflow over the span. -/
def validates (equality : OffsetEqWindow F) (origin lowOrigin span : ℕ) (residual : List (ℕ × F)) : Bool :=
  residual.all fun (offset, _) =>
    match checkedAdd usizeBits origin offset with
    | none => false
    | some index => decide (index &&& equality.lowMask = lowOrigin) && (checkedAdd usizeBits index span).isSome

/-- `prepare`: a shared low residue and a span without a carry. -/
def prepare (view : DenseLeftTensorView F) (equality : OffsetEqWindow F) : Result (Option (SeparatedResidual F)) :=
  match view.residual with
  | .streamed => .ok none
  | .table residual =>
    if residual.length < 2 then .ok none
    else do
      let axis ← okOr view.family.axes[view.destinationAxis]? (.internal "tensor view destination axis is absent")
      return do
        let last ← checkedSub axis.len 1
        let span ← checkedMul usizeBits axis.rightStride last
        let (firstOffset, _) ← residual.head?
        let origin := view.family.rightOffset
        let firstIndex ← checkedAdd usizeBits origin firstOffset
        let lowOrigin := firstIndex &&& equality.lowMask
        let stop ← checkedAdd usizeBits lowOrigin span
        if stop > equality.lowMask ∨ validates equality origin lowOrigin span residual = false then none
        else
          let highSum := residual.foldl (fun sum (offset, weight) =>
            sum + weighted weight (equality.evalHigh ((origin + offset) >>> equality.lowBits))) 0
          some ⟨origin, lowOrigin, highSum⟩

def evaluate (separated : SeparatedResidual F) (equality : OffsetEqWindow F) (base : ℕ) : Result F := do
  let index ← okOr (do Checked.sum [separated.lowOrigin, ← checkedSub base separated.origin])
    (.internal "separated tensor low index overflow")
  let low ← okOr equality.eqLow[index]? (.internal "separated tensor low index is out of range")
  return low * separated.highSum

end SeparatedResidual

/-! ## The runs feature -/

/-- The destination axis of a view and its table, where the view admits runs. -/
def admitsRuns (equality : OffsetEqWindow F) (destinationLen : ℕ) (view : DenseLeftTensorView F) : Result Bool :=
  if view.family.scalar = 0 then .ok true
  else
    match view.residual with
    | .streamed => .ok false
    | .table residual => do
      let axis ← okOr view.family.axes[view.destinationAxis]? (.internal "tensor run destination axis is absent")
      if ¬ axis.rightStride.isPowerOfTwo ∨ axis.rightStride > equality.eqLow.length / 8 ∨ axis.len ≠ destinationLen then
        return false
      else do
        let span ← okOr (checkedMul usizeBits axis.rightStride (axis.len - 1))
          (.invalidInput "tensor run right span overflow")
        let last ← okOr (checkedAdd usizeBits view.family.rightOffset span)
          (.invalidInput "tensor run right offset overflow")
        residual.forM fun (offset, _) => do
          let _ ← okOr (checkedAdd usizeBits last offset) (.invalidInput "tensor run residual offset overflow")
        return true

/-- The admission loop: `none` on the first view that declines. -/
def admitViews (equality : OffsetEqWindow F) (destinationLen : ℕ) : List (DenseLeftTensorView F) → Result Bool
  | [] => .ok true
  | view :: views => do
    if ← admitsRuns equality destinationLen view then admitViews equality destinationLen views else return false

/-- The `while` loop of one residual term, run by run through the low table. At most one round per coordinate. -/
def accumulateRun (equality : OffsetEqWindow F) (highValues : List F) (stride strideBits : ℕ) (coefficient : F) :
    ℕ → ℕ → List F → Result (List F)
  | 0, _, remaining => .ok remaining
  | rounds + 1, index, remaining =>
    if remaining = [] then .ok []
    else
      let low := index &&& equality.lowMask
      match highValues[index >>> equality.lowBits]? with
      | none => .ok remaining
      | some highValue => do
        let available := ((equality.lowMask - low) >>> strideBits) + 1
        let take := min available remaining.length
        let run := remaining.take take
        let tail := remaining.drop take
        let scale := if coefficient = 1 then highValue else coefficient * highValue
        let run ← (if scale = 0 then pure run
          else do
            ensure (low ≤ equality.eqLow.length) (.internal "tensor run low index exceeds table")
            return run.zipIdx.map fun (value, step) =>
              match equality.eqLow[low + step * stride]? with
              | some lowValue => value + lowValue * scale
              | none => value : Result (List F))
        if tail = [] then return run
        else do
          let index ← okOr (do checkedAdd usizeBits index (← checkedMul usizeBits stride take))
            (.internal "validated tensor run advance overflow")
          let tail ← accumulateRun equality highValues stride strideBits coefficient rounds index tail
          return run ++ tail

def accumulateView (equality : OffsetEqWindow F) (highValues : List F) (destination : List F) (view : DenseLeftTensorView F) :
    Result (List F) :=
  if view.family.scalar = 0 then .ok destination
  else do
    let axis ← okOr view.family.axes[view.destinationAxis]?
      (.internal "validated tensor run destination axis is absent")
    match view.residual with
    | .streamed => .error (.internal "validated tensor run residual is not tabulated")
    | .table residual =>
      residual.foldlM (fun destination (offset, weight) => do
        let coefficient := if view.family.scalar = 1 then weight else view.family.scalar * weight
        let index ← okOr (checkedAdd usizeBits view.family.rightOffset offset)
          (.internal "validated tensor run offset overflow")
        accumulateRun equality highValues axis.rightStride (trailingZeros axis.rightStride) coefficient
          destination.length index destination) destination

/-- `runs::try_accumulate`: the destination, or `none` when the views are left to the coordinate path. -/
def tryAccumulate (equality : OffsetEqWindow F) (views : List (DenseLeftTensorView F)) (separated : Bool)
    (destination : List F) : Result (Option (List F)) :=
  match equality.eqHigh with
  | none => .ok none
  | some highValues =>
    if destination.length < 16 ∨ separated then .ok none
    else do
      if ← admitViews equality destination.length views then do
        let destination ← views.foldlM (accumulateView equality highValues) destination
        return some destination
      else return none

/-! ## The coordinate path -/

namespace DenseLeftOverlap

variable (overlap : DenseLeftOverlap F)

def evaluateView (equality : OffsetEqWindow F) (coordinate : ℕ)
    (entry : DenseLeftTensorView F × Option (SeparatedResidual F)) : Result F :=
  let (view, prepared) := entry
  if view.family.scalar = 0 then .ok 0
  else do
    let axis ← okOr view.family.axes[view.destinationAxis]? (.internal "tensor view destination axis is absent")
    let rightOffset ← checkedAxisOffset view.family.rightOffset axis.rightStride coordinate "right"
    match prepared with
    | some prepared => do
      let value ← prepared.evaluate equality rightOffset
      return weighted view.family.scalar value
    | none => view.evaluateResidual equality rightOffset

def materialize (equality : OffsetEqWindow F) (outputLen : ℕ) : Result (List F) := do
  let separated ← overlap.views.mapM fun view =>
    (if ft.noCarry then SeparatedResidual.prepare view equality else pure none : Result _)
  ensure (overlap.destinationStart + overlap.destinationLen ≤ outputLen)
    (.internal "validated tensor destination span exceeds the output")
  let zeros := List.replicate overlap.destinationLen 0
  let runs ← (if ft.eqRuns then tryAccumulate equality overlap.views (separated.any (·.isSome)) zeros
    else pure none : Result _)
  let destination ← match runs with
    | some destination => pure destination
    | none => (List.range overlap.destinationLen).mapM fun coordinate =>
        (overlap.views.zip separated).foldlM (fun value entry => do
          let term ← evaluateView equality coordinate entry
          return value + term) 0
  return writeSlice (List.replicate outputLen 0) overlap.destinationStart destination

end DenseLeftOverlap

/-! ## The general path -/

/-- `visit_tensor_coordinates` with the charged work and the visitor's state `σ`. -/
def visitTensorCoordinates {σ : Type} (visit : ℕ → ℕ → F → σ → Result σ) :
    List (EqPairTensorAxis F) → ℕ → ℕ → F → ℕ × σ → Result (ℕ × σ)
  | [], left, right, weight, (work, state) =>
    if weight = 0 then .ok (work, state)
    else do
      let work ← chargeWork work 1
      let state ← visit left right weight state
      return (work, state)
  | axis :: axes, left, right, weight, (work, state) =>
    if weight = 0 then .ok (work, state)
    else do
      let work ← chargeWork work axis.len
      (List.range axis.len).foldlM (fun progress coordinate => do
        let axisWeight ← okOr (axis.coordinateWeight coordinate)
          (.invalidInput "visited tensor axis coordinate weight is absent")
        if axisWeight = 0 then return progress
        else do
          let left ← checkedAxisOffset left axis.leftStride coordinate "left"
          let right ← checkedAxisOffset right axis.rightStride coordinate "right"
          visitTensorCoordinates visit axes left right (scaleWeight weight axisWeight) progress) (work, state)

def addLeftWeight (equality : OffsetEqWindow F) (left right : ℕ) (weight : F) (output : List F) : Result (List F) := do
  ensure (left < output.length) outOfRange
  return output.modify left (· + weighted weight (equality.eval right))

/-- One family of the general path: a contiguous unit family over zeros is filled, any other one is visited. -/
def materializeFamily (equality : OffsetEqWindow F) (progress : ℕ × List F) (family : EqPairTensorFamily F) :
    Result (ℕ × List F) := do
  let (work, output) := progress
  let visit := visitTensorCoordinates (addLeftWeight equality) family.axes family.leftOffset family.rightOffset
    family.scalar (work, output)
  match (if family.scalar = 1 then contiguousUnit family.axes else none) with
  | none => visit
  | some axis => do
    let stop ← okOr (checkedAdd usizeBits family.leftOffset axis.len) (.invalidInput "paired tensor left span overflow")
    ensure (stop ≤ output.length) outOfRange
    if ∀ value ∈ (output.drop family.leftOffset).take axis.len, value = 0 then do
      let work ← chargeWork work axis.len
      let values ← equality.fillInterval family.rightOffset axis.len
      return (work, writeSlice output family.leftOffset values)
    else visit

def materializeEqTensorLeft (equality : OffsetEqWindow F) (families : List (EqPairTensorFamily F)) (outputLen : ℕ) :
    Result (List F) := do
  (families.flatMap (·.axes)).forM fun axis => axis.validateWeights
  match ← materializeDisjointUnitIntervals rt equality families outputLen with
  | some output => return output
  | none => do
    match ← DenseLeftOverlap.plan rt ft families outputLen DenseLeftOverlap.maxResidualTableBytes with
    | some overlap => overlap.materialize ft equality outputLen
    | none => do
      let (_, output) ← families.foldlM (materializeFamily equality) (0, List.replicate outputLen 0)
      return output

end Akita.OffsetEq
