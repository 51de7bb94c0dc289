import Akita.Spec.OffsetEq

/-!
# Prepared digit windows

`akita-algebra/src/offset_eq/prepared_digits.rs`: one prepared row covers the consecutive
addresses of its lanes and digits. Preparation folds digits and low factor into a no-carry
and a carry table over the smallest power-of-two block that holds a row; a row is then one
lookup and at most one new high equality value.
-/

namespace Akita.OffsetEq

open Lib AffineWeight

def maxPreparedStride : ℕ := 512

def geometricPeriods : List ℕ := [1, 2, 4, 8, 16]

/-- Digit tables in the scalar field, or with the low factor folded in. -/
inductive Tables (F A : Type)
  | unit (noCarry carry : List F)
  | folded (noCarry carry : List A)

structure PreparedDigits (F A : Type) where
  stride : ℕ
  bits : ℕ
  pointBits : ℕ
  lowMask : ℕ
  tables : Tables F A
  high : OffsetEqWindow F

namespace PreparedDigits

variable {F A : Type} [Field F] [DecidableEq F] [AffineWeight F A] (rt : Runtime)

def invalid : AkitaError := .invalidInput "invalid prepared digit contraction"

/-! ## Preparation -/

def emptyTables (low : List A) (width : ℕ) : Tables F A :=
  match low.head? with
  | none => .unit (List.replicate width 0) (List.replicate width 0)
  | some template => .folded (List.replicate width (zeroLike F template)) (List.replicate width (zeroLike F template))

/-- The `fold` closure: one residue and lane of both tables. -/
def fold (low : List A) (tables : Tables F A) (residue lane : ℕ) (sums : F × F) : Tables F A :=
  match tables with
  | .unit noCarry carry => .unit (noCarry.modify residue (· + sums.1)) (carry.modify residue (· + sums.2))
  | .folded noCarry carry =>
    match low[lane]? with
    | none => .folded noCarry carry
    | some factor =>
      .folded (noCarry.modify residue (addScaled · factor sums.1)) (carry.modify residue (addScaled · factor sums.2))

/-- Whether every lane of digits a period apart is geometric. -/
def isGeometricPeriod (digits : List F) (p : ℕ) : Bool :=
  if digits.getD 0 0 ≠ 1 ∨ digits.length % p ≠ 0 then false
  else
    let beta := digits.getD p 0
    (List.range' p (digits.length - p)).all fun i => digits.getD (i - p) 0 * beta = digits.getD i 0

/-- `h[i]`, from the entries after it. -/
def laneEntry (equality h : List F) (beta tail : F) (width period prefixLen i : ℕ) : F :=
  let value := if i + period < h.length then beta * h.getD (i + period) 0 else 0
  let value := if i ≥ prefixLen then value + equality.getD (i - prefixLen) 0 else value
  if i + period < width then value - tail * equality.getD (i + period) 0 else value

/-- The window sums of one geometric lane, from the last address down. -/
def laneWindows (equality : List F) (beta tail : F) (width period prefixLen : ℕ) : List F :=
  (List.range (width + prefixLen)).reverse.foldl
    (fun h i => h.set i (laneEntry equality h beta tail width period prefixLen i)) (List.replicate (width + prefixLen) 0)

/-- The `at` closure. -/
def laneAt (h : List F) (prefixLen : ℕ) (offset : ℤ) : F :=
  let i := offset + prefixLen
  if i < 0 then 0 else h.getD i.toNat 0

def geometricSums (digits h : List F) (width period prefixLen residue lane : ℕ) : F × F :=
  (digits.take period).zipIdx.foldl (fun (sums : F × F) (digitLane, j) =>
    let offset : ℤ := (residue + lane * digits.length + j : ℕ)
    (sums.1 + digitLane * laneAt h prefixLen offset, sums.2 + digitLane * laneAt h prefixLen (offset - width))) (0, 0)

def denseSums (digits equality : List F) (stride width residue lane : ℕ) : F × F :=
  let split := min stride (width - residue)
  digits.zipIdx.foldl (fun (sums : F × F) (digit, d) =>
    let position := lane * digits.length + d
    if position < split then (sums.1 + digit * equality.getD (residue + position) 0, sums.2)
    else (sums.1, sums.2 + digit * equality.getD (residue + position - width) 0)) (0, 0)

/-- The sums of each residue and lane, by the recurrence when the digits allow it. -/
def laneSums (digits equality : List F) (stride width : ℕ) : ℕ → ℕ → F × F :=
  match geometricPeriods.find? (isGeometricPeriod digits) with
  | some period =>
    let count := digits.length / period
    let beta := digits.getD period 0
    let prefixLen := (count - 1) * period
    let tail := digits.getD prefixLen 0 * beta
    let h := laneWindows equality beta tail width period prefixLen
    geometricSums digits h width period prefixLen
  | none => denseSums digits equality stride width

def fillTables (low : List A) (width lanes : ℕ) (sums : ℕ → ℕ → F × F) : Tables F A :=
  (List.range width).foldl (fun tables residue =>
    (List.range lanes).foldl (fun tables lane => fold low tables residue lane (sums residue lane)) tables)
    (emptyTables low width)

def new (challenges digits : List F) (low : List A) : Result (Option (PreparedDigits F A)) := do
  ensure (¬ (digits = [] ∨ (low ≠ [] ∧ ¬ low.length.isPowerOfTwo))) invalid
  let lanes := max low.length 1
  let stride ← okOr (checkedMul usizeBits digits.length lanes) invalid
  (if stride > maxPreparedStride ∨ challenges.length ≥ usizeBits then pure none
  else do
    let width ← okOr (checkedNextPowerOfTwo stride) invalid
    let bits := trailingZeros width
    (if bits > challenges.length then pure none
    else do
      let equality ← EqPolynomial.evals rt (challenges.take bits)
      let tables := fillTables low width lanes (laneSums digits equality stride width)
      let high ← OffsetEqWindow.new rt (challenges.drop bits)
      return some { stride, bits, pointBits := challenges.length, lowMask := width - 1, tables, high }))

/-! ## Rows -/

/-- Where `walk` stands: the address of the row and the cached equality values of its block and the next. -/
structure Cursor (F : Type) where
  address : ℕ
  cachedBlock : ℕ
  left : F
  right : F

/-- The cursor at a row: a new block is the next one. -/
def refresh (p : PreparedDigits F A) (c : Cursor F) : Cursor F :=
  let block := c.address >>> p.bits
  if block ≠ c.cachedBlock then
    { c with cachedBlock := block, left := c.right, right := p.high.eval (block + 1) }
  else c

def walkRow {S : Type} (p : PreparedDigits F A) (stop : ℕ) (visit : S → ℕ → ℕ → F → F → Option S) (state : S × Cursor F)
    (row : ℕ) : Result (S × Cursor F) := do
  let c := p.refresh state.2
  let s ← okOr (visit state.1 row (c.address &&& p.lowMask) c.left c.right) invalid
  return (s, if row + 1 < stop then { c with address := c.address + p.stride } else c)

def walk {S : Type} (p : PreparedDigits F A) (base first stop : ℕ) (visit : S → ℕ → ℕ → F → F → Option S) (s : S) :
    Result S := do
  let cachedBlock := base >>> p.bits
  let c : Cursor F :=
    { address := base, cachedBlock, left := p.high.eval cachedBlock, right := p.high.eval (cachedBlock + 1) }
  let (s, _) ← (List.range' first (stop - first)).foldlM (p.walkRow stop visit) (s, c)
  return s

/-- The `visit` closure: a row's weight against the kernel of its residue. -/
def visitRow (tables : Tables F A) (weights : AffineWeightSource A) (out : A) (row residue : ℕ) (left right : F) :
    Option A :=
  match tables with
  | .unit noCarry carry => do
    let kernel := noCarry.getD residue 0 * left + carry.getD residue 0 * right
    let weight ← weights.get row
    return addScaled out weight kernel
  | .folded noCarry carry => do
    let n ← noCarry[residue]?
    let c ← carry[residue]?
    let kernel := addScaled (addScaled (zeroLike F n) n left) c right
    let weight ← weights.get row
    return AffineWeight.add F out (multiply F weight kernel)

def accumulate (p : PreparedDigits F A) (out : A) (base first rows : ℕ) (weights : AffineWeightSource A) : Result A := do
  ensure (rows ≤ maxCompactStrideTerms) (.invalidSize maxCompactStrideTerms rows)
  let stop ← okOr (checkedAdd usizeBits first rows) invalid
  ensure (stop ≤ weights.len) invalid
  (if rows = 0 then pure out
  else do
    let span ← okOr ((checkedMul usizeBits rows p.stride).bind (checkedSub · 1)) invalid
    let maximum ← okOr (checkedAdd usizeBits base span) invalid
    ensure (maximum < 2 ^ p.pointBits) invalid
    p.walk base first stop (visitRow p.tables weights) out)

end PreparedDigits

namespace AffineDigitIntervals

variable {F A : Type} [Field F] [DecidableEq F] [AffineWeight F A] (rt : Runtime) (I : AffineDigitIntervals F A)

/-- The work of the prepared window: the row tables, the high window and one lookup per row and base. -/
def preparedWork (rows : ℕ) : Option ℕ := do
  let stride ← checkedMul usizeBits I.outerStride I.lowLen
  let width ← checkedNextPowerOfTwo stride
  let highPoint ← checkedSub I.challenges.length (trailingZeros width)
  let tables ← checkedMul usizeBits width stride
  let highWindow ← (OffsetEqWindow.materializedLen highPoint).toOption
  let lookups ← checkedMul usizeBits rows I.baseOffsets.length
  Checked.sum [tables, highWindow, lookups]

def tryEvalPreparedDigitIntervals (template : A) (generalWork : ℕ) : Result (Option A) :=
  let lanes := I.lowLen
  if I.digitStride ≠ 1 ∨ I.outerStride ≠ I.digitWeights.length ∨ I.outerStart % lanes ≠ 0 ∨ I.liveLen % lanes ≠ 0 then
    return none
  else
    let rows := I.liveLen / lanes
    -- `prepared_work.is_none_or(|work| work >= general_work)`
    if (I.preparedWork rows).all fun work => work ≥ generalWork then return none
    else do
      let prepared ← PreparedDigits.new rt I.challenges I.digitWeights I.lowWeights
      match prepared with
      | none => return none
      | some prepared => do
        let first := I.outerStart / lanes
        let out ← I.baseOffsets.zipIdx.foldlM (fun (out : A) (base, index) => do
          let rowsSum ← prepared.accumulate (zeroLike F template) base first rows I.highWeights
          return match I.baseScales[index]? with
            | some scale => addScaled out rowsSum scale
            | none => AffineWeight.add F out rowsSum) (zeroLike F template)
        return some out

end AffineDigitIntervals

/-!
## Affine digit intervals

`eval_affine_digit_intervals` of `akita-algebra/src/offset_eq.rs`: the checks on the geometry
and on every address, the split of the outer window into an unaligned first row, full rows
and an unaligned last row, the work bound, and the choice of a kernel.
-/

/-- The outer window cut at the row boundaries. -/
structure RowSplit where
  prefixSpan : ℕ
  fullStart : ℕ
  fullRows : ℕ
  suffixStart : ℕ
  suffixSpan : ℕ

namespace AffineDigitIntervals

variable {F A : Type} [Field F] [DecidableEq F] [AffineWeight F A] (rt : Runtime) (I : AffineDigitIntervals F A)

def template : Result A := okOr (((I.highWeights.get 0).map (zeroLike F)).or (I.lowWeights.head?.map (zeroLike F)))
    (.invalidInput "affine factors must be non-empty")

/-- The checks on the geometry; the digit span and the end of the outer window. -/
def checkGeometry : Result (ℕ × ℕ) := do
  ensure (¬ (I.baseScales ≠ [] ∧ I.baseScales.length ≠ I.baseOffsets.length))
    (.invalidSize I.baseOffsets.length I.baseScales.length)
  let digitSpan ← okOr ((checkedSub I.digitWeights.length 1).bind (checkedMul usizeBits · I.digitStride))
    (.invalidInput "affine digit span overflow")
  ensure (¬ (¬ I.lowLen.isPowerOfTwo ∨ I.digitWeights = [] ∨ I.digitStride = 0 ∨ I.outerStride ≤ digitSpan))
    (.invalidInput "affine digit geometry requires power-of-two low length and an outer stride covering every strided digit")
  let lowBits := trailingZeros I.lowLen
  ensure (lowBits ≤ I.challenges.length) (.invalidSize lowBits I.challenges.length)
  let outerEnd ← okOr (checkedAdd usizeBits I.outerStart I.liveLen) (.invalidInput "affine outer window overflow")
  let outerCapacity ← okOr (checkedMul usizeBits I.highWeights.len I.lowLen)
    (.invalidInput "affine outer capacity overflow")
  ensure (outerEnd ≤ outerCapacity) (.invalidSize outerCapacity outerEnd)
  return (digitSpan, outerEnd)

/-- Every base leaves its last address inside the equality domain. -/
def checkAddresses (digitSpan : ℕ) : Result Unit := do
  let overflow := AkitaError.invalidInput "affine address overflow"
  let addressSpan ← okOr ((checkedMul usizeBits I.outerStride (I.liveLen - 1)).bind (checkedAdd usizeBits · digitSpan))
    overflow
  I.baseOffsets.forM fun baseOffset => do
    let maxAddress ← okOr (checkedAdd usizeBits baseOffset addressSpan) overflow
    ensure (¬ (I.challenges.length < usizeBits ∧ maxAddress ≥ 2 ^ I.challenges.length))
      (.invalidSize (I.challenges.length + 1) I.challenges.length)

def rowSplit (outerEnd : ℕ) : Result RowSplit := do
  let overflow := AkitaError.invalidInput "affine full-row coverage overflow"
  let cursor := I.outerStart
  let prefixEnd ← (if cursor % I.lowLen = 0 then .ok cursor
    else do
      let boundary ← okOr (checkedAdd usizeBits cursor (I.lowLen - cursor % I.lowLen))
        (.invalidInput "affine row boundary overflow")
      return min outerEnd boundary : Result ℕ)
  let suffixStart := outerEnd - outerEnd % I.lowLen
  let fullStart := prefixEnd
  let fullEnd := min (max suffixStart fullStart) outerEnd
  let prefixSpan := prefixEnd - cursor
  let cursor := prefixEnd
  let fullRows := (fullEnd - cursor) / I.lowLen
  let covered ← okOr (checkedMul usizeBits fullRows I.lowLen) overflow
  let cursor ← okOr (checkedAdd usizeBits cursor covered) overflow
  return { prefixSpan, fullStart, fullRows, suffixStart := cursor, suffixSpan := outerEnd - cursor }

def generalWork (split : RowSplit) (carryCount : ℕ) : Result ℕ := do
  let summarizedLow ← okOr ((checkedAdd usizeBits split.prefixSpan split.suffixSpan).bind
    (checkedAdd usizeBits · (if split.fullRows = 0 then 0 else I.lowLen))) (.invalidInput "affine low work overflow")
  let rowCount ← okOr ((checkedAdd usizeBits (if split.prefixSpan ≠ 0 then 1 else 0) split.fullRows).bind
    (checkedAdd usizeBits · (if split.suffixSpan ≠ 0 then 1 else 0))) (.invalidInput "affine row work overflow")
  let workPerFamily ← okOr ((checkedMul usizeBits I.digitWeights.length summarizedLow).bind fun lowWork =>
    (checkedMul usizeBits rowCount carryCount).bind (checkedAdd usizeBits lowWork ·))
    (.invalidInput "affine work overflow")
  okOr (checkedMul usizeBits workPerFamily I.baseOffsets.length) (.invalidInput "affine family work overflow")

def evalRows (split : RowSplit) (zero : A) : Result A := do
  let lowBits := trailingZeros I.lowLen
  let lowChallenges := I.challenges.take lowBits
  let highChallenges := I.challenges.drop lowBits
  let out ← (if split.prefixSpan ≠ 0 then
      I.accumulateAffineRows rt zero lowChallenges highChallenges (I.outerStart / I.lowLen) (I.outerStart % I.lowLen)
        (I.outerStart % I.lowLen + split.prefixSpan) 1
    else pure zero : Result A)
  let out ← (if split.fullRows ≠ 0 then
      I.accumulateAffineRows rt out lowChallenges highChallenges (split.fullStart / I.lowLen) 0 I.lowLen split.fullRows
    else pure out : Result A)
  (if split.suffixSpan ≠ 0 then
    I.accumulateAffineRows rt out lowChallenges highChallenges (split.suffixStart / I.lowLen) 0 split.suffixSpan 1
  else pure out)

def evalAffineDigitIntervals : Result A := do
  let template ← I.template
  (if I.liveLen = 0 ∨ I.baseOffsets = [] then return zeroLike F template
  else do
    let (digitSpan, outerEnd) ← I.checkGeometry
    let carryCount ← okOr (checkedAdd usizeBits I.outerStride 1) (.invalidInput "affine carry count overflow")
    I.checkAddresses digitSpan
    let aligned ← I.tryEvalBitAlignedDigitIntervals rt
    match aligned with
    | some value => return value
    | none => do
      let split ← I.rowSplit outerEnd
      let work ← I.generalWork split carryCount
      ensure (work ≤ maxCompactStrideTerms) (.invalidSize maxCompactStrideTerms work)
      let prepared ← I.tryEvalPreparedDigitIntervals rt template work
      match prepared with
      | some value => return value
      | none => I.evalRows rt split (zeroLike F template))

end AffineDigitIntervals

end Akita.OffsetEq
