import Akita.Spec.EqPoly

/-!
# Affine digit intervals

`akita-algebra/src/offset_eq.rs` and `offset_eq/weights.rs`: the outer weights, the arguments
of the contraction of digit-innermost affine intervals, and the kernels over them: the
bit-aligned one, and rows through low carry summaries (identity, geometric or dense) whose
high part is bucketed or direct.
-/

namespace Akita.OffsetEq

open Lib

def maxCompactStrideTerms : ℕ := 2 ^ 28

/-! ## Weights -/

/-- Coefficient algebra of the outer factors. -/
class AffineWeight (F A : Type) where
  zeroLike : A → A
  addScaled : A → A → F → A
  addScaledBatch : A → List A → List F → A
  add : A → A → A
  addScalar : A → F → Result A
  multiply : A → A → A

/-- The weight operations of a field over itself. -/
instance AffineWeight.ofField {F : Type} [Field F] : AffineWeight F F where
  zeroLike _ := 0
  addScaled acc factor scale := factor * scale + acc
  addScaledBatch acc factors scales := acc + (List.zipWith (· * ·) factors scales).sum
  add acc factor := acc + factor
  addScalar acc scale := .ok (acc + scale)
  multiply lhs rhs := lhs * rhs

/-- Random-access outer weights: `with_weight` finds a weight exactly below `len`. -/
structure AffineWeightSource (A : Type) where
  len : ℕ
  get : ℕ → Option A
  get_isSome : ∀ i, (get i).isSome = true ↔ i < len

def AffineWeightSource.ofList {A : Type} (weights : List A) : AffineWeightSource A where
  len := weights.length
  get i := weights[i]?
  get_isSome i := by simp

/-! ## Intervals -/

/-- The arguments of `eval_affine_digit_intervals`. -/
structure AffineDigitIntervals (F A : Type) where
  challenges : List F
  baseOffsets : List ℕ
  outerStart : ℕ
  liveLen : ℕ
  outerStride : ℕ
  digitStride : ℕ
  digitWeights : List F
  highWeights : AffineWeightSource A
  lowWeights : List A
  baseScales : List F

/-- `slots.get_mut(i).ok_or(e)?` updated in place. -/
def updateSlot {A : Type} (slots : List A) (i : ℕ) (e : AkitaError) (f : A → Result A) : Result (List A) := do
  let slot ← okOr slots[i]? e
  let slot ← f slot
  return slots.set i slot

variable {F A : Type} [Field F] [DecidableEq F] [AffineWeight F A] (rt : Runtime)

open AffineWeight

def inverse (x : F) : Option F := if x = 0 then none else some x⁻¹

/-- `scale.map_or(value, |s| value * s)`. -/
def scaledBy (scale : Option F) (value : F) : F :=
  match scale with
  | some scale => value * scale
  | none => value

namespace AffineDigitIntervals

variable (I : AffineDigitIntervals F A)

/-- `low_weights.len().max(1)`. -/
def lowLen : ℕ := max I.lowWeights.length 1

/-! ## The bit-aligned kernel -/

/-- The digits of one base, contracted on the low point into its two carry classes. -/
def alignedDigitEvaluations (lowChallenges : List F) (baseLow : ℕ) : Result (List F) :=
  I.digitWeights.zipIdx.foldlM (fun evaluations (digitWeight, digit) => do
    let overflow := AkitaError.invalidInput "affine digit offset overflow"
    let offset ← okOr (checkedMul usizeBits digit I.digitStride) overflow
    let shifted ← okOr (checkedAdd usizeBits baseLow offset) overflow
    let carry := shifted / I.outerStride
    let lowIndex := shifted &&& (I.outerStride - 1)
    updateSlot evaluations carry (.invalidInput "affine aligned digit carry exceeds one") fun evaluation =>
      .ok (evaluation + digitWeight * eqEvalAtIndex lowChallenges lowIndex)) [0, 0]

/-- The outer weights contracted on the high point from one carry on. -/
def alignedOuterEvaluation (highWindow : OffsetEqWindow F) (zero : A) (baseHigh carry outerEnd : ℕ) : Result A :=
  (List.range' I.outerStart (outerEnd - I.outerStart)).foldlM (fun (outerEvaluation : A) outer => do
    let highIndex ← okOr ((checkedAdd usizeBits baseHigh carry).bind
      (checkedAdd usizeBits · (outer - I.outerStart))) (.invalidInput "affine high address overflow")
    let eqHigh := highWindow.eval highIndex
    (if eqHigh ≠ 0 then do
      let weight ← okOr (I.highWeights.get outer) (.invalidInput "affine high factor out of range")
      return addScaled outerEvaluation weight eqHigh
    else pure outerEvaluation)) zero

def alignedCarry (highWindow : OffsetEqWindow F) (template : A) (baseHigh outerEnd : ℕ) (scale : Option F) (out : A)
    (digitEvaluation : F) (carry : ℕ) : Result A :=
  let digitEvaluation := scaledBy scale digitEvaluation
  if digitEvaluation = 0 then return out
  else do
    let outerEvaluation ← I.alignedOuterEvaluation highWindow (zeroLike F template) baseHigh carry outerEnd
    return addScaled out outerEvaluation digitEvaluation

def tryEvalBitAlignedDigitIntervals : Result (Option A) :=
  if I.lowWeights ≠ [] ∨ ¬ I.outerStride.isPowerOfTwo then return none
  else
    let lowBits := trailingZeros I.outerStride
    if lowBits > I.challenges.length then return none
    else do
      let overflow := AkitaError.invalidInput "affine aligned work overflow"
      let perBase ← okOr ((checkedMul usizeBits I.liveLen 2).bind (checkedAdd usizeBits · I.digitWeights.length)) overflow
      let work ← okOr (checkedMul usizeBits I.baseOffsets.length perBase) overflow
      ensure (work ≤ maxCompactStrideTerms) (.invalidSize maxCompactStrideTerms work)
      let lowChallenges := I.challenges.take lowBits
      let highChallenges := I.challenges.drop lowBits
      let highWindow ← OffsetEqWindow.new rt highChallenges
      let weight ← okOr (I.highWeights.get I.outerStart) (.invalidInput "affine high factor out of range")
      let template : A := zeroLike F weight
      let outerEnd ← okOr (checkedAdd usizeBits I.outerStart I.liveLen) (.invalidInput "affine outer window overflow")
      let out ← I.baseOffsets.zipIdx.foldlM (fun (out : A) (baseOffset, baseIndex) => do
        let baseLow := baseOffset &&& (I.outerStride - 1)
        let digitEvaluations ← I.alignedDigitEvaluations lowChallenges baseLow
        let baseHigh := baseOffset >>> lowBits
        digitEvaluations.zipIdx.foldlM (fun (out : A) (digitEvaluation, carry) =>
          I.alignedCarry highWindow template baseHigh outerEnd I.baseScales[baseIndex]? out digitEvaluation carry) out)
        (zeroLike F template)
      return some out

/-! ## Low carry summaries -/

/-- The low factor is the identity: every digit is its own carry. -/
def identityLowSummaries (zero : A) (carryCount : ℕ) : Result (List A) :=
  I.digitWeights.zipIdx.foldlM (fun summaries (digitWeight, digit) => do
    let carry ← okOr (checkedMul usizeBits I.digitStride digit) (.invalidInput "affine digit offset overflow")
    updateSlot summaries carry (.invalidInput "affine carry out of range") fun summary => addScalar summary digitWeight)
    (List.replicate carryCount zero)

def denseLowDigit (lowChallenges : List F) (eqLowTable : Option (List F)) (addressLow lowDelta : ℕ) (lowFactor : A)
    (summaries : List A) (digitWeight : F) (digit : ℕ) : Result (List A) := do
  let digitOffset ← okOr (checkedMul usizeBits I.digitStride digit) (.invalidInput "affine digit offset overflow")
  let shifted ← okOr ((checkedAdd usizeBits addressLow lowDelta).bind (checkedAdd usizeBits · digitOffset))
    (.invalidInput "affine low address overflow")
  let carry := shifted / I.lowLen
  let lowIndex := shifted &&& (I.lowLen - 1)
  let eqLow ← (match eqLowTable with
    | some table => okOr table[lowIndex]? (.invalidInput "affine low index out of range")
    | none => .ok (eqEvalAtIndex lowChallenges lowIndex) : Result F)
  updateSlot summaries carry (.invalidInput "affine carry out of range") fun summary =>
    .ok (addScaled summary lowFactor (digitWeight * eqLow))

def denseLowSummaries (zero : A) (lowChallenges : List F) (eqLowTable : Option (List F))
    (addressLow lowStart lowEnd carryCount : ℕ) : Result (List A) :=
  (List.range' lowStart (lowEnd - lowStart)).foldlM (fun summaries low => do
    let lowFactor ← okOr I.lowWeights[low]? (.invalidInput "affine low factor out of range")
    let lowDelta ← okOr (checkedMul usizeBits I.outerStride (low - lowStart))
      (.invalidInput "affine low address overflow")
    I.digitWeights.zipIdx.foldlM (fun summaries (digitWeight, digit) =>
      I.denseLowDigit lowChallenges eqLowTable addressLow lowDelta lowFactor summaries digitWeight digit) summaries)
    (List.replicate carryCount zero)

/-- `[1, r, r^2, ..]` of a length. -/
def powersOf (r : F) : ℕ → List F
  | 0 => []
  | n + 1 => 1 :: (powersOf r n).map (· * r)

/-- `prefix[t] = Σ_{u < t} r^u eq_low[u]`. -/
def geometricPrefix (rpow eqLow : List F) (lowLen : ℕ) : List F :=
  (List.range lowLen).foldl (fun sums u => sums ++ [sums.getD u 0 + rpow.getD u 0 * eqLow.getD u 0]) [0]

/-- One low position through the prefix sums: its window, and the part that wraps into the next carry. -/
def geometricLow (d0 : F) (rpow rinvpow sums : List F) (addressLow lowStart : ℕ) (summaries : List A) (low : ℕ) :
    Result (List A) := do
  let delta := I.digitWeights.length
  let overflow := AkitaError.invalidInput "affine low address overflow"
  let outOfRange := AkitaError.invalidInput "affine carry out of range"
  let lowFactor ← okOr I.lowWeights[low]? (.invalidInput "affine low factor out of range")
  let lowDelta ← okOr (checkedMul usizeBits I.outerStride (low - lowStart)) overflow
  let start ← okOr (checkedAdd usizeBits addressLow lowDelta) overflow
  let carry := start / I.lowLen
  let s := start &&& (I.lowLen - 1)
  let count1 := min delta (I.lowLen - s)
  let seg := sums.getD (s + count1) 0 - sums.getD s 0
  let summaries ← updateSlot summaries carry outOfRange fun summary =>
    .ok (addScaled summary lowFactor (d0 * rinvpow.getD s 0 * seg))
  (if count1 < delta then do
    let seg := sums.getD (delta - count1) 0
    let carry ← okOr (checkedAdd usizeBits carry 1) (.invalidInput "affine carry overflow")
    updateSlot summaries carry outOfRange fun summary =>
      .ok (addScaled summary lowFactor (d0 * rpow.getD count1 0 * seg))
  else pure summaries)

/-- The ratio of the digit weights, when they could be geometric. -/
def digitRatio : Option F :=
  match I.digitWeights with
  | d0 :: d1 :: _ => (inverse d0).map (d1 * ·)
  | _ => some 1

def buildGeometricLowSummaries (zero : A) (eqLow : List F) (addressLow lowStart lowEnd carryCount : ℕ) :
    Result (Option (List A)) :=
  let delta := I.digitWeights.length
  if delta = 0 ∨ delta > I.lowLen ∨ eqLow.length ≠ I.lowLen ∨
      min ((lowEnd - lowStart) * delta) (2 ^ usizeBits - 1) < I.lowLen then return none
  else
    let d0 := I.digitWeights.getD 0 0
    if d0 = 0 then return none
    else match I.digitRatio with
      | none => return none
      | some r =>
        let rpow := powersOf r (I.lowLen + 1)
        if r = 0 ∨ ¬ (I.digitWeights.zipIdx.all fun (weight, k) => weight = d0 * rpow.getD k 0) then return none
        else match inverse r with
          | none => return none
          | some rInv => do
            let rinvpow := powersOf rInv I.lowLen
            let sums := geometricPrefix rpow eqLow I.lowLen
            let summaries ← (List.range' lowStart (lowEnd - lowStart)).foldlM
              (I.geometricLow d0 rpow rinvpow sums addressLow lowStart) (List.replicate carryCount zero)
            return some summaries

def buildAffineLowSummaries (template : A) (lowChallenges : List F) (eqLowTable : Option (List F))
    (addressLow lowStart lowEnd carryCount : ℕ) : Result (List A) :=
  let zero := zeroLike F template
  if I.lowWeights = [] then do
    ensure (¬ (I.lowLen ≠ 1 ∨ lowChallenges ≠ [] ∨ addressLow ≠ 0 ∨ lowStart ≠ 0 ∨ lowEnd ≠ 1))
      (.invalidInput "affine identity low factor requires the unit low domain")
    I.identityLowSummaries zero carryCount
  else do
    let geometric ← (match eqLowTable with
      | some table =>
        if I.digitStride = 1 then I.buildGeometricLowSummaries zero table addressLow lowStart lowEnd carryCount
        else .ok none
      | none => .ok none : Result (Option (List A)))
    match geometric with
    | some summaries => return summaries
    | none => I.denseLowSummaries zero lowChallenges eqLowTable addressLow lowStart lowEnd carryCount

end AffineDigitIntervals

/-! ## High rows -/

structure AffineAddress (F : Type) where
  first : ℕ
  scale : Option F

def fastHighRowsMin : ℕ := 8

def parallelHighRowsMin : ℕ := 2 ^ 12

def bucketedHighRowsPlan (totalRows carryCount highChallengeCount : ℕ) : Result (Option ℕ) :=
  if totalRows < fastHighRowsMin ∨ carryCount = 0 then return none
  else do
    let window ← okOr (checkedNextPowerOfTwo carryCount) (.invalidInput "affine bucket window overflow")
    let windowBits := trailingZeros window
    (if windowBits > offsetEqLowBitsCap then pure none
    else match checkedSub highChallengeCount windowBits with
      | none => pure none
      | some splitBits =>
        if splitBits > 2 * offsetEqHighBitsCap then pure none
        else do
          let splitLowBits := splitBits / 2
          let splitHighBits := splitBits - splitLowBits
          let splitEntries ← okOr ((Checked.pow2 splitLowBits).bind fun low =>
            (Checked.pow2 splitHighBits).bind (checkedAdd usizeBits low ·))
            (.invalidInput "affine split table work overflow")
          let fallbackWork ← okOr (checkedMul usizeBits totalRows carryCount)
            (.invalidInput "affine fallback work overflow")
          let bucketWork ← okOr (do
            let rows ← checkedMul usizeBits totalRows 2
            let combine ← checkedMul usizeBits carryCount window
            let work ← checkedAdd usizeBits rows combine
            let allocation ← checkedMul usizeBits window 3
            let work ← checkedAdd usizeBits work allocation
            checkedAdd usizeBits work splitEntries) (.invalidInput "affine bucket work overflow")
          (if bucketWork ≥ fallbackWork then pure none
          else do
            ensure (bucketWork ≤ maxCompactStrideTerms) (.invalidSize maxCompactStrideTerms bucketWork)
            return some window))

/-- `eval_high`: a block outside the high domain is zero. -/
def evalHighBlock (splitHigh : SplitEqEvals F) (highDomain block : ℕ) : Result F :=
  if block < highDomain then splitHigh.evalAt block else .ok 0

/-- One row of one family, bucketed by its position in the window. -/
def bucketRow (splitHigh : SplitEqEvals F) (highDomain windowBits outerStride lowBits firstHigh : ℕ)
    (highWeights : AffineWeightSource A) (address : AffineAddress F) (buckets : List A × List A) (row : ℕ) :
    Result (List A × List A) := do
  let overflow := AkitaError.invalidInput "affine high address overflow"
  let h0 := address.first >>> lowBits
  let highIndex ← okOr (checkedAdd usizeBits firstHigh row) (.invalidInput "affine high index overflow")
  let delta ← okOr (checkedMul usizeBits outerStride row) overflow
  let addressHigh ← okOr (checkedAdd usizeBits h0 delta) overflow
  let lowPos := addressHigh &&& (2 ^ windowBits - 1)
  let block := addressHigh >>> windowBits
  let eqBlock0 ← evalHighBlock splitHigh highDomain block
  let nextBlock ← okOr (checkedAdd usizeBits block 1) (.invalidInput "affine high block overflow")
  let eqBlock1 ← evalHighBlock splitHigh highDomain nextBlock
  let eqBlock0 := scaledBy address.scale eqBlock0
  let eqBlock1 := scaledBy address.scale eqBlock1
  let highFactor ← okOr (highWeights.get highIndex) (.invalidInput "affine high factor out of range")
  return (buckets.1.modify lowPos (addScaled · highFactor eqBlock0),
    buckets.2.modify lowPos (addScaled · highFactor eqBlock1))

def bucketTask (splitHigh : SplitEqEvals F) (highDomain windowBits outerStride lowBits firstHigh rows : ℕ)
    (highWeights : AffineWeightSource A) (addresses : List (AffineAddress F)) (addressesPerTask : ℕ)
    (buckets : List A × List A) (task : ℕ) : Result (List A × List A) := do
  let overflow := AkitaError.invalidInput "affine task range overflow"
  let start ← okOr (checkedMul usizeBits task addressesPerTask) overflow
  let stop ← okOr (checkedAdd usizeBits start addressesPerTask) overflow
  let stop := min stop addresses.length
  -- `addresses.get(start..end)`
  ensure (start ≤ stop) (.invalidInput "affine task range invalid")
  ((addresses.drop start).take (stop - start)).foldlM (fun buckets address =>
    (List.range rows).foldlM
      (bucketRow splitHigh highDomain windowBits outerStride lowBits firstHigh highWeights address) buckets) buckets

/-- `Ok(true)` with the new sum, or `Ok(false)` when the geometry is not eligible. -/
def accumulateHighRowsBucketed (out : A) (highChallenges : List F) (addresses : List (AffineAddress F))
    (outerStride lowBits : ℕ) (highWeights : AffineWeightSource A) (firstHigh rows : ℕ) (summaries : List A) :
    Result (Option A) := do
  let carryCount := summaries.length
  let totalRows ← okOr (checkedMul usizeBits rows addresses.length) (.invalidInput "affine high row count overflow")
  let plan ← bucketedHighRowsPlan totalRows carryCount highChallenges.length
  match plan with
  | none => return none
  | some window => do
    let template ← okOr summaries.head? (.invalidInput "affine summaries empty")
    let windowBits := trailingZeros window
    let lowHi := highChallenges.take windowBits
    let highHi := highChallenges.drop windowBits
    let eqLowHi ← EqPolynomial.evals rt lowHi
    let splitHigh ← SplitEqEvals.new rt highHi
    let highDomain := if highHi.length ≥ usizeBits then 2 ^ usizeBits - 1 else 2 ^ highHi.length
    let taskCount := if totalRows ≥ parallelHighRowsMin then addresses.length else 1
    let addressesPerTask := (addresses.length + taskCount - 1) / taskCount
    let (bucket0, bucket1) ← (rt.foldTree taskCount).run
      (.ok (List.replicate window (zeroLike F template), List.replicate window (zeroLike F template)))
      (fun acc task => acc >>= fun buckets => bucketTask splitHigh highDomain windowBits outerStride lowBits firstHigh
        rows highWeights addresses addressesPerTask buckets task) (fun lhs rhs => lhs >>= fun l => rhs >>= fun r =>
        .ok (List.zipWith (AffineWeight.add F) l.1 r.1, List.zipWith (AffineWeight.add F) l.2 r.2))
    let out ← summaries.zipIdx.foldlM (fun (out : A) (summary, carry) => do
      let split ← okOr (checkedSub window carry) (.invalidInput "affine carry exceeds window")
      let phi := addScaledBatch (zeroLike F template) (bucket0.take split) (eqLowHi.drop carry)
      let phi := addScaledBatch phi (bucket1.drop split) (eqLowHi.take carry)
      return AffineWeight.add F out (multiply F phi summary)) out
    return some out

/-! ## Rows -/

namespace AffineDigitIntervals

variable (I : AffineDigitIntervals F A)

def directRow (lowChallenges highChallenges : List F) (window : Option (OffsetEqWindow F)) (firstHigh : ℕ)
    (summaries : List A) (address : AffineAddress F) (out : A) (row : ℕ) : Result A := do
  let overflow := AkitaError.invalidInput "affine high address overflow"
  let highIndex ← okOr (checkedAdd usizeBits firstHigh row) (.invalidInput "affine high index overflow")
  let delta ← okOr ((checkedMul usizeBits I.outerStride I.lowLen).bind (checkedMul usizeBits · row)) overflow
  let rowAddress ← okOr (checkedAdd usizeBits address.first delta) overflow
  let addressHigh := rowAddress >>> lowChallenges.length
  let highFactor ← okOr (I.highWeights.get highIndex) (.invalidInput "affine high factor out of range")
  summaries.zipIdx.foldlM (fun (out : A) (summary, carry) => do
    let index ← okOr (checkedAdd usizeBits addressHigh carry) overflow
    let eqHigh := amortizedEval highChallenges window index
    (if eqHigh ≠ 0 then return addScaled out (multiply F highFactor summary) (scaledBy address.scale eqHigh)
    else pure out)) out

/-- `accumulate_group`: the families of one low residue. -/
def accumulateGroup (lowChallenges highChallenges : List F) (template : A) (eqLowTable : Option (List F))
    (firstHigh lowStart lowEnd rows : ℕ) (state : A × Option (OffsetEqWindow F)) (addressLow : ℕ)
    (addresses : List (AffineAddress F)) : Result (A × Option (OffsetEqWindow F)) := do
  let (out, window) := state
  let overflow := AkitaError.invalidInput "affine carry span overflow"
  let lowSteps ← okOr ((checkedSub lowEnd lowStart).bind (checkedSub · 1)) (.invalidInput "affine low span is empty")
  let digitSteps ← okOr (checkedSub I.digitWeights.length 1) (.invalidInput "affine digit span is empty")
  let lowSpan ← okOr (checkedMul usizeBits I.outerStride lowSteps) overflow
  let maxCarryNumerator ← okOr ((checkedAdd usizeBits addressLow lowSpan).bind fun value =>
    (checkedMul usizeBits I.digitStride digitSteps).bind (checkedAdd usizeBits value ·)) overflow
  let carryCount ← okOr (checkedAdd usizeBits (maxCarryNumerator / I.lowLen) 1)
    (.invalidInput "affine carry count overflow")
  let summaries ← I.buildAffineLowSummaries template lowChallenges eqLowTable addressLow lowStart lowEnd carryCount
  let bucketed ← accumulateHighRowsBucketed rt out highChallenges addresses I.outerStride lowChallenges.length
    I.highWeights firstHigh rows summaries
  match bucketed with
  | some out => return (out, window)
  | none => do
    let window ← prepareForProduct rt highChallenges window addresses.length rows summaries.length
    let out ← addresses.foldlM (fun out address =>
      (List.range rows).foldlM (I.directRow lowChallenges highChallenges window firstHigh summaries address) out) out
    return (out, window)

def accumulateGroups (lowChallenges highChallenges : List F) (template : A) (eqLowTable : Option (List F))
    (firstHigh lowStart lowEnd rows : ℕ) (state : A × Option (OffsetEqWindow F)) (addresses : List (AffineAddress F)) :
    Result (A × Option (OffsetEqWindow F)) :=
  match addresses with
  | [] => return state
  | address :: rest => do
    let addressLow := address.first &&& (I.lowLen - 1)
    -- `partition_point` on a list sorted by the residue
    let same := rest.takeWhile fun other => other.first &&& (I.lowLen - 1) == addressLow
    let state ← I.accumulateGroup rt lowChallenges highChallenges template eqLowTable firstHigh lowStart lowEnd rows state
      addressLow (address :: same)
    accumulateGroups lowChallenges highChallenges template eqLowTable firstHigh lowStart lowEnd rows state
      (rest.drop same.length)
termination_by addresses.length
decreasing_by simp only [List.length_drop, List.length_cons]; omega

/-- Rows `[firstHigh, firstHigh + rows)` over the low positions `[lowStart, lowEnd)`. -/
def accumulateAffineRows (out : A) (lowChallenges highChallenges : List F) (firstHigh lowStart lowEnd rows : ℕ) :
    Result A := do
  let overflow := AkitaError.invalidInput "affine row address overflow"
  let rowOuter ← okOr ((checkedMul usizeBits firstHigh I.lowLen).bind (checkedAdd usizeBits · lowStart)) overflow
  let localOuter ← okOr (checkedSub rowOuter I.outerStart) (.invalidInput "affine row precedes outer window")
  let addressDelta ← okOr (checkedMul usizeBits I.outerStride localOuter) overflow
  let weight ← okOr (I.highWeights.get firstHigh) (.invalidInput "affine high factor out of range")
  let template : A := zeroLike F weight
  let eqLowTable ← (if I.lowWeights = [] then .ok none
    else if lowChallenges.length ≤ offsetEqLowBitsCap then do
      let table ← EqPolynomial.evals rt lowChallenges
      return some table
    else .ok none : Result (Option (List F)))
  match I.baseOffsets with
  | [baseOffset] => do
    let first ← okOr (checkedAdd usizeBits baseOffset addressDelta) overflow
    let (out, _) ← I.accumulateGroup rt lowChallenges highChallenges template eqLowTable firstHigh lowStart lowEnd rows
      (out, none) (first &&& (I.lowLen - 1)) [{ first, scale := I.baseScales.head? }]
    return out
  | baseOffsets => do
    let addresses ← baseOffsets.zipIdx.mapM fun (baseOffset, baseIndex) => do
      let first ← okOr (checkedAdd usizeBits baseOffset addressDelta) overflow
      return ({ first, scale := I.baseScales[baseIndex]? } : AffineAddress F)
    let sorted := addresses.mergeSort fun a b => a.first &&& (I.lowLen - 1) ≤ b.first &&& (I.lowLen - 1)
    let (out, _) ← I.accumulateGroups rt lowChallenges highChallenges template eqLowTable firstHigh lowStart lowEnd rows
      (out, none) sorted
    return out

end AffineDigitIntervals

end Akita.OffsetEq
