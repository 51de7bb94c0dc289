import Mathlib.Data.Nat.Size
import Akita.Spec.Error

/-!
# Balanced power-of-two decomposition

`akita-algebra/src/ring/cyclotomic/decomposition.rs`: the digits of a centered coefficient are
read as bit fields of one 192-bit addition. With it the digit intervals of
`akita-params/src/sis/decomposition_digits.rs`. A `u64` is a `BitVec 64`, a `u128` a natural
number; a panic is `none`.
-/

namespace Akita.Decompose

open BitVec (ofNat)

/-- The bits of `n`: `128 - n.leading_zeros()`. -/
def bitLength (n : ℕ) : ℕ := n.size

/-- Compute the centering threshold for balanced decomposition. -/
def decomposeCenteringThreshold (levels logBasis q : ℕ) : ℕ :=
  let halfQ := q / 2
  let fieldBits := bitLength (q - 1)
  let totalDecompBits := min (levels % 2 ^ 32 * logBasis) (2 ^ 32 - 1)
  if totalDecompBits = fieldBits then
    let b := 2 ^ logBasis
    let bkMinus1 := if totalDecompBits ≥ 128 then 2 ^ 128 - 1 else 2 ^ totalDecompBits - 1
    let tk := (b / 2 - 1) * (bkMinus1 / (b - 1))
    min tk halfQ
  else halfQ

/-- `BalancedDecomposePow2Params`; the bias words are little-endian. -/
structure BalancedDecomposePow2Params where
  levels : ℕ
  logBasis : ℕ
  q : ℕ
  threshold : ℕ
  biasNonnegative : List (BitVec 64)
  biasNegative : List (BitVec 64)
  deriving DecidableEq, Repr

def overflowingSub (a b : BitVec 64) : BitVec 64 × Bool := (a - b, decide (a < b))

def u64OfBool (b : Bool) : BitVec 64 := if b then 1 else 0

/-- The bias loop of `new`: the top bit of every digit field. -/
def biasNonnegativeWords (logBasis levelCount : ℕ) : List (BitVec 64) :=
  (List.range levelCount).foldl (fun words level =>
    let bit := level * logBasis + logBasis - 1
    words.modify (bit / 64) (· ||| 1#64 <<< (bit % 64))) (List.replicate 3 0)

/-- `F::to_u128_checked` of a field. -/
abbrev CanonicalU128 (F : Type) := F → Option ℕ

namespace BalancedDecomposePow2Params

def new {F : Type} [Ring F] (toU128Checked : CanonicalU128 F) (levels logBasis : ℕ) :
    Option BalancedDecomposePow2Params := do
  let q ← checkedAdd 128 (← toU128Checked (-1)) 1
  guard (0 < logBasis ∧ logBasis ≤ 16)
  guard (levels < 2 ^ 32)
  guard (min (levels * logBasis) (2 ^ 32 - 1) ≤ 128 + logBasis)
  let fieldBits := bitLength (q - 1)
  guard (1 < logBasis ∨ levels ≤ fieldBits)
  let biasNonnegative := biasNonnegativeWords logBasis levels
  let (negative0, borrow0) := overflowingSub (biasNonnegative.getD 0 0) (ofNat 64 q)
  let (partial1, borrow1a) := overflowingSub (biasNonnegative.getD 1 0) (ofNat 64 (q >>> 64))
  let (negative1, borrow1b) := overflowingSub partial1 (u64OfBool borrow0)
  let negative2 := biasNonnegative.getD 2 0 - u64OfBool (borrow1a || borrow1b)
  return {
    levels
    logBasis
    q
    threshold := decomposeCenteringThreshold levels logBasis q
    biasNonnegative
    biasNegative := [negative0, negative1, negative2] }

variable (params : BalancedDecomposePow2Params)

/-- Low bits of `x + H` that the digits read. -/
def digitBits : ℕ := params.levels * params.logBasis

/-- `x + H mod 2^192` for the centered value `x` of `canonical`. -/
def biased (canonical : ℕ) : List (BitVec 64) :=
  let low := ofNat 64 canonical
  let high := ofNat 64 (canonical >>> 64)
  let thresholdLow := ofNat 64 params.threshold
  let thresholdHigh := ofNat 64 (params.threshold >>> 64)
  let negative := decide (high > thresholdHigh) || (decide (high = thresholdHigh) && decide (low > thresholdLow))
  let select := -u64OfBool negative
  let bias (i : ℕ) := params.biasNonnegative.getD i 0 ^^^
    ((params.biasNonnegative.getD i 0 ^^^ params.biasNegative.getD i 0) &&& select)
  let word0 := low + bias 0
  let carry0 := u64OfBool (decide (word0 < low))
  let partial1 := high + bias 1
  let carry1a := decide (partial1 < high)
  let word1 := partial1 + carry0
  let carry1b := decide (word1 < partial1)
  [word0, word1, bias 2 + u64OfBool (carry1a || carry1b)]

end BalancedDecomposePow2Params

/-- `BalancedSignedDigit`: the signed carrier of the digits. -/
inductive BalancedSignedDigit
  | i8
  | i16
  deriving DecidableEq, Repr

/-- `MAX_LOG_BASIS`, which is the width of the carrier. -/
def BalancedSignedDigit.maxLogBasis : BalancedSignedDigit → ℕ
  | .i8 => 8
  | .i16 => 16

/-- `from_biased_field`: `(field & mask).wrapping_sub(half_b) as Self`. -/
def BalancedSignedDigit.fromBiasedField (T : BalancedSignedDigit) (field mask halfB : BitVec 16) : ℤ :=
  (((field &&& mask) - halfB).setWidth T.maxLogBasis).toInt

def biasedChunk : ℕ := 64

/-- Stage the biased words of a chunk, one row a word. -/
def stageChunk {F : Type} (toU128Checked : CanonicalU128 F) (params : BalancedDecomposePow2Params) (chunk : List F)
    (words : List (List (BitVec 64))) : Option (List (List (BitVec 64))) :=
  chunk.zipIdx.foldlM (fun words (coefficient, lane) => do
    let canonical ← toU128Checked coefficient
    return List.zipWith (fun row word => row.set lane word) words (params.biased canonical)) words

def readField (params : BalancedDecomposePow2Params) (words : List (List (BitVec 64))) (level lane : ℕ) :
    Option (BitVec 16) := do
  let shift := level * params.logBasis
  let word := shift / 64
  let bit := shift % 64
  let low ← (← words[word]?)[lane]?
  (if bit + params.logBasis ≤ 64 then return (low >>> bit).setWidth 16
   else do
    let high ← (← words[word + 1]?)[lane]?
    return (low >>> bit ||| high <<< (64 - bit)).setWidth 16)

/-- The digit planes of one staged chunk, written to its columns `start..start + len`. -/
def writePlanes (T : BalancedSignedDigit) (params : BalancedDecomposePow2Params) (width planes : ℕ)
    (words : List (List (BitVec 64))) (start len : ℕ) (out : List ℤ) : Option (List ℤ) :=
  let mask := ofNat 16 (2 ^ params.logBasis - 1)
  let halfB := ofNat 16 (2 ^ (params.logBasis - 1))
  (List.range planes).foldlM (fun out level =>
    (List.range len).foldlM (fun out lane => do
      let field ← readField params words level lane
      return out.set (level * width + (start + lane)) (T.fromBiasedField field mask halfB)) out) out

/-- One pass of the chunk loop, on the staged rows and the output. -/
def decomposeChunk {F : Type} (toU128Checked : CanonicalU128 F) (T : BalancedSignedDigit)
    (params : BalancedDecomposePow2Params) (coefficients : List F) (planes : ℕ)
    (state : List (List (BitVec 64)) × List ℤ) (chunkIndex : ℕ) : Option (List (List (BitVec 64)) × List ℤ) := do
  let start := chunkIndex * biasedChunk
  let chunk := (coefficients.drop start).take biasedChunk
  let len := min chunk.length biasedChunk
  let words ← stageChunk toU128Checked params chunk state.1
  let out ← writePlanes T params coefficients.length planes words start len state.2
  return (words, out)

/-- `balanced_decompose_biased_words` with `WORDS` rows. -/
def balancedDecomposeBiasedWords {F : Type} (toU128Checked : CanonicalU128 F) (T : BalancedSignedDigit) (WORDS : ℕ)
    (coefficients : List F) (out : List ℤ) (params : BalancedDecomposePow2Params) : Option (List ℤ) := do
  let width := coefficients.length
  let words := List.replicate WORDS (List.replicate biasedChunk 0#64)
  let chunkCount := (width + biasedChunk - 1) / biasedChunk
  let (_, out) ← (List.range chunkCount).foldlM
    (decomposeChunk toU128Checked T params coefficients (out.length / width)) (words, out)
  return out

/-- `balanced_decompose_coefficients_pow2_signed_kernel`: only the words the digits span are staged. -/
def balancedDecomposeCoefficientsPow2SignedKernel {F : Type} (toU128Checked : CanonicalU128 F) (T : BalancedSignedDigit)
    (coefficients : List F) (out : List ℤ) (params : BalancedDecomposePow2Params) : Option (List ℤ) :=
  match (params.digitBits + 63) / 64 with
  | 0 | 1 => balancedDecomposeBiasedWords toU128Checked T 1 coefficients out params
  | 2 => balancedDecomposeBiasedWords toU128Checked T 2 coefficients out params
  | _ => balancedDecomposeBiasedWords toU128Checked T 3 coefficients out params

/-- `balanced_decompose_coefficients_pow2_signed_into`, on the scalar kernel. -/
def balancedDecomposeCoefficientsPow2SignedInto {F : Type} (toU128Checked : CanonicalU128 F) (T : BalancedSignedDigit)
    (coefficients : List F) (out : List ℤ) (params : BalancedDecomposePow2Params) : Option (List ℤ) := do
  let expectedLen ← checkedMul usizeBits coefficients.length params.levels
  guard (out.length = expectedLen)
  (if coefficients = [] ∨ params.levels = 0 then return out
   else balancedDecomposeCoefficientsPow2SignedKernel toU128Checked T coefficients out params)

/-- `balanced_decompose_coefficients_pow2_i8_into`, on the portable path. -/
def balancedDecomposeCoefficientsPow2I8Into {F : Type} (toU128Checked : CanonicalU128 F) (coefficients : List F) (out : List ℤ)
    (params : BalancedDecomposePow2Params) : Option (List ℤ) := do
  let expectedLen ← checkedMul usizeBits coefficients.length params.levels
  guard (out.length = expectedLen)
  guard (params.logBasis ≤ BalancedSignedDigit.i8.maxLogBasis)
  (if coefficients = [] ∨ params.levels = 0 then return out
   else balancedDecomposeCoefficientsPow2SignedInto toU128Checked .i8 coefficients out params)

/-- `checked_digit_series`: `1 + b + .. + b^(num_digits - 1)`, the running power beside it. -/
def checkedDigitSeries (logBasis numDigits : ℕ) : Option ℕ :=
  if logBasis = 0 then some numDigits
  else do
    let base := if logBasis < 128 then some (2 ^ logBasis) else none
    let (series, _) ← (List.range numDigits).foldlM (fun (state : ℕ × Option ℕ) _ => do
      let series ← checkedAdd 128 state.1 (← state.2)
      let power := do checkedMul 128 (← state.2) (← base)
      return (series, power)) (0, some 1)
    return series

def checkedDigitReach (factor : Option ℕ) (logBasis numDigits : ℕ) : Option ℕ :=
  if factor = some 0 ∨ numDigits = 0 then some 0
  else do checkedMul 128 (← factor) (← checkedDigitSeries logBasis numDigits)

/-- Exact signed coefficient interval `(negative_abs_reach, positive_reach)`, with `none` on a
side whose reach exceeds `u128::MAX`. -/
def checkedBalancedDigitRepresentableBounds (logBasis numDigits : ℕ) : Option ℕ × Option ℕ :=
  if logBasis = 0 ∨ logBasis ≥ 128 then (some 0, some 0)
  else
    let numDigits := max numDigits 1
    let halfBase := 2 ^ (logBasis - 1)
    (checkedDigitReach (some halfBase) logBasis numDigits, checkedDigitReach (some (halfBase - 1)) logBasis numDigits)

/-!
## Decomposition of small signed rings

`decompose_small_signed_into` of `akita-algebra/src/ring/cyclotomic/decomposition.rs`: the digits of a ring of `i8` or
`i16` integers, read in the narrowest lane that holds them or through the canonical residues, and the two ring-level
entries of the field decomposition. A panic is `none`.
-/

/-- `SmallSignedValue`: the signed carrier of the input. -/
inductive SmallSignedValue
  | i8
  | i16
  deriving DecidableEq, Repr

namespace SmallSignedValue

def width : SmallSignedValue → ℕ
  | i8 => 8
  | i16 => 16

/-- `MIN.unsigned_abs()`. -/
def minAbs (T : SmallSignedValue) : ℕ := 2 ^ (T.width - 1)

/-- `MAX as u128`. -/
def max (T : SmallSignedValue) : ℕ := 2 ^ (T.width - 1) - 1

/-- `widen`, to an `i32`. -/
def widen (T : SmallSignedValue) (value : BitVec T.width) : BitVec 32 := value.signExtend 32

end SmallSignedValue

namespace BalancedDecomposePow2Params

variable (params : BalancedDecomposePow2Params) (T : SmallSignedValue) (O : BalancedSignedDigit) {D : ℕ}

/-- `((1u32 << log_basis) - 1) as u16`. -/
def mask : BitVec 16 := ofNat 16 (2 ^ params.logBasis - 1)

/-- `(1u32 << (log_basis - 1)) as u16`. -/
def halfB : BitVec 16 := ofNat 16 (2 ^ (params.logBasis - 1))

/-- `small_signed_lanes`: every plane reads its field of `word(v)`. -/
def smallSignedLanes (ring : Vector (BitVec T.width) D) (out : List (Vector ℤ D)) {W : ℕ} (word : BitVec 32 → BitVec W) :
    List (Vector ℤ D) := out.zipIdx.map fun (_, level) =>
    let shift := level * params.logBasis
    ring.map fun value =>
      O.fromBiasedField ((word (T.widen value) >>> shift).setWidth 16) params.mask params.halfB

def residueField (words : List (BitVec 64)) (level : ℕ) : Option (BitVec 16) := do
  let shift := level * params.logBasis
  let word := shift / 64
  let bit := shift % 64
  let low ← words[word]?
  (if bit + params.logBasis > 64 then do
    let high ← words[word + 1]?
    return (low >>> bit ||| high <<< (64 - bit)).setWidth 16
   else return (low >>> bit).setWidth 16)

def canonicalResidue (value : BitVec 32) : ℕ :=
  if 0 ≤ value.toInt then value.toInt.toNat else params.q - value.toInt.natAbs

/-- `small_signed_residues`: one column after the other. -/
def smallSignedResidues (ring : Vector (BitVec T.width) D) (out : List (Vector ℤ D)) : Option (List (Vector ℤ D)) :=
  (List.finRange D).foldlM (fun (out : List (Vector ℤ D)) (coefficient : Fin D) => do
    let words := params.biased (params.canonicalResidue (T.widen (ring[coefficient])))
    out.zipIdx.mapM fun (plane, level) => do
      let field ← params.residueField words level
      return plane.set coefficient (O.fromBiasedField field params.mask params.halfB)) out

def decomposeSmallSignedInto (ring : Vector (BitVec T.width) D) (out : List (Vector ℤ D)) : Option (List (Vector ℤ D)) := do
  guard (out.length = params.levels)
  guard (params.logBasis ≤ O.maxLogBasis)
  let centered := decide (params.threshold ≥ T.max) && decide (params.q - params.threshold > T.minAbs)
  let bias := params.biasNonnegative.getD 0 0
  if centered ∧ params.digitBits ≤ 16 then
    return params.smallSignedLanes T O ring out fun value => value.setWidth 16 + bias.setWidth 16
  else if centered ∧ params.digitBits ≤ 32 then
    return params.smallSignedLanes T O ring out fun value => value + bias.setWidth 32
  else if centered ∧ params.digitBits ≤ 64 then
    return params.smallSignedLanes T O ring out fun value => value.signExtend 64 + bias
  else params.smallSignedResidues T O ring out

end BalancedDecomposePow2Params

/-- `balanced_decompose_pow2_i8_into_with_params` and `balanced_decompose_pow2_i16_into`, on the planes one after the
other; the base of a wider carrier was checked by `new`. -/
def balancedDecomposePow2Into {F : Type} (toU128Checked : CanonicalU128 F) (O : BalancedSignedDigit) {D : ℕ} (coeffs : Vector F D)
    (out : List (Vector ℤ D)) (params : BalancedDecomposePow2Params) : Option (List ℤ) := do
  guard (params.logBasis ≤ O.maxLogBasis)
  balancedDecomposeCoefficientsPow2SignedInto toU128Checked O coeffs.toList (out.flatMap Vector.toList) params

end Akita.Decompose
