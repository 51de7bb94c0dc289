import Akita.Spec.Transcript

/-!
# The physical L2-norm proof

`akita-params/src/sis/physical_l2.rs`: the block and limb-pair geometry of an integer norm
proof and the public bounds under which it cannot wrap. With it the integer side of the
prover (`exact_claims`) and of the verifier (`centered_lift`, `reconstruct_l2_sq_from_gram`).
An `i128` is an integer whose checked operations fail outside `[-2^127, 2^127)`.
-/

namespace Akita.PhysicalL2

open Transcript

inductive SisModulusProfileId
  | q32Offset99
  | q64Offset59
  | q128OffsetA7F7
  deriving DecidableEq, Repr

def SisModulusProfileId.modulus : SisModulusProfileId → ℕ
  | .q32Offset99 => 4294967197
  | .q64Offset59 => 18446744073709551557
  | .q128OffsetA7F7 => 340282366920938463463374607427473266697

/-- `i128::MAX as u128`. -/
def i128Max : ℕ := 2 ^ 127 - 1

def divCeil (a b : ℕ) : ℕ := a / b + if 0 < a % b then 1 else 0

def maxLimbGramBlockLen : ℕ := 2 ^ 12

/-- Checked block and upper-triangular limb-pair layout for a LimbGram proof. -/
structure LimbGramLayout where
  physicalResponseLen : ℕ
  blockLen : ℕ
  limbCount : ℕ
  blockCount : ℕ
  pairCount : ℕ
  blockLen_pos : 0 < blockLen
  limbCount_pos : 0 < limbCount
  blockLen_le : blockLen ≤ physicalResponseLen
  blockCount_eq : blockCount = divCeil physicalResponseLen blockLen
  pairCount_eq : pairCount = limbCount * (limbCount + 1) / 2
  pairs_lt : limbCount * (limbCount + 1) < 2 ^ usizeBits
  subclaims_lt : blockCount * pairCount < 2 ^ usizeBits

namespace LimbGramLayout

def new (physicalResponseLen blockLen limbCount : ℕ) : Result LimbGramLayout :=
  if hshape : physicalResponseLen = 0 ∨ blockLen = 0 ∨ limbCount = 0 ∨ physicalResponseLen < blockLen then
    .error (.invalidSetup "L2 limb-Gram shape has invalid response, block, or limb count")
  else
    let blockCount := divCeil physicalResponseLen blockLen
    if hpairs : limbCount + 1 < 2 ^ usizeBits ∧ limbCount * (limbCount + 1) < 2 ^ usizeBits then
      let pairCount := limbCount * (limbCount + 1) / 2
      if hsub : blockCount * pairCount < 2 ^ usizeBits then
        .ok { physicalResponseLen, blockLen, limbCount, blockCount, pairCount,
              blockLen_pos := by omega, limbCount_pos := by omega, blockLen_le := by omega,
              blockCount_eq := rfl, pairCount_eq := rfl, pairs_lt := hpairs.2, subclaims_lt := hsub }
      else .error (.invalidSetup "L2 limb-Gram subclaim count overflow")
    else .error (.invalidSetup "L2 limb-pair count overflow")

variable (layout : LimbGramLayout)

def subclaimCount : ℕ := layout.blockCount * layout.pairCount

/-- Consecutive response ranges `(start, end)`, including the final short block. -/
def blockRanges : List (ℕ × ℕ) := (List.range layout.blockCount).map fun blockIndex =>
    let start := blockIndex * layout.blockLen
    let saturated := min (start + layout.blockLen) (2 ^ usizeBits - 1)
    (start, min saturated layout.physicalResponseLen)

/-- Canonical upper-triangular limb-pair order. -/
def limbPairs : List (ℕ × ℕ) := (List.range layout.limbCount).flatMap fun left =>
    (List.range' left (layout.limbCount - left)).map fun right => (left, right)

/-- Canonical flat subclaim index for one block and limb pair. -/
def subclaimIndex (blockIndex leftLimb rightLimb : ℕ) : Option ℕ := do
  if blockIndex ≥ layout.blockCount ∨ leftLimb > rightLimb ∨ rightLimb ≥ layout.limbCount then none
  else
    let rows ← checkedMul usizeBits leftLimb layout.limbCount
    let triangle ← checkedMul usizeBits leftLimb (leftLimb - 1)
    let precedingRows ← checkedSub rows (triangle / 2)
    let pairIndex ← checkedAdd usizeBits precedingRows (← checkedSub rightLimb leftLimb)
    checkedAdd usizeBits (← checkedMul usizeBits blockIndex layout.pairCount) pairIndex

end LimbGramLayout

inductive PhysicalL2NormProofShape
  | direct (physicalResponseLen : ℕ)
  | limbGram (physicalResponseLen blockLen limbCount : ℕ)
  deriving DecidableEq, Repr

/-- `2 <= fold_basis`, a power of two, as a test. -/
def isBalancedBasis (foldBasis : ℕ) : Bool := decide (2 ≤ foldBasis) && decide (2 ^ Nat.log 2 foldBasis = foldBasis)

/-- The running bound `(max_response, power)` of the direct shape after `n` digits. -/
def directResponseBound (digitAbs foldBasis : ℕ) : ℕ → Result (ℕ × ℕ)
  | 0 => .ok (0, 1)
  | n + 1 => do
    let (maxResponse, power) ← directResponseBound digitAbs foldBasis n
    let term ← okOr (checkedMul 128 digitAbs power) (.invalidSetup "direct norm response bound overflow")
    let maxResponse ← okOr (checkedAdd 128 maxResponse term) (.invalidSetup "direct norm response bound overflow")
    let power ← okOr (checkedMul 128 power foldBasis) (.invalidSetup "direct norm basis power overflow")
    return (maxResponse, power)

namespace PhysicalL2NormProofShape

def physicalResponseLen : PhysicalL2NormProofShape → ℕ
  | direct len => len
  | limbGram len _ _ => len

/-- Checked LimbGram layout, or `none` for the direct shape. -/
def limbGramLayout : PhysicalL2NormProofShape → Result (Option LimbGramLayout)
  | direct _ => .ok none
  | limbGram len blockLen limbCount => (LimbGramLayout.new len blockLen limbCount).map some

/-- Validate nonzero, bounded arithmetic for the schedule-derived shape. -/
def validate (shape : PhysicalL2NormProofShape) : Result Unit := do
  ensure (shape.physicalResponseLen ≠ 0) (.invalidSetup "L2 norm proof requires a nonempty physical response")
  match shape with
  | direct _ => return ()
  | limbGram len blockLen limbCount =>
    let _ ← LimbGramLayout.new len blockLen limbCount
    return ()

/-- Validate that the shape rules out field wraparound using public bounds. -/
def validateIntegerSoundness (shape : PhysicalL2NormProofShape) (profile : SisModulusProfileId)
    (foldBasis foldDigitCount : ℕ) : Result Unit := do
  shape.validate
  ensure (foldDigitCount ≠ 0 ∧ isBalancedBasis foldBasis)
    (.invalidSetup "L2 norm shape has an invalid balanced digit decomposition")
  let modulus := profile.modulus
  let digitAbs := foldBasis / 2
  match shape with
  | direct len => do
    let (maxResponse, _) ← directResponseBound digitAbs foldBasis foldDigitCount
    let square ← okOr (checkedMul 128 maxResponse maxResponse) (.invalidSetup "direct norm worst-case overflow")
    let worst ← okOr (checkedMul 128 len square) (.invalidSetup "direct norm worst-case overflow")
    ensure (worst < modulus) (.invalidSetup "direct norm shape does not rule out field wraparound")
  | limbGram _ blockLen limbCount => do
    ensure (limbCount = foldDigitCount ∧ modulus ≤ i128Max)
      (.invalidSetup "L2 limb-Gram shape disagrees with its field or digit count")
    let square ← okOr (checkedMul 128 digitAbs digitAbs) (.invalidSetup "L2 limb bound overflow")
    let claimAbsBound ← okOr (checkedMul 128 blockLen square) (.invalidSetup "L2 limb bound overflow")
    ensure (claimAbsBound < modulus / 2) (.invalidSetup "L2 limb block does not rule out centered-lift ambiguity")

/-- Derive the canonical no-wrap proof shape for one physical response domain and its
existing balanced digit decomposition. -/
def derive (profile : SisModulusProfileId) (physicalResponseLen foldBasis foldDigitCount : ℕ) :
    Result PhysicalL2NormProofShape := do
  ensure (physicalResponseLen ≠ 0 ∧ foldDigitCount ≠ 0 ∧ isBalancedBasis foldBasis)
    (.invalidSetup "L2 norm shape requires a nonempty response and balanced power-of-two digits")
  match (direct physicalResponseLen).validateIntegerSoundness profile foldBasis foldDigitCount with
  | .ok _ => return direct physicalResponseLen
  | .error _ =>
    let modulus := profile.modulus
    let digitAbs := foldBasis / 2
    ensure (modulus ≤ i128Max) (.invalidSetup
      "L2 response is too wide for direct proof and its modulus has no centered-limb path")
    let digitSquare ← okOr (checkedMul 128 digitAbs digitAbs) (.invalidSetup "L2 limb digit square overflow")
    let limit ← okOr (checkedSub (modulus / 2) 1) (.invalidSetup "L2 limb alphabet cannot fit a centered block")
    ensure (digitSquare ≠ 0) (.invalidSetup "L2 limb alphabet cannot fit a centered block")
    let maxBlock := limit / digitSquare
    let shape := limbGram physicalResponseLen
      (min (min (min maxBlock (2 ^ usizeBits - 1)) maxLimbGramBlockLen) physicalResponseLen) foldDigitCount
    shape.validateIntegerSoundness profile foldBasis foldDigitCount
    return shape

end PhysicalL2NormProofShape

/-- The canonical `u128` encoding of `F` and the coordinates of `E` over it, as the norm
proof reads them (`CanonicalEncoding`, `FpExtEncoding`). -/
structure LiftBackend (F E : Type) where
  toU128Checked : F → Option ℕ
  fromU128Checked : ℕ → Option F
  extCoords : E → List F

/-- `F` has `q` elements, canonically encoded by `0..q`; a base-field element has itself as
its first coordinate over `F` and zeros after it. -/
structure LiftBackend.Lawful {F E : Type} [CommRing F] [CommRing E] [Algebra F E] (𝔩 : LiftBackend F E)
    (q : ℕ) : Prop where
  cast_modulus : (q : F) = 0
  toU128Checked_cast : ∀ n < q, 𝔩.toU128Checked (n : F) = some n
  fromU128Checked_isSome : ∀ n, (𝔩.fromU128Checked n).isSome ↔ n < q
  extCoords_algebraMap : ∃ n, ∀ x : F, 𝔩.extCoords (algebraMap F E x) = x :: List.replicate n 0

variable {F E : Type} [CommRing F] [DecidableEq F]

def centeredLift (𝔩 : LiftBackend F E) (value : E) (profile : SisModulusProfileId) : Result ℤ :=
  match 𝔩.extCoords value with
  | [] => .error .invalidProof
  | first :: tail => do
    ensure (tail.all (· = 0)) .invalidProof
    let modulus := profile.modulus
    ensure (modulus ≤ i128Max) (.invalidSetup "centered limb lifting is only defined for small fields")
    let canonical ← okOr (𝔩.toU128Checked first) .invalidProof
    (if canonical ≤ modulus / 2 then okOr (checkedI128 canonical) .invalidProof
     else (okOr (checkedI128 (modulus - canonical : ℕ)) .invalidProof).map fun value => -value)

/-- The powers `1, b, .., b^(n-1)` pushed by the loop, with the next power. -/
def basisPowers (basis : ℤ) : ℕ → Result (List ℤ × ℤ)
  | 0 => .ok ([], 1)
  | n + 1 => do
    let (powers, power) ← basisPowers basis n
    let next ← okOr (checkedI128 (power * basis)) (.invalidSetup "L2 basis power overflow")
    return (powers ++ [power], next)

/-- Reconstruct the exact nonnegative square sum from canonical block-major,
upper-triangular limb Gram claims. -/
def reconstructL2SqFromGram (shape : PhysicalL2NormProofShape) (foldBasis : ℕ) (claims : List ℤ) : Result ℕ := do
  let layout ← okOr (← shape.limbGramLayout) (.invalidInput "direct L2 shape has no limb-Gram reconstruction")
  ensure (claims.length = layout.subclaimCount) (.invalidSize layout.subclaimCount claims.length)
  let basis ← okOr (checkedI128 foldBasis) (.invalidSetup "L2 fold basis exceeds i128")
  let powerCount ← okOr (checkedMul usizeBits layout.limbCount 2) (.invalidSetup "L2 power count overflow")
  let (powers, _) ← basisPowers basis powerCount
  let total ← (List.range layout.blockCount).foldlM (fun total blockIndex =>
    layout.limbPairs.foldlM (fun total (pair : ℕ × ℕ) => do
      let claimIndex ← okOr (layout.subclaimIndex blockIndex pair.1 pair.2)
        (.internal "validated limb-Gram layout has no subclaim index")
      let claim ← okOr claims[claimIndex]? (.internal "validated limb-Gram claims are missing the indexed claim")
      let exponent ← okOr (checkedAdd usizeBits pair.1 pair.2) (.invalidSetup "L2 exponent overflow")
      let power ← okOr powers[exponent]? (.internal "generated L2 basis powers are missing the Gram exponent")
      let scale ← okOr (checkedI128 (power * if pair.1 = pair.2 then 1 else 2)) (.invalidSetup "L2 Gram scale overflow")
      let product ← okOr (checkedI128 (claim * scale)) (.invalidSetup "L2 Gram product overflow")
      okOr (checkedI128 (total + product)) (.invalidSetup "L2 Gram sum overflow")) total) 0
  ensure (0 ≤ total) .invalidProof
  return total.toNat

/-- The prover's Gram claims for the integer planes of a LimbGram shape, one plane a limb
(the loop of `exact_claims`). -/
def gramClaims (layout : LimbGramLayout) (integers : List (List ℤ)) : Result (List ℤ) :=
  (layout.blockRanges.flatMap fun block => layout.limbPairs.map fun pair => (block, pair)).mapM fun (block, pair) => do
      let leftValues ← okOr integers[pair.1]? (.internal "gram physical norm left limb has no integer response")
      let rightValues ← okOr integers[pair.2]? (.internal "gram physical norm right limb has no integer response")
      (List.range' block.1 (block.2 - block.1)).foldlM (fun sum index => do
        let left ← okOr leftValues[index]? (.internal "gram physical norm left response does not cover its block")
        let right ← okOr rightValues[index]? (.internal "gram physical norm right response does not cover its block")
        let product ← okOr (checkedI128 (left * right)) (.invalidInput "limb product overflow")
        okOr (checkedI128 (sum + product)) (.invalidInput "limb inner product overflow")) 0

end Akita.PhysicalL2
