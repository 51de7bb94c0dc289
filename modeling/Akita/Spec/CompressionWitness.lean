import Mathlib.Data.FinEnum
import Akita.Lib.Bits
import Akita.Spec.CompressionPlan

/-!
# Packed witnesses of compression chains

`akita-params/src/compression.rs`, with `field_modulus` of `dispatch/mod.rs`: the negative-binary digits of one
map, bit-major and packed eight to a byte, the witness of a chain and its terminal payload. The encoding of the
field is a parameter; an index past the end of a slice, where the source panics, is an internal error.
-/

namespace Akita.Compression

open Lib
open Schedule (SisModulusProfileId)

/-! ## The field -/

/-- What `Field` and `CanonicalEncoding` give beside the ring operations. -/
structure FieldEncoding (F : Type) where
  numBytes : ℕ
  modulusBits : ℕ
  toBytesLe : F → List UInt8
  toU128Checked : F → Option ℕ
  half : F → F

/-- The carry loop of `field_modulus_be_bytes`, which stops when the carry is spent. -/
def addCarry : ℕ → List UInt8 → List UInt8 × ℕ
  | carry, [] => ([], carry)
  | carry, byte :: bytes =>
    let sum := byte.toNat + carry
    if sum / 256 = 0 then (UInt8.ofNat sum :: bytes, 0)
    else
      let (rest, carry) := addCarry (sum / 256) bytes
      (UInt8.ofNat sum :: rest, carry)

section

variable {F : Type} [Ring F] (𝔢 : FieldEncoding F)

/-- `field_modulus_be_bytes`: one more than the encoding of `-1`, in 32 bytes. -/
def fieldModulusBeBytes : Result (List UInt8) := do
  ensure (¬ (𝔢.numBytes = 0 ∨ 𝔢.numBytes > 32))
    (.invalidSetup "Akita field modulus exceeds the 256-bit descriptor bound")
  let (littleEndian, carry) := addCarry 1 (𝔢.toBytesLe (-1))
  let littleEndian ← (if carry = 0 then .ok littleEndian
    else if 𝔢.numBytes < 32 then .ok (littleEndian ++ [UInt8.ofNat carry])
    else .error (.invalidSetup "Akita field modulus exceeds the 256-bit descriptor bound") : Result (List UInt8))
  return List.replicate (32 - littleEndian.length) 0 ++ littleEndian.reverse

def fieldModulus : Result ℕ := do
  let bytes ← fieldModulusBeBytes 𝔢
  ensure (¬ (bytes.take 16).any (· ≠ 0)) (.invalidSetup "Akita field modulus does not fit in u128")
  return leValue (bytes.drop 16).reverse

end

def matchesModulus (profile : SisModulusProfileId) (modulus : ℕ) : Prop := profile.modulus = modulus

instance (profile : SisModulusProfileId) (modulus : ℕ) : Decidable (matchesModulus profile modulus) :=
  inferInstanceAs (Decidable (_ = _))

/-! ## Packed digits -/

def CompressionMapPlan.packedDigitBytes (map : CompressionMapPlan) : ℕ := (map.realDigitCount + 7) / 8

/-- `PackedNegativeBinary`: bit one stands for `-1`, bit zero for `0`. -/
structure PackedNegativeBinary where
  map : CompressionMapPlan
  bytes : List UInt8
  deriving DecidableEq

/-- The text of a slice index past the end. -/
def indexOutOfBounds : AkitaError := .internal "index out of bounds"

namespace PackedNegativeBinary

def validateBytes (map : CompressionMapPlan) (bytes : List UInt8) : Result Unit := do
  ensure (bytes.length = map.packedDigitBytes) (.invalidSize map.packedDigitBytes bytes.length)
  let usedInLast := map.realDigitCount % 8
  let paddingMask : UInt8 := ~~~((1 <<< UInt8.ofNat usedInLast) - 1)
  ensure (usedInLast = 0 ∨ ∀ last ∈ bytes.getLast?, last &&& paddingMask = 0)
    (.invalidInput "compression packed digits have nonzero padding bits")

def fromBytes (map : CompressionMapPlan) (bytes : List UInt8) : Result PackedNegativeBinary := do
  validateBytes map bytes
  return ⟨map, bytes⟩

/-- `bytes[linear / 8] |= 1 << (linear % 8)`. -/
def setDigit (bytes : List UInt8) (linear : ℕ) : Result (List UInt8) := do
  let byte ← okOr bytes[linear / 8]? indexOutOfBounds
  return bytes.set (linear / 8) (byte ||| 1 <<< UInt8.ofNat (linear % 8))

/-- The loop over the bits of one magnitude: bit `bit` of coefficient `index` stands at `bit * count + index`. -/
def packMagnitude (fieldBits count magnitude index : ℕ) (bytes : List UInt8) : Result (List UInt8) :=
  (List.range fieldBits).foldlM (fun bytes bit =>
    if magnitude.testBit bit then do
      let base ← okOr (checkedMul usizeBits bit count) (.invalidSetup "compression digit index overflow")
      let linear ← okOr (checkedAdd usizeBits base index) (.invalidSetup "compression digit index overflow")
      setDigit bytes linear
    else .ok bytes) bytes

section

variable {F : Type} [Ring F] (𝔢 : FieldEncoding F)

/-- The magnitude of one coefficient: the canonical value of its negation. -/
def magnitude (modulus : ℕ) (coefficient : F) : Result ℕ := do
  let canonical ← okOr (𝔢.toU128Checked coefficient) (.invalidInput "compression coefficient does not fit in u128")
  if canonical = 0 then return 0
  else okOr (checkedSub modulus canonical) (.invalidInput "noncanonical compression coefficient")

def fromCoefficients (map : CompressionMapPlan) (coefficients : List F) : Result PackedNegativeBinary := do
  ensure (coefficients.length = map.inputCoefficients) (.invalidSize map.inputCoefficients coefficients.length)
  let modulus ← fieldModulus 𝔢
  ensure (matchesModulus map.modulusProfile modulus)
    (.invalidSetup "compression map profile does not match the field modulus")
  let bytes ← coefficients.zipIdx.foldlM (fun bytes (coefficient, index) => do
    let magnitude ← magnitude 𝔢 modulus coefficient
    packMagnitude 𝔢.modulusBits coefficients.length magnitude index bytes)
    (List.replicate map.packedDigitBytes 0)
  fromBytes map bytes

end

/-- `expand_rows`, at ring dimension `D`. -/
def expandRows (D : ℕ) (packed : PackedNegativeBinary) : Result (List (List ℤ)) := do
  ensure (packed.map.ringDimension = D) (.invalidSetup ("compression packed digits require D=" ++
    toString packed.map.ringDimension ++ ", got D=" ++ toString D))
  return (List.range packed.map.realDigitCount).foldl (fun rows linear =>
    if bitAt packed.bytes linear then rows.modify (linear / D) (·.set (linear % D) (-1)) else rows)
    (List.replicate packed.map.inputWidth (List.replicate D 0))

section

variable {F : Type} [Ring F] (𝔢 : FieldEncoding F) (packed : PackedNegativeBinary)

/-- One coefficient at one bit of `recompose`, with the power of that bit. -/
def recomposeDigit (outputLen bit : ℕ) (power : F) (entry : F × ℕ) : Result F := do
  let base ← okOr (checkedMul usizeBits bit outputLen) (.invalidSetup "compression digit index overflow")
  let linear ← okOr (checkedAdd usizeBits base entry.2) (.invalidSetup "compression digit index overflow")
  let byte ← okOr packed.bytes[linear / 8]? indexOutOfBounds
  return if byte.toNat.testBit (linear % 8) then entry.1 - power else entry.1

def recompose : Result (List F) := do
  let modulus ← fieldModulus 𝔢
  ensure (matchesModulus packed.map.modulusProfile modulus)
    (.invalidSetup "compression map profile does not match the field modulus")
  let state ← (List.range 𝔢.modulusBits).foldlM (fun state bit => do
    let output ← state.1.zipIdx.mapM (packed.recomposeDigit state.1.length bit state.2)
    return (output, state.2 + state.2)) (List.replicate packed.map.inputCoefficients (0 : F), (1 : F))
  return state.1

end

end PackedNegativeBinary

/-! ## Chains -/

/-- What the private fields of a plan promise: it and its maps were built by their constructors. -/
structure CompressionChainPlan.Checked (plan : CompressionChainPlan) : Prop where
  chain : CompressionChainPlan.new plan.modulusProfile plan.sourceCoefficients plan.maps = .ok plan
  maps : ∀ map ∈ plan.maps.toList,
    CompressionMapPlan.new map.modulusProfile map.inputCoefficients map.ringDimension map.outputRank = .ok map

def CompressionChainPlan.fieldBytes (plan : CompressionChainPlan) : ℕ := profileFieldBytes plan.modulusProfile

def CompressionChainPlan.unpackedWitnessBytes (plan : CompressionChainPlan) : Result ℕ :=
  plan.maps.toList.foldlM (fun total map => okOr (checkedAdd usizeBits total map.realDigitCount)
    (.invalidSetup "compression unpacked witness bytes overflow")) 0

structure CompressionChainWitness where
  plan : CompressionChainPlan
  stages : List PackedNegativeBinary
  deriving DecidableEq

namespace CompressionChainWitness

def new (plan : CompressionChainPlan) (stages : List PackedNegativeBinary) : Result CompressionChainWitness := do
  ensure (¬ (stages.length ≠ plan.maps.toList.length ∨
      (stages.zip plan.maps.toList).any fun entry => entry.1.map ≠ entry.2))
    (.invalidInput "compression witness stages do not match the chain plan")
  return ⟨plan, stages⟩

def retainedBytes (witness : CompressionChainWitness) : Result ℕ :=
  witness.stages.foldlM (fun total stage => okOr (checkedAdd usizeBits total stage.bytes.length)
    (.invalidSetup "compression retained witness bytes overflow")) 0

end CompressionChainWitness

structure CompressionTerminalPayload (F : Type) where
  plan : CompressionChainPlan
  coefficients : List F
  deriving DecidableEq

def CompressionTerminalPayload.new {F : Type} [Ring F] (𝔢 : FieldEncoding F) (plan : CompressionChainPlan)
    (coefficients : List F) : Result (CompressionTerminalPayload F) := do
  let modulus ← fieldModulus 𝔢
  ensure (matchesModulus plan.modulusProfile modulus)
    (.invalidSetup "compression terminal plan does not match the field modulus")
  ensure (coefficients.length = plan.terminalCoefficients) (.invalidSize plan.terminalCoefficients coefficients.length)
  return ⟨plan, coefficients⟩

end Akita.Compression
