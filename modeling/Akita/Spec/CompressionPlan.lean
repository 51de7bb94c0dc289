import Akita.Spec.ScheduleParams

/-!
# Compression chain plans

`akita-params/src/compression.rs`, `compression/chain.rs` and `sis/compression.rs`: the two rank-one maps
that take a complete B or D image to its 256-byte payload. The per-length cache of derived plans stores
what the derivation returns and is left out.
-/

namespace Akita.Schedule

def SisModulusProfileId.modulus : SisModulusProfileId → ℕ
  | q32Offset99 => 4294967197
  | q64Offset59 => 18446744073709551557
  | q128OffsetA7F7 => 340282366920938463463374607427473266697

end Akita.Schedule

namespace Akita.Compression

open Schedule (SisModulusProfileId)

def maxCompressionInputBytes : ℕ := 8 * 1024

def compressionTargetBytes : ℕ := 256

def compressionMapCount : ℕ := 2

def compressionRingDimensions : SisModulusProfileId → List ℕ
  | .q128OffsetA7F7 => [32, 16]
  | .q64Offset59 => [64, 32]
  | .q32Offset99 => [128, 64]

/-- `compression_source_ring_dimension_supported`: the first dimension of the ladder divides the source's. -/
def compressionSourceRingDimensionSupported (profile : SisModulusProfileId) (sourceRingDimension : ℕ) : Bool :=
  sourceRingDimension % (compressionRingDimensions profile).headD 0 = 0

def profileFieldBytes (profile : SisModulusProfileId) : ℕ := profile.fieldBits / 8 + if profile.fieldBits % 8 = 0 then 0 else 1

def compressionSisCells : List (SisModulusProfileId × ℕ × ℕ) :=
  [(.q128OffsetA7F7, 16, 2400), (.q128OffsetA7F7, 32, 60460), (.q64Offset59, 32, 1200), (.q64Offset59, 64, 30230),
    (.q32Offset99, 64, 600), (.q32Offset99, 128, 15115)]

/-- `min_compression_secure_rank` under the default policy, at the bound of a negative-binary matrix. -/
def minCompressionSecureRank (profile : SisModulusProfileId) (ringDimension width : ℕ) : Option ℕ := do
  let (_, _, sisMaxWidth) ← compressionSisCells.find? fun (p, dimension, _) => p = profile ∧ dimension = ringDimension
  (if 0 < width ∧ width ≤ sisMaxWidth then some 1 else none : Option ℕ)

def checkedDivCeil (value divisor : ℕ) : Option ℕ :=
  if divisor = 0 then none else checkedAdd usizeBits (value / divisor) (if value % divisor = 0 then 0 else 1)

structure CompressionMapPlan where
  modulusProfile : SisModulusProfileId
  inputCoefficients : ℕ
  ringDimension : ℕ
  inputWidth : ℕ
  outputRank : ℕ
  outputCoefficients : ℕ
  realDigitCount : ℕ
  paddedDigitCount : ℕ
  deriving DecidableEq

def CompressionMapPlan.new (modulusProfile : SisModulusProfileId) (inputCoefficients ringDimension outputRank : ℕ) :
    Result CompressionMapPlan := do
  ensure (inputCoefficients ≠ 0) (.invalidInput "compression map input must be nonempty")
  ensure (outputRank = 1) (.invalidSetup ("compression map must be rank one, got rank " ++ toString outputRank))
  ensure (ringDimension ∈ compressionRingDimensions modulusProfile)
    (.invalidSetup ("compression ring dimension " ++ toString ringDimension ++ " is not in the ladder"))
  let realDigitCount ← okOr (checkedMul usizeBits inputCoefficients modulusProfile.fieldBits)
    (.invalidSetup "compression digit length overflow")
  let inputWidth ← okOr (checkedDivCeil realDigitCount ringDimension)
    (.invalidSetup "compression input width divisor is zero")
  let paddedDigitCount ← okOr (checkedMul usizeBits inputWidth ringDimension)
    (.invalidSetup "compression digit capacity overflow")
  let outputCoefficients ← okOr (checkedMul usizeBits outputRank ringDimension)
    (.invalidSetup "compression output length overflow")
  ensure (ringDimension < 2 ^ 32) (.invalidSetup "compression ring dimension overflow")
  let secureRank ← okOr (minCompressionSecureRank modulusProfile ringDimension inputWidth)
    (.invalidSetup ("no compression SIS rank for d=" ++ toString ringDimension ++ " width=" ++ toString inputWidth))
  ensure (secureRank = outputRank) (.invalidSetup ("compression map rank " ++ toString outputRank ++
    " disagrees with secure rank " ++ toString secureRank))
  return ⟨modulusProfile, inputCoefficients, ringDimension, inputWidth, outputRank, outputCoefficients, realDigitCount,
    paddedDigitCount⟩

/-- `CompressionChainPlan`; the policy and the field widths are those of the profile. -/
structure CompressionChainPlan where
  modulusProfile : SisModulusProfileId
  sourceCoefficients : ℕ
  sourceBytes : ℕ
  maps : Vector CompressionMapPlan compressionMapCount
  deriving DecidableEq

namespace CompressionChainPlan

/-- The loop of `new`: every map continues the preceding image at half its dimension. -/
def checkMaps (modulusProfile : SisModulusProfileId) : ℕ → Option ℕ → List CompressionMapPlan → Result ℕ
  | expectedInput, _, [] => .ok expectedInput
  | expectedInput, previousDimension, map :: maps => do
    ensure (map.modulusProfile = modulusProfile) (.invalidSetup "compression map profile disagrees with its chain")
    ensure (map.inputCoefficients = expectedInput)
      (.invalidSetup "compression map input does not continue the preceding image")
    ensure (∀ previous ∈ previousDimension, previous / 2 = map.ringDimension)
      (.invalidSetup "compression ring dimensions must halve at each map")
    checkMaps modulusProfile map.outputCoefficients (some map.ringDimension) maps

def new (modulusProfile : SisModulusProfileId) (sourceCoefficients : ℕ)
    (maps : Vector CompressionMapPlan compressionMapCount) : Result CompressionChainPlan := do
  let sourceBytes ← okOr (checkedMul usizeBits sourceCoefficients (profileFieldBytes modulusProfile))
    (.invalidSetup "compression source byte length overflow")
  ensure (sourceCoefficients ≠ 0) (.invalidInput "compression source must be nonempty")
  ensure (¬ sourceBytes > maxCompressionInputBytes)
    (.invalidInput ("compression source is " ++ toString sourceBytes ++ " bytes, exceeding the 8192-byte maximum"))
  let terminal ← checkMaps modulusProfile sourceCoefficients none maps.toList
  let terminalBytes ← okOr (checkedMul usizeBits terminal (profileFieldBytes modulusProfile))
    (.invalidSetup "compression terminal byte length overflow")
  ensure (terminalBytes = compressionTargetBytes)
    (.invalidSetup ("compression terminal is " ++ toString terminalBytes ++ " bytes, expected 256"))
  return ⟨modulusProfile, sourceCoefficients, sourceBytes, maps⟩

/-- The loop of `derive_complete_source` over the ladder, with the maps derived so far. -/
def deriveMaps (modulusProfile : SisModulusProfileId) (sourceCoefficients : ℕ) :
    List CompressionMapPlan → ℕ → List ℕ → Result CompressionChainPlan
  | _, _, [] => .error (.invalidSetup "compression ladder did not reach 256 bytes")
  | maps, inputCoefficients, ringDimension :: ladder => do
    ensure (maps.length ≠ compressionMapCount) (.invalidSetup "compression chain exceeded 2 maps")
    let map ← CompressionMapPlan.new modulusProfile inputCoefficients ringDimension 1
    let outputBytes ← okOr (checkedMul usizeBits map.outputCoefficients (profileFieldBytes modulusProfile))
      (.invalidSetup "compression output byte length overflow")
    let maps := maps ++ [map]
    if outputBytes = compressionTargetBytes then
      match maps with
      | [first, second] => new modulusProfile sourceCoefficients ⟨#[first, second], rfl⟩
      | _ => .error (.invalidSetup "compression chain must contain exactly 2 maps")
    else if outputBytes < compressionTargetBytes then
      .error (.invalidSetup "compression ladder undershot its terminal target")
    else deriveMaps modulusProfile sourceCoefficients maps map.outputCoefficients ladder

/-- `try_for_complete_source`: `none` when the source exceeds the protocol cap. -/
def tryForCompleteSource (modulusProfile : SisModulusProfileId) (sourceCoefficients : ℕ) :
    Result (Option CompressionChainPlan) := do
  let sourceBytes ← okOr (checkedMul usizeBits sourceCoefficients (profileFieldBytes modulusProfile))
    (.invalidSetup "compression source byte length overflow")
  ensure (sourceCoefficients ≠ 0) (.invalidInput "compression source must be nonempty")
  if sourceBytes > maxCompressionInputBytes then return none
  else
    let plan ← deriveMaps modulusProfile sourceCoefficients [] sourceCoefficients (compressionRingDimensions modulusProfile)
    return some plan

def forCompleteSource (modulusProfile : SisModulusProfileId) (sourceCoefficients : ℕ) : Result CompressionChainPlan := do
  let plan ← tryForCompleteSource modulusProfile sourceCoefficients
  okOr plan (.invalidInput "compression source exceeds the 8192-byte maximum")

/-- `for_image`: the plan of one native B or D image. -/
def forImage (modulusProfile : SisModulusProfileId) (sourceRows sourceRingDimension : ℕ) :
    Result CompressionChainPlan := do
  ensure (compressionSourceRingDimensionSupported modulusProfile sourceRingDimension = true)
    (.invalidSetup ("compression source ring dimension " ++ toString sourceRingDimension ++
      " is not a multiple of the first ladder dimension"))
  let imageCoefficients ← okOr (checkedMul usizeBits sourceRows sourceRingDimension)
    (.invalidSetup "compression source shape overflow")
  forCompleteSource modulusProfile imageCoefficients

def terminalCoefficients (plan : CompressionChainPlan) : ℕ := (plan.maps.toList.getLast?.map (·.outputCoefficients)).getD 0

end CompressionChainPlan

end Akita.Compression
