import Akita.Spec.GolombRice
import Akita.Spec.OpeningPoint

/-!
# What the prover admits and the verifier decodes of a terminal response

`CpuAcceptedTerminalFold::admit` (`akita-cpu-backend/src/opaque/fold.rs`) against
`decode_terminal_z_golomb_payload` (`akita-types/src/proof/tail_segments.rs`). A group keeps its `z`
segment, a plan and a fold what `admit` reads and writes. Coordinates are integers.
-/

namespace Akita.TerminalFold

open GolombRice
open Opening (defaultMaxSequenceLen)

/-- `i16::MAX`. -/
def i16Max : ℕ := 2 ^ 15 - 1

/-- The `z` segment of a terminal group, with the bounds of `TailSegmentLayout::check` and
`validate_terminal_linf_cap`. -/
structure TailSegmentGroupLayout where
  zCoords : ℕ
  zLinfCap : Option ℕ
  zRiceLowBits : ℕ
  zPayloadBytes : ℕ
  zCoords_le : zCoords ≤ defaultMaxSequenceLen
  zLinfCap_le : ∀ cap ∈ zLinfCap, cap ≤ i16Max
  zRiceLowBits_lt : zRiceLowBits < 64
  zPayloadBytes_le : zPayloadBytes ≤ defaultMaxSequenceLen

namespace TailSegmentGroupLayout

variable (group : TailSegmentGroupLayout)

def wireAbsBound : ℕ := group.zLinfCap.getD i16Max

def zigzagW : ℕ := golombRiceZigzagWidth group.wireAbsBound

end TailSegmentGroupLayout

structure ValidatedTerminalFoldProbePlan where
  coordinateCount : ℕ
  linfCap : Option ℕ
  l2SqCap : Option ℕ
  riceLowBits : ℕ
  payloadBytes : ℕ

/-- The plan of a group (`akita-prover/src/protocol/fold_grind.rs`). -/
def TailSegmentGroupLayout.probePlan (group : TailSegmentGroupLayout) (l2SqCap : Option ℕ) : ValidatedTerminalFoldProbePlan :=
  ⟨group.zCoords, group.zLinfCap, l2SqCap, group.zRiceLowBits, group.zPayloadBytes⟩

structure CpuAcceptedTerminalFold where
  centered : List ℤ
  riceLowBits : ℕ
  zigzagWidth : ℕ
  payloadBytes : ℕ

/-- `i16::try_from`. -/
def i16TryFrom (value : ℤ) : Option ℤ := if -2 ^ 15 ≤ value ∧ value < 2 ^ 15 then some value else none

def golombRiceValuesWithinCap (values : List ℤ) (cap : ℕ) : Result Unit :=
  ensure (∀ n ∈ values, n.natAbs ≤ cap) .invalidProof

def checkedCenteredL2Sq (values : List ℤ) : Option ℕ :=
  values.foldlM (fun sum value => do checkedAdd 128 sum (← checkedMul 128 value.natAbs value.natAbs)) 0

/-- The coordinate test of `admit`: the infinity cap, or the `i16` range where none is set. -/
def outsideCap (linfCap : Option ℕ) (centered : List ℤ) : Bool :=
  match linfCap with
  | some cap => !(golombRiceValuesWithinCap centered cap).isOk
  | none => centered.any fun value => (i16TryFrom value).isNone

/-- `CpuAcceptedTerminalFold::admit`; `diagnostics` is `response_model_diagnostics_enabled()`. -/
def admitTerminalFold (diagnostics : Bool) (centered : List ℤ) (plan : ValidatedTerminalFoldProbePlan) :
    Result (Option (CpuAcceptedTerminalFold × Option ℕ)) :=
  let l2Sq := if plan.l2SqCap.isSome || diagnostics then checkedCenteredL2Sq centered else none
  if centered.length ≠ plan.coordinateCount then .error (.invalidSize plan.coordinateCount centered.length)
  else if outsideCap plan.linfCap centered then .ok none
  else if plan.l2SqCap.isSome && l2Sq.isNone then .error (.invalidInput "terminal fold response L2 overflow")
  else if l2Sq.any fun value => plan.l2SqCap.any fun cap => value > cap then .ok none
  else do
    let zigzagWidth := golombRiceZigzagWidth (plan.linfCap.getD i16Max)
    let bits ← golombRiceTotalWireBits centered plan.riceLowBits zigzagWidth
    -- `saturating_mul`
    if bits > min (plan.payloadBytes * 8) (2 ^ usizeBits - 1) then return none
    return some (⟨centered, plan.riceLowBits, zigzagWidth, plan.payloadBytes⟩, l2Sq)

/-- The conversion `decode_terminal_z_golomb_payload` makes of a coordinate. -/
def decodeCoordinate (zLinfCap : Option ℕ) (value : ℤ) : Result ℤ :=
  if zLinfCap.any fun cap => value.natAbs > cap then .error .invalidProof
  else okOr (i16TryFrom value) .invalidProof

def decodeTerminalZGolombPayload (payload : List UInt8) (aligned : AlignTo payload) (group : TailSegmentGroupLayout) :
    Result (List ℤ) :=
  if payload.length > group.zPayloadBytes then .error .invalidProof
  else do
    let maxQuotient ← golombRiceMaxQuotientForCap group.wireAbsBound group.zRiceLowBits group.zigzagW
    golombRiceDecodeVec payload aligned group.zCoords group.zRiceLowBits group.zigzagW maxQuotient
      (decodeCoordinate group.zLinfCap)

/-- The square sum of a response. -/
def sqSum (v : List ℤ) : ℕ := (v.map fun n => n.natAbs * n.natAbs).sum

/-- What the verifier is to take: a response within the caps that are set, whose encoding fits the
payload bound and decodes to it, wherever the payload lies in memory. -/
def Takes (group : TailSegmentGroupLayout) (l2SqCap : Option ℕ) (v : List ℤ) : Prop :=
  (∀ cap ∈ l2SqCap, sqSum v ≤ cap) ∧ (∀ cap ∈ group.zLinfCap, ∀ n ∈ v, n.natAbs ≤ cap) ∧
    ∃ payload, golombRiceEncodeVec v group.zRiceLowBits group.zigzagW = .ok payload ∧
      payload.length ≤ group.zPayloadBytes ∧ ∀ aligned, decodeTerminalZGolombPayload payload aligned group = .ok v

end Akita.TerminalFold
