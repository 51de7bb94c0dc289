import Akita.Spec.CompressionPlan
import Akita.Spec.ScheduleAudit

/-!
# Chunk shape of a witness layout

`WitnessLayout::chunk_shape` (`akita-params/src/witness.rs`): the lengths of the chunk bodies and one tail alignment, from
which `WitnessChunkShape::align` plans the padded length for any block of the successor.
-/

namespace Akita.Witness

open Schedule (WitnessChunkShape)

namespace WitnessLayout

variable (layout : WitnessLayout)

/-- One unit in the body loop of `chunk_shape`. -/
def addBodyLength (lengths : Vector ℕ maxWitnessChunks) (unit : WitnessUnitLayout) : Result (Vector ℕ maxWitnessChunks) := do
  let len ← okOr (checkedSub unit.tRange.stop unit.zRange.start) (.internal "witness body range is reversed")
  let body ← okOr lengths[unit.chunkIndex]? (.internal "witness body chunk index exceeds the cap")
  let body ← okOr (checkedAdd usizeBits body len) (.internal "witness body overflow")
  return lengths.setIfInBounds unit.chunkIndex body

/-- The tail of a shape whose layout starts its compression with `layer`. -/
def compressedShape (shape : WitnessChunkShape) (layer : CompressionWitnessLayerLayout) : Result WitnessChunkShape := do
  let first ← okOr layer.fSpans.head? (.internal "compression layer has no F spans")
  let firstF := first.2.range.start
  let tailPrefixLen ← okOr (Checked.sum ((layout.rRows.filter fun row => row.range.stop ≤ firstF).map (·.range.len)))
    (.internal "witness quotient width overflow")
  let stop ← okOr (layout.rRows.map (·.range.stop) ++ layout.compressionLayers.map (·.hSpan.range.stop)).max?
    (.internal "witness compression tail is empty")
  let tailLen ← okOr (checkedSub stop firstF) (.internal "witness compression tail is reversed")
  return { shape with
    tailPrefixLen := tailPrefixLen
    tailAlignment := (layer.fSpans.map (·.2.map.ringDimension) ++
      [layer.hSpan.map.ringDimension, layout.compressionAlignment]).max?.getD 1
    tailSuffixAlignment := layout.tailSuffixAlignment
    tailLen := tailLen }

def chunkShape : Result WitnessChunkShape := do
  let bodyLengths ← layout.units.foldlM addBodyLength (.replicate maxWitnessChunks 0)
  let shape : WitnessChunkShape :=
    { bodyLengths := bodyLengths
      numChunks := layout.numChunks
      tailPrefixLen := 0
      tailAlignment := 1
      tailLen := layout.tailRange.len
      tailSuffixAlignment := 1 }
  match layout.compressionLayers.head? with
  | some layer => layout.compressedShape shape layer
  | none => return shape

end WitnessLayout

/-- What the layout reads of a plan that `CompressionChainPlan::new`, its only constructor, returned. -/
def CompressionChainPlan.Built (plan : CompressionChainPlan) : Prop :=
  ∃ profile maps chain, Compression.CompressionChainPlan.new profile plan.sourceCoefficients maps = .ok chain ∧
    ∀ mapIndex : Fin compressionMapCount,
      (plan.maps mapIndex).inputCoefficients = (chain.maps.get mapIndex).inputCoefficients ∧
      (plan.maps mapIndex).ringDimension = (chain.maps.get mapIndex).ringDimension ∧
      (plan.maps mapIndex).inputWidth = (chain.maps.get mapIndex).inputWidth

/-- The compression plans of a relation layout come from their constructor. -/
def RelationRhsLayout.PlansBuilt (layout : RelationRhsLayout) : Prop :=
  ∀ compression, layout.compression = some compression → ∀ plan ∈ compression.openingPlan :: compression.groupPlans, plan.Built

end Akita.Witness
