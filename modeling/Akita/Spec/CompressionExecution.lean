import Akita.Lib.SortedSearch
import Akita.Lib.Scatter
import Akita.Spec.CommittedGroup
import Akita.Spec.CompressionWitness

/-!
# Execution of compression chains

`akita-cpu-backend/src/opaque/compression.rs` with the two products of `arithmetic/compression.rs`: the chains
of a list of inputs are run layer by layer; a layer is cut into groups of one shape and the groups into bounded
batches, whose images are scattered back to their chains.

The matrix is the prefix of the shared setup, read at the dimension of the map. The two matrix kernels are
parameters; clocks and cache sizes are left out of the reports. A ring element is the list of its coefficients.
-/

namespace Akita.Compression

open Lib
open Schedule (RingRelationMode SisModulusProfileId)
open Commitment (RingVec)

def maxCompressionRhsBatch : ℕ := 8

/-- The arms of `dispatch_for_field` for `ProtocolDispatchSlot::Compression`, by `protocol_dispatch_tier`. -/
def compressionArms (modulusBits : ℕ) : List ℕ :=
  if modulusBits ≤ 32 then [64, 128] else if modulusBits ≤ 64 then [32, 64] else [16, 32]

/-! ## Rings -/

def fromCoeffsWithRingDim {F : Type} (coeffs : List F) (ringDim : ℕ) : Result (RingVec F) := do
  ensure (¬ (ringDim = 0 ∨ coeffs.length % ringDim ≠ 0))
    (.invalidInput "ring coefficient storage does not match its declared dimension")
  return ⟨coeffs, ringDim⟩

def fromRingElems {F : Type} (D : ℕ) (elems : List (List F)) : RingVec F := ⟨elems.flatten, D⟩

structure CompressionRowsProducts (F : Type) where
  negacyclic : List (List F)
  cyclic : List (List F)

/-- The backend: the encoding of its field, the coefficients of the shared setup matrix, and the NTT matrix kernels
over its prefix of `inputWidth` ring elements of dimension `D`, as one row. -/
structure CompressionBackend (F : Type) where
  encoding : FieldEncoding F
  setup : List F
  matVecMulNttDigitsI8 (D inputWidth : ℕ) (digitVectors : List (List (List ℤ))) : Result (List (List (List F)))
  matVecMulNttSingleI8Cyclic (D inputWidth : ℕ) (digits : List (List ℤ)) : Result (List (List F))

def validateCompressionBatchShape (digitVectors : List (List (List ℤ))) : Result ℕ := do
  let columnCount := (digitVectors.head?.map (·.length)).getD 0
  ensure (¬ (digitVectors = [] ∨ columnCount = 0))
    (.invalidInput "compression batch must contain nonempty digit vectors")
  ensure (∀ digits ∈ digitVectors, digits.length = columnCount)
    (.invalidInput "compression batch digit vectors must have one exact shape")
  return columnCount

def validateDigitRowRequest (rowLen rowWidth totalRingElements : ℕ) : Result Unit := do
  ensure (rowWidth ≠ 0) (.invalidSetup "prepared setup row width must be nonzero")
  let required ← okOr (checkedMul usizeBits rowLen rowWidth) (.invalidSetup ("digit row request overflows: row_len=" ++
    toString rowLen ++ " row_width=" ++ toString rowWidth))
  ensure (¬ required > totalRingElements) (.invalidSetup ("digit row request needs " ++ toString required ++
    " setup ring elements but prepared setup has " ++ toString totalRingElements))

section

variable {F : Type} (𝔟 : CompressionBackend F)

def compressionRowsProducts (D : ℕ) (digitVectors : List (List (List ℤ))) : Result (List (CompressionRowsProducts F)) := do
  let inputWidth ← validateCompressionBatchShape digitVectors
  validateDigitRowRequest 1 inputWidth (𝔟.setup.length / D)
  let negacyclic ← 𝔟.matVecMulNttDigitsI8 D inputWidth digitVectors
  let cyclic ← digitVectors.mapM (𝔟.matVecMulNttSingleI8Cyclic D inputWidth)
  return negacyclic.zipWith CompressionRowsProducts.mk cyclic

def compressionNegacyclicRows (D : ℕ) (digitVectors : List (List (List ℤ))) : Result (List (List (List F))) := do
  let inputWidth ← validateCompressionBatchShape digitVectors
  validateDigitRowRequest 1 inputWidth (𝔟.setup.length / D)
  𝔟.matVecMulNttDigitsI8 D inputWidth digitVectors

end

/-! ## Chains -/

structure CompressionExecutionInput (ι F : Type) where
  id : ι
  plan : CompressionChainPlan
  checked : plan.Checked
  coefficients : List F
  relationMode : RingRelationMode

inductive CompressionRelationOutput (F : Type)
  | quotientLift (quotients : List (RingVec F))
  | reducedEvaluation
  deriving DecidableEq

structure CompressionExecutionOutput (ι F : Type) where
  id : ι
  witness : CompressionChainWitness
  terminal : CompressionTerminalPayload F
  relation : CompressionRelationOutput F
  deriving DecidableEq

structure CompressionBatchReport where
  mapIndex : ℕ
  relationMode : RingRelationMode
  ringDimension : ℕ
  inputWidth : ℕ
  batchSize : ℕ
  inputBytes : ℕ
  outputBytes : ℕ
  packedBytes : ℕ
  expandedRhsBytes : ℕ
  deriving DecidableEq

structure CompressionExecutionReport where
  sources : ℕ
  maps : ℕ
  sourceBytes : ℕ
  terminalBytes : ℕ := 0
  retainedPackedWitnessBytes : ℕ := 0
  equivalentI8WitnessBytes : ℕ := 0
  maxExpandedRhsBytes : ℕ := 0
  maxCurrentImageBytes : ℕ := 0
  executorPeakScratchBytes : ℕ := 0
  batches : List CompressionBatchReport := []
  quotientLiftBatches : ℕ := 0
  reducedEvaluationBatches : ℕ := 0
  quotientRows : ℕ := 0
  deriving DecidableEq

structure WorkItem (ι F : Type) where
  id : ι
  plan : CompressionChainPlan
  checked : plan.Checked
  coefficients : List F
  relationMode : RingRelationMode
  stages : List PackedNegativeBinary
  quotients : List (RingVec F)

def checkedSumBytes (lengths : List ℕ) (fieldBytes : ℕ) (context : String) : Result ℕ :=
  lengths.foldlM (fun total length => okOr (do
    let bytes ← checkedMul usizeBits length fieldBytes
    checkedAdd usizeBits total bytes) (.internal (context ++ " overflow"))) 0

section execution

variable {ι F : Type} [Ring F] (𝔟 : CompressionBackend F)

def quotientFromProducts (D : ℕ) (cyclic negacyclic : List (List F)) : Result (RingVec F) := do
  ensure (cyclic.length = negacyclic.length) (.internal "compression cyclic and negacyclic ranks disagree")
  let coefficients := (cyclic.zip negacyclic).flatMap fun rows =>
    rows.1.zipWith (fun cyclic negacyclic => 𝔟.encoding.half (cyclic - negacyclic)) rows.2
  fromCoeffsWithRingDim coefficients D

/-- The body of the output loop of `execute_chunk`. -/
def WorkItem.absorb (D : ℕ) (firstMap : CompressionMapPlan) (negacyclicOutputs : List (List (List F)))
    (cyclicOutputs : Option (List (List (List F)))) (packed : PackedNegativeBinary) (batchIndex : ℕ)
    (item : WorkItem ι F) : Result (WorkItem ι F) := do
  let negacyclic ← okOr negacyclicOutputs[batchIndex]? (.internal "compression negacyclic output batch is missing")
  ensure (negacyclic.length = firstMap.outputRank) (.internal "compression backend returned the wrong negacyclic rank")
  let quotients ← (match cyclicOutputs with
    | none => .ok item.quotients
    | some outputs => do
      let cyclic ← okOr outputs[batchIndex]? (.internal "compression cyclic output batch is missing")
      ensure (cyclic.length = firstMap.outputRank) (.internal "compression backend returned the wrong cyclic rank")
      let quotient ← quotientFromProducts 𝔟 D cyclic negacyclic
      return item.quotients ++ [quotient] : Result (List (RingVec F)))
  let negacyclicImage := (fromRingElems D negacyclic).coeffs
  ensure (negacyclicImage.length = firstMap.outputCoefficients)
    (.internal "compression backend returned the wrong image length")
  return { item with coefficients := negacyclicImage, quotients := quotients, stages := item.stages ++ [packed] }

/-- The shape test of `execute_chunk` for one member of the batch. -/
def matchesBatch (items : List (WorkItem ι F)) (mapIndex : ℕ) (relationMode : RingRelationMode)
    (firstMap : CompressionMapPlan) (itemIndex : ℕ) : Prop :=
  ∃ item ∈ items[itemIndex]?, item.relationMode = relationMode ∧ ∃ map ∈ item.plan.maps.toList[mapIndex]?,
    map.modulusProfile = firstMap.modulusProfile ∧ map.ringDimension = firstMap.ringDimension ∧
      map.inputWidth = firstMap.inputWidth ∧ map.outputRank = firstMap.outputRank

instance (items : List (WorkItem ι F)) (mapIndex : ℕ) (relationMode : RingRelationMode) (firstMap : CompressionMapPlan)
    (itemIndex : ℕ) : Decidable (matchesBatch items mapIndex relationMode firstMap itemIndex) :=
  inferInstanceAs (Decidable (∃ item ∈ items[itemIndex]?, _))

def WorkItem.digitize (mapIndex : ℕ) (item : WorkItem ι F) : Result PackedNegativeBinary := do
  let map ← okOr item.plan.maps.toList[mapIndex]? (.internal "compression digitization map is absent")
  PackedNegativeBinary.fromCoefficients 𝔟.encoding map item.coefficients

/-- The products of one batch: the cyclic ones in `QuotientLift` mode only. -/
def batchProducts (D : ℕ) (relationMode : RingRelationMode) (views : List (List (List ℤ))) :
    Result (List (List (List F)) × Option (List (List (List F)))) :=
  match relationMode with
  | .quotientLift => do
    let products ← compressionRowsProducts 𝔟 D views
    return (products.map (·.negacyclic), some (products.map (·.cyclic)))
  | .reducedEvaluation => do
    let negacyclic ← compressionNegacyclicRows 𝔟 D views
    return (negacyclic, none)

/-- `execute_chunk`, at ring dimension `D`. -/
def executeChunk (D : ℕ) (items : List (WorkItem ι F)) (itemIndices : List ℕ) (mapIndex : ℕ) :
    Result (CompressionBatchReport × List (WorkItem ι F)) := do
  ensure (¬ (itemIndices = [] ∨ itemIndices.length > maxCompressionRhsBatch))
    (.internal "compression executor received an invalid bounded batch")
  let firstItem ← okOr (itemIndices.head?.bind (items[·]?)) (.internal "compression batch first map is absent")
  let firstMap ← okOr firstItem.plan.maps.toList[mapIndex]? (.internal "compression batch first map is absent")
  ensure (firstMap.ringDimension = D ∧ ∀ index ∈ itemIndices, matchesBatch items mapIndex firstItem.relationMode firstMap index)
    (.internal "compression execution batch contains mixed shapes")
  let members ← itemIndices.mapM fun index => okOr items[index]? indexOutOfBounds
  let fieldBytes := firstItem.plan.fieldBytes
  let inputBytes ← checkedSumBytes (members.map (·.coefficients.length)) fieldBytes "compression batch input bytes"
  let packed ← members.mapM (WorkItem.digitize 𝔟 mapIndex)
  let expanded ← packed.mapM (PackedNegativeBinary.expandRows D)
  let packedBytes ← packed.foldlM (fun total digits => okOr (checkedAdd usizeBits total digits.bytes.length)
    (.internal "compression packed batch bytes overflow")) 0
  let expandedRhsBytes ← checkedSumBytes (expanded.map (·.length)) D "compression expanded RHS bytes"
  let (negacyclicOutputs, cyclicOutputs) ← batchProducts 𝔟 D firstItem.relationMode expanded
  ensure (negacyclicOutputs.length = itemIndices.length ∧ ∀ outputs ∈ cyclicOutputs, outputs.length = itemIndices.length)
    (.internal "compression backend returned the wrong batch length")
  let items ← (itemIndices.zip packed).zipIdx.foldlM (fun items entry => do
    let item ← okOr items[entry.1.1]? indexOutOfBounds
    let item ← item.absorb 𝔟 D firstMap negacyclicOutputs cyclicOutputs entry.1.2 entry.2
    return items.set entry.1.1 item) items
  let members ← itemIndices.mapM fun index => okOr items[index]? indexOutOfBounds
  let outputBytes ← checkedSumBytes (members.map (·.coefficients.length)) fieldBytes "compression batch output bytes"
  return (⟨mapIndex, firstItem.relationMode, D, firstMap.inputWidth, itemIndices.length, inputBytes, outputBytes,
    packedBytes, expandedRhsBytes⟩, items)

/-- The key of a group: relation mode, ring dimension, input width and output rank, in this order. -/
abbrev BatchKey := ℕ ×ₗ ℕ ×ₗ ℕ ×ₗ ℕ

/-- `RingRelationMode` in its derived order. -/
def relationRank : RingRelationMode → ℕ
  | .quotientLift => 0
  | .reducedEvaluation => 1

def batchKey (relationMode : RingRelationMode) (map : CompressionMapPlan) : BatchKey :=
  toLex (relationRank relationMode, toLex (map.ringDimension, toLex (map.inputWidth, map.outputRank)))

def BatchKey.ringDimension (key : BatchKey) : ℕ := (ofLex (ofLex key).2).1

/-- One pass of the grouping loop of `execute_stage`. -/
def groupItem (mapIndex : ℕ) (groups : List (BatchKey × List ℕ)) (entry : WorkItem ι F × ℕ) : List (BatchKey × List ℕ) :=
  match entry.1.plan.maps.toList[mapIndex]? with
  | some map => pushEntry (batchKey entry.1.relationMode map) entry.2 groups
  | none => groups

/-- The groups of a stage, in the order of their keys. -/
def batchGroups (items : List (WorkItem ι F)) (mapIndex : ℕ) : List (BatchKey × List ℕ) :=
  items.zipIdx.foldl (groupItem mapIndex) []

/-- The batches of a stage with their ring dimensions, in order. -/
def stageBatches (groups : List (BatchKey × List ℕ)) : List (ℕ × List ℕ) :=
  groups.flatMap fun group => (chunks maxCompressionRhsBatch group.2).map fun chunk => (group.1.ringDimension, chunk)

def executeStage (items : List (WorkItem ι F)) (mapIndex : ℕ) :
    Result (List CompressionBatchReport × List (WorkItem ι F)) :=
  (stageBatches (batchGroups items mapIndex)).foldlM (fun state batch => do
    ensure (batch.1 ∈ compressionArms 𝔟.encoding.modulusBits) (.invalidSetup ("unsupported ring dimension " ++
      toString batch.1 ++ " for this role/tier dispatch table"))
    let (report, items) ← executeChunk 𝔟 batch.1 state.2 batch.2 mapIndex
    return (state.1 ++ [report], items)) ([], items)

def totalBytes (items : List (WorkItem ι F)) (overflow : String) : Result ℕ := items.foldlM (fun total item => okOr (do
    let bytes ← checkedMul usizeBits item.coefficients.length item.plan.fieldBytes
    checkedAdd usizeBits total bytes) (.internal overflow)) 0

def CompressionExecutionReport.push (report : CompressionExecutionReport) (batch : CompressionBatchReport) :
    CompressionExecutionReport := { report with
    quotientLiftBatches := report.quotientLiftBatches + if batch.relationMode = .quotientLift then 1 else 0
    reducedEvaluationBatches := report.reducedEvaluationBatches + if batch.relationMode = .reducedEvaluation then 1 else 0
    maxExpandedRhsBytes := max report.maxExpandedRhsBytes batch.expandedRhsBytes
    batches := report.batches ++ [batch] }

/-- One pass of the layer loop of `execute_compression_chains`. -/
def executeLayer (state : List (WorkItem ι F) × CompressionExecutionReport) (mapIndex : ℕ) :
    Result (List (WorkItem ι F) × CompressionExecutionReport) := do
  let currentImageBytes ← totalBytes state.1 "compression current image bytes overflow"
  let report := { state.2 with maxCurrentImageBytes := max state.2.maxCurrentImageBytes currentImageBytes }
  let (batches, items) ← executeStage 𝔟 state.1 mapIndex
  return (items, batches.foldl CompressionExecutionReport.push report)

/-- The item of one input, after the checks of `execute_compression_chains`. -/
def admitInput (input : CompressionExecutionInput ι F) : Result (WorkItem ι F) := do
  let modulus ← fieldModulus 𝔟.encoding
  ensure (matchesModulus input.plan.modulusProfile modulus)
    (.invalidSetup "compression plan profile does not match the execution field")
  ensure (input.coefficients.length = input.plan.sourceCoefficients)
    (.invalidSize input.plan.sourceCoefficients input.coefficients.length)
  return ⟨input.id, input.plan, input.checked, input.coefficients, input.relationMode, [], []⟩

/-- The relation output of a finished chain, with the row count of the report. -/
def WorkItem.relationOutput (item : WorkItem ι F) (quotientRows : ℕ) : Result (CompressionRelationOutput F × ℕ) :=
  match item.relationMode with
  | .quotientLift => do
    let quotientRows ← okOr (checkedAdd usizeBits quotientRows item.quotients.length)
      (.internal "compression quotient row count overflow")
    return (.quotientLift item.quotients, quotientRows)
  | .reducedEvaluation => do
    ensure item.quotients.isEmpty (.internal "reduced compression evaluation unexpectedly retained quotients")
    return (.reducedEvaluation, quotientRows)

/-- The body of the output loop of `execute_compression_chains`. -/
def finishItem (state : List (CompressionExecutionOutput ι F) × CompressionExecutionReport) (item : WorkItem ι F) :
    Result (List (CompressionExecutionOutput ι F) × CompressionExecutionReport) := do
  let witness ← CompressionChainWitness.new item.plan item.stages
  let retained ← witness.retainedBytes
  let retainedPackedWitnessBytes ← okOr (checkedAdd usizeBits state.2.retainedPackedWitnessBytes retained)
    (.internal "compression retained witness total overflow")
  let unpacked ← item.plan.unpackedWitnessBytes
  let equivalentI8WitnessBytes ← okOr (checkedAdd usizeBits state.2.equivalentI8WitnessBytes unpacked)
    (.internal "compression i8 witness total overflow")
  let terminal ← CompressionTerminalPayload.new 𝔟.encoding item.plan item.coefficients
  let terminalLength ← okOr (checkedMul usizeBits terminal.coefficients.length terminal.plan.fieldBytes)
    (.internal "compression terminal bytes overflow")
  let terminalBytes ← okOr (checkedAdd usizeBits state.2.terminalBytes terminalLength)
    (.internal "compression terminal byte total overflow")
  let (relation, quotientRows) ← item.relationOutput state.2.quotientRows
  return (state.1 ++ [⟨item.id, witness, terminal, relation⟩], { state.2 with
    retainedPackedWitnessBytes := retainedPackedWitnessBytes
    equivalentI8WitnessBytes := equivalentI8WitnessBytes
    terminalBytes := terminalBytes
    quotientRows := quotientRows })

def executeCompressionChains (inputs : List (CompressionExecutionInput ι F)) :
    Result (List (CompressionExecutionOutput ι F) × CompressionExecutionReport) := do
  let items ← inputs.mapM (admitInput 𝔟)
  let sourceBytes ← totalBytes items "compression source byte total overflow"
  let mapCount ← items.foldlM (fun total item => okOr (checkedAdd usizeBits total item.plan.maps.toList.length)
    (.internal "compression map count overflow")) 0
  let maxMaps := (items.map (·.plan.maps.toList.length)).foldl max 0
  let report : CompressionExecutionReport := { sources := items.length, maps := mapCount, sourceBytes := sourceBytes }
  let (items, report) ← (List.range maxMaps).foldlM (executeLayer 𝔟) (items, report)
  let executorPeakScratchBytes ← okOr (checkedAdd usizeBits report.maxExpandedRhsBytes report.maxCurrentImageBytes)
    (.internal "compression peak scratch overflow")
  items.foldlM (finishItem 𝔟) ([], { report with executorPeakScratchBytes := executorPeakScratchBytes })

end execution

end Akita.Compression
