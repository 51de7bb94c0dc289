import Akita.Lib.Bits
import Akita.Lib.Scatter
import Akita.Lib.SequentialWrites
import Akita.Spec.Error

/-!
# Packed signed digits

`akita-cpu-backend/src/sources/packed_digits/mod.rs` with its `scalar.rs`: digits of one bit width in two's
complement, 64 to a block that starts on a byte, and the writer that packs them in physical order. A digit is an
integer; the storage of a writer is its own, and the parallel encoder cuts the blocks that the serial one runs
through.
-/

namespace Akita.PackedDigits

open Lib

abbrev digitsPerBlock : ℕ := 64

def vectorLoadPadding : ℕ := 16

def maxStorageLen : ℕ := 2 ^ 63 - 1 - vectorLoadPadding

/-- The text of a slice index past the end. -/
def indexOutOfBounds : AkitaError := .internal "index out of bounds"

/-! ## Bounds -/

structure SignedDigitBounds where
  negativeAbsMax : ℕ
  positiveMax : ℕ
  deriving DecidableEq, Repr

namespace SignedDigitBounds

def zero : SignedDigitBounds := ⟨0, 0⟩

def includeBounds (bounds other : SignedDigitBounds) : SignedDigitBounds :=
  ⟨max bounds.negativeAbsMax other.negativeAbsMax, max bounds.positiveMax other.positiveMax⟩

def balancedSignedDigitAbsBound (logBasis : ℕ) : Option ℕ :=
  if 1 ≤ logBasis ∧ logBasis ≤ 16 then some (2 ^ (logBasis - 1)) else none

def fitsBalancedLogBasis (bounds : SignedDigitBounds) (logBasis : ℕ) : Bool :=
  match balancedSignedDigitAbsBound logBasis with
  | none => false
  | some absBound => decide (bounds.negativeAbsMax ≤ absBound ∧ bounds.positiveMax < absBound)

end SignedDigitBounds

def signedDigitBounds (digits : List ℤ) : SignedDigitBounds :=
  let (low, high) := digits.foldl (fun (low, high) digit => (min low digit, max high digit)) (0, 0)
  ⟨low.natAbs, high.toNat⟩

def encodedByteLen (len bitWidth : ℕ) : ℕ := len / 8 * bitWidth + (len % 8 * bitWidth + 7) / 8

def validateBitWidth (bitWidth : ℕ) : Result Unit := ensure (1 ≤ bitWidth ∧ bitWidth ≤ 8)
    (.invalidInput ("packed signed-digit width must be in 1..=8, got " ++ toString bitWidth))

def validateBounds (bounds : SignedDigitBounds) (bitWidth : ℕ) : Result Unit :=
  ensure (bounds.negativeAbsMax ≤ 2 ^ (bitWidth - 1) ∧ bounds.positiveMax < 2 ^ (bitWidth - 1))
    (.invalidInput ("digit bounds [-" ++ toString bounds.negativeAbsMax ++ ", " ++ toString bounds.positiveMax ++
      "] do not fit signed " ++ toString bitWidth ++ "-bit storage"))

/-! ## The scalar codec -/

/-- `bit_position`: the byte and the bit in it where a digit starts. -/
def bitPosition (index bitWidth : ℕ) : ℕ × ℕ :=
  let tailBits := index % 8 * bitWidth
  (index / 8 * bitWidth + tailBits / 8, tailBits % 8)

def bitMask (bitWidth : ℕ) : UInt8 := if bitWidth = 8 then 255 else (1 <<< UInt8.ofNat bitWidth) - 1

def signExtend (raw : UInt8) (bitWidth : ℕ) : ℤ :=
  if bitWidth = 8 then raw.toInt8.toInt
  else
    let sign : UInt8 := 1 <<< UInt8.ofNat (bitWidth - 1)
    ((raw ^^^ sign) - sign).toInt8.toInt

def rawDigit (digit : ℤ) (bitWidth : ℕ) : UInt8 := UInt8.ofInt digit &&& bitMask bitWidth

/-- `storage[index] |= byte`. -/
def orByte (storage : List UInt8) (index : ℕ) (byte : UInt8) : Result (List UInt8) := do
  let stored ← okOr storage[index]? indexOutOfBounds
  return storage.set index (stored ||| byte)

def encodeAt (storage : List UInt8) (index bitWidth : ℕ) (digit : ℤ) : Result (List UInt8) := do
  let (byteOffset, shift) := bitPosition index bitWidth
  let raw := rawDigit digit bitWidth
  let storage ← orByte storage byteOffset (raw <<< UInt8.ofNat shift)
  if shift + bitWidth > 8 then orByte storage (byteOffset + 1) (raw >>> UInt8.ofNat (8 - shift)) else return storage

def encodeBlock (source : List ℤ) (bitWidth : ℕ) (output : List UInt8) : Result (List UInt8) :=
  if bitWidth = 8 then .ok ((source.take output.length).map UInt8.ofInt ++ output.drop source.length)
  else source.zipIdx.foldlM (fun output (digit, index) => encodeAt output index bitWidth digit) output

/-- The loop of `encode_digits` over its blocks. -/
def encodeBlocks (bitWidth : ℕ) : List (List ℤ) → List (List UInt8) → Result (List (List UInt8))
  | source :: digits, encoded :: output => do
    let encoded ← encodeBlock source bitWidth encoded
    return encoded :: (← encodeBlocks bitWidth digits output)
  | _, output => .ok output

def encodeDigits (digits : List ℤ) (bitWidth : ℕ) (output : List UInt8) : Result (List UInt8 × SignedDigitBounds) := do
  let blocks ← encodeBlocks bitWidth (chunks digitsPerBlock digits) (chunks (bitWidth * 8) output)
  return (blocks.flatten, signedDigitBounds digits)

def decodeAt (storage : List UInt8) (index bitWidth : ℕ) : Result ℤ := do
  let (byteOffset, shift) := bitPosition index bitWidth
  let low ← okOr storage[byteOffset]? indexOutOfBounds
  let high ← okOr storage[byteOffset + 1]? indexOutOfBounds
  let word : UInt16 := low.toUInt16 ||| high.toUInt16 <<< 8
  let raw := (word >>> UInt16.ofNat shift).toUInt8 &&& bitMask bitWidth
  return signExtend raw bitWidth

/-! ## Packed digits -/

structure PackedSignedDigits where
  storage : List UInt8
  encodedLen : ℕ
  len : ℕ
  bitWidth : ℕ
  bounds : SignedDigitBounds
  deriving DecidableEq

/-- `view().get`. -/
def PackedSignedDigits.get (digits : PackedSignedDigits) (index : ℕ) : Result (Option ℤ) :=
  if index ≥ digits.len then .ok none
  else do return some (← decodeAt digits.storage index digits.bitWidth)

/-! ## The writer -/

/-- `copy_from_slice` into `target[start..start + source.len()]`. -/
def copyFromSlice {α : Type} (target : List α) (start : ℕ) (source : List α) : List α :=
  target.take start ++ source ++ target.drop (start + source.length)

/-- `PackedSignedDigitWriter`; `pending` holds the digits of the block that contains `position`. -/
structure PackedSignedDigitWriter where
  storage : List UInt8
  encodedLen : ℕ
  len : ℕ
  bitWidth : ℕ
  position : ℕ
  pending : List ℤ
  bounds : SignedDigitBounds

namespace PackedSignedDigitWriter

def new (len bitWidth : ℕ) : Result PackedSignedDigitWriter := do
  validateBitWidth bitWidth
  let encodedLen := encodedByteLen len bitWidth
  let storageLen ← okOr ((checkedAdd usizeBits encodedLen vectorLoadPadding).filter fun storageLen =>
    decide (storageLen ≤ maxStorageLen)) (.invalidInput "packed signed-digit storage length overflow")
  return {
    storage := List.replicate storageLen 0
    encodedLen := encodedLen
    len := len
    bitWidth := bitWidth
    position := 0
    pending := List.replicate digitsPerBlock 0
    bounds := .zero }

variable (writer : PackedSignedDigitWriter)

/-- Digits from a block boundary on, encoded into their part of the storage. -/
def encodeInto (digits : List ℤ) (start : ℕ) (outside : String) : Result PackedSignedDigitWriter := do
  let encodedStart := encodedByteLen start writer.bitWidth
  let encodedEnd := encodedStart + encodedByteLen digits.length writer.bitWidth
  ensure (encodedEnd ≤ writer.storage.length) (.internal outside)
  let (encoded, bounds) ← encodeDigits digits writer.bitWidth
    ((writer.storage.drop encodedStart).take (encodedEnd - encodedStart))
  return { writer with
    storage := copyFromSlice writer.storage encodedStart encoded
    bounds := writer.bounds.includeBounds bounds }

def flushPending (blockStart : ℕ) : Result PackedSignedDigitWriter := do
  let blockLen := min (writer.len - blockStart) digitsPerBlock
  let writer ← writer.encodeInto (writer.pending.take blockLen) blockStart
    "streaming digit encoder pending-block range is outside its storage"
  return { writer with pending := List.replicate digitsPerBlock 0 }

/-- The step of `write_at` to its start: a block that the gap leaves is completed. -/
def skipTo (start : ℕ) : Result PackedSignedDigitWriter := do
  let split := writer.position % digitsPerBlock
  let writer ← (if split ≠ 0 ∧ start / digitsPerBlock > writer.position / digitsPerBlock
    then writer.flushPending (writer.position - split) else .ok writer : Result PackedSignedDigitWriter)
  return { writer with position := start }

/-- The part of `write_at` that completes a split block, with the digits left. -/
def fillSplit (digits : List ℤ) : Result (PackedSignedDigitWriter × List ℤ) :=
  let offset := writer.position % digitsPerBlock
  if offset = 0 then .ok (writer, digits)
  else do
    let take := min (digitsPerBlock - offset) digits.length
    let writer := { writer with
      pending := copyFromSlice writer.pending offset (digits.take take)
      position := writer.position + take }
    let writer ← (if writer.position % digitsPerBlock = 0 then writer.flushPending (writer.position - digitsPerBlock)
      else .ok writer : Result PackedSignedDigitWriter)
    return (writer, digits.drop take)

/-- The part of `write_at` that encodes whole blocks, with the digits left. -/
def writeWhole (digits : List ℤ) : Result (PackedSignedDigitWriter × List ℤ) :=
  let whole := digits.length - digits.length % digitsPerBlock
  if whole = 0 then .ok (writer, digits)
  else do
    let writer ← writer.encodeInto (digits.take whole) writer.position
      "streaming digit encoder whole-block range is outside its storage"
    return ({ writer with position := writer.position + whole }, digits.drop whole)

def writeAt (start : ℕ) (digits : List ℤ) : Result PackedSignedDigitWriter := do
  ensure (¬ start < writer.position) (.invalidInput "packed signed-digit writes must be in physical order")
  let stop ← okOr (checkedAdd usizeBits start digits.length) (.invalidInput "packed signed-digit write length overflow")
  ensure (¬ stop > writer.len) (.invalidSize writer.len stop)
  let writer ← writer.skipTo start
  let (writer, digits) ← writer.fillSplit digits
  let (writer, digits) ← writer.writeWhole digits
  return { writer with
    pending := copyFromSlice writer.pending 0 digits
    position := writer.position + digits.length }

def finish : Result PackedSignedDigits := do
  let split := writer.position % digitsPerBlock
  let writer ← (if split ≠ 0 then writer.flushPending (writer.position - split) else .ok writer :
    Result PackedSignedDigitWriter)
  validateBounds writer.bounds writer.bitWidth
  return ⟨writer.storage, writer.encodedLen, writer.len, writer.bitWidth, writer.bounds⟩

end PackedSignedDigitWriter

/-!
## Readers of packed digits

`akita-cpu-backend/src/sources/packed_digits/mod.rs`: the views of packed digits, their iterator, the import of encoded
bytes, and `write_at` as a method that can fail half-way. A whole block is decoded by the code of the architecture,
which is a parameter; `scalar.rs` has the portable one. An allocation that the memory refuses is left out, and the
parallel scan cuts the chunks that the serial one runs through.
-/

/-- What decodes the block at the head of the encoded bytes. -/
abbrev BlockDecoder := List UInt8 → ℕ → Result (List ℤ)

/-- `scalar::decode_full_block`. -/
def decodeFullBlock : BlockDecoder := fun encoded bitWidth =>
  (List.range digitsPerBlock).mapM fun index => decodeAt encoded index bitWidth

/-! ### Views -/

/-- A view that is `vector_safe`; the others are built in tests only. -/
structure PackedSignedDigitView where
  storage : List UInt8
  storedLen : ℕ
  bitWidth : ℕ
  bounds : SignedDigitBounds
  start : ℕ
  len : ℕ

namespace PackedSignedDigits

variable (digits : PackedSignedDigits)

def encodedBytes : List UInt8 := digits.storage.take digits.encodedLen

def view : PackedSignedDigitView := ⟨digits.storage, digits.len, digits.bitWidth, digits.bounds, 0, digits.len⟩

def zeroPadded (len : ℕ) : Result PackedSignedDigitView := do
  ensure (¬ len < digits.len) (.invalidSize digits.len len)
  return { digits.view with len := len }

end PackedSignedDigits

namespace PackedSignedDigitView

variable (decode : BlockDecoder) (view : PackedSignedDigitView)

def decodeStored (index : ℕ) : Result ℤ := decodeAt view.storage index view.bitWidth

def get (index : ℕ) : Result (Option ℤ) :=
  if index ≥ view.len then .ok none
  else
    let sourceIndex := view.start + index
    if sourceIndex < view.storedLen then do return some (← view.decodeStored sourceIndex) else .ok (some 0)

def slice (range : Span) : Result PackedSignedDigitView := do
  ensure (¬ (range.start > range.stop ∨ range.stop > view.len)) (.invalidSize view.len range.stop)
  return { view with start := view.start + range.start, len := range.len }

/-- `decode_full_block_view`. -/
def decodeBlock (blockIndex : ℕ) : Result (List ℤ) := do
  let byteOffset := blockIndex * view.bitWidth * 8
  ensure (byteOffset ≤ view.storage.length) indexOutOfBounds
  decode (view.storage.drop byteOffset) view.bitWidth

/-- The digits of an output of `count` slots, with the number of the live ones. -/
def decodeValidatedRange (start count : ℕ) : Result (List ℤ × ℕ) :=
  let sourceStart := view.start + start
  let liveEnd := min view.storedLen (sourceStart + count)
  if sourceStart ≥ liveEnd then .ok (List.replicate count 0, 0)
  else do
    let live := liveEnd - sourceStart
    let scalarPrefix := min (digitsPerBlock - sourceStart % digitsPerBlock) live % digitsPerBlock
    let first ← (List.range scalarPrefix).mapM fun offset => view.decodeStored (sourceStart + offset)
    let blockStart := sourceStart + scalarPrefix
    let fullBlocks := (live - scalarPrefix) / digitsPerBlock
    let blocks ← (List.range fullBlocks).mapM fun offset =>
      view.decodeBlock decode (blockStart / digitsPerBlock + offset)
    let decoded := scalarPrefix + fullBlocks * digitsPerBlock
    let last ← (List.range (live - decoded)).mapM fun offset => view.decodeStored (sourceStart + decoded + offset)
    return (first ++ blocks.flatten ++ last ++ List.replicate (count - live) 0, live)

def decodeRange (start count : ℕ) : Result (List ℤ × ℕ) := do
  let stop ← okOr (checkedAdd usizeBits start count) (.invalidInput "packed signed-digit decode range overflow")
  ensure (¬ stop > view.len) (.invalidSize view.len stop)
  view.decodeValidatedRange decode start count

def scanChunkLen : ℕ := 2 ^ 16

def scanBufferLen : ℕ := 4096

/-- The closure `scan`: one chunk, read from its bytes or decoded buffer by buffer. -/
def scanChunk (chunk : ℕ) : Result SignedDigitBounds :=
  let start := chunk * scanChunkLen
  let stop := start + min (view.len - start) scanChunkLen
  if view.bitWidth = 8 ∧ view.start + stop ≤ view.storedLen then do
    ensure (view.start + stop ≤ view.storage.length) indexOutOfBounds
    return signedDigitBounds (((view.storage.drop (view.start + start)).take (stop - start)).map fun byte => byte.toInt8.toInt)
  else
    (List.range ((stop - start + scanBufferLen - 1) / scanBufferLen)).foldlM (fun bounds step => do
      let offset := start + step * scanBufferLen
      let (decoded, _) ← view.decodeValidatedRange decode offset (min (stop - offset) scanBufferLen)
      return bounds.includeBounds (signedDigitBounds decoded)) .zero

def scanBounds : Result SignedDigitBounds :=
  (List.range ((view.len + scanChunkLen - 1) / scanChunkLen)).foldlM (fun bounds chunk => do
    return bounds.includeBounds (← view.scanChunk decode chunk)) .zero

end PackedSignedDigitView

/-! ### The iterator -/

structure PackedSignedDigitIter where
  view : PackedSignedDigitView
  position : ℕ
  decodedStart : ℕ
  decodedLen : ℕ
  decoded : List ℤ

def PackedSignedDigitView.iter (view : PackedSignedDigitView) : PackedSignedDigitIter :=
  ⟨view, 0, 0, 0, List.replicate digitsPerBlock 0⟩

namespace PackedSignedDigitIter

variable (decode : BlockDecoder) (iter : PackedSignedDigitIter)

def refill : Result PackedSignedDigitIter := do
  let sourcePosition := iter.view.start + iter.position
  let untilAligned := (digitsPerBlock - sourcePosition % digitsPerBlock) % digitsPerBlock
  let batchLen := if untilAligned = 0 then digitsPerBlock else untilAligned
  let decodedLen := min (iter.view.len - iter.position) batchLen
  let (digits, _) ← iter.view.decodeValidatedRange decode iter.position decodedLen
  return { iter with
    decodedStart := iter.position
    decodedLen := decodedLen
    decoded := copyFromSlice iter.decoded 0 digits }

def next : Result (Option ℤ × PackedSignedDigitIter) :=
  if iter.position ≥ iter.view.len then .ok (none, iter)
  else do
    let iter ← (if iter.position < iter.decodedStart ∨ iter.position ≥ iter.decodedStart + iter.decodedLen
      then iter.refill decode else .ok iter : Result PackedSignedDigitIter)
    let value ← okOr iter.decoded[iter.position - iter.decodedStart]? indexOutOfBounds
    return (some value, { iter with position := iter.position + 1 })

/-- What `count` calls of `next` return. -/
def nexts : ℕ → PackedSignedDigitIter → Result (List (Option ℤ))
  | 0, _ => .ok []
  | count + 1, iter => do
    let (item, iter) ← iter.next decode
    return item :: (← nexts count iter)

end PackedSignedDigitIter

/-! ### Import -/

namespace PackedSignedDigits

def importEncoded (decode : BlockDecoder) (len bitWidth : ℕ) (bytes : List UInt8) : Result PackedSignedDigits := do
  validateBitWidth bitWidth
  let encodedLen := encodedByteLen len bitWidth
  ensure (bytes.length = encodedLen) (.invalidInput "imported packed digit length mismatch")
  let bits ← okOr (Checked.product [len, bitWidth]) (.invalidInput "imported packed digit length overflow")
  let tailBits := bits % 8
  ensure (¬ (tailBits ≠ 0 ∧ bytes.getLast?.any fun last => last &&& ~~~((1 <<< UInt8.ofNat tailBits) - 1) != 0))
    (.invalidInput "imported packed digits have nonzero tail bits")
  let storageLen ← okOr (checkedAdd usizeBits encodedLen vectorLoadPadding)
    (.invalidInput "packed signed-digit storage length overflow")
  let packed : PackedSignedDigits := {
    storage := bytes ++ List.replicate (storageLen - encodedLen) 0
    encodedLen := encodedLen
    len := len
    bitWidth := bitWidth
    bounds := .zero }
  return { packed with bounds := ← packed.view.scanBounds decode }

end PackedSignedDigits

/-! ### Calls of the writer -/

namespace PackedSignedDigitWriter

/-- `write_at` on the writer itself: an error keeps the state that the parts before it reached. -/
def write (call : Write ℤ) : EStateM AkitaError PackedSignedDigitWriter Unit := fun writer =>
  if call.start < writer.position then
    .error (.invalidInput "packed signed-digit writes must be in physical order") writer
  else match checkedAdd usizeBits call.start call.items.length with
    | none => .error (.invalidInput "packed signed-digit write length overflow") writer
    | some stop =>
      if stop > writer.len then .error (.invalidSize writer.len stop) writer
      else match writer.skipTo call.start with
        | .error e => .error e writer
        | .ok writer => match writer.fillSplit call.items with
          | .error e => .error e writer
          | .ok (writer, digits) => match writer.writeWhole digits with
            | .error e => .error e writer
            | .ok (writer, digits) => .ok () { writer with
                pending := copyFromSlice writer.pending 0 digits
                position := writer.position + digits.length }

/-- The writer after a call, taken or not. -/
def call (writer : PackedSignedDigitWriter) (call : Write ℤ) : PackedSignedDigitWriter :=
  match write call writer with
  | .ok _ writer => writer
  | .error _ writer => writer

end PackedSignedDigitWriter

end Akita.PackedDigits
