import Akita.Lib.Bits
import Akita.Spec.Error

/-!
# The Golomb-Rice codec of terminal tail segments

`akita-params/src/golomb_rice.rs`. A coordinate is zigzag mapped to `u`, written as
`u >> rice` ones, a zero, and the low `rice` bits of `u`; the vector is the
concatenation, zero padded to a byte. The decoder reads through a 64-bit window when
the code fits one, and bytewise otherwise, and accepts only what the encoder writes.

Byte strings are lists, so positions are not bounded by `usize` and allocation does
not fail. A `u64` is a natural number, reduced where the source can lose bits; an
`i64` is an integer, and its xors are taken on 64-bit words.
-/

namespace Akita.GolombRice

open Lib

/-- The split `align_to::<u64>` makes of a byte slice: the length of the unaligned head
and the number of whole words after it. It depends on the address of the slice. -/
structure AlignTo (bytes : List UInt8) where
  prefixLen : ℕ
  wordCount : ℕ
  fits : prefixLen + 8 * wordCount ≤ bytes.length

/-- Bit cursor over a byte slice (`BitReader`). -/
structure BitReader where
  bytes : List UInt8
  bitPos : ℕ
  aligned : AlignTo bytes

def BitReader.new (bytes : List UInt8) (aligned : AlignTo bytes) : BitReader := ⟨bytes, 0, aligned⟩

namespace BitReader

/-- The cursor moved `n` bits on. -/
def advance (r : BitReader) (n : ℕ) : BitReader := { r with bitPos := r.bitPos + n }

def remainingBits (r : BitReader) : ℕ := r.bytes.length * 8 - r.bitPos

/-- `aligned_words.get(i)`, converted from little-endian memory order. -/
def alignedWord (r : BitReader) (i : ℕ) : Option ℕ :=
  if i < r.aligned.wordCount then
    some (leValue ((r.bytes.drop (r.aligned.prefixLen + 8 * i)).take 8))
  else none

def readBit (r : BitReader) : Result (Bool × BitReader) :=
  if r.bitPos ≥ r.bytes.length * 8 then .error .invalidProof
  else
    match r.bytes[r.bitPos / 8]? with
    | none => .error .invalidProof
    | some byte => .ok ((byte.toNat >>> (r.bitPos % 8)) &&& 1 == 1, r.advance 1)

/-- `word_window`: the word at the cursor, when the `count` bits wanted of it lie in
aligned words. -/
def wordWindow (r : BitReader) (count : ℕ) : Option ℕ := do
  let offset ← checkedSub r.bitPos (r.aligned.prefixLen * 8)
  let index := offset / 64
  let shift := offset % 64
  let low := (← r.alignedWord index) >>> shift
  if shift + count ≤ 64 then
    some low
  else
    let high ← r.alignedWord (index + 1)
    some (low ||| wrapping 64 (high <<< (64 - shift)))

def readBits (r : BitReader) (count : ℕ) : Result (ℕ × BitReader) :=
  if count = 0 then .ok (0, r)
  else if count > 63 then .error .invalidProof
  else if r.remainingBits < count then .error .invalidProof
  else
    match r.wordWindow count with
    | some word => .ok (word &&& (2 ^ count - 1), r.advance count)
    | none =>
      let byteStart := r.bitPos / 8
      let byteEnd := (r.bitPos + count + 7) / 8
      let word := leValue ((r.bytes.drop byteStart).take (byteEnd - byteStart))
      .ok ((word >>> (r.bitPos % 8)) &&& (2 ^ count - 1), r.advance count)

end BitReader

def trailingOnes (word : ℕ) : ℕ := ((List.range 64).takeWhile word.testBit).length

/-- The loop of `read_unary_ones`. Each round ends at a byte boundary or returns, so
`bytes.len() + 1` rounds are enough. -/
def BitReader.readUnaryOnesLoop (maxQuotient : ℕ) : ℕ → BitReader → ℕ → Result (ℕ × BitReader)
  | 0, _, _ => .error .invalidProof
  | fuel + 1, r, quotient =>
    if r.remainingBits = 0 then .error .invalidProof
    else
      match r.bytes[r.bitPos / 8]? with
      | none => .error .invalidProof
      | some byte =>
        let bitIndex := r.bitPos % 8
        let available := 8 - bitIndex
        let ones := min (trailingOnes (byte.toNat >>> bitIndex)) available
        match checkedAdd 64 quotient ones with
        | none => .error .invalidProof
        | some quotient =>
          if quotient > maxQuotient then .error .invalidProof
          else if ones < available then .ok (quotient, (r.advance ones).advance 1)
          else readUnaryOnesLoop maxQuotient fuel (r.advance ones) quotient

def BitReader.readUnaryOnes (r : BitReader) (maxQuotient : ℕ) : Result (ℕ × BitReader) :=
  readUnaryOnesLoop maxQuotient (r.bytes.length + 1) r 0

structure BitWriter where
  bytes : List UInt8
  bitPos : ℕ

/-- `BitWriter::default`. -/
def BitWriter.empty : BitWriter := ⟨[], 0⟩

def BitWriter.writeBit (w : BitWriter) (bit : Bool) : BitWriter :=
  let byteIdx := w.bitPos / 8
  let bitIdx := w.bitPos % 8
  let bytes := if byteIdx ≥ w.bytes.length then w.bytes ++ [0] else w.bytes
  let bytes := if bit then
      bytes.modify byteIdx fun byte => UInt8.ofNat (byte.toNat ||| (1 <<< bitIdx))
    else bytes
  ⟨bytes, w.bitPos + 1⟩

def BitWriter.writeBits (w : BitWriter) (value count : ℕ) : BitWriter :=
  (List.range count).foldl (fun w i => w.writeBit ((value >>> i) &&& 1 == 1)) w

def zigzagEncode (n : ℤ) (width : ℕ) : Result ℕ :=
  if width = 0 ∨ width > 63 then
    .error (.invalidSetup "golomb-rice zigzag width out of range")
  else if n < -2 ^ (width - 1) ∨ n > 2 ^ (width - 1) - 1 then
    .error (.invalidInput "golomb-rice coordinate exceeds the zigzag width")
  else
    let x := BitVec.ofInt 64 n
    .ok ((x <<< 1) ^^^ x.sshiftRight 63).toNat

def zigzagDecode (u width : ℕ) : Result ℤ :=
  if width = 0 ∨ width > 63 then
    .error (.invalidSetup "golomb-rice zigzag width out of range")
  else
    let x := BitVec.ofNat 64 u
    let n := ((x >>> 1) ^^^ (-(x &&& 1))).toInt
    if n < -2 ^ (width - 1) ∨ n > 2 ^ (width - 1) - 1 then .error .invalidProof
    else .ok n

/-- `u128::leading_zeros`. -/
def leadingZeros128 (n : ℕ) : ℕ := 128 - n.size

def golombRiceZigzagWidth (scale : ℕ) : ℕ :=
  if scale = 0 then 1 else max (128 - leadingZeros128 scale + 1) 1

def golombRiceQuotientForCoord (n : ℤ) (riceLowBits zigzagW : ℕ) : Result ℕ := do
  let u ← zigzagEncode n zigzagW
  return if riceLowBits = 0 then u else u >>> riceLowBits

def golombRiceMaxQuotientForCap (cap riceLowBits zigzagW : ℕ) : Result ℕ :=
  if cap < 2 ^ 63 then
    match golombRiceQuotientForCoord cap riceLowBits zigzagW with
    | .ok q => .ok q
    | .error e => .error (.invalidSetup ("golomb-rice cap cannot be encoded: " ++ e.display))
  else
    .error (.invalidSetup ("fold witness linf cap " ++ toString cap ++ " exceeds i64 for golomb quotient bound"))

def golombRiceEncodeOneInto (w : BitWriter) (n : ℤ) (riceLowBits zigzagW : ℕ) : Result BitWriter := do
  let u ← zigzagEncode n zigzagW
  let quotient := if riceLowBits = 0 then u else u >>> riceLowBits
  let remainder := if riceLowBits = 0 then 0 else u &&& (2 ^ riceLowBits - 1)
  let w := (fun w : BitWriter => w.writeBit true)^[quotient] w
  let w := w.writeBit false
  return if riceLowBits = 0 then w else w.writeBits remainder riceLowBits

def golombRiceEncodeVec (values : List ℤ) (riceLowBits zigzagW : ℕ) : Result (List UInt8) := do
  let w ← values.foldlM (fun w n => golombRiceEncodeOneInto w n riceLowBits zigzagW) BitWriter.empty
  return w.bytes

/-- The bitwise path of `golomb_rice_decode_one_from`. -/
def golombRiceDecodeSlow (r : BitReader) (riceLowBits zigzagW maxQuotient : ℕ) : Result (ℤ × BitReader) := do
  let (quotient, r) ← r.readUnaryOnes maxQuotient
  let (u, r) ←
    if riceLowBits = 0 then pure (quotient, r)
    else do
      let (remainder, r) ← r.readBits riceLowBits
      pure (wrapping 64 (quotient <<< riceLowBits) ||| remainder, r)
  let n ← zigzagDecode u zigzagW
  return (n, r)

/-- `golomb_rice_decode_one_from`: a code whose stop bit and remainder fall inside one
input word decodes from that window. -/
def golombRiceDecodeOneFrom (r : BitReader) (riceLowBits zigzagW maxQuotient : ℕ) : Result (ℤ × BitReader) :=
  if riceLowBits < 64 then
    match r.wordWindow 64 with
    | none => golombRiceDecodeSlow r riceLowBits zigzagW maxQuotient
    | some window =>
      let quotient := trailingOnes window
      if quotient + riceLowBits < 64 then
        if quotient > maxQuotient then .error .invalidProof
        else do
          let remainder := if riceLowBits = 0 then 0
            else (window >>> (quotient + 1)) &&& (2 ^ riceLowBits - 1)
          let n ← zigzagDecode (wrapping 64 (quotient <<< riceLowBits) ||| remainder) zigzagW
          return (n, r.advance (quotient + 1 + riceLowBits))
      else golombRiceDecodeSlow r riceLowBits zigzagW maxQuotient
  else golombRiceDecodeSlow r riceLowBits zigzagW maxQuotient

/-- The loop of `golomb_rice_consume_canonical_padding` over `n` padding bits. -/
def consumeZeroBits : ℕ → BitReader → Result BitReader
  | 0, r => .ok r
  | n + 1, r => do
    let (bit, r) ← r.readBit
    if bit then .error .invalidProof else consumeZeroBits n r

def golombRiceConsumeCanonicalPadding (r : BitReader) : Result Unit := do
  let r ← consumeZeroBits ((8 - r.bitPos % 8) % 8) r
  if r.remainingBits > 0 then .error .invalidProof else .ok ()

/-- The coordinate loop of `golomb_rice_decode_vec`. -/
def golombRiceDecodeLoop {T : Type} (riceLowBits zigzagW maxQuotient : ℕ)
    (convert : ℤ → Result T) : ℕ → BitReader → Result (List T × BitReader)
  | 0, r => .ok ([], r)
  | count + 1, r => do
    let (value, r) ← golombRiceDecodeOneFrom r riceLowBits zigzagW maxQuotient
    let x ← convert value
    let (xs, r) ← golombRiceDecodeLoop riceLowBits zigzagW maxQuotient convert count r
    return (x :: xs, r)

def golombRiceDecodeVec {T : Type} (bytes : List UInt8) (aligned : AlignTo bytes)
    (count riceLowBits zigzagW maxQuotient : ℕ) (convert : ℤ → Result T) : Result (List T) := do
  let (out, r) ← golombRiceDecodeLoop riceLowBits zigzagW maxQuotient convert count (BitReader.new bytes aligned)
  golombRiceConsumeCanonicalPadding r
  return out

/-!
## A tail decoder that reads one bit at a time

What the word windows of the decoder are meant to compute: unary ones up to the quotient
cap, a stop bit, then the remainder bits, each taken with `read_bit`. Beside it, `read_bits`
as the source mutates the cursor: the position moves when a value is returned, and only then.
-/

/-- Ones up to a zero, which is consumed; a one past the cap is refused. -/
def readOnesBitwise : ℕ → BitReader → Result (ℕ × BitReader)
  | cap, r => do
    let (bit, r) ← r.readBit
    if bit then
      match cap with
      | 0 => .error .invalidProof
      | cap + 1 => do
        let (quotient, r) ← readOnesBitwise cap r
        return (quotient + 1, r)
    else return (0, r)

/-- The next `count` bits, least significant first. -/
def readBitsBitwise : ℕ → BitReader → Result (ℕ × BitReader)
  | 0, r => .ok (0, r)
  | count + 1, r => do
    let (bit, r) ← r.readBit
    let (rest, r) ← readBitsBitwise count r
    return (bit.toNat + 2 * rest, r)

def golombRiceDecodeBitwise (r : BitReader) (riceLowBits zigzagW maxQuotient : ℕ) : Result (ℤ × BitReader) := do
  let (quotient, r) ← readOnesBitwise maxQuotient r
  let (remainder, r) ← readBitsBitwise riceLowBits r
  let n ← zigzagDecode (wrapping 64 (quotient <<< riceLowBits ||| remainder)) zigzagW
  return (n, r)

namespace BitReader

/-- `read_bits` with its effect on the cursor: the result, and the cursor left behind. -/
def readBitsInPlace (r : BitReader) (count : ℕ) : Result ℕ × BitReader :=
  if count = 0 then (.ok 0, r)
  else if count > 63 then (.error .invalidProof, r)
  else if r.remainingBits < count then (.error .invalidProof, r)
  else
    let endBit := r.bitPos + count
    match r.wordWindow count with
    | some word => (.ok (word &&& (2 ^ count - 1)), { r with bitPos := endBit })
    | none =>
      let byteStart := r.bitPos / 8
      let byteEnd := (endBit + 7) / 8
      -- `self.bytes.get(byte_start..byte_end)`
      if byteEnd ≤ r.bytes.length then
        let word := leValue ((r.bytes.drop byteStart).take (byteEnd - byteStart))
        let shift := r.bitPos % 8
        (.ok ((word >>> shift) &&& (2 ^ count - 1)), { r with bitPos := endBit })
      else (.error .invalidProof, r)

end BitReader

/-!
## What a tail payload costs

The closed-form wire bits of `akita-params/src/golomb_rice.rs` and the conservative estimate of
`akita-params/src/tail_golomb_rice_low_bits.rs`, which prices a vector by its length and a bound
on its squared norm alone. A `usize` is 64 bits wide, a `u128` 128.
-/

def golombRiceCoordWireBits (n : ℤ) (riceLowBits zigzagW : ℕ) : Result ℕ := do
  let quotient ← golombRiceQuotientForCoord n riceLowBits zigzagW
  let unary := quotient + 1
  -- `saturating_add`
  return min (unary + riceLowBits) (2 ^ usizeBits - 1)

def golombRiceTotalWireBits (values : List ℤ) (riceLowBits zigzagW : ℕ) : Result ℕ := values.foldlM (fun acc n => do
    let bits ← golombRiceCoordWireBits n riceLowBits zigzagW
    okOr (checkedAdd usizeBits bits acc) (.invalidSetup "golomb-rice total wire bits overflow")) 0

/-- `u128::checked_shr`. -/
def checkedShr128 (x shift : ℕ) : Option ℕ := if shift < 128 then some (x >>> shift) else none

def golombRiceL2PlannerPayloadBytes (numValues l2SqCap riceLowBits : ℕ) : Option ℕ := do
  let sumAbsBound := Nat.sqrt (← checkedMul 128 numValues l2SqCap)
  let quotientSumBound ← checkedShr128 (← checkedMul 128 sumAbsBound 2) riceLowBits
  let fixedBits ← checkedMul usizeBits numValues (riceLowBits + 1)
  -- `usize::try_from`
  let quotientBits ← (if quotientSumBound < 2 ^ usizeBits then some quotientSumBound else none : Option ℕ)
  let bits ← checkedAdd usizeBits (← checkedAdd usizeBits fixedBits quotientBits) 7
  return bits / 8

end Akita.GolombRice
