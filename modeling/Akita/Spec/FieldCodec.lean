import Akita.Lib.Scatter
import Akita.Spec.CommittedGroup

/-!
# Codecs of the prime fields

`impl_prime_serialization!` of `akita-serialization/src/field_impls.rs` on a little-endian target: the read of one
element, and the read of a run of elements through their storage. The prime fields are those of `jolt-field`; an
element of `bytes` bytes is stored as it is written. Whether the allocator grants a vector of a given length is a
parameter (`reserve`).
-/

namespace Akita.FieldCodec

open Lib
open Commitment (Compress orInvalidData)
open Descriptor (SerializationError Validate Decode require readExact)

def decodeChunkElements : ℕ := 2 ^ 12

/-- `Fp32<P>`, `Fp64<P>` or `Fp128<P>` with its storage, `to_canonical_*` and `CanonicalEncoding`. -/
structure PrimeCodec (E : Type) where
  field : String
  bytes : ℕ
  modulus : ℕ
  ofStorage : List UInt8 → E
  toCanonical : E → ℕ
  fromU128Checked : ℕ → Option E
  fromU128Reduced : ℕ → E

/-- What the codec relies on: the storage of an element is its little-endian word, and a checked conversion takes
no value from the modulus on. -/
structure PrimeCodec.Lawful {E : Type} (𝔭 : PrimeCodec E) : Prop where
  bytes_pos : 0 < 𝔭.bytes
  toCanonical_ofStorage : ∀ word : List UInt8, word.length = 𝔭.bytes → 𝔭.toCanonical (𝔭.ofStorage word) = leValue word
  fromU128Checked_eq_none : ∀ value, 𝔭.modulus ≤ value → 𝔭.fromU128Checked value = none

namespace PrimeCodec

variable {E : Type} (𝔭 : PrimeCodec E)

/-- `concat!(stringify!($field), " out of range")`. -/
def outOfRange : String := 𝔭.field ++ " out of range"

def deserializeWithMode (_compress : Compress) (validate : Validate) : Decode E := do
  let word ← readExact 𝔭.bytes
  let value := leValue word.toList
  Decoder.lift (require (¬ (validate = .yes ∧ 𝔭.modulus ≤ value)) 𝔭.outOfRange)
  Decoder.lift (if validate = .yes then orInvalidData (𝔭.fromU128Checked value) 𝔭.outOfRange
    else .ok (𝔭.fromU128Reduced value))

/-- The `while` loop of `deserialize_many_with_mode`: words are read into the storage, a bounded number of elements
at a time. Every pass adds an element, so `count` passes are enough. -/
def readStorage (reserve : ℕ → Bool) (count : ℕ) : ℕ → List E → Decode (List E)
  | 0, out => return out
  | fuel + 1, out =>
    if out.length < count then do
      let take := min (count - out.length) decodeChunkElements
      Decoder.lift (require (reserve (out.length + take) = true) "allocation failed")
      let raw ← readExact (take * 𝔭.bytes)
      readStorage reserve count fuel (out ++ (chunks 𝔭.bytes raw.toList).map 𝔭.ofStorage)
    else return out

/-- The pass of `deserialize_many_with_mode` over one element. -/
def replaceElement (validate : Validate) (element : E) : Except SerializationError E :=
  let value := 𝔭.toCanonical element
  if validate = .yes then orInvalidData (𝔭.fromU128Checked value) 𝔭.outOfRange else .ok (𝔭.fromU128Reduced value)

def deserializeManyWithMode (reserve : ℕ → Bool) (_compress : Compress) (validate : Validate) (count : ℕ) :
    Decode (List E) := do
  let out ← 𝔭.readStorage reserve count count []
  Decoder.lift (out.mapM (𝔭.replaceElement validate))

end PrimeCodec

end Akita.FieldCodec
