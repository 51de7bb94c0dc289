import Akita.Spec.Error

/-!
# Field reduction

`akita-types/src/field_reduction.rs` over `akita-algebra/src/ring/cyclotomic.rs`: the
subgroup of automorphism exponents and its trace, the packing of ring-subfield slots into
one ring element, and the recovery and the check of their inner product. An index out of
bounds or a failed assertion is an internal error, as any other panic here.
-/

namespace Akita.FieldReduction

open List (range' range finRange)

/-! ## Ring elements -/

/-- `CyclotomicRing`: the coefficients in ascending degree order. -/
abbrev CyclotomicRing (F : Type) (D : ℕ) : Type := Fin D → F

def outOfBounds : AkitaError := .internal "index out of bounds"

namespace CyclotomicRing

variable {F : Type} [Field F] [DecidableEq F] {D : ℕ}

/-- `coefficients().get(i)`. -/
def get (a : CyclotomicRing F D) (i : ℕ) : Option F := if h : i < D then some (a ⟨i, h⟩) else none

/-- `out[i] = f(out[i])`. -/
def update (out : CyclotomicRing F D) (i : ℕ) (f : F → F) : Result (CyclotomicRing F D) :=
  if h : i < D then .ok (Function.update out ⟨i, h⟩ (f (out ⟨i, h⟩))) else .error outOfBounds

def scale (a : CyclotomicRing F D) (k : F) : CyclotomicRing F D := fun i => a i * k

def sigma (a : CyclotomicRing F D) (k : ℕ) : Result (CyclotomicRing F D) := do
  ensure (0 < D) (.internal "ring degree must be non-zero")
  let twoD := 2 * D
  let kMod := k % twoD
  ensure (kMod % 2 = 1) (.internal "sigma_k requires odd k in Z_q[X]/(X^D + 1)")
  (finRange D).foldlM (fun out (j : Fin D) =>
    let coeff := a j
    let idx := (j : ℕ) * kMod % twoD
    if idx < D then update out idx (· + coeff) else update out (idx - D) (· - coeff)) 0

def sigmaM1 (a : CyclotomicRing F D) : Result (CyclotomicRing F D) := do
  ensure (0 < D) (.internal "ring degree must be non-zero")
  sigma a (2 * D - 1)

/-- Every target is written once, so an assignment is an update that drops the old value. -/
def negacyclicShift (a : CyclotomicRing F D) (k : ℕ) : Result (CyclotomicRing F D) :=
  let k := k % (2 * D)
  if k = 0 then .ok a
  else
    let globalNeg := decide (k ≥ D)
    let shift := k % D
    if shift = 0 then .ok (-a)
    else
      (finRange D).foldlM (fun out (i : Fin D) =>
        let target := (i : ℕ) + shift
        let wrapNeg := decide (target ≥ D)
        let coeff := if globalNeg ^^ wrapNeg then -a i else a i
        if target < D then update out target (fun _ => coeff) else update out (target - D) (fun _ => coeff)) 0

/-- `dst += lhs * rhs` (`negacyclic_mul_accumulate`): row `i` adds `lhs[i]` times the first part of `rhs` from `i` on,
and subtracts `lhs[i]` times the rest from the start. -/
def mulAccumulateInto (lhs rhs dst : CyclotomicRing F D) : Result (CyclotomicRing F D) :=
  (finRange D).foldlM (fun out (i : Fin D) =>
    let lhsCoeff := lhs i
    if lhsCoeff = 0 then pure out
    else
      (finRange D).foldlM (fun out (j : Fin D) =>
        if (j : ℕ) < D - i then update out (i + j) (· + lhsCoeff * rhs j)
        else update out (j - (D - i)) (· - lhsCoeff * rhs j)) out) dst

end CyclotomicRing

/-! ## The subgroup -/

def gcd (a b : ℕ) : ℕ := if b = 0 then a else gcd b (a % b)
termination_by b
decreasing_by exact Nat.mod_lt _ (by omega)

/-- `mul_mod`, through `u128`. -/
def mulMod (a b modulus : ℕ) : ℕ := a * b % modulus

def pushUnique (values : List ℕ) (value : ℕ) : List ℕ := if value ∈ values then values else values ++ [value]

def saturatingMul (a b : ℕ) : ℕ := min (a * b) (2 ^ usizeBits - 1)

def saturatingAdd (a b : ℕ) : ℕ := min (a + b) (2 ^ usizeBits - 1)

/-- The witness of a validated pair `(D, K)`. -/
structure SubfieldParams (D K : ℕ) : Type where
  twoD_lt : D * 2 < 2 ^ usizeBits
  pow2 : D.isPowerOfTwo
  two_dvd : 2 ∣ D
  K_pos : 0 < K
  K_dvd : K ∣ D / 2
  step_lt : K * 4 + 1 < 2 ^ usizeBits
  coprime : gcd (K * 4 + 1) (D * 2) = 1

namespace SubfieldParams

def new (D K : ℕ) : Result (SubfieldParams D K) :=
  if htwo : ¬ D * 2 < 2 ^ usizeBits then .error (.invalidInput "ring dimension is too large")
  else if D = 0 then .error (.invalidInput "ring dimension must be non-zero")
  else if hpow : ¬ D.isPowerOfTwo then
    .error (.invalidInput ("ring dimension D=" ++ toString D ++ " must be a power of two"))
  else if heven : ¬ 2 ∣ D then .error (.invalidInput ("ring dimension D=" ++ toString D ++ " must be even"))
  else if hK : K = 0 then .error (.invalidInput "extension degree K must be non-zero")
  else if hdvd : K > D / 2 ∨ ¬ K ∣ D / 2 then
    .error (.invalidInput ("extension degree K=" ++ toString K ++ " must divide D/2 for D=" ++ toString D))
  else if hstep : ¬ K * 4 + 1 < 2 ^ usizeBits then .error (.invalidInput "extension degree is too large")
  else if hgcd : gcd (K * 4 + 1) (D * 2) ≠ 1 then
    .error (.invalidInput ("subgroup generator " ++ toString (K * 4 + 1) ++ " must be invertible modulo 2D=" ++
      toString (D * 2)))
  else
    .ok { twoD_lt := not_not.1 htwo, pow2 := not_not.1 hpow, two_dvd := not_not.1 heven, K_pos := Nat.pos_of_ne_zero hK,
          K_dvd := not_not.1 (not_or.1 hdvd).2, step_lt := not_not.1 hstep, coprime := not_not.1 hgcd }

variable {D K : ℕ}

/-- Automorphism exponents generating `H`, modulo `2D`. -/
def hGenerators (_params : SubfieldParams D K) : ℕ × ℕ := (saturatingMul D 2 - 1, saturatingAdd (saturatingMul K 4) 1)

/-- The passes of `h_exponents`, at most as many as the argument. -/
def hExponentsLoop (twoD sigmaM1 sigmaStep : ℕ) : ℕ → List ℕ → ℕ → Result (List ℕ)
  | 0, _, _ => .error (.internal "validated subgroup generator must have finite order modulo 2D")
  | n + 1, exponents, power =>
    let exponents := pushUnique exponents power
    let exponents := pushUnique exponents (mulMod power sigmaM1 twoD)
    let power := mulMod power sigmaStep twoD
    if power = 1 then .ok (exponents.mergeSort (· ≤ ·)) else hExponentsLoop twoD sigmaM1 sigmaStep n exponents power

/-- Enumerate the distinct odd exponents in `H`. -/
def hExponents (params : SubfieldParams D K) : Result (List ℕ) :=
  let twoD := saturatingMul D 2
  let (sigmaM1, sigmaStep) := params.hGenerators
  hExponentsLoop twoD sigmaM1 sigmaStep twoD [] 1

/-- Number of base-field coordinates in the packed representative. -/
def packedLen (_params : SubfieldParams D K) : ℕ := D / K

end SubfieldParams

/-! ## Trace and packing -/

variable {F E : Type} [Field F] [DecidableEq F] {D K : ℕ}

/-- `Tr_H(x) = Σ_{σ in H} σ(x)`. -/
def traceH (params : SubfieldParams D K) (x : CyclotomicRing F D) : Result (CyclotomicRing F D) := do
  let exponents ← params.hExponents
  exponents.foldlM (fun out exponent => do
    let image ← x.sigma exponent
    return out + image) (0 : CyclotomicRing F D)

/-- One slot at a low shift: neither term wraps. -/
def embedLowSlot (step shift : ℕ) (coord : ℕ → Option F) (out : CyclotomicRing F D) : Result (CyclotomicRing F D) := do
  let c0 ← okOr (coord 0) outOfBounds
  let out ← CyclotomicRing.update out shift (· + c0)
  (range' 1 (K - 1)).foldlM (fun out j => do
    let cj ← okOr (coord j) outOfBounds
    let posOffset := j * step
    let out ← CyclotomicRing.update out (shift + posOffset) (· + cj)
    CyclotomicRing.update out (shift + D - posOffset) (· - cj)) out

/-- One slot at a high shift: the negative term wraps once, and its sign flips back. -/
def embedHighSlot (step shift : ℕ) (coord : ℕ → Option F) (out : CyclotomicRing F D) : Result (CyclotomicRing F D) := do
  let c0 ← okOr (coord 0) outOfBounds
  let out ← CyclotomicRing.update out shift (· + c0)
  (range' 1 (K - 1)).foldlM (fun out j => do
    let cj ← okOr (coord j) outOfBounds
    let posOffset := j * step
    let out ← CyclotomicRing.update out (shift + posOffset) (· + cj)
    CyclotomicRing.update out (shift - posOffset) (· + cj)) out

/-- Embed `D / K` ring-subfield elements, coordinate `j` of slot `i` at `i * K + j`, into one ring element. -/
def psiEmbed (_params : SubfieldParams D K) (coords : List F) : Result (CyclotomicRing F D) := do
  ensure (coords.length = D) (.invalidSize D coords.length)
  let step := D / (2 * K)
  let half := D / (2 * K)
  let m := D / K
  let out ← (range half).foldlM (fun out idx =>
    embedLowSlot (K := K) step idx (fun j => coords[idx * K + j]?) out) (0 : CyclotomicRing F D)
  (range' half (m - half)).foldlM (fun out idx =>
    embedHighSlot (K := K) step (idx - half + D / 2) (fun j => coords[idx * K + j]?) out) out

/-- Embed a single subfield element at shift `X^0`. -/
def embedSubfield (_params : SubfieldParams D K) (coords : List F) : Result (CyclotomicRing F D) := do
  let step := D / (2 * K)
  let c0 ← okOr coords[0]? outOfBounds
  let out ← CyclotomicRing.update (0 : CyclotomicRing F D) 0 (fun _ => c0)
  (range' 1 (K - 1)).foldlM (fun out j => do
    let cj ← okOr coords[j]? outOfBounds
    let out ← CyclotomicRing.update out (j * step) (fun _ => cj)
    CyclotomicRing.update out (D - j * step) (fun _ => -cj)) out

/-! ## Extension fields -/

/-- What the code uses of an extension `E` of `F`: its degree and its coordinates in the ring-subfield basis
(`ExtField`, `FpExtEncoding`). -/
structure ExtBackend (F E : Type) where
  degree : ℕ
  extCoords : E → List F
  fromBaseSlice : List F → E

/-- The coordinates are those in the basis `[1, e_1, .., e_(k-1)]`, and the basis multiplies as the sums of a power
and its inverse do: `e_i e_j = e_(i+j) + e_(i-j)`, with `e_0 = 2`, `e_k = 0` and `e_(2k-i) = -e_i`. -/
structure ExtBackend.Lawful [CommRing E] [Algebra F E] (𝔼 : ExtBackend F E) (e : ℕ → E) : Prop where
  extCoords_length : ∀ x, (𝔼.extCoords x).length = 𝔼.degree
  fromBaseSlice_extCoords : ∀ x, 𝔼.fromBaseSlice (𝔼.extCoords x) = x
  extCoords_fromBaseSlice : ∀ c, c.length = 𝔼.degree → 𝔼.extCoords (𝔼.fromBaseSlice c) = c
  fromBaseSlice_eq : ∀ c, c.length = 𝔼.degree →
    𝔼.fromBaseSlice c = c.getD 0 0 • 1 + ∑ j ∈ Finset.Ico 1 𝔼.degree, c.getD j 0 • e j
  basis_zero : e 0 = 2
  basis_degree : e 𝔼.degree = 0
  basis_reflect : ∀ i ≤ 2 * 𝔼.degree, e (2 * 𝔼.degree - i) = -e i
  basis_mul : ∀ i < 𝔼.degree, ∀ j ≤ i, e i * e j = e (i + j) + e (i - j)

def inverse (x : F) : Option F := if x = 0 then none else some x⁻¹

variable [CommRing E] (𝔼 : ExtBackend F E)

/-- The supported extension degrees run the arm of their degree, with `SubfieldParams::new` checked first. -/
def dispatchDegree {α : Type} (D degree : ℕ) (rejected unsupported : AkitaError)
    (arm : ∀ {k}, SubfieldParams D k → Result α) : Result α :=
  if degree = 1 ∨ degree = 2 ∨ degree = 4 ∨ degree = 8 then do
    let params ← mapErr (SubfieldParams.new D degree) fun _ => rejected
    arm params
  else .error unsupported

/-- `embed_ring_subfield_vector`: the coordinates of the slots, packed. -/
def embedRingSubfieldVector (D : ℕ) (values : List E) (error : AkitaError) : Result (CyclotomicRing F D) :=
  dispatchDegree D 𝔼.degree error error fun {k} params => do
    ensure (values.length = params.packedLen) error
    let coords ← values.foldlM (fun coords value => do
      let limbs := 𝔼.extCoords value
      ensure (limbs.length = k) error
      return coords ++ limbs) []
    mapErr (psiEmbed params coords) fun _ => error

/-- One coordinate but the first of a slot: half the difference, or half the sum, of its two places. -/
def decodeCoordinate (K : ℕ) (half : F) (stride : ℕ) (ring : CyclotomicRing F D) (residue : ℕ) (high : Bool)
    (coordinate : ℕ) : Option F := do
  let leftBlock ← if high then checkedSub K coordinate else some coordinate
  let rightBlock ← if high then checkedAdd usizeBits K coordinate
    else (checkedMul usizeBits 2 K).bind (checkedSub · coordinate)
  let left ← checkedAdd usizeBits residue (← checkedMul usizeBits leftBlock stride)
  let right ← checkedAdd usizeBits residue (← checkedMul usizeBits rightBlock stride)
  let left ← ring.get left
  let right ← ring.get right
  return if high then (left + right) * half else (left - right) * half

def decodeSlot (K : ℕ) (half : F) (stride : ℕ) (ring : CyclotomicRing F D) (residue : ℕ) (high : Bool) : Option E := do
  let constantIndex ← checkedAdd usizeBits residue (← checkedMul usizeBits (← checkedMul usizeBits high.toNat K) stride)
  if K = 0 then none
  else
    let first ← ring.get constantIndex
    let rest ← (range' 1 (K - 1)).mapM (decodeCoordinate K half stride ring residue high)
    return 𝔼.fromBaseSlice (first :: rest)

def recoverPsiInnerProduct (K : ℕ) (lhs rhs : CyclotomicRing F D) : Result E := do
  let half ← okOr (inverse (2 : F)) (.invalidInput "two is not invertible")
  let stride := D / (2 * K)
  (range stride).foldlM (fun innerProduct residue => do
    let lhsLow ← okOr (decodeSlot 𝔼 K half stride lhs residue false)
      (.internal "psi recovery cannot extract the low left coordinates")
    let rhsLow ← okOr (decodeSlot 𝔼 K half stride rhs residue false)
      (.internal "psi recovery cannot extract the low right coordinates")
    let lhsHigh ← okOr (decodeSlot 𝔼 K half stride lhs residue true)
      (.internal "psi recovery cannot extract the high left coordinates")
    let rhsHigh ← okOr (decodeSlot 𝔼 K half stride rhs residue true)
      (.internal "psi recovery cannot extract the high right coordinates")
    return innerProduct + (lhsLow * rhsLow + lhsHigh * rhsHigh)) 0

def recoverRingSubfieldInnerProduct (yRing packedInnerPoint : CyclotomicRing F D) : Result E :=
  dispatchDegree D 𝔼.degree (.invalidInput "claim-field degree must divide the ring dimension")
    (.invalidInput "unsupported ring-subfield extension degree")
    fun {k} _ => recoverPsiInnerProduct 𝔼 k yRing packedInnerPoint

/-- `shifted_coefficient`: a coefficient of `ring * X^shift`. -/
def shiftedCoefficient (ring : CyclotomicRing F D) (shift target : ℕ) : Option F :=
  if shift ≥ D ∨ target ≥ D then none
  else if target ≥ shift then ring.get (target - shift)
  else do
    let source ← checkedSub (← checkedAdd usizeBits D target) shift
    (ring.get source).map fun value => -value

/-- One coordinate but the first of an entry of the opening row. -/
def traceOpenCoordinate (half : F) (step : ℕ) (traceProduct : CyclotomicRing F D) (shift index : ℕ) : Result F := do
  let position ← okOr (checkedMul usizeBits index step) (.internal "trace-open coordinate position overflows usize")
  let inverse ← okOr (checkedSub D position) (.internal "trace-open inverse coordinate exceeds the ring dimension")
  let left ← okOr (shiftedCoefficient traceProduct shift position)
    (.internal "trace-open left coordinate is outside the validated ring")
  let right ← okOr (shiftedCoefficient traceProduct shift inverse)
    (.internal "trace-open right coordinate is outside the validated ring")
  return (left - right) * half

def traceOpenEntry (K : ℕ) (half : F) (traceProduct : CyclotomicRing F D) (shift : ℕ) : Result E := do
  let step := D / (2 * K)
  let first ← okOr (shiftedCoefficient traceProduct shift 0)
    (.invalidInput "trace-open row length exceeds the ring dimension")
  let rest ← (range' 1 (K - 1)).mapM (traceOpenCoordinate half step traceProduct shift)
  return 𝔼.fromBaseSlice (first :: rest)

/-- `TraceOpen(ring * X^c)` for every `c < 2^ring_bits`, sharing one ring product. -/
def traceOpenRingRow (ring packedInnerPoint : CyclotomicRing F D) (ringBits : ℕ) : Result (List E) := do
  let ringLen ← okOr (Checked.pow2 ringBits) (.invalidInput "trace-open row length overflow")
  let tracePartner ← packedInnerPoint.sigmaM1
  let traceProduct ← ring.mulAccumulateInto tracePartner 0
  let half ← okOr (inverse (2 : F)) (.invalidInput "two is not invertible")
  dispatchDegree D 𝔼.degree (.invalidInput "claim-field degree must divide the ring dimension")
    (.invalidInput "unsupported ring-subfield extension degree")
    fun {k} _ => (range ringLen).mapM (traceOpenEntry 𝔼 k half traceProduct)

/-- `trace_h(trace_input) == (D / K) * embed_subfield(opening_coords)`, by one scalar at degree one. -/
def checkTraceInnerProduct (params : SubfieldParams D K) (traceInput : CyclotomicRing F D) (openingCoords : List F) :
    Result Bool :=
  if K = 1 then do
    let input ← okOr (traceInput.get 0) outOfBounds
    let opening ← okOr openingCoords[0]? outOfBounds
    return decide (input = opening)
  else do
    let lhs ← traceH params traceInput
    let embedded ← embedSubfield params openingCoords
    return decide (lhs = embedded.scale (params.packedLen : F))

/-! ## Packing of integer digits -/

/-- `checked_add` and `checked_sub` of an `i16`, and `i8::try_from`. -/
def packedOverflow : AkitaError := .invalidInput "packed tensor digit overflow"

/-- `packed[i] = packed[i].checked_add(delta)?`; subtracting is adding the negated digit. -/
def addI16 (packed : Fin D → ℤ) (i : ℕ) (delta : ℤ) : Result (Fin D → ℤ) :=
  if h : i < D then do
    ensure (-2 ^ 15 ≤ packed ⟨i, h⟩ + delta ∧ packed ⟨i, h⟩ + delta < 2 ^ 15) packedOverflow
    return Function.update packed ⟨i, h⟩ (packed ⟨i, h⟩ + delta)
  else .error outOfBounds

def packLowSlot (step width shift : ℕ) (coordinates : List Int8) (packed : Fin D → ℤ) : Result (Fin D → ℤ) := do
  let coord0 ← okOr coordinates[0]? outOfBounds
  let packed ← addI16 packed shift coord0.toInt
  (range' 1 (width - 1)).foldlM (fun packed j => do
    let cj ← okOr coordinates[j]? outOfBounds
    let posOffset := j * step
    let packed ← addI16 packed (shift + posOffset) cj.toInt
    addI16 packed (shift + D - posOffset) (-cj.toInt)) packed

def packHighSlot (step width shift : ℕ) (coordinates : List Int8) (packed : Fin D → ℤ) : Result (Fin D → ℤ) := do
  let coord0 ← okOr coordinates[0]? outOfBounds
  let packed ← addI16 packed shift coord0.toInt
  (range' 1 (width - 1)).foldlM (fun packed j => do
    let cj ← okOr coordinates[j]? outOfBounds
    let posOffset := j * step
    let packed ← addI16 packed (shift + posOffset) cj.toInt
    addI16 packed (shift - posOffset) cj.toInt) packed

/-- One pass over a slot; once a tail is past the end every later one is, so the `break` is a pass that does nothing. -/
def packSlot (K width tailLen tailStart : ℕ) (state : List Int8 × (Fin D → ℤ)) (idx : ℕ) : Result (List Int8 × (Fin D → ℤ)) :=
  if tailStart + idx ≥ tailLen then .ok state
  else do
    ensure (width ≤ state.1.length) (.internal "tensor digit iterator ended early")
    let coordinates := state.1.take width ++ List.replicate (K - width) 0
    let half := D / (2 * K)
    let step := D / (2 * K)
    let packed ← if idx < half then packLowSlot step width idx coordinates state.2
      else packHighSlot step width (idx - half + D / 2) coordinates state.2
    return (state.1.drop width, packed)

def packRing (D K width tailLen tailStart : ℕ) (digits : List Int8) : Result (List Int8 × (Fin D → ℤ)) :=
  (range (D / K)).foldlM (packSlot K width tailLen tailStart) (digits, 0)

/-- `i8::try_from`. -/
def toI8 (coeff : ℤ) : Result Int8 := if -2 ^ 7 ≤ coeff ∧ coeff < 2 ^ 7 then .ok (Int8.ofInt coeff) else .error packedOverflow

def packTensorArm (D K width : ℕ) (digits : List Int8) : Result (List Int8) := do
  let _ ← SubfieldParams.new D K
  let packedLen := D / K
  let tailLen := digits.length / width
  let state ← (range ((tailLen + packedLen - 1) / packedLen)).foldlM (fun state ring => do
    let packed ← packRing D K width tailLen (ring * packedLen) state.1
    let coeffs ← (List.ofFn packed.2).mapM toI8
    return (packed.1, state.2 ++ coeffs)) (digits, [])
  return state.2

def packTensorBaseLiftI8Digits (D : ℕ) (digits : List Int8) (extensionDegree width : ℕ) : Result (List Int8) := do
  ensure (¬ (width = 0 ∨ width > extensionDegree)) (.invalidInput "tensor pack width must be in 1..=extension_degree")
  if extensionDegree = 1 then do
    ensure (width = 1) (.invalidInput "degree-one tensor pack must have width 1")
    return digits
  else do
    ensure (width ∣ digits.length) (.invalidSize width digits.length)
    if extensionDegree = 2 ∨ extensionDegree = 4 ∨ extensionDegree = 8 then packTensorArm D extensionDegree width digits
    else .error (.invalidInput ("unsupported ring-subfield extension degree " ++ toString extensionDegree))

end Akita.FieldReduction

/-!
## Inversion of ring elements

`akita-algebra/src/ring/cyclotomic/inverse.rs`: the inverse in `F[X] / (X^D + 1)` through the tower of even-power
subrings. A recursion that does not end overflows the stack, which is an internal error as any other panic.
-/

namespace Akita.FieldReduction.CyclotomicRing

variable {F : Type} [Field F] [DecidableEq F] {n : ℕ}

def stackOverflow : AkitaError := .internal "stack overflow"

def fieldInverse (c : F) : Option F := if c = 0 then none else some c⁻¹

def negacyclicMul (lhs rhs : CyclotomicRing F n) : Result (CyclotomicRing F n) := mulAccumulateInto lhs rhs 0

/-- `value(-X)`. -/
def conjugate (value : CyclotomicRing F n) : CyclotomicRing F n := fun i => if (i : ℕ) % 2 = 0 then value i else -value i

/-- `step_by(2)`. -/
def evenCoeffs (value : CyclotomicRing F n) : CyclotomicRing F ((n + 1) / 2) := fun i => value ⟨2 * i, by omega⟩

/-- `lifted`: the coefficients at the even places of a zero vector. -/
def lift (value : CyclotomicRing F ((n + 1) / 2)) : CyclotomicRing F n :=
  fun i => if (i : ℕ) % 2 = 0 then value ⟨i / 2, by omega⟩ else 0

/-- `negacyclic_inverse`, with at most `depth` calls on the stack. -/
def negacyclicInverse : (depth : ℕ) → {n : ℕ} → CyclotomicRing F n → Result (Option (CyclotomicRing F n))
  | 0, _, _ => .error stackOverflow
  | depth + 1, n, value =>
    if h : n = 1 then .ok ((fieldInverse (value ⟨0, by omega⟩)).map fun inverse => fun _ => inverse)
    else do
      let norm ← negacyclicMul value value.conjugate
      match ← negacyclicInverse depth norm.evenCoeffs with
      | none => return none
      | some normInverse => return some (← negacyclicMul normInverse.lift value.conjugate)

/-- `inverse`, with at most `depth` calls on the stack. -/
def inverse (depth : ℕ) (self : CyclotomicRing F n) : Result (Option (CyclotomicRing F n)) :=
  if n.isPowerOfTwo then negacyclicInverse depth self else .ok none

end Akita.FieldReduction.CyclotomicRing
