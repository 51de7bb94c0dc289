import Akita.Spec.Error

/-!
# Garner reconstruction

`akita-algebra/src/ntt/crt.rs`: the Garner constants of a set of moduli, the centered mixed-radix
digits of residue columns, and their image in a field. A `u64` is a natural number and an `i64` or
`i128` an integer; an operation that overflows its type is an error, a wrapping one is reduced.
-/

namespace Akita.Garner

def overflowed : AkitaError := .internal "attempt to compute with overflow"

/-- The loop of `modular_inverse` on (remainder, coefficient) pairs; the remainder falls below `fuel`. -/
def euclid : ℕ → ℤ × ℤ → ℤ × ℤ → Result (ℤ × ℤ)
  | 0, _, _ => .error overflowed
  | fuel + 1, old, new =>
    if new.1 = 0 then .ok old
    else do
      let quotient := old.1.tdiv new.1
      let remainder ← okOr (do checkedI128 (old.1 - (← checkedI128 (quotient * new.1)))) overflowed
      let coefficient ← okOr (do checkedI128 (old.2 - (← checkedI128 (quotient * new.2)))) overflowed
      euclid fuel new (remainder, coefficient)

def modularInverse (value modulus : ℕ) : Result ℕ := do
  let old ← euclid (value + 1) (modulus, 0) (value, 1)
  ensure (old.1 = 1) (.invalidSetup "CRT primes are not pairwise coprime")
  return (old.2 % modulus).toNat

/-- The constants of limb `i` against limb `j`: `p_j^{-1} mod p_i`, its Shoup quotient, and the least
multiple of `p_i` that is at least `floor(p_j / 2)`. -/
structure GarnerStep where
  gamma : ℕ
  gammaShoup : ℕ
  lift : ℕ
  deriving DecidableEq, Repr, Inhabited

/-- `GarnerData`; `gamma`, `gamma_shoup` and `lift` are one table of steps. -/
structure GarnerData where
  moduli : List ℕ
  steps : List (List GarnerStep)
  runStart : List ℕ
  deriving DecidableEq, Repr

/-- The constants of a pair of moduli. -/
def garnerStep (pi pj : ℕ) : Result GarnerStep := do
  let gamma ← modularInverse (pj % pi) pi
  let lift ← okOr (checkedMul 64 ((pj / 2 + pi - 1) / pi) pi) overflowed
  return { gamma, gammaShoup := wrapping 64 (2 ^ 64 * gamma / pi), lift }

/-- The run loop of `try_from_moduli`: the start of the open run, its product, and the starts so far. -/
def runStarts (moduli : List ℕ) : List ℕ := (moduli.zipIdx.foldl (fun (state : (ℕ × ℕ) × List ℕ) limb =>
    let run := match checkedMul 128 state.1.2 limb.1 with
      | some next => if next < 2 ^ 126 then (state.1.1, next) else (limb.2, limb.1)
      | none => (limb.2, limb.1)
    (run, state.2 ++ [run.1])) ((0, 1), [])).2

def GarnerData.tryFromModuli (moduli : List ℕ) : Result GarnerData := do
  ensure (∀ modulus ∈ moduli, 2 ≤ modulus ∧ modulus < 2 ^ 62) (.invalidSetup "CRT moduli must lie in [2, 2^62)")
  let steps ← (List.range moduli.length).mapM fun i => (List.range moduli.length).mapM fun j =>
    if j < i then garnerStep (moduli.getD i 0) (moduli.getD j 0) else .ok ⟨0, 0, 0⟩
  return { moduli, steps, runStart := runStarts moduli }

/-- `*value += i64::from(*value < 0) * modulus as i64`. -/
def makeNonnegative (modulus : ℕ) (value : ℤ) : Result ℤ :=
  okOr (checkedI64 (value + if value < 0 then (modulus : ℤ) else 0)) overflowed

/-- One Shoup step on a value below `p_i`: subtract a prior digit and multiply by the inverse. -/
def shoupStep (modulus : ℕ) (step : GarnerStep) (value priorDigit : ℤ) : Result ℤ := do
  let lifted ← okOr (checkedAdd 64 (value % 2 ^ 64).toNat step.lift) overflowed
  let negated ← okOr (checkedI64 (-priorDigit)) overflowed
  let shifted := ((lifted + negated) % 2 ^ 64).toNat
  let quotient := wrapping 64 (shifted * step.gammaShoup / 2 ^ 64)
  let digit := ((wrapping 64 (shifted * step.gamma) - wrapping 64 (quotient * modulus) : ℤ) % 2 ^ 64).toNat
  return (digit - if digit ≥ modulus then modulus else 0 : ℤ)

/-- `*value -= i64::from(*value > (modulus / 2) as i64) * modulus as i64`. -/
def center (modulus : ℕ) (value : ℤ) : Result ℤ :=
  okOr (checkedI64 (value - if value > (modulus / 2 : ℕ) then (modulus : ℤ) else 0)) overflowed

/-- The digits of one column from its residues and the columns before it. -/
def digitColumn (garner : GarnerData) (index : ℕ) (priorLimbs : List (List ℤ)) (column : List ℤ) : Result (List ℤ) := do
  let modulus := garner.moduli.getD index 0
  let column ← column.mapM (makeNonnegative modulus)
  let column ← priorLimbs.zipIdx.foldlM (fun column prior =>
    (column.zip prior.1).mapM fun entry =>
      shoupStep modulus ((garner.steps.getD index []).getD prior.2 default) entry.1 entry.2) column
  column.mapM (center modulus)

/-- `GarnerData::centered_mixed_radix` on the columns `limbs[i]`. -/
def GarnerData.centeredMixedRadix (garner : GarnerData) (limbs : List (List ℤ)) : Result (List (List ℤ)) :=
  (List.range garner.moduli.length).foldlM (fun limbs index => do
    let column ← digitColumn garner index (limbs.take index) (limbs.getD index [])
    return limbs.set index column) limbs

section

variable {F : Type} [CommRing F]

def GarnerData.fieldWeights (garner : GarnerData) : List F × F :=
  garner.moduli.foldl (fun (state : List F × F) (modulus : ℕ) => (state.1 ++ [state.2], state.2 * (modulus : F))) ([], 1)

/-- The Horner loop of one run, from limb `index + len - 1` down to limb `index`. -/
def runValue (garner : GarnerData) (digits : List ℤ) (index : ℕ) : ℕ → Result ℤ
  | 0 => .ok 0
  | len + 1 => do
    let value ← runValue garner digits (index + 1) len
    let product ← okOr (checkedI128 (value * garner.moduli.getD index 0)) overflowed
    okOr (checkedI128 (product + digits.getD index 0)) overflowed

/-- The run loop of `digits_to_field`: at most `fuel` runs end at `stop`. -/
def liftRuns (garner : GarnerData) (digits : List ℤ) (weights : List F) : ℕ → ℕ → F → Result F
  | 0, _, result => .ok result
  | fuel + 1, stop, result =>
    if stop > 0 then do
      let start := garner.runStart.getD (stop - 1) 0
      let value ← runValue garner digits start (stop - start)
      liftRuns garner digits weights fuel start
        (result + if start = 0 then (value : F) else (value : F) * weights.getD start 0)
    else .ok result

def GarnerData.digitsToField (garner : GarnerData) (digits : List ℤ) (weights : List F) : Result F :=
  liftRuns garner digits weights garner.moduli.length garner.moduli.length 0

end

end Akita.Garner
