import Akita.Spec.WitnessEmission

/-!
# Digit depths

`akita-params/src/sis/decomposition_digits.rs`: how many balanced base-`2^log_basis` digits hold
a bound. The reaches are `u128` values that saturate at `2^128 - 1`; the depth functions take the
reach they compare with as their first argument, and the source's are those of `balanced_digit_max`.
-/

namespace Akita.Decompose

/-- `1u128.checked_shl(bits)`. -/
def checkedShlOne (bits : ℕ) : Option ℕ := if bits < 128 then some (2 ^ bits) else none

/-- `balanced_digit_max`: the positive reach. -/
def balancedDigitMax (logBasis numDigits : ℕ) : ℕ :=
  let maxDigit := if logBasis = 0 then some 0 else (checkedShlOne (logBasis - 1)).map (· - 1)
  (checkedDigitReach maxDigit logBasis numDigits).getD (2 ^ 128 - 1)

section

variable (digitMax : ℕ → ℕ → ℕ)

/-- `compute_num_digits` on a reach. -/
def computeNumDigitsOn (logBound logBasis : ℕ) : Result ℕ := do
  ensure (logBasis > 0 ∧ logBasis < 128) (.internal "invalid log_basis")
  ensure (logBound ≤ 128) (.internal ("log_bound=" ++ toString logBound ++ " exceeds 128-bit field"))
  if logBound = 0 then return 1
  let numDigits := (logBound + logBasis - 1) / logBasis
  let requiredPositive := 2 ^ (logBound - 1) - 1
  let numDigits := if digitMax logBasis numDigits < requiredPositive then numDigits + 1 else numDigits
  return max numDigits 1

/-- `num_digits_for_bound` on a reach. -/
def numDigitsForBoundOn (logBound fieldBits logBasis : ℕ) : Result ℕ :=
  if logBound ≥ fieldBits then Witness.computeNumDigitsFieldWidth fieldBits logBasis
  else computeNumDigitsOn digitMax logBound logBasis

/-- `num_digits_for_linf_cap` on a reach. -/
def numDigitsForLinfCapOn (cap fieldBits logBasis : ℕ) : Result ℕ := do
  ensure (logBasis > 0 ∧ logBasis < 128) (.internal "invalid log_basis")
  if cap = 0 then return 1
  let signedBits := min (bitLength cap + 1) (2 ^ 32 - 1)
  if signedBits ≥ fieldBits then Witness.computeNumDigitsFieldWidth fieldBits logBasis
  else do
    let fallback ← numDigitsForBoundOn digitMax signedBits fieldBits logBasis
    return ((List.range' 1 (fallback - 1)).find? fun digits => digitMax logBasis digits ≥ cap).getD fallback

end

def numDigitsForBound (logBound fieldBits logBasis : ℕ) : Result ℕ :=
  numDigitsForBoundOn balancedDigitMax logBound fieldBits logBasis

def numDigitsForLinfCap (cap fieldBits logBasis : ℕ) : Result ℕ :=
  numDigitsForLinfCapOn balancedDigitMax cap fieldBits logBasis

end Akita.Decompose
