import Akita.Spec.Error

/-!
# The operator-norm predicate

`akita-challenges/src/sampler/op_norm.rs` and `op_norm_accumulate.rs`: fixed-point tables of
the values `cos (π t / d)` and `sin (π t / d)`, built by interval Taylor evaluation over an
enclosure of `π`, and the decision whether a sparse challenge stays below a threshold at every
root of `X^d + 1`.

Values of the table construction are integers. In the accumulation and in the decision an
`i64` or `i128` operation that overflows is `none`; a left shift drops the high bits, as
the machine's does.
-/

namespace Akita.OpNorm

def trigScale : ℕ := 61

/-- `TRIG_ONE`: `1.0` at `TRIG_SCALE`. -/
def trigOne : ℤ := 2 ^ trigScale

/-- `NTERMS`: Taylor terms of the small-angle enclosures. -/
def nterms : ℕ := 12

/-- Decision of the operator-norm acceptance predicate. -/
inductive Decision
  | accept
  | reject
  | indeterminate
  deriving DecidableEq, Repr

/-- Floor division (`b > 0`). -/
def fdiv (a b : ℤ) : ℤ := a / b

/-- Ceil division (`b > 0`). -/
def cdiv (a b : ℤ) : ℤ := -((-a) / b)

def fshr (x : ℤ) (sh : ℕ) : ℤ := x >>> sh

def cshr (x : ℤ) (sh : ℕ) : ℤ := -((-x) >>> sh)

/-- Interval multiply at `TRIG_SCALE` for non-negative operands. -/
def imul (a b : ℤ × ℤ) : ℤ × ℤ := (fshr (a.1 * b.1) trigScale, cshr (a.2 * b.2) trigScale)

def iadd (a b : ℤ × ℤ) : ℤ × ℤ := (a.1 + b.1, a.2 + b.2)

def isub (a b : ℤ × ℤ) : ℤ × ℤ := (a.1 - b.2, a.2 - b.1)

/-- The loop of `arctan_inv` from term `n` on: the sum and the number of terms. -/
def arctanInvLoop (x2 : ℤ) : ℕ → ℤ → ℤ → ℤ → ℤ → ℤ × ℤ
  | 0, _, sum, _, count => (sum, count)
  | fuel + 1, n, sum, xPow, count =>
    match checkedI128 ((2 * n + 1) * xPow) with
    | none => (sum, count)
    | some denom =>
      let term := trigOne / denom
      if term = 0 then (sum, count)
      else
        let sum := if n % 2 = 0 then sum + term else sum - term
        match checkedI128 (xPow * x2) with
        | none => (sum, count + 1)
        | some xPow => arctanInvLoop x2 fuel (n + 1) sum xPow (count + 1)

/-- Enclosure of `arctan(1/x)` from its alternating series, widened by the terms summed and one. -/
def arctanInv (x : ℤ) : ℤ × ℤ :=
  let (sum, count) := arctanInvLoop (x * x) 128 0 0 x 0
  let slack := count + 1
  (sum - slack, sum + slack)

/-- Enclosure of `π` at `TRIG_SCALE` via Machin's formula. -/
def piEnclosure : ℤ × ℤ :=
  let a5 := arctanInv 5
  let a239 := arctanInv 239
  (16 * a5.1 - 4 * a239.2, 16 * a5.2 - 4 * a239.1)

/-- The state of a Taylor loop: the partial sum, the last power and the last factorial. -/
structure Taylor where
  sum : ℤ × ℤ
  pow : ℤ × ℤ
  fact : ℤ
  deriving DecidableEq, Repr

/-- Term `n` of a Taylor loop; `factor n` takes one factorial to the next. -/
def taylorStep (phi2 : ℤ × ℤ) (factor : ℤ → ℤ) (s : Taylor) (n : ℕ) : Taylor :=
  let pow := imul s.pow phi2
  let fact := s.fact * factor n
  let term := (fdiv pow.1 fact, cdiv pow.2 fact)
  { sum := if n % 2 = 1 then isub s.sum term else iadd s.sum term, pow, fact }

/-- Widen an alternating-series partial sum by the first omitted term. -/
def addRemainder (sum phi2 pow : ℤ × ℤ) (fact nextFactor : ℤ) : ℤ × ℤ :=
  let nextPow := imul pow phi2
  let nextFact := fact * nextFactor * (nextFactor + 1)
  let rem := cdiv nextPow.2 nextFact
  (sum.1 - rem, sum.2 + rem)

/-- The Taylor evaluation shared by `taylor_cos` and `taylor_sin`, from their first term. -/
def taylor (phi first : ℤ × ℤ) (factor : ℤ → ℤ) (nextFactor : ℤ) : ℤ × ℤ :=
  let phi2 := imul phi phi
  let s := (List.range' 1 nterms).foldl (taylorStep phi2 factor) { sum := first, pow := first, fact := 1 }
  addRemainder s.sum phi2 s.pow s.fact nextFactor

/-- `cos(phi)` enclosure at `TRIG_SCALE` for `phi` in `[0, π/4]`. -/
def taylorCos (phi : ℤ × ℤ) : ℤ × ℤ := taylor phi (trigOne, trigOne) (fun n => (2 * n - 1) * (2 * n)) (2 * nterms + 1)

/-- `sin(phi)` enclosure at `TRIG_SCALE` for `phi` in `[0, π/4]`. -/
def taylorSin (phi : ℤ × ℤ) : ℤ × ℤ := taylor phi phi (fun n => (2 * n) * (2 * n + 1)) (2 * nterms + 2)

/-- Reduce the angle index `t` to the first octant: `(r, swap, cos_sign, sin_sign)`. -/
def octantReduce (t d : ℕ) : ℕ × Bool × ℤ × ℤ :=
  let t := t % (2 * d)
  let (t, sinSign) := if t > d then (2 * d - t, (-1 : ℤ)) else (t, 1)
  let (t, cosSign) := if t > d / 2 then (d - t, (-1 : ℤ)) else (t, 1)
  let (t, swap) := if t > d / 4 then (d / 2 - t, true) else (t, false)
  (t, swap, cosSign, sinSign)

def applySign (v : ℤ × ℤ) (sign : ℤ) : ℤ × ℤ := if sign < 0 then (-v.2, -v.1) else v

/-- Downscale an interval to the table scale: the midpoint entry and its error bound. -/
def downscaleRound (v : ℤ × ℤ) (shift : ℕ) : ℤ × ℤ :=
  let lo := fshr v.1 shift
  let hi := cshr v.2 shift
  let entry := fdiv (lo + hi) 2
  (entry, max (entry - lo) (hi - entry))

/-- The first-octant enclosures of index `r`. -/
def firstOctant (d r : ℕ) : (ℤ × ℤ) × (ℤ × ℤ) :=
  let phi := (fdiv (piEnclosure.1 * r) d, cdiv (piEnclosure.2 * r) d)
  (taylorCos phi, taylorSin phi)

/-- Entry `t` of both tables with its error bound: `((c_val, c_err), (s_val, s_err))`. -/
def tableEntry (d q t : ℕ) : (ℤ × ℤ) × (ℤ × ℤ) :=
  let (r, swap, cosSign, sinSign) := octantReduce t d
  let (cosPhi, sinPhi) := firstOctant d r
  let (cosA, sinA) := if swap then (sinPhi, cosPhi) else (cosPhi, sinPhi)
  (downscaleRound (applySign cosA cosSign) (trigScale - q), downscaleRound (applySign sinA sinSign) (trigScale - q))

/-- `build_tables`: `base_cos`, `base_sin` for `t` in `0..2d` and the error bound `eps_root`. -/
def buildTables (d q : ℕ) : List ℤ × List ℤ × ℤ :=
  let entries := (List.range (2 * d)).map (tableEntry d q)
  (entries.map (·.1.1), entries.map (·.2.1), entries.foldl (fun eps e => max (max eps e.1.2) e.2.2) 0)

structure OpNormTable where
  d : ℕ
  q : ℕ
  epsRoot : ℤ
  maxL1 : ℤ
  maxT : ℤ
  freqCosAt : List ℤ
  freqSinAt : List ℤ
  deriving DecidableEq, Repr

/-- `i128` value shifted left; bits past the top are lost. -/
def shl128 (v : ℤ) (sh : ℕ) : ℤ := (v * 2 ^ sh).bmod (2 ^ 128)

/-- `i128::checked_shl`, which fails only on the shift amount. -/
def checkedShl128 (v : ℤ) (sh : ℕ) : Option ℤ := if sh < 128 then some (shl128 v sh) else none

def overflowI64 : AkitaError := .invalidSetup "OpNormTable: worst-case i64 accumulator does not fit i64"

def overflowI128 : AkitaError := .invalidSetup "OpNormTable: worst-case accumulator does not fit i128"

/-- Validate worst-case `i64` accumulator magnitudes for the transposed path. -/
def validateI64Accumulators (q : ℕ) (maxL1 : ℤ) : Result Unit := do
  let scale ← okOr (checkedShl128 1 q) overflowI64
  let maxAcc ← okOr (checkedI128 (maxL1 * scale)) overflowI64
  ensure (maxAcc ≤ 2 ^ 63 - 1) overflowI64

/-- Validate the worst-case `i128` accumulator and square bounds for the predicate. -/
def validateNoOverflow (q : ℕ) (epsRoot maxL1 maxT : ℤ) : Result Unit := do
  let scale ← okOr (checkedShl128 1 q) overflowI128
  let maxAcc ← okOr (checkedI128 (maxL1 * scale)) overflowI128
  let r ← okOr (checkedI128 (maxL1 * epsRoot)) overflowI128
  let center ← okOr (checkedI128 (maxAcc * maxAcc)) overflowI128
  let center2 ← okOr (checkedI128 (center * 2)) overflowI128
  let cross ← okOr (do checkedI128 ((← checkedI128 (maxAcc * 4)) * r)) overflowI128
  let slack ← okOr (do checkedI128 ((← checkedI128 (r * r)) * 2)) overflowI128
  let upper ← okOr (do checkedI128 ((← checkedI128 (center2 + cross)) + slack)) overflowI128
  let threshold ← okOr (do checkedShl128 (← checkedI128 (maxT * maxT)) (2 * q)) overflowI128
  let _ ← okOr (checkedI128 (upper + threshold)) overflowI128
  return ()

/-- `build_freq_at_tables` for one table: row `pos` holds the frequencies `k < d / 2`. -/
def buildFreqAtTable (d : ℕ) (base : List ℤ) : List ℤ :=
  (List.range d).flatMap fun pos => (List.range (d / 2)).map fun k =>
    base.getD ((2 * k + 1) % (2 * d) * pos % (2 * d)) 0

/-- The `i64` downcast of a base table. -/
def downcast (name : String) (table : List ℤ) : Result (List ℤ) := table.mapM fun v => okOr (checkedI64 v)
    (.invalidSetup ("OpNormTable: " ++ name ++ " entry does not fit i64 accumulator path"))

def OpNormTable.new (d q maxL1 maxT : ℕ) : Result OpNormTable := do
  ensure (¬ (d < 4 ∨ d % 4 ≠ 0)) (.invalidSetup
    ("OpNormTable: ring degree d = " ++ toString d ++ " must be a positive multiple of 4"))
  ensure (1 ≤ q ∧ q ≤ 56) (.invalidSetup
    ("OpNormTable: scale q = " ++ toString q ++ " out of supported range 1..=56"))
  let (baseCos, baseSin, epsRoot) := buildTables d q
  validateNoOverflow q epsRoot maxL1 maxT
  validateI64Accumulators q maxL1
  let baseCos ← downcast "base_cos" baseCos
  let baseSin ← downcast "base_sin" baseSin
  return {
    d
    q
    epsRoot
    maxL1
    maxT
    freqCosAt := buildFreqAtTable d baseCos
    freqSinAt := buildFreqAtTable d baseSin }

def fusedChunkFreqs : ℕ := 4

/-- One row update: the term's coefficient times its row, added lane by lane. -/
def accumulateRow (row : List ℤ) (start : ℕ) (coeff : ℤ) (startK : ℕ) (acc : List ℤ) : Option (List ℤ) :=
  acc.zipIdx.mapM fun (v, lane) => do
    let entry ← row[start + (startK + lane)]?
    let product ← checkedI64 (coeff * entry)
    checkedI64 (v + product)

/-- `accumulate_transposed_chunk_scalar`: the accumulators of the frequencies `start_k..start_k + len`. -/
def accumulateTransposedChunkScalar (table : OpNormTable) (positions : List ℕ) (coeffs : List ℤ) (startK len halfD : ℕ) :
    Option (List ℤ × List ℤ) := (positions.zip coeffs).foldlM (fun (acc : List ℤ × List ℤ) term => do
    let re ← accumulateRow table.freqCosAt (term.1 * halfD) term.2 startK acc.1
    let im ← accumulateRow table.freqSinAt (term.1 * halfD) term.2 startK acc.2
    return (re, im)) (List.replicate len 0, List.replicate len 0)

def decideFrequency (absRe absIm r twoR twoRSq threshold : ℤ) : Option Decision := do
  let center ← checkedI128 ((← checkedI128 (absRe * absRe)) + (← checkedI128 (absIm * absIm)))
  let cross ← checkedI128 (twoR * (← checkedI128 (absRe + absIm)))
  let upper ← checkedI128 ((← checkedI128 (center + cross)) + twoRSq)
  (if upper ≤ threshold then return .accept
   else do
    let lowRe := max (← checkedI128 (absRe - r)) 0
    let lowIm := max (← checkedI128 (absIm - r)) 0
    let lower ← checkedI128 ((← checkedI128 (lowRe * lowRe)) + (← checkedI128 (lowIm * lowIm)))
    return if lower > threshold then .reject else .indeterminate)

/-- The lanes of one chunk: `.error` is the early return. -/
def decideLanes (r twoR twoRSq threshold : ℤ) : List (ℤ × ℤ) → Bool → Option (Except Decision Bool)
  | [], indeterminate => some (.ok indeterminate)
  | (re, im) :: lanes, indeterminate => do
    match ← decideFrequency |re| |im| r twoR twoRSq threshold with
    | .reject => some (.error .reject)
    | .indeterminate => decideLanes r twoR twoRSq threshold lanes true
    | .accept => decideLanes r twoR twoRSq threshold lanes indeterminate

/-- The chunk loop of `decide_transposed_fused`; every pass takes at least one of the
`num_freqs` frequencies, which bounds the passes. -/
def decideChunks (table : OpNormTable) (positions : List ℕ) (coeffs : List ℤ) (r twoR twoRSq threshold : ℤ) :
    ℕ → ℕ → Bool → Option Decision
  | 0, _, indeterminate => some (if indeterminate then .indeterminate else .accept)
  | passes + 1, startK, indeterminate =>
    let numFreqs := table.d / 2
    if startK < numFreqs then do
      let len := min (numFreqs - startK) fusedChunkFreqs
      let (accRe, accIm) ← accumulateTransposedChunkScalar table positions coeffs startK len numFreqs
      match ← decideLanes r twoR twoRSq threshold (accRe.zip accIm) indeterminate with
      | .error decision => some decision
      | .ok indeterminate =>
        decideChunks table positions coeffs r twoR twoRSq threshold passes (startK + len) indeterminate
    else some (if indeterminate then .indeterminate else .accept)

namespace OpNormTable

variable (table : OpNormTable)

/-- The checks of `decide_parts` on its input; the result is `||c||_1`. -/
def checkParts (positions : List ℕ) (coeffs : List ℤ) (t : ℕ) : Result ℤ := do
  ensure (positions.length = coeffs.length) (.invalidInput "operator-norm predicate: positions/coeffs length mismatch")
  let l1 ← (positions.zip coeffs).foldlM (fun l1 term => do
    ensure (term.1 < table.d) (.invalidInput ("operator-norm predicate: position " ++ toString term.1 ++
      " out of range for D = " ++ toString table.d))
    return l1 + |term.2|) (0 : ℤ)
  ensure (l1 ≤ table.maxL1) (.invalidInput ("operator-norm predicate: ||c||_1 = " ++ toString l1 ++
    " exceeds validated max_l1 = " ++ toString table.maxL1))
  ensure ((t : ℤ) ≤ table.maxT) (.invalidInput ("operator-norm predicate: threshold t = " ++ toString t ++
    " exceeds validated max_t = " ++ toString table.maxT))
  return l1

/-- `decide_parts`; an arithmetic overflow is `none`. -/
def decideParts (positions : List ℕ) (coeffs : List ℤ) (t : ℕ) : Result (Option Decision) := do
  let l1 ← table.checkParts positions coeffs t
  return do
    let r ← checkedI128 (l1 * table.epsRoot)
    let twoR ← checkedI128 (2 * r)
    let twoRSq ← checkedI128 ((← checkedI128 (2 * r)) * r)
    let threshold := shl128 (← checkedI128 (t * t)) (2 * table.q)
    decideChunks table positions coeffs r twoR twoRSq threshold (table.d / 2) 0 false

def acceptStrictParts (positions : List ℕ) (coeffs : List ℤ) (t : ℕ) : Result (Option Bool) := do
  let decision ← table.decideParts positions coeffs t
  return decision.map fun d => d == .accept

end OpNormTable

end Akita.OpNorm
