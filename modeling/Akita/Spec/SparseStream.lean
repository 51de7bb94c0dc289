import Akita.Lib.Bits
import Akita.Spec.OpNorm

/-!
# Sparse challenges of one transcript message

`akita-challenges/src/sampler/stream.rs` and `sampler/mod.rs`: the layout of a group's challenge
message, the decoder of one candidate, and the decoding of a message with and without the
operator-norm filter. `u128` and `usize` values are natural numbers; the checked and saturating
operations keep their bounds.

Left out: the per-thread cache of validated shells and the shared caches of tables, which return what
they were built from, and allocation failures.
-/

namespace Akita.SparseStream

open Lib OpNorm

/-- `saturating_add` at width `w`. -/
def saturatingAdd (w a b : ℕ) : ℕ := min (a + b) (2 ^ w - 1)

/-- `saturating_mul` at width `w`. -/
def saturatingMul (w a b : ℕ) : ℕ := min (a * b) (2 ^ w - 1)

/-- `u128::leading_zeros`. -/
def leadingZeros128 (n : ℕ) : ℕ := 128 - n.size

def maxRingDim : ℕ := 2048

def poolFailureBits : ℕ := 161

def poolChernoffScale : ℕ := 224

def maxPoolCandidates : ℕ := 2 ^ 32

def maxMessageBytes : ℕ := 2 ^ 24

def wordBytes : ℕ := 8

def wordBits : ℕ := 64

def parallelDecodeWorkThreshold : ℕ := 2 ^ 14

/-- Fixed-weight sparse ring fold challenge family. -/
structure SparseChallengeConfig where
  countPm1 : ℕ
  countPm2 : ℕ
  deriving DecidableEq, Repr

namespace SparseChallengeConfig

variable (config : SparseChallengeConfig)

def weight : ℕ := saturatingAdd usizeBits config.countPm1 config.countPm2

/-- Worst-case `L1` norm of the coefficients. -/
def l1Norm : ℕ := saturatingAdd usizeBits config.countPm1 (saturatingMul usizeBits 2 config.countPm2)

def validateDyn (ringD : ℕ) : Result Unit :=
  ensure ((checkedAdd usizeBits config.countPm1 config.countPm2).any (· ≤ ringD))
    (.invalidSetup "count_pm1 + count_pm2 must be <= ring degree D")

end SparseChallengeConfig

/-- Verifier-enforced operator-norm rejection policy. -/
structure OperatorNormRejection where
  threshold : ℕ
  fractionalBits : ℕ
  rootCoordinateErrorUnits : ℕ
  roundingMarginUnits : ℕ
  deriving DecidableEq, Repr

def d64SelectiveL2 : OperatorNormRejection := ⟨18, 48, 4, 600⟩

def d128SelectiveL2 : OperatorNormRejection := ⟨13, 48, 4, 351⟩

def d64SelectiveL2ChallengeConfig : SparseChallengeConfig := ⟨31, 11⟩

def d128SelectiveL2ChallengeConfig : SparseChallengeConfig := ⟨31, 0⟩

/-- The families covered by a policy's support certificate (`OperatorNormRejection::validate`). -/
def OperatorNormRejection.validate (rejection : OperatorNormRejection) (ringD : ℕ) (config : SparseChallengeConfig) :
    Result Unit := ensure ((rejection = d64SelectiveL2 ∧ ringD = 64 ∧ config = d64SelectiveL2ChallengeConfig) ∨
      (rejection = d128SelectiveL2 ∧ ringD = 128 ∧ config = d128SelectiveL2ChallengeConfig))
    (.invalidSetup "unsupported operator-norm rejection policy or challenge family")

/-- Lower bounds used to size an operator-norm pool, as fractions. -/
structure PoolRates where
  accept : ℕ × ℕ
  failBits : ℕ × ℕ
  deriving DecidableEq, Repr

/-- `operator_norm_rates`: pool rates and certified accepted-set exponent. -/
def operatorNormRates (rejection : OperatorNormRejection) : Result (PoolRates × ℕ) :=
  if rejection = d64SelectiveL2 then .ok (⟨(3611, 10000), (64, 100)⟩, 128)
  else if rejection = d128SelectiveL2 then .ok (⟨(5999, 10000), (132, 100)⟩, 128)
  else .error (.invalidSetup "unsupported operator-norm rejection policy")

/-- The product loop of `binomial` from factor `i` on, `left` factors to go. -/
def binomialLoop (n : ℕ) : ℕ → ℕ → ℕ → Result ℕ
  | 0, _, value => .ok value
  | left + 1, i, value => do
    let product ← okOr (checkedMul 128 value (n - i)) (.invalidSetup "sparse binomial overflow")
    binomialLoop n left (i + 1) (product / (i + 1))

/-- `binomial`: `C(n, k)`, or an error when it does not fit in `u128`. -/
def binomial (n k : ℕ) : Result ℕ := if k > n then .ok 0 else binomialLoop n (min k (n - k)) 0 1

structure SparseChallengeShell where
  ringD : ℕ
  config : SparseChallengeConfig
  rejection : Option OperatorNormRejection
  candidateBits : ℕ
  rankBits : ℕ
  rankSpace : ℕ
  pm1RankSpace : ℕ
  setBits : ℕ
  deriving DecidableEq, Repr

/-- The rank width and the guaranteed set exponent of a family. -/
def rankWidth (ringD : ℕ) (config : SparseChallengeConfig) (rejection : Option OperatorNormRejection) (rankSpace weight : ℕ) :
    Result (ℕ × ℕ) :=
  match rejection with
  | none => do
    let rankBits := 128 - 1 - leadingZeros128 rankSpace
    let setBits ← okOr (checkedAdd 32 rankBits weight) (.invalidSetup "sparse challenge width overflow")
    return (rankBits, setBits)
  | some rejection => do
    rejection.validate ringD config
    let (_, certifiedBits) ← operatorNormRates rejection
    return (128 - leadingZeros128 (rankSpace - 1), certifiedBits)

def SparseChallengeShell.validated (ringD : ℕ) (config : SparseChallengeConfig) (rejection : Option OperatorNormRejection) :
    Result SparseChallengeShell := do
  ensure (¬ (ringD = 0 ∨ ringD > maxRingDim)) (.invalidSetup ("ring dimension " ++ toString ringD ++
    " is outside the sparse decoder range 1..=" ++ toString maxRingDim))
  config.validateDyn ringD
  let pm1RankSpace ← binomial ringD config.countPm1
  let pm2RankSpace ← binomial (ringD - config.countPm1) config.countPm2
  let rankSpace ← okOr (checkedMul 128 pm1RankSpace pm2RankSpace) (.invalidSetup "sparse position rank space overflow")
  ensure (config.weight < 2 ^ 32) (.invalidSetup "sparse challenge weight exceeds u32")
  let (rankBits, setBits) ← rankWidth ringD config rejection rankSpace config.weight
  let candidateBits ← okOr ((checkedAdd usizeBits rankBits config.weight).filter (· > 0))
    (.invalidSetup "sparse challenge width is invalid")
  return { ringD, config, rejection, candidateBits, rankBits, rankSpace, pm1RankSpace, setBits }

section

def poolOverflow : AkitaError := .invalidSetup "operator-norm pool size overflow"

/-- The Chernoff condition of `pool_len` at pool size `b`. -/
def chernoff (w u v b : ℕ) : Option Bool := do
  let bu ← checkedMul 128 b u
  let wv ← checkedMul 128 w v
  if bu ≤ wv then return false
  else do
    let gap := bu - wv
    let square ← checkedMul 128 gap gap
    let bound ← checkedMul 128 (← checkedMul 128 (← checkedMul 128 poolChernoffScale b) u) v
    return decide (square ≥ bound)

/-- `while least > w && chernoff(least - 1) { least -= 1 }`. -/
def stepDown (w u v : ℕ) : ℕ → Result ℕ
  | 0 => .ok 0
  | least + 1 =>
    if least + 1 > w then do
      if ← okOr (chernoff w u v least) poolOverflow then stepDown w u v least else .ok (least + 1)
    else .ok (least + 1)

/-- `while !chernoff(least) { least += 1 }`; `room` counts the values left in a `u128`. -/
def stepUp (w u v : ℕ) : ℕ → ℕ → Result ℕ
  | 0, _ => .error poolOverflow
  | room + 1, least => do
    if ← okOr (chernoff w u v least) poolOverflow then .ok least else stepUp w u v room (least + 1)

/-- `while doubled < least`, at most `bits` doublings of a positive value below `2^bits`. -/
def doubleUpTo (least : ℕ) : ℕ → ℕ → Result ℕ
  | 0, doubled => .ok doubled
  | bits + 1, doubled =>
    if doubled < least then do
      let doubled ← okOr ((checkedMul 128 doubled 2).filter (· ≤ maxPoolCandidates)) poolOverflow
      doubleUpTo least bits doubled
    else .ok doubled

/-- The classes of bit length `len`, `len + 1`, … of the union bound, `classes` of them. -/
def unionBound (w least rNum rDen : ℕ) : ℕ → ℕ → Result ℕ
  | 0, _ => .ok least
  | classes + 1, len => do
    let classLow := max w (2 ^ (len - 1))
    let classHigh := min (2 ^ len - 1) (least - 1)
    let tail ← okOr (do
      let bits ← checkedAdd 128 (← checkedMul 128 (w - 1) len) poolFailureBits
      let need ← checkedMul 128 bits rDen
      let sum ← checkedAdd 128 need (← checkedSub rNum 1)
      if rNum = 0 then none else return sum / rNum) poolOverflow
    let first ← okOr (checkedAdd 128 (w - 1) tail) poolOverflow
    let first := max first classLow
    if first ≤ classHigh then .ok first else unionBound w least rNum rDen classes (len + 1)

/-- `pool_len`: least pool size whose run-out probability meets the union or the Chernoff bound. -/
def poolLen (count : ℕ) (rates : PoolRates) : Result ℕ := do
  let (u, v) := rates.accept
  let (rNum, rDen) := rates.failBits
  let w := count
  let halfScale := poolChernoffScale / 2
  let root ← okOr (do
    let sum ← checkedAdd 128 (← checkedMul 128 w 2) halfScale
    let sqrt := Nat.sqrt (← checkedMul 128 sum halfScale)
    let scaled ← checkedMul 128 (← checkedAdd 128 (← checkedAdd 128 w halfScale) sqrt) v
    if u = 0 then none else return scaled / u) poolOverflow
  let least ← stepDown w u v (max root w)
  let least ← stepUp w u v (2 ^ 128 - least) least
  let _ ← doubleUpTo least 129 (max w 1)
  let pool ← if w = 0 then .ok least
    else unionBound w least rNum rDen ((least - 1).size + 1 - w.size) w.size
  okOr (if pool < 2 ^ usizeBits then some pool else none) poolOverflow

end

structure SparseChallengeStream where
  shell : SparseChallengeShell
  count : ℕ
  candidates : ℕ
  messageLen : ℕ
  deriving DecidableEq, Repr

/-- `bits.div_ceil(WORD_BITS) * WORD_BYTES`. -/
def messageBytes (bits : ℕ) : ℕ := (bits + wordBits - 1) / wordBits * wordBytes

/-- The candidates of a message: `count`, or the pool of an operator-norm family. -/
def SparseChallengeShell.poolSize (shell : SparseChallengeShell) (count : ℕ) : Result ℕ :=
  match shell.rejection with
  | none => .ok count
  | some rejection => do poolLen count (← operatorNormRates rejection).1

/-- `SparseChallengeShell::stream`: lay out `count` challenges of a family. -/
def SparseChallengeShell.stream (shell : SparseChallengeShell) (count : ℕ) : Result SparseChallengeStream := do
  ensure (count ≠ 0) (.invalidSetup "a sparse challenge message needs at least one challenge")
  let candidates ← shell.poolSize count
  let messageLen ← okOr (((checkedMul usizeBits candidates shell.candidateBits).map messageBytes).filter (· ≤ maxMessageBytes))
    (.invalidSetup ("sparse challenge message exceeds " ++ toString maxMessageBytes ++ " bytes"))
  return { shell, count, candidates, messageLen }

section

/-- `BinomialTable`: Pascal's triangle saturating at `u128::MAX`, column `k` holding `C(0..=max_n, k)`. -/
structure BinomialTable where
  maxN : ℕ
  maxK : ℕ
  columns : List (List ℕ)
  deriving DecidableEq, Repr

/-- The running sums of a column, from the column before it. -/
def columnSums : ℕ → List ℕ → List ℕ
  | _, [] => []
  | above, diagonal :: previous =>
    let above := saturatingAdd 128 above diagonal
    above :: columnSums above previous

/-- The next column: `C(0, k) = 0`, then `C(n, k) = C(n - 1, k) + C(n - 1, k - 1)`. -/
def nextColumn (previous : List ℕ) : List ℕ := 0 :: columnSums 0 previous.dropLast

def BinomialTable.new (maxN maxK : ℕ) : Result BinomialTable := do
  let rows := maxN + 1
  let _ ← okOr (checkedMul usizeBits rows (maxK + 1)) (.invalidSetup "sparse binomial table overflow")
  return { maxN, maxK, columns := (List.range (maxK + 1)).map fun k => nextColumn^[k] (List.replicate rows 1) }

/-- `BinomialTable::column`: `C(0..upper, k)`. -/
def BinomialTable.column (table : BinomialTable) (k upper : ℕ) : Result (List ℕ) :=
  okOr (if k ≤ table.maxK ∧ upper ≤ table.maxN + 1 then
      (table.columns[k]?).bind fun column => if upper ≤ column.length then some (column.take upper) else none
    else none) (.internal "sparse binomial table is too small")

def rankOutOfRange : AkitaError := .internal "sparse rank was out of range"

def positionExceeds : AkitaError := .internal "sparse position exceeds u32"

/-- `column.iter().enumerate().rfind(|value| value <= rank)`. -/
def rfindLe (rank : ℕ) (column : List ℕ) : Option (ℕ × ℕ) :=
  (column.zipIdx.map fun entry => (entry.2, entry.1)).findRev? fun entry => entry.2 ≤ rank

/-- The loop of `unrank` for its lowest `i` elements: the rank left and the elements, upwards. -/
def unrankLoop (table : BinomialTable) : ℕ → ℕ → ℕ → Result (ℕ × List ℕ)
  | 0, rank, _ => .ok (rank, [])
  | i + 1, rank, upper => do
    let column ← table.column (i + 1) upper
    let (element, value) ← okOr (rfindLe rank column) rankOutOfRange
    ensure (element < 2 ^ 32) positionExceeds
    let (rank, elements) ← unrankLoop table i (rank - value) element
    return (rank, elements ++ [element])

/-- `BinomialTable::unrank`, writing the first `k` slots of `out`. -/
def BinomialTable.unrank (table : BinomialTable) (rank n k : ℕ) (out : List ℕ) : Result (List ℕ) := do
  ensure (k ≤ out.length) (.internal "sparse unrank output is too short")
  let (rank, elements) ← unrankLoop table k rank n
  ensure (rank = 0) rankOutOfRange
  return elements ++ out.drop k

/-- The inner loop of `map_to_complement` over the taken positions not yet passed. -/
def skipTaken : List ℕ → ℕ → ℕ → ℕ × ℕ × List ℕ
  | [], position, skipped => (position, skipped, [])
  | next :: taken, position, skipped =>
    if next ≤ position then skipTaken taken (position + 1) (skipped + 1) else (position, skipped, next :: taken)

/-- The slots of `map_to_complement`, with the taken positions not yet passed. -/
def complementLoop (ringD : ℕ) : List ℕ → ℕ → List ℕ → Result (List ℕ)
  | _, _, [] => .ok []
  | taken, skipped, slot :: slots => do
    let (position, skipped, taken) := skipTaken taken (slot + skipped) skipped
    ensure (¬ position ≥ ringD) (.internal "sparse complement slot out of range")
    ensure (position < 2 ^ 32) positionExceeds
    let rest ← complementLoop ringD taken skipped slots
    return position :: rest

def mapToComplement (taken slots : List ℕ) (ringD : ℕ) : Result (List ℕ) := complementLoop ringD taken 0 slots

def pastEnd : AkitaError := .internal "sparse message read past its end"

/-- Word `index` of a message, little endian. -/
def word (message : List UInt8) (index : ℕ) : Result ℕ := okOr (if (index + 1) * wordBytes ≤ message.length then
    some (leValue ((message.drop (index * wordBytes)).take wordBytes)) else none) pastEnd

/-- `if more { value |= word(index)? << shift }`. -/
def orWord (message : List UInt8) (value index shift : ℕ) (more : Bool) : Result ℕ :=
  if more then do return value ||| wrapping 128 ((← word message index) <<< shift) else .ok value

/-- `read_bits`: `width <= 128` bits starting at bit `offset`. -/
def readBits (message : List UInt8) (offset width : ℕ) : Result ℕ := do
  ensure (¬ width > 128) pastEnd
  if width = 0 then return 0
  else do
    let first := offset / wordBits
    let last := (offset + width - 1) / wordBits
    let shift := offset % wordBits
    let value := (← word message first) >>> shift
    let value ← orWord message value (first + 1) (wordBits - shift) (last > first)
    let value ← orWord message value (first + 2) (2 * wordBits - shift) (last > first + 1)
    return if width < 128 then value &&& (2 ^ width - 1) else value

structure SparseChallenge where
  positions : List ℕ
  coeffs : List ℤ
  deriving DecidableEq, Repr

def signedCoeffs (a offset take signs : ℕ) : List ℤ := (List.range take).map fun bit =>
    let magnitude : ℤ := 1 + (if offset + bit ≥ a then 1 else 0)
    let negative : ℤ := ((signs >>> bit) &&& 1 : ℕ)
    magnitude - 2 * negative * magnitude

/-- The coefficients of a candidate whose bits start at `start`, one word of signs at a time. -/
def readCoeffs (message : List UInt8) (start a weight : ℕ) : Result (List ℤ) := do
  let words ← (List.range ((weight + 63) / 64)).mapM fun i => do
    let offset := i * 64
    let take := min (weight - offset) 64
    let signs ← readBits message (start + offset) take
    return signedCoeffs a offset take signs
  return words.flatten

/-- The ±2 positions of a candidate, in the complement of the ±1 positions. -/
def pm2Positions (binomials : BinomialTable) (pm1 : List ℕ) (pm2Rank ringD a b : ℕ) : Result (List ℕ) :=
  if b > 0 then do
    let slots ← binomials.unrank pm2Rank (ringD - a) b (List.replicate b 0)
    mapToComplement pm1 slots ringD
  else .ok (List.replicate b 0)

def candidate (stream : SparseChallengeStream) (message : List UInt8) (binomials : BinomialTable) (index : ℕ) :
    Result (Option SparseChallenge) := do
  let shell := stream.shell
  let a := shell.config.countPm1
  let b := shell.config.countPm2
  let weight := a + b
  let start ← okOr (checkedMul usizeBits index shell.candidateBits) (.internal "sparse candidate offset overflow")
  let rankStart := start + weight
  let rank ← readBits message rankStart shell.rankBits
  if rank ≥ shell.rankSpace then return none
  else do
    let pm2Rank := if b = 0 then 0 else rank / shell.pm1RankSpace
    let pm1Rank := rank - pm2Rank * shell.pm1RankSpace
    let pm1 ← binomials.unrank pm1Rank shell.ringD a (List.replicate a 0)
    let pm2 ← pm2Positions binomials pm1 pm2Rank shell.ringD a b
    let coeffs ← readCoeffs message start a weight
    return some { positions := pm1 ++ pm2, coeffs }

end

section

def strictThresholdContainsShrunkenSubset (table : OpNormTable) (policy : OperatorNormRejection) : Bool :=
  if table.q ≠ policy.fractionalBits ∨ table.epsRoot > policy.rootCoordinateErrorUnits ∨
      (policy.threshold : ℤ) > table.maxT then false
  else
    match checkedI128 (table.maxL1 * policy.rootCoordinateErrorUnits), checkedShl128 policy.threshold table.q with
    | some r, some strictFixed =>
      let margin : ℤ := policy.roundingMarginUnits
      if margin = 0 ∨ margin ≥ strictFixed then false
      else
        match (do checkedI128 ((← checkedI128 (8 * r)) * r)), checkedI128 (margin * margin) with
        | some lhs, some rhs => lhs < rhs
        | _, _ => false
    | _, _ => false

/-- The static operator-norm table of a policy, for degree `d` and its challenge family. -/
def selectiveTable (name : String) (d : ℕ) (config : SparseChallengeConfig) (policy : OperatorNormRejection) :
    Result OpNormTable := do
  let table ← mapErr (OpNormTable.new d 48 config.l1Norm policy.threshold) fun _ =>
    .invalidSetup ("failed to initialize the " ++ name ++ " selective-L2 operator-norm table")
  ensure (strictThresholdContainsShrunkenSubset table policy)
    (.invalidSetup ("the " ++ name ++ " operator-norm table does not contain its certified subset"))
  return table

inductive ChallengePolicy
  | unrestricted
  | operatorNorm (threshold : ℕ) (table : OpNormTable)

def ChallengePolicy.new (ringD : ℕ) (config : SparseChallengeConfig) : Option OperatorNormRejection → Result ChallengePolicy
  | none => .ok .unrestricted
  | some rejection => do
    rejection.validate ringD config
    let table ←
      if rejection = d64SelectiveL2 then selectiveTable "D64" 64 d64SelectiveL2ChallengeConfig d64SelectiveL2
      else if rejection = d128SelectiveL2 then selectiveTable "D128" 128 d128SelectiveL2ChallengeConfig d128SelectiveL2
      else .error (.invalidSetup "unsupported operator-norm rejection policy")
    return .operatorNorm rejection.threshold table

/-- An arithmetic overflow panics; no input reaches one. -/
def panicked : AkitaError := .internal "attempt to compute with overflow"

variable (stream : SparseChallengeStream)

/-- Whether to decode in parallel, in a build with the feature. -/
def SparseChallengeStream.parallel : Bool :=
  saturatingMul usizeBits stream.count stream.shell.config.weight ≥ parallelDecodeWorkThreshold

/-- The `accept` closure of an operator-norm decode. -/
def acceptCandidate (message : List UInt8) (binomials : BinomialTable) (threshold : ℕ) (table : OpNormTable) (index : ℕ) :
    Result (Option SparseChallenge) := do
  match ← candidate stream message binomials index with
  | none => return none
  | some challenge => do
    let accepted ← okOr (← table.acceptStrictParts challenge.positions challenge.coeffs threshold) panicked
    return if accepted then some challenge else none

/-- `decode_all`. Both builds collect the challenges in index order. -/
def decodeAll (message : List UInt8) (binomials : BinomialTable) : Result (List SparseChallenge) :=
  (List.range stream.count).mapM fun index => do
    okOr (← candidate stream message binomials index) (.internal "an unfiltered sparse candidate was out of range")

/-- The sequential loop of `first_accepted` over the indices left. -/
def firstAcceptedLoop (accept : ℕ → Result (Option SparseChallenge)) (count : ℕ) :
    List ℕ → List SparseChallenge → Result (List SparseChallenge)
  | [], accepted => .ok accepted
  | index :: indices, accepted =>
    if accepted.length = count then .ok accepted
    else do
      match ← accept index with
      | some challenge => firstAcceptedLoop accept count indices (accepted ++ [challenge])
      | none => firstAcceptedLoop accept count indices accepted

/-- The chunked loop of `first_accepted`, at most `passes` chunks. -/
def chunkedLoop (accept : ℕ → Result (Option SparseChallenge)) (count candidates : ℕ) :
    ℕ → ℕ → List SparseChallenge → Result (List SparseChallenge)
  | 0, _, accepted => .ok accepted
  | passes + 1, start, accepted =>
    if accepted.length < count ∧ start < candidates then do
      let stop := min (saturatingAdd usizeBits start (saturatingMul usizeBits count 2)) candidates
      let decoded ← (List.range' start (stop - start)).mapM accept
      let missing := count - accepted.length
      chunkedLoop accept count candidates passes stop (accepted ++ (decoded.filterMap id).take missing)
    else .ok accepted

def full (accepted : List SparseChallenge) : Option (List SparseChallenge) :=
  if accepted.length = stream.count then some accepted else none

/-- `first_accepted`; `feature` is the `parallel` feature of the build. Every chunk takes at
least one candidate, which bounds the passes. -/
def firstAccepted (feature : Bool) (accept : ℕ → Result (Option SparseChallenge)) : Result (Option (List SparseChallenge)) := do
  if feature ∧ stream.parallel then do
    let accepted ← chunkedLoop accept stream.count stream.candidates stream.candidates 0 []
    return full stream accepted
  else do
    let accepted ← firstAcceptedLoop accept stream.count (List.range stream.candidates) []
    return full stream accepted

def SparseChallengeStream.decode (feature : Bool) (message : List UInt8) : Result (Option (List SparseChallenge)) := do
  ensure (message.length = stream.messageLen) (.invalidInput "sparse challenge message has the wrong length")
  let policy ← ChallengePolicy.new stream.shell.ringD stream.shell.config stream.shell.rejection
  let binomials ← BinomialTable.new stream.shell.ringD (max stream.shell.config.countPm1 stream.shell.config.countPm2)
  match policy with
  | .unrestricted => do return some (← decodeAll stream message binomials)
  | .operatorNorm threshold table => firstAccepted stream feature (acceptCandidate stream message binomials threshold table)

end

end Akita.SparseStream
