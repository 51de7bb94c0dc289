import Akita.Lib.Accumulate
import Akita.Spec.Error

/-!
# Equality tables

`akita-algebra/src/eq_poly.rs` and the equality window of `offset_eq.rs`: the table of the
equality polynomial at a point, least significant coordinate first, built serially in place
or in parallel by halves; the two half tables of a split point; and the window that reads
one address through a low table and a high table.
-/

namespace Akita.OffsetEq

open Lib

section

section

/-- What the build and the machine decide: the size of a field element, the allocations that are granted,
whether the parallel feature is on, and how a parallel fold over `0..n` is cut and joined. -/
structure Runtime where
  elemSize : ℕ
  reserves : ℕ → Bool
  parallel : Bool
  foldTree : ℕ → FoldTree ℕ
  foldTree_toList : ∀ n, (foldTree n).toList = List.range n

theorem serialFold_toList (n : ℕ) : (FoldTree.items (List.range n)).toList = List.range n := rfl

variable {F : Type} [Field F] [DecidableEq F] (rt : Runtime)

/-! ## Full tables -/

namespace EqPolynomial

def maxMaterializedEqTableBytes : ℕ := 2 ^ 30

def splitLagrangeParent (value coordinate : F) : F × F :=
  let right := value * coordinate
  (value - right, right)

def tableLen (numVars : ℕ) : Result ℕ := okOr (Checked.pow2 numVars) (.invalidInput "eq table dimension overflow")

/-- The error's text, up to the place of the caller. -/
def checkElementBudget (label : String) (len : ℕ) : Result Unit := do
  let elemSize := max rt.elemSize 1
  let bytes ← okOr (checkedMul usizeBits len elemSize)
    (.invalidInput (label ++ " byte-size overflow for " ++ toString len ++ " elements"))
  ensure (bytes ≤ maxMaterializedEqTableBytes)
    (.invalidInput (label ++ " requires " ++ toString bytes ++ " bytes for " ++ toString len ++
      " elements, exceeding equality-table budget of " ++ toString maxMaterializedEqTableBytes ++ " bytes"))

def materializedTableLen (label : String) (numVars : ℕ) : Result ℕ := do
  let len ← tableLen numVars
  checkElementBudget rt label len
  return len

def zeroVec (label : String) (len : ℕ) : Result (List F) := do
  ensure (rt.reserves len) (.invalidInput (label ++ " allocation failed for " ++ toString len ++ " elements"))
  return List.replicate len 0

/-- One layer in place: from the last parent down, a parent is replaced by its two children. -/
def splitParents (coordinate : F) (map : F → F) (evals : List F) (len : ℕ) : List F :=
  (List.range len).reverse.foldl (fun evals parent =>
    let (left, right) := splitLagrangeParent (evals.getD parent 0) coordinate
    (evals.set (2 * parent) (map left)).set (2 * parent + 1) (map right)) evals

def fillSerialWithFinalMap (evals : List F) (r : List F) (initial : F) (map : F → F) : List F :=
  match r with
  | [] => evals.set 0 (map initial)
  | first :: rest =>
    let (evals, len) := rest.reverse.foldl
      (fun (state : List F × ℕ) coordinate => (splitParents coordinate id state.1 state.2, state.2 * 2))
      (evals.set 0 initial, 1)
    splitParents first map evals len

def evalsSerial (r : List F) (scalingFactor : Option F) : Result (List F) := do
  let size ← materializedTableLen rt "eq evaluation table" r.length
  let evals ← zeroVec rt "eq evaluation table" size
  return fillSerialWithFinalMap evals r (scalingFactor.getD 1) id

/-- The layer of one coordinate splits the filled half into both halves. -/
def evalsParallel (r : List F) (scalingFactor : Option F) : Result (List F) := do
  let finalSize ← materializedTableLen rt "eq evaluation table" r.length
  let evals ← zeroVec rt "eq evaluation table" finalSize
  let (evals, _) := r.foldl (fun (state : List F × ℕ) coordinate =>
    let (evals, size) := state
    let filled := evals.take size
    (filled.map (fun x => (splitLagrangeParent x coordinate).1) ++
      filled.map (fun x => (splitLagrangeParent x coordinate).2) ++ evals.drop (2 * size), size * 2))
    (evals.set 0 (scalingFactor.getD 1), 1)
  return evals

def parallelThreshold : ℕ := 16

def evalsWithScaling (r : List F) (scalingFactor : Option F) : Result (List F) :=
  if rt.parallel && r.length > parallelThreshold then evalsParallel rt r scalingFactor
  else evalsSerial rt r scalingFactor

def evals (r : List F) : Result (List F) := evalsWithScaling rt r none

end EqPolynomial

/-! ## Split tables -/

/-- The half tables of the low and of the high coordinates. -/
structure SplitEqEvals (F : Type) where
  eOut : List F
  eIn : List F

namespace SplitEqEvals

def new (point : List F) : Result (SplitEqEvals F) := do
  let m := point.length / 2
  let eIn ← EqPolynomial.evals rt (point.take m)
  let eOut ← EqPolynomial.evals rt (point.drop m)
  return { eOut, eIn }

def len (s : SplitEqEvals F) : ℕ := s.eIn.length * s.eOut.length

def evalAt (s : SplitEqEvals F) (index : ℕ) : Result F := do
  ensure (index < s.len) (.invalidInput
    ("split equality index " ++ toString index ++ " is outside table length " ++ toString s.len))
  return s.eOut.getD (index / s.eIn.length) 0 * s.eIn.getD (index % s.eIn.length) 0

end SplitEqEvals

/-! ## Windows -/

/-- Evaluate `eq(r, index)` for a single hypercube index in little-endian order. -/
def eqEvalAtIndex (challenges : List F) (index : ℕ) : F :=
  if challenges.length < usizeBits ∧ index ≥ 2 ^ challenges.length then 0
  else
    challenges.zipIdx.foldl (fun acc (challenge, bitIdx) =>
      let bit := if bitIdx < usizeBits then (index >>> bitIdx) &&& 1 else 0
      acc * if bit = 1 then challenge else 1 - challenge) 1

def offsetEqLowBitsCap : ℕ := 16

def offsetEqHighBitsCap : ℕ := 16

structure OffsetEqWindow (F : Type) where
  lowBits : ℕ
  lowMask : ℕ
  eqLow : List F
  eqHigh : Option (List F)
  highChallenges : List F

namespace OffsetEqWindow

def splitLowBits (challengeCount lowBitsCap : ℕ) : ℕ :=
  let lowCap := min lowBitsCap offsetEqLowBitsCap
  if challengeCount ≤ lowCap + offsetEqHighBitsCap then
    min (max ((challengeCount + 1) / 2) (challengeCount - offsetEqHighBitsCap)) lowCap
  else min challengeCount lowCap

/-- The table entries that `new` materializes. -/
def materializedLen (challengeCount : ℕ) : Result ℕ := do
  let overflow := AkitaError.invalidInput "eq table dimension overflow"
  let lowBits := splitLowBits challengeCount offsetEqLowBitsCap
  let highBits := challengeCount - lowBits
  let lowLen ← okOr (Checked.pow2 lowBits) overflow
  let highLen ← (if highBits ≤ offsetEqHighBitsCap then okOr (Checked.pow2 highBits) overflow else pure 0 : Result _)
  okOr (Checked.sum [lowLen, highLen]) overflow

def withLowBits (challenges : List F) (lowBitsCap : ℕ) : Result (OffsetEqWindow F) := do
  let lowBits := splitLowBits challenges.length lowBitsCap
  let eqLow ← EqPolynomial.evals rt (challenges.take lowBits)
  let lowMask := if lowBits = 0 then 0 else 2 ^ lowBits - 1
  let highChallenges := challenges.drop lowBits
  let eqHigh ← (if highChallenges.length ≤ offsetEqHighBitsCap then do
      let table ← EqPolynomial.evals rt highChallenges
      return some table
    else pure none : Result _)
  return { lowBits, lowMask, eqLow, eqHigh, highChallenges }

def new (challenges : List F) : Result (OffsetEqWindow F) := withLowBits rt challenges offsetEqLowBitsCap

def newIfAmortized (challenges : List F) (evaluationCount : ℕ) : Result (Option (OffsetEqWindow F)) :=
  if challenges = [] then return none
  else do
    let len ← materializedLen challenges.length
    (if evaluationCount < len then pure none
    else do
      let window ← new rt challenges
      return some window)

/-- The high factor. A high index beyond the table is outside the domain. -/
def evalHigh (w : OffsetEqWindow F) (high : ℕ) : F :=
  match w.eqHigh with
  | some table => table.getD high 0
  | none => eqEvalAtIndex w.highChallenges high

def evalFactors (w : OffsetEqWindow F) (index : ℕ) : F × F :=
  let low := index &&& w.lowMask
  let eqLow := w.eqLow.getD low 0
  if eqLow = 0 then (0, 0) else (eqLow, w.evalHigh (index >>> w.lowBits))

def eval (w : OffsetEqWindow F) (index : ℕ) : F :=
  let (eqLow, eqHigh) := w.evalFactors index
  if eqLow = 0 then 0 else eqLow * eqHigh

end OffsetEqWindow

/-- `AmortizedOffsetEq::eval`: the window when one was prepared, else the scalar primitive. -/
def amortizedEval (challenges : List F) (window : Option (OffsetEqWindow F)) (index : ℕ) : F :=
  match window with
  | some window => window.eval index
  | none => eqEvalAtIndex challenges index

def prepareForProduct (challenges : List F) (window : Option (OffsetEqWindow F)) (families rows carries : ℕ) :
    Result (Option (OffsetEqWindow F)) :=
  match window with
  | some window => return some window
  | none => do
    let evaluations ← okOr (Checked.product [families, rows, carries]) (.invalidInput "affine high work overflow")
    OffsetEqWindow.newIfAmortized rt challenges evaluations

end

/-!
## Prefixes of equality tables

`evals_prefix` and `prefix_sum` of `akita-algebra/src/eq_poly.rs`: the first entries of a table through its halves,
and their sum without a table.
-/

variable {F : Type} [Field F] (rt : Runtime)

namespace EqPolynomial

def evalsPrefix (r : List F) (len : ℕ) : Result (List F) := do
  let split ← SplitEqEvals.new rt r
  ensure (len ≤ split.len) (.invalidSize split.len len)
  (List.range len).mapM split.evalAt

/-- The bits of the bound from the most significant one on: a set bit adds the half below it. -/
def prefixSum (r : List F) (len : ℕ) : Result F := do
  let tableLen ← tableLen r.length
  ensure (len ≤ tableLen) (.invalidSize tableLen len)
  if len = tableLen then return 1
  else
    let (below, _) := (List.range r.length).reverse.foldl (fun (state : F × F) bit =>
      let (below, equalPrefix) := state
      let (left, right) := splitLagrangeParent equalPrefix (r.getD bit 0)
      if (len >>> bit) &&& 1 = 1 then (below + left, right) else (below, left)) (0, 1)
    return below

end EqPolynomial

end

/-!
## Split equality with a running scalar

`akita-algebra/src/split_eq.rs` and the cached tables of `eq_poly.rs`: the equality
polynomial of a point as a scalar of the bound variables, the linear factor of the current
one and the tables of the two halves of the others, which shrink by a level a round.
-/

variable {F : Type} [Field F] (rt : Runtime)

namespace EqPolynomial

/-- The checks and the allocations of `evals_cached_with_scaling`, which read the length alone. -/
def reserveCachedTables (F : Type) [Field F] (numVars : ℕ) : Result Unit := do
  let finalLen ← tableLen numVars
  let totalLen ← okOr ((checkedMul usizeBits finalLen 2).bind (checkedSub · 1))
    (.invalidInput "cached eq table total length overflow")
  checkElementBudget rt "cached eq tables" totalLen
  let _ ← (List.range (numVars + 1)).mapM fun layer =>
    zeroVec (F := F) rt "cached eq table layer" (2 ^ layer)
  return ()

/-- The layers of the coordinates still to be split, the last coordinate first. -/
def cachedLayers (layer : List F) : List F → List (List F)
  | [] => [layer]
  | coordinate :: rest =>
    layer :: cachedLayers (layer.flatMap fun parent =>
        let (left, right) := splitLagrangeParent parent coordinate
        [left, right]) rest

def evalsCached (r : List F) : Result (List (List F)) := do
  reserveCachedTables rt F r.length
  return cachedLayers [1] r.reverse

end EqPolynomial

structure GruenSplitEq (F : Type) where
  tau : List F
  currentRound : ℕ
  currentScalar : F
  eFirst : List (List F)
  eSecond : List (List F)

namespace GruenSplitEq

def withInitialScalar (tau : List F) (initialScalar : F) : Result (GruenSplitEq F) := do
  let n := tau.length
  ensure (n ≠ 0) (.invalidSize 1 0)
  let m := (n - 1) / 2
  let split := 1 + m
  let eFirst ← EqPolynomial.evalsCached rt ((tau.take split).drop 1)
  let eSecond ← EqPolynomial.evalsCached rt (tau.drop split)
  return { tau, currentRound := 0, currentScalar := initialScalar, eFirst, eSecond }

def new (tau : List F) : Result (GruenSplitEq F) := withInitialScalar rt tau 1

variable (s : GruenSplitEq F)

def currentTau : F := s.tau.getD s.currentRound 0

def remainingEqTables : List F × List F := (s.eFirst.getLastD [], s.eSecond.getLastD [])

def bind (r : F) : GruenSplitEq F :=
  let tauK := s.currentTau
  { s with
    currentScalar := s.currentScalar * (tauK * r + (1 - tauK) * (1 - r))
    currentRound := s.currentRound + 1
    eFirst := if s.eFirst.length > 1 then s.eFirst.dropLast else s.eFirst
    eSecond := if ¬ s.eFirst.length > 1 ∧ s.eSecond.length > 1 then s.eSecond.dropLast else s.eSecond }

/-- Linear eq-factor evaluations `(l(0), l(1))` for the current round. -/
def linearFactorEvals : F × F :=
  let lAt1 := s.currentScalar * s.currentTau
  (s.currentScalar - lAt1, lAt1)

@[simp] theorem bind_currentRound (r : F) : (s.bind r).currentRound = s.currentRound + 1 := rfl

end GruenSplitEq

namespace EqPolynomial

variable {rt} in
/-- Whether the cached tables can be built is a matter of the number of coordinates. -/
theorem evalsCached_of_length {r : List F} (r' : List F) {tables : List (List F)} (h : evalsCached rt r = .ok tables)
    (hlen : r'.length = r.length) : evalsCached rt r' = .ok (cachedLayers [1] r'.reverse) := by
  simp only [evalsCached, bind_eq_ok] at h
  obtain ⟨u, hresv, -⟩ := h
  simp only [evalsCached, hlen, hresv]
  rfl

end EqPolynomial

namespace GruenSplitEq

variable {rt} {tau tau' : List F} {s : GruenSplitEq F}

theorem new_ok (h : new rt tau = .ok s) : s.tau = tau ∧ s.currentRound = 0 ∧ 0 < tau.length := by
  simp only [new, withInitialScalar, bind_eq_ok, ensure_eq_ok, pure_eq_ok] at h
  obtain ⟨-, hn, -, -, -, -, rfl⟩ := h
  exact ⟨rfl, rfl, Nat.pos_of_ne_zero hn⟩

theorem new_of_length (h : new rt tau = .ok s) (hlen : tau'.length = tau.length) : ∃ s', new rt tau' = .ok s' := by
  simp only [new, withInitialScalar, bind_eq_ok, ensure_eq_ok] at h
  obtain ⟨_, hn, _, hfirst, _, hsecond, -⟩ := h
  have hfirst' := EqPolynomial.evalsCached_of_length ((tau'.take (1 + (tau'.length - 1) / 2)).drop 1) hfirst
    (by simp [hlen])
  have hsecond' := EqPolynomial.evalsCached_of_length (tau'.drop (1 + (tau'.length - 1) / 2)) hsecond (by simp [hlen])
  have hn' : tau'.length ≠ 0 := by omega
  simp only [new, withInitialScalar, hfirst', hsecond', ensure, hn', ne_eq, not_false_eq_true, if_true]
  exact ⟨_, rfl⟩

end GruenSplitEq

end Akita.OffsetEq
