import Akita.Spec.FieldReduction
import Akita.Spec.OffsetEq
import Akita.Spec.Sumcheck

/-!
# Tables over an extension

What the reduction of extension openings computes on dense tables: equality tables with a map in the last layer
(`akita-algebra/src/eq_poly.rs`) and the fold of a table at a challenge, with delayed sums of products.
-/

namespace Akita.ExtensionOpening

open OffsetEq
open Sumcheck (PolyBackend)

/-! ## Field operations -/

/-- What `jolt-field` computes on `E` over `F` besides the field operations: the product by a base scalar, and
delayed sums of products, and the fold of a pair at a challenge. -/
structure ReductionField (F E : Type) where
  mulBase : E → F → E
  /-- `fold_one(&precompute(r), left, right)` -/
  foldOne : E → E → E → E
  Product : Type
  zero : Product
  add : Product → Product → Product
  mulUnreduced : E → E → Product
  mulBaseUnreduced : E → F → Product
  reduceProduct : Product → E
  sumIsExact : Bool

section

variable {F E : Type} [Field F] [Field E] [Algebra F E]

/-- A delayed sum of products, however it is cut and joined, and its value. -/
inductive ReductionField.Sums (𝔯 : ReductionField F E) : 𝔯.Product → E → Prop
  | zero : 𝔯.Sums 𝔯.zero 0
  | product (x y : E) : 𝔯.Sums (𝔯.mulUnreduced x y) (x * y)
  | base (x : E) (c : F) : 𝔯.Sums (𝔯.mulBaseUnreduced x c) (x * algebraMap F E c)
  | add {p q : 𝔯.Product} {v w : E} : 𝔯.Sums p v → 𝔯.Sums q w → 𝔯.Sums (𝔯.add p q) (v + w)

/-- The documented values: a product by a base scalar, a fold, and a delayed sum that is exact. -/
structure ReductionField.Lawful (𝔯 : ReductionField F E) : Prop where
  mulBase : ∀ x c, 𝔯.mulBase x c = x * algebraMap F E c
  foldOne : ∀ r left right, 𝔯.foldOne r left right = left + r * (right - left)
  reduceProduct : 𝔯.sumIsExact = true → ∀ p v, 𝔯.Sums p v → 𝔯.reduceProduct p = v

end

/-! ## Mapped equality tables -/

section

variable {E : Type} [Field E] (rt : Runtime)

def evalsSerialWithFinalMap (label : String) (r : List E) (initial : E) (map : E → E) : Result (List E) := do
  let size ← EqPolynomial.materializedTableLen rt label r.length
  let evals ← EqPolynomial.zeroVec rt label size
  return EqPolynomial.fillSerialWithFinalMap evals r initial map

/-- `EqPolynomial::evals_mapped_parallel_slabs`: every entry over the high variables seeds one slab. -/
def evalsMappedParallelSlabs (threads : ℕ) (r : List E) (map : E → E) : Result (List E) := do
  let finalSize ← EqPolynomial.materializedTableLen rt "mapped eq evaluation table" r.length
  let targetTasks := max (FieldReduction.saturatingMul threads 4) 1
  let targetOuterVars := Nat.log 2 targetTasks
  let outerVars := min targetOuterVars (r.length - 8)
  let lowVars := r.length - outerVars
  let slabLen := 2 ^ lowVars
  let outer ← EqPolynomial.evalsSerial rt (r.drop lowVars) none
  let out ← EqPolynomial.zeroVec rt "mapped eq evaluation table" finalSize
  return (outer.zipIdx.map fun (initial, slab) =>
    EqPolynomial.fillSerialWithFinalMap ((out.drop (slab * slabLen)).take slabLen) (r.take lowVars) initial map).flatten

/-- `EqPolynomial::evals_mapped`, with `threads` threads in the pool. -/
def evalsMapped (threads : ℕ) (r : List E) (map : E → E) : Result (List E) :=
  if rt.parallel && threads > 1 then
    if r.length < 14 then evalsSerialWithFinalMap rt "mapped eq evaluation table" r 1 map
    else if 14 ≤ r.length ∧ r.length ≤ 16 then evalsMappedParallelSlabs rt threads r map
    else do
      let out ← EqPolynomial.evals rt r
      return out.map map
  else evalsSerialWithFinalMap rt "mapped eq evaluation table" r 1 map

end

/-! ## Univariate polynomials -/

/-- `UnivariatePoly` with its constructor and its degree. -/
structure UnivariateBackend (E : Type) extends PolyBackend E where
  new : List E → UnivariatePoly
  degree : UnivariatePoly → ℕ

/-- The constructor may drop zeros at the end and keeps one coefficient. -/
structure UnivariateBackend.Lawful {E : Type} [Field E] (𝔲 : UnivariateBackend E) : Prop extends
    PolyBackend.Lawful 𝔲.toPolyBackend where
  new_ne_nil : ∀ cs, cs ≠ [] → 𝔲.coefficients (𝔲.new cs) ≠ []
  new_length_le : ∀ cs, (𝔲.coefficients (𝔲.new cs)).length ≤ cs.length
  new_eq : ∀ cs, Lib.ofCoeffs (𝔲.coefficients (𝔲.new cs)) = Lib.ofCoeffs cs
  degree_le : ∀ p, 𝔲.degree p ≤ (𝔲.coefficients p).length - 1

/-! ## Folds of dense tables -/

section

variable {F E : Type} [Field F] [Field E] (rt : Runtime) (𝔯 : ReductionField F E)

def foldPair (r : E) (evals : List E) (target : ℕ) : E :=
  𝔯.foldOne r (evals.getD (2 * target) 0) (evals.getD (2 * target + 1) 0)

def parFoldThreshold : ℕ := 2 ^ 12

/-- `fold_evals_in_place`: the serial loop writes slot `target` after it has read its pair. -/
def foldEvalsInPlace (evals : List E) (r : E) : List E :=
  let nextLen := (evals.length + 1) / 2
  if rt.parallel && nextLen ≥ parFoldThreshold then (List.range nextLen).map (foldPair 𝔯 r evals)
  else ((List.range nextLen).foldl (fun evals target => evals.set target (foldPair 𝔯 r evals target)) evals).take nextLen

end

end Akita.ExtensionOpening

/-!
## Round polynomials of split equality

`akita-algebra/src/split_eq.rs`: the tables of later rounds, the product of the linear factor of a round with an
inner polynomial, and the recovery of its linear coefficient from the claim of the round.
-/

namespace Akita.OffsetEq

open ExtensionOpening (UnivariateBackend)

variable {F : Type} [Field F] (𝔲 : UnivariateBackend F)

def mulLinear (qCoeffs : List F) (atZero slope : F) : 𝔲.UnivariatePoly := 𝔲.new <| qCoeffs.zipIdx.foldl
    (fun coeffs p => (coeffs.modify p.2 (· + p.1 * atZero)).modify (p.2 + 1) (· + p.1 * slope))
    (List.replicate (qCoeffs.length + 1) 0)

structure PreparedLinearQRecovery (F : Type) where
  atZero : F
  slope : F
  atOneInverse : F

namespace PreparedLinearQRecovery

variable (p : PreparedLinearQRecovery F)

def linearTerm (constant sumExceptLinear claim : F) : F :=
  (claim - p.atZero * constant) * p.atOneInverse - sumExceptLinear

def gruenPolyFromCoeffsExceptLinear (coefficients : List F) (claim : F) : 𝔲.UnivariatePoly :=
  match coefficients with
  | [] => 𝔲.new [0]
  | constant :: rest =>
    let sum := coefficients.foldl (· + ·) 0
    mulLinear 𝔲 (constant :: p.linearTerm constant sum claim :: rest) p.atZero p.slope

end PreparedLinearQRecovery

namespace GruenSplitEq

variable (s : GruenSplitEq F)

/-- The tables that `remaining_eq_tables` returns after `binds` more variables are bound. -/
def remainingEqTablesAfter (binds : ℕ) : Option (List F × List F) :=
  let firstLevels := s.eFirst.length - 1
  let secondLevels := s.eSecond.length - 1
  if binds ≤ firstLevels then
    some (s.eFirst.getD (firstLevels - binds) [], s.eSecond.getD secondLevels [])
  else do
    let secondLevel ← checkedSub secondLevels (binds - firstLevels)
    return (s.eFirst.getD 0 [], s.eSecond.getD secondLevel [])

def gruenMul (qPoly : 𝔲.UnivariatePoly) : 𝔲.UnivariatePoly :=
  let (atZero, atOne) := s.linearFactorEvals
  mulLinear 𝔲 (𝔲.coefficients qPoly) atZero (atOne - atZero)

variable [DecidableEq F]

def prepareLinearQRecovery : Option (PreparedLinearQRecovery F) := do
  let tau ← s.tau[s.currentRound]?
  let atOne := s.currentScalar * tau
  let atZero := s.currentScalar - atOne
  let atOneInverse ← inverse atOne
  return { atZero, slope := atOne - atZero, atOneInverse }

def tryGruenPolyFromCoeffsExceptLinear (qCoeffsExceptLinear : List F) (s0PlusS1 : F) : Option 𝔲.UnivariatePoly :=
  if qCoeffsExceptLinear.isEmpty then some (𝔲.new [0])
  else
    let (lAt0, lAt1) := s.linearFactorEvals
    if lAt0 = 0 ∧ lAt1 = 0 then some (𝔲.new [0])
    else do
      let prepared ← s.prepareLinearQRecovery
      return prepared.gruenPolyFromCoeffsExceptLinear 𝔲 qCoeffsExceptLinear s0PlusS1

end GruenSplitEq

end Akita.OffsetEq
