import Akita.Spec.Ntt
import Akita.Spec.OffsetEq
import Mathlib.Data.List.Destutter

/-!
# The mixed-radix FFT

`akita-algebra/src/fft.rs`: the stage plan of a smooth size, the in-place butterfly sweep with its
tuned kernels, and the domain that transforms, evaluates on cosets and extends. The debug assertions
of the source are checks here.
-/

namespace Akita.SetupContribution

variable {E : Type} [Field E]

/-- The loop of `field_pow`; halving ends it within `rounds = exp` rounds. -/
def fieldPowLoop : ℕ → E → E → ℕ → E
  | 0, result, _, _ => result
  | rounds + 1, result, b, exp =>
    if exp = 0 then result else fieldPowLoop rounds (if exp % 2 = 1 then result * b else result) (b * b) (exp / 2)

/-- `field_pow`, by repeated squaring. -/
def fieldPow (base : E) (exp : ℕ) : E := fieldPowLoop exp 1 base exp

end Akita.SetupContribution

namespace Akita.Fft

open Ntt (readAt writeAt)
open OffsetEq (inverse)
open SetupContribution (fieldPow)

/-- The trial divisors of `smallest_prime_factor` from `i` on. -/
def trialDivision (n i : ℕ) : ℕ :=
  if i * i ≤ n then if n % i = 0 then i else trialDivision n (i + 2) else n
termination_by n + 1 - i
decreasing_by
  have := Nat.le_mul_self i
  omega

def smallestPrimeFactor (n : ℕ) : ℕ :=
  if n ≤ 1 then n
  else match [2, 3, 5, 7, 11, 13, 17, 19, 23, 29, 31].find? (fun p => n % p = 0) with
    | some p => p
    | none => trialDivision n 37

theorem one_lt_trialDivision {n i : ℕ} (hn : 1 < n) (hi : 1 < i) : 1 < trialDivision n i := by
  fun_induction trialDivision n i with
  | case1 => assumption
  | case2 i _ _ ih => exact ih (by omega)
  | case3 => exact hn

theorem one_lt_smallestPrimeFactor {n : ℕ} (hn : 1 < n) : 1 < smallestPrimeFactor n := by
  unfold smallestPrimeFactor
  rw [if_neg (by omega)]
  split
  · next p hp =>
    have hmem := List.mem_of_find?_eq_some hp
    fin_cases hmem <;> norm_num
  · exact one_lt_trialDivision hn (by norm_num)

def factorize (n : ℕ) : List ℕ :=
  if 1 < n then smallestPrimeFactor n :: factorize (n / smallestPrimeFactor n) else []
termination_by n
decreasing_by exact Nat.div_lt_self (by omega) (one_lt_smallestPrimeFactor (by assumption))

/-- The mixed-radix digits of an index, the first factor's first. -/
def mixedDigits : List ℕ → ℕ → List ℕ
  | [], _ => []
  | f :: factors, tmp => tmp % f :: mixedDigits factors (tmp / f)

def digitReversalPermutation (n : ℕ) (factors : List ℕ) : List ℕ := (List.range n).map fun k =>
    (factors.zip (mixedDigits factors k)).foldl (fun rev digit => rev * digit.1 + digit.2) 0

variable {F : Type} [Field F] [DecidableEq F]

structure StageData (F : Type) where
  r : ℕ
  block : ℕ
  omegaRPow : List F
  twiddleTable : List F
  winograd : List F
  deriving DecidableEq, Repr

def winogradConstsForRadix (r : ℕ) (omegaRPow : List F) : Result (List F) :=
  let w (q : ℕ) : F := omegaRPow.getD q 0
  match r with
  | 5 => do
    let half ← okOr (inverse ((2 : ℕ) : F)) (.internal "2 is invertible in a non-binary field")
    let alphaHalf := (w 1 + w 4) * half
    let betaHalf := (w 2 + w 3) * half
    let gammaHalf := (w 1 - w 4) * half
    let deltaHalf := (w 2 - w 3) * half
    let abHalf := alphaHalf + betaHalf
    let gdHalf := gammaHalf + deltaHalf
    return [alphaHalf, betaHalf, gammaHalf, deltaHalf, abHalf, gdHalf]
  | 7 => do
    let pow (q : ℤ) : F := w (q % 7).toNat
    let half ← okOr (inverse ((2 : ℕ) : F)) (.internal "2 is invertible in a non-binary field")
    let alpha := [1, 2, 3].flatMap fun j : ℤ => [1, 2, 3].map fun k : ℤ => (pow (j * k) + pow (-(j * k))) * half
    let beta := [1, 2, 3].flatMap fun j : ℤ => [1, 2, 3].map fun k : ℤ => (pow (j * k) - pow (-(j * k))) * half
    return alpha ++ beta
  | _ => .ok []

/-- The first powers of `base`, times `tw`. -/
def powersFrom (base : F) : ℕ → F → List F
  | 0, _ => []
  | n + 1, tw => tw :: powersFrom base n (tw * base)

def stageData (omega : F) (n r block : ℕ) : Result (StageData F) := do
  ensure (r ≤ 8) (.internal s!"radix {r} exceeds omega_r_pow capacity (max 8)")
  let newBlock := block * r
  let omegaNewBlock := fieldPow omega (n / newBlock)
  let omegaR := fieldPow omegaNewBlock block
  let omegaRPow := (List.range' 1 (r - 1)).foldl (fun (pow : List F) q => pow.set q (pow.getD (q - 1) 0 * omegaR))
    (List.replicate 8 1)
  let winograd ← winogradConstsForRadix r omegaRPow
  return { r, block, omegaRPow, twiddleTable := powersFrom omegaNewBlock block 1, winograd }

def stagesFrom (omega : F) (n : ℕ) : List ℕ → ℕ → Result (List (StageData F))
  | [], _ => .ok []
  | r :: radices, block => do
    let stage ← stageData omega n r block
    let stages ← stagesFrom omega n radices (block * r)
    return stage :: stages

/-- `precompute_stages`: from the last factor on. -/
def precomputeStages (omega : F) (n : ℕ) (factors : List ℕ) : Result (List (StageData F)) :=
  stagesFrom omega n factors.reverse 1

/-- The twiddle factors of the lanes after the first. -/
def laneTwiddles (r : ℕ) (tw : F) : List F :=
  let tw2 := tw * tw
  match r with
  | 2 => [tw]
  | 3 => [tw, tw2]
  | 5 =>
    let tw3 := tw2 * tw
    let tw4 := tw2 * tw2
    [tw, tw2, tw3, tw4]
  | 7 =>
    let tw3 := tw2 * tw
    let tw4 := tw2 * tw2
    let tw5 := tw4 * tw
    let tw6 := tw3 * tw3
    [tw, tw2, tw3, tw4, tw5, tw6]
  | _ => powersFrom tw (r - 1) tw

/-- The radix-three DFT of the lanes `x`, from the powers of the root. -/
def dft3 (x w : ℕ → F) : List F :=
  let s := x 1 + x 2
  let t := x 1 * w 1 + x 2 * w 2
  [x 0 + s, x 0 + t, x 0 - s - t]

/-- The radix-five DFT of the lanes `x`, from its constants. -/
def dft5 (x cc : ℕ → F) : List F :=
  let a := x 1 + x 4
  let b := x 2 + x 3
  let c := x 1 - x 4
  let d := x 2 - x 3
  let k1 := a * cc 0
  let k2 := b * cc 1
  let k3 := (a + b) * cc 4
  let p1 := k1 + k2
  let p2 := k3 - k1 - k2
  let m1 := c * cc 2
  let m2 := d * cc 3
  let m3 := (c - d) * cc 5
  let q1 := m1 + m2
  let q2 := m3 - m1 + m2
  [x 0 + a + b, x 0 + p1 + q1, x 0 + p2 + q2, x 0 + p2 - q2, x 0 + p1 - q1]

/-- The radix-seven DFT of the lanes `x`, from its constants. -/
def dft7 (x cc : ℕ → F) : List F :=
  let a1 := x 1 + x 6
  let a2 := x 2 + x 5
  let a3 := x 3 + x 4
  let b1 := x 1 - x 6
  let b2 := x 2 - x 5
  let b3 := x 3 - x 4
  let s1 := a1 * cc 0 + a2 * cc 3 + a3 * cc 6
  let s2 := a1 * cc 1 + a2 * cc 4 + a3 * cc 7
  let s3 := a1 * cc 2 + a2 * cc 5 + a3 * cc 8
  let t1 := b1 * cc 9 + b2 * cc 12 + b3 * cc 15
  let t2 := b1 * cc 10 + b2 * cc 13 + b3 * cc 16
  let t3 := b1 * cc 11 + b2 * cc 14 + b3 * cc 17
  [x 0 + a1 + a2 + a3, x 0 + s1 + t1, x 0 + s2 + t2, x 0 + s3 + t3, x 0 + s3 - t3, x 0 + s2 - t2, x 0 + s1 - t1]

/-- The size-`r` DFT of a butterfly, in output order. -/
def kernel (stage : StageData F) (lanes : List F) : Result (List F) :=
  let x (i : ℕ) : F := lanes.getD i 0
  let w (q : ℕ) : F := stage.omegaRPow.getD q 0
  let cc (i : ℕ) : F := stage.winograd.getD i 0
  match stage.r with
  | 2 => .ok [x 0 + x 1, x 0 - x 1]
  | 3 => .ok (dft3 x w)
  | 5 => do
    ensure (stage.winograd.length = 6) (.internal "assertion failed: cc.len() == 6")
    return dft5 x cc
  | 7 => do
    ensure (stage.winograd.length = 18) (.internal "assertion failed: cc.len() == 18")
    return dft7 x cc
  | r => .ok ((stage.omegaRPow.take r).map fun wq =>
      ((lanes.drop 1).foldl (fun (state : F × F) xp => (state.1 + xp * state.2, state.2 * wq)) (x 0, wq)).1)

/-- One butterfly: gather the lanes, twiddle all but the first, transform and scatter. -/
def butterfly (stage : StageData F) (groupStart : ℕ) (buf : List F) (entry : F × ℕ) : Result (List F) := do
  let base := groupStart + entry.2
  ensure (stage.r ≤ 8) (.internal "range end index out of range for slice of length 8")
  let x ← (List.range stage.r).mapM fun ki => readAt buf (base + ki * stage.block)
  let x := if entry.2 > 0 then x.take 1 ++ List.zipWith (· * ·) (x.drop 1) (laneTwiddles stage.r entry.1) else x
  let y ← kernel stage x
  y.zipIdx.foldlM (fun buf out => writeAt buf (base + out.2 * stage.block) out.1) buf

/-- One stage: `group_start` steps by the new block, the butterflies run over the twiddle table. -/
def butterflyStage (n : ℕ) (buf : List F) (stage : StageData F) : Result (List F) :=
  let newBlock := stage.block * stage.r
  (List.range ((n + newBlock - 1) / newBlock)).foldlM (fun buf group =>
    stage.twiddleTable.zipIdx.foldlM (butterfly stage (group * newBlock)) buf) buf

structure FftWorkspace (F : Type) where
  n : ℕ
  bufA : List F
  bufB : List F
  deriving DecidableEq, Repr

namespace FftWorkspace

def new (n : ℕ) : FftWorkspace F := { n, bufA := List.replicate n 0, bufB := List.replicate n 0 }

/-- The permutation into `buf_a` and the `butterfly_stages` on it. -/
def sweep (ws : FftWorkspace F) (input : List F) (stages : List (StageData F)) (digitRev : List ℕ) :
    Result (List F × FftWorkspace F) := do
  let bufA ← digitRev.zipIdx.foldlM (fun bufA entry => do writeAt bufA entry.1 (← readAt input entry.2)) ws.bufA
  let bufA ← stages.foldlM (butterflyStage ws.n) bufA
  return (bufA.take ws.n, { ws with bufA })

def execute (ws : FftWorkspace F) (input : List F) (stages : List (StageData F)) (digitRev : List ℕ) :
    Result (List F × FftWorkspace F) := do
  ensure (input.length = ws.n) (.internal "assertion failed: input.len() == n")
  ws.sweep input stages digitRev

def executeFromB (ws : FftWorkspace F) (stages : List (StageData F)) (digitRev : List ℕ) : Result (List F × FftWorkspace F) :=
  ws.sweep ws.bufB stages digitRev

/-- The coefficients twisted by the powers of `shift`, written to the front of `buf_b`. -/
def twist (ws : FftWorkspace F) (coeffs : List F) (shift : F) : Result (FftWorkspace F) := do
  let last ← coeffs.zipIdx.foldlM (fun (state : List F × F) entry => do
    let buf ← writeAt state.1 entry.2 (entry.1 * state.2)
    return (buf, state.2 * shift)) (ws.bufB, 1)
  return { ws with bufB := last.1 }

end FftWorkspace

def isPrimitiveNthRoot (omega : F) (n : ℕ) (distinctFactors : List ℕ) : Bool :=
  if fieldPow omega n ≠ 1 then false else distinctFactors.all fun q => decide (fieldPow omega (n / q) ≠ 1)

/-- `distinct_prime_factors`: sorted, with consecutive repetitions removed. -/
def distinctPrimeFactors (n : ℕ) : List ℕ := ((factorize n).mergeSort (· ≤ ·)).destutter (· ≠ ·)

def debugAssertPrimitiveNthRoot (omega : F) (n : ℕ) : Result Unit :=
  let factors := distinctPrimeFactors n
  ensure (isPrimitiveNthRoot omega n factors = true) (.internal
    ("omega is not a primitive " ++ toString n ++ "-th root of unity (n's prime factors: " ++ toString factors ++ ")"))

structure SmoothDomain (F : Type) where
  n : ℕ
  omega : F
  nInv : F
  digitRev : List ℕ
  fwdStages : List (StageData F)
  invStages : List (StageData F)
  deriving DecidableEq, Repr

namespace SmoothDomain

def new (omega : F) (n : ℕ) : Result (SmoothDomain F) := do
  debugAssertPrimitiveNthRoot omega n
  let omegaInv ← okOr (inverse omega) (.internal "omega must be nonzero")
  let nInv ← okOr (inverse (n : F)) (.internal "n must be invertible in field")
  let factors := factorize n
  let digitRev := digitReversalPermutation n factors
  let fwdStages ← precomputeStages omega n factors
  let invStages ← precomputeStages omegaInv n factors
  return { n, omega, nInv, digitRev, fwdStages, invStages }

variable (domain : SmoothDomain F)

/-- A length that `assert_eq!` compares. -/
def ensureLen (length n : ℕ) : Result Unit := ensure (length = n) (.internal "assertion `left == right` failed")

def forward (input : List F) : Result (List F) := do
  ensureLen input.length domain.n
  let out ← (FftWorkspace.new domain.n).execute input domain.fwdStages domain.digitRev
  return out.1

def inverse (input : List F) : Result (List F) := do
  ensureLen input.length domain.n
  let out ← (FftWorkspace.new domain.n).execute input domain.invStages domain.digitRev
  return out.1.map (· * domain.nInv)

/-- `forward_into`: the new output and the workspace after the call. -/
def forwardInto (input output : List F) (workspace : FftWorkspace F) : Result (List F × FftWorkspace F) := do
  ensureLen input.length domain.n
  ensureLen output.length domain.n
  ensureLen workspace.n domain.n
  let out ← workspace.execute input domain.fwdStages domain.digitRev
  ensure (output.length = out.1.length) (.internal "copy_from_slice: source slice length does not match destination slice length")
  return out

/-- `inverse_into`: the new output and the workspace after the call. -/
def inverseInto (input output : List F) (workspace : FftWorkspace F) : Result (List F × FftWorkspace F) := do
  ensureLen input.length domain.n
  ensureLen output.length domain.n
  ensureLen workspace.n domain.n
  let out ← workspace.execute input domain.invStages domain.digitRev
  ensure (output.length = out.1.length) (.internal "copy_from_slice: source slice length does not match destination slice length")
  return (out.1.map (· * domain.nInv), out.2)

/-- `coset_forward`. The tail of `buf_b` past the coefficients is zeroed. -/
def cosetForward (coeffs : List F) (shift : F) : Result (List F) := do
  ensure (coeffs.length ≤ domain.n) (.internal "assertion failed: coeffs.len() <= self.n")
  let ws ← (FftWorkspace.new domain.n).twist coeffs shift
  let ws := { ws with bufB := ws.bufB.mapIdx fun i v => if coeffs.length ≤ i then 0 else v }
  let out ← ws.executeFromB domain.fwdStages domain.digitRev
  return out.1

/-- `rs_extend_batch`. The capacity of the output is `k * (blowup - 1)`. -/
def rsExtendBatch (evals : List F) (omegaN : F) (blowup : ℕ) : Result (List F) := do
  ensureLen evals.length domain.n
  let out ← (FftWorkspace.new domain.n).execute evals domain.invStages domain.digitRev
  let coeffs := out.1.map (· * domain.nInv)
  ensure (1 ≤ blowup) (.internal "attempt to subtract with overflow")
  let last ← (List.range' 1 (blowup - 1)).foldlM (fun (state : FftWorkspace F × List F) j => do
    let ws ← state.1.twist coeffs (fieldPow omegaN j)
    let result ← ws.executeFromB domain.fwdStages domain.digitRev
    return (result.2, state.2 ++ result.1)) (out.2, [])
  return last.2

end SmoothDomain

end Akita.Fft
