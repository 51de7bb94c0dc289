import Akita.Spec.Error

/-!
# Number-theoretic transforms

`akita-algebra/src/ntt`: the arithmetic of a prime, the transforms over it, and the limbs that bring a
field coefficient to it.
-/

/-!
## NTT prime arithmetic

`akita-algebra/src/ntt/prime.rs`: the Montgomery constants of a prime and its kernels, for the two
coefficient widths. A machine integer is an integer; `keep` says how an operation keeps its exact
result in a number of bits, so that the wrapping arithmetic of the source and one that traps on
every overflow are the same program.
-/

namespace Akita.Ntt

section

def overflowed : AkitaError := .internal "attempt to compute with overflow"

/-- A plain `i64` operation. -/
def i64 (v : ℤ) : Result ℤ := okOr (checkedI64 v) overflowed

/-- `a[index]`: an index out of bounds panics. -/
def readAt {α : Type} (a : List α) (index : ℕ) : Result α := okOr a[index]? (.internal "index out of bounds")

/-- `a[index] = value`: an index out of bounds panics. -/
def writeAt {α : Type} (a : List α) (index : ℕ) (value : α) : Result (List α) :=
  if index < a.length then .ok (a.set index value) else .error (.internal "index out of bounds")

inductive PrimeWidth
  | i16
  | i32
  deriving DecidableEq, Repr

/-- `R_LOG`: log2(R) for Montgomery reduction, the bits of the width. -/
def PrimeWidth.rLog : PrimeWidth → ℕ
  | .i16 => 16
  | .i32 => 32

/-- Keep the exact value of an operation in so many bits. -/
abbrev Keep := ℕ → ℤ → Result ℤ

/-- The operations of the source: casts truncate and sums wrap. -/
def wrapped : Keep := fun bits v => .ok (v.bmod (2 ^ bits))

/-- Operations that fail when the exact value does not fit. -/
def trapped : Keep := fun bits v => if -2 ^ (bits - 1) ≤ v ∧ v < 2 ^ (bits - 1) then .ok v else .error overflowed

/-- `from_i64`, which truncates. -/
def PrimeWidth.fromI64 (W : PrimeWidth) (v : ℤ) : ℤ := v.bmod (2 ^ W.rLog)

structure NttPrime (W : PrimeWidth) where
  p : ℤ
  pinv : ℤ
  mont : ℤ
  montsq : ℤ
  deriving DecidableEq, Repr

/-- The Newton step of `compute`, in wrapping `i64` arithmetic. -/
def newtonStep (p pinv : ℤ) : ℤ := (pinv * (2 - (p * pinv).bmod (2 ^ 64)).bmod (2 ^ 64)).bmod (2 ^ 64)

namespace NttPrime

variable {W : PrimeWidth}

def compute (W : PrimeWidth) (p : ℤ) : NttPrime W :=
  let pinv := (newtonStep p)^[5] 1
  let half := p / 2
  let center (x : ℤ) : ℤ := W.fromI64 (if x > half then x - p else x)
  { p
    pinv := W.fromI64 pinv
    mont := center (2 ^ W.rLog % p)
    montsq := center (2 ^ (2 * W.rLog) % p) }

variable (keep : Keep) (prime : NttPrime W)

/-- `mont_mul_raw`. The low half and its product with `pinv` are reduced modulo `R` on purpose. -/
def montMulRaw (a b : ℤ) : Result ℤ := do
  let c ← keep (2 * W.rLog) (a * b)
  let t := (W.fromI64 c * prime.pinv).bmod (2 ^ W.rLog)
  let tp ← keep (2 * W.rLog) (t * prime.p)
  let diff ← keep (2 * W.rLog) (c - tp)
  keep W.rLog (diff / 2 ^ W.rLog)

/-- `mul`: the Montgomery product. -/
def mul (a b : ℤ) : Result ℤ := prime.montMulRaw keep a b

/-- `csubp`: subtract `p` if `a >= p`. -/
def csubp (a : ℤ) : Result ℤ :=
  let diff := a - prime.p
  keep W.rLog (diff + if diff < 0 then prime.p else 0)

/-- `caddp`: add `p` if `a < 0`. -/
def caddp (a : ℤ) : Result ℤ := keep W.rLog (a + if a < 0 then prime.p else 0)

/-- `reduce_range`: from `(-2p, 2p)` to `(-p, p)`. -/
def reduceRange (a : ℤ) : Result ℤ := do prime.caddp keep (← prime.csubp keep a)

def fromCanonical (a : ℤ) : Result ℤ := prime.montMulRaw keep a prime.montsq

end NttPrime

/-!
## The negacyclic and cyclic NTT

`akita-algebra/src/ntt/butterfly.rs`: the twiddle tables of a prime and the scalar transforms, in
place on raw Montgomery values. The tables that only the vector kernels read are left out.
-/

/-- The loop of `pow_mod`. -/
def powLoop (mul : ℤ → ℤ → Result ℤ) (result base : ℤ) (exp : ℕ) : Result ℤ :=
  if exp = 0 then .ok result
  else do
    let result ← if exp % 2 = 1 then mul result base else .ok result
    powLoop mul result (← mul base base) (exp / 2)
termination_by exp

/-- `pow_mod`. Products of residues below `2^31` fit `i64`; wider moduli take `i128`. -/
def powMod (base exp modulus : ℤ) : Result ℤ :=
  if modulus < 2 ^ 31 then
    powLoop (fun lhs rhs => do return (← i64 (lhs * rhs)).tmod modulus) 1 (base.tmod modulus) exp.toNat
  else powLoop (fun lhs rhs => .ok (((lhs * rhs).tmod modulus).bmod (2 ^ 64))) 1 (base.tmod modulus) exp.toNat

/-- The search of `find_primitive_root_2d` among candidates. -/
def searchRoot (p half exp : ℤ) (d : ℕ) : List ℕ → Result ℤ
  | [] => .error (.internal s!"no primitive root found for p={p}")
  | a :: candidates => do
    if (← powMod a half p) = p - 1 then
      let psi ← powMod a exp p
      ensure ((← powMod psi d p) = p - 1) (.internal "psi^D != -1")
      return psi
    else searchRoot p half exp d candidates

def findPrimitiveRoot2d (p : ℤ) (d : ℕ) : Result ℤ :=
  searchRoot p ((p - 1) / 2) ((p - 1) / (2 * d)) d (List.range' 2 (p - 2).toNat)

structure NttTwiddles where
  fwdWlen : List ℤ
  invWlen : List ℤ
  psiPows : List ℤ
  psiInvPows : List ℤ
  dInvPsiInv : List ℤ
  fwdTwiddles : List ℤ
  invTwiddles : List ℤ
  dInv : ℤ
  numStages : ℕ
  deriving DecidableEq, Repr

variable {W : PrimeWidth} (keep : Keep) (prime : NttPrime W)

namespace NttTwiddles

/-- The powers of `psi` and of its inverse, from the current ones on. -/
def psiLoop (psi psiInv : ℤ) : ℕ → ℤ → ℤ → Result (List ℤ × List ℤ)
  | 0, _, _ => .ok ([], [])
  | left + 1, cur, curInv => do
    let psiPow ← prime.fromCanonical keep (W.fromI64 cur)
    let psiInvPow ← prime.fromCanonical keep (W.fromI64 curInv)
    let next ← i64 (cur * psi)
    let nextInv ← i64 (curInv * psiInv)
    let rest ← psiLoop psi psiInv left (next.tmod prime.p) (nextInv.tmod prime.p)
    return (psiPow :: rest.1, psiInvPow :: rest.2)

/-- The stage roots, from the stage of half-length `len` on, and the number of stages. -/
def wlenLoop (D : ℕ) (omega omegaInv : ℤ) (len stage : ℕ) (fwdWlen invWlen : List ℤ) : Result (List ℤ × List ℤ × ℕ) :=
  -- `len` starts at one
  if len < D ∧ 0 < len then do
    let exp := D / (2 * len)
    let fwdWlen ← writeAt fwdWlen stage (← prime.fromCanonical keep (W.fromI64 (← powMod omega exp prime.p)))
    let invWlen ← writeAt invWlen stage (← prime.fromCanonical keep (W.fromI64 (← powMod omegaInv exp prime.p)))
    wlenLoop D omega omegaInv (2 * len) (stage + 1) fwdWlen invWlen
  else .ok (fwdWlen, invWlen, stage)
termination_by D - len

/-- The state of the twiddle loop. -/
structure Packing where
  fwd : List ℤ
  inv : List ℤ
  wFwd : ℤ
  wInv : ℤ

def packStage (fwdWlen invWlen : List ℤ) (one : ℤ) (tables : List ℤ × List ℤ) (s : ℕ) : Result (List ℤ × List ℤ) := do
  let len := 2 ^ s
  let base := len - 1
  let last ← (List.range len).foldlM (fun (st : Packing) j => do
    let fwd ← writeAt st.fwd (base + j) st.wFwd
    let inv ← writeAt st.inv (base + j) st.wInv
    let wFwd ← prime.mul keep st.wFwd (← readAt fwdWlen s)
    let wInv ← prime.mul keep st.wInv (← readAt invWlen s)
    return { fwd, inv, wFwd, wInv }) { fwd := tables.1, inv := tables.2, wFwd := one, wInv := one }
  return (last.fwd, last.inv)

def compute (D : ℕ) : Result NttTwiddles := do
  ensure D.isPowerOfTwo (.internal "D must be a power of two")
  let p := prime.p
  ensure ((p - 1).tmod (2 * D) = 0) (.internal "2D must divide p - 1 for NTT roots to exist")
  let psi ← findPrimitiveRoot2d p D
  let omega := (← i64 (psi * psi)).tmod p
  let omegaInv ← powMod omega (p - 2) p
  let psiInv ← powMod psi (p - 2) p
  let pows ← psiLoop keep prime psi psiInv D 1 1
  let wlen ← wlenLoop keep prime D omega omegaInv 1 0 (List.replicate D 0) (List.replicate D 0)
  let dInvCanonical ← powMod D (p - 2) p
  let dInv ← prime.fromCanonical keep (W.fromI64 dInvCanonical)
  let dInvPsiInv ← pows.2.mapM fun psiInvPow => prime.mul keep dInv psiInvPow
  let one ← prime.fromCanonical keep (W.fromI64 1)
  let packed ← (List.range wlen.2.2).foldlM (packStage keep prime wlen.1 wlen.2.1 one) (List.replicate D 0, List.replicate D 0)
  return {
    fwdWlen := wlen.1
    invWlen := wlen.2.1
    psiPows := pows.1
    psiInvPows := pows.2
    dInvPsiInv
    fwdTwiddles := packed.1
    invTwiddles := packed.2
    dInv
    numStages := wlen.2.2 }

end NttTwiddles

variable (tw : NttTwiddles)

def forwardButterfly (len start : ℕ) (a : List ℤ) (j : ℕ) : Result (List ℤ) := do
  let w ← readAt tw.fwdTwiddles (len - 1 + j)
  let u ← readAt a (start + j)
  let v ← readAt a (start + j + len)
  let sum ← keep W.rLog (u + v)
  let diff ← keep W.rLog (u - v)
  let a ← writeAt a (start + j) (← prime.reduceRange keep sum)
  writeAt a (start + j + len) (← prime.mul keep diff w)

def inverseButterfly (len start : ℕ) (a : List ℤ) (j : ℕ) : Result (List ℤ) := do
  let w ← readAt tw.invTwiddles (len - 1 + j)
  let u ← readAt a (start + j)
  let v ← prime.mul keep (← readAt a (start + j + len)) w
  let sum ← keep W.rLog (u + v)
  let diff ← keep W.rLog (u - v)
  let a ← writeAt a (start + j) (← prime.reduceRange keep sum)
  writeAt a (start + j + len) (← prime.reduceRange keep diff)

/-- One stage: `start` runs over the multiples of `2 len` below `D`, `j` over the half-length. -/
def stage (butterfly : ℕ → ℕ → List ℤ → ℕ → Result (List ℤ)) (D len : ℕ) (a : List ℤ) : Result (List ℤ) :=
  (List.range ((D + 2 * len - 1) / (2 * len))).foldlM (fun a block =>
    (List.range len).foldlM (butterfly len (block * (2 * len))) a) a

/-- `while len > 0`, with `len` halved. -/
def forwardStages (D len : ℕ) (a : List ℤ) : Result (List ℤ) :=
  if len = 0 then .ok a
  else do
    let a ← stage (forwardButterfly keep prime tw) D len a
    forwardStages D (len / 2) a
termination_by len

/-- `while len < D`, with `len` doubled. -/
def inverseStages (D len : ℕ) (a : List ℤ) : Result (List ℤ) :=
  -- `len` starts at one
  if len < D ∧ 0 < len then do
    let a ← stage (inverseButterfly keep prime tw) D len a
    inverseStages D (2 * len) a
  else .ok a
termination_by D - len

def forwardNtt (D : ℕ) (a : List ℤ) : Result (List ℤ) := do
  let a ← (a.zip tw.psiPows).mapM fun entry => prime.mul keep entry.1 entry.2
  let a ← forwardStages keep prime tw D (D / 2) a
  a.mapM (prime.reduceRange keep)

def inverseNtt (D : ℕ) (a : List ℤ) : Result (List ℤ) := do
  let a ← inverseStages keep prime tw D 1 a
  (a.zip tw.dInvPsiInv).mapM fun entry => prime.mul keep entry.1 entry.2

def forwardNttCyclic (D : ℕ) (a : List ℤ) : Result (List ℤ) := do
  let a ← forwardStages keep prime tw D (D / 2) a
  a.mapM (prime.reduceRange keep)

def inverseNttCyclic (D : ℕ) (a : List ℤ) : Result (List ℤ) := do
  let a ← inverseStages keep prime tw D 1 a
  a.mapM fun c => prime.mul keep c tw.dInv

def pointwiseMul (a b : List ℤ) : Result (List ℤ) :=
  (a.zip b).mapM fun entry => prime.mul keep entry.1 entry.2

end

/-!
## Field limbs

`akita-algebra/src/ntt/field_limbs.rs`, `ntt/montgomery.rs` and the centered reducer of
`ring/crt_ntt_repr/lut.rs`: two limb systems for centered field coefficients, each reduced modulo an
NTT prime by signed 32-bit Montgomery steps. A plain `i64` operation that overflows is an error.
-/

def limbBits : ℕ := 26

def limbMask : ℕ := 2 ^ limbBits - 1

def maxFieldLimbs : ℕ := 5

/-- `inverse_i32`: four Newton steps in wrapping `u32` arithmetic. -/
def inverseI32 (p : ℤ) : ℤ :=
  let p := p % 2 ^ 32
  ((fun inverse => inverse * ((2 - p * inverse % 2 ^ 32) % 2 ^ 32) % 2 ^ 32)^[4] p).bmod (2 ^ 32)

def reduceI32 (t p pinv : ℤ) : Result ℤ := do
  let m := (t.bmod (2 ^ 32) * pinv).bmod (2 ^ 32)
  let diff ← i64 (t - (← i64 (m * p)))
  return (diff / 2 ^ 32).bmod (2 ^ 32)

structure FieldLimbScales where
  p : ℤ
  pinv : ℤ
  scales : List ℤ
  deriving DecidableEq, Repr

def FieldLimbScales.new (W : PrimeWidth) (prime : NttPrime W) : Result FieldLimbScales := do
  let p := prime.p
  let scales ← (List.range maxFieldLimbs).mapM fun j => do
    let exponent := limbBits * j + W.rLog + 32
    let residue ← (List.range exponent).foldlM (fun x _ => do return (← i64 (2 * x)).tmod p) 1
    return (if residue > p / 2 then residue - p else residue).bmod (2 ^ 32)
  return { p := p.bmod (2 ^ 32), pinv := inverseI32 (p.bmod (2 ^ 32)), scales }

def FieldLimbScales.reduce (scales : FieldLimbScales) (limbs : List ℤ) : Result ℤ := do
  let t ← (limbs.zip scales.scales).foldlM (fun sum entry => do i64 (sum + (← i64 (entry.1 * entry.2)))) 0
  reduceI32 t scales.p scales.pinv

structure FieldModulusLimbs where
  half : ℕ
  limbs : List ℤ
  len : ℕ
  deriving DecidableEq, Repr

/-- `slices`: the 26-bit slices of `x`, cut from its 32-bit words. -/
def slices (x : ℕ) : List ℕ :=
  let w0 := wrapping 32 x
  let w1 := wrapping 32 (x >>> 32)
  let w2 := wrapping 32 (x >>> 64)
  let w3 := wrapping 32 (x >>> 96)
  [ w0 &&& limbMask,
    (w0 >>> 26 ||| wrapping 32 (w1 <<< 6)) &&& limbMask,
    (w1 >>> 20 ||| wrapping 32 (w2 <<< 12)) &&& limbMask,
    (w2 >>> 14 ||| wrapping 32 (w3 <<< 18)) &&& limbMask,
    w3 >>> 8 ]

def FieldModulusLimbs.new (modulus : ℕ) : FieldModulusLimbs :=
  { half := modulus / 2
    limbs := (slices modulus).map fun (slice : ℕ) => (slice : ℤ).bmod (2 ^ 32)
    len := max 1 (min ((modulus.size + limbBits - 1) / limbBits) maxFieldLimbs) }

def centeredLimbs (L : ℕ) (modulus : FieldModulusLimbs) (coefficient : ℕ) : List ℤ :=
  (List.range L).map fun j => ((slices coefficient).getD j 0 : ℤ).bmod (2 ^ 32) -
    if coefficient > modulus.half then modulus.limbs.getD j 0 else 0

/-- `field_residues`: the residues of canonical coefficients, written from column `start` on. -/
def fieldResidues (W : PrimeWidth) (L : ℕ) (out : List (List ℤ)) (start : ℕ) (canonical : List ℕ)
    (modulus : FieldModulusLimbs) (scales : List FieldLimbScales) : Result (List (List ℤ)) :=
  canonical.zipIdx.foldlM (fun out coefficient => do
    let limbs := centeredLimbs L modulus coefficient.1
    (out.zip scales).mapM fun entry => do
      writeAt entry.1 (start + coefficient.2) (W.fromI64 (← entry.2.reduce limbs))) out

structure CenteredMontReducer where
  p : ℤ
  pinv : ℤ
  scale : List ℤ
  deriving DecidableEq, Repr

namespace CenteredMontReducer

/-- The scale loop of `new` from `power` on. -/
def scaleLoop (p two32 : ℤ) : ℕ → ℤ → Result (List ℤ)
  | 0, _ => .ok []
  | left + 1, power => do
    let centered := if power > p / 2 then power - p else power
    let power ← i64 (power * two32)
    let rest ← scaleLoop p two32 left (power.tmod p)
    return centered :: rest

def new (W : PrimeWidth) (prime : NttPrime W) : Result CenteredMontReducer := do
  let p := prime.p
  let two32 := (2 ^ 32 : ℤ).tmod p
  let power := (2 ^ (W.rLog + 32) : ℤ).tmod p
  let scale ← scaleLoop p two32 4 power
  return { p, pinv := inverseI32 (p.bmod (2 ^ 32)), scale }

variable (reducer : CenteredMontReducer)

def redc (t : ℤ) : Result ℤ := Ntt.reduceI32 t (reducer.p.bmod (2 ^ 32)) reducer.pinv

/-- `reduce_i32`: the Montgomery form of `value`. -/
def reduceI32 (W : PrimeWidth) (value : ℤ) : Result ℤ := do
  return W.fromI64 (← reducer.redc (← i64 (value * reducer.scale.getD 0 0)))

/-- The sum of two scaled limbs. -/
def pairSum (limbs : List ℤ) (j : ℕ) : Result ℤ := do
  i64 ((← i64 (limbs.getD j 0 * reducer.scale.getD j 0)) + (← i64 (limbs.getD (j + 1) 0 * reducer.scale.getD (j + 1) 0)))

/-- `reduce_limbs`: the Montgomery form of the value of balanced limbs. -/
def reduceLimbs (W : PrimeWidth) (limbs : List ℤ) : Result ℤ := do
  let low ← reducer.redc (← reducer.pairSum limbs 0)
  let high ← reducer.redc (← reducer.pairSum limbs 2)
  let sum ← i64 (low + high)
  return W.fromI64 (if sum ≥ reducer.p then sum - reducer.p else if sum ≤ -reducer.p then sum + reducer.p else sum)

end CenteredMontReducer

/-- `balanced_limbs`: the low three limbs of `rest`, then the top one. -/
def balancedLimbs (value : ℤ) : List ℤ :=
  let step (state : List ℤ × ℤ) : List ℤ × ℤ :=
    let low := state.2.bmod (2 ^ 32)
    (state.1 ++ [low], state.2 / 2 ^ 32 + if low < 0 then 1 else 0)
  let last := step^[3] ([], value)
  last.1 ++ [last.2.bmod (2 ^ 64)]

end Akita.Ntt
