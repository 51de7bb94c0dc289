import Akita.Spec.Error

/-!
# Residue kernels

`akita-algebra/src/ring/residue.rs`: the values at a point of all reduced negacyclic shifts of a multiplier, by a
recurrence with a signed wrap term. The product with a base-field weight is a parameter. An index out of bounds is an
internal error, as any other panic; an allocation does not fail.
-/

namespace Akita.ResidueKernel

structure ResidueKernelPoint (E : Type) where
  alpha : E
  powers : List E
  modulusEvaluation : E

namespace ResidueKernelPoint

variable {E : Type} [Field E]

def new (alpha : E) (dimension : ℕ) : Result (ResidueKernelPoint E) := do
  ensure (¬ (dimension = 0 ∨ ¬ dimension.isPowerOfTwo))
    (.invalidInput "residue-kernel dimension must be a nonzero power of two")
  let prepared := (List.range dimension).foldl (fun state _ => (state.1 ++ [state.2], state.2 * alpha)) (([] : List E), (1 : E))
  return { alpha, powers := prepared.1, modulusEvaluation := prepared.2 + 1 }

variable (self : ResidueKernelPoint E)

def dimension : ℕ := self.powers.length

section

variable {W : Type} (multiply : E → W → E)

/-- The loop of `kernel_with_into` over the slots after the first one. -/
def wrapSlots : E → List E → List W → List E
  | current, _ :: slots, wrapWeight :: wraps =>
    let current := self.alpha * current - multiply self.modulusEvaluation wrapWeight
    current :: wrapSlots current slots wraps
  | _, slots, _ => slots

/-- `kernel_with_into`, returning what is written to the output. -/
def kernelWithInto (weights : List W) (output : List E) : Result (List E) := do
  ensure (¬ (weights.length ≠ self.dimension ∨ output.length ≠ self.dimension))
    (.invalidInput "residue-kernel buffers do not match the prepared dimension")
  let current := (weights.zip self.powers).foldl (fun sum term => sum + multiply term.2 term.1) 0
  match output with
  | [] => .error (.invalidInput "residue-kernel output is empty")
  | _ :: tail => return current :: self.wrapSlots multiply current tail (weights.reverse.take (self.dimension - 1))

def kernelWith (weights : List W) : Result (List E) :=
  self.kernelWithInto multiply weights (List.replicate self.dimension 0)

end

/-- `kernel`, with `mul_base`. -/
def kernel {F : Type} (mulBase : E → F → E) (coefficients : List F) : Result (List E) := self.kernelWith mulBase coefficients

def fieldKernel (weights : List E) : Result (List E) := self.kernelWith (fun value weight => value * weight) weights

def fieldKernelInto (weights output : List E) : Result (List E) :=
  self.kernelWithInto (fun value weight => value * weight) weights output

section

variable [DecidableEq E]

/-- The checks of `sparse_kernel` on one of the sorted terms. -/
def checkTerm (terms : List (ℕ × E)) (entry : (ℕ × E) × ℕ) : Result Unit := do
  let ((position, weight), index) := entry
  ensure (¬ position ≥ self.dimension) (.invalidInput "sparse residue-kernel position is out of range")
  ensure (weight ≠ 0) (.invalidInput "sparse residue-kernel weights must be nonzero")
  ensure (¬ (index ≠ 0 ∧ (terms[index - 1]?.map Prod.fst) = some position))
    (.invalidInput "sparse residue-kernel positions must be unique")

/-- The loop of `sparse_kernel` down from a wrap position to one; the terms below `reverseTermIndex` are not yet met. -/
def wrapTerms (terms : List (ℕ × E)) : ℕ → E → ℕ → List E
  | 0, _, _ => []
  | below + 1, current, reverseTermIndex =>
    let wrapPosition := below + 1
    let term := terms.getD (reverseTermIndex - 1) (0, 0)
    let hit := decide (reverseTermIndex ≠ 0 ∧ term.1 = wrapPosition)
    let wrapWeight := if hit then term.2 else 0
    let current := self.alpha * current - self.modulusEvaluation * wrapWeight
    current :: wrapTerms terms below current (if hit then reverseTermIndex - 1 else reverseTermIndex)

def sparseKernel (terms : List (ℕ × E)) : Result (List E) := do
  let terms := terms.mergeSort fun s t => decide (s.1 ≤ t.1)
  terms.zipIdx.forM (self.checkTerm terms)
  let current ← terms.foldlM (fun sum term => do
    return sum + term.2 * (← okOr self.powers[term.1]? (.internal "index out of bounds"))) 0
  return current :: self.wrapTerms terms (self.dimension - 1) current terms.length

end

end ResidueKernelPoint

def residueKernel {E F : Type} [Field E] (mulBase : E → F → E) (coefficients : List F) (alpha : E) : Result (List E) := do
  (← ResidueKernelPoint.new alpha coefficients.length).kernel mulBase coefficients

def terminalResidueKernel {E : Type} [Field E] (equalityWeights : List E) (alpha : E) : Result (List E) := do
  (← ResidueKernelPoint.new alpha equalityWeights.length).fieldKernel equalityWeights

end Akita.ResidueKernel
