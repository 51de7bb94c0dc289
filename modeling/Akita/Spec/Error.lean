import Akita.Lib.Numerals

/-!
# Errors and checked integer arithmetic

`akita-error`: the error type shared by the crates and the checked `usize`
arithmetic used for sizes, offsets and work bounds. A `usize` is a natural number;
the checked operations return `none` exactly when the result does not fit 64 bits.
-/

namespace Akita

/-- Errors of Akita PCS operations (`AkitaError`). -/
inductive AkitaError
  | invalidProof
  | invalidSize (expected actual : ℕ)
  | invalidPointDimension (expected actual : ℕ)
  | invalidInput (msg : String)
  | unsupportedSchedule (msg : String)
  | invalidSetup (msg : String)
  | internal (msg : String)
  deriving DecidableEq, Repr

def AkitaError.display : AkitaError → String
  | .invalidProof => "Invalid proof"
  | .invalidSize e a =>
    "Invalid polynomial size: expected " ++ toString e ++ ", got " ++ toString a
  | .invalidPointDimension e a =>
    "Invalid evaluation point dimension: expected " ++ toString e ++ ", got " ++ toString a
  | .invalidInput m => "Invalid input: " ++ m
  | .unsupportedSchedule m => "Unsupported proof schedule: " ++ m
  | .invalidSetup m => "Invalid or missing setup file: " ++ m
  | .internal m => "Internal error: " ++ m

abbrev Result (α : Type*) := Except AkitaError α

def okOr {α : Type*} (o : Option α) (e : AkitaError) : Result α :=
  match o with
  | some a => .ok a
  | none => .error e

def mapErr {ε α : Type*} (x : Except ε α) (f : ε → AkitaError) : Result α :=
  match x with
  | .ok a => .ok a
  | .error e => .error (f e)

/-- `if !p { return Err(e) }`. -/
def ensure (p : Prop) [Decidable p] (e : AkitaError) : Result Unit := if p then .ok () else .error e

def usizeBits : ℕ := 64

/-- `checked_add` at width `w`. -/
def checkedAdd (w a b : ℕ) : Option ℕ := if a + b < 2 ^ w then some (a + b) else none

/-- `checked_mul` at width `w`. -/
def checkedMul (w a b : ℕ) : Option ℕ := if a * b < 2 ^ w then some (a * b) else none

def checkedSub (a b : ℕ) : Option ℕ := if b ≤ a then some (a - b) else none

/-- The result of a checked `i64` operation whose exact value is `v`. -/
def checkedI64 (v : ℤ) : Option ℤ := if -2 ^ 63 ≤ v ∧ v < 2 ^ 63 then some v else none

/-- The result of a checked `i128` operation whose exact value is `v`. -/
def checkedI128 (v : ℤ) : Option ℤ := if -2 ^ 127 ≤ v ∧ v < 2 ^ 127 then some v else none

def trailingZeros (n : ℕ) : ℕ := ((List.range usizeBits).find? n.testBit).getD usizeBits

def checkedNextPowerOfTwo (n : ℕ) : Option ℕ :=
  if 2 ^ Nat.clog 2 n < 2 ^ usizeBits then some (2 ^ Nat.clog 2 n) else none

/-- A result kept to its low `w` bits, as machine shifts and wrapping operations do. -/
def wrapping (w n : ℕ) : ℕ := n % 2 ^ w

namespace Checked

/-- `checked::sum` of `usize` values. -/
def sum (values : List ℕ) : Option ℕ := values.foldlM (checkedAdd usizeBits) 0

/-- `checked::product` of `usize` values. -/
def product (factors : List ℕ) : Option ℕ := factors.foldlM (checkedMul usizeBits) 1

/-- `checked::mul_add`: `lhs * rhs + addend`. -/
def mulAdd (lhs rhs addend : ℕ) : Option ℕ := do
  checkedAdd usizeBits (← checkedMul usizeBits lhs rhs) addend

def pow2 (exponent : ℕ) : Option ℕ := if exponent < usizeBits then some (2 ^ exponent) else none

end Checked

section

variable {w a b c : ℕ} {k : ℕ}

theorem checkedAdd_eq_some : checkedAdd w a b = some c ↔ a + b < 2 ^ w ∧ c = a + b := by
  unfold checkedAdd; split <;> simp_all [eq_comm]

theorem checkedMul_eq_some : checkedMul w a b = some c ↔ a * b < 2 ^ w ∧ c = a * b := by
  unfold checkedMul; split <;> simp_all [eq_comm]

theorem checkedSub_eq_some : checkedSub a b = some c ↔ b ≤ a ∧ c = a - b := by
  unfold checkedSub; split <;> simp_all [eq_comm]

theorem checkedI64_eq_some {v w : ℤ} : checkedI64 v = some w ↔ (-2 ^ 63 ≤ v ∧ v < 2 ^ 63) ∧ w = v := by
  unfold checkedI64; split <;> simp_all [eq_comm]

theorem checkedI128_eq_some {v w : ℤ} : checkedI128 v = some w ↔ (-2 ^ 127 ≤ v ∧ v < 2 ^ 127) ∧ w = v := by
  unfold checkedI128; split <;> simp_all [eq_comm]

theorem wrapping_of_lt (h : a < 2 ^ w) : wrapping w a = a := Nat.mod_eq_of_lt h

theorem Checked.pow2_eq_some : Checked.pow2 a = some c ↔ a < 64 ∧ c = 2 ^ a := by
  unfold Checked.pow2 usizeBits; split <;> simp_all [eq_comm]

theorem Checked.sum_eq_some {values : List ℕ} : Checked.sum values = some c ↔ values.sum < 2 ^ 64 ∧ c = values.sum := by
  have hfold : ∀ (l : List ℕ) (acc : ℕ), acc < 2 ^ 64 →
      (l.foldlM (checkedAdd usizeBits) acc = some c ↔ acc + l.sum < 2 ^ 64 ∧ c = acc + l.sum) := by
    intro l
    induction l with
    | nil =>
      intro acc hacc
      simp only [List.foldlM_nil, List.sum_nil, Nat.add_zero, hacc, true_and]
      exact Option.some_inj.trans eq_comm
    | cons x l ih =>
      intro acc hacc
      rw [List.foldlM_cons, List.sum_cons]
      by_cases hx : acc + x < 2 ^ 64
      · have hadd : checkedAdd usizeBits acc x = some (acc + x) := checkedAdd_eq_some.2 ⟨hx, rfl⟩
        simp only [hadd, Option.bind_eq_bind, Option.bind_some]
        rw [ih (acc + x) hx, Nat.add_assoc]
      · have hadd : checkedAdd usizeBits acc x = none := if_neg hx
        simp only [hadd, Option.bind_eq_bind, Option.bind_none]
        constructor
        · intro h
          cases h
        · rintro ⟨h, -⟩
          omega
  have h := hfold values 0 (by omega)
  rwa [Nat.zero_add] at h

theorem okOr_eq_ok {α : Type*} {o : Option α} {e : AkitaError} {x : α} : okOr o e = .ok x ↔ o = some x := by
  cases o <;> simp [okOr]

theorem mapErr_eq_ok {ε α : Type*} {r : Except ε α} {f : ε → AkitaError} {x : α} : mapErr r f = .ok x ↔ r = .ok x := by
  cases r <;> simp [mapErr]

theorem trailingZeros_two_pow (hk : k < 64) : trailingZeros (2 ^ k) = k := by
  have hfind : (List.range usizeBits).find? (2 ^ k).testBit = some k := by
    rw [List.find?_range_eq_some]
    refine ⟨by simp, by simpa [usizeBits] using hk, fun j hj => ?_⟩
    simpa using Nat.testBit_two_pow_of_ne (Nat.ne_of_gt hj)
  simp [trailingZeros, hfind]

theorem trailingZeros_two_pow_of_ge (hk : 64 ≤ k) : trailingZeros (2 ^ k) = 64 := by
  have hfind : (List.range usizeBits).find? (2 ^ k).testBit = none := by
    rw [List.find?_eq_none]
    intro j hj
    simpa using Nat.testBit_two_pow_of_ne (by rw [List.mem_range, usizeBits] at hj; omega : k ≠ j)
  rw [trailingZeros, hfind, Option.getD_none, usizeBits]

theorem checkedNextPowerOfTwo_eq {n : ℕ} (h : checkedNextPowerOfTwo n = some w) :
    w = 2 ^ trailingZeros w ∧ n ≤ w ∧ trailingZeros w < 64 := by
  unfold checkedNextPowerOfTwo usizeBits at h
  split at h
  · rename_i hlt
    obtain rfl := Option.some.inj h
    have hk : Nat.clog 2 n < 64 := (Nat.pow_lt_pow_iff_right (by norm_num)).1 hlt
    rw [trailingZeros_two_pow hk]
    exact ⟨rfl, Nat.le_pow_clog (by norm_num) n, hk⟩
  · simp at h

end

section

variable {u : Unit}

universe u

variable {α β : Type u} {a : α} {b : β}

theorem bind_eq_ok {x : Result α} {f : α → Result β} : (x >>= f) = .ok b ↔ ∃ a, x = .ok a ∧ f a = .ok b := by
  cases x <;> simp [bind, Except.bind]

theorem exists_unit {p : Unit → Prop} : (∃ u, p u) ↔ p () := ⟨fun ⟨_, h⟩ => h, fun h => ⟨(), h⟩⟩

theorem pure_eq_ok {a' : α} : (pure a : Result α) = .ok a' ↔ a = a' := by
  simp [pure, Except.pure]

theorem ok_bind (f : α → Result β) : (Except.ok a >>= f) = f a := rfl

theorem ensure_eq_ok {p : Prop} [Decidable p] {e : AkitaError} : ensure p e = .ok u ↔ p := by
  unfold ensure; split <;> simp_all

theorem ensure_bind {γ : Type} {p : Prop} [Decidable p] {e : AkitaError} {f : Unit → Result γ} (h : p) : (ensure p e >>= f) = f () := by
  rw [ensure, if_pos h, ok_bind]

theorem forM_eq_ok {γ : Type} {f : γ → Result Unit} {l : List γ} : l.forM f = .ok u ↔ ∀ a ∈ l, f a = .ok () := by
  induction l with
  | nil => simp [List.forM, pure, Except.pure]
  | cons a l ih =>
    have hloop : (a :: l).forM f = f a >>= fun _ => l.forM f := rfl
    rw [hloop, bind_eq_ok]
    simp only [exists_unit, ih, List.forall_mem_cons]

end

/-! ## Rule sets -/

/-- The rules that read a run which succeeds: its binds, checks and returned values. -/
theorem result_ok :
    (∀ {α β : Type} {x : Result α} {f : α → Result β} {b : β}, (x >>= f) = .ok b ↔ ∃ a, x = .ok a ∧ f a = .ok b) ∧
    (∀ {α : Type} {a b : α}, (pure a : Result α) = .ok b ↔ a = b) ∧ (∀ {p : Unit → Prop}, (∃ u, p u) ↔ p ()) ∧
    (∀ {p : Prop} [Decidable p] {e : AkitaError} {u : Unit}, ensure p e = .ok u ↔ p) ∧
    ∀ {α : Type} {o : Option α} {e : AkitaError} {x : α}, okOr o e = .ok x ↔ o = some x :=
  ⟨bind_eq_ok, pure_eq_ok, exists_unit, ensure_eq_ok, okOr_eq_ok⟩

/-- The same for a computation with options. -/
theorem option_some : (∀ {α β : Type} {x : Option α} {f : α → Option β}, x >>= f = x.bind f) ∧
    (∀ {α β : Type} {x : Option α} {f : α → Option β} {b : β}, x.bind f = some b ↔ ∃ a, x = some a ∧ f a = some b) ∧
    (∀ {α : Type} {a : α}, (pure a : Option α) = some a) ∧ (∀ {α : Type} {a b : α}, some a = some b ↔ a = b) ∧
    ∀ {p : Prop} [Decidable p] {u : Unit}, guard p = some u ↔ p :=
  ⟨rfl, Option.bind_eq_some_iff, rfl, Option.some_inj, Option.guard_eq_some' _⟩

theorem checked_some {a b c : ℕ} : (∀ {w}, checkedAdd w a b = some c ↔ a + b < 2 ^ w ∧ c = a + b) ∧
    (∀ {w}, checkedMul w a b = some c ↔ a * b < 2 ^ w ∧ c = a * b) ∧ (checkedSub a b = some c ↔ b ≤ a ∧ c = a - b) :=
  ⟨checkedAdd_eq_some, checkedMul_eq_some, checkedSub_eq_some⟩

/-- The rules that run a computation whose parts have succeeded. -/
theorem ok_run : (∀ {α β : Type} {a : α} {f : α → Result β}, (Except.ok a >>= f) = f a) ∧
    ∀ {α : Type} {a : α}, (pure a : Result α) = .ok a := ⟨rfl, rfl⟩

end Akita
