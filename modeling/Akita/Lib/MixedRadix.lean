import Akita.Lib.Tiling

/-!
# Mixed radix

Tuples of digits and their values: a numbering maps the tuples in range one-to-one onto the naturals below a bound,
and two numberings make one of the pairs. A checked index over such a numbering is a bijection onto a span.
-/

namespace Akita.Lib

section

section

variable {ι κ ε : Type*} {n m : ℕ} {R : ι → Prop} {S : κ → Prop} {f : ι → ℕ} {g : κ → ℕ}

/-- The tuples in range are one-to-one with the naturals below `n`. -/
structure Numbers (n : ℕ) (R : ι → Prop) (place : ι → ℕ) : Prop where
  lt : ∀ i, R i → place i < n
  inj : ∀ i j, R i → R j → place i = place j → i = j
  onto : ∀ p < n, ∃ i, R i ∧ place i = p

theorem Numbers.digit (n : ℕ) : Numbers n (· < n) id := ⟨fun _ h => h, fun _ _ _ _ h => h, fun p hp => ⟨p, hp, rfl⟩⟩

/-- One digit counted from `start` on. -/
theorem Numbers.shift (start n : ℕ) : Numbers n (fun i => start ≤ i ∧ i < start + n) (· - start) := by
  refine ⟨fun i hi => by omega, fun i j hi hj h => by omega, fun p hp => ⟨start + p, ⟨by omega, by omega⟩, ?_⟩⟩
  exact Nat.add_sub_cancel_left start p

/-- **Two numberings** make one of the pairs. -/
theorem Numbers.pair (hf : Numbers n R f) (hg : Numbers m S g) :
    Numbers (n * m) (fun i : ι × κ => R i.1 ∧ S i.2) fun i => f i.1 * m + g i.2 := by
  constructor
  · intro i ⟨hi, hj⟩
    have hlow := hg.lt i.2 hj
    have hhigh := Nat.mul_le_mul_right m (Nat.succ_le_of_lt (hf.lt i.1 hi))
    rw [Nat.succ_mul] at hhigh
    omega
  · intro i j hi hj heq
    -- the low digit is the remainder, the high one the quotient
    have hlow := congrArg (· % m) heq
    have hhigh := congrArg (· / m) heq
    have hi2 := hg.lt i.2 hi.2
    have hj2 := hg.lt j.2 hj.2
    have hpos : 0 < m := by omega
    simp only [Nat.mul_add_mod_self_right, Nat.mod_eq_of_lt hi2, Nat.mod_eq_of_lt hj2] at hlow
    simp only [mul_comm _ m, Nat.mul_add_div hpos, Nat.div_eq_of_lt hi2, Nat.div_eq_of_lt hj2, add_zero] at hhigh
    exact Prod.ext (hf.inj i.1 j.1 hi.1 hj.1 hhigh) (hg.inj i.2 j.2 hi.2 hj.2 hlow)
  · intro p hp
    have hpos : 0 < m := by
      rcases Nat.eq_zero_or_pos m with rfl | hpos
      · simp at hp
      · exact hpos
    obtain ⟨i, hi, hquot⟩ := hf.onto (p / m) ((Nat.div_lt_iff_lt_mul hpos).2 hp)
    obtain ⟨j, hj, hrem⟩ := hg.onto (p % m) (Nat.mod_lt p hpos)
    refine ⟨(i, j), ⟨hi, hj⟩, ?_⟩
    rw [hquot, hrem]
    exact Nat.div_add_mod' p m

theorem Numbers.comp (hf : Numbers n R f) (e : κ ≃ ι) : Numbers n (fun k => R (e k)) fun k => f (e k) := by
  refine ⟨fun k hk => hf.lt _ hk, fun k l hk hl h => e.injective (hf.inj _ _ hk hl h), fun p hp => ?_⟩
  obtain ⟨i, hi, hplace⟩ := hf.onto p hp
  exact ⟨e.symm i, by rwa [Equiv.apply_symm_apply], by rwa [Equiv.apply_symm_apply]⟩

theorem Numbers.congr {R' : ι → Prop} (hf : Numbers n R f) (hR : ∀ i, R i ↔ R' i) (hn : n = m) : Numbers m R' f := by
  obtain rfl : R = R' := funext fun i => propext (hR i)
  exact hn ▸ hf

/-- **The index maps the tuples in range one-to-one onto the span**, and fails on all others. -/
structure Addresses (span : Span) (R : ι → Prop) (index : ι → Except ε ℕ) : Prop where
  into : ∀ i, R i → ∃ p, index i = .ok p ∧ span.Holds p
  inj : ∀ i j p, R i → R j → index i = .ok p → index j = .ok p → i = j
  onto : ∀ p, span.Holds p → ∃ i, R i ∧ index i = .ok p
  outside : ∀ i, ¬ R i → ∃ e, index i = .error e

/-- An index that is the start of the span plus the number of its tuple. -/
theorem Numbers.addresses {span : Span} {index : ι → Except ε ℕ} (h : Numbers span.len R f)
    (hok : ∀ i, R i → index i = .ok (span.start + f i)) (hin : ∀ i p, index i = .ok p → R i) : Addresses span R index := by
  have hholds : ∀ p, span.Holds (span.start + p) ↔ p < span.len := by
    intro p
    unfold Span.Holds Span.len
    omega
  refine ⟨fun i hi => ⟨_, hok i hi, (hholds _).2 (h.lt i hi)⟩, fun i j p hi hj hpi hpj => ?_, fun p hp => ?_, fun i hi => ?_⟩
  · rw [hok i hi] at hpi
    rw [hok j hj, ← hpi] at hpj
    exact h.inj i j hi hj (Nat.add_left_cancel (Except.ok.inj hpj)).symm
  · obtain ⟨d, rfl⟩ := Nat.exists_eq_add_of_le hp.1
    obtain ⟨i, hi, rfl⟩ := h.onto d ((hholds d).1 hp)
    exact ⟨i, hi, hok i hi⟩
  · cases hindex : index i with
    | ok p => exact absurd (hin i p hindex) hi
    | error e => exact ⟨e, rfl⟩

end

/-!
## Centered mixed radix

Signed digits `d k` with `2 |d k| < p k` and weights `p 0 * .. * p (k-1)`. A digit string is
congruent to its prefixes, a run of digits is read from the top, and over pairwise coprime
radices the value of all digits is the only small integer with its residues.
-/

open Finset

variable {n : ℕ}

/-- The weight of digit `n`. -/
def radixWeight (p : ℕ → ℕ) (n : ℕ) : ℕ := ∏ j ∈ range n, p j

/-- The value of the first `n` digits. -/
def radixValue (p : ℕ → ℕ) (d : ℕ → ℤ) (n : ℕ) : ℤ := ∑ k ∈ range n, d k * radixWeight p k

variable {p : ℕ → ℕ} {d : ℕ → ℤ}

@[simp] theorem radixWeight_zero (p : ℕ → ℕ) : radixWeight p 0 = 1 := prod_range_zero p

@[simp] theorem radixValue_zero (p : ℕ → ℕ) (d : ℕ → ℤ) : radixValue p d 0 = 0 := sum_range_zero _

theorem radixWeight_succ (p : ℕ → ℕ) (n : ℕ) : radixWeight p (n + 1) = radixWeight p n * p n := prod_range_succ p n

theorem radixValue_succ (p : ℕ → ℕ) (d : ℕ → ℤ) (n : ℕ) :
    radixValue p d (n + 1) = radixValue p d n + d n * radixWeight p n := sum_range_succ _ n

theorem radixWeight_add (p : ℕ → ℕ) (s m : ℕ) :
    radixWeight p (s + m) = radixWeight p s * radixWeight (fun j => p (s + j)) m := prod_range_add p s m

theorem radixValue_add (p : ℕ → ℕ) (d : ℕ → ℤ) (s m : ℕ) : radixValue p d (s + m) =
      radixValue p d s + radixWeight p s * radixValue (fun j => p (s + j)) (fun j => d (s + j)) m := by
  unfold radixValue
  rw [sum_range_add, mul_sum]
  congr 1
  refine sum_congr rfl fun k _ => ?_
  rw [radixWeight_add]
  push_cast
  ring

/-- A run is read from its top digit down. -/
theorem radixValue_succ' (p : ℕ → ℕ) (d : ℕ → ℤ) (m : ℕ) :
    radixValue p d (m + 1) = d 0 + p 0 * radixValue (fun j => p (1 + j)) (fun j => d (1 + j)) m := by
  rw [add_comm m 1, radixValue_add p d 1 m, radixValue_succ, radixWeight_succ]
  simp

theorem radixValue_congr {p' : ℕ → ℕ} {d' : ℕ → ℤ} (hp : ∀ k < n, p k = p' k) (hd : ∀ k < n, d k = d' k) :
    radixValue p d n = radixValue p' d' n := by
  refine sum_congr rfl fun k hk => ?_
  have hk := mem_range.1 hk
  rw [hd k hk, radixWeight, prod_congr rfl fun j hj => hp j (by have := mem_range.1 hj; omega), radixWeight]

/-- Centered digits stay below half the weight. -/
theorem two_mul_abs_radixValue_lt (h : ∀ k < n, 2 * |d k| < p k) : 2 * |radixValue p d n| < radixWeight p n := by
  induction n with
  | zero => simp
  | succ n ih =>
    have hlow := ih fun k hk => h k (by omega)
    have hweight : (0 : ℤ) < radixWeight p n := lt_of_le_of_lt (by positivity) hlow
    have hdigit : 2 * |d n| * radixWeight p n ≤ (p n - 1) * radixWeight p n :=
      mul_le_mul_of_nonneg_right (by have := h n (by omega); omega) hweight.le
    rw [radixValue_succ, radixWeight_succ]
    calc 2 * |radixValue p d n + d n * radixWeight p n|
        ≤ 2 * (|radixValue p d n| + |d n * radixWeight p n|) := by gcongr; exact abs_add_le _ _
      _ = 2 * |radixValue p d n| + 2 * |d n| * radixWeight p n := by rw [abs_mul, abs_of_pos hweight]; ring
      _ < radixWeight p n + (p n - 1) * radixWeight p n := by linarith
      _ = radixWeight p n * p n := by ring

theorem radixValue_modEq {i : ℕ} (hi : i < n) : radixValue p d n ≡ radixValue p d (i + 1) [ZMOD p i] := by
  induction n, hi using Nat.le_induction with
  | base => exact Int.ModEq.refl _
  | succ n hn ih =>
    have hdvd : (p i : ℤ) ∣ radixWeight p n := by
      exact_mod_cast dvd_prod_of_mem p (mem_range.2 (show i < n by omega))
    rw [radixValue_succ]
    calc radixValue p d n + d n * radixWeight p n ≡ radixValue p d n + 0 [ZMOD p i] :=
          Int.ModEq.add_left _ (Int.modEq_zero_iff_dvd.2 (hdvd.mul_left _))
      _ = radixValue p d n := add_zero _
      _ ≡ radixValue p d (i + 1) [ZMOD p i] := ih

/-- **The digits with the residues of a small integer represent it.** -/
theorem radixValue_unique {N : ℤ} (hcop : ∀ i < n, ∀ j < n, i ≠ j → (p i).Coprime (p j)) (hdigit : ∀ k < n, 2 * |d k| < p k)
    (hres : ∀ i < n, radixValue p d n ≡ N [ZMOD p i]) (hN : 2 * |N| < radixWeight p n) : radixValue p d n = N := by
  have hdvd : ((radixWeight p n : ℕ) : ℤ) ∣ N - radixValue p d n := by
    unfold radixWeight
    rw [Nat.cast_prod]
    refine prod_dvd_of_coprime (fun i hi j hj hij => ?_) fun i hi => (hres i (mem_range.1 hi)).dvd
    exact Nat.isCoprime_iff_coprime.2 (hcop i (by simpa using hi) j (by simpa using hj) hij)
  have hbound := two_mul_abs_radixValue_lt hdigit
  have hlt : |N - radixValue p d n| < radixWeight p n := by
    have := abs_sub N (radixValue p d n)
    omega
  have := Int.eq_zero_of_abs_lt_dvd hdvd hlt
  omega

end

/-!
## Sums over the addresses of a tensor

An axis moves an address by its stride once per coordinate and weighs the coordinate. A list of axes sums
a function of the address over all coordinate tuples, each with the product of its weights. The sum does not
depend on the order of the axes, axes can be summed out in parts, and two unit axes whose strides continue
each other are one.
-/

open Finset

/-- An axis of a tensor over addresses `A` with weights in `R`. -/
structure AddressAxis (A R : Type*) where
  len : ℕ
  stride : A
  weight : ℕ → R

section

variable {A R : Type*} [AddCommMonoid A] [CommSemiring R]

/-- **The sum of `h` over the addresses of a tensor**, from the address `a`. -/
def addressSum (h : A → R) : List (AddressAxis A R) → A → R
  | [], a => h a
  | x :: xs, a => ∑ i ∈ range x.len, x.weight i * addressSum h xs (a + i • x.stride)

variable {h : A → R} {xs ys : List (AddressAxis A R)} {a : A}

@[simp] theorem addressSum_nil : addressSum h [] a = h a := rfl

theorem addressSum_cons (x : AddressAxis A R) : addressSum h (x :: xs) a =
    ∑ i ∈ range x.len, x.weight i * addressSum h xs (a + i • x.stride) := rfl

theorem addressSum_shift (b : A) : addressSum h xs (a + b) = addressSum (fun c => h (c + b)) xs a := by
  induction xs generalizing a with
  | nil => rfl
  | cons x xs ih =>
    refine sum_congr rfl fun i _ => ?_
    rw [add_right_comm, ih]

/-- **The order of the axes does not matter.** -/
theorem addressSum_perm (hperm : xs.Perm ys) : addressSum h xs a = addressSum h ys a := by
  induction hperm generalizing a with
  | nil => rfl
  | cons x _ ih =>
    exact sum_congr rfl fun i _ => by rw [ih]
  | swap x y xs =>
    simp only [addressSum_cons, mul_sum]
    rw [sum_comm]
    refine sum_congr rfl fun i _ => sum_congr rfl fun j _ => ?_
    rw [mul_left_comm, add_right_comm]
  | trans _ _ ih ih' => rw [ih, ih']

theorem sum_range_mul_blocks (f : ℕ → R) (m n : ℕ) :
    ∑ k ∈ range (m * n), f k = ∑ i ∈ range m, ∑ j ∈ range n, f (i + j * m) := by
  rw [sum_comm]
  induction n with
  | zero => simp
  | succ n ih =>
    rw [Nat.mul_succ, sum_range_add, ih, sum_range_succ]
    refine congrArg _ (sum_congr rfl fun i _ => ?_)
    rw [add_comm, mul_comm]

end

end Akita.Lib
