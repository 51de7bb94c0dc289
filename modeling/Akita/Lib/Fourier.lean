import Mathlib.LinearAlgebra.Lagrange
import Akita.Lib.MixedRadix

/-!
# Fast Fourier transforms

Transforms of size `2^k` in stages, on functions of all positions, and transforms of any size by decimation in time.

* `RadixTwo.inverse_forward`, `RadixTwo.forward_eq_sum`, `RadixTwo.eval_wrapConv`: the stages of a radix-two transform.
* `dit_eq_dft`, `dft_dft`, `interpolation_unique`: decimation in time and the Fourier sum.
-/

/-!
## Radix-two transforms

The stages of a fast transform of size `2^k`, on functions of all positions: a stage of half-length
`len` only mixes a position with the one `len` away in its block of `2 len`.

* `inverse_forward`: the inverse stages undo the forward ones up to the size.
* `forward_eq_sum`: the forward transform evaluates at `point`, a `2^k`-th root of unity.
* `eval_wrapConv`: a product of evaluations is the evaluation of a wrapped convolution.
-/

namespace Akita.Lib.RadixTwo

open Finset

variable {F : Type*} [CommRing F] {w : ℕ → F} {k n i : ℕ}

/-- The sums and twisted differences of the halves of every block. -/
def split (w : F) (len : ℕ) (v : ℕ → F) (i : ℕ) : F :=
  if i / len % 2 = 0 then v i + v (i + len) else (v (i - len) - v i) * w ^ (i % len)

/-- The sums and differences with the second half twisted first. -/
def join (w : F) (len : ℕ) (v : ℕ → F) (i : ℕ) : F :=
  if i / len % 2 = 0 then v i + v (i + len) * w ^ (i % len) else v (i - len) - v i * w ^ (i % len)

section

variable {w w' : F} {len : ℕ} {v : ℕ → F}

theorem upper_half (hlen : 0 < len) (hi : i / len % 2 = 0) :
    (i + len) / len % 2 ≠ 0 ∧ i + len - len = i ∧ (i + len) % len = i % len := by
  rw [Nat.add_div_right _ hlen]
  exact ⟨by omega, by omega, Nat.add_mod_right i len⟩

theorem lower_half (hlen : 0 < len) (hi : ¬ i / len % 2 = 0) :
    len ≤ i ∧ (i - len) / len % 2 = 0 ∧ (i - len) % len = i % len ∧ i - len + len = i := by
  have hle : len ≤ i := by
    by_contra hlt
    rw [Nat.div_eq_of_lt (by omega)] at hi
    exact hi rfl
  obtain ⟨j, rfl⟩ := Nat.exists_eq_add_of_le hle
  rw [Nat.add_sub_cancel_left]
  rw [add_comm, Nat.add_div_right _ hlen] at hi
  exact ⟨hle, by omega, by rw [add_comm, Nat.add_mod_right], by omega⟩

/-- **A stage is undone up to two.** -/
theorem join_split (hlen : 0 < len) (hw : w * w' = 1) : join w' len (split w len v) i = 2 * v i := by
  have hpow : w ^ (i % len) * w' ^ (i % len) = 1 := by rw [← mul_pow, hw, one_pow]
  unfold join split
  split
  · next hi =>
    obtain ⟨hup, hsub, hmod⟩ := upper_half hlen hi
    rw [if_neg hup, hsub, hmod]
    linear_combination (v i - v (i + len)) * hpow
  · next hi =>
    obtain ⟨-, hlow, hmod, hadd⟩ := lower_half hlen hi
    rw [if_pos hlow, hadd]
    linear_combination -(v (i - len) - v i) * hpow

theorem join_mul (a : F) : join w len (fun i => a * v i) i = a * join w len v i := by
  unfold join
  split <;> ring

theorem split_add (hn : 2 * len ∣ n) : split w len v (i + n) = split w len (fun j => v (j + n)) i := by
  rcases Nat.eq_zero_or_pos len with rfl | hlen
  · rw [mul_zero, zero_dvd_iff] at hn
    subst hn
    rfl
  obtain ⟨m, rfl⟩ := hn
  have hdiv : (i + 2 * len * m) / len = i / len + 2 * m := by
    rw [show 2 * len * m = len * (2 * m) by ring, Nat.add_mul_div_left _ _ hlen]
  have hmod : (i + 2 * len * m) % len = i % len := by
    rw [show 2 * len * m = len * (2 * m) by ring, Nat.add_mul_mod_self_left]
  unfold split
  rw [hdiv, hmod, show (i / len + 2 * m) % 2 = i / len % 2 by omega]
  split
  · rw [show i + 2 * len * m + len = i + len + 2 * len * m by ring]
  · next hi =>
    have hle := (lower_half hlen hi).1
    rw [show i + 2 * len * m - len = i - len + 2 * len * m by omega]

end

/-- The stages of half-length `2^(k-1)` down to one. -/
def forward (w : ℕ → F) : ℕ → (ℕ → F) → ℕ → F
  | 0, v => v
  | s + 1, v => forward w s (split (w s) (2 ^ s) v)

/-- The stages of half-length one up to `2^(k-1)`. -/
def inverse (w : ℕ → F) : ℕ → (ℕ → F) → ℕ → F
  | 0, v => v
  | s + 1, v => join (w s) (2 ^ s) (inverse w s v)

/-- **The inverse stages undo the forward ones** up to the size. -/
theorem inverse_forward {w' : ℕ → F} (h : ∀ s < k, w s * w' s = 1) (v : ℕ → F) :
    inverse w' k (forward w k v) = fun i => 2 ^ k * v i := by
  induction k generalizing v with
  | zero => funext i; simp [forward, inverse]
  | succ k ih =>
    funext i
    rw [inverse, forward, ih (fun s hs => h s (by omega)), join_mul, join_split (by positivity) (h k (by omega)), pow_succ]
    ring

theorem forward_add (hn : 2 ^ k ∣ n) (v : ℕ → F) (i : ℕ) : forward w k v (i + n) = forward w k (fun j => v (j + n)) i := by
  induction k generalizing v with
  | zero => rfl
  | succ k ih =>
    rw [forward, forward, ih (Dvd.dvd.trans (pow_dvd_pow 2 (Nat.le_succ k)) hn)]
    congr 1
    funext j
    exact split_add (by rwa [← pow_succ'])

/-- The point that a position of the forward transform evaluates at. -/
def point (w : ℕ → F) : ℕ → ℕ → F
  | 0, _ => 1
  | s + 1, i => if i < 2 ^ s then point w s i else point w s (i - 2 ^ s) * w s

theorem point_pow (h : ∀ s < k, w s ^ 2 ^ s = -1) (i : ℕ) : point w k i ^ 2 ^ k = 1 := by
  induction k generalizing i with
  | zero => simp [point]
  | succ k ih =>
    have ih := ih fun s hs => h s (by omega)
    rw [point, pow_succ, pow_mul]
    split
    · rw [ih, one_pow]
    · rw [mul_pow, ih, one_mul, h k (by omega)]
      norm_num

/-- **The forward transform evaluates**: a block is the polynomial modulo `X^len - 1` after a twist. -/
theorem forward_eq_sum (h : ∀ s < k, w s ^ 2 ^ s = -1) (v : ℕ → F) (hi : i < 2 ^ k) :
    forward w k v i = ∑ t ∈ range (2 ^ k), v t * point w k i ^ t := by
  induction k generalizing v i with
  | zero =>
    rw [pow_zero, Nat.lt_one_iff] at hi
    subst hi
    simp [forward]
  | succ k ih =>
    have hroot := fun j => point_pow (w := w) (k := k) (fun s hs => h s (by omega)) j
    have hk := h k (by omega)
    have hsplit : ∀ f : ℕ → F, ∑ t ∈ range (2 ^ (k + 1)), f t = ∑ t ∈ range (2 ^ k), (f t + f (t + 2 ^ k)) := by
      intro f
      rw [pow_succ, mul_two, sum_range_add, ← sum_add_distrib]
      exact sum_congr rfl fun t _ => by rw [add_comm (2 ^ k)]
    rw [hsplit, forward, point]
    split
    · next hlow =>
      rw [ih (fun s hs => h s (by omega)) _ hlow]
      refine sum_congr rfl fun t ht => ?_
      rw [split, if_pos (by rw [Nat.div_eq_of_lt (mem_range.1 ht)]), pow_add, hroot]
      ring
    · next hhigh =>
      obtain ⟨j, rfl⟩ := Nat.exists_eq_add_of_le (Nat.le_of_not_lt hhigh)
      rw [Nat.add_sub_cancel_left, add_comm (2 ^ k), forward_add dvd_rfl,
        ih (fun s hs => h s (by omega)) _ (by rw [pow_succ] at hi; omega)]
      refine sum_congr rfl fun t ht => ?_
      have ht := mem_range.1 ht
      rw [split, if_neg (by rw [Nat.add_div_right _ (by positivity), Nat.div_eq_of_lt ht]; decide), Nat.add_sub_cancel,
        Nat.add_mod_right, Nat.mod_eq_of_lt ht, mul_pow, mul_pow, pow_add _ t, pow_add _ t, hroot, hk]
      ring

/-- The convolution of `n` coefficients that wraps with a factor. -/
def wrapConv (n : ℕ) (ε : F) (a b : ℕ → F) (k : ℕ) : F :=
  ∑ i ∈ range n, ∑ j ∈ range n, a i * b j * if i + j = k then 1 else if i + j = k + n then ε else 0

theorem wrapConv_mul (n : ℕ) (ε : F) (a b : ℕ → F) (r s : F) (k : ℕ) :
    wrapConv n ε (fun i => a i * r) (fun j => b j * s) k = wrapConv n ε a b k * (r * s) := by
  simp only [wrapConv, sum_mul]
  exact sum_congr rfl fun i _ => sum_congr rfl fun j _ => by ring

theorem intCast_wrapConv (n : ℕ) (ε : ℤ) (a b : ℕ → ℤ) (k : ℕ) :
    ((wrapConv n ε a b k : ℤ) : F) = wrapConv n (ε : F) (fun i => (a i : F)) (fun j => (b j : F)) k := by
  simp only [wrapConv]
  push_cast
  rfl

/-- **A product of evaluations.** -/
theorem eval_wrapConv {ε c : F} (hc : c ^ n = ε) (a b : ℕ → F) :
    (∑ i ∈ range n, a i * c ^ i) * ∑ j ∈ range n, b j * c ^ j = ∑ k ∈ range n, wrapConv n ε a b k * c ^ k := by
  -- every power below `2n` folds to one position
  have hfold : ∀ i < n, ∀ j < n, c ^ i * c ^ j = ∑ k ∈ range n, (if i + j = k then 1 else if i + j = k + n then ε else 0) * c ^ k := by
    intro i hi j hj
    rw [← pow_add]
    by_cases hlt : i + j < n
    · rw [sum_eq_single (i + j)]
      · rw [if_pos rfl, one_mul]
      · intro k hk hne
        rw [if_neg hne.symm, if_neg (by omega), zero_mul]
      · exact fun hnot => absurd (mem_range.2 hlt) hnot
    · rw [sum_eq_single (i + j - n)]
      · rw [if_neg (by omega), if_pos (by omega), ← hc, ← pow_add]
        congr 1
        omega
      · intro k hk hne
        have := mem_range.1 hk
        rw [if_neg (by omega), if_neg (by omega), zero_mul]
      · exact fun hnot => absurd (mem_range.2 (by omega)) hnot
  calc (∑ i ∈ range n, a i * c ^ i) * ∑ j ∈ range n, b j * c ^ j
      = ∑ i ∈ range n, ∑ j ∈ range n, a i * b j * (c ^ i * c ^ j) := by
        rw [sum_mul_sum]
        exact sum_congr rfl fun i _ => sum_congr rfl fun j _ => by ring
    _ = ∑ i ∈ range n, ∑ j ∈ range n, ∑ k ∈ range n, a i * b j * (if i + j = k then 1 else if i + j = k + n then ε else 0) * c ^ k := by
        refine sum_congr rfl fun i hi => sum_congr rfl fun j hj => ?_
        rw [hfold i (mem_range.1 hi) j (mem_range.1 hj), mul_sum]
        exact sum_congr rfl fun k _ => by ring
    _ = ∑ k ∈ range n, wrapConv n ε a b k * c ^ k := by
        simp only [wrapConv, sum_mul]
        rw [sum_congr rfl fun i _ => sum_comm, sum_comm]

/-- **The product of two twisted transforms** is the twisted transform of their wrapped convolution. -/
theorem forward_mul (h : ∀ s < k, w s ^ 2 ^ s = -1) (ψ : F) (a b : ℕ → F) (hi : i < 2 ^ k) :
    forward w k (fun t => a t * ψ ^ t) i * forward w k (fun t => b t * ψ ^ t) i =
      forward w k (fun t => wrapConv (2 ^ k) (ψ ^ 2 ^ k) a b t * ψ ^ t) i := by
  have heval : ∀ v : ℕ → F, forward w k (fun t => v t * ψ ^ t) i = ∑ t ∈ range (2 ^ k), v t * (ψ * point w k i) ^ t := by
    intro v
    rw [forward_eq_sum h _ hi]
    exact sum_congr rfl fun t _ => by rw [mul_pow]; ring
  rw [heval, heval, heval]
  exact eval_wrapConv (by rw [mul_pow, point_pow h, mul_one]) a b

end Akita.Lib.RadixTwo

/-!
## Mixed-radix decimation in time

A transform of size `n = r · rest` is `r` transforms of the inputs in one residue class modulo `r`,
combined with powers of the root. The inputs of a class lie together after a digit reversal.

* `dit_eq_dft`: decimation in time of reversed inputs is the Fourier sum.
* `dft_dft`: the sums of a primitive root and of its inverse undo each other up to the size.
* `interpolation_unique`: a polynomial below the size is determined by its values at the powers.
-/

namespace Akita.Lib

open Finset

section

variable {F : Type*} [CommRing F] {fs : List ℕ} {w : F}

/-- One stage: the `r` blocks of a group, combined. -/
def combine (w : F) (r block : ℕ) (v : ℕ → F) (i : ℕ) : F :=
  ∑ k ∈ range r, v (i / (block * r) * (block * r) + k * block + i % block) * (w ^ (i % (block * r))) ^ k

/-- The stages of the radices, the last one first. -/
def dit (w : F) : List ℕ → (ℕ → F) → ℕ → F
  | [], v => v
  | r :: rest, v => combine w r rest.prod (dit (w ^ r) rest v)

def digitReverse : List ℕ → ℕ → ℕ
  | [], _ => 0
  | r :: rest, k => k % r * rest.prod + digitReverse rest (k / r)

theorem digitReverse_lt {k : ℕ} (hk : k < fs.prod) : digitReverse fs k < fs.prod := by
  induction fs generalizing k with
  | nil => exact Nat.one_pos
  | cons r rest ih =>
    rw [List.prod_cons] at *
    rcases Nat.eq_zero_or_pos r with rfl | hr
    · omega
    have hrest := ih (Nat.div_lt_of_lt_mul hk)
    have hdigit := Nat.mul_le_mul_right rest.prod (Nat.succ_le_of_lt (Nat.mod_lt k hr))
    rw [digitReverse]
    rw [Nat.succ_mul] at hdigit
    omega

theorem digitReverse_inj {k l : ℕ} (hk : k < fs.prod) (hl : l < fs.prod) (h : digitReverse fs k = digitReverse fs l) : k = l := by
  induction fs generalizing k l with
  | nil =>
    rw [List.prod_nil] at hk hl
    omega
  | cons r rest ih =>
    rw [List.prod_cons] at hk hl
    have hk' := digitReverse_lt (Nat.div_lt_of_lt_mul hk)
    have hl' := digitReverse_lt (Nat.div_lt_of_lt_mul hl)
    have hpos : 0 < rest.prod := by omega
    rw [digitReverse, digitReverse] at h
    have hdigit := congrArg (· / rest.prod) h
    have hrest := congrArg (· % rest.prod) h
    simp only [Nat.mul_add_mod_self_right, Nat.mod_eq_of_lt hk', Nat.mod_eq_of_lt hl'] at hrest
    simp only [mul_comm _ rest.prod, Nat.mul_add_div hpos, Nat.div_eq_of_lt hk', Nat.div_eq_of_lt hl', add_zero] at hdigit
    rw [← Nat.div_add_mod k r, ← Nat.div_add_mod l r, hdigit,
      ih (Nat.div_lt_of_lt_mul hk) (Nat.div_lt_of_lt_mul hl) hrest]

theorem combine_add {r block n : ℕ} (hn : block * r ∣ n) (v : ℕ → F) (i : ℕ) :
    combine w r block v (i + n) = combine w r block (fun j => v (j + n)) i := by
  rcases Nat.eq_zero_or_pos (block * r) with hzero | hpos
  · rw [hzero, zero_dvd_iff] at hn
    subst hn
    rfl
  obtain ⟨m, rfl⟩ := hn
  refine sum_congr rfl fun k _ => ?_
  rw [Nat.add_mul_div_left _ _ hpos, Nat.add_mul_mod_self_left, mul_assoc block r m, Nat.add_mul_mod_self_left]
  congr 2
  ring

theorem dit_add {n : ℕ} (hn : fs.prod ∣ n) (v : ℕ → F) (i : ℕ) : dit w fs v (i + n) = dit w fs (fun j => v (j + n)) i := by
  induction fs generalizing w i with
  | nil => rfl
  | cons r rest ih =>
    rw [List.prod_cons] at hn
    rw [dit, dit, combine_add (by rwa [mul_comm])]
    congr 1
    funext j
    exact ih (dvd_of_mul_left_dvd hn) j

/-- **Decimation in time of reversed inputs** is the Fourier sum. -/
theorem dit_eq_dft {i : ℕ} (hw : w ^ fs.prod = 1) {v x : ℕ → F} (hv : ∀ k < fs.prod, v (digitReverse fs k) = x k)
    (hi : i < fs.prod) : dit w fs v i = ∑ k ∈ range fs.prod, x k * w ^ (i * k) := by
  induction fs generalizing w v x i with
  | nil =>
    rw [List.prod_nil, Nat.lt_one_iff] at hi
    subst hi
    have := hv 0 Nat.one_pos
    rw [dit, List.prod_nil, sum_range_one, mul_zero, pow_zero, mul_one, ← this, digitReverse]
  | cons r rest ih =>
    rw [List.prod_cons] at hw hv hi
    have hr : 0 < r := by
      rcases Nat.eq_zero_or_pos r with rfl | hr
      · omega
      · exact hr
    have hrest : 0 < rest.prod := by
      rcases Nat.eq_zero_or_pos rest.prod with hzero | hrest
      · rw [hzero] at hi
        omega
      · exact hrest
    have hroot : (w ^ r) ^ rest.prod = 1 := by rw [← pow_mul, hw]
    rw [dit, combine, List.prod_cons, sum_range_mul_blocks, mul_comm rest.prod r, Nat.div_eq_of_lt hi, Nat.mod_eq_of_lt hi]
    refine sum_congr rfl fun d hd => ?_
    have hd := mem_range.1 hd
    -- block `d` transforms the inputs of class `d`
    have hblock : ∀ m < rest.prod, v (digitReverse rest m + d * rest.prod) = x (d + m * r) := by
      intro m hm
      have hlt : d + m * r < r * rest.prod := by
        have := Nat.mul_le_mul_left r (Nat.succ_le_of_lt hm)
        rw [Nat.mul_succ, Nat.mul_comm r m] at this
        omega
      rw [← hv _ hlt, digitReverse, Nat.add_mul_mod_self_right, Nat.mod_eq_of_lt hd, Nat.add_mul_div_right _ _ hr,
        Nat.div_eq_of_lt hd, Nat.zero_add, Nat.add_comm]
    rw [Nat.zero_mul, Nat.zero_add, Nat.add_comm (d * rest.prod), dit_add (Dvd.intro_left d rfl),
      ih hroot hblock (Nat.mod_lt i hrest), sum_mul]
    refine sum_congr rfl fun m _ => ?_
    have hfold : (w ^ r) ^ (i % rest.prod * m) = (w ^ r) ^ (i * m) := by
      rw [pow_mul, pow_mul, ← pow_eq_pow_mod i hroot]
    rw [hfold]
    ring

end

section

variable {F : Type*} [Field F] {ζ : F} {n : ℕ}

/-- **The Fourier sums of a root and of its inverse** undo each other up to the size. -/
theorem dft_dft (h : IsPrimitiveRoot ζ n) (x : ℕ → F) {j : ℕ} (hj : j < n) :
    ∑ k ∈ range n, (∑ i ∈ range n, x i * ζ ^ (k * i)) * ζ⁻¹ ^ (j * k) = n * x j := by
  have hζ : ζ ≠ 0 := h.ne_zero (by omega)
  have hgeom : ∀ i < n, ∑ k ∈ range n, (ζ ^ i * ζ⁻¹ ^ j) ^ k = if i = j then (n : F) else 0 := by
    intro i hi
    split
    · next heq =>
      rw [heq, ← mul_pow, mul_inv_cancel₀ hζ, one_pow]
      simp
    · next hne =>
      have hcne : ζ ^ i * ζ⁻¹ ^ j - 1 ≠ 0 := by
        intro hone
        refine hne (h.pow_inj hi hj ?_)
        rw [inv_pow] at hone
        exact (mul_inv_eq_one₀ (pow_ne_zero j hζ)).1 (sub_eq_zero.1 hone)
      have hpow : (ζ ^ i * ζ⁻¹ ^ j) ^ n = 1 := by
        rw [mul_pow, ← pow_mul, ← pow_mul, mul_comm i, mul_comm j, pow_mul, pow_mul, inv_pow, h.pow_eq_one]
        simp
      refine (mul_eq_zero.1 ?_).resolve_left hcne
      rw [mul_geom_sum, hpow, sub_self]
  calc ∑ k ∈ range n, (∑ i ∈ range n, x i * ζ ^ (k * i)) * ζ⁻¹ ^ (j * k)
      = ∑ i ∈ range n, x i * ∑ k ∈ range n, (ζ ^ i * ζ⁻¹ ^ j) ^ k := by
        simp only [sum_mul, mul_sum]
        rw [sum_comm]
        refine sum_congr rfl fun i _ => sum_congr rfl fun k _ => ?_
        rw [mul_pow, ← pow_mul, ← pow_mul, mul_comm k i]
        ring
    _ = ∑ i ∈ range n, x i * (if i = j then (n : F) else 0) := sum_congr rfl fun i hi => by rw [hgeom i (mem_range.1 hi)]
    _ = n * x j := by
        simp only [mul_ite, mul_zero]
        rw [sum_ite_eq' (range n) j, if_pos (mem_range.2 hj), mul_comm]

open Polynomial in
/-- **A polynomial below the size is determined** by its values at the powers of the root. -/
theorem interpolation_unique (h : IsPrimitiveRoot ζ n) {P Q : F[X]} (hP : P.degree < n) (hQ : Q.degree < n)
    (heval : ∀ i < n, P.eval (ζ ^ i) = Q.eval (ζ ^ i)) : P = Q := by
  classical
  have hcard : ((range n).image fun i => ζ ^ i).card = n := by
    rw [card_image_of_injOn, card_range]
    intro i hi j hj heq
    exact h.pow_inj (mem_range.1 hi) (mem_range.1 hj) heq
  refine eq_of_degree_sub_lt_of_eval_finset_eq ((range n).image fun i => ζ ^ i) ?_ ?_
  · rw [hcard]
    exact (degree_sub_le P Q).trans_lt (max_lt hP hQ)
  · intro y hy
    obtain ⟨i, hi, rfl⟩ := mem_image.1 hy
    exact heval i (mem_range.1 hi)

end

end Akita.Lib
