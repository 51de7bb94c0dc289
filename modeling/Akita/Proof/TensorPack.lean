import Akita.Lib.Loops
import Akita.Proof.TraceInnerProduct

/-!
# Integer packing is the packing of the lifted digits

A slot touches every block of its residue class at most once, and a class meets one low and one high slot. So no `i16`
overflows, and what is accumulated casts to the packing over every field.

Main results: `packRing_ok`, `psiEmbed_cast`, `pack_tensor_base_lift_exact`.
-/

namespace Akita.FieldReduction

open Lib Finset
open List hiding map_singleton mem_range range range_zero sum_range_succ
open Except (ok)
open Nat (mod_eq_of_lt succ_mul mul_le_mul_right)

/-! ## Updates -/

section

variable {D : ℕ} {packed packed' : Fin D → ℤ} {i : ℕ} {delta : ℤ}

theorem addI16_ok (hi : i < D) (hold : ∀ p : Fin D, (p : ℕ) = i → |packed p| ≤ 2 ^ 7) (hdelta : |delta| ≤ 2 ^ 7) :
    addI16 packed i delta = .ok fun p => packed p + if (p : ℕ) = i then delta else 0 := by
  have hbound := abs_le.1 ((abs_add_le _ _).trans (add_le_add (hold ⟨i, hi⟩ rfl) hdelta))
  rw [addI16, dif_pos hi, ensure_bind (by omega)]
  refine congrArg ok (funext fun p => ?_)
  by_cases hp : (p : ℕ) = i
  · rw [if_pos hp, show p = ⟨i, hi⟩ from Fin.ext hp, Function.update_self]
  · rw [if_neg hp, add_zero, Function.update_of_ne fun h => hp (by rw [h])]

theorem update_cast {F : Type} [Field F] [DecidableEq F] {f : F → F} (hf : ∀ x, f x = x + (delta : F))
    (h : addI16 packed i delta = .ok packed') :
    CyclotomicRing.update (fun p => (packed p : F)) i f = .ok fun p => (packed' p : F) := by
  unfold addI16 at h
  split_ifs at h with hi
  simp only [result_ok] at h
  obtain ⟨-, rfl⟩ := h
  rw [CyclotomicRing.update, dif_pos hi]
  refine congrArg ok (funext fun p => ?_)
  by_cases hp : p = ⟨i, hi⟩
  · rw [hp, Function.update_self, Function.update_self, hf, Int.cast_add]
  · rw [Function.update_of_ne hp, Function.update_of_ne hp]

end

/-! ## One slot -/

section slot

variable {D K : ℕ} {c : ℕ → ℤ} {t j width : ℕ} {packed : Fin D → ℤ}

/-- What the passes up to `t` add at block `k`; the second coordinate of a pair goes through `second`. -/
def slotUpTo (second : ℤ → ℤ) (c : ℕ → ℤ) (K t k : ℕ) : ℤ :=
  if k ≤ t then c k else if 2 * K - t ≤ k then second (c (2 * K - k)) else 0

theorem slotUpTo_middle {second : ℤ → ℤ} (ht : t < K) : slotUpTo second c K t K = 0 := by
  rw [slotUpTo, if_neg (by omega), if_neg (by omega)]

theorem slotUpTo_abs_le {second : ℤ → ℤ} (hsecond : ∀ x, |second x| = |x|) (hc : ∀ j, |c j| ≤ 2 ^ 7) (t k : ℕ) :
    |slotUpTo second c K t k| ≤ 2 ^ 7 := by
  unfold slotUpTo
  split_ifs
  · exact hc k
  · exact (hsecond _).trans_le (hc _)
  · norm_num

theorem slotUpTo_eq {second : ℤ → ℤ} (hsecond : ∀ x, |second x| = |x|) {k : ℕ} (ht : t < K) (hk : k < 2 * K)
    (hc : ∀ j, t < j → c j = 0) : slotUpTo second c K t k = slotUpTo second c K (K - 1) k := by
  have hzero : second 0 = 0 := by
    have := hsecond 0
    rwa [abs_zero, abs_eq_zero] at this
  rcases lt_or_ge K k with hup | hlow
  · rw [slotUpTo, slotUpTo, if_neg (by omega), if_neg (by omega : ¬ k ≤ K - 1), if_pos (by omega : 2 * K - (K - 1) ≤ k)]
    split_ifs with hdone
    · rfl
    · rw [hc _ (by omega), hzero]
  · rw [slotUpTo, slotUpTo, if_neg (by omega : ¬ 2 * K - t ≤ k), if_neg (by omega : ¬ 2 * K - (K - 1) ≤ k)]
    split_ifs
    · rfl
    · omega
    · rw [hc _ (by omega)]
    · rfl

variable {key : Fin D → ℕ} {u v : ℕ → ℕ} {second : ℤ → ℤ} {coordinates : List Int8}

def coordinate (coordinates : List Int8) (j : ℕ) : ℤ := (coordinates.getD j 0).toInt

theorem okOr_coordinate (hj : j < coordinates.length) : okOr coordinates[j]? outOfBounds = .ok (coordinates.getD j 0) := by
  rw [okOr_eq_ok, getD_eq_getElem?_getD, getElem?_eq_getElem hj, Option.getD_some]

theorem coordinate_abs_le (coordinates : List Int8) (j : ℕ) : |coordinate coordinates j| ≤ 2 ^ 7 := by
  have hlow := (coordinates.getD j 0).le_toInt
  have hhigh := (coordinates.getD j 0).toInt_lt
  rw [coordinate, abs_le]
  omega

variable (key u v second) in
/-- **The passes of a slot.** Pass `j` adds at the positions with keys `j` and `2K - j`. -/
theorem slotPasses_ok (hlen : coordinates.length = K) (hsecond : ∀ x, |second x| = |x|) (hkey : ∀ p, key p < 2 * K)
    (hu : ∀ j < K, u j < D ∧ ∀ p : Fin D, (p : ℕ) = u j ↔ key p = j)
    (hv : ∀ j, 1 ≤ j → j < K → v j < D ∧ ∀ p : Fin D, (p : ℕ) = v j ↔ key p = 2 * K - j)
    (hold : ∀ p, key p ≠ K → |packed p| ≤ 2 ^ 7) {n first : ℕ} (hn : n < K) (hzero : first = u 0) :
    (do let packed ← addI16 packed first (coordinate coordinates 0)
        (range' 1 n).foldlM (fun packed j => do
          let cj ← okOr coordinates[j]? outOfBounds
          let packed ← addI16 packed (u j) cj.toInt
          addI16 packed (v j) (second cj.toInt)) packed) =
      .ok fun p => packed p + slotUpTo second (coordinate coordinates) K n (key p) := by
  subst hzero
  have hfirst : addI16 packed (u 0) (coordinate coordinates 0) =
      .ok fun p => packed p + slotUpTo second (coordinate coordinates) K 0 (key p) := by
    rw [addI16_ok (hu 0 (by omega)).1 (fun p hp => hold p (by rw [((hu 0 (by omega)).2 p).1 hp]; omega)) (coordinate_abs_le _ _)]
    refine congrArg ok (funext fun p => ?_)
    have hlt := hkey p
    simp only [(hu 0 (by omega)).2 p, slotUpTo, Nat.le_zero, Nat.sub_zero]
    by_cases hk : key p = 0
    · rw [if_pos hk, if_pos hk, hk]
    · rw [if_neg hk, if_neg hk, if_neg (by omega)]
  obtain ⟨out, hrun, rfl⟩ := foldlM_range_runs
    (f := fun packed t => do
      let cj ← okOr coordinates[1 + t]? outOfBounds
      let packed ← addI16 packed (u (1 + t)) cj.toInt
      addI16 packed (v (1 + t)) (second cj.toInt))
    (P := fun t out => out = fun p => packed p + slotUpTo second (coordinate coordinates) K t (key p)) (n := n) (by
      rintro t ht out rfl
      -- neither position of the pass was touched before
      have hfresh : ∀ p, key p = 1 + t ∨ key p = 2 * K - (1 + t) → slotUpTo second (coordinate coordinates) K t (key p) = 0 := by
        intro p hp
        rw [slotUpTo, if_neg (by omega), if_neg (by omega)]
      have hcoord := okOr_coordinate (show 1 + t < coordinates.length by omega)
      obtain ⟨hut, hup⟩ := hu (1 + t) (by omega)
      obtain ⟨hvt, hvp⟩ := hv (1 + t) (by omega) (by omega)
      have hbound := coordinate_abs_le coordinates (1 + t)
      have hadd := @addI16_ok D (fun p => packed p + slotUpTo second (coordinate coordinates) K t (key p)) _ _ hut
        (fun p hp => by
          rw [hup] at hp
          rw [hfresh p (Or.inl hp), add_zero]
          exact hold p (by omega)) hbound
      have hadd' := @addI16_ok D (fun p => packed p + slotUpTo second (coordinate coordinates) K t (key p) +
          if (p : ℕ) = u (1 + t) then coordinate coordinates (1 + t) else 0) _ _ hvt
        (fun p hp => by
          rw [hvp] at hp
          rw [hfresh p (Or.inr hp), if_neg (by rw [hup]; omega), add_zero, add_zero]
          exact hold p (by omega)) ((hsecond _).trans_le hbound)
      refine ⟨_, by rw [hcoord, ok_bind]; exact (congrArg (· >>= _) hadd).trans hadd', funext fun p => ?_⟩
      have hlt := hkey p
      simp only [hup, hvp]
      by_cases hk : key p = 1 + t
      · rw [hfresh p (Or.inl hk), if_pos hk, if_neg (by omega), slotUpTo, if_pos (by omega), hk]
        ring
      · by_cases hk' : key p = 2 * K - (1 + t)
        · rw [hfresh p (Or.inr hk'), if_neg hk, if_pos hk', slotUpTo, if_neg (by omega), if_pos (by omega), hk',
            show 2 * K - (2 * K - (1 + t)) = 1 + t by omega]
          ring
        · rw [if_neg hk, if_neg hk', slotUpTo, slotUpTo]
          split_ifs <;> omega) rfl
  rw [hfirst, ok_bind, range'_eq_map_range, foldlM_map]
  exact hrun

/-- The block of a position at a low shift; positions of other shifts get the block that no pass touches. -/
def lowKey (K m shift p : ℕ) : ℕ := if p % 2 ^ m = shift then p / 2 ^ m else K

/-- The block of a position at a high shift, counted from the middle. -/
def highKey (K m shift p : ℕ) : ℕ :=
  if p % 2 ^ m = shift then if p / 2 ^ m < K then p / 2 ^ m + K else p / 2 ^ m - K else K

variable {κ m shift : ℕ} (hs : Shape D K κ m)

theorem block_position (hshift : shift < 2 ^ m) {p : ℕ} : p = shift + j * 2 ^ m ↔ p % 2 ^ m = shift ∧ p / 2 ^ m = j := by
  constructor
  · rintro rfl
    rw [Nat.add_mul_mod_self_right, mod_eq_of_lt hshift, Nat.add_mul_div_right _ _ (Nat.two_pow_pos m),
      Nat.div_eq_of_lt hshift, zero_add]
    exact ⟨rfl, rfl⟩
  · rintro ⟨hmod, hdiv⟩
    rw [← hmod, ← hdiv, mul_comm, Nat.mod_add_div]

include hs

theorem Shape.block_lt (p : Fin D) : (p : ℕ) / 2 ^ m < 2 * K := by
  rw [Nat.div_lt_iff_lt_mul (Nat.two_pow_pos m), ← hs.D_eq]
  exact p.2

theorem Shape.position_lt (hshift : shift < 2 ^ m) (hj : j < 2 * K) : shift + j * 2 ^ m < D := by
  have hrow := mul_le_mul_right (2 ^ m) (Nat.succ_le_of_lt hj)
  rw [succ_mul, ← hs.D_eq] at hrow
  omega

theorem packLowSlot_ok (hshift : shift < 2 ^ m) (hlen : coordinates.length = K) (hwidth : 1 ≤ width ∧ width ≤ K)
    (hold : ∀ p : Fin D, (p : ℕ) % 2 ^ m = shift → |packed p| ≤ 2 ^ 7) : packLowSlot (2 ^ m) width shift coordinates packed =
      .ok fun p => packed p + slotUpTo Neg.neg (coordinate coordinates) K (width - 1) (lowKey K m shift p) := by
  have hcoord := okOr_coordinate (show 0 < coordinates.length by omega)
  have hmiddle : shift + D = shift + 2 * K * 2 ^ m := by rw [← hs.D_eq]
  rw [packLowSlot, hcoord, ok_bind]
  refine slotPasses_ok (fun p => lowKey K m shift p) (fun j => shift + j * 2 ^ m) (fun j => shift + D - j * 2 ^ m) Neg.neg
    hlen abs_neg (fun p => ?_) (fun j hj => ⟨hs.position_lt hshift (by omega), fun p => ?_⟩)
    (fun j hj hjK => ?_) (fun p hp => hold p ?_) (by omega) (by simp)
  · dsimp only [lowKey]
    have := hs.block_lt p
    split_ifs <;> omega
  · rw [block_position hshift]
    dsimp only [lowKey]
    split_ifs <;> omega
  · have hpos : shift + D - j * 2 ^ m = shift + (2 * K - j) * 2 ^ m := by
      have hle := mul_le_mul_right (2 ^ m) (by omega : j ≤ 2 * K)
      rw [hmiddle, Nat.sub_mul]
      omega
    rw [hpos]
    refine ⟨hs.position_lt hshift (by omega), fun p => ?_⟩
    rw [block_position hshift]
    dsimp only [lowKey]
    split_ifs <;> omega
  · by_contra hne
    exact hp (if_neg hne)

theorem packHighSlot_ok (hshift : shift < 2 ^ m) (hlen : coordinates.length = K) (hwidth : 1 ≤ width ∧ width ≤ K)
    (hold : ∀ p : Fin D, (p : ℕ) % 2 ^ m = shift → |packed p| ≤ 2 ^ 7) :
    packHighSlot (2 ^ m) width (shift + D / 2) coordinates packed =
      .ok fun p => packed p + slotUpTo id (coordinate coordinates) K (width - 1) (highKey K m shift p) := by
  have hcoord := okOr_coordinate (show 0 < coordinates.length by omega)
  rw [packHighSlot, hcoord, ok_bind, hs.half_eq]
  refine slotPasses_ok (fun p => highKey K m shift p) (fun j => shift + K * 2 ^ m + j * 2 ^ m)
    (fun j => shift + K * 2 ^ m - j * 2 ^ m) id hlen (fun _ => rfl) (fun p => ?_) (fun j hj => ?_)
    (fun j hj hjK => ?_) (fun p hp => hold p ?_) (by omega) (by simp)
  · dsimp only [highKey]
    have := hs.block_lt p
    split_ifs <;> omega
  · rw [add_assoc, ← add_mul]
    refine ⟨hs.position_lt hshift (by omega), fun p => ?_⟩
    rw [block_position hshift]
    have hblock := hs.block_lt p
    dsimp only [highKey]
    generalize (p : ℕ) / 2 ^ m = b at hblock ⊢
    split_ifs <;> omega
  · rw [Nat.add_sub_assoc (mul_le_mul_right _ hjK.le), ← Nat.sub_mul]
    refine ⟨hs.position_lt hshift (by omega), fun p => ?_⟩
    rw [block_position hshift]
    have hblock := hs.block_lt p
    dsimp only [highKey]
    generalize (p : ℕ) / 2 ^ m = b at hblock ⊢
    split_ifs <;> omega
  · by_contra hne
    exact hp (if_neg hne)

end slot

/-! ## All slots -/

section

variable {D K κ m : ℕ} {c : ℕ → ℕ → ℤ} {i : ℕ}

/-- What slot `i` adds at a position, from its coordinates. -/
def slotAt (c : ℕ → ℕ → ℤ) (K m i p : ℕ) : ℤ :=
  if i < 2 ^ m then slotUpTo Neg.neg (c i) K (K - 1) (lowKey K m i p)
  else slotUpTo id (c i) K (K - 1) (highKey K m (i - 2 ^ m) p)

/-- The integer coefficient at a position after the first `n` slots. -/
def packedSum (c : ℕ → ℕ → ℤ) (K m n p : ℕ) : ℤ := ∑ i ∈ range n, slotAt c K m i p

theorem slotAt_abs_le (hc : ∀ i j, |c i j| ≤ 2 ^ 7) (i p : ℕ) : |slotAt c K m i p| ≤ 2 ^ 7 := by
  unfold slotAt
  split_ifs
  · exact slotUpTo_abs_le abs_neg (hc i) _ _
  · exact slotUpTo_abs_le (fun _ => rfl) (hc i) _ _

theorem mod_of_high (hhigh : 2 ^ m ≤ i) (hi : i < 2 * 2 ^ m) : i % 2 ^ m = i - 2 ^ m := by
  rw [Nat.mod_eq_sub_mod hhigh, mod_eq_of_lt (by omega)]

theorem slotAt_eq_zero (hK : 0 < K) {p : ℕ} (hi : i < 2 * 2 ^ m) (hne : p % 2 ^ m ≠ i % 2 ^ m) : slotAt c K m i p = 0 := by
  unfold slotAt
  split_ifs with hlow
  · rw [mod_eq_of_lt hlow] at hne
    rw [lowKey, if_neg hne, slotUpTo_middle (by omega)]
  · rw [mod_of_high (by omega) hi] at hne
    rw [highKey, if_neg hne, slotUpTo_middle (by omega)]

/-- **Before a slot, its class holds at most one other slot.** -/
theorem packedSum_abs_le (hK : 0 < K) (hc : ∀ i j, |c i j| ≤ 2 ^ 7) {n p : ℕ} (hn : n < 2 * 2 ^ m) (hp : p % 2 ^ m = n % 2 ^ m) :
    |packedSum c K m n p| ≤ 2 ^ 7 := by
  have hzero : ∀ i ∈ range n, i ≠ n - 2 ^ m → slotAt c K m i p = 0 := by
    intro i hi hne
    rw [mem_range] at hi
    refine slotAt_eq_zero hK (by omega) ?_
    rw [hp]
    rcases lt_or_ge n (2 ^ m) with hlow | hhigh
    · rw [mod_eq_of_lt hlow, mod_eq_of_lt (by omega)]
      omega
    · rw [mod_of_high hhigh hn]
      rcases lt_or_ge i (2 ^ m) with hi' | hi'
      · rw [mod_eq_of_lt hi']
        omega
      · rw [mod_of_high hi' (by omega)]
        omega
  rw [packedSum]
  by_cases hmem : n - 2 ^ m ∈ range n
  · rw [sum_eq_single_of_mem _ hmem hzero]
    exact slotAt_abs_le hc _ _
  · rw [sum_eq_zero fun i hi => hzero i hi fun h => hmem (h ▸ hi)]
    norm_num

/-- **One slot of digits**, with the coordinates past the width zero. -/
theorem packSlots_ok (hs : Shape D K κ m) (hc : ∀ i j, |c i j| ≤ 2 ^ 7) {width : ℕ} (hwidth : 1 ≤ width ∧ width ≤ K) {n : ℕ}
    (hn : n < 2 * 2 ^ m) {coordinates : List Int8} (hlen : coordinates.length = K) (hcoord : ∀ j, coordinate coordinates j = c n j)
    (hwide : ∀ j, width ≤ j → c n j = 0) :
    (if n < 2 ^ m then packLowSlot (2 ^ m) width n coordinates (fun p : Fin D => packedSum c K m n p)
      else packHighSlot (2 ^ m) width (n - 2 ^ m + D / 2) coordinates fun p : Fin D => packedSum c K m n p) =
        .ok fun p => packedSum c K m (n + 1) p := by
  have hK := hs.K_pos
  have hcoord : coordinate coordinates = c n := funext hcoord
  have hold : ∀ {s : ℕ} (p : Fin D), s = n % 2 ^ m → (p : ℕ) % 2 ^ m = s → |packedSum c K m n p| ≤ 2 ^ 7 :=
    fun p hs hp => packedSum_abs_le hK hc hn (hp.trans hs)
  have hkey : ∀ (second : ℤ → ℤ), (∀ x, |second x| = |x|) → ∀ k < 2 * K,
      slotUpTo second (c n) K (width - 1) k = slotUpTo second (c n) K (K - 1) k :=
    fun _ hsecond k hk => slotUpTo_eq hsecond (by omega) hk fun j hj => hwide j (by omega)
  split_ifs with hlow
  · rw [packLowSlot_ok hs hlow hlen hwidth fun p hp => hold p (mod_eq_of_lt hlow).symm hp, hcoord]
    refine congrArg ok (funext fun p => ?_)
    rw [packedSum, packedSum, sum_range_succ, slotAt, if_pos hlow, hkey _ abs_neg]
    have := hs.block_lt p
    unfold lowKey
    split_ifs <;> omega
  · rw [packHighSlot_ok hs (by omega) hlen hwidth fun p hp => hold p (mod_of_high (by omega) hn).symm hp, hcoord]
    refine congrArg ok (funext fun p => ?_)
    rw [packedSum, packedSum, sum_range_succ, slotAt, if_neg hlow, hkey id fun _ => rfl]
    have := hs.block_lt p
    unfold highKey
    split_ifs <;> omega

theorem slotAt_of_zero (h : ∀ j, c i j = 0) (p : ℕ) : slotAt c K m i p = 0 := by
  simp [slotAt, slotUpTo, h]

/-- Coordinate `j` of slot `i` of the base lift: the digits of its head slice, then zeros. -/
def baseLift (digits : List Int8) (width i j : ℕ) : ℤ := if j < width then (digits.getD (i * width + j) 0).toInt else 0

theorem baseLift_abs_le (digits : List Int8) (width i j : ℕ) : |baseLift digits width i j| ≤ 2 ^ 7 := by
  unfold baseLift
  split_ifs
  · exact coordinate_abs_le digits _
  · norm_num

/-- **The accumulators of a ring** never overflow, and hold the packed coefficients. -/
theorem packRing_ok (hs : Shape D K κ m) {width tailLen tailStart : ℕ} (hwidth : 1 ≤ width ∧ width ≤ K) {digits : List Int8}
    (hlen : digits.length = tailLen * width) (hstart : tailStart ≤ tailLen) :
    packRing D K width tailLen tailStart (digits.drop (tailStart * width)) =
      .ok (digits.drop (min (tailStart + 2 * 2 ^ m) tailLen * width),
        fun p => packedSum (fun i => baseLift digits width (tailStart + i)) K m (2 * 2 ^ m) p) := by
  obtain ⟨out, hrun, rfl⟩ := foldlM_range_runs (f := packSlot (D := D) K width tailLen tailStart)
    (P := fun n state => state = (digits.drop (min (tailStart + n) tailLen * width),
      fun p : Fin D => packedSum (fun i => baseLift digits width (tailStart + i)) K m n p)) (n := 2 * 2 ^ m) (by
      rintro n hn state rfl
      rw [packSlot]
      by_cases hend : tailStart + n ≥ tailLen
      · -- the tails are used up: the slot is zero
        have hzero : ∀ j, baseLift digits width (tailStart + n) j = 0 := by
          intro j
          have hrow := mul_le_mul_right width hend
          rw [baseLift, getD_eq_default _ _ (by omega)]
          simp
        refine ⟨_, by rw [if_pos hend], ?_⟩
        rw [min_eq_right hend, min_eq_right (by omega)]
        refine congrArg _ (funext fun p => ?_)
        rw [packedSum, packedSum, sum_range_succ, slotAt_of_zero (c := fun i => baseLift digits width (tailStart + i)) hzero, add_zero]
      · have hrow := mul_le_mul_right width (show tailStart + n + 1 ≤ tailLen by omega)
        rw [succ_mul] at hrow
        rw [if_neg hend, min_eq_left (by omega), hs.step_eq]
        dsimp only
        have hslot := @packSlots_ok D K κ m (fun i => baseLift digits width (tailStart + i)) hs
          (fun i j => baseLift_abs_le _ _ _ _) width hwidth n hn
          ((digits.drop ((tailStart + n) * width)).take width ++ replicate (K - width) 0)
          (by rw [length_append, length_take, length_drop, length_replicate]; omega) (fun j => ?_)
          fun j hj => if_neg (by omega)
        · rw [ensure_bind (by rw [length_drop]; omega)]
          refine ⟨(digits.drop (min (tailStart + (n + 1)) tailLen * width), _), ?_, rfl⟩
          rw [drop_drop, min_eq_left (by omega), ← add_assoc, succ_mul]
          split_ifs at hslot ⊢ <;> rw [hslot] <;> rfl
        · rw [coordinate, baseLift]
          split_ifs with hj
          · rw [getD_append _ _ _ _ (by rw [length_take, length_drop]; omega), getD_eq_getElem?_getD,
              getElem?_take, if_pos hj, getElem?_drop, ← getD_eq_getElem?_getD]
          · rw [getD_append_right _ _ _ _ (by rw [length_take, length_drop]; omega), getD_eq_getElem?_getD,
              getElem?_replicate]
            split_ifs <;> rfl) (by rw [add_zero, min_eq_left hstart])
  rw [packRing, hs.packed_eq]
  exact hrun

end

/-! ## The image in a field -/

section

variable {F : Type} [Field F] [DecidableEq F] {D K κ m : ℕ} {coordinates : List Int8} {coord : ℕ → Option F} {step shift : ℕ}
  {packed packed' : Fin D → ℤ}

section

variable (hK : 0 < K) (hlen : coordinates.length = K) (hcoord : ∀ j < K, coord j = some (coordinate coordinates j : F))

include hK hlen hcoord

/-- The image of the passes of a slot; `second` is the update at the second position. -/
theorem slotPasses_cast
    {u v : ℕ → ℕ} {second : ℤ → ℤ} {second' : F → F → F} (hsecond : ∀ x (c : ℤ), second' x c = x + (second c : ℤ))
    (h : (do let packed ← addI16 packed shift (coordinate coordinates 0)
             (range' 1 (K - 1)).foldlM (fun packed j => do
               let cj ← okOr coordinates[j]? outOfBounds
               let packed ← addI16 packed (u j) cj.toInt
               addI16 packed (v j) (second cj.toInt)) packed) = .ok packed') :
    (do let c0 ← okOr (coord 0) outOfBounds
        let out ← CyclotomicRing.update (fun p => (packed p : F)) shift (· + c0)
        (range' 1 (K - 1)).foldlM (fun out j => do
          let cj ← okOr (coord j) outOfBounds
          let out ← CyclotomicRing.update out (u j) (· + cj)
          CyclotomicRing.update out (v j) (second' · cj)) out) = .ok fun p => (packed' p : F) := by
  obtain ⟨first, hfirst, hrest⟩ := bind_eq_ok.1 h
  rw [hcoord 0 hK, okOr, ok_bind, update_cast (fun _ => rfl) hfirst, ok_bind]
  refine foldlM_image (φ := fun (s : Fin D → ℤ) p => (s p : F)) (fun j hj s s' hs' => ?_) hrest
  rw [mem_range'_1] at hj
  rw [okOr_coordinate (by omega), ok_bind] at hs'
  obtain ⟨mid, hmid, hlast⟩ := bind_eq_ok.1 hs'
  rw [hcoord j (by omega), coordinate, okOr, ok_bind, update_cast (fun _ => rfl) hmid, ok_bind, update_cast (fun x => hsecond x _) hlast]

theorem embedLowSlot_cast (h : packLowSlot step K shift coordinates packed = .ok packed') :
    embedLowSlot (K := K) step shift coord (fun p => (packed p : F)) = .ok fun p => (packed' p : F) := by
  rw [packLowSlot, okOr_coordinate (by omega), ok_bind] at h
  exact slotPasses_cast hK hlen hcoord (fun x c => by rw [Int.cast_neg, ← sub_eq_add_neg]) h

theorem embedHighSlot_cast (h : packHighSlot step K shift coordinates packed = .ok packed') :
    embedHighSlot (K := K) step shift coord (fun p => (packed p : F)) = .ok fun p => (packed' p : F) := by
  rw [packHighSlot, okOr_coordinate (by omega), ok_bind] at h
  exact slotPasses_cast hK hlen hcoord (fun x c => show x + (c : F) = x + (id c : ℤ) from rfl) h

end

/-- **The packing over a field** is the image of the packed integers. -/
theorem psiEmbed_cast (params : SubfieldParams D K) (hs : Shape D K κ m) (digits : ℕ → ℕ → Int8) :
    psiEmbed params ((List.range D).map fun n => ((digits (n / K) (n % K)).toInt : F)) =
      .ok fun p => (packedSum (fun i j => if j < K then (digits i j).toInt else 0) K m (2 * 2 ^ m) p : F) := by
  have hK := hs.K_pos
  have hlen : ∀ i, ((List.range K).map (digits i)).length = K := by simp
  have hcoord : ∀ i j, coordinate ((List.range K).map (digits i)) j = if j < K then (digits i j).toInt else 0 := by
    intro i j
    rw [coordinate, getD_eq_getElem?_getD, getElem?_map]
    split_ifs with hj
    · rw [getElem?_range hj]
      rfl
    · rw [getElem?_eq_none (by simpa using hj)]
      rfl
  have hread : ∀ i < 2 * 2 ^ m, ∀ j < K, ((List.range D).map fun n => ((digits (n / K) (n % K)).toInt : F))[i * K + j]? =
      some (coordinate ((List.range K).map (digits i)) j : F) := by
    intro i hi j hj
    rw [getElem?_map, getElem?_range (hs.index_lt hi hj), Option.map_some, hcoord, if_pos hj, add_comm,
      Nat.add_mul_div_right _ _ hK, Nat.div_eq_of_lt hj, zero_add, Nat.add_mul_mod_self_right, mod_eq_of_lt hj]
  have hbound : ∀ i j, |if j < K then (digits i j).toInt else 0| ≤ 2 ^ 7 := fun i j => hcoord i j ▸ coordinate_abs_le _ _
  have hslot := fun n (hn : n < 2 * 2 ^ m) => packSlots_ok (D := D) hs hbound ⟨hK, le_rfl⟩ hn (hlen n) (hcoord n)
    fun j hj => if_neg (by omega)
  -- the state of both loops, slot by slot
  obtain ⟨low, hlow, rfl⟩ := foldlM_range_runs (n := 2 ^ m) (s := (0 : CyclotomicRing F D))
    (f := fun out idx => embedLowSlot (K := K) (2 ^ m) idx
      (fun j => ((List.range D).map fun n => ((digits (n / K) (n % K)).toInt : F))[idx * K + j]?) out)
    (P := fun n out => out = fun p : Fin D => (packedSum (fun i j => if j < K then (digits i j).toInt else 0) K m n p : F))
    (by
      rintro n hn out rfl
      have hrun := hslot n (by omega)
      rw [if_pos hn] at hrun
      exact ⟨_, embedLowSlot_cast hK (hlen n) (hread n (by omega)) hrun, rfl⟩)
    (funext fun p => by simp [packedSum])
  obtain ⟨high, hhigh, rfl⟩ := foldlM_range_runs (n := 2 ^ m)
    (f := fun out idx => embedHighSlot (K := K) (2 ^ m) (2 ^ m + idx - 2 ^ m + D / 2)
      (fun j => ((List.range D).map fun n => ((digits (n / K) (n % K)).toInt : F))[(2 ^ m + idx) * K + j]?) out)
    (P := fun n out => out = fun p : Fin D =>
      (packedSum (fun i j => if j < K then (digits i j).toInt else 0) K m (2 ^ m + n) p : F))
    (by
      rintro n hn out rfl
      have hrun := hslot (2 ^ m + n) (by omega)
      rw [if_neg (by omega)] at hrun
      exact ⟨_, embedHighSlot_cast hK (hlen _) (hread _ (by omega)) hrun, rfl⟩) rfl
  rw [psiEmbed, ensure_bind (by simp), hs.step_eq, hs.packed_eq]
  dsimp only
  rw [add_zero, ← two_mul] at hhigh
  rw [hlow, ok_bind, show 2 * 2 ^ m - 2 ^ m = 2 ^ m by omega, range'_eq_map_range, foldlM_map, hhigh]

end

/-! ## The whole table -/

section table

variable {D K κ m : ℕ} {width : ℕ}

theorem packedSum_degree_one (c : ℕ → ℕ → ℤ) {p : ℕ} (hp : p < 2 * 2 ^ m) : packedSum c 1 m (2 * 2 ^ m) p = c p 0 := by
  have hslot : ∀ i < 2 * 2 ^ m, slotAt c 1 m i p = if i = p then c i 0 else 0 := by
    intro i hi
    rcases lt_or_ge p (2 ^ m) with hp' | hp'
    · have hdiv := Nat.div_eq_of_lt hp'
      have hself := mod_eq_of_lt hp'
      simp only [slotAt, lowKey, highKey, slotUpTo, hself, hdiv]
      split_ifs <;> omega
    · have hdiv : p / 2 ^ m = 1 := Nat.div_eq_of_lt_le (by omega) (by omega)
      have hself := mod_of_high hp' hp
      simp only [slotAt, lowKey, highKey, slotUpTo, hself, hdiv]
      split_ifs <;> first | (congr 1; omega) | rfl
  rw [packedSum, sum_congr rfl fun i hi => hslot i (mem_range.1 hi), sum_ite_eq' (range (2 * 2 ^ m)) p, if_pos (mem_range.2 hp)]

/-- The shapes that are packed: a supported degree, a width within it, and whole head slices. -/
def Packable (K width len : ℕ) : Prop := (K = 1 ∨ K = 2 ∨ K = 4 ∨ K = 8) ∧ 1 ≤ width ∧ width ≤ K ∧ width ∣ len

/-- A coefficient that an `i8` holds. -/
def FitsI8 (coeff : ℤ) : Prop := -2 ^ 7 ≤ coeff ∧ coeff < 2 ^ 7

theorem toI8_iff {coeff : ℤ} {d : Int8} : toI8 coeff = .ok d ↔ FitsI8 coeff ∧ d = Int8.ofInt coeff := by
  unfold toI8 FitsI8
  by_cases h : -2 ^ 7 ≤ coeff ∧ coeff < 2 ^ 7
  · rw [if_pos h, and_iff_right h, Except.ok.injEq, eq_comm]
  · rw [if_neg h]
    exact ⟨(fun hne => by cases hne), fun hand => absurd hand.1 h⟩

def ringCount (D K tailLen : ℕ) : ℕ := (tailLen + D / K - 1) / (D / K)

theorem ringCount_start (hs : Shape D K κ m) {tailLen r : ℕ} (hr : r < ringCount D K tailLen) : r * (2 * 2 ^ m) < tailLen := by
  have hstep := Nat.two_pow_pos m
  rw [ringCount, hs.packed_eq] at hr
  have hle := (Nat.le_div_iff_mul_le (by omega)).1 (Nat.succ_le_of_lt hr)
  rw [succ_mul r] at hle
  omega

/-- The packed integer coefficients of ring `r`. -/
def packedRing (m K width : ℕ) (digits : List Int8) (r p : ℕ) : ℤ :=
  packedSum (fun i => baseLift digits width (r * (2 * 2 ^ m) + i)) K m (2 * 2 ^ m) p

/-- **The arm of a degree** succeeds exactly when every coefficient fits. -/
theorem packTensorArm_iff (params : SubfieldParams D K) (hs : Shape D K κ m) {width : ℕ} (hwidth : 1 ≤ width ∧ width ≤ K)
    {digits : List Int8} (hdvd : width ∣ digits.length) {out : List Int8} : packTensorArm D K width digits = .ok out ↔
      (∀ r < ringCount D K (digits.length / width), ∀ p : Fin D, FitsI8 (packedRing m K width digits r p)) ∧
        out = ((List.range (ringCount D K (digits.length / width))).map fun r =>
          (ofFn fun p : Fin D => packedRing m K width digits r p).map Int8.ofInt).flatten := by
  obtain ⟨tailLen, htail⟩ := hdvd
  have hlen : digits.length = tailLen * width := by rw [htail, mul_comm]
  have htails : digits.length / width = tailLen := by rw [htail, Nat.mul_div_cancel_left _ (by omega)]
  have hcoeffs : ∀ r coeffs, (ofFn fun p : Fin D => packedRing m K width digits r p).mapM toI8 = .ok coeffs ↔
      (∀ p : Fin D, FitsI8 (packedRing m K width digits r p)) ∧
        coeffs = (ofFn fun p : Fin D => packedRing m K width digits r p).map Int8.ofInt := by
    intro r coeffs
    rw [mapM_iff_forall fun _ _ _ => toI8_iff, forall_mem_ofFn_iff]
  have hloop : ∀ n ≤ ringCount D K tailLen, ∀ state, (List.range n).foldlM (fun (state : List Int8 × List Int8) ring => do
      let packed ← packRing D K width tailLen (ring * (D / K)) state.1
      let coeffs ← (List.ofFn packed.2).mapM toI8
      return (packed.1, state.2 ++ coeffs)) (digits, []) = .ok state ↔
      (∀ r < n, ∀ p : Fin D, FitsI8 (packedRing m K width digits r p)) ∧
        state = (digits.drop (min (n * (2 * 2 ^ m)) tailLen * width), ((List.range n).map fun r =>
          (List.ofFn fun p : Fin D => packedRing m K width digits r p).map Int8.ofInt).flatten) := by
    intro n
    induction n with
    | zero =>
      intro _ state
      simp only [List.range_zero, foldlM_nil, pure_eq_ok, Nat.not_lt_zero, false_implies, implies_true, true_and, zero_mul,
        Nat.zero_min, drop_zero, map_nil, flatten_nil]
      exact eq_comm
    | succ n ih =>
      intro hn state
      have hbelow := ringCount_start hs (Nat.lt_of_succ_le hn)
      have hrun := packRing_ok hs hwidth hlen hbelow.le
      have hnext : min (n * (2 * 2 ^ m) + 2 * 2 ^ m) tailLen = min ((n + 1) * (2 * 2 ^ m)) tailLen := by
        rw [succ_mul n]
      rw [range_succ, foldlM_append, bind_eq_ok]
      constructor
      · rintro ⟨mid, hmid, hlast⟩
        obtain ⟨hfits, rfl⟩ := (ih (by omega) mid).1 hmid
        rw [foldlM_cons, min_eq_left hbelow.le, hs.packed_eq, hrun, ok_bind] at hlast
        obtain ⟨next, hpass, hnil⟩ := bind_eq_ok.1 hlast
        obtain ⟨coeffs, hmap, hret⟩ := bind_eq_ok.1 hpass
        obtain ⟨hfit, rfl⟩ := (hcoeffs n coeffs).1 hmap
        cases hret
        cases hnil
        refine ⟨fun r hr => ?_, by rw [hnext, map_append, flatten_append]; simp⟩
        rcases Nat.lt_succ_iff_lt_or_eq.1 hr with hlt | rfl
        · exact hfits r hlt
        · exact hfit
      · rintro ⟨hfits, rfl⟩
        refine ⟨_, (ih (by omega) _).2 ⟨fun r hr => hfits r (by omega), rfl⟩, ?_⟩
        have hmap := (hcoeffs n _).2 ⟨hfits n (by omega), rfl⟩
        unfold packedRing at hmap
        rw [foldlM_cons, min_eq_left hbelow.le, hs.packed_eq, hrun, ok_bind]
        rw [hmap, ok_bind, hnext, map_append, flatten_append, List.map_singleton, flatten_singleton]
        rfl
  unfold packTensorArm
  rw [params.new_ok, ok_bind, htails]
  dsimp only
  rw [bind_eq_ok]
  constructor
  · rintro ⟨state, hrun, hout⟩
    obtain ⟨hfits, rfl⟩ := (hloop _ le_rfl state).1 hrun
    exact ⟨hfits, (Except.ok.inj hout).symm⟩
  · rintro ⟨hfits, rfl⟩
    exact ⟨_, (hloop _ le_rfl _).2 ⟨hfits, rfl⟩, rfl⟩

theorem baseLift_one (digits : List Int8) (i : ℕ) : baseLift digits 1 i 0 = (digits.getD i 0).toInt := by
  rw [baseLift, if_pos Nat.one_pos, mul_one, add_zero]

/-- **A packed ring over a field** is the packing of the lifted digits. -/
theorem psiEmbed_packedRing {F : Type} [Field F] [DecidableEq F] (params : SubfieldParams D K) (hs : Shape D K κ m)
    (hwidth : width ≤ K) (digits : List Int8) (r : ℕ) :
    psiEmbed params ((List.range D).map fun n => (baseLift digits width (r * (D / K) + n / K) (n % K) : F)) =
      .ok fun p => (packedRing m K width digits r p : F) := by
  have hlift : ∀ i j, (if j < width then digits.getD ((r * (2 * 2 ^ m) + i) * width + j) 0 else 0).toInt =
      baseLift digits width (r * (2 * 2 ^ m) + i) j := by
    intro i j
    rw [baseLift]
    split_ifs <;> rfl
  have hwide : ∀ i j, (if j < K then baseLift digits width (r * (2 * 2 ^ m) + i) j else 0) =
      baseLift digits width (r * (2 * 2 ^ m) + i) j := by
    intro i j
    rw [baseLift]
    split_ifs <;> first | rfl | omega
  have hcast := psiEmbed_cast (F := F) params hs fun i j =>
    if j < width then digits.getD ((r * (2 * 2 ^ m) + i) * width + j) 0 else 0
  simp only [hlift, hwide] at hcast
  rw [hs.packed_eq]
  exact hcast

theorem packTensor_eq {digits : List Int8} (h : Packable K width digits.length) :
    packTensorBaseLiftI8Digits D digits K width = if K = 1 then .ok digits else packTensorArm D K width digits := by
  obtain ⟨hdegree, hwidth, hle, hdvd⟩ := h
  rw [packTensorBaseLiftI8Digits, ensure_bind (by omega)]
  split_ifs with hone hsupported
  · rw [ensure_bind (by omega)]
    rfl
  · rw [ensure_bind hdvd]
  · omega

theorem packTensor_packable {digits out : List Int8} (h : packTensorBaseLiftI8Digits D digits K width = .ok out) :
    Packable K width digits.length := by
  unfold packTensorBaseLiftI8Digits at h
  simp only [result_ok] at h
  obtain ⟨hwidth, h⟩ := h
  split_ifs at h with hone hsupported
  · simp only [result_ok] at h
    exact ⟨Or.inl hone, by omega, by omega, h.1 ▸ one_dvd _⟩
  · simp only [result_ok] at h
    exact ⟨Or.inr hsupported, by omega, by omega, h.1⟩
  · simp only [result_ok] at h
    cases h.2

/-- **Packing of integer digits**: the accumulators of every ring hold, without overflow, the integers whose images are the
packing of the lifted digits over every field; the result is those integers, and there is one exactly when they fit. -/
theorem pack_tensor_base_lift_exact (params : SubfieldParams D K) (width : ℕ) (digits : List Int8) :
    ((∃ out, packTensorBaseLiftI8Digits D digits K width = .ok out) → Packable K width digits.length) ∧
    (Packable K width digits.length → ∃ rings : ℕ → ℕ → ℤ,
      (∀ (F : Type) [Field F] [DecidableEq F] (r : ℕ), psiEmbed params
        ((List.range D).map fun n => (baseLift digits width (r * (D / K) + n / K) (n % K) : F)) = .ok fun p => (rings r p : F)) ∧
      (∀ r < ringCount D K (digits.length / width), ∃ rest, packRing D K width (digits.length / width) (r * (D / K))
        (digits.drop (r * (D / K) * width)) = .ok (rest, fun p => rings r p)) ∧
      ((∃ out, packTensorBaseLiftI8Digits D digits K width = .ok out) ↔
        ∀ r < ringCount D K (digits.length / width), ∀ p < D, FitsI8 (rings r p)) ∧
      ∀ out, packTensorBaseLiftI8Digits D digits K width = .ok out →
        out.length = (if K = 1 then digits.length else ringCount D K (digits.length / width) * D) ∧
        ∀ r < ringCount D K (digits.length / width), ∀ p < D, (out.getD (r * D + p) 0).toInt = rings r p) := by
  refine ⟨fun h => packTensor_packable h.choose_spec, fun h => ?_⟩
  obtain ⟨κ, m, hs⟩ := params.shape
  have hwidth : 1 ≤ width ∧ width ≤ K := ⟨h.2.1, h.2.2.1⟩
  have hlen := Nat.div_mul_cancel h.2.2.2
  refine ⟨packedRing m K width digits, fun F _ _ r => psiEmbed_packedRing params hs hwidth.2 digits r, fun r hr => ?_, ?_⟩
  · rw [hs.packed_eq]
    exact ⟨_, packRing_ok hs hwidth hlen.symm (ringCount_start hs hr).le⟩
  rw [packTensor_eq h]
  split_ifs with hone
  · -- at degree one the digits are the coefficients
    subst hone
    obtain rfl : width = 1 := by omega
    have hcoeff : ∀ r, ∀ p < D, (digits.getD (r * D + p) 0).toInt = packedRing m 1 1 digits r p := by
      intro r p hp
      have hD : D = 2 * 2 ^ m := by rw [hs.D_eq, mul_one]
      rw [packedRing, packedSum_degree_one _ (hD ▸ hp), baseLift_one, ← hD]
    refine ⟨⟨fun _ r hr p hp => ?_, fun _ => ⟨digits, rfl⟩⟩, fun out hout => ?_⟩
    · rw [← hcoeff r p hp]
      exact ⟨Int8.le_toInt _, Int8.toInt_lt _⟩
    · cases hout
      exact ⟨rfl, fun r _ p hp => hcoeff r p hp⟩
  · have hiff := fun out => @packTensorArm_iff D K κ m params hs width hwidth digits h.2.2.2 out
    refine ⟨⟨fun ⟨out, hout⟩ r hr p hp => ((hiff out).1 hout).1 r hr ⟨p, hp⟩,
      fun hfits => ⟨_, (hiff _).2 ⟨fun r hr p => hfits r hr p p.2, rfl⟩⟩⟩, fun out hout => ?_⟩
    obtain ⟨hfits, rfl⟩ := (hiff out).1 hout
    have hrows : ∀ row ∈ (List.range (ringCount D K (digits.length / width))).map fun r =>
        (List.ofFn fun p : Fin D => packedRing m K width digits r p).map Int8.ofInt, row.length = D := by
      intro row hrow
      obtain ⟨r, -, rfl⟩ := List.mem_map.1 hrow
      rw [List.length_map, List.length_ofFn]
    refine ⟨by rw [length_flatten_of_width hrows, List.length_map, List.length_range], fun r hr p hp => ?_⟩
    rw [List.getD_eq_getElem?_getD, getElem?_flatten hrows hp, List.getElem?_map, List.getElem?_range hr, Option.map_some,
      Option.bind_some, List.getElem?_map, List.getElem?_ofFn, dif_pos hp, Option.map_some, Option.getD_some]
    exact Int8.toInt_ofInt_of_le (hfits r hr ⟨p, hp⟩).1 (hfits r hr ⟨p, hp⟩).2

/-- Two head slices at `K = 2`. -/
theorem pack_tensor_base_lift_heads :
    packTensorBaseLiftI8Digits 8 [1, 2, 3, 4] 2 2 = .ok [1, 3, 2, 4, 0, 0, -2, -4] ∧ ∃ rings : ℕ → ℕ → ℤ,
      (psiEmbed params82 ((List.range 8).map fun n => (baseLift [1, 2, 3, 4] 2 (0 * (8 / 2) + n / 2) (n % 2) : ZMod 3)) =
        .ok fun p => (rings 0 p : ZMod 3)) ∧ ∀ p < 8, FitsI8 (rings 0 p) := by
  have hpack : packTensorBaseLiftI8Digits 8 [1, 2, 3, 4] 2 2 = .ok [1, 3, 2, 4, 0, 0, -2, -4] := by
    rw [packTensor_eq ⟨Or.inr (Or.inl rfl), by decide, by decide, by decide⟩, if_neg (by decide), packTensorArm, params82.new_ok]
    decide
  obtain ⟨rings, hfield, -, hiff, -⟩ := (pack_tensor_base_lift_exact params82 2 [1, 2, 3, 4]).2
    ⟨Or.inr (Or.inl rfl), by decide, by decide, by decide⟩
  exact ⟨hpack, rings, hfield (ZMod 3) 0, hiff.1 ⟨_, hpack⟩ 0 (by decide)⟩

/-- At a valid pair with no arm, digits whose packing is zero are refused. -/
theorem pack_tensor_degree_sixteen :
    psiEmbed params3216 ((List.range 32).map fun n => (baseLift [0, 0] 1 (n / 16) (n % 16) : ZMod 3)) =
      .ok (fun _ => ((0 : ℤ) : ZMod 3)) ∧ FitsI8 0 ∧ ∀ out, packTensorBaseLiftI8Digits 32 [0, 0] 16 1 ≠ .ok out := by
  have hzero : ∀ i j, baseLift [0, 0] 1 i j = 0 := by
    intro i j
    rw [baseLift, show ([0, 0] : List Int8) = List.replicate 2 0 from rfl, getD_eq_getElem?_getD, getElem?_replicate]
    split_ifs <;> rfl
  have hring : ∀ p, packedRing 0 16 1 [0, 0] 0 p = 0 := by
    intro p
    rw [packedRing, packedSum]
    refine sum_eq_zero fun i _ => slotAt_of_zero ?_ p
    exact hzero _
  refine ⟨?_, ⟨by decide, by decide⟩, fun out hout => ?_⟩
  · have hembed := psiEmbed_packedRing (F := ZMod 3) params3216 shape3216 (by decide : 1 ≤ 16) [0, 0] 0
    simp only [hring, zero_mul, zero_add] at hembed
    exact hembed
  · rcases (packTensor_packable hout).1 with h | h | h | h <;> omega

end table

end Akita.FieldReduction
