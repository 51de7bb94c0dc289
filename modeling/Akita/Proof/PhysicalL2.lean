import Akita.Lib.Enumerate
import Akita.Spec.PhysicalL2

/-!
# The physical L2-norm check does not wrap

A shape that passes `validate_integer_soundness` bounds every integer of the norm proof: the
square sum of a direct proof stays below the modulus, and the Gram integers of a block stay
within half of it, so `centered_lift` reads them back from the field. The reconstruction then
adds up the square of every response.
-/

namespace Akita.PhysicalL2

open Lib Finset PhysicalL2NormProofShape
open List (map_flatMap flatMap_congr map_congr_left)
open Option (bind_some)

variable {shape : PhysicalL2NormProofShape} {profile : SisModulusProfileId} {c : ℕ × ℕ × ℕ}

/-- A balanced digit to base `b`. -/
def BalancedDigit (b : ℕ) (d : ℤ) : Prop := -(b / 2 : ℕ) ≤ d ∧ d < (b / 2 : ℕ)

/-- The response `z_x` with digits `d x 0, d x 1, ..` to base `b`. -/
def response (b limbs : ℕ) (d : ℕ → ℕ → ℤ) (x : ℕ) : ℤ := ∑ k ∈ range limbs, d x k * (b : ℤ) ^ k

/-- The Gram integer of a limb pair over the coordinates of a block. -/
def gram (d : ℕ → ℕ → ℤ) (block pair : ℕ × ℕ) : ℤ :=
  ∑ j ∈ range (block.2 - block.1), d (block.1 + j) pair.1 * d (block.1 + j) pair.2

/-- The digit planes of `len` responses, one plane a limb. -/
def digitPlanes (len limbs : ℕ) (d : ℕ → ℕ → ℤ) : List (List ℤ) :=
  (List.range limbs).map fun k => (List.range len).map fun x => d x k

theorem BalancedDigit.abs_le_half {b : ℕ} {d : ℤ} (h : BalancedDigit b d) : |d| ≤ (b / 2 : ℕ) := by
  obtain ⟨hlo, hhi⟩ := h
  exact abs_le.2 ⟨hlo, hhi.le⟩

namespace LimbGramLayout

variable {layout : LimbGramLayout} {i limbs l : ℕ} {p : ℕ × ℕ} {M : Type*}

theorem new_eq_ok {len blockLen limbCount : ℕ} (h : LimbGramLayout.new len blockLen limbCount = .ok layout) :
    layout.physicalResponseLen = len ∧ layout.blockLen = blockLen ∧ layout.limbCount = limbCount := by
  unfold LimbGramLayout.new at h
  split at h
  · cases h
  · dsimp only at h
    split at h
    · split at h
      · cases h
        exact ⟨rfl, rfl, rfl⟩
      · cases h
    · cases h

/-- The block of an index, without the saturation of its end. -/
def blockRange (layout : LimbGramLayout) (i : ℕ) : ℕ × ℕ :=
  (i * layout.blockLen, min ((i + 1) * layout.blockLen) layout.physicalResponseLen)

theorem blockRanges_eq (hlen : layout.physicalResponseLen < 2 ^ usizeBits) :
    layout.blockRanges = (List.range layout.blockCount).map layout.blockRange := by
  unfold blockRanges blockRange
  apply map_congr_left
  intro i _
  have hmul : (i + 1) * layout.blockLen = i * layout.blockLen + layout.blockLen := by ring
  simp only [hmul, Prod.mk.injEq, true_and]
  omega

/-- Every block but the last is full, and the last one reaches the end. -/
theorem lt_blockCount : i < layout.blockCount ↔ i * layout.blockLen < layout.physicalResponseLen := by
  have hB := layout.blockLen_pos
  have hdiv := Nat.div_add_mod layout.physicalResponseLen layout.blockLen
  have hmod := Nat.mod_lt layout.physicalResponseLen hB
  rw [layout.blockCount_eq, divCeil]
  set q := layout.physicalResponseLen / layout.blockLen
  set r := layout.physicalResponseLen % layout.blockLen
  have hcomm : layout.blockLen * q = q * layout.blockLen := mul_comm _ _
  constructor
  · intro hi
    split at hi
    · have hle : i * layout.blockLen ≤ q * layout.blockLen := Nat.mul_le_mul_right _ (by omega)
      omega
    · have hle : (i + 1) * layout.blockLen ≤ q * layout.blockLen := Nat.mul_le_mul_right _ (by omega)
      have hadd : (i + 1) * layout.blockLen = i * layout.blockLen + layout.blockLen := by ring
      omega
  · intro hi
    by_contra hge
    split at hge
    · have hle : (q + 1) * layout.blockLen ≤ i * layout.blockLen := Nat.mul_le_mul_right _ (by omega)
      have hadd : (q + 1) * layout.blockLen = q * layout.blockLen + layout.blockLen := by ring
      omega
    · have hle : q * layout.blockLen ≤ i * layout.blockLen := Nat.mul_le_mul_right _ (by omega)
      omega

theorem blockRange_width (i : ℕ) : (layout.blockRange i).2 - (layout.blockRange i).1 ≤ layout.blockLen := by
  have hmul : (i + 1) * layout.blockLen = i * layout.blockLen + layout.blockLen := by ring
  unfold blockRange
  omega

theorem blockRange_le (j : ℕ) (hj : j < (layout.blockRange i).2 - (layout.blockRange i).1) :
    (layout.blockRange i).1 + j < layout.physicalResponseLen := by
  unfold blockRange at *
  omega

theorem flatMap_blockRange : (List.range layout.blockCount).flatMap (fun i => List.range' (layout.blockRange i).1
      ((layout.blockRange i).2 - (layout.blockRange i).1)) = List.range layout.physicalResponseLen := by
  have hend : min (layout.blockCount * layout.blockLen) layout.physicalResponseLen = layout.physicalResponseLen := by
    have hlast := mt (layout.lt_blockCount (i := layout.blockCount)).2 (lt_irrefl _)
    omega
  have hstart : ∀ i < layout.blockCount, min (i * layout.blockLen) layout.physicalResponseLen = i * layout.blockLen := by
    intro i hi
    have := layout.lt_blockCount.1 hi
    omega
  have hseg := flatMap_range_segments (n := layout.blockCount)
    (fun i => min (i * layout.blockLen) layout.physicalResponseLen)
    (fun i => min ((i + 1) * layout.blockLen) layout.physicalResponseLen -
      min (i * layout.blockLen) layout.physicalResponseLen) (by simp) (by
      intro i _
      have hmul : (i + 1) * layout.blockLen = i * layout.blockLen + layout.blockLen := by ring
      omega)
  rw [hend] at hseg
  rw [← hseg]
  apply flatMap_congr
  intro i hi
  unfold blockRange
  rw [hstart i (List.mem_range.1 hi)]

theorem sum_blocks [AddCommMonoid M] (f : ℕ → M) :
    ∑ i ∈ range layout.blockCount, ∑ j ∈ range ((layout.blockRange i).2 - (layout.blockRange i).1),
      f ((layout.blockRange i).1 + j) = ∑ x ∈ range layout.physicalResponseLen, f x := by
  rw [← sum_map_range layout.physicalResponseLen, ← layout.flatMap_blockRange, map_flatMap,
    List.flatMap_def, List.sum_flatten, List.map_map, ← sum_map_range]
  congr 1
  apply map_congr_left
  intro i _
  exact (sum_map_range' _ _ f).symm

/-- The pairs in the rows above `l`. -/
def precedingRows (limbs l : ℕ) : ℕ := l * limbs - l * (l - 1) / 2

theorem two_dvd_mul_pred (l : ℕ) : l * (l - 1) / 2 * 2 = l * (l - 1) := by
  apply Nat.div_mul_cancel
  rcases l with _ | l
  · simp
  · rw [Nat.add_sub_cancel, mul_comm]
    exact (Nat.even_mul_succ_self l).two_dvd

theorem mul_pred_le (hl : l ≤ limbs) : l * (l - 1) ≤ l * limbs := Nat.mul_le_mul_left _ (by omega)

theorem precedingRows_succ (hl : l < limbs) : precedingRows limbs (l + 1) = precedingRows limbs l + (limbs - l) := by
  have h3 := mul_pred_le hl.le
  have hpred : (l + 1) * (l + 1 - 1) = l * (l - 1) + 2 * l := by
    rcases l with _ | l
    · simp
    · simp only [Nat.add_sub_cancel]; ring
  have hmul : (l + 1) * limbs = l * limbs + limbs := by ring
  unfold precedingRows
  omega

theorem precedingRows_self (layout : LimbGramLayout) : precedingRows layout.limbCount layout.limbCount = layout.pairCount := by
  have h1 := two_dvd_mul_pred layout.limbCount
  have h3 := layout.limbCount_pos
  have hmul : layout.limbCount * (layout.limbCount + 1) = layout.limbCount * (layout.limbCount - 1) + 2 * layout.limbCount := by
    obtain ⟨l, hl⟩ : ∃ l, layout.limbCount = l + 1 := ⟨layout.limbCount - 1, by omega⟩
    rw [hl, Nat.add_sub_cancel]; ring
  have hsq : layout.limbCount * layout.limbCount = layout.limbCount * (layout.limbCount - 1) + layout.limbCount := by
    obtain ⟨l, hl⟩ : ∃ l, layout.limbCount = l + 1 := ⟨layout.limbCount - 1, by omega⟩
    rw [hl, Nat.add_sub_cancel]; ring
  rw [layout.pairCount_eq]
  unfold precedingRows
  omega

theorem mem_limbPairs : p ∈ layout.limbPairs ↔ p.1 ≤ p.2 ∧ p.2 < layout.limbCount := by
  obtain ⟨l, r⟩ := p
  simp only [limbPairs, List.mem_flatMap, List.mem_range, List.mem_map, List.mem_range'_1, Prod.mk.injEq]
  constructor
  · rintro ⟨l', hl', r', hr', rfl, rfl⟩
    omega
  · intro h
    exact ⟨l, by omega, r, by omega, rfl, rfl⟩

theorem limbPairs_index :
    layout.limbPairs.map (fun p => precedingRows layout.limbCount p.1 + (p.2 - p.1)) = List.range layout.pairCount := by
  rw [← layout.precedingRows_self, ← flatMap_range_segments (precedingRows layout.limbCount)
    (fun l => layout.limbCount - l) (by simp [precedingRows]) (fun l hl => precedingRows_succ hl), limbPairs,
    map_flatMap]
  apply flatMap_congr
  intro l _
  rw [List.map_map, List.range'_eq_map_range, List.range'_eq_map_range, List.map_map]
  apply map_congr_left
  intro j _
  simp

theorem pairIndex_lt (hp : p ∈ layout.limbPairs) : precedingRows layout.limbCount p.1 + (p.2 - p.1) < layout.pairCount := by
  have hmem := List.mem_map_of_mem (f := fun p => precedingRows layout.limbCount p.1 + (p.2 - p.1)) hp
  rw [limbPairs_index] at hmem
  exact List.mem_range.1 hmem

/-- The checked arithmetic of `subclaim_index` does not fail on a pair of the layout. -/
theorem subclaimIndex_eq (hi : i < layout.blockCount) (hp : p ∈ layout.limbPairs) : layout.subclaimIndex i p.1 p.2 =
      some (i * layout.pairCount + (precedingRows layout.limbCount p.1 + (p.2 - p.1))) := by
  obtain ⟨hlr, hr⟩ := layout.mem_limbPairs.1 hp
  have hpair := layout.pairIndex_lt hp
  have hpairs := layout.pairs_lt
  have hsub := layout.subclaims_lt
  have hrows : p.1 * layout.limbCount ≤ layout.limbCount * (layout.limbCount + 1) :=
    Nat.mul_le_mul (by omega) (by omega)
  have htri : p.1 * (p.1 - 1) ≤ p.1 * layout.limbCount := mul_pred_le (by omega)
  have hblock : i * layout.pairCount + layout.pairCount ≤ layout.blockCount * layout.pairCount := by
    calc i * layout.pairCount + layout.pairCount = (i + 1) * layout.pairCount := by ring
      _ ≤ layout.blockCount * layout.pairCount := Nat.mul_le_mul_right _ hi
  have hdiv : p.1 * (p.1 - 1) / 2 ≤ p.1 * layout.limbCount := (Nat.div_le_self _ _).trans htri
  unfold precedingRows at *
  unfold subclaimIndex
  rw [if_neg (by omega)]
  simp only [checkedMul, checkedSub, checkedAdd, Option.bind_eq_bind]
  rw [if_pos (by omega), bind_some, if_pos (by omega), bind_some, if_pos hdiv, bind_some,
    if_pos hlr, bind_some, if_pos (by omega), bind_some, if_pos (by omega), bind_some, if_pos (by omega)]

def subclaims (layout : LimbGramLayout) : List (ℕ × ℕ × ℕ) :=
  (List.range layout.blockCount).flatMap fun i => layout.limbPairs.map fun p => (i, p)

theorem mem_subclaims : c ∈ layout.subclaims ↔ c.1 < layout.blockCount ∧ c.2 ∈ layout.limbPairs := by
  obtain ⟨i, p⟩ := c
  simp [subclaims]

theorem subclaims_index :
    layout.subclaims.map (fun c => layout.subclaimIndex c.1 c.2.1 c.2.2) = (List.range layout.subclaimCount).map some := by
  have hseg := flatMap_range_segments (n := layout.blockCount) (fun i => i * layout.pairCount)
    (fun _ => layout.pairCount) (by simp) (by intro i _; ring)
  rw [subclaimCount, ← hseg, subclaims, map_flatMap, map_flatMap]
  apply flatMap_congr
  intro i hi
  rw [List.range'_eq_map_range, ← layout.limbPairs_index, List.map_map, List.map_map, List.map_map]
  apply map_congr_left
  intro p hp
  exact layout.subclaimIndex_eq (List.mem_range.1 hi) hp

theorem sum_limbPairs [AddCommMonoid M] (g : ℕ × ℕ → M) :
    (layout.limbPairs.map g).sum = ∑ l ∈ range layout.limbCount, ∑ j ∈ range (layout.limbCount - l), g (l, l + j) := by
  rw [limbPairs, map_flatMap, List.flatMap_def, List.sum_flatten, List.map_map, sum_map_range]
  apply sum_congr rfl
  intro l _
  rw [Function.comp_apply, List.map_map, sum_map_range']
  rfl

end LimbGramLayout

section

variable {b L len : ℕ} {d : ℕ → ℕ → ℤ}

/-- The digits of `len` responses to base `b`, all balanced. -/
def BalancedDigits (b L len : ℕ) (d : ℕ → ℕ → ℤ) : Prop := ∀ x < len, ∀ k < L, BalancedDigit b (d x k)

theorem directResponseBound_eq_ok {a n m p : ℕ} (h : directResponseBound a b n = .ok (m, p)) :
    p = b ^ n ∧ m = ∑ k ∈ range n, a * b ^ k := by
  induction n generalizing m p with
  | zero =>
    have heq : 0 = m ∧ 1 = p := by simpa [directResponseBound] using h
    simp [← heq.1, ← heq.2]
  | succ n ih =>
    simp only [directResponseBound, result_ok, checked_some, Prod.mk.injEq] at h
    obtain ⟨⟨m', p'⟩, hrec, t, ⟨-, rfl⟩, m'', ⟨-, rfl⟩, p'', ⟨-, rfl⟩, rfl, rfl⟩ := h
    obtain ⟨rfl, rfl⟩ := ih hrec
    exact ⟨(pow_succ b n).symm, (sum_range_succ _ n).symm⟩

theorem abs_response_le {x : ℕ} (hd : ∀ k < L, BalancedDigit b (d x k)) :
    |response b L d x| ≤ ((∑ k ∈ range L, b / 2 * b ^ k : ℕ) : ℤ) := by
  calc |response b L d x| ≤ ∑ k ∈ range L, |d x k * (b : ℤ) ^ k| := abs_sum_le_sum_abs _ _
    _ ≤ ∑ k ∈ range L, ((b / 2 : ℕ) : ℤ) * (b : ℤ) ^ k := by
        apply sum_le_sum
        intro k hk
        have hpow : (0 : ℤ) ≤ (b : ℤ) ^ k := by positivity
        rw [abs_mul, abs_of_nonneg hpow]
        exact mul_le_mul_of_nonneg_right (hd k (mem_range.1 hk)).abs_le_half hpow
    _ = ((∑ k ∈ range L, b / 2 * b ^ k : ℕ) : ℤ) := by push_cast; rfl

theorem sum_response_sq_le {m : ℕ} (hm : ∀ x < len, |response b L d x| ≤ (m : ℤ)) :
    ∑ x ∈ range len, response b L d x ^ 2 ≤ ((len * (m * m) : ℕ) : ℤ) := by
  calc ∑ x ∈ range len, response b L d x ^ 2 ≤ ∑ _x ∈ range len, (m : ℤ) ^ 2 := by
        apply sum_le_sum
        intro x hx
        exact sq_le_sq.2 ((hm x (mem_range.1 hx)).trans (le_abs_self _))
    _ = ((len * (m * m) : ℕ) : ℤ) := by
        rw [sum_const, card_range, nsmul_eq_mul]
        push_cast
        ring

theorem abs_inner_le (hd : BalancedDigits b L len d) {a n l r : ℕ} (hn : ∀ j < n, a + j < len) (hl : l < L) (hr : r < L) :
    |∑ j ∈ range n, d (a + j) l * d (a + j) r| ≤ ((n * (b / 2 * (b / 2)) : ℕ) : ℤ) := by
  calc |∑ j ∈ range n, d (a + j) l * d (a + j) r| ≤ ∑ j ∈ range n, |d (a + j) l * d (a + j) r| := abs_sum_le_sum_abs _ _
    _ ≤ ∑ _j ∈ range n, ((b / 2 : ℕ) : ℤ) * ((b / 2 : ℕ) : ℤ) := by
        apply sum_le_sum
        intro j hj
        have hx := hn j (mem_range.1 hj)
        rw [abs_mul]
        exact mul_le_mul (hd _ hx l hl).abs_le_half (hd _ hx r hr).abs_le_half (abs_nonneg _) (by positivity)
    _ = ((n * (b / 2 * (b / 2)) : ℕ) : ℤ) := by
        rw [sum_const, card_range, nsmul_eq_mul]
        rfl

end

/-- What a validated LimbGram shape says of its layout and of the bound on its claims. -/
structure GramBound (profile : SisModulusProfileId) (b L : ℕ) (layout : LimbGramLayout) : Prop where
  limbCount : layout.limbCount = L
  modulus : profile.modulus ≤ i128Max
  bound : layout.blockLen * (b / 2 * (b / 2)) < profile.modulus / 2

/-- **The soundness check, read back**: the worst case of each shape is below its limit. -/
theorem validateIntegerSoundness_ok {b L : ℕ} (h : shape.validateIntegerSoundness profile b L = .ok ()) : match shape with
    | .direct len => len * ((∑ k ∈ range L, b / 2 * b ^ k) * (∑ k ∈ range L, b / 2 * b ^ k)) < profile.modulus
    | .limbGram len blockLen limbCount => ∃ layout, LimbGramLayout.new len blockLen limbCount = .ok layout ∧
        GramBound profile b L layout := by
  cases shape with
  | direct len =>
    simp only [validateIntegerSoundness, result_ok, checked_some] at h
    obtain ⟨-, -, ⟨m, p⟩, hbound, _, ⟨-, rfl⟩, _, ⟨-, rfl⟩, hlt⟩ := h
    obtain ⟨-, rfl⟩ := directResponseBound_eq_ok hbound
    exact hlt
  | limbGram len blockLen limbCount =>
    simp only [validateIntegerSoundness, PhysicalL2NormProofShape.validate, result_ok, checked_some] at h
    obtain ⟨⟨-, layout, hnew, -⟩, -, ⟨hlimbs, hmod⟩, _, ⟨-, rfl⟩, _, ⟨-, rfl⟩, hlt⟩ := h
    obtain ⟨-, hblock, hcount⟩ := LimbGramLayout.new_eq_ok hnew
    refine ⟨layout, hnew, ?_, hmod, ?_⟩
    · rw [hcount, hlimbs]
    · rw [hblock]; exact hlt

section

variable {layout : LimbGramLayout} {b L : ℕ} {d : ℕ → ℕ → ℤ} {i n : ℕ} {p : ℕ × ℕ}

/-- A Gram integer, or a part of one, lies strictly within half the modulus. -/
theorem abs_gram_part_lt (hg : GramBound profile b L layout) (hd : BalancedDigits b L layout.physicalResponseLen d)
    (hn : n ≤ (layout.blockRange i).2 - (layout.blockRange i).1) (hp : p ∈ layout.limbPairs) :
    |∑ j ∈ range n, d ((layout.blockRange i).1 + j) p.1 * d ((layout.blockRange i).1 + j) p.2| <
      ((profile.modulus / 2 : ℕ) : ℤ) := by
  obtain ⟨hlr, hr⟩ := layout.mem_limbPairs.1 hp
  rw [hg.limbCount] at hr
  have habs := abs_inner_le hd (a := (layout.blockRange i).1) (n := n)
    (fun j hj => layout.blockRange_le j (by omega)) (by omega : p.1 < L) hr
  have hwidth := layout.blockRange_width i
  have hmul : n * (b / 2 * (b / 2)) ≤ layout.blockLen * (b / 2 * (b / 2)) := Nat.mul_le_mul_right _ (by omega)
  have hbound := hg.bound
  exact lt_of_le_of_lt habs (by exact_mod_cast lt_of_le_of_lt hmul hbound)

theorem checkedI128_of_abs_lt (hmod : profile.modulus ≤ i128Max) {v : ℤ} (hv : |v| < ((profile.modulus / 2 : ℕ) : ℤ)) :
    checkedI128 v = some v := by
  have hlt := abs_lt.1 hv
  have hmax : (2 : ℤ) ^ 127 = ((2 ^ 127 : ℕ) : ℤ) := by norm_num
  unfold i128Max at hmod
  rw [checkedI128_eq_some, hmax]
  omega

theorem digitPlanes_getElem? {len k : ℕ} (hk : k < L) :
    (digitPlanes len L d)[k]? = some ((List.range len).map fun x => d x k) := by
  simp [digitPlanes, hk]

/-- The prover's fold over a block does not overflow and gives the Gram integer. -/
theorem gram_fold (hg : GramBound profile b L layout) (hd : BalancedDigits b L layout.physicalResponseLen d)
    (hp : p ∈ layout.limbPairs) (hn : n ≤ (layout.blockRange i).2 - (layout.blockRange i).1) :
    (List.range' (layout.blockRange i).1 n).foldlM (m := Result) (fun sum index => do
        let left ← okOr ((List.range layout.physicalResponseLen).map fun x => d x p.1)[index]?
          (.internal "gram physical norm left response does not cover its block")
        let right ← okOr ((List.range layout.physicalResponseLen).map fun x => d x p.2)[index]?
          (.internal "gram physical norm right response does not cover its block")
        let product ← okOr (checkedI128 (left * right)) (.invalidInput "limb product overflow")
        okOr (checkedI128 (sum + product)) (.invalidInput "limb inner product overflow")) 0 =
      .ok (∑ j ∈ range n, d ((layout.blockRange i).1 + j) p.1 * d ((layout.blockRange i).1 + j) p.2) := by
  induction n with
  | zero => rfl
  | succ n ih =>
    obtain ⟨hlr, hr⟩ := layout.mem_limbPairs.1 hp
    have hx : (layout.blockRange i).1 + n < layout.physicalResponseLen := layout.blockRange_le n (by omega)
    have hsum := abs_gram_part_lt hg hd (n := n + 1) hn hp
    have hprod : checkedI128 (d ((layout.blockRange i).1 + n) p.1 * d ((layout.blockRange i).1 + n) p.2) =
        some (d ((layout.blockRange i).1 + n) p.1 * d ((layout.blockRange i).1 + n) p.2) := by
      -- a single product is a block of one coordinate
      have hone := abs_inner_le hd (a := (layout.blockRange i).1 + n) (n := 1) (by intro j hj; omega)
        (by rw [← hg.limbCount]; omega : p.1 < L) (by rw [← hg.limbCount]; omega : p.2 < L)
      have hblock := layout.blockLen_pos
      have hmul : 1 * (b / 2 * (b / 2)) ≤ layout.blockLen * (b / 2 * (b / 2)) := Nat.mul_le_mul_right _ hblock
      rw [sum_range_one, add_zero] at hone
      exact checkedI128_of_abs_lt hg.modulus (lt_of_le_of_lt hone (by exact_mod_cast lt_of_le_of_lt hmul hg.bound))
    rw [List.range'_concat, List.foldlM_append, ih (by omega)]
    simp only [one_mul, List.foldlM_cons, List.foldlM_nil, List.getElem?_map, List.getElem?_range hx,
      Option.map_some, okOr, bind, Except.bind, hprod]
    rw [sum_range_succ] at hsum ⊢
    rw [checkedI128_of_abs_lt hg.modulus hsum]
    rfl

/-- **The prover's Gram claims** are the Gram integers, block by block and pair by pair. -/
theorem gramClaims_eq (hlen : layout.physicalResponseLen < 2 ^ usizeBits) (hg : GramBound profile b L layout)
    (hd : BalancedDigits b L layout.physicalResponseLen d) :
    gramClaims layout (digitPlanes layout.physicalResponseLen L d) =
      .ok (layout.subclaims.map fun c => gram d (layout.blockRange c.1) c.2) := by
  have hlist : (layout.blockRanges.flatMap fun block => layout.limbPairs.map fun pair => (block, pair)) =
      layout.subclaims.map fun c => (layout.blockRange c.1, c.2) := by
    rw [layout.blockRanges_eq hlen, LimbGramLayout.subclaims, List.flatMap_map, map_flatMap]
    apply flatMap_congr
    intro i _
    rw [List.map_map]
    rfl
  have hmap : (layout.subclaims.map fun c => gram d (layout.blockRange c.1) c.2) =
      (layout.subclaims.map fun c => (layout.blockRange c.1, c.2)).map fun c => gram d c.1 c.2 := by
    rw [List.map_map]
    rfl
  rw [gramClaims, hlist, hmap]
  apply mapM_ok_of_forall
  intro c hc
  obtain ⟨⟨i, p⟩, hmem, rfl⟩ := List.mem_map.1 hc
  obtain ⟨-, hp⟩ := layout.mem_subclaims.1 hmem
  obtain ⟨hlr, hr⟩ := layout.mem_limbPairs.1 hp
  rw [hg.limbCount] at hr
  dsimp only at *
  rw [digitPlanes_getElem? (by omega), digitPlanes_getElem? hr]
  exact gram_fold hg hd hp le_rfl

end

section

variable {F E : Type} [CommRing F] [DecidableEq F] [CommRing E] [Algebra F E] {𝔩 : LiftBackend F E}

/-- **An integer within half the modulus is read back from its field image.** -/
theorem centeredLift_cast (h𝔩 : 𝔩.Lawful profile.modulus) (hmod : profile.modulus ≤ i128Max) {g : ℤ}
    (hg : |g| < ((profile.modulus / 2 : ℕ) : ℤ)) : centeredLift 𝔩 (g : E) profile = .ok g := by
  obtain ⟨n, hcoords⟩ := h𝔩.extCoords_algebraMap
  have himage : 𝔩.extCoords (g : E) = (g : F) :: List.replicate n 0 := by
    rw [← hcoords, map_intCast]
  have htail : (List.replicate n (0 : F)).all (· = 0) = true := by
    simp
  have hself := checkedI128_of_abs_lt hmod hg
  have hnegself : checkedI128 (-g) = some (-g) := checkedI128_of_abs_lt hmod (by rwa [abs_neg])
  unfold centeredLift
  rw [himage]
  generalize profile.modulus = q at *
  have hlt := abs_lt.1 hg
  simp only [ensure, htail, hmod, if_true, bind, Except.bind]
  by_cases hneg : 0 ≤ g
  · obtain ⟨c, rfl⟩ := Int.eq_ofNat_of_zero_le hneg
    have hc : c < q / 2 := by omega
    rw [Int.cast_natCast, okOr_eq_ok.2 (h𝔩.toU128Checked_cast c (by omega))]
    dsimp only
    rw [if_pos hc.le, okOr_eq_ok.2 hself]
  · -- a negative integer is stored as `q + g`, above the middle
    obtain ⟨c, hc⟩ := Int.eq_ofNat_of_zero_le (by omega : (0 : ℤ) ≤ q + g)
    have hcast : (g : F) = ((c : ℕ) : F) := by
      have hring : ((q + g : ℤ) : F) = ((c : ℤ) : F) := by rw [hc]
      push_cast at hring
      rw [h𝔩.cast_modulus, zero_add] at hring
      exact hring
    have hmag : ((q - c : ℕ) : ℤ) = -g := by omega
    rw [hcast, okOr_eq_ok.2 (h𝔩.toU128Checked_cast c (by omega))]
    dsimp only
    rw [if_neg (by omega), hmag, okOr_eq_ok.2 hnegself]
    simp [Except.map]

end

section

variable {layout : LimbGramLayout} {b : ℕ} {d : ℕ → ℕ → ℤ}

theorem basisPowers_eq_ok {n : ℕ} {β : ℤ} {powers : List ℤ} {power : ℤ} (h : basisPowers β n = .ok (powers, power)) :
    powers = (List.range n).map (β ^ ·) ∧ power = β ^ n := by
  induction n generalizing powers power with
  | zero =>
    have heq : [] = powers ∧ 1 = power := by simpa [basisPowers] using h
    simp [← heq.1, ← heq.2]
  | succ n ih =>
    simp only [basisPowers, result_ok, checkedI128_eq_some, Prod.mk.injEq] at h
    obtain ⟨⟨powers', power'⟩, hrec, next, ⟨-, rfl⟩, rfl, rfl⟩ := h
    obtain ⟨rfl, rfl⟩ := ih hrec
    rw [List.range_succ, List.map_append, pow_succ]
    exact ⟨rfl, rfl⟩

/-- The Gram integers of a block, scaled and added over the pairs, are its responses squared. -/
theorem sum_gram_block (d : ℕ → ℕ → ℤ) (block : ℕ × ℕ) :
    (layout.limbPairs.map fun p => gram d block p * ((b : ℤ) ^ (p.1 + p.2) * if p.1 = p.2 then 1 else 2)).sum =
      ∑ j ∈ range (block.2 - block.1), response b layout.limbCount d (block.1 + j) ^ 2 := by
  have hpoint : ∀ x, response b layout.limbCount d x ^ 2 = ∑ l ∈ range layout.limbCount,
      ∑ r ∈ range (layout.limbCount - l),
        d x l * d x (l + r) * ((b : ℤ) ^ (l + (l + r)) * if l = l + r then 1 else 2) := by
    intro x
    rw [response, ← sum_upper_triangle]
    apply sum_congr rfl
    intro l _
    apply sum_congr rfl
    intro r _
    rw [pow_add]
    ring
  rw [layout.sum_limbPairs]
  simp only [gram, hpoint, sum_mul]
  rw [sum_comm]
  apply sum_congr rfl
  intro l _
  rw [sum_comm]

/-- **The reconstruction is exact**: on the Gram claims of `d` it returns `∑ z_x^2`. -/
theorem reconstructL2SqFromGram_eq (hshape : shape.limbGramLayout = .ok (some layout)) (d : ℕ → ℕ → ℤ) {s : ℕ}
    (h : reconstructL2SqFromGram shape b (layout.subclaims.map fun c => gram d (layout.blockRange c.1) c.2) = .ok s) :
    (s : ℤ) = ∑ x ∈ range layout.physicalResponseLen, response b layout.limbCount d x ^ 2 := by
  unfold reconstructL2SqFromGram at h
  rw [hshape] at h
  simp only [result_ok, checkedI128_eq_some, checked_some, Except.ok.injEq, exists_eq_left', Option.some.injEq] at h
  obtain ⟨-, _, ⟨-, rfl⟩, _, ⟨-, rfl⟩, ⟨powers, power⟩, hpowers, total, htotal, hnonneg, rfl⟩ := h
  obtain ⟨rfl, -⟩ := basisPowers_eq_ok hpowers
  rw [Int.toNat_of_nonneg hnonneg, ← layout.sum_blocks fun x => response b layout.limbCount d x ^ 2]
  have hblocks := foldlM_sum (g := fun i => (layout.limbPairs.map fun p =>
    gram d (layout.blockRange i) p * ((b : ℤ) ^ (p.1 + p.2) * if p.1 = p.2 then 1 else 2)).sum) (by
      intro t i t' hi hfold
      refine foldlM_sum ?_ hfold
      -- one claim: its index, its power and the doubling off the diagonal
      intro u p u' hp hstep
      have hmem : (i, p) ∈ layout.subclaims := layout.mem_subclaims.2 ⟨List.mem_range.1 hi, hp⟩
      simp only [result_ok, checked_some, checkedI128_eq_some] at hstep
      obtain ⟨k, hk, claim, hclaim, _, ⟨-, rfl⟩, pow, hpow, _, ⟨-, rfl⟩, _, ⟨-, rfl⟩, -, rfl⟩ := hstep
      rw [getElem?_map_of_index layout.subclaims_index _ hmem hk] at hclaim
      have hpow' : pow = (b : ℤ) ^ (p.1 + p.2) := by
        obtain ⟨hlt, hget⟩ := List.getElem?_eq_some_iff.1 hpow
        simpa using hget.symm
      have hclaim' : gram d (layout.blockRange i) p = claim := by simpa using hclaim
      rw [hpow', ← hclaim']) htotal
  rw [hblocks, zero_add, sum_map_range]
  apply sum_congr rfl
  intro i _
  exact sum_gram_block d (layout.blockRange i)

end

theorem derive_validates {len b L : ℕ} (h : derive profile len b L = .ok shape) :
    shape.validate = .ok () ∧ shape.validateIntegerSoundness profile b L = .ok () := by
  have hsound : shape.validateIntegerSoundness profile b L = .ok () := by
    simp only [derive, result_ok] at h
    obtain ⟨-, h⟩ := h
    split at h
    · next hdirect =>
      have heq := pure_eq_ok.1 h
      rw [← heq]
      exact hdirect
    · simp only [result_ok] at h
      obtain ⟨-, _, -, _, -, -, hvalid, rfl⟩ := h
      exact hvalid
  refine ⟨?_, hsound⟩
  simp only [validateIntegerSoundness, result_ok] at hsound
  exact hsound.1

section

variable {F E : Type} [CommRing F] [DecidableEq F] [CommRing E] [Algebra F E] {𝔩 : LiftBackend F E}
  {profile : SisModulusProfileId} {b L : ℕ} {d : ℕ → ℕ → ℤ} {layout : LimbGramLayout}

theorem gramList_eq (hlen : layout.physicalResponseLen < 2 ^ usizeBits) :
    layout.blockRanges.flatMap (fun block => layout.limbPairs.map (gram d block)) =
      layout.subclaims.map fun c => gram d (layout.blockRange c.1) c.2 := by
  rw [layout.blockRanges_eq hlen, LimbGramLayout.subclaims, List.flatMap_map, map_flatMap]
  apply flatMap_congr
  intro i _
  rw [List.map_map]
  rfl

theorem centeredLift_gram (h𝔩 : 𝔩.Lawful profile.modulus) (hg : GramBound profile b L layout)
    (hd : BalancedDigits b L layout.physicalResponseLen d) (hc : c ∈ layout.subclaims) :
    2 * |gram d (layout.blockRange c.1) c.2| < profile.modulus ∧
      centeredLift 𝔩 ((gram d (layout.blockRange c.1) c.2 : ℤ) : E) profile = .ok (gram d (layout.blockRange c.1) c.2) := by
  have hlt := abs_gram_part_lt hg hd le_rfl (layout.mem_subclaims.1 hc).2 (i := c.1)
  refine ⟨?_, centeredLift_cast h𝔩 hg.modulus hlt⟩
  change |gram d (layout.blockRange c.1) c.2| < _ at hlt
  omega

/-- **The L2-norm check cannot wrap and reconstructs the true norm.** For a shape that passes
the integer soundness check and balanced digits: a direct square sum is below the modulus;
every Gram integer of a LimbGram shape is within half of it and is read back from its field
image, and a reconstruction that succeeds is the square sum of the responses. The subclaims of
a layout are indexed by `0..subclaim_count` in order, and `derive` returns validated shapes. -/
theorem physicalL2_no_wrap {shape : PhysicalL2NormProofShape} (h𝔩 : 𝔩.Lawful profile.modulus)
    (hlen : shape.physicalResponseLen < 2 ^ usizeBits) (hsound : shape.validateIntegerSoundness profile b L = .ok ())
    (hd : BalancedDigits b L shape.physicalResponseLen d) : (match shape with
      | .direct len => ∑ x ∈ range len, response b L d x ^ 2 < profile.modulus
      | .limbGram len blockLen limbCount => ∃ layout claims, LimbGramLayout.new len blockLen limbCount = .ok layout ∧
          gramClaims layout (digitPlanes len L d) = .ok claims ∧
          claims = layout.blockRanges.flatMap (fun block => layout.limbPairs.map (gram d block)) ∧
          (∀ g ∈ claims, 2 * |g| < profile.modulus ∧ centeredLift 𝔩 (g : E) profile = .ok g) ∧
          ∀ s, reconstructL2SqFromGram (.limbGram len blockLen limbCount) b claims = .ok s →
            (s : ℤ) = ∑ x ∈ range len, response b L d x ^ 2) ∧
    (∀ layout : LimbGramLayout, layout.physicalResponseLen < 2 ^ usizeBits →
      layout.blockRanges.zipIdx.flatMap (fun block => layout.limbPairs.map fun pair =>
        layout.subclaimIndex block.2 pair.1 pair.2) = (List.range layout.subclaimCount).map some) ∧
    ∀ profile len b L shape, derive profile len b L = .ok shape →
      shape.validate = .ok () ∧ shape.validateIntegerSoundness profile b L = .ok () := by
  refine ⟨?_, ?_, fun profile len b L shape h => derive_validates h⟩
  · have hread := validateIntegerSoundness_ok hsound
    cases shape with
    | direct len =>
      have hsum := sum_response_sq_le fun x hx => abs_response_le (hd x hx)
      exact lt_of_le_of_lt hsum (by exact_mod_cast hread)
    | limbGram len blockLen limbCount =>
      obtain ⟨layout, hnew, hg⟩ := hread
      obtain ⟨hlayout, -, hcount⟩ := LimbGramLayout.new_eq_ok hnew
      subst hlayout
      have hlist := gramList_eq (d := d) hlen
      refine ⟨layout, _, hnew, gramClaims_eq hlen hg hd, hlist.symm, ?_, ?_⟩
      · intro g hmem
        obtain ⟨c, hc, rfl⟩ := List.mem_map.1 hmem
        exact centeredLift_gram h𝔩 hg hd hc
      · intro s hs
        have hshape : (limbGram layout.physicalResponseLen blockLen limbCount).limbGramLayout = .ok (some layout) := by
          simp [limbGramLayout, hnew, Except.map]
        rw [← hg.limbCount]
        exact reconstructL2SqFromGram_eq hshape d hs
  · intro layout hlayout
    rw [← layout.subclaims_index, LimbGramLayout.subclaims, List.map_flatMap]
    have hzip : layout.blockRanges.zipIdx = (List.range layout.blockCount).map fun i => (layout.blockRange i, i) := by
      rw [layout.blockRanges_eq hlayout]
      apply List.ext_getElem
      · simp
      · intro i h1 h2
        simp
    rw [hzip, List.flatMap_map]
    apply List.flatMap_congr
    intro i _
    rw [List.map_map]
    rfl

end

/-- The prime field of the 32-bit profile, encoded by its representatives. -/
def q32Backend : LiftBackend (ZMod 4294967197) (ZMod 4294967197) where
  toU128Checked x := some x.val
  fromU128Checked n := if n < 4294967197 then some n else none
  extCoords x := [x]

theorem q32Backend_lawful : q32Backend.Lawful SisModulusProfileId.q32Offset99.modulus where
  cast_modulus := CharP.cast_eq_zero (ZMod 4294967197) 4294967197
  toU128Checked_cast n hn := congrArg some (ZMod.val_cast_of_lt hn)
  fromU128Checked_isSome n := by
    by_cases hn : n < 4294967197 <;> simp [q32Backend, hn, SisModulusProfileId.modulus]
  extCoords_algebraMap := ⟨0, fun _ => rfl⟩

/-- Three responses with two base-4 digits each, in blocks of two. -/
theorem physicalL2_no_wrap_q32 : (limbGram 3 2 2).validateIntegerSoundness .q32Offset99 4 2 = .ok () ∧
      ∃ layout claims, LimbGramLayout.new 3 2 2 = .ok layout ∧
        gramClaims layout (digitPlanes 3 2 fun x k => if x = k then -2 else 1) = .ok claims ∧
        ∀ g ∈ claims, centeredLift q32Backend g .q32Offset99 = .ok g := by
  have hsound : (limbGram 3 2 2).validateIntegerSoundness .q32Offset99 4 2 = .ok () := by
    decide +kernel
  have hd : BalancedDigits 4 2 3 fun x k => if x = k then -2 else 1 := by
    intro x _ k _
    dsimp only [BalancedDigit]
    split <;> omega
  obtain ⟨⟨layout, claims, hnew, hclaims, -, hlift, -⟩, -⟩ := physicalL2_no_wrap q32Backend_lawful (by decide) hsound hd
  exact ⟨hsound, layout, claims, hnew, hclaims, fun g hg => (hlift g hg).2⟩

end Akita.PhysicalL2
