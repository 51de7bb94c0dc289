import Akita.Proof.HighRows

/-!
# Prepared digit windows

The tables of a prepared window hold, for every residue and lane, the digits before and after
the end of the block. Both the dense sums and the geometric recurrence are these sums; the
walk keeps the equality values of the current block and the next, so a row reads exactly its
addresses.
-/

namespace Akita.OffsetEq

open Lib Finset AffineWeight

namespace PreparedDigits

variable {residue row address base first rows n : ℕ}

/-! ## Lane sums -/

section lanes

variable {F : Type} [Field F] {x : ℤ} {lanes count : ℕ}

/-- The low equality value of a signed address: zero outside the block. -/
def eqExt (challenges : List F) (x : ℤ) : F := if x < 0 then 0 else eqAt challenges x.toNat

theorem eqExt_natCast (challenges : List F) (x : ℕ) : eqExt challenges (x : ℤ) = eqAt challenges x := by
  simp [eqExt]

theorem eqExt_of_neg {challenges : List F} (h : x < 0) : eqExt challenges x = 0 := by simp [eqExt, h]

theorem eqExt_of_ge {challenges : List F} (h : (2 ^ challenges.length : ℕ) ≤ x) : eqExt challenges x = 0 := by
  have hnonneg : ¬ x < 0 := by
    have := Nat.two_pow_pos challenges.length
    omega
  rw [eqExt, if_neg hnonneg, eqAt_of_ge (by omega)]

def laneSum (challenges digits : List F) (x : ℤ) : F := ∑ d ∈ range digits.length, digits.getD d 0 * eqExt challenges (x + d)

/-- The sums of a residue and lane: before the end of the block, and after it. -/
def IsLaneSums (challenges digits : List F) (lanes : ℕ) (sums : ℕ → ℕ → F × F) : Prop :=
  ∀ residue lane, residue < 2 ^ challenges.length → lane < lanes →
    sums residue lane = (laneSum challenges digits (residue + lane * digits.length : ℕ),
      laneSum challenges digits ((residue + lane * digits.length : ℕ) - (2 ^ challenges.length : ℕ)))

theorem denseSums_ok {challenges digits : List F} : IsLaneSums challenges digits lanes
      (denseSums digits (bitTable (eqFactors challenges)) (digits.length * lanes) (2 ^ challenges.length)) := by
  intro residue lane hres hlane
  set W := 2 ^ challenges.length with hW
  have hstride : ∀ d < digits.length, lane * digits.length + d < digits.length * lanes := by
    intro d hd
    have hnext : (lane + 1) * digits.length ≤ lanes * digits.length := Nat.mul_le_mul_right _ hlane
    have hexpand : (lane + 1) * digits.length = lane * digits.length + digits.length := by ring
    have hcomm : digits.length * lanes = lanes * digits.length := by ring
    omega
  have hread : ∀ i, (bitTable (eqFactors challenges)).getD i 0 = eqAt challenges i := bitTable_getD _
  unfold denseSums
  have hsum := foldl_sum (f := fun (sums : F × F) (p : F × ℕ) =>
      if lane * digits.length + p.2 < min (digits.length * lanes) (W - residue) then
        (sums.1 + p.1 * (bitTable (eqFactors challenges)).getD (residue + (lane * digits.length + p.2)) 0, sums.2)
      else (sums.1, sums.2 + p.1 * (bitTable (eqFactors challenges)).getD (residue + (lane * digits.length + p.2) - W) 0))
    (g := fun p : F × ℕ => (p.1 * eqExt challenges ((residue + lane * digits.length : ℕ) + p.2),
      p.1 * eqExt challenges ((residue + lane * digits.length : ℕ) - (W : ℕ) + p.2))) (l := digits.zipIdx) (by
    intro s p hp
    have hd : p.2 < digits.length := by
      obtain ⟨-, hlt, -⟩ := List.mem_zipIdx hp
      simpa using hlt
    have hpos := hstride p.2 hd
    by_cases hin : residue + (lane * digits.length + p.2) < W
    · have hsplit : lane * digits.length + p.2 < min (digits.length * lanes) (W - residue) := by omega
      have hneg : ((residue + lane * digits.length : ℕ) : ℤ) - (W : ℕ) + p.2 < 0 := by omega
      have hcast : ((residue + lane * digits.length : ℕ) : ℤ) + p.2 = (residue + (lane * digits.length + p.2) : ℕ) := by
        push_cast; ring
      rw [if_pos hsplit, eqExt_of_neg hneg, hcast, eqExt_natCast, hread]
      ext <;> simp
    · have hsplit : ¬ lane * digits.length + p.2 < min (digits.length * lanes) (W - residue) := by omega
      have hge : ((2 ^ challenges.length : ℕ) : ℤ) ≤ (residue + lane * digits.length : ℕ) + p.2 := by omega
      have hcast : ((residue + lane * digits.length : ℕ) : ℤ) - (W : ℕ) + p.2 =
          (residue + (lane * digits.length + p.2) - W : ℕ) := by omega
      rw [if_neg hsplit, eqExt_of_ge hge, hcast, eqExt_natCast, hread]
      ext <;> simp) (0, 0)
  rw [hsum, sum_map_zipIdx _ 0 fun w d => (w * eqExt challenges ((residue + lane * digits.length : ℕ) + d),
    w * eqExt challenges ((residue + lane * digits.length : ℕ) - (W : ℕ) + d))]
  ext <;> simp [laneSum, Prod.fst_sum, Prod.snd_sum]

variable {challenges digits : List F} {period : ℕ}

def stepSum (challenges : List F) (β : F) (period count : ℕ) (x : ℤ) : F :=
  ∑ k ∈ range count, β ^ k * eqExt challenges (x + k * period)

variable {β tail : F}

theorem stepSum_of_ge (h : (2 ^ challenges.length : ℕ) ≤ x) : stepSum challenges β period count x = 0 := by
  apply sum_eq_zero
  intro k _
  have hge : ((2 ^ challenges.length : ℕ) : ℤ) ≤ x + k * period := by
    have hnonneg : (0 : ℤ) ≤ k * period := by positivity
    omega
  rw [eqExt_of_ge hge, mul_zero]

theorem stepSum_of_neg (h : x + ((count - 1) * period : ℕ) < 0) : stepSum challenges β period count x = 0 := by
  apply sum_eq_zero
  intro k hk
  have hk : k < count := by simpa using hk
  have hle : k * period ≤ (count - 1) * period := Nat.mul_le_mul_right _ (by omega)
  have hneg : x + k * period < 0 := by
    omega
  rw [eqExt_of_neg hneg, mul_zero]

theorem laneEntry_eq {h : List F} {i : ℕ} (hperiod : 0 < period) (hcount : 0 < count) (htail : tail = β ^ count)
    (hlen : h.length = 2 ^ challenges.length + (count - 1) * period) (hafter : ∀ j, i < j → j < h.length →
      h.getD j 0 = stepSum challenges β period count ((j : ℤ) - ((count - 1) * period : ℕ))) :
    laneEntry (bitTable (eqFactors challenges)) h β tail (2 ^ challenges.length) period ((count - 1) * period) i =
      stepSum challenges β period count ((i : ℤ) - ((count - 1) * period : ℕ)) := by
  set W := 2 ^ challenges.length with hW
  set prefixLen := (count - 1) * period with hpre
  have hread : ∀ j, (bitTable (eqFactors challenges)).getD j 0 = eqAt challenges j := bitTable_getD _
  have hrec := geometric_recurrence β (eqExt challenges) ((i : ℤ) - prefixLen) period count
  have hlast : (i : ℤ) - prefixLen + count * period = (i + period : ℕ) := by
    have hsucc : count = count - 1 + 1 := by omega
    have hmul : count * period = prefixLen + period := by rw [hpre]; nth_rewrite 1 [hsucc]; ring
    have hcast : ((count * period : ℕ) : ℤ) = count * period := by push_cast; ring
    omega
  -- the three parts of the entry
  have hnext : (if i + period < h.length then β * h.getD (i + period) 0 else 0) =
      β * stepSum challenges β period count ((i : ℤ) - prefixLen + period) := by
    by_cases hlt : i + period < h.length
    · rw [if_pos hlt, hafter _ (by omega) hlt]
      congr 2
      push_cast
      ring
    · rw [if_neg hlt, stepSum_of_ge (by omega), mul_zero]
  have hfirst : ∀ v : F, (if i ≥ prefixLen then v + (bitTable (eqFactors challenges)).getD (i - prefixLen) 0 else v) =
      v + eqExt challenges ((i : ℤ) - prefixLen) := by
    intro v
    by_cases hge : i ≥ prefixLen
    · have hcast : (i : ℤ) - prefixLen = (i - prefixLen : ℕ) := by omega
      rw [if_pos hge, hread, hcast, eqExt_natCast]
    · rw [if_neg hge, eqExt_of_neg (by omega), add_zero]
  have hdrop : ∀ v : F, (if i + period < W then v - tail * (bitTable (eqFactors challenges)).getD (i + period) 0 else v) =
      v - β ^ count * eqExt challenges ((i + period : ℕ) : ℤ) := by
    intro v
    by_cases hlt : i + period < W
    · rw [if_pos hlt, hread, eqExt_natCast, htail]
    · rw [if_neg hlt, eqExt_of_ge (by omega), mul_zero, sub_zero]
  unfold laneEntry
  simp only [hnext, hfirst, hdrop]
  rw [hlast] at hrec
  unfold stepSum
  rw [hrec]
  ring

theorem laneWindows_ok (challenges : List F) (hperiod : 0 < period) (hcount : 0 < count) (htail : tail = β ^ count) (m : ℕ) :
    ∀ h : List F, h.length = 2 ^ challenges.length + (count - 1) * period → m ≤ h.length → (∀ j, m ≤ j → j < h.length →
        h.getD j 0 = stepSum challenges β period count ((j : ℤ) - ((count - 1) * period : ℕ))) →
      ∀ h', (List.range m).reverse.foldl (fun h i => h.set i (laneEntry (bitTable (eqFactors challenges)) h β tail
        (2 ^ challenges.length) period ((count - 1) * period) i)) h = h' → h'.length = h.length ∧ ∀ j < h.length,
        h'.getD j 0 = stepSum challenges β period count ((j : ℤ) - ((count - 1) * period : ℕ)) := by
  induction m with
  | zero =>
    intro h _ _ hafter h' hfold
    subst hfold
    exact ⟨rfl, fun j hj => hafter j (Nat.zero_le j) hj⟩
  | succ m ih =>
    intro h hlen hle hafter h' hfold
    rw [List.range_succ, List.reverse_append, List.reverse_singleton, List.singleton_append, List.foldl_cons] at hfold
    have hentry := laneEntry_eq (h := h) (i := m) hperiod hcount htail hlen (fun j hj => hafter j hj)
    rw [hentry] at hfold
    have hstep := ih _ (by rw [List.length_set]; exact hlen) (by rw [List.length_set]; omega) (fun j hj hlt => by
      rw [List.length_set] at hlt
      by_cases hjm : j = m
      · subst hjm
        simp [List.getD_eq_getElem?_getD, hlt]
      · rw [List.getD_eq_getElem?_getD, List.getElem?_set_ne (fun heq => hjm heq.symm), ← List.getD_eq_getElem?_getD]
        exact hafter j (by omega) hlt) h' hfold
    rw [List.length_set] at hstep
    exact hstep

theorem laneAt_eq (hperiod : 0 < period) (hcount : 0 < count) (htail : tail = β ^ count) (x : ℤ) :
    laneAt (laneWindows (bitTable (eqFactors challenges)) β tail (2 ^ challenges.length) period ((count - 1) * period))
      ((count - 1) * period) x = stepSum challenges β period count x := by
  obtain ⟨hlen, hget⟩ := laneWindows_ok challenges hperiod hcount htail
    (2 ^ challenges.length + (count - 1) * period) (List.replicate (2 ^ challenges.length + (count - 1) * period) 0)
    (by simp) (by simp) (fun j hj hlt => by simp at hlt; omega) _ rfl
  rw [List.length_replicate] at hlen hget
  unfold laneAt
  by_cases hneg : x + ((count - 1) * period : ℕ) < 0
  · rw [if_pos hneg, stepSum_of_neg hneg]
  · rw [if_neg hneg]
    by_cases hlt : (x + ((count - 1) * period : ℕ)).toNat < 2 ^ challenges.length + (count - 1) * period
    · have hindex : (((x + ((count - 1) * period : ℕ)).toNat : ℕ) : ℤ) - ((count - 1) * period : ℕ) = x := by omega
      have hthis := hget _ hlt
      rw [hindex] at hthis
      exact hthis
    · rw [stepSum_of_ge (by omega), List.getD_eq_getElem?_getD, List.getElem?_eq_none]
      · rfl
      · unfold laneWindows
        omega

variable [DecidableEq F]

theorem digits_period (h : isGeometricPeriod digits period = true) : digits.getD 0 0 = 1 ∧ digits.length % period = 0 ∧
      ∀ k j, k * period + j < digits.length → j < period →
        digits.getD (k * period + j) 0 = digits.getD j 0 * digits.getD period 0 ^ k := by
  unfold isGeometricPeriod at h
  split at h
  · simp at h
  rename_i hguard
  simp only [not_or, not_not] at hguard
  refine ⟨hguard.1, hguard.2, fun k => ?_⟩
  induction k with
  | zero => intro j _ _; simp
  | succ k ih =>
    intro j hlt hj
    have hsplit : (k + 1) * period + j = k * period + j + period := by ring
    have hmem : (k + 1) * period + j ∈ List.range' period (digits.length - period) := by
      rw [List.mem_range'_1]
      omega
    have hstep := of_decide_eq_true (List.all_eq_true.1 h _ hmem)
    have hsub : (k + 1) * period + j - period = k * period + j := by omega
    rw [hsub, ih j (by omega) hj] at hstep
    rw [← hstep, pow_succ, mul_assoc]

theorem geometricSums_ok (hperiod : 0 < period) (h : isGeometricPeriod digits period = true) :
    IsLaneSums challenges digits lanes (geometricSums digits
      (laneWindows (bitTable (eqFactors challenges)) (digits.getD period 0)
        (digits.getD ((digits.length / period - 1) * period) 0 * digits.getD period 0) (2 ^ challenges.length) period
        ((digits.length / period - 1) * period))
      (2 ^ challenges.length) period ((digits.length / period - 1) * period)) := by
  obtain ⟨hone, hdvd, hdigs⟩ := digits_period h
  set count := digits.length / period with hcount
  have hlen : count * period = digits.length := Nat.div_mul_cancel (Nat.dvd_of_mod_eq_zero hdvd)
  have hne : digits.length ≠ 0 := by
    intro hzero
    simp [List.length_eq_zero_iff.1 hzero] at hone
  have hpos : 0 < count := by
    apply pos_of_ne_zero
    intro hzero
    rw [hzero, zero_mul] at hlen
    omega
  have hle : period ≤ digits.length := by
    rw [← hlen]
    exact Nat.le_mul_of_pos_left _ hpos
  have htail : digits.getD ((count - 1) * period) 0 * digits.getD period 0 = digits.getD period 0 ^ count := by
    have hlast : (count - 1) * period + 0 < digits.length := by
      rw [← hlen, add_zero]
      exact Nat.mul_lt_mul_of_pos_right (by omega) hperiod
    have hsucc : count = count - 1 + 1 := by omega
    have hread := hdigs (count - 1) 0 hlast hperiod
    rw [add_zero, hone, one_mul] at hread
    rw [hread]
    conv_rhs => rw [hsucc, pow_succ]
  -- the lanes of a period together are all the digits
  have hall : ∀ x : ℤ, ∑ j ∈ range period, digits.getD j 0 * stepSum challenges (digits.getD period 0) period count (x + j) =
      laneSum challenges digits x := by
    intro x
    rw [laneSum, ← hlen, sum_range_rows, sum_comm]
    apply sum_congr rfl
    intro j hj
    have hj : j < period := by simpa using hj
    rw [stepSum, mul_sum]
    apply sum_congr rfl
    intro k hk
    have hk : k < count := by simpa using hk
    have hlt : k * period + j < digits.length := by
      have hnext : (k + 1) * period ≤ count * period := Nat.mul_le_mul_right _ hk
      rw [← hlen]
      rw [Nat.add_mul] at hnext
      omega
    have hindex : x + j + k * period = x + (k * period + j : ℕ) := by push_cast; ring
    rw [hdigs k j hlt hj, hindex]
    ring
  intro residue lane _ _
  unfold geometricSums
  have hsum := foldl_sum (f := fun (sums : F × F) (p : F × ℕ) =>
      (sums.1 + p.1 * laneAt (laneWindows (bitTable (eqFactors challenges)) (digits.getD period 0)
          (digits.getD ((count - 1) * period) 0 * digits.getD period 0) (2 ^ challenges.length) period ((count - 1) * period))
          ((count - 1) * period) ((residue + lane * digits.length + p.2 : ℕ) : ℤ),
        sums.2 + p.1 * laneAt (laneWindows (bitTable (eqFactors challenges)) (digits.getD period 0)
          (digits.getD ((count - 1) * period) 0 * digits.getD period 0) (2 ^ challenges.length) period ((count - 1) * period))
          ((count - 1) * period) (((residue + lane * digits.length + p.2 : ℕ) : ℤ) - (2 ^ challenges.length : ℕ))))
    (g := fun p : F × ℕ =>
      (p.1 * stepSum challenges (digits.getD period 0) period count ((residue + lane * digits.length : ℕ) + p.2),
        p.1 * stepSum challenges (digits.getD period 0) period count
          ((residue + lane * digits.length : ℕ) - (2 ^ challenges.length : ℕ) + p.2)))
    (l := (digits.take period).zipIdx) (by
      intro s p _
      have hcast : ((residue + lane * digits.length + p.2 : ℕ) : ℤ) = (residue + lane * digits.length : ℕ) + p.2 := by
        push_cast; ring
      have hcarry : ((residue + lane * digits.length : ℕ) : ℤ) + p.2 - (2 ^ challenges.length : ℕ) =
          (residue + lane * digits.length : ℕ) - (2 ^ challenges.length : ℕ) + p.2 := by ring
      rw [laneAt_eq hperiod hpos htail, laneAt_eq hperiod hpos htail, hcast, hcarry]
      rfl) (0, 0)
  have htake : (digits.take period).length = period := by rw [List.length_take, min_eq_left hle]
  have hread : ∀ j < period, (digits.take period).getD j 0 = digits.getD j 0 := by
    intro j hj
    rw [List.getD_eq_getElem?_getD, List.getElem?_take_of_lt hj, ← List.getD_eq_getElem?_getD]
  rw [hsum, sum_map_zipIdx _ 0 fun w j =>
    (w * stepSum challenges (digits.getD period 0) period count ((residue + lane * digits.length : ℕ) + j),
      w * stepSum challenges (digits.getD period 0) period count
        ((residue + lane * digits.length : ℕ) - (2 ^ challenges.length : ℕ) + j)), htake, Prod.mk_zero_zero, zero_add, ← hall, ← hall]
  ext
  · rw [Prod.fst_sum]
    exact sum_congr rfl fun j hj => by rw [hread j (by simpa using hj)]
  · rw [Prod.snd_sum]
    exact sum_congr rfl fun j hj => by rw [hread j (by simpa using hj)]

/-- **Both ways to prepare give the lane sums.** -/
theorem laneSums_ok : IsLaneSums challenges digits lanes
    (laneSums digits (bitTable (eqFactors challenges)) (digits.length * lanes) (2 ^ challenges.length)) := by
  unfold laneSums
  split
  · rename_i period hfind
    have hmem := List.mem_of_find?_eq_some hfind
    have hperiod : 0 < period := by
      simp only [geometricPeriods, List.mem_cons, List.not_mem_nil, or_false] at hmem
      omega
    exact geometricSums_ok hperiod (List.find?_some hfind)
  · exact denseSums_ok

end lanes

/-! ## Tables -/

variable {F A : Type} [Field F] [CommRing A] [Algebra F A]

/-- The low factor of a lane; no low weights stand for the identity. -/
def lowFactor (low : List A) (lane : ℕ) : A := if low = [] then 1 else low.getD lane 0

/-- The tables are those of the low factor, with one entry per residue. -/
def TablesFit (low : List A) (width : ℕ) : Tables F A → Prop
  | .unit noCarry carry => low = [] ∧ noCarry.length = width ∧ carry.length = width
  | .folded noCarry carry => low ≠ [] ∧ noCarry.length = width ∧ carry.length = width

/-- The kernel of a residue between two neighbouring blocks. -/
def kernelAt (residue : ℕ) (left right : F) : Tables F A → A
  | .unit noCarry carry => algebraMap F A (noCarry.getD residue 0 * left + carry.getD residue 0 * right)
  | .folded noCarry carry => left • noCarry.getD residue 0 + right • carry.getD residue 0

theorem getD_modify {R : Type} [Zero R] {l : List R} {i : ℕ} (hi : i < l.length) (f : R → R) (j : ℕ) :
    (l.modify i f).getD j 0 = if i = j then f (l.getD j 0) else l.getD j 0 := by
  by_cases hij : i = j
  · subst hij
    simp [List.getElem?_eq_getElem hi]
  · simp [hij]

variable [AffineWeight F A] [LawfulAffineWeight F A] {low : List A} {width : ℕ}

variable {tables : Tables F A} {weights : AffineWeightSource A} {out out' : A} {challenges digits : List F}

theorem fold_ok {lane : ℕ} (hfit : TablesFit low width tables) (hres : residue < width) (hlane : lane < max low.length 1)
    (sums : F × F) (target : ℕ) (left right : F) : TablesFit low width (fold low tables residue lane sums) ∧
      kernelAt target left right (fold low tables residue lane sums) = kernelAt target left right tables +
        if residue = target then (sums.1 * left + sums.2 * right) • lowFactor low lane else 0 := by
  cases tables with
  | unit noCarry carry =>
    obtain ⟨hlow, h0, h1⟩ := hfit
    refine ⟨⟨hlow, by simpa using h0, by simpa using h1⟩, ?_⟩
    simp only [fold, kernelAt, getD_modify (h0 ▸ hres), getD_modify (h1 ▸ hres), lowFactor, hlow, if_true]
    split
    · rw [Algebra.smul_def, mul_one, ← map_add]
      congr 1
      ring
    · rw [add_zero]
  | folded noCarry carry =>
    obtain ⟨hlow, h0, h1⟩ := hfit
    have hlen : lane < low.length := by
      have := List.length_pos_iff.2 hlow
      omega
    have hget : low[lane]? = some (lowFactor low lane) := by
      simp [lowFactor, hlow, List.getD_eq_getElem?_getD, List.getElem?_eq_getElem hlen]
    simp only [fold, hget]
    refine ⟨⟨hlow, by simpa using h0, by simpa using h1⟩, ?_⟩
    simp only [kernelAt, getD_modify (h0 ▸ hres), getD_modify (h1 ▸ hres)]
    split
    · simp only [addScaled_eq, Algebra.smul_def, map_add, map_mul]
      ring
    · rw [add_zero]

/-- **The filled tables hold, for every residue, all lanes.** -/
theorem fillTables_ok (sums : ℕ → ℕ → F × F) {target : ℕ} (htarget : target < width) (left right : F) :
    TablesFit low width (fillTables low width (max low.length 1) sums : Tables F A) ∧
      kernelAt target left right (fillTables low width (max low.length 1) sums : Tables F A) =
        ∑ lane ∈ range (max low.length 1),
          ((sums target lane).1 * left + (sums target lane).2 * right) • lowFactor low lane := by
  have hempty : TablesFit low width (emptyTables low width : Tables F A) ∧
      kernelAt target left right (emptyTables low width : Tables F A) = 0 := by
    unfold emptyTables
    cases low with
    | nil => simp [TablesFit, kernelAt, List.getD_eq_getElem?_getD, htarget]
    | cons template rest => simp [TablesFit, kernelAt, zeroLike_eq, List.getD_eq_getElem?_getD, htarget]
  unfold fillTables
  have houter := foldl_measure (P := TablesFit low width) (μ := kernelAt target left right)
    (f := fun (tables : Tables F A) residue =>
      (List.range (max low.length 1)).foldl (fun tables lane => fold low tables residue lane (sums residue lane)) tables)
    (g := fun residue => ∑ lane ∈ range (max low.length 1), if residue = target then
      ((sums residue lane).1 * left + (sums residue lane).2 * right) • lowFactor low lane else 0)
    (l := List.range width) (fun tables residue hres hfit => by
      rw [← sum_map_range]
      exact foldl_measure (P := TablesFit low width) (μ := kernelAt target left right) (fun tables lane hlane hfit =>
        fold_ok hfit (List.mem_range.1 hres) (List.mem_range.1 hlane) (sums residue lane) target left right) hfit)
    hempty.1
  refine ⟨houter.1, ?_⟩
  rw [houter.2, hempty.2, zero_add, sum_map_range, sum_comm]
  apply sum_congr rfl
  intro lane _
  rw [sum_ite_eq' (range width) target]
  simp [htarget]

theorem visitRow_ok {left right : F} (h : visitRow tables weights out row residue left right = some out') :
    out' = out + (weights.get row).getD 0 * kernelAt residue left right tables := by
  cases tables with
  | unit noCarry carry =>
    simp only [visitRow, option_some] at h
    obtain ⟨weight, hweight, rfl⟩ := h
    simp only [addScaled_eq, hweight, Option.getD_some, kernelAt, Algebra.smul_def]
    ring
  | folded noCarry carry =>
    simp only [visitRow, option_some] at h
    obtain ⟨n, hn, c, hc, weight, hweight, rfl⟩ := h
    simp [add_eq, multiply_eq, addScaled_eq, zeroLike_eq, hweight, kernelAt, List.getD_eq_getElem?_getD, hn, hc]

/-! ## Rows -/

variable [DecidableEq F] {p : PreparedDigits F A} {high : List F}

/-- The cursor stands at an address, with the equality values of a block that holds it or precedes it. -/
def CursorAt (p : PreparedDigits F A) (high : List F) (address : ℕ) (c : Cursor F) : Prop :=
  c.address = address ∧ (c.cachedBlock = address >>> p.bits ∨ c.cachedBlock + 1 = address >>> p.bits) ∧
    c.left = eqAt high c.cachedBlock ∧ c.right = eqAt high (c.cachedBlock + 1)

omit [CommRing A] [Algebra F A] [AffineWeight F A] [LawfulAffineWeight F A] in
theorem refresh_ok (hhigh : p.high.Reads high) (haddr : (address >>> p.bits) + 1 < 2 ^ 64) {c : Cursor F}
    (hc : CursorAt p high address c) :
    p.refresh c = ⟨address, address >>> p.bits, eqAt high (address >>> p.bits), eqAt high ((address >>> p.bits) + 1)⟩ := by
  obtain ⟨rfl, hblock, hleft, hright⟩ := hc
  unfold refresh
  rcases hblock with hsame | hnext
  · rw [if_neg (not_not.2 hsame.symm), ← hsame, ← hleft, ← hright]
  · have hne : c.address >>> p.bits ≠ c.cachedBlock := by omega
    rw [if_pos hne, hhigh _ haddr, hright, hnext]

omit [CommRing A] [Algebra F A] [AffineWeight F A] [LawfulAffineWeight F A] [DecidableEq F] in
/-- A stride no wider than a block moves at most one block on. -/
theorem cursorAt_next (hstride : p.stride ≤ 2 ^ p.bits) : CursorAt p high (address + p.stride)
      ⟨address + p.stride, address >>> p.bits, eqAt high (address >>> p.bits), eqAt high ((address >>> p.bits) + 1)⟩ := by
  refine ⟨rfl, ?_, rfl, rfl⟩
  simp only [Nat.shiftRight_eq_div_pow]
  have hpos := Nat.two_pow_pos p.bits
  have hge : address / 2 ^ p.bits ≤ (address + p.stride) / 2 ^ p.bits := Nat.div_le_div_right (by omega)
  have hle : (address + p.stride) / 2 ^ p.bits ≤ (address + 2 ^ p.bits) / 2 ^ p.bits := Nat.div_le_div_right (by omega)
  rw [Nat.add_div_right _ hpos] at hle
  omega

/-- **A walk adds every row at its own residue and blocks.** -/
theorem walk_ok (hhigh : p.high.Reads high) (hmask : p.lowMask = 2 ^ p.bits - 1) (hstride : p.stride ≤ 2 ^ p.bits)
    (hbound : ∀ j < rows, ((base + p.stride * j) >>> p.bits) + 1 < 2 ^ 64) (hbase : 0 < rows)
    (h : p.walk base first (first + rows) (visitRow p.tables weights) out = .ok out') :
    out' = out + ∑ j ∈ range rows, (weights.get (first + j)).getD 0 *
      kernelAt ((base + p.stride * j) % 2 ^ p.bits) (eqAt high ((base + p.stride * j) / 2 ^ p.bits))
        (eqAt high ((base + p.stride * j) / 2 ^ p.bits + 1)) p.tables := by
  unfold walk at h
  simp only [result_ok] at h
  obtain ⟨state, hloop, rfl⟩ := h
  have hstart := hbound 0 hbase
  rw [mul_zero, add_zero] at hstart
  have hrule := foldlM_range'_measure (μ := fun state : A × Cursor F => state.1)
    (P := fun i (state : A × Cursor F) => i < first + rows → CursorAt p high (base + p.stride * (i - first)) state.2)
    (g := fun i => (weights.get i).getD 0 * kernelAt ((base + p.stride * (i - first)) % 2 ^ p.bits)
      (eqAt high ((base + p.stride * (i - first)) / 2 ^ p.bits))
      (eqAt high ((base + p.stride * (i - first)) / 2 ^ p.bits + 1)) p.tables) (fun i s s' hi hlt hP hstep => by
        have hi' : i < first + rows := by omega
        unfold walkRow at hstep
        simp only [result_ok, refresh_ok hhigh (hbound (i - first) (by omega)) (hP hi'), hmask, and_pred_two_pow] at hstep
        obtain ⟨visited, hvisit, rfl⟩ := hstep
        refine ⟨fun hnext => ?_, ?_⟩
        · have hsucc : base + p.stride * (i + 1 - first) = base + p.stride * (i - first) + p.stride := by
            have : i + 1 - first = i - first + 1 := by omega
            rw [this]
            ring
          rw [hsucc]
          simp only [hnext, if_true]
          exact cursorAt_next hstride
        · simp only
          rw [visitRow_ok hvisit]
          simp only [Nat.shiftRight_eq_div_pow])
    (by
      intro _
      rw [Nat.sub_self, mul_zero, add_zero]
      refine ⟨rfl, Or.inl rfl, ?_, ?_⟩
      · exact hhigh _ (Nat.lt_of_succ_lt hstart)
      · exact hhigh _ hstart) hloop
  have hrows : first + rows - first = rows := by omega
  rw [hrows] at hrule
  rw [hrule.2]
  simp

omit [CommRing A] [Algebra F A] [AffineWeight F A] [LawfulAffineWeight F A] [DecidableEq F] in
/-- An address past a block's residue lies in the block or in the next one. -/
theorem eqAt_block (hn : n ≤ challenges.length) (a : ℕ) {x : ℕ} (hx : x < 2 ^ n) :
    eqExt (challenges.take n) ((a % 2 ^ n + x : ℕ) : ℤ) * eqAt (challenges.drop n) (a / 2 ^ n) +
        eqExt (challenges.take n) (((a % 2 ^ n + x : ℕ) : ℤ) - (2 ^ n : ℕ)) * eqAt (challenges.drop n) (a / 2 ^ n + 1) =
      eqAt challenges (a + x) := by
  have hlen : (challenges.take n).length = n := by simp [hn]
  set W := 2 ^ n with hW
  have hpos : 0 < W := Nat.two_pow_pos n
  have hmod : a % W < W := Nat.mod_lt _ hpos
  have ha : W * (a / W) + a % W = a := Nat.div_add_mod a W
  rw [eqAt_split hn, ← hW]
  by_cases hin : a % W + x < W
  · have haddr : a + x = a % W + x + W * (a / W) := by omega
    have hneg : ((a % W + x : ℕ) : ℤ) - (W : ℕ) < 0 := by omega
    rw [eqExt_of_neg hneg, eqExt_natCast, zero_mul, add_zero, haddr, Nat.add_mul_mod_self_left, Nat.mod_eq_of_lt hin,
      Nat.add_mul_div_left _ _ hpos, Nat.div_eq_of_lt hin, zero_add]
  · have hnext : W * (a / W + 1) = W * (a / W) + W := by ring
    have hout : a % W + x - W < W := by omega
    have haddr : a + x = a % W + x - W + W * (a / W + 1) := by omega
    have hge : ((2 ^ (challenges.take n).length : ℕ) : ℤ) ≤ (a % W + x : ℕ) := by rw [hlen]; omega
    have hcast : ((a % W + x : ℕ) : ℤ) - (W : ℕ) = (a % W + x - W : ℕ) := by omega
    rw [eqExt_of_ge hge, hcast, eqExt_natCast, zero_mul, zero_add, haddr, Nat.add_mul_mod_self_left, Nat.mod_eq_of_lt hout,
      Nat.add_mul_div_left _ _ hpos, Nat.div_eq_of_lt hout, zero_add]

/-- **The kernel of an address is the sum over its lanes and digits.** -/
theorem kernelAt_fillTables (hn : n ≤ challenges.length) (hfit : digits.length * max low.length 1 ≤ 2 ^ n) (a : ℕ) :
    kernelAt (a % 2 ^ n) (eqAt (challenges.drop n) (a / 2 ^ n)) (eqAt (challenges.drop n) (a / 2 ^ n + 1))
        (fillTables low (2 ^ n) (max low.length 1) (laneSums digits (bitTable (eqFactors (challenges.take n)))
          (digits.length * max low.length 1) (2 ^ n)) : Tables F A) =
      ∑ lane ∈ range (max low.length 1), ∑ d ∈ range digits.length,
        (digits.getD d 0 * eqAt challenges (a + lane * digits.length + d)) • lowFactor low lane := by
  have hlen : (challenges.take n).length = n := by simp [hn]
  have hmod : a % 2 ^ n < 2 ^ n := Nat.mod_lt _ (Nat.two_pow_pos _)
  have hsums : IsLaneSums (challenges.take n) digits (max low.length 1) _ := laneSums_ok
  unfold IsLaneSums at hsums
  rw [hlen] at hsums
  rw [(fillTables_ok _ hmod _ _).2]
  apply sum_congr rfl
  intro lane hlane
  have hlane : lane < max low.length 1 := by simpa using hlane
  rw [hsums _ lane hmod hlane, ← sum_smul]
  congr 1
  simp only [laneSum, sum_mul]
  rw [← sum_add_distrib]
  apply sum_congr rfl
  intro d hd
  have hd : d < digits.length := by simpa using hd
  have hx : lane * digits.length + d < 2 ^ n := by
    have hnext : (lane + 1) * digits.length ≤ max low.length 1 * digits.length := Nat.mul_le_mul_right _ hlane
    have hexpand : (lane + 1) * digits.length = lane * digits.length + digits.length := by ring
    have hcomm : digits.length * max low.length 1 = max low.length 1 * digits.length := by ring
    omega
  have hcast : ((a % 2 ^ n + lane * digits.length : ℕ) : ℤ) + d = (a % 2 ^ n + (lane * digits.length + d) : ℕ) := by
    push_cast; ring
  have hcarry : ((a % 2 ^ n + lane * digits.length : ℕ) : ℤ) - (2 ^ n : ℕ) + d =
      (a % 2 ^ n + (lane * digits.length + d) : ℕ) - (2 ^ n : ℕ) := by rw [← hcast]; ring
  rw [hcast, hcarry, add_assoc a, ← eqAt_block hn a hx]
  ring

/-- What a prepared window holds for its point, digits and low factor. -/
structure IsPrepared (p : PreparedDigits F A) (challenges digits : List F) (low : List A) : Prop where
  stride_eq : p.stride = digits.length * max low.length 1
  stride_le : p.stride ≤ 2 ^ p.bits
  bits_le : p.bits ≤ challenges.length
  pointBits_eq : p.pointBits = challenges.length
  point_lt : challenges.length < 64
  mask_eq : p.lowMask = 2 ^ p.bits - 1
  high_reads : p.high.Reads (challenges.drop p.bits)
  kernel_eq : ∀ a, kernelAt (a % 2 ^ p.bits) (eqAt (challenges.drop p.bits) (a / 2 ^ p.bits))
    (eqAt (challenges.drop p.bits) (a / 2 ^ p.bits + 1)) p.tables =
      ∑ lane ∈ range (max low.length 1), ∑ d ∈ range digits.length,
        (digits.getD d 0 * eqAt challenges (a + lane * digits.length + d)) • lowFactor low lane

variable {rt : Runtime}

theorem new_ok (h : new rt challenges digits low = .ok (some p)) : IsPrepared p challenges digits low := by
  unfold new at h
  simp only [result_ok, checked_some] at h
  obtain ⟨-, _, ⟨-, rfl⟩, h⟩ := h
  split at h
  · simp [pure, Except.pure] at h
  rename_i hsmall
  simp only [not_or, not_le, usizeBits] at hsmall
  simp only [result_ok] at h
  obtain ⟨width, hwidth, h⟩ := h
  obtain ⟨hpow, hle, -⟩ := checkedNextPowerOfTwo_eq hwidth
  split at h
  · simp [pure, Except.pure] at h
  rename_i hbits
  have hbits : trailingZeros width ≤ challenges.length := by omega
  simp only [result_ok] at h
  obtain ⟨equality, hequality, high, hhigh, hp⟩ := h
  cases hp
  set bits := trailingZeros width
  refine
    { stride_eq := rfl
      stride_le := by rw [← hpow]; exact hle
      bits_le := hbits
      pointBits_eq := rfl
      point_lt := hsmall.2
      mask_eq := by rw [← hpow]
      high_reads := OffsetEqWindow.new_reads hhigh
      kernel_eq := fun a => ?_ }
  simp only
  rw [EqPolynomial.evals_ok hequality, hpow]
  exact kernelAt_fillTables hbits (hpow ▸ hle) a

/-- **A prepared window adds every row**, lane by lane and digit by digit. -/
theorem accumulate_ok (hp : IsPrepared p challenges digits low) (h : p.accumulate out base first rows weights = .ok out') :
    out' = out + ∑ row ∈ range rows, ∑ lane ∈ range (max low.length 1), ∑ d ∈ range digits.length,
      (digits.getD d 0 * eqAt challenges (base + p.stride * row + lane * digits.length + d)) •
        ((weights.get (first + row)).getD 0 * lowFactor low lane) := by
  unfold accumulate at h
  simp only [result_ok, checked_some] at h
  obtain ⟨-, _, ⟨-, rfl⟩, -, h⟩ := h
  split at h
  · rename_i hrows
    have hout : out = out' := by simpa [pure, Except.pure] using h
    simp [hrows, hout]
  · rename_i hrows
    simp only [result_ok, Option.bind_eq_some_iff, checked_some] at h
    obtain ⟨_, ⟨_, ⟨-, rfl⟩, hspan, rfl⟩, _, ⟨-, rfl⟩, hmax, hwalk⟩ := h
    -- the checked maximum bounds every row
    have hbound : ∀ j < rows, ((base + p.stride * j) >>> p.bits) + 1 < 2 ^ 64 := by
      intro j hj
      have hshift : (base + p.stride * j) >>> p.bits ≤ base + p.stride * j := Nat.shiftRight_le _ _
      have hrow : p.stride * (j + 1) ≤ p.stride * rows := Nat.mul_le_mul_left _ hj
      have hexpand : p.stride * (j + 1) = p.stride * j + p.stride := by ring
      have hcomm : rows * p.stride = p.stride * rows := by ring
      have hpoint : 2 ^ p.pointBits ≤ 2 ^ 63 := by
        rw [hp.pointBits_eq]
        exact Nat.pow_le_pow_right (by norm_num) (by have := hp.point_lt; omega)
      omega
    rw [walk_ok hp.high_reads hp.mask_eq hp.stride_le hbound (by omega) hwalk]
    congr 1
    apply sum_congr rfl
    intro row _
    rw [hp.kernel_eq, mul_sum]
    apply sum_congr rfl
    intro lane _
    rw [mul_sum]
    apply sum_congr rfl
    intro d _
    rw [mul_smul_comm]

omit [Algebra F A] [LawfulAffineWeight F A] in
theorem accumulate_weights (h : p.accumulate out base first rows weights = .ok out') (hrow : row < first + rows) :
    weights.get row = some ((weights.get row).getD 0) := by
  unfold accumulate at h
  simp only [result_ok, checked_some] at h
  obtain ⟨-, _, ⟨-, rfl⟩, hstop, -⟩ := h
  obtain ⟨weight, hweight⟩ := Option.isSome_iff_exists.1 ((weights.get_isSome row).2 (by omega))
  rw [hweight, Option.getD_some]

/-- **Prepared digits are an exact shared contraction.** Whenever preparation accepts the point, the digits and
the low factor, and the rows asked for are accepted, `accumulate` adds the weight of every row against its lanes
and digits at the equality values of consecutive addresses, whatever path filled the tables: the recurrence of a
geometric period or the dense sums. No low weights stand for one lane of factor one. -/
theorem prepared_digits_exact {challenges digits : List F} (hnew : new rt challenges digits low = .ok (some p))
    {base first rows : ℕ} {weights : AffineWeightSource A} {out out' : A}
    (h : p.accumulate out base first rows weights = .ok out') :
    ∃ high : ℕ → A, (∀ row ∈ Ico first (first + rows), weights.get row = some (high row)) ∧
      out' = out + ∑ row ∈ Ico first (first + rows), high row * ∑ lane ∈ range (max low.length 1),
        ∑ d ∈ range digits.length, lowFactor low lane * algebraMap F A (digits.getD d 0 *
          eqAt challenges (base + (row - first) * (max low.length 1) * digits.length + lane * digits.length + d)) := by
  have hp := new_ok hnew
  refine ⟨fun row => (weights.get row).getD 0, fun row hrow => accumulate_weights h (mem_Ico.1 hrow).2, ?_⟩
  rw [accumulate_ok hp h, sum_Ico_eq_sum_range, Nat.add_sub_cancel_left]
  congr 1
  apply sum_congr rfl
  intro row _
  have haddress : first + row - first = row := by omega
  have hstride : p.stride * row = row * (max low.length 1) * digits.length := by rw [hp.stride_eq]; ring
  rw [haddress, mul_sum]
  apply sum_congr rfl
  intro lane _
  rw [mul_sum]
  apply sum_congr rfl
  intro d _
  rw [hstride, Algebra.smul_def]
  ring

/-- Geometric digits of ratio two on two lanes: three rows from an unaligned base. -/
theorem prepared_digits_exact_three :
    ∃ p : PreparedDigits (ZMod 5) (ZMod 5), new serialTables [2, 3, 1, 4] [1, 2] [1, 3] = .ok (some p) ∧
      ∃ out', p.accumulate 0 1 1 3 (.ofList [4, 2, 3, 1]) = .ok out' ∧
        ∃ high : ℕ → ZMod 5, (∀ row ∈ Ico 1 (1 + 3), (AffineWeightSource.ofList [4, 2, 3, 1]).get row = some (high row)) ∧
          out' = 0 + ∑ row ∈ Ico 1 (1 + 3), high row * ∑ lane ∈ range (max [(1 : ZMod 5), 3].length 1),
            ∑ d ∈ range [(1 : ZMod 5), 2].length, lowFactor [1, 3] lane * algebraMap (ZMod 5) (ZMod 5)
              ([1, 2].getD d 0 * eqAt [2, 3, 1, 4] (1 + (row - 1) * (max [(1 : ZMod 5), 3].length 1) *
                [(1 : ZMod 5), 2].length + lane * [(1 : ZMod 5), 2].length + d)) := by
  obtain ⟨p, hp, out', hout⟩ : ∃ p : PreparedDigits (ZMod 5) (ZMod 5),
      new serialTables [2, 3, 1, 4] [1, 2] [1, 3] = .ok (some p) ∧
        ∃ out', p.accumulate 0 1 1 3 (.ofList [4, 2, 3, 1]) = .ok out' := ⟨_, rfl, _, rfl⟩
  exact ⟨p, hp, out', hout, prepared_digits_exact hp hout⟩

end PreparedDigits

end Akita.OffsetEq
