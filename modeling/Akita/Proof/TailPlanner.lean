import Mathlib.Algebra.Order.Chebyshev
import Akita.Lib.Accumulate
import Akita.Proof.GolombRice

/-!
# The planner's payload bound contains every encoding

* `encodeVec_length`: an encoded vector is its codes, rounded up to a byte.
* `totalWireBits_eq`: the closed form counts the bits of the codes.
* `sum_quotient_le`: by Cauchy-Schwarz the unary quotients of a vector are at most the estimate
  made from its length and its squared norm.
* `golombRice_l2_planner_sound`: the estimate and the closed form, both against the bytes written.
-/

namespace Akita.GolombRice

open Lib List

variable {rice w : ℕ} {n : ℤ} {v : List ℤ} {cap : ℕ}

/-! ## Encoded lengths -/

/-- What encoding one coordinate wrote: the coordinate was in the width, and its code follows. -/
theorem encodeOne_holds {wr wr' : BitWriter} {l : List Bool} (h : Holds wr l)
    (henc : golombRiceEncodeOneInto wr n rice w = .ok wr') : (1 ≤ w ∧ w ≤ 63 ∧ InWidth w n) ∧ Holds wr' (l ++ codeOf rice n) := by
  obtain ⟨u, hu, -⟩ := bind_eq_ok.1 henc
  obtain ⟨hw1, hw2, hlo, hhi, -⟩ := zigzagEncode_ok_iff.1 hu
  obtain ⟨wr'', hwr, hholds⟩ := encodeOne_ok rice hw2 hw1 h ⟨hlo, hhi⟩
  obtain rfl : wr'' = wr' := Except.ok.inj (hwr.symm.trans henc)
  exact ⟨⟨hw1, hw2, hlo, hhi⟩, hholds⟩

theorem encodeVec_holds : ∀ {v : List ℤ} {wr wr' : BitWriter} {l : List Bool}, Holds wr l →
    v.foldlM (fun wr n => golombRiceEncodeOneInto wr n rice w) wr = .ok wr' →
    (∀ n ∈ v, 1 ≤ w ∧ w ≤ 63 ∧ InWidth w n) ∧ Holds wr' (l ++ codesOf rice v) := by
  intro v
  induction v with
  | nil =>
    intro wr wr' l h henc
    obtain rfl : wr = wr' := Except.ok.inj henc
    exact ⟨by simp, by simpa [codesOf] using h⟩
  | cons n v ih =>
    intro wr wr' l h henc
    rw [foldlM_cons] at henc
    obtain ⟨mid, hmid, hrest⟩ := bind_eq_ok.1 henc
    obtain ⟨hn, hholds⟩ := encodeOne_holds h hmid
    obtain ⟨hv, hholds'⟩ := ih hholds hrest
    refine ⟨by simpa using ⟨hn, hv⟩, ?_⟩
    rwa [codesOf_cons, ← append_assoc]

theorem encodeVec_length {b : List UInt8} (henc : golombRiceEncodeVec v rice w = .ok b) :
    (∀ n ∈ v, 1 ≤ w ∧ w ≤ 63 ∧ InWidth w n) ∧ b.length = ((codesOf rice v).length + 7) / 8 := by
  obtain ⟨wr, hwr, hb⟩ := bind_eq_ok.1 henc
  obtain rfl : wr.bytes = b := Except.ok.inj hb
  obtain ⟨hv, hholds⟩ := encodeVec_holds Holds.empty hwr
  exact ⟨hv, by simpa using hholds.len⟩

theorem codesOf_length (v : List ℤ) :
    (codesOf rice v).length = (v.map fun n => zig n >>> rice).sum + v.length * (rice + 1) := by
  induction v with
  | nil => simp [codesOf]
  | cons n v ih =>
    rw [codesOf_cons, length_append, ih, codeOf, riceCode_length, map_cons, sum_cons, length_cons]
    ring

/-! ## The closed form -/

theorem coordWireBits_eq (hw : 1 ≤ w ∧ w ≤ 63 ∧ InWidth w n) (hrice : rice < 2 ^ 32) :
    golombRiceCoordWireBits n rice w = .ok (codeOf rice n).length := by
  obtain ⟨hw1, hw2, hlo, hhi⟩ := hw
  have hz := zigzagEncode_ok_iff.2 ⟨hw1, hw2, hlo, hhi, rfl⟩
  -- nothing saturates: a zigzag word is below `2 ^ 63`
  have hsmall : zig n < 2 ^ 63 := by
    have hp : (2 : ℤ) ^ (w - 1) ≤ 2 ^ 62 := pow_le_pow_right₀ (by norm_num) (by omega)
    unfold zig
    split <;> omega
  have hquot : zig n >>> rice ≤ zig n := Nat.shiftRight_le _ _
  have hq : (if rice = 0 then zig n else zig n >>> rice) = zig n >>> rice := by
    by_cases h0 : rice = 0
    · simp [h0]
    · rw [if_neg h0]
  have hmin : min (zig n >>> rice + 1 + rice) (2 ^ usizeBits - 1) = zig n >>> rice + 1 + rice := by
    simp only [usizeBits]
    omega
  unfold golombRiceCoordWireBits golombRiceQuotientForCoord
  rw [hz]
  simp only [ok_bind, pure_bind, hq, hmin, codeOf, riceCode_length]
  rfl

/-- **The total is the length of the codes**, as long as it fits the machine word. -/
theorem totalWireBits_eq (hv : ∀ n ∈ v, 1 ≤ w ∧ w ≤ 63 ∧ InWidth w n) (hrice : rice < 2 ^ 32) :
    golombRiceTotalWireBits v rice w = if (codesOf rice v).length < 2 ^ 64 then .ok (codesOf rice v).length
      else .error (.invalidSetup "golomb-rice total wire bits overflow") := by
  have key : ∀ (v : List ℤ) (acc : ℕ), (∀ n ∈ v, 1 ≤ w ∧ w ≤ 63 ∧ InWidth w n) → acc < 2 ^ 64 →
      v.foldlM (fun acc n => do
        let bits ← golombRiceCoordWireBits n rice w
        okOr (checkedAdd usizeBits bits acc) (.invalidSetup "golomb-rice total wire bits overflow")) acc =
      if acc + (codesOf rice v).length < 2 ^ 64 then .ok (acc + (codesOf rice v).length)
      else .error (.invalidSetup "golomb-rice total wire bits overflow") := by
    intro v
    induction v with
    | nil =>
      intro acc _ hacc
      have hnil : acc + (codesOf rice []).length = acc := by simp [codesOf]
      rw [foldlM_nil, hnil, if_pos hacc]
      rfl
    | cons n v ih =>
      intro acc hv hacc
      have hlen : acc + (codesOf rice (n :: v)).length = (codeOf rice n).length + acc + (codesOf rice v).length := by
        rw [codesOf_cons, length_append]
        omega
      rw [foldlM_cons, coordWireBits_eq (hv n mem_cons_self) hrice, hlen]
      simp only [ok_bind]
      by_cases hfits : (codeOf rice n).length + acc < 2 ^ 64
      · have hadd : checkedAdd usizeBits (codeOf rice n).length acc = some ((codeOf rice n).length + acc) :=
          checkedAdd_eq_some.2 ⟨hfits, rfl⟩
        simp only [hadd, okOr, ok_bind]
        exact ih _ (fun m hm => hv m (mem_cons_of_mem _ hm)) hfits
      · have hadd : checkedAdd usizeBits (codeOf rice n).length acc = none := if_neg hfits
        rw [hadd, if_neg (by omega)]
        rfl
  have h := key v 0 hv (by norm_num)
  rwa [zero_add] at h

/-! ## The estimate -/

theorem zig_le (n : ℤ) : zig n ≤ 2 * n.natAbs := by
  unfold zig
  split <;> omega

theorem sum_shiftRight_le (v : List ℕ) (k : ℕ) : (v.map (· >>> k)).sum ≤ v.sum >>> k := by
  induction v with
  | nil => simp
  | cons x v ih =>
    have hadd : x / 2 ^ k + v.sum / 2 ^ k ≤ (x + v.sum) / 2 ^ k := Nat.div_add_div_le_add_div
    simp only [map_cons, sum_cons, Nat.shiftRight_eq_div_pow] at ih ⊢
    omega

/-- **Cauchy-Schwarz**: the absolute sum of a vector against its length and squared norm. -/
theorem sum_natAbs_le_sqrt (hcap : (v.map fun n : ℤ => n ^ 2).sum ≤ cap) :
    (v.map Int.natAbs).sum ≤ Nat.sqrt (v.length * cap) := by
  have hsq : ((v.map Int.natAbs).sum : ℤ) ^ 2 ≤ v.length * (v.map fun n : ℤ => n ^ 2).sum := by
    have hlist : ((v.map Int.natAbs).sum : ℤ) = ∑ i ∈ Finset.range v.length, ((v.getD i 0).natAbs : ℤ) := by
      rw [sum_map_list v 0]
      push_cast
      rfl
    have hsquares : (v.map fun n : ℤ => n ^ 2).sum = ∑ i ∈ Finset.range v.length, ((v.getD i 0).natAbs : ℤ) ^ 2 := by
      rw [sum_map_list v 0]
      exact Finset.sum_congr rfl fun i _ => (Int.natAbs_sq _).symm
    have h := sq_sum_le_card_mul_sum_sq (s := Finset.range v.length) (f := fun i => ((v.getD i 0).natAbs : ℤ))
    rw [Finset.card_range] at h
    rw [hlist, hsquares]
    exact h
  rw [Nat.le_sqrt']
  have hbound : ((v.map Int.natAbs).sum : ℤ) ^ 2 ≤ v.length * cap :=
    hsq.trans (mul_le_mul_of_nonneg_left hcap (Int.natCast_nonneg _))
  exact_mod_cast hbound

theorem sum_quotient_le (hcap : (v.map fun n : ℤ => n ^ 2).sum ≤ cap) :
    (v.map fun n => zig n >>> rice).sum ≤ (Nat.sqrt (v.length * cap) * 2) >>> rice := by
  have hzig : (v.map zig).sum ≤ (v.map Int.natAbs).sum * 2 := by
    rw [← sum_map_mul_right]
    exact sum_le_sum fun n _ => (zig_le n).trans_eq (mul_comm _ _)
  have hsum : (v.map zig).sum ≤ Nat.sqrt (v.length * cap) * 2 :=
    hzig.trans (Nat.mul_le_mul_right _ (sum_natAbs_le_sqrt hcap))
  calc (v.map fun n => zig n >>> rice).sum = ((v.map zig).map (· >>> rice)).sum := by rw [map_map]; rfl
    _ ≤ (v.map zig).sum >>> rice := sum_shiftRight_le _ _
    _ ≤ (Nat.sqrt (v.length * cap) * 2) >>> rice := by
      rw [Nat.shiftRight_eq_div_pow, Nat.shiftRight_eq_div_pow]
      exact Nat.div_le_div_right hsum

theorem plannerPayloadBytes_eq {numValues n : ℕ} (h : golombRiceL2PlannerPayloadBytes numValues cap rice = some n) :
    n = (numValues * (rice + 1) + (Nat.sqrt (numValues * cap) * 2) >>> rice + 7) / 8 := by
  unfold golombRiceL2PlannerPayloadBytes checkedShr128 at h
  simp only [Option.bind_eq_bind, Option.bind_eq_some_iff, checkedMul_eq_some, checkedAdd_eq_some,
    Option.ite_none_right_eq_some, Option.some.injEq] at h
  obtain ⟨_, ⟨-, rfl⟩, _, ⟨-, rfl⟩, _, ⟨-, rfl⟩, _, ⟨-, rfl⟩, _, ⟨-, rfl⟩, _, ⟨-, rfl⟩, _, ⟨-, rfl⟩, hn⟩ := h
  exact (Option.some.inj hn).symm

/-- **The planner's payload bound is sound.** A vector that encodes takes at most the bytes planned from its
length and any bound on its squared norm, and exactly the bytes of its closed-form bit count, which exists
whenever the bits written can be counted in a machine word. From a width of 64 on the encoder's word shifts
overflow, so the source has no run there for the statement to miss. -/
theorem golombRice_l2_planner_sound {v : List ℤ} {riceLowBits : UInt32} {zigzagW l2SqCap : ℕ} {bytes : List UInt8}
    (henc : golombRiceEncodeVec v riceLowBits.toNat zigzagW = .ok bytes) (hcap : (v.map fun n : ℤ => n ^ 2).sum ≤ l2SqCap) :
    (∀ n, golombRiceL2PlannerPayloadBytes v.length l2SqCap riceLowBits.toNat = some n → bytes.length ≤ n) ∧
      (∀ total, golombRiceTotalWireBits v riceLowBits.toNat zigzagW = .ok total → bytes.length = (total + 7) / 8) ∧
      (8 * bytes.length < 2 ^ 64 → ∃ total, golombRiceTotalWireBits v riceLowBits.toNat zigzagW = .ok total) := by
  obtain ⟨hv, hlen⟩ := encodeVec_length henc
  have htotal := totalWireBits_eq hv riceLowBits.toNat_lt
  refine ⟨?_, ?_, ?_⟩
  · intro n hn
    have hquotients : (v.map fun n => zig n >>> riceLowBits.toNat).sum ≤
        (Nat.sqrt (v.length * l2SqCap) * 2) >>> riceLowBits.toNat := sum_quotient_le hcap
    rw [hlen, plannerPayloadBytes_eq hn, codesOf_length]
    omega
  · intro total h
    rw [htotal] at h
    split at h
    · rw [hlen, Except.ok.inj h]
    · cases h
  · intro hfits
    rw [htotal, if_pos (by omega)]
    exact ⟨_, rfl⟩

/-- Three coordinates of squared norm 34, planned at two bytes and encoded in two. -/
theorem golombRice_l2_planner_sound_three :
    golombRiceL2PlannerPayloadBytes 3 34 (2 : UInt32).toNat = some 2 ∧ [0xb9, (0x00 : UInt8)].length ≤ 2 ∧
      ∀ total, golombRiceTotalWireBits [3, -5, 0] (2 : UInt32).toNat 5 = .ok total →
        [0xb9, (0x00 : UInt8)].length = (total + 7) / 8 := by
  have henc : golombRiceEncodeVec [3, -5, 0] (2 : UInt32).toNat 5 = .ok [0xb9, 0x00] := by decide
  have hplan : golombRiceL2PlannerPayloadBytes 3 34 (2 : UInt32).toNat = some 2 := by decide +kernel
  have hcap : (([3, -5, 0] : List ℤ).map fun n : ℤ => n ^ 2).sum ≤ (34 : ℕ) := by decide
  obtain ⟨hbound, htotal, -⟩ := golombRice_l2_planner_sound henc hcap
  exact ⟨hplan, hbound 2 hplan, htotal⟩

end Akita.GolombRice
