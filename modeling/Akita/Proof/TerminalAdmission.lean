import Akita.Proof.TailPlanner
import Akita.Spec.TerminalAdmission

/-!
# Terminal admission and terminal decoding part at one coordinate

* `admit_iff`: the prover admits by the caps and by the bits of the codes.
* `takes_iff`: the verifier asks moreover that the unary quotients keep to the cap it decodes under.
* `admit_iff_takes`: without an infinity cap the prover admits all of `i16`, and the quotient cap is that of
  `i16::MAX`. At remainder width 0 the coordinate `-32768` is in the range and above the quotient cap.
-/

namespace Akita.TerminalFold

open Lib GolombRice List

theorem i16TryFrom_eq_some {n m : ℤ} : i16TryFrom n = some m ↔ (-2 ^ 15 ≤ n ∧ n < 2 ^ 15) ∧ m = n := by
  unfold i16TryFrom; split <;> simp_all [eq_comm]

variable {group : TailSegmentGroupLayout} {v : List ℤ} {n m : ℤ} {l2SqCap : Option ℕ}

/-- What passes the infinity cap and fits an `i16`. -/
def InCap (group : TailSegmentGroupLayout) (n : ℤ) : Prop :=
  (∀ c ∈ group.zLinfCap, n.natAbs ≤ c) ∧ -2 ^ 15 ≤ n ∧ n < 2 ^ 15

theorem decodeCoordinate_eq_ok : decodeCoordinate group.zLinfCap n = .ok m ↔ InCap group n ∧ m = n := by
  unfold decodeCoordinate InCap
  cases group.zLinfCap with
  | none => simp [okOr_eq_ok, i16TryFrom_eq_some]
  | some c =>
    by_cases hc : c < n.natAbs
    · simp [hc, not_le.2 hc]
    · simp [hc, not_lt.1 hc, okOr_eq_ok, i16TryFrom_eq_some]

theorem checkedCenteredL2Sq_eq : ∀ (v : List ℤ) (acc : ℕ), acc + sqSum v < 2 ^ 128 →
    v.foldlM (fun sum value => do checkedAdd 128 sum (← checkedMul 128 value.natAbs value.natAbs)) acc =
      some (acc + sqSum v) := by
  unfold sqSum
  intro v
  induction v with
  | nil => intro acc _; rfl
  | cons n v ih =>
    intro acc hacc
    rw [map_cons, sum_cons] at hacc ⊢
    have hmul : checkedMul 128 n.natAbs n.natAbs = some (n.natAbs * n.natAbs) := checkedMul_eq_some.2 ⟨by omega, rfl⟩
    have hstep : (do checkedAdd 128 acc (← checkedMul 128 n.natAbs n.natAbs)) = some (acc + n.natAbs * n.natAbs) := by
      rw [hmul]
      exact checkedAdd_eq_some.2 ⟨by omega, rfl⟩
    rw [foldlM_cons, hstep, ← Nat.add_assoc]
    exact ih _ (by omega)

open TailSegmentGroupLayout

theorem wireAbsBound_lt (group : TailSegmentGroupLayout) : group.wireAbsBound < 2 ^ 15 := by
  unfold wireAbsBound
  cases h : group.zLinfCap with
  | none => decide
  | some c => exact Nat.lt_succ_of_le (group.zLinfCap_le c h)

theorem wire_bounds (group : TailSegmentGroupLayout) :
    Bounds group.zRiceLowBits group.zigzagW ((2 * group.wireAbsBound) >>> group.zRiceLowBits) :=
  Bounds.of_cap ((wireAbsBound_lt group).trans (by norm_num)) (Nat.lt_succ_iff.1 group.zRiceLowBits_lt)

theorem InCap.inWidth (hn : InCap group n) : InWidth group.zigzagW n := by
  have hwire := wireAbsBound_lt group
  unfold zigzagW
  unfold wireAbsBound at hwire ⊢
  cases h : group.zLinfCap with
  | some c =>
    have habs := hn.1 c h
    rw [h] at hwire
    exact inWidth_of_cap (hwire.trans (by norm_num)) (by simp only [Option.getD_some]; omega) (by simp only [Option.getD_some]; omega)
  | none =>
    have hwidth : golombRiceZigzagWidth i16Max = 16 := by decide +kernel
    rw [Option.getD_none, hwidth]
    exact ⟨hn.2.1, Int.le_sub_one_of_lt hn.2.2⟩

/-- **The quotient cap against the range**: only the lowest `i16` can lie above it. -/
theorem InCap.quotient_le_iff (hn : InCap group n) : zig n >>> group.zRiceLowBits ≤ (2 * group.wireAbsBound) >>> group.zRiceLowBits ↔
    ¬(group.zLinfCap = none ∧ group.zRiceLowBits = 0 ∧ n = -2 ^ 15) := by
  have hmono : ∀ {a b : ℕ}, a ≤ b → a >>> group.zRiceLowBits ≤ b >>> group.zRiceLowBits := fun h => by
    rw [Nat.shiftRight_eq_div_pow, Nat.shiftRight_eq_div_pow]
    exact Nat.div_le_div_right h
  unfold wireAbsBound
  cases h : group.zLinfCap with
  | some c =>
    have habs := hn.1 c h
    simp only [reduceCtorEq, false_and, not_false_eq_true, iff_true]
    exact hmono (zig_le_of_cap (by simp only [Option.getD_some]; omega) (by simp only [Option.getD_some]; omega))
  | none =>
    by_cases hlow : n = -2 ^ 15
    · subst hlow
      -- `65535` and `65534` agree in all bits but the lowest
      cases group.zRiceLowBits with
      | zero => simp [zig, i16Max]
      | succ rice => simp [zig, i16Max, Nat.shiftRight_succ_inside]
    · simp only [hlow, and_false, not_false_eq_true, iff_true]
      obtain ⟨-, hlo, hhi⟩ := hn
      have hzig : zig n ≤ 2 * (2 ^ 15 - 1) := zig_le_of_cap (by omega) (by omega)
      exact hmono hzig

/-- **What the verifier takes.** -/
theorem takes_iff (hlen : v.length = group.zCoords) : Takes group l2SqCap v ↔
    (∀ c ∈ l2SqCap, sqSum v ≤ c) ∧ (∀ n ∈ v, InCap group n) ∧
      ¬(group.zLinfCap = none ∧ group.zRiceLowBits = 0 ∧ -2 ^ 15 ∈ v) ∧
      (codesOf group.zRiceLowBits v).length ≤ 8 * group.zPayloadBytes := by
  have hB := wire_bounds group
  have hdecode : ∀ {payload : List UInt8} {aligned : AlignTo payload}, payload.length ≤ group.zPayloadBytes →
      (decodeTerminalZGolombPayload payload aligned group = .ok v ↔
        (v.length = group.zCoords ∧ ∀ n ∈ v, Reads group.zRiceLowBits group.zigzagW
          ((2 * group.wireAbsBound) >>> group.zRiceLowBits) (decodeCoordinate group.zLinfCap) n) ∧
        bits payload = codesOf group.zRiceLowBits v ++ padding (codesOf group.zRiceLowBits v).length) := by
    intro payload aligned hfits
    rw [← decodeVec_ok_iff hB fun _ _ h => (decodeCoordinate_eq_ok.1 h).2, decodeTerminalZGolombPayload,
      if_neg (not_lt.2 hfits), zigzagW, maxQuotientForCap_eq ((wireAbsBound_lt group).trans (by norm_num)), ok_bind]
  constructor
  · rintro ⟨hl2, -, payload, henc, hfits, htakes⟩
    obtain ⟨⟨-, hall⟩, -⟩ := (hdecode hfits).1 (htakes ⟨0, 0, Nat.zero_le _⟩)
    have hin : ∀ n ∈ v, InCap group n := fun n hn => (decodeCoordinate_eq_ok.1 (hall n hn).2.2).1
    rw [(encodeVec_length henc).2] at hfits
    refine ⟨hl2, hin, ?_, by omega⟩
    rintro ⟨hnone, hzero, hlow⟩
    exact (hin _ hlow).quotient_le_iff.1 (hall _ hlow).2.1 ⟨hnone, hzero, rfl⟩
  · rintro ⟨hl2, hv, hlow, hfits⟩
    obtain ⟨payload, henc, hbits⟩ := encodeVec_ok group.zRiceLowBits hB.width_le hB.width_pos fun n hn => (hv n hn).inWidth
    have hpay : payload.length ≤ group.zPayloadBytes := by
      rw [(encodeVec_length henc).2]
      omega
    refine ⟨hl2, fun c hc n hn => (hv n hn).1 c hc, payload, henc, hpay, fun aligned => (hdecode hpay).2 ⟨⟨hlen, ?_⟩, hbits⟩⟩
    intro n hn
    refine ⟨(hv n hn).inWidth, (hv n hn).quotient_le_iff.2 ?_, decodeCoordinate_eq_ok.2 ⟨hv n hn, rfl⟩⟩
    rintro ⟨hnone, hzero, rfl⟩
    exact hlow ⟨hnone, hzero, hn⟩

theorem outsideCap_iff : outsideCap group.zLinfCap v = false ↔ ∀ n ∈ v, InCap group n := by
  unfold outsideCap InCap
  cases h : group.zLinfCap with
  | none => simp [i16TryFrom]
  | some c =>
    have hc : c ≤ 2 ^ 15 - 1 := group.zLinfCap_le c h
    have hrange : (∀ n ∈ v, (∀ d ∈ some c, n.natAbs ≤ d) ∧ -2 ^ 15 ≤ n ∧ n < 2 ^ 15) ↔ ∀ n ∈ v, n.natAbs ≤ c :=
      forall₂_congr fun n _ => ⟨fun h => h.1 c rfl, fun h => ⟨fun d hd => Option.some.inj hd ▸ h, by omega, by omega⟩⟩
    rw [hrange]
    by_cases hv : ∀ n ∈ v, n.natAbs ≤ c
    · simp only [golombRiceValuesWithinCap, ensure, if_pos hv]
      exact iff_of_true rfl hv
    · simp only [golombRiceValuesWithinCap, ensure, if_neg hv]
      exact iff_of_false Bool.noConfusion hv

/-- **What the prover admits.** -/
theorem admit_iff (hlen : v.length = group.zCoords) (diagnostics : Bool) :
    (∃ a, admitTerminalFold diagnostics v (group.probePlan l2SqCap) = .ok (some a)) ↔
      (∀ c ∈ l2SqCap, sqSum v ≤ c) ∧ (∀ n ∈ v, InCap group n) ∧
        (codesOf group.zRiceLowBits v).length ≤ 8 * group.zPayloadBytes := by
  unfold admitTerminalFold
  rw [if_neg (show ¬v.length ≠ (group.probePlan l2SqCap).coordinateCount from not_not.2 hlen)]
  simp only [probePlan]
  by_cases hv : ∀ n ∈ v, InCap group n
  · -- a response the layout allows has no square sum near `2 ^ 128`
    have hle : sqSum v ≤ v.length • 2 ^ 30 := by
      rw [sqSum, ← length_map fun n : ℤ => n.natAbs * n.natAbs]
      refine sum_le_card_nsmul _ _ fun x hx => ?_
      obtain ⟨n, hn, rfl⟩ := mem_map.1 hx
      obtain ⟨-, hlo, hhi⟩ := hv n hn
      have habs : n.natAbs ≤ 2 ^ 15 := by omega
      exact (Nat.mul_le_mul habs habs).trans_eq (by norm_num)
    have hcoords : v.length ≤ 2 ^ 25 := hlen ▸ group.zCoords_le
    have hl2 : checkedCenteredL2Sq v = some (0 + sqSum v) := checkedCenteredL2Sq_eq v 0 (by rw [smul_eq_mul] at hle; omega)
    have hB := wire_bounds group
    have hbits := totalWireBits_eq (fun n hn => ⟨hB.width_pos, hB.width_le, (hv n hn).inWidth⟩)
      (group.zRiceLowBits_lt.trans (by norm_num))
    have hpay : group.zPayloadBytes ≤ 2 ^ 25 := group.zPayloadBytes_le
    have hexceeds : (codesOf group.zRiceLowBits v).length < 2 ^ 64 →
        ((codesOf group.zRiceLowBits v).length > min (group.zPayloadBytes * 8) (2 ^ usizeBits - 1) ↔
          ¬(codesOf group.zRiceLowBits v).length ≤ 8 * group.zPayloadBytes) := by
      unfold usizeBits
      omega
    unfold zigzagW wireAbsBound at hbits
    have hcomputed : (l2SqCap.isSome && (if l2SqCap.isSome || diagnostics then some (0 + sqSum v) else none : Option ℕ).isNone) = false := by
      cases l2SqCap <;> simp
    have hover : ((if l2SqCap.isSome || diagnostics then some (0 + sqSum v) else none : Option ℕ).any fun value =>
        l2SqCap.any fun cap => value > cap) = true ↔ ¬∀ c ∈ l2SqCap, sqSum v ≤ c := by
      cases l2SqCap <;> cases diagnostics <;> simp
    simp only [outsideCap_iff.2 hv, hl2, hcomputed, hbits, Bool.false_eq_true, if_false, eq_true hv, true_and]
    by_cases hsum : ∀ c ∈ l2SqCap, sqSum v ≤ c
    · rw [if_neg (hover.not.2 (not_not.2 hsum)), eq_true hsum, true_and]
      by_cases h64 : (codesOf group.zRiceLowBits v).length < 2 ^ 64
      · simp only [if_pos h64, ok_bind, hexceeds h64]
        split
        · exact iff_of_false (by rintro ⟨_, ⟨⟩⟩) ‹_›
        · exact iff_of_true ⟨_, rfl⟩ (not_not.1 ‹_›)
      · rw [if_neg h64]
        exact iff_of_false (by rintro ⟨_, ⟨⟩⟩) (by omega)
    · rw [if_pos (hover.2 hsum), eq_false hsum, false_and]
      simp
  · have hout : outsideCap group.zLinfCap v = true := by simpa using outsideCap_iff.not.2 hv
    simp [hout, eq_false hv]

/-- **Admission and decoding agree but for the lowest `i16` at remainder width 0.** For every group, every square-sum cap
and every response of its length: the prover admits the response exactly when the verifier takes it, unless no infinity
cap is set, the remainder width is 0, a coordinate is `-32768`, and the response is otherwise to be admitted. -/
theorem admit_iff_takes (group : TailSegmentGroupLayout) (l2SqCap : Option ℕ) (diagnostics : Bool) (v : List.Vector ℤ group.zCoords) :
    ((∃ a, admitTerminalFold diagnostics v.toList (group.probePlan l2SqCap) = .ok (some a)) ↔ Takes group l2SqCap v.toList) ↔
      ¬(group.zLinfCap = none ∧ group.zRiceLowBits = 0 ∧ -2 ^ 15 ∈ v.toList ∧ (∀ n ∈ v.toList, -2 ^ 15 ≤ n ∧ n < 2 ^ 15) ∧
        (∀ c ∈ l2SqCap, sqSum v.toList ≤ c) ∧ (v.toList.map zig).sum + group.zCoords ≤ 8 * group.zPayloadBytes) := by
  obtain ⟨v, hlen⟩ := v
  simp only [List.Vector.toList_mk]
  rw [admit_iff hlen, takes_iff hlen, ← hlen]
  have hbits : group.zRiceLowBits = 0 → (codesOf group.zRiceLowBits v).length = (v.map zig).sum + v.length :=
    fun hzero => by simp [hzero, codesOf_length]
  constructor
  · rintro hiff ⟨hnone, hzero, hlow, hrange, hl2, hfits⟩
    have hv : ∀ n ∈ v, InCap group n := fun n hn => ⟨by simp [hnone], hrange n hn⟩
    exact (hiff.1 ⟨hl2, hv, (hbits hzero).trans_le hfits⟩).2.2.1 ⟨hnone, hzero, hlow⟩
  · refine fun hgood => ⟨?_, fun h => ⟨h.1, h.2.1, h.2.2.2⟩⟩
    rintro ⟨hl2, hv, hfits⟩
    refine ⟨hl2, hv, ?_, hfits⟩
    rintro ⟨hnone, hzero, hlow⟩
    exact hgood ⟨hnone, hzero, hlow, fun n hn => (hv n hn).2, hl2, (hbits hzero).ge.trans hfits⟩

/-- A group of one coordinate without an infinity cap, at remainder width 0. -/
def bareGroup : TailSegmentGroupLayout := ⟨1, none, 0, 8192, by decide, by simp, by decide, by decide⟩

/-- The prover admits `-32768`, and its encoding of 8192 bytes is refused. -/
theorem admits_untaken_response :
    (∃ a, admitTerminalFold false [-2 ^ 15] (bareGroup.probePlan none) = .ok (some a)) ∧ ¬Takes bareGroup none [-2 ^ 15] := by
  constructor
  · refine (admit_iff rfl false).2 ⟨by simp, by simp [InCap, bareGroup], ?_⟩
    rw [codesOf_length]
    decide +kernel
  · exact fun h => ((takes_iff rfl).1 h).2.2.1 ⟨rfl, rfl, mem_cons_self⟩

end Akita.TerminalFold
