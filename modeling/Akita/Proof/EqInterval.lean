import Mathlib.Data.List.GetD
import Akita.Lib.Enumerate
import Akita.Lib.Summary
import Akita.Proof.EqPoly
import Akita.Spec.TensorMaterialize

/-!
# The equality window, address by address and interval by interval

* `withLowBits_split`: a window's low table covers the low bits that its mask keeps.
* `eval_add`: inside one low block the window is the low table scaled by one high value.
* `fillBoundedHighInterval_eq`, `fillInterval_eq`: filling an interval writes the value of
  every address of it, block by block and chunk by chunk.
* `offsetEqWindow_extensional`: the window is the equality polynomial at every machine
  address, in the domain and past it, for every point and every low-bit cap.
-/

namespace Akita.OffsetEq

open Lib List

variable {F : Type} [Field F] {rt : Runtime}

namespace OffsetEqWindow

variable {challenges eqHigh : List F} {cap start : ℕ}

/-- The low table of a window holds one entry for each low address, and the mask cuts the low address out. -/
structure Split (w : OffsetEqWindow F) : Prop where
  low_length : w.eqLow.length = 2 ^ w.lowBits
  mask : ∀ index, index &&& w.lowMask = index % 2 ^ w.lowBits

theorem withLowBits_split {w : OffsetEqWindow F} (h : withLowBits rt challenges cap = .ok w) : w.Split := by
  unfold withLowBits at h
  simp only [result_ok] at h
  obtain ⟨eqLow, hlow, eqHigh, -, rfl⟩ := h
  obtain rfl := EqPolynomial.evals_ok hlow
  have hle : splitLowBits challenges.length cap ≤ challenges.length := splitLowBits_le _ _
  constructor
  · simp [hle]
  · intro index
    by_cases h0 : splitLowBits challenges.length cap = 0
    · simp [h0, Nat.mod_one]
    · simp only [if_neg h0]
      exact and_pred_two_pow _ _

theorem length_lt_of_evals {r t : List F} (h : EqPolynomial.evals rt r = .ok t) : r.length < 64 := by
  have hlen : ∃ size, EqPolynomial.materializedTableLen rt "eq evaluation table" r.length = .ok size := by
    unfold EqPolynomial.evals EqPolynomial.evalsWithScaling at h
    split at h
    · obtain ⟨size, hsize, -⟩ := bind_eq_ok.1 h
      exact ⟨size, hsize⟩
    · obtain ⟨size, hsize, -⟩ := bind_eq_ok.1 h
      exact ⟨size, hsize⟩
  obtain ⟨size, hsize⟩ := hlen
  obtain ⟨_, htable, -⟩ := bind_eq_ok.1 hsize
  exact (Checked.pow2_eq_some.1 (okOr_eq_ok.1 htable)).1

theorem lowBits_lt {w : OffsetEqWindow F} (h : withLowBits rt challenges cap = .ok w) : w.lowBits < 64 := by
  unfold withLowBits at h
  simp only [result_ok] at h
  obtain ⟨eqLow, hlow, eqHigh, -, rfl⟩ := h
  have hle : splitLowBits challenges.length cap ≤ challenges.length := splitLowBits_le _ _
  have hlt := length_lt_of_evals hlow
  rwa [length_take, min_eq_left hle] at hlt

variable [DecidableEq F] {w : OffsetEqWindow F}

theorem eval_eq (w : OffsetEqWindow F) (index : ℕ) :
    w.eval index = w.eqLow.getD (index &&& w.lowMask) 0 * w.evalHigh (index >>> w.lowBits) := by
  unfold eval evalFactors
  by_cases h : w.eqLow.getD (index &&& w.lowMask) 0 = 0
  · simp only [h, if_true, zero_mul]
  · simp only [if_neg h]

/-- **Inside a low block** the low address moves on and the high one stays. -/
theorem eval_add (hw : w.Split) {k : ℕ} (hk : start % 2 ^ w.lowBits + k < 2 ^ w.lowBits) :
    w.eval (start + k) = w.eqLow.getD (start % 2 ^ w.lowBits + k) 0 * w.evalHigh (start >>> w.lowBits) := by
  have hlow : (start + k) % 2 ^ w.lowBits = start % 2 ^ w.lowBits + k := by
    rw [Nat.add_mod, Nat.mod_eq_of_lt (show k < 2 ^ w.lowBits by omega), Nat.mod_eq_of_lt hk]
  have hsplit : start + k = 2 ^ w.lowBits * (start / 2 ^ w.lowBits) + (start % 2 ^ w.lowBits + k) := by
    have h := Nat.div_add_mod start (2 ^ w.lowBits)
    omega
  have hhigh : (start + k) / 2 ^ w.lowBits = start / 2 ^ w.lowBits := by
    rw [hsplit, Nat.mul_add_div (Nat.two_pow_pos _), Nat.div_eq_of_lt hk, add_zero]
  rw [eval_eq, hw.mask, hlow, Nat.shiftRight_eq_div_pow, Nat.shiftRight_eq_div_pow, hhigh]

theorem eval_past (hhigh : w.eqHigh = some eqHigh) {index : ℕ} (hpast : eqHigh.length ≤ index >>> w.lowBits) :
    w.eval index = 0 := by
  have hzero : w.evalHigh (index >>> w.lowBits) = 0 := by
    unfold evalHigh
    rw [hhigh]
    exact getD_eq_default _ _ hpast
  rw [eval_eq, hzero, mul_zero]

/-- The values of `len` addresses from `start` on. -/
def values (w : OffsetEqWindow F) (start len : ℕ) : List F := (List.range len).map fun k => w.eval (start + k)

theorem values_add (w : OffsetEqWindow F) (start m n : ℕ) :
    w.values start (m + n) = w.values start m ++ w.values (start + m) n := by
  unfold values
  rw [range_add, map_append, map_map]
  congr 1
  apply map_congr_left
  intro k _
  simp only [Function.comp_apply, add_assoc]

/-- The run of one low block, as `fill_bounded_high_interval` writes it for each kind of scale. -/
theorem run_eq (hw : w.Split) (hhigh : w.eqHigh = some eqHigh) {take : ℕ} {scale : F}
    (hscale : eqHigh[start >>> w.lowBits]? = some scale) (htake : start % 2 ^ w.lowBits + take ≤ 2 ^ w.lowBits) :
    (if scale = 0 then replicate take 0
      else if scale = 1 then (w.eqLow.drop (start % 2 ^ w.lowBits)).take take
      else ((w.eqLow.drop (start % 2 ^ w.lowBits)).take take).map (· * scale)) = w.values start take := by
  have hval : w.evalHigh (start >>> w.lowBits) = scale := by
    unfold evalHigh
    simp only [hhigh]
    rw [getD_eq_getElem?_getD, hscale]
    rfl
  have hscaled : ((w.eqLow.drop (start % 2 ^ w.lowBits)).take take).map (· * scale) = w.values start take := by
    have hlen := hw.low_length
    apply ext_getElem
    · simp only [values, length_map, length_take, length_drop, length_range]
      omega
    · intro k h1 h2
      have hk : k < take := by simpa [values] using h2
      simp only [values, getElem_map, getElem_take, getElem_drop, getElem_range]
      rw [eval_add hw (by omega), hval, getD_eq_getElem _ _ (by omega)]
  rw [← hscaled]
  by_cases h0 : scale = 0
  · have hlen := hw.low_length
    rw [if_pos h0, h0]
    apply ext_getElem
    · simp only [length_replicate, length_map, length_take, length_drop]
      omega
    · intro k h1 h2
      simp
  · by_cases h1 : scale = 1
    · rw [if_neg h0, if_pos h1, h1]
      simp
    · rw [if_neg h0, if_neg h1]

/-- **The run loop** writes every value. The induction is on the rounds left: each takes the rest of a
low block, or the rest of the interval. -/
theorem fillBoundedHighInterval_eq (hw : w.Split) (hhigh : w.eqHigh = some eqHigh) :
    ∀ {rounds start len : ℕ}, len ≤ rounds → start + len < 2 ^ 64 →
      w.fillBoundedHighInterval eqHigh rounds start len = .ok (w.values start len) := by
  intro rounds
  induction rounds with
  | zero =>
    intro start len hlen _
    obtain rfl : len = 0 := by omega
    rfl
  | succ rounds ih =>
    intro start len hlen hend
    unfold fillBoundedHighInterval
    by_cases hzero : len = 0
    · rw [if_pos hzero, hzero]
      rfl
    have hle : start % 2 ^ w.lowBits ≤ start := Nat.mod_le _ _
    set low := start % 2 ^ w.lowBits with hlowdef
    set take := min (2 ^ w.lowBits - low) len with htake
    have havail : checkedSub w.eqLow.length low = some (2 ^ w.lowBits - low) :=
      checkedSub_eq_some.2 ⟨by rw [hw.low_length]; omega, by rw [hw.low_length]⟩
    have hsum : checkedAdd usizeBits low take = some (low + take) :=
      checkedAdd_eq_some.2 ⟨by simp only [usizeBits]; omega, rfl⟩
    have hnext : checkedAdd usizeBits start take = some (start + take) :=
      checkedAdd_eq_some.2 ⟨by simp only [usizeBits]; omega, rfl⟩
    have hfits : ensure (low + take ≤ w.eqLow.length)
        (.internal "bounded equality low interval exceeds the prepared table") = .ok () :=
      ensure_eq_ok.2 (by rw [hw.low_length]; omega)
    rw [if_neg hzero]
    simp only [hw.mask, ← hlowdef, havail, okOr, ok_bind, ← htake, hsum, hfits]
    cases hscale : eqHigh[start >>> w.lowBits]? with
    | none =>
      -- the early exit: every later address is past the domain too
      simp only [ok_run, Except.ok.injEq]
      apply ext_getElem
      · simp [values]
      · intro k h1 h2
        simp only [values, getElem_replicate, getElem_map, getElem_range]
        rw [eval_past hhigh]
        have hpast := getElem?_eq_none_iff.1 hscale
        rw [Nat.shiftRight_eq_div_pow] at hpast ⊢
        exact hpast.trans (Nat.div_le_div_right (Nat.le_add_right _ _))
    | some scale =>
      have htail : w.fillBoundedHighInterval eqHigh rounds (start + take) (len - take) =
          .ok (w.values (start + take) (len - take)) := ih (by omega) (by omega)
      have hfit : start % 2 ^ w.lowBits + take ≤ 2 ^ w.lowBits := by omega
      have hrun := run_eq hw hhigh hscale hfit
      have hcut : len = take + (len - take) := by omega
      simp only [hnext, ok_bind, htail, hlowdef, hrun, ok_run, Except.ok.injEq]
      rw [← values_add, ← hcut]

theorem values_chunks (w : OffsetEqWindow F) (start len : ℕ) {size : ℕ} (hsize : 0 < size) :
    ((range ((len + size - 1) / size)).map fun c => w.values (start + c * size) (min size (len - c * size))).flatten =
      w.values start len := by
  set count := (len + size - 1) / size with hcount
  have hend : min (count * size) len = len := by
    have h := Nat.div_add_mod (len + size - 1) size
    have hmod : (len + size - 1) % size < size := Nat.mod_lt _ hsize
    rw [← hcount, mul_comm] at h
    omega
  have hseg := flatMap_range_segments (n := count) (fun c => min (c * size) len) (fun c => min size (len - c * size))
    (by simp) (by intro c _; simp only [add_mul, one_mul]; omega)
  rw [hend] at hseg
  unfold values
  rw [← hseg, map_flatMap, flatMap_def]
  congr 1
  apply map_congr_left
  intro c _
  rw [range'_eq_map_range, map_map]
  apply map_congr_left
  intro k hk
  have hk : k < min size (len - c * size) := by simpa using hk
  have hoff : min (c * size) len = c * size := by omega
  simp only [Function.comp_apply, hoff, add_assoc]

theorem fillChunk_eq (hw : w.Split) (hhigh : w.eqHigh = some eqHigh) {len c : ℕ} (hend : start + len < 2 ^ 64)
    (hc : c * fillThreshold < len) : (do
      let chunkStart ← okOr (do checkedAdd usizeBits start (← checkedMul usizeBits c fillThreshold))
        (.invalidInput "equality interval overflow")
      let chunkLen := min fillThreshold (len - c * fillThreshold)
      w.fillBoundedHighInterval eqHigh chunkLen chunkStart chunkLen : Result (List F)) =
    .ok (w.values (start + c * fillThreshold) (min fillThreshold (len - c * fillThreshold))) := by
  have hmul : checkedMul usizeBits c fillThreshold = some (c * fillThreshold) :=
    checkedMul_eq_some.2 ⟨by simp only [usizeBits]; omega, rfl⟩
  have hoff : checkedAdd usizeBits start (c * fillThreshold) = some (start + c * fillThreshold) :=
    checkedAdd_eq_some.2 ⟨by simp only [usizeBits]; omega, rfl⟩
  simp only [hmul, hoff, okOr, ok_bind, Option.bind_eq_bind, Option.bind_some]
  exact fillBoundedHighInterval_eq hw hhigh le_rfl (by omega)

/-- **Filling an interval** writes the value of every address, at any length and alignment. -/
theorem fillInterval_eq (hw : w.Split) {len : ℕ} (hend : start + len < 2 ^ 64) :
    w.fillInterval start len = .ok (w.values start len) := by
  have hadd : okOr (checkedAdd usizeBits start len) (.invalidInput "equality interval overflow") = .ok (start + len) :=
    okOr_eq_ok.2 (checkedAdd_eq_some.2 ⟨hend, rfl⟩)
  unfold fillInterval
  simp only [hadd, ok_bind]
  cases hhigh : w.eqHigh with
  | none => rfl
  | some eqHigh =>
    by_cases hbig : len ≥ fillThreshold
    · have hpos : 0 < fillThreshold := Nat.two_pow_pos _
      have hcount : ∀ c ∈ range ((len + fillThreshold - 1) / fillThreshold), c * fillThreshold < len := by
        intro c hc
        have h : c < (len + fillThreshold - 1) / fillThreshold := by simpa using hc
        have hmul := (Nat.le_div_iff_mul_le hpos).1 (Nat.succ_le_of_lt h)
        rw [Nat.succ_mul] at hmul
        omega
      have hchunks := mapM_ok_of_forall fun c hc => fillChunk_eq hw hhigh hend (hcount c hc)
      simp only [if_pos hbig, hchunks, ok_bind, values_chunks w start len hpos]
      rfl
    · simp only [if_neg hbig]
      exact fillBoundedHighInterval_eq hw hhigh le_rfl hend

/-- **The window is the equality polynomial.** A window over any point, with any low-bit cap, reads the
equality value of every machine address, zero past the domain; and any interval of machine addresses is
filled with the values of its addresses, wherever it starts and ends. -/
theorem offsetEqWindow_extensional {challenges : List F} {cap : ℕ} {w : OffsetEqWindow F}
    (h : withLowBits rt challenges cap = .ok w) : (∀ index < 2 ^ 64, w.eval index = eqEvalAtIndex challenges index) ∧
      (∀ index < 2 ^ 64, 2 ^ challenges.length ≤ index → w.eval index = 0) ∧
      ∀ start len, start + len < 2 ^ 64 → ∃ output, w.fillInterval start len = .ok output ∧ output.length = len ∧
        ∀ k < len, output[k]? = some (w.eval (start + k)) := by
  have hreads := withLowBits_reads h
  refine ⟨?_, ?_, ?_⟩
  · intro index hindex
    rw [hreads index hindex, eqEvalAtIndex_eq _ hindex]
  · intro index hindex hout
    rw [hreads index hindex, eqAt_of_ge hout]
  · intro start len hend
    refine ⟨w.values start len, fillInterval_eq (withLowBits_split h) hend, by simp [values], ?_⟩
    intro k hk
    simp [values, hk]

/-- Three coordinates, two of them low: an interval that straddles the end of the domain. -/
theorem offsetEqWindow_extensional_three : ∃ w : OffsetEqWindow (ZMod 5), withLowBits serialTables [2, 3, 4] 2 = .ok w ∧
      w.eval 6 = eqEvalAtIndex [2, 3, 4] 6 ∧ w.eval 9 = 0 ∧
      ∃ output, w.fillInterval 6 4 = .ok output ∧ output.length = 4 ∧ ∀ k < 4, output[k]? = some (w.eval (6 + k)) := by
  obtain ⟨w, hw⟩ : ∃ w : OffsetEqWindow (ZMod 5), withLowBits serialTables [2, 3, 4] 2 = .ok w := ⟨_, rfl⟩
  obtain ⟨heval, hout, hfill⟩ := offsetEqWindow_extensional hw
  exact ⟨w, hw, heval 6 (by decide), hout 9 (by decide) (by decide), hfill 6 4 (by decide)⟩

end OffsetEqWindow

end Akita.OffsetEq
