import Akita.Lib.BitProduct
import Akita.Spec.EqPoly

/-!
# Equality tables hold the equality polynomial

Every way to read an equality value, a table built serially or in parallel, a split table,
a window or the scalar primitive, gives the product of the factors of the address bits.
-/

namespace Akita.OffsetEq

open Lib List

variable {F : Type} [Field F] {rt : Runtime} {challenges : List F} {index : ℕ}

/-- `eq(challenges, index)`: zero outside the domain. -/
def eqAt (challenges : List F) (index : ℕ) : F := bitProduct (eqFactors challenges) index

theorem eqAt_of_ge (h : 2 ^ challenges.length ≤ index) : eqAt challenges index = 0 :=
  bitProduct_of_ge (by simpa using h)

/-- The equality value of an address is that of its low bits times that of the rest. -/
theorem eqAt_split {n : ℕ} (hn : n ≤ challenges.length) (index : ℕ) :
    eqAt challenges index = eqAt (challenges.take n) (index % 2 ^ n) * eqAt (challenges.drop n) (index / 2 ^ n) := by
  unfold eqAt
  rw [bitProduct_split (eqFactors challenges) (by simpa using hn)]
  simp only [eqFactors, map_take, map_drop]

theorem eqAt_nil_zero : eqAt ([] : List F) 0 = 1 := rfl

/-! ## The scalar primitive -/

theorem foldl_bits (r : List F) (index : ℕ) : ∀ (acc : F) (k : ℕ),
    (r.zipIdx k).foldl (fun acc p => acc * if index.testBit p.2 then p.1 else 1 - p.1) acc =
      ((eqFactors r).zipIdx k).foldl (fun acc p => acc * if index.testBit p.2 then p.1.2 else p.1.1) acc := by
  induction r with
  | nil => intro acc k; rfl
  | cons x r ih =>
    intro acc k
    have hcons : eqFactors (x :: r) = (1 - x, x) :: eqFactors r := rfl
    rw [hcons, zipIdx_cons, zipIdx_cons, foldl_cons, foldl_cons]
    exact ih _ _

theorem eqEvalAtIndex_eq (r : List F) (hindex : index < 2 ^ 64) : eqEvalAtIndex r index = eqAt r index := by
  unfold eqEvalAtIndex
  by_cases hout : r.length < usizeBits ∧ index ≥ 2 ^ r.length
  · rw [if_pos hout, eqAt_of_ge hout.2]
  · rw [if_neg hout]
    have hdomain : index < 2 ^ r.length := by
      by_cases hlen : r.length < usizeBits
      · by_contra hge
        exact hout ⟨hlen, by omega⟩
      · have hpow : 2 ^ 64 ≤ 2 ^ r.length := Nat.pow_le_pow_right (by decide) (by simpa [usizeBits] using hlen)
        omega
    -- a bit at or above the word size is zero
    have hbit : ∀ p : F × ℕ, (if (if p.2 < usizeBits then (index >>> p.2) &&& 1 else 0) = 1 then p.1 else 1 - p.1) =
        if index.testBit p.2 then p.1 else 1 - p.1 := by
      intro p
      by_cases hp : p.2 < usizeBits
      · rw [if_pos hp, Nat.and_one_is_mod, Nat.testBit_eq_decide_div_mod_eq, Nat.shiftRight_eq_div_pow]
        simp
      · have hzero : index.testBit p.2 = false := by
          apply Nat.testBit_lt_two_pow
          have hpow : 2 ^ 64 ≤ 2 ^ p.2 := Nat.pow_le_pow_right (by decide) (by simpa [usizeBits] using hp)
          omega
        simp [hp, hzero]
    simp only [hbit]
    rw [foldl_bits, eqAt]
    have h := bitProduct_eq_foldl (eqFactors r) index (by simpa using hdomain) 1 0
    simpa using h

/-! ## Full tables -/

namespace EqPolynomial

variable {label : String} {r t : List F} {scalingFactor : Option F}

def children (coordinate : F) (map : F → F) (value : F) : List F :=
  [map (splitLagrangeParent value coordinate).1, map (splitLagrangeParent value coordinate).2]

/-- The in-place layer: going down, no parent is overwritten before it is read. -/
theorem splitParents_eq (coordinate : F) (map : F → F) (len : ℕ) : ∀ evals : List F, 2 * len ≤ evals.length →
    splitParents coordinate map evals len =
      (evals.take len).flatMap (children coordinate map) ++ evals.drop (2 * len) := by
  induction len with
  | zero => intro evals _; simp [splitParents]
  | succ len ih =>
    intro evals hlen
    have hlt : len < evals.length := by omega
    set left := map (splitLagrangeParent (evals.getD len 0) coordinate).1 with hleft
    set right := map (splitLagrangeParent (evals.getD len 0) coordinate).2 with hright
    have hstep : splitParents coordinate map evals (len + 1) =
        splitParents coordinate map ((evals.set (2 * len) left).set (2 * len + 1) right) len := by
      unfold splitParents
      rw [range_succ, reverse_append, reverse_singleton, singleton_append, foldl_cons]
    have htake : ((evals.set (2 * len) left).set (2 * len + 1) right).take len = evals.take len := by
      rw [take_set_of_le (by omega), take_set_of_le (by omega)]
    have hdrop : ((evals.set (2 * len) left).set (2 * len + 1) right).drop (2 * len) =
        left :: right :: evals.drop (2 * (len + 1)) := by
      have h1 : evals.drop (2 * len) = evals.getD (2 * len) 0 :: evals.getD (2 * len + 1) 0 :: evals.drop (2 * (len + 1)) := by
        have ha : 2 * len < evals.length := by omega
        have hb : 2 * len + 1 < evals.length := by omega
        rw [drop_eq_getElem_cons ha, drop_eq_getElem_cons hb]
        simp [getD_eq_getElem?_getD, ha, hb, mul_add]
      have ha : ¬ 2 * len + 1 < 2 * len := by omega
      rw [drop_set, if_neg ha, drop_set, if_neg (lt_irrefl _), h1]
      simp
    have hget : evals.take (len + 1) = evals.take len ++ [evals.getD len 0] := by
      rw [take_succ_eq_append_getElem hlt]
      simp [getD_eq_getElem?_getD, hlt]
    rw [hstep, ih _ (by simpa using (by omega : 2 * len ≤ evals.length)), htake, hdrop, hget, flatMap_append]
    simp [children, hleft, hright]

/-- The children of a scaled table are the scaled table with a new lowest coordinate. -/
theorem flatMap_children (coordinate v : F) (map : F → F) (rest : List F) :
    ((bitTable (eqFactors rest)).map fun x => v * x).flatMap (children coordinate map) =
      (bitTable (eqFactors (coordinate :: rest))).map fun x => map (v * x) := by
  have hcons : eqFactors (coordinate :: rest) = (1 - coordinate, coordinate) :: eqFactors rest := rfl
  rw [hcons, bitTable_cons, flatMap_map, map_flatMap]
  congr 1
  funext x
  simp only [children, splitLagrangeParent, map_cons, map_nil]
  congr 2
  · ring
  · ring_nf

theorem serialLayers_eq (rest : List F) (v : F) : ∀ evals : List F, 2 ^ rest.length ≤ evals.length → evals.getD 0 0 = v →
    ∃ evals', rest.reverse.foldl
        (fun (state : List F × ℕ) coordinate => (splitParents coordinate id state.1 state.2, state.2 * 2)) (evals, 1) =
        (evals', 2 ^ rest.length) ∧ evals'.length = evals.length ∧
      evals'.take (2 ^ rest.length) = (bitTable (eqFactors rest)).map fun x => v * x := by
  intro evals hlen hfirst
  rw [foldl_reverse]
  induction rest with
  | nil =>
    refine ⟨evals, rfl, rfl, ?_⟩
    have hpos : 0 < evals.length := lt_of_lt_of_le (Nat.two_pow_pos _) hlen
    have htake : evals.take 1 = evals.take 0 ++ [evals[0]] := take_succ_eq_append_getElem hpos
    have h1 : evals[0] = v := by simpa [getD_eq_getElem?_getD, hpos] using hfirst
    rw [length_nil, pow_zero, htake]
    simp [h1, eqFactors, bitTable_nil]
  | cons coordinate rest ih =>
    have hpow : 2 ^ (coordinate :: rest).length = 2 * 2 ^ rest.length := by
      rw [length_cons, pow_succ]
      ring
    obtain ⟨mid, hmid, hmidlen, htable⟩ := ih (by omega)
    have hsplit := splitParents_eq coordinate id (2 ^ rest.length) mid (by omega)
    refine ⟨splitParents coordinate id mid (2 ^ rest.length), ?_, ?_, ?_⟩
    · rw [foldr_cons, hmid, hpow, mul_comm 2]
    · rw [hsplit, htable, flatMap_children, length_append, length_map, bitTable_length, eqFactors_length,
        length_drop, hmidlen, hpow]
      omega
    · have hlen' : ((bitTable (eqFactors (coordinate :: rest))).map fun x => id (v * x)).length =
          2 ^ (coordinate :: rest).length := by simp
      rw [hsplit, htable, flatMap_children, ← hlen', take_left' rfl]
      rfl

/-- **Serial expansion**: the table, scaled, with the map applied to its entries. -/
theorem fillSerial_eq (r : List F) (initial : F) (map : F → F) {evals : List F} (hevals : evals.length = 2 ^ r.length) :
    fillSerialWithFinalMap evals r initial map = (bitTable (eqFactors r)).map fun x => map (initial * x) := by
  cases r with
  | nil =>
    obtain ⟨x, rfl⟩ := length_eq_one_iff.1 (by simpa using hevals)
    simp [fillSerialWithFinalMap, eqFactors, bitTable_nil]
  | cons first rest =>
    have hpow : 2 ^ (first :: rest).length = 2 * 2 ^ rest.length := by
      rw [length_cons, pow_succ]
      ring
    have hpos : 0 < 2 ^ rest.length := Nat.two_pow_pos _
    have hstart : (evals.set 0 initial).getD 0 0 = initial := by
      rw [getD_eq_getElem?_getD, getElem?_set_self (by omega)]
      rfl
    obtain ⟨mid, hfold, hlen, htable⟩ := serialLayers_eq rest initial (evals.set 0 initial) (by simp; omega) hstart
    have hlen' : mid.length = 2 * 2 ^ rest.length := by rw [hlen, length_set, hevals, hpow]
    simp only [fillSerialWithFinalMap, hfold]
    rw [splitParents_eq _ _ _ _ (by omega), htable, flatMap_children, ← hlen', drop_length, append_nil]

theorem parallelLayers_eq (r : List F) (v : F) (evals : List F) (hlen : 2 ^ r.length ≤ evals.length)
    (hfirst : evals.getD 0 0 = v) : r.foldl (fun (state : List F × ℕ) coordinate =>
      let (evals, size) := state
      let filled := evals.take size
      (filled.map (fun x => (splitLagrangeParent x coordinate).1) ++
        filled.map (fun x => (splitLagrangeParent x coordinate).2) ++ evals.drop (2 * size), size * 2)) (evals, 1) =
      ((bitTable (eqFactors r)).map (fun x => v * x) ++ evals.drop (2 ^ r.length), 2 ^ r.length) := by
  induction r using List.reverseRecOn with
  | nil =>
    have hpos : 0 < evals.length := lt_of_lt_of_le (Nat.two_pow_pos _) hlen
    have h1 : evals[0] = v := by simpa [getD_eq_getElem?_getD, hpos] using hfirst
    have hsplit : evals = v :: evals.drop 1 := by
      conv_lhs => rw [← drop_zero (l := evals), drop_eq_getElem_cons hpos, h1]
    simp only [foldl_nil, length_nil, pow_zero, eqFactors, map_nil, bitTable_nil, map_cons, mul_one]
    rw [singleton_append, ← hsplit]
  | append_singleton r coordinate ih =>
    have hpow : 2 ^ (r ++ [coordinate]).length = 2 * 2 ^ r.length := by
      rw [length_append, length_singleton, pow_succ]
      ring
    have happ : eqFactors (r ++ [coordinate]) = eqFactors r ++ [(1 - coordinate, coordinate)] := by simp [eqFactors]
    set table := (bitTable (eqFactors r)).map fun x => v * x with htable
    have hsize : table.length = 2 ^ r.length := by simp [htable]
    have htake : (table ++ evals.drop (2 ^ r.length)).take (2 ^ r.length) = table := by
      rw [← hsize]
      exact take_left
    have hdrop : (table ++ evals.drop (2 ^ r.length)).drop (2 * 2 ^ r.length) = evals.drop (2 * 2 ^ r.length) := by
      rw [two_mul, drop_append, drop_drop, hsize]
      simp [hsize]
    rw [foldl_append, ih (by omega)]
    simp only [foldl_cons, foldl_nil, htake, hdrop]
    rw [happ, bitTable_concat, hpow]
    congr 1
    · rw [map_append, map_map, map_map, map_map, map_map]
      congr 2
      · apply map_congr_left
        intro x _
        simp only [Function.comp_apply, splitLagrangeParent]
        ring
      · apply map_congr_left
        intro x _
        simp only [Function.comp_apply, splitLagrangeParent]
        ring
    · ring

theorem materializedTableLen_ok {n len : ℕ} (h : materializedTableLen rt label n = .ok len) : len = 2 ^ n := by
  unfold materializedTableLen tableLen at h
  simp only [result_ok, Checked.pow2_eq_some] at h
  obtain ⟨_, ⟨-, rfl⟩, _, -, rfl⟩ := h
  rfl

theorem zeroVec_ok {len : ℕ} {v : List F} (h : zeroVec rt label len = .ok v) : v = replicate len 0 := by
  unfold zeroVec at h
  simp only [result_ok] at h
  exact h.2.symm

theorem evalsSerial_ok (h : evalsSerial rt r scalingFactor = .ok t) :
    t = (bitTable (eqFactors r)).map fun x => scalingFactor.getD 1 * x := by
  unfold evalsSerial at h
  simp only [result_ok] at h
  obtain ⟨size, hsize, zeros, hzeros, rfl⟩ := h
  obtain rfl := materializedTableLen_ok hsize
  obtain rfl := zeroVec_ok hzeros
  rw [fillSerial_eq _ _ _ (by simp)]
  rfl

theorem evalsParallel_ok (h : evalsParallel rt r scalingFactor = .ok t) :
    t = (bitTable (eqFactors r)).map fun x => scalingFactor.getD 1 * x := by
  unfold evalsParallel at h
  simp only [result_ok] at h
  obtain ⟨size, hsize, zeros, hzeros, rfl⟩ := h
  obtain rfl := materializedTableLen_ok hsize
  obtain rfl := zeroVec_ok hzeros
  have hstart : ((replicate (2 ^ r.length) (0 : F)).set 0 (scalingFactor.getD 1)).getD 0 0 = scalingFactor.getD 1 := by
    rw [getD_eq_getElem?_getD, getElem?_set_self (by simp)]
    rfl
  have hlayers := parallelLayers_eq r _ ((replicate (2 ^ r.length) (0 : F)).set 0 (scalingFactor.getD 1)) (by simp) hstart
  rw [hlayers]
  simp

theorem map_one_mul (t : List F) : (t.map fun x => (none : Option F).getD 1 * x) = t := by simp

/-- **A materialized table** is the table of the equality polynomial, on either path. -/
theorem evals_ok (h : evals rt r = .ok t) : t = bitTable (eqFactors r) := by
  unfold evals evalsWithScaling at h
  split at h
  · rw [evalsParallel_ok h, map_one_mul]
  · rw [evalsSerial_ok h, map_one_mul]

end EqPolynomial

/-! ## Split tables and windows -/

theorem and_pred_two_pow (index n : ℕ) : index &&& (2 ^ n - 1) = index % 2 ^ n := Nat.and_two_pow_sub_one_eq_mod index n

theorem SplitEqEvals.evalAt_ok {point : List F} {s : SplitEqEvals F} (hs : SplitEqEvals.new rt point = .ok s) {v : F}
    (h : s.evalAt index = .ok v) : v = eqAt point index := by
  unfold SplitEqEvals.new at hs
  simp only [result_ok] at hs
  obtain ⟨eIn, hin, eOut, hout, rfl⟩ := hs
  obtain rfl := EqPolynomial.evals_ok hin
  obtain rfl := EqPolynomial.evals_ok hout
  unfold SplitEqEvals.evalAt at h
  simp only [result_ok] at h
  obtain ⟨-, rfl⟩ := h
  have hm : point.length / 2 ≤ point.length := Nat.div_le_self _ _
  have hlen : (bitTable (eqFactors (point.take (point.length / 2)))).length = 2 ^ (point.length / 2) := by
    rw [bitTable_length, eqFactors_length, length_take, min_eq_left hm]
  rw [bitTable_getD, bitTable_getD, hlen, eqAt_split hm, mul_comm]
  rfl

namespace OffsetEqWindow

variable [DecidableEq F] {challenges : List F} {w : OffsetEqWindow F}

/-- The window reads the equality polynomial at every machine address. -/
def Reads (w : OffsetEqWindow F) (challenges : List F) : Prop := ∀ index < 2 ^ 64, w.eval index = eqAt challenges index

theorem splitLowBits_le (count cap : ℕ) : splitLowBits count cap ≤ count := by
  unfold splitLowBits offsetEqHighBitsCap
  simp only
  split
  · have h : (count + 1) / 2 ≤ count ∨ count = 0 := by omega
    omega
  · omega

theorem withLowBits_reads {cap : ℕ} (h : withLowBits rt challenges cap = .ok w) : w.Reads challenges := by
  unfold withLowBits at h
  simp only [result_ok] at h
  obtain ⟨eqLow, hlow, eqHigh, hhigh, rfl⟩ := h
  set n := splitLowBits challenges.length cap with hn
  have hle : n ≤ challenges.length := splitLowBits_le _ _
  obtain rfl := EqPolynomial.evals_ok hlow
  intro index hindex
  have hmask : (index &&& if n = 0 then 0 else 2 ^ n - 1) = index % 2 ^ n := by
    by_cases h0 : n = 0
    · simp [h0, Nat.mod_one]
    · rw [if_neg h0, and_pred_two_pow]
  have hhigh' : evalHigh
      { lowBits := n, lowMask := if n = 0 then 0 else 2 ^ n - 1, eqLow := bitTable (eqFactors (challenges.take n)),
        eqHigh, highChallenges := challenges.drop n } (index >>> n) = eqAt (challenges.drop n) (index / 2 ^ n) := by
    rw [Nat.shiftRight_eq_div_pow]
    unfold evalHigh
    split at hhigh
    · simp only [result_ok] at hhigh
      obtain ⟨table, htable, rfl⟩ := hhigh
      obtain rfl := EqPolynomial.evals_ok htable
      exact bitTable_getD _ _
    · obtain rfl := pure_eq_ok.1 hhigh
      exact eqEvalAtIndex_eq _ (lt_of_le_of_lt (Nat.div_le_self _ _) hindex)
  have hlowval : (bitTable (eqFactors (challenges.take n))).getD (index % 2 ^ n) 0 =
      eqAt (challenges.take n) (index % 2 ^ n) := bitTable_getD _ _
  unfold eval evalFactors
  simp only [hmask, hlowval, hhigh']
  rw [eqAt_split hle]
  by_cases h0 : eqAt (challenges.take n) (index % 2 ^ n) = 0
  · simp [h0]
  · simp [h0]

theorem new_reads (h : new rt challenges = .ok w) : w.Reads challenges := withLowBits_reads h

end OffsetEqWindow

section

variable [DecidableEq F] {challenges : List F}

def ReadsAmortized (challenges : List F) (window : Option (OffsetEqWindow F)) : Prop := ∀ w ∈ window, w.Reads challenges

theorem ReadsAmortized.eval {window : Option (OffsetEqWindow F)} (h : ReadsAmortized challenges window) (hindex : index < 2 ^ 64) :
    amortizedEval challenges window index = eqAt challenges index := by
  cases window with
  | none => exact eqEvalAtIndex_eq _ hindex
  | some w => exact h w rfl index hindex

theorem ReadsAmortized.prepare {window window' : Option (OffsetEqWindow F)} {families rows carries : ℕ}
    (h : ReadsAmortized challenges window) (hp : prepareForProduct rt challenges window families rows carries = .ok window') :
    ReadsAmortized challenges window' := by
  cases window with
  | some w =>
    obtain rfl : some w = window' := pure_eq_ok.1 hp
    exact h
  | none =>
    unfold prepareForProduct at hp
    simp only [bind_eq_ok] at hp
    obtain ⟨count, -, hp⟩ := hp
    unfold OffsetEqWindow.newIfAmortized at hp
    split at hp
    · obtain rfl := pure_eq_ok.1 hp
      simp [ReadsAmortized]
    · simp only [bind_eq_ok] at hp
      obtain ⟨len, -, hp⟩ := hp
      split at hp
      · obtain rfl := pure_eq_ok.1 hp
        simp [ReadsAmortized]
      · simp only [result_ok] at hp
        obtain ⟨w, hw, rfl⟩ := hp
        intro w' hw'
        obtain rfl := Option.mem_some_iff.1 hw'
        exact OffsetEqWindow.new_reads hw

end

/-- Tables of word-sized entries, built serially, with every allocation granted. -/
def serialTables : Runtime where
  elemSize := 8
  reserves _ := true
  parallel := false
  foldTree n := .items (List.range n)
  foldTree_toList := serialFold_toList

end Akita.OffsetEq
