import Mathlib.Data.Nat.Bitwise
import Akita.Lib.Summary
import Akita.Proof.EqPoly
import Akita.Spec.OpeningPoint

/-!
# Basis weights are products over address bits

Under either basis the weight of an index is the product of the factors its bits select, so
weights of consecutive axes of a point multiply to the weight of the joined index, and a
coordinate padded with zero leaves the weights of the lower half unchanged.
-/

namespace Akita.Opening

open Lib OffsetEq List

variable {F : Type} [Field F] {rt : Runtime} {point weights : List F} {basis : BasisMode}

def basisFactors (basis : BasisMode) (point : List F) : List (F × F) :=
  match basis with
  | .lagrange => eqFactors point
  | .monomial => monomialFactors point

/-- The weight of an index: zero outside the domain of the point. -/
def basisWeight (basis : BasisMode) (point : List F) (index : ℕ) : F := bitProduct (basisFactors basis point) index

@[simp] theorem basisFactors_length (basis : BasisMode) (point : List F) :
    (basisFactors basis point).length = point.length := by
  cases basis <;> simp [basisFactors]

theorem basisFactors_append (basis : BasisMode) (u v : List F) :
    basisFactors basis (u ++ v) = basisFactors basis u ++ basisFactors basis v := by
  cases basis <;> simp [basisFactors, eqFactors, monomialFactors]

/-- **Weights of two axes multiply** to the weight of the joined index. -/
theorem basisWeight_append_add (basis : BasisMode) (u v : List F) {r q : ℕ} (hr : r < 2 ^ u.length) :
    basisWeight basis (u ++ v) (r + 2 ^ u.length * q) = basisWeight basis u r * basisWeight basis v q := by
  have h := bitProduct_append_add (q := q) (basisFactors basis u) (basisFactors basis v) (r := r) (by simpa using hr)
  rw [basisFactors_length] at h
  rw [basisWeight, basisFactors_append, h]
  rfl

/-- Weights over a base field are weights over an extension. -/
theorem basisWeight_map {E : Type} [Field E] (φ : F →+* E) (basis : BasisMode) (point : List F) (index : ℕ) :
    basisWeight basis (point.map φ) index = φ (basisWeight basis point index) := by
  rw [basisWeight, basisWeight, ← bitProduct_map]
  cases basis <;> simp [basisFactors, eqFactors, monomialFactors, Function.comp_def]

/-! ## Full tables -/

theorem basisWeightLen_ok {numVars len : ℕ} (h : basisWeightLen numVars = .ok len) :
    len = 2 ^ numVars ∧ numVars < 64 := by
  unfold basisWeightLen at h
  simp only [result_ok, Checked.pow2_eq_some] at h
  obtain ⟨-, _, ⟨hbits, rfl⟩, -, rfl⟩ := h
  exact ⟨rfl, hbits⟩

/-- One layer of the monomial table: the filled entries are copied up by their number, scaled. -/
theorem monomialLayer_eq (p : F) (k : ℕ) : ∀ (n : ℕ) (weights : List F), n ≤ k → n + k ≤ weights.length →
    (range n).reverse.foldl (fun weights i => weights.set (i + k) (weights.getD i 0 * p)) weights =
      weights.take k ++ (weights.take n).map (· * p) ++ weights.drop (k + n) := by
  intro n
  induction n with
  | zero => intro weights _ _; simp
  | succ n ih =>
    intro weights hn hlen
    have hget : weights.take (n + 1) = weights.take n ++ [weights.getD n 0] := by
      have hlt : n < weights.length := by omega
      rw [take_succ_eq_append_getElem hlt]
      simp [getD_eq_getElem?_getD, hlt]
    -- the slot written last lies beyond every entry still to be read
    have hset : (weights.set (n + k) (weights.getD n 0 * p)).drop (k + n) =
        (weights.getD n 0 * p) :: weights.drop (k + (n + 1)) := by
      have hlt : k + n < weights.length := by omega
      rw [add_comm n k, drop_eq_getElem_cons (by simpa using hlt)]
      simp [drop_set, add_assoc]
    rw [range_succ, reverse_append, reverse_singleton, singleton_append, foldl_cons,
      ih _ (by omega) (by simpa using (by omega : n + k ≤ weights.length)), take_set_of_le (by omega),
      take_set_of_le (by omega), hset, hget]
    simp

theorem monomialLayers_eq (point : List F) : ∀ (done weights : List F),
    weights.length = 2 ^ (done.length + point.length) →
    weights.take (2 ^ done.length) = bitTable (monomialFactors done) →
    (point.zipIdx done.length).foldl monomialLayer weights = bitTable (monomialFactors (done ++ point)) := by
  induction point with
  | nil =>
    intro done weights hlen htake
    have hall : 2 ^ done.length = weights.length := by simpa using hlen.symm
    rw [hall, take_length] at htake
    simpa using htake
  | cons p point ih =>
    intro done weights hlen htake
    have hpow : 2 ^ (done.length + (p :: point).length) = 2 ^ ((done ++ [p]).length + point.length) := by
      congr 1
      simp only [length_cons, length_append, length_nil]
      omega
    have hle : 2 ^ done.length + 2 ^ done.length ≤ weights.length := by
      have h : 2 ^ (done.length + 1) ≤ 2 ^ (done.length + (p :: point).length) :=
        Nat.pow_le_pow_right (by norm_num) (by simp)
      rw [pow_succ] at h
      omega
    have hlayer := monomialLayer_eq p (2 ^ done.length) (2 ^ done.length) weights le_rfl hle
    have hhalf : (weights.take (2 ^ done.length)).length = 2 ^ done.length := by
      rw [length_take, min_eq_left (by omega)]
    have hnext : bitTable (monomialFactors (done ++ [p])) =
        weights.take (2 ^ done.length) ++ (weights.take (2 ^ done.length)).map (· * p) := by
      have hfactors : monomialFactors (done ++ [p]) = monomialFactors done ++ [(1, p)] := by simp [monomialFactors]
      rw [hfactors, bitTable_concat, htake]
      simp
    have hlast : (done ++ [p]).length = done.length + 1 := by simp
    rw [zipIdx_cons, foldl_cons, ← hlast, ih (done ++ [p])]
    · simp
    · rw [← hpow, ← hlen]
      simp only [monomialLayer, hlayer, length_append, length_map, hhalf, length_drop]
      omega
    · have hlen' : 2 ^ (done ++ [p]).length =
          (weights.take (2 ^ done.length) ++ (weights.take (2 ^ done.length)).map (· * p)).length := by
        rw [@List.length_append _ (take _ _), length_map, hhalf, hlast, pow_succ]
        ring
      simp only [monomialLayer, hlayer]
      rw [hnext, hlen', take_left]

section

variable (h : basisWeights rt point basis = .ok weights)

include h

/-- **A table of basis weights** holds the weight of every index. -/
theorem basisWeights_ok : weights = bitTable (basisFactors basis point) := by
  cases basis with
  | lagrange =>
    simp only [basisWeights, lagrangeWeights, bind_eq_ok] at h
    obtain ⟨_, -, h⟩ := h
    exact EqPolynomial.evals_ok h
  | monomial =>
    simp only [basisWeights, monomialWeights, result_ok] at h
    obtain ⟨len, hlen, rfl⟩ := h
    obtain ⟨rfl, -⟩ := basisWeightLen_ok hlen
    have hstart : ((replicate (2 ^ point.length) (0 : F)).set 0 1).take (2 ^ ([] : List F).length) =
        bitTable (monomialFactors []) := by
      obtain ⟨n, hn⟩ : ∃ n, 2 ^ point.length = n + 1 :=
        ⟨2 ^ point.length - 1, by have := Nat.two_pow_pos point.length; omega⟩
      rw [hn, replicate_succ]
      rfl
    exact monomialLayers_eq point [] _ (by simp) hstart

theorem basisWeights_getD (i : ℕ) : weights.getD i 0 = basisWeight basis point i := by
  rw [basisWeights_ok h, bitTable_getD]
  rfl

theorem basisWeights_length : weights.length = 2 ^ point.length := by
  rw [basisWeights_ok h]
  simp

end

/-! ## Live prefixes -/

/-- Dropping the coordinates whose bit is clear, or giving them the factor one. -/
theorem foldl_filter_bits (index : ℕ) (l : List (F × ℕ)) (acc : F) :
    (l.filter fun (_, bit) => index &&& 2 ^ bit ≠ 0).foldl (fun acc (coordinate, _) => acc * coordinate) acc =
      l.foldl (fun acc p => acc * if index.testBit p.2 then p.1 else 1) acc := by
  induction l generalizing acc with
  | nil => rfl
  | cons p l ih =>
    have hbit : index &&& 2 ^ p.2 ≠ 0 ↔ index.testBit p.2 = true := by
      rw [Nat.and_two_pow]
      cases index.testBit p.2 <;> simp
    rw [filter_cons, foldl_cons]
    by_cases hp : index.testBit p.2 = true
    · rw [if_pos (decide_eq_true (hbit.2 hp)), foldl_cons, ih, if_pos hp]
    · rw [if_neg (by simpa [hbit] using hp), ih, if_neg hp, mul_one]

theorem monomialAt_eq (point : List F) {index : ℕ} (hindex : index < 2 ^ point.length) :
    monomialAt point index = basisWeight .monomial point index := by
  have hfactors : ∀ (r : List F) (acc : F) (k : ℕ),
      (r.zipIdx k).foldl (fun acc p => acc * if index.testBit p.2 then p.1 else 1) acc =
        ((monomialFactors r).zipIdx k).foldl (fun acc p => acc * if index.testBit p.2 then p.1.2 else p.1.1) acc := by
    intro r
    induction r with
    | nil => intro acc k; rfl
    | cons x r ih => intro acc k; exact ih _ _
  unfold monomialAt
  rw [foldl_filter_bits, hfactors]
  have h := bitProduct_eq_foldl (monomialFactors point) index (by simpa using hindex) 1 0
  simpa [basisWeight, basisFactors] using h

/-- **A live prefix** holds the weights of its indices. -/
theorem basisWeightsPrefix_ok {liveLen : ℕ} (h : basisWeightsPrefix rt point basis liveLen = .ok weights) :
    weights.length = liveLen ∧ liveLen ≤ 2 ^ point.length ∧ 0 < liveLen ∧
      ∀ i < liveLen, weights.getD i 0 = basisWeight basis point i := by
  unfold basisWeightsPrefix at h
  simp only [result_ok, not_or, not_lt] at h
  obtain ⟨capacity, hcap, ⟨hpos, hle⟩, h⟩ := h
  obtain ⟨rfl, -⟩ := basisWeightLen_ok hcap
  cases basis with
  | lagrange =>
    simp only [evalsPrefix, result_ok] at h
    obtain ⟨split, hsplit, -, h⟩ := h
    obtain ⟨hlen, hget⟩ := forall_of_mapM_range h
    exact ⟨hlen, hle, by omega, fun i hi => SplitEqEvals.evalAt_ok hsplit (hget i hi)⟩
  | monomial =>
    obtain rfl := pure_eq_ok.1 h
    refine ⟨by simp, hle, by omega, fun i hi => ?_⟩
    rw [← monomialAt_eq point (by omega)]
    simp [getD_eq_getElem?_getD, hi]

end Akita.Opening
