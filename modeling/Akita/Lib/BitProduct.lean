import Akita.Lib.Accumulate

/-!
# Products over the bits of an address

A point with one pair of factors per coordinate assigns to an address the product of the
factors its bits select, least significant bit first, and zero to an address outside the
domain. The product splits at any coordinate, so an address splits into its low and high
parts and a table of values grows by one coordinate at either end.
-/

namespace Akita.Lib

open List

section

variable {R : Type*} [CommRing R] {w : List (R × R)}

/-- The product of the factors selected by the bits of `i`; zero when `i` needs more bits. -/
def bitProduct : List (R × R) → ℕ → R
  | [], i => if i = 0 then 1 else 0
  | p :: w, i => (if i % 2 = 1 then p.2 else p.1) * bitProduct w (i / 2)

theorem bitProduct_of_ge : ∀ {i : ℕ}, 2 ^ w.length ≤ i → bitProduct w i = 0 := by
  induction w with
  | nil =>
    intro i hi
    have h0 : i ≠ 0 := by
      simp only [length_nil, pow_zero] at hi
      omega
    simp [bitProduct, h0]
  | cons p w ih =>
    intro i hi
    have hhalf : 2 ^ w.length ≤ i / 2 := by
      rw [length_cons, pow_succ] at hi
      omega
    rw [bitProduct, ih hhalf, mul_zero]

/-- **Splitting a point.** The low coordinates see the low bits, the others the rest. -/
theorem bitProduct_append (u v : List (R × R)) : ∀ i : ℕ,
    bitProduct (u ++ v) i = bitProduct u (i % 2 ^ u.length) * bitProduct v (i / 2 ^ u.length) := by
  induction u with
  | nil => intro i; simp [bitProduct, Nat.mod_one]
  | cons p u ih =>
    intro i
    have hpow : 2 ^ (p :: u).length = 2 * 2 ^ u.length := by
      rw [length_cons, pow_succ]
      ring
    have hbit : i % 2 ^ (p :: u).length % 2 = i % 2 := by
      rw [hpow]
      exact Nat.mod_mul_right_mod i 2 _
    have hlow : i % 2 ^ (p :: u).length / 2 = i / 2 % 2 ^ u.length := by
      rw [hpow]
      exact Nat.mod_mul_right_div_self i 2 _
    have hhigh : i / 2 ^ (p :: u).length = i / 2 / 2 ^ u.length := by
      rw [hpow, Nat.div_div_eq_div_mul]
    rw [cons_append, bitProduct, bitProduct, ih, hbit, hlow, hhigh]
    ring

theorem bitProduct_append_add (u v : List (R × R)) {r q : ℕ} (hr : r < 2 ^ u.length) :
    bitProduct (u ++ v) (r + 2 ^ u.length * q) = bitProduct u r * bitProduct v q := by
  have hpos : 0 < 2 ^ u.length := Nat.two_pow_pos _
  rw [bitProduct_append, Nat.add_mul_mod_self_left, Nat.mod_eq_of_lt hr, Nat.add_mul_div_left _ _ hpos,
    Nat.div_eq_of_lt hr, zero_add]

theorem bitProduct_split (w : List (R × R)) {n : ℕ} (hn : n ≤ w.length) (i : ℕ) :
    bitProduct w i = bitProduct (w.take n) (i % 2 ^ n) * bitProduct (w.drop n) (i / 2 ^ n) := by
  have hlen : (w.take n).length = n := by rw [length_take, min_eq_left hn]
  have happ := bitProduct_append (w.take n) (w.drop n) i
  rw [take_append_drop, hlen] at happ
  exact happ

theorem bitProduct_cons_double (p : R × R) (w : List (R × R)) (i : ℕ) :
    bitProduct (p :: w) (2 * i) = p.1 * bitProduct w i := by
  have h0 : 2 * i % 2 = 0 := by omega
  have h1 : 2 * i / 2 = i := by omega
  simp [bitProduct, h0, h1]

theorem bitProduct_cons_double_add_one (p : R × R) (w : List (R × R)) (i : ℕ) :
    bitProduct (p :: w) (2 * i + 1) = p.2 * bitProduct w i := by
  have h0 : (2 * i + 1) % 2 = 1 := by omega
  have h1 : (2 * i + 1) / 2 = i := by omega
  simp [bitProduct, h0, h1]

theorem bitProduct_eq_foldl (w : List (R × R)) : ∀ (i : ℕ), i < 2 ^ w.length → ∀ (acc : R) (k : ℕ),
    (w.zipIdx k).foldl (fun acc p => acc * if (i <<< k).testBit p.2 then p.1.2 else p.1.1) acc =
      acc * bitProduct w i := by
  induction w with
  | nil =>
    intro i hi acc k
    have h0 : i = 0 := by simpa using hi
    simp [bitProduct, h0]
  | cons p w ih =>
    intro i hi acc k
    have hhalf : i / 2 < 2 ^ w.length := by
      rw [length_cons, pow_succ] at hi
      omega
    have hbit : (i <<< k).testBit k = decide (i % 2 = 1) := by
      rw [Nat.testBit_shiftLeft]
      simp [Nat.testBit_zero]
    rw [zipIdx_cons, foldl_cons, bitProduct, hbit]
    -- the later coordinates read the same bits of the halved address
    have hrest : ∀ q ∈ w.zipIdx (k + 1), (i <<< k).testBit q.2 = ((i / 2) <<< (k + 1)).testBit q.2 := by
      intro q hq
      have hk : k + 1 ≤ q.2 := le_snd_of_mem_zipIdx hq
      rw [Nat.testBit_shiftLeft, Nat.testBit_shiftLeft, Nat.testBit_div_two]
      have h1 : q.2 - (k + 1) + 1 = q.2 - k := by omega
      have h2 : decide (q.2 ≥ k) = true := by simp; omega
      have h3 : decide (q.2 ≥ k + 1) = true := by simpa using hk
      rw [h1, h2, h3]
    rw [foldl_ext _ (fun acc (q : (R × R) × ℕ) => acc * if ((i / 2) <<< (k + 1)).testBit q.2 then q.1.2 else q.1.1)]
    · rw [ih (i / 2) hhalf]
      simp only [decide_eq_true_eq]
      ring
    · intro acc q hq
      rw [hrest q hq]

theorem bitProduct_map {S : Type*} [CommRing S] (φ : R →+* S) (w : List (R × R)) : ∀ i : ℕ,
    bitProduct (w.map fun p => (φ p.1, φ p.2)) i = φ (bitProduct w i) := by
  induction w with
  | nil =>
    intro i
    rw [map_nil, bitProduct, bitProduct]
    split_ifs <;> simp
  | cons p w ih =>
    intro i
    rw [map_cons, bitProduct, bitProduct, ih, map_mul]
    split_ifs <;> rfl

/-! ## The two bases -/

/-- The factors of the equality polynomial at a point. -/
def eqFactors (r : List R) : List (R × R) := r.map fun x => (1 - x, x)

def monomialFactors (r : List R) : List (R × R) := r.map fun x => (1, x)

@[simp] theorem eqFactors_length (r : List R) : (eqFactors r).length = r.length := by simp [eqFactors]

@[simp] theorem monomialFactors_length (r : List R) : (monomialFactors r).length = r.length := by
  simp [monomialFactors]

/-! ## Tables -/

def bitTable (w : List (R × R)) : List R := (List.range (2 ^ w.length)).map (bitProduct w)

@[simp] theorem bitTable_length (w : List (R × R)) : (bitTable w).length = 2 ^ w.length := by simp [bitTable]

theorem bitTable_nil : bitTable ([] : List (R × R)) = [1] := rfl

/-- A table read anywhere: outside it the product is zero. -/
theorem bitTable_getD (w : List (R × R)) (i : ℕ) : (bitTable w).getD i 0 = bitProduct w i := by
  by_cases hi : i < 2 ^ w.length
  · simp [bitTable, getD_eq_getElem?_getD, hi]
  · rw [bitProduct_of_ge (by omega)]
    simp [bitTable, getD_eq_getElem?_getD, hi]

theorem bitTable_getElem? {i : ℕ} (hi : i < 2 ^ w.length) : (bitTable w)[i]? = some (bitProduct w i) := by
  simp [bitTable, hi]

/-- A new lowest coordinate puts two children in place of every entry. -/
theorem bitTable_cons (p : R × R) (w : List (R × R)) :
    bitTable (p :: w) = (bitTable w).flatMap fun v => [p.1 * v, p.2 * v] := by
  have hstep : ∀ n : ℕ, (range (2 * n)).map (bitProduct (p :: w)) =
      ((range n).map (bitProduct w)).flatMap fun v => [p.1 * v, p.2 * v] := by
    intro n
    induction n with
    | zero => rfl
    | succ n ih =>
      have hsucc : 2 * (n + 1) = 2 * n + 1 + 1 := by ring
      rw [hsucc, range_succ, range_succ, map_append, map_append, ih, range_succ, map_append, flatMap_append]
      simp [bitProduct_cons_double, bitProduct_cons_double_add_one]
  have hlen : 2 ^ (p :: w).length = 2 * 2 ^ w.length := by rw [length_cons, pow_succ]; ring
  rw [bitTable, hlen, hstep]
  rfl

/-- A new highest coordinate appends a second half. -/
theorem bitTable_concat (w : List (R × R)) (p : R × R) :
    bitTable (w ++ [p]) = (bitTable w).map (fun v => v * p.1) ++ (bitTable w).map (fun v => v * p.2) := by
  have hzero : bitProduct [p] 0 = p.1 := by simp [bitProduct]
  have hone : bitProduct [p] 1 = p.2 := by simp [bitProduct]
  have hlen : 2 ^ (w ++ [p]).length = 2 ^ w.length + 2 ^ w.length := by
    rw [length_append, length_singleton, pow_succ]
    ring
  rw [bitTable, hlen, range_add, map_append, map_map]
  congr 1
  · rw [bitTable, map_map]
    apply map_congr_left
    intro i hi
    have hi : i < 2 ^ w.length := mem_range.1 hi
    have h := bitProduct_append_add (q := 0) w [p] hi
    rw [mul_zero, add_zero, hzero] at h
    exact h
  · rw [bitTable, map_map]
    apply map_congr_left
    intro i hi
    have hi : i < 2 ^ w.length := mem_range.1 hi
    have h := bitProduct_append_add (q := 1) w [p] hi
    rw [mul_one, hone, add_comm] at h
    exact h

/-- The table of a split point, one scaled copy of the low table for each entry of the high one. -/
theorem bitTable_append (u v : List (R × R)) :
    bitTable (u ++ v) = (bitTable v).flatMap fun x => (bitTable u).map fun y => x * y := by
  induction v generalizing u with
  | nil => simp [bitTable_nil]
  | cons p v ih =>
    rw [append_cons, ih, bitTable_cons, flatMap_assoc]
    congr 1
    funext x
    rw [bitTable_concat, map_append, map_map, map_map]
    simp only [flatMap_cons, flatMap_nil, append_nil]
    congr 1
    · exact map_congr_left fun y _ => by simp only [Function.comp_apply]; ring
    · exact map_congr_left fun y _ => by simp only [Function.comp_apply]; ring

end

/-!
## Tables bound from below

Binding the lowest coordinate of a table folds pairs of its entries.
-/

open Finset

variable {R : Type*} [CommRing R]

def bindLow (r : R) (t : ℕ → R) (i : ℕ) : R := t (2 * i) + r * (t (2 * i + 1) - t (2 * i))

/-- The table with its lowest coordinates bound, one after the other. -/
def bindAll (t : ℕ → R) (rs : List R) : ℕ → R := rs.foldl (fun t r => bindLow r t) t

theorem bindAll_append (t : ℕ → R) (rs rs' : List R) : bindAll t (rs ++ rs') = bindAll (bindAll t rs) rs' :=
  List.foldl_append

def entries (n : ℕ) (t : ℕ → R) : List R := (List.range n).map t

omit [CommRing R] in
@[simp] theorem entries_length (n : ℕ) (t : ℕ → R) : (entries n t).length = n := by simp [entries]

theorem entries_getD {n i : ℕ} (hi : i < n) (t : ℕ → R) : (entries n t).getD i 0 = t i := by
  simp [entries, List.getD_eq_getElem?_getD, hi]

theorem entries_of_getD {l : List R} {n : ℕ} (hl : l.length = n) {t : ℕ → R} (h : ∀ i < n, l.getD i 0 = t i) :
    l = entries n t := by
  subst hl
  apply List.ext_getElem (by simp)
  intro i hi _
  have hget := h i hi
  simpa [entries, List.getD_eq_getElem?_getD, hi] using hget

end Akita.Lib
