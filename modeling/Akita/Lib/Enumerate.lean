import Akita.Lib.Accumulate

/-!
# Enumerations and tables

Consecutive segments list an interval in order, an index function that lists `0, 1, ..` reads
a table built along the same enumeration, and the pairs of an upper triangle square a sum. A
table of a fixed length is filled by loops that each write the right value to some places.
-/

namespace Akita.Lib

open Finset
open List hiding map_map range range_add sum_range_succ mem_range

variable {n k width i : ℕ}

/-- Segments that each start where the last one ends list the whole interval. -/
theorem flatMap_range_segments (off len : ℕ → ℕ) (h0 : off 0 = 0) (hstep : ∀ l < n, off (l + 1) = off l + len l) :
    (List.range n).flatMap (fun l => range' (off l) (len l)) = List.range (off n) := by
  induction n with
  | zero => simp [h0]
  | succ n ih =>
    have hsegments := ih fun l hl => hstep l (by omega)
    rw [range_succ, flatMap_append, hsegments, hstep n (by omega), List.range_add]
    simp [range'_eq_map_range]

variable {α β : Type*}

variable {l : List α} {rows : List (List α)}

/-- A table built along an enumeration is read back by the index of the enumeration. -/
theorem getElem?_map_of_index {index : α → Option ℕ} (hindex : l.map index = (List.range n).map some) (g : α → β) {x : α}
    (hx : x ∈ l) (hk : index x = some k) : (l.map g)[k]? = some (g x) := by
  obtain ⟨j, hj, rfl⟩ := getElem_of_mem hx
  have hn : l.length = n := by simpa using congrArg length hindex
  have hget : (l.map index)[j]? = ((List.range n).map some)[j]? := by rw [hindex]
  have hjk : j = k := by
    have hjn : j < n := by omega
    simpa [getElem?_map, hj, hjn, hk, eq_comm] using hget
  subst hjk
  simp [hj]

/-- A table built row by row is read at the row times its width, plus the column. -/
theorem getElem?_rows {rows : ℕ} (g : ℕ → ℕ → β) (hi : i < rows) (hk : k < width) :
    ((List.range rows).flatMap fun i => (List.range width).map (g i))[i * width + k]? = some (g i k) := by
  have hindex : ((List.range rows).flatMap fun i => (List.range width).map fun k => (i, k)).map
      (fun p => some (p.1 * width + p.2)) = (List.range (rows * width)).map some := by
    have hseg := flatMap_range_segments (n := rows) (fun i => i * width) (fun _ => width) (by simp) (by intro i _; ring)
    rw [← hseg, map_flatMap, map_flatMap]
    apply flatMap_congr
    intro i _
    rw [range'_eq_map_range, List.map_map, List.map_map]
    rfl
  have hread := getElem?_map_of_index hindex (fun p => g p.1 p.2) (x := (i, k)) (by simp [hi, hk]) rfl
  rw [map_flatMap] at hread
  simpa [List.map_map, Function.comp_def] using hread

/-- Rows of equal width, one after the other, are read at the row times the width, plus the column. -/
theorem getElem?_flatten (h : ∀ row ∈ rows, row.length = width) (hk : k < width) :
    rows.flatten[i * width + k]? = (rows[i]?).bind fun row => row[k]? := by
  induction rows generalizing i with
  | nil => simp
  | cons row rows ih =>
    have hrow : row.length = width := h row (by simp)
    cases i with
    | zero => simp [getElem?_append_left, hrow, hk]
    | succ i =>
      have hskip : (i + 1) * width + k = row.length + (i * width + k) := by rw [hrow]; ring
      rw [flatten_cons, hskip, getElem?_append_right (by omega), Nat.add_sub_cancel_left,
        ih fun r hr => h r (by simp [hr])]
      simp

/-- Rows of equal width, one after the other, are as long as their number times the width. -/
theorem length_flatten_of_width (h : ∀ row ∈ rows, row.length = width) : rows.flatten.length = rows.length * width := by
  rw [length_flatten, map_congr_left h, map_const', sum_replicate, smul_eq_mul]

/-- Twice the products above the diagonal, with the squares on it. -/
theorem sum_upper_triangle {R : Type*} [CommRing R] (f : ℕ → R) (n : ℕ) :
    ∑ l ∈ range n, ∑ j ∈ range (n - l), (if l = l + j then 1 else 2) * (f l * f (l + j)) =
      (∑ k ∈ range n, f k) ^ 2 := by
  induction n with
  | zero => simp
  | succ n ih =>
    -- row `l < n` gets the new column `n`, and the last row is the new square
    have hrow : ∀ l ∈ range n, ∑ j ∈ range (n + 1 - l), (if l = l + j then 1 else 2) * (f l * f (l + j)) =
        ∑ j ∈ range (n - l), (if l = l + j then 1 else 2) * (f l * f (l + j)) + 2 * (f l * f n) := by
      intro l hl
      have hln : l < n := mem_range.1 hl
      have hsub : n + 1 - l = n - l + 1 := by omega
      have hcol : l + (n - l) = n := by omega
      rw [hsub, sum_range_succ, hcol, if_neg (by omega)]
    rw [sum_range_succ, sum_congr rfl hrow, sum_add_distrib, ih, sum_range_succ (fun k => f k), ← mul_sum, ← sum_mul]
    have hlast : n + 1 - n = 1 := by omega
    rw [hlast, sum_range_one, add_zero, if_pos rfl]
    ring

theorem mapM_some_of_forall {f : α → Option β} {g : α → β} (h : ∀ x ∈ l, f x = some (g x)) : l.mapM f = some (l.map g) := by
  induction l with
  | nil => rfl
  | cons x l ih =>
    rw [mapM_cons, h x (by simp), ih fun y hy => h y (by simp [hy])]
    rfl

section

variable {N : ℕ} {V : ℕ → α} {ι : Type*} {S : ι → Set ℕ}

/-- On a table of length `N` the step succeeds, puts `V` at the places of `S`, and keeps `V`
where it already stands. -/
def Writes (N : ℕ) (V : ℕ → α) (S : Set ℕ) (f : List α → Option (List α)) : Prop :=
  ∀ out, out.length = N → ∃ out', f out = some out' ∧ out'.length = N ∧
    ∀ k < N, k ∈ S ∨ out[k]? = some (V k) → out'[k]? = some (V k)

theorem Writes.set : Writes N V {k} fun out => some (out.set k (V k)) := by
  intro out hlen
  refine ⟨_, rfl, by simpa using hlen, ?_⟩
  intro j hj h
  rw [getElem?_set]
  by_cases hjk : k = j
  · subst hjk
    simp [hlen, hj]
  · rw [if_neg hjk]
    exact h.resolve_left fun hmem => hjk hmem.symm

/-- **A loop of writes** fills the places of all its passes. -/
theorem Writes.foldlM {f : List α → ι → Option (List α)} {l : List ι}
    (h : ∀ i ∈ l, Writes N V (S i) fun out => f out i) :
    Writes N V {k | ∃ i ∈ l, k ∈ S i} fun out => l.foldlM f out := by
  induction l with
  | nil =>
    intro out hlen
    exact ⟨out, rfl, hlen, fun k _ hk => hk.resolve_left (by simp)⟩
  | cons i l ih =>
    intro out hlen
    obtain ⟨out₁, h₁, hlen₁, hV₁⟩ := h i (by simp) out hlen
    obtain ⟨out₂, h₂, hlen₂, hV₂⟩ := ih (fun j hj => h j (by simp [hj])) out₁ hlen₁
    refine ⟨out₂, ?_, hlen₂, ?_⟩
    · have hfirst : f out i = some out₁ := h₁
      simp only [foldlM_cons, hfirst]
      exact h₂
    · intro k hk hmem
      apply hV₂ k hk
      rcases hmem with ⟨j, hj, hkj⟩ | hold
      · rcases mem_cons.1 hj with rfl | hjl
        · exact Or.inr (hV₁ k hk (Or.inl hkj))
        · exact Or.inl ⟨j, hjl, hkj⟩
      · exact Or.inr (hV₁ k hk (Or.inr hold))

/-- A pass that ends has put `V` at the places of `S` and kept it where it stood. -/
def WritesOk {ε : Type*} (N : ℕ) (V : ℕ → α) (S : Set ℕ) (f : List α → Except ε (List α)) : Prop :=
  ∀ out out', out.length = N → f out = .ok out' → out'.length = N ∧
    ∀ k < N, k ∈ S ∨ out[k]? = some (V k) → out'[k]? = some (V k)

/-- **A loop of writes that may stop with an error**: when it ends, the places of all its passes are filled. -/
theorem WritesOk.foldlM {ε : Type*} {f : List α → ι → Except ε (List α)} {l : List ι}
    (h : ∀ i ∈ l, WritesOk N V (S i) fun out => f out i) :
    WritesOk N V {k | ∃ i ∈ l, k ∈ S i} fun out => l.foldlM f out := by
  induction l with
  | nil =>
    intro out out' hlen hok
    obtain rfl : out = out' := by simpa [pure, Except.pure] using hok
    exact ⟨hlen, fun k _ hk => hk.resolve_left (by simp)⟩
  | cons i l ih =>
    intro out out' hlen hok
    simp only [foldlM_cons] at hok
    cases hfirst : f out i with
    | error e => simp [hfirst, bind, Except.bind] at hok
    | ok mid =>
      rw [hfirst] at hok
      obtain ⟨hlen₁, hV₁⟩ := h i (by simp) out mid hlen hfirst
      obtain ⟨hlen₂, hV₂⟩ := ih (fun j hj => h j (by simp [hj])) mid out' hlen₁ hok
      refine ⟨hlen₂, fun k hk hmem => hV₂ k hk ?_⟩
      rcases hmem with ⟨j, hj, hkj⟩ | hold
      · rcases mem_cons.1 hj with rfl | hjl
        · exact Or.inr (hV₁ k hk (Or.inl hkj))
        · exact Or.inl ⟨j, hjl, hkj⟩
      · exact Or.inr (hV₁ k hk (Or.inr hold))

end

end Akita.Lib
