import Akita.Lib.Numerals

/-!
# Updates at chosen positions

A list that is changed at some positions and kept at all others, each change in one relation. Updates at
disjoint positions compose, a loop over pieces with disjoint positions is one update at all of them, and an
update at every position relates the two lists member by member. The pieces of a loop may be the bounded
chunks of a list of positions.
-/

namespace Akita.Lib

open List

variable {α β σ ε : Type*} {xs l : List α} {size : ℕ}

/-- `ys` is `xs` with the member at each of the positions changed in the relation, and the others kept. -/
structure Updates (R : ℕ → α → α → Prop) (positions : List ℕ) (xs ys : List α) : Prop where
  length_eq : ys.length = xs.length
  changed : ∀ i ∈ positions, ∃ a b, xs[i]? = some a ∧ ys[i]? = some b ∧ R i a b
  kept : ∀ i, i ∉ positions → ys[i]? = xs[i]?

namespace Updates

variable {R : ℕ → α → α → Prop} {ys zs : List α} {is js : List ℕ}

theorem refl (xs : List α) : Updates R [] xs xs := ⟨rfl, by simp, fun _ _ => rfl⟩

theorem set {i : ℕ} {a b : α} (ha : xs[i]? = some a) (hR : R i a b) : Updates R [i] xs (xs.set i b) := by
  obtain ⟨hi, -⟩ := List.getElem?_eq_some_iff.1 ha
  refine ⟨by simp, fun j hj => ?_, fun j hj => ?_⟩
  · obtain rfl := List.mem_singleton.1 hj
    exact ⟨a, b, ha, by rw [List.getElem?_set_self hi], hR⟩
  · rw [List.getElem?_set_ne]
    rintro rfl
    exact hj (List.mem_singleton_self _)

/-- **Updates at disjoint positions compose.** -/
theorem append (hx : Updates R is xs ys) (hy : Updates R js ys zs) (hdisjoint : List.Disjoint is js) :
    Updates R (is ++ js) xs zs := by
  refine ⟨hy.length_eq.trans hx.length_eq, fun i hi => ?_, fun i hi => ?_⟩
  · rcases mem_append.1 hi with hi | hi
    · obtain ⟨a, b, ha, hb, hR⟩ := hx.changed i hi
      exact ⟨a, b, ha, (hy.kept i (hdisjoint hi)).trans hb, hR⟩
    · obtain ⟨a, b, ha, hb, hR⟩ := hy.changed i hi
      exact ⟨a, b, (hx.kept i fun h => hdisjoint h hi) ▸ ha, hb, hR⟩
  · rw [mem_append, not_or] at hi
    rw [hy.kept i hi.2, hx.kept i hi.1]

theorem mono {S : ℕ → α → α → Prop} (hx : Updates R is xs ys)
    (h : ∀ i ∈ is, ∀ a b, xs[i]? = some a → R i a b → S i a b) : Updates S is xs ys := by
  refine ⟨hx.length_eq, fun i hi => ?_, hx.kept⟩
  obtain ⟨a, b, ha, hb, hR⟩ := hx.changed i hi
  exact ⟨a, b, ha, hb, h i hi a b ha hR⟩

/-- **A loop over pieces with disjoint positions** is one update at all of them. -/
theorem foldlM {step : σ → β → Except ε σ} (view : σ → List α) (positions : β → List ℕ) {l : List β}
    (hstep : ∀ b ∈ l, ∀ s t, step s b = .ok t → (positions b).Nodup → Updates R (positions b) (view s) (view t)) :
    ∀ {s t : σ}, l.foldlM step s = .ok t → (l.flatMap positions).Nodup → Updates R (l.flatMap positions) (view s) (view t) := by
  induction l with
  | nil =>
    intro s t h _
    simp only [foldlM_nil, pure, Except.pure, Except.ok.injEq] at h
    rw [flatMap_nil, h]
    exact refl _
  | cons b l ih =>
    intro s t h hnodup
    rw [foldlM_cons] at h
    cases hs : step s b with
    | error e => simp [hs, bind, Except.bind] at h
    | ok u =>
      simp only [hs, bind, Except.bind] at h
      rw [flatMap_cons, nodup_append'] at hnodup
      have hhead := hstep b mem_cons_self s u hs hnodup.1
      have htail := ih (fun c hc => hstep c (mem_cons_of_mem b hc)) h hnodup.2.1
      rw [flatMap_cons]
      exact hhead.append htail hnodup.2.2

/-- **An update at every position** relates the lists member by member. -/
theorem forall₂ {S : α → α → Prop} (hx : Updates (fun _ => S) is xs ys) (hall : ∀ i < xs.length, i ∈ is) :
    Forall₂ S xs ys := by
  rw [List.forall₂_iff_get]
  refine ⟨hx.length_eq.symm, fun i hi hi' => ?_⟩
  obtain ⟨a, b, ha, hb, hS⟩ := hx.changed i (hall i hi)
  obtain ⟨_, rfl⟩ := List.getElem?_eq_some_iff.1 ha
  obtain ⟨_, rfl⟩ := List.getElem?_eq_some_iff.1 hb
  exact hS

end Updates

/-! ## Lists related member by member -/

theorem forall₂_getElem? {γ : Type*} {R : α → γ → Prop} {ys : List γ} (h : Forall₂ R xs ys) {i : ℕ} {x : α}
    (hx : xs[i]? = some x) : ∃ y, ys[i]? = some y ∧ R x y := by
  induction h generalizing i with
  | nil => simp at hx
  | cons hxy _ ih =>
    cases i with
    | zero =>
      simp only [getElem?_cons_zero, Option.some.injEq] at hx
      subst hx
      exact ⟨_, rfl, hxy⟩
    | succ i => exact ih hx

theorem forall₂_comp {γ δ : Type*} {R : α → γ → Prop} {S : γ → δ → Prop} {ys : List γ} {zs : List δ} (hxy : Forall₂ R xs ys)
    (hyz : Forall₂ S ys zs) : Forall₂ (fun x z => ∃ y, R x y ∧ S y z) xs zs := by
  induction hxy generalizing zs with
  | nil =>
    cases hyz
    exact List.Forall₂.nil
  | cons hxy _ ih =>
    cases hyz with
    | cons hyz htail => exact List.Forall₂.cons ⟨_, hxy, hyz⟩ (ih htail)

/-! ## Chunks -/

/-- `slice::chunks`: pieces of `size` members, the last one possibly shorter. -/
def chunks (size : ℕ) (l : List α) : List (List α) :=
  (List.range ((l.length + size - 1) / size)).map fun i => (l.drop (i * size)).take size

theorem flatten_take_drop (size : ℕ) (l : List α) (n : ℕ) :
    ((range n).map fun i => (l.drop (i * size)).take size).flatten = l.take (n * size) := by
  induction n with
  | zero => simp
  | succ n ih =>
    rw [range_succ, map_append, flatten_append, ih]
    simp only [map_cons, map_nil, flatten_cons, flatten_nil, append_nil]
    rw [Nat.succ_mul, take_add]

section

variable (hsize : 0 < size)

include hsize

theorem flatten_chunks (l : List α) : (chunks size l).flatten = l := by
  rw [chunks, flatten_take_drop, take_of_length_le]
  have hround : l.length + size - 1 < ((l.length + size - 1) / size + 1) * size :=
    Nat.lt_mul_of_div_lt (Nat.lt_succ_self _) hsize
  rw [Nat.succ_mul] at hround
  omega

theorem chunks_of_ne_nil (hl : l ≠ []) : chunks size l = l.take size :: chunks size (l.drop size) := by
  have hcount : (l.length + size - 1) / size = ((l.drop size).length + size - 1) / size + 1 := by
    have hpos := length_pos_iff.2 hl
    rw [length_drop]
    by_cases hle : l.length ≤ size
    · rw [Nat.sub_eq_zero_of_le hle, zero_add, Nat.div_eq_of_lt (a := size - 1) (by omega)]
      exact Nat.div_eq_of_lt_le (by omega) (by omega)
    · rw [show l.length + size - 1 = l.length - size + size - 1 + size by omega, Nat.add_div_right _ hsize]
  rw [chunks, hcount, range_succ_eq_map, map_cons, map_map, chunks]
  simp [Function.comp_def, Nat.succ_mul, add_comm]

theorem chunks_nil : chunks size ([] : List α) = [] := by
  rw [chunks, length_nil, zero_add, Nat.div_eq_of_lt (by omega)]
  rfl

theorem chunks_singleton (a : α) : chunks size [a] = [[a]] := by
  rw [chunks_of_ne_nil hsize (cons_ne_nil a []), take_of_length_le hsize, drop_of_length_le hsize, chunks_nil hsize]

theorem chunks_drop (l : List α) (n : ℕ) : chunks size (l.drop (n * size)) = (chunks size l).drop n := by
  induction n generalizing l with
  | zero => simp
  | succ n ih =>
    by_cases hl : l = []
    · simp [hl, chunks_nil hsize]
    · rw [chunks_of_ne_nil hsize hl, drop_succ_cons, ← ih, drop_drop, Nat.succ_mul, add_comm]

theorem flatten_take_chunks (l : List α) (n : ℕ) : ((chunks size l).take n).flatten = l.take (n * size) := by
  induction n generalizing l with
  | zero => simp
  | succ n ih =>
    by_cases hl : l = []
    · simp [hl, chunks_nil hsize]
    · rw [chunks_of_ne_nil hsize hl, take_succ_cons, flatten_cons, ih, Nat.succ_mul, add_comm (n * size), take_add]

/-- **A run of chunks** is a slice of the list. -/
theorem flatten_slice_chunks (l : List α) (start count : ℕ) :
    (((chunks size l).drop start).take count).flatten = (l.drop (start * size)).take (count * size) := by
  rw [← chunks_drop hsize, flatten_take_chunks hsize]

theorem length_chunks (hdvd : size ∣ l.length) : (chunks size l).length * size = l.length := by
  obtain ⟨k, hk⟩ := hdvd
  rw [chunks, length_map, length_range, hk, mul_comm size k, Nat.add_sub_assoc (by omega), mul_comm k size,
    Nat.mul_add_div hsize, Nat.div_eq_of_lt (by omega), add_zero, mul_comm]

theorem length_of_mem_chunks (hdvd : size ∣ l.length) {chunk : List α} (h : chunk ∈ chunks size l) :
    chunk.length = size := by
  obtain ⟨i, hi, rfl⟩ := mem_map.1 h
  have hcount := length_chunks hsize hdvd
  rw [chunks, length_map, length_range] at hcount
  have hi : (i + 1) * size ≤ l.length := hcount ▸ Nat.mul_le_mul_right size (mem_range.1 hi)
  rw [add_mul, one_mul] at hi
  rw [length_take, length_drop]
  omega

end

end Akita.Lib
