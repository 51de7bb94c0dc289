import Akita.Lib.Numerals

/-!
# Loops that accumulate

A loop that may stop with an error adds a term to some measure of its state at every pass,
so a loop that ends has added the sum of the terms. Slots are summed against a weight per
slot. A window of geometric weights is read off prefix sums. A parallel fold adds the terms of its parts, however the parts are cut and joined.
-/

namespace Akita.Lib

open Finset

section loops

variable {ε α S M : Type*} [AddCommMonoid M] {f : S → α → Except ε S} {P : S → Prop} {μ : S → M} {g : α → M} {l : List α}
  {s t : S}

/-- **The loop rule.** `P` is kept, and every pass adds its term to `μ`. -/
theorem foldlM_measure (h : ∀ s x s', x ∈ l → P s → f s x = .ok s' → P s' ∧ μ s' = μ s + g x) (hs : P s)
    (ht : l.foldlM f s = .ok t) : P t ∧ μ t = μ s + (l.map g).sum := by
  induction l generalizing s with
  | nil =>
    have hst : s = t := by simpa [pure, Except.pure] using ht
    subst hst
    exact ⟨hs, by simp⟩
  | cons x l ih =>
    rw [List.foldlM_cons] at ht
    cases hx : f s x with
    | error e => simp [hx, bind, Except.bind] at ht
    | ok m =>
      rw [hx] at ht
      obtain ⟨hm, hμ⟩ := h s x m (by simp) hs hx
      obtain ⟨hP, hμ'⟩ := ih (fun s y s' hy => h s y s' (by simp [hy])) hm ht
      refine ⟨hP, ?_⟩
      rw [hμ', hμ, List.map_cons, List.sum_cons, add_assoc]

theorem foldlM_sum {f : M → α → Except ε M} (h : ∀ s x s', x ∈ l → f s x = .ok s' → s' = s + g x) {s t : M}
    (ht : l.foldlM f s = .ok t) : t = s + (l.map g).sum := by
  have hrule := foldlM_measure (P := fun _ => True) (μ := id) (g := g) (s := s) (t := t)
    (fun s x s' hx _ hf => ⟨trivial, h s x s' hx hf⟩) trivial ht
  exact hrule.2

theorem foldlM_inv (h : ∀ s x s', x ∈ l → P s → f s x = .ok s' → P s') (hs : P s) (ht : l.foldlM f s = .ok t) : P t :=
  (foldlM_measure (μ := fun _ => (0 : ℕ)) (g := fun _ => 0) (fun s x s' hx hP hf => ⟨h s x s' hx hP hf, rfl⟩) hs ht).1

/-- **The rule for the passes made so far**: the invariant follows the part of the list already read. -/
theorem foldlM_passes {P : List α → S → Prop}
    (h : ∀ made x rest s s', l = made ++ x :: rest → P made s → f s x = .ok s' → P (made ++ [x]) s') (hs : P [] s)
    (ht : l.foldlM f s = .ok t) : P l t := by
  -- the invariant is carried from any pass on to the end
  have hrest : ∀ (rest made : List α) (s : S), l = made ++ rest → P made s → rest.foldlM f s = .ok t → P l t := by
    intro rest
    induction rest with
    | nil =>
      intro made s hl hs ht
      have hst : s = t := by simpa [pure, Except.pure] using ht
      subst hst
      rw [hl, List.append_nil]
      exact hs
    | cons x rest ih =>
      intro made s hl hs ht
      rw [List.foldlM_cons] at ht
      cases hx : f s x with
      | error e => simp [hx, bind, Except.bind] at ht
      | ok s' =>
        rw [hx] at ht
        exact ih (made ++ [x]) s' (by rw [hl]; simp) (h made x rest s s' hl hs hx) ht
  exact hrest l [] s rfl hs ht

/-- **The rule for passes that succeed**: a loop whose every pass runs, runs to its end. -/
theorem foldlM_runs {P : List α → S → Prop} (h : ∀ made x rest s, l = made ++ x :: rest → P made s →
      ∃ s', f s x = .ok s' ∧ P (made ++ [x]) s' ∧ μ s' = μ s + g x) (hs : P [] s) :
    ∃ t, l.foldlM f s = .ok t ∧ P l t ∧ μ t = μ s + (l.map g).sum := by
  -- from any pass on, the rest of the loop runs
  have hrest : ∀ (rest made : List α) (s : S), l = made ++ rest → P made s →
      ∃ t, rest.foldlM f s = .ok t ∧ P l t ∧ μ t = μ s + (rest.map g).sum := by
    intro rest
    induction rest with
    | nil =>
      intro made s hl hs
      exact ⟨s, rfl, by rwa [hl, List.append_nil], by simp⟩
    | cons x rest ih =>
      intro made s hl hs
      obtain ⟨s', hf, hP, hμ⟩ := h made x rest s hl hs
      obtain ⟨t, ht, hPt, hμt⟩ := ih (made ++ [x]) s' (by rw [hl]; simp) hP
      refine ⟨t, ?_, hPt, ?_⟩
      · rw [List.foldlM_cons, hf]
        exact ht
      · rw [hμt, hμ, List.map_cons, List.sum_cons, add_assoc]
  exact hrest l [] s rfl hs

/-- The rule for a loop over an interval, with an invariant that follows the index. -/
theorem foldlM_range'_measure {f : S → ℕ → Except ε S} {P : ℕ → S → Prop} {g : ℕ → M} {a n : ℕ}
    (h : ∀ i s s', a ≤ i → i < a + n → P i s → f s i = .ok s' → P (i + 1) s' ∧ μ s' = μ s + g i) (hs : P a s)
    (ht : (List.range' a n).foldlM f s = .ok t) : P (a + n) t ∧ μ t = μ s + ∑ j ∈ range n, g (a + j) := by
  induction n generalizing t with
  | zero =>
    have hst : s = t := by simpa [pure, Except.pure] using ht
    subst hst
    exact ⟨hs, by simp⟩
  | succ n ih =>
    rw [List.range'_1_concat, List.foldlM_append] at ht
    cases hm : (List.range' a n).foldlM f s with
    | error e => simp [hm, bind, Except.bind] at ht
    | ok m =>
      obtain ⟨hP, hμ⟩ := ih (fun i s s' hi hlt => h i s s' hi (by omega)) hm
      have hlast : f m (a + n) = .ok t := by
        rw [hm] at ht
        cases hf : f m (a + n) with
        | error e => simp [hf, bind, Except.bind] at ht
        | ok u => simpa [hf, bind, Except.bind, pure, Except.pure] using ht
      obtain ⟨hP', hμ'⟩ := h (a + n) m t (by omega) (by omega) hP hlast
      exact ⟨hP', by rw [hμ', hμ, sum_range_succ, add_assoc]⟩

theorem foldl_measure {f : S → α → S} (h : ∀ s x, x ∈ l → P s → P (f s x) ∧ μ (f s x) = μ s + g x) (hs : P s) :
    P (l.foldl f s) ∧ μ (l.foldl f s) = μ s + (l.map g).sum := by
  induction l generalizing s with
  | nil => exact ⟨hs, by simp⟩
  | cons x l ih =>
    obtain ⟨hx, hμ⟩ := h s x (by simp) hs
    obtain ⟨hP, hμ'⟩ := ih (fun s y hy => h s y (by simp [hy])) hx
    exact ⟨hP, by rw [List.foldl_cons, hμ', hμ, List.map_cons, List.sum_cons, add_assoc]⟩

theorem foldl_sum {f : M → α → M} (h : ∀ s, ∀ x ∈ l, f s x = s + g x) (s : M) : l.foldl f s = s + (l.map g).sum :=
  (foldl_measure (P := fun _ => True) (μ := id) (fun s x hx _ => ⟨trivial, h s x hx⟩) trivial).2

theorem sum_map_range (n : ℕ) (g : ℕ → M) : ((List.range n).map g).sum = ∑ i ∈ range n, g i := by
  induction n with
  | zero => simp
  | succ n ih => rw [List.range_succ, List.map_append, List.sum_append, ih, sum_range_succ]; simp

theorem sum_map_range' (a n : ℕ) (g : ℕ → M) : ((List.range' a n).map g).sum = ∑ i ∈ range n, g (a + i) := by
  rw [List.range'_eq_map_range, List.map_map, ← sum_map_range]
  rfl

theorem sum_map_zipIdx (l : List α) (d : α) (g : α → ℕ → M) :
    (l.zipIdx.map fun p => g p.1 p.2).sum = ∑ i ∈ range l.length, g (l.getD i d) i := by
  have hmap : l.zipIdx.map (fun p => g p.1 p.2) = (List.range l.length).map fun i => g (l.getD i d) i := by
    apply List.ext_getElem
    · simp
    · intro i h1 h2
      have hi : i < l.length := by simpa using h2
      simp [List.getD_eq_getElem?_getD, List.getElem?_eq_getElem hi]
  rw [hmap, sum_map_range]

theorem sum_map_list (l : List α) (d : α) (g : α → M) : (l.map g).sum = ∑ i ∈ range l.length, g (l.getD i d) := by
  have hmap : l.map g = (List.range l.length).map fun i => g (l.getD i d) := by
    apply List.ext_getElem
    · simp
    · intro i h1 h2
      have hi : i < l.length := by simpa using h2
      simp [List.getD_eq_getElem?_getD, List.getElem?_eq_getElem hi]
  rw [hmap, sum_map_range]

theorem sum_zipWith {β : Type*} (f : α → β → M) {xs : List α} {ys : List β} {n : ℕ} (hx : xs.length = n)
    (hy : ys.length = n) (d : α) (e : β) :
    (List.zipWith f xs ys).sum = ∑ i ∈ range n, f (xs.getD i d) (ys.getD i e) := by
  have hmap : List.zipWith f xs ys = (List.range n).map fun i => f (xs.getD i d) (ys.getD i e) := by
    apply List.ext_getElem
    · simp [hx, hy]
    · intro i h1 h2
      have hi : i < n := by simpa using h2
      have hix : i < xs.length := by omega
      have hiy : i < ys.length := by omega
      simp [List.getD_eq_getElem?_getD, List.getElem?_eq_getElem hix, List.getElem?_eq_getElem hiy]
  rw [hmap, sum_map_range]

theorem sum_map_comm (l : List α) (n : ℕ) (f : ℕ → α → M) :
    ∑ c ∈ range n, (l.map (f c)).sum = (l.map fun x => ∑ c ∈ range n, f c x).sum := by
  induction l with
  | nil => simp
  | cons x l ih => simp only [List.map_cons, List.sum_cons, sum_add_distrib, ih]

theorem sum_range_rows (n p : ℕ) (f : ℕ → M) :
    ∑ i ∈ range (n * p), f i = ∑ k ∈ range n, ∑ j ∈ range p, f (k * p + j) := by
  induction n with
  | zero => simp
  | succ n ih => rw [add_mul, one_mul, sum_range_add, ih, sum_range_succ]

theorem sum_chunks (l : List α) (g : α → M) (per parts : ℕ) :
    ∑ t ∈ range parts, (((l.drop (t * per)).take per).map g).sum = ((l.take (parts * per)).map g).sum := by
  induction parts with
  | zero => simp
  | succ parts ih =>
    rw [sum_range_succ, ih, add_mul, one_mul, List.take_add, List.map_append, List.sum_append]

/-- **A list built item by item**, read through `g`, is the list of what the items give. -/
theorem map_of_mapM {ε α β γ : Type} {f : α → Except ε β} {g : β → γ} {h : α → γ} {l : List α} {l' : List β}
    (hf : ∀ x y, x ∈ l → f x = .ok y → g y = h x) (hl : l.mapM f = .ok l') : l'.map g = l.map h := by
  induction l generalizing l' with
  | nil =>
    have hnil : l' = [] := by simpa [pure, Except.pure, eq_comm] using hl
    rw [hnil, List.map_nil, List.map_nil]
  | cons x l ih =>
    rw [List.mapM_cons] at hl
    cases hx : f x with
    | error e => simp [hx, bind, Except.bind] at hl
    | ok y =>
      cases hrest : l.mapM f with
      | error e => simp [hx, hrest, bind, Except.bind] at hl
      | ok rest =>
        have hcons : l' = y :: rest := by simpa [hx, hrest, bind, Except.bind, pure, Except.pure, eq_comm] using hl
        rw [hcons, List.map_cons, List.map_cons, hf x y (by simp) hx, ih (fun x y hx => hf x y (by simp [hx])) hrest]

end loops

section

variable {A : Type*} [CommRing A] {slots : List A} {c : ℕ}

def slotSum (slots : List A) (g : ℕ → A) : A := ∑ c ∈ range slots.length, slots.getD c 0 * g c

/-- **The rule for slots**: every pass keeps the number of slots and adds its share to each. -/
theorem foldlM_slots {ε α S : Type*} (slots : S → List A) {f : S → α → Except ε S} {g : α → ℕ → A} {l : List α} {n : ℕ}
    (h : ∀ s x s', x ∈ l → (slots s).length = n → f s x = .ok s' →
      (slots s').length = n ∧ ∀ k < n, (slots s').getD k 0 = (slots s).getD k 0 + g x k)
    {s t : S} (hs : (slots s).length = n) (ht : l.foldlM f s = .ok t) :
    (slots t).length = n ∧ ∀ k < n, (slots t).getD k 0 = (slots s).getD k 0 + (l.map fun x => g x k).sum := by
  refine ⟨foldlM_inv (P := fun s => (slots s).length = n) (fun s x s' hx hlen hf => (h s x s' hx hlen hf).1) hs ht, fun k hk => ?_⟩
  have hrule := foldlM_measure (P := fun s => (slots s).length = n) (μ := fun s => (slots s).getD k 0) (g := fun x => g x k)
    (fun s x s' hx hlen hf => ⟨(h s x s' hx hlen hf).1, (h s x s' hx hlen hf).2 k hk⟩) hs ht
  exact hrule.2

theorem slotSum_replicate (n : ℕ) (g : ℕ → A) : slotSum (List.replicate n 0) g = 0 := by
  apply sum_eq_zero
  intro c hc
  have hc : c < n := by simpa using hc
  simp [List.getD_eq_getElem?_getD, hc]

theorem slotSum_set (hc : c < slots.length) (v : A) (g : ℕ → A) :
    slotSum (slots.set c (slots.getD c 0 + v)) g = slotSum slots g + v * g c := by
  unfold slotSum
  rw [List.length_set]
  have hterm : ∀ i ∈ range slots.length, (slots.set c (slots.getD c 0 + v)).getD i 0 * g i =
      slots.getD i 0 * g i + if i = c then v * g c else 0 := by
    intro i hi
    by_cases hic : i = c
    · subst hic
      simp [List.getD_eq_getElem?_getD, hc, add_mul]
    · have hne : c ≠ i := fun h => hic h.symm
      simp [List.getD_eq_getElem?_getD, List.getElem?_set_ne hne, hic]
  rw [sum_congr rfl hterm, sum_add_distrib, sum_ite_eq' (range slots.length) c]
  simp [hc]

theorem slotSum_modify (hc : c < slots.length) {f : A → A} {x : A} (hf : ∀ v, f v = v + x) (g : ℕ → A) :
    slotSum (slots.modify c f) g = slotSum slots g + x * g c := by
  have hset : slots.modify c f = slots.set c (slots.getD c 0 + x) := by
    rw [List.modify_eq_set_getElem?, List.getD_eq_getElem?_getD, List.getElem?_eq_getElem hc]
    simp [hf]
  rw [hset, slotSum_set hc]

theorem slotSum_zipWith_add {u v : List A} (h : u.length = v.length) (g : ℕ → A) :
    slotSum (List.zipWith (· + ·) u v) g = slotSum u g + slotSum v g := by
  unfold slotSum
  rw [List.length_zipWith, h, min_self, ← sum_add_distrib]
  apply sum_congr rfl
  intro i hi
  have hv : i < v.length := by simpa using hi
  have hu : i < u.length := by omega
  simp [List.getD_eq_getElem?_getD, List.getElem?_zipWith, List.getElem?_eq_getElem hu, List.getElem?_eq_getElem hv,
    add_mul]

end

/-! ## Geometric windows -/

section

variable {F A : Type*} [Field F] {r : F}

theorem geometric_window (hr : r ≠ 0) (e : ℕ → F) (s c : ℕ) : ∑ d ∈ range c, r ^ d * e (s + d) =
      r⁻¹ ^ s * (∑ u ∈ range (s + c), r ^ u * e u - ∑ u ∈ range s, r ^ u * e u) := by
  rw [sum_range_add, add_sub_cancel_left, mul_sum]
  apply sum_congr rfl
  intro d _
  have hcancel : r⁻¹ ^ s * r ^ s = 1 := by rw [← mul_pow, inv_mul_cancel₀ hr, one_pow]
  calc r ^ d * e (s + d) = (r⁻¹ ^ s * r ^ s) * (r ^ d * e (s + d)) := by rw [hcancel, one_mul]
    _ = r⁻¹ ^ s * (r ^ (s + d) * e (s + d)) := by rw [pow_add]; ring

/-- A window of a geometric lane from the next one: drop its last term and put the new first term in front. -/
theorem geometric_recurrence {R : Type*} [CommRing R] (β : R) (e : ℤ → R) (x : ℤ) (period count : ℕ) :
    ∑ k ∈ range count, β ^ k * e (x + k * period) =
      e x + β * ∑ k ∈ range count, β ^ k * e (x + period + k * period) - β ^ count * e (x + count * period) := by
  have hshift : β * ∑ k ∈ range count, β ^ k * e (x + period + k * period) =
      ∑ k ∈ range count, β ^ (k + 1) * e (x + (k + 1 : ℕ) * period) := by
    rw [mul_sum]
    apply sum_congr rfl
    intro k _
    have hindex : x + period + k * period = x + (k + 1 : ℕ) * (period : ℤ) := by push_cast; ring
    rw [hindex, pow_succ]
    ring
  have hsucc := sum_range_succ (fun k => β ^ k * e (x + k * period)) count
  have hsucc' := sum_range_succ' (fun k => β ^ k * e (x + k * period)) count
  have hzero : β ^ 0 * e (x + (0 : ℕ) * period) = e x := by simp
  rw [hzero] at hsucc'
  rw [hshift]
  linear_combination hsucc' - hsucc

variable [AddCommGroup A] [Module F A]

/-- A geometric window over addresses in blocks of `Q`: terms before the block's end keep the carry, the others
take the next one. -/
theorem geometric_window_wrap {Q delta start : ℕ} (hQ : 0 < Q) (hdelta : delta ≤ Q) (hr : r ≠ 0) (d0 : F) (e : ℕ → F)
    (g : ℕ → A) : ∑ d ∈ range delta, (d0 * r ^ d * e ((start + d) % Q)) • g ((start + d) / Q) =
      (d0 * r⁻¹ ^ (start % Q) * (∑ u ∈ range (start % Q + min delta (Q - start % Q)), r ^ u * e u -
          ∑ u ∈ range (start % Q), r ^ u * e u)) • g (start / Q) +
        (d0 * r ^ min delta (Q - start % Q) * ∑ u ∈ range (delta - min delta (Q - start % Q)), r ^ u * e u) •
          g (start / Q + 1) := by
  set s := start % Q with hs
  set count := min delta (Q - s) with hcount
  have hslt : s < Q := Nat.mod_lt _ hQ
  have hstart : start = Q * (start / Q) + s := (Nat.div_add_mod start Q).symm
  have hsplit : delta = count + (delta - count) := by omega
  rw [hsplit, sum_range_add, ← hsplit]
  have hnext : Q * (start / Q) + Q = Q * (start / Q + 1) := by ring
  congr 1
  · -- the digits that stay in the block
    rw [mul_assoc, ← geometric_window hr, mul_sum, sum_smul]
    apply sum_congr rfl
    intro d hd
    have hd : d < count := by simpa using hd
    have hlt : s + d < Q := by omega
    have haddr : start + d = s + d + Q * (start / Q) := by omega
    rw [haddr, Nat.add_mul_mod_self_left, Nat.mod_eq_of_lt hlt, Nat.add_mul_div_left _ _ hQ, Nat.div_eq_of_lt hlt, zero_add,
      mul_assoc]
  · -- the digits that wrap
    rw [mul_sum, sum_smul]
    apply sum_congr rfl
    intro d hd
    have hd : d < delta - count := by simpa using hd
    have hfull : count = Q - s := by omega
    have hlt : d < Q := by omega
    have haddr : start + (count + d) = d + Q * (start / Q + 1) := by omega
    rw [haddr, Nat.add_mul_mod_self_left, Nat.mod_eq_of_lt hlt, Nat.add_mul_div_left _ _ hQ, Nat.div_eq_of_lt hlt, zero_add,
      pow_add]
    congr 1
    ring

end

/-! ## Parallel folds -/

/-- How a parallel fold cuts its items into parts, folds each from the identity and joins the results. -/
inductive FoldTree (α : Type*)
  | identity
  | items (l : List α)
  | join (left right : FoldTree α)

namespace FoldTree

variable {α S : Type*}

def toList : FoldTree α → List α
  | identity => []
  | items l => l
  | join left right => left.toList ++ right.toList

def run (init : S) (fold : S → α → S) (reduce : S → S → S) : FoldTree α → S
  | identity => init
  | items l => l.foldl fold init
  | join left right => reduce (left.run init fold reduce) (right.run init fold reduce)

variable {ε T : Type} {M : Type*} [AddCommMonoid M]

variable {step : T → α → Except ε T}

theorem foldl_error (l : List α) (e : ε) :
    l.foldl (fun acc x => acc >>= fun t => step t x) (.error e : Except ε T) = .error e := by
  induction l with
  | nil => rfl
  | cons x l ih => exact ih

theorem foldl_ok (l : List α) (t : T) :
    l.foldl (fun acc x => acc >>= fun t => step t x) (.ok t : Except ε T) = l.foldlM step t := by
  induction l generalizing t with
  | nil => rfl
  | cons x l ih =>
    rw [List.foldl_cons, List.foldlM_cons]
    cases hx : step t x with
    | error e =>
      simp only [Except.bind, hx, bind]
      exact foldl_error l e
    | ok m =>
      simp only [Except.bind, hx, bind]
      exact ih m

/-- **A parallel fold adds the terms of all its items**, whatever the tree. -/
theorem run_measure {g : α → M} {init : T} {combine : T → T → T} {P : T → Prop} {μ : T → M} (tree : FoldTree α) (hinit : P init)
    (hzero : μ init = 0) (hstep : ∀ s x s', x ∈ tree.toList → P s → step s x = .ok s' → P s' ∧ μ s' = μ s + g x)
    (hcombine : ∀ s s', P s → P s' → P (combine s s') ∧ μ (combine s s') = μ s + μ s') {t : T}
    (ht : tree.run (.ok init) (fun acc x => acc >>= fun s => step s x)
      (fun l r => l >>= fun s => r >>= fun s' => .ok (combine s s')) = .ok t) : P t ∧ μ t = (tree.toList.map g).sum := by
  induction tree generalizing t with
  | identity =>
    obtain rfl : init = t := by simpa [run] using ht
    exact ⟨hinit, by simpa [toList] using hzero⟩
  | items l =>
    rw [run, foldl_ok] at ht
    have h := foldlM_measure hstep hinit ht
    rwa [hzero, zero_add] at h
  | join left right ihl ihr =>
    rw [run] at ht
    cases hl : left.run (.ok init) (fun acc x => acc >>= fun s => step s x)
      (fun l r => l >>= fun s => r >>= fun s' => .ok (combine s s')) with
    | error e =>
      rw [hl] at ht
      simp [bind, Except.bind] at ht
    | ok s =>
      cases hr : right.run (.ok init) (fun acc x => acc >>= fun s => step s x)
        (fun l r => l >>= fun s => r >>= fun s' => .ok (combine s s')) with
      | error e =>
        rw [hl, hr] at ht
        simp [bind, Except.bind] at ht
      | ok s' =>
        rw [hl, hr] at ht
        obtain rfl : combine s s' = t := by simpa [bind, Except.bind] using ht
        obtain ⟨h1, h2⟩ := ihl (fun s x s' hx => hstep s x s' (by simp [toList, hx])) hl
        obtain ⟨h3, h4⟩ := ihr (fun s x s' hx => hstep s x s' (by simp [toList, hx])) hr
        obtain ⟨h5, h6⟩ := hcombine s s' h1 h3
        exact ⟨h5, by rw [h6, h2, h4, toList, List.map_append, List.sum_append]⟩

end FoldTree

end Akita.Lib
