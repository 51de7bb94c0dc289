import Mathlib.Data.List.GetD
import Mathlib.Tactic

/-!
# Loops that run

Total-correctness rules for the loops of a fallible program: when every pass runs and keeps what
is asked of it, the loop runs to its end.
-/

namespace Akita.Lib

open List

variable {ε α β S ι : Type*} {K : ι → Prop} {l : List α} {f : ι → S → ℕ → Except ε S}

/-- **A loop over the indices below `n`**, in every program of a family. -/
theorem foldlM_range_runs_all {P : ℕ → S → Prop} {n : ℕ}
    (h : ∀ i < n, ∀ s, P i s → ∃ s', (∀ k, K k → f k s i = .ok s') ∧ P (i + 1) s') {s : S} (hs : P 0 s) :
    ∃ t, (∀ k, K k → (range n).foldlM (f k) s = .ok t) ∧ P n t := by
  induction n with
  | zero => exact ⟨s, fun _ _ => rfl, hs⟩
  | succ n ih =>
    obtain ⟨m, hm, hP⟩ := ih fun i hi => h i (by omega)
    obtain ⟨t, ht, hP'⟩ := h n (by omega) m hP
    refine ⟨t, fun k hk => ?_, hP'⟩
    rw [range_succ, foldlM_append, hm k hk]
    change (f k m n >>= pure) = .ok t
    rw [ht k hk]
    rfl

theorem foldlM_range_runs {f : S → ℕ → Except ε S} {P : ℕ → S → Prop} {n : ℕ}
    (h : ∀ i < n, ∀ s, P i s → ∃ s', f s i = .ok s' ∧ P (i + 1) s') {s : S} (hs : P 0 s) :
    ∃ t, (range n).foldlM f s = .ok t ∧ P n t := by
  obtain ⟨t, ht, hP⟩ := @foldlM_range_runs_all _ _ Unit (fun _ => True) (fun _ => f) P n (fun i hi s hs => by
    obtain ⟨s', hs', hP⟩ := h i hi s hs
    exact ⟨s', fun _ _ => hs', hP⟩) s hs
  exact ⟨t, ht () trivial, hP⟩

/-- **A loop in place.** Every pass rewrites the positions of its own key, from their first values; `E s i x` says that
position `i` of `s` holds `x`. -/
theorem foldlM_in_place {X : Type*} {E : S → ℕ → X → Prop} {ok : S → Prop} {key : ℕ → ℕ} {old new : ℕ → X} {n : ℕ}
    (h : ∀ t < n, ∀ s, ok s → (∀ i, key i = t → E s i (old i)) → ∃ s', (∀ k, K k → f k s t = .ok s') ∧ ok s' ∧
      (∀ i, key i = t → E s' i (new i)) ∧ ∀ i, key i ≠ t → ∀ x, E s i x → E s' i x)
    {s : S} (hs : ok s) (hold : ∀ i, key i < n → E s i (old i)) :
    ∃ s', (∀ k, K k → (range n).foldlM (f k) s = .ok s') ∧ ok s' ∧ (∀ i, key i < n → E s' i (new i)) ∧
      ∀ i, n ≤ key i → ∀ x, E s i x → E s' i x := by
  obtain ⟨s', hrun, hok, hnew, hframe⟩ := @foldlM_range_runs_all _ _ _ K f
    (fun t s' => ok s' ∧ (∀ i, key i < t → E s' i (new i)) ∧ ∀ i, t ≤ key i → ∀ x, E s i x → E s' i x) n (by
      rintro t ht mid ⟨hok, hdone, hframe⟩
      obtain ⟨next, hnext, hok', hnew, hkeep⟩ := h t ht mid hok fun i hi => hframe i hi.ge _ (hold i (by omega))
      refine ⟨next, hnext, hok', fun i hi => ?_, fun i hi x hx => hkeep i (by omega) x (hframe i (by omega) x hx)⟩
      rcases Nat.lt_succ_iff_lt_or_eq.1 hi with hlt | heq
      · exact hkeep i (by omega) _ (hdone i hlt)
      · exact hnew i heq) s ⟨hs, fun i hi => absurd hi (Nat.not_lt_zero _), fun _ _ _ hx => hx⟩
  exact ⟨s', hrun, hok, hnew, hframe⟩

/-- **A loop and its image** under `φ`, pass by pass. -/
theorem foldlM_image {T : Type*} {f : S → α → Except ε S} {g : T → α → Except ε T} {φ : S → T}
    (h : ∀ a ∈ l, ∀ s s', f s a = .ok s' → g (φ s) a = .ok (φ s')) :
    ∀ {s s'}, l.foldlM f s = .ok s' → l.foldlM g (φ s) = .ok (φ s') := by
  induction l with
  | nil =>
    intro s s' hs
    cases hs
    rfl
  | cons a l ih =>
    intro s s' hs
    rw [foldlM_cons] at hs ⊢
    cases hmid : f s a with
    | error e =>
      rw [hmid] at hs
      cases hs
    | ok mid =>
      rw [hmid] at hs
      rw [h a mem_cons_self s mid hmid]
      exact ih (fun b hb => h b (mem_cons_of_mem a hb)) hs

/-- **A loop over a list.** -/
theorem foldlM_runs_getD {f : S → α → Except ε S} {P : ℕ → S → Prop} {l : List α} (d : α)
    (h : ∀ i < l.length, ∀ s, P i s → ∃ s', f s (l.getD i d) = .ok s' ∧ P (i + 1) s') {s : S} (hs : P 0 s) :
    ∃ t, l.foldlM f s = .ok t ∧ P l.length t := by
  have hmap : l = (range l.length).map fun i => l.getD i d := by
    apply ext_getElem
    · simp
    · intro i hi _
      simp [getElem?_eq_getElem hi]
  obtain ⟨t, ht, hP⟩ := foldlM_range_runs h hs
  refine ⟨t, ?_, hP⟩
  rw [hmap, foldlM_map]
  exact ht

theorem zipIdx_eq_map (l : List α) (d : α) : l.zipIdx = (range l.length).map fun i => (l.getD i d, i) := by
  apply ext_getElem
  · simp
  · intro i hi _
    have hi' : i < l.length := by simpa using hi
    simp [getElem?_eq_getElem hi']

/-- **A loop over a list with its indices.** -/
theorem foldlM_zipIdx_runs {f : S → α × ℕ → Except ε S} {P : ℕ → S → Prop} {l : List α} (d : α)
    (h : ∀ i < l.length, ∀ s, P i s → ∃ s', f s (l.getD i d, i) = .ok s' ∧ P (i + 1) s') {s : S} (hs : P 0 s) :
    ∃ t, l.zipIdx.foldlM f s = .ok t ∧ P l.length t := by
  rw [zipIdx_eq_map l d, foldlM_map]
  exact foldlM_range_runs h hs

/-- A pure loop over the indices below `n`. -/
theorem foldl_range_inv {f : S → ℕ → S} {P : ℕ → S → Prop} {n : ℕ} (h : ∀ i < n, ∀ s, P i s → P (i + 1) (f s i)) {s : S}
    (hs : P 0 s) : P n ((range n).foldl f s) := by
  induction n with
  | zero => exact hs
  | succ n ih =>
    rw [range_succ, foldl_append]
    exact h n (by omega) _ (ih fun i hi => h i (by omega))

theorem foldl_zipIdx_inv {f : S → α × ℕ → S} {P : ℕ → S → Prop} (d : α)
    (h : ∀ i < l.length, ∀ s, P i s → P (i + 1) (f s (l.getD i d, i))) {s : S} (hs : P 0 s) :
    P l.length (l.zipIdx.foldl f s) := by
  rw [zipIdx_eq_map l d, foldl_map]
  exact foldl_range_inv h hs

/-- **A loop that fills a list**, in every program of a family. -/
theorem mapM_runs_all {f : ι → α → Except ε β} {Q : ℕ → β → Prop} {l : List α} (d : α) (d' : β)
    (h : ∀ i < l.length, ∃ b, (∀ k, K k → f k (l.getD i d) = .ok b) ∧ Q i b) :
    ∃ out, (∀ k, K k → l.mapM (f k) = .ok out) ∧ out.length = l.length ∧ ∀ i < l.length, Q i (out.getD i d') := by
  induction l generalizing Q with
  | nil => exact ⟨[], fun _ _ => rfl, rfl, fun i hi => absurd hi (Nat.not_lt_zero i)⟩
  | cons a l ih =>
    obtain ⟨b, hb, hQ⟩ := h 0 (Nat.succ_pos _)
    obtain ⟨out, hout, hlen, hrest⟩ := @ih (fun i => Q (i + 1)) fun i hi => h (i + 1) (Nat.succ_lt_succ hi)
    refine ⟨b :: out, fun k hk => ?_, by simp [hlen], ?_⟩
    · have hb := hb k hk
      rw [getD_cons_zero] at hb
      rw [mapM_cons, hb, hout k hk]
      rfl
    · rintro (_ | i) hi
      · exact hQ
      · exact hrest i (Nat.lt_of_succ_lt_succ hi)

theorem mapM_runs {f : α → Except ε β} {Q : ℕ → β → Prop} {l : List α} (d : α) (d' : β)
    (h : ∀ i < l.length, ∃ b, f (l.getD i d) = .ok b ∧ Q i b) :
    ∃ out, l.mapM f = .ok out ∧ out.length = l.length ∧ ∀ i < l.length, Q i (out.getD i d') := by
  obtain ⟨out, hout, hlen, hQ⟩ := @mapM_runs_all _ _ _ Unit (fun _ => True) (fun _ => f) Q l d d' fun i hi => by
    obtain ⟨b, hb, hQ⟩ := h i hi
    exact ⟨b, fun _ _ => hb, hQ⟩
  exact ⟨out, hout () trivial, hlen, hQ⟩

theorem mapM_range_runs {f : ℕ → Except ε β} {Q : ℕ → β → Prop} {n : ℕ} (d : β) (h : ∀ i < n, ∃ b, f i = .ok b ∧ Q i b) :
    ∃ out, (range n).mapM f = .ok out ∧ out.length = n ∧ ∀ i < n, Q i (out.getD i d) := by
  have hget : ∀ i < n, (range n).getD i 0 = i := fun i hi => by simp [getD_eq_getElem?_getD, hi]
  have hruns := @mapM_runs ε ℕ β f Q (range n) 0 d fun i hi => by
    rw [length_range] at hi
    rw [hget i hi]
    exact h i hi
  rwa [length_range] at hruns

theorem getD_set_self {i : ℕ} (h : i < l.length) (v d : α) : (l.set i v).getD i d = v := by
  rw [getD_eq_getElem?_getD, getElem?_set_self h, Option.getD_some]

theorem getD_set_ne {i j : ℕ} (h : i ≠ j) (v d : α) : (l.set i v).getD j d = l.getD j d := by
  rw [getD_eq_getElem?_getD, getElem?_set_ne h, getD_eq_getElem?_getD]

end Akita.Lib
