import Mathlib.Data.Nat.Nth
import Akita.Lib.Numerals

/-!
# Colexicographic ranks of finite sets

A `k`-set of naturals `c_1 < … < c_k` has the rank `C(c_1, 1) + … + C(c_k, k)`. The ranks of the
`k`-sets below `n` are the numbers below `C(n, k)`, each taken once; the set of a rank is found
greedily from its largest element down. The second part renumbers a set through the complement of
another: `Nat.nth (· ∉ T)` lists the naturals outside `T`.
-/

namespace Akita.Lib

/-- Elements listed downwards, all below `upper`. -/
def DecreasingBelow : ℕ → List ℕ → Prop
  | _, [] => True
  | upper, c :: rest => c < upper ∧ DecreasingBelow c rest

/-- The rank of a set listed downwards. -/
def colexRank : List ℕ → ℕ
  | [] => 0
  | c :: rest => c.choose (rest.length + 1) + colexRank rest

/-- The greedy set of a rank: the `k` elements below `upper`, listed downwards. -/
def colexUnrank : ℕ → ℕ → ℕ → List ℕ
  | 0, _, _ => []
  | k + 1, upper, r =>
    let c := Nat.findGreatest (fun c => c.choose (k + 1) ≤ r) (upper - 1)
    c :: colexUnrank k c (r - c.choose (k + 1))

section

variable {upper k r c : ℕ} {l l' : List ℕ}

theorem colexRank_lt : ∀ {upper : ℕ} {l : List ℕ}, DecreasingBelow upper l → colexRank l < upper.choose l.length := by
  intro upper l
  induction l generalizing upper with
  | nil => intro _; simp [colexRank]
  | cons c rest ih =>
    intro h
    have hrest := ih h.2
    calc colexRank (c :: rest) < c.choose (rest.length + 1) + c.choose rest.length := by
          simp only [colexRank]
          omega
      _ = (c + 1).choose (rest.length + 1) := by rw [Nat.choose_succ_succ]; ring
      _ ≤ upper.choose (rest.length + 1) := Nat.choose_le_choose _ h.1

theorem choose_bracket {c' : ℕ} (h1 : c.choose (k + 1) ≤ r) (h2 : r < (c + 1).choose (k + 1)) (h1' : c'.choose (k + 1) ≤ r)
    (h2' : r < (c' + 1).choose (k + 1)) : c = c' := by
  rcases lt_trichotomy c c' with hlt | heq | hgt
  · have := Nat.choose_le_choose (k + 1) (show c + 1 ≤ c' by omega)
    omega
  · exact heq
  · have := Nat.choose_le_choose (k + 1) (show c' + 1 ≤ c by omega)
    omega

theorem colexRank_bracket (h : DecreasingBelow upper (c :: l)) :
    c.choose (l.length + 1) ≤ colexRank (c :: l) ∧ colexRank (c :: l) < (c + 1).choose (l.length + 1) :=
  have hself : DecreasingBelow (c + 1) (c :: l) := ⟨Nat.lt_succ_self c, h.2⟩
  ⟨by simp only [colexRank]; omega, colexRank_lt hself⟩

/-- **Distinct sets have distinct ranks.** -/
theorem colexRank_injective : ∀ {l l' : List ℕ} {upper upper' : ℕ}, DecreasingBelow upper l → DecreasingBelow upper' l' →
    l.length = l'.length → colexRank l = colexRank l' → l = l' := by
  intro l
  induction l with
  | nil =>
    intro l' upper upper' _ _ hlen _
    exact (List.eq_nil_of_length_eq_zero hlen.symm).symm
  | cons c rest ih =>
    intro l' upper upper' h h' hlen hrank
    cases l' with
    | nil => simp at hlen
    | cons c' rest' =>
      have hlen' : rest.length = rest'.length := by simpa using hlen
      obtain ⟨h1, h2⟩ := colexRank_bracket h
      obtain ⟨h1', h2'⟩ := colexRank_bracket h'
      rw [← hrank, ← hlen'] at h1' h2'
      have hc : c = c' := choose_bracket h1 h2 h1' h2'
      subst hc
      have hrest : colexRank rest = colexRank rest' := by
        simp only [colexRank, hlen'] at hrank
        omega
      rw [ih h.2 h'.2 hlen' hrest]

/-- One greedy step leaves a rank below the next binomial. -/
theorem greedy_step (hr : r < upper.choose (k + 1)) :
    Nat.findGreatest (fun c => c.choose (k + 1) ≤ r) (upper - 1) < upper ∧
      (Nat.findGreatest (fun c => c.choose (k + 1) ≤ r) (upper - 1)).choose (k + 1) ≤ r ∧
      r - (Nat.findGreatest (fun c => c.choose (k + 1) ≤ r) (upper - 1)).choose (k + 1) <
        (Nat.findGreatest (fun c => c.choose (k + 1) ≤ r) (upper - 1)).choose k := by
  have hupper : 0 < upper := by
    rcases Nat.eq_zero_or_pos upper with h0 | h0
    · subst h0; simp at hr
    · exact h0
  set c := Nat.findGreatest (fun c => c.choose (k + 1) ≤ r) (upper - 1) with hc
  have hle : c ≤ upper - 1 := Nat.findGreatest_le _
  have hspec : c.choose (k + 1) ≤ r :=
    Nat.findGreatest_spec (P := fun c => c.choose (k + 1) ≤ r) (Nat.zero_le (upper - 1)) (by simp)
  have hnext : r < (c + 1).choose (k + 1) := by
    by_cases hlast : c + 1 = upper
    · rw [hlast]; exact hr
    · have := Nat.findGreatest_is_greatest (P := fun c => c.choose (k + 1) ≤ r) (n := upper - 1) (k := c + 1)
        (by omega) (by omega)
      omega
  rw [Nat.choose_succ_succ'] at hnext
  exact ⟨by omega, hspec, by omega⟩

/-- **The greedy set** of a rank in range has that rank. -/
theorem colexUnrank_spec : ∀ (k : ℕ) {upper r : ℕ}, r < upper.choose k →
    DecreasingBelow upper (colexUnrank k upper r) ∧ (colexUnrank k upper r).length = k ∧ colexRank (colexUnrank k upper r) = r := by
  intro k
  induction k with
  | zero =>
    intro upper r hr
    simp only [Nat.choose_zero_right] at hr
    exact ⟨trivial, rfl, by simp only [colexUnrank, colexRank]; omega⟩
  | succ k ih =>
    intro upper r hr
    obtain ⟨hc, hle, hlt⟩ := greedy_step hr
    obtain ⟨hdec, hlen, hrank⟩ := ih hlt
    refine ⟨⟨hc, hdec⟩, by simp [colexUnrank, hlen], ?_⟩
    simp only [colexUnrank, colexRank, hlen, hrank]
    omega

theorem colexUnrank_rank (h : DecreasingBelow upper l) : colexUnrank l.length upper (colexRank l) = l := by
  obtain ⟨hdec, hlen, hrank⟩ := colexUnrank_spec l.length (colexRank_lt h)
  exact colexRank_injective hdec h hlen hrank

theorem decreasingBelow_iff : ∀ {upper : ℕ} {l : List ℕ},
    DecreasingBelow upper l ↔ l.Pairwise (· > ·) ∧ ∀ c ∈ l, c < upper := by
  intro upper l
  induction l generalizing upper with
  | nil => simp [DecreasingBelow]
  | cons c rest ih =>
    simp only [DecreasingBelow, ih, List.pairwise_cons, List.mem_cons, forall_eq_or_imp]
    constructor
    · intro h
      exact ⟨⟨h.2.2, h.2.1⟩, h.1, fun x hx => (h.2.2 x hx).trans h.1⟩
    · intro h
      exact ⟨h.2.1, h.1.2, h.1.1⟩

end

section

variable {T : List ℕ} {p s n : ℕ}

theorem infinite_compl (T : List ℕ) : (Set.ofPred fun p => p ∉ T).Infinite := by
  have heq : (Set.ofPred fun p => p ∉ T) = (↑T.toFinset : Set ℕ)ᶜ := by ext; simp
  rw [heq]
  exact T.toFinset.finite_toSet.infinite_compl

theorem count_compl (hT : T.Nodup) (p : ℕ) : Nat.count (fun x => x ∉ T) p + (T.filter (· < p)).length = p := by
  have hcard : (T.filter (· < p)).length = ((Finset.range p).filter (· ∈ T)).card := by
    rw [← List.toFinset_card_of_nodup (hT.filter _)]
    congr 1
    ext x
    simp [and_comm]
  rw [Nat.count_eq_card_filter_range, hcard, add_comm]
  have := Finset.card_filter_add_card_filter_not (s := Finset.range p) (fun x => x ∈ T)
  simpa using this

theorem nth_compl_eq (hT : T.Nodup) (hp : p ∉ T) (hs : s + (T.filter (· < p)).length = p) : Nat.nth (fun x => x ∉ T) s = p := by
  have hcount : Nat.count (fun x => x ∉ T) p = s := by
    have := count_compl hT p
    omega
  rw [← hcount]
  exact Nat.nth_count hp

theorem nth_compl_lt (hT : T.Nodup) (hb : ∀ t ∈ T, t < n) (hs : s < n - T.length) : Nat.nth (fun x => x ∉ T) s < n := by
  apply Nat.nth_lt_of_lt_count
  have hall : T.filter (· < n) = T := List.filter_eq_self.2 fun t ht => by simpa using hb t ht
  have := count_compl hT n
  rw [hall] at this
  omega

theorem count_compl_lt (hT : T.Nodup) (hb : ∀ t ∈ T, t < n) (hp : p < n) (hpT : p ∉ T) :
    Nat.count (fun x => x ∉ T) p < n - T.length := by
  have hall : T.filter (· < n) = T := List.filter_eq_self.2 fun t ht => by simpa using hb t ht
  have hn := count_compl hT n
  rw [hall] at hn
  have hlt : Nat.count (fun x => x ∉ T) p < Nat.count (fun x => x ∉ T) n := Nat.count_strict_mono hpT hp
  omega

end

end Akita.Lib
