import Akita.Proof.SparseShell

/-!
# Candidate integers and the challenge shell

The shell is the set of vectors of length `d` with `a` entries `±1`, `b` entries `±2` and zeros
elsewhere. A candidate integer in range has a challenge whose vector is in the shell; the vector
gives back the positions, hence their rank, and the signs, hence the integer.
-/

namespace Akita.SparseStream

open Lib List

def SparseChallenge.vector (c : SparseChallenge) (p : ℕ) : ℤ :=
  ((c.positions.zip c.coeffs).map fun term => if term.1 = p then term.2 else 0).sum

def shellVectors (d a b : ℕ) : Set (ℕ → ℤ) :=
  {v | (∀ p, d ≤ p → v p = 0) ∧ (∀ p, v p = 0 ∨ |v p| = 1 ∨ |v p| = 2) ∧
    ((Finset.range d).filter fun p => |v p| = 1).card = a ∧ ((Finset.range d).filter fun p => |v p| = 2).card = b}

section

theorem vector_of_notMem {positions : List ℕ} {coeffs : List ℤ} {p : ℕ} (h : p ∉ positions) :
    SparseChallenge.vector ⟨positions, coeffs⟩ p = 0 := by
  apply sum_eq_zero
  intro x hx
  obtain ⟨term, hterm, rfl⟩ := mem_map.1 hx
  have hmem := (of_mem_zip (show (term.1, term.2) ∈ _ from hterm)).1
  rw [if_neg]
  intro heq
  exact h (heq ▸ hmem)

theorem vector_getElem : ∀ {positions : List ℕ} {coeffs : List ℤ} {i p : ℕ} {c : ℤ}, positions.Nodup →
    positions[i]? = some p → coeffs[i]? = some c → SparseChallenge.vector ⟨positions, coeffs⟩ p = c := by
  intro positions
  induction positions with
  | nil => intro coeffs i p c _ hp _; simp at hp
  | cons q positions ih =>
    intro coeffs i p c hnodup hp hc
    obtain ⟨hq, hnodup⟩ := nodup_cons.1 hnodup
    cases coeffs with
    | nil => simp at hc
    | cons e coeffs =>
      have hstep : SparseChallenge.vector ⟨q :: positions, e :: coeffs⟩ p =
          (if q = p then e else 0) + SparseChallenge.vector ⟨positions, coeffs⟩ p := by
        simp [SparseChallenge.vector]
      rw [hstep]
      cases i with
      | zero =>
        have hqp : q = p := by simpa using hp
        have hec : e = c := by simpa using hc
        rw [if_pos hqp, hec, vector_of_notMem (hqp ▸ hq), add_zero]
      | succ i =>
        have hp' : positions[i]? = some p := by simpa using hp
        have hne : q ≠ p := by
          intro heq
          exact hq (heq ▸ mem_of_getElem? hp')
        rw [if_neg hne, zero_add]
        exact ih hnodup hp' (by simpa using hc)

end

section

variable {shell : SparseChallengeShell} {rank R : ℕ}

noncomputable def pm2At (shell : SparseChallengeShell) (rank : ℕ) : List ℕ :=
  (pm2Slots shell rank).map (Nat.nth fun x => x ∉ pm1Positions shell rank)

/-- The positions of the second kind: increasing, below `d`, outside the first kind. -/
theorem pm2At_spec (h : shell.Ok) (hrank : rank < shell.rankSpace) : (pm2At shell rank).Pairwise (· < ·) ∧
    (∀ p ∈ pm2At shell rank, p < shell.ringD ∧ p ∉ pm1Positions shell rank) ∧ (pm2At shell rank).length = shell.config.countPm2 := by
  obtain ⟨hinc1, hbelow1, hlen1⟩ := pm1_spec h rank
  obtain ⟨hinc, hbelow, hlen⟩ := pm2_spec h hrank
  have hinf := infinite_compl (pm1Positions shell rank)
  refine ⟨?_, ?_, by rw [pm2At, length_map, hlen]⟩
  · unfold pm2At
    rw [pairwise_map]
    exact hinc.imp fun hlt => Nat.nth_strictMono hinf hlt
  · intro p hp
    obtain ⟨s, hs, rfl⟩ := mem_map.1 hp
    refine ⟨nth_compl_lt (nodup_of_increasing hinc1) hbelow1 ?_, Nat.nth_mem_of_infinite hinf s⟩
    rw [hlen1]
    exact hbelow s hs

theorem challengeAt_positions : (challengeAt shell rank R).positions = pm1Positions shell rank ++ pm2At shell rank := rfl

theorem positions_nodup (h : shell.Ok) (hrank : rank < shell.rankSpace) : (challengeAt shell rank R).positions.Nodup := by
  obtain ⟨hinc1, -, -⟩ := pm1_spec h rank
  obtain ⟨hinc2, hout, -⟩ := pm2At_spec h hrank
  rw [challengeAt_positions]
  apply (nodup_of_increasing hinc1).append (nodup_of_increasing hinc2)
  intro p hp1 hp2
  exact (hout p hp2).2 hp1

theorem abs_coeffOf (a i : ℕ) (negative : Bool) : |coeffOf a i negative| = if i < a then 1 else 2 := by
  unfold coeffOf
  cases negative <;> split <;> simp

section

variable (h : shell.Ok) (hrank : rank < shell.rankSpace)

include h hrank

theorem vector_place {i p : ℕ}
    (hp : (challengeAt shell rank R).positions[i]? = some p) :
    (challengeAt shell rank R).vector p = coeffOf shell.config.countPm1 i (R.testBit i) := by
  have hlen : (challengeAt shell rank R).positions.length = shell.config.countPm1 + shell.config.countPm2 := by
    rw [challengeAt_positions, List.length_append, (pm1_spec h rank).2.2, (pm2At_spec h hrank).2.2]
  have hi : i < shell.config.countPm1 + shell.config.countPm2 := by
    rw [← hlen]
    exact (List.getElem?_eq_some_iff.1 hp).1
  apply vector_getElem (positions_nodup h hrank) hp
  simp [hi]

/-- **The entries of a challenge**: ±1 on the first positions, ±2 on the second, zero elsewhere. -/
theorem abs_vector (p : ℕ) :
    (p ∈ pm1Positions shell rank → |(challengeAt shell rank R).vector p| = 1) ∧
    (p ∈ pm2At shell rank → |(challengeAt shell rank R).vector p| = 2) ∧
    (p ∉ pm1Positions shell rank → p ∉ pm2At shell rank → (challengeAt shell rank R).vector p = 0) := by
  have hlen := (pm1_spec h rank).2.2
  refine ⟨?_, ?_, ?_⟩
  · intro hp
    obtain ⟨i, hi, rfl⟩ := getElem_of_mem hp
    have hget : (challengeAt shell rank R).positions[i]? = some (pm1Positions shell rank)[i] := by
      rw [challengeAt_positions, getElem?_append_left hi, getElem?_eq_getElem hi]
    rw [vector_place h hrank hget, abs_coeffOf, if_pos (by omega)]
  · intro hp
    obtain ⟨i, hi, rfl⟩ := getElem_of_mem hp
    have hget : (challengeAt shell rank R).positions[shell.config.countPm1 + i]? = some (pm2At shell rank)[i] := by
      rw [challengeAt_positions, getElem?_append_right (by omega), hlen, Nat.add_sub_cancel_left, getElem?_eq_getElem hi]
    rw [vector_place h hrank hget, abs_coeffOf, if_neg (by omega)]
  · intro hp1 hp2
    apply vector_of_notMem
    intro hmem
    rcases mem_append.1 hmem with hmem | hmem
    · exact hp1 hmem
    · exact hp2 hmem

theorem mem_pm1_iff (p : ℕ) :
    p ∈ pm1Positions shell rank ↔ |(challengeAt shell rank R).vector p| = 1 := by
  obtain ⟨h1, h2, h0⟩ := abs_vector (R := R) h hrank p
  constructor
  · exact h1
  · intro habs
    by_contra hnot
    by_cases hp2 : p ∈ pm2At shell rank
    · rw [h2 hp2] at habs
      norm_num at habs
    · rw [h0 hnot hp2] at habs
      norm_num at habs

theorem mem_pm2_iff (p : ℕ) :
    p ∈ pm2At shell rank ↔ |(challengeAt shell rank R).vector p| = 2 := by
  obtain ⟨h1, h2, h0⟩ := abs_vector (R := R) h hrank p
  constructor
  · exact h2
  · intro habs
    by_contra hnot
    by_cases hp1 : p ∈ pm1Positions shell rank
    · rw [h1 hp1] at habs
      norm_num at habs
    · rw [h0 hp1 hnot] at habs
      norm_num at habs

end

/-- A list of distinct positions below `d` counts the entries it describes. -/
theorem card_of_mem_iff {l : List ℕ} {d : ℕ} {P : ℕ → Prop} [DecidablePred P] (hl : l.Nodup) (hb : ∀ p ∈ l, p < d)
    (hP : ∀ p, p ∈ l ↔ P p) : ((Finset.range d).filter P).card = l.length := by
  have heq : (Finset.range d).filter P = l.toFinset := by
    ext p
    rw [Finset.mem_filter, Finset.mem_range, mem_toFinset, ← hP p]
    exact ⟨fun hp => hp.2, fun hp => ⟨hb p hp, hp⟩⟩
  rw [heq, toFinset_card_of_nodup hl]

/-- **In range, in the shell.** -/
theorem vector_mem_shell (h : shell.Ok) (hrank : rank < shell.rankSpace) :
    (challengeAt shell rank R).vector ∈ shellVectors shell.ringD shell.config.countPm1 shell.config.countPm2 := by
  obtain ⟨hinc1, hbelow1, hlen1⟩ := pm1_spec h rank
  obtain ⟨hinc2, hbelow2, hlen2⟩ := pm2At_spec h hrank
  refine ⟨?_, ?_, ?_, ?_⟩
  · intro p hp
    apply (abs_vector h hrank p).2.2
    · intro hmem
      have := hbelow1 p hmem
      omega
    · intro hmem
      have := (hbelow2 p hmem).1
      omega
  · intro p
    obtain ⟨h1, h2, h0⟩ := abs_vector (R := R) h hrank p
    by_cases hp1 : p ∈ pm1Positions shell rank
    · exact .inr (.inl (h1 hp1))
    · by_cases hp2 : p ∈ pm2At shell rank
      · exact .inr (.inr (h2 hp2))
      · exact .inl (h0 hp1 hp2)
  · rw [card_of_mem_iff (nodup_of_increasing hinc1) hbelow1 (mem_pm1_iff h hrank), hlen1]
  · rw [card_of_mem_iff (nodup_of_increasing hinc2) (fun p hp => (hbelow2 p hp).1) (mem_pm2_iff h hrank), hlen2]

end

section

variable {shell : SparseChallengeShell} {rank rank' R R' : ℕ} {w : ℕ}

/-- **Equal positions, equal ranks.** -/
theorem rank_of_positions (h : shell.Ok) (hrank : rank < shell.rankSpace) (hrank' : rank' < shell.rankSpace)
    (h1 : pm1Positions shell rank = pm1Positions shell rank') (h2 : pm2At shell rank = pm2At shell rank') : rank = rank' := by
  have hslots : pm2Slots shell rank = pm2Slots shell rank' := by
    unfold pm2At at h2
    rw [← h1] at h2
    exact map_injective_iff.2 (Nat.nth_injective (infinite_compl _)) h2
  have hmod : rank % shell.pm1RankSpace = rank' % shell.pm1RankSpace := by
    obtain ⟨-, -, hr⟩ := colexUnrank_spec shell.config.countPm1 (pm1_rank_lt h rank)
    obtain ⟨-, -, hr'⟩ := colexUnrank_spec shell.config.countPm1 (pm1_rank_lt h rank')
    rw [← hr, ← hr', reverse_injective h1]
  have hdiv : rank / shell.pm1RankSpace = rank' / shell.pm1RankSpace := by
    obtain ⟨-, -, hr⟩ := colexUnrank_spec shell.config.countPm2 (pm2_rank_lt h hrank)
    obtain ⟨-, -, hr'⟩ := colexUnrank_spec shell.config.countPm2 (pm2_rank_lt h hrank')
    rw [← hr, ← hr', reverse_injective hslots]
  rw [← Nat.div_add_mod rank shell.pm1RankSpace, ← Nat.div_add_mod rank' shell.pm1RankSpace, hmod, hdiv]

theorem coeffOf_injective {a i : ℕ} {s s' : Bool} (h : coeffOf a i s = coeffOf a i s') : s = s' := by
  unfold coeffOf at h
  cases s <;> cases s' <;> split at h <;> simp_all

theorem eq_of_low_high (hlow : ∀ i < w, R.testBit i = R'.testBit i) (hhigh : R / 2 ^ w = R' / 2 ^ w) : R = R' := by
  apply Nat.eq_of_testBit_eq
  intro i
  by_cases hi : i < w
  · exact hlow i hi
  · have hbit := congrArg (fun n => n.testBit (i - w)) hhigh
    simpa only [Nat.testBit_div_two_pow, Nat.sub_add_cancel (by omega : w ≤ i)] using hbit

/-- **Distinct integers in range have distinct challenge vectors.** -/
theorem vector_injective (h : shell.Ok) (hw : w = shell.config.countPm1 + shell.config.countPm2)
    (hrank : R / 2 ^ w < shell.rankSpace) (hrank' : R' / 2 ^ w < shell.rankSpace)
    (heq : (challengeAt shell (R / 2 ^ w) R).vector = (challengeAt shell (R' / 2 ^ w) R').vector) : R = R' := by
  have h1 : pm1Positions shell (R / 2 ^ w) = pm1Positions shell (R' / 2 ^ w) := by
    apply (pm1_spec h _).1.eq_of_mem_iff (pm1_spec h _).1
    intro p
    rw [mem_pm1_iff (R := R) h hrank, mem_pm1_iff (R := R') h hrank', heq]
  have h2 : pm2At shell (R / 2 ^ w) = pm2At shell (R' / 2 ^ w) := by
    apply (pm2At_spec h hrank).1.eq_of_mem_iff (pm2At_spec h hrank').1
    intro p
    rw [mem_pm2_iff (R := R) h hrank, mem_pm2_iff (R := R') h hrank', heq]
  have hhigh := rank_of_positions h hrank hrank' h1 h2
  apply eq_of_low_high _ hhigh
  intro i hi
  have hlen : (challengeAt shell (R / 2 ^ w) R).positions.length = w := by
    rw [challengeAt_positions, length_append, (pm1_spec h _).2.2, (pm2At_spec h hrank).2.2, hw]
  have hget : (challengeAt shell (R / 2 ^ w) R).positions[i]? = some ((challengeAt shell (R / 2 ^ w) R).positions[i]) :=
    getElem?_eq_getElem (by omega)
  have hget' : (challengeAt shell (R' / 2 ^ w) R').positions[i]? = some ((challengeAt shell (R / 2 ^ w) R).positions[i]) := by
    rw [challengeAt_positions, ← h1, ← h2]
    exact hget
  apply coeffOf_injective
  rw [← vector_place h hrank hget, ← vector_place h hrank' hget', heq]

end

section

variable {shell : SparseChallengeShell} {v : ℕ → ℤ}

/-- The positions of magnitude `m`, upwards. -/
def magnitudeAt (v : ℕ → ℤ) (d : ℕ) (m : ℤ) : List ℕ := (List.range d).filter fun p => |v p| = m

theorem magnitudeAt_spec (d : ℕ) (m : ℤ) : (magnitudeAt v d m).Pairwise (· < ·) ∧
    (∀ p, p ∈ magnitudeAt v d m ↔ p < d ∧ |v p| = m) ∧
    (magnitudeAt v d m).length = ((Finset.range d).filter fun p => |v p| = m).card := by
  refine ⟨pairwise_lt_range.filter _, ?_, ?_⟩
  · intro p
    simp [magnitudeAt]
  · unfold magnitudeAt
    rw [← toFinset_card_of_nodup ((nodup_range).filter _)]
    congr 1
    ext p
    simp

theorem exists_rank (h : shell.Ok) (hv : v ∈ shellVectors shell.ringD shell.config.countPm1 shell.config.countPm2) :
    ∃ rank < shell.rankSpace, pm1Positions shell rank = magnitudeAt v shell.ringD 1 ∧
      pm2At shell rank = magnitudeAt v shell.ringD 2 := by
  obtain ⟨-, -, hone, htwo⟩ := hv
  obtain ⟨hincA, hmemA, hlenA⟩ := magnitudeAt_spec (v := v) shell.ringD 1
  obtain ⟨hincB, hmemB, hlenB⟩ := magnitudeAt_spec (v := v) shell.ringD 2
  rw [hone] at hlenA
  rw [htwo] at hlenB
  set A := magnitudeAt v shell.ringD 1
  set B := magnitudeAt v shell.ringD 2
  have hnodupA := nodup_of_increasing hincA
  have hbelowA : ∀ p ∈ A, p < shell.ringD := fun p hp => ((hmemA p).1 hp).1
  have hBA : ∀ p ∈ B, p ∉ A := by
    intro p hp hpA
    have h1 := ((hmemA p).1 hpA).2
    have h2 := ((hmemB p).1 hp).2
    rw [h1] at h2
    norm_num at h2
  set slots := B.map (Nat.count fun x => x ∉ A) with hslots
  have hslotsInc : slots.Pairwise (· < ·) := by
    rw [hslots, pairwise_map]
    apply hincB.imp_of_mem
    intro p q hp hq hlt
    exact Nat.count_strict_mono (hBA p hp) hlt
  have hslotsBelow : ∀ s ∈ slots, s < shell.ringD - shell.config.countPm1 := by
    intro s hs
    obtain ⟨p, hp, rfl⟩ := mem_map.1 hs
    rw [← hlenA]
    exact count_compl_lt hnodupA hbelowA ((hmemB p).1 hp).1 (hBA p hp)
  have hdecA : DecreasingBelow shell.ringD A.reverse :=
    decreasingBelow_iff.2 ⟨pairwise_reverse.2 hincA, fun p hp => hbelowA p (mem_reverse.1 hp)⟩
  have hdecS : DecreasingBelow (shell.ringD - shell.config.countPm1) slots.reverse :=
    decreasingBelow_iff.2 ⟨pairwise_reverse.2 hslotsInc, fun p hp => hslotsBelow p (mem_reverse.1 hp)⟩
  have hrank1 := colexRank_lt hdecA
  have hrank2 := colexRank_lt hdecS
  have hunrank1 := colexUnrank_rank hdecA
  have hunrank2 := colexUnrank_rank hdecS
  rw [length_reverse, hlenA, ← h.pm1_eq] at hrank1
  rw [length_reverse, hslots, length_map, ← hslots, hlenB] at hrank2
  rw [length_reverse, hlenA] at hunrank1
  rw [length_reverse, hslots, length_map, ← hslots, hlenB] at hunrank2
  set r1 := colexRank A.reverse
  set r2 := colexRank slots.reverse
  have hmod : (shell.pm1RankSpace * r2 + r1) % shell.pm1RankSpace = r1 := by
    rw [Nat.mul_add_mod, Nat.mod_eq_of_lt hrank1]
  have hdiv : (shell.pm1RankSpace * r2 + r1) / shell.pm1RankSpace = r2 := by
    rw [Nat.mul_add_div (by omega), Nat.div_eq_of_lt hrank1, add_zero]
  have hfirst : pm1Positions shell (shell.pm1RankSpace * r2 + r1) = A := by
    rw [pm1Positions, hmod, hunrank1, reverse_reverse]
  refine ⟨shell.pm1RankSpace * r2 + r1, ?_, hfirst, ?_⟩
  · rw [h.space_eq, ← h.pm1_eq]
    calc shell.pm1RankSpace * r2 + r1 < shell.pm1RankSpace * r2 + shell.pm1RankSpace := by omega
      _ = shell.pm1RankSpace * (r2 + 1) := by ring
      _ ≤ _ := Nat.mul_le_mul_left _ hrank2
  · rw [pm2At, hfirst, pm2Slots, hdiv, hunrank2, reverse_reverse, hslots, map_map]
    conv_rhs => rw [← map_id B]
    apply map_congr_left
    intro p hp
    exact Nat.nth_count (hBA p hp)

theorem coeffOf_sign {a i : ℕ} {x : ℤ} (h : |x| = if i < a then 1 else 2) : coeffOf a i (decide (x < 0)) = x := by
  unfold coeffOf
  split at h
  · rcases abs_eq (by norm_num) |>.mp h with rfl | rfl <;> simp_all
  · rcases abs_eq (by norm_num) |>.mp h with rfl | rfl <;> simp_all

/-- **Every shell vector is the challenge of some integer**, below `2^K` when the width covers the ranks. -/
theorem vector_surjective {w : ℕ} (h : shell.Ok) (hfull : shell.rankSpace ≤ 2 ^ shell.rankBits)
    (hw : w = shell.config.countPm1 + shell.config.countPm2)
    (hv : v ∈ shellVectors shell.ringD shell.config.countPm1 shell.config.countPm2) :
    ∃ R < 2 ^ shell.candidateBits, R / 2 ^ w < shell.rankSpace ∧ (challengeAt shell (R / 2 ^ w) R).vector = v := by
  obtain ⟨rank, hrank, hpm1, hpm2⟩ := exists_rank h hv
  obtain ⟨hzero, hval, -, -⟩ := hv
  obtain ⟨-, hmem1, -⟩ := magnitudeAt_spec (v := v) shell.ringD 1
  obtain ⟨-, hmem2, -⟩ := magnitudeAt_spec (v := v) shell.ringD 2
  set positions := pm1Positions shell rank ++ pm2At shell rank with hpos
  have hlen1 : (pm1Positions shell rank).length = shell.config.countPm1 := (pm1_spec h rank).2.2
  have hlen : positions.length = w := by
    rw [hpos, length_append, hlen1, (pm2At_spec h hrank).2.2, hw]
  set signs := bitsValue (positions.map fun p => decide (v p < 0)) with hsigns
  have hsignslt : signs < 2 ^ w := by
    have := bitsValue_lt (positions.map fun p => decide (v p < 0))
    rwa [length_map, hlen] at this
  set R := 2 ^ w * rank + signs with hR
  have hdiv : R / 2 ^ w = rank := by
    rw [hR, Nat.mul_add_div (by positivity), Nat.div_eq_of_lt hsignslt, add_zero]
  have hlow : ∀ i (hi : i < positions.length), R.testBit i = decide (v positions[i] < 0) := by
    intro i hi
    rw [hR, Nat.testBit_two_pow_mul_add _ hsignslt, if_pos (by omega), hsigns, testBit_bitsValue]
    simp [hi]
  refine ⟨R, ?_, by rw [hdiv]; exact hrank, ?_⟩
  · rw [h.bits_eq, ← hw, pow_add]
    calc R < 2 ^ w * rank + 2 ^ w := by omega
      _ = 2 ^ w * (rank + 1) := by ring
      _ ≤ 2 ^ w * 2 ^ shell.rankBits := Nat.mul_le_mul_left _ (by omega)
      _ = 2 ^ shell.rankBits * 2 ^ w := by ring
  · rw [hdiv]
    funext p
    by_cases hp : p ∈ positions
    · obtain ⟨i, hi, rfl⟩ := getElem_of_mem hp
      rw [vector_place h hrank (getElem?_eq_getElem hi), hlow i hi]
      apply coeffOf_sign
      by_cases hia : i < shell.config.countPm1
      · have hmem : positions[i] ∈ pm1Positions shell rank := by
          simp only [hpos, getElem_append_left (by omega : i < (pm1Positions shell rank).length)]
          exact getElem_mem _
        rw [hpm1] at hmem
        rw [if_pos hia, ((hmem1 _).1 hmem).2]
      · have hmem : positions[i] ∈ pm2At shell rank := by
          simp only [hpos, getElem_append_right (by omega : (pm1Positions shell rank).length ≤ i)]
          exact getElem_mem _
        rw [hpm2] at hmem
        rw [if_neg hia, ((hmem2 _).1 hmem).2]
    · have hnot1 : p ∉ pm1Positions shell rank := fun hmem => hp (mem_append_left _ hmem)
      have hnot2 : p ∉ pm2At shell rank := fun hmem => hp (mem_append_right _ hmem)
      rw [(abs_vector h hrank p).2.2 hnot1 hnot2]
      rw [hpm1, hmem1] at hnot1
      rw [hpm2, hmem2] at hnot2
      by_cases hpd : p < shell.ringD
      · rcases hval p with h0 | h1 | h2
        · exact h0.symm
        · exact absurd ⟨hpd, h1⟩ hnot1
        · exact absurd ⟨hpd, h2⟩ hnot2
      · exact (hzero p (by omega)).symm

end

end Akita.SparseStream
