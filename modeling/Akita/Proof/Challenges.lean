import Akita.Proof.SparseDecode
import Akita.Spec.Challenges

/-!
# Deferred embeddings of challenges

A sampled set of challenges defers its embedding to a stride, and every other set is embedded entry by entry. The state
that is kept says that the stride and the dimension of the family agree, that the product of a position and the stride
does not wrap, and that the cache holds what it would be filled with. So each operation acts on what `as_slice` gives:
an embedding scales every entry, a selection concatenates the blocks of the claims, and an evaluation is the sum over
the entries.

Main results: `embedSubringPositions_spec`, `selectClaims_iff`, `evalsAtPows_iff`, `embedding_transparent`.
-/

namespace Akita.Challenge

open Lib List
open SparseStream (SparseChallenge SparseChallengeConfig SparseChallengeShell SparseChallengeStream)

variable {t : ℕ × ℤ} {terms : List (ℕ × ℤ)} {c : SparseChallenge} {b : ℕ} {config : SparseChallengeConfig}

/-! ## One challenge -/

/-- The challenges of dimension `d`. -/
structure Valid (d : ℕ) (c : SparseChallenge) : Prop where
  length_eq : c.positions.length = c.coeffs.length
  below : ∀ p ∈ c.positions, p < d
  nodup : c.positions.Nodup
  nonzero : ∀ x ∈ c.coeffs, x ≠ 0

/-- The challenges of a family: the coefficients are ±1, or also ±2 when the family has any. -/
structure InFamily (d : ℕ) (config : SparseChallengeConfig) (c : SparseChallenge) : Prop extends Valid d c where
  small : ∀ x ∈ c.coeffs, |x| = 1 ∨ |x| = 2
  ones : config.countPm2 = 0 → ∀ x ∈ c.coeffs, |x| = 1

/-- The embedding of a challenge: position `p` becomes `p * stride`. -/
def scale (stride : ℕ) (c : SparseChallenge) : SparseChallenge := ⟨c.positions.map (· * stride), c.coeffs⟩

section

variable {d stride : ℕ} {config : SparseChallengeConfig} {c : SparseChallenge}

theorem scale_one (c : SparseChallenge) : scale 1 c = c := by simp [scale]

theorem scale_scale (a b : ℕ) (c : SparseChallenge) : scale b (scale a c) = scale (a * b) c := by
  simp [scale, Function.comp_def, mul_assoc]

theorem Valid.scale (h : Valid d c) (hs : 0 < stride) : Valid (d * stride) (scale stride c) := by
  refine ⟨by simpa [Challenge.scale] using h.length_eq, ?_, ?_, h.nonzero⟩
  · intro p hp
    obtain ⟨q, hq, rfl⟩ := mem_map.1 hp
    exact Nat.mul_lt_mul_of_pos_right (h.below q hq) hs
  · exact h.nodup.map fun p q heq => Nat.eq_of_mul_eq_mul_right hs heq

theorem InFamily.scale (h : InFamily d config c) (hs : 0 < stride) : InFamily (d * stride) config (scale stride c) :=
  ⟨h.toValid.scale hs, h.small, h.ones⟩

theorem mem_terms (ht : t ∈ c.positions.zip c.coeffs) : t.1 ∈ c.positions ∧ t.2 ∈ c.coeffs := of_mem_zip ht

theorem terms_fst (h : c.positions.length = c.coeffs.length) : (c.positions.zip c.coeffs).map Prod.fst = c.positions :=
  map_fst_zip (by omega)

theorem terms_snd (h : c.positions.length = c.coeffs.length) : (c.positions.zip c.coeffs).map Prod.snd = c.coeffs :=
  map_snd_zip (by omega)

theorem terms_scale (stride : ℕ) (c : SparseChallenge) :
    (scale stride c).positions.zip (scale stride c).coeffs = (c.positions.zip c.coeffs).map fun t => (t.1 * stride, t.2) := by
  rw [scale, zip_map_left]
  rfl

end

section

structure Marks (d : ℕ) (seen : List ℕ) (done : List ℕ) : Prop where
  length_eq : seen.length = (d + 63) / 64
  bits : ∀ i < d, (seen.getD (i / 64) 0).testBit (i % 64) = decide (i ∈ done)

variable {d : ℕ} {seen done : List ℕ}

theorem marks_nil (d : ℕ) : Marks d (replicate ((d + 63) / 64) 0) [] := by
  refine ⟨length_replicate, ?_⟩
  intro i hi
  rw [getD_replicate _ (by omega)]
  simp

theorem Marks.word (h : Marks d seen done) {i : ℕ} (hi : i < d) : seen[i / 64]? = some (seen.getD (i / 64) 0) := by
  have hlen := h.length_eq
  rw [getD_eq_getElem?_getD, getElem?_eq_getElem (by omega)]
  rfl

theorem Marks.set (h : Marks d seen done) (i : ℕ) :
    Marks d (seen.set (i / 64) (seen.getD (i / 64) 0 ||| 1 <<< (i % 64))) (i :: done) := by
  have hlen := h.length_eq
  refine ⟨by rw [length_set, hlen], ?_⟩
  intro j hj
  have hold := h.bits j hj
  by_cases hword : j / 64 = i / 64
  · rw [hword] at hold ⊢
    have hin : i / 64 < seen.length := by omega
    rw [getD_eq_getElem?_getD, getElem?_set_self hin, Option.getD_some, Nat.testBit_or, hold, Nat.shiftLeft_eq,
      one_mul, Nat.testBit_two_pow]
    have hbit : (i % 64 = j % 64) ↔ j = i := by omega
    simp only [hbit, mem_cons]
    by_cases hji : j = i <;> simp [hji]
  · have hne : j ≠ i := fun heq => hword (by rw [heq])
    rw [getD_eq_getElem?_getD, getElem?_set_ne (Ne.symm hword), ← getD_eq_getElem?_getD, hold]
    simp [hne]

/-- One term is accepted when it is in range, new and nonzero, and is then marked. -/
theorem validateTerm_iff (h : Marks d seen done) {seen' : List ℕ} : validateTerm d seen t = .ok seen' ↔
    (t.1 < d ∧ t.2 ≠ 0 ∧ t.1 ∉ done) ∧ seen' = seen.set (t.1 / 64) (seen.getD (t.1 / 64) 0 ||| 1 <<< (t.1 % 64)) := by
  unfold validateTerm
  simp only [result_ok, not_le]
  constructor
  · rintro ⟨hlt, hne, word, hword, hbit, rfl⟩
    rw [h.word hlt] at hword
    cases hword
    rw [h.bits _ hlt] at hbit
    exact ⟨⟨hlt, hne, by simpa using hbit⟩, rfl⟩
  · rintro ⟨⟨hlt, hne, hnew⟩, rfl⟩
    exact ⟨hlt, hne, _, h.word hlt, by rw [h.bits _ hlt]; simpa using hnew, rfl⟩

theorem validateTerms_iff : ∀ {seen done : List ℕ}, Marks d seen done →
    ((∃ seen', terms.foldlM (validateTerm d) seen = .ok seen') ↔
      (∀ t ∈ terms, t.1 < d ∧ t.2 ≠ 0 ∧ t.1 ∉ done) ∧ (terms.map Prod.fst).Nodup) := by
  induction terms with
  | nil =>
    intro seen done _
    simp [pure, Except.pure]
  | cons t terms ih =>
    intro seen done h
    simp only [foldlM_cons, bind_eq_ok, validateTerm_iff h, map_cons, nodup_cons, forall_mem_cons]
    constructor
    · rintro ⟨seen', _, ⟨ht, rfl⟩, hrest⟩
      obtain ⟨hterms, hnodup⟩ := (ih (h.set t.1)).1 ⟨seen', hrest⟩
      refine ⟨⟨ht, fun u hu => ⟨(hterms u hu).1, (hterms u hu).2.1, fun hd => (hterms u hu).2.2 (by simp [hd])⟩⟩, ?_, hnodup⟩
      intro hmem
      obtain ⟨u, hu, heq⟩ := mem_map.1 hmem
      exact (hterms u hu).2.2 (by simp [heq])
    · rintro ⟨⟨ht, hterms⟩, hnew, hnodup⟩
      have hrest := (ih (h.set t.1)).2 ⟨fun u hu => ⟨(hterms u hu).1, (hterms u hu).2.1, ?_⟩, hnodup⟩
      · obtain ⟨seen', hseen'⟩ := hrest
        exact ⟨seen', _, ⟨ht, rfl⟩, hseen'⟩
      · intro hd
        rcases mem_cons.1 hd with heq | hd
        · exact hnew (heq ▸ mem_map_of_mem hu)
        · exact (hterms u hu).2.2 hd

/-- **Validation** accepts the challenges of the dimension. -/
theorem validateDyn_iff : validateDyn c d = .ok () ↔ Valid d c := by
  unfold validateDyn
  simp only [result_ok, and_true]
  constructor
  · rintro ⟨hlen, hrun⟩
    obtain ⟨hterms, hnodup⟩ := (validateTerms_iff (marks_nil d)).1 hrun
    rw [terms_fst hlen] at hnodup
    refine ⟨hlen, ?_, hnodup, ?_⟩
    · intro p hp
      rw [← terms_fst hlen] at hp
      obtain ⟨t, ht, rfl⟩ := mem_map.1 hp
      exact (hterms t ht).1
    · intro x hx
      rw [← terms_snd hlen] at hx
      obtain ⟨t, ht, rfl⟩ := mem_map.1 hx
      exact (hterms t ht).2.1
  · intro h
    refine ⟨h.length_eq, (validateTerms_iff (marks_nil d)).2 ⟨fun t ht => ?_, ?_⟩⟩
    · exact ⟨h.below _ (mem_terms ht).1, h.nonzero _ (mem_terms ht).2, not_mem_nil⟩
    · rw [terms_fst h.length_eq]
      exact h.nodup

end

section

variable {F E : Type} [Field F] [Field E] [Algebra F E] {𝔰 : SignedSums F E} {c : SparseChallenge} {powers : List E}

/-- The documented behaviour of the signed sum and of the mixed product. -/
structure SignedSums.Lawful (𝔰 : SignedSums F E) : Prop where
  signedSum_eq : ∀ terms, 𝔰.signedSum terms = (terms.map fun t => if t.2 then -t.1 else t.1).sum
  mulBase_eq : ∀ v c, 𝔰.mulBase v c = algebraMap F E c * v

/-- The value of a challenge at a table of powers. -/
def entrySum (powers : List E) (c : SparseChallenge) : E :=
  ((c.positions.zip c.coeffs).map fun t => (t.2 : E) * powers.getD t.1 0).sum

theorem power_eq {position : ℕ} (h : position < powers.length) : power powers position = .ok (powers.getD position 0) := by
  rw [power, okOr_eq_ok, getElem?_eq_getElem h, getD_eq_getElem _ _ h]

theorem checkTerms_iff {d : ℕ} : ∀ {b b' : Bool}, terms.foldlM (checkTerm d) b = .ok b' ↔
    (∀ t ∈ terms, t.1 < d ∧ t.2 ≠ 0) ∧ b' = (b && terms.all fun t => decide (t.2 ∈ [-2, -1, 1, 2])) := by
  induction terms with
  | nil =>
    intro b b'
    simp [pure, Except.pure, eq_comm]
  | cons t terms ih =>
    intro b b'
    simp only [foldlM_cons, checkTerm, result_ok, not_le, forall_mem_cons, all_cons]
    constructor
    · rintro ⟨_, ⟨hlt, hne, rfl⟩, hrest⟩
      obtain ⟨hterms, rfl⟩ := ih.1 hrest
      exact ⟨⟨⟨hlt, hne⟩, hterms⟩, by rw [Bool.and_assoc]⟩
    · rintro ⟨⟨⟨hlt, hne⟩, hterms⟩, rfl⟩
      exact ⟨_, ⟨hlt, hne, rfl⟩, ih.2 ⟨hterms, by rw [Bool.and_assoc]⟩⟩

theorem sum_replicate_signed (v : E) (x : ℤ) :
    ((replicate x.natAbs (v, decide (x < 0))).map fun t => if t.2 then -t.1 else t.1).sum = (x : E) * v := by
  rw [map_replicate, sum_replicate, nsmul_eq_mul]
  rcases lt_or_ge x 0 with hneg | hpos
  · rw [if_pos (by simpa using hneg)]
    have habs : ((x.natAbs : ℕ) : E) = -(x : E) := by
      rw [← Int.cast_natCast, Int.natCast_natAbs, abs_of_neg hneg, Int.cast_neg]
    rw [habs, neg_mul_neg]
  · rw [if_neg (by simpa using hpos)]
    have habs : ((x.natAbs : ℕ) : E) = (x : E) := by
      rw [← Int.cast_natCast, Int.natCast_natAbs, abs_of_nonneg hpos]
    rw [habs]

theorem accumulateSmallSigned_eq (h𝔰 : 𝔰.Lawful) (acc v : E) (x : ℤ) : accumulateSmallSigned 𝔰 acc v x = acc + (x : E) * v := by
  unfold accumulateSmallSigned
  split_ifs with h1 h2 h3 h4
  · rw [h1, Int.cast_one, one_mul]
  · rw [h2, Int.cast_neg, Int.cast_one, neg_one_mul, sub_eq_add_neg]
  · rw [h3, Int.cast_ofNat, two_mul, add_assoc]
  · rw [h4, Int.cast_neg, Int.cast_ofNat, neg_mul, two_mul]
    ring
  · rw [h𝔰.mulBase_eq, map_intCast]

/-- **Evaluation of one challenge**: the sum over its entries, when they are in range and nonzero. -/
theorem sparseEvalAtPows_iff (h𝔰 : 𝔰.Lawful) {e : E} : sparseEvalAtPows c 𝔰 powers = .ok e ↔
    (c.positions.length = c.coeffs.length ∧ ∀ t ∈ c.positions.zip c.coeffs, t.1 < powers.length ∧ t.2 ≠ 0) ∧
      e = entrySum powers c := by
  unfold sparseEvalAtPows
  simp only [result_ok, checkTerms_iff]
  set terms := c.positions.zip c.coeffs with hterms
  -- whichever of the two sums runs, it ends in the same value
  have hrun : (∀ t ∈ terms, t.1 < powers.length ∧ t.2 ≠ 0) → ∀ b : Bool, (if b then do
      let signed ← terms.mapM fun term => do
        return replicate term.2.natAbs ((← power powers term.1), decide (term.2 < 0))
      return 𝔰.signedSum signed.flatten
    else terms.foldlM (fun acc term => do return accumulateSmallSigned 𝔰 acc (← power powers term.1) term.2) 0) =
      .ok (entrySum powers c) := by
    intro hin b
    cases b with
    | true =>
      have hsigned : (terms.mapM fun term => do
          return replicate term.2.natAbs ((← power powers term.1), decide (term.2 < 0))) =
            (.ok (terms.map fun t => replicate t.2.natAbs (powers.getD t.1 0, decide (t.2 < 0))) : Result _) := by
        apply mapM_ok_of_forall
        intro t ht
        rw [power_eq (hin t ht).1, ok_bind]
        rfl
      rw [if_pos rfl, hsigned, ok_bind, pure_eq_ok, h𝔰.signedSum_eq, map_flatten, sum_flatten, map_map,
        map_map, entrySum]
      congr 1
      apply map_congr_left
      intro t _
      exact sum_replicate_signed _ _
    | false =>
      have hstep : ∀ (made : List (ℕ × ℤ)) t rest acc, terms = made ++ t :: rest → True → ∃ acc',
          (do return accumulateSmallSigned 𝔰 acc (← power powers t.1) t.2 : Result E) = .ok acc' ∧ True ∧
            id acc' = id acc + (t.2 : E) * powers.getD t.1 0 := by
        intro made t rest acc hsplit _
        refine ⟨acc + (t.2 : E) * powers.getD t.1 0, ?_, trivial, rfl⟩
        rw [power_eq (hin t (by simp [hsplit])).1, ok_bind, accumulateSmallSigned_eq h𝔰]
        rfl
      obtain ⟨e, he, -, hsum⟩ := foldlM_runs hstep trivial
      rw [if_neg (by simp), he]
      congr 1
      exact hsum.trans (zero_add _)
  constructor
  · rintro ⟨hlen, b, ⟨hin, -⟩, he⟩
    rw [hrun hin] at he
    exact ⟨⟨hlen, hin⟩, (Except.ok.inj he).symm⟩
  · rintro ⟨⟨hlen, hin⟩, rfl⟩
    exact ⟨hlen, _, ⟨hin, rfl⟩, hrun hin _⟩

end

namespace Challenges

variable {challenges : List SparseChallenge} {claims : List ℕ} {d stride ambient a claim : ℕ} {parallel : Bool}
  {m₁ m₂ m₃ : Challenges}

/-! ## The invariant -/

/-- What every operation keeps: the deferred stride belongs to the family, whose dimension bounds the embedded
positions, and the cache holds what it would be filled with. -/
structure Coherent (m : Challenges) : Prop where
  count_eq : m.challenges.length = m.numLiveBlocksPerClaim * m.numClaims
  count_lt : m.numLiveBlocksPerClaim * m.numClaims < 2 ^ usizeBits
  cache : ∀ slice, m.materialized = some slice → slice = m.materialize
  stride_pos : 0 < m.embeddingStride
  eager : m.sampledFamily = none → m.embeddingStride = 1
  family : ∀ f, m.sampledFamily = some f → ∃ d₀, f.1 = d₀ * m.embeddingStride ∧ f.1 < 2 ^ usizeBits ∧
    (m.embeddingStride ≠ 1 → f.1 ≤ 2 ^ 32) ∧ ∀ c ∈ m.challenges, InFamily d₀ f.2 c
  word : ∀ c ∈ m.asSlice, ∀ p ∈ c.positions, p < 2 ^ 32

variable {m : Challenges}

section

variable (h : m.Coherent)

include h

theorem Coherent.materialize_eq (hstride : m.embeddingStride ≠ 1) :
    m.materialize = m.challenges.map (scale m.embeddingStride) := by
  cases hfam : m.sampledFamily with
  | none => exact absurd (h.eager hfam) hstride
  | some f =>
    obtain ⟨d₀, hd, -, hle, hin⟩ := h.family f hfam
    apply map_congr_left
    intro c hc
    rw [scale, SparseChallenge.mk.injEq]
    refine ⟨map_congr_left fun p hp => ?_, rfl⟩
    have hlt : p * m.embeddingStride < 2 ^ 32 := by
      have hbelow := Nat.mul_lt_mul_of_pos_right ((hin c hc).below p hp) h.stride_pos
      have hsmall := hle hstride
      omega
    rw [wrapping_of_lt (hlt.trans (by norm_num [usizeBits])), wrapping_of_lt hlt]

/-- **The challenges a reader sees** are the stored ones, scaled by the stride. -/
theorem Coherent.asSlice_eq : m.asSlice = m.challenges.map (scale m.embeddingStride) := by
  unfold asSlice
  split
  · rename_i hone
    rw [hone, funext scale_one, map_id']
  · rename_i hstride
    rw [← h.materialize_eq hstride]
    cases hcache : m.materialized with
    | none => rfl
    | some slice => exact h.cache slice hcache

theorem Coherent.length_asSlice : m.asSlice.length = m.numLiveBlocksPerClaim * m.numClaims := by
  rw [h.asSlice_eq, length_map, h.count_eq]

theorem Coherent.inFamily {f : ℕ × SparseChallengeConfig} (hf : m.sampledFamily = some f) :
    ∀ c ∈ m.asSlice, InFamily f.1 f.2 c := by
  obtain ⟨d₀, hd, -, -, hin⟩ := h.family f hf
  rw [h.asSlice_eq, hd]
  intro c hc
  obtain ⟨c₀, hc₀, rfl⟩ := mem_map.1 hc
  exact (hin c₀ hc₀).scale h.stride_pos

/-- Reading fills the cache and changes nothing else. -/
theorem Coherent.read : m.read.Coherent ∧ m.read.asSlice = m.asSlice := by
  unfold Challenges.read
  split
  · exact ⟨h, rfl⟩
  · rename_i hstride
    have hfill : m.materialized.getD m.materialize = m.materialize := by
      cases hcache : m.materialized with
      | none => rfl
      | some slice => exact h.cache slice hcache
    have hslice : asSlice { m with materialized := some (m.materialized.getD m.materialize) } = m.asSlice := by
      unfold asSlice
      rw [if_neg hstride, if_neg hstride]
      rfl
    refine ⟨⟨h.count_eq, h.count_lt, ?_, h.stride_pos, h.eager, h.family, fun c hc => h.word c (hslice ▸ hc)⟩, hslice⟩
    intro slice hcache
    rw [← Option.some.inj hcache, hfill]
    rfl

end

theorem fromSparse_iff {blocks claims : ℕ} : fromSparse challenges blocks claims = .ok m ↔
    (blocks * claims < 2 ^ usizeBits ∧ challenges.length = blocks * claims) ∧
      m = ⟨challenges, blocks, claims, none, 1, none⟩ := by
  unfold fromSparse
  simp only [result_ok, checked_some]
  constructor
  · rintro ⟨_, ⟨hlt, rfl⟩, hlen, rfl⟩
    exact ⟨⟨hlt, hlen⟩, rfl⟩
  · rintro ⟨⟨hlt, hlen⟩, rfl⟩
    exact ⟨_, ⟨hlt, rfl⟩, hlen, rfl⟩

theorem coherent_mk {blocks claims : ℕ} {family : Option (ℕ × SparseChallengeConfig)} (hlt : blocks * claims < 2 ^ usizeBits)
    (hlen : challenges.length = blocks * claims)
    (hfam : ∀ f, family = some f → f.1 < 2 ^ usizeBits ∧ ∀ c ∈ challenges, InFamily f.1 f.2 c)
    (hword : ∀ c ∈ challenges, ∀ p ∈ c.positions, p < 2 ^ 32) : Coherent ⟨challenges, blocks, claims, family, 1, none⟩ := by
  refine ⟨hlen, hlt, by simp, Nat.one_pos, fun _ => rfl, ?_, hword⟩
  intro f hf
  obtain ⟨hd, hin⟩ := hfam f hf
  exact ⟨f.1, (mul_one _).symm, hd, fun hne => absurd rfl hne, hin⟩

/-! ## Embedding -/

/-- Whether the set is known to be of a family of dimension `d`. -/
def sampledAt (m : Challenges) (d : ℕ) : Bool := m.sampledFamily.any fun family => decide (family.1 = d)

theorem sampledAt_iff : m.sampledAt d = true ↔ ∃ config, m.sampledFamily = some (d, config) := by
  unfold sampledAt
  cases m.sampledFamily with
  | none => simp
  | some f =>
    simp only [Option.any_some, decide_eq_true_eq, Option.some.injEq]
    constructor
    · rintro rfl
      exact ⟨f.2, rfl⟩
    · rintro ⟨config, rfl⟩
      rfl

theorem embedPosition_iff {p q : ℕ} :
    embedPosition stride ambient p = .ok q ↔ (p * stride < ambient ∧ p * stride < 2 ^ 32) ∧ q = p * stride := by
  unfold embedPosition
  rw [okOr_eq_ok, Option.filter_eq_some_iff, checkedMul_eq_some, decide_eq_true_eq]
  constructor
  · rintro ⟨⟨-, rfl⟩, hq⟩
    exact ⟨hq, rfl⟩
  · rintro ⟨hq, rfl⟩
    exact ⟨⟨hq.2.trans (by norm_num [usizeBits]), rfl⟩, hq⟩

theorem embed_iff {sampled : Bool} {c' : SparseChallenge} : embed sampled d stride ambient c = .ok c' ↔
    ((sampled = false → Valid d c) ∧ ∀ p ∈ c.positions, p * stride < ambient ∧ p * stride < 2 ^ 32) ∧ c' = scale stride c := by
  have hposs : ∀ positions, c.positions.mapM (embedPosition stride ambient) = .ok positions ↔
      (∀ p ∈ c.positions, p * stride < ambient ∧ p * stride < 2 ^ 32) ∧ positions = c.positions.map (· * stride) :=
    fun positions => mapM_iff_forall fun p _ q => embedPosition_iff
  have hrest : (c.positions.mapM (embedPosition stride ambient) >>= fun positions => pure ⟨positions, c.coeffs⟩) = (.ok c' : Result _) ↔
      (∀ p ∈ c.positions, p * stride < ambient ∧ p * stride < 2 ^ 32) ∧ c' = scale stride c := by
    simp only [result_ok, hposs]
    constructor
    · rintro ⟨_, ⟨hp, rfl⟩, rfl⟩
      exact ⟨hp, rfl⟩
    · rintro ⟨hp, rfl⟩
      exact ⟨_, ⟨hp, rfl⟩, rfl⟩
  unfold embed
  cases sampled with
  | true =>
    rw [if_neg (by simp)]
    refine hrest.trans ?_
    simp
  | false =>
    rw [if_pos (by simp), bind_eq_ok]
    simp only [exists_unit, validateDyn_iff, hrest, true_implies]
    tauto

/-- The size of the eager work, as the parallel build bounds it. -/
def embedTerms (source : List SparseChallenge) : ℕ :=
  source.length * (source.head?.map fun challenge => challenge.positions.length).getD 0

theorem embedWork_iff {source : List SparseChallenge} :
    embedWork parallel source = .ok () ↔ (parallel = true → embedTerms source < 2 ^ usizeBits) := by
  unfold embedWork embedTerms
  cases parallel with
  | true =>
    rw [if_pos rfl, bind_eq_ok]
    simp only [result_ok, checked_some, true_implies]
    exact ⟨fun ⟨_, ⟨hlt, _⟩, _⟩ => hlt, fun hlt => ⟨_, ⟨hlt, rfl⟩, trivial⟩⟩
  | false => simp

variable {m' : Challenges}

structure Embeds (m : Challenges) (parallel : Bool) (d stride ambient : ℕ) : Prop where
  dimension_pos : 0 < d
  stride_pos : 0 < stride
  ambient_eq : d * stride = ambient
  ambient_lt : ambient < 2 ^ usizeBits
  valid : ∀ c ∈ m.asSlice, Valid d c
  small : ∀ c ∈ m.asSlice, ∀ p ∈ c.positions, p * stride < 2 ^ 32
  work : stride ≠ 1 → ¬ (m.sampledAt d = true ∧ ambient ≤ 2 ^ 32) → parallel = true → embedTerms m.asSlice < 2 ^ usizeBits

def embeddedFamily (m : Challenges) (d stride ambient : ℕ) : Option (ℕ × SparseChallengeConfig) :=
  if stride = 1 then m.sampledFamily
  else if m.sampledAt d then m.sampledFamily.map fun family => (ambient, family.2) else none

structure Embedded (m : Challenges) (d stride ambient : ℕ) (m' : Challenges) : Prop where
  coherent : m'.Coherent
  asSlice_eq : m'.asSlice = m.asSlice.map (scale stride)
  blocks_eq : m'.numLiveBlocksPerClaim = m.numLiveBlocksPerClaim
  claims_eq : m'.numClaims = m.numClaims
  family_eq : m'.sampledFamily = m.embeddedFamily d stride ambient

theorem Coherent.defer (h : m.Coherent) (hs : m.sampledAt d = true) (hd : 0 < d) (hstride : 0 < stride) (hone : stride ≠ 1)
    (hamb : d * stride = ambient) (hle : ambient ≤ 2 ^ 32) :
    m.embeddingStride * stride < 2 ^ usizeBits ∧ Embedded m d stride ambient { m with
      sampledFamily := m.sampledFamily.map fun family => (ambient, family.2)
      embeddingStride := m.embeddingStride * stride
      materialized := none } := by
  obtain ⟨config, hfam⟩ := sampledAt_iff.1 hs
  obtain ⟨d₀, hd₀, -, -, hin⟩ := h.family _ hfam
  dsimp only at hd₀ hin
  have hprod : ambient = d₀ * (m.embeddingStride * stride) := by rw [← hamb, hd₀, mul_assoc]
  have hd₀pos : 0 < d₀ := Nat.pos_of_mul_pos_right (hd₀ ▸ hd)
  have hlt : m.embeddingStride * stride < 2 ^ usizeBits :=
    (Nat.le_mul_of_pos_left _ hd₀pos).trans_lt (hprod ▸ hle.trans_lt (by norm_num [usizeBits]))
  have hne : m.embeddingStride * stride ≠ 1 := fun heq => hone (Nat.eq_one_of_mul_eq_one_left heq)
  have hslice : asSlice { m with
      sampledFamily := m.sampledFamily.map fun family => (ambient, family.2)
      embeddingStride := m.embeddingStride * stride
      materialized := none } = m.asSlice.map (scale stride) := by
    rw [h.asSlice_eq, map_map, asSlice, if_neg hne, Option.getD_none]
    apply map_congr_left
    intro c hc
    rw [Function.comp_apply, scale_scale, scale, SparseChallenge.mk.injEq]
    refine ⟨map_congr_left fun p hp => ?_, rfl⟩
    have hbelow := Nat.mul_lt_mul_of_pos_right ((hin c hc).below p hp) (Nat.mul_pos h.stride_pos hstride)
    have hlt32 : p * (m.embeddingStride * stride) < 2 ^ 32 := by omega
    rw [wrapping_of_lt (hlt32.trans (by norm_num [usizeBits])), wrapping_of_lt hlt32]
  refine ⟨hlt, ⟨h.count_eq, h.count_lt, by simp, Nat.mul_pos h.stride_pos hstride, ?_, ?_, ?_⟩, hslice, rfl, rfl, ?_⟩
  · intro hnone
    simp [hfam] at hnone
  · intro f hf
    rw [hfam, Option.map_some, Option.some.injEq] at hf
    subst hf
    exact ⟨d₀, hprod, hle.trans_lt (by norm_num [usizeBits]), fun _ => hle, hin⟩
  · rw [hslice]
    intro c' hc' p' hp'
    obtain ⟨c, hc, rfl⟩ := mem_map.1 hc'
    obtain ⟨p, hp, rfl⟩ := mem_map.1 hp'
    have hbelow := Nat.mul_lt_mul_of_pos_right ((h.inFamily hfam c hc).below p hp) hstride
    dsimp only at hbelow ⊢
    omega
  · rw [embeddedFamily, if_neg hone, if_pos hs]

theorem Coherent.eager_iff (h : m.Coherent) (parallel : Bool) (hstride : 0 < stride) (hone : stride ≠ 1)
    (hamb : d * stride = ambient) (hlt : ambient < 2 ^ usizeBits) :
    (∀ m', m.embedEager parallel (m.sampledAt d) d stride ambient = .ok m' → Embedded m d stride ambient m') ∧
      ((∃ m', m.embedEager parallel (m.sampledAt d) d stride ambient = .ok m') ↔
        (parallel = true → embedTerms m.asSlice < 2 ^ usizeBits) ∧ (∀ c ∈ m.asSlice, Valid d c) ∧
          ∀ c ∈ m.asSlice, ∀ p ∈ c.positions, p * stride < 2 ^ 32) := by
  have hvalid : m.sampledAt d = true → ∀ c ∈ m.asSlice, Valid d c := by
    intro hs
    obtain ⟨config, hfam⟩ := sampledAt_iff.1 hs
    exact fun c hc => (h.inFamily hfam c hc).toValid
  have hentries : ∀ embedded, m.asSlice.mapM (embed (m.sampledAt d) d stride ambient) = .ok embedded ↔
      (∀ c ∈ m.asSlice, Valid d c ∧ ∀ p ∈ c.positions, p * stride < 2 ^ 32) ∧ embedded = m.asSlice.map (scale stride) := by
    intro embedded
    apply mapM_iff_forall
    intro c hc c'
    rw [embed_iff]
    refine and_congr_left fun _ => ⟨fun ⟨hv, hp⟩ => ?_, fun ⟨hv, hp⟩ => ⟨fun _ => hv, fun p hmem => ⟨?_, hp p hmem⟩⟩⟩
    · refine ⟨?_, fun p hmem => (hp p hmem).2⟩
      cases hs : m.sampledAt d with
      | true => exact hvalid hs c hc
      | false => exact hv hs
    · rw [← hamb]
      exact Nat.mul_lt_mul_of_pos_right (hv.below p hmem) hstride
  have hlen : (m.asSlice.map (scale stride)).length = m.numLiveBlocksPerClaim * m.numClaims := by
    rw [length_map, h.length_asSlice]
  unfold embedEager
  simp only [result_ok, embedWork_iff, hentries, fromSparse_iff]
  constructor
  · rintro m' ⟨-, _, ⟨hin, rfl⟩, _, ⟨-, rfl⟩, rfl⟩
    have hword : ∀ c ∈ m.asSlice.map (scale stride), ∀ p ∈ c.positions, p < 2 ^ 32 := by
      intro c' hc' p' hp'
      obtain ⟨c, hc, rfl⟩ := mem_map.1 hc'
      obtain ⟨p, hp, rfl⟩ := mem_map.1 hp'
      exact (hin c hc).2 p hp
    cases hs : m.sampledAt d with
    | true =>
      obtain ⟨config, hfam⟩ := sampledAt_iff.1 hs
      rw [if_pos rfl]
      refine ⟨coherent_mk h.count_lt hlen ?_ hword, rfl, rfl, rfl, by rw [embeddedFamily, if_neg hone, if_pos hs]⟩
      intro f hf
      rw [hfam, Option.map_some, Option.some.injEq] at hf
      subst hf
      refine ⟨hlt, fun c' hc' => ?_⟩
      obtain ⟨c, hc, rfl⟩ := mem_map.1 hc'
      rw [← hamb]
      exact (h.inFamily hfam c hc).scale hstride
    | false =>
      rw [if_neg (by simp)]
      exact ⟨coherent_mk h.count_lt hlen (by simp) hword, rfl, rfl, rfl,
        by rw [embeddedFamily, if_neg hone, if_neg (by simp [hs])]⟩
  · constructor
    · rintro ⟨_, hwork, _, ⟨hin, rfl⟩, -⟩
      exact ⟨hwork, fun c hc => (hin c hc).1, fun c hc => (hin c hc).2⟩
    · rintro ⟨hwork, hvalid, hsmall⟩
      exact ⟨_, hwork, _, ⟨fun c hc => ⟨hvalid c hc, hsmall c hc⟩, rfl⟩, _, ⟨⟨h.count_lt, hlen⟩, rfl⟩, rfl⟩

theorem Coherent.valid_of_sampledAt (h : m.Coherent) (hs : m.sampledAt d = true) : ∀ c ∈ m.asSlice, Valid d c := by
  obtain ⟨config, hfam⟩ := sampledAt_iff.1 hs
  exact fun c hc => (h.inFamily hfam c hc).toValid

theorem Coherent.unmoved_iff (h : m.Coherent) : (if ¬ m.sampledAt d = true then do
    m.asSlice.forM fun challenge => validateDyn challenge d
    pure m
  else pure m) = (.ok m' : Result Challenges) ↔ (∀ c ∈ m.asSlice, Valid d c) ∧ m = m' := by
  by_cases hs : m.sampledAt d = true
  · rw [if_neg (not_not.2 hs), pure_eq_ok]
    exact ⟨fun heq => ⟨h.valid_of_sampledAt hs, heq⟩, fun hin => hin.2⟩
  · rw [if_pos hs]
    simp only [result_ok, forM_eq_ok, validateDyn_iff]

theorem dimensions_iff : (¬ (d = 0 ∨ stride = 0 ∨ checkedMul usizeBits d stride ≠ some ambient)) ↔
      0 < d ∧ 0 < stride ∧ d * stride = ambient ∧ ambient < 2 ^ usizeBits := by
  rw [not_or, not_or, not_not, checkedMul_eq_some]
  constructor
  · rintro ⟨hd, hs, hlt, rfl⟩
    exact ⟨by omega, by omega, rfl, hlt⟩
  · rintro ⟨hd, hs, rfl, hlt⟩
    exact ⟨by omega, by omega, hlt, rfl⟩

/-- **An embedding scales every challenge**, whichever arm it takes. -/
theorem embedSubringPositions_spec (h : m.Coherent) : (∀ m', m.embedSubringPositions parallel d stride ambient = .ok m' →
      Embeds m parallel d stride ambient ∧ Embedded m d stride ambient m') ∧
    (Embeds m parallel d stride ambient → ∃ m', m.embedSubringPositions parallel d stride ambient = .ok m') := by
  unfold embedSubringPositions
  simp only [result_ok, dimensions_iff]
  rw [show (m.sampledFamily.any fun family => decide (family.1 = d)) = m.sampledAt d from rfl]
  by_cases hone : stride = 1
  · subst hone
    rw [if_pos rfl]
    simp only [h.unmoved_iff]
    constructor
    · rintro m' ⟨⟨hd, hs, hamb, hlt⟩, hvalid, rfl⟩
      refine ⟨⟨hd, hs, hamb, hlt, hvalid, fun c hc p hp => ?_, fun hne => absurd rfl hne⟩, h, ?_, rfl, rfl, ?_⟩
      · rw [mul_one]
        exact h.word c hc p hp
      · rw [funext scale_one, map_id']
      · rw [embeddedFamily, if_pos rfl]
    · intro he
      exact ⟨m, ⟨he.dimension_pos, he.stride_pos, he.ambient_eq, he.ambient_lt⟩, he.valid, rfl⟩
  · rw [if_neg hone]
    by_cases hdefer : m.sampledAt d = true ∧ ambient - 1 < 2 ^ 32 ∧ 1 ≤ ambient
    · rw [if_pos hdefer]
      simp only [result_ok, checked_some]
      have hle : ambient ≤ 2 ^ 32 := by omega
      constructor
      · rintro m' ⟨⟨hd, hs, hamb, hlt⟩, _, ⟨-, rfl⟩, rfl⟩
        refine ⟨⟨hd, hs, hamb, hlt, h.valid_of_sampledAt hdefer.1, fun c hc p hp => ?_, ?_⟩,
          (h.defer hdefer.1 hd hs hone hamb hle).2⟩
        · have hbelow := Nat.mul_lt_mul_of_pos_right ((h.valid_of_sampledAt hdefer.1 c hc).below p hp) hs
          omega
        · exact fun _ hnot => absurd ⟨hdefer.1, hle⟩ hnot
      · intro he
        obtain ⟨hlt, -⟩ := h.defer hdefer.1 he.dimension_pos he.stride_pos hone he.ambient_eq hle
        exact ⟨_, ⟨he.dimension_pos, he.stride_pos, he.ambient_eq, he.ambient_lt⟩, _, ⟨hlt, rfl⟩, rfl⟩
    · rw [if_neg hdefer]
      have hnot : 0 < ambient → ¬ (m.sampledAt d = true ∧ ambient ≤ 2 ^ 32) := by
        rintro hpos ⟨hs, hle⟩
        exact hdefer ⟨hs, by omega, hpos⟩
      constructor
      · rintro m' ⟨⟨hd, hs, hamb, hlt⟩, hrun⟩
        obtain ⟨hleaves, hiff⟩ := h.eager_iff parallel hs hone hamb hlt
        obtain ⟨hwork, hvalid, hsmall⟩ := hiff.1 ⟨m', hrun⟩
        exact ⟨⟨hd, hs, hamb, hlt, hvalid, hsmall, fun _ _ => hwork⟩, hleaves m' hrun⟩
      · intro he
        have hpos : 0 < ambient := he.ambient_eq ▸ Nat.mul_pos he.dimension_pos he.stride_pos
        obtain ⟨-, hiff⟩ := h.eager_iff parallel he.stride_pos hone he.ambient_eq he.ambient_lt
        obtain ⟨m', hrun⟩ := hiff.2 ⟨he.work hone (hnot hpos), he.valid, he.small⟩
        exact ⟨m', ⟨he.dimension_pos, he.stride_pos, he.ambient_eq, he.ambient_lt⟩, hrun⟩

/-! ### Two embeddings -/

theorem Embedded.sampledAt_eq (he : Embedded m d a (d * a) m') : m'.sampledAt (d * a) = m.sampledAt d := by
  unfold sampledAt
  rw [he.family_eq, embeddedFamily]
  split_ifs with hone hs
  · rw [hone, mul_one]
  · obtain ⟨config, hfam⟩ := sampledAt_iff.1 hs
    simp [hfam]
  · have hfalse : m.sampledAt d = false := by simpa using hs
    exact hfalse.symm

theorem embedTerms_scale (stride : ℕ) (source : List SparseChallenge) :
    embedTerms (source.map (scale stride)) = embedTerms source := by
  unfold embedTerms
  rw [length_map]
  cases source with
  | nil => rfl
  | cons c source => simp [scale]

theorem embeds_mul (hm : m.Coherent) :
    (∃ m₁, m.embedSubringPositions parallel d a (d * a) = .ok m₁ ∧ Embeds m₁ parallel (d * a) b (d * a * b)) ↔
      Embeds m parallel d (a * b) (d * (a * b)) := by
  constructor
  · rintro ⟨m₁, hrun, h₂⟩
    obtain ⟨h₁, he⟩ := (embedSubringPositions_spec hm).1 m₁ hrun
    refine ⟨h₁.dimension_pos, Nat.mul_pos h₁.stride_pos h₂.stride_pos, rfl, by rw [← mul_assoc]; exact h₂.ambient_lt, h₁.valid,
      ?_, ?_⟩
    · intro c hc p hp
      have hc' : scale a c ∈ m₁.asSlice := he.asSlice_eq ▸ mem_map_of_mem hc
      rw [← mul_assoc]
      exact h₂.small _ hc' _ (mem_map_of_mem hp)
    · -- one of the strides moves, and the arm it takes bounds the work
      intro hone hnot hparallel
      by_cases hb : b = 1
      · subst hb
        exact h₁.work (fun ha => hone (by rw [ha])) (by simpa using hnot) hparallel
      · rw [← embedTerms_scale a, ← he.asSlice_eq]
        refine h₂.work hb (fun hlazy => hnot ?_) hparallel
        rw [he.sampledAt_eq, mul_assoc] at hlazy
        exact hlazy
  · intro h
    have ha : 0 < a := Nat.pos_of_mul_pos_right h.stride_pos
    have hb : 0 < b := Nat.pos_of_mul_pos_left h.stride_pos
    have hmul : d * (a * b) = d * a * b := (mul_assoc _ _ _).symm
    have hle : d * a ≤ d * (a * b) := hmul ▸ Nat.le_mul_of_pos_right _ hb
    have h₁ : Embeds m parallel d a (d * a) := by
      refine ⟨h.dimension_pos, ha, rfl, hle.trans_lt h.ambient_lt, h.valid, ?_, ?_⟩
      · intro c hc p hp
        exact (Nat.mul_le_mul_left p (Nat.le_mul_of_pos_right a hb)).trans_lt (h.small c hc p hp)
      · intro hone hnot
        exact h.work (fun heq => hone (Nat.eq_one_of_mul_eq_one_right heq)) fun hlazy => hnot ⟨hlazy.1, hle.trans hlazy.2⟩
    obtain ⟨m₁, hrun⟩ := (embedSubringPositions_spec hm).2 h₁
    obtain ⟨-, he⟩ := (embedSubringPositions_spec hm).1 m₁ hrun
    refine ⟨m₁, hrun, ⟨Nat.mul_pos h.dimension_pos ha, hb, rfl, hmul ▸ h.ambient_lt, ?_, ?_, ?_⟩⟩
    · rw [he.asSlice_eq]
      intro c' hc'
      obtain ⟨c, hc, rfl⟩ := mem_map.1 hc'
      exact (h.valid c hc).scale ha
    · rw [he.asSlice_eq]
      intro c' hc' p' hp'
      obtain ⟨c, hc, rfl⟩ := mem_map.1 hc'
      obtain ⟨p, hp, rfl⟩ := mem_map.1 hp'
      rw [Nat.mul_assoc]
      exact h.small c hc p hp
    · rw [he.asSlice_eq, embedTerms_scale, he.sampledAt_eq, ← hmul]
      exact fun hone => h.work fun heq => hone (Nat.eq_one_of_mul_eq_one_left heq)

/-- Two strides leave what their product leaves. -/
theorem Embedded.same_mul (h₁ : Embedded m d a (d * a) m₁) (h₂ : Embedded m₁ (d * a) b (d * a * b) m₂)
    (h₃ : Embedded m d (a * b) (d * (a * b)) m₃) : m₂.Same m₃ ∧ m₂.sampledFamily = m₃.sampledFamily := by
  refine ⟨⟨?_, ?_, ?_⟩, ?_⟩
  · rw [h₂.blocks_eq, h₁.blocks_eq, h₃.blocks_eq]
  · rw [h₂.claims_eq, h₁.claims_eq, h₃.claims_eq]
  · rw [h₂.asSlice_eq, h₁.asSlice_eq, h₃.asSlice_eq, map_map]
    exact map_congr_left fun c _ => scale_scale a b c
  · rw [h₂.family_eq, h₃.family_eq, embeddedFamily, embeddedFamily, h₁.sampledAt_eq, h₁.family_eq, embeddedFamily]
    by_cases hb1 : b = 1
    · rw [if_pos hb1, hb1, mul_one]
    · have hmul : a * b ≠ 1 := fun heq => hb1 (Nat.eq_one_of_mul_eq_one_left heq)
      rw [if_neg hb1, if_neg hmul]
      by_cases hs : m.sampledAt d = true
      · obtain ⟨config, hfam⟩ := sampledAt_iff.1 hs
        rw [if_pos hs, if_pos hs, if_pos hs, hfam, mul_assoc]
        split_ifs <;> rfl
      · rw [if_neg hs, if_neg hs]

/-! ## Selection -/

def claimBlocks (m : Challenges) (claim : ℕ) : List SparseChallenge :=
  (m.asSlice.drop (claim * m.numLiveBlocksPerClaim)).take m.numLiveBlocksPerClaim

theorem selectClaim_iff (h : m.Coherent) {blocks : List SparseChallenge} : m.selectClaim claim = .ok blocks ↔
    claim * m.numLiveBlocksPerClaim + m.numLiveBlocksPerClaim ≤ m.asSlice.length ∧ blocks = m.claimBlocks claim := by
  have hlt : m.asSlice.length < 2 ^ usizeBits := h.length_asSlice ▸ h.count_lt
  unfold selectClaim
  simp only [result_ok, checked_some]
  constructor
  · rintro ⟨_, ⟨-, rfl⟩, _, ⟨-, rfl⟩, hle, rfl⟩
    exact ⟨hle, by rw [Nat.add_sub_cancel_left, claimBlocks]⟩
  · rintro ⟨hle, rfl⟩
    exact ⟨_, ⟨by omega, rfl⟩, _, ⟨by omega, rfl⟩, hle, by rw [Nat.add_sub_cancel_left, claimBlocks]⟩

theorem length_claimBlocks (h : claim * m.numLiveBlocksPerClaim + m.numLiveBlocksPerClaim ≤ m.asSlice.length) :
    (m.claimBlocks claim).length = m.numLiveBlocksPerClaim := by
  rw [claimBlocks, length_take, length_drop]
  omega

theorem length_flatMap_claimBlocks (h : ∀ i ∈ claims, i * m.numLiveBlocksPerClaim + m.numLiveBlocksPerClaim ≤ m.asSlice.length) :
    (claims.flatMap m.claimBlocks).length = m.numLiveBlocksPerClaim * claims.length := by
  have hwidth : ∀ blocks ∈ claims.map m.claimBlocks, blocks.length = m.numLiveBlocksPerClaim := by
    intro blocks hblocks
    obtain ⟨i, hi, rfl⟩ := mem_map.1 hblocks
    exact length_claimBlocks (h i hi)
  rw [flatMap_def, length_flatten_of_width hwidth, length_map, mul_comm]

theorem mem_of_mem_claimBlocks (h : c ∈ claims.flatMap m.claimBlocks) : c ∈ m.asSlice := by
  obtain ⟨i, -, hc⟩ := mem_flatMap.1 h
  exact mem_of_mem_drop (mem_of_mem_take hc)

/-- **A selection concatenates the blocks of the claims**. -/
theorem selectClaims_iff (h : m.Coherent) : m.selectClaims claims = .ok m' ↔
    (claims.length * m.numLiveBlocksPerClaim < 2 ^ usizeBits ∧
      ∀ i ∈ claims, i * m.numLiveBlocksPerClaim + m.numLiveBlocksPerClaim ≤ m.asSlice.length) ∧
      m' = ⟨claims.flatMap m.claimBlocks, m.numLiveBlocksPerClaim, claims.length, none, 1, none⟩ := by
  have hparts : ∀ selected, claims.mapM m.selectClaim = .ok selected ↔
      (∀ i ∈ claims, i * m.numLiveBlocksPerClaim + m.numLiveBlocksPerClaim ≤ m.asSlice.length) ∧
        selected = claims.map m.claimBlocks := fun selected => mapM_iff_forall fun i _ blocks => selectClaim_iff h
  unfold selectClaims
  simp only [result_ok, checked_some, hparts, fromSparse_iff]
  constructor
  · rintro ⟨_, ⟨hlt, -⟩, _, ⟨hin, rfl⟩, -, rfl⟩
    exact ⟨⟨hlt, hin⟩, rfl⟩
  · rintro ⟨⟨hlt, hin⟩, rfl⟩
    exact ⟨_, ⟨hlt, rfl⟩, _, ⟨hin, rfl⟩, ⟨by rw [mul_comm]; exact hlt, length_flatMap_claimBlocks hin⟩, rfl⟩

theorem Coherent.selectClaims (h : m.Coherent) (hrun : m.selectClaims claims = .ok m') :
    m'.Coherent ∧ m'.asSlice = claims.flatMap m.claimBlocks := by
  obtain ⟨⟨hlt, hin⟩, rfl⟩ := (selectClaims_iff h).1 hrun
  refine ⟨coherent_mk (by rw [mul_comm]; exact hlt) (length_flatMap_claimBlocks hin) (by simp) ?_, rfl⟩
  exact fun c hc => h.word c (mem_of_mem_claimBlocks hc)

/-- **Selection commutes with scaling**. -/
theorem flatMap_claimBlocks_scale (hslice : m'.asSlice = m.asSlice.map (scale stride))
    (hblocks : m'.numLiveBlocksPerClaim = m.numLiveBlocksPerClaim) (claims : List ℕ) :
    claims.flatMap m'.claimBlocks = (claims.flatMap m.claimBlocks).map (scale stride) := by
  rw [map_flatMap]
  apply flatMap_congr
  intro i _
  rw [claimBlocks, claimBlocks, hslice, hblocks, map_take, map_drop]

/-! ## Evaluation -/

section

variable {F E : Type} [Field F] [Field E] [Algebra F E] {𝔰 : SignedSums F E} {powers : List E} {source : List SparseChallenge}
  {es : List E}

def termCount (source : List SparseChallenge) : ℕ := (source.map fun challenge => challenge.positions.length).sum

theorem sparseTerms_iff {n : ℕ} : sparseTerms source = .ok n ↔ termCount source < 2 ^ usizeBits ∧ n = termCount source := by
  have hloop : ∀ (l : List SparseChallenge) (sum : ℕ), sum < 2 ^ usizeBits →
      (l.foldlM (fun sum challenge => okOr (checkedAdd usizeBits sum challenge.positions.length)
        (.invalidInput "sparse challenge term count overflow")) sum = (.ok n : Result ℕ) ↔
        sum + termCount l < 2 ^ usizeBits ∧ n = sum + termCount l) := by
    intro l
    induction l with
    | nil =>
      intro sum hsum
      simp only [foldlM_nil, pure_eq_ok, termCount, map_nil, sum_nil, add_zero, hsum, true_and]
      exact eq_comm
    | cons c l ih =>
      intro sum hsum
      have hcount : termCount (c :: l) = c.positions.length + termCount l := by
        rw [termCount, map_cons, sum_cons, termCount]
      simp only [foldlM_cons, result_ok, checked_some]
      rw [hcount, ← add_assoc]
      constructor
      · rintro ⟨_, ⟨hlt, rfl⟩, hrest⟩
        exact (ih _ hlt).1 hrest
      · intro hsum'
        exact ⟨_, ⟨by omega, rfl⟩, (ih _ (by omega)).2 hsum'⟩
  have h := hloop source 0 (by norm_num [usizeBits])
  rw [zero_add] at h
  exact h

omit [Field E] in
theorem mapM_chunks {r : SparseChallenge → Result E} {size : ℕ} (hsize : 0 < size) (source : List SparseChallenge) :
    ((Lib.chunks size source).mapM fun chunk => chunk.mapM r) >>= (fun chunks => .ok chunks.flatten) = source.mapM r := by
  rw [mapM_parts, flatten_chunks hsize]

omit [Field E] in
/-- **The evaluation of all**: the leaves of the parallel loop change nothing but the bound on the terms. -/
theorem evaluateAll_iff {evaluate : SparseChallenge → Result E} : m.evaluateAll parallel source evaluate = .ok es ↔
      (parallel = true → minParallelChallenges ≤ m.challenges.length → termCount source < 2 ^ usizeBits) ∧
        source.mapM evaluate = .ok es := by
  unfold evaluateAll
  by_cases hmany : parallel = true ∧ m.challenges.length ≥ minParallelChallenges
  · rw [if_pos hmany]
    simp only [bind_eq_ok, sparseTerms_iff]
    have hleaves : ∀ n, (if n ≤ parallelCoarseLeafTerms then source.mapM evaluate
        else do
          let leafTerms := if n > parallelFineTotalTerms then parallelFineLeafTerms else parallelCoarseLeafTerms
          let averageTerms := (n + m.challenges.length - 1) / m.challenges.length
          let leafChallenges := max (leafTerms / averageTerms) 1
          let chunks ← (Lib.chunks leafChallenges source).mapM fun chunk => chunk.mapM evaluate
          return chunks.flatten) = source.mapM evaluate := by
      intro n
      split
      · rfl
      · exact mapM_chunks (lt_of_lt_of_le Nat.one_pos (le_max_right _ 1)) source
    simp only [hleaves]
    constructor
    · rintro ⟨_, ⟨hlt, rfl⟩, hrun⟩
      exact ⟨fun _ _ => hlt, hrun⟩
    · rintro ⟨hlt, hrun⟩
      exact ⟨_, ⟨hlt hmany.1 hmany.2, rfl⟩, hrun⟩
  · rw [if_neg hmany]
    exact ⟨fun hrun => ⟨fun hp hn => absurd ⟨hp, hn⟩ hmany, hrun⟩, fun hrun => hrun.2⟩

theorem signed_magnitude (v : E) (x : ℤ) :
    (if decide (x < 0) = true then -((x.natAbs : E) * v) else (x.natAbs : E) * v) = (x : E) * v := by
  have h := sum_replicate_signed v x
  rw [map_replicate, sum_replicate, nsmul_eq_mul] at h
  rw [← h]
  split_ifs
  · exact (mul_neg _ _).symm
  · rfl

/-- The sampled arm reads the power of the embedded position, doubled for a coefficient ±2. -/
theorem evaluateSampled_eq (h𝔰 : 𝔰.Lawful) (h : m.Coherent) (hfam : m.sampledFamily = some (powers.length, config))
    (hc : c ∈ m.challenges) : m.evaluateSampled 𝔰 powers (if config.countPm2 ≠ 0 then powers.map fun v => v + v else []) c =
      .ok (entrySum powers (scale m.embeddingStride c)) := by
  obtain ⟨d₀, hd, hlt, -, hin⟩ := h.family _ hfam
  have hc' := hin c hc
  set doubles := if config.countPm2 ≠ 0 then powers.map fun v => v + v else [] with hdoubles
  have hterm : ∀ t ∈ c.positions.zip c.coeffs,
      power (if t.2 = 2 ∨ t.2 = -2 then doubles else powers) (wrapping usizeBits (t.1 * m.embeddingStride)) =
        .ok ((t.2.natAbs : E) * powers.getD (t.1 * m.embeddingStride) 0) := by
    intro t ht
    have hbelow := Nat.mul_lt_mul_of_pos_right (hc'.below _ (mem_terms ht).1) h.stride_pos
    have hpos : t.1 * m.embeddingStride < powers.length := by omega
    rw [wrapping_of_lt (by omega)]
    rcases hc'.small _ (mem_terms ht).2 with h1 | h2
    · have hnat : t.2.natAbs = 1 := by
        rw [Int.abs_eq_natAbs] at h1
        omega
      rw [if_neg (by omega), power_eq hpos, hnat, Nat.cast_one, one_mul]
    · have hcount : config.countPm2 ≠ 0 := by
        intro hzero
        rw [hc'.ones hzero _ (mem_terms ht).2] at h2
        omega
      have hnat : t.2.natAbs = 2 := by
        rw [Int.abs_eq_natAbs] at h2
        omega
      rw [if_pos (by omega), hdoubles, if_pos hcount, power_eq (by rw [length_map]; exact hpos), hnat, Nat.cast_ofNat, two_mul,
        getD_eq_getElem _ _ (by rw [length_map]; exact hpos), getElem_map, getD_eq_getElem _ _ hpos]
  have hterms : ((c.positions.zip c.coeffs).mapM fun term => do
      let powers := if term.2 = 2 ∨ term.2 = -2 then doubles else powers
      return (← power powers (wrapping usizeBits (term.1 * m.embeddingStride)), decide (term.2 < 0))) =
        (.ok ((c.positions.zip c.coeffs).map fun t =>
          ((t.2.natAbs : E) * powers.getD (t.1 * m.embeddingStride) 0, decide (t.2 < 0))) : Result _) := by
    apply mapM_ok_of_forall
    intro t ht
    dsimp only
    rw [hterm t ht, ok_bind]
    rfl
  unfold evaluateSampled
  rw [hterms, ok_bind, pure_eq_ok, h𝔰.signedSum_eq, entrySum, terms_scale, map_map, map_map]
  congr 1
  apply map_congr_left
  intro t _
  exact signed_magnitude _ _

theorem termCount_scale (stride : ℕ) (source : List SparseChallenge) : termCount (source.map (scale stride)) = termCount source := by
  simp [termCount, scale, Function.comp_def]

/-- **An evaluation is the sum over the entries of what is read**, whichever arm it takes. -/
theorem evalsAtPows_iff (h𝔰 : 𝔰.Lawful) (h : m.Coherent) : m.evalsAtPows 𝔰 parallel powers = .ok es ↔
      (parallel = true → minParallelChallenges ≤ m.challenges.length → termCount m.asSlice < 2 ^ usizeBits) ∧
      (∀ c ∈ m.asSlice, c.positions.length = c.coeffs.length ∧
        ∀ t ∈ c.positions.zip c.coeffs, t.1 < powers.length ∧ t.2 ≠ 0) ∧ es = m.asSlice.map (entrySum powers) := by
  unfold evalsAtPows
  cases hfilter : m.sampledFamily.filter fun family => decide (family.1 = powers.length) with
  | none =>
    rw [evaluateAll_iff]
    exact and_congr_right fun _ => mapM_iff_forall fun c _ e => sparseEvalAtPows_iff h𝔰
  | some f =>
    obtain ⟨hfam, hd⟩ := Option.filter_eq_some_iff.1 hfilter
    obtain ⟨d, config⟩ := f
    obtain rfl : d = powers.length := by simpa using hd
    have hrun := mapM_ok_of_forall fun c hc => evaluateSampled_eq h𝔰 h hfam (c := c) hc
    have hvalid : ∀ c ∈ m.asSlice, c.positions.length = c.coeffs.length ∧
        ∀ t ∈ c.positions.zip c.coeffs, t.1 < powers.length ∧ t.2 ≠ 0 := by
      intro c hc
      have hc' := (h.inFamily hfam c hc).toValid
      exact ⟨hc'.length_eq, fun t ht => ⟨hc'.below _ (mem_terms ht).1, hc'.nonzero _ (mem_terms ht).2⟩⟩
    rw [evaluateAll_iff, hrun, h.asSlice_eq, termCount_scale, map_map, Except.ok.injEq]
    rw [h.asSlice_eq] at hvalid
    refine and_congr_right fun _ => ⟨fun heq => ⟨hvalid, heq.symm⟩, fun heq => heq.2.symm⟩

end

/-! ## Runs -/

/-- The sets that the sampler or `from_sparse` gives and the operations make of them, with the dimension last embedded in.
A position is a `u32`. -/
inductive Reach : Challenges → Option ℕ → Prop
  | sampled {d count blocks claims : ℕ} {config : SparseChallengeConfig} {rejection : Option SparseStream.OperatorNormRejection}
      {shell : SparseChallengeShell} {stream : SparseChallengeStream} {feature : Bool} {message : List UInt8}
      {challenges : List SparseChallenge} {m : Challenges}
      (hshell : SparseChallengeShell.validated d config rejection = .ok shell) (hstream : shell.stream count = .ok stream)
      (hdecode : stream.decode feature message = .ok (some challenges))
      (hm : fromSampled challenges blocks claims d config = .ok m) : Reach m (some d)
  | sparse {blocks claims : ℕ} {challenges : List SparseChallenge} {m : Challenges}
      (hword : ∀ c ∈ challenges, ∀ p ∈ c.positions, p < 2 ^ 32) (hm : fromSparse challenges blocks claims = .ok m) : Reach m none
  | embed {m m' : Challenges} {dim : Option ℕ} {parallel : Bool} {d stride ambient : ℕ} (h : Reach m dim)
      (hm' : m.embedSubringPositions parallel d stride ambient = .ok m') : Reach m' (some ambient)
  | select {m m' : Challenges} {dim : Option ℕ} {claims : List ℕ} (h : Reach m dim) (hm' : m.selectClaims claims = .ok m') : Reach m' dim
  | read {m : Challenges} {dim : Option ℕ} (h : Reach m dim) : Reach m.read dim

theorem inFamily_of_decode {count : ℕ} {rejection : Option SparseStream.OperatorNormRejection} {shell : SparseChallengeShell}
    {stream : SparseChallengeStream} {feature : Bool} {message : List UInt8}
    (hshell : SparseChallengeShell.validated d config rejection = .ok shell) (hstream : shell.stream count = .ok stream)
    (hdecode : stream.decode feature message = .ok (some challenges)) :
    d ≤ SparseStream.maxRingDim ∧ ∀ c ∈ challenges, InFamily d config c := by
  obtain ⟨hok, rfl, rfl, -⟩ := SparseStream.validated_ok hshell
  refine ⟨hok.d_le, ?_⟩
  intro c hc
  obtain ⟨R, hR⟩ := SparseStream.decode_mem hok hstream hdecode hc
  obtain ⟨hnodup, hbelow, hposs, hcoeffs⟩ := SparseStream.challenge_shape hok hR
  obtain ⟨-, hat⟩ := SparseStream.challengeOf_eq_some hR
  have habs : ∀ x ∈ c.coeffs, ∃ i < shell.config.countPm1 + shell.config.countPm2,
      |x| = if i < shell.config.countPm1 then 1 else 2 := by
    intro x hx
    rw [hat, SparseStream.challengeAt] at hx
    obtain ⟨i, hi, rfl⟩ := mem_map.1 hx
    exact ⟨i, mem_range.1 hi, SparseStream.abs_coeffOf _ _ _⟩
  refine ⟨⟨hposs.trans hcoeffs.symm, hbelow, hnodup, ?_⟩, ?_, ?_⟩
  · rintro x hx rfl
    obtain ⟨i, -, hzero⟩ := habs 0 hx
    split_ifs at hzero <;> simp at hzero
  · intro x hx
    obtain ⟨i, -, hi⟩ := habs x hx
    split_ifs at hi
    · exact Or.inl hi
    · exact Or.inr hi
  · intro hzero x hx
    obtain ⟨i, hlt, hi⟩ := habs x hx
    rw [hi, if_pos (by omega)]

/-- **Every run keeps the invariant**, and the challenges are valid in the dimension last embedded in. -/
theorem Reach.coherent {dim : Option ℕ} (h : Reach m dim) :
    m.Coherent ∧ ∀ d, dim = some d → ∀ c ∈ m.asSlice, Valid d c := by
  induction h with
  | sampled hshell hstream hdecode hm =>
    obtain ⟨hd, hfam⟩ := inFamily_of_decode hshell hstream hdecode
    unfold SparseStream.maxRingDim at hd
    simp only [fromSampled, result_ok, fromSparse_iff] at hm
    obtain ⟨_, ⟨⟨hlt, hlen⟩, rfl⟩, rfl⟩ := hm
    refine ⟨coherent_mk hlt hlen ?_ fun c hc p hp => ?_, ?_⟩
    · rintro f ⟨rfl⟩
      exact ⟨by unfold usizeBits; dsimp only; omega, hfam⟩
    · have hbelow := (hfam c hc).below p hp
      omega
    · rintro d ⟨rfl⟩ c hc
      exact (hfam c hc).toValid
  | sparse hword hm =>
    obtain ⟨⟨hlt, hlen⟩, rfl⟩ := fromSparse_iff.1 hm
    exact ⟨coherent_mk hlt hlen (by simp) hword, by simp⟩
  | embed _ hm' ih =>
    obtain ⟨he, hleaves⟩ := (embedSubringPositions_spec ih.1).1 _ hm'
    refine ⟨hleaves.coherent, ?_⟩
    rintro d ⟨rfl⟩ c' hc'
    rw [hleaves.asSlice_eq] at hc'
    obtain ⟨c, hc, rfl⟩ := mem_map.1 hc'
    rw [← he.ambient_eq]
    exact (he.valid c hc).scale he.stride_pos
  | select _ hm' ih =>
    obtain ⟨hcoherent, hslice⟩ := ih.1.selectClaims hm'
    refine ⟨hcoherent, fun d hd c hc => ih.2 d hd c ?_⟩
    rw [hslice] at hc
    exact mem_of_mem_claimBlocks hc
  | read _ ih =>
    obtain ⟨hcoherent, hslice⟩ := ih.1.read
    refine ⟨hcoherent, fun d hd c hc => ih.2 d hd c ?_⟩
    rwa [hslice] at hc

/-- What an embedding leaves is what the eager arm computes entry by entry. -/
theorem Embedded.forall₂ (he : Embeds m parallel d a ambient) (hleaves : Embedded m d a ambient m') :
    Forall₂ (fun c c' => embed false d a ambient c = .ok c' ∧ c' = scale a c) m.asSlice m'.asSlice := by
  rw [hleaves.asSlice_eq, forall₂_map_right_iff]
  apply forall₂_same.2
  intro c hc
  refine ⟨embed_iff.2 ⟨⟨fun _ => he.valid c hc, fun p hp => ⟨?_, he.small c hc p hp⟩⟩, rfl⟩, rfl⟩
  rw [← he.ambient_eq]
  exact Nat.mul_lt_mul_of_pos_right ((he.valid c hc).below p hp) he.stride_pos

theorem Embedded.select (h : m.Coherent) (he : Embeds m parallel d a ambient) (hleaves : Embedded m d a ambient m₁)
    (h₂ : m₁.selectClaims claims = .ok m₂) (h₃ : m.selectClaims claims = .ok m₃) :
    (∀ m₄, m₃.embedSubringPositions parallel d a ambient = .ok m₄ → m₂.Same m₄) ∧
      ((parallel = true → embedTerms m₃.asSlice < 2 ^ usizeBits) →
        ∃ m₄, m₃.embedSubringPositions parallel d a ambient = .ok m₄) := by
  obtain ⟨hcoherent₃, hslice₃⟩ := h.selectClaims h₃
  obtain ⟨-, hslice₂⟩ := hleaves.coherent.selectClaims h₂
  obtain ⟨-, rfl⟩ := (selectClaims_iff hleaves.coherent).1 h₂
  obtain ⟨-, rfl⟩ := (selectClaims_iff h).1 h₃
  constructor
  · intro m₄ h₄
    obtain ⟨-, hleaves₄⟩ := (embedSubringPositions_spec hcoherent₃).1 m₄ h₄
    refine ⟨?_, ?_, ?_⟩
    · rw [hleaves₄.blocks_eq]
      exact hleaves.blocks_eq
    · rw [hleaves₄.claims_eq]
    · rw [hslice₂, hleaves₄.asSlice_eq, hslice₃, flatMap_claimBlocks_scale hleaves.asSlice_eq hleaves.blocks_eq]
  · intro hwork
    refine (embedSubringPositions_spec hcoherent₃).2 ⟨he.dimension_pos, he.stride_pos, he.ambient_eq, he.ambient_lt, ?_, ?_,
      fun _ _ => hwork⟩
    · rw [hslice₃]
      exact fun c hc => he.valid c (mem_of_mem_claimBlocks hc)
    · rw [hslice₃]
      exact fun c hc => he.small c (mem_of_mem_claimBlocks hc)

/-- **Lazy embedding of challenges is transparent.** For every set reached from a sampled or a sparse one by embeddings,
selections and reads: an evaluation is, entry by entry of what is read, the sum of the coefficients times the powers at
the positions, and in the dimension last embedded in it succeeds; an embedding is the eager embedding of every entry; two
strides succeed one after the other exactly when their product does, and give the same set; and an embedding commutes with a
selection. -/
theorem embedding_transparent {F E : Type} [Field F] [Field E] [Algebra F E] {𝔰 : SignedSums F E} (h𝔰 : 𝔰.Lawful)
    {dim : Option ℕ} (hm : Reach m dim) : (∀ parallel (powers : List E),
      (∀ es, m.evalsAtPows 𝔰 parallel powers = .ok es → es = m.asSlice.map (entrySum powers)) ∧
      (dim = some powers.length →
        (parallel = true → minParallelChallenges ≤ m.challenges.length → termCount m.asSlice < 2 ^ usizeBits) →
        m.evalsAtPows 𝔰 parallel powers = .ok (m.asSlice.map (entrySum powers)))) ∧
    (∀ parallel d a ambient m', m.embedSubringPositions parallel d a ambient = .ok m' →
      m'.numLiveBlocksPerClaim = m.numLiveBlocksPerClaim ∧ m'.numClaims = m.numClaims ∧
        List.Forall₂ (fun c c' => embed false d a ambient c = .ok c' ∧ c' = scale a c) m.asSlice m'.asSlice) ∧
    (∀ parallel d a b, ((∃ m₁, m.embedSubringPositions parallel d a (d * a) = .ok m₁ ∧
        ∃ m₂, m₁.embedSubringPositions parallel (d * a) b (d * a * b) = .ok m₂) ↔
          ∃ m₃, m.embedSubringPositions parallel d (a * b) (d * (a * b)) = .ok m₃) ∧
      ∀ m₁ m₂ m₃, m.embedSubringPositions parallel d a (d * a) = .ok m₁ →
        m₁.embedSubringPositions parallel (d * a) b (d * a * b) = .ok m₂ →
        m.embedSubringPositions parallel d (a * b) (d * (a * b)) = .ok m₃ →
          m₂.Same m₃ ∧ m₂.sampledFamily = m₃.sampledFamily) ∧
    ∀ parallel d a ambient claims m₁, m.embedSubringPositions parallel d a ambient = .ok m₁ →
      ((∃ m₂, m₁.selectClaims claims = .ok m₂) ↔ ∃ m₃, m.selectClaims claims = .ok m₃) ∧
      ∀ m₂ m₃, m₁.selectClaims claims = .ok m₂ → m.selectClaims claims = .ok m₃ →
        (∀ m₄, m₃.embedSubringPositions parallel d a ambient = .ok m₄ → m₂.Same m₄) ∧
        ((parallel = true → embedTerms m₃.asSlice < 2 ^ usizeBits) →
          ∃ m₄, m₃.embedSubringPositions parallel d a ambient = .ok m₄) := by
  obtain ⟨h, hvalid⟩ := hm.coherent
  refine ⟨?_, ?_, ?_, ?_⟩
  · intro parallel powers
    refine ⟨fun es hes => ((evalsAtPows_iff h𝔰 h).1 hes).2.2, fun hdim hcount => ?_⟩
    refine (evalsAtPows_iff h𝔰 h).2 ⟨hcount, fun c hc => ?_, rfl⟩
    have hc' := hvalid _ hdim c hc
    exact ⟨hc'.length_eq, fun t ht => ⟨hc'.below _ (mem_terms ht).1, hc'.nonzero _ (mem_terms ht).2⟩⟩
  · intro parallel d a ambient m' hrun
    obtain ⟨he, hleaves⟩ := (embedSubringPositions_spec h).1 m' hrun
    exact ⟨hleaves.blocks_eq, hleaves.claims_eq, hleaves.forall₂ he⟩
  · intro parallel d a b
    constructor
    · have hproduct : Embeds m parallel d (a * b) (d * (a * b)) ↔
          ∃ m₃, m.embedSubringPositions parallel d (a * b) (d * (a * b)) = .ok m₃ :=
        ⟨(embedSubringPositions_spec h).2, fun ⟨m₃, hrun⟩ => ((embedSubringPositions_spec h).1 m₃ hrun).1⟩
      rw [← hproduct, ← embeds_mul h]
      refine exists_congr fun m₁ => and_congr_right fun hrun => ?_
      have hm₁ := ((embedSubringPositions_spec h).1 m₁ hrun).2.coherent
      exact ⟨fun ⟨m₂, hrun₂⟩ => ((embedSubringPositions_spec hm₁).1 m₂ hrun₂).1, (embedSubringPositions_spec hm₁).2⟩
    · intro m₁ m₂ m₃ h₁ h₂ h₃
      obtain ⟨-, hleaves₁⟩ := (embedSubringPositions_spec h).1 m₁ h₁
      obtain ⟨-, hleaves₂⟩ := (embedSubringPositions_spec hleaves₁.coherent).1 m₂ h₂
      obtain ⟨-, hleaves₃⟩ := (embedSubringPositions_spec h).1 m₃ h₃
      exact hleaves₁.same_mul hleaves₂ hleaves₃
  · intro parallel d a ambient claims m₁ hrun
    obtain ⟨he, hleaves⟩ := (embedSubringPositions_spec h).1 m₁ hrun
    have hlen : m₁.asSlice.length = m.asSlice.length := by rw [hleaves.asSlice_eq, length_map]
    constructor
    · simp only [selectClaims_iff h, selectClaims_iff hleaves.coherent, hleaves.blocks_eq, hlen]
      exact ⟨fun ⟨_, hin, _⟩ => ⟨_, hin, rfl⟩, fun ⟨_, hin, _⟩ => ⟨_, hin, rfl⟩⟩
    · exact fun m₂ m₃ h₂ h₃ => hleaves.select h he h₂ h₃

def rationalSums : SignedSums ℚ ℚ where
  signedSum terms := (terms.map fun t => if t.2 then -t.1 else t.1).sum
  mulBase v c := c * v

theorem embedding_transparent_six : ∃ m, Reach m (some 24) ∧ m.embeddingStride = 4 ∧ m.challenges.length = 3 ∧
    ∀ powers : List ℚ, powers.length = 24 →
      m.evalsAtPows rationalSums true powers = .ok (m.asSlice.map (entrySum powers)) := by
  have hrun : (do (← SparseChallengeShell.validated 6 ⟨2, 1⟩ none).stream 3 : Result SparseChallengeStream).toOption.map
      SparseChallengeStream.messageLen = some 8 := by decide +kernel
  obtain ⟨stream, hstream, hlen⟩ := Option.map_eq_some_iff.1 hrun
  have hstream' : (do (← SparseChallengeShell.validated 6 ⟨2, 1⟩ none).stream 3) = .ok stream := by
    cases hx : (do (← SparseChallengeShell.validated 6 ⟨2, 1⟩ none).stream 3 : Result SparseChallengeStream) with
    | error e => simp [hx, Except.toOption] at hstream
    | ok x => simpa [hx, Except.toOption] using hstream
  obtain ⟨shell, hshell, hstream''⟩ := bind_eq_ok.1 hstream'
  obtain ⟨hok, -, -, hfilter⟩ := SparseStream.validated_ok hshell
  have hmessage : (List.replicate 8 (77 : UInt8)).length = stream.messageLen := by rw [length_replicate, hlen]
  obtain ⟨challenges, hdecode, hmap⟩ := SparseStream.decode_unfiltered hok hstream'' hmessage hfilter false
  have hcount : challenges.length = 3 := by simpa using congrArg List.length hmap
  have hsampled : fromSampled challenges 3 1 6 ⟨2, 1⟩ = .ok ⟨challenges, 3, 1, some (6, ⟨2, 1⟩), 1, none⟩ := by
    unfold fromSampled
    rw [(fromSparse_iff).2 ⟨⟨by norm_num [usizeBits], hcount⟩, rfl⟩]
    rfl
  have hembed : embedSubringPositions ⟨challenges, 3, 1, some (6, ⟨2, 1⟩), 1, none⟩ true 6 4 24 =
      .ok ⟨challenges, 3, 1, some (24, ⟨2, 1⟩), 4, none⟩ := rfl
  have hreach := Reach.embed (Reach.sampled hshell hstream'' hdecode hsampled) hembed
  refine ⟨_, hreach, rfl, hcount, ?_⟩
  intro powers hpowers
  have hlawful : rationalSums.Lawful := ⟨fun _ => rfl, fun _ _ => rfl⟩
  obtain ⟨heval, -⟩ := embedding_transparent hlawful hreach
  refine (heval true powers).2 (by rw [hpowers]) fun _ hmany => ?_
  have hmin : 512 ≤ challenges.length := hmany
  omega

end Challenges

end Akita.Challenge
