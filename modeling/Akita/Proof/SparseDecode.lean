import Akita.Proof.OpNorm
import Akita.Proof.SparseBijection

/-!
# Decoding a challenge message

Without a filter the message decodes to its candidates in order. With the operator-norm filter the
sequential scan and the chunked one both keep the first accepted candidates of the pool.
-/

namespace Akita.SparseStream

open Lib OpNorm List

section

variable {accept : ℕ → Result (Option SparseChallenge)} {g : ℕ → Option SparseChallenge} {count candidates : ℕ}

/-- **The sequential scan** keeps the first accepted candidates. -/
theorem firstAcceptedLoop_eq : ∀ (indices : List ℕ) (accepted : List SparseChallenge), (∀ j ∈ indices, accept j = .ok (g j)) →
    accepted.length ≤ count → firstAcceptedLoop accept count indices accepted =
      .ok (accepted ++ (indices.filterMap g).take (count - accepted.length)) := by
  intro indices
  induction indices with
  | nil => intro accepted _ _; simp [firstAcceptedLoop]
  | cons index indices ih =>
    intro accepted hacc hle
    have hrest := fun accepted => ih accepted fun j hj => hacc j (by simp [hj])
    rw [firstAcceptedLoop]
    by_cases hfull : accepted.length = count
    · rw [if_pos hfull, hfull, Nat.sub_self, take_zero, append_nil]
    · rw [if_neg hfull, hacc index (by simp), ok_bind]
      cases hg : g index with
      | none =>
        dsimp only
        rw [hrest accepted hle, filterMap_cons_none hg]
      | some challenge =>
        have hroom : count - accepted.length = count - (accepted ++ [challenge]).length + 1 := by
          rw [length_append, length_singleton]
          omega
        dsimp only
        rw [hrest _ (by rw [length_append, length_singleton]; omega), filterMap_cons_some hg, hroom,
          take_succ_cons, append_assoc, singleton_append]

theorem take_append_take {α : Type*} (l l' : List α) (n : ℕ) : l.take n ++ l'.take (n - (l.take n).length) = (l ++ l').take n := by
  rw [take_append, length_take]
  congr 2
  omega

/-- **The chunked scan** keeps the same candidates. -/
theorem chunkedLoop_eq (hcount : 0 < count) (hcand : candidates < 2 ^ usizeBits) : ∀ (passes start : ℕ)
    (accepted : List SparseChallenge), candidates - start ≤ passes →
    (∀ j < candidates, accept j = .ok (g j)) → accepted.length ≤ count → chunkedLoop accept count candidates passes start accepted =
      .ok (accepted ++ ((range' start (candidates - start)).filterMap g).take (count - accepted.length)) := by
  intro passes
  induction passes with
  | zero =>
    intro start accepted hpasses _ _
    have hzero : candidates - start = 0 := by omega
    simp [chunkedLoop, hzero]
  | succ passes ih =>
    intro start accepted hpasses hacc hle
    rw [chunkedLoop]
    by_cases hmore : accepted.length < count ∧ start < candidates
    · set stop := min (saturatingAdd usizeBits start (saturatingMul usizeBits count 2)) candidates with hstop
      have hprogress : start < stop ∧ stop ≤ candidates := by
        unfold saturatingAdd saturatingMul at hstop
        omega
      have hdecoded : (range' start (stop - start)).mapM accept = .ok ((range' start (stop - start)).map g) := by
        apply mapM_ok_of_forall
        intro j hj
        have hj' := mem_range'_1.1 hj
        exact hacc j (by omega)
      have hfilter : ((range' start (stop - start)).map g).filterMap id = (range' start (stop - start)).filterMap g := by
        rw [filterMap_map]
        rfl
      have hsplit : range' start (candidates - start) =
          range' start (stop - start) ++ range' stop (candidates - stop) := by
        have hend : start + (stop - start) = stop := by omega
        have hsum : stop - start + (candidates - stop) = candidates - start := by omega
        have happ := range'_append_1 (s := start) (m := stop - start) (n := candidates - stop)
        rw [hend, hsum] at happ
        exact happ.symm
      rw [if_pos hmore]
      dsimp only
      rw [hdecoded, ok_bind, hfilter, hsplit, filterMap_append]
      set first := (range' start (stop - start)).filterMap g
      set rest := (range' stop (candidates - stop)).filterMap g with hrest
      rw [ih stop _ (by omega) hacc (by rw [length_append, length_take]; omega), ← hrest, append_assoc,
        ← take_append_take first rest, length_append, Nat.sub_add_eq]
    · rw [if_neg hmore]
      have hnone : ((range' start (candidates - start)).filterMap g).take (count - accepted.length) = [] := by
        by_cases hfull : accepted.length < count
        · have hzero : candidates - start = 0 := by omega
          simp [hzero]
        · have hzero : count - accepted.length = 0 := by omega
          simp [hzero]
      rw [hnone, append_nil]

/-- The first `count` of a pool, if it holds as many. -/
def firstOf (pool : List SparseChallenge) (count : ℕ) : Option (List SparseChallenge) :=
  if pool.length < count then none else some (pool.take count)

theorem firstAccepted_eq {stream : SparseChallengeStream} (feature : Bool) (hcount : 0 < stream.count)
    (hcand : stream.candidates < 2 ^ usizeBits) (hacc : ∀ j < stream.candidates, accept j = .ok (g j)) :
    firstAccepted stream feature accept = .ok (firstOf ((range stream.candidates).filterMap g) stream.count) := by
  have hfull : full stream (((range stream.candidates).filterMap g).take stream.count) =
      firstOf ((range stream.candidates).filterMap g) stream.count := by
    unfold full firstOf
    rw [length_take]
    by_cases hlt : ((range stream.candidates).filterMap g).length < stream.count
    · rw [if_neg (by omega), if_pos hlt]
    · rw [if_pos (by omega), if_neg hlt]
  unfold firstAccepted
  split
  · rw [chunkedLoop_eq hcount hcand stream.candidates 0 [] (by omega) hacc (by simp), ok_bind, pure_eq_ok, Nat.sub_zero,
      ← range_eq_range', nil_append, length_nil, Nat.sub_zero, hfull]
  · rw [firstAcceptedLoop_eq _ [] (fun j hj => hacc j (mem_range.1 hj)) (by simp), ok_bind, pure_eq_ok, nil_append,
      length_nil, Nat.sub_zero, hfull]

end

section

variable {d : ℕ} {config : SparseChallengeConfig}

theorem exists_ok_of_isSome {α : Type*} {x : Result α} (h : x.toOption.isSome = true) : ∃ a, x = .ok a := by
  cases x with
  | ok a => exact ⟨a, rfl⟩
  | error e => simp [Except.toOption] at h

theorem d64_table : ∃ table, selectiveTable "D64" 64 d64SelectiveL2ChallengeConfig d64SelectiveL2 = .ok table := by
  apply exists_ok_of_isSome
  decide +kernel

theorem d128_table : ∃ table, selectiveTable "D128" 128 d128SelectiveL2ChallengeConfig d128SelectiveL2 = .ok table := by
  apply exists_ok_of_isSome
  decide +kernel

theorem selectiveTable_ok {name : String} {policy : OperatorNormRejection} {table : OpNormTable}
    (h : selectiveTable name d config policy = .ok table) : table.Ok d 48 config.l1Norm policy.threshold := by
  simp only [selectiveTable, result_ok, mapErr_eq_ok] at h
  obtain ⟨table', hnew, -, rfl⟩ := h
  exact new_eq_ok hnew

/-- **The policy of a validated filter** has its table, for the family it covers. -/
theorem policy_ok {rejection : OperatorNormRejection} (h : rejection.validate d config = .ok ()) :
    ∃ table, ChallengePolicy.new d config (some rejection) = .ok (.operatorNorm rejection.threshold table) ∧
      table.Ok d 48 config.l1Norm rejection.threshold := by
  have hcases := ensure_eq_ok.1 h
  rw [ChallengePolicy.new, h]
  rcases hcases with ⟨rfl, rfl, rfl⟩ | ⟨rfl, rfl, rfl⟩
  · obtain ⟨table, htable⟩ := d64_table
    refine ⟨table, ?_, selectiveTable_ok htable⟩
    rw [if_pos rfl, htable]
    rfl
  · obtain ⟨table, htable⟩ := d128_table
    refine ⟨table, ?_, selectiveTable_ok htable⟩
    rw [if_neg (by decide), if_pos rfl, htable]
    rfl

end

section decode

variable {d : ℕ} {config : SparseChallengeConfig} {rejection : Option OperatorNormRejection} {shell : SparseChallengeShell}
  {R : ℕ} {c : SparseChallenge}

/-- The strict predicate on a challenge. -/
def accepts (table : OpNormTable) (threshold : ℕ) (challenge : SparseChallenge) : Bool :=
  table.decideParts challenge.positions challenge.coeffs threshold == .ok (some .accept)

/-- Candidate `index` of a message. -/
noncomputable def candidateAt (shell : SparseChallengeShell) (message : List UInt8) (index : ℕ) : Option SparseChallenge :=
  challengeOf shell (window message (index * shell.candidateBits) shell.candidateBits)

theorem challengeOf_eq_some (h : challengeOf shell R = some c) :
    R / 2 ^ (shell.config.countPm1 + shell.config.countPm2) < shell.rankSpace ∧
      c = challengeAt shell (R / 2 ^ (shell.config.countPm1 + shell.config.countPm2)) R := by
  unfold challengeOf at h
  dsimp only at h
  split at h
  · exact ⟨by assumption, (Option.some.inj h).symm⟩
  · simp at h

theorem challenge_shape (h : shell.Ok) (hc : challengeOf shell R = some c) :
    c.positions.Nodup ∧ (∀ p ∈ c.positions, p < shell.ringD) ∧
      c.positions.length = shell.config.countPm1 + shell.config.countPm2 ∧
      c.coeffs.length = shell.config.countPm1 + shell.config.countPm2 := by
  obtain ⟨hrank, rfl⟩ := challengeOf_eq_some hc
  obtain ⟨-, hbelow1, hlen1⟩ := pm1_spec h (R / 2 ^ (shell.config.countPm1 + shell.config.countPm2))
  obtain ⟨-, hbelow2, hlen2⟩ := pm2At_spec h hrank
  refine ⟨positions_nodup h hrank, ?_, ?_, by simp [challengeAt]⟩
  · intro p hp
    rcases mem_append.1 hp with hp | hp
    · exact hbelow1 p hp
    · exact (hbelow2 p hp).1
  · rw [challengeAt_positions, length_append, hlen1, hlen2]

theorem l1_coeffs (a b : ℕ) (s : ℕ → Bool) :
    OpNorm.l1Norm ((range (a + b)).map fun i => coeffOf a i (s i)) = a + 2 * b := by
  have hmap : ((range (a + b)).map fun i => coeffOf a i (s i)).map (fun c => |c|) =
      (range (a + b)).map fun i => if i < a then (1 : ℤ) else 2 := by
    rw [map_map]
    apply map_congr_left
    intro i _
    exact abs_coeffOf a i (s i)
  unfold OpNorm.l1Norm
  rw [hmap, range_add, map_append, sum_append, map_map]
  have h1 : ((range a).map fun i => if i < a then (1 : ℤ) else 2) = (range a).map fun _ => 1 := by
    apply map_congr_left
    intro i hi
    rw [if_pos (mem_range.1 hi)]
  have h2 : ((range b).map ((fun i => if i < a then (1 : ℤ) else 2) ∘ fun x => a + x)) = (range b).map fun _ => 2 := by
    apply map_congr_left
    intro i _
    simp
  rw [h1, h2]
  simp
  ring

/-- **The filter** on a candidate: the certified predicate decides every decoded challenge. -/
theorem acceptCandidate_eq {stream : SparseChallengeStream} {message : List UInt8} (h : shell.Ok) {binomials : BinomialTable}
    {index threshold : ℕ} {table : OpNormTable} (ht : table.Ok shell.ringD 48 shell.config.l1Norm threshold)
    (hcand : candidate stream message binomials index = .ok (candidateAt shell message index)) :
    acceptCandidate stream message binomials threshold table index =
      .ok ((candidateAt shell message index).filter (accepts table threshold)) := by
  unfold acceptCandidate
  rw [hcand, ok_bind]
  cases hc : candidateAt shell message index with
  | none => rfl
  | some c =>
    obtain ⟨-, hbelow, hlenp, hlenc⟩ := challenge_shape h hc
    obtain ⟨-, hat⟩ := challengeOf_eq_some hc
    have hl1 : OpNorm.l1Norm c.coeffs ≤ shell.config.l1Norm := by
      have hw := h.weight_le
      have hd := h.d_le
      rw [hat, challengeAt, l1_coeffs]
      unfold SparseChallengeConfig.l1Norm saturatingAdd saturatingMul usizeBits
      unfold maxRingDim at hd
      push_cast
      omega
    obtain ⟨v, hv, -, -⟩ := decideParts_spec ht (by rw [hlenp, hlenc]) hbelow hl1 le_rfl
    have hstrict : table.acceptStrictParts c.positions c.coeffs threshold = .ok (some (v == .accept)) := by
      unfold OpNormTable.acceptStrictParts
      rw [hv]
      rfl
    have hacc : accepts table threshold c = (v == .accept) := by
      unfold accepts
      rw [hv]
      cases v <;> decide
    dsimp only
    rw [hstrict, ok_bind]
    change Except.ok (if (v == .accept) = true then some c else none) = _
    rw [Option.filter_some, hacc]

theorem challengeOf_eq_none : challengeOf shell R = none ↔
    shell.rankSpace ≤ R / 2 ^ (shell.config.countPm1 + shell.config.countPm2) := by
  unfold challengeOf
  dsimp only
  split
  · simp only [reduceCtorEq, false_iff]
    omega
  · simp only [true_iff]
    omega

section

variable {count : ℕ} {stream : SparseChallengeStream} {message : List UInt8}

section

variable (h : shell.Ok)

include h

theorem candidates_eq (hstream : shell.stream count = .ok stream) (hlen : message.length = stream.messageLen) :
    ∃ binomials, BinomialTable.new shell.ringD (max shell.config.countPm1 shell.config.countPm2) = .ok binomials ∧
      ∀ index < stream.candidates, candidate stream message binomials index = .ok (candidateAt shell message index) := by
  have hw := h.weight_le
  obtain ⟨binomials, hnew, hok⟩ := binomialTable_new h.d_le
    (by omega : max shell.config.countPm1 shell.config.countPm2 ≤ shell.ringD)
  exact ⟨binomials, hnew, fun _ hindex => candidate_eq h hstream hlen hok hindex⟩

theorem exists_candidateAt (hfilter : shell.rejection = none) (message : List UInt8) (index : ℕ) :
    ∃ c, candidateAt shell message index = some c := by
  rw [← Option.ne_none_iff_exists']
  intro hout
  have hle := challengeOf_eq_none.1 hout
  have hwin : window message (index * shell.candidateBits) shell.candidateBits /
      2 ^ (shell.config.countPm1 + shell.config.countPm2) < 2 ^ shell.rankBits := by
    apply Nat.div_lt_of_lt_mul
    rw [← pow_add, add_comm, ← h.bits_eq]
    exact window_lt _ _ _
  have hspace := h.unfiltered hfilter
  omega

theorem decode_unfiltered (hstream : shell.stream count = .ok stream) (hlen : message.length = stream.messageLen)
    (hfilter : shell.rejection = none) (feature : Bool) : ∃ challenges, stream.decode feature message = .ok (some challenges) ∧
      challenges.map some = (range count).map (candidateAt shell message) := by
  obtain ⟨hs, hcount, -, hcand, -, -, -⟩ := stream_ok hstream
  obtain ⟨binomials, hnew, hcandidate⟩ := candidates_eq h hstream hlen
  choose g hg using exists_candidateAt h hfilter message
  have hall : decodeAll stream message binomials = .ok ((range stream.count).map g) := by
    apply mapM_ok_of_forall
    intro index hindex
    have hindex' : index < stream.candidates := by
      rw [hcand hfilter, ← hcount]
      exact mem_range.1 hindex
    rw [hcandidate index hindex', ok_bind, hg index]
    rfl
  refine ⟨(range stream.count).map g, ?_, ?_⟩
  · unfold SparseChallengeStream.decode
    rw [ensure_bind hlen, hs, hfilter, ChallengePolicy.new, ok_bind, hnew, ok_bind]
    dsimp only
    rw [hall, ok_bind]
    rfl
  · rw [hcount, map_map]
    apply map_congr_left
    intro index _
    exact (hg index).symm

theorem decode_filtered (hstream : shell.stream count = .ok stream) (hlen : message.length = stream.messageLen)
    {policy : OperatorNormRejection} (hpolicy : shell.rejection = some policy) :
    ∃ table, ChallengePolicy.new shell.ringD shell.config shell.rejection = .ok (.operatorNorm policy.threshold table) ∧
      ∀ feature, stream.decode feature message = .ok (firstOf ((range stream.candidates).filterMap fun index =>
        (candidateAt shell message index).filter (accepts table policy.threshold)) count) := by
  obtain ⟨hs, hcount, hpos, -, hlt, -, -⟩ := stream_ok hstream
  obtain ⟨binomials, hnew, hcand⟩ := candidates_eq h hstream hlen
  obtain ⟨-, hvalid⟩ := h.filtered policy hpolicy
  obtain ⟨table, htable, htok⟩ := policy_ok hvalid
  refine ⟨table, by rw [hpolicy]; exact htable, ?_⟩
  intro feature
  have hsmall : stream.candidates < 2 ^ usizeBits := by
    have := Nat.le_mul_of_pos_right stream.candidates h.bits_pos
    omega
  have hfirst := firstAccepted_eq feature (by omega) hsmall fun index hindex => acceptCandidate_eq h htok (hcand index hindex)
  unfold SparseChallengeStream.decode
  rw [ensure_bind hlen, hs, hpolicy, htable, ok_bind, hnew, ok_bind]
  dsimp only
  rw [hfirst, hcount]

/-- **Every decoded challenge** is that of an integer. -/
theorem decode_mem (hstream : shell.stream count = .ok stream) {feature : Bool} {challenges : List SparseChallenge}
    (hdecode : stream.decode feature message = .ok (some challenges)) (hc : c ∈ challenges) :
    ∃ R, challengeOf shell R = some c := by
  have hlen : message.length = stream.messageLen := by
    unfold SparseChallengeStream.decode at hdecode
    obtain ⟨_, hlen, -⟩ := bind_eq_ok.1 hdecode
    exact ensure_eq_ok.1 hlen
  cases hrej : shell.rejection with
  | none =>
    obtain ⟨challenges', hdecode', hmap⟩ := decode_unfiltered h hstream hlen hrej feature
    obtain rfl : challenges = challenges' := by simpa [hdecode] using hdecode'
    have hsome : some c ∈ (range count).map (candidateAt shell message) := hmap ▸ mem_map_of_mem hc
    obtain ⟨index, -, hindex⟩ := mem_map.1 hsome
    exact ⟨_, hindex⟩
  | some policy =>
    obtain ⟨table, -, hfiltered⟩ := decode_filtered h hstream hlen hrej
    have hfirst := hfiltered feature
    rw [hdecode, Except.ok.injEq, firstOf] at hfirst
    split at hfirst
    · cases hfirst
    · rw [Option.some.inj hfirst] at hc
      obtain ⟨index, -, hindex⟩ := mem_filterMap.1 (mem_of_mem_take hc)
      exact ⟨_, (Option.filter_eq_some_iff.1 hindex).1⟩

end

end

/-- **Sparse challenge decoding is a bijection onto the challenge shell.** A candidate is a function
`challengeOf` of its `K`-bit window alone and decoding it never fails; it is none exactly when the position rank is
out of range, and otherwise a challenge of the family. Distinct integers in range have distinct
challenge vectors, and when the rank width covers the rank space every shell vector has exactly
one integer. A message without a filter decodes to its candidates in order; with the
operator-norm filter it decodes, sequentially or in chunks, to the first accepted candidates of
the pool, and to none exactly when the pool holds fewer. -/
theorem sparse_decode_exact (hshell : SparseChallengeShell.validated d config rejection = .ok shell) :
    (∀ R < 2 ^ shell.candidateBits,
      (challengeOf shell R = none ↔ shell.rankSpace ≤ R / 2 ^ (config.countPm1 + config.countPm2)) ∧
      ∀ c, challengeOf shell R = some c → c.positions.Nodup ∧ (∀ p ∈ c.positions, p < d) ∧
        c.positions.length = config.countPm1 + config.countPm2 ∧ c.coeffs.length = config.countPm1 + config.countPm2 ∧
        c.vector ∈ shellVectors d config.countPm1 config.countPm2) ∧
    (∀ R < 2 ^ shell.candidateBits, ∀ R' < 2 ^ shell.candidateBits, ∀ c c', challengeOf shell R = some c →
      challengeOf shell R' = some c' → c.vector = c'.vector → R = R') ∧
    (shell.rankSpace ≤ 2 ^ shell.rankBits → ∀ v ∈ shellVectors d config.countPm1 config.countPm2,
      ∃! R, R < 2 ^ shell.candidateBits ∧ ∃ c, challengeOf shell R = some c ∧ c.vector = v) ∧
    ∀ (count : ℕ) (stream : SparseChallengeStream) (message : List UInt8), shell.stream count = .ok stream →
      message.length = stream.messageLen →
      (∃ binomials, BinomialTable.new d (max config.countPm1 config.countPm2) = .ok binomials ∧
        ∀ index < stream.candidates, candidate stream message binomials index =
          .ok (challengeOf shell (window message (index * shell.candidateBits) shell.candidateBits))) ∧
      (rejection = none → ∀ feature, ∃ challenges, stream.decode feature message = .ok (some challenges) ∧
        challenges.map some = (List.range count).map (candidateAt shell message)) ∧
      ∀ policy, rejection = some policy → ∃ table,
        ChallengePolicy.new d config rejection = .ok (.operatorNorm policy.threshold table) ∧
        ∀ feature, stream.decode feature message = .ok (firstOf ((List.range stream.candidates).filterMap fun index =>
          (candidateAt shell message index).filter (accepts table policy.threshold)) count) := by
  obtain ⟨h, hd, hconfig, hrej⟩ := validated_ok hshell
  subst hd hconfig hrej
  have hinj : ∀ R R' c c', challengeOf shell R = some c → challengeOf shell R' = some c' → c.vector = c'.vector → R = R' := by
    intro R R' c c' hc hc' heq
    obtain ⟨hrank, rfl⟩ := challengeOf_eq_some hc
    obtain ⟨hrank', rfl⟩ := challengeOf_eq_some hc'
    exact vector_injective h rfl hrank hrank' heq
  refine ⟨?_, fun R _ R' _ => hinj R R', ?_, ?_⟩
  · intro R _
    refine ⟨challengeOf_eq_none, ?_⟩
    intro c hc
    obtain ⟨hnodup, hbelow, hlenp, hlenc⟩ := challenge_shape h hc
    obtain ⟨hrank, rfl⟩ := challengeOf_eq_some hc
    exact ⟨hnodup, hbelow, hlenp, hlenc, vector_mem_shell h hrank⟩
  · intro hfull v hv
    obtain ⟨R, hR, hrank, hvec⟩ := vector_surjective h hfull rfl hv
    have hc : challengeOf shell R = some (challengeAt shell (R / 2 ^ (shell.config.countPm1 + shell.config.countPm2)) R) := by
      unfold challengeOf
      rw [if_pos hrank]
    refine ⟨R, ⟨hR, _, hc, hvec⟩, ?_⟩
    intro R' hR'
    obtain ⟨-, c', hc', hvec'⟩ := hR'
    exact hinj R' R c' _ hc' hc (hvec'.trans hvec.symm)
  · intro count stream message hstream hlen
    refine ⟨candidates_eq h hstream hlen, ?_, ?_⟩
    · intro hfilter feature
      exact decode_unfiltered h hstream hlen hfilter feature
    · intro policy hpolicy
      exact decode_filtered h hstream hlen hpolicy

theorem sparse_decode_exact_six : ∃ shell, SparseChallengeShell.validated 6 ⟨2, 1⟩ none = .ok shell ∧
    (∀ R < 2 ^ shell.candidateBits, (challengeOf shell R = none ↔ shell.rankSpace ≤ R / 2 ^ 3)) ∧
    ∃ stream challenges, shell.stream 3 = .ok stream ∧ stream.decode true (List.replicate 8 77) = .ok (some challenges) ∧
      challenges.map some = (List.range 3).map (candidateAt shell (List.replicate 8 77)) := by
  have hrun : (do (← SparseChallengeShell.validated 6 ⟨2, 1⟩ none).stream 3 : Result SparseChallengeStream).toOption.map
      SparseChallengeStream.messageLen = some 8 := by decide +kernel
  cases hshell : SparseChallengeShell.validated 6 ⟨2, 1⟩ none with
  | error e =>
    rw [hshell] at hrun
    simp [bind, Except.bind, Except.toOption] at hrun
  | ok shell =>
    rw [hshell, ok_bind] at hrun
    obtain ⟨hints, -, -, hmessages⟩ := sparse_decode_exact hshell
    cases hstream : shell.stream 3 with
    | error e =>
      rw [hstream] at hrun
      simp [Except.toOption] at hrun
    | ok stream =>
      have hlen : stream.messageLen = 8 := by simpa [hstream, Except.toOption] using hrun
      obtain ⟨-, hplain, -⟩ := hmessages 3 stream (List.replicate 8 77) hstream (by rw [hlen]; rfl)
      obtain ⟨challenges, hdecode, hmap⟩ := hplain rfl true
      exact ⟨shell, rfl, fun R hR => (hints R hR).1, stream, challenges, hstream, hdecode, hmap⟩

end decode

end Akita.SparseStream
