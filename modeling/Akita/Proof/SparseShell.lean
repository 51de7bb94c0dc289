import Akita.Lib.Colex
import Akita.Lib.Enumerate
import Akita.Lib.Summary
import Akita.Spec.SparseStream

/-!
# Candidates of a shell

A rank becomes a set of positions through the table of binomials, and a window of the message becomes
a candidate of the family.
-/

/-!
## Bit windows of a challenge message

`read_bits` returns the window of the message's little-endian integer, wherever it lies in the
words, and the coefficients of a candidate are its sign bits in order.
-/

namespace Akita.SparseStream

open Lib List

/-- Window of `width` bits from bit `offset` of a message. -/
def window (message : List UInt8) (offset width : ℕ) : ℕ := leValue message / 2 ^ offset % 2 ^ width

theorem testBit_window (message : List UInt8) (offset width j : ℕ) :
    (window message offset width).testBit j = (decide (j < width) && (leValue message).testBit (offset + j)) := by
  rw [window, Nat.testBit_mod_two_pow, Nat.testBit_div_two_pow, add_comm offset j]

theorem window_lt (message : List UInt8) (offset width : ℕ) : window message offset width < 2 ^ width :=
  Nat.mod_lt _ (by positivity)

theorem window_window (message : List UInt8) {offset width lo len : ℕ} (h : lo + len ≤ width) :
    window message (offset + lo) len = window message offset width / 2 ^ lo % 2 ^ len := by
  apply Nat.eq_of_testBit_eq
  intro j
  rw [testBit_window, Nat.testBit_mod_two_pow, Nat.testBit_div_two_pow, testBit_window]
  by_cases hj : j < len
  · have hin : j + lo < width := by omega
    simp only [hj, hin, decide_true, Bool.true_and]
    congr 1
    ring
  · simp [hj]

section

variable {message : List UInt8} {offset width : ℕ}

theorem word_eq {index : ℕ} (h : 8 * (index + 1) ≤ message.length) :
    word message index = .ok (window message (64 * index) 64) := by
  unfold word
  rw [if_pos (by unfold wordBytes; omega)]
  change Except.ok _ = Except.ok _
  rw [Except.ok.injEq]
  apply Nat.eq_of_testBit_eq
  intro j
  rw [testBit_leValue, testBit_window, testBit_leValue]
  by_cases hj : j < 64
  · rw [bitAt_take_drop message (by unfold wordBytes; omega)]
    simp only [hj, decide_true, Bool.true_and]
    congr 1
    unfold wordBytes
    ring
  · rw [bitAt_of_ge (by simp [wordBytes]; omega)]
    simp [hj]

theorem orWord_eq {value index shift : ℕ} {more : Bool} (h : more = true → 8 * (index + 1) ≤ message.length) :
    orWord message value index shift more =
      .ok (if more then value ||| wrapping 128 (window message (64 * index) 64 <<< shift) else value) := by
  unfold orWord
  by_cases hmore : more = true
  · rw [if_pos hmore, if_pos hmore, word_eq (h hmore)]
    rfl
  · rw [if_neg hmore, if_neg hmore]

theorem testBit_first (message : List UInt8) (offset j : ℕ) :
    (window message (64 * (offset / 64)) 64 >>> (offset % 64)).testBit j =
      (decide (offset % 64 + j < 64) && (leValue message).testBit (offset + j)) := by
  rw [Nat.testBit_shiftRight, testBit_window]
  congr 2
  omega

theorem testBit_later (message : List UInt8) (offset i j : ℕ) :
    (wrapping 128 (window message (64 * (offset / 64 + (i + 1))) 64 <<< (64 * (i + 1) - offset % 64))).testBit j =
      (decide (j < 128 ∧ 64 * (i + 1) ≤ offset % 64 + j ∧ offset % 64 + j < 64 * (i + 2)) &&
        (leValue message).testBit (offset + j)) := by
  rw [wrapping, Nat.testBit_mod_two_pow, Nat.testBit_shiftLeft, testBit_window]
  by_cases hge : 64 * (i + 1) ≤ offset % 64 + j
  · have hindex : 64 * (offset / 64 + (i + 1)) + (j - (64 * (i + 1) - offset % 64)) = offset + j := by omega
    have h1 : j ≥ 64 * (i + 1) - offset % 64 := by omega
    have h2 : j - (64 * (i + 1) - offset % 64) < 64 ↔ offset % 64 + j < 64 * (i + 2) := by omega
    simp only [hindex, h1, h2, hge, decide_true, Bool.true_and, true_and, Bool.decide_and, Bool.and_assoc]
  · have h1 : ¬ j ≥ 64 * (i + 1) - offset % 64 := by omega
    simp [h1, hge]

/-- **`read_bits`** inside a message of whole words. -/
theorem readBits_eq (hlen : message.length % 8 = 0) (hwidth : width ≤ 128) (hend : offset + width ≤ 8 * message.length) :
    readBits message offset width = .ok (window message offset width) := by
  unfold readBits
  rw [(ensure_eq_ok (u := ())).2 (by omega : ¬ width > 128)]
  by_cases hzero : width = 0
  · subst hzero
    simp [window, Nat.mod_one, ok_run]
  · change (if width = 0 then _ else _) = _
    rw [if_neg hzero]
    change (word message (offset / 64) >>= fun w =>
      orWord message (w >>> (offset % 64)) (offset / 64 + 1) (64 - offset % 64)
        (decide ((offset + width - 1) / 64 > offset / 64)) >>= fun value =>
      orWord message value (offset / 64 + 2) (128 - offset % 64)
        (decide ((offset + width - 1) / 64 > offset / 64 + 1)) >>= fun value =>
      pure (if width < 128 then value &&& (2 ^ width - 1) else value)) = _
    have hfirst : 8 * (offset / 64 + 1) ≤ message.length := by omega
    have hsecond : decide ((offset + width - 1) / 64 > offset / 64) = true → 8 * (offset / 64 + 1 + 1) ≤ message.length := by
      intro h
      have := of_decide_eq_true h
      omega
    have hthird : decide ((offset + width - 1) / 64 > offset / 64 + 1) = true → 8 * (offset / 64 + 2 + 1) ≤ message.length := by
      intro h
      have := of_decide_eq_true h
      omega
    rw [word_eq hfirst, ok_bind, orWord_eq hsecond, ok_bind, orWord_eq hthird, ok_bind, pure_eq_ok]
    apply Nat.eq_of_testBit_eq
    intro j
    have h0 := testBit_first message offset j
    have h1 : (wrapping 128 (window message (64 * (offset / 64 + 1)) 64 <<< (64 - offset % 64))).testBit j =
        (decide (j < 128 ∧ 64 ≤ offset % 64 + j ∧ offset % 64 + j < 128) && (leValue message).testBit (offset + j)) :=
      testBit_later message offset 0 j
    have h2 : (wrapping 128 (window message (64 * (offset / 64 + 2)) 64 <<< (128 - offset % 64))).testBit j =
        (decide (j < 128 ∧ 128 ≤ offset % 64 + j ∧ offset % 64 + j < 192) && (leValue message).testBit (offset + j)) :=
      testBit_later message offset 1 j
    rw [testBit_window]
    -- every bit of the window lies in one of the words read
    cases hB : (leValue message).testBit (offset + j) with
    | false =>
      rw [hB, Bool.and_false] at h0 h1 h2
      rw [Bool.and_false]
      split_ifs <;> simp [h0, h1, h2]
    | true =>
      rw [hB, Bool.and_true] at h0 h1 h2
      rw [Bool.and_true, Bool.eq_iff_iff]
      split_ifs with hthree htwo hw <;>
        simp only [h0, h1, h2, Nat.testBit_and, Nat.testBit_or, Nat.testBit_two_pow_sub_one, Bool.or_eq_true, Bool.and_eq_true,
          decide_eq_true_eq] at * <;>
        omega

end

/-- The coefficient of place `i`: magnitude 1 for the first `a`, else 2, negative if its bit is set. -/
def coeffOf (a i : ℕ) (negative : Bool) : ℤ := (if i < a then 1 else 2) * (if negative then -1 else 1)

theorem signedCoeffs_eq (a offset take signs : ℕ) :
    signedCoeffs a offset take signs = (range take).map fun bit => coeffOf a (offset + bit) (signs.testBit bit) := by
  apply map_congr_left
  intro bit _
  have hbit : (signs >>> bit) &&& 1 = (signs.testBit bit).toNat := by
    rw [Nat.and_one_is_mod, Nat.shiftRight_eq_div_pow, Nat.testBit_eq_decide_div_mod_eq]
    rcases Nat.mod_two_eq_zero_or_one (signs / 2 ^ bit) with h | h <;> simp [h]
  simp only [hbit, coeffOf]
  by_cases hmag : offset + bit < a
  · rw [if_neg (by omega), if_pos hmag]
    cases signs.testBit bit <;> simp
  · rw [if_pos (by omega), if_neg hmag]
    cases signs.testBit bit <;> simp

/-- **The coefficients** of a candidate are read off its low bits, in order. -/
theorem readCoeffs_eq {message : List UInt8} {start a weight : ℕ} (hlen : message.length % 8 = 0)
    (hend : start + weight ≤ 8 * message.length) : readCoeffs message start a weight =
      .ok ((range weight).map fun i => coeffOf a i ((leValue message).testBit (start + i))) := by
  have hword : ∀ i ∈ range ((weight + 63) / 64), (do
      let signs ← readBits message (start + i * 64) (min (weight - i * 64) 64)
      return signedCoeffs a (i * 64) (min (weight - i * 64) 64) signs : Result (List ℤ)) =
      .ok ((range' (i * 64) (min (weight - i * 64) 64)).map fun i => coeffOf a i ((leValue message).testBit (start + i))) := by
    intro i hi
    have hi' := mem_range.1 hi
    rw [readBits_eq hlen (by omega) (by omega), ok_bind, signedCoeffs_eq, pure_eq_ok, range'_eq_map_range, map_map]
    apply map_congr_left
    intro bit hbit
    have hbit' := mem_range.1 hbit
    simp only [Function.comp_apply, testBit_window, hbit', decide_true, Bool.true_and, add_assoc]
  have hseg := flatMap_range_segments (n := (weight + 63) / 64) (fun i => min (i * 64) weight) (fun i => min (weight - i * 64) 64)
    (by simp) (by intro i hi; omega)
  unfold readCoeffs
  rw [mapM_ok_of_forall hword, ok_bind, pure_eq_ok, ← flatMap_def, ← map_flatMap]
  congr 1
  have hall : min ((weight + 63) / 64 * 64) weight = weight := by omega
  rw [hall] at hseg
  rw [← hseg]
  apply flatMap_congr
  intro i hi
  have hi' := mem_range.1 hi
  congr 1
  omega

/-!
## Unranking through the binomial table

The saturating columns of the table hold the binomials as far as a rank can tell, so `unrank` finds
the greedy set of its rank, and `map_to_complement` renumbers a set past the taken positions.
-/

section

/-- The table's entry: the binomial, cut at `u128::MAX`. -/
def satChoose (n k : ℕ) : ℕ := min (n.choose k) (2 ^ 128 - 1)

theorem saturatingAdd_satChoose (n k : ℕ) :
    saturatingAdd 128 (satChoose n (k + 1)) (satChoose n k) = satChoose (n + 1) (k + 1) := by
  unfold saturatingAdd satChoose
  rw [Nat.choose_succ_succ']
  omega

theorem columnSums_eq (k : ℕ) : ∀ len n : ℕ,
    columnSums (satChoose n (k + 1)) ((range' n len).map fun n => satChoose n k) =
      (range' (n + 1) len).map fun n => satChoose n (k + 1) := by
  intro len
  induction len with
  | zero => intro n; rfl
  | succ len ih =>
    intro n
    simp only [range'_succ, map_cons, columnSums, saturatingAdd_satChoose, ih (n + 1)]

theorem nextColumn_eq (d k : ℕ) :
    nextColumn ((range (d + 1)).map fun n => satChoose n k) = (range (d + 1)).map fun n => satChoose n (k + 1) := by
  have hlast : ((range (d + 1)).map fun n => satChoose n k).dropLast = (range' 0 d).map fun n => satChoose n k := by
    rw [range_succ, map_append, map_singleton, dropLast_concat, range_eq_range']
  have hzero : satChoose 0 (k + 1) = 0 := by simp [satChoose]
  have hsums := columnSums_eq k d 0
  rw [hzero] at hsums
  rw [nextColumn, hlast, hsums, range_eq_range', range'_succ, map_cons, hzero]

theorem iterate_nextColumn (d k : ℕ) :
    nextColumn^[k] (replicate (d + 1) 1) = (range (d + 1)).map fun n => satChoose n k := by
  induction k with
  | zero =>
    have hone : ∀ n, satChoose n 0 = 1 := by intro n; simp [satChoose]
    simp [hone]
  | succ k ih => rw [Function.iterate_succ_apply', ih, nextColumn_eq]

/-- What `BinomialTable::new` establishes: the columns read the binomials. -/
def BinomialTable.Ok (table : BinomialTable) (d m : ℕ) : Prop :=
  ∀ k ≤ m, ∀ upper ≤ d + 1, table.column k upper = .ok ((List.range upper).map fun n => satChoose n k)

theorem binomialTable_new {d m : ℕ} (hd : d ≤ maxRingDim) (hm : m ≤ d) : ∃ table, BinomialTable.new d m = .ok table ∧ table.Ok d m := by
  have hsize : (d + 1) * (m + 1) < 2 ^ usizeBits := by
    have h1 : d + 1 ≤ 2049 := by unfold maxRingDim at hd; omega
    have h2 : m + 1 ≤ 2049 := by omega
    calc (d + 1) * (m + 1) ≤ 2049 * 2049 := Nat.mul_le_mul h1 h2
      _ < 2 ^ usizeBits := by norm_num [usizeBits]
  refine ⟨_, bind_eq_ok.2 ⟨_, okOr_eq_ok.2 (checkedMul_eq_some.2 ⟨hsize, rfl⟩), rfl⟩, ?_⟩
  intro k hk upper hupper
  unfold BinomialTable.column
  rw [okOr_eq_ok, if_pos ⟨hk, hupper⟩]
  have hget : ((range (m + 1)).map fun k => nextColumn^[k] (replicate (d + 1) 1))[k]? =
      some ((range (d + 1)).map fun n => satChoose n k) := by
    rw [getElem?_map, getElem?_range (by omega), Option.map_some, iterate_nextColumn]
  simp only [hget, Option.bind_some, length_map, length_range, hupper, if_true, ← map_take, take_range,
    min_eq_left hupper]

end

section

/-- The scan from the top finds the greatest index whose entry is within the rank. -/
theorem rfindLe_eq (rank : ℕ) {f : ℕ → ℕ} (h0 : f 0 ≤ rank) (u : ℕ) : rfindLe rank ((range (u + 1)).map f) =
      some (Nat.findGreatest (fun c => f c ≤ rank) u, f (Nat.findGreatest (fun c => f c ≤ rank) u)) := by
  have hzip : ∀ u, (((range u).map f).zipIdx.map fun entry => (entry.2, entry.1)) = (range u).map fun c => (c, f c) := by
    intro u
    apply ext_getElem
    · simp
    · intro i h1 h2
      simp
  unfold rfindLe
  rw [hzip, findRev?_eq_find?_reverse]
  induction u with
  | zero => simp [h0]
  | succ u ih =>
    rw [range_succ, map_append, map_singleton, reverse_append, reverse_singleton,
      singleton_append, find?_cons, Nat.findGreatest_succ]
    by_cases htop : f (u + 1) ≤ rank
    · simp [htop]
    · simp only [htop, decide_false, if_false]
      exact ih

theorem satChoose_le_iff {n k rank : ℕ} (h : rank < 2 ^ 128 - 1) : satChoose n k ≤ rank ↔ n.choose k ≤ rank := by
  unfold satChoose
  omega

variable {table : BinomialTable} {d m : ℕ}

/-- **The loop of `unrank`** finds the greedy set of its rank. -/
theorem unrankLoop_eq (ht : table.Ok d m) (hd : d ≤ maxRingDim) : ∀ (k : ℕ) {rank upper : ℕ}, k ≤ m → upper ≤ d →
    rank < upper.choose k → rank < 2 ^ 128 - 1 →
      unrankLoop table k rank upper = .ok (0, (colexUnrank k upper rank).reverse) := by
  intro k
  induction k with
  | zero =>
    intro rank upper _ _ hrank _
    have hzero : rank = 0 := by simpa using hrank
    subst hzero
    rfl
  | succ k ih =>
    intro rank upper hk hupper hrank hmax
    have hpos : 0 < upper := by
      rcases Nat.eq_zero_or_pos upper with h0 | h0
      · subst h0; simp at hrank
      · exact h0
    obtain ⟨hlt, hle, hrest⟩ := greedy_step hrank
    have hgreatest : Nat.findGreatest (fun c => satChoose c (k + 1) ≤ rank) (upper - 1) =
        Nat.findGreatest (fun c => c.choose (k + 1) ≤ rank) (upper - 1) := by
      congr 1
      funext c
      exact propext (satChoose_le_iff hmax)
    set c := Nat.findGreatest (fun c => c.choose (k + 1) ≤ rank) (upper - 1) with hc
    have hvalue : satChoose c (k + 1) = c.choose (k + 1) := by
      unfold satChoose
      omega
    have hfind := rfindLe_eq rank (f := fun n => satChoose n (k + 1)) (by simp [satChoose]) (upper - 1)
    rw [Nat.sub_add_cancel hpos, hgreatest, hvalue] at hfind
    have hsmall : c < 2 ^ 32 := by unfold maxRingDim at hd; omega
    rw [unrankLoop, ht (k + 1) hk upper (by omega), ok_bind, okOr_eq_ok.2 hfind, ok_bind]
    dsimp only
    rw [ensure_bind hsmall, ih (by omega) (by omega) hrest (by omega), ok_bind, pure_eq_ok,
      colexUnrank, ← hc, reverse_cons]

/-- **`unrank`** of a rank in range, into an output of exactly `k` slots. -/
theorem unrank_eq (ht : table.Ok d m) (hd : d ≤ maxRingDim) {k rank n : ℕ} (hk : k ≤ m) (hn : n ≤ d) (hrank : rank < n.choose k)
    (hmax : rank < 2 ^ 128 - 1) : table.unrank rank n k (replicate k 0) = .ok (colexUnrank k n rank).reverse := by
  unfold BinomialTable.unrank
  rw [ensure_bind (by simp), unrankLoop_eq ht hd k hk hn hrank hmax, ok_bind]
  dsimp only
  rw [ensure_bind rfl, pure_eq_ok]
  simp

end

section

variable {T : List ℕ} {d : ℕ}

section

variable (hT : T.Pairwise (· < ·))

include hT

/-- **The inner loop**: it stops at the slot's place among the positions not taken. -/
theorem skipTaken_spec {slot : ℕ} : ∀ (taken passed : List ℕ), T = passed ++ taken →
    (∀ t ∈ passed, t < slot + passed.length) →
    ∃ passed' rest, skipTaken taken (slot + passed.length) passed.length = (slot + passed'.length, passed'.length, rest) ∧
      T = passed' ++ rest ∧ (∀ t ∈ passed', t < slot + passed'.length) ∧ ∀ t ∈ rest, slot + passed'.length < t := by
  intro taken
  induction taken with
  | nil =>
    intro passed hsplit hpassed
    exact ⟨passed, [], rfl, hsplit, hpassed, by simp⟩
  | cons next taken ih =>
    intro passed hsplit hpassed
    rw [skipTaken]
    by_cases hle : next ≤ slot + passed.length
    · have hpassed' : ∀ t ∈ passed ++ [next], t < slot + (passed ++ [next]).length := by
        intro t ht
        rw [length_append, length_singleton]
        rcases mem_append.1 ht with ht | ht
        · have := hpassed t ht
          omega
        · have := mem_singleton.1 ht
          omega
      have hrun := ih (passed ++ [next]) (by rw [hsplit]; simp) hpassed'
      rw [length_append, length_singleton, ← add_assoc] at hrun
      rw [if_pos hle]
      exact hrun
    · rw [if_neg hle]
      refine ⟨passed, next :: taken, rfl, hsplit, hpassed, ?_⟩
      intro t ht
      rw [hsplit] at hT
      have hnext := (pairwise_append.1 hT).2.1
      rcases mem_cons.1 ht with heq | ht
      · omega
      · have := (pairwise_cons.1 hnext).1 t ht
        omega

theorem nodup_of_increasing : T.Nodup := hT.imp fun h => h.ne

/-- **The slot loop** maps each slot to the position of that number outside `T`. -/
theorem complementLoop_eq (hd : d ≤ maxRingDim) (hb : ∀ t ∈ T, t < d) :
    ∀ (slots taken passed : List ℕ), slots.Pairwise (· < ·) → (∀ s ∈ slots, s < d - T.length) → T = passed ++ taken →
      (∀ s ∈ slots, ∀ t ∈ passed, t < s + passed.length) →
      complementLoop d taken passed.length slots = .ok (slots.map (Nat.nth fun x => x ∉ T)) := by
  have hnodup := nodup_of_increasing hT
  intro slots
  induction slots with
  | nil => intro taken passed _ _ _ _; rfl
  | cons slot slots ih =>
    intro taken passed hslots hbound hsplit hpassed
    obtain ⟨hfirst, hslots⟩ := pairwise_cons.1 hslots
    obtain ⟨passed', rest, hskip, hsplit', hlow, hhigh⟩ :=
      skipTaken_spec hT taken passed hsplit (hpassed slot (by simp))
    set p := slot + passed'.length with hp
    have hnot : p ∉ T := by
      intro hmem
      rw [hsplit'] at hmem
      rcases mem_append.1 hmem with hmem | hmem
      · exact (hlow p hmem).ne rfl
      · exact (hhigh p hmem).ne rfl
    have hfilter : T.filter (· < p) = passed' := by
      have h1 : passed'.filter (· < p) = passed' := filter_eq_self.2 fun t ht => by simpa using hlow t ht
      have h2 : rest.filter (· < p) = [] := filter_eq_nil_iff.2 fun t ht => by
        have := hhigh t ht
        simp only [decide_eq_true_eq]
        omega
      rw [hsplit', filter_append, h1, h2, append_nil]
    have hnth : Nat.nth (fun x => x ∉ T) slot = p := nth_compl_eq hnodup hnot (by rw [hfilter])
    have hlt : p < d := by
      rw [← hnth]
      exact nth_compl_lt hnodup hb (hbound slot (by simp))
    have hrest := ih rest passed' hslots (fun s hs => hbound s (by simp [hs])) hsplit' (by
      intro s hs t ht
      have h1 := hlow t ht
      have h2 := hfirst s hs
      omega)
    rw [complementLoop, hskip]
    change (do
      ensure (¬ p ≥ d) (.internal "sparse complement slot out of range")
      ensure (p < 2 ^ 32) positionExceeds
      let rest ← complementLoop d rest passed'.length slots
      return p :: rest) = _
    rw [ensure_bind (by omega), ensure_bind (by unfold maxRingDim at hd; omega), hrest, ok_bind, pure_eq_ok, map_cons, hnth]

theorem mapToComplement_eq (hd : d ≤ maxRingDim) (hb : ∀ t ∈ T, t < d) {slots : List ℕ}
    (hslots : slots.Pairwise (· < ·)) (hbound : ∀ s ∈ slots, s < d - T.length) :
    mapToComplement T slots d = .ok (slots.map (Nat.nth fun x => x ∉ T)) :=
  complementLoop_eq hT hd hb slots T [] hslots hbound rfl (by simp)

end

end

/-!
## The challenge of a candidate

A validated shell counts the position sets of its family, and a candidate is a function of its
window of the message: the sign bits below, the position rank above.
-/

section

theorem binomialLoop_ok {n : ℕ} : ∀ (left i value : ℕ) {result : ℕ}, value = n.choose i →
    binomialLoop n left i value = .ok result → result = n.choose (i + left) := by
  intro left
  induction left with
  | zero =>
    intro i value result hvalue h
    simp only [binomialLoop, Except.ok.injEq] at h
    rw [← h, hvalue, add_zero]
  | succ left ih =>
    intro i value result hvalue h
    rw [binomialLoop, bind_eq_ok] at h
    obtain ⟨product, hprod, hrest⟩ := h
    obtain ⟨-, hmul⟩ := checkedMul_eq_some.1 (okOr_eq_ok.1 hprod)
    have hnext : product / (i + 1) = n.choose (i + 1) := by
      rw [hmul, hvalue, ← Nat.choose_succ_right_eq, Nat.mul_div_cancel _ (by omega)]
    have := ih (i + 1) _ hnext hrest
    rw [this]
    congr 1
    omega

theorem binomial_ok {n k v : ℕ} (hk : k ≤ n) (h : binomial n k = .ok v) : v = n.choose k := by
  unfold binomial at h
  rw [if_neg (by omega)] at h
  have hv := binomialLoop_ok _ 0 1 (by simp) h
  rw [hv, zero_add]
  rcases le_total k (n - k) with hle | hle
  · rw [min_eq_left hle]
  · rw [min_eq_right hle, Nat.choose_symm hk]

/-- What `validated` establishes of a shell. -/
structure SparseChallengeShell.Ok (shell : SparseChallengeShell) : Prop where
  d_pos : 0 < shell.ringD
  d_le : shell.ringD ≤ maxRingDim
  weight_le : shell.config.countPm1 + shell.config.countPm2 ≤ shell.ringD
  pm1_eq : shell.pm1RankSpace = shell.ringD.choose shell.config.countPm1
  space_eq : shell.rankSpace =
    shell.ringD.choose shell.config.countPm1 * (shell.ringD - shell.config.countPm1).choose shell.config.countPm2
  space_lt : shell.rankSpace < 2 ^ 128
  bits_eq : shell.candidateBits = shell.rankBits + (shell.config.countPm1 + shell.config.countPm2)
  bits_pos : 0 < shell.candidateBits
  rankBits_le : shell.rankBits ≤ 128
  unfiltered : shell.rejection = none → 2 ^ shell.rankBits ≤ shell.rankSpace
  filtered : ∀ rejection, shell.rejection = some rejection →
    shell.rankSpace ≤ 2 ^ shell.rankBits ∧ rejection.validate shell.ringD shell.config = .ok ()

variable {d : ℕ} {config : SparseChallengeConfig} {rejection : Option OperatorNormRejection} {shell : SparseChallengeShell}

theorem weight_eq (hd : d ≤ maxRingDim) (h : config.countPm1 + config.countPm2 ≤ d) :
    config.weight = config.countPm1 + config.countPm2 := by
  unfold SparseChallengeConfig.weight saturatingAdd usizeBits
  unfold maxRingDim at hd
  omega

/-- **A validated shell.** -/
theorem validated_ok (h : SparseChallengeShell.validated d config rejection = .ok shell) :
    shell.Ok ∧ shell.ringD = d ∧ shell.config = config ∧ shell.rejection = rejection := by
  simp only [SparseChallengeShell.validated, bind_eq_ok, exists_unit, ensure_eq_ok, pure_eq_ok] at h
  obtain ⟨hd, hvalid, pm1, hpm1, pm2, hpm2, space, hspace, -, ⟨rankBits, setBits⟩, hwidth, bits, hbits, rfl⟩ := h
  have hd' : d ≤ maxRingDim := by omega
  have hweight : config.countPm1 + config.countPm2 ≤ d := by
    simp only [SparseChallengeConfig.validateDyn, ensure_eq_ok, Option.any_eq_true, checkedAdd_eq_some, decide_eq_true_eq] at hvalid
    obtain ⟨w, ⟨-, rfl⟩, hw⟩ := hvalid
    exact hw
  have hpm1' := binomial_ok (by omega) hpm1
  have hpm2' := binomial_ok (by omega) hpm2
  obtain ⟨hspacelt, hspaceeq⟩ := checkedMul_eq_some.1 (okOr_eq_ok.1 hspace)
  have hspacepos : 0 < space := by
    rw [hspaceeq, hpm1', hpm2']
    exact Nat.mul_pos (Nat.choose_pos (by omega)) (Nat.choose_pos (by omega))
  have hsize1 : 0 < space.size := Nat.size_pos.2 hspacepos
  have hsizepred : (space - 1).size ≤ 128 := Nat.size_le.2 (by omega)
  rw [okOr_eq_ok, Option.filter_eq_some_iff, checkedAdd_eq_some] at hbits
  obtain ⟨⟨-, hbitseq⟩, hbitspos⟩ := hbits
  rw [weight_eq hd' hweight] at hbitseq
  have hranks : rankBits ≤ 128 ∧ (rejection = none → 2 ^ rankBits ≤ space) ∧
      ∀ r, rejection = some r → space ≤ 2 ^ rankBits ∧ r.validate d config = .ok () := by
    cases rejection with
    | none =>
      simp only [rankWidth, result_ok, Prod.mk.injEq] at hwidth
      obtain ⟨_, -, rfl, -⟩ := hwidth
      unfold leadingZeros128
      refine ⟨by omega, ?_, by simp⟩
      intro _
      exact Nat.lt_size.1 (by omega)
    | some r =>
      simp only [rankWidth, bind_eq_ok, pure_eq_ok, Prod.mk.injEq] at hwidth
      obtain ⟨_, hr, _, -, rfl, -⟩ := hwidth
      unfold leadingZeros128
      refine ⟨by omega, by simp, ?_⟩
      intro r' heq
      cases heq
      have hle := Nat.lt_size_self (space - 1)
      have hexp : 128 - (128 - (space - 1).size) = (space - 1).size := by omega
      rw [hexp]
      exact ⟨by omega, hr⟩
  refine ⟨⟨by dsimp only; omega, hd', hweight, hpm1', by dsimp only; rw [hspaceeq, hpm1', hpm2'], by dsimp only; omega, hbitseq,
    by simpa using hbitspos, hranks.1, hranks.2.1, hranks.2.2⟩, rfl, rfl, rfl⟩

end

section

def pm1Positions (shell : SparseChallengeShell) (rank : ℕ) : List ℕ :=
  (colexUnrank shell.config.countPm1 shell.ringD (rank % shell.pm1RankSpace)).reverse

/-- The ±2 slots of a rank among the positions left, upwards. -/
def pm2Slots (shell : SparseChallengeShell) (rank : ℕ) : List ℕ :=
  (colexUnrank shell.config.countPm2 (shell.ringD - shell.config.countPm1) (rank / shell.pm1RankSpace)).reverse

/-- The challenge of a rank in range and the sign bits of `R`. -/
noncomputable def challengeAt (shell : SparseChallengeShell) (rank R : ℕ) : SparseChallenge where
  positions := pm1Positions shell rank ++ (pm2Slots shell rank).map (Nat.nth fun x => x ∉ pm1Positions shell rank)
  coeffs := (List.range (shell.config.countPm1 + shell.config.countPm2)).map fun i =>
    coeffOf shell.config.countPm1 i (R.testBit i)

/-- The challenge of a candidate integer `R`, or none when its position rank is out of range. -/
noncomputable def challengeOf (shell : SparseChallengeShell) (R : ℕ) : Option SparseChallenge :=
  let rank := R / 2 ^ (shell.config.countPm1 + shell.config.countPm2)
  if rank < shell.rankSpace then some (challengeAt shell rank R) else none

variable {shell : SparseChallengeShell} {rank : ℕ}

theorem pm1_rank_lt (h : shell.Ok) (rank : ℕ) : rank % shell.pm1RankSpace < shell.ringD.choose shell.config.countPm1 := by
  have hw := h.weight_le
  rw [h.pm1_eq]
  exact Nat.mod_lt _ (Nat.choose_pos (by omega))

theorem pm2_rank_lt (h : shell.Ok) (hrank : rank < shell.rankSpace) :
    rank / shell.pm1RankSpace < (shell.ringD - shell.config.countPm1).choose shell.config.countPm2 := by
  rw [h.pm1_eq]
  apply Nat.div_lt_of_lt_mul
  rw [← h.space_eq]
  exact hrank

/-- The positions of the first kind: increasing, below `d`, as many as the family has. -/
theorem pm1_spec (h : shell.Ok) (rank : ℕ) : (pm1Positions shell rank).Pairwise (· < ·) ∧ (∀ p ∈ pm1Positions shell rank, p < shell.ringD) ∧
    (pm1Positions shell rank).length = shell.config.countPm1 := by
  obtain ⟨hdec, hlen, -⟩ := colexUnrank_spec shell.config.countPm1 (pm1_rank_lt h rank)
  obtain ⟨hpair, hbelow⟩ := decreasingBelow_iff.1 hdec
  unfold pm1Positions
  exact ⟨pairwise_reverse.2 hpair, fun p hp => hbelow p (mem_reverse.1 hp), by rw [length_reverse, hlen]⟩

theorem pm2_spec (h : shell.Ok) (hrank : rank < shell.rankSpace) : (pm2Slots shell rank).Pairwise (· < ·) ∧
    (∀ p ∈ pm2Slots shell rank, p < shell.ringD - shell.config.countPm1) ∧
    (pm2Slots shell rank).length = shell.config.countPm2 := by
  obtain ⟨hdec, hlen, -⟩ := colexUnrank_spec shell.config.countPm2 (pm2_rank_lt h hrank)
  obtain ⟨hpair, hbelow⟩ := decreasingBelow_iff.1 hdec
  unfold pm2Slots
  exact ⟨pairwise_reverse.2 hpair, fun p hp => hbelow p (mem_reverse.1 hp), by rw [length_reverse, hlen]⟩

variable {stream : SparseChallengeStream} {count : ℕ} {message : List UInt8}

theorem stream_ok (h : shell.stream count = .ok stream) : stream.shell = shell ∧ stream.count = count ∧ 0 < count ∧
    (shell.rejection = none → stream.candidates = count) ∧ stream.candidates * shell.candidateBits < 2 ^ usizeBits ∧
    stream.messageLen % 8 = 0 ∧ stream.candidates * shell.candidateBits ≤ 8 * stream.messageLen := by
  simp only [SparseChallengeShell.stream, result_ok] at h
  obtain ⟨hcount, candidates, hcand, messageLen, hlen, rfl⟩ := h
  rw [Option.filter_eq_some_iff, Option.map_eq_some_iff] at hlen
  obtain ⟨⟨bits, hbits, rfl⟩, -⟩ := hlen
  obtain ⟨hlt, rfl⟩ := checkedMul_eq_some.1 hbits
  refine ⟨rfl, rfl, pos_of_ne_zero hcount, ?_, hlt, ?_, ?_⟩
  · intro hnone
    unfold SparseChallengeShell.poolSize at hcand
    rw [hnone] at hcand
    exact (Except.ok.inj hcand).symm
  · simp only [messageBytes, wordBytes]
    omega
  · simp only [messageBytes, wordBytes, wordBits]
    omega

/-- **A candidate** is the challenge of its window, and never an error. -/
theorem candidate_eq (h : shell.Ok) (hs : shell.stream count = .ok stream) (hlen : message.length = stream.messageLen)
    {binomials : BinomialTable} (hb : binomials.Ok shell.ringD (max shell.config.countPm1 shell.config.countPm2)) {index : ℕ}
    (hindex : index < stream.candidates) : candidate stream message binomials index =
      .ok (challengeOf shell (window message (index * shell.candidateBits) shell.candidateBits)) := by
  obtain ⟨hshell, -, -, -, hlt, hmod, hfit⟩ := stream_ok hs
  have hbits := h.bits_eq
  have hend : index * shell.candidateBits + shell.candidateBits ≤ stream.candidates * shell.candidateBits := by
    rw [← Nat.succ_mul]
    exact Nat.mul_le_mul_right _ hindex
  set a := shell.config.countPm1 with ha
  set b := shell.config.countPm2 with hb'
  set start := index * shell.candidateBits with hstart
  set R := window message start shell.candidateBits with hR
  have hrank : window message (start + (a + b)) shell.rankBits = R / 2 ^ (a + b) := by
    rw [window_window message (by omega : (a + b) + shell.rankBits ≤ shell.candidateBits)]
    apply Nat.mod_eq_of_lt
    apply Nat.div_lt_of_lt_mul
    rw [← pow_add, add_comm, ← hbits]
    exact window_lt _ _ _
  have hcoeffs : readCoeffs message start a (a + b) = .ok ((range (a + b)).map fun i => coeffOf a i (R.testBit i)) := by
    rw [readCoeffs_eq (by omega) (by omega)]
    congr 1
    apply map_congr_left
    intro i hi
    have hi' := mem_range.1 hi
    have hiK : i < shell.candidateBits := by omega
    rw [hR, testBit_window]
    simp only [hiK, decide_true, Bool.true_and]
  unfold candidate
  simp only [hshell, ← ha, ← hb']
  rw [okOr_eq_ok.2 (checkedMul_eq_some.2 ⟨by omega, rfl⟩), ok_bind,
    readBits_eq (by omega) h.rankBits_le (by omega), ok_bind, ← hstart, hrank]
  by_cases hin : R / 2 ^ (a + b) < shell.rankSpace
  · set rank := R / 2 ^ (a + b) with hrankdef
    have hspace := h.space_lt
    have hpm1 := pm1_rank_lt h rank
    have hpm2 := pm2_rank_lt h hin
    have hdiv : (if b = 0 then 0 else rank / shell.pm1RankSpace) = rank / shell.pm1RankSpace := by
      by_cases hzero : b = 0
      · rw [← hb', hzero, Nat.choose_zero_right] at hpm2
        rw [if_pos hzero]
        exact (Nat.lt_one_iff.1 hpm2).symm
      · rw [if_neg hzero]
    have hmodeq : rank - rank / shell.pm1RankSpace * shell.pm1RankSpace = rank % shell.pm1RankSpace := by
      have := Nat.div_add_mod' rank shell.pm1RankSpace
      omega
    have hfirst := unrank_eq hb h.d_le (le_max_left _ _) le_rfl hpm1 (by
      have := Nat.mod_le rank shell.pm1RankSpace
      omega)
    have hcompl : pm2Positions binomials (pm1Positions shell rank) (rank / shell.pm1RankSpace) shell.ringD a b =
        .ok ((pm2Slots shell rank).map (Nat.nth fun x => x ∉ pm1Positions shell rank)) := by
      unfold pm2Positions
      by_cases hpos : b > 0
      · obtain ⟨hinc, hbelow, hlen1⟩ := pm1_spec h rank
        obtain ⟨hinc2, hbelow2, -⟩ := pm2_spec h hin
        have hsecond := unrank_eq hb h.d_le (le_max_right _ _) (Nat.sub_le _ _) hpm2 (by
          have := Nat.div_le_self rank shell.pm1RankSpace
          omega)
        rw [if_pos hpos, hsecond, ok_bind]
        exact mapToComplement_eq hinc h.d_le hbelow hinc2 (by rw [hlen1]; exact hbelow2)
      · have hzero : b = 0 := by omega
        have hslots : pm2Slots shell rank = [] := by
          unfold pm2Slots
          rw [← hb', hzero]
          rfl
        rw [if_neg hpos, hslots, hzero]
        rfl
    have hfirst' : binomials.unrank (rank % shell.pm1RankSpace) shell.ringD a (replicate a 0) =
        .ok (pm1Positions shell rank) := hfirst
    rw [if_neg (by omega), hdiv, hmodeq, hfirst', ok_bind, hcompl, ok_bind, hcoeffs, ok_bind, pure_eq_ok, challengeOf, if_pos hin]
    rfl
  · rw [if_pos (by omega), pure_eq_ok, challengeOf, if_neg hin]

end

end Akita.SparseStream
