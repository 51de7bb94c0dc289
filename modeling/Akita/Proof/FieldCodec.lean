import Akita.Spec.FieldCodec

/-!
# Runs of prime-field elements

* `decodeMany_single`: single reads succeed exactly when there are enough bytes and every word is accepted.
* `readStorage_ok`: the storage pass takes the same bytes, whatever the chunks are.
* `deserializeManyWithMode_eq_singles`: the read of a run is the single reads one after the other, or both fail.
-/

namespace Akita.FieldCodec

open Lib
open List hiding Vector
open Commitment (Compress orInvalidData)
open Descriptor (SerializationError Validate Decode require readExact)

variable {E : Type} {𝔭 : PrimeCodec E} {n bytes count : ℕ} {bs rest word : List UInt8} {out : List E} {reserve : ℕ → Bool}
  {ε α β : Type}

/-! ## Words -/

theorem readExact_ok {word : Vector UInt8 n} :
    readExact n bs = .ok (word, rest) ↔ n ≤ bs.length ∧ word.toList = bs.take n ∧ rest = bs.drop n := by
  unfold readExact
  split
  · rename_i h
    simp only [Except.ok.injEq, Prod.mk.injEq, h, true_and]
    refine and_congr ⟨?_, fun hw => ?_⟩ eq_comm
    · rintro rfl
      rfl
    · apply Vector.toList_inj.1
      rw [hw]
      rfl
  · simp [*]

theorem except_pure_ok {a b : α} : (pure a : Except ε α) = .ok b ↔ a = b := by
  simp [pure, Except.pure]

/-- The first `n` words of `bytes` bytes. -/
def words (bytes n : ℕ) (bs : List UInt8) : List (List UInt8) :=
  (List.range n).map fun i => (bs.drop (i * bytes)).take bytes

theorem words_succ (bytes n : ℕ) (bs : List UInt8) :
    words bytes (n + 1) bs = bs.take bytes :: words bytes n (bs.drop bytes) := by
  rw [words, words, range_succ_eq_map, map_cons, map_map, zero_mul, drop_zero]
  refine congrArg _ (map_congr_left fun i _ => ?_)
  rw [Function.comp_apply, drop_drop, Nat.succ_mul, add_comm]

theorem words_add (bytes m n : ℕ) (bs : List UInt8) :
    words bytes (m + n) bs = words bytes m bs ++ words bytes n (bs.drop (m * bytes)) := by
  rw [words, words, words, range_add, map_append, map_map]
  refine congrArg _ (map_congr_left fun i _ => ?_)
  rw [Function.comp_apply, drop_drop, add_mul]

theorem length_words (bytes n : ℕ) (bs : List UInt8) : (words bytes n bs).length = n := by
  rw [words, length_map, length_range]

theorem length_of_mem_words (hbs : n * bytes ≤ bs.length) (hword : word ∈ words bytes n bs) : word.length = bytes := by
  obtain ⟨i, hi, rfl⟩ := mem_map.1 hword
  have hend : (i + 1) * bytes ≤ n * bytes := Nat.mul_le_mul_right bytes (mem_range.1 hi)
  rw [add_mul, one_mul] at hend
  rw [length_take, length_drop]
  omega

theorem chunks_take (hbytes : 0 < bytes) (hbs : n * bytes ≤ bs.length) :
    chunks bytes (bs.take (n * bytes)) = words bytes n bs := by
  induction n generalizing bs with
  | zero => rw [zero_mul, take_zero, chunks_nil hbytes, words, range_zero, map_nil]
  | succ n ih =>
    rw [Nat.succ_mul] at hbs
    have hne : bs.take ((n + 1) * bytes) ≠ [] := by
      rw [← length_pos_iff, length_take, Nat.succ_mul]
      omega
    have hrest : n * bytes ≤ (bs.drop bytes).length := by
      rw [length_drop]
      omega
    rw [chunks_of_ne_nil hbytes hne, words_succ, ← ih hrest, take_take, drop_take, Nat.succ_mul,
      min_eq_left (Nat.le_add_left _ _), Nat.add_sub_cancel]

/-! ## The rule of one word -/

def PrimeCodec.element (𝔭 : PrimeCodec E) (validate : Validate) (word : List UInt8) : Except SerializationError E := do
  require (¬ (validate = .yes ∧ 𝔭.modulus ≤ leValue word)) 𝔭.outOfRange
  if validate = .yes then orInvalidData (𝔭.fromU128Checked (leValue word)) 𝔭.outOfRange
    else .ok (𝔭.fromU128Reduced (leValue word))

/-- The checked conversion makes the range check of the single rule. -/
theorem replaceElement_ofStorage (h𝔭 : 𝔭.Lawful) (validate : Validate) (hword : word.length = 𝔭.bytes) :
    𝔭.replaceElement validate (𝔭.ofStorage word) = 𝔭.element validate word := by
  unfold PrimeCodec.replaceElement PrimeCodec.element
  rw [h𝔭.toCanonical_ofStorage word hword]
  by_cases hrange : validate = .yes ∧ 𝔭.modulus ≤ leValue word
  · rw [require, if_neg (not_not.2 hrange), if_pos hrange.1, h𝔭.fromU128Checked_eq_none _ hrange.2]
    rfl
  · rw [require, if_pos hrange]
    rfl

/-! ## Single reads -/

theorem deserializeWithMode_ok (compress : Compress) (validate : Validate) {a : E} :
    𝔭.deserializeWithMode compress validate bs = .ok (a, rest) ↔
      𝔭.bytes ≤ bs.length ∧ 𝔭.element validate (bs.take 𝔭.bytes) = .ok a ∧ rest = bs.drop 𝔭.bytes := by
  simp only [PrimeCodec.deserializeWithMode, PrimeCodec.element, stateT_bind_ok, Decoder.lift_ok, readExact_ok, except_bind_ok]
  constructor
  · rintro ⟨word, _, ⟨hbs, hword, rfl⟩, _, _, ⟨hcheck, rfl⟩, ha, rfl⟩
    rw [hword] at hcheck ha
    exact ⟨hbs, ⟨(), hcheck, ha⟩, rfl⟩
  · rintro ⟨hbs, ⟨_, hcheck, ha⟩, rfl⟩
    refine ⟨⟨(bs.take 𝔭.bytes).toArray, by simp [hbs]⟩, _, ⟨hbs, rfl, rfl⟩, (), _, ⟨hcheck, rfl⟩, ha, rfl⟩

/-- **Single reads** succeed exactly when there are enough bytes and every word is accepted. -/
theorem decodeMany_single (compress : Compress) (validate : Validate) :
    decodeMany (𝔭.deserializeWithMode compress validate) count bs = .ok (out, rest) ↔
      count * 𝔭.bytes ≤ bs.length ∧ (words 𝔭.bytes count bs).mapM (𝔭.element validate) = .ok out ∧
        rest = bs.drop (count * 𝔭.bytes) := by
  induction count generalizing bs out rest with
  | zero =>
    rw [decodeMany, stateT_pure_ok, words, range_zero, map_nil, mapM_nil, except_pure_ok, zero_mul, drop_zero]
    exact ⟨fun h => ⟨Nat.zero_le _, h.1, h.2.symm⟩, fun h => ⟨h.2.1, h.2.2.symm⟩⟩
  | succ count ih =>
    simp only [decodeMany, stateT_bind_ok, stateT_pure_ok, deserializeWithMode_ok, ih, words_succ, mapM_cons,
      except_bind_ok, except_pure_ok]
    have hlen : (count + 1) * 𝔭.bytes ≤ bs.length ↔ 𝔭.bytes ≤ bs.length ∧ count * 𝔭.bytes ≤ bs.length - 𝔭.bytes := by
      rw [Nat.succ_mul]
      omega
    rw [hlen, Nat.succ_mul, add_comm (count * 𝔭.bytes)]
    constructor
    · rintro ⟨a, _, ⟨hbs, ha, rfl⟩, as, _, ⟨hrest, has, rfl⟩, rfl, rfl⟩
      rw [length_drop] at hrest
      exact ⟨⟨hbs, hrest⟩, ⟨a, ha, as, has, rfl⟩, by rw [drop_drop]⟩
    · rintro ⟨⟨hbs, hrest⟩, ⟨a, ha, as, has, rfl⟩, rfl⟩
      refine ⟨a, _, ⟨hbs, ha, rfl⟩, as, _, ⟨?_, has, rfl⟩, rfl, ?_⟩
      · rwa [length_drop]
      · rw [drop_drop]

/-! ## The storage pass -/

/-- **The storage pass** takes the bytes of the missing elements, whatever the chunks are. -/
theorem readStorage_ok (h𝔭 : 𝔭.Lawful) (hresv : ∀ n ≤ count, reserve n = true) {fuel : ℕ} {es : List E}
    (hout : out.length ≤ count) (hfuel : count - out.length ≤ fuel) :
    𝔭.readStorage reserve count fuel out bs = .ok (es, rest) ↔ (count - out.length) * 𝔭.bytes ≤ bs.length ∧
      es = out ++ (words 𝔭.bytes (count - out.length) bs).map 𝔭.ofStorage ∧
        rest = bs.drop ((count - out.length) * 𝔭.bytes) := by
  induction fuel generalizing out bs with
  | zero =>
    rw [Nat.le_zero.1 hfuel, PrimeCodec.readStorage, stateT_pure_ok]
    simp [words, eq_comm]
  | succ fuel ih =>
    rw [PrimeCodec.readStorage]
    split
    · rename_i hlt
      set take := min (count - out.length) decodeChunkElements with htake
      have hpos : 0 < take := lt_min (by omega) (by norm_num [decodeChunkElements])
      have hle : take ≤ count - out.length := min_le_left _ _
      have hgrant : require (reserve (out.length + take) = true) "allocation failed" = .ok () :=
        if_pos (hresv _ (by omega))
      -- one pass leaves `count - out.length - take` elements to read
      obtain ⟨left, hleft⟩ : ∃ left, count - out.length = take + left := ⟨_, (Nat.add_sub_cancel' hle).symm⟩
      have hstep : ∀ {raw : List UInt8}, raw = bs.take (take * 𝔭.bytes) → take * 𝔭.bytes ≤ bs.length →
          (𝔭.readStorage reserve count fuel (out ++ (chunks 𝔭.bytes raw).map 𝔭.ofStorage) (bs.drop (take * 𝔭.bytes))
              = .ok (es, rest) ↔
            left * 𝔭.bytes ≤ bs.length - take * 𝔭.bytes ∧ es = out ++ (words 𝔭.bytes (take + left) bs).map 𝔭.ofStorage ∧
                rest = bs.drop ((take + left) * 𝔭.bytes)) := by
        rintro _ rfl hraw
        have hlen : (out ++ (chunks 𝔭.bytes (bs.take (take * 𝔭.bytes))).map 𝔭.ofStorage).length = out.length + take := by
          rw [chunks_take h𝔭.bytes_pos hraw, length_append, length_map, length_words]
        have hremaining : count - (out.length + take) = left := by omega
        rw [ih (by rw [hlen]; omega) (by rw [hlen]; omega), hlen, hremaining, length_drop,
          chunks_take h𝔭.bytes_pos hraw, append_assoc, ← map_append, ← words_add, drop_drop, ← add_mul]
      rw [hleft, stateT_bind_ok]
      simp only [Decoder.lift_ok, hgrant, true_and, exists_const, stateT_bind_ok, readExact_ok]
      constructor
      · rintro ⟨_, rfl, raw, _, ⟨hraw, hword, rfl⟩, hread⟩
        obtain ⟨hrest, hes, hout⟩ := (hstep hword hraw).1 hread
        exact ⟨by rw [add_mul]; omega, hes, hout⟩
      · rintro ⟨hbs, hes, hrest⟩
        rw [add_mul] at hbs
        have hraw : take * 𝔭.bytes ≤ bs.length := by omega
        refine ⟨bs, rfl, ⟨(bs.take (take * 𝔭.bytes)).toArray, by simp [hraw]⟩, _, ⟨hraw, rfl, rfl⟩, ?_⟩
        exact (hstep rfl hraw).2 ⟨by omega, hes, hrest⟩
    · rename_i hlt
      rw [show count - out.length = 0 by omega, stateT_pure_ok]
      simp [words, eq_comm]

/-! ## Runs -/

theorem mapM_map_congr {γ : Type} {f : β → Except ε γ} {g : α → Except ε γ} {r : α → β} {l : List α}
    (h : ∀ a ∈ l, f (r a) = g a) : (l.map r).mapM f = l.mapM g := by
  induction l with
  | nil => rfl
  | cons a l ih =>
    rw [map_cons, mapM_cons, mapM_cons, h a mem_cons_self, ih fun b hb => h b (mem_cons_of_mem a hb)]

/-- The read of a run accepts what the single reads accept, with the same elements and rest. -/
theorem deserializeManyWithMode_ok (h𝔭 : 𝔭.Lawful) (hresv : ∀ n ≤ count, reserve n = true) (compress : Compress)
    (validate : Validate) : 𝔭.deserializeManyWithMode reserve compress validate count bs = .ok (out, rest) ↔
      decodeMany (𝔭.deserializeWithMode compress validate) count bs = .ok (out, rest) := by
  have hstor : ∀ {es : List E} {rest : List UInt8}, 𝔭.readStorage reserve count count [] bs = .ok (es, rest) ↔
      count * 𝔭.bytes ≤ bs.length ∧ es = (words 𝔭.bytes count bs).map 𝔭.ofStorage ∧ rest = bs.drop (count * 𝔭.bytes) :=
    readStorage_ok h𝔭 hresv (Nat.zero_le _) (Nat.sub_le _ _)
  rw [decodeMany_single, PrimeCodec.deserializeManyWithMode, stateT_bind_ok]
  simp only [hstor, Decoder.lift_ok]
  have hmap : count * 𝔭.bytes ≤ bs.length → ((words 𝔭.bytes count bs).map 𝔭.ofStorage).mapM (𝔭.replaceElement validate) =
      (words 𝔭.bytes count bs).mapM (𝔭.element validate) := fun hbs =>
    mapM_map_congr fun word hword => replaceElement_ofStorage h𝔭 validate (length_of_mem_words hbs hword)
  constructor
  · rintro ⟨_, _, ⟨hbs, rfl, rfl⟩, hout, rfl⟩
    exact ⟨hbs, (hmap hbs).symm.trans hout, rfl⟩
  · rintro ⟨hbs, hout, rfl⟩
    exact ⟨_, _, ⟨hbs, rfl, rfl⟩, (hmap hbs).trans hout, rfl⟩

theorem length_decodeMany {m : Decoder ε β α} {bs rest : List β} {out : List α}
    (h : decodeMany m n bs = .ok (out, rest)) : out.length = n := by
  induction n generalizing bs out rest with
  | zero =>
    obtain ⟨rfl, -⟩ := stateT_pure_ok.1 h
    rfl
  | succ n ih =>
    simp only [decodeMany, stateT_bind_ok, stateT_pure_ok] at h
    obtain ⟨a, _, -, as, _, has, rfl, rfl⟩ := h
    rw [length_cons, ih has]

/-- **A run is read as its elements are**: the read of `count` elements through their storage returns the `count`
elements of as many single reads and leaves the same bytes, or both fail. -/
theorem deserializeManyWithMode_eq_singles (h𝔭 : 𝔭.Lawful) (reserve : ℕ → Bool) (count : ℕ)
    (hreserve : ∀ n ≤ count, reserve n = true) (compress : Compress) (validate : Validate) (bs : List UInt8) :
    (∃ out rest, out.length = count ∧ 𝔭.deserializeManyWithMode reserve compress validate count bs = .ok (out, rest) ∧
        decodeMany (𝔭.deserializeWithMode compress validate) count bs = .ok (out, rest)) ∨
      (∃ e e', 𝔭.deserializeManyWithMode reserve compress validate count bs = .error e ∧
        decodeMany (𝔭.deserializeWithMode compress validate) count bs = .error e') := by
  have hok : ∀ out rest, 𝔭.deserializeManyWithMode reserve compress validate count bs = .ok (out, rest) ↔
      decodeMany (𝔭.deserializeWithMode compress validate) count bs = .ok (out, rest) :=
    fun _ _ => deserializeManyWithMode_ok h𝔭 hreserve compress validate
  cases hbulk : 𝔭.deserializeManyWithMode reserve compress validate count bs with
  | ok result =>
    have hsingle := (hok result.1 result.2).1 hbulk
    exact .inl ⟨result.1, result.2, length_decodeMany hsingle, rfl, hsingle⟩
  | error e =>
    cases hsingle : decodeMany (𝔭.deserializeWithMode compress validate) count bs with
    | ok result =>
      have hboth := (hok result.1 result.2).2 hsingle
      rw [hbulk] at hboth
      cases hboth
    | error e' => exact .inr ⟨e, e', rfl, rfl⟩

/-- `Fp32<5>` with its words as elements. -/
def sampleCodec : PrimeCodec ℕ where
  field := "Fp32"
  bytes := 4
  modulus := 5
  ofStorage := leValue
  toCanonical := id
  fromU128Checked value := if value < 5 then some value else none
  fromU128Reduced value := value % 5

theorem sampleCodec_lawful : sampleCodec.Lawful where
  bytes_pos := by decide
  toCanonical_ofStorage _ _ := rfl
  fromU128Checked_eq_none value h := if_neg (Nat.not_lt.2 h)

theorem deserializeManyWithMode_sample : sampleCodec.Lawful ∧ (∀ n ≤ 2, (fun _ => true : ℕ → Bool) n = true) ∧
    ((∃ out rest, out.length = 2 ∧
        sampleCodec.deserializeManyWithMode (fun _ => true) .no .yes 2 [1, 0, 0, 0, 7, 0, 0, 0, 9] = .ok (out, rest) ∧
        decodeMany (sampleCodec.deserializeWithMode .no .yes) 2 [1, 0, 0, 0, 7, 0, 0, 0, 9] = .ok (out, rest)) ∨
      (∃ e e', sampleCodec.deserializeManyWithMode (fun _ => true) .no .yes 2 [1, 0, 0, 0, 7, 0, 0, 0, 9] = .error e ∧
        decodeMany (sampleCodec.deserializeWithMode .no .yes) 2 [1, 0, 0, 0, 7, 0, 0, 0, 9] = .error e')) :=
  ⟨sampleCodec_lawful, fun _ _ => rfl,
    deserializeManyWithMode_eq_singles sampleCodec_lawful (fun _ => true) 2 (fun _ _ => rfl) .no .yes [1, 0, 0, 0, 7, 0, 0, 0, 9]⟩

end Akita.FieldCodec
