import Akita.Proof.PackedDigits

/-!
# The writer of packed digits

A state of the writer stands for the digits written so far: whole blocks are in the storage, the split block waits
in `pending`, and what no write reached is zero.

* `writeAt_ok`, `writeAt_spec`: a write is taken exactly from the position on and up to the length, and puts its
  digits.
* `writeAll_represents`: after a list of writes the writer stands for the digits of these writes.
* `finish_holds`, `finish_ok`: the finished digits are these, when and only when the width represents them all.
-/

namespace Akita.PackedDigits

open Lib List PackedSignedDigitWriter

/-! ## Slices -/

section

variable {α : Type} {target source : List α} {start : ℕ}

theorem length_copyFromSlice (h : start + source.length ≤ target.length) :
    (copyFromSlice target start source).length = target.length := by
  simp only [copyFromSlice, length_append, length_take, length_drop]
  omega

theorem getD_copyFromSlice (h : start + source.length ≤ target.length) (d : α) (j : ℕ) :
    (copyFromSlice target start source).getD j d =
      if start ≤ j ∧ j < start + source.length then source.getD (j - start) d else target.getD j d := by
  have htake : (target.take start).length = start := by
    rw [length_take]
    omega
  rw [copyFromSlice, append_assoc, getD_eq_getElem?_getD]
  by_cases hlow : j < start
  · rw [getElem?_append_left (by omega), getElem?_take_of_lt hlow, if_neg (by omega), getD_eq_getElem?_getD]
  · rw [getElem?_append_right (by omega), htake]
    by_cases hin : j < start + source.length
    · rw [getElem?_append_left (by omega), if_pos ⟨by omega, hin⟩, getD_eq_getElem?_getD]
    · rw [getElem?_append_right (by omega), getElem?_drop, if_neg (by omega), getD_eq_getElem?_getD,
        show start + source.length + (j - start - source.length) = j by omega]

theorem bitAt_copyFromSlice {target source : List UInt8} (h : start + source.length ≤ target.length) (p : ℕ) :
    bitAt (copyFromSlice target start source) p =
      if 8 * start ≤ p ∧ p < 8 * (start + source.length) then bitAt source (p - 8 * start) else bitAt target p := by
  unfold bitAt
  rw [getD_copyFromSlice h]
  by_cases hin : 8 * start ≤ p ∧ p < 8 * (start + source.length)
  · rw [if_pos hin, if_pos (by omega), show p / 8 - start = (p - 8 * start) / 8 by omega,
      show p % 8 = (p - 8 * start) % 8 by omega]
  · rw [if_neg hin, if_neg (by omega)]

end

/-! ## What a state stands for -/

/-- The digits before an index, with zeros from it on. -/
def below (base : ℕ) (value : ℕ → ℤ) (i : ℕ) : ℤ := if i < base then value i else 0

/-- What every state of a writer keeps of its construction. -/
structure Shape (s : PackedSignedDigitWriter) : Prop where
  width : 1 ≤ s.bitWidth ∧ s.bitWidth ≤ 8
  len_lt : s.len < 2 ^ 64
  encodedLen : s.encodedLen = encodedByteLen s.len s.bitWidth
  storageLen : s.storage.length = encodedByteLen s.len s.bitWidth + vectorLoadPadding
  pendingLen : s.pending.length = digitsPerBlock

/-- The storage holds the digits before a block boundary, and the bounds cover them. -/
structure Stored (s : PackedSignedDigitWriter) (base : ℕ) (value : ℕ → ℤ) : Prop where
  aligned : 64 ∣ base
  bits : ∀ p, bitAt s.storage p = valueBit (below base value) s.bitWidth p
  bounds : ∀ a b : ℕ, (s.bounds.negativeAbsMax ≤ a ∧ s.bounds.positiveMax ≤ b) ↔
    ∀ i < base, -(a : ℤ) ≤ value i ∧ value i ≤ b

def blockStart (position : ℕ) : ℕ := position / 64 * 64

/-- **The digits of a state**: stored, pending or zero. -/
structure Represents (s : PackedSignedDigitWriter) (value : ℕ → ℤ) : Prop where
  shape : Shape s
  stored : Stored s (blockStart s.position) value
  pending : ∀ j < 64, digitOf s.pending j = value (blockStart s.position + j)
  position_le : s.position ≤ s.len
  beyond : ∀ i, s.position ≤ i → value i = 0

def place (value : ℕ → ℤ) (start : ℕ) (digits : List ℤ) (i : ℕ) : ℤ :=
  if start ≤ i ∧ i < start + digits.length then digitOf digits (i - start) else value i

section

variable {value : ℕ → ℤ} {start : ℕ} {digits : List ℤ} {i : ℕ}

@[simp] theorem place_nil : place value start [] = value := by
  funext i
  rw [place, length_nil, if_neg (by omega)]

theorem place_append (first rest : List ℤ) :
    place (place value start first) (start + first.length) rest = place value start (first ++ rest) := by
  funext i
  unfold place digitOf
  rw [length_append]
  by_cases hrest : start + first.length ≤ i ∧ i < start + first.length + rest.length
  · rw [if_pos hrest, if_pos (by omega), getD_eq_getElem?_getD, getD_eq_getElem?_getD,
      getElem?_append_right (by omega), Nat.sub_add_eq]
  · rw [if_neg hrest]
    by_cases hfirst : start ≤ i ∧ i < start + first.length
    · rw [if_pos hfirst, if_pos (by omega), getD_eq_getElem?_getD, getD_eq_getElem?_getD,
        getElem?_append_left (by omega)]
    · rw [if_neg hfirst, if_neg (by omega)]

theorem place_of_lt (h : i < start) : place value start digits i = value i := by
  rw [place, if_neg (by omega)]

theorem place_of_ge (h : start + digits.length ≤ i) : place value start digits i = value i := by
  rw [place, if_neg (by omega)]

theorem place_add {j : ℕ} (h : j < digits.length) : place value start digits (start + j) = digitOf digits j := by
  rw [place, if_pos ⟨by omega, by omega⟩, Nat.add_sub_cancel_left]

end

theorem blockStart_dvd (position : ℕ) : 64 ∣ blockStart position := Dvd.intro_left _ rfl

theorem blockStart_add_mod (position : ℕ) : blockStart position + position % 64 = position := by
  unfold blockStart
  omega

theorem blockStart_of_dvd {position : ℕ} (h : 64 ∣ position) : blockStart position = position := Nat.div_mul_cancel h

theorem valueBit_congr {u v : ℕ → ℤ} {w p : ℕ} (h : u (p / w) = v (p / w)) : valueBit u w p = valueBit v w p := by
  unfold valueBit
  rw [h]

namespace Stored

variable {s t : PackedSignedDigitWriter} {base : ℕ} {u v : ℕ → ℤ}

theorem extend {stop : ℕ} (h : Stored s base v) (hle : base ≤ stop) (hstop : 64 ∣ stop)
    (hzero : ∀ i, base ≤ i → i < stop → v i = 0) : Stored s stop v := by
  refine ⟨hstop, fun p => ?_, fun a b => ?_⟩
  · rw [h.bits]
    apply valueBit_congr
    unfold below
    by_cases hlow : p / s.bitWidth < base
    · rw [if_pos hlow, if_pos (by omega)]
    · rw [if_neg hlow]
      split
      · next hlt => exact (hzero _ (Nat.le_of_not_lt hlow) hlt).symm
      · rfl
  · rw [h.bounds]
    refine ⟨fun hall i hi => ?_, fun hall i hi => hall i (by omega)⟩
    by_cases hlow : i < base
    · exact hall i hlow
    · rw [hzero i (Nat.le_of_not_lt hlow) hi]
      exact ⟨by omega, by omega⟩

theorem congr (h : Stored s base u) (hs : s.storage = t.storage ∧ s.bitWidth = t.bitWidth ∧ s.bounds = t.bounds)
    (huv : ∀ i < base, u i = v i) : Stored t base v := by
  obtain ⟨hstor, hwidth, hbounds⟩ := hs
  refine ⟨h.aligned, fun p => ?_, fun a b => ?_⟩
  · rw [← hstor, ← hwidth, h.bits]
    apply valueBit_congr
    unfold below
    split
    · next hlt => exact huv _ hlt
    · rfl
  · rw [← hbounds, h.bounds]
    exact forall₂_congr fun i hi => by rw [huv i hi]

end Stored

/-! ## Encoding a part of the storage -/

section

variable {s : PackedSignedDigitWriter} {base stop : ℕ} {v : ℕ → ℤ} {digits : List ℤ}

theorem includeBounds_le (x y : SignedDigitBounds) (a b : ℕ) :
    ((x.includeBounds y).negativeAbsMax ≤ a ∧ (x.includeBounds y).positiveMax ≤ b) ↔
      (x.negativeAbsMax ≤ a ∧ x.positiveMax ≤ b) ∧ y.negativeAbsMax ≤ a ∧ y.positiveMax ≤ b := by
  simp only [SignedDigitBounds.includeBounds, max_le_iff]
  tauto

/-- **Digits from a block boundary on** are stored, with the zeros up to the next boundary. -/
theorem encodeInto_ok (hs : Shape s) (hst : Stored s base v) (hdigs : ∀ j < digits.length, digitOf digits j = v (base + j))
    (hlen : base + digits.length ≤ s.len) (hstop : 64 ∣ stop) (hle : base + digits.length ≤ stop)
    (hzero : ∀ i, base + digits.length ≤ i → i < stop → v i = 0) (outside : String) :
    ∃ storage bounds, s.encodeInto digits base outside = .ok { s with storage := storage, bounds := bounds } ∧
      storage.length = s.storage.length ∧ Stored { s with storage := storage, bounds := bounds } stop v := by
  have hbase := encodedByteLen_of_dvd hst.aligned s.bitWidth
  have hadd := encodedByteLen_add hst.aligned digits.length s.bitWidth
  have hmono := encodedByteLen_mono hlen s.bitWidth
  have hroom := encodedByteLen_room digits.length s.bitWidth
  have hstor := hs.storageLen
  have hwidth := hs.width
  set start := encodedByteLen base s.bitWidth with hstart
  set size := encodedByteLen digits.length s.bitWidth with hsize
  have hfits : start + size ≤ s.storage.length := by omega
  have houtLen : ((s.storage.drop start).take size).length = size := by
    rw [length_take, length_drop]
    omega
  have hclear : ∀ q, bitAt ((s.storage.drop start).take size) q = false := by
    intro q
    by_cases hq : q < 8 * size
    · have hindex : base ≤ (8 * start + q) / s.bitWidth := by
        rw [Nat.le_div_iff_mul_le hwidth.1, hbase]
        exact Nat.le_add_right _ _
      rw [bitAt_take_drop s.storage hq, hst.bits]
      exact valueBit_of_zero (if_neg (by omega))
    · exact bitAt_of_ge (by omega)
  obtain ⟨out, hout, hlength, hbits⟩ := encodeDigits_spec hwidth houtLen hclear
  rw [houtLen] at hlength
  refine ⟨copyFromSlice s.storage start out, s.bounds.includeBounds (signedDigitBounds digits), ?_, ?_, hstop, fun p => ?_,
    fun a b => ?_⟩
  · unfold encodeInto
    simp only [← hstart, ← hsize, Nat.add_sub_cancel_left, ensure, if_pos hfits, hout, ok_run]
  · exact length_copyFromSlice (by omega)
  · change bitAt (copyFromSlice s.storage start out) p = valueBit (below stop v) s.bitWidth p
    rw [bitAt_copyFromSlice (by omega), hlength]
    split
    · next hin =>
      obtain ⟨q, rfl⟩ := Nat.exists_eq_add_of_le hin.1
      rw [Nat.add_sub_cancel_left, hbits, hbase, mul_comm base]
      unfold valueBit
      rw [Nat.mul_add_mod, Nat.mul_add_div hwidth.1]
      congr 3
      by_cases hq : q / s.bitWidth < digits.length
      · rw [hdigs _ hq, below, if_pos (by omega)]
      · rw [digitOf, getD_eq_default _ _ (Nat.le_of_not_lt hq), below]
        split
        · next hlt => exact (hzero _ (by omega) hlt).symm
        · rfl
    · next hout =>
      rw [hst.bits]
      apply valueBit_congr
      unfold below
      by_cases hlow : p / s.bitWidth < base
      · rw [if_pos hlow, if_pos (by omega)]
      · have hfar : base + digits.length ≤ p / s.bitWidth := by
          have hp : base * s.bitWidth ≤ p := (Nat.le_div_iff_mul_le hwidth.1).1 (Nat.le_of_not_lt hlow)
          rw [Nat.le_div_iff_mul_le hwidth.1, add_mul]
          omega
        rw [if_neg hlow]
        split
        · next hlt => exact (hzero _ hfar hlt).symm
        · rfl
  · change ((s.bounds.includeBounds (signedDigitBounds digits)).negativeAbsMax ≤ a ∧
      (s.bounds.includeBounds (signedDigitBounds digits)).positiveMax ≤ b) ↔ _
    rw [includeBounds_le, hst.bounds, signedDigitBounds_le]
    constructor
    · rintro ⟨hold, hnew⟩ i hi
      by_cases hlow : i < base
      · exact hold i hlow
      · by_cases hin : i < base + digits.length
        · have hget := hdigs (i - base) (by omega)
          rw [digitOf, getD_eq_getElem?_getD, getElem?_eq_getElem (by omega), Option.getD_some,
            show base + (i - base) = i by omega] at hget
          rw [← hget]
          exact hnew _ (getElem_mem _)
        · rw [hzero i (Nat.le_of_not_lt hin) hi]
          exact ⟨by omega, by omega⟩
    · intro hall
      refine ⟨fun i hi => hall i (by omega), fun digit hdigit => ?_⟩
      obtain ⟨j, hj, rfl⟩ := getElem_of_mem hdigit
      have hget := hdigs j hj
      rw [digitOf, getD_eq_getElem?_getD, getElem?_eq_getElem hj, Option.getD_some] at hget
      rw [hget]
      exact hall _ (by omega)

/-- **A flush** stores the pending block. -/
theorem flushPending_ok (hs : Shape s) (hst : Stored s base v) (hpend : ∀ j < 64, digitOf s.pending j = v (base + j))
    (hbase : base < s.len) (hzero : ∀ i, s.len ≤ i → v i = 0) :
    ∃ storage bounds, s.flushPending base = .ok { s with storage := storage, bounds := bounds, pending := replicate 64 0 } ∧
      storage.length = s.storage.length ∧
      Stored { s with storage := storage, bounds := bounds, pending := replicate 64 0 } (base + 64) v := by
  have hlength : (s.pending.take (min (s.len - base) digitsPerBlock)).length = min (s.len - base) 64 := by
    have hpendLen := hs.pendingLen
    rw [length_take, hpendLen, digitsPerBlock]
    omega
  obtain ⟨storage, bounds, hrun, hlen, hstored⟩ := @encodeInto_ok s base (base + 64) v
    (s.pending.take (min (s.len - base) digitsPerBlock)) hs hst (fun j hj => by
      rw [hlength] at hj
      rw [← hpend j (by omega), digitOf, digitOf, getD_eq_getElem?_getD, getElem?_take_of_lt (by
        rw [digitsPerBlock]; omega), ← getD_eq_getElem?_getD]) (by omega) (dvd_add hst.aligned (dvd_refl 64)) (by omega)
    (fun i hi hlt => hzero i (by omega)) "streaming digit encoder pending-block range is outside its storage"
  refine ⟨storage, bounds, ?_, hlen, hstored.congr ⟨rfl, rfl, rfl⟩ fun _ _ => rfl⟩
  unfold flushPending
  simp only [hrun, ok_run]

end

/-! ## The parts of a write -/

section write

variable {s : PackedSignedDigitWriter} {v : ℕ → ℤ} {start : ℕ} {digits : List ℤ} {t : PackedSignedDigitWriter}

theorem digitOf_zeros (j : ℕ) : digitOf (replicate 64 0) j = 0 := by
  rw [digitOf, getD_eq_getElem?_getD, getElem?_replicate]
  split <;> rfl

section

variable (h : Represents s v)

include h

theorem Represents.zero_past_len (i : ℕ) (hi : s.len ≤ i) : v i = 0 := h.beyond i (h.position_le.trans hi)

/-- **The gap** before a write is zero. -/
theorem skipTo_ok (hge : s.position ≤ start) (hle : start ≤ s.len) :
    ∃ t, s.skipTo start = .ok t ∧ Represents t v ∧ t.position = start ∧ t.len = s.len ∧ t.bitWidth = s.bitWidth := by
  have hblock := blockStart_add_mod s.position
  have hbeyond : ∀ i, start ≤ i → v i = 0 := fun i hi => h.beyond i (hge.trans hi)
  unfold skipTo
  by_cases hflush : s.position % digitsPerBlock ≠ 0 ∧ start / digitsPerBlock > s.position / digitsPerBlock
  · simp only [if_pos hflush]
    simp only [digitsPerBlock] at hflush ⊢
    obtain ⟨storage, bounds, hrun, hlen, hstored⟩ := flushPending_ok h.shape h.stored h.pending
      (by have := h.position_le; omega) h.zero_past_len
    rw [show s.position - s.position % 64 = blockStart s.position by omega, hrun]
    have hnext : blockStart s.position + 64 ≤ blockStart start := by
      unfold blockStart
      omega
    refine ⟨_, rfl, ⟨⟨h.shape.width, h.shape.len_lt, h.shape.encodedLen, ?_, length_replicate⟩, ?_, fun j _ => ?_, hle, hbeyond⟩, rfl, rfl, rfl⟩
    · exact hlen.trans h.shape.storageLen
    · exact (hstored.extend hnext (blockStart_dvd start) fun i hi _ => h.beyond i (by omega)).congr ⟨rfl, rfl, rfl⟩ fun _ _ => rfl
    · change digitOf (replicate 64 0) j = v (blockStart start + j)
      rw [digitOf_zeros]
      exact (h.beyond _ (by omega)).symm
  · simp only [if_neg hflush]
    simp only [digitsPerBlock] at hflush
    refine ⟨_, rfl, ⟨⟨h.shape.width, h.shape.len_lt, h.shape.encodedLen, h.shape.storageLen, h.shape.pendingLen⟩, ?_, fun j hj => ?_, hle, hbeyond⟩,
      rfl, rfl, rfl⟩
    · by_cases hsame : start / 64 = s.position / 64
      · have heq : blockStart start = blockStart s.position := by
          unfold blockStart
          rw [hsame]
        exact heq ▸ h.stored.congr ⟨rfl, rfl, rfl⟩ fun _ _ => rfl
      · -- a position on a block boundary leaves no digit pending
        have hle' : blockStart s.position ≤ blockStart start := by
          unfold blockStart
          omega
        exact (h.stored.extend hle' (blockStart_dvd start) fun i hi _ => h.beyond i (by omega)).congr ⟨rfl, rfl, rfl⟩ fun _ _ => rfl
    · change digitOf s.pending j = v (blockStart start + j)
      by_cases hsame : start / 64 = s.position / 64
      · rw [h.pending j hj, blockStart, blockStart, hsame]
      · have hle' : s.position / 64 + 1 ≤ start / 64 := by omega
        have hfar : s.position ≤ blockStart start + j := by
          unfold blockStart
          omega
        rw [h.pending j hj, h.beyond _ (by omega), h.beyond _ hfar]

theorem pending_place {offset : ℕ} (hoffset : blockStart s.position + offset = s.position)
    (hfits : offset + digits.length ≤ 64) (j : ℕ) (hj : j < 64) :
    digitOf (copyFromSlice s.pending offset digits) j = place v s.position digits (blockStart s.position + j) := by
  have hlen := h.shape.pendingLen
  rw [digitsPerBlock] at hlen
  rw [digitOf, getD_copyFromSlice (by omega)]
  unfold place
  by_cases hin : offset ≤ j ∧ j < offset + digits.length
  · rw [if_pos hin, if_pos (by omega), digitOf, show blockStart s.position + j - s.position = j - offset by omega]
  · rw [if_neg hin, if_neg (by omega)]
    exact h.pending j hj

/-- **A split block** takes the first digits, and is stored when they fill it. -/
theorem fillSplit_ok (hle : s.position + digits.length ≤ s.len) :
    ∃ t taken rest, s.fillSplit digits = .ok (t, rest) ∧ digits = taken ++ rest ∧ Represents t (place v s.position taken) ∧
      t.position = s.position + taken.length ∧ t.len = s.len ∧ t.bitWidth = s.bitWidth ∧ (rest = [] ∨ 64 ∣ t.position) := by
  have hblock := blockStart_add_mod s.position
  have hpendLen := h.shape.pendingLen
  unfold fillSplit
  by_cases hoffset : s.position % digitsPerBlock = 0
  · refine ⟨s, [], digits, by simp only [if_pos hoffset], rfl, by rw [place_nil]; exact h, rfl, rfl, rfl, .inr ?_⟩
    exact Nat.dvd_of_mod_eq_zero hoffset
  simp only [if_neg hoffset]
  simp only [digitsPerBlock] at hoffset hpendLen ⊢
  set take := min (64 - s.position % 64) digits.length with htake
  have hlen : (digits.take take).length = take := by
    rw [length_take]
    omega
  have hpend := @pending_place s v (digits.take take) h _ hblock (by rw [hlen]; omega)
  have hposs : ∀ i, s.position + take ≤ i → place v s.position (digits.take take) i = 0 := by
    intro i hi
    rw [place_of_ge (by omega)]
    exact h.beyond i (by omega)
  have hstored : ∀ {t : PackedSignedDigitWriter},
      s.storage = t.storage ∧ s.bitWidth = t.bitWidth ∧ s.bounds = t.bounds →
      Stored t (blockStart s.position) (place v s.position (digits.take take)) := fun ht =>
    h.stored.congr ht fun i hi => (place_of_lt (by omega)).symm
  have hcopied : (copyFromSlice s.pending (s.position % 64) (digits.take take)).length = 64 := by
    rw [length_copyFromSlice (by omega), hpendLen]
  by_cases hfull : (s.position + take) % 64 = 0
  · -- the digits fill the block
    obtain ⟨storage, bounds, hrun, hstorageLen, hnew⟩ := flushPending_ok (s := { s with
        pending := copyFromSlice s.pending (s.position % 64) (digits.take take)
        position := s.position + take })
      ⟨h.shape.width, h.shape.len_lt, h.shape.encodedLen, h.shape.storageLen, hcopied⟩ (hstored ⟨rfl, rfl, rfl⟩) hpend
      (by change blockStart s.position < s.len; omega) (fun i hi => hposs i (by change s.len ≤ i at hi; omega))
    have hstart : blockStart (s.position + take) = blockStart s.position + 64 := by
      unfold blockStart at hblock ⊢
      omega
    have hsub : s.position + take - 64 = blockStart s.position := by
      omega
    refine ⟨{ s with storage := storage, bounds := bounds, pending := replicate 64 0, position := s.position + take },
      digits.take take, digits.drop take, ?_, (take_append_drop _ _).symm,
      ⟨⟨h.shape.width, h.shape.len_lt, h.shape.encodedLen, hstorageLen.trans h.shape.storageLen, length_replicate⟩, ?_, fun j _ => ?_,
        ?_, fun i hi => ?_⟩, ?_, rfl, rfl, .inr (Nat.dvd_of_mod_eq_zero hfull)⟩
    · simp only [if_pos hfull, hsub, hrun, ok_run]
    · rw [hstart]
      exact hnew
    · change digitOf (replicate 64 0) j = place v s.position (digits.take take) (blockStart (s.position + take) + j)
      rw [digitOf_zeros]
      exact (hposs _ (by rw [hstart]; unfold blockStart at hblock ⊢; omega)).symm
    · change s.position + take ≤ s.len
      omega
    · exact hposs i hi
    · rw [hlen]
  · have hall : take = digits.length := by
      by_contra hne
      apply hfull
      omega
    have hstart : blockStart (s.position + take) = blockStart s.position := by
      unfold blockStart at hblock ⊢
      omega
    refine ⟨{ s with
        pending := copyFromSlice s.pending (s.position % 64) (digits.take take)
        position := s.position + take }, digits.take take, digits.drop take, ?_, (take_append_drop _ _).symm,
      ⟨⟨h.shape.width, h.shape.len_lt, h.shape.encodedLen, h.shape.storageLen, hcopied⟩, ?_, fun j hj => ?_, ?_, fun i hi => hposs i hi⟩,
      by rw [hlen], rfl, rfl, .inl ?_⟩
    · simp only [if_neg hfull, ok_run]
    · rw [hstart]
      exact hstored ⟨rfl, rfl, rfl⟩
    · change digitOf (copyFromSlice s.pending (s.position % 64) (digits.take take)) j = _
      rw [hpend j hj]
      rw [hstart]
    · change s.position + take ≤ s.len
      omega
    · exact drop_of_length_le (by omega)

/-- **Whole blocks** are stored at once. -/
theorem writeWhole_ok (hle : s.position + digits.length ≤ s.len) (hblock : digits = [] ∨ 64 ∣ s.position) :
    ∃ t taken rest, s.writeWhole digits = .ok (t, rest) ∧ digits = taken ++ rest ∧ Represents t (place v s.position taken) ∧
      t.position = s.position + taken.length ∧ t.len = s.len ∧ t.bitWidth = s.bitWidth ∧ rest.length < 64 ∧
      (rest = [] ∨ 64 ∣ t.position) := by
  unfold writeWhole
  by_cases hwhole : digits.length - digits.length % digitsPerBlock = 0
  · refine ⟨s, [], digits, by simp only [if_pos hwhole], rfl, by rw [place_nil]; exact h, rfl, rfl, rfl, ?_, hblock⟩
    rw [digitsPerBlock] at hwhole
    omega
  simp only [if_neg hwhole]
  have halign : 64 ∣ s.position := by
    rcases hblock with hnil | hblock
    · rw [hnil] at hwhole
      exact absurd rfl hwhole
    · exact hblock
  set whole := digits.length - digits.length % 64 with hw
  have hdvd : 64 ∣ whole := Nat.dvd_sub_mod digits.length
  have hlen : (digits.take whole).length = whole := by
    rw [length_take]
    omega
  have hbase := blockStart_of_dvd halign
  have hposs : ∀ i, s.position + whole ≤ i → place v s.position (digits.take whole) i = 0 := by
    intro i hi
    rw [place_of_ge (by omega)]
    exact h.beyond i (by omega)
  have hstored : Stored s s.position (place v s.position (digits.take whole)) := by
    have hold := h.stored
    rw [hbase] at hold
    exact hold.congr ⟨rfl, rfl, rfl⟩ fun i hi => (place_of_lt hi).symm
  obtain ⟨storage, bounds, hrun, hstorageLen, hnew⟩ := @encodeInto_ok s s.position (s.position + whole) _ _ h.shape hstored
    (fun j hj => (place_add hj).symm) (by omega) (dvd_add halign hdvd) (by omega) (fun i hi _ => hposs i (by omega))
    "streaming digit encoder whole-block range is outside its storage"
  have hstart := blockStart_of_dvd (dvd_add halign hdvd)
  refine ⟨{ s with storage := storage, bounds := bounds, position := s.position + whole }, digits.take whole, digits.drop whole,
    ?_, (take_append_drop _ _).symm, ⟨⟨h.shape.width, h.shape.len_lt, h.shape.encodedLen, hstorageLen.trans h.shape.storageLen, h.shape.pendingLen⟩, ?_, fun j hj => ?_, ?_,
      fun i hi => hposs i hi⟩, by rw [hlen], rfl, rfl, ?_, .inr (dvd_add halign hdvd)⟩
  · simp only [hrun, ok_run]
  · rw [hstart]
    exact hnew.congr ⟨rfl, rfl, rfl⟩ fun _ _ => rfl
  · change digitOf s.pending j = place v s.position (digits.take whole) (blockStart (s.position + whole) + j)
    rw [hstart, hposs _ (by omega), h.pending j hj, hbase]
    exact h.beyond _ (by omega)
  · change s.position + whole ≤ s.len
    omega
  · rw [length_drop]
    omega

/-- **A write** from the position on and up to the length is taken, and puts its digits. -/
theorem writeAt_ok (hge : s.position ≤ start) (hle : start + digits.length ≤ s.len) :
    ∃ t, s.writeAt start digits = .ok t ∧ Represents t (place v start digits) ∧ t.position = start + digits.length ∧
      t.len = s.len ∧ t.bitWidth = s.bitWidth := by
  obtain ⟨s₁, hrun₁, hrep₁, hpos₁, hlen₁, hwidth₁⟩ := skipTo_ok h hge (by omega)
  obtain ⟨s₂, first, digits₂, hrun₂, hsplit₂, hrep₂, hpos₂, hlen₂, hwidth₂, hblock₂⟩ :=
    @fillSplit_ok s₁ v digits hrep₁ (by omega)
  have hlength₂ := congrArg length hsplit₂
  rw [length_append] at hlength₂
  obtain ⟨s₃, second, rest, hrun₃, hsplit₃, hrep₃, hpos₃, hlen₃, hwidth₃, hshort, hblock₃⟩ :=
    @writeWhole_ok s₂ _ digits₂ hrep₂ (by omega) hblock₂
  have hlength₃ := congrArg length hsplit₃
  rw [length_append] at hlength₃
  have hstop : start + digits.length < 2 ^ usizeBits := lt_of_le_of_lt hle h.shape.len_lt
  -- the digits put by the three parts are those of the write
  have hplace : place (place (place v s₁.position first) s₂.position second) s₃.position rest = place v start digits := by
    rw [hpos₃, place_append, hpos₂, place_append, hpos₁, hsplit₂, hsplit₃]
  have hpendLen := hrep₃.shape.pendingLen
  rw [digitsPerBlock] at hpendLen
  refine ⟨{ s₃ with
    pending := copyFromSlice s₃.pending 0 rest
    position := s₃.position + rest.length }, ?_, hplace ▸ ?_, ?_, by rw [← hlen₁, ← hlen₂, ← hlen₃], by rw [← hwidth₁, ← hwidth₂, ← hwidth₃]⟩
  · unfold writeAt
    simp only [ensure, if_pos (Nat.not_lt.2 hge), okOr, checkedAdd, if_pos hstop, if_pos (Nat.not_lt.2 hle),
      hrun₁, hrun₂, hrun₃, ok_run]
  · rcases eq_nil_or_concat rest with hnil | ⟨_, _, hcons⟩
    · subst hnil
      have hcopy : copyFromSlice s₃.pending 0 ([] : List ℤ) = s₃.pending := by simp [copyFromSlice]
      rw [place_nil, hcopy]
      exact hrep₃
    · have halign : 64 ∣ s₃.position := by
        rcases hblock₃ with hnil | hdvd
        · rw [hnil] at hcons
          simp at hcons
        · exact hdvd
      have hbase := blockStart_of_dvd halign
      have hstart : blockStart (s₃.position + rest.length) = s₃.position := by
        unfold blockStart at hbase ⊢
        omega
      refine ⟨⟨hrep₃.shape.width, hrep₃.shape.len_lt, hrep₃.shape.encodedLen, hrep₃.shape.storageLen, ?_⟩, ?_, fun j hj => ?_, ?_, fun i hi => ?_⟩
      · change (copyFromSlice s₃.pending 0 rest).length = 64
        rw [length_copyFromSlice (by omega), hpendLen]
      · have hold := hrep₃.stored
        rw [hbase] at hold
        exact hstart.symm ▸ hold.congr ⟨rfl, rfl, rfl⟩ fun i hi => (place_of_lt hi).symm
      · have hpend := @pending_place s₃ _ rest hrep₃ 0 (by omega) (by omega) j hj
        rw [hpend, hstart, hbase]
      · change s₃.position + rest.length ≤ s₃.len
        omega
      · have hi : s₃.position + rest.length ≤ i := hi
        rw [place_of_ge hi]
        exact hrep₃.beyond i (by omega)
  · change s₃.position + rest.length = start + digits.length
    omega

end

theorem writeAt_bounds (hrun : s.writeAt start digits = .ok t) : s.position ≤ start ∧ start + digits.length ≤ s.len := by
  obtain ⟨_, hge, hrun⟩ := bind_eq_ok.1 hrun
  obtain ⟨stop, hstop, hrun⟩ := bind_eq_ok.1 hrun
  obtain ⟨_, hle, _⟩ := bind_eq_ok.1 hrun
  obtain ⟨-, rfl⟩ := checkedAdd_eq_some.1 (okOr_eq_ok.1 hstop)
  exact ⟨Nat.le_of_not_lt (ensure_eq_ok.1 hge), Nat.le_of_not_lt (ensure_eq_ok.1 hle)⟩

/-- **A taken write** puts its digits. -/
theorem writeAt_spec (h : Represents s v) (hrun : s.writeAt start digits = .ok t) :
    Represents t (place v start digits) ∧ t.position = start + digits.length ∧ t.len = s.len ∧ t.bitWidth = s.bitWidth := by
  obtain ⟨hge, hle⟩ := writeAt_bounds hrun
  obtain ⟨t', hrun', hspec⟩ := @writeAt_ok s v start digits h hge hle
  obtain rfl : t' = t := by
    rw [hrun] at hrun'
    exact (Except.ok.inj hrun').symm
  exact hspec

end write

/-! ## Runs -/

section

variable {s t : PackedSignedDigitWriter} {v : ℕ → ℤ} {len w : ℕ} {ws : List (Write ℤ)} {packed : PackedSignedDigits}

theorem new_represents (hlen : len < 2 ^ 64) (h : PackedSignedDigitWriter.new len w = .ok s) :
    Represents s (fun _ => 0) ∧ s.position = 0 ∧ s.len = len ∧ s.bitWidth = w := by
  unfold PackedSignedDigitWriter.new at h
  simp only [bind_eq_ok] at h
  obtain ⟨_, hwidth, storageLen, hstor, h⟩ := h
  cases h
  obtain ⟨hstor, -⟩ := Option.filter_eq_some_iff.1 (okOr_eq_ok.1 hstor)
  obtain ⟨-, rfl⟩ := checkedAdd_eq_some.1 hstor
  refine ⟨⟨⟨ensure_eq_ok.1 hwidth, hlen, rfl, length_replicate, length_replicate⟩, ⟨blockStart_dvd 0, fun p => ?_, fun a b => ?_⟩,
    fun j _ => digitOf_zeros j, Nat.zero_le len, fun _ _ => rfl⟩, rfl, rfl, rfl⟩
  · rw [bitAt_replicate_zero]
    exact (valueBit_of_zero (ite_self 0)).symm
  · exact ⟨fun _ i _ => ⟨by simp, Int.natCast_nonneg b⟩, fun _ => ⟨Nat.zero_le a, Nat.zero_le b⟩⟩

theorem place_itemAt {u : Write ℤ} (hle : ∀ v ∈ ws, v.span.stop ≤ u.start) :
    place (itemAt 0 ws) u.start u.items = itemAt 0 (ws ++ [u]) := by
  funext p
  rw [itemAt_concat hle]
  rfl

/-- **A list of writes that is taken** is in order and within the length, and the writer stands for its digits. -/
theorem writeAll_represents (h : Represents s (fun _ => 0)) (hrun : writeAll writeAt ws s = .ok t) :
    Represents t (itemAt 0 ws) ∧ InOrder ws ∧ (∀ u ∈ ws, u.span.stop ≤ s.len) ∧ t.len = s.len ∧ t.bitWidth = s.bitWidth := by
  have hkeep := foldlM_passes (P := fun made state => Represents state (itemAt 0 made) ∧ InOrder made ∧
      (∀ u ∈ made, u.span.stop ≤ state.position) ∧ state.len = s.len ∧ state.bitWidth = s.bitWidth)
    (fun made u rest state state' _ hinv hstep => by
      obtain ⟨hrep, horder, hstops, hlen, hwidth⟩ := hinv
      obtain ⟨hge, -⟩ := writeAt_bounds hstep
      obtain ⟨hrep', hpos, hlen', hwidth'⟩ := writeAt_spec hrep hstep
      have hbefore : ∀ v ∈ made, v.span.stop ≤ u.start := fun v hv => (hstops v hv).trans hge
      rw [place_itemAt hbefore] at hrep'
      refine ⟨hrep', ?_, fun v hv => ?_, hlen'.trans hlen, hwidth'.trans hwidth⟩
      · exact pairwise_append.2 ⟨horder, pairwise_singleton _ _, fun v hv u' hu' =>
          (mem_singleton.1 hu') ▸ hbefore v hv⟩
      · rw [hpos]
        rcases mem_append.1 hv with hv | hv
        · exact (hbefore v hv).trans (Nat.le_add_right _ _)
        · rw [mem_singleton.1 hv]
          exact le_rfl)
    ⟨h, List.Pairwise.nil, by simp, rfl, rfl⟩ hrun
  obtain ⟨hrep, horder, hstops, hlen, hwidth⟩ := hkeep
  exact ⟨hrep, horder, fun u hu => (hstops u hu).trans (hlen ▸ hrep.position_le), hlen, hwidth⟩

/-- **Writes in order and within the length are all taken.** -/
theorem writeAll_taken (h : Represents s v) (horder : InOrder ws) (hin : ∀ u ∈ ws, s.position ≤ u.start ∧ u.span.stop ≤ s.len) :
    ∃ t, writeAll writeAt ws s = .ok t := by
  refine writeAll_ok (P := fun s => ∃ v, Represents s v) (fun s start digits hs hge hle => ?_) ⟨v, h⟩ horder hin
  obtain ⟨v, hrep⟩ := hs
  obtain ⟨t, hstep, hrep', hpos, hlen, -⟩ := writeAt_ok hrep hge hle
  exact ⟨t, hstep, hpos, hlen, _, hrep'⟩

theorem finish_flush (h : Represents s v) : ∃ t base, (if s.position % digitsPerBlock ≠ 0
      then s.flushPending (s.position - s.position % digitsPerBlock) else .ok s : Result PackedSignedDigitWriter) = .ok t ∧
    Shape t ∧ Stored t base v ∧ t.len = s.len ∧ t.bitWidth = s.bitWidth ∧ s.position ≤ base := by
  have hblock := blockStart_add_mod s.position
  by_cases hsplit : s.position % digitsPerBlock ≠ 0
  · rw [if_pos hsplit]
    simp only [digitsPerBlock] at hsplit ⊢
    obtain ⟨storage, bounds, hrun, hlen, hstored⟩ := flushPending_ok h.shape h.stored h.pending
      (by have := h.position_le; omega) h.zero_past_len
    rw [show s.position - s.position % 64 = blockStart s.position by omega]
    exact ⟨_, _, hrun, ⟨h.shape.width, h.shape.len_lt, h.shape.encodedLen, hlen.trans h.shape.storageLen, length_replicate⟩, hstored, rfl, rfl, by omega⟩
  · rw [if_neg hsplit]
    simp only [digitsPerBlock] at hsplit
    exact ⟨s, _, rfl, h.shape, h.stored, rfl, rfl, by omega⟩

/-- The bounds pass exactly when the width represents every digit. -/
theorem validateBounds_stored {base : ℕ} (hst : Stored t base v) (hbeyond : ∀ i, base ≤ i → v i = 0) :
    validateBounds t.bounds t.bitWidth = .ok () ↔ ∀ i, Fits t.bitWidth (v i) := by
  have hpos : 1 ≤ 2 ^ (t.bitWidth - 1) := Nat.one_le_two_pow
  have hcast : ((2 ^ (t.bitWidth - 1) : ℕ) : ℤ) = 2 ^ (t.bitWidth - 1) := by push_cast; rfl
  have hcover := hst.bounds (2 ^ (t.bitWidth - 1)) (2 ^ (t.bitWidth - 1) - 1)
  have hpred : ((2 ^ (t.bitWidth - 1) - 1 : ℕ) : ℤ) = 2 ^ (t.bitWidth - 1) - 1 := by rw [Nat.cast_sub hpos, hcast, Nat.cast_one]
  rw [hcast, hpred] at hcover
  unfold validateBounds
  rw [ensure_eq_ok]
  have hlt : t.bounds.positiveMax < 2 ^ (t.bitWidth - 1) ↔ t.bounds.positiveMax ≤ 2 ^ (t.bitWidth - 1) - 1 := by omega
  rw [hlt, hcover]
  have hzero : Fits t.bitWidth 0 := fits_zero _
  constructor
  · intro hall i
    by_cases hi : i < base
    · obtain ⟨hlow, hhigh⟩ := hall i hi
      exact ⟨hlow, by omega⟩
    · rw [hbeyond i (Nat.le_of_not_lt hi)]
      exact hzero
  · intro hall i _
    obtain ⟨hlow, hhigh⟩ := hall i
    exact ⟨hlow, by omega⟩

/-- **The finished digits** hold what the writer stands for, which their width represents, and their bounds are exact. -/
theorem finish_holds (h : Represents s v) (hrun : s.finish = .ok packed) :
    packed.len = s.len ∧ packed.bitWidth = s.bitWidth ∧ Holds packed v ∧ Covers packed.bounds (· < s.len) v := by
  obtain ⟨t, base, hflush, hshape, hstored, hlen, hwidth, hbase⟩ := finish_flush h
  have hbeyond : ∀ i, base ≤ i → v i = 0 := fun i hi => h.beyond i (hbase.trans hi)
  obtain ⟨t', ht', hrun⟩ := bind_eq_ok.1 hrun
  obtain rfl : t = t' := Except.ok.inj (hflush.symm.trans ht')
  obtain ⟨_, hbounds, hrun⟩ := bind_eq_ok.1 hrun
  cases hrun
  refine ⟨hlen, hwidth, ⟨hshape.width, hshape.storageLen, hshape.encodedLen, fun q => ?_,
    (validateBounds_stored hstored hbeyond).1 hbounds, fun i hi => h.zero_past_len i (hlen ▸ hi)⟩,
    Covers.congr (P := (· < base)) hstored.bounds fun i hi => ⟨fun _ => ?_, fun _ => ?_⟩⟩
  · refine (hstored.bits q).trans (valueBit_congr ?_)
    unfold below
    split
    · rfl
    · next hq => exact (hbeyond _ (Nat.le_of_not_lt hq)).symm
  · exact Nat.lt_of_not_le fun hle => hi (h.zero_past_len i hle)
  · exact Nat.lt_of_not_le fun hle => hi (hbeyond i hle)

theorem finish_spec (h : Represents s v) (hrun : s.finish = .ok packed) :
    packed.len = s.len ∧ packed.bitWidth = s.bitWidth ∧ (∀ i, Fits s.bitWidth (v i)) ∧
      ∀ i < s.len, packed.get i = .ok (some (v i)) := by
  obtain ⟨hlen, hwidth, hholds, -⟩ := finish_holds h hrun
  refine ⟨hlen, hwidth, hwidth ▸ hholds.fits, fun i hi => ?_⟩
  unfold PackedSignedDigits.get
  rw [if_neg (by omega), hholds.decodeAt (hlen ▸ hi)]
  rfl

/-- **A writer finishes** when its width represents all its digits. -/
theorem finish_ok (h : Represents s v) (hfits : ∀ i, Fits s.bitWidth (v i)) : ∃ packed, s.finish = .ok packed := by
  obtain ⟨t, base, hflush, hshape, hstored, -, hwidth, hbase⟩ := finish_flush h
  have hbounds := (validateBounds_stored hstored fun i hi => h.beyond i (hbase.trans hi)).2 (hwidth ▸ hfits)
  refine ⟨⟨t.storage, t.encodedLen, t.len, t.bitWidth, t.bounds⟩, ?_⟩
  unfold PackedSignedDigitWriter.finish
  simp only [hflush, hbounds, ok_run]

end

end Akita.PackedDigits
