import Akita.Lib.Loops
import Akita.Lib.Summary
import Akita.Proof.PackedWriter

/-!
# Packed digits read back

Storage that holds the bits of a sequence of digits shows this sequence to every reader: digit by digit, by ranges, by the
iterator, through slices and through views that are padded with zeros. The writer and the import both leave such storage.

* `readsBack`: every view of the storage shows the digits.
* `importEncoded_holds`: imported bytes hold the digits that they encode.
* `packed_digits_faithful`: any calls of the writer and any imported bytes.
-/

namespace Akita.PackedDigits

open Lib List PackedSignedDigitView
open Nat (le_of_not_lt succ_mul mod_lt zero_le)
open UInt8 (ofNat)

/-! ## Views -/

/-- The vector code of an architecture decodes what the scalar code does. -/
def BlockDecoder.Lawful (decode : BlockDecoder) : Prop :=
  ∀ encoded bitWidth, 1 ≤ bitWidth ∧ bitWidth ≤ 8 → bitWidth * 8 + vectorLoadPadding ≤ encoded.length →
    decode encoded bitWidth = decodeFullBlock encoded bitWidth

/-- A view of the digits from an offset on. -/
inductive ViewOf (packed : PackedSignedDigits) : ℕ → ℕ → PackedSignedDigitView → Prop
  | whole : ViewOf packed 0 packed.len packed.view
  | zeroPadded {len view} : packed.zeroPadded len = .ok view → ViewOf packed 0 len view
  | slice {offset len view range part} : ViewOf packed offset len view → view.slice range = .ok part →
      ViewOf packed (offset + range.start) range.len part

/-- **Every reader of a view** gives the digits from the offset on. -/
structure ReadsBack (decode : BlockDecoder) (storedLen offset len : ℕ) (view : PackedSignedDigitView) (value : ℕ → ℤ) : Prop where
  get : ∀ i, view.get i = .ok (if i < len then some (value (offset + i)) else none)
  decodeRange : ∀ start count, start + count ≤ len → start + count < 2 ^ 64 → view.decodeRange decode start count =
    .ok ((List.range count).map (fun i => value (offset + start + i)), min storedLen (offset + start + count) - (offset + start))
  outside : ∀ start count, len < start + count → ∃ e, view.decodeRange decode start count = .error e
  iter : ∀ n, PackedSignedDigitIter.nexts decode n view.iter =
    .ok ((List.range n).map fun i => if i < len then some (value (offset + i)) else none)

section readers

variable {decode : BlockDecoder} {packed : PackedSignedDigits} {value : ℕ → ℤ} {view : PackedSignedDigitView}
  {offset len start count i n : ℕ}

theorem ViewOf.fields (h : ViewOf packed offset len view) : view.storage = packed.storage ∧ view.storedLen = packed.len ∧
    view.bitWidth = packed.bitWidth ∧ view.start = offset ∧ view.len = len := by
  induction h with
  | whole => exact ⟨rfl, rfl, rfl, rfl, rfl⟩
  | zeroPadded h =>
    simp only [PackedSignedDigits.zeroPadded, result_ok] at h
    obtain ⟨-, rfl⟩ := h
    exact ⟨rfl, rfl, rfl, rfl, rfl⟩
  | slice _ h ih =>
    simp only [PackedSignedDigitView.slice, result_ok] at h
    obtain ⟨-, rfl⟩ := h
    exact ⟨ih.1, ih.2.1, ih.2.2.1, congrArg (· + _) ih.2.2.2.1, rfl⟩

theorem Holds.get (h : Holds packed value) (hview : ViewOf packed offset len view) (i : ℕ) :
    view.get i = .ok (if i < len then some (value (offset + i)) else none) := by
  obtain ⟨hstor, hstored, hwidth, rfl, rfl⟩ := hview.fields
  unfold PackedSignedDigitView.get decodeStored
  by_cases hi : i < view.len
  · rw [if_neg (Nat.not_le.2 hi), if_pos hi, hstor, hstored, hwidth]
    by_cases hlive : view.start + i < packed.len
    · simp only [if_pos hlive, h.decodeAt hlive, ok_run]
    · simp only [if_neg hlive, h.beyond _ (le_of_not_lt hlive)]
  · rw [if_pos (le_of_not_lt hi), if_neg hi]

/-- A digit of a block is a digit of the storage from the block's first byte on. -/
theorem decodeAt_drop (storage : List UInt8) (block j w : ℕ) :
    decodeAt (storage.drop (block * w * 8)) j w = decodeAt storage (digitsPerBlock * block + j) w := by
  have hpos : bitPosition (digitsPerBlock * block + j) w = (block * w * 8 + (bitPosition j w).1, (bitPosition j w).2) := by
    have hdiv : (digitsPerBlock * block + j) / 8 = 8 * block + j / 8 := by rw [digitsPerBlock]; omega
    have hmod : (digitsPerBlock * block + j) % 8 = j % 8 := by rw [digitsPerBlock]; omega
    simp only [bitPosition, hdiv, hmod, Prod.mk.injEq, and_true]
    ring
  unfold decodeAt
  rw [hpos]
  simp only [getElem?_drop, add_assoc]

theorem Holds.decodeBlock (h : Holds packed value) (hdecode : decode.Lawful) (hview : ViewOf packed offset len view) {block : ℕ}
    (hblock : digitsPerBlock * block + digitsPerBlock ≤ packed.len) :
    view.decodeBlock decode block = .ok ((range digitsPerBlock).map fun j => value (digitsPerBlock * block + j)) := by
  obtain ⟨hstor, -, hwidth, -, -⟩ := hview.fields
  have hbytes : block * packed.bitWidth * 8 + packed.bitWidth * 8 + vectorLoadPadding ≤ packed.storage.length := by
    have hmono := encodedByteLen_mono hblock packed.bitWidth
    rw [digitsPerBlock, encodedByteLen_eq, show (64 * block + 64) * packed.bitWidth + 7 =
      8 * (block * packed.bitWidth * 8 + packed.bitWidth * 8) + 7 by ring] at hmono
    rw [h.storageLen]
    omega
  unfold PackedSignedDigitView.decodeBlock
  rw [hstor, hwidth]
  simp only [ensure, if_pos (show block * packed.bitWidth * 8 ≤ packed.storage.length by omega), ok_run]
  rw [hdecode _ _ h.width (by rw [length_drop]; omega), decodeFullBlock]
  refine mapM_ok_of_forall fun j hj => ?_
  have hlt := mem_range.1 hj
  rw [decodeAt_drop, h.decodeAt (by omega)]

theorem map_range_add (f : ℕ → ℤ) (m n : ℕ) :
    (range m).map f ++ (range n).map (fun i => f (m + i)) = (range (m + n)).map f := by
  rw [range_add, map_append, map_map]
  rfl

/-- The digits of whole blocks in a row. -/
theorem flatten_blocks (f : ℕ → ℤ) (size n : ℕ) :
    ((range n).map fun block => (range size).map fun j => f (size * block + j)).flatten = (range (size * n)).map f := by
  induction n with
  | zero => rfl
  | succ n ih =>
    rw [range_succ, map_append, flatten_append, ih, map_singleton, flatten_singleton, Nat.mul_succ, map_range_add]

/-- **A range** of a view is decoded digit by digit, whatever blocks it meets. -/
theorem Holds.decodeValidatedRange (h : Holds packed value) (hdecode : decode.Lawful) (hview : ViewOf packed offset len view)
    (start count : ℕ) : view.decodeValidatedRange decode start count =
      .ok ((range count).map (fun i => value (offset + start + i)), min packed.len (offset + start + count) - (offset + start)) := by
  obtain ⟨hstor, hstored, hwidth, rfl, -⟩ := hview.fields
  have hzeros : ∀ lo n, packed.len ≤ view.start + start + lo ∨ n = 0 →
      (range n).map (fun i => value (view.start + start + (lo + i))) = replicate n 0 := by
    intro lo n hlo
    rw [← length_range (n := n), ← map_const', length_range]
    refine map_congr_left fun i hi => h.beyond _ ?_
    have := mem_range.1 hi
    omega
  unfold decodeValidatedRange
  rw [hstored]
  generalize hsource : view.start + start = source at hzeros ⊢
  by_cases hlive : source ≥ min packed.len (source + count)
  · simp only [if_pos hlive]
    rw [Nat.sub_eq_zero_of_le hlive, ← hzeros 0 count (by omega)]
    simp only [zero_add]
  simp only [if_neg hlive]
  generalize hlen : min packed.len (source + count) - source = live
  generalize hfirst : min (digitsPerBlock - source % digitsPerBlock) live % digitsPerBlock = first
  generalize hblocks : (live - first) / digitsPerBlock = blocks
  -- the first block of the range starts on a block boundary, unless there is none
  have halign : 0 < blocks → digitsPerBlock * ((source + first) / digitsPerBlock) = source + first := by
    rw [digitsPerBlock] at *
    omega
  have hfit : first + blocks * digitsPerBlock ≤ live := by
    rw [digitsPerBlock] at *
    omega
  have hdigit : ∀ i, i < live → view.decodeStored (source + i) = .ok (value (source + i)) := by
    intro i hi
    unfold decodeStored
    rw [hstor, hwidth, h.decodeAt (by omega)]
  rw [mapM_ok_of_forall (g := fun i => value (source + i)) fun i hi => hdigit i (by have := mem_range.1 hi; omega)]
  rw [mapM_ok_of_forall (g := fun block => (range digitsPerBlock).map fun j =>
    value (source + (first + (digitsPerBlock * block + j)))) fun block hblock => by
      have hlt := mem_range.1 hblock
      have hstart := halign (by omega)
      rw [h.decodeBlock hdecode hview (by rw [mul_add, hstart]; rw [digitsPerBlock] at *; omega)]
      congr 1
      refine map_congr_left fun j _ => ?_
      rw [mul_add, hstart]
      congr 1
      omega]
  rw [mapM_ok_of_forall (g := fun i => value (source + (first + blocks * digitsPerBlock + i))) fun i hi => by
    have := mem_range.1 hi
    rw [add_assoc source, hdigit _ (by omega)]]
  have hjoined : first + digitsPerBlock * blocks + (live - (first + digitsPerBlock * blocks)) = live := by
    rw [mul_comm digitsPerBlock]
    omega
  simp only [ok_run]
  rw [flatten_blocks (fun i => value (source + (first + i))), map_range_add (fun i => value (source + i)),
    mul_comm blocks, map_range_add (fun i => value (source + i)), hjoined, ← hzeros live (count - live) (by omega),
    map_range_add (fun i => value (source + i)), show live + (count - live) = count by omega]

/-! ## The iterator -/

/-- The buffer of an iterator holds the digits from `decodedStart` on. -/
structure Buffered (iter : PackedSignedDigitIter) (view : PackedSignedDigitView) (offset : ℕ) (value : ℕ → ℤ) : Prop where
  view : iter.view = view
  length : iter.decoded.length = digitsPerBlock
  digits : ∀ k < iter.decodedLen, iter.decoded[k]? = some (value (offset + (iter.decodedStart + k)))

section

variable (h : Holds packed value) (hdecode : decode.Lawful) (hview : ViewOf packed offset len view)

include h hdecode hview

/-- **A call of `next`** gives the digit at the position, and keeps the buffer. -/
theorem Holds.next {iter : PackedSignedDigitIter} (hiter : Buffered iter view offset value) : ∃ iter',
      iter.next decode = .ok (if iter.position < len then some (value (offset + iter.position)) else none, iter') ∧
      Buffered iter' view offset value ∧ iter'.position = if iter.position < len then iter.position + 1 else iter.position := by
  obtain ⟨-, -, -, hstart, hlen⟩ := hview.fields
  unfold PackedSignedDigitIter.next
  rw [hiter.view, hlen]
  by_cases hpos : iter.position < len
  swap
  · exact ⟨iter, by simp only [if_neg hpos, if_pos (le_of_not_lt hpos)], hiter, (if_neg hpos).symm⟩
  simp only [if_pos hpos, if_neg (Nat.not_le.2 hpos)]
  -- a buffer that holds the position
  have hfilled : ∃ iter₁, (if iter.position < iter.decodedStart ∨ iter.position ≥ iter.decodedStart + iter.decodedLen
      then iter.refill decode else .ok iter) = .ok iter₁ ∧ Buffered iter₁ view offset value ∧ iter₁.position = iter.position ∧
      iter₁.decodedStart ≤ iter.position ∧ iter.position < iter₁.decodedStart + iter₁.decodedLen := by
    by_cases hstale : iter.position < iter.decodedStart ∨ iter.position ≥ iter.decodedStart + iter.decodedLen
    swap
    · exact ⟨iter, if_neg hstale, hiter, rfl, by omega, by omega⟩
    rw [if_pos hstale]
    unfold PackedSignedDigitIter.refill
    rw [hiter.view, hstart, hlen]
    simp only [h.decodeValidatedRange hdecode hview, ok_run]
    generalize hbatch : (if (digitsPerBlock - (offset + iter.position) % digitsPerBlock) % digitsPerBlock = 0 then digitsPerBlock
      else (digitsPerBlock - (offset + iter.position) % digitsPerBlock) % digitsPerBlock) = batch
    have hbatch : 0 < batch ∧ batch ≤ digitsPerBlock := by
      rw [digitsPerBlock] at *
      split at hbatch <;> omega
    have hcopied : ((range (min (len - iter.position) batch)).map fun i => value (offset + iter.position + i)).length ≤
        iter.decoded.length := by
      rw [length_map, length_range, hiter.length]
      omega
    refine ⟨_, rfl, ⟨rfl, (length_copyFromSlice (by omega)).trans hiter.length, fun k hk => ?_⟩, rfl, le_rfl, ?_⟩
    · change k < min (len - iter.position) batch at hk
      unfold copyFromSlice
      rw [take_zero, nil_append, getElem?_append_left (by simpa using hk), getElem?_map,
        getElem?_range hk, Option.map_some, add_assoc]
    · change iter.position < iter.position + min (len - iter.position) batch
      omega
  obtain ⟨iter₁, hrun, hbuffered, hposition, hlow, hhigh⟩ := hfilled
  have hdigit := hbuffered.digits (iter₁.position - iter₁.decodedStart) (by omega)
  rw [Nat.add_sub_cancel' (hposition ▸ hlow), hposition] at hdigit
  refine ⟨{ iter₁ with position := iter₁.position + 1 }, ?_, ⟨hbuffered.view, hbuffered.length, hbuffered.digits⟩,
    congrArg (· + 1) hposition⟩
  simp only [hrun, hdigit, okOr, ok_run, hposition]

theorem Holds.nexts (n : ℕ) :
    ∀ {iter : PackedSignedDigitIter}, Buffered iter view offset value → PackedSignedDigitIter.nexts decode n iter =
      .ok ((range n).map fun i => if iter.position + i < len then some (value (offset + (iter.position + i))) else none) := by
  induction n with
  | zero => exact fun _ => rfl
  | succ n ih =>
    intro iter hiter
    obtain ⟨iter', hrun, hiter', hposition⟩ := h.next hdecode hview hiter
    rw [PackedSignedDigitIter.nexts, hrun]
    simp only [ih hiter', ok_run]
    rw [range_succ_eq_map, map_cons, map_map]
    congr 2
    refine map_congr_left fun i _ => ?_
    rw [hposition]
    by_cases hpos : iter.position < len
    · rw [if_pos hpos, Function.comp_apply, Nat.succ_eq_add_one, show iter.position + 1 + i = iter.position + (i + 1) by omega]
    · rw [if_neg hpos, if_neg (by omega), Function.comp_apply, if_neg (by omega)]

/-- **Every view** of packed digits shows what they hold. -/
theorem Holds.readsBack : ReadsBack decode packed.len offset len view value := by
  obtain ⟨-, -, -, -, hlen⟩ := hview.fields
  refine ⟨h.get hview, fun start count hin hstop => ?_, fun start count hout => ?_, fun n => ?_⟩
  · unfold decodeRange
    rw [hlen, show checkedAdd usizeBits start count = some (start + count) from if_pos hstop]
    simp only [okOr, ensure, if_pos (Nat.not_lt.2 hin), h.decodeValidatedRange hdecode hview, ok_run]
  · unfold decodeRange checkedAdd
    rw [hlen]
    by_cases hstop : start + count < 2 ^ usizeBits
    · exact ⟨_, by simp only [if_pos hstop, okOr, ensure, if_neg (not_not.2 hout), ok_run]; rfl⟩
    · exact ⟨_, by simp only [if_neg hstop, okOr]; rfl⟩
  · have hiter : Buffered view.iter view offset value := ⟨rfl, length_replicate, fun k hk => absurd hk (Nat.not_lt_zero k)⟩
    rw [h.nexts hdecode hview n hiter]
    simp only [PackedSignedDigitView.iter, zero_add]

end

/-! ## Scans -/

theorem covers_range (f : ℕ → ℤ) (lo n : ℕ) :
    Covers (signedDigitBounds ((range n).map fun i => f (lo + i))) (fun i => lo ≤ i ∧ i < lo + n) f := by
  intro a b
  rw [signedDigitBounds_le, forall_mem_map]
  constructor
  · rintro hall i ⟨hlo, hhi⟩
    obtain ⟨k, rfl⟩ := Nat.exists_eq_add_of_le hlo
    exact hall k (mem_range.2 (by omega))
  · exact fun hall i hi => hall (lo + i) ⟨Nat.le_add_right lo i, Nat.add_lt_add_left (mem_range.1 hi) lo⟩

/-- Joined bounds are the extrema of both parts. -/
theorem Covers.join {x y : SignedDigitBounds} {f : ℕ → ℤ} {lo mid hi : ℕ} (h : Covers x (fun i => lo ≤ i ∧ i < mid) f)
    (h' : Covers y (fun i => mid ≤ i ∧ i < hi) f) (hle : lo ≤ mid ∧ mid ≤ hi) :
    Covers (x.includeBounds y) (fun i => lo ≤ i ∧ i < hi) f := by
  intro a b
  rw [includeBounds_le, h a b, h' a b]
  refine ⟨fun ⟨hlow, hhigh⟩ i hi => ?_, fun hall => ⟨fun i hi => hall i (by omega), fun i hi => hall i (by omega)⟩⟩
  by_cases hmid : i < mid
  · exact hlow i ⟨hi.1, hmid⟩
  · exact hhigh i ⟨by omega, hi.2⟩

theorem covers_empty (f : ℕ → ℤ) (lo : ℕ) : Covers .zero (fun i => lo ≤ i ∧ i < lo) f :=
  fun a b => ⟨fun _ i hi => absurd hi.2 (by omega), fun _ => ⟨zero_le a, zero_le b⟩⟩

/-- At eight bits a byte is its digit. -/
theorem Holds.byte (h : Holds packed value) (hwidth : packed.bitWidth = 8) (hi : i < packed.len) :
    packed.storage[i]?.map (fun byte => byte.toInt8.toInt) = some (value i) := by
  have hroom := h.room hi
  have hpos := bitPosition_spec i packed.bitWidth
  have hdecode := h.decodeAt hi
  rw [hwidth] at hroom hpos hdecode
  have hlt : i < packed.storage.length := by omega
  rw [decodeAt_raw (by omega) hroom packed.storage[i].toNat_lt fun j hj => by
    rw [bitAt, show (i * 8 + j) / 8 = i by omega, show (i * 8 + j) % 8 = j by omega, getD_eq_getElem _ _ hlt]] at hdecode
  rw [getElem?_eq_getElem hlt, Option.map_some, ← Except.ok.inj hdecode]
  rfl

/-- **A chunk** is scanned exactly, from its bytes or buffer by buffer. -/
theorem Holds.scanChunk (h : Holds packed value) (hdecode : decode.Lawful) (hview : ViewOf packed offset len view) {chunk : ℕ}
    (hchunk : chunk * PackedSignedDigitView.scanChunkLen ≤ len) : ∃ bounds, view.scanChunk decode chunk = .ok bounds ∧
    Covers bounds (fun i => chunk * PackedSignedDigitView.scanChunkLen ≤ i ∧
      i < min ((chunk + 1) * PackedSignedDigitView.scanChunkLen) len) fun i => value (offset + i) := by
  obtain ⟨hstor, hstored, hwidth, hoffset, hlen⟩ := hview.fields
  unfold PackedSignedDigitView.scanChunk
  rw [hstor, hstored, hwidth, hoffset, hlen]
  dsimp only
  generalize hstart : chunk * PackedSignedDigitView.scanChunkLen = start at hchunk ⊢
  have hstop : start + min (len - start) PackedSignedDigitView.scanChunkLen =
      min ((chunk + 1) * PackedSignedDigitView.scanChunkLen) len := by
    rw [succ_mul, hstart]
    omega
  rw [hstop]
  generalize min ((chunk + 1) * PackedSignedDigitView.scanChunkLen) len = stop at hstop ⊢
  by_cases hbytes : packed.bitWidth = 8 ∧ offset + stop ≤ packed.len
  · obtain ⟨height, hin⟩ := hbytes
    have hroom := h.storageLen
    have hfull := encodedByteLen_room packed.len packed.bitWidth
    rw [height] at hroom hfull
    simp only [if_pos (And.intro height hin), ensure, if_pos (show offset + stop ≤ packed.storage.length by omega), ok_run]
    refine ⟨_, rfl, ?_⟩
    rw [show ((packed.storage.drop (offset + start)).take (stop - start)).map (fun byte => byte.toInt8.toInt) =
      (range (stop - start)).map fun i => value (offset + (start + i)) from ?_]
    · exact (covers_range (fun i => value (offset + i)) start (stop - start)).congr fun i _ => by omega
    · refine ext_getElem? fun i => ?_
      rw [getElem?_map, getElem?_take, getElem?_map]
      by_cases hi : i < stop - start
      · rw [if_pos hi, getElem?_drop, getElem?_range hi, Option.map_some, add_assoc, h.byte height (by omega)]
      · rw [if_neg hi, getElem?_eq_none (by rw [length_range]; omega)]
        rfl
  · simp only [if_neg hbytes, h.decodeValidatedRange hdecode hview, ok_run]
    generalize hsize : PackedSignedDigitView.scanBufferLen = size
    have hpos : 0 < size := hsize ▸ (by decide)
    have hsteps := Nat.div_add_mod (stop - start + size - 1) size
    have hmod := mod_lt (stop - start + size - 1) hpos
    generalize (stop - start + size - 1) / size = steps at hsteps ⊢
    obtain ⟨bounds, hrun, hcovers⟩ := foldlM_range_runs (ε := AkitaError)
      (P := fun step bounds => Covers bounds (fun i => start ≤ i ∧ i < min (start + step * size) stop) fun i => value (offset + i))
      (n := steps) (fun step hstep bounds hcovers => ⟨_, rfl, by
        have hmul := Nat.mul_le_mul_right size (Nat.succ_le_of_lt hstep)
        rw [succ_mul, mul_comm steps] at hmul
        have hnext := covers_range (fun i => value (offset + i)) (start + step * size) (min (stop - (start + step * size)) size)
        rw [Nat.min_eq_left (show start + step * size ≤ stop by omega)] at hcovers
        refine (hcovers.join (hnext.congr fun i _ => Iff.rfl) ⟨by omega, by omega⟩).congr fun i _ => ?_
        rw [succ_mul]
        omega⟩) (s := .zero) ((covers_empty _ start).congr fun i _ => by omega)
    refine ⟨bounds, ?_, hcovers.congr fun i _ => ?_⟩
    · rw [← hrun]
      simp only [Nat.add_assoc]
    · rw [Nat.mul_comm steps]
      omega

/-- **A scan** finds the extrema of the view. -/
theorem Holds.scanBounds (h : Holds packed value) (hdecode : decode.Lawful) (hview : ViewOf packed offset len view) :
    ∃ bounds, view.scanBounds decode = .ok bounds ∧ Covers bounds (· < len) fun i => value (offset + i) := by
  obtain ⟨-, -, -, -, hlen⟩ := hview.fields
  unfold PackedSignedDigitView.scanBounds
  rw [hlen]
  generalize hsize : PackedSignedDigitView.scanChunkLen = size
  have hpos : 0 < size := hsize ▸ (by decide)
  have hsteps := Nat.div_add_mod (len + size - 1) size
  have hmod := mod_lt (len + size - 1) hpos
  generalize (len + size - 1) / size = steps at hsteps ⊢
  obtain ⟨bounds, hrun, hcovers⟩ := foldlM_range_runs (ε := AkitaError)
    (f := fun bounds chunk => view.scanChunk decode chunk >>= fun part => .ok (bounds.includeBounds part))
    (P := fun chunk bounds => Covers bounds (fun i => 0 ≤ i ∧ i < min (chunk * size) len) fun i => value (offset + i))
    (n := steps) (fun chunk hchunk bounds hcovers => by
      have hmul := Nat.mul_le_mul_right size (Nat.succ_le_of_lt hchunk)
      rw [succ_mul, mul_comm steps] at hmul
      have hle : chunk * size ≤ len := by omega
      obtain ⟨part, hpart, hnext⟩ := @Holds.scanChunk _ _ _ _ _ _ h hdecode hview chunk (by rw [hsize]; exact hle)
      rw [hsize] at hnext
      rw [min_eq_left hle] at hcovers
      refine ⟨_, by rw [hpart]; rfl, hcovers.join hnext ⟨zero_le _, ?_⟩⟩
      rw [succ_mul]
      omega) (s := .zero) ((covers_empty _ 0).congr fun i _ => by omega)
  refine ⟨bounds, hrun, hcovers.congr fun i _ => ?_⟩
  rw [Nat.mul_comm steps]
  omega

end readers

/-! ## Import -/

section

variable {packed again : PackedSignedDigits} {value : ℕ → ℤ} {w : ℕ}

theorem Holds.encodedBytes_eq (h : Holds packed value) (h' : Holds again value) (hlen : packed.len = again.len)
    (hwidth : packed.bitWidth = again.bitWidth) : packed.encodedBytes = again.encodedBytes := by
  have hstor : packed.storage = again.storage := by
    apply bits_injective
    apply ext_getElem?
    intro p
    rw [bits_getElem?, bits_getElem?, h.bits, h'.bits, h.storageLen, h'.storageLen, hlen, hwidth]
  unfold PackedSignedDigits.encodedBytes
  rw [hstor, h.encodedLen, h'.encodedLen, hlen, hwidth]

/-- A bit pattern of the width is the digit that it extends to. -/
theorem rawDigit_signExtend_table : ∀ w : Fin 9, 1 ≤ w.val → ∀ n : Fin 256, n.val < 2 ^ w.val →
    (-2 ^ (w.val - 1) ≤ signExtend (ofNat n) w.val ∧ signExtend (ofNat n) w.val < 2 ^ (w.val - 1)) ∧
      rawDigit (signExtend (ofNat n) w.val) w.val = ofNat n := by
  decide +kernel

/-- **Any bits** are those of some digits. -/
theorem exists_valueBit (hw : 1 ≤ w ∧ w ≤ 8) (b : ℕ → Bool) : ∃ value : ℕ → ℤ, (∀ i, Fits w (value i)) ∧
    (∀ p, valueBit value w p = b p) ∧ ∀ i, (∀ j < w, b (i * w + j) = false) → value i = 0 := by
  have hlt : ∀ i, bitsValue ((range w).map fun j => b (i * w + j)) < 2 ^ w := fun i => by
    have := bitsValue_lt ((range w).map fun j => b (i * w + j))
    rwa [length_map, length_range] at this
  have h256 : ∀ i, bitsValue ((range w).map fun j => b (i * w + j)) < 256 := fun i =>
    lt_of_lt_of_le (hlt i) (Nat.pow_le_pow_right (by norm_num) hw.2)
  have htable := fun i => rawDigit_signExtend_table ⟨w, by omega⟩ hw.1 ⟨_, h256 i⟩ (hlt i)
  have hbit : ∀ i, ∀ j < w, (bitsValue ((range w).map fun j => b (i * w + j))).testBit j = b (i * w + j) := by
    intro i j hj
    rw [testBit_bitsValue, getD_eq_getElem?_getD, getElem?_map, getElem?_range hj]
    rfl
  refine ⟨fun i => signExtend (ofNat (bitsValue ((range w).map fun j => b (i * w + j)))) w,
    fun i => (htable i).1, fun p => ?_, fun i hi => ?_⟩
  · unfold valueBit
    rw [(htable (p / w)).2, UInt8.toNat_ofNat', Nat.mod_eq_of_lt (h256 _), hbit _ _ (mod_lt p hw.1), mul_comm,
      Nat.div_add_mod]
  · have hzero : bitsValue ((range w).map fun j => b (i * w + j)) = 0 := by
      apply Nat.eq_of_testBit_eq
      intro j
      by_cases hj : j < w
      · rw [hbit i j hj, hi j hj, Nat.zero_testBit]
      · rw [testBit_bitsValue, getD_eq_default _ _ (by simpa using hj), Nat.zero_testBit]
    simp only [hzero]
    obtain ⟨hlow, hhigh⟩ := hw
    interval_cases w <;> rfl

theorem testBit_tailMask {tail j : ℕ} (hle : tail ≤ j) (hj : j < 8) :
    (~~~((1 <<< ofNat tail) - 1) : UInt8).toNat.testBit j = true := by
  interval_cases j <;> interval_cases tail <;> decide

/-- **Imported bytes** hold the digits that they encode, and are kept. -/
theorem importEncoded_holds {decode : BlockDecoder} (hdecode : decode.Lawful) {len : ℕ} {bytes : List UInt8}
    (hrun : PackedSignedDigits.importEncoded decode len w bytes = .ok packed) : packed.len = len ∧ packed.bitWidth = w ∧
    packed.encodedBytes = bytes ∧ ∃ value, Holds packed value ∧ Covers packed.bounds (· < len) value := by
  unfold PackedSignedDigits.importEncoded validateBitWidth at hrun
  simp only [result_ok, checked_some] at hrun
  obtain ⟨hw, hbytes, bits, hbits, htail, storageLen, ⟨-, rfl⟩, bounds, hscan, rfl⟩ := hrun
  simp only [Checked.product, foldlM_cons, foldlM_nil, option_some, checked_some, one_mul] at hbits
  obtain ⟨_, ⟨-, heq⟩, _, ⟨-, rfl⟩, rfl⟩ := hbits
  rw [heq] at htail
  have hlast : ∀ p, len * w ≤ p → bitAt bytes p = false := by
    intro p hp
    by_cases hin : 8 * bytes.length ≤ p
    · exact bitAt_of_ge hin
    -- the bit is in the last byte, past the tail
    rw [encodedByteLen_eq] at hbytes
    have hpos : p / 8 = bytes.length - 1 := by omega
    have hget : bytes.getLast? = some (bytes.getD (p / 8) 0) := by
      rw [getLast?_eq_getElem?, hpos, getD_eq_getElem _ _ (by omega), getElem?_eq_getElem (by omega)]
    have hmask : bytes.getD (p / 8) 0 &&& ~~~((1 <<< ofNat (len * w % 8)) - 1) = 0 := by
      by_contra hne
      exact htail ⟨by omega, by rw [hget]; simpa using hne⟩
    have hbit := congrArg (fun byte : UInt8 => byte.toNat.testBit (p % 8)) hmask
    rwa [UInt8.toNat_and, Nat.testBit_and, testBit_tailMask (by omega) (mod_lt p (by norm_num)), Bool.and_true,
      UInt8.toNat_zero, Nat.zero_testBit] at hbit
  obtain ⟨value, hfits, hvalue, hzero⟩ := exists_valueBit hw (bitAt bytes)
  have hstored : ∀ p, bitAt (bytes ++ replicate (encodedByteLen len w + vectorLoadPadding - encodedByteLen len w) 0) p =
      bitAt bytes p := by
    intro p
    rw [bitAt_append]
    split
    · rfl
    · next hp => rw [bitAt_replicate_zero, bitAt_of_ge (le_of_not_lt hp)]
  have hholds : ∀ bounds, Holds ⟨bytes ++ replicate (encodedByteLen len w + vectorLoadPadding - encodedByteLen len w) 0,
      encodedByteLen len w, len, w, bounds⟩ value := fun bounds => by
    refine ⟨hw, ?_, rfl, fun p => (hstored p).trans (hvalue p).symm, hfits, fun i hi => hzero i fun j _ => hlast _ ?_⟩
    · rw [length_append, length_replicate, hbytes, Nat.add_sub_cancel_left]
    · exact (Nat.mul_le_mul_right w hi).trans (Nat.le_add_right _ _)
  obtain ⟨bounds', hscan', hcovers⟩ := (hholds .zero).scanBounds hdecode .whole
  obtain rfl : bounds' = bounds := Except.ok.inj (hscan'.symm.trans hscan)
  refine ⟨rfl, rfl, ?_, value, hholds _, ?_⟩
  · exact take_left' hbytes
  · simpa only [zero_add] using hcovers

end

/-! ## Calls of the writer -/

section

variable {len w : ℕ} {made : List (Write ℤ)} {s : PackedSignedDigitWriter}

/-- The state of a writer and the calls that it has taken. -/
structure Reached (len w : ℕ) (made : List (Write ℤ)) (s : PackedSignedDigitWriter) : Prop where
  represents : Represents s (itemAt 0 made)
  order : InOrder made
  position : ∀ c, (∀ v ∈ made, v.span.stop ≤ c) ↔ s.position ≤ c
  len : s.len = len
  width : s.bitWidth = w

/-- **A call** is taken when it starts after those taken before and ends below the length; else the writer stays as it is. -/
theorem Reached.write (h : Reached len w made s) (c : Write ℤ) :
    if (∀ v ∈ made, v.span.stop ≤ c.start) ∧ c.span.stop ≤ len
    then ∃ t, PackedSignedDigitWriter.write c s = .ok () t ∧ Reached len w (made ++ [c]) t
    else ∃ e, PackedSignedDigitWriter.write c s = .error e s := by
  have hpos := h.position c.start
  split
  · next hc =>
    obtain ⟨t, hrun, hrep, hstop, hlen, hwidth⟩ := writeAt_ok h.represents (hpos.1 hc.1) (hc.2.trans_eq h.len.symm)
    rw [place_itemAt hc.1] at hrep
    refine ⟨t, ?_, hrep, pairwise_append.2 ⟨h.order, pairwise_singleton _ _, fun v hv u hu =>
      mem_singleton.1 hu ▸ hc.1 v hv⟩, fun e => ?_, hlen.trans h.len, hwidth.trans h.width⟩
    · -- each step of the method is one of the transition
      unfold PackedSignedDigitWriter.writeAt at hrun
      simp only [result_ok] at hrun
      obtain ⟨hge, stop, hsum, hle, s₁, hskip, ⟨s₂, digits₂⟩, hfill, ⟨s₃, rest⟩, hwhole, rfl⟩ := hrun
      unfold PackedSignedDigitWriter.write
      simp only [if_neg hge, hsum, if_neg hle, hskip, hfill, hwhole]
    · rw [hstop, forall_mem_append, forall_mem_singleton]
      exact ⟨fun hall => hall.2, fun hle => ⟨fun v hv => ((hc.1 v hv).trans (Nat.le_add_right _ _)).trans hle, hle⟩⟩
  · next hc =>
    unfold PackedSignedDigitWriter.write checkedAdd
    by_cases hge : c.start < s.position
    · exact ⟨_, if_pos hge⟩
    have hout : c.start + c.items.length > s.len := by
      by_contra hle
      exact hc ⟨hpos.2 (le_of_not_lt hge), (le_of_not_lt hle).trans_eq h.len⟩
    simp only [if_neg hge]
    by_cases hfits : c.start + c.items.length < 2 ^ usizeBits
    · exact ⟨_, by simp only [if_pos hfits, if_pos hout]; rfl⟩
    · exact ⟨_, by simp only [if_neg hfits]; rfl⟩

/-- **Any calls** leave the writer with those that are taken. -/
theorem Reached.calls (h : Reached len w [] s) (calls : List (Write ℤ)) :
    Reached len w (taken len calls) (calls.foldl PackedSignedDigitWriter.call s) := by
  induction calls using List.reverseRecOn with
  | nil => exact h
  | append_singleton calls c ih =>
    rw [taken_concat, foldl_append, foldl_cons, foldl_nil]
    generalize calls.foldl PackedSignedDigitWriter.call s = t at ih ⊢
    have hwrite := ih.write c
    unfold PackedSignedDigitWriter.call
    split at hwrite
    · next hc =>
      obtain ⟨t', hrun, hreached⟩ := hwrite
      rw [if_pos hc, hrun]
      exact hreached
    · next hc =>
      obtain ⟨e, hrun⟩ := hwrite
      rw [if_neg hc, hrun]
      exact ih

theorem Reached.new (hlen : len < 2 ^ 64) (h : PackedSignedDigitWriter.new len w = .ok s) : Reached len w [] s := by
  obtain ⟨hrep, hpos, hlen, hwidth⟩ := new_represents hlen h
  exact ⟨hrep, List.Pairwise.nil, fun c => by simp [hpos], hlen, hwidth⟩

/-- **A writer** is built for the widths from one to eight, unless the storage would be too long. -/
theorem new_iff : (∃ writer, PackedSignedDigitWriter.new len w = .ok writer) ↔
    (1 ≤ w ∧ w ≤ 8) ∧ encodedByteLen len w + vectorLoadPadding ≤ maxStorageLen := by
  unfold PackedSignedDigitWriter.new validateBitWidth
  simp only [result_ok, Option.filter_eq_some_iff, checked_some, decide_eq_true_eq, exists_and_left, and_congr_right_iff]
  refine fun _ => ⟨?_, fun hle => ⟨_, _, ⟨⟨?_, rfl⟩, hle⟩, rfl⟩⟩
  · rintro ⟨_, _, ⟨⟨-, rfl⟩, hle⟩, -⟩
    exact hle
  · exact lt_of_le_of_lt hle (by decide)

/-- Every digit of the calls fits when every digit of the writer does. -/
theorem fits_itemAt (horder : InOrder made) :
    (∀ i, Fits w (itemAt 0 made i)) ↔ ∀ u ∈ made, ∀ digit ∈ u.items, Fits w digit := by
  refine ⟨fun hall u hu digit hdigit => ?_, fun hall i => itemAt_of_forall (fits_zero w) hall⟩
  obtain ⟨j, hj, rfl⟩ := getElem_of_mem hdigit
  have hfits := hall (u.start + j)
  rwa [(Puts.of_mem hu hj).itemAt_eq horder, getD_eq_getElem _ _ hj] at hfits

theorem finish_iff {v : ℕ → ℤ} (h : Represents s v) : (∃ packed, s.finish = .ok packed) ↔ ∀ i, Fits s.bitWidth (v i) :=
  ⟨fun ⟨_, hrun⟩ => (finish_spec h hrun).2.2.1, finish_ok h⟩

/-- **Packing the digits** that imported bytes hold gives the bytes again. -/
theorem repack {packed : PackedSignedDigits} {value : ℕ → ℤ} (hlen : packed.len < 2 ^ 64) (h : Holds packed value)
    (hbounds : Covers packed.bounds (· < packed.len) value)
    (hnew : PackedSignedDigitWriter.new packed.len packed.bitWidth = .ok s) : ∃ t again,
    s.writeAt 0 ((range packed.len).map value) = .ok t ∧ t.finish = .ok again ∧ again.encodedBytes = packed.encodedBytes ∧
      again.bounds = packed.bounds := by
  obtain ⟨hrep, hpos, hlen', hwidth⟩ := new_represents hlen hnew
  obtain ⟨t, hrun, hrep', -, hlen'', hwidth'⟩ := @writeAt_ok s _ 0 ((range packed.len).map value) hrep
    (le_of_eq hpos) (by simp [hlen'])
  have hplace : place (fun _ => 0) 0 ((range packed.len).map value) = value := by
    funext i
    unfold place digitOf
    by_cases hi : i < packed.len
    · rw [if_pos (by simpa using hi), Nat.sub_zero, getD_eq_getElem?_getD, getElem?_map, getElem?_range hi]
      rfl
    · rw [if_neg (by simpa using hi), h.beyond i (le_of_not_lt hi)]
  rw [hplace] at hrep'
  obtain ⟨again, hfinish⟩ := finish_ok hrep' fun i => hwidth' ▸ hwidth ▸ h.fits i
  obtain ⟨hlen₂, hwidth₂, hholds, hcovers⟩ := finish_holds hrep' hfinish
  rw [hlen'', hlen'] at hlen₂ hcovers
  exact ⟨t, again, hrun, hfinish, hholds.encodedBytes_eq h hlen₂ (hwidth₂.trans (hwidth'.trans hwidth)), hcovers.unique hbounds⟩

end

/-- **Packed digits are faithful.** After any calls of `write_at`, a further call is taken when it starts after those taken
before and ends below the length, and else leaves the writer as it is; the writer finishes when and only when every digit
taken fits the width, and then every view reads back the digits taken, with zeros elsewhere, and the bounds are exact.
Imported bytes read back as digits that pack to the same bytes, with exact bounds. -/
theorem packed_digits_faithful {decode : BlockDecoder} (hdecode : decode.Lawful) {len w : ℕ} (hlen : len < 2 ^ 64) :
    ((∃ writer, PackedSignedDigitWriter.new len w = .ok writer) ↔
      (1 ≤ w ∧ w ≤ 8) ∧ encodedByteLen len w + vectorLoadPadding ≤ maxStorageLen) ∧
    (∀ writer, PackedSignedDigitWriter.new len w = .ok writer → ∀ calls : List (Write ℤ),
      (∀ c : Write ℤ, if (∀ u ∈ taken len calls, u.span.stop ≤ c.start) ∧ c.span.stop ≤ len
        then ∃ t, PackedSignedDigitWriter.write c (calls.foldl PackedSignedDigitWriter.call writer) = .ok () t
        else ∃ e, PackedSignedDigitWriter.write c (calls.foldl PackedSignedDigitWriter.call writer) =
          .error e (calls.foldl PackedSignedDigitWriter.call writer)) ∧
      ((∃ packed, (calls.foldl PackedSignedDigitWriter.call writer).finish = .ok packed) ↔
        ∀ u ∈ taken len calls, ∀ digit ∈ u.items, Fits w digit) ∧
      ∀ packed, (calls.foldl PackedSignedDigitWriter.call writer).finish = .ok packed → packed.len = len ∧
        (∀ offset n view, ViewOf packed offset n view → ReadsBack decode len offset n view (itemAt 0 (taken len calls))) ∧
        Covers packed.bounds (· < len) (itemAt 0 (taken len calls))) ∧
    ∀ bytes packed, PackedSignedDigits.importEncoded decode len w bytes = .ok packed → ∃ value,
      (∀ offset n view, ViewOf packed offset n view → ReadsBack decode len offset n view value) ∧
      Covers packed.bounds (· < len) value ∧ ∀ writer, PackedSignedDigitWriter.new len w = .ok writer → ∃ t again,
        writer.writeAt 0 ((List.range len).map value) = .ok t ∧ t.finish = .ok again ∧ again.encodedBytes = bytes ∧
          again.bounds = packed.bounds := by
  refine ⟨new_iff, ?_, ?_⟩
  · intro writer hnew calls
    have hreached := (Reached.new hlen hnew).calls calls
    generalize taken len calls = made at *
    generalize calls.foldl PackedSignedDigitWriter.call writer = s at *
    refine ⟨fun c => ?_, ?_, fun packed hrun => ?_⟩
    · have hwrite := hreached.write c
      split
      · next hc =>
        rw [if_pos hc] at hwrite
        obtain ⟨t, hrun, -⟩ := hwrite
        exact ⟨t, hrun⟩
      · next hc => rwa [if_neg hc] at hwrite
    · rw [finish_iff hreached.represents, hreached.width, fits_itemAt hreached.order]
    · obtain ⟨hlen', -, hholds, hcovers⟩ := finish_holds hreached.represents hrun
      rw [hreached.len] at hlen' hcovers
      exact ⟨hlen', fun offset n view hview => hlen' ▸ hholds.readsBack hdecode hview, hcovers⟩
  · intro bytes packed hrun
    obtain ⟨rfl, rfl, rfl, value, hholds, hcovers⟩ := importEncoded_holds hdecode hrun
    exact ⟨value, fun offset n view hview => hholds.readsBack hdecode hview, hcovers, fun writer hnew => repack hlen hholds hcovers hnew⟩

theorem packed_digits_faithful_nibbles : ∃ packed value, PackedSignedDigits.importEncoded decodeFullBlock 3 4 [0x8F, 0x07] = .ok packed ∧
    (∀ offset n view, ViewOf packed offset n view → ReadsBack decodeFullBlock 3 offset n view value) ∧
    packed.bounds = ⟨8, 7⟩ ∧ Covers packed.bounds (· < 3) value := by
  have hrun : PackedSignedDigits.importEncoded decodeFullBlock 3 4 [0x8F, 0x07] =
      .ok ⟨[0x8F, 0x07] ++ List.replicate 16 0, 2, 3, 4, ⟨8, 7⟩⟩ := by decide +kernel
  obtain ⟨value, hviews, hcovers, -⟩ :=
    (@packed_digits_faithful decodeFullBlock (fun _ _ _ _ => rfl) 3 4 (by norm_num)).2.2 _ _ hrun
  exact ⟨_, value, hrun, hviews, rfl, hcovers⟩

end Akita.PackedDigits
