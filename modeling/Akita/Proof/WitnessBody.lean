import Akita.Lib.Accumulate
import Akita.Lib.Stateful
import Akita.Spec.WitnessLayout

/-!
# The body of a witness layout

What the body loops of `WitnessLayout::new` place: the units of every chunk and group and the gaps
between chunks tile the interval up to the cursor.
-/

namespace Akita.Witness

open Lib List

variable {chunk : ℕ} {us : List WitnessUnitLayout}

theorem isPowerOfTwo_iff {n : ℕ} : isPowerOfTwo n = true ↔ n.isPowerOfTwo := by simp [isPowerOfTwo]

section

variable {value alignment aligned : ℕ}

/-- **`align_up`** returns the least multiple that is not below the value. -/
theorem alignUp_spec (h : alignUp value alignment = some aligned) :
    alignment.isPowerOfTwo ∧ alignment ∣ aligned ∧ value ≤ aligned ∧ aligned < value + alignment := by
  unfold alignUp at h
  split at h
  · simp at h
  · next hpow =>
    have hpow : alignment.isPowerOfTwo := isPowerOfTwo_iff.1 (by simpa using hpow)
    have hpos : 0 < alignment := (Nat.pos_of_isPowerOfTwo hpow)
    have hmod := Nat.div_add_mod value alignment
    have hlt := Nat.mod_lt value hpos
    split at h
    · next hzero =>
      obtain rfl : value = aligned := by simpa using h
      exact ⟨hpow, Nat.dvd_of_mod_eq_zero hzero, le_rfl, by omega⟩
    · next hzero =>
      obtain ⟨-, rfl⟩ := checkedAdd_eq_some.1 h
      refine ⟨hpow, ⟨value / alignment + 1, ?_⟩, by omega, by omega⟩
      rw [mul_add]
      omega

theorem dvd_of_isPowerOfTwo {a b : ℕ} (ha : a.isPowerOfTwo) (hb : b.isPowerOfTwo) (h : a ≤ b) : a ∣ b := by
  obtain ⟨i, rfl⟩ := ha
  obtain ⟨j, rfl⟩ := hb
  exact Nat.pow_dvd_pow 2 ((Nat.pow_le_pow_iff_right (by decide)).1 h)

theorem alignUp_keeps {d : ℕ} (h : alignUp value alignment = some aligned) (hd : d.isPowerOfTwo) (hdvd : d ∣ value) :
    d ∣ aligned := by
  obtain ⟨hpow, hmul, hle, hlt⟩ := alignUp_spec h
  rcases le_total d alignment with hcmp | hcmp
  · exact (dvd_of_isPowerOfTwo hd hpow hcmp).trans hmul
  · -- the value is aligned already
    have hvalue : alignment ∣ value := (dvd_of_isPowerOfTwo hpow hd hcmp).trans hdvd
    obtain ⟨k, rfl⟩ := hmul
    obtain ⟨j, rfl⟩ := hvalue
    have hjk : j = k := by
      have h1 : j ≤ k := le_of_mul_le_mul_left hle (Nat.pos_of_isPowerOfTwo hpow)
      have h2 : k < j + 1 := lt_of_mul_lt_mul_left (by rw [mul_add]; simpa using hlt) (Nat.zero_le alignment)
      omega
    rw [← hjk]
    exact hdvd

def gap (value aligned : ℕ) : List Span := if aligned ≠ value then [⟨value, aligned⟩] else []

theorem gap_tiles (h : value ≤ aligned) : Tiles value (gap value aligned) aligned := by
  unfold gap
  split
  · exact ⟨rfl, h, rfl⟩
  · next heq => exact (not_not.1 heq).symm

theorem mem_gap (h : value ≤ aligned) {s : Span} (hs : s ∈ gap value aligned) : s.start < s.stop := by
  unfold gap at hs
  split at hs
  · obtain rfl : s = ⟨value, aligned⟩ := by simpa using hs
    change value < aligned
    omega
  · simp at hs

end

theorem witnessRange_spec {start len : ℕ} {context : String} {range : Span} (h : witnessRange start len context = .ok range) :
    start + len < 2 ^ 64 ∧ range = ⟨start, start + len⟩ := by
  obtain ⟨stop, hstop, hrange⟩ := bind_eq_ok.1 h
  obtain ⟨hlt, rfl⟩ := checkedAdd_eq_some.1 (okOr_eq_ok.1 hstop)
  exact ⟨hlt, (pure_eq_ok.1 hrange).symm⟩

theorem eq_length_of_range {made rest : List ℕ} {n x : ℕ} (h : range n = made ++ x :: rest) : x = made.length := by
  have hx : (range n)[made.length]? = some x := by rw [h]; simp
  obtain ⟨_, hx⟩ := List.getElem?_eq_some_iff.1 hx
  simpa [eq_comm] using hx

def unitRanges (unit : WitnessUnitLayout) : List Span := [unit.zRange, unit.eRange, unit.tRange]

def unitKey (unit : WitnessUnitLayout) : ℕ × ℕ := (unit.chunkIndex, unit.groupIndex)

section

variable {lp : CommittedGroupParams} {numChunks chunkIndex : ℕ} {body body' : WitnessBody} {groups : List GroupGeometry}

/-- **A unit** takes the next places: Z, then E, then T. -/
theorem placeUnit_spec {group : GroupGeometry} (h : placeUnit chunkIndex body group = .ok body') :
    ∃ u, body' = ⟨u.tRange.stop, body.units ++ [u], body.alignmentRanges⟩ ∧ Tiles body.cursor (unitRanges u) u.tRange.stop ∧
      unitKey u = (chunkIndex, group.groupIndex) := by
  obtain ⟨blocks, -, h⟩ := bind_eq_ok.1 h
  obtain ⟨⟨zLen, eLen, tLen⟩, -, h⟩ := bind_eq_ok.1 h
  simp only [bind_eq_ok] at h
  obtain ⟨z, hz, e, he, t, ht, h⟩ := h
  have hbody := pure_eq_ok.1 h
  obtain ⟨-, rfl⟩ := witnessRange_spec hz
  obtain ⟨-, rfl⟩ := witnessRange_spec he
  obtain ⟨-, rfl⟩ := witnessRange_spec ht
  refine ⟨⟨group.groupIndex, chunkIndex, blocks.start, blocks.len, _, _, group.openingGeometry, _⟩, hbody.symm, ?_, rfl⟩
  exact ⟨rfl, Nat.le_add_right _ _, rfl, Nat.le_add_right _ _, rfl, Nat.le_add_right _ _, rfl⟩

theorem placeUnits_spec (h : groups.foldlM (placeUnit chunkIndex) body = .ok body') :
    ∃ us, body' = ⟨body'.cursor, body.units ++ us, body.alignmentRanges⟩ ∧
      Tiles body.cursor (us.flatMap unitRanges) body'.cursor ∧
      us.map unitKey = groups.map fun group => (chunkIndex, group.groupIndex) := by
  apply foldlM_passes (P := fun made b => ∃ us, b = ⟨b.cursor, body.units ++ us, body.alignmentRanges⟩ ∧
    Tiles body.cursor (us.flatMap unitRanges) b.cursor ∧ us.map unitKey = made.map fun group => (chunkIndex, group.groupIndex))
    ?_ ⟨[], by simp, by simp [Tiles], by simp⟩ h
  intro made group rest b b' _ hb hstep
  obtain ⟨us, hb, htiles, hkeys⟩ := hb
  obtain ⟨u, hb', hu, hkey⟩ := placeUnit_spec hstep
  rw [hb] at hb'
  subst hb'
  refine ⟨us ++ [u], by simp, ?_, by simp [hkeys, hkey]⟩
  rw [flatMap_append]
  refine htiles.append ?_
  rw [flatMap_singleton]
  exact hu

/-- **A chunk** takes its units and the gap up to the chunk alignment. -/
theorem placeChunk_spec (h : placeChunk lp numChunks groups body chunkIndex = .ok body') :
    ∃ us stop, body' = ⟨body'.cursor, body.units ++ us, body.alignmentRanges ++ gap stop body'.cursor⟩ ∧
      Tiles body.cursor (us.flatMap unitRanges) stop ∧ stop ≤ body'.cursor ∧ chunkAlignment lp numChunks ∣ body'.cursor ∧
      us.map unitKey = groups.map fun group => (chunkIndex, group.groupIndex) := by
  unfold placeChunk at h
  simp only [bind_eq_ok] at h
  obtain ⟨b, hb, aligned, halign, h⟩ := h
  have hbody := pure_eq_ok.1 h
  obtain ⟨us, hb, htiles, hkeys⟩ := placeUnits_spec hb
  obtain ⟨-, hdvd, hle, -⟩ := alignUp_spec (okOr_eq_ok.1 halign)
  subst hbody
  refine ⟨us, b.cursor, ?_, htiles, hle, hdvd, hkeys⟩
  rw [hb]
  simp only [gap, WitnessBody.mk.injEq, true_and]
  split <;> simp

end

section

variable {lo hi final : ℕ} {rest : List ℕ}

/-- What holds after the chunks of `made`: the units and gaps tile the places up to the cursor, every
chunk and group has its unit, and chunks start aligned. -/
structure BodyInv (alignment : ℕ) (order made : List ℕ) (body : WitnessBody) : Prop where
  tiled : ∃ trace : List Span, Tiles 0 trace body.cursor ∧
    trace.Perm (body.units.flatMap unitRanges ++ body.alignmentRanges)
  keys : body.units.map unitKey = made.flatMap fun chunk => order.map fun group => (chunk, group)
  aligned : alignment ∣ body.cursor
  starts : ∀ u ∈ body.units, order.head? = some u.groupIndex → alignment ∣ u.zRange.start
  gaps : ∀ s ∈ body.alignmentRanges, s.start < s.stop
  ends : made ≠ [] → body.cursor ∈ body.alignmentRanges.map (·.stop) ++ (body.units.getLast?.map (·.tRange.stop)).toList

variable {lp : CommittedGroupParams} {numChunks : ℕ} {groups : List GroupGeometry} {made : List ℕ}
  {body body' : WitnessBody}

theorem unit_start (hfinal : final ∉ rest) (htiles : Tiles lo (us.flatMap unitRanges) hi)
    (hkeys : us.map unitKey = (final :: rest).map fun group => (chunk, group)) :
    ∀ u ∈ us, u.groupIndex = final → u.zRange.start = lo := by
  intro u hu hgroup
  cases us with
  | nil => simp at hu
  | cons v vs =>
    rcases mem_cons.1 hu with heq | hmem
    · rw [heq]
      exact htiles.1
    · -- later units of the chunk belong to other groups
      have hkey : unitKey u ∈ rest.map fun group => (chunk, group) := by
        have htail : vs.map unitKey = rest.map fun group => (chunk, group) := by
          simp only [map_cons, List.cons.injEq] at hkeys
          exact hkeys.2
        rw [← htail]
        exact mem_map_of_mem hmem
      obtain ⟨g, hg, heq⟩ := mem_map.1 hkey
      have : g = final := by rw [← hgroup]; exact congrArg Prod.snd heq
      exact absurd (this ▸ hg) hfinal

theorem unit_stop (hne : us ≠ []) (htiles : Tiles lo (us.flatMap unitRanges) hi) : us.getLast?.map (·.tRange.stop) = some hi := by
  have hus := dropLast_append_getLast hne
  have hflat : us.flatMap unitRanges = (us.dropLast.flatMap unitRanges ++ [(us.getLast hne).zRange, (us.getLast hne).eRange]) ++
      [(us.getLast hne).tRange] := by
    conv_lhs => rw [← hus]
    simp [unitRanges]
  rw [hflat] at htiles
  rw [getLast?_eq_getLast_of_ne_nil hne, Option.map_some, htiles.stop_eq]

theorem BodyInv.step (hgroups : groups.map (·.groupIndex) = final :: rest) (hfinal : final ∉ rest)
    (hinv : BodyInv (chunkAlignment lp numChunks) (final :: rest) made body)
    (h : placeChunk lp numChunks groups body chunk = .ok body') :
    BodyInv (chunkAlignment lp numChunks) (final :: rest) (made ++ [chunk]) body' := by
  obtain ⟨us, stop, hbody, htiles, hle, hdvd, hkeys⟩ := placeChunk_spec h
  have hkeys : us.map unitKey = (final :: rest).map fun group => (chunk, group) := by
    rw [hkeys, ← hgroups, map_map]
    rfl
  have hne : us ≠ [] := by
    rintro rfl
    simp at hkeys
  obtain ⟨trace, htrace, hperm⟩ := hinv.tiled
  rw [hbody]
  constructor
  · refine ⟨trace ++ (us.flatMap unitRanges ++ gap stop body'.cursor), htrace.append (htiles.append (gap_tiles hle)), ?_⟩
    rw [flatMap_append]
    have hswap : (body.alignmentRanges ++ (us.flatMap unitRanges ++ gap stop body'.cursor)).Perm
        (us.flatMap unitRanges ++ (body.alignmentRanges ++ gap stop body'.cursor)) := by
      rw [← append_assoc, ← append_assoc]
      exact perm_append_comm.append_right _
    have hall := (hperm.append_right (us.flatMap unitRanges ++ gap stop body'.cursor)).trans
      ((append_assoc _ _ _).symm ▸ hswap.append_left (body.units.flatMap unitRanges))
    rw [append_assoc]
    exact hall
  · rw [map_append, hinv.keys, hkeys]
    simp
  · exact hdvd
  · intro u hu hhead
    rcases mem_append.1 hu with hu | hu
    · exact hinv.starts u hu hhead
    · rw [unit_start hfinal htiles hkeys u hu (by simpa using hhead.symm)]
      exact hinv.aligned
  · intro s hs
    rcases mem_append.1 hs with hs | hs
    · exact hinv.gaps s hs
    · exact mem_gap hle hs
  · intro _
    rw [getLast?_append_of_ne_nil _ hne, unit_stop hne htiles]
    -- the cursor is the end of the gap or, without one, of the last unit
    by_cases hgap : body'.cursor = stop
    · simp [hgap]
    · simp [gap, hgap]

/-- **The body**: the chunks in order, from place 0. -/
theorem body_inv (hgroups : groups.map (·.groupIndex) = final :: rest) (hfinal : final ∉ rest)
    (h : (range numChunks).foldlM (placeChunk lp numChunks groups) ⟨0, [], []⟩ = .ok body) :
    BodyInv (chunkAlignment lp numChunks) (final :: rest) (range numChunks) body := by
  apply foldlM_passes (P := BodyInv (chunkAlignment lp numChunks) (final :: rest)) ?_ ?_ h
  · intro made chunk _ b b' _ hb hstep
    exact hb.step hgroups hfinal hstep
  · exact ⟨⟨[], rfl, by simp⟩, rfl, dvd_zero _, by simp, by simp, fun h => absurd rfl h⟩

end

/-!
## Padded bodies of a witness layout

Where the chunks of a layout start, from the lengths of their units and the alignment of the chunks.

* `body_spec`: a chunk starts where the lengths of the chunks before it end, each rounded up to the block.
* `body_agree`: the units of a body have the same lengths for every alignment.
-/

theorem alignUp_eq {value alignment aligned : ℕ} (h : alignUp value alignment = some aligned) :
    alignment.isPowerOfTwo ∧ aligned = roundUp alignment value := by
  obtain ⟨hpow, hdvd, hle, hlt⟩ := alignUp_spec h
  exact ⟨hpow, roundUp_unique hdvd hle hlt⟩

theorem roundUp_roundUp_max {a b : ℕ} (ha : a.isPowerOfTwo) (hb : b.isPowerOfTwo) (v : ℕ) :
    roundUp a (roundUp b v) = roundUp (max a b) v := by
  rcases le_total a b with h | h
  · rw [max_eq_right h, roundUp_of_dvd_roundUp (Nat.pos_of_isPowerOfTwo hb) (dvd_of_isPowerOfTwo ha hb h)]
  · rw [max_eq_left h, roundUp_roundUp_of_dvd (Nat.pos_of_isPowerOfTwo ha) (dvd_of_isPowerOfTwo hb ha h)]

/-! ### Bodies -/

def unitLen (unit : WitnessUnitLayout) : ℕ := unit.tRange.stop - unit.zRange.start

def bodyLen (units : List WitnessUnitLayout) (chunk : ℕ) : ℕ :=
  ((units.filter fun unit => unit.chunkIndex = chunk).map unitLen).sum

/-- Where chunk `chunk` starts when the chunks before it are padded to whole blocks. -/
def chunkStart (block : ℕ) (lengths : ℕ → ℕ) (chunk : ℕ) : ℕ := ((List.range chunk).map fun i => roundUp block (lengths i)).sum

theorem chunkStart_succ (block : ℕ) (lengths : ℕ → ℕ) (chunk : ℕ) :
    chunkStart block lengths (chunk + 1) = chunkStart block lengths chunk + roundUp block (lengths chunk) := by
  simp [chunkStart, range_succ]

theorem chunkStart_congr {block : ℕ} {lengths lengths' : ℕ → ℕ} (h : ∀ i < chunk, lengths i = lengths' i) :
    chunkStart block lengths chunk = chunkStart block lengths' chunk := by
  unfold chunkStart
  congr 1
  apply map_congr_left
  intro i hi
  rw [h i (mem_range.1 hi)]

theorem dvd_chunkStart (block : ℕ) (lengths : ℕ → ℕ) (chunk : ℕ) : block ∣ chunkStart block lengths chunk := by
  apply dvd_sum
  intro n hn
  obtain ⟨i, -, rfl⟩ := mem_map.1 hn
  exact dvd_roundUp _ _

theorem chunkStart_mono (block : ℕ) (lengths : ℕ → ℕ) : Monotone (chunkStart block lengths) := by
  apply monotone_nat_of_le_succ
  intro chunk
  rw [chunkStart_succ]
  exact Nat.le_add_right _ _

theorem bodyLen_append (us vs : List WitnessUnitLayout) (chunk : ℕ) :
    bodyLen (us ++ vs) chunk = bodyLen us chunk + bodyLen vs chunk := by
  simp [bodyLen]

theorem bodyLen_of_ne (h : ∀ u ∈ us, u.chunkIndex ≠ chunk) : bodyLen us chunk = 0 := by
  unfold bodyLen
  rw [filter_eq_nil_iff.2 fun u hu => by simpa using h u hu]
  rfl

theorem bodyLen_of_eq (h : ∀ u ∈ us, u.chunkIndex = chunk) : bodyLen us chunk = (us.map unitLen).sum := by
  unfold bodyLen
  rw [filter_eq_self.2 fun u hu => by simpa using h u hu]

section

variable {lp : CommittedGroupParams} {numChunks chunkIndex : ℕ} {groups : List GroupGeometry} {body body' : WitnessBody}
  {final : ℕ} {rest : List ℕ}

theorem unitLen_sum : ∀ {us : List WitnessUnitLayout} {lo hi : ℕ}, Tiles lo (us.flatMap unitRanges) hi →
    lo + (us.map unitLen).sum = hi := by
  intro us
  induction us with
  | nil => intro lo hi h; exact h
  | cons u us ih =>
    intro lo hi h
    obtain ⟨hz, hzLe, he, heLe, ht, htLe, hrest⟩ := h
    have := ih hrest
    rw [map_cons, sum_cons, unitLen]
    omega

theorem chunkIndex_of_keys (h : us.map unitKey = groups.map fun group => (chunkIndex, group.groupIndex)) :
    ∀ u ∈ us, u.chunkIndex = chunkIndex := by
  intro u hu
  have hkey : unitKey u ∈ groups.map fun group => (chunkIndex, group.groupIndex) := h ▸ mem_map_of_mem hu
  obtain ⟨group, -, heq⟩ := mem_map.1 hkey
  exact (congrArg Prod.fst heq).symm

/-- What holds after the first `made` chunks: the cursor and the chunks of the final group are where the padded
lengths put them. -/
structure PaddedBody (block : ℕ) (order : List ℕ) (made : ℕ) (body : WitnessBody) : Prop where
  cursor : body.cursor = chunkStart block (bodyLen body.units) made
  chunks : ∀ u ∈ body.units, u.chunkIndex < made
  starts : ∀ u ∈ body.units, order.head? = some u.groupIndex →
    u.zRange.start = chunkStart block (bodyLen body.units) u.chunkIndex

theorem PaddedBody.step (hgroups : groups.map (·.groupIndex) = final :: rest) (hfinal : final ∉ rest)
    (hinv : PaddedBody (chunkAlignment lp numChunks) (final :: rest) chunkIndex body)
    (h : placeChunk lp numChunks groups body chunkIndex = .ok body') :
    PaddedBody (chunkAlignment lp numChunks) (final :: rest) (chunkIndex + 1) body' := by
  unfold placeChunk at h
  simp only [bind_eq_ok] at h
  obtain ⟨placed, hplaced, aligned, halign, h⟩ := h
  have hbody' := pure_eq_ok.1 h
  obtain ⟨us, hus, htiles, hkeys⟩ := placeUnits_spec hplaced
  obtain ⟨hpow, halign⟩ := alignUp_eq (okOr_eq_ok.1 halign)
  have hunits : body'.units = body.units ++ us := by rw [← hbody', hus]
  have hcursor : body'.cursor = roundUp (chunkAlignment lp numChunks) placed.cursor := by rw [← hbody']; exact halign
  have hindex := chunkIndex_of_keys hkeys
  -- earlier chunks keep their lengths
  have hearlier : ∀ i < chunkIndex, bodyLen body.units i = bodyLen body'.units i := by
    intro i hi
    have hzero : bodyLen us i = 0 := bodyLen_of_ne fun u hu => by
      rw [hindex u hu]
      exact hi.ne'
    rw [hunits, bodyLen_append, hzero, add_zero]
  have hlast : bodyLen body'.units chunkIndex = (us.map unitLen).sum := by
    have hzero : bodyLen body.units chunkIndex = 0 := bodyLen_of_ne fun u hu => (hinv.chunks u hu).ne
    rw [hunits, bodyLen_append, hzero, zero_add, bodyLen_of_eq hindex]
  have hstart : body.cursor = chunkStart (chunkAlignment lp numChunks) (bodyLen body'.units) chunkIndex :=
    hinv.cursor.trans (chunkStart_congr hearlier)
  constructor
  · have hsum := unitLen_sum htiles
    rw [hcursor, ← hsum, chunkStart_succ, hlast, ← hstart]
    exact roundUp_add (Nat.pos_of_isPowerOfTwo hpow) (hinv.cursor ▸ dvd_chunkStart _ _ _) _
  · intro u hu
    rw [hunits] at hu
    rcases mem_append.1 hu with hu | hu
    · exact (hinv.chunks u hu).trans (Nat.lt_succ_self _)
    · rw [hindex u hu]
      exact Nat.lt_succ_self _
  · intro u hu hhead
    rw [hunits] at hu
    rcases mem_append.1 hu with hu | hu
    · rw [hinv.starts u hu hhead]
      exact chunkStart_congr fun i hi => hearlier i (hi.trans (hinv.chunks u hu))
    · have hkeys' : us.map unitKey = (final :: rest).map fun group => (chunkIndex, group) := by
        rw [hkeys, ← hgroups, map_map]
        rfl
      rw [hindex u hu, ← hstart]
      exact unit_start hfinal htiles hkeys' u hu (by simpa using hhead.symm)

/-- **The body**: every chunk starts where the padded lengths before it end. -/
theorem body_spec (hgroups : groups.map (·.groupIndex) = final :: rest) (hfinal : final ∉ rest)
    (h : (range numChunks).foldlM (placeChunk lp numChunks groups) ⟨0, [], []⟩ = .ok body) :
    PaddedBody (chunkAlignment lp numChunks) (final :: rest) numChunks body := by
  have hrule := foldlM_passes (P := fun (made : List ℕ) body => PaddedBody (chunkAlignment lp numChunks) (final :: rest) made.length body)
    ?_ ⟨rfl, by simp, by simp⟩ h
  · simpa using hrule
  · intro made chunk others b b' hl hb hstep
    obtain rfl := eq_length_of_range hl
    rw [length_append, length_singleton]
    exact hb.step hgroups hfinal hstep

end

def unitShape (unit : WitnessUnitLayout) : ℕ × ℕ := (unit.chunkIndex, unitLen unit)

theorem bodyLen_congr {vs : List WitnessUnitLayout} (h : us.map unitShape = vs.map unitShape) (chunk : ℕ) :
    bodyLen us chunk = bodyLen vs chunk := by
  have hshape : ∀ l : List WitnessUnitLayout, bodyLen l chunk =
      (((l.map unitShape).filter fun shape => shape.1 = chunk).map Prod.snd).sum := by
    intro l
    rw [bodyLen, filter_map, map_map]
    rfl
  rw [hshape, hshape, h]

section

variable {lp lp' : CommittedGroupParams} {numChunks : ℕ} {groups : List GroupGeometry} {body body' : WitnessBody}

def SameUnits (body body' : WitnessBody) : Prop := body.units.map unitShape = body'.units.map unitShape

theorem placeUnit_agree (chunkIndex : ℕ) (group : GroupGeometry) (h : SameUnits body body') :
    Agrees SameUnits (placeUnit chunkIndex body group) (placeUnit chunkIndex body' group) := by
  refine .share fun blocks _ => .share fun lengths _ => ?_
  intro b b' hb hb'
  simp only [bind_eq_ok] at hb
  obtain ⟨z, hz, e, he, t, ht, hb⟩ := hb
  simp only [bind_eq_ok] at hb'
  obtain ⟨z', hz', e', he', t', ht', hb'⟩ := hb'
  obtain ⟨-, rfl⟩ := witnessRange_spec hz
  obtain ⟨-, rfl⟩ := witnessRange_spec he
  obtain ⟨-, rfl⟩ := witnessRange_spec ht
  obtain ⟨-, rfl⟩ := witnessRange_spec hz'
  obtain ⟨-, rfl⟩ := witnessRange_spec he'
  obtain ⟨-, rfl⟩ := witnessRange_spec ht'
  rw [← pure_eq_ok.1 hb, ← pure_eq_ok.1 hb']
  unfold SameUnits at h ⊢
  rw [map_append, map_append, h]
  congr 1
  simp only [map_cons, map_nil, unitShape, unitLen, List.cons.injEq, Prod.mk.injEq, true_and, and_true]
  omega

/-- **The units of a chunk** do not depend on the alignment of the chunks. -/
theorem placeChunk_agree (chunkIndex : ℕ) (h : SameUnits body body') :
    Agrees SameUnits (placeChunk lp numChunks groups body chunkIndex) (placeChunk lp' numChunks groups body' chunkIndex) := by
  refine (Agrees.foldlM (fun group _ _ _ hs => placeUnit_agree chunkIndex group hs) h).bind fun b b' _ _ hb => ?_
  intro c c' hc hc'
  obtain ⟨_, _, hc⟩ := bind_eq_ok.1 hc
  obtain ⟨_, _, hc'⟩ := bind_eq_ok.1 hc'
  rw [← pure_eq_ok.1 hc, ← pure_eq_ok.1 hc']
  exact hb

theorem body_agree (h : (range numChunks).foldlM (placeChunk lp numChunks groups) ⟨0, [], []⟩ = .ok body)
    (h' : (range numChunks).foldlM (placeChunk lp' numChunks groups) ⟨0, [], []⟩ = .ok body') : SameUnits body body' :=
  Agrees.foldlM (R := SameUnits) (fun chunkIndex _ _ _ hs => placeChunk_agree chunkIndex hs) rfl body body' h h'

end

end Akita.Witness
