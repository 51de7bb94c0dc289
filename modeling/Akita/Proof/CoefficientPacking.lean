import Akita.Lib.Enumerate
import Akita.Lib.Packing
import Akita.Proof.OpeningPoint
import Akita.Spec.CoefficientPacking

/-!
# The kernel packs the live positions of a block

The three accumulation loops add, for every live position, the same contribution to the
accumulator of a subring coefficient: the weights of the position against the coefficients
`y * stride + a`. Whether the accumulators hold reduced values or unreduced sums, the block ends
with the coefficients of `Σ_p position_p * pack (ring p)`.
-/

namespace Akita.CoefficientPacking

open Lib Opening Finset
open List hiding mem_range sum_range_succ sum_range_succ'
open OffsetEq (Runtime)
open Transcript (ExtField)

variable {g : Geometry} {basis : BasisMode} {numLivePositions numPositionsPerBlock sourceNumVars : ℕ} {rt : Runtime}
  {y : ℕ}

/-! ## Loops over accumulators -/

section

variable {A α E : Type} [AddCommMonoid E] {R : A → E → Prop} {s n : ℕ} {accumulators : List A} {v u : ℕ → E} {one : A → ℕ → A × ℕ}

/-- The accumulators stand for the values of `v`, one each. -/
def Carries (R : A → E → Prop) (s : ℕ) (accumulators : List A) (v : ℕ → E) : Prop :=
  accumulators.length = s ∧ ∀ (y : ℕ) (hy : y < accumulators.length), R accumulators[y] (v y)

omit [AddCommMonoid E] in
theorem Carries.congr (h : Carries R s accumulators v) (hu : ∀ y < s, v y = u y) : Carries R s accumulators u :=
  ⟨h.1, fun y hy => hu y (by rw [← h.1]; exact hy) ▸ h.2 y hy⟩

omit [AddCommMonoid E] in
theorem Carries.get (h : Carries R s accumulators v) (hy : y < s) : ∃ a, accumulators[y]? = some a ∧ R a (v y) := by
  have hlt : y < accumulators.length := by rw [h.1]; exact hy
  exact ⟨_, getElem?_eq_getElem hlt, h.2 y hlt⟩

theorem Carries.replicate {a : A} (h : R a 0) : Carries R s (replicate s a) fun _ => 0 :=
  ⟨by simp, by simpa using fun _ _ => h⟩

omit [AddCommMonoid E] in
theorem Carries.mapIdx (h : Carries R s accumulators v) {f : ℕ → A → A} (hf : ∀ y a, R a (v y) → R (f y a) (u y)) :
    Carries R s (accumulators.mapIdx f) u := by
  refine ⟨by simpa using h.1, fun y hy => ?_⟩
  rw [getElem_mapIdx]
  exact hf y _ (h.2 y (by simpa using hy))

/-- **The rule for one accumulator**: a pass over `l` adds a term per item while the index runs on. -/
theorem foldl_carries {f : A × ℕ → α → A × ℕ} {g : α → ℕ → E} {l : List α} (d : α)
    (h : ∀ a v i x, x ∈ l → R a v → R (f (a, i) x).1 (v + g x i) ∧ (f (a, i) x).2 = i + n) : ∀ {a : A} {v : E} {i : ℕ}, R a v →
      R (l.foldl f (a, i)).1 (v + ∑ j ∈ range l.length, g (l.getD j d) (i + j * n)) ∧
        (l.foldl f (a, i)).2 = i + l.length * n := by
  induction l with
  | nil => intro a v i ha; simpa using ha
  | cons x l ih =>
    intro a v i ha
    obtain ⟨hx, hindex⟩ := h a v i x (by simp) ha
    obtain ⟨hrest, hlast⟩ := ih (fun a v i y hy => h a v i y (by simp [hy])) (i := i + n) hx
    have hsum : ∑ j ∈ range (x :: l).length, g ((x :: l).getD j d) (i + j * n) =
        g x i + ∑ j ∈ range l.length, g (l.getD j d) (i + n + j * n) := by
      rw [length_cons, sum_range_succ', add_comm]
      congr 1
      · simp
      · apply sum_congr rfl
        intro j _
        have hshift : i + (j + 1) * n = i + n + j * n := by ring
        rw [hshift]
        simp
    rw [foldl_cons]
    have hpair : f (a, i) x = ((f (a, i) x).1, i + n) := Prod.ext rfl hindex
    rw [hpair, hsum, ← add_assoc]
    refine ⟨hrest, ?_⟩
    rw [hlast, length_cons]
    ring

omit [AddCommMonoid E] in
/-- The running index of `accumulate_running`: each accumulator starts where the last one stopped. -/
theorem foldl_running (hone : ∀ a i, (one a i).2 = i + n) (l done : List A) (index : ℕ) :
    (l.foldl (fun (done, index) accumulator =>
      let (accumulator, index) := one accumulator index
      (done ++ [accumulator], index)) (done, index)).1 =
      done ++ l.mapIdx fun y a => (one a (index + y * n)).1 := by
  induction l generalizing done index with
  | nil => simp
  | cons a l ih =>
    have hshift : ∀ y, index + n + y * n = index + (y + 1) * n := by
      intro y
      ring
    rw [foldl_cons, ih, mapIdx_cons, hone, append_assoc]
    simp [hshift]

omit [AddCommMonoid E] in
/-- The index that runs through the accumulators starts each at its own multiple of the stride. -/
theorem accumulateRunning_eq (hone : ∀ a i, (one a i).2 = i + n) (accumulators : List A) :
    accumulateRunning one accumulators = accumulators.mapIdx fun y a => (one a (y * n)).1 := by
  have h := foldl_running hone accumulators [] 0
  simpa [accumulateRunning] using h

end

/-! ## One position -/

section

variable {F E : Type} [Field F] [Field E] [Algebra F E] {𝔣 : PackingField F E} {size stride s : ℕ} {a : 𝔣.Product} {v : E}
  {products : List 𝔣.Product} {α : Type}

/-- The weights of a position against the coefficients of its ring from an index on. -/
def contribution (read : ℕ → F) (weights : List E) (index : ℕ) : E :=
  ∑ a ∈ range weights.length, weights.getD a 0 * algebraMap F E (read (index + a))

theorem accumulateReduced_carries (h𝔣 : 𝔣.Lawful) (read : ℕ → F) (weights : List E) (a : E) (i : ℕ) :
    (accumulateReduced 𝔣 read weights a i).1 = a + contribution read weights i ∧
      (accumulateReduced 𝔣 read weights a i).2 = i + weights.length := by
  have h := foldl_carries (R := fun a v : E => a = v) (l := weights) (n := 1)
    (f := fun state weight => (state.1 + 𝔣.mulBase weight (read state.2), state.2 + 1))
    (g := fun weight index => weight * algebraMap F E (read index)) 0
    (fun a v i x _ hv => ⟨by rw [hv, ← h𝔣.mulBase], rfl⟩) (a := a) (v := a) (i := i) rfl
  simpa [accumulateReduced, contribution] using h

theorem chunksExact_getD {p j : ℕ} {l : List α} (d : α) (hp : p < l.length / size) (hj : j < size) :
    ((chunksExact size l).getD p []).getD j d = l.getD (p * size + j) d := by
  have hchunk : (chunksExact size l)[p]? = some ((l.drop (p * size)).take size) := by
    simp [chunksExact, hp]
  simp [getD_eq_getElem?_getD, hchunk, hj]

theorem chunksExact_length (size : ℕ) (l : List α) : (chunksExact size l).length = l.length / size := by
  simp [chunksExact]

theorem length_of_mem_chunksExact {l c : List α} (h : c ∈ chunksExact size l) : c.length = size := by
  obtain ⟨i, hi, rfl⟩ := mem_map.1 h
  have hi : i < l.length / size := List.mem_range.1 hi
  have hend : (i + 1) * size ≤ l.length := by
    calc (i + 1) * size ≤ l.length / size * size := Nat.mul_le_mul_right _ hi
      _ ≤ l.length := Nat.div_mul_le_self _ _
  rw [add_mul, one_mul] at hend
  rw [length_take, length_drop]
  omega

theorem accumulateFour_carries (read : ℕ → F) (i : ℕ) (chunk : List E) (ha : 𝔣.Sums a v) :
    𝔣.Sums (accumulateFour 𝔣 read (a, i) chunk).1
      (v + ∑ j ∈ range 4, chunk.getD j 0 * algebraMap F E (read (i + j))) := by
  have hsum : ∑ j ∈ range 4, chunk.getD j 0 * algebraMap F E (read (i + j)) =
      chunk.getD 0 0 * algebraMap F E (read (i + 0)) + chunk.getD 1 0 * algebraMap F E (read (i + 1)) +
        (chunk.getD 2 0 * algebraMap F E (read (i + 2)) + chunk.getD 3 0 * algebraMap F E (read (i + 3))) := by
    simp only [sum_range_succ, sum_range_zero, zero_add]
    ring
  have hprod : ∀ j, 𝔣.Sums (𝔣.mulBaseUnreduced (chunk.getD j 0) (read (i + j)))
      (chunk.getD j 0 * algebraMap F E (read (i + j))) := fun j => .product _ _
  rw [hsum]
  exact ha.add (((hprod 0).add (hprod 1)).add ((hprod 2).add (hprod 3)))

omit [Field F] [Algebra F E] in
/-- The coefficient index runs on by the number of weights, whatever is accumulated. -/
theorem accumulateChunks_index (read : ℕ → F) (weights : List E) (a : 𝔣.Product) (i : ℕ) :
    (accumulateChunks 𝔣 read weights a i).2 = i + weights.length := by
  have hchunks := (foldl_carries (E := ℕ) (R := fun _ _ => True) (l := chunksExact 4 weights) (n := 4)
    (f := accumulateFour 𝔣 read) (g := fun _ _ => 0) [] (fun _ _ _ _ _ _ => ⟨trivial, rfl⟩) (a := a) (v := 0)
    (i := i) trivial).2
  rcases hmid : (chunksExact 4 weights).foldl (accumulateFour 𝔣 read) (a, i) with ⟨mid, index⟩
  rw [hmid, chunksExact_length] at hchunks
  have hrest := (foldl_carries (E := ℕ) (R := fun _ _ => True) (l := weights.drop (weights.length / 4 * 4)) (n := 1)
    (f := accumulateOne 𝔣 read) (g := fun _ _ => 0) 0 (fun _ _ _ _ _ _ => ⟨trivial, rfl⟩) (a := mid) (v := 0)
    (i := index) trivial).2
  rw [accumulateChunks, hmid, hrest, length_drop]
  omega

/-- **Four products at a time and the rest one by one** add the same sum. -/
theorem accumulateChunks_carries (read : ℕ → F) (weights : List E) (i : ℕ) (ha : 𝔣.Sums a v) :
    𝔣.Sums (accumulateChunks 𝔣 read weights a i).1 (v + contribution read weights i) := by
  set q := weights.length / 4 with hq
  have hfour := foldl_carries (R := 𝔣.Sums) (l := chunksExact 4 weights) (n := 4) (f := accumulateFour 𝔣 read)
    (g := fun chunk index => ∑ j ∈ range 4, chunk.getD j 0 * algebraMap F E (read (index + j))) []
    (fun a v i chunk _ hv => ⟨accumulateFour_carries read i chunk hv, rfl⟩) (i := i) ha
  rw [chunksExact_length, ← hq] at hfour
  obtain ⟨hchunks, hindex⟩ := hfour
  rcases hmid : (chunksExact 4 weights).foldl (accumulateFour 𝔣 read) (a, i) with ⟨mid, index⟩
  rw [hmid] at hchunks hindex
  obtain rfl : index = i + q * 4 := hindex
  have hrest := foldl_carries (R := 𝔣.Sums) (l := weights.drop (q * 4)) (n := 1) (f := accumulateOne 𝔣 read)
    (g := fun weight index => weight * algebraMap F E (read index)) 0
    (fun a v i x _ hv => ⟨hv.add (.product _ _), rfl⟩) (i := i + q * 4) hchunks
  have hlen : q * 4 + (weights.drop (q * 4)).length = weights.length := by
    rw [length_drop]
    omega
  have hsum : contribution read weights i =
      ∑ j ∈ range q, ∑ k ∈ range 4, ((chunksExact 4 weights).getD j []).getD k 0 * algebraMap F E (read (i + j * 4 + k)) +
      ∑ j ∈ range (weights.drop (q * 4)).length,
        (weights.drop (q * 4)).getD j 0 * algebraMap F E (read (i + q * 4 + j * 1)) := by
    rw [contribution, ← hlen, sum_range_add, sum_range_rows]
    congr 1
    · apply sum_congr rfl
      intro j hj
      apply sum_congr rfl
      intro k hk
      rw [chunksExact_getD 0 (by simpa [hq] using hj) (mem_range.1 hk), add_assoc]
    · apply sum_congr rfl
      intro j _
      rw [mul_one, add_assoc]
      simp [getD_eq_getElem?_getD]
  unfold accumulateChunks
  rw [← hq, hmid, hsum, ← add_assoc]
  exact hrest.1

/-- The weights of a small stride from the index `k` on, each into every accumulator. -/
theorem foldl_smallStride_carries (read : ℕ → F) (l : List E) (k : ℕ) {v : ℕ → E} (hv : Carries 𝔣.Sums s products v) :
    Carries 𝔣.Sums s ((l.zipIdx k).foldl (fun products (weight, packingIndex) =>
        products.mapIdx fun subringIndex accumulator =>
          𝔣.add accumulator (𝔣.mulBaseUnreduced weight (read (subringIndex * stride + packingIndex)))) products)
      fun y => v y + ∑ a ∈ range l.length, l.getD a 0 * algebraMap F E (read (y * stride + (k + a))) := by
  induction l generalizing k products v with
  | nil => simpa using hv
  | cons weight l ih =>
    have hnext := ih (k + 1) (hv.mapIdx (u := fun y => v y + weight * algebraMap F E (read (y * stride + k)))
      (f := fun y a => 𝔣.add a (𝔣.mulBaseUnreduced weight (read (y * stride + k)))) fun y a ha => ha.add (.product _ _))
    rw [zipIdx_cons, foldl_cons]
    have hsum : ∀ y, ∑ a ∈ range (weight :: l).length,
        (weight :: l).getD a 0 * algebraMap F E (read (y * stride + (k + a))) =
          weight * algebraMap F E (read (y * stride + k)) +
            ∑ a ∈ range l.length, l.getD a 0 * algebraMap F E (read (y * stride + (k + 1 + a))) := by
      intro y
      rw [length_cons, sum_range_succ', add_comm]
      congr 1
      apply sum_congr rfl
      intro a _
      have hshift : k + (a + 1) = k + 1 + a := by ring
      rw [hshift]
      simp
    refine hnext.congr fun y _ => ?_
    rw [hsum, ← add_assoc]

theorem accumulateSmallStride_carries (read : ℕ → F) (weights : List E) {v : ℕ → E} (hv : Carries 𝔣.Sums s products v) :
    Carries 𝔣.Sums s (accumulateSmallStride 𝔣 stride read weights products)
      fun y => v y + contribution read weights (y * stride) := by
  have h : Carries 𝔣.Sums s (accumulateSmallStride 𝔣 stride read weights products) _ :=
    foldl_smallStride_carries read weights 0 hv
  simpa [contribution] using h

end

/-! ## One block -/

section

variable {F E : Type} [Field F] [Field E] [Algebra F E] {𝔣 : PackingField F E} {p first live : ℕ}

/-- The ring at a position as the source shows it: zero beyond its nonzero prefix. -/
def PositionSource.ring (source : PositionSource F) (p i : ℕ) : F :=
  if p < source.nonzeroPositions then
    match source.positionAt p with
    | .ok position => source.coefficient p i position
    | .error _ => 0
  else 0

variable {source : PositionSource F}

theorem PositionSource.ring_of_ok {position : source.Position} (hp : p < source.nonzeroPositions)
    (h : source.positionAt p = .ok position) : source.ring p = fun i => source.coefficient p i position := by
  funext i
  simp [PositionSource.ring, hp, h]

theorem PositionSource.ring_of_ge (hp : source.nonzeroPositions ≤ p) (i : ℕ) : source.ring p i = 0 := by
  simp [PositionSource.ring, not_lt.2 hp]

theorem overPositions_carries {A : Type} {R : A → E → Prop} {s n : ℕ} {overflow : String}
    {step : (ℕ → F) → List E → List A → List A} {chunks : List (List E)} {init out : List A}
    (hstep : ∀ read weights accumulators v, weights.length = n → Carries R s accumulators v →
      Carries R s (step read weights accumulators) fun y => v y + contribution read weights (y * n))
    (hchunks : ∀ c ∈ chunks, c.length = n) (hlive : live ≤ source.nonzeroPositions - first) (hinit : Carries R s init fun _ => 0)
    (h : overPositions overflow source step chunks first live init = .ok out) :
    Carries R s out fun y => ∑ p ∈ range (min live chunks.length),
      contribution (source.ring (first + p)) (chunks.getD p []) (y * n) := by
  have hrun := foldlM_passes (P := fun made accumulators => Carries R s accumulators fun y =>
    ∑ p ∈ range made.length, contribution (source.ring (first + p)) (chunks.getD p []) (y * n)) ?_ ?_ h
  · simpa using hrun
  · intro made x rest accumulators accumulators' hl hP hpass
    have hget : (chunks.take live).zipIdx[made.length]? = some x := by rw [hl]; simp
    rw [List.getElem?_zipIdx] at hget
    obtain ⟨weights, hweights, rfl⟩ := Option.map_eq_some_iff.1 hget
    obtain ⟨hlt, hchunk⟩ := List.getElem?_eq_some_iff.1 hweights
    rw [List.length_take] at hlt
    have hread : chunks.getD made.length [] = weights := by
      rw [List.getElem_take] at hchunk
      simp [List.getD_eq_getElem?_getD, ← hchunk, (lt_min_iff.1 hlt).2]
    have hmem : weights ∈ chunks := by
      rw [← hchunk, List.getElem_take]
      exact List.getElem_mem _
    simp only [result_ok, checked_some, zero_add] at hpass
    obtain ⟨position, ⟨-, rfl⟩, sourcePosition, hpos, rfl⟩ := hpass
    have hring := PositionSource.ring_of_ok (by omega : first + made.length < source.nonzeroPositions) hpos
    refine (hstep _ weights accumulators _ (hchunks _ hmem) hP).congr fun y _ => ?_
    rw [List.length_append, List.length_singleton, sum_range_succ, hread, hring]
  · simpa using hinit

/-- **A block of the kernel**: the packed coefficient at `y` collects all live positions. -/
theorem packedBlock_ok (h𝔣 : 𝔣.Lawful) {geometry : Geometry} {fusedWeights : List E} {packed : List E}
    (hlive : live ≤ source.nonzeroPositions - first) (h : packedBlock 𝔣 rt geometry source fusedWeights first live = .ok packed) :
    packed.length = geometry.challengeSubringDimension ∧ ∀ y < geometry.challengeSubringDimension,
      packed.getD y 0 = ∑ p ∈ range (min live (fusedWeights.length / geometry.subringEmbeddingStride)),
        contribution (source.ring (first + p)) ((chunksExact geometry.subringEmbeddingStride fusedWeights).getD p [])
          (y * geometry.subringEmbeddingStride) := by
  set s := geometry.challengeSubringDimension with hs
  set stride := geometry.subringEmbeddingStride with hstride
  have hchunks : ∀ c ∈ chunksExact stride fusedWeights, c.length = stride := fun c hc => length_of_mem_chunksExact hc
  unfold packedBlock at h
  rcases hexact : 𝔣.sumIsExact with _ | _
  · -- the reduced loop
    rw [if_neg (by simp [hexact])] at h
    simp only [zeroVec, result_ok] at h
    obtain ⟨reduced, ⟨-, rfl⟩, h⟩ := h
    have hrun := overPositions_carries (R := fun a v : E => a = v) (s := s) (n := stride) ?_ hchunks hlive
      (Carries.replicate rfl) h
    · refine ⟨hrun.1, fun y hy => ?_⟩
      obtain ⟨a, hget, hvalue⟩ := hrun.get hy
      rw [← chunksExact_length, getD_eq_getElem?_getD, hget]
      exact hvalue
    · intro read weights accumulators v hweights hv
      rw [accumulateRunning_eq (n := stride) fun a i => by
        rw [(accumulateReduced_carries h𝔣 read weights a i).2, hweights]]
      refine hv.mapIdx fun y a ha => ?_
      rw [(accumulateReduced_carries h𝔣 read weights a _).1, ha]
  · -- the exact loops, reduced at the end
    rw [if_pos hexact] at h
    simp only [zeroVec, result_ok] at h
    obtain ⟨zeros, ⟨-, rfl⟩, products, hprods, rfl⟩ := h
    have hzero : Carries 𝔣.Sums s (replicate s 𝔣.zero) fun _ => (0 : E) := Carries.replicate .zero
    have hrun : Carries 𝔣.Sums s products fun y => ∑ p ∈ range (min live (chunksExact stride fusedWeights).length),
        contribution (source.ring (first + p)) ((chunksExact stride fusedWeights).getD p []) (y * stride) := by
      split at hprods
      · exact overPositions_carries (fun read weights _ _ _ hv => accumulateSmallStride_carries read weights hv) hchunks
          hlive hzero hprods
      · refine overPositions_carries ?_ hchunks hlive hzero hprods
        intro read weights accumulators v hweights hv
        rw [accumulateRunning_eq (n := stride) fun a i => by rw [accumulateChunks_index, hweights]]
        exact hv.mapIdx fun y a ha => accumulateChunks_carries read weights _ ha
    refine ⟨by simpa using hrun.1, fun y hy => ?_⟩
    obtain ⟨a, hget, hvalue⟩ := hrun.get hy
    rw [← chunksExact_length, getD_eq_getElem?_getD, getElem?_map, hget]
    exact h𝔣.reduceProduct hexact _ _ hvalue

end

/-! ## Geometry and axes -/

structure Geometry.Sound (g : Geometry) : Prop where
  stride_pow : ∃ n < 64, g.subringEmbeddingStride = 2 ^ n
  subring_pow : ∃ n < 64, g.challengeSubringDimension = 2 ^ n
  dimension_eq : g.aRingDimension = g.subringEmbeddingStride * g.challengeSubringDimension
  width_eq : g.partialBaseFieldWidth = g.extensionDegree * g.challengeSubringDimension

theorem Geometry.Sound.stride_pos (h : g.Sound) : 0 < g.subringEmbeddingStride := by
  obtain ⟨n, -, hn⟩ := h.stride_pow
  rw [hn]
  exact Nat.two_pow_pos n

theorem Geometry.Sound.subring_pos (h : g.Sound) : 0 < g.challengeSubringDimension := by
  obtain ⟨n, -, hn⟩ := h.subring_pow
  rw [hn]
  exact Nat.two_pow_pos n

theorem Geometry.tryNew_sound {measured : SparseStream.SparseChallengeConfig → ℕ → ℕ → Except String Unit} {k D s : ℕ}
    (h : tryNew measured k D s = .ok g) :
    g.Sound ∧ g.extensionDegree = k ∧ g.aRingDimension = D ∧ g.challengeSubringDimension = s := by
  unfold tryNew at h
  simp only [result_ok, checked_some] at h
  obtain ⟨⟨⟨e, rfl⟩, ⟨d, rfl⟩, ⟨n, rfl⟩⟩, config, -, -, width, ⟨hwidth, rfl⟩, hdvd, stride, ⟨hstride, rfl⟩, rfl⟩ := h
  have hmul : 2 ^ e * (2 ^ d / (2 ^ e * 2 ^ n)) * 2 ^ n = 2 ^ d := by
    rw [mul_right_comm, Nat.mul_div_cancel' hdvd]
  have hstride_pow : ∃ m, 2 ^ e * (2 ^ d / (2 ^ e * 2 ^ n)) = 2 ^ m := by
    obtain ⟨m, -, hm⟩ := (Nat.dvd_prime_pow Nat.prime_two).1 (Dvd.intro _ hmul)
    exact ⟨m, hm⟩
  obtain ⟨m, hm⟩ := hstride_pow
  refine ⟨⟨⟨m, ?_, hm⟩, ⟨n, ?_, rfl⟩, hmul.symm, rfl⟩, rfl, rfl, rfl⟩
  · rw [hm] at hstride
    exact (Nat.pow_lt_pow_iff_right (by norm_num)).1 hstride
  · have hle : 2 ^ n ≤ 2 ^ e * 2 ^ n := Nat.le_mul_of_pos_left _ (Nat.two_pow_pos e)
    exact (Nat.pow_lt_pow_iff_right (by norm_num)).1 (hle.trans_lt hwidth)

/-- The public point padded with zeros to the arity of the four axes. -/
def PreparedPoint.paddedPoint {E : Type} [Zero E] (p : PreparedPoint E) (point : List E) : List E :=
  point ++ List.replicate
    (p.packingPoint.length + p.tailPoint.length + p.positionPoint.length + p.blockPoint.length - point.length) 0

/-- The axes of a prepared point: their domains, and the padded point they are cut from. -/
structure PreparedPoint.Splits {E : Type} (p : PreparedPoint E) (padded : List E) : Prop where
  geometry : p.geometry.Sound
  packing : p.geometry.subringEmbeddingStride = 2 ^ p.packingPoint.length
  tail : p.geometry.challengeSubringDimension = 2 ^ p.tailPoint.length
  position : p.numPositionsPerBlock = 2 ^ p.positionPoint.length
  padded_eq : padded = p.packingPoint ++ (p.tailPoint ++ (p.positionPoint ++ p.blockPoint))
  blocks : p.numLiveBlocks = PhysicalL2.divCeil p.numLivePositions p.numPositionsPerBlock

theorem takeAxis_ok {E : Type} {padded axis : List E} {offset bits stop : ℕ}
    (h : takeAxis padded offset bits = .ok (axis, stop)) :
    padded.drop offset = axis ++ padded.drop stop ∧ axis.length = bits ∧ stop = offset + bits := by
  unfold takeAxis at h
  simp only [result_ok, checked_some, Prod.mk.injEq] at h
  obtain ⟨_, ⟨-, rfl⟩, hle, rfl, rfl⟩ := h
  refine ⟨?_, ?_, rfl⟩
  · rw [← drop_drop, take_append_drop]
  · rw [length_take, length_drop]
    omega

theorem PreparedPoint.new_geometry {E : Type} [Field E] {point : List E} {p : PreparedPoint E}
    (h : PreparedPoint.new g basis numLivePositions numPositionsPerBlock sourceNumVars point = .ok p) : p.geometry = g := by
  unfold PreparedPoint.new at h
  simp only [result_ok, Prod.exists] at h
  obtain ⟨_, -, _, -, _, -, _, -, _, -, _, -, _, -, _, _, -, _, _, -, _, _, -, _, _, -, rfl⟩ := h
  rfl

/-- **The prepared point** splits the point padded with zeros over the four axes. -/
theorem PreparedPoint.new_splits {E : Type} [Field E] {point : List E} {p : PreparedPoint E} (hg : g.Sound)
    (hM : p.numPositionsPerBlock < 2 ^ 64)
    (h : PreparedPoint.new g basis numLivePositions numPositionsPerBlock sourceNumVars point = .ok p) :
    p.Splits (p.paddedPoint point) ∧ p.geometry = g ∧ p.basis = basis ∧
      p.numLivePositions = numLivePositions ∧ p.numPositionsPerBlock = numPositionsPerBlock := by
  unfold PreparedPoint.new at h
  simp only [result_ok, Prod.exists, not_or, not_not] at h
  obtain ⟨⟨-, hMpow⟩, blockDomain, hdomain, expected, hexp, hlen, hle, _, -, -, packing, o₁, h₁, tail, o₂, h₂, position,
    o₃, h₃, block, o₄, h₄, rfl⟩ := h
  obtain ⟨hpack, hpackLen, rfl⟩ := takeAxis_ok h₁
  obtain ⟨htail, htailLen, rfl⟩ := takeAxis_ok h₂
  obtain ⟨hpos, hpositionLen, rfl⟩ := takeAxis_ok h₃
  obtain ⟨hblock, hblockLen, rfl⟩ := takeAxis_ok h₄
  set padded := point ++ replicate (expected - point.length) 0 with hpadded
  have hsum : expected = trailingZeros g.subringEmbeddingStride + trailingZeros g.challengeSubringDimension +
      trailingZeros numPositionsPerBlock + trailingZeros blockDomain := by
    simp only [Checked.sum, foldlM_cons, foldlM_nil, option_some, checkedAdd_eq_some] at hexp
    obtain ⟨_, ⟨-, rfl⟩, _, ⟨-, rfl⟩, _, ⟨-, rfl⟩, _, ⟨-, rfl⟩, rfl⟩ := hexp
    omega
  have hpaddedLen : padded.length = expected := by
    rw [hpadded, length_append, length_replicate]
    omega
  have hend : padded.drop (0 + trailingZeros g.subringEmbeddingStride + trailingZeros g.challengeSubringDimension +
      trailingZeros numPositionsPerBlock + trailingZeros blockDomain) = [] := by
    rw [drop_eq_nil_iff]
    omega
  refine ⟨⟨hg, ?_, ?_, ?_, ?_, rfl⟩, rfl, rfl, rfl, rfl⟩
  · obtain ⟨n, hn, hpow⟩ := hg.stride_pow
    rw [hpackLen, hpow, trailingZeros_two_pow hn]
  · obtain ⟨n, hn, hpow⟩ := hg.subring_pow
    rw [htailLen, hpow, trailingZeros_two_pow hn]
  · obtain ⟨n, rfl⟩ := hMpow
    rw [hpositionLen, trailingZeros_two_pow ((Nat.pow_lt_pow_iff_right (by norm_num)).1 hM)]
  · rw [drop_zero] at hpack
    rw [hblock, hend, append_nil] at hpos
    rw [hpos] at htail
    rw [htail] at hpack
    unfold PreparedPoint.paddedPoint
    rw [hpackLen, htailLen, hpositionLen, hblockLen, ← hsum]
    exact hpack

/-- The weight of a coefficient of the source is the product of the weights of its four axes. -/
theorem PreparedPoint.Splits.weight {E : Type} {padded : List E} [Field E] {p : PreparedPoint E} (h : p.Splits padded)
    (basis : BasisMode) {a position : ℕ} (ha : a < p.geometry.subringEmbeddingStride)
    (hy : y < p.geometry.challengeSubringDimension) (hpos : position < p.numPositionsPerBlock) (b : ℕ) :
    basisWeight basis padded (y * p.geometry.subringEmbeddingStride + a +
        p.geometry.aRingDimension * (b * p.numPositionsPerBlock + position)) =
      basisWeight basis p.packingPoint a * (basisWeight basis p.tailPoint y *
        (basisWeight basis p.positionPoint position * basisWeight basis p.blockPoint b)) := by
  have hindex : y * p.geometry.subringEmbeddingStride + a +
      p.geometry.aRingDimension * (b * p.numPositionsPerBlock + position) =
        a + 2 ^ p.packingPoint.length * (y + 2 ^ p.tailPoint.length * (position + 2 ^ p.positionPoint.length * b)) := by
    rw [h.geometry.dimension_eq, ← h.packing, ← h.tail, ← h.position]
    ring
  rw [hindex, h.padded_eq, basisWeight_append_add _ _ _ (by rwa [← h.packing]),
    basisWeight_append_add _ _ _ (by rwa [← h.tail]), basisWeight_append_add _ _ _ (by rwa [← h.position])]

/-! ## Tables -/

/-- The tables hold the weights of the axes, the block table on its live prefix. -/
structure Tables.Sound {E : Type} [Field E] (t : Tables E) : Prop where
  packing : ∀ a, t.packingWeights.getD a 0 = basisWeight t.point.basis t.point.packingPoint a
  packing_length : t.packingWeights.length = 2 ^ t.point.packingPoint.length
  tail : ∀ y, t.tailWeights.getD y 0 = basisWeight t.point.basis t.point.tailPoint y
  tail_length : t.tailWeights.length = 2 ^ t.point.tailPoint.length
  position : ∀ p, t.positionWeights.getD p 0 = basisWeight t.point.basis t.point.positionPoint p
  position_length : t.positionWeights.length = 2 ^ t.point.positionPoint.length
  block : ∀ b < t.point.numLiveBlocks, t.liveBlockWeights.getD b 0 = basisWeight t.point.basis t.point.blockPoint b
  block_length : t.liveBlockWeights.length = t.point.numLiveBlocks

theorem Tables.new_sound {E : Type} [Field E] {p : PreparedPoint E} {t : Tables E} (h : Tables.new rt p = .ok t) :
    t.point = p ∧ t.Sound := by
  unfold Tables.new at h
  simp only [result_ok] at h
  obtain ⟨packing, hpacking, tail, htail, position, hpos, block, hblock, rfl⟩ := h
  obtain ⟨hlen, -, -, hprefix⟩ := basisWeightsPrefix_ok hblock
  exact ⟨rfl, basisWeights_getD hpacking, basisWeights_length hpacking, basisWeights_getD htail, basisWeights_length htail,
    basisWeights_getD hpos, basisWeights_length hpos, hprefix, hlen⟩

theorem FusedPackingWeights.new_ok {E : Type} [Field E] {t : Tables E} {fused : FusedPackingWeights E}
    (h : FusedPackingWeights.new rt t = .ok fused) :
    fused.tables = t ∧ t.point.numPositionsPerBlock * t.point.geometry.subringEmbeddingStride < 2 ^ 64 ∧
      fused.values = t.positionWeights.flatMap fun positionWeight =>
        t.packingWeights.map fun packingWeight => positionWeight * packingWeight := by
  unfold FusedPackingWeights.new requiredLen at h
  simp only [result_ok] at h
  obtain ⟨len, hlen, -, rfl⟩ := h
  simp only [Checked.product, foldlM_cons, foldlM_nil, option_some, checkedMul_eq_some, one_mul] at hlen
  obtain ⟨_, ⟨-, rfl⟩, _, ⟨hlt, rfl⟩, rfl⟩ := hlen
  exact ⟨rfl, hlt, rfl⟩

theorem fused_getD {E : Type} [Field E] {position packing : List E} {p a : ℕ} (ha : a < packing.length) :
    (position.flatMap fun u => packing.map fun v => u * v).getD (p * packing.length + a) 0 =
      position.getD p 0 * packing.getD a 0 := by
  have hrows : ∀ row ∈ position.map fun u => packing.map fun v => u * v, row.length = packing.length := by
    intro row hrow
    obtain ⟨u, -, rfl⟩ := mem_map.1 hrow
    simp
  rw [flatMap_def, getD_eq_getElem?_getD, getElem?_flatten hrows ha]
  by_cases hp : p < position.length
  · simp [getD_eq_getElem?_getD, hp, ha]
  · simp [getD_eq_getElem?_getD, not_lt.1 hp]

theorem fused_length {E : Type} [Field E] (position packing : List E) :
    (position.flatMap fun u => packing.map fun v => u * v).length = position.length * packing.length := by
  simp [length_flatMap]

/-! ## The kernel -/

section kernel

variable {F E : Type} [Field F] [Field E] [Algebra F E]

open Polynomial in
/-- `Σ_a packing_a · Σ_y ring[y · stride + a] Y^y`. -/
noncomputable def packedRing (t : Tables E) (ring : ℕ → F) : E[X] :=
  ∑ a ∈ range t.point.geometry.subringEmbeddingStride, C (t.packingWeights.getD a 0) *
    ∑ y ∈ range t.point.geometry.challengeSubringDimension,
      C (algebraMap F E (ring (y * t.point.geometry.subringEmbeddingStride + a))) * X ^ y

open Polynomial in
/-- `e_b(Y) = Σ_p position_p · Σ_a packing_a · Σ_y ring(b, p)[y · stride + a] Y^y`. -/
noncomputable def partialPolynomial (t : Tables E) (ring : ℕ → ℕ → F) (b : ℕ) : E[X] :=
  ∑ p ∈ range t.point.numPositionsPerBlock, C (t.positionWeights.getD p 0) *
    packedRing t (ring (b * t.point.numPositionsPerBlock + p))

theorem partialPolynomial_coeff (t : Tables E) (ring : ℕ → ℕ → F) (b : ℕ)
    (hy : y < t.point.geometry.challengeSubringDimension) :
    (partialPolynomial t ring b).coeff y = ∑ p ∈ range t.point.numPositionsPerBlock,
      ∑ a ∈ range t.point.geometry.subringEmbeddingStride, t.positionWeights.getD p 0 * t.packingWeights.getD a 0 *
        algebraMap F E (ring (b * t.point.numPositionsPerBlock + p) (y * t.point.geometry.subringEmbeddingStride + a)) := by
  unfold partialPolynomial packedRing
  rw [Polynomial.finsetSum_coeff]
  apply sum_congr rfl
  intro p _
  rw [Polynomial.coeff_C_mul, Polynomial.finsetSum_coeff, mul_sum]
  apply sum_congr rfl
  intro a _
  rw [Polynomial.coeff_C_mul, coeff_sum_C_mul_X_pow, if_pos hy, mul_assoc]

variable [ExtField F E] {𝔣 : PackingField F E}

omit [Algebra F E] in
theorem outputCoordinates_ok (hg : g.Sound) {packed : List E} {output : List F}
    (hlen : packed.length = g.challengeSubringDimension) (h : outputCoordinates rt g packed = .ok output) :
    output.length = g.partialBaseFieldWidth ∧ ∀ e < g.extensionDegree, ∀ y < g.challengeSubringDimension,
      output.getD (e * g.challengeSubringDimension + y) 0 =
        (ExtField.toBaseVec (F := F) (packed.getD y 0)).getD e 0 := by
  set s := g.challengeSubringDimension with hs
  -- the value that belongs at a place
  set V : ℕ → F := fun k => (ExtField.toBaseVec (F := F) (packed.getD (k % s) 0)).getD (k / s) 0 with hV
  have hplace : ∀ e y, y < s → V (e * s + y) = (ExtField.toBaseVec (F := F) (packed.getD y 0)).getD e 0 := by
    intro e y hy
    have hmod : (e * s + y) % s = y := by rw [mul_comm, Nat.mul_add_mod, Nat.mod_eq_of_lt hy]
    have hdiv : (e * s + y) / s = e := by
      rw [mul_comm, Nat.mul_add_div hg.subring_pos, Nat.div_eq_of_lt hy, add_zero]
    simp only [hV, hmod, hdiv]
  unfold outputCoordinates zeroVec at h
  simp only [result_ok] at h
  obtain ⟨zeros, ⟨-, rfl⟩, h⟩ := h
  have hwrites := WritesOk.foldlM (N := g.partialBaseFieldWidth) (V := V)
    (S := fun x : E × ℕ => {k | ∃ e < g.extensionDegree, k = e * s + x.2}) ?_ _ _ (by simp) h
  · obtain ⟨hout, hread⟩ := hwrites
    refine ⟨hout, fun e he y hy => ?_⟩
    have hwidth : e * s + y < g.partialBaseFieldWidth := by
      rw [hg.width_eq]
      calc e * s + y < e * s + s := by omega
        _ = (e + 1) * s := by ring
        _ ≤ g.extensionDegree * s := Nat.mul_le_mul_right _ he
    have hmem : (packed.getD y 0, y) ∈ packed.zipIdx := by
      rw [List.mem_zipIdx_iff_getElem?]
      simp [List.getD_eq_getElem?_getD, List.getElem?_eq_getElem (by omega : y < packed.length)]
    rw [← hplace e y hy, List.getD_eq_getElem?_getD, hread _ hwidth (Or.inl ⟨_, hmem, e, he, rfl⟩)]
    rfl
  · intro x hx out out' hout hpass
    obtain ⟨coefficient, y⟩ := x
    have hget := List.mem_zipIdx_iff_getElem?.1 hx
    have hy : y < s := by
      rw [← hlen]
      exact (List.getElem?_eq_some_iff.1 hget).1
    have hcoeff : packed.getD y 0 = coefficient := by simp [List.getD_eq_getElem?_getD, hget]
    simp only [result_ok] at hpass
    obtain ⟨hdegree, hpass⟩ := hpass
    have hinner := WritesOk.foldlM (N := g.partialBaseFieldWidth) (V := V)
      (S := fun x : F × ℕ => {x.2 * s + y}) ?_ _ _ hout hpass
    · refine ⟨hinner.1, fun k hk hmem => hinner.2 k hk ?_⟩
      rcases hmem with ⟨e, he, rfl⟩ | hold
      · refine Or.inl ⟨((ExtField.toBaseVec (F := F) coefficient).getD e 0, e), ?_, rfl⟩
        rw [List.mem_zipIdx_iff_getElem?]
        have hlt : e < (ExtField.toBaseVec (F := F) coefficient).length := by omega
        simp [List.getD_eq_getElem?_getD, List.getElem?_eq_getElem hlt]
      · exact Or.inr hold
    · intro z hz mid mid' hmid hwrite
      obtain ⟨coordinate, e⟩ := z
      have hcoord := List.mem_zipIdx_iff_getElem?.1 hz
      simp only [result_ok, Geometry.partialBaseFieldCoordinateIndex, Option.filter_eq_some_iff] at hwrite
      obtain ⟨_, ⟨-, hindex, -⟩, hlt, rfl⟩ := hwrite
      simp only [Checked.mulAdd, option_some, checked_some] at hindex
      obtain ⟨_, ⟨-, rfl⟩, -, rfl⟩ := hindex
      refine ⟨by simpa using hmid, fun k hk hmem => ?_⟩
      rw [List.getElem?_set]
      by_cases hk' : e * s + y = k
      · rw [← hs, if_pos hk', if_pos (by rw [hk', hmid]; exact hk), ← hk', hplace e y hy, hcoeff]
        simp [List.getD_eq_getElem?_getD, hcoord]
      · rw [← hs, if_neg hk']
        exact hmem.resolve_left fun h => hk' h.symm

variable {padded : List E} {source : PositionSource F}

omit [ExtField F E] in
/-- The live positions of a block carry its polynomial: beyond them the source is zero. -/
theorem sum_live_eq_coeff {t : Tables E} (ht : t.Sound) (hsplit : t.point.Splits padded) {values : List E}
    (hvalues : values = t.positionWeights.flatMap fun u => t.packingWeights.map fun v => u * v)
    (hnonzero : source.nonzeroPositions ≤ t.point.numLivePositions) {b live : ℕ}
    (hy : y < t.point.geometry.challengeSubringDimension)
    (hlive : live = min (min (t.point.numLivePositions - b * t.point.numPositionsPerBlock) t.point.numPositionsPerBlock)
      (source.nonzeroPositions - b * t.point.numPositionsPerBlock)) :
    ∑ p ∈ range (min live (values.length / t.point.geometry.subringEmbeddingStride)),
      contribution (source.ring (b * t.point.numPositionsPerBlock + p))
        ((chunksExact t.point.geometry.subringEmbeddingStride values).getD p [])
        (y * t.point.geometry.subringEmbeddingStride) = (partialPolynomial t source.ring b).coeff y := by
  set M := t.point.numPositionsPerBlock with hM
  set stride := t.point.geometry.subringEmbeddingStride with hstride
  have hpacking : t.packingWeights.length = stride := by rw [ht.packing_length, ← hsplit.packing]
  have hpos : t.positionWeights.length = M := by rw [ht.position_length, ← hsplit.position]
  have hchunks : values.length / stride = M := by
    rw [hvalues, fused_length, hpacking, hpos, Nat.mul_div_cancel _ hsplit.geometry.stride_pos]
  rw [partialPolynomial_coeff t _ b hy, hchunks]
  have hle : min live M ≤ M := min_le_right _ _
  rw [← sum_subset (range_subset_range.2 hle) (f := fun p => ∑ a ∈ range stride,
    t.positionWeights.getD p 0 * t.packingWeights.getD a 0 * algebraMap F E (source.ring (b * M + p) (y * stride + a)))]
  · apply sum_congr rfl
    intro p hp
    have hp : p < M := lt_of_lt_of_le (mem_range.1 hp) hle
    have hlen : ((chunksExact stride values).getD p []).length = stride := by
      have hlt : p < (chunksExact stride values).length := by rw [chunksExact_length, hchunks]; exact hp
      rw [getD_eq_getElem?_getD, getElem?_eq_getElem hlt]
      exact length_of_mem_chunksExact (getElem_mem hlt)
    rw [contribution, hlen]
    apply sum_congr rfl
    intro a ha
    have ha : a < stride := mem_range.1 ha
    rw [chunksExact_getD 0 (by rw [hchunks]; exact hp) ha, hvalues, ← hpacking, fused_getD (by rw [hpacking]; exact ha)]
  · intro p hp hout
    have hp : p < M := mem_range.1 hp
    have hout : ¬ p < min live M := fun h => hout (mem_range.2 h)
    have hbeyond : source.nonzeroPositions ≤ b * M + p := by omega
    simp [PositionSource.ring_of_ge hbeyond]

/-- **The kernel**: the partials of block `b` are the base-field coordinates of `e_b`. -/
theorem partialsFromPositionSource_ok (h𝔣 : 𝔣.Lawful) {fused : FusedPackingWeights E} (ht : fused.tables.Sound)
    (hsplit : fused.tables.point.Splits padded)
    (hvalues : fused.values = fused.tables.positionWeights.flatMap fun u => fused.tables.packingWeights.map fun v => u * v)
    {D : ℕ} {partials : List F} (h : partialsFromPositionSource 𝔣 rt D fused sourceNumVars source = .ok partials) :
    partials.length = fused.tables.point.numLiveBlocks * fused.tables.point.geometry.partialBaseFieldWidth ∧
      source.nonzeroPositions ≤ fused.tables.point.numLivePositions ∧
      ∀ b < fused.tables.point.numLiveBlocks, ∀ e < fused.tables.point.geometry.extensionDegree,
        ∀ y < fused.tables.point.geometry.challengeSubringDimension,
          partials.getD (b * fused.tables.point.geometry.partialBaseFieldWidth +
              (e * fused.tables.point.geometry.challengeSubringDimension + y)) 0 =
            (ExtField.toBaseVec (F := F) ((partialPolynomial fused.tables source.ring b).coeff y)).getD e 0 := by
  set t := fused.tables with htdef
  set g := t.point.geometry with hgdef
  unfold partialsFromPositionSource at h
  simp only [result_ok, ← htdef, ← hgdef] at h
  obtain ⟨-, -, hnonzero, _, -, blocks, hblocks, -, rfl⟩ := h
  have hall := forall₂_of_mapM hblocks
  have hcount : blocks.length = t.point.numLiveBlocks := by simpa using hall.length_eq.symm
  have hblock : ∀ (b : ℕ) (hb : b < blocks.length), blocks[b].length = g.partialBaseFieldWidth ∧
      ∀ e < g.extensionDegree, ∀ y < g.challengeSubringDimension, blocks[b].getD (e * g.challengeSubringDimension + y) 0 =
        (ExtField.toBaseVec (F := F) ((partialPolynomial t source.ring b).coeff y)).getD e 0 := by
    intro b hb
    have hget := (forall₂_iff_get.1 hall).2 b (by simp; omega) hb
    simp only [get_eq_getElem, getElem_range, result_ok, checked_some, liveInBlock] at hget
    obtain ⟨_, ⟨-, rfl⟩, live, ⟨_, ⟨-, rfl⟩, hlive⟩, packed, hpacked, houtput⟩ := hget
    obtain ⟨hlen, hread⟩ := packedBlock_ok h𝔣 (by omega) hpacked
    obtain ⟨hwidth, hcoord⟩ := outputCoordinates_ok hsplit.geometry hlen houtput
    refine ⟨hwidth, fun e he y hy => ?_⟩
    rw [hcoord e he y hy, hread y hy, sum_live_eq_coeff ht hsplit hvalues hnonzero hy hlive.symm]
  have hrows : ∀ row ∈ blocks, row.length = g.partialBaseFieldWidth := by
    intro row hrow
    obtain ⟨b, hb, rfl⟩ := getElem_of_mem hrow
    exact (hblock b hb).1
  refine ⟨?_, hnonzero, fun b hb e he y hy => ?_⟩
  · rw [length_flatten_of_width hrows, hcount]
  · have hb' : b < blocks.length := by omega
    have hwidth : e * g.challengeSubringDimension + y < g.partialBaseFieldWidth := by
      rw [hsplit.geometry.width_eq]
      calc e * g.challengeSubringDimension + y < e * g.challengeSubringDimension + g.challengeSubringDimension := by omega
        _ = (e + 1) * g.challengeSubringDimension := by ring
        _ ≤ g.extensionDegree * g.challengeSubringDimension := Nat.mul_le_mul_right _ he
    rw [← (hblock b hb').2 e he y hy, getD_eq_getElem?_getD, getElem?_flatten hrows hwidth,
      getElem?_eq_getElem hb', getD_eq_getElem?_getD]
    rfl

end kernel

end Akita.CoefficientPacking
