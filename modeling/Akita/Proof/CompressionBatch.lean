import Akita.Lib.Wraparound
import Akita.Proof.CompressionWitness
import Akita.Spec.CompressionExecution

/-!
# One layer of compression chains

A chain goes through a layer by itself: `LayerStep` says what its map makes of it, by the two folds of one
product. A batch, and a stage cut into batches, is that step at every chain (`executeChunk_layerStep`,
`executeStage_layerStep`), and a stage on one chain alone makes the same step (`LayerStep.executeStage`).
-/

namespace Akita.Compression

open Lib List PackedNegativeBinary
open Schedule (RingRelationMode SisModulusProfileId)
open Commitment (RingVec)

variable {ι F : Type} [CommRing F] {plan : CompressionChainPlan} {map firstMap : CompressionMapPlan}
  {packed : PackedNegativeBinary} {views : List (List (List ℤ))} {width : ℕ} {mode : RingRelationMode}
  {items items' : List (WorkItem ι F)} {indices : List ℕ}

/-! ## Exact kernels -/

/-- Ring element `c` of the setup prefix at dimension `D`. -/
def setupRing (setup : List F) (D c : ℕ) : List F := (setup.drop (c * D)).take D

/-- Coefficient `n` of the product of the setup row and a digit vector, before any reduction. -/
def productCoefficient (setup : List F) (D : ℕ) (digits : List (List ℤ)) (n : ℕ) : F :=
  ∑ c ∈ Finset.range digits.length, ∑ i ∈ Finset.range D, if i ≤ n ∧ n - i < D then
    (setupRing setup D c).getD i 0 * ((digits.getD c []).map (Int.cast : ℤ → F)).getD (n - i) 0 else 0

/-- A digit vector of one batch: `width` rows of dimension `D` with digits `-1` and `0`. -/
def DigitVector (D width : ℕ) (view : List (List ℤ)) : Prop :=
  view.length = width ∧ ∀ row ∈ view, row.length = D ∧ ∀ digit ∈ row, digit = -1 ∨ digit = 0

/-- **The assumption on the kernels**: on the digit vectors of a supported dimension that fit the setup they return
the negacyclic and the cyclic fold of the product. -/
structure CompressionBackend.Exact (𝔟 : CompressionBackend F) : Prop where
  negacyclic : ∀ D ∈ compressionArms 𝔟.encoding.modulusBits, ∀ width views, 0 < width →
    width * D ≤ 𝔟.setup.length → (∀ view ∈ views, DigitVector D width view) → 𝔟.matVecMulNttDigitsI8 D width views =
        .ok (views.map fun view => [negacyclicFold D (productCoefficient 𝔟.setup D view)])
  cyclic : ∀ D ∈ compressionArms 𝔟.encoding.modulusBits, ∀ width view, 0 < width →
    width * D ≤ 𝔟.setup.length → DigitVector D width view →
      𝔟.matVecMulNttSingleI8Cyclic D width view = .ok [cyclicFold D (productCoefficient 𝔟.setup D view)]

theorem compressionArms_pos {bits D : ℕ} (h : D ∈ compressionArms bits) : 0 < D := by
  unfold compressionArms at h
  split at h
  · simp only [mem_cons, not_mem_nil, or_false] at h; omega
  · split at h <;> simp only [mem_cons, not_mem_nil, or_false] at h <;> omega

/-! ## One chain -/

variable {𝔟 : CompressionBackend F} {D m : ℕ} {item item' : WorkItem ι F}

/-- What a layer makes of a chain: the image is the negacyclic fold, a quotient is the upper half. -/
def WorkItem.advance (𝔟 : CompressionBackend F) (D : ℕ) (packed : PackedNegativeBinary) (item : WorkItem ι F) :
    WorkItem ι F :=
  let product := productCoefficient 𝔟.setup D (packed.rows D)
  { item with
    coefficients := negacyclicFold D product
    quotients := item.quotients ++ if item.relationMode = .quotientLift then [⟨upperHalf D product, D⟩] else []
    stages := item.stages ++ [packed] }

/-- **The step of one chain through layer `m`.** -/
def LayerStep (𝔟 : CompressionBackend F) (m : ℕ) (item item' : WorkItem ι F) : Prop :=
  ∃ map packed, item.plan.maps.toList[m]? = some map ∧ map.ringDimension ∈ compressionArms 𝔟.encoding.modulusBits ∧
    fromCoefficients 𝔟.encoding map item.coefficients = .ok packed ∧ packed.map = map ∧
    0 < map.inputWidth ∧ map.inputWidth ≤ 𝔟.setup.length / map.ringDimension ∧
    item' = item.advance 𝔟 map.ringDimension packed

/-- A field of a supported profile has at most 16 bytes. -/
theorem fieldBytes_le (plan : CompressionChainPlan) : plan.fieldBytes ≤ 16 := by
  unfold CompressionChainPlan.fieldBytes
  cases plan.modulusProfile <;> decide

theorem CompressionChainPlan.Checked.map_facts (h : plan.Checked) (hmap : plan.maps.toList[m]? = some map) :
    map.Facts ∧ map.modulusProfile = plan.modulusProfile ∧ map.inputCoefficients * plan.fieldBytes ≤ 8192 := by
  obtain ⟨first, second, hmaps, hfirst, hsecond, hprof, hprof', hinput, hinput', hcap⟩ := h.two_maps
  rw [hmaps] at hmap
  rcases m with _ | _ | m
  · cases hmap
    exact ⟨hfirst, hprof, hinput ▸ hcap⟩
  · cases hmap
    refine ⟨hsecond, hprof', ?_⟩
    rw [hinput', hfirst.output]
    exact (Nat.mul_le_mul hfirst.dimension_le (fieldBytes_le plan)).trans (by norm_num)
  · simp at hmap

theorem fromCoefficients_facts {𝔢 : FieldEncoding F} {coefficients : List F}
    (h : fromCoefficients 𝔢 map coefficients = .ok packed) :
    packed.map = map ∧ coefficients.length = map.inputCoefficients ∧ packed.bytes.length = map.packedDigitBytes := by
  simp only [fromCoefficients, fromBytes, validateBytes, result_ok] at h
  obtain ⟨hlen, _, -, -, bytes, -, ⟨hbytes, -⟩, rfl⟩ := h
  exact ⟨rfl, hlen, hbytes⟩

theorem rows_digitVector (packed : PackedNegativeBinary) (D : ℕ) :
    DigitVector D packed.map.inputWidth (packed.rows D) := ⟨packed.rows_length D, packed.rows_wellFormed D⟩

/-! ## The products of a batch -/

theorem validateCompressionBatchShape_eq_ok :
    validateCompressionBatchShape views = .ok width ↔ views ≠ [] ∧ width ≠ 0 ∧ ∀ view ∈ views, view.length = width := by
  simp only [validateCompressionBatchShape, result_ok, not_or]
  cases views with
  | nil => simp
  | cons view views =>
    simp only [head?_cons, Option.map_some, Option.getD_some]
    constructor
    · rintro ⟨⟨hne, hwidth⟩, hall, rfl⟩
      exact ⟨hne, hwidth, hall⟩
    · rintro ⟨hne, hwidth, hall⟩
      have hhead : view.length = width := hall view mem_cons_self
      rw [hhead]
      exact ⟨⟨hne, hwidth⟩, hall, rfl⟩

theorem validateDigitRowRequest_one {total : ℕ} {u : Unit} :
    validateDigitRowRequest 1 width total = .ok u ↔ width ≠ 0 ∧ width < 2 ^ 64 ∧ width ≤ total := by
  simp only [validateDigitRowRequest, result_ok, checked_some, one_mul, usizeBits, not_lt]
  constructor
  · rintro ⟨hne, _, ⟨hlt, rfl⟩, hle⟩
    exact ⟨hne, hlt, hle⟩
  · rintro ⟨hne, hlt, hle⟩
    exact ⟨hne, width, ⟨hlt, rfl⟩, hle⟩

/-- The products that exact kernels return: the cyclic ones in `QuotientLift` mode only. -/
def exactProducts (𝔟 : CompressionBackend F) (D : ℕ) (mode : RingRelationMode) (views : List (List (List ℤ))) :
    List (List (List F)) × Option (List (List (List F))) :=
  (views.map fun view => [negacyclicFold D (productCoefficient 𝔟.setup D view)],
    if mode = .quotientLift then some (views.map fun view => [cyclicFold D (productCoefficient 𝔟.setup D view)]) else none)

/-- **The products of a batch** of digit vectors of one shape that fits the setup. -/
theorem batchProducts_eq_ok (hexact : 𝔟.Exact) (hD : D ∈ compressionArms 𝔟.encoding.modulusBits)
    (hviews : ∀ view ∈ views, DigitVector D width view) {out : List (List (List F)) × Option (List (List (List F)))} :
    batchProducts 𝔟 D mode views = .ok out ↔
      views ≠ [] ∧ 0 < width ∧ width < 2 ^ 64 ∧ width ≤ 𝔟.setup.length / D ∧ out = exactProducts 𝔟 D mode views := by
  -- the shape test returns the common width
  have hshape : ∀ w, validateCompressionBatchShape views = .ok w ∧
      validateDigitRowRequest 1 w (𝔟.setup.length / D) = .ok () ↔
      views ≠ [] ∧ 0 < width ∧ width < 2 ^ 64 ∧ width ≤ 𝔟.setup.length / D ∧ w = width := by
    intro w
    rw [validateCompressionBatchShape_eq_ok, validateDigitRowRequest_one]
    constructor
    · rintro ⟨⟨hne, hw, hall⟩, -, hlt, hle⟩
      obtain ⟨view, hview⟩ := exists_mem_of_ne_nil views hne
      obtain rfl : w = width := (hall view hview).symm.trans (hviews view hview).1
      exact ⟨hne, pos_of_ne_zero hw, hlt, hle, rfl⟩
    · rintro ⟨hne, hw, hlt, hle, rfl⟩
      exact ⟨⟨hne, hw.ne', fun view hview => (hviews view hview).1⟩, hw.ne', hlt, hle⟩
  have hfits : 0 < width → width ≤ 𝔟.setup.length / D → 𝔟.matVecMulNttDigitsI8 D width views =
        .ok (views.map fun view => [negacyclicFold D (productCoefficient 𝔟.setup D view)]) ∧
      views.mapM (𝔟.matVecMulNttSingleI8Cyclic D width) =
        .ok (views.map fun view => [cyclicFold D (productCoefficient 𝔟.setup D view)]) := by
    intro hw hle
    have hmul : width * D ≤ 𝔟.setup.length := (Nat.mul_le_mul_right D hle).trans (Nat.div_mul_le_self _ _)
    exact ⟨hexact.negacyclic D hD width views hw hmul hviews,
      mapM_ok_of_forall fun view hview => hexact.cyclic D hD width view hw hmul (hviews view hview)⟩
  cases mode with
  | quotientLift =>
    simp only [batchProducts, compressionRowsProducts, result_ok]
    constructor
    · rintro ⟨products, ⟨w, hw, hreq, negacyclic, hneg, cyclic, hcyc, rfl⟩, rfl⟩
      obtain ⟨hne, hpos, hlt, hle, rfl⟩ := (hshape w).1 ⟨hw, hreq⟩
      obtain ⟨hneg', hcyc'⟩ := hfits hpos hle
      rw [hneg'] at hneg
      rw [hcyc'] at hcyc
      cases hneg
      cases hcyc
      refine ⟨hne, hpos, hlt, hle, ?_⟩
      simp [exactProducts, zipWith_map, zipWith_self]
    · rintro ⟨hne, hpos, hlt, hle, rfl⟩
      obtain ⟨hneg, hcyc⟩ := hfits hpos hle
      obtain ⟨hw, hreq⟩ := (hshape width).2 ⟨hne, hpos, hlt, hle, rfl⟩
      refine ⟨_, ⟨width, hw, hreq, _, hneg, _, hcyc, rfl⟩, ?_⟩
      simp [exactProducts, zipWith_map, zipWith_self]
  | reducedEvaluation =>
    simp only [batchProducts, compressionNegacyclicRows, result_ok]
    constructor
    · rintro ⟨negacyclic, ⟨w, hw, hreq, hneg⟩, rfl⟩
      obtain ⟨hne, hpos, hlt, hle, rfl⟩ := (hshape w).1 ⟨hw, hreq⟩
      rw [(hfits hpos hle).1] at hneg
      cases hneg
      exact ⟨hne, hpos, hlt, hle, by simp [exactProducts]⟩
    · rintro ⟨hne, hpos, hlt, hle, rfl⟩
      obtain ⟨hw, hreq⟩ := (hshape width).2 ⟨hne, hpos, hlt, hle, rfl⟩
      exact ⟨_, ⟨width, hw, hreq, (hfits hpos hle).1⟩, by simp [exactProducts]⟩

/-! ## A batch -/

theorem quotientFromProducts_folds {half : F → F} (hhalf : ∀ x, half (x + x) = x) (h : 𝔟.encoding.half = half) (hD : 0 < D)
    (p : ℕ → F) : quotientFromProducts 𝔟 D [cyclicFold D p] [negacyclicFold D p] = .ok ⟨upperHalf D p, D⟩ := by
  simp only [quotientFromProducts, zip_cons_cons, zip_nil_right, flatMap_cons, flatMap_nil,
    append_nil, h, zipWith_half_folds hhalf]
  simp [ensure, fromCoeffsWithRingDim, ok_run, hD.ne']

/-- **The body of the output loop** advances the chain, given its products. -/
theorem absorb_eq (hhalf : ∀ x, 𝔟.encoding.half (x + x) = x) (hD : 0 < D) (hrank : firstMap.outputRank = 1)
    (houtput : firstMap.outputCoefficients = D) {b : ℕ} (hview : views[b]? = some (packed.rows D)) :
    item.absorb 𝔟 D firstMap (exactProducts 𝔟 D item.relationMode views).1 (exactProducts 𝔟 D item.relationMode views).2
      packed b = .ok (item.advance 𝔟 D packed) := by
  have hneg : (exactProducts 𝔟 D item.relationMode views).1[b]? =
      some [negacyclicFold D (productCoefficient 𝔟.setup D (packed.rows D))] := by
    rw [exactProducts, getElem?_map, hview, Option.map_some]
  have hcyc : (views.map fun view => [cyclicFold D (productCoefficient 𝔟.setup D view)])[b]? =
      some [cyclicFold D (productCoefficient 𝔟.setup D (packed.rows D))] := by
    rw [getElem?_map, hview, Option.map_some]
  have hquot := quotientFromProducts_folds (𝔟 := 𝔟) hhalf rfl hD (productCoefficient 𝔟.setup D (packed.rows D))
  unfold WorkItem.absorb
  rw [hneg]
  by_cases hmode : item.relationMode = .quotientLift
  · simp [exactProducts, hmode, hcyc, hquot, okOr, ensure, ok_run, hrank, houtput, fromRingElems, WorkItem.advance]
  · simp [exactProducts, hmode, okOr, ensure, ok_run, hrank, houtput, fromRingElems, WorkItem.advance]

omit [CommRing F] in
theorem matchesBatch.of_getElem? {i : ℕ} (h : matchesBatch items m mode firstMap i) (hitem : items[i]? = some item) :
    item.relationMode = mode ∧ ∃ map, item.plan.maps.toList[m]? = some map ∧
      map.ringDimension = firstMap.ringDimension ∧ map.inputWidth = firstMap.inputWidth := by
  obtain ⟨other, hother, hmode, map, hmap, -, hdim, hwidth, -⟩ := h
  rw [hitem] at hother
  cases hother
  exact ⟨hmode, map, hmap, hdim, hwidth⟩

theorem mapM_expandRows (hD : 0 < D) {packed : List PackedNegativeBinary} {expanded : List (List (List ℤ))}
    (h : packed.mapM (expandRows D) = .ok expanded) : expanded = packed.map (·.rows D) := by
  rw [← map_of_mapM (g := id) (fun _ _ _ hrows => ((expandRows_eq_ok hD).1 hrows).2) h, map_id]

theorem digitize_eq_ok : item.digitize 𝔟 m = .ok packed ↔ ∃ map, item.plan.maps.toList[m]? = some map ∧
      fromCoefficients 𝔟.encoding map item.coefficients = .ok packed := by
  simp only [WorkItem.digitize, result_ok]

theorem zip_positions {β : Type} {packed : List β} (h : indices.length = packed.length) :
    ((indices.zip packed).zipIdx.flatMap fun entry => [entry.1.1]) = indices := by
  have hmap : (indices.zip packed).zipIdx.map (Prod.fst ∘ Prod.fst) = indices := by
    rw [← map_map, zipIdx_map_fst]
    exact map_fst_zip h.le
  rw [← map_eq_flatMap]
  exact hmap

/-- **A batch is the layer step at every one of its chains**, and touches no other. -/
theorem executeChunk_layerStep (hexact : 𝔟.Exact) (hhalf : ∀ x, 𝔟.encoding.half (x + x) = x)
    (hD : D ∈ compressionArms 𝔟.encoding.modulusBits) {report : CompressionBatchReport} (hnodup : indices.Nodup)
    (h : executeChunk 𝔟 D items indices m = .ok (report, items')) : Updates (fun _ => LayerStep 𝔟 m) indices items items' := by
  have hDpos := compressionArms_pos hD
  simp only [executeChunk, result_ok] at h
  obtain ⟨-, firstItem, -, firstMap, hfirstMap, ⟨hdim, hshape⟩, members, hmembers, _, -, packed, hpacked,
    expanded, hexpanded, _, -, _, -, products, hprods, -, out, hout, _, -, _, -, heq⟩ := h
  obtain rfl := (Prod.mk.inj heq).2
  obtain ⟨hfacts, -, -⟩ := firstItem.checked.map_facts hfirstMap
  -- every chain of the batch has the first one's shape, and its digits stand at its place
  have hmember : ∀ {i : ℕ} {item : WorkItem ι F}, i ∈ indices → items[i]? = some item →
      item.relationMode = firstItem.relationMode ∧ ∃ map, item.plan.maps.toList[m]? = some map ∧
        map.ringDimension = D ∧ map.inputWidth = firstMap.inputWidth := by
    intro i item hi hitem
    obtain ⟨hmode, map, hmap, hdim', hwidth⟩ := (hshape i hi).of_getElem? hitem
    exact ⟨hmode, map, hmap, hdim'.trans hdim, hwidth⟩
  have hplace := forall₂_comp (forall₂_of_mapM hmembers) (forall₂_of_mapM hpacked)
  have hdigs : ∀ {i b : ℕ} {p : PackedNegativeBinary}, indices[b]? = some i → packed[b]? = some p →
      ∃ item : WorkItem ι F, items[i]? = some item ∧ item.digitize 𝔟 m = .ok p := by
    intro i b p hi hp
    obtain ⟨p', hp', item, hitem, hdigit⟩ := forall₂_getElem? hplace hi
    rw [hp] at hp'
    cases hp'
    exact ⟨item, okOr_eq_ok.1 hitem, hdigit⟩
  obtain rfl := mapM_expandRows hDpos hexpanded
  have hviews : ∀ view ∈ packed.map (·.rows D), DigitVector D firstMap.inputWidth view := by
    intro view hview
    obtain ⟨p, hp, rfl⟩ := List.mem_map.1 hview
    obtain ⟨b, hb⟩ := List.getElem?_of_mem hp
    obtain ⟨hlt, -⟩ := List.getElem?_eq_some_iff.1 hb
    have hlt' : b < indices.length := hplace.length_eq ▸ hlt
    have hi : indices[b]? = some indices[b] := List.getElem?_eq_getElem hlt'
    obtain ⟨item, hitem, hdigit⟩ := hdigs hi hb
    obtain ⟨map, hmap, hpack⟩ := digitize_eq_ok.1 hdigit
    obtain ⟨-, map', hmap', -, hwidth⟩ := hmember (List.getElem_mem _) hitem
    rw [hmap] at hmap'
    cases hmap'
    rw [← hwidth, ← (fromCoefficients_facts hpack).1]
    exact rows_digitVector p D
  obtain ⟨-, hpos, -, hfits, rfl⟩ := (batchProducts_eq_ok hexact hD hviews).1 hprods
  -- the loop makes the step at one chain after another
  have hloop := Updates.foldlM (R := fun i a b => items[i]? = some a → LayerStep 𝔟 m a b)
    (fun xs : List (WorkItem ι F) => xs) (fun entry : (ℕ × PackedNegativeBinary) × ℕ => [entry.1.1]) ?_ hout
  · rw [zip_positions hplace.length_eq] at hloop
    exact (hloop hnodup).mono fun i _ a b ha hstep => hstep ha
  · rintro ⟨⟨i, p⟩, b⟩ hentry xs ys hpass -
    simp only [result_ok] at hpass
    obtain ⟨a, ha, a', habsorb, rfl⟩ := hpass
    refine Updates.set ha fun hitem => ?_
    have hzip := List.mem_zipIdx_iff_getElem?.1 hentry
    rw [List.getElem?_zip_eq_some] at hzip
    obtain ⟨a'', ha'', hdigit⟩ := hdigs hzip.1 hzip.2
    rw [hitem] at ha''
    cases ha''
    obtain ⟨map, hmap, hpack⟩ := digitize_eq_ok.1 hdigit
    obtain ⟨hmode, map', hmap', hdim', hwidth⟩ := hmember (List.mem_of_getElem? hzip.1) hitem
    rw [hmap] at hmap'
    cases hmap'
    have hview : (packed.map (·.rows D))[b]? = some (p.rows D) := by rw [List.getElem?_map, hzip.2, Option.map_some]
    rw [← hmode, absorb_eq hhalf hDpos hfacts.rank (hfacts.output.trans hdim) hview] at habsorb
    cases habsorb
    refine ⟨map, p, hmap, hdim'.symm ▸ hD, hpack, (fromCoefficients_facts hpack).1, hwidth ▸ hpos, ?_, ?_⟩
    · rw [hdim', hwidth]
      exact hfits
    · rw [hdim']

/-! ## A stage -/

theorem CompressionChainPlan.Checked.map_of_lt (h : plan.Checked) (hm : m < 2) : ∃ map, plan.maps.toList[m]? = some map := by
  obtain ⟨first, second, hmaps, -⟩ := h.two_maps
  rw [hmaps]
  rcases m with _ | _ | m
  · exact ⟨first, rfl⟩
  · exact ⟨second, rfl⟩
  · omega

omit [CommRing F] in
theorem foldl_groupItem_perm (hm : m < 2) (l : List (WorkItem ι F × ℕ)) (groups : List (BatchKey × List ℕ)) :
    ((l.foldl (groupItem m) groups).flatMap (·.2)).Perm (l.map (·.2) ++ groups.flatMap (·.2)) := by
  induction l generalizing groups with
  | nil => simp
  | cons entry l ih =>
    obtain ⟨map, hmap⟩ := entry.1.checked.map_of_lt hm
    have hpass : groupItem m groups entry = pushEntry (batchKey entry.1.relationMode map) entry.2 groups := by
      rw [groupItem, hmap]
    rw [foldl_cons, map_cons, cons_append]
    refine (ih _).trans ?_
    rw [hpass]
    exact (List.Perm.append_left _ (pushEntry_perm _ _ groups)).trans perm_middle

omit [CommRing F] in
/-- **Every chain is in one batch of a stage, once.** -/
theorem stageBatches_perm (items : List (WorkItem ι F)) (hm : m < 2) :
    ((stageBatches (batchGroups items m)).flatMap (·.2)).Perm (range items.length) := by
  have hflatten : (stageBatches (batchGroups items m)).flatMap (·.2) = (batchGroups items m).flatMap (·.2) := by
    rw [stageBatches, flatMap_assoc]
    congr 1
    funext group
    rw [flatMap_map]
    simp only [flatMap_id']
    exact flatten_chunks (by decide) group.2
  rw [hflatten]
  refine (foldl_groupItem_perm hm items.zipIdx []).trans ?_
  rw [flatMap_nil, append_nil, zipIdx_map_snd, range_eq_range']

/-- **A stage is the layer step at every chain**, in order, however it is grouped and cut. -/
theorem executeStage_layerStep (hexact : 𝔟.Exact) (hhalf : ∀ x, 𝔟.encoding.half (x + x) = x) (hm : m < 2)
    {reports : List CompressionBatchReport} (h : executeStage 𝔟 items m = .ok (reports, items')) :
    Forall₂ (LayerStep 𝔟 m) items items' := by
  have hperm := stageBatches_perm items hm
  have hloop := Updates.foldlM (R := fun _ => LayerStep 𝔟 m)
    (fun state : List CompressionBatchReport × List (WorkItem ι F) => state.2) (fun batch : ℕ × List ℕ => batch.2) ?_ h
  · refine (hloop (hperm.nodup_iff.2 nodup_range)).forall₂ fun i hi => ?_
    exact hperm.mem_iff.2 (mem_range.2 hi)
  · rintro ⟨D, indices⟩ - state state' hpass hnodup
    simp only [result_ok] at hpass
    obtain ⟨hD, ⟨report, items''⟩, hchunk, rfl⟩ := hpass
    exact executeChunk_layerStep hexact hhalf hD hnodup hchunk

/-! ## One chain alone -/

theorem checkedSumBytes_singleton {length fieldBytes total : ℕ} {context : String} :
    checkedSumBytes [length] fieldBytes context = .ok total ↔ length * fieldBytes < 2 ^ 64 ∧ total = length * fieldBytes := by
  simp only [checkedSumBytes, foldlM_cons, foldlM_nil, bind_pure, okOr_eq_ok, option_some, checked_some,
    zero_add, usizeBits]
  constructor
  · rintro ⟨_, ⟨hlt, rfl⟩, -, rfl⟩
    exact ⟨hlt, rfl⟩
  · rintro ⟨hlt, rfl⟩
    exact ⟨_, ⟨hlt, rfl⟩, hlt, rfl⟩

/-- **A batch of one chain** makes the layer step. -/
theorem LayerStep.chunk_alone (hexact : 𝔟.Exact) (hhalf : ∀ x, 𝔟.encoding.half (x + x) = x) (h : LayerStep 𝔟 m item item') :
    ∃ map report, item.plan.maps.toList[m]? = some map ∧ map.ringDimension ∈ compressionArms 𝔟.encoding.modulusBits ∧
      executeChunk 𝔟 map.ringDimension [item] [0] m = .ok (report, [item']) ∧ report.expandedRhsBytes < 2 ^ 32 := by
  obtain ⟨map, packed, hmap, hD, hpack, hpacked, hpos, hfits, rfl⟩ := h
  obtain ⟨hfacts, -, hbytes⟩ := item.checked.map_facts hmap
  obtain ⟨-, hlen, hpackedLength⟩ := fromCoefficients_facts hpack
  have hDpos := compressionArms_pos hD
  have hpad : map.inputWidth * map.ringDimension ≤ 60460 * 128 := Nat.mul_le_mul hfacts.width_le hfacts.dimension_le
  have hpackedSmall : packed.bytes.length < 2 ^ 64 := by
    have hreal := hfacts.real_le
    rw [hpackedLength, CompressionMapPlan.packedDigitBytes]
    omega
  have houtput : map.ringDimension * item.plan.fieldBytes ≤ 128 * 16 :=
    Nat.mul_le_mul hfacts.dimension_le (fieldBytes_le item.plan)
  have hexpand : expandRows map.ringDimension packed = .ok (packed.rows map.ringDimension) :=
    (expandRows_eq_ok hDpos).2 ⟨by rw [hpacked], rfl⟩
  have hview : ∀ view ∈ [packed.rows map.ringDimension], DigitVector map.ringDimension map.inputWidth view := by
    intro view hview
    obtain rfl := mem_singleton.1 hview
    exact hpacked ▸ rows_digitVector packed packed.map.ringDimension
  have hprods : batchProducts 𝔟 map.ringDimension item.relationMode [packed.rows map.ringDimension] =
      .ok (exactProducts 𝔟 map.ringDimension item.relationMode [packed.rows map.ringDimension]) :=
    (batchProducts_eq_ok hexact hD hview).2
      ⟨cons_ne_nil _ _, hpos, hfacts.width_le.trans_lt (by norm_num), hfits, rfl⟩
  have habsorb : item.absorb 𝔟 map.ringDimension map
      (exactProducts 𝔟 map.ringDimension item.relationMode [packed.rows map.ringDimension]).1
      (exactProducts 𝔟 map.ringDimension item.relationMode [packed.rows map.ringDimension]).2 packed 0 =
      .ok (item.advance 𝔟 map.ringDimension packed) :=
    absorb_eq hhalf hDpos hfacts.rank hfacts.output rfl
  have hmatches : matchesBatch [item] m item.relationMode map 0 :=
    ⟨item, rfl, rfl, map, hmap, rfl, rfl, rfl, rfl⟩
  have hdigit : item.digitize 𝔟 m = .ok packed := digitize_eq_ok.2 ⟨map, hmap, hpack⟩
  have hwidth : (packed.rows map.ringDimension).length = map.inputWidth := by rw [packed.rows_length, hpacked]
  have hlens : (exactProducts 𝔟 map.ringDimension item.relationMode [packed.rows map.ringDimension]).1.length = 1 ∧
      ∀ outputs ∈ (exactProducts 𝔟 map.ringDimension item.relationMode [packed.rows map.ringDimension]).2,
        outputs.length = 1 := by
    refine ⟨rfl, fun outputs houts => ?_⟩
    simp only [exactProducts, map_cons, map_nil] at houts
    split at houts
    · cases houts
      rfl
    · simp at houts
  refine ⟨map, ⟨m, item.relationMode, map.ringDimension, map.inputWidth, 1, item.coefficients.length * item.plan.fieldBytes,
    map.ringDimension * item.plan.fieldBytes, packed.bytes.length, map.inputWidth * map.ringDimension⟩, hmap, hD, ?_,
    hpad.trans_lt (by norm_num)⟩
  simp only [executeChunk, result_ok]
  refine ⟨by simp [maxCompressionRhsBatch], item, rfl, map, hmap, ⟨rfl, ?_⟩, [item], rfl, _,
    checkedSumBytes_singleton.2 ⟨?_, rfl⟩, [packed], ?_, [packed.rows map.ringDimension], ?_, packed.bytes.length, ?_, _,
    checkedSumBytes_singleton.2 ⟨?_, rfl⟩, _, hprods, hlens, [item.advance 𝔟 map.ringDimension packed], ?_,
    [item.advance 𝔟 map.ringDimension packed], rfl, _, checkedSumBytes_singleton.2 ⟨?_, rfl⟩, ?_⟩
  · intro index hindex
    obtain rfl := mem_singleton.1 hindex
    exact hmatches
  · have hinput : item.coefficients.length * item.plan.fieldBytes ≤ 8192 := hlen ▸ hbytes
    exact hinput.trans_lt (by norm_num)
  · rw [mapM_cons, hdigit, mapM_nil]
    rfl
  · rw [mapM_cons, hexpand, mapM_nil]
    rfl
  · simp only [foldlM_cons, foldlM_nil, bind_pure, okOr_eq_ok, checkedAdd_eq_some, zero_add, usizeBits]
    exact ⟨hpackedSmall, trivial⟩
  · have hcells : (packed.rows map.ringDimension).length * map.ringDimension ≤ 60460 * 128 := hwidth ▸ hpad
    exact hcells.trans_lt (by norm_num)
  · simp [zipIdx_cons, okOr, habsorb, ok_run]
  · have himage : (item.advance 𝔟 map.ringDimension packed).coefficients.length * item.plan.fieldBytes ≤ 128 * 16 := by
      rw [WorkItem.advance, negacyclicFold_length]
      exact houtput
    exact himage.trans_lt (by norm_num)
  · simp [WorkItem.advance, hwidth]

omit [CommRing F] in
theorem stageBatches_singleton (hmap : item.plan.maps.toList[m]? = some map) :
    stageBatches (batchGroups [item] m) = [(map.ringDimension, [0])] := by
  have hgroups : batchGroups [item] m = [(batchKey item.relationMode map, [0])] := by
    simp [batchGroups, zipIdx_cons, groupItem, hmap, pushEntry, updateEntry]
  rw [hgroups, stageBatches, flatMap_cons, chunks_singleton (by decide)]
  rfl

/-- **A stage on one chain alone** makes the layer step. -/
theorem LayerStep.stage_alone (hexact : 𝔟.Exact) (hhalf : ∀ x, 𝔟.encoding.half (x + x) = x) (h : LayerStep 𝔟 m item item') :
    ∃ report, executeStage 𝔟 [item] m = .ok ([report], [item']) ∧ report.expandedRhsBytes < 2 ^ 32 := by
  obtain ⟨map, report, hmap, hD, hchunk, hbytes⟩ := h.chunk_alone hexact hhalf
  refine ⟨report, ?_, hbytes⟩
  simp only [executeStage, stageBatches_singleton hmap, foldlM_cons, foldlM_nil, bind_pure, result_ok]
  exact ⟨hD, _, hchunk, rfl⟩

end Akita.Compression
