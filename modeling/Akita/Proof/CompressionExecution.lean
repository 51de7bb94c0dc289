import Akita.Proof.CompressionBatch

/-!
# Compression chains, each by itself

* `executeCompressionChains_chainRun`: in a run on any list of inputs every chain goes through its own two layer
  steps and is finished by itself.
* `ChainRun.alone`: such a chain is what the executor makes of the input alone.
* `ChainRun.exact`: its digits pack their images, its images are products modulo `X^d + 1`, and its quotients
  make the products exact.
* `executeCompressionChains_exact`: the three together.
-/

namespace Akita.Compression

open Lib Polynomial List WorkItem
open Schedule (RingRelationMode SisModulusProfileId)
open Commitment (RingVec)

variable {ι F : Type} [CommRing F] {𝔟 : CompressionBackend F} {m : ℕ} {item item' : WorkItem ι F}
  {report : CompressionExecutionReport} {state state' : List (CompressionExecutionOutput ι F) × CompressionExecutionReport}
  {input : CompressionExecutionInput ι F} {output : CompressionExecutionOutput ι F} {map : CompressionMapPlan} {modulus : ℕ}

/-! ## Layers -/

theorem executeLayer_layerStep (hexact : 𝔟.Exact) (hhalf : ∀ x, 𝔟.encoding.half (x + x) = x) (hm : m < 2)
    {state state' : List (WorkItem ι F) × CompressionExecutionReport} (h : executeLayer 𝔟 state m = .ok state') :
    Forall₂ (LayerStep 𝔟 m) state.1 state'.1 := by
  simp only [executeLayer, result_ok] at h
  obtain ⟨_, -, ⟨batches, items⟩, hstage, rfl⟩ := h
  exact executeStage_layerStep hexact hhalf hm hstage

/-- A report whose maxima are far from overflow and whose totals are not begun. -/
structure CompressionExecutionReport.Fresh (report : CompressionExecutionReport) : Prop where
  expanded : report.maxExpandedRhsBytes < 2 ^ 32
  image : report.maxCurrentImageBytes < 2 ^ 32
  retained : report.retainedPackedWitnessBytes = 0
  equivalent : report.equivalentI8WitnessBytes = 0
  terminal : report.terminalBytes = 0
  quotients : report.quotientRows = 0

omit [CommRing F] in
theorem totalBytes_singleton {overflow : String} (h : item.coefficients.length * item.plan.fieldBytes < 2 ^ 64) :
    totalBytes [item] overflow = .ok (item.coefficients.length * item.plan.fieldBytes) := by
  simp only [totalBytes, foldlM_cons, foldlM_nil, bind_pure, okOr_eq_ok, option_some, checked_some, zero_add, usizeBits]
  exact ⟨_, ⟨h, rfl⟩, h, rfl⟩

theorem LayerStep.source_le (h : LayerStep 𝔟 m item item') : item.coefficients.length * item.plan.fieldBytes ≤ 8192 := by
  obtain ⟨map, packed, hmap, -, hpack, -⟩ := h
  rw [(fromCoefficients_facts hpack).2.1]
  exact (item.checked.map_facts hmap).2.2

theorem LayerStep.layer_alone (hexact : 𝔟.Exact) (hhalf : ∀ x, 𝔟.encoding.half (x + x) = x) (h : LayerStep 𝔟 m item item')
    (hfresh : report.Fresh) : ∃ report', executeLayer 𝔟 ([item], report) m = .ok ([item'], report') ∧ report'.Fresh := by
  obtain ⟨batch, hstage, hbatch⟩ := h.stage_alone hexact hhalf
  have hsource := h.source_le
  have hrun : executeLayer 𝔟 ([item], report) m = .ok ([item'], [batch].foldl CompressionExecutionReport.push
      { report with
        maxCurrentImageBytes := max report.maxCurrentImageBytes (item.coefficients.length * item.plan.fieldBytes) }) := by
    simp only [executeLayer, result_ok]
    exact ⟨_, totalBytes_singleton (hsource.trans_lt (by norm_num)), _, hstage, rfl⟩
  exact ⟨_, hrun, max_lt hfresh.expanded hbatch, max_lt hfresh.image (hsource.trans_lt (by norm_num)), hfresh.retained,
    hfresh.equivalent, hfresh.terminal, hfresh.quotients⟩

/-! ## Finishing -/

/-- What the output loop makes of a chain, alone. -/
def Finishes (𝔟 : CompressionBackend F) (item : WorkItem ι F) (output : CompressionExecutionOutput ι F) : Prop :=
  ∀ report : CompressionExecutionReport, report.Fresh → ∃ report', finishItem 𝔟 ([], report) item = .ok ([output], report')

theorem checkedAdd_zero {total n c : ℕ} (h : checkedAdd usizeBits total n = some c) : checkedAdd usizeBits 0 n = some n := by
  rw [checkedAdd_eq_some] at h ⊢
  omega

omit [CommRing F] in
theorem relationOutput_alone {rows rows' : ℕ} {relation : CompressionRelationOutput F}
    (h : item.relationOutput rows = .ok (relation, rows')) : ∃ rows, item.relationOutput 0 = .ok (relation, rows) := by
  unfold relationOutput at h ⊢
  cases hmode : item.relationMode with
  | quotientLift =>
    simp only [hmode, result_ok, Prod.mk.injEq] at h ⊢
    obtain ⟨_, hrows, rfl, -⟩ := h
    exact ⟨_, _, checkedAdd_zero hrows, rfl, rfl⟩
  | reducedEvaluation =>
    simp only [hmode, result_ok, Prod.mk.injEq] at h ⊢
    obtain ⟨hempty, rfl, -⟩ := h
    exact ⟨_, hempty, rfl, rfl⟩

theorem finishItem_finishes (h : finishItem 𝔟 state item = .ok state') :
    ∃ output, state'.1 = state.1 ++ [output] ∧ Finishes 𝔟 item output := by
  simp only [finishItem, result_ok] at h
  obtain ⟨witness, hwit, retained, hretained, _, hretained', unpacked, hunpacked, _, hunpacked', terminal, hterm,
    length, hlen, _, hlen', ⟨relation, _⟩, hrel, rfl⟩ := h
  obtain ⟨rows, hrel⟩ := relationOutput_alone hrel
  refine ⟨_, rfl, fun report hfresh => ?_⟩
  simp only [finishItem, result_ok, hfresh.retained, hfresh.equivalent, hfresh.terminal, hfresh.quotients]
  exact ⟨_, witness, hwit, retained, hretained, _, checkedAdd_zero hretained', unpacked, hunpacked, _,
    checkedAdd_zero hunpacked', terminal, hterm, length, hlen, _, checkedAdd_zero hlen', _, hrel, rfl⟩

theorem foldlM_finishItem {items : List (WorkItem ι F)} (h : items.foldlM (finishItem 𝔟) state = .ok state') :
    ∃ outputs, state'.1 = state.1 ++ outputs ∧ Forall₂ (Finishes 𝔟) items outputs := by
  induction items generalizing state with
  | nil =>
    obtain rfl : state = state' := by simpa [pure, Except.pure] using h
    exact ⟨[], by simp, List.Forall₂.nil⟩
  | cons item items ih =>
    rw [foldlM_cons, bind_eq_ok] at h
    obtain ⟨next, hnext, h⟩ := h
    obtain ⟨output, hout, hfinishes⟩ := finishItem_finishes hnext
    obtain ⟨outputs, houts, hall⟩ := ih h
    exact ⟨output :: outputs, by rw [houts, hout, append_assoc, singleton_append], List.Forall₂.cons hfinishes hall⟩

/-! ## Runs -/

/-- **The run of one chain**: admitted, through both layers and finished, all by itself. -/
def ChainRun (𝔟 : CompressionBackend F) (input : CompressionExecutionInput ι F)
    (output : CompressionExecutionOutput ι F) : Prop :=
  ∃ first, (∃ middle, (∃ last, admitInput 𝔟 input = .ok last ∧ LayerStep 𝔟 0 last middle) ∧ LayerStep 𝔟 1 middle first) ∧
    Finishes 𝔟 first output

omit [CommRing F] in
/-- The executor makes as many passes as a chain has maps. -/
theorem foldl_maxMaps (items : List (WorkItem ι F)) (hitems : items ≠ []) :
    (items.map (·.plan.maps.toList.length)).foldl max 0 = 2 := by
  have hlen : items.map (·.plan.maps.toList.length) = replicate items.length 2 := by
    refine eq_replicate_iff.2 ⟨by simp, fun n hn => ?_⟩
    obtain ⟨item, -, rfl⟩ := mem_map.1 hn
    exact Vector.length_toList
  rw [hlen]
  obtain ⟨n, hn⟩ := Nat.exists_eq_succ_of_ne_zero (length_pos_iff.2 hitems).ne'
  rw [hn]
  clear hn hlen
  induction n with
  | zero => rfl
  | succ n ih => rw [replicate_succ', foldl_append, ih]; rfl

/-- **In a run every chain goes through its own steps**, and the outputs stand in the order of the inputs. -/
theorem executeCompressionChains_chainRun (hexact : 𝔟.Exact) (hhalf : ∀ x, 𝔟.encoding.half (x + x) = x)
    {inputs : List (CompressionExecutionInput ι F)} {outputs : List (CompressionExecutionOutput ι F)}
    (h : executeCompressionChains 𝔟 inputs = .ok (outputs, report)) : Forall₂ (ChainRun 𝔟) inputs outputs := by
  simp only [executeCompressionChains, result_ok] at h
  obtain ⟨items, hadmit, _, -, _, -, ⟨items', report'⟩, hlayers, _, -, h⟩ := h
  have hadmit := forall₂_of_mapM hadmit
  obtain ⟨_, hout, hfinish⟩ := foldlM_finishItem h
  rw [nil_append] at hout
  obtain rfl := hout
  by_cases hitems : items = []
  · -- no input: no layer and no output
    subst hitems
    obtain rfl : items' = [] := by
      simp only [map_nil, foldl_nil, range_zero, foldlM_nil, pure_eq_ok, Prod.mk.injEq] at hlayers
      exact hlayers.1.symm
    cases hfinish
    cases hadmit
    exact List.Forall₂.nil
  · rw [foldl_maxMaps items hitems] at hlayers
    simp only [range_succ, range_zero, nil_append, cons_append, foldlM_cons, foldlM_nil,
      bind_pure, bind_eq_ok] at hlayers
    obtain ⟨middle, hfirst, hsecond⟩ := hlayers
    exact forall₂_comp (forall₂_comp (forall₂_comp hadmit (executeLayer_layerStep hexact hhalf (by norm_num) hfirst))
      (executeLayer_layerStep hexact hhalf (by norm_num) hsecond)) hfinish

/-- **The executor on one input alone** makes the run of its chain. -/
theorem ChainRun.alone (hexact : 𝔟.Exact) (hhalf : ∀ x, 𝔟.encoding.half (x + x) = x) (h : ChainRun 𝔟 input output) :
    ∃ report, executeCompressionChains 𝔟 [input] = .ok ([output], report) := by
  obtain ⟨last, ⟨middle, ⟨first, hadmit, hfirst⟩, hsecond⟩, hfinishes⟩ := h
  have hsource : first.coefficients.length * first.plan.fieldBytes < 2 ^ 64 := hfirst.source_le.trans_lt (by norm_num)
  have hinit : CompressionExecutionReport.Fresh
      { sources := 1, maps := 2, sourceBytes := first.coefficients.length * first.plan.fieldBytes } :=
    ⟨by norm_num, by norm_num, rfl, rfl, rfl, rfl⟩
  obtain ⟨report₁, hlayer₁, hfresh₁⟩ := hfirst.layer_alone hexact hhalf hinit
  obtain ⟨report₂, hlayer₂, hfresh₂⟩ := hsecond.layer_alone hexact hhalf hfresh₁
  have hpeak : report₂.maxExpandedRhsBytes + report₂.maxCurrentImageBytes < 2 ^ 64 :=
    (Nat.add_lt_add hfresh₂.expanded hfresh₂.image).trans_le (by norm_num)
  have hfresh₃ : CompressionExecutionReport.Fresh { report₂ with
      executorPeakScratchBytes := report₂.maxExpandedRhsBytes + report₂.maxCurrentImageBytes } :=
    ⟨hfresh₂.expanded, hfresh₂.image, hfresh₂.retained, hfresh₂.equivalent, hfresh₂.terminal, hfresh₂.quotients⟩
  obtain ⟨report₄, hfinish⟩ := hfinishes _ hfresh₃
  refine ⟨report₄, ?_⟩
  have hmaps : first.plan.maps.toList.length = 2 := Vector.length_toList
  simp only [executeCompressionChains, result_ok]
  refine ⟨[first], ?_, _, totalBytes_singleton hsource, 2, ?_, ([last], report₂), ?_, _,
    checkedAdd_eq_some.2 ⟨hpeak, rfl⟩, ?_⟩
  · rw [mapM_cons, hadmit, mapM_nil]
    rfl
  · simp only [foldlM_cons, foldlM_nil, bind_pure, hmaps, okOr_eq_ok]
    exact checkedAdd_eq_some.2 ⟨by norm_num [usizeBits], rfl⟩
  · rw [foldl_maxMaps [first] (cons_ne_nil _ _)]
    simp only [range_succ, range_zero, nil_append, cons_append, foldlM_cons, foldlM_nil, bind_pure, bind_eq_ok]
    exact ⟨_, hlayer₁, hlayer₂⟩
  · rw [foldlM_cons, hfinish]
    rfl

/-! ## Exactness -/

/-- The product of the setup row and the digits of one map, as a polynomial without reduction. -/
noncomputable def mapProduct (setup : List F) (packed : PackedNegativeBinary) : F[X] :=
  ∑ c ∈ Finset.range packed.map.inputWidth, ofCoeffs (setupRing setup packed.map.ringDimension c) *
    ofCoeffs ((List.range packed.map.ringDimension).map fun k => (packed.digit (c * packed.map.ringDimension + k) : F))

theorem coeff_mapProduct (setup : List F) (packed : PackedNegativeBinary) (n : ℕ) : (mapProduct setup packed).coeff n =
      productCoefficient setup packed.map.ringDimension (packed.rows packed.map.ringDimension) n := by
  rw [mapProduct, finsetSum_coeff, productCoefficient, packed.rows_length]
  refine Finset.sum_congr rfl fun c hc => ?_
  have hrow : (packed.rows packed.map.ringDimension).getD c [] =
      (range packed.map.ringDimension).map fun k => packed.digit (c * packed.map.ringDimension + k) := by
    rw [PackedNegativeBinary.rows, getD_eq_getElem?_getD, getElem?_map,
      getElem?_range (Finset.mem_range.1 hc), Option.map_some, Option.getD_some]
  rw [coeff_mul_ofCoeffs (d := packed.map.ringDimension) (by simp [setupRing]) (by simp), hrow, map_map]
  rfl

theorem mapProduct_vanishes (setup : List F) (packed : PackedNegativeBinary) (n : ℕ)
    (hn : 2 * packed.map.ringDimension ≤ n) : (mapProduct setup packed).coeff n = 0 := by
  rw [coeff_mapProduct, productCoefficient]
  refine Finset.sum_eq_zero fun c _ => Finset.sum_eq_zero fun i hi => ?_
  have hi := Finset.mem_range.1 hi
  rw [if_neg (by omega)]

/-- What holds of one map of an executed chain: its digits pack the image before it, and the image after it is the
product modulo `X^d + 1`. -/
structure MapExact (setup : List F) (packed : PackedNegativeBinary) (before after : List F) : Prop where
  packs : packed.Packs packed.map.modulusProfile.modulus before
  recomposes : ∀ j (hj : j < before.length), ∑ b ∈ Finset.range packed.map.modulusProfile.fieldBits,
    2 ^ b * (packed.digit (b * before.length + j) : F) = before[j]
  length : after.length = packed.map.ringDimension
  image : ofCoeffs after = mapProduct setup packed %ₘ (X ^ packed.map.ringDimension + 1)

/-- A quotient of one map: the product is exact without reduction. -/
structure QuotientExact (setup : List F) (packed : PackedNegativeBinary) (after : List F) (quotient : RingVec F) : Prop where
  ringDim : quotient.ringDim = packed.map.ringDimension
  length : quotient.coeffs.length = packed.map.ringDimension
  lift : mapProduct setup packed = ofCoeffs after + (X ^ packed.map.ringDimension + 1) * ofCoeffs quotient.coeffs

/-- **What a chain's output promises of its input**: two digit vectors, one for each map, with the image between. -/
structure ChainExact (setup : List F) (input : CompressionExecutionInput ι F) (output : CompressionExecutionOutput ι F) :
    Prop where
  id : output.id = input.id
  witness_plan : output.witness.plan = input.plan
  terminal_plan : output.terminal.plan = input.plan
  maps : output.witness.stages.map (·.map) = input.plan.maps.toList
  images : ∃ first second image, output.witness.stages = [first, second] ∧
    MapExact setup first input.coefficients image ∧ MapExact setup second image output.terminal.coefficients ∧
    (input.relationMode = .quotientLift → ∃ q q', output.relation = .quotientLift [q, q'] ∧
      QuotientExact setup first image q ∧ QuotientExact setup second output.terminal.coefficients q') ∧
    (input.relationMode = .reducedEvaluation → output.relation = .reducedEvaluation)

theorem LayerStep.exact (hlaw : 𝔟.encoding.Lawful) (h : LayerStep 𝔟 m item item') : ∃ packed quotient,
    MapExact 𝔟.setup packed item.coefficients item'.coefficients ∧
      QuotientExact 𝔟.setup packed item'.coefficients quotient ∧ item'.id = item.id ∧ item'.plan = item.plan ∧ item'.relationMode = item.relationMode ∧
      item'.stages = item.stages ++ [packed] ∧
      item'.quotients = item.quotients ++ if item.relationMode = .quotientLift then [quotient] else [] := by
  obtain ⟨map, packed, hmap, hD, hpack, rfl, -, -, rfl⟩ := h
  obtain ⟨hfacts, -, -⟩ := item.checked.map_facts hmap
  obtain ⟨-, modulus, -, hmod, hpacks⟩ := PackedNegativeBinary.fromCoefficients_packs hlaw hpack
  have hcoeff : productCoefficient 𝔟.setup packed.map.ringDimension (packed.rows packed.map.ringDimension) =
      (mapProduct 𝔟.setup packed).coeff := funext fun n => (coeff_mapProduct 𝔟.setup packed n).symm
  have hvanish := mapProduct_vanishes 𝔟.setup packed
  refine ⟨packed, ⟨upperHalf packed.map.ringDimension (mapProduct 𝔟.setup packed).coeff, packed.map.ringDimension⟩,
    ⟨hmod ▸ hpacks, ?_, by simp [advance], ?_⟩, ⟨rfl, by simp, ?_⟩, rfl, rfl, rfl, rfl, ?_⟩
  · intro j hj
    exact hpacks.recompose hmod (hpacks.length ▸ hfacts.real) hj
  · rw [advance, hcoeff]
    exact negacyclicFold_eq_mod hfacts.dimension_pos hvanish
  · rw [advance, hcoeff]
    exact eq_negacyclicFold_add hvanish
  · rw [advance, hcoeff]

theorem Finishes.output_eq (h : Finishes 𝔟 item output) :
    output.id = item.id ∧ output.witness = ⟨item.plan, item.stages⟩ ∧ output.terminal = ⟨item.plan, item.coefficients⟩ ∧
      item.stages.map (·.map) = item.plan.maps.toList ∧
      (item.relationMode = .quotientLift → output.relation = .quotientLift item.quotients) ∧
      (item.relationMode = .reducedEvaluation → output.relation = .reducedEvaluation) := by
  obtain ⟨_, h⟩ := h { sources := 0, maps := 0, sourceBytes := 0 } ⟨by norm_num, by norm_num, rfl, rfl, rfl, rfl⟩
  simp only [finishItem, CompressionChainWitness.new, CompressionTerminalPayload.new, result_ok, nil_append,
    Prod.mk.injEq, List.cons.injEq, and_true] at h
  obtain ⟨witness, ⟨hstages, rfl⟩, _, -, _, -, _, -, _, -, terminal, ⟨_, -, -, -, rfl⟩, _, -, _, -, ⟨relation, _⟩,
    hrel, rfl, -⟩ := h
  refine ⟨rfl, rfl, rfl, ?_, fun hmode => ?_, fun hmode => ?_⟩
  · rw [not_or, not_not] at hstages
    refine ext_getElem (by rw [length_map, hstages.1]) fun i hi hi' => ?_
    rw [getElem_map]
    by_contra hne
    have hlt : i < (item.stages.zip item.plan.maps.toList).length := by
      rw [length_map] at hi
      rw [length_zip]
      omega
    refine hstages.2 (any_eq_true.2 ⟨_, getElem_mem hlt, ?_⟩)
    rw [getElem_zip]
    exact decide_eq_true hne
  · simp only [relationOutput, hmode, result_ok, Prod.mk.injEq] at hrel
    obtain ⟨_, -, rfl, -⟩ := hrel
    rfl
  · simp only [relationOutput, hmode, bind_eq_ok, pure_eq_ok, Prod.mk.injEq] at hrel
    obtain ⟨_, -, rfl, -⟩ := hrel
    rfl

/-- **The run of a chain is exact.** -/
theorem ChainRun.exact (hlaw : 𝔟.encoding.Lawful) (h : ChainRun 𝔟 input output) : ChainExact 𝔟.setup input output := by
  obtain ⟨last, ⟨middle, ⟨first, hadmit, hfirst⟩, hsecond⟩, hfinishes⟩ := h
  simp only [admitInput, result_ok] at hadmit
  obtain ⟨_, -, -, -, rfl⟩ := hadmit
  obtain ⟨packed, quotient, hmap, hquot, hid, hplan, hmode, hstages, hquots⟩ := hfirst.exact hlaw
  obtain ⟨packed', quotient', hmap', hquot', hid', hplan', hmode', hstages', hquots'⟩ := hsecond.exact hlaw
  obtain ⟨houtId, hwit, hterm, hmaps, hlift, hreduced⟩ := hfinishes.output_eq
  rw [hmode', hmode] at hlift hreduced
  rw [hmode, hquots] at hquots'
  refine ⟨houtId.trans (hid'.trans hid), ?_, ?_, ?_, packed, packed', middle.coefficients, ?_, hmap, ?_, fun hlifts => ?_,
    hreduced⟩
  · rw [hwit, hplan', hplan]
  · rw [hterm, hplan', hplan]
  · rw [hwit, hmaps, hplan', hplan]
  · rw [hwit, hstages', hstages]
    rfl
  · rw [hterm]
    exact hmap'
  · refine ⟨quotient, quotient', ?_, hquot, ?_⟩
    · rw [hlift hlifts, hquots', if_pos hlifts, if_pos hlifts]
      rfl
    · rw [hterm]
      exact hquot'

/-- **Compression chains are executed exactly and independently of batching.** In every run the outputs stand in the
order of the inputs, each output is exact for its input, and each input executed alone gives the same output. -/
theorem executeCompressionChains_exact (hexact : 𝔟.Exact) (hlaw : 𝔟.encoding.Lawful)
    {inputs : List (CompressionExecutionInput ι F)} {outputs : List (CompressionExecutionOutput ι F)}
    {report : CompressionExecutionReport} (h : executeCompressionChains 𝔟 inputs = .ok (outputs, report)) :
    List.Forall₂ (fun input output => ChainExact 𝔟.setup input output ∧
      ∃ report, executeCompressionChains 𝔟 [input] = .ok ([output], report)) inputs outputs :=
  (executeCompressionChains_chainRun hexact hlaw.half h).imp fun _ _ hrun => ⟨hrun.exact hlaw, hrun.alone hexact hlaw.half⟩

/-! ## Progress -/

theorem packedBytes_lt (hfacts : map.Facts) : map.realDigitCount < 2 ^ 32 ∧ map.packedDigitBytes < 2 ^ 32 := by
  have hpad : map.inputWidth * map.ringDimension ≤ 60460 * 128 := Nat.mul_le_mul hfacts.width_le hfacts.dimension_le
  have hreal := hfacts.real_le
  rw [CompressionMapPlan.packedDigitBytes]
  omega

theorem layerStep_runs (hlaw : 𝔟.encoding.Lawful) (hmod : fieldModulus 𝔟.encoding = .ok modulus)
    (hcanon : ∀ x, ∃ n ≤ modulus, 𝔟.encoding.toU128Checked x = some n) (hprof : item.plan.modulusProfile.modulus = modulus)
    (hmap : item.plan.maps.toList[m]? = some map) (hD : map.ringDimension ∈ compressionArms 𝔟.encoding.modulusBits)
    (hfits : map.inputWidth ≤ 𝔟.setup.length / map.ringDimension) (hlen : item.coefficients.length = map.inputCoefficients) :
    ∃ packed, packed.map = map ∧ packed.bytes.length = map.packedDigitBytes ∧
      LayerStep 𝔟 m item (item.advance 𝔟 map.ringDimension packed) := by
  obtain ⟨hfacts, hmapProfile, -⟩ := item.checked.map_facts hmap
  obtain ⟨packed, hpack⟩ := PackedNegativeBinary.fromCoefficients_runs hlaw hmod (hmapProfile ▸ hprof) hcanon
    hfacts.real ((packedBytes_lt hfacts).1.trans (by norm_num)) hlen
  obtain ⟨hpacked, -, hbytes⟩ := fromCoefficients_facts hpack
  exact ⟨packed, hpacked, hbytes, map, packed, hmap, hD, hpack, hpacked, hfacts.width_pos, hfits, rfl⟩

theorem finishes_of_stages (hmod : fieldModulus 𝔟.encoding = .ok modulus)
    (hprof : item.plan.modulusProfile.modulus = modulus) {first second : PackedNegativeBinary}
    (hstages : item.stages = [first, second]) (hmaps : item.plan.maps.toList = [first.map, second.map])
    (hbytes : first.bytes.length < 2 ^ 32 ∧ second.bytes.length < 2 ^ 32)
    (hreal : first.map.realDigitCount < 2 ^ 32 ∧ second.map.realDigitCount < 2 ^ 32)
    (hterm : item.coefficients.length = item.plan.terminalCoefficients) (hshort : item.coefficients.length ≤ 128)
    (hquots : item.quotients.length ≤ 2) (hreduced : item.relationMode = .reducedEvaluation → item.quotients = []) :
    ∃ output, Finishes 𝔟 item output := by
  have hwit : CompressionChainWitness.new item.plan item.stages = .ok ⟨item.plan, item.stages⟩ := by
    simp only [CompressionChainWitness.new, result_ok, hmaps, hstages]
    exact ⟨by simp, trivial⟩
  have hretained : (⟨item.plan, item.stages⟩ : CompressionChainWitness).retainedBytes =
      .ok (first.bytes.length + second.bytes.length) := by
    simp only [CompressionChainWitness.retainedBytes, hstages, foldlM_cons, foldlM_nil, bind_pure,
      result_ok, checked_some, zero_add, usizeBits]
    exact ⟨_, ⟨by omega, rfl⟩, by omega, rfl⟩
  have hunpacked : item.plan.unpackedWitnessBytes = .ok (first.map.realDigitCount + second.map.realDigitCount) := by
    simp only [CompressionChainPlan.unpackedWitnessBytes, hmaps, foldlM_cons, foldlM_nil, bind_pure,
      result_ok, checked_some, zero_add, usizeBits]
    exact ⟨_, ⟨by omega, rfl⟩, by omega, rfl⟩
  have hpay : CompressionTerminalPayload.new 𝔟.encoding item.plan item.coefficients =
      .ok ⟨item.plan, item.coefficients⟩ := by
    simp only [CompressionTerminalPayload.new, result_ok]
    exact ⟨modulus, hmod, hprof, hterm, trivial⟩
  have hpayloadBytes : item.coefficients.length * item.plan.fieldBytes ≤ 128 * 16 :=
    Nat.mul_le_mul hshort (fieldBytes_le item.plan)
  obtain ⟨relation, rows, hrel⟩ : ∃ relation rows, item.relationOutput 0 = .ok (relation, rows) := by
    unfold relationOutput
    cases hmode : item.relationMode with
    | quotientLift =>
      simp only [result_ok, Prod.mk.injEq, checked_some, zero_add, usizeBits]
      exact ⟨_, _, _, ⟨by omega, rfl⟩, rfl, rfl⟩
    | reducedEvaluation =>
      simp only [result_ok, Prod.mk.injEq]
      exact ⟨_, _, by rw [hreduced hmode]; rfl, rfl, rfl⟩
  refine ⟨⟨item.id, ⟨item.plan, item.stages⟩, ⟨item.plan, item.coefficients⟩, relation⟩, fun report hfresh => ?_⟩
  simp only [finishItem, result_ok, hfresh.retained, hfresh.equivalent, hfresh.terminal, hfresh.quotients,
    checked_some, Nat.zero_add, usizeBits]
  exact ⟨_, _, hwit, _, hretained, _, ⟨by omega, rfl⟩, _, hunpacked, _, ⟨by omega, rfl⟩, _, hpay, _,
    ⟨hpayloadBytes.trans_lt (by norm_num), rfl⟩, _, ⟨hpayloadBytes.trans_lt (by norm_num), rfl⟩, _, hrel, rfl⟩

/-- **The executor runs on every input by itself**: the field matches the plan, the source has the plan's length and the
setup holds the rows of both maps. -/
theorem executeCompressionChains_runs (hexact : 𝔟.Exact) (hlaw : 𝔟.encoding.Lawful)
    (hmod : fieldModulus 𝔟.encoding = .ok modulus) (hcanon : ∀ x, ∃ n ≤ modulus, 𝔟.encoding.toU128Checked x = some n)
    (hprof : input.plan.modulusProfile.modulus = modulus) (hlen : input.coefficients.length = input.plan.sourceCoefficients)
    (hmaps : ∀ map ∈ input.plan.maps.toList, map.ringDimension ∈ compressionArms 𝔟.encoding.modulusBits ∧
      map.inputWidth ≤ 𝔟.setup.length / map.ringDimension) :
    ∃ output report, executeCompressionChains 𝔟 [input] = .ok ([output], report) := by
  obtain ⟨first, second, htwo, hfirst, hsecond, -, -, hinput, hinput', -⟩ := input.checked.two_maps
  have hterm : input.plan.terminalCoefficients = second.outputCoefficients := by
    rw [CompressionChainPlan.terminalCoefficients, htwo]
    rfl
  obtain ⟨hD, hfits⟩ := hmaps first (by simp [htwo])
  obtain ⟨hD', hfits'⟩ := hmaps second (by simp [htwo])
  obtain ⟨start, hadmit, hplan, hsource, hstages, hquots⟩ : ∃ start : WorkItem ι F, admitInput 𝔟 input = .ok start ∧
      start.plan = input.plan ∧ start.coefficients = input.coefficients ∧ start.stages = [] ∧ start.quotients = [] := by
    refine ⟨⟨input.id, input.plan, input.checked, input.coefficients, input.relationMode, [], []⟩, ?_, rfl, rfl, rfl, rfl⟩
    simp only [admitInput, result_ok]
    exact ⟨modulus, hmod, hprof, hlen, trivial⟩
  -- the two layers
  have hmap : start.plan.maps.toList[0]? = some first := by rw [hplan, htwo]; rfl
  obtain ⟨packed, hpacked, hbytes, hlayer⟩ := layerStep_runs hlaw hmod hcanon (hplan ▸ hprof) hmap hD hfits
    (by rw [hsource, hlen, hinput])
  obtain ⟨middle, hmiddle⟩ : ∃ middle, middle = start.advance 𝔟 first.ringDimension packed := ⟨_, rfl⟩
  rw [← hmiddle] at hlayer
  have hmap' : middle.plan.maps.toList[1]? = some second := by rw [hmiddle, advance, hplan, htwo]; rfl
  obtain ⟨packed', hpacked', hbytes', hlayer'⟩ := layerStep_runs hlaw hmod hcanon
    (by rw [hmiddle, advance, hplan, hprof]) hmap' hD' hfits'
    (by rw [hmiddle, advance, negacyclicFold_length, hinput', hfirst.output])
  obtain ⟨last, hlast⟩ : ∃ last, last = middle.advance 𝔟 second.ringDimension packed' := ⟨_, rfl⟩
  rw [← hlast] at hlayer'
  obtain ⟨output, hfinishes⟩ : ∃ output, Finishes 𝔟 last output := by
    have hlastPlan : last.plan = input.plan := by rw [hlast, hmiddle, advance, advance, hplan]
    have hlastStages : last.stages = [packed, packed'] := by
      rw [hlast, hmiddle, advance, advance, hstages]
      rfl
    have hlastLength : last.coefficients.length = second.ringDimension := by
      rw [hlast, advance, negacyclicFold_length]
    have hlastQuotients : last.quotients = (if start.relationMode = .quotientLift then
          [⟨upperHalf first.ringDimension (productCoefficient 𝔟.setup first.ringDimension (packed.rows first.ringDimension)),
            first.ringDimension⟩] else []) ++
        if start.relationMode = .quotientLift then
          [⟨upperHalf second.ringDimension (productCoefficient 𝔟.setup second.ringDimension (packed'.rows second.ringDimension)),
            second.ringDimension⟩] else [] := by
      rw [hlast, hmiddle, advance, advance, hquots]
      rfl
    refine finishes_of_stages hmod (hlastPlan ▸ hprof) hlastStages ?_ ?_ ?_ ?_ ?_ ?_ ?_
    · rw [hlastPlan, htwo, hpacked, hpacked']
    · rw [hbytes, hbytes']
      exact ⟨(packedBytes_lt hfirst).2, (packedBytes_lt hsecond).2⟩
    · rw [hpacked, hpacked']
      exact ⟨(packedBytes_lt hfirst).1, (packedBytes_lt hsecond).1⟩
    · rw [hlastLength, hlastPlan, hterm, hsecond.output]
    · rw [hlastLength]
      exact hsecond.dimension_le
    · rw [hlastQuotients]
      split <;> simp
    · intro hmode
      have hmode : start.relationMode = .reducedEvaluation := by rw [← hmode, hlast, hmiddle]; rfl
      rw [hlastQuotients, hmode]
      rfl
  obtain ⟨report, hrun⟩ := (show ChainRun 𝔟 input output from
    ⟨last, ⟨middle, ⟨start, hadmit, hlayer⟩, hlayer'⟩, hfinishes⟩).alone hexact hlaw.half
  exact ⟨output, report, hrun⟩

/-! ## A run -/

/-- The 32-bit prime field, four bytes an element. -/
def sampleEncoding : FieldEncoding (ZMod 4294967197) where
  numBytes := 4
  modulusBits := 32
  toBytesLe x := leBytes 4 x.val
  toU128Checked x := some x.val
  half x := x * 2147483599

theorem sampleEncoding_lawful : sampleEncoding.Lawful where
  length _ := leBytes_length _ _
  value x := by
    have hlt : x.val < 256 ^ 4 := (ZMod.val_lt x).trans (by norm_num)
    rw [sampleEncoding, leValue_leBytes, Nat.mod_eq_of_lt hlt, ZMod.natCast_zmod_val]
  canonical x n h := by
    have hlt : x.val < 256 ^ 4 := (ZMod.val_lt x).trans (by norm_num)
    rw [sampleEncoding, leValue_leBytes, Nat.mod_eq_of_lt hlt]
    exact (Option.some.inj h).symm
  modulus_le := by decide +kernel
  half x := by
    have htwo : (2147483599 + 2147483599 : ZMod 4294967197) = 1 := by decide +kernel
    have hhalf : sampleEncoding.half (x + x) = (x + x) * 2147483599 := rfl
    rw [hhalf, add_mul, ← mul_add, htwo, mul_one]

def sampleSetup : List (ZMod 4294967197) := (List.range 4096).map fun (i : ℕ) => (i : ZMod 4294967197)

theorem sampleSetup_length : sampleSetup.length = 4096 := by
  rw [sampleSetup, length_map, length_range]

def sampleBackend : CompressionBackend (ZMod 4294967197) where
  encoding := sampleEncoding
  setup := sampleSetup
  matVecMulNttDigitsI8 D _ views := .ok (views.map fun view => [negacyclicFold D (productCoefficient sampleSetup D view)])
  matVecMulNttSingleI8Cyclic D _ view := .ok [cyclicFold D (productCoefficient sampleSetup D view)]

theorem sampleBackend_exact : sampleBackend.Exact := by
  constructor
  · intro D _ width views _ _ _
    rw [sampleBackend]
  · intro D _ width view _ _ _
    rw [sampleBackend]

def samplePlan : CompressionChainPlan :=
  ⟨.q32Offset99, 1, 4, ⟨#[⟨.q32Offset99, 1, 128, 1, 1, 128, 32, 128⟩, ⟨.q32Offset99, 128, 64, 64, 1, 64, 4096, 4096⟩], rfl⟩⟩

theorem samplePlan_checked : samplePlan.Checked := ⟨by decide +kernel, by decide +kernel⟩

def sampleInput : CompressionExecutionInput ℕ (ZMod 4294967197) :=
  ⟨0, samplePlan, samplePlan_checked, [5], .quotientLift⟩

theorem sampleInput_runs :
    ∃ output report, executeCompressionChains sampleBackend [sampleInput] = .ok ([output], report) := by
  have hmod : fieldModulus sampleBackend.encoding = .ok 4294967197 := by decide +kernel
  have hprof : sampleInput.plan.modulusProfile.modulus = 4294967197 := by decide
  have hlen : sampleInput.coefficients.length = sampleInput.plan.sourceCoefficients := by decide
  have hcanon : ∀ x, ∃ n ≤ 4294967197, sampleBackend.encoding.toU128Checked x = some n :=
    fun x => ⟨x.val, (ZMod.val_lt x).le, rfl⟩
  have hmaps : ∀ map ∈ sampleInput.plan.maps.toList, map.ringDimension ∈ compressionArms sampleBackend.encoding.modulusBits ∧
      map.inputWidth ≤ sampleBackend.setup.length / map.ringDimension := by
    have hsetup : sampleBackend.setup.length = 4096 := by rw [sampleBackend, sampleSetup_length]
    rw [hsetup]
    decide
  exact executeCompressionChains_runs sampleBackend_exact sampleEncoding_lawful hmod hcanon hprof hlen hmaps

theorem executeCompressionChains_exact_sample : ∃ output report,
    executeCompressionChains sampleBackend [sampleInput] = .ok ([output], report) ∧
      List.Forall₂ (fun input output => ChainExact sampleBackend.setup input output ∧
        ∃ report, executeCompressionChains sampleBackend [input] = .ok ([output], report)) [sampleInput] [output] := by
  obtain ⟨output, report, h⟩ := sampleInput_runs
  exact ⟨output, report, h, executeCompressionChains_exact sampleBackend_exact sampleEncoding_lawful h⟩

end Akita.Compression
