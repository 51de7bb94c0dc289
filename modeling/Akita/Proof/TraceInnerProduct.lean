import Akita.Proof.FieldReduction

/-!
# The trace inner product through the packing map

The results of the field reduction for one validated pair, put together. The ring-subfield is
itself an extension with the basis rule, so the identity is about something at every pair.
-/

namespace Akita.FieldReduction

open Lib Negacyclic Finset List

/-! ## The ring-subfield as an extension -/

section

variable (F : Type) [Field F] {D K κ m : ℕ}

noncomputable def Shape.subfield (hs : Shape D K κ m) : Subalgebra F (Negacyclic F D) :=
  subfieldAlgebra F hs.K_pos (root_pow_step hs.D_eq)

noncomputable def Shape.subfieldCoords (hs : Shape D K κ m) (x : hs.subfield F) : ℕ → F := (mem_subfieldSpan.1 x.2).choose

theorem Shape.subfieldValue_coords (hs : Shape D K κ m) (x : hs.subfield F) :
    subfieldValue F D K m (hs.subfieldCoords F x) = x := (mem_subfieldSpan.1 x.2).choose_spec

noncomputable def Shape.subfieldBackend (hs : Shape D K κ m) : ExtBackend F (hs.subfield F) where
  degree := K
  extCoords x := (List.range K).map (hs.subfieldCoords F x)
  fromBaseSlice c := ⟨subfieldValue F D K m fun j => c.getD j 0, _, rfl⟩

/-- `e_n`, as far as the basis rule speaks of it. -/
noncomputable def Shape.subfieldUnit (hs : Shape D K κ m) (n : ℕ) : hs.subfield F :=
  if hn : n ≤ 2 * K then ⟨conjSum (root F D ^ 2 ^ m) (2 * K) n, conjSum_mem hs.K_pos (root_pow_step hs.D_eq) hn⟩ else 0

theorem Shape.subfieldUnit_val (hs : Shape D K κ m) {n : ℕ} (hn : n ≤ 2 * K) :
    (hs.subfieldUnit F n : Negacyclic F D) = conjSum (root F D ^ 2 ^ m) (2 * K) n := by
  rw [Shape.subfieldUnit, dif_pos hn]

/-- **The ring-subfield follows the basis rule.** -/
theorem Shape.subfieldBackend_lawful (hs : Shape D K κ m) (h2 : (2 : F) ≠ 0) (params : SubfieldParams D K) :
    (hs.subfieldBackend F).Lawful (hs.subfieldUnit F) := by
  have hK := hs.K_pos
  have hy := root_pow_step (F := F) hs.D_eq
  have hunit := fun n hn => hs.subfieldUnit_val F (n := n) hn
  constructor
  case extCoords_length => exact fun x => by simp [Shape.subfieldBackend]
  case fromBaseSlice_extCoords =>
    intro x
    apply Subtype.ext
    conv_rhs => rw [← hs.subfieldValue_coords F x]
    exact subfieldSum_congr hK fun j hj => getD_map_range _ hj
  case extCoords_fromBaseSlice =>
    intro c (hc : c.length = K)
    refine ext_getElem (by rw [hc]; simp [Shape.subfieldBackend]) fun j h1 hj => ?_
    have hread := subfieldValue_injective hs h2 params (hs.subfieldValue_coords F ((hs.subfieldBackend F).fromBaseSlice c)) j
      (by omega)
    rw [getD_eq_getElem?_getD, getElem?_eq_getElem hj, Option.getD_some] at hread
    rw [← hread]
    exact getElem_map ..|>.trans (by rw [getElem_range])
  case fromBaseSlice_eq =>
    intro c _
    apply Subtype.ext
    have hsum : ∀ j ∈ Finset.Ico 1 K, c.getD j 0 • (hs.subfieldUnit F j : Negacyclic F D) =
        c.getD j 0 • conjSum (root F D ^ 2 ^ m) (2 * K) j := by
      intro j hj
      rw [mem_Ico] at hj
      rw [hunit j (by omega)]
    rw [Subalgebra.coe_add, Subalgebra.coe_smul, Subalgebra.coe_one, AddSubmonoidClass.coe_finsetSum]
    exact congrArg _ (sum_congr rfl hsum).symm
  case basis_zero =>
    apply Subtype.ext
    rw [hunit 0 (by omega), conjSum_zero hy]
    rfl
  case basis_degree =>
    apply Subtype.ext
    exact (hunit K (by omega)).trans conjSum_half
  case basis_reflect =>
    intro i (hi : i ≤ 2 * K)
    apply Subtype.ext
    exact (hunit (2 * K - i) (by omega)).trans ((conjSum_reflect hi).trans (congrArg _ (hunit i hi).symm))
  case basis_mul =>
    intro i (hi : i < K) j hj
    apply Subtype.ext
    rw [Subalgebra.coe_mul, Subalgebra.coe_add, hunit _ (by omega), hunit _ (by omega), hunit _ (by omega), hunit _ (by omega),
      conjSum_mul hy hj (by omega)]

end

/-! ## The identity, end to end -/

section

open FieldReduction.CyclotomicRing

variable {F E : Type} [Field F] [CommRing E] [Algebra F E] {𝔼 : ExtBackend F E} {e : ℕ → E} {D : ℕ}

theorem embedRingSubfieldVector_eq (h : 𝔼.Lawful e) (params : SubfieldParams D 𝔼.degree) {s : List E}
    (hlen : s.length = D / 𝔼.degree) {y : CyclotomicRing F D} (hy : psiEmbed params (s.flatMap 𝔼.extCoords) = .ok y)
    (error : AkitaError) :
    embedRingSubfieldVector 𝔼 D s error = if 𝔼.degree ∈ supportedDegrees then .ok y else .error error := by
  have hcoords : ∀ (s : List E) (acc : List F), s.foldlM (fun coords value => do
      let limbs := 𝔼.extCoords value
      ensure (limbs.length = 𝔼.degree) error
      return coords ++ limbs) acc = (.ok (acc ++ s.flatMap 𝔼.extCoords) : Result (List F)) := by
    intro s
    induction s with
    | nil => exact fun acc => by simp [pure, Except.pure]
    | cons x s ih =>
      intro acc
      have hpass : ensure ((𝔼.extCoords x).length = 𝔼.degree) error = .ok () := ensure_eq_ok.2 (h.extCoords_length x)
      rw [foldlM_cons, flatMap_cons, ← append_assoc, ← ih]
      simp only [hpass, ok_bind]
      rfl
  split_ifs with hdeg
  · have hcount : ensure (s.length = params.packedLen) error = .ok () := ensure_eq_ok.2 hlen
    rw [embedRingSubfieldVector, dispatchDegree_ok params hdeg]
    simp only [hcount, ok_bind, hcoords, nil_append, hy]
    rfl
  · rw [embedRingSubfieldVector, dispatchDegree_unsupported hdeg]

variable [DecidableEq F]

/-- **The trace of two packed vectors** is the image of their inner product. -/
theorem traceH_psiEmbed (h2 : (2 : F) ≠ 0) (params : SubfieldParams D 𝔼.degree) (h : 𝔼.Lawful e) {s r : List E}
    (hlens : s.length = D / 𝔼.degree) (hlenr : r.length = D / 𝔼.degree) :
    ∃ y p partner product embedded, psiEmbed params (s.flatMap 𝔼.extCoords) = .ok y ∧
      psiEmbed params (r.flatMap 𝔼.extCoords) = .ok p ∧ p.sigmaM1 = .ok partner ∧
      y.mulAccumulateInto partner 0 = .ok product ∧ embedSubfield params (𝔼.extCoords (innerProduct s r)) = .ok embedded ∧
      traceH params product = .ok (embedded.scale ((D / 𝔼.degree : ℕ) : F)) ∧
      recoverPsiInnerProduct 𝔼 𝔼.degree y p = .ok (innerProduct s r) := by
  obtain ⟨κ, m, hs⟩ := params.shape
  rw [hs.packed_eq] at hlens hlenr ⊢
  obtain ⟨y, hy, hyslots⟩ := psiEmbed_slots hs h h2 params hlens
  obtain ⟨p, hp, hpslots⟩ := psiEmbed_slots hs h h2 params hlenr
  have hslots := slotProduct_eq hlens hlenr hyslots hpslots
  obtain ⟨partner, product, hpartner, hprod, hvproduct⟩ := partner_mul_ok hs.D_pos y p
  obtain ⟨embedded, hemb, hvemb⟩ := embedSubfield_ok hs params (h.extCoords_length (innerProduct s r))
  obtain ⟨traced, htraced, hvtraced⟩ := traceH_ok hs params product
  refine ⟨y, p, partner, product, embedded, hy, hp, hpartner, hprod, hemb, ?_, ?_⟩
  · have hsame : traced = embedded.scale ((2 * 2 ^ m : ℕ) : F) := by
      apply value_injective hs.D_pos
      rw [hvtraced, hvproduct, trace_slotProduct hs h h2, hslots, value_scale, hvemb]
      push_cast
      rfl
    rw [htraced, hsame]
  · rw [recoverPsiInnerProduct_ok hs h2 params.twoD_lt, hslots]

/-- **The trace inner product.** For every validated pair the subgroup loop lists `D / K` distinct exponents below `2D`,
packing is a linear bijection of the coordinates onto the ring, and for all slot vectors the trace of one packed vector
times the turned image of the other is `D / K` times the image of their inner product, which recovery returns. The two
entry points that choose an arm by the extension degree have one for 1, 2, 4 and 8 and reject any other degree; where there
is an arm, entry `c` of the opening row is the value recovered for `ring * X^c`. The check decides the ring identity. -/
theorem trace_inner_product (h2 : (2 : F) ≠ 0) (params : SubfieldParams D 𝔼.degree) (h : 𝔼.Lawful e) :
    (∃ H, params.hExponents = .ok H ∧ H.Nodup ∧ H.length = D / 𝔼.degree ∧ ∀ n ∈ H, n < 2 * D) ∧
    (∃ Ψ : (Fin D → F) ≃ₗ[F] CyclotomicRing F D, ∀ c, psiEmbed params (List.ofFn c) = .ok (Ψ c)) ∧
    (∀ s r : List E, s.length = D / 𝔼.degree → r.length = D / 𝔼.degree → ∃ y p partner product embedded,
      psiEmbed params (s.flatMap 𝔼.extCoords) = .ok y ∧ psiEmbed params (r.flatMap 𝔼.extCoords) = .ok p ∧
      p.sigmaM1 = .ok partner ∧ y.mulAccumulateInto partner 0 = .ok product ∧
      embedSubfield params (𝔼.extCoords (innerProduct s r)) = .ok embedded ∧
      traceH params product = .ok (embedded.scale ((D / 𝔼.degree : ℕ) : F)) ∧
      recoverPsiInnerProduct 𝔼 𝔼.degree y p = .ok (innerProduct s r) ∧
      (∀ error, embedRingSubfieldVector 𝔼 D s error = if 𝔼.degree ∈ supportedDegrees then .ok y else .error error) ∧
      recoverRingSubfieldInnerProduct 𝔼 y p = if 𝔼.degree ∈ supportedDegrees then .ok (innerProduct s r)
        else .error (.invalidInput "unsupported ring-subfield extension degree")) ∧
    (∀ (ring p : CyclotomicRing F D) (bits : ℕ), 2 ^ bits ≤ D →
      if 𝔼.degree ∈ supportedDegrees then
        ∃ row, traceOpenRingRow 𝔼 ring p bits = .ok row ∧ row.length = 2 ^ bits ∧
          ∀ c < 2 ^ bits, ∃ ringShifted v, ring.negacyclicShift c = .ok ringShifted ∧
            recoverRingSubfieldInnerProduct 𝔼 ringShifted p = .ok v ∧ row[c]? = some v
      else traceOpenRingRow 𝔼 ring p bits = .error (.invalidInput "unsupported ring-subfield extension degree")) ∧
    (∀ (input : CyclotomicRing F D) (coords : List F), coords.length = 𝔼.degree → ∃ lhs embedded,
      traceH params input = .ok lhs ∧ embedSubfield params coords = .ok embedded ∧
      checkTraceInnerProduct params input coords = .ok (decide (lhs = embedded.scale ((D / 𝔼.degree : ℕ) : F)))) := by
  obtain ⟨κ, m, hs⟩ := params.shape
  refine ⟨?_, ?_, ?_, ?_, ?_⟩
  · obtain ⟨H, hH, hnodup, hmem⟩ := params.hExponents_ok hs
    have hfin : H.toFinset = traceExponents 𝔼.degree (2 ^ m) := by
      ext n
      rw [mem_toFinset, hmem]
    refine ⟨H, hH, hnodup, ?_, fun n hn => ?_⟩
    · rw [← toFinset_card_of_nodup hnodup, hfin, card_traceExponents hs.K_pos, hs.packed_eq]
    · have hlt := (Finset.mem_filter.1 ((hmem n).1 hn)).1
      rw [Finset.mem_range] at hlt
      rw [hs.D_eq]
      linarith
  · obtain ⟨Ψ, hpsi, -⟩ := psiEmbed_bijective hs h2 params
    exact ⟨Ψ, hpsi⟩
  · intro s r hlens hlenr
    obtain ⟨y, p, partner, product, embedded, hy, hp, hpartner, hproduct, hemb, htrace, hrecover⟩ :=
      traceH_psiEmbed h2 params h hlens hlenr
    refine ⟨y, p, partner, product, embedded, hy, hp, hpartner, hproduct, hemb, htrace, hrecover,
      embedRingSubfieldVector_eq h params hlens hy, ?_⟩
    split_ifs with hdeg
    · rw [recoverRingSubfieldInnerProduct, dispatchDegree_ok params hdeg, hrecover]
    · rw [recoverRingSubfieldInnerProduct, dispatchDegree_unsupported hdeg]
  · exact fun ring p bits hbits => traceOpenRingRow_ok hs h h2 params ring p hbits
  · exact fun input coords hlen => checkTraceInnerProduct_ok hs h2 params input hlen

end

/-! ## At two pairs -/

/-- The pair `D = 8`, `K = 2`. -/
def params82 : SubfieldParams 8 2 where
  twoD_lt := by decide
  pow2 := ⟨3, rfl⟩
  two_dvd := by decide
  K_pos := by decide
  K_dvd := by decide
  step_lt := by decide
  coprime := by simp [gcd]

theorem shape82 : Shape 8 2 1 1 := ⟨rfl, rfl⟩

/-- The pair `D = 32`, `K = 16`, that validation accepts and no arm serves. -/
def params3216 : SubfieldParams 32 16 where
  twoD_lt := by decide
  pow2 := ⟨5, rfl⟩
  two_dvd := by decide
  K_pos := by decide
  K_dvd := by decide
  step_lt := by decide
  coprime := by simp [gcd]

theorem shape3216 : Shape 32 16 4 0 := ⟨rfl, rfl⟩

theorem two_ne_zero_three : (2 : ZMod 3) ≠ 0 := by decide

theorem trace_inner_product_ring_subfield :
    (∃ H, params82.hExponents = .ok H ∧ H.Nodup ∧ H.length = 4 ∧ ∀ n ∈ H, n < 16) ∧
    ∀ s r : List (shape82.subfield (ZMod 3)), s.length = 4 → r.length = 4 → ∃ y p,
      psiEmbed params82 (s.flatMap (shape82.subfieldBackend (ZMod 3)).extCoords) = .ok y ∧
      psiEmbed params82 (r.flatMap (shape82.subfieldBackend (ZMod 3)).extCoords) = .ok p ∧
      recoverRingSubfieldInnerProduct (shape82.subfieldBackend (ZMod 3)) y p = .ok (innerProduct s r) := by
  obtain ⟨hH, -, hslots, -, -⟩ := trace_inner_product (𝔼 := shape82.subfieldBackend (ZMod 3)) two_ne_zero_three params82
    (shape82.subfieldBackend_lawful (ZMod 3) two_ne_zero_three params82)
  refine ⟨hH, fun s r hs hr => ?_⟩
  obtain ⟨y, p, -, -, -, hy, hp, -, -, -, -, -, -, hrecover⟩ := hslots s r hs hr
  refine ⟨y, p, hy, hp, ?_⟩
  rw [hrecover]
  exact if_pos (by simp [supportedDegrees, Shape.subfieldBackend])

/-- At degree 16 the packed vectors are made and their inner product is not recovered. -/
theorem recover_degree_sixteen :
    (shape3216.subfieldBackend (ZMod 3)).Lawful (shape3216.subfieldUnit (ZMod 3)) ∧ ∃ y p, psiEmbed params3216 ([0, 0].flatMap (shape3216.subfieldBackend (ZMod 3)).extCoords) = .ok y ∧
      psiEmbed params3216 ([0, 0].flatMap (shape3216.subfieldBackend (ZMod 3)).extCoords) = .ok p ∧
      recoverRingSubfieldInnerProduct (shape3216.subfieldBackend (ZMod 3)) y p ≠ .ok (innerProduct [0, 0] [0, 0]) := by
  have hlawful := shape3216.subfieldBackend_lawful (ZMod 3) two_ne_zero_three params3216
  obtain ⟨y, p, -, -, -, hy, hp, -⟩ := traceH_psiEmbed (𝔼 := shape3216.subfieldBackend (ZMod 3)) two_ne_zero_three params3216
    hlawful (s := [0, 0]) (r := [0, 0]) rfl rfl
  refine ⟨hlawful, y, p, hy, hp, ?_⟩
  rw [recoverRingSubfieldInnerProduct, dispatchDegree_unsupported (by simp [supportedDegrees, Shape.subfieldBackend])]
  exact fun hne => by cases hne

end Akita.FieldReduction
