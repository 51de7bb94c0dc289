import Akita.Proof.CoefficientPacking
import Akita.Proof.Reference

/-!
# Folding and opening packed coefficients

What the fold of the partials keeps, and that the packed opening is the sum of the source against the
weights of the padded point.
-/

/-!
## The fold keeps the polynomial product

The fold writes a product of a challenge term and a partial coefficient into the reduced plane,
negated when it wraps, and then into the quotient plane as well. So the potential
`R + (Y^s + 1) * Q` of every extension coordinate grows by exactly the product, and nothing is
lost to the reduction.
-/

namespace Akita.CoefficientPacking

open Lib Opening Finset Polynomial
open OffsetEq (Runtime)
open SparseStream (SparseChallenge)

section

variable {F : Type} [Field F] {rt : Runtime} {s e₀ : ℕ} {l slice : List F} {g : Geometry} {c : ℤ} {state state' : List F × List F}

/-! ### Planes -/

/-- The polynomial of the `s` coordinates from an offset on. -/
noncomputable def planePolynomial (s : ℕ) (l : List F) (offset : ℕ) : F[X] :=
  ∑ y ∈ range s, C (l.getD (offset + y) 0) * X ^ y

noncomputable def challengePolynomial (challenge : SparseChallenge) : F[X] :=
  ((challenge.positions.zip challenge.coeffs).map fun term => C (term.2 : F) * X ^ term.1).sum

theorem planePolynomial_set {e i : ℕ} (hi : i < s) (hlen : e * s + i < l.length) (x : F) :
    planePolynomial s (l.set (e * s + i) (l.getD (e * s + i) 0 + x)) (e₀ * s) =
      planePolynomial s l (e₀ * s) + if e = e₀ then C x * X ^ i else 0 := by
  have hterm : ∀ y ∈ range s, C ((l.set (e * s + i) (l.getD (e * s + i) 0 + x)).getD (e₀ * s + y) 0) * X ^ y =
      C (l.getD (e₀ * s + y) 0) * X ^ y + if e = e₀ ∧ y = i then C x * X ^ y else 0 := by
    intro y hy
    have hy : y < s := mem_range.1 hy
    by_cases hplace : e = e₀ ∧ y = i
    · obtain ⟨rfl, rfl⟩ := hplace
      have hget : (l.set (e * s + y) (l.getD (e * s + y) 0 + x)).getD (e * s + y) 0 = l.getD (e * s + y) 0 + x := by
        rw [List.getD_eq_getElem?_getD, List.getElem?_set_self hlen, Option.getD_some]
      rw [hget, if_pos ⟨rfl, rfl⟩, C_add]
      ring
    · -- distinct places in planes of width `s`
      have hne : e * s + i ≠ e₀ * s + y := by
        intro heq
        have hdiv : ∀ q r, r < s → (q * s + r) / s = q := by
          intro q r hr
          rw [mul_comm, Nat.mul_add_div (by omega), Nat.div_eq_of_lt hr, add_zero]
        have he : e = e₀ := by rw [← hdiv e i hi, heq, hdiv e₀ y hy]
        subst he
        exact hplace ⟨rfl, by omega⟩
      rw [if_neg hplace, List.getD_eq_getElem?_getD, List.getElem?_set_ne hne, add_zero, List.getD_eq_getElem?_getD]
  unfold planePolynomial
  rw [sum_congr rfl hterm, sum_add_distrib]
  congr 1
  by_cases he : e = e₀
  · simp [he, hi]
  · simp [he]

theorem accumulateSmallSignedProduct_eq (destination value : F) (coefficient : ℤ) :
    accumulateSmallSignedProduct destination value coefficient = destination + value * (coefficient : F) := by
  unfold accumulateSmallSignedProduct
  split
  · rename_i h
    simp [h]
  split
  · rename_i h
    simp [h, sub_eq_add_neg]
  split
  · rename_i h
    rw [h]
    ring
  split
  · rename_i h
    rw [h]
    ring
  · rfl

/-! ### The fold -/

/-- The potential of an extension coordinate: what the reduced and the quotient plane stand for together. -/
noncomputable def foldPotential (s e₀ : ℕ) (state : List F × List F) : F[X] :=
  planePolynomial s state.1 (e₀ * s) + (X ^ s + 1) * planePolynomial s state.2 (e₀ * s)

/-- Both planes keep their width. -/
def FoldWidth (width : ℕ) (state : List F × List F) : Prop := state.1.length = width ∧ state.2.length = width

theorem foldTerm_potential (hg : g.Sound) {e ci pi : ℕ} {v : F} (he : e < g.extensionDegree)
    (hP : FoldWidth g.partialBaseFieldWidth state)
    (h : foldTerm (e * g.challengeSubringDimension) g.challengeSubringDimension ci pi v c state = .ok state') :
    FoldWidth g.partialBaseFieldWidth state' ∧
      foldPotential g.challengeSubringDimension e₀ state' = foldPotential g.challengeSubringDimension e₀ state +
        if e = e₀ then C (v * (c : F)) * X ^ (ci + pi) else 0 := by
  set s := g.challengeSubringDimension with hs
  obtain ⟨reduced, quotient⟩ := state
  obtain ⟨hreduced, hquot⟩ : reduced.length = g.partialBaseFieldWidth ∧ quotient.length = g.partialBaseFieldWidth := hP
  unfold foldTerm at h
  simp only [result_ok, checked_some] at h
  obtain ⟨_, ⟨-, rfl⟩, hout, h⟩ := h
  have hfits : ∀ i < s, e * s + i < g.partialBaseFieldWidth := by
    intro i hi
    rw [hg.width_eq, ← hs]
    calc e * s + i < e * s + s := by omega
      _ = (e + 1) * s := by ring
      _ ≤ g.extensionDegree * s := Nat.mul_le_mul_right _ he
  by_cases hwraps : ci + pi ≥ s
  · simp only [hwraps, decide_true, if_true, pure_eq_ok] at h hout
    subst h
    have hlen := hfits _ hout
    refine ⟨⟨by simpa using hreduced, by simpa using hquot⟩, ?_⟩
    unfold foldPotential
    simp only [accumulateSmallSignedProduct_eq]
    rw [planePolynomial_set hout (by omega), planePolynomial_set hout (by omega)]
    by_cases hee : e = e₀
    · have hpow : (X : F[X]) ^ (ci + pi) = X ^ s * X ^ (ci + pi - s) := by rw [← pow_add, Nat.add_sub_cancel' hwraps]
      simp only [if_pos hee, hpow, neg_mul, C_neg]
      ring
    · simp only [if_neg hee]
      ring
  · simp only [hwraps, decide_false, Bool.false_eq_true, if_false, pure_eq_ok] at h hout
    subst h
    have hlen := hfits _ hout
    refine ⟨⟨by simpa using hreduced, by simpa using hquot⟩, ?_⟩
    unfold foldPotential
    simp only [accumulateSmallSignedProduct_eq]
    rw [planePolynomial_set hout (by omega)]
    ring

/-- One challenge term against a plane: every partial coefficient adds its product. -/
theorem foldPlane_potential (hg : g.Sound) {e ci : ℕ} {plane : List F} (hplane : plane.length = g.challengeSubringDimension)
    (he : e < g.extensionDegree) (hP : FoldWidth g.partialBaseFieldWidth state)
    (h : plane.zipIdx.foldlM (fun state (partialCoefficient, partialIndex) =>
      foldTerm (e * g.challengeSubringDimension) g.challengeSubringDimension ci partialIndex partialCoefficient c state)
      state = .ok state') : FoldWidth g.partialBaseFieldWidth state' ∧
      foldPotential g.challengeSubringDimension e₀ state' = foldPotential g.challengeSubringDimension e₀ state +
        if e = e₀ then C (c : F) * X ^ ci * planePolynomial g.challengeSubringDimension plane 0 else 0 := by
  obtain ⟨hwidth, hpotential⟩ := foldlM_measure (P := FoldWidth g.partialBaseFieldWidth)
    (μ := foldPotential g.challengeSubringDimension e₀)
    (g := fun p : F × ℕ => if e = e₀ then C (p.1 * (c : F)) * X ^ (ci + p.2) else 0)
    (fun s x s' _ hs hx => foldTerm_potential hg he hs hx) hP h
  refine ⟨hwidth, ?_⟩
  rw [hpotential, sum_map_zipIdx plane 0 fun v i => if e = e₀ then C (v * (c : F)) * X ^ (ci + i) else 0, hplane]
  congr 1
  by_cases hee : e = e₀
  · simp only [if_pos hee, planePolynomial, mul_sum, zero_add]
    apply sum_congr rfl
    intro y _
    rw [C_mul, pow_add]
    ring
  · simp [hee]

theorem getSlice_ok {start stop : ℕ} {err : AkitaError} (h : getSlice l start stop err = .ok slice) :
    slice.length = stop - start ∧ ∀ i < stop - start, slice.getD i 0 = l.getD (start + i) 0 := by
  unfold getSlice at h
  simp only [result_ok] at h
  obtain ⟨⟨hle, hlen⟩, rfl⟩ := h
  refine ⟨?_, fun i hi => ?_⟩
  · rw [List.length_take, List.length_drop]
    omega
  · simp [List.getD_eq_getElem?_getD, hi]

theorem planePolynomial_slice {offset : ℕ} (h : ∀ i < s, slice.getD i 0 = l.getD (offset + i) 0) :
    planePolynomial s slice 0 = planePolynomial s l offset := by
  apply sum_congr rfl
  intro y hy
  rw [zero_add, h y (mem_range.1 hy)]

/-- **The fold**: in every extension coordinate the product of challenges and partials is `R + (Y^s + 1) Q`. -/
theorem foldPartials_ok (hg : g.Sound) {challenges : List SparseChallenge} {partialCoordinates : List F} {product : FoldProduct F}
    (h : foldPartials rt g challenges partialCoordinates = .ok product) (he₀ : e₀ < g.extensionDegree) :
    (challenges.zipIdx.map fun p => challengePolynomial p.1 *
      planePolynomial g.challengeSubringDimension partialCoordinates
        (p.2 * g.partialBaseFieldWidth + e₀ * g.challengeSubringDimension)).sum =
      planePolynomial g.challengeSubringDimension product.reducedBaseFieldCoordinates (e₀ * g.challengeSubringDimension) +
        (X ^ g.challengeSubringDimension + 1) *
          planePolynomial g.challengeSubringDimension product.quotientHighHalfBaseFieldCoordinates
            (e₀ * g.challengeSubringDimension) := by
  set s := g.challengeSubringDimension with hs
  set width := g.partialBaseFieldWidth with hwidth
  unfold foldPartials zeroVecLabelled at h
  simp only [result_ok, ← hs, ← hwidth] at h
  obtain ⟨-, _, -, -, reduced, ⟨_, -, -, -, rfl⟩, quotient, ⟨_, -, -, -, rfl⟩, ⟨reduced, quotient⟩, hfold, rfl⟩ := h
  have hstart : FoldWidth width (List.replicate width (0 : F), List.replicate width (0 : F)) := by
    constructor <;> simp
  have hrun := foldlM_measure (P := FoldWidth width) (μ := foldPotential s e₀)
    (g := fun p : SparseChallenge × ℕ => challengePolynomial p.1 *
      planePolynomial s partialCoordinates (p.2 * width + e₀ * s)) ?_ hstart hfold
  · have hzero : foldPotential s e₀ (List.replicate width (0 : F), List.replicate width (0 : F)) = 0 := by
      have hplane : planePolynomial s (List.replicate width (0 : F)) (e₀ * s) = 0 := by
        apply sum_eq_zero
        intro y _
        rw [List.getD_eq_getElem?_getD, List.getElem?_replicate]
        split <;> simp
      simp [foldPotential, hplane]
    rw [hzero, zero_add] at hrun
    exact hrun.2.symm
  · intro state x state' _ hP hpass
    obtain ⟨challenge, termIndex⟩ := x
    simp only [result_ok, checked_some] at hpass
    obtain ⟨_, ⟨-, rfl⟩, hpass⟩ := hpass
    -- one extension coordinate after the other; only `e₀` moves the potential
    have hplanes := foldlM_measure (P := FoldWidth width) (μ := foldPotential s e₀)
      (g := fun e => if e = e₀ then challengePolynomial challenge *
        planePolynomial s partialCoordinates (termIndex * width + e * s) else 0) ?_ hP hpass
    · refine ⟨hplanes.1, ?_⟩
      rw [hplanes.2, sum_map_range, sum_ite_eq' (range g.extensionDegree) e₀, if_pos (mem_range.2 he₀)]
    · intro state e state' he hP hpass
      have he : e < g.extensionDegree := List.mem_range.1 he
      simp only [result_ok, checked_some] at hpass
      obtain ⟨_, ⟨-, rfl⟩, _, ⟨-, rfl⟩, _, ⟨-, rfl⟩, plane, hplane, _, ⟨-, rfl⟩, -, -, hpass⟩ := hpass
      obtain ⟨hlen, hread⟩ := getSlice_ok hplane
      rw [Nat.add_sub_cancel_left] at hlen hread
      obtain ⟨hP', hμ⟩ := foldlM_measure (P := FoldWidth width) (μ := foldPotential s e₀)
        (g := fun term : ℕ × ℤ => if e = e₀ then C (term.2 : F) * X ^ term.1 * planePolynomial s plane 0 else 0)
        (fun state term state' _ hs hterm => foldPlane_potential hg hlen he hs hterm) hP hpass
      refine ⟨hP', ?_⟩
      rw [hμ, planePolynomial_slice hread]
      congr 1
      by_cases hee : e = e₀
      · simp only [if_pos hee]
        rw [challengePolynomial, ← List.sum_map_mul_right]
      · simp [hee]

end

/-!
## Coefficient packing opens the source

The scalar opening weighs the partials of every block against the tail and the block weights.
Together with the packing and position weights inside the partials these are the weights of the
four axes, so the opening is the sum of the source against the weights of the padded point. The
packing of a ring commutes with a challenge in `X^stride`.
-/

open Transcript (ExtField LawfulExtField)

variable {F E : Type} [Field F] [Field E] [ExtField F E] {rt : Runtime} {g : Geometry}

/-! ### The scalar opening -/

variable (E) in
/-- The coefficient of a subring index in the partial of a block. -/
def partialCoefficient (g : Geometry) (partialCoordinates : List F) (b y : ℕ) : E :=
  ExtField.fromBaseSlice ((List.range g.extensionDegree).map fun e =>
    partialCoordinates.getD (b * g.partialBaseFieldWidth + (e * g.challengeSubringDimension + y)) 0)

theorem gatherCoordinates_ok {claimIndex offset y : ℕ} {partialCoordinates coordinates out : List F}
    (h : gatherCoordinates g claimIndex partialCoordinates offset y coordinates = .ok out) :
    out = (List.range coordinates.length).map fun e =>
      partialCoordinates.getD (offset + (e * g.challengeSubringDimension + y)) 0 := by
  obtain ⟨hlen, hget⟩ := forall_of_mapM_range h
  apply List.ext_getElem (by simpa using hlen)
  intro e he _
  have he' : e < coordinates.length := by omega
  have hpass := hget e he'
  simp only [result_ok, checked_some, Geometry.partialBaseFieldCoordinateIndex, Option.filter_eq_some_iff] at hpass
  obtain ⟨_, ⟨-, hindex, -⟩, _, ⟨-, rfl⟩, hread⟩ := hpass
  simp only [Checked.mulAdd, option_some, checked_some] at hindex
  obtain ⟨_, ⟨-, rfl⟩, -, rfl⟩ := hindex
  have hvalue : out[e] = out.getD e 0 := by simp [List.getD_eq_getElem?_getD, he]
  rw [hvalue]
  simp [List.getD_eq_getElem?_getD, hread]

theorem sum_zip_congr {α β : Type*} {R : α → β → Prop} {f : α → E} {g : β → E} (hfg : ∀ a b, R a b → f a = g b)
    {l : List α} {l' : List β} (h : List.Forall₂ R l l') : ∀ weights : List E,
      ((l.zip weights).map fun c => c.2 * f c.1).sum = ((l'.zip weights).map fun c => c.2 * g c.1).sum := by
  induction h with
  | nil => intro weights; rfl
  | cons hab _ ih =>
    intro weights
    cases weights with
    | nil => rfl
    | cons w weights =>
      simp only [List.zip_cons_cons, List.map_cons, List.sum_cons]
      rw [hfg _ _ hab, ih]

/-- **The scalar opening** sums the partial coefficients against the claim, block and tail weights. -/
theorem scalarOpening_ok {numBlocks : ℕ} {partialsByClaim : List (List F)} {claimWeights blockWeights tailWeights : List E}
    {opening : E} (h : scalarOpening rt g numBlocks partialsByClaim claimWeights blockWeights tailWeights = .ok opening) :
    ExtField.degree F E = g.extensionDegree ∧ opening = ((partialsByClaim.zip claimWeights).map fun claim => claim.2 *
        ∑ b ∈ range numBlocks, ∑ y ∈ range g.challengeSubringDimension,
          blockWeights.getD b 0 * tailWeights.getD y 0 * partialCoefficient E g claim.1 b y).sum := by
  unfold scalarOpening validateExtensionDegree zeroVecLabelled requireLen at h
  simp only [result_ok] at h
  obtain ⟨hdegree, -, -, hblocks, htail, _, -, -, coordinates, ⟨_, -, -, -, rfl⟩, ⟨total, _⟩, hloop, rfl⟩ := h
  refine ⟨hdegree, ?_⟩
  have hrun := foldlM_measure (P := fun state : E × List F => state.2.length = g.extensionDegree) (μ := Prod.fst)
    (g := fun claim : (List F × E) × ℕ => claim.1.2 * ∑ b ∈ range numBlocks, ∑ y ∈ range g.challengeSubringDimension,
      blockWeights.getD b 0 * tailWeights.getD y 0 * partialCoefficient E g claim.1.1 b y) ?_ (by simp) hloop
  · have hvalue : total = _ := hrun.2
    have hmap : ∀ (f : List F × E → E) (l : List (List F × E)), (l.zipIdx.map fun claim => f claim.1) = l.map f := by
      intro f l
      conv_rhs => rw [← List.zipIdx_map_fst 0 l, List.map_map]
      rfl
    rw [zero_add, hmap fun claim => claim.2 * ∑ b ∈ range numBlocks, ∑ y ∈ range g.challengeSubringDimension,
      blockWeights.getD b 0 * tailWeights.getD y 0 * partialCoefficient E g claim.1 b y] at hvalue
    exact hvalue
  · intro state x state' _ hP hclaim
    obtain ⟨⟨partialCoordinates, claimWeight⟩, claimIndex⟩ := x
    have hinner := foldlM_measure (P := fun state : E × List F => state.2.length = g.extensionDegree) (μ := Prod.fst)
      (g := fun block : E × ℕ => claimWeight * ∑ y ∈ range g.challengeSubringDimension,
        block.1 * tailWeights.getD y 0 * partialCoefficient E g partialCoordinates block.2 y) ?_ hP hclaim
    · refine ⟨hinner.1, ?_⟩
      rw [hinner.2, sum_map_zipIdx blockWeights 0 fun w b => claimWeight * ∑ y ∈ range g.challengeSubringDimension,
        w * tailWeights.getD y 0 * partialCoefficient E g partialCoordinates b y, hblocks, mul_sum]
    · intro state block state' _ hP hblock
      obtain ⟨blockWeight, b⟩ := block
      simp only [result_ok, checked_some] at hblock
      obtain ⟨_, ⟨-, rfl⟩, hblock⟩ := hblock
      have htails := foldlM_measure (P := fun state : E × List F => state.2.length = g.extensionDegree) (μ := Prod.fst)
        (g := fun entry : E × ℕ => claimWeight * blockWeight * entry.1 *
          partialCoefficient E g partialCoordinates b entry.2) ?_ hP hblock
      · refine ⟨htails.1, ?_⟩
        rw [htails.2, sum_map_zipIdx tailWeights 0 fun w y => claimWeight * blockWeight * w *
          partialCoefficient E g partialCoordinates b y, htail, mul_sum]
        congr 1
        apply sum_congr rfl
        intro y _
        ring
      · intro state entry state' _ hP htail
        obtain ⟨tailWeight, y⟩ := entry
        obtain ⟨opening, coordinates⟩ := state
        simp only [result_ok] at htail
        obtain ⟨coordinates', hgather, rfl⟩ := htail
        obtain rfl := gatherCoordinates_ok hgather
        have hlen : coordinates.length = g.extensionDegree := hP
        refine ⟨by simpa using hlen, ?_⟩
        simp only [hlen, partialCoefficient]

/-! ### The source at the padded point -/

section weights

variable [Algebra F E] {t : Tables E} {ring : ℕ → ℕ → F}

omit [ExtField F E] in
theorem weighted_partials_eq (ht : t.Sound) {padded : List E} (hsplit : t.point.Splits padded)
    (hring : ∀ position ≥ t.point.numLivePositions, ∀ i, ring position i = 0) :
    ∑ b ∈ range t.point.numLiveBlocks, ∑ y ∈ range t.point.geometry.challengeSubringDimension,
        t.liveBlockWeights.getD b 0 * t.tailWeights.getD y 0 * (partialPolynomial t ring b).coeff y =
      ∑ position ∈ range t.point.numLivePositions, ∑ i ∈ range t.point.geometry.aRingDimension,
        basisWeight t.point.basis padded (i + t.point.geometry.aRingDimension * position) *
          algebraMap F E (ring position i) := by
  set M := t.point.numPositionsPerBlock with hM
  set stride := t.point.geometry.subringEmbeddingStride with hstride
  set s := t.point.geometry.challengeSubringDimension with hs
  have hMpos : 0 < M := by
    rw [hM, hsplit.position]
    exact Nat.two_pow_pos _
  -- the live positions lie in the live blocks, and the source is zero on the rest of the last one
  have hlive : t.point.numLivePositions ≤ t.point.numLiveBlocks * M := by
    rw [hsplit.blocks, PhysicalL2.divCeil, ← hM]
    have hdiv := Nat.div_add_mod t.point.numLivePositions M
    have hmod := Nat.mod_lt t.point.numLivePositions hMpos
    rw [add_mul, mul_comm _ M]
    split <;> omega
  have hextend : ∑ position ∈ range t.point.numLivePositions, ∑ i ∈ range t.point.geometry.aRingDimension,
      basisWeight t.point.basis padded (i + t.point.geometry.aRingDimension * position) * algebraMap F E (ring position i) =
      ∑ position ∈ range (t.point.numLiveBlocks * M), ∑ i ∈ range t.point.geometry.aRingDimension,
        basisWeight t.point.basis padded (i + t.point.geometry.aRingDimension * position) *
          algebraMap F E (ring position i) := by
    apply sum_subset (range_subset_range.2 hlive)
    intro position _ hout
    apply sum_eq_zero
    intro i _
    rw [hring position (not_lt.1 fun h => hout (mem_range.2 h)), map_zero, mul_zero]
  rw [hextend, sum_range_rows]
  apply sum_congr rfl
  intro b hb
  have hb : b < t.point.numLiveBlocks := mem_range.1 hb
  have hpoly : ∀ y ∈ range s, t.liveBlockWeights.getD b 0 * t.tailWeights.getD y 0 *
      (partialPolynomial t ring b).coeff y = ∑ p ∈ range M, ∑ a ∈ range stride,
        basisWeight t.point.basis padded (y * stride + a + t.point.geometry.aRingDimension * (b * M + p)) *
          algebraMap F E (ring (b * M + p) (y * stride + a)) := by
    intro y hy
    have hy : y < s := mem_range.1 hy
    rw [partialPolynomial_coeff t ring b hy, mul_sum]
    apply sum_congr rfl
    intro p hp
    rw [mul_sum]
    apply sum_congr rfl
    intro a ha
    rw [hsplit.weight _ (mem_range.1 ha) hy (mem_range.1 hp), ht.packing, ht.tail, ht.position, ht.block b hb]
    ring
  rw [sum_congr rfl hpoly, sum_comm]
  apply sum_congr rfl
  intro p _
  rw [hsplit.geometry.dimension_eq, ← hstride, ← hs, mul_comm stride s, sum_range_rows, mul_comm s stride,
    ← hsplit.geometry.dimension_eq]

open Polynomial in
omit [ExtField F E] in
/-- **Packing commutes with a challenge** in `X^stride`. -/
theorem packedRing_mul (hg : t.point.geometry.Sound) (c : F[X]) {P : F[X]} (hP : P.degree < (t.point.geometry.aRingDimension : ℕ)) :
    packedRing t ((c.comp (X ^ t.point.geometry.subringEmbeddingStride) * P) %ₘ
        (X ^ t.point.geometry.aRingDimension + 1)).coeff =
      (c.map (algebraMap F E) * packedRing t P.coeff) %ₘ (X ^ t.point.geometry.challengeSubringDimension + 1) := by
  set stride := t.point.geometry.subringEmbeddingStride with hstride
  set s := t.point.geometry.challengeSubringDimension with hs
  have hpacked : ∀ Q : F[X], Q.degree < (stride * s : ℕ) →
      packedRing t Q.coeff = pack stride (fun a => t.packingWeights.getD a 0) Q := by
    intro Q hQ
    rw [pack_eq_sum hQ]
    unfold packedRing
    simp only [map_sum, sum_mul, mul_sum]
    rw [sum_comm]
    apply sum_congr rfl
    intro y _
    apply sum_congr rfl
    intro a _
    rw [C_mul, mul_assoc]
  have hmonic : (X ^ s + 1 : F[X]).Monic := monic_X_pow_add_C 1 hg.subring_pos.ne'
  have hmod : (X ^ t.point.geometry.aRingDimension + 1 : F[X]) = expand F stride (X ^ s + 1) := by
    rw [map_add, map_pow, expand_X, map_one, ← pow_mul, hg.dimension_eq]
  have hres : ((c.comp (X ^ stride) * P) %ₘ (X ^ t.point.geometry.aRingDimension + 1)).degree <
      (stride * s : ℕ) := by
    have hlt := degree_modByMonic_lt (c.comp (X ^ stride) * P) (hmonic.expand hg.stride_pos)
    rw [← hmod] at hlt
    have hdegree : (X ^ (stride * s) + 1 : F[X]).degree = (stride * s : ℕ) :=
      degree_X_pow_add_C (Nat.mul_pos hg.stride_pos hg.subring_pos) 1
    have hD : t.point.geometry.aRingDimension = stride * s := hg.dimension_eq
    rw [hD] at hlt ⊢
    rwa [hdegree] at hlt
  rw [hg.dimension_eq] at hP
  rw [hpacked _ hres, hpacked P hP, hmod, ← expand_eq_comp_X_pow, pack_modByMonic hg.stride_pos hmonic,
    pack_expand_mul hg.stride_pos, Polynomial.map_add, Polynomial.map_pow, map_X, Polynomial.map_one]

/-! ### The four results -/

/-- The partial coefficients of a kernel run are the coefficients of the partial polynomials. -/
theorem partialCoefficient_eq [LawfulExtField F E] (hdegree : ExtField.degree F E = t.point.geometry.extensionDegree)
    {partials : List F} {b y : ℕ}
    (h : ∀ e < t.point.geometry.extensionDegree, partials.getD (b * t.point.geometry.partialBaseFieldWidth +
      (e * t.point.geometry.challengeSubringDimension + y)) 0 =
        (ExtField.toBaseVec (F := F) ((partialPolynomial t ring b).coeff y)).getD e 0) :
    partialCoefficient E t.point.geometry partials b y = (partialPolynomial t ring b).coeff y := by
  set x := (partialPolynomial t ring b).coeff y with hx
  have hlen : (ExtField.toBaseVec (F := F) x).length = t.point.geometry.extensionDegree := by
    rw [LawfulExtField.length_toBaseVec, hdegree]
  have hcoordinates : ((List.range t.point.geometry.extensionDegree).map fun e =>
      partials.getD (b * t.point.geometry.partialBaseFieldWidth +
        (e * t.point.geometry.challengeSubringDimension + y)) 0) = ExtField.toBaseVec (F := F) x := by
    apply List.ext_getElem (by simp [hlen])
    intro e he he'
    have he : e < t.point.geometry.extensionDegree := by omega
    rw [List.getElem_map, List.getElem_range, h e he]
    simp [List.getD_eq_getElem?_getD, List.getElem?_eq_getElem he']
  rw [partialCoefficient, hcoordinates, LawfulExtField.fromBaseSlice_toBaseVec]

open Polynomial in
/-- **Coefficient packing opens correctly and commutes with folding**: the partials are the coordinates of `e_b`, the
scalar opening is the sum of the source at the padded point, packing commutes with a challenge, and the fold returns
the reduction and the quotient of the product. -/
theorem coefficient_packing_opens [LawfulExtField F E] {𝔣 : PackingField F E} (h𝔣 : 𝔣.Lawful) {base : Runtime}
    {measured : SparseStream.SparseChallengeConfig → ℕ → ℕ → Except String Unit} {k D s : ℕ} {g : Geometry}
    (hg : Geometry.tryNew measured k D s = .ok g) {basis : BasisMode} {numLivePositions numPositionsPerBlock
    sourceNumVars : ℕ} {point : List E} {p : PreparedPoint E}
    (hp : PreparedPoint.new g basis numLivePositions numPositionsPerBlock sourceNumVars point = .ok p) {t : Tables E}
    (ht : Tables.new rt p = .ok t) {fused : FusedPackingWeights E} (hfused : FusedPackingWeights.new rt t = .ok fused) :
    (∀ (source : PositionSource F) (partials : List F),
      partialsFromPositionSource 𝔣 base D fused sourceNumVars source = .ok partials →
      partials.length = p.numLiveBlocks * (k * s) ∧ ∀ b < p.numLiveBlocks, ∀ e < k, ∀ y < s,
        partials.getD (b * (k * s) + (e * s + y)) 0 =
          (ExtField.toBaseVec (F := F) ((partialPolynomial t source.ring b).coeff y)).getD e 0) ∧
    (∀ (sources : List (PositionSource F)) (partialsByClaim : List (List F)) (claimWeights : List E) (opening : E),
      List.Forall₂ (fun source partials => partialsFromPositionSource 𝔣 base D fused sourceNumVars source = .ok partials)
        sources partialsByClaim →
      scalarOpening base g p.numLiveBlocks partialsByClaim claimWeights t.liveBlockWeights t.tailWeights = .ok opening →
      opening = ((sources.zip claimWeights).map fun claim => claim.2 * ∑ position ∈ range numLivePositions,
        ∑ i ∈ range D, basisWeight basis (p.paddedPoint point) (i + D * position) *
          algebraMap F E (claim.1.ring position i)).sum) ∧
    (∀ (challenge : SparseChallenge) (P : F[X]), P.degree < (D : ℕ) →
      packedRing t (((challengePolynomial challenge).comp (X ^ (D / s)) * P) %ₘ (X ^ D + 1)).coeff =
        ((challengePolynomial challenge).map (algebraMap F E) * packedRing t P.coeff) %ₘ (X ^ s + 1)) ∧
    ∀ (challenges : List SparseChallenge) (partialCoordinates : List F) (product : FoldProduct F),
      foldPartials base g challenges partialCoordinates = .ok product → ∀ e < k,
      (challenges.zipIdx.map fun c => challengePolynomial c.1 *
          planePolynomial s partialCoordinates (c.2 * (k * s) + e * s)).sum =
        planePolynomial s product.reducedBaseFieldCoordinates (e * s) +
          (X ^ s + 1) * planePolynomial s product.quotientHighHalfBaseFieldCoordinates (e * s) := by
  obtain ⟨hsound, rfl, rfl, rfl⟩ := Geometry.tryNew_sound hg
  obtain ⟨rfl, htables⟩ := Tables.new_sound ht
  obtain ⟨rfl, hfits, hvalues⟩ := FusedPackingWeights.new_ok hfused
  set t := fused.tables with htdef
  have hgeometry : t.point.geometry = g := PreparedPoint.new_geometry hp
  have hM : t.point.numPositionsPerBlock < 2 ^ 64 := by
    rw [hgeometry] at hfits
    exact (Nat.le_mul_of_pos_right _ hsound.stride_pos).trans_lt hfits
  obtain ⟨hsplit, -, rfl, rfl, -⟩ := PreparedPoint.new_splits hsound hM hp
  subst hgeometry
  have hkernel := fun (source : PositionSource F) (partials : List F)
      (h : partialsFromPositionSource 𝔣 base t.point.geometry.aRingDimension fused sourceNumVars source = .ok partials) =>
    partialsFromPositionSource_ok h𝔣 htables hsplit hvalues h
  have hstride : t.point.geometry.aRingDimension / t.point.geometry.challengeSubringDimension =
      t.point.geometry.subringEmbeddingStride := by
    rw [hsound.dimension_eq, Nat.mul_div_cancel _ hsound.subring_pos]
  rw [← hsound.width_eq, hstride]
  refine ⟨fun source partials h => ?_, ?_, fun challenge P hP => packedRing_mul hsound _ hP,
    fun challenges partialCoordinates product h e he => foldPartials_ok hsound h he⟩
  · obtain ⟨hlen, -, hread⟩ := hkernel source partials h
    exact ⟨hlen, hread⟩
  · intro sources partialsByClaim claimWeights opening hpartials hopening
    obtain ⟨hdegree, hvalue⟩ := scalarOpening_ok hopening
    rw [hvalue]
    refine (sum_zip_congr (f := fun source : PositionSource F => ∑ position ∈ range t.point.numLivePositions,
        ∑ i ∈ range t.point.geometry.aRingDimension, basisWeight t.point.basis (t.point.paddedPoint point)
          (i + t.point.geometry.aRingDimension * position) * algebraMap F E (source.ring position i))
      (g := fun partials => ∑ b ∈ range t.point.numLiveBlocks, ∑ y ∈ range t.point.geometry.challengeSubringDimension,
        t.liveBlockWeights.getD b 0 * t.tailWeights.getD y 0 * partialCoefficient E t.point.geometry partials b y)
      (fun source partials h => ?_) hpartials claimWeights).symm
    obtain ⟨-, hnonzero, hread⟩ := hkernel source partials h
    rw [← weighted_partials_eq htables hsplit fun position hposition i =>
      PositionSource.ring_of_ge (hnonzero.trans hposition) i]
    apply sum_congr rfl
    intro b hb
    apply sum_congr rfl
    intro y hy
    rw [partialCoefficient_eq hdegree fun e he => hread b (mem_range.1 hb) e he y (mem_range.1 hy)]

end weights

/-! ### A geometry of stride two -/

/-- Every allocation is granted, and tables are built serially. -/
def sampleRuntime : Runtime where
  elemSize := 1
  reserves _ := true
  parallel := false
  foldTree n := .items (List.range n)
  foldTree_toList := OffsetEq.serialFold_toList

def sampleMeasured (_ : SparseStream.SparseChallengeConfig) (_ _ : ℕ) : Except String Unit := .ok ()

def sampleGeometry : Geometry := ⟨1, 128, 64, 2, 2, 64, ⟨31, 10⟩⟩

def samplePoint : PreparedPoint (ZMod 5) := ⟨sampleGeometry, .lagrange, 9, 3, 2, 2, [1], [2, 3, 4, 0, 1, 2], [3], [4]⟩

def sampleTables : Tables (ZMod 5) where
  point := samplePoint
  packingWeights := [0, 1]
  tailWeights := bitTable (eqFactors [2, 3, 4, 0, 1, 2])
  positionWeights := [3, 3]
  liveBlockWeights := [2, 4]

def sampleFused : FusedPackingWeights (ZMod 5) := ⟨sampleTables, [0, 3, 0, 3]⟩

/-- Exact sums of products that are never out of range. -/
def samplePackingField : PackingField (ZMod 5) (ZMod 5) where
  mulBase := (· * ·)
  Product := ZMod 5
  zero := 0
  add := (· + ·)
  mulBaseUnreduced := (· * ·)
  reduceProduct := id
  sumIsExact := true

theorem samplePackingField_lawful : samplePackingField.Lawful where
  mulBase _ _ := rfl
  reduceProduct _ p v h := by
    have hsum : ∀ p v, samplePackingField.Sums p v → (p : ZMod 5) = v := by
      intro p v h
      induction h with
      | zero => rfl
      | product => rfl
      | add _ _ ihp ihq => exact congrArg₂ (· + ·) ihp ihq
    exact hsum p v h

/-- Three live positions: the last block is half full. -/
def sampleSource : PositionSource (ZMod 5) where
  Position := ℕ
  nonzeroPositions := 3
  positionAt p := .ok p
  coefficient p i _ := (p + i : ℕ)

def sampleChallenge : SparseChallenge := ⟨[0, 63], [2, -1]⟩

set_option maxRecDepth 10000 in
theorem sample_runs : ∃ (partials : List (ZMod 5)) (opening : ZMod 5) (product : FoldProduct (ZMod 5)),
    partialsFromPositionSource samplePackingField sampleRuntime 128 sampleFused 9 sampleSource = .ok partials ∧
      scalarOpening sampleRuntime sampleGeometry 2 [partials] [2] sampleTables.liveBlockWeights sampleTables.tailWeights =
        .ok opening ∧ foldPartials sampleRuntime sampleGeometry [sampleChallenge] (List.replicate 64 3) = .ok product :=
  ⟨_, _, _, rfl, rfl, rfl⟩

open Polynomial in
theorem coefficient_packing_opens_sample :
    ∃ (partials : List (ZMod 5)) (opening : ZMod 5) (product : FoldProduct (ZMod 5)),
      partialsFromPositionSource samplePackingField sampleRuntime 128 sampleFused 9 sampleSource = .ok partials ∧
      scalarOpening sampleRuntime sampleGeometry 2 [partials] [2] sampleTables.liveBlockWeights sampleTables.tailWeights =
        .ok opening ∧ foldPartials sampleRuntime sampleGeometry [sampleChallenge] (List.replicate 64 3) = .ok product ∧
      opening = 2 * ∑ position ∈ range 3, ∑ i ∈ range 128,
        basisWeight .lagrange (samplePoint.paddedPoint [1, 2, 3, 4, 0, 1, 2, 3, 4]) (i + 128 * position) *
          algebraMap (ZMod 5) (ZMod 5) (sampleSource.ring position i) ∧
      challengePolynomial sampleChallenge * planePolynomial 64 (List.replicate 64 (3 : ZMod 5)) 0 =
        planePolynomial 64 product.reducedBaseFieldCoordinates 0 +
          (X ^ 64 + 1) * planePolynomial 64 product.quotientHighHalfBaseFieldCoordinates 0 := by
  obtain ⟨partials, opening, product, hpartials, hopening, hproduct⟩ := sample_runs
  have hg : Geometry.tryNew sampleMeasured 1 128 64 = .ok sampleGeometry := rfl
  have hp : PreparedPoint.new sampleGeometry .lagrange 3 2 9 [1, 2, 3, 4, 0, 1, 2, 3, 4] = .ok samplePoint := rfl
  have ht : Tables.new sampleRuntime samplePoint = .ok sampleTables := rfl
  have hfused : FusedPackingWeights.new sampleRuntime sampleTables = .ok sampleFused := rfl
  refine ⟨partials, opening, product, hpartials, hopening, hproduct, ?_, ?_⟩
  · have h := (coefficient_packing_opens samplePackingField_lawful hg hp ht hfused).2.1 [sampleSource] [partials] [2] opening
      (List.Forall₂.cons hpartials List.Forall₂.nil) hopening
    simpa only [List.zip_cons_cons, List.zip_nil_right, List.map_cons, List.map_nil, List.sum_cons, List.sum_nil,
      add_zero] using h
  · have h := (coefficient_packing_opens samplePackingField_lawful hg hp ht hfused).2.2.2 [sampleChallenge] _ product
      hproduct 0 (by norm_num)
    simpa only [List.zipIdx_cons, List.zipIdx_nil, List.map_cons, List.map_nil, List.sum_cons, List.sum_nil, add_zero,
      Nat.zero_mul, zero_add] using h

end Akita.CoefficientPacking
