import Akita.Lib.Enumerate
import Akita.Lib.Summary
import Akita.Proof.SubfieldPacking

/-!
# The trace inner product

The extension field goes into the ring by its coordinates, as a ring homomorphism, and the
trace of a packed vector against the inverse of another is their inner product. Recovery
inverts the packing in every residue class, so it returns that inner product without a trace;
the opening row reads it off one ring product.
-/

namespace Akita.FieldReduction

open Lib Negacyclic Finset
open List hiding map_cons mem_range smul_sum sum_cons
open Option (bind_some bind_eq_bind)

/-! ## Places and coefficients -/

section

open FieldReduction.CyclotomicRing

variable {F : Type} [Field F] {D K κ m : ℕ} {shift r b j : ℕ} {α : Type}

theorem inverse_two [DecidableEq F] (h2 : (2 : F) ≠ 0) (e : AkitaError) : okOr (inverse (2 : F)) e = .ok 2⁻¹ := by
  rw [inverse, if_neg h2, okOr]

theorem cons_map_range' (c : ℕ → α) {k : ℕ} (hk : 0 < k) : c 0 :: (range' 1 (k - 1)).map c = (List.range k).map c := by
  obtain ⟨n, rfl⟩ : ∃ n, k = n + 1 := ⟨k - 1, by omega⟩
  rw [range_eq_range', range'_succ, List.map_cons, Nat.add_sub_cancel]

/-- The coefficients of `ring * X^shift`. -/
def shifted (ring : CyclotomicRing F D) (shift : ℕ) : CyclotomicRing F D := fun t =>
  if (t : ℕ) ≥ shift then coef ring (t - shift) else -coef ring (D + t - shift)

theorem shiftedCoefficient_ok (hD : D * 2 < 2 ^ usizeBits) (ring : CyclotomicRing F D) {target : ℕ} (hshift : shift < D)
    (htarget : target < D) : shiftedCoefficient ring shift target = some (coef (shifted ring shift) target) := by
  rw [shiftedCoefficient, if_neg (by omega), coef, dif_pos htarget, shifted]
  split_ifs with hge
  · exact get_eq ring (by omega)
  · have hadd : checkedAdd usizeBits D target = some (D + target) := checkedAdd_eq_some.2 ⟨by omega, rfl⟩
    have hsub : checkedSub (D + target) shift = some (D + target - shift) := checkedSub_eq_some.2 ⟨by omega, rfl⟩
    simp only [hadd, bind_eq_bind, bind_some, hsub, get_eq ring (by omega : D + target - shift < D)]
    rfl

theorem value_shifted (ring : CyclotomicRing F D) (hshift : shift < D) :
    value F D (shifted ring shift) = value F D ring * root F D ^ shift := by
  have hcoef : ∀ t < D, coef (shifted ring shift) t = if t ≥ shift then coef ring (t - shift) else -coef ring (D + t - shift) := by
    intro t ht
    rw [coef, dif_pos ht]
    rfl
  have hleft : ∑ t ∈ range (shift + (D - shift)), coef (shifted ring shift) t • root F D ^ t =
      ∑ t ∈ range shift, coef ring (D - shift + t) • (root F D ^ (D - shift + t) * root F D ^ shift) +
        ∑ t ∈ range (D - shift), coef ring t • (root F D ^ t * root F D ^ shift) := by
    rw [sum_range_add]
    congr 1
    · refine sum_congr rfl fun t ht => ?_
      rw [mem_range] at ht
      rw [hcoef t (by omega), if_neg (by omega), ← pow_add, show D - shift + t + shift = D + t by omega, pow_add, root_pow_self,
        show D + t - shift = D - shift + t by omega]
      simp
    · refine sum_congr rfl fun t ht => ?_
      rw [mem_range] at ht
      rw [hcoef _ (by omega), if_pos (by omega), Nat.add_sub_cancel_left, ← pow_add, add_comm shift]
  have hright : ∑ t ∈ range (D - shift + shift), coef ring t • root F D ^ t =
      ∑ t ∈ range D, coef ring t • root F D ^ t := by rw [Nat.sub_add_cancel hshift.le]
  rw [Nat.add_sub_cancel' hshift.le] at hleft
  rw [value_eq_sum, value_eq_sum, hleft, ← hright, sum_range_add, add_mul, sum_mul, sum_mul, add_comm]
  simp only [smul_mul_assoc]

def supportedDegrees : List ℕ := [1, 2, 4, 8]

theorem dispatchDegree_ok (params : SubfieldParams D K) (hdeg : K ∈ supportedDegrees)
    (rejected unsupported : AkitaError) (arm : ∀ {k}, SubfieldParams D k → Result α) :
    dispatchDegree D K rejected unsupported arm = arm params := by
  have hcases : K = 1 ∨ K = 2 ∨ K = 4 ∨ K = 8 := by simpa [supportedDegrees] using hdeg
  rw [dispatchDegree, if_pos hcases, params.new_ok]
  rfl

theorem dispatchDegree_unsupported (hdeg : K ∉ supportedDegrees) (rejected unsupported : AkitaError)
    (arm : ∀ {k}, SubfieldParams D k → Result α) :
    dispatchDegree D K rejected unsupported arm = .error unsupported := by
  rw [dispatchDegree, if_neg]
  simpa [supportedDegrees] using hdeg

theorem power_subfieldValue (hs : Shape D K κ m) (c : ℕ → F) {n : ℕ} (hn : n ∈ traceExponents K (2 ^ m)) :
    power n (subfieldValue F D K m c) = subfieldValue F D K m c := by
  rw [power_of_odd (odd_of_mem_traceExponents hn)]
  exact sigma_subfieldSum hs.D_eq _ (mem_traceExponents_cases hs.K_pos hn) _

variable (hs : Shape D K κ m)

include hs

theorem Shape.place_lt (hr : r < 2 ^ m) (hb : b < 2 * K) : r + b * 2 ^ m < D := by
  have hrow := offset_le (m := m) hb
  rw [← hs.D_eq] at hrow
  omega

theorem read_place (hD : D * 2 < 2 ^ usizeBits) (a : CyclotomicRing F D) (hr : r < 2 ^ m) (hb : b < 2 * K) :
    checkedMul usizeBits b (2 ^ m) = some (b * 2 ^ m) ∧ checkedAdd usizeBits r (b * 2 ^ m) = some (r + b * 2 ^ m) ∧
      a.get (r + b * 2 ^ m) = some (coef a (r + b * 2 ^ m)) := by
  have hlt := hs.place_lt hr hb
  exact ⟨checkedMul_eq_some.2 ⟨by omega, rfl⟩, checkedAdd_eq_some.2 ⟨by omega, rfl⟩, get_eq a hlt⟩

theorem decodeCoordinate_ok (hD : D * 2 < 2 ^ usizeBits) (a : CyclotomicRing F D) (hr : r < 2 ^ m) (high : Bool)
    (hj : 0 < j ∧ j < K) : decodeCoordinate K 2⁻¹ (2 ^ m) a r high j =
      some (if high then highCoords K (fun b => coef a (r + b * 2 ^ m)) j
        else lowCoords K (fun b => coef a (r + b * 2 ^ m)) j) := by
  have hKD : 2 * K ≤ D := by
    rw [hs.D_eq]
    exact Nat.le_mul_of_pos_right _ (by positivity)
  have hread := fun b hb => read_place hs hD a (b := b) hr hb
  cases high with
  | false =>
    have hdouble : checkedMul usizeBits 2 K = some (2 * K) := checkedMul_eq_some.2 ⟨by omega, rfl⟩
    have hsub : checkedSub (2 * K) j = some (2 * K - j) := checkedSub_eq_some.2 ⟨by omega, rfl⟩
    obtain ⟨hm1, ha1, hg1⟩ := hread j (by omega)
    obtain ⟨hm2, ha2, hg2⟩ := hread (2 * K - j) (by omega)
    simp only [decodeCoordinate, Bool.false_eq_true, if_false, hdouble, bind_some, hsub, bind_eq_bind, hm1, ha1,
      hg1, hm2, ha2, hg2]
    rw [lowCoords, if_neg (by omega)]
    rfl
  | true =>
    have hsub : checkedSub K j = some (K - j) := checkedSub_eq_some.2 ⟨by omega, rfl⟩
    have hadd : checkedAdd usizeBits K j = some (K + j) := checkedAdd_eq_some.2 ⟨by omega, rfl⟩
    obtain ⟨hm1, ha1, hg1⟩ := hread (K - j) (by omega)
    obtain ⟨hm2, ha2, hg2⟩ := hread (K + j) (by omega)
    simp only [decodeCoordinate, if_true, hsub, hadd, bind_some, bind_eq_bind, hm1, ha1, hg1, hm2, ha2, hg2]
    rw [highCoords, if_neg (by omega)]
    rfl

theorem traceOpenCoordinate_ok (hD : D * 2 < 2 ^ usizeBits) (product : CyclotomicRing F D) (hshift : shift < D)
    (hj : 0 < j ∧ j < K) : traceOpenCoordinate 2⁻¹ (2 ^ m) product shift j =
      .ok (lowCoords K (fun b => coef (shifted product shift) (b * 2 ^ m)) j) := by
  have hplace := offset_le (m := m) (by omega : j < 2 * K)
  rw [← hs.D_eq] at hplace
  have hposm : 0 < 2 ^ m := by positivity
  have hstep : 2 ^ m ≤ j * 2 ^ m := Nat.le_mul_of_pos_left _ hj.1
  have hmul : checkedMul usizeBits j (2 ^ m) = some (j * 2 ^ m) := checkedMul_eq_some.2 ⟨by omega, rfl⟩
  have hsub : checkedSub D (j * 2 ^ m) = some (D - j * 2 ^ m) := checkedSub_eq_some.2 ⟨by omega, rfl⟩
  have hmirror : D - j * 2 ^ m = (2 * K - j) * 2 ^ m := by rw [Nat.sub_mul, ← hs.D_eq]
  have hleft := shiftedCoefficient_ok hD product hshift (by omega : j * 2 ^ m < D)
  have hright := shiftedCoefficient_ok hD product hshift (by omega : D - j * 2 ^ m < D)
  simp only [traceOpenCoordinate, hmul, hsub, hleft, hright, okOr, ok_bind]
  rw [lowCoords, if_neg (by omega), hmirror]
  rfl

end

/-! ## Slots -/

section

open FieldReduction.CyclotomicRing

variable {F E : Type} [Field F] {𝔼 : ExtBackend F E} {D κ m : ℕ}

/-- Coordinate `j` of an extension element. -/
def ExtBackend.coord (𝔼 : ExtBackend F E) (x : E) (j : ℕ) : F := (𝔼.extCoords x).getD j 0

def ExtBackend.ofCoord (𝔼 : ExtBackend F E) (c : ℕ → F) : E := 𝔼.fromBaseSlice ((List.range 𝔼.degree).map c)

def lowSlot (𝔼 : ExtBackend F E) (m : ℕ) (a : CyclotomicRing F D) (r : ℕ) : E :=
  𝔼.ofCoord (lowCoords 𝔼.degree fun b => coef a (r + b * 2 ^ m))

def highSlot (𝔼 : ExtBackend F E) (m : ℕ) (a : CyclotomicRing F D) (r : ℕ) : E :=
  𝔼.ofCoord (highCoords 𝔼.degree fun b => coef a (r + b * 2 ^ m))

omit [Field F] in
theorem ofCoord_congr {c c' : ℕ → F} (hc : ∀ j < 𝔼.degree, c j = c' j) : 𝔼.ofCoord c = 𝔼.ofCoord c' := by
  rw [ExtBackend.ofCoord, ExtBackend.ofCoord, map_congr_left fun j hj => hc j (List.mem_range.1 hj)]

section

variable (hs : Shape D 𝔼.degree κ m)

include hs

/-- **A slot is read back** from its places. -/
theorem decodeSlot_ok {r : ℕ} (hD : D * 2 < 2 ^ usizeBits) (a : CyclotomicRing F D) (hr : r < 2 ^ m) (high : Bool) :
    decodeSlot 𝔼 𝔼.degree 2⁻¹ (2 ^ m) a r high = some (if high then highSlot 𝔼 m a r else lowSlot 𝔼 m a r) := by
  have hK := hs.K_pos
  have hKD : 2 * 𝔼.degree ≤ D := by
    rw [hs.D_eq]
    exact Nat.le_mul_of_pos_right _ (by positivity)
  have hrest : ∀ j ∈ range' 1 (𝔼.degree - 1), decodeCoordinate 𝔼.degree 2⁻¹ (2 ^ m) a r high j = some
      (if high then highCoords 𝔼.degree (fun b => coef a (r + b * 2 ^ m)) j
        else lowCoords 𝔼.degree (fun b => coef a (r + b * 2 ^ m)) j) := by
    intro j hj
    rw [mem_range'_1] at hj
    exact decodeCoordinate_ok hs hD a hr high (by omega)
  obtain ⟨hm, ha, hg⟩ := read_place hs hD a hr (b := high.toNat * 𝔼.degree) (by have := Bool.toNat_le high; nlinarith)
  have hblock : checkedMul usizeBits high.toNat 𝔼.degree = some (high.toNat * 𝔼.degree) :=
    checkedMul_eq_some.2 ⟨by rcases high with _ | _ <;> simp only [Bool.toNat_false, Bool.toNat_true] <;> omega, rfl⟩
  simp only [decodeSlot, hblock, bind_eq_bind, bind_some, hm, ha, if_neg hK.ne', hg, mapM_some_of_forall hrest]
  cases high with
  | false =>
    have hlist := cons_map_range' (lowCoords 𝔼.degree fun b => coef a (r + b * 2 ^ m)) hK
    simp only [Bool.toNat_false, zero_mul, Bool.false_eq_true, if_false, lowSlot, ExtBackend.ofCoord, ← hlist]
    rw [lowCoords, if_pos rfl, zero_mul]
    rfl
  | true =>
    have hlist := cons_map_range' (highCoords 𝔼.degree fun b => coef a (r + b * 2 ^ m)) hK
    simp only [Bool.toNat_true, one_mul, if_true, highSlot, ExtBackend.ofCoord, ← hlist]
    rw [highCoords, if_pos rfl]
    rfl

theorem traceOpenEntry_ok {shift : ℕ} (hD : D * 2 < 2 ^ usizeBits) (product : CyclotomicRing F D) (hshift : shift < D) :
    traceOpenEntry 𝔼 𝔼.degree 2⁻¹ product shift =
      .ok (𝔼.ofCoord (lowCoords 𝔼.degree fun b => coef (shifted product shift) (b * 2 ^ m))) := by
  have hrest : ∀ j ∈ range' 1 (𝔼.degree - 1), traceOpenCoordinate 2⁻¹ (2 ^ m) product shift j =
      .ok (lowCoords 𝔼.degree (fun b => coef (shifted product shift) (b * 2 ^ m)) j) := by
    intro j hj
    rw [mem_range'_1] at hj
    exact traceOpenCoordinate_ok hs hD product hshift (by omega)
  have hlist := cons_map_range' (lowCoords 𝔼.degree fun b => coef (shifted product shift) (b * 2 ^ m)) hs.K_pos
  simp only [traceOpenEntry, hs.step_eq, shiftedCoefficient_ok hD product hshift hs.D_pos, okOr, ok_bind,
    mapM_ok_of_forall hrest]
  rw [ExtBackend.ofCoord, ← hlist, lowCoords, if_pos rfl, zero_mul]
  rfl

theorem traceOpenRingRow_eq [DecidableEq F] (h2 : (2 : F) ≠ 0) (params : SubfieldParams D 𝔼.degree)
    {ring p partner product : CyclotomicRing F D} (hpartner : p.sigmaM1 = .ok partner)
    (hprod : ring.mulAccumulateInto partner 0 = .ok product) {bits : ℕ} (hbits : 2 ^ bits ≤ D) :
    traceOpenRingRow 𝔼 ring p bits = if 𝔼.degree ∈ supportedDegrees then
        .ok ((List.range (2 ^ bits)).map fun shift =>
          𝔼.ofCoord (lowCoords 𝔼.degree fun b => coef (shifted product shift) (b * 2 ^ m)))
      else .error (.invalidInput "unsupported ring-subfield extension degree") := by
  have hD := params.twoD_lt
  have hpow : okOr (Checked.pow2 bits) (.invalidInput "trace-open row length overflow") = .ok (2 ^ bits) := by
    rw [okOr_eq_ok, Checked.pow2_eq_some]
    have hlt : 2 ^ bits < 2 ^ 64 := by rw [usizeBits] at hD; omega
    exact ⟨(Nat.pow_lt_pow_iff_right (by omega)).1 hlt, rfl⟩
  simp only [traceOpenRingRow, hpow, hpartner, hprod, inverse_two h2, ok_bind]
  split_ifs with hdeg
  · rw [dispatchDegree_ok params hdeg]
    refine mapM_ok_of_forall fun shift hshift => ?_
    rw [List.mem_range] at hshift
    exact traceOpenEntry_ok hs hD product (by omega)
  · exact dispatchDegree_unsupported hdeg _ _ _

end

variable [CommRing E]

def slotProduct (𝔼 : ExtBackend F E) (m : ℕ) (a b : CyclotomicRing F D) : E :=
  ∑ r ∈ range (2 ^ m), (lowSlot 𝔼 m a r * lowSlot 𝔼 m b r + highSlot 𝔼 m a r * highSlot 𝔼 m b r)

def innerProduct (s r : List E) : E := (List.zipWith (· * ·) s r).sum

theorem slotProduct_eq {Y P : CyclotomicRing F D} {s r : List E} (hlens : s.length = 2 * 2 ^ m) (hlenr : r.length = 2 * 2 ^ m)
    (hY : ∀ i < 2 ^ m, lowSlot 𝔼 m Y i = s.getD i 0 ∧ highSlot 𝔼 m Y i = s.getD (2 ^ m + i) 0)
    (hP : ∀ i < 2 ^ m, lowSlot 𝔼 m P i = r.getD i 0 ∧ highSlot 𝔼 m P i = r.getD (2 ^ m + i) 0) :
    slotProduct 𝔼 m Y P = innerProduct s r := by
  rw [innerProduct, sum_zipWith _ hlens hlenr 0 0, two_mul, sum_range_add, ← sum_add_distrib, slotProduct]
  refine sum_congr rfl fun i hi => ?_
  rw [mem_range] at hi
  rw [(hY i hi).1, (hY i hi).2, (hP i hi).1, (hP i hi).2]

/-! ## The opening row -/

/-- **Recovery is the inner product of the slots**, at every degree. -/
theorem recoverPsiInnerProduct_ok [DecidableEq F] (hs : Shape D 𝔼.degree κ m) (h2 : (2 : F) ≠ 0) (hD : D * 2 < 2 ^ usizeBits)
    (a b : CyclotomicRing F D) : recoverPsiInnerProduct 𝔼 𝔼.degree a b = .ok (slotProduct 𝔼 m a b) := by
  have hpass : ∀ (made : List ℕ) (r : ℕ) (rest : List ℕ) (acc : E), List.range (2 ^ m) = made ++ r :: rest → True →
      ∃ acc', (do
        let lhsLow ← okOr (decodeSlot 𝔼 𝔼.degree 2⁻¹ (2 ^ m) a r false)
          (.internal "psi recovery cannot extract the low left coordinates")
        let rhsLow ← okOr (decodeSlot 𝔼 𝔼.degree 2⁻¹ (2 ^ m) b r false)
          (.internal "psi recovery cannot extract the low right coordinates")
        let lhsHigh ← okOr (decodeSlot 𝔼 𝔼.degree 2⁻¹ (2 ^ m) a r true)
          (.internal "psi recovery cannot extract the high left coordinates")
        let rhsHigh ← okOr (decodeSlot 𝔼 𝔼.degree 2⁻¹ (2 ^ m) b r true)
          (.internal "psi recovery cannot extract the high right coordinates")
        return acc + (lhsLow * rhsLow + lhsHigh * rhsHigh) : Result E) = .ok acc' ∧ True ∧
        id acc' = id acc + (lowSlot 𝔼 m a r * lowSlot 𝔼 m b r + highSlot 𝔼 m a r * highSlot 𝔼 m b r) := by
    intro made r rest acc hl _
    have hr : r ∈ List.range (2 ^ m) := by rw [hl]; simp
    rw [List.mem_range] at hr
    simp only [decodeSlot_ok hs hD _ hr, okOr]
    exact ⟨_, rfl, trivial, rfl⟩
  obtain ⟨acc, hok, -, hval⟩ := foldlM_runs (s := (0 : E)) hpass trivial
  have hval : acc = slotProduct 𝔼 m a b := by rw [slotProduct, ← sum_map_range, ← zero_add (sum _)]; exact hval
  rw [recoverPsiInnerProduct, inverse_two h2, hs.step_eq, ← hval]
  exact hok

end

/-! ## The extension field inside the ring -/

section extension

variable {F E : Type} [Field F] [CommRing E] [Algebra F E] {𝔼 : ExtBackend F E} {e : ℕ → E} {D K κ m : ℕ} {j : ℕ}

theorem getD_map_range (c : ℕ → F) {n : ℕ} (hj : j < n) : ((List.range n).map c).getD j 0 = c j := by
  simp [getD_eq_getElem?_getD, hj]

namespace ExtBackend.Lawful

variable (h : 𝔼.Lawful e)

include h

theorem coord_ofCoord (c : ℕ → F) (hj : j < 𝔼.degree) : 𝔼.coord (𝔼.ofCoord c) j = c j := by
  rw [coord, ofCoord, h.extCoords_fromBaseSlice _ (by simp), getD_map_range c hj]

theorem map_coord (x : E) : (List.range 𝔼.degree).map (𝔼.coord x) = 𝔼.extCoords x := by
  refine ext_getElem (by simp [h.extCoords_length]) fun i h1 h2 => ?_
  rw [getElem_map, getElem_range, coord, getD_eq_getElem?_getD, getElem?_eq_getElem h2, Option.getD_some]

theorem ofCoord_coord (x : E) : 𝔼.ofCoord (𝔼.coord x) = x := by
  rw [ofCoord, h.map_coord, h.fromBaseSlice_extCoords]

theorem ofCoord_eq (hdeg : 0 < 𝔼.degree) (c : ℕ → F) :
    𝔼.ofCoord c = ∑ j ∈ range 𝔼.degree, c j • (if j = 0 then 1 else e j) := by
  rw [ofCoord, h.fromBaseSlice_eq _ (by simp), getD_map_range c hdeg, range_eq_Ico, sum_eq_sum_Ico_succ_bot hdeg, if_pos rfl]
  congr 1
  refine sum_congr rfl fun j hj => ?_
  rw [mem_Ico] at hj
  rw [getD_map_range c hj.2, if_neg (by omega)]

end ExtBackend.Lawful

theorem flatMap_coords (h : 𝔼.Lawful e) (s : List E) : (s.flatMap 𝔼.extCoords).length = s.length * 𝔼.degree ∧
    ∀ i < s.length, ∀ j < 𝔼.degree, (s.flatMap 𝔼.extCoords).getD (i * 𝔼.degree + j) 0 = 𝔼.coord (s.getD i 0) j := by
  induction s with
  | nil => simp
  | cons x s ih =>
    have hx := h.extCoords_length x
    refine ⟨by rw [flatMap_cons, length_append, hx, ih.1, length_cons]; ring, fun i hi j hj => ?_⟩
    rw [flatMap_cons, getD_eq_getElem?_getD]
    cases i with
    | zero =>
      rw [getElem?_append_left (by rw [hx]; omega), zero_mul, zero_add, getD_cons_zero, ExtBackend.coord,
        getD_eq_getElem?_getD]
    | succ i =>
      have hlt : i < s.length := by simpa using hi
      have hindex : (i + 1) * 𝔼.degree + j = 𝔼.degree + (i * 𝔼.degree + j) := by ring
      rw [hindex, getElem?_append_right (by rw [hx]; omega), hx, Nat.add_sub_cancel_left, getD_cons_succ,
        ← getD_eq_getElem?_getD]
      exact ih.2 i hlt j hj

/-- The image of an extension element in the ring-subfield. -/
noncomputable def embed (𝔼 : ExtBackend F E) (D m : ℕ) (x : E) : Negacyclic F D :=
  subfieldValue F D 𝔼.degree m (𝔼.coord x)

section

variable (h : 𝔼.Lawful e) (hs : Shape D 𝔼.degree κ m)

include h hs

theorem embed_ofCoord (c : ℕ → F) : embed 𝔼 D m (𝔼.ofCoord c) = subfieldValue F D 𝔼.degree m c :=
  subfieldSum_congr hs.K_pos fun _ hj => h.coord_ofCoord c hj

theorem embed_add (x y : E) : embed 𝔼 D m (x + y) = embed 𝔼 D m x + embed 𝔼 D m y := by
  have hsum : x + y = 𝔼.ofCoord fun j => 𝔼.coord x j + 𝔼.coord y j := by
    conv_lhs => rw [← h.ofCoord_coord x, ← h.ofCoord_coord y]
    simp only [h.ofCoord_eq hs.K_pos, add_smul, sum_add_distrib]
  rw [hsum, embed_ofCoord h hs, subfieldValue, subfieldSum_add]
  rfl

theorem embed_smul (a : F) (x : E) : embed 𝔼 D m (a • x) = a • embed 𝔼 D m x := by
  have hsmul : a • x = 𝔼.ofCoord fun j => a * 𝔼.coord x j := by
    conv_lhs => rw [← h.ofCoord_coord x]
    simp only [h.ofCoord_eq hs.K_pos, mul_smul, smul_sum]
  rw [hsmul, embed_ofCoord h hs, subfieldValue, subfieldSum_smul]
  rfl

theorem embed_zero : embed 𝔼 D m 0 = 0 := by
  have hzero := embed_smul h hs 0 0
  rwa [zero_smul, zero_smul] at hzero

theorem embed_sum {ι : Type*} (t : Finset ι) (f : ι → E) : embed 𝔼 D m (∑ i ∈ t, f i) = ∑ i ∈ t, embed 𝔼 D m (f i) := by
  induction t using Finset.cons_induction with
  | empty => rw [sum_empty, sum_empty, embed_zero h hs]
  | cons i t hi ih => rw [sum_cons, sum_cons, embed_add h hs, ih]

theorem embed_basis (hj : j < 𝔼.degree) :
    embed 𝔼 D m (if j = 0 then 1 else e j) = subfieldBasis (root F D ^ 2 ^ m) 𝔼.degree j := by
  have hunit : (if j = 0 then 1 else e j) = 𝔼.ofCoord fun i => if i = j then 1 else 0 := by
    rw [h.ofCoord_eq hs.K_pos, sum_eq_single_of_mem j (mem_range.2 hj) fun i _ hi => by simp [hi]]
    simp
  rw [hunit, embed_ofCoord h hs, subfieldValue, subfieldSum_eq hs.K_pos,
    sum_eq_single_of_mem j (mem_range.2 hj) fun i _ hi => by simp [hi]]
  simp

theorem embed_conjSum {n : ℕ} (hn : n ≤ 2 * 𝔼.degree) :
    embed 𝔼 D m (e n) = conjSum (root F D ^ 2 ^ m) (2 * 𝔼.degree) n := by
  have hy := root_pow_step (F := F) hs.D_eq
  have hone := embed_basis h hs hs.K_pos
  rw [if_pos rfl, subfieldBasis, if_pos rfl] at hone
  have hsmall : ∀ j < 𝔼.degree, embed 𝔼 D m (e j) = conjSum (root F D ^ 2 ^ m) (2 * 𝔼.degree) j := by
    intro j hj
    rcases Nat.eq_zero_or_pos j with rfl | hpos
    · rw [h.basis_zero, ← one_add_one_eq_two, embed_add h hs, hone, conjSum_zero hy, one_add_one_eq_two]
    · have hbasis := embed_basis h hs hj
      rwa [if_neg (by omega), subfieldBasis, if_neg (by omega)] at hbasis
  rcases Nat.lt_trichotomy n 𝔼.degree with hlt | heq | hgt
  · exact hsmall n hlt
  · rw [heq, h.basis_degree, embed_zero h hs, conjSum_half]
  · have hmirror : n = 2 * 𝔼.degree - (2 * 𝔼.degree - n) := by omega
    rw [hmirror, h.basis_reflect _ (by omega), conjSum_reflect (by omega), ← hsmall _ (by omega), ← neg_one_smul F,
      embed_smul h hs, neg_one_smul]

/-- **The embedding is multiplicative.** -/
theorem embed_mul (x y : E) : embed 𝔼 D m (x * y) = embed 𝔼 D m x * embed 𝔼 D m y := by
  have hy := root_pow_step (F := F) hs.D_eq
  have hordered : ∀ i < 𝔼.degree, ∀ j ≤ i, embed 𝔼 D m ((if i = 0 then 1 else e i) * (if j = 0 then 1 else e j)) =
      embed 𝔼 D m (if i = 0 then 1 else e i) * embed 𝔼 D m (if j = 0 then 1 else e j) := by
    intro i hi j hj
    rcases Nat.eq_zero_or_pos j with rfl | hpos
    · have hone := embed_basis h hs hs.K_pos
      rw [if_pos rfl, subfieldBasis, if_pos rfl] at hone
      rw [if_pos rfl, mul_one, hone, mul_one]
    · rw [if_neg (by omega), if_neg (by omega), h.basis_mul i hi j hj, embed_add h hs, embed_conjSum h hs (by omega),
        embed_conjSum h hs (by omega), embed_conjSum h hs (by omega), embed_conjSum h hs (by omega), conjSum_mul hy hj (by omega)]
  have hpair : ∀ i < 𝔼.degree, ∀ j < 𝔼.degree, embed 𝔼 D m ((if i = 0 then 1 else e i) * (if j = 0 then 1 else e j)) =
        embed 𝔼 D m (if i = 0 then 1 else e i) * embed 𝔼 D m (if j = 0 then 1 else e j) := by
    intro i hi j hj
    rcases le_total j i with hle | hle
    · exact hordered i hi j hle
    · rw [mul_comm, hordered j hj i hle, mul_comm]
  have hexpand : ∀ z : E, embed 𝔼 D m z = ∑ j ∈ range 𝔼.degree, 𝔼.coord z j • embed 𝔼 D m (if j = 0 then 1 else e j) := by
    intro z
    conv_lhs => rw [← h.ofCoord_coord z, h.ofCoord_eq hs.K_pos, embed_sum h hs]
    exact sum_congr rfl fun j _ => embed_smul h hs _ _
  conv_lhs => rw [← h.ofCoord_coord x, ← h.ofCoord_coord y, h.ofCoord_eq hs.K_pos, h.ofCoord_eq hs.K_pos, sum_mul_sum]
  rw [hexpand x, hexpand y, sum_mul_sum, embed_sum h hs]
  refine sum_congr rfl fun i hi => ?_
  rw [embed_sum h hs]
  refine sum_congr rfl fun j hj => ?_
  rw [smul_mul_smul_comm, embed_smul h hs, hpair i (mem_range.1 hi) j (mem_range.1 hj), smul_mul_smul_comm]

end

/-! ## The identity -/

section

open FieldReduction.CyclotomicRing

variable (hs : Shape D 𝔼.degree κ m) (h : 𝔼.Lawful e)

include hs h

section

variable (h2 : (2 : F) ≠ 0)

include h2

theorem value_slots (a : CyclotomicRing F D) : value F D a =
    packed 𝔼.degree (2 ^ m) (fun r => embed 𝔼 D m (lowSlot 𝔼 m a r)) (fun r => embed 𝔼 D m (highSlot 𝔼 m a r)) := by
  simp only [lowSlot, highSlot, embed_ofCoord h hs]
  exact value_eq_packed h2 hs.K_pos hs.D_eq a

/-- **The trace of a product of ring elements**, one turned by `σ_{-1}`, is the inner product of their slots. -/
theorem trace_slotProduct (a b : CyclotomicRing F D) :
    trace 𝔼.degree (2 ^ m) (value F D a * Negacyclic.sigma (2 * D - 1) (odd_two_mul_sub_one hs.D_pos) (value F D b)) =
      (2 * 2 ^ m : F) • embed 𝔼 D m (slotProduct 𝔼 m a b) := by
  have hfix : ∀ x : E, ∀ n ∈ traceExponents 𝔼.degree (2 ^ m), power n (embed 𝔼 D m x) = embed 𝔼 D m x :=
    fun x n hn => power_subfieldValue hs _ hn
  rw [value_slots hs h h2 a, value_slots hs h h2 b, trace_packed_mul hs.K_pos hs.D_eq (odd_two_mul_sub_one hs.D_pos)
    (fun r => hfix (lowSlot 𝔼 m a r)) (fun r => hfix (highSlot 𝔼 m a r)) (fun r => hfix (lowSlot 𝔼 m b r))
    (fun r => hfix (highSlot 𝔼 m b r)), slotProduct, embed_sum h hs, Algebra.smul_def, map_mul, map_pow, map_ofNat]
  congr 1
  refine sum_congr rfl fun r _ => ?_
  rw [embed_add h hs, embed_mul h hs, embed_mul h hs]

/-- **The slots of a packed vector are the vector.** -/
theorem psiEmbed_slots (params : SubfieldParams D 𝔼.degree) {s : List E} (hlen : s.length = 2 * 2 ^ m) :
    ∃ Y, psiEmbed params (s.flatMap 𝔼.extCoords) = .ok Y ∧ ∀ r < 2 ^ m,
      lowSlot 𝔼 m Y r = s.getD r 0 ∧ highSlot 𝔼 m Y r = s.getD (2 ^ m + r) 0 := by
  obtain ⟨Ψ, hpsi, hsymm⟩ := psiEmbed_bijective hs h2 params
  obtain ⟨hflat, hcoord⟩ := flatMap_coords h s
  have hD : (s.flatMap 𝔼.extCoords).length = D := by rw [hflat, hlen, hs.D_eq]; ring
  set c : Fin D → F := fun n => (s.flatMap 𝔼.extCoords).getD n 0 with hc
  have hofFn : ofFn c = s.flatMap 𝔼.extCoords := by
    refine List.ext_getElem (by simp [hD]) fun n h1 h2 => ?_
    rw [List.getElem_ofFn]
    simp only [hc, List.getD_eq_getElem?_getD, List.getElem?_eq_getElem h2, Option.getD_some]
  have hslot : ∀ i < 2 * 2 ^ m, ∀ j < 𝔼.degree,
      slotCoords 𝔼.degree m (Ψ c) (i * 𝔼.degree + j) = 𝔼.coord (s.getD i 0) j := by
    intro i hi j hj
    have hlt := hs.index_lt hi hj
    have hread := hsymm (Ψ c) (i * 𝔼.degree + j)
    rw [Ψ.symm_apply_apply, if_pos hlt, coef, dif_pos hlt] at hread
    rw [← hread, ← hcoord i (by omega) j hj]
  refine ⟨Ψ c, by rw [← hofFn]; exact hpsi c, fun r hr => ⟨?_, ?_⟩⟩
  · rw [← h.ofCoord_coord (s.getD r 0), lowSlot]
    exact ofCoord_congr fun j hj => by rw [← hslot r (by omega) j hj, slotCoords_low _ hr hj]
  · rw [← h.ofCoord_coord (s.getD (2 ^ m + r) 0), highSlot]
    exact ofCoord_congr fun j hj => by rw [← hslot (2 ^ m + r) (by omega) j hj, slotCoords_high _ hj]

/-- **A coordinate vector read off the product** is the inner product of the slots. -/
theorem ofCoord_shifted {shift : ℕ} (params : SubfieldParams D 𝔼.degree) {ring p product ringShifted : CyclotomicRing F D} (hshift : shift < D)
    (hprod : value F D product =
      value F D ring * Negacyclic.sigma (2 * D - 1) (odd_two_mul_sub_one hs.D_pos) (value F D p))
    (hring : value F D ringShifted = value F D ring * root F D ^ shift) :
    𝔼.ofCoord (lowCoords 𝔼.degree fun b => coef (shifted product shift) (b * 2 ^ m)) = slotProduct 𝔼 m ringShifted p := by
  have hscale : (2 * 2 ^ m : F) ≠ 0 := mul_ne_zero h2 (pow_ne_zero _ h2)
  have htrace := trace_slotProduct hs h h2 ringShifted p
  have hsame : value F D ringShifted * Negacyclic.sigma (2 * D - 1) (odd_two_mul_sub_one hs.D_pos) (value F D p) =
      value F D (shifted product shift) := by
    rw [value_shifted product hshift, hprod, hring]
    ring
  rw [hsame, trace_value h2 hs.K_pos hs.D_eq] at htrace
  have hvalue := smul_right_injective _ hscale htrace
  rw [← h.ofCoord_coord (slotProduct 𝔼 m ringShifted p)]
  exact ofCoord_congr (subfieldValue_injective hs h2 params hvalue)

/-- **The opening row**: entry `c` is the value recovered for `ring * X^c`. -/
theorem traceOpenRingRow_ok [DecidableEq F] (params : SubfieldParams D 𝔼.degree)
    (ring p : CyclotomicRing F D) {bits : ℕ} (hbits : 2 ^ bits ≤ D) :
    if 𝔼.degree ∈ supportedDegrees then
      ∃ row, traceOpenRingRow 𝔼 ring p bits = .ok row ∧ row.length = 2 ^ bits ∧
        ∀ c < 2 ^ bits, ∃ ringShifted v, ring.negacyclicShift c = .ok ringShifted ∧
          recoverRingSubfieldInnerProduct 𝔼 ringShifted p = .ok v ∧ row[c]? = some v
    else traceOpenRingRow 𝔼 ring p bits = .error (.invalidInput "unsupported ring-subfield extension degree") := by
  obtain ⟨partner, product, hpartner, hprod, hvproduct⟩ := partner_mul_ok hs.D_pos ring p
  have hrow := traceOpenRingRow_eq hs h2 params hpartner hprod hbits
  split_ifs at hrow ⊢ with hdeg
  · refine ⟨_, hrow, by rw [length_map, length_range], fun c hc => ?_⟩
    obtain ⟨ringShifted, hshift, hvshift⟩ := negacyclicShift_ok ring (by omega : c < D)
    refine ⟨ringShifted, slotProduct 𝔼 m ringShifted p, hshift, ?_, ?_⟩
    · rw [recoverRingSubfieldInnerProduct, dispatchDegree_ok params hdeg]
      exact recoverPsiInnerProduct_ok hs h2 params.twoD_lt _ _
    · rw [getElem?_map, getElem?_range hc, Option.map_some, ofCoord_shifted hs h h2 params (by omega) hvproduct hvshift]
  · exact hrow

end

end

end extension

end Akita.FieldReduction
