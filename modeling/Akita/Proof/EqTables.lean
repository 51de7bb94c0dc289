import Akita.Proof.EqPoly
import Akita.Proof.Sumcheck
import Akita.Spec.ExtensionOpening

/-!
# Every equality table is the product table

* `eqProduct`: the value of the equality polynomial at the bits of an address, least significant coordinate first.
* `cachedLayers_get`: the cached layers are the tables of the suffixes.
* `prefixScan_eq`: the scan over the bits of a bound holds the sum below it and the value at it.
* `eq_tables_agree`: the serial, parallel, mapped, cached, split and prefix forms all hold `eqProduct`.
-/

/-!
## Tables over an extension

A mapped equality table is the equality table mapped, whichever way it is built, and it is built where the runtime
grants tables of its size. A fold binds the lowest coordinate.
-/

namespace Akita.ExtensionOpening

open Lib OffsetEq Finset List EqPolynomial

variable {F E : Type} [Field F] [Field E] [Algebra F E] {𝔪 : Runtime} {𝔯 : ReductionField F E}

/-! ### Mapped equality tables -/

section

omit [Field F] [Algebra F E] in
theorem slabs_flatten (r : List E) (map : E → E) {lowVars : ℕ} (hlow : lowVars ≤ r.length) :
    ((bitTable (eqFactors (r.drop lowVars))).zipIdx.map fun (initial, slab) =>
      fillSerialWithFinalMap
        (((replicate (2 ^ r.length) (0 : E)).drop (slab * 2 ^ lowVars)).take (2 ^ lowVars)) (r.take lowVars) initial
          map).flatten = (bitTable (eqFactors r)).map map := by
  have hsplit : eqFactors r = eqFactors (r.take lowVars) ++ eqFactors (r.drop lowVars) := by
    rw [eqFactors, eqFactors, eqFactors, ← List.map_append, List.take_append_drop]
  have hslab : ∀ x ∈ (bitTable (eqFactors (r.drop lowVars))).zipIdx, fillSerialWithFinalMap
      (((replicate (2 ^ r.length) (0 : E)).drop (x.2 * 2 ^ lowVars)).take (2 ^ lowVars)) (r.take lowVars) x.1 map =
        (bitTable (eqFactors (r.take lowVars))).map fun y => map (x.1 * y) := by
    intro x hx
    have hx : x.2 < 2 ^ (r.length - lowVars) := by simpa using List.snd_lt_of_mem_zipIdx hx
    have hend : (x.2 + 1) * 2 ^ lowVars ≤ 2 ^ r.length := by
      calc (x.2 + 1) * 2 ^ lowVars ≤ 2 ^ (r.length - lowVars) * 2 ^ lowVars := Nat.mul_le_mul_right _ hx
        _ = 2 ^ r.length := by rw [← pow_add, Nat.sub_add_cancel hlow]
    rw [fillSerial_eq _ _ _ ?_]
    rw [add_mul] at hend
    simp only [List.length_take, List.length_drop, List.length_replicate, min_eq_left hlow]
    omega
  have hfst : (bitTable (eqFactors (r.drop lowVars))).zipIdx.map (fun x =>
      (bitTable (eqFactors (r.take lowVars))).map fun y => map (x.1 * y)) =
        (bitTable (eqFactors (r.drop lowVars))).map fun x => (bitTable (eqFactors (r.take lowVars))).map fun y => map (x * y) := by
    conv_rhs => rw [← List.zipIdx_map_fst 0 (bitTable (eqFactors (r.drop lowVars))), List.map_map]
    rfl
  rw [List.map_congr_left hslab, hfst, hsplit, bitTable_append, List.map_flatMap, flatMap]
  simp only [List.map_map]
  rfl

omit [Field F] [Algebra F E] in
/-- **A mapped equality table**, serial, in slabs, or built whole and mapped. -/
theorem evalsMapped_ok {threads : ℕ} {r t : List E} {map : E → E} (h : evalsMapped 𝔪 threads r map = .ok t) :
    t = (bitTable (eqFactors r)).map map := by
  have hserial : ∀ {label : String}, evalsSerialWithFinalMap 𝔪 label r 1 map = .ok t →
      t = (bitTable (eqFactors r)).map map := by
    intro label h
    unfold evalsSerialWithFinalMap at h
    simp only [result_ok] at h
    obtain ⟨size, hsize, zeros, hzeros, rfl⟩ := h
    obtain rfl := materializedTableLen_ok hsize
    obtain rfl := zeroVec_ok hzeros
    rw [fillSerial_eq _ _ _ (by simp)]
    simp only [one_mul]
  unfold evalsMapped at h
  split_ifs at h with hpar hshort hmid
  · exact hserial h
  · unfold evalsMappedParallelSlabs at h
    simp only [result_ok] at h
    obtain ⟨size, hsize, outer, houter, zeros, hzeros, rfl⟩ := h
    obtain rfl := materializedTableLen_ok hsize
    obtain rfl := zeroVec_ok hzeros
    rw [evalsSerial_ok houter, map_one_mul]
    exact slabs_flatten _ map (Nat.sub_le _ _)
  · simp only [result_ok] at h
    obtain ⟨out, hout, rfl⟩ := h
    rw [evals_ok hout]
  · exact hserial h

end

/-! ### Granted tables -/

/-- Equality tables of up to `n` variables fit the budget and are allocated. -/
def Grants (𝔪 : Runtime) (n : ℕ) : Prop :=
  ∀ k ≤ n, 2 ^ k * max 𝔪.elemSize 1 ≤ maxMaterializedEqTableBytes ∧ 𝔪.reserves (2 ^ k) = true

section

variable {E : Type} [Field E] {n : ℕ} {k : ℕ} {r : List E}

section

variable (h : Grants 𝔪 n)

include h

theorem Grants.lt (hk : k ≤ n) : k ≤ 30 := by
  by_contra hlt
  have hpow : 2 ^ 31 ≤ 2 ^ k := Nat.pow_le_pow_right (by decide) (by omega)
  have hsize : 2 ^ k * 1 ≤ 2 ^ k * max 𝔪.elemSize 1 := Nat.mul_le_mul_left _ (le_max_right _ _)
  have hbudget := (h k hk).1
  simp only [maxMaterializedEqTableBytes] at hbudget
  omega

theorem Grants.materializedTableLen (hk : k ≤ n) (label : String) :
    EqPolynomial.materializedTableLen 𝔪 label k = .ok (2 ^ k) := by
  have hk30 := h.lt hk
  have hbudget := (h k hk).1
  have hword : 2 ^ k * max 𝔪.elemSize 1 < 2 ^ usizeBits :=
    lt_of_le_of_lt hbudget (by simp only [EqPolynomial.maxMaterializedEqTableBytes, usizeBits]; omega)
  have hlen : EqPolynomial.tableLen k = .ok (2 ^ k) := by
    rw [EqPolynomial.tableLen, Checked.pow2, if_pos (by simp only [usizeBits]; omega)]
    rfl
  have hcheck : EqPolynomial.checkElementBudget 𝔪 label (2 ^ k) = .ok () := by
    unfold EqPolynomial.checkElementBudget
    simp only [checkedMul, if_pos hword, okOr, ok_bind]
    exact ensure_eq_ok.2 hbudget
  rw [EqPolynomial.materializedTableLen, hlen]
  simp only [ok_bind, hcheck]
  rfl

theorem Grants.zeroVec (hk : k ≤ n) (label : String) :
    EqPolynomial.zeroVec 𝔪 label (2 ^ k) = .ok (replicate (2 ^ k) (0 : E)) := by
  have hresv : ensure (𝔪.reserves (2 ^ k) = true)
      (.invalidInput (label ++ " allocation failed for " ++ toString (2 ^ k) ++ " elements")) = .ok () :=
    ensure_eq_ok.2 (h k hk).2
  rw [EqPolynomial.zeroVec, hresv]
  rfl

theorem Grants.evalsSerial (hr : r.length ≤ n) (scalingFactor : Option E) :
    EqPolynomial.evalsSerial 𝔪 r scalingFactor = .ok ((bitTable (eqFactors r)).map fun x => scalingFactor.getD 1 * x) := by
  have hok : ∃ t, EqPolynomial.evalsSerial 𝔪 r scalingFactor = .ok t := by
    unfold EqPolynomial.evalsSerial
    simp only [h.materializedTableLen hr, h.zeroVec hr, ok_bind]
    exact ⟨_, rfl⟩
  obtain ⟨t, ht⟩ := hok
  rw [ht, EqPolynomial.evalsSerial_ok ht]

theorem Grants.evalsParallel (hr : r.length ≤ n) (scalingFactor : Option E) :
    EqPolynomial.evalsParallel 𝔪 r scalingFactor = .ok ((bitTable (eqFactors r)).map fun x => scalingFactor.getD 1 * x) := by
  have hok : ∃ t, EqPolynomial.evalsParallel 𝔪 r scalingFactor = .ok t := by
    unfold EqPolynomial.evalsParallel
    simp only [h.materializedTableLen hr, h.zeroVec hr, ok_bind]
    exact ⟨_, rfl⟩
  obtain ⟨t, ht⟩ := hok
  rw [ht, EqPolynomial.evalsParallel_ok ht]

theorem Grants.evals (hr : r.length ≤ n) : EqPolynomial.evals 𝔪 r = .ok (bitTable (eqFactors r)) := by
  have hok : ∃ t, EqPolynomial.evals 𝔪 r = .ok t := by
    unfold EqPolynomial.evals EqPolynomial.evalsWithScaling
    split_ifs
    · exact ⟨_, h.evalsParallel hr none⟩
    · exact ⟨_, h.evalsSerial hr none⟩
  obtain ⟨t, ht⟩ := hok
  rw [ht, EqPolynomial.evals_ok ht]

theorem Grants.evalsMapped (hr : r.length ≤ n) (threads : ℕ) (map : E → E) :
    evalsMapped 𝔪 threads r map = .ok ((bitTable (eqFactors r)).map map) := by
  have hserial : ∀ label, ∃ t, evalsSerialWithFinalMap 𝔪 label r 1 map = .ok t := by
    intro label
    unfold evalsSerialWithFinalMap
    simp only [h.materializedTableLen hr, h.zeroVec hr, ok_bind]
    exact ⟨_, rfl⟩
  have hok : ∃ t, ExtensionOpening.evalsMapped 𝔪 threads r map = .ok t := by
    unfold ExtensionOpening.evalsMapped
    split_ifs
    · exact hserial _
    · unfold evalsMappedParallelSlabs
      have houter := h.evalsSerial (r := r.drop (r.length - min (Nat.log 2 (max (FieldReduction.saturatingMul threads 4) 1))
        (r.length - 8))) (by rw [length_drop]; omega) none
      simp only [h.materializedTableLen hr, h.zeroVec hr, ok_bind, houter]
      exact ⟨_, rfl⟩
    · simp only [h.evals hr, ok_bind]
      exact ⟨_, rfl⟩
    · exact hserial _
  obtain ⟨t, ht⟩ := hok
  rw [ht, evalsMapped_ok ht]

end

end

/-! ### Folds in place -/

/-- A table whose first slots are folded and whose others are as they were. -/
structure FoldedTo (r : E) (n : ℕ) (t : ℕ → E) (done : ℕ) (out : List E) : Prop where
  length_eq : out.length = n
  getD_eq : ∀ i < n, out.getD i 0 = if i < done then bindLow r t i else t i

namespace FoldedTo

variable {r : E} {n done : ℕ} {t : ℕ → E} {out : List E}

theorem start (r : E) (n : ℕ) (t : ℕ → E) : FoldedTo r n t 0 (entries n t) :=
  ⟨entries_length n t, fun i hi => by rw [entries_getD hi, if_neg (by omega)]⟩

/-- A slot at or above those written still finds its pair. -/
theorem foldPair_eq (h𝔯 : 𝔯.Lawful) (h : FoldedTo r n t done out) {i : ℕ} (hi : done ≤ i) (hn : 2 * i + 1 < n) :
    foldPair 𝔯 r out i = bindLow r t i := by
  rw [foldPair, h𝔯.foldOne, h.getD_eq _ (by omega), h.getD_eq _ hn, if_neg (by omega), if_neg (by omega), bindLow]

theorem set (h : FoldedTo r n t done out) (hn : done < n) : FoldedTo r n t (done + 1) (out.set done (bindLow r t done)) := by
  refine ⟨by rw [length_set, h.length_eq], fun i hi => ?_⟩
  rw [getD_eq_getElem?_getD, getElem?_set]
  by_cases hi' : done = i
  · subst hi'
    simp [h.length_eq, hn]
  · rw [if_neg hi', ← getD_eq_getElem?_getD, h.getD_eq i hi]
    by_cases hlt : i < done
    · rw [if_pos hlt, if_pos (by omega)]
    · rw [if_neg hlt, if_neg (by omega)]

theorem take (h : FoldedTo r n t done out) (hn : done ≤ n) : out.take done = entries done (bindLow r t) := by
  refine entries_of_getD (by rw [length_take, h.length_eq, min_eq_left hn]) fun i hi => ?_
  rw [getD_eq_getElem?_getD, getElem?_take, if_pos hi, ← getD_eq_getElem?_getD, h.getD_eq i (by omega), if_pos hi]

end FoldedTo

theorem map_foldPair (h𝔯 : 𝔯.Lawful) (r : E) (n : ℕ) (t : ℕ → E) :
    (List.range n).map (foldPair 𝔯 r (entries (2 * n) t)) = entries n (bindLow r t) := by
  refine List.map_congr_left fun i hi => ?_
  have hi : i < n := List.mem_range.1 hi
  exact (FoldedTo.start r (2 * n) t).foldPair_eq h𝔯 (Nat.zero_le _) (by omega)

/-- **A fold binds the lowest coordinate.** -/
theorem foldEvalsInPlace_eq (h𝔯 : 𝔯.Lawful) (n : ℕ) (t : ℕ → E) (r : E) :
    foldEvalsInPlace 𝔪 𝔯 (entries (2 * n) t) r = entries n (bindLow r t) := by
  have hlen : ((entries (2 * n) t).length + 1) / 2 = n := by rw [entries_length]; omega
  have hserial : ∀ m ≤ n, FoldedTo r (2 * n) t m ((List.range m).foldl
      (fun evals target => evals.set target (foldPair 𝔯 r evals target)) (entries (2 * n) t)) := by
    intro m
    induction m with
    | zero => exact fun _ => FoldedTo.start r (2 * n) t
    | succ m ih =>
      intro hm
      have hat := ih (by omega)
      rw [range_succ, foldl_append, foldl_cons, foldl_nil, hat.foldPair_eq h𝔯 le_rfl (by omega)]
      exact hat.set (by omega)
  unfold foldEvalsInPlace
  simp only [hlen]
  split_ifs
  · exact map_foldPair h𝔯 r n t
  · exact (hserial n le_rfl).take (by omega)

/-! ### Plain arithmetic -/

def plainReduction (F E : Type) [Field F] [Field E] [Algebra F E] : ReductionField F E where
  mulBase x c := x * algebraMap F E c
  foldOne r left right := left + r * (right - left)
  Product := E
  zero := 0
  add := (· + ·)
  mulUnreduced := (· * ·)
  mulBaseUnreduced x c := x * algebraMap F E c
  reduceProduct := id
  sumIsExact := true

theorem plainReduction_lawful : (plainReduction F E).Lawful where
  mulBase _ _ := rfl
  foldOne _ _ _ := rfl
  reduceProduct _ p v hsums := by
    induction hsums with
    | zero => rfl
    | product _ _ => rfl
    | base _ _ => rfl
    | add _ _ ihp ihq => exact congrArg₂ (· + ·) ihp ihq

def listUnivariate (E : Type) [Field E] : UnivariateBackend E where
  toPolyBackend := Sumcheck.listPolys E
  new := id
  degree cs := cs.length - 1

theorem listUnivariate_lawful : (listUnivariate E).Lawful where
  toLawful := Sumcheck.listPolys_lawful
  new_ne_nil _ h := h
  new_length_le _ := le_rfl
  new_eq _ := rfl
  degree_le _ := le_rfl

end Akita.ExtensionOpening

namespace Akita.OffsetEq

open Lib Finset
open List hiding map_map mem_range sum_range_succ
open ExtensionOpening (Grants evalsMapped)

variable {F : Type} [Field F] {rt : Runtime}

/-! ## The product at an address -/

/-- The value of the equality polynomial of `r` at the bits of `b`. -/
def eqProduct (r : List F) (b : ℕ) : F := ∏ k : Fin r.length, if b.testBit k then r.get k else 1 - r.get k

theorem eqProduct_cons (x : F) (r : List F) (b : ℕ) :
    eqProduct (x :: r) b = (if b % 2 = 1 then x else 1 - x) * eqProduct r (b / 2) := by
  have hsucc : eqProduct (x :: r) b = (if b.testBit 0 then x else 1 - x) *
      ∏ k : Fin r.length, if b.testBit (k + 1) then r.get k else 1 - r.get k := Fin.prod_univ_succ _
  rw [hsucc, eqProduct]
  simp only [Nat.testBit_zero, decide_eq_true_eq, Nat.testBit_succ]

theorem eqAt_eq_eqProduct (r : List F) : ∀ {b : ℕ}, b < 2 ^ r.length → eqAt r b = eqProduct r b := by
  induction r with
  | nil =>
    intro b hb
    obtain rfl : b = 0 := by simpa using hb
    simp [eqAt_nil_zero, eqProduct]
  | cons x r ih =>
    intro b hb
    have hhalf : b / 2 < 2 ^ r.length := by
      rw [length_cons, pow_succ] at hb
      omega
    rw [eqProduct_cons, ← ih hhalf]
    rfl

theorem bitTable_eqFactors (r : List F) : bitTable (eqFactors r) = (List.range (2 ^ r.length)).map (eqProduct r) := by
  rw [bitTable, eqFactors_length]
  exact map_congr_left fun b hb => eqAt_eq_eqProduct r (List.mem_range.1 hb)

namespace EqPolynomial

variable {r : List F} {len : ℕ}

/-! ## Cached layers -/

theorem flatMap_split (coordinate : F) (r : List F) : ((bitTable (eqFactors r)).flatMap fun parent =>
      let (left, right) := splitLagrangeParent parent coordinate
      [left, right]) = bitTable (eqFactors (coordinate :: r)) := by
  have h := flatMap_children coordinate 1 id r
  simp only [one_mul, map_id', id_eq] at h
  exact h

/-- **The layers** are the tables of the point with more and more coordinates in front. -/
theorem cachedLayers_get (coordinates : List F) : ∀ (done : List F) {j : ℕ}, j ≤ coordinates.length →
    (cachedLayers (bitTable (eqFactors done)) coordinates)[j]? =
      some (bitTable (eqFactors ((coordinates.take j).reverse ++ done))) := by
  induction coordinates with
  | nil =>
    intro done j hj
    obtain rfl : j = 0 := by simpa using hj
    rfl
  | cons coordinate rest ih =>
    intro done j hj
    cases j with
    | zero => rfl
    | succ j =>
      rw [cachedLayers, getElem?_cons_succ, flatMap_split, ih (coordinate :: done) (Nat.le_of_succ_le_succ hj),
        take_succ_cons, reverse_cons, append_assoc]
      rfl

theorem length_cachedLayers (coordinates : List F) : ∀ layer : List F,
    (cachedLayers layer coordinates).length = coordinates.length + 1 := by
  induction coordinates with
  | nil => intro layer; rfl
  | cons coordinate rest ih => intro layer; rw [cachedLayers, length_cons, ih, length_cons]

theorem cachedLayers_reverse (r : List F) {j : ℕ} (hj : j ≤ r.length) :
    (cachedLayers [1] r.reverse)[j]? = some (bitTable (eqFactors (r.drop (r.length - j)))) := by
  have h := cachedLayers_get r.reverse [] (j := j) (by rwa [length_reverse])
  rw [take_reverse, reverse_reverse, append_nil] at h
  exact h

/-- The tables of all suffixes fit the budget together, and each is allocated. -/
def CachedGrants (rt : Runtime) (n : ℕ) : Prop :=
  Grants rt n ∧ (2 ^ n * 2 - 1) * max rt.elemSize 1 ≤ maxMaterializedEqTableBytes

theorem CachedGrants.evalsCached (h : CachedGrants rt r.length) : evalsCached rt r = .ok (cachedLayers [1] r.reverse) := by
  have hn := h.1.lt le_rfl
  have hpow : 2 ^ r.length ≤ 2 ^ 30 := Nat.pow_le_pow_right (by decide) hn
  have hlen : tableLen r.length = .ok (2 ^ r.length) := by
    rw [tableLen, Checked.pow2, if_pos (by simp only [usizeBits]; omega)]
    rfl
  have hpos : 1 ≤ 2 ^ r.length := Nat.one_le_two_pow
  have htotal : (checkedMul usizeBits (2 ^ r.length) 2).bind (checkedSub · 1) = some (2 ^ r.length * 2 - 1) := by
    rw [checkedMul, if_pos (by simp only [usizeBits]; omega), Option.bind_some, checkedSub, if_pos (by omega)]
  have hword : (2 ^ r.length * 2 - 1) * max rt.elemSize 1 < 2 ^ usizeBits :=
    lt_of_le_of_lt h.2 (by simp only [maxMaterializedEqTableBytes, usizeBits]; omega)
  have hbudget : checkElementBudget rt "cached eq tables" (2 ^ r.length * 2 - 1) = .ok () := by
    unfold checkElementBudget
    simp only [checkedMul, if_pos hword, okOr, ok_bind]
    exact ensure_eq_ok.2 h.2
  have hlayers : ((List.range (r.length + 1)).mapM fun layer => zeroVec (F := F) rt "cached eq table layer" (2 ^ layer)) =
      .ok ((List.range (r.length + 1)).map fun layer => replicate (2 ^ layer) 0) :=
    mapM_ok_of_forall fun layer hlayer => h.1.zeroVec (Nat.le_of_lt_succ (List.mem_range.1 hlayer)) _
  rw [EqPolynomial.evalsCached, reserveCachedTables]
  simp only [hlen, htotal, okOr, ok_bind, hbudget, hlayers]
  rfl

/-! ## Prefixes -/

theorem split_granted (h : Grants rt (r.length - r.length / 2)) : SplitEqEvals.new rt r =
      .ok ⟨bitTable (eqFactors (r.drop (r.length / 2))), bitTable (eqFactors (r.take (r.length / 2)))⟩ := by
  have hin := h.evals (r := r.take (r.length / 2)) (by rw [length_take]; omega)
  have hout := h.evals (r := r.drop (r.length / 2)) (by rw [length_drop])
  rw [SplitEqEvals.new]
  simp only [hin, hout, ok_bind]
  rfl

theorem split_len (r : List F) : SplitEqEvals.len
    ⟨bitTable (eqFactors (r.drop (r.length / 2))), bitTable (eqFactors (r.take (r.length / 2)))⟩ = 2 ^ r.length := by
  have hhalf : r.length / 2 ≤ r.length := Nat.div_le_self _ _
  rw [SplitEqEvals.len, bitTable_length, bitTable_length, eqFactors_length, eqFactors_length, length_take,
    length_drop, min_eq_left hhalf, ← pow_add, Nat.add_sub_cancel' hhalf]

theorem evalAt_granted (h : Grants rt (r.length - r.length / 2)) {b : ℕ} (hb : b < 2 ^ r.length) :
    SplitEqEvals.evalAt ⟨bitTable (eqFactors (r.drop (r.length / 2))), bitTable (eqFactors (r.take (r.length / 2)))⟩ b =
      .ok (eqProduct r b) := by
  have hok : ∃ v, SplitEqEvals.evalAt
      ⟨bitTable (eqFactors (r.drop (r.length / 2))), bitTable (eqFactors (r.take (r.length / 2)))⟩ b = .ok v := by
    rw [SplitEqEvals.evalAt, split_len, ensure, if_pos hb]
    exact ⟨_, rfl⟩
  obtain ⟨v, hv⟩ := hok
  rw [hv, SplitEqEvals.evalAt_ok (split_granted h) hv, eqAt_eq_eqProduct r hb]

theorem evalsPrefix_granted (h : Grants rt (r.length - r.length / 2)) (hlen : len ≤ 2 ^ r.length) :
    evalsPrefix rt r len = .ok ((List.range len).map (eqProduct r)) := by
  have hentries := mapM_ok_of_forall (l := range len) (g := eqProduct r)
    fun b hb => evalAt_granted h (lt_of_lt_of_le (List.mem_range.1 hb) hlen)
  have hensure : ∀ e, ensure (len ≤ 2 ^ r.length) e = .ok () := fun e => ensure_eq_ok.2 hlen
  rw [evalsPrefix, split_granted h]
  simp only [ok_bind, split_len, hensure, hentries]

/-! ## Prefix sums -/

theorem sum_eqAt_double (x : F) (r : List F) (m : ℕ) :
    ∑ b ∈ range (2 * m), eqAt (x :: r) b = ∑ b ∈ range m, eqAt r b := by
  induction m with
  | zero => rfl
  | succ m ih =>
    have hleft : eqAt (x :: r) (2 * m) = (1 - x) * eqAt r m := bitProduct_cons_double _ _ _
    have hright : eqAt (x :: r) (2 * m + 1) = x * eqAt r m := bitProduct_cons_double_add_one _ _ _
    rw [Nat.mul_succ, sum_range_succ, sum_range_succ, sum_range_succ, ih, hleft, hright]
    ring

theorem sum_eqAt_full (r : List F) : ∑ b ∈ range (2 ^ r.length), eqAt r b = 1 := by
  induction r with
  | nil => simp [eqAt_nil_zero]
  | cons x r ih => rw [length_cons, pow_succ', sum_eqAt_double, ih]

/-- **The scan** over the bits of a bound, from the most significant one on. -/
theorem prefixScan_eq (r : List F) : ∀ {len : ℕ}, len < 2 ^ r.length →
    (List.range r.length).reverse.foldl (fun (state : F × F) bit =>
      let (below, equalPrefix) := state
      let (left, right) := splitLagrangeParent equalPrefix (r.getD bit 0)
      if (len >>> bit) &&& 1 = 1 then (below + left, right) else (below, left)) (0, 1) =
      (∑ b ∈ range len, eqAt r b, eqAt r len) := by
  simp only [foldl_reverse]
  induction r with
  | nil =>
    intro len hlen
    obtain rfl : len = 0 := by simpa using hlen
    simp [eqAt_nil_zero]
  | cons x r ih =>
    intro len hlen
    have hhalf : len / 2 < 2 ^ r.length := by
      rw [length_cons, pow_succ] at hlen
      omega
    -- the later coordinates read the bits of the halved bound
    have hrest : ∀ bit, (len >>> (bit + 1)) = (len / 2) >>> bit := by
      intro bit
      rw [add_comm, Nat.shiftRight_add, Nat.shiftRight_one]
    have hvalue : eqAt (x :: r) len = (if len % 2 = 1 then x else 1 - x) * eqAt r (len / 2) := rfl
    rw [length_cons, range_succ_eq_map, foldr_cons, foldr_map]
    simp only [getD_cons_succ, getD_cons_zero, Nat.succ_eq_add_one, hrest, ih hhalf]
    simp only [Nat.shiftRight_zero, Nat.and_one_is_mod, splitLagrangeParent]
    rw [hvalue]
    rcases Nat.mod_two_eq_zero_or_one len with hbit | hbit
    · have hdouble : ∑ b ∈ range len, eqAt (x :: r) b = ∑ b ∈ range (len / 2), eqAt r b := by
        have heven : 2 * (len / 2) = len := by omega
        rw [← sum_eqAt_double x r (len / 2), heven]
      rw [if_neg (by omega), if_neg (by omega), hdouble]
      congr 1
      ring
    · have hodd : ∑ b ∈ range len, eqAt (x :: r) b = ∑ b ∈ range (len / 2), eqAt r b + (1 - x) * eqAt r (len / 2) := by
        have hlast : eqAt (x :: r) (2 * (len / 2)) = (1 - x) * eqAt r (len / 2) := bitProduct_cons_double _ _ _
        have hlen' : 2 * (len / 2) + 1 = len := by omega
        rw [← sum_eqAt_double x r (len / 2), ← hlast, ← sum_range_succ, hlen']
      rw [if_pos hbit, if_pos hbit, hodd]
      congr 1 <;> ring

theorem prefixSum_eq (hr : r.length < 64) (hlen : len ≤ 2 ^ r.length) :
    prefixSum r len = .ok (∑ b ∈ range len, eqProduct r b) := by
  have htable : tableLen r.length = .ok (2 ^ r.length) := by
    rw [tableLen, Checked.pow2, if_pos (by simpa only [usizeBits] using hr)]
    rfl
  have hensure : ∀ e, ensure (len ≤ 2 ^ r.length) e = .ok () := fun e => ensure_eq_ok.2 hlen
  have hsum : ∑ b ∈ range len, eqProduct r b = ∑ b ∈ range len, eqAt r b :=
    sum_congr rfl fun b hb => (eqAt_eq_eqProduct r (lt_of_lt_of_le (mem_range.1 hb) hlen)).symm
  rw [prefixSum, htable, hsum]
  simp only [ok_bind, hensure]
  split
  · rename_i hfull
    rw [hfull, sum_eqAt_full]
    rfl
  · rename_i hpart
    rw [prefixScan_eq r (lt_of_le_of_ne hlen hpart)]
    rfl

/-! ## All constructions -/

/-- **All equality tables agree** with the product in little-endian order: the serial and the parallel table with
their scaling, the mapped table on every path, a prefix and an entry read through the halves, the cached tables of
the suffixes, and the sums of prefixes. -/
theorem eq_tables_agree (rt : Runtime) (r : List F) : (Grants rt r.length →
      (∀ scalingFactor, evalsSerial rt r scalingFactor =
        .ok ((List.range (2 ^ r.length)).map fun b => scalingFactor.getD 1 * eqProduct r b)) ∧
      (∀ scalingFactor, evalsParallel rt r scalingFactor =
        .ok ((List.range (2 ^ r.length)).map fun b => scalingFactor.getD 1 * eqProduct r b)) ∧
      ∀ threads map, evalsMapped rt threads r map = .ok ((List.range (2 ^ r.length)).map fun b => map (eqProduct r b))) ∧
    (Grants rt (r.length - r.length / 2) →
      (∀ len ≤ 2 ^ r.length, evalsPrefix rt r len = .ok ((List.range len).map (eqProduct r))) ∧
      ∃ split, SplitEqEvals.new rt r = .ok split ∧ ∀ b < 2 ^ r.length, split.evalAt b = .ok (eqProduct r b)) ∧
    (CachedGrants rt r.length → ∃ tables, evalsCached rt r = .ok tables ∧ tables.length = r.length + 1 ∧
      ∀ j ≤ r.length, tables[j]? = some ((List.range (2 ^ j)).map (eqProduct (r.drop (r.length - j))))) ∧
    (r.length < 64 → ∀ len ≤ 2 ^ r.length, prefixSum r len = .ok (∑ b ∈ range len, eqProduct r b)) := by
  refine ⟨fun h => ⟨fun c => ?_, fun c => ?_, fun threads map => ?_⟩, fun h => ⟨fun len hlen => evalsPrefix_granted h hlen, ?_⟩,
    fun h => ?_, fun hr len hlen => prefixSum_eq hr hlen⟩
  · rw [h.evalsSerial le_rfl, bitTable_eqFactors, List.map_map]
    rfl
  · rw [h.evalsParallel le_rfl, bitTable_eqFactors, List.map_map]
    rfl
  · rw [h.evalsMapped le_rfl, bitTable_eqFactors, List.map_map]
    rfl
  · exact ⟨_, split_granted h, fun b hb => evalAt_granted h hb⟩
  · refine ⟨_, h.evalsCached, by rw [length_cachedLayers, length_reverse], fun j hj => ?_⟩
    rw [cachedLayers_reverse r hj, bitTable_eqFactors, length_drop, Nat.sub_sub_self hj]

theorem serialTables_grants : CachedGrants serialTables 2 := by
  refine ⟨fun k hk => ⟨?_, rfl⟩, by decide⟩
  interval_cases k <;> decide

theorem eq_tables_agree_sample : evalsSerial serialTables [(2 : ℚ), 3] (some 5) =
      .ok ((List.range 4).map fun b => (some (5 : ℚ)).getD 1 * eqProduct [2, 3] b) ∧
    evalsPrefix serialTables [(2 : ℚ), 3] 3 = .ok ((List.range 3).map (eqProduct [2, 3])) ∧
    (∃ tables, evalsCached serialTables [(2 : ℚ), 3] = .ok tables ∧ tables.length = 3 ∧
      ∀ j ≤ 2, tables[j]? = some ((List.range (2 ^ j)).map (eqProduct (([2, 3] : List ℚ).drop (2 - j))))) ∧
    prefixSum [(2 : ℚ), 3] 3 = .ok (∑ b ∈ range 3, eqProduct [2, 3] b) :=
  ⟨((eq_tables_agree serialTables [(2 : ℚ), 3]).1 serialTables_grants.1).1 (some 5),
    ((eq_tables_agree serialTables [(2 : ℚ), 3]).2.1 fun k hk => serialTables_grants.1 k (le_trans hk (by decide))).1 3 (by decide),
    (eq_tables_agree serialTables [(2 : ℚ), 3]).2.2.1 serialTables_grants,
    (eq_tables_agree serialTables [(2 : ℚ), 3]).2.2.2 (by decide) 3 (by decide)⟩

end EqPolynomial

end Akita.OffsetEq
