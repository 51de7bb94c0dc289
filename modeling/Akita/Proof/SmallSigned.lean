import Akita.Proof.BalancedDecompose

/-!
# Small signed rings have the digits of their field images

* `lane_field`: a lane that holds the digit bits of `v + H` has the digit fields of the biased words of `v`.
* `centered_residue`: under the selection condition every carrier value is its own centered representative.
* `residueField_eq`: the residue path reads the same fields off the words themselves.
* `decomposeSmallSigned_planes`: every path writes the digits of the canonical residues.
* `decomposeSmallSigned_eq_field`: these are the planes of the field decomposition.
-/

namespace Akita.Decompose

open Lib BalancedDecomposePow2Params

variable {w : ℕ}

/-! ## Machine words as integers -/

theorem toNat_modEq_toInt (x : BitVec w) : (x.toNat : ℤ) ≡ x.toInt [ZMOD 2 ^ w] := by
  have hcast : ((2 ^ w : ℕ) : ℤ) = 2 ^ w := by push_cast; rfl
  rw [BitVec.toInt_eq_toNat_bmod, Int.ModEq, ← hcast, Int.bmod_emod]

theorem toNat_add_modEq (x y : BitVec w) : ((x + y).toNat : ℤ) ≡ x.toNat + y.toNat [ZMOD 2 ^ w] := by
  rw [BitVec.toNat_add]
  push_cast
  exact Int.mod_modEq _ _

theorem setWidth_modEq {W : ℕ} (x : BitVec w) {v : ℤ} (h : (x.toNat : ℤ) ≡ v [ZMOD 2 ^ w]) (hW : W ≤ w) :
    ((x.setWidth W).toNat : ℤ) ≡ v [ZMOD 2 ^ W] := by
  rw [BitVec.toNat_setWidth]
  exact (Int.mod_modEq _ _).trans (h.of_dvd (pow_dvd_pow 2 hW))

theorem signExtend_modEq {W : ℕ} (x : BitVec w) (hW : w ≤ W) : ((x.signExtend W).toNat : ℤ) ≡ x.toInt [ZMOD 2 ^ W] := by
  have h := toNat_modEq_toInt (x.signExtend W)
  rwa [BitVec.toInt_signExtend_of_le hW] at h

theorem field_eq_of_mod {a b L n k : ℕ} (h : a % 2 ^ (L * n) = b % 2 ^ (L * n)) (hk : k < n) :
    a / 2 ^ (L * k) % 2 ^ L = b / 2 ^ (L * k) % 2 ^ L := by
  apply Nat.eq_of_testBit_eq
  intro j
  rw [Nat.testBit_mod_two_pow, Nat.testBit_mod_two_pow, Nat.testBit_div_two_pow, Nat.testBit_div_two_pow]
  by_cases hj : j < L
  · have hend : L * k + L ≤ L * n := by
      calc L * k + L = L * (k + 1) := by ring
        _ ≤ L * n := Nat.mul_le_mul_left L hk
    have hbit := congrArg (fun m => m.testBit (j + L * k)) h
    have hlow : j + L * k < L * n := by omega
    simp only [Nat.testBit_mod_two_pow, hlow, decide_true, Bool.true_and] at hbit
    rw [hbit]
  · simp [hj]

section

variable {T : SmallSignedValue}

theorem widen_toInt (value : BitVec T.width) : (T.widen value).toInt = value.toInt := by
  refine BitVec.toInt_signExtend_of_le ?_
  cases T <;> decide

theorem carrier_range (value : BitVec T.width) : -(T.minAbs : ℤ) ≤ value.toInt ∧ value.toInt ≤ T.max := by
  have hlo := BitVec.le_toInt value
  have hhi := BitVec.toInt_lt (x := value)
  have hcast : ((2 ^ (T.width - 1) : ℕ) : ℤ) = 2 ^ (T.width - 1) := by push_cast; rfl
  have hpos : 0 < 2 ^ (T.width - 1) := by positivity
  rw [SmallSignedValue.minAbs, SmallSignedValue.max]
  omega

theorem minAbs_le (T : SmallSignedValue) : T.minAbs ≤ 2 ^ 15 := by cases T <;> decide

theorem max_le (T : SmallSignedValue) : T.max < 2 ^ 15 := by cases T <;> decide

end

section paths

variable {params : BalancedDecomposePow2Params} {q n L : ℕ} {T : SmallSignedValue} {O : BalancedSignedDigit} {D : ℕ}
  {c W level : ℕ} {out : List (Vector ℤ D)}

/-! ## Residues of carrier values -/

theorem canonicalResidue_lt (hp : params.q = q) (hq : 2 ^ 16 < q) (value : BitVec T.width) :
    params.canonicalResidue (T.widen value) < q := by
  have hrange := carrier_range value
  have hmax := max_le T
  unfold canonicalResidue
  rw [widen_toInt, hp]
  split <;> omega

/-- **Under the selection condition** a value is the centered representative of its residue. -/
theorem centered_residue (hp : params.q = q) (hthr : params.threshold = decomposeCenteringThreshold n L q)
    (hmax : T.max ≤ params.threshold) (hmin : T.minAbs < params.q - params.threshold)
    (value : BitVec T.width) : centered n L q (params.canonicalResidue (T.widen value)) = value.toInt := by
  have hrange := carrier_range value
  unfold canonicalResidue centered
  rw [widen_toInt, ← hthr]
  rw [hp] at hmin ⊢
  by_cases hsign : 0 ≤ value.toInt
  · rw [if_pos hsign, if_pos (by omega)]
    omega
  · rw [if_neg hsign, if_neg (by omega)]
    omega

/-! ## Lanes -/

/-- **A lane** holding the digit bits of `x + H` has the fields of the biased words. -/
theorem lane_field (hp : params.Ok q n L) (hq : q < 2 ^ 128) (hc : c < q) (hW : n * L ≤ W) {word : BitVec W}
    (hword : (word.toNat : ℤ) ≡ centered n L q c + halfSum L n [ZMOD 2 ^ W]) (hlevel : level < n) :
    ((word >>> (level * L)).setWidth 16 &&& BitVec.ofNat 16 (2 ^ L - 1)).toNat =
      wordsValue (params.biased c) / 2 ^ (L * level) % 2 ^ L := by
  have hL16 := hp.logBasis_le
  have hcomm : L * n = n * L := mul_comm L n
  have hmask : (2 ^ L - 1) % 2 ^ 16 = 2 ^ L - 1 := by
    apply Nat.mod_eq_of_lt
    have := Nat.pow_le_pow_right (n := 2) (by omega) hL16
    omega
  have hlow : word.toNat % 2 ^ (L * n) = wordsValue (params.biased c) % 2 ^ (L * n) := by
    have h := (hword.of_dvd (pow_dvd_pow 2 (hcomm ▸ hW))).trans (biased_emod hp hq hc).symm
    have hcast := h
    exact_mod_cast hcast
  rw [BitVec.toNat_and, BitVec.toNat_setWidth, BitVec.toNat_ushiftRight, BitVec.toNat_ofNat, hmask,
    Nat.and_two_pow_sub_one_eq_mod, Nat.shiftRight_eq_div_pow, Nat.mod_mod_of_dvd _ (pow_dvd_pow 2 hL16),
    mul_comm level L]
  exact field_eq_of_mod hlow hlevel

theorem bias_modEq (hp : params.Ok q n L) : ((params.biasNonnegative.getD 0 0).toNat : ℤ) ≡ halfSum L n [ZMOD 2 ^ 64] := by
  have hvalue := hp.value_nonnegative
  rw [wordsValue_getD hp.length_nonnegative] at hvalue
  have hnat : (params.biasNonnegative.getD 0 0).toNat ≡ halfSum L n [MOD 2 ^ 64] := by
    unfold Nat.ModEq
    rw [← hvalue]
    omega
  exact_mod_cast (Int.natCast_modEq_iff.2 hnat)

def residuePlanes (params : BalancedDecomposePow2Params) (T : SmallSignedValue) (n : ℕ) (ring : Vector (BitVec T.width) D) :
    List (Vector ℤ D) :=
  (List.range n).map fun level => ring.map fun value => digit params (params.canonicalResidue (T.widen value)) level

theorem fromBiasedField_digit (hp : params.Ok q n L) (hO : L ≤ O.maxLogBasis) {field : BitVec 16}
    (hfield : (field &&& BitVec.ofNat 16 (2 ^ L - 1)).toNat = wordsValue (params.biased c) / 2 ^ (L * level) % 2 ^ L) :
    O.fromBiasedField field params.mask params.halfB = digit params c level := by
  have hlt : wordsValue (params.biased c) / 2 ^ (L * level) % 2 ^ L < 2 ^ L := Nat.mod_lt _ (by positivity)
  have h := fromBiasedField_eq hp.logBasis_pos hO hfield hlt
  rw [BalancedDecomposePow2Params.mask, halfB, digit, hp.logBasis_eq]
  exact h

theorem zipIdx_map_range {α β : Type} {l : List α} (hl : l.length = n) (f : ℕ → β) :
    (l.zipIdx.map fun p => f p.2) = (List.range n).map f := by
  apply List.ext_getElem
  · simp [hl]
  · intro i h1 h2
    simp

section

variable (hp : params.Ok q n L)

include hp

/-- **The lanes** write the digits of the residues. -/
theorem smallSignedLanes_eq (hq : q < 2 ^ 128) (hpq : params.q = q) (hbig : 2 ^ 16 < q)
    (hO : L ≤ O.maxLogBasis) (hmax : T.max ≤ params.threshold) (hmin : T.minAbs < params.q - params.threshold)
    (ring : Vector (BitVec T.width) D) (hout : out.length = n) (hW : n * L ≤ W) {word : BitVec 32 → BitVec W}
    (hword : ∀ value : BitVec T.width, ((word (T.widen value)).toNat : ℤ) ≡ value.toInt + halfSum L n [ZMOD 2 ^ W]) :
    params.smallSignedLanes T O ring out word = residuePlanes params T n ring := by
  have hplanes : params.smallSignedLanes T O ring out word = (List.range n).map fun level => ring.map fun value =>
      O.fromBiasedField ((word (T.widen value) >>> (level * params.logBasis)).setWidth 16) params.mask params.halfB :=
    zipIdx_map_range hout fun level => ring.map fun value =>
      O.fromBiasedField ((word (T.widen value) >>> (level * params.logBasis)).setWidth 16) params.mask params.halfB
  rw [hplanes]
  refine List.map_congr_left fun level hlevel => Vector.map_congr_left fun value _ => ?_
  rw [hp.logBasis_eq]
  refine fromBiasedField_digit hp hO (lane_field hp hq (canonicalResidue_lt hpq hbig value) hW ?_ (List.mem_range.1 hlevel))
  rw [centered_residue hpq hp.threshold_eq hmax hmin value]
  exact hword value

/-! ## Residues -/

theorem residueField_eq (hlevel : level < n) : ∃ field, params.residueField (params.biased c) level = some field ∧
      (field &&& BitVec.ofNat 16 (2 ^ L - 1)).toNat = wordsValue (params.biased c) / 2 ^ (L * level) % 2 ^ L := by
  have hbits := hp.bits_le
  have hL16 := hp.logBasis_le
  have hend : level * L + L ≤ n * L := by
    calc level * L + L = (level + 1) * L := by ring
      _ ≤ n * L := Nat.mul_le_mul_right _ hlevel
  have hget : ∀ i < 3, (params.biased c)[i]? = some ((params.biased c).getD i 0) := by
    intro i hi
    have hi : i < (params.biased c).length := by rwa [length_biased]
    rw [List.getElem?_eq_getElem hi, List.getD_eq_getElem _ _ hi]
  have hlow := hget (level * L / 64) (by omega)
  rw [mul_comm L level]
  unfold residueField
  rw [hp.logBasis_eq]
  by_cases hfit : level * L % 64 + L ≤ 64
  · refine ⟨_, ?_, field_of_words (params.biased c) hL16 rfl⟩
    rw [if_pos hfit]
    simp only [hlow, option_some, Option.bind_some]
    rw [if_neg (by omega)]
  · -- a field that runs over its word ends inside the digit bits
    have hhigh := hget (level * L / 64 + 1) (by omega)
    refine ⟨_, ?_, field_of_words (params.biased c) hL16 rfl⟩
    rw [if_neg hfit]
    simp only [hlow, hhigh, option_some, Option.bind_some]
    rw [if_pos (by omega)]

theorem residueColumn_eq (hO : L ≤ O.maxLogBasis) (c : ℕ) (coefficient : Fin D) (hout : out.length = n) :
    (out.zipIdx.mapM fun p => do
      let field ← params.residueField (params.biased c) p.2
      return p.1.set coefficient (O.fromBiasedField field params.mask params.halfB)) =
      some (out.zipIdx.map fun p => p.1.set coefficient (digit params c p.2)) := by
  refine mapM_some_of_forall fun p hplane => ?_
  have hlevel : p.2 < n := by
    have h := List.snd_lt_of_mem_zipIdx hplane
    omega
  obtain ⟨field, hfield, hvalue⟩ := residueField_eq hp (c := c) hlevel
  simp only [hfield, option_some, Option.bind_some, fromBiasedField_digit hp hO hvalue]

theorem residueColumns_eq (hO : L ≤ O.maxLogBasis) (ring : Vector (BitVec T.width) D) (l : List (Fin D)) :
    ∀ {out : List (Vector ℤ D)}, out.length = n → ∃ out' : List (Vector ℤ D),
      l.foldlM (fun (out : List (Vector ℤ D)) (coefficient : Fin D) => do
        let words := params.biased (params.canonicalResidue (T.widen (ring[coefficient])))
        out.zipIdx.mapM fun p => do
          let field ← params.residueField words p.2
          return p.1.set coefficient (O.fromBiasedField field params.mask params.halfB)) out = some out' ∧
      out'.length = n ∧
      ∀ (level : ℕ) (plane plane' : Vector ℤ D), out[level]? = some plane → out'[level]? = some plane' →
        (∀ i ∈ l, plane'[i] = digit params (params.canonicalResidue (T.widen (ring[i]))) level) ∧
        ∀ i ∉ l, plane'[i] = plane[i] := by
  induction l with
  | nil =>
    intro out hout
    refine ⟨out, rfl, hout, fun level plane plane' hplane hplane' => ?_⟩
    obtain rfl : plane = plane' := Option.some.inj (hplane.symm.trans hplane')
    exact ⟨fun i hi => absurd hi List.not_mem_nil, fun _ _ => rfl⟩
  | cons coefficient l ih =>
    intro out hout
    have hcolumn := residueColumn_eq hp hO (params.canonicalResidue (T.widen (ring[coefficient]))) coefficient hout
    obtain ⟨out', hfold, hlen, hplanes⟩ := @ih (out.zipIdx.map fun p => p.1.set coefficient
      (digit params (params.canonicalResidue (T.widen (ring[coefficient]))) p.2)) (by simpa using hout)
    refine ⟨out', ?_, hlen, fun level plane plane' hplane hplane' => ?_⟩
    · rw [List.foldlM_cons]
      exact Option.bind_eq_some_iff.2 ⟨_, hcolumn, hfold⟩
    · have hset : (out.zipIdx.map fun p => p.1.set coefficient
          (digit params (params.canonicalResidue (T.widen (ring[coefficient]))) p.2))[level]? =
            some (plane.set coefficient (digit params (params.canonicalResidue (T.widen (ring[coefficient]))) level)) := by
        simp [hplane]
      obtain ⟨hin, hnot⟩ := hplanes level _ _ hset hplane'
      have hget : ∀ (i : Fin D) (x : ℤ), (plane.set coefficient x)[i] = if i = coefficient then x else plane[i] := by
        intro i x
        simp only [Fin.getElem_fin, Vector.getElem_set, Fin.ext_iff, eq_comm]
      refine ⟨fun i hi => ?_, fun i hi => ?_⟩
      · by_cases hmem : i ∈ l
        · exact hin i hmem
        · obtain rfl : i = coefficient := (List.mem_cons.1 hi).resolve_right hmem
          rw [hnot i hmem, hget, if_pos rfl]
      · rw [List.mem_cons, not_or] at hi
        rw [hnot i hi.2, hget, if_neg hi.1]

/-- **The residue path** writes the digits of the residues. -/
theorem smallSignedResidues_eq (hO : L ≤ O.maxLogBasis) (ring : Vector (BitVec T.width) D)
    (hout : out.length = n) : params.smallSignedResidues T O ring out = some (residuePlanes params T n ring) := by
  obtain ⟨out', hfold, hlen, hplanes⟩ := residueColumns_eq hp hO ring (List.finRange D) hout
  rw [smallSignedResidues, hfold, Option.some.injEq]
  apply List.ext_getElem
  · simp [hlen, residuePlanes]
  · intro level h1 h2
    have hlevel : level < out.length := by omega
    have hplane := (hplanes level out[level] out'[level] (List.getElem?_eq_getElem hlevel) (List.getElem?_eq_getElem h1)).1
    have hexp : (residuePlanes params T n ring)[level] =
        ring.map fun value => digit params (params.canonicalResidue (T.widen value)) level := by
      simp [residuePlanes]
    rw [hexp]
    apply Vector.ext
    intro i hi
    have h := hplane ⟨i, hi⟩ (List.mem_finRange _)
    simp only [Fin.getElem_fin] at h
    rw [h, Vector.getElem_map]

/-! ## All paths -/

/-- **Every path** writes the digits of the residues. -/
theorem decomposeSmallSigned_planes (hpq : params.q = q) (hq : q < 2 ^ 128) (hbig : 2 ^ 16 < q)
    (hO : L ≤ O.maxLogBasis) (ring : Vector (BitVec T.width) D) (hout : out.length = n) :
    params.decomposeSmallSignedInto T O ring out = some (residuePlanes params T n ring) := by
  have hdigs : params.digitBits = n * L := by
    rw [digitBits, hp.levels_eq, hp.logBasis_eq]
  have hbias := bias_modEq hp
  have hvalue : ∀ value : BitVec T.width, ((T.widen value).toNat : ℤ) ≡ value.toInt [ZMOD 2 ^ 32] := fun value =>
    widen_toInt value ▸ toNat_modEq_toInt (T.widen value)
  unfold decomposeSmallSignedInto
  have hlevels : out.length = params.levels := by rw [hout, hp.levels_eq]
  have hbasis : params.logBasis ≤ O.maxLogBasis := by rwa [hp.logBasis_eq]
  simp only [guard, if_pos hlevels, if_pos hbasis, option_some, Option.bind_some, hdigs, Bool.and_eq_true,
    decide_eq_true_eq]
  split_ifs with h16 h32 h64
  · rw [smallSignedLanes_eq hp hq hpq hbig hO h16.1.1 h16.1.2 ring hout h16.2 fun value => ?_]
    exact (toNat_add_modEq _ _).trans
      ((setWidth_modEq _ (hvalue value) (by decide)).add (setWidth_modEq _ hbias (by decide)))
  · rw [smallSignedLanes_eq hp hq hpq hbig hO h32.1.1 h32.1.2 ring hout h32.2 fun value => ?_]
    exact (toNat_add_modEq _ _).trans ((hvalue value).add (setWidth_modEq _ hbias (by decide)))
  · rw [smallSignedLanes_eq hp hq hpq hbig hO h64.1.1 h64.1.2 ring hout h64.2 fun value => ?_]
    refine (toNat_add_modEq _ _).trans (Int.ModEq.add ?_ hbias)
    exact widen_toInt value ▸ signExtend_modEq (T.widen value) (by decide)
  · exact smallSignedResidues_eq hp hO ring hout

end

end paths

/-! ## The field decomposition -/

/-- The elements of the prime field with `q` elements are encoded by their least residues. -/
structure CanonicalU128.Residues {F : Type} [Ring F] (toU128Checked : CanonicalU128 F) (q : ℕ) : Prop extends
    CanonicalU128.Lawful toU128Checked q where
  natCast : ∀ c < q, toU128Checked (c : F) = some c
  cast_modulus : (q : F) = 0

section

variable {F : Type} [Ring F] {toU128Checked : CanonicalU128 F} {params : BalancedDecomposePow2Params} {q n L D : ℕ}
  {T : SmallSignedValue} {O : BalancedSignedDigit}

theorem toU128Checked_image (hlaw : toU128Checked.Residues q) (hpq : params.q = q) (hbig : 2 ^ 16 < q) (value : BitVec T.width) :
    toU128Checked (value.toInt : F) = some (params.canonicalResidue (T.widen value)) := by
  have hlt := canonicalResidue_lt hpq hbig value
  have himage : (value.toInt : F) = (params.canonicalResidue (T.widen value) : ℕ) := by
    have hrange := carrier_range value
    have hmin := minAbs_le T
    have hint : (params.canonicalResidue (T.widen value) : ℤ) = value.toInt + (if 0 ≤ value.toInt then 0 else (q : ℤ)) := by
      unfold canonicalResidue
      rw [widen_toInt, hpq]
      split <;> omega
    have hcast : ((params.canonicalResidue (T.widen value) : ℕ) : F) =
        ((params.canonicalResidue (T.widen value) : ℤ) : F) := by push_cast; rfl
    rw [hcast, hint, Int.cast_add]
    split
    · simp
    · rw [Int.cast_natCast, hlaw.cast_modulus, add_zero]
  rw [himage]
  exact hlaw.natCast _ hlt

theorem length_flatMap_planes (planes : List (Vector ℤ D)) : (planes.flatMap Vector.toList).length = D * planes.length := by
  induction planes with
  | nil => rfl
  | cons plane planes ih => rw [List.flatMap_cons, List.length_append, ih, Vector.length_toList, List.length_cons]; ring

theorem flatMap_planes_getElem? (planes : List (Vector ℤ D)) {level i : ℕ} (hi : i < D) :
    (planes.flatMap Vector.toList)[level * D + i]? = (planes[level]?).bind fun plane => plane.toList[i]? := by
  have hrows : ∀ row ∈ planes.map Vector.toList, row.length = D := by
    intro row hrow
    obtain ⟨plane, -, rfl⟩ := List.mem_map.1 hrow
    exact Vector.length_toList
  rw [List.flatMap_def, getElem?_flatten hrows hi, List.getElem?_map]
  cases planes[level]? <;> rfl

theorem fieldDecomposition_planes (hlaw : toU128Checked.Residues q) (hp : params.Ok q n L) (hpq : params.q = q)
    (hbig : 2 ^ 16 < q) (hO : L ≤ O.maxLogBasis) (ring : Vector (BitVec T.width) D) {out : List (Vector ℤ D)}
    (hout : out.length = n) (hsize : D * n < 2 ^ usizeBits) :
    balancedDecomposeCoefficientsPow2SignedInto toU128Checked O (ring.map fun value => (value.toInt : F)).toList
      (out.flatMap Vector.toList) params = some ((residuePlanes params T n ring).flatMap Vector.toList) := by
  set coefficients := (ring.map fun value => (value.toInt : F)).toList with hcoeffs
  have hwidth : coefficients.length = D := Vector.length_toList
  have hplanes : (residuePlanes params T n ring).length = n := by rw [residuePlanes, List.length_map, List.length_range]
  have hflat : (out.flatMap Vector.toList).length = D * n := by rw [length_flatMap_planes, hout]
  have hlevels := hp.levels_eq
  unfold balancedDecomposeCoefficientsPow2SignedInto
  rw [hwidth, hlevels, checkedMul, if_pos hsize]
  simp only [option_some, Option.bind_some, guard, if_pos hflat]
  by_cases hempty : coefficients = [] ∨ n = 0
  · -- with no coefficient or no level there is nothing to write
    have hzero : D * n = 0 := by
      rcases hempty with h | h
      · rw [← hwidth, h, List.length_nil, zero_mul]
      · rw [h, mul_zero]
    rw [if_pos hempty, List.length_eq_zero_iff.1 (hflat.trans hzero),
      List.length_eq_zero_iff.1 ((length_flatMap_planes _).trans (hplanes.symm ▸ hzero))]
  · rw [if_neg hempty]
    obtain ⟨out', hkernel, hlen, hdigs⟩ := kernel_digits (T := O)
      (fun x => (hlaw.canonical x).imp fun c hc => hc.2) hp hO (hflat.trans (by rw [hwidth]))
    rw [hkernel, Option.some.injEq]
    apply List.ext_getElem?
    intro k
    by_cases hk : k < D * n
    · have hD : 0 < D := pos_of_ne_zero fun h => by simp [h] at hk
      have hlevel : k / D < n := Nat.div_lt_of_lt_mul hk
      have hi : k % D < D := Nat.mod_lt k hD
      have hsplit : k = k / D * D + k % D := (Nat.div_add_mod' k D).symm
      have hdigit := hdigs (k / D) hlevel (k % D) (by rw [hwidth]; exact hi)
      have himage := toU128Checked_image hlaw hpq hbig ring[k % D]
      have hcanon : canonAt toU128Checked coefficients (k % D) = params.canonicalResidue (T.widen ring[k % D]) := by
        rw [canonAt, hcoeffs, Vector.toList_map, List.getElem?_map]
        simp [hi, himage]
      rw [hwidth, hcanon, ← hsplit] at hdigit
      have hflatDigit : ((residuePlanes params T n ring).flatMap Vector.toList)[k / D * D + k % D]? = _ :=
        flatMap_planes_getElem? (residuePlanes params T n ring) hi
      rw [← hsplit] at hflatDigit
      rw [hdigit, hflatDigit]
      simp [residuePlanes, hlevel, hi]
    · rw [List.getElem?_eq_none (by rw [hlen, hwidth]; omega),
        List.getElem?_eq_none (by rw [length_flatMap_planes, hplanes]; omega)]

/-- **Small signed decomposition is field decomposition**: on every path and for both carriers it writes the planes
that the field decomposition writes for the images of the integers, when these fill a slice of the machine. -/
theorem decomposeSmallSigned_eq_field (hlaw : toU128Checked.Residues q) (hq : 2 ^ 16 < q)
    (hnew : BalancedDecomposePow2Params.new toU128Checked n L = some params) (hO : L ≤ O.maxLogBasis)
    (ring : Vector (BitVec T.width) D) (out expected : List (Vector ℤ D)) (hout : out.length = n) (hexpected : expected.length = n) :
    ∃ planes, params.decomposeSmallSignedInto T O ring out = some planes ∧ planes.length = n ∧
      (D * n < 2 ^ usizeBits → balancedDecomposePow2Into toU128Checked O (ring.map fun value => (value.toInt : F)) expected params =
        some (planes.flatMap Vector.toList)) := by
  obtain ⟨hlt, hp⟩ := new_ok hlaw.toLawful (by omega) hnew
  have hpq : params.q = q := by
    unfold BalancedDecomposePow2Params.new at hnew
    have hq1 : q - 1 + 1 = q := by omega
    simp only [hlaw.neg_one, option_some, Option.bind_some, checkedAdd_eq_some, hq1, exists_and_left] at hnew
    obtain ⟨_, ⟨-, rfl⟩, -, -, -, -, _, _, _, _, rfl⟩ := hnew
    rfl
  have hplanes : (residuePlanes params T n ring).length = n := by rw [residuePlanes, List.length_map, List.length_range]
  refine ⟨residuePlanes params T n ring, decomposeSmallSigned_planes hp hpq hlt hq hO ring hout, hplanes, fun hsize => ?_⟩
  have hbasis : params.logBasis ≤ O.maxLogBasis := by rwa [hp.logBasis_eq]
  rw [balancedDecomposePow2Into, guard, if_pos hbasis]
  exact fieldDecomposition_planes hlaw hp hpq hq hO ring hexpected hsize

end

theorem zmodCanonical_residues : (zmodCanonical 65537).Residues 65537 where
  neg_one := by decide +kernel
  canonical x := ⟨x.val, ZMod.val_lt x, rfl⟩
  natCast c hc := congrArg some (ZMod.val_cast_of_lt hc)
  cast_modulus := ZMod.natCast_self 65537

/-- Three digits to base 16 over the field with `2^16 + 1` elements. -/
theorem decomposeSmallSigned_eq_field_sample :
    ∃ params, BalancedDecomposePow2Params.new (zmodCanonical 65537) 3 4 = some params ∧
      ∃ planes, params.decomposeSmallSignedInto .i8 .i8 #v[100#8, 255#8] (List.replicate 3 #v[0, 0]) = some planes ∧
        planes.length = 3 ∧ (2 * 3 < 2 ^ usizeBits → balancedDecomposePow2Into (zmodCanonical 65537) .i8
            (#v[100#8, 255#8].map fun value => (value.toInt : ZMod 65537)) (List.replicate 3 #v[0, 0]) params =
            some (planes.flatMap Vector.toList)) := by
  obtain ⟨params, hnew⟩ : ∃ params, BalancedDecomposePow2Params.new (zmodCanonical 65537) 3 4 = some params :=
    Option.isSome_iff_exists.1 (by decide +kernel)
  exact ⟨params, hnew, decomposeSmallSigned_eq_field (T := .i8) zmodCanonical_residues (by decide) hnew (by decide)
    #v[100#8, 255#8] (List.replicate 3 #v[0, 0]) (List.replicate 3 #v[0, 0]) rfl rfl⟩

end Akita.Decompose
