import Akita.Proof.CyclotomicRing

/-!
# Packing into the ring

The subgroup loop lists the exponents `±1` modulo `4K`. Packing puts the low slots at the first
shifts and the high slots, turned by `X^(D/2)`, at the same shifts; it is a linear bijection of
the coordinates onto the ring.
-/

namespace Akita.FieldReduction

open Lib Negacyclic Finset
open List hiding mem_range smul_sum

/-! ## The subgroup loop -/

section params

variable {D K : ℕ} {values exponents : List ℕ} {κ m t : ℕ}

/-- The validated pair in powers of two. -/
structure Shape (D K κ m : ℕ) : Prop where
  K_eq : K = 2 ^ κ
  D_eq : D = 2 * K * 2 ^ m

theorem SubfieldParams.shape (params : SubfieldParams D K) : ∃ κ m, Shape D K κ m := by
  obtain ⟨n, hn⟩ := params.pow2
  obtain ⟨c, hc⟩ := params.K_dvd
  obtain ⟨e, he⟩ := params.two_dvd
  have hhalf : D / 2 = e := by omega
  obtain ⟨n', rfl⟩ : ∃ n', n = n' + 1 := by
    refine ⟨n - 1, ?_⟩
    rcases Nat.eq_zero_or_pos n with rfl | h
    · rw [pow_zero] at hn; omega
    · omega
  have hprod : K * c = 2 ^ n' := by rw [← hc, hhalf]; rw [pow_succ] at hn; omega
  obtain ⟨κ, -, hκ⟩ := (Nat.dvd_prime_pow Nat.prime_two).1 (Dvd.intro c hprod)
  obtain ⟨m, -, hm⟩ := (Nat.dvd_prime_pow Nat.prime_two).1 (Dvd.intro_left K hprod)
  exact ⟨κ, m, hκ, by rw [hn, pow_succ, ← hprod, hm]; ring⟩

namespace Shape

variable (h : Shape D K κ m)

include h

theorem K_pos : 0 < K := by rw [h.K_eq]; positivity

theorem D_pos : 0 < D := by have := h.K_pos; rw [h.D_eq]; positivity

theorem step_eq : D / (2 * K) = 2 ^ m := by
  have := h.K_pos
  rw [h.D_eq, Nat.mul_div_cancel_left _ (by omega)]

theorem packed_eq : D / K = 2 * 2 ^ m := by
  rw [h.D_eq, show 2 * K * 2 ^ m = K * (2 * 2 ^ m) by ring, Nat.mul_div_cancel_left _ h.K_pos]

theorem half_eq : D / 2 = K * 2 ^ m := by
  rw [h.D_eq, show 2 * K * 2 ^ m = 2 * (K * 2 ^ m) by ring, Nat.mul_div_cancel_left _ (by omega)]

theorem modulus_eq : D * 2 = 2 ^ m * (4 * 2 ^ κ) := by rw [h.D_eq, h.K_eq]; ring

end Shape

theorem SubfieldParams.new_ok (params : SubfieldParams D K) : SubfieldParams.new D K = .ok params := by
  obtain ⟨κ, m, hs⟩ := params.shape
  have hdvd : ¬ (K > D / 2 ∨ ¬ K ∣ D / 2) := by
    rintro (hgt | hnot)
    · have hpos : 0 < D / 2 := by
        have hK := hs.K_pos
        rw [hs.half_eq]
        positivity
      exact absurd (Nat.le_of_dvd hpos params.K_dvd) (by omega)
    · exact hnot params.K_dvd
  rw [SubfieldParams.new, dif_neg (not_not.2 params.twoD_lt), if_neg hs.D_pos.ne', dif_neg (not_not.2 params.pow2),
    dif_neg (not_not.2 params.two_dvd), dif_neg params.K_pos.ne', dif_neg hdvd, dif_neg (not_not.2 params.step_lt),
    dif_neg (not_not.2 params.coprime)]

theorem pushUnique_nodup (h : values.Nodup) (v : ℕ) : (pushUnique values v).Nodup := by
  unfold pushUnique
  split_ifs with hv
  · exact h
  · exact h.append (nodup_singleton v) (by simpa using hv)

theorem mem_pushUnique {v e : ℕ} : e ∈ pushUnique values v ↔ e ∈ values ∨ e = v := by
  unfold pushUnique
  split_ifs with hv
  · exact ⟨Or.inl, fun h => h.elim id fun h => h ▸ hv⟩
  · simp

/-- What the loop has collected before pass `t`. -/
structure Collected (κ m t : ℕ) (exponents : List ℕ) : Prop where
  nodup : exponents.Nodup
  mem : ∀ e, e ∈ exponents ↔ ∃ u < t, e = (4 * 2 ^ κ + 1) ^ u % (2 ^ m * (4 * 2 ^ κ)) ∨
    e = 2 ^ m * (4 * 2 ^ κ) - (4 * 2 ^ κ + 1) ^ u % (2 ^ m * (4 * 2 ^ κ))

theorem generator_pow_pos (κ m t : ℕ) : 0 < (4 * 2 ^ κ + 1) ^ t % (2 ^ m * (4 * 2 ^ κ)) := by
  have hpos : 0 < 2 ^ κ := by positivity
  have hone : (4 * 2 ^ κ + 1) ^ t % (2 ^ m * (4 * 2 ^ κ)) % (4 * 2 ^ κ) = 1 := by
    rw [Nat.mod_mul_left_mod, Nat.pow_mod, Nat.add_mod_left, Nat.mod_eq_of_lt (by omega : 1 < 4 * 2 ^ κ), one_pow,
      Nat.mod_eq_of_lt (by omega)]
  rcases Nat.eq_zero_or_pos ((4 * 2 ^ κ + 1) ^ t % (2 ^ m * (4 * 2 ^ κ))) with h | h
  · rw [h, Nat.zero_mod] at hone; omega
  · exact h

theorem mulMod_neg {p N : ℕ} (hp : 0 < p) (hlt : p < N) : mulMod p (N - 1) N = N - p := by
  have hsum : p * (N - 1) + p = p * N := by rw [← Nat.mul_succ, Nat.succ_eq_add_one, Nat.sub_add_cancel (by omega)]
  have hsplit : p * (N - 1) = N - p + N * (p - 1) := by
    have : N * p = N * (p - 1) + N := by rw [← Nat.mul_succ, Nat.succ_eq_add_one, Nat.sub_add_cancel hp]
    rw [mul_comm p N] at hsum
    omega
  rw [mulMod, hsplit, Nat.add_mul_mod_self_left, Nat.mod_eq_of_lt (by omega)]

theorem Collected.step (h : Collected κ m t exponents) :
    Collected κ m (t + 1) (pushUnique (pushUnique exponents ((4 * 2 ^ κ + 1) ^ t % (2 ^ m * (4 * 2 ^ κ))))
      (mulMod ((4 * 2 ^ κ + 1) ^ t % (2 ^ m * (4 * 2 ^ κ))) (2 ^ m * (4 * 2 ^ κ) - 1) (2 ^ m * (4 * 2 ^ κ)))) := by
  refine ⟨pushUnique_nodup (pushUnique_nodup h.nodup _) _, fun e => ?_⟩
  rw [mulMod_neg (generator_pow_pos κ m t) (Nat.mod_lt _ (by positivity)), mem_pushUnique, mem_pushUnique, h.mem]
  constructor
  · rintro ((⟨u, hu, hcase⟩ | hpow) | hneg)
    · exact ⟨u, by omega, hcase⟩
    · exact ⟨t, by omega, Or.inl hpow⟩
    · exact ⟨t, by omega, Or.inr hneg⟩
  · rintro ⟨u, hu, hcase⟩
    rcases Nat.lt_succ_iff_lt_or_eq.1 hu with hlt | rfl
    · exact Or.inl (Or.inl ⟨u, hlt, hcase⟩)
    · exact hcase.elim (fun hpow => Or.inl (Or.inr hpow)) Or.inr

theorem generator_pow_eq_one : (4 * 2 ^ κ + 1) ^ t % (2 ^ m * (4 * 2 ^ κ)) = 1 ↔ 2 ^ m ∣ t := by
  have hone : 1 % (2 ^ m * (4 * 2 ^ κ)) = 1 := Nat.mod_eq_of_lt (by
    have h1 : 0 < 2 ^ m := by positivity
    have h2 : 0 < 2 ^ κ := by positivity
    nlinarith)
  have horder := generator_pow_modEq (κ := κ) (m := m) (a := t) (b := 0)
  rw [pow_zero, Nat.ModEq, hone] at horder
  rw [horder, Nat.modEq_zero_iff_dvd]

theorem hExponentsLoop_ok {n : ℕ} (ht : t < 2 ^ m) (hn : 2 ^ m ≤ n + t) (h : Collected κ m t exponents) :
    ∃ H, SubfieldParams.hExponentsLoop (2 ^ m * (4 * 2 ^ κ)) (2 ^ m * (4 * 2 ^ κ) - 1) (4 * 2 ^ κ + 1) n exponents
      ((4 * 2 ^ κ + 1) ^ t % (2 ^ m * (4 * 2 ^ κ))) = .ok H ∧ Collected κ m (2 ^ m) H := by
  induction n generalizing t exponents with
  | zero => omega
  | succ n ih =>
    have hnext : mulMod ((4 * 2 ^ κ + 1) ^ t % (2 ^ m * (4 * 2 ^ κ))) (4 * 2 ^ κ + 1) (2 ^ m * (4 * 2 ^ κ)) =
        (4 * 2 ^ κ + 1) ^ (t + 1) % (2 ^ m * (4 * 2 ^ κ)) := by
      rw [mulMod, Nat.mod_mul_mod, pow_succ]
    simp only [SubfieldParams.hExponentsLoop, hnext, generator_pow_eq_one]
    by_cases hlast : t + 1 = 2 ^ m
    · rw [if_pos (by rw [hlast])]
      have hstep := h.step
      rw [hlast] at hstep
      have hperm := mergeSort_perm (pushUnique (pushUnique exponents ((4 * 2 ^ κ + 1) ^ t % (2 ^ m * (4 * 2 ^ κ))))
        (mulMod ((4 * 2 ^ κ + 1) ^ t % (2 ^ m * (4 * 2 ^ κ))) (2 ^ m * (4 * 2 ^ κ) - 1) (2 ^ m * (4 * 2 ^ κ)))) (· ≤ ·)
      exact ⟨_, rfl, hperm.nodup_iff.2 hstep.nodup, fun e => by rw [hperm.mem_iff, hstep.mem]⟩
    · rw [if_neg fun hdvd => hlast (by have := Nat.le_of_dvd (by omega) hdvd; omega)]
      exact ih (by omega) (by omega) h.step

/-- **The loop ends** with the exponents `±1` modulo `4K`, each once. -/
theorem SubfieldParams.hExponents_ok (params : SubfieldParams D K) (hs : Shape D K κ m) :
    ∃ H, params.hExponents = .ok H ∧ H.Nodup ∧ ∀ e, e ∈ H ↔ e ∈ traceExponents K (2 ^ m) := by
  have hK := params.step_lt
  have hD := params.twoD_lt
  have hmod := hs.modulus_eq
  have htwo : saturatingMul D 2 = 2 ^ m * (4 * 2 ^ κ) := by rw [saturatingMul, ← hmod]; omega
  have hstep : saturatingAdd (saturatingMul K 4) 1 = 4 * 2 ^ κ + 1 := by
    rw [saturatingAdd, saturatingMul, ← hs.K_eq]; omega
  have hempty : Collected κ m 0 [] := ⟨nodup_nil, by simp⟩
  obtain ⟨H, hH, hall⟩ := hExponentsLoop_ok (κ := κ) (m := m) (n := 2 ^ m * (4 * 2 ^ κ)) (t := 0) (by positivity)
    (by have : 0 < 2 ^ κ := by positivity
        nlinarith [Nat.zero_le (2 ^ m)]) hempty
  have hone : (4 * 2 ^ κ + 1) ^ 0 % (2 ^ m * (4 * 2 ^ κ)) = 1 := generator_pow_eq_one.2 (dvd_zero _)
  rw [hone] at hH
  refine ⟨H, ?_, hall.nodup, fun e => ?_⟩
  · rw [SubfieldParams.hExponents, SubfieldParams.hGenerators, htwo, hstep]
    exact hH
  · rw [hall.mem, hs.K_eq, mem_traceExponents_iff]

end params

/-! ## Packing -/

section packing

variable {F : Type} [Field F] {D K κ m : ℕ} (hs : Shape D K κ m) {coords : List F} {n j shift r : ℕ} {coord : ℕ → Option F}
  {c : ℕ → F}

open FieldReduction.CyclotomicRing

/-- The element of the ring-subfield with the given coordinates. -/
noncomputable def subfieldValue (F : Type) [Field F] (D K m : ℕ) (c : ℕ → F) : Negacyclic F D :=
  subfieldSum (root F D ^ 2 ^ m) K c

/-- Coordinate `j` of slot `i`. -/
def slot (K : ℕ) (coords : List F) (i j : ℕ) : F := coords.getD (i * K + j) 0

theorem okOr_getElem? {e : AkitaError} (hn : n < coords.length) : okOr coords[n]? e = .ok (coords.getD n 0) := by
  rw [okOr_eq_ok, getD_eq_getElem?_getD, getElem?_eq_getElem hn, Option.getD_some]

theorem offset_le (hj : j < K) : j * 2 ^ m + 2 ^ m ≤ K * 2 ^ m := by
  rw [← Nat.succ_mul]
  exact Nat.mul_le_mul_right _ hj

include hs

/-- **One slot**, turned by `U`: the first coordinate stands at the base, and each further one leaves two terms. -/
theorem slot_ok {base : ℕ} {second : ℕ → ℕ} {op : F → F → F} {t : ℕ → F} {U : Negacyclic F D} (hbase : base < D)
    (hU : root F D ^ base = U) (hop : ∀ j x, op x (c j) = x + t j) (hcoord : ∀ j < K, coord j = some (c j))
    (hterms : ∀ j < K, 2 ^ m ≤ j * 2 ^ m → base + j * 2 ^ m < D ∧ second j < D ∧ c j • root F D ^ (base + j * 2 ^ m) +
      t j • root F D ^ second j = U * (c j • conjSum (root F D ^ 2 ^ m) (2 * K) j)) (out : CyclotomicRing F D) :
    ∃ out', (do
      let c0 ← okOr (coord 0) outOfBounds
      let out ← update out base (· + c0)
      (range' 1 (K - 1)).foldlM (fun out j => do
        let cj ← okOr (coord j) outOfBounds
        let out ← update out (base + j * 2 ^ m) (· + cj)
        update out (second j) (op · cj)) out) = .ok out' ∧
      value F D out' = value F D out + U * subfieldValue F D K m c := by
  obtain ⟨out₁, hok₁, hval₁, -⟩ := update_ok (a := out) hbase (f := (· + c 0)) fun _ _ => rfl
  have hpass : ∀ made j rest (out : CyclotomicRing F D), range' 1 (K - 1) = made ++ j :: rest → True → ∃ out', (do
        let cj ← okOr (coord j) outOfBounds
        let out ← update out (base + j * 2 ^ m) (· + cj)
        update out (second j) (op · cj)) = .ok out' ∧ True ∧ value F D out' = value F D out +
          U * (c j • conjSum (root F D ^ 2 ^ m) (2 * K) j) := by
    intro made j rest out hl _
    have hj : j ∈ range' 1 (K - 1) := by rw [hl]; simp
    rw [mem_range'_1] at hj
    obtain ⟨hfirst, hsecond, hsum⟩ := hterms j (by omega) (Nat.le_mul_of_pos_left _ (by omega))
    obtain ⟨out₁, hok₁, hval₁, -⟩ := update_ok (a := out) hfirst (f := (· + c j)) fun _ _ => rfl
    obtain ⟨out₂, hok₂, hval₂, -⟩ := update_ok (a := out₁) hsecond (f := (op · (c j))) fun n _ => hop j _
    refine ⟨out₂, ?_, trivial, by rw [hval₂, hval₁, add_assoc, hsum]⟩
    rw [hcoord j (by omega)]
    simp only [okOr, bind, Except.bind, hok₁, hok₂]
  obtain ⟨out₂, hok₂, -, hval₂⟩ := foldlM_runs (s := out₁) hpass trivial
  refine ⟨out₂, ?_, ?_⟩
  · rw [hcoord 0 hs.K_pos]
    simp only [okOr, bind, Except.bind, hok₁]
    exact hok₂
  · rw [hval₂, hval₁, hU, sum_map_range', subfieldValue, subfieldSum, mul_add, mul_smul_comm, mul_one, mul_sum,
      Finset.sum_Ico_eq_sum_range, add_assoc]

theorem embedLowSlot_ok (hshift : shift < 2 ^ m) (hcoord : ∀ j < K, coord j = some (c j)) (out : CyclotomicRing F D) :
    ∃ out', embedLowSlot (K := K) (2 ^ m) shift coord out = .ok out' ∧
      value F D out' = value F D out + root F D ^ shift * subfieldValue F D K m c := by
  have hD : D = K * 2 ^ m + K * 2 ^ m := by rw [hs.D_eq]; ring
  have hfirst := offset_le (m := m) hs.K_pos
  refine slot_ok hs (by omega) rfl (fun j x => sub_eq_add_neg x (c j)) hcoord (fun j hj hstep => ?_) out
  have hoff := offset_le (m := m) hj
  have hneg : shift + D - j * 2 ^ m = shift + 2 ^ m * (2 * K - j) := by
    rw [Nat.mul_sub, mul_comm (2 ^ m) j, show 2 ^ m * (2 * K) = D by rw [hs.D_eq]; ring]
    omega
  refine ⟨by omega, by omega, ?_⟩
  rw [hneg, conjSum, pow_add, pow_add, pow_mul', pow_mul _ (2 ^ m), mul_smul_comm, mul_sub, smul_sub, neg_smul,
    sub_eq_add_neg]

theorem embedHighSlot_ok (hshift : shift < 2 ^ m) (hcoord : ∀ j < K, coord j = some (c j)) (out : CyclotomicRing F D) :
    ∃ out', embedHighSlot (K := K) (2 ^ m) (shift + D / 2) coord out = .ok out' ∧
      value F D out' = value F D out + root F D ^ shift * (root F D ^ (K * 2 ^ m) * subfieldValue F D K m c) := by
  have hD : D = K * 2 ^ m + K * 2 ^ m := by rw [hs.D_eq]; ring
  have hfirst := offset_le (m := m) hs.K_pos
  rw [hs.half_eq, ← mul_assoc]
  refine slot_ok hs (by omega) (pow_add _ _ _) (fun _ _ => rfl) hcoord (fun j hj hstep => ?_) out
  have hoff := offset_le (m := m) hj
  -- the negative power wraps once around the ring
  have hwrap : root F D ^ (K * 2 ^ m) * (root F D ^ 2 ^ m) ^ (2 * K - j) = -root F D ^ (K * 2 ^ m - j * 2 ^ m) := by
    rw [← pow_mul, ← pow_add, show K * 2 ^ m + 2 ^ m * (2 * K - j) = D + (K * 2 ^ m - j * 2 ^ m) by
      rw [Nat.mul_sub, mul_comm (2 ^ m) j, show 2 ^ m * (2 * K) = D by rw [hs.D_eq]; ring]; omega,
      pow_add, root_pow_self, neg_one_mul]
  refine ⟨by omega, by omega, ?_⟩
  rw [conjSum, mul_assoc, mul_smul_comm, mul_sub, hwrap, sub_neg_eq_add, mul_smul_comm, mul_add, smul_add,
    Nat.add_sub_assoc (by omega : j * 2 ^ m ≤ K * 2 ^ m), pow_add _ shift (K * 2 ^ m - j * 2 ^ m), pow_add, pow_add,
    pow_mul' _ j, mul_assoc]

/-- **Packing**: the low slots, and the high slots turned by `X^(D/2)`. -/
theorem psiEmbed_ok (params : SubfieldParams D K) (hlen : coords.length = D) :
    ∃ out, psiEmbed params coords = .ok out ∧ value F D out = packed K (2 ^ m)
      (fun i => subfieldValue F D K m (slot K coords i)) (fun i => subfieldValue F D K m (slot K coords (2 ^ m + i))) := by
  have hcoord : ∀ i < 2 * 2 ^ m, ∀ j < K, coords[i * K + j]? = some (slot K coords i j) := by
    intro i hi j hj
    have hlt : i * K + j < coords.length := by
      have hrow : i * K + K ≤ 2 * 2 ^ m * K := by
        rw [← Nat.succ_mul]
        exact Nat.mul_le_mul_right _ hi
      rw [hlen, hs.D_eq, show 2 * K * 2 ^ m = 2 * 2 ^ m * K by ring]
      omega
    rw [slot, getD_eq_getElem?_getD, getElem?_eq_getElem hlt, Option.getD_some]
  obtain ⟨low, hlow, -, hvlow⟩ := foldlM_runs (l := range (2 ^ m)) (s := (0 : CyclotomicRing F D))
    (P := fun _ _ => True) (μ := value F D)
    (f := fun out idx => embedLowSlot (K := K) (2 ^ m) idx (fun j => coords[idx * K + j]?) out)
    (g := fun i => root F D ^ i * subfieldValue F D K m (slot K coords i)) (by
      intro made i rest out hl _
      have hi : i ∈ List.range (2 ^ m) := by rw [hl]; simp
      rw [List.mem_range] at hi
      obtain ⟨out', hok, hval⟩ := embedLowSlot_ok hs hi (hcoord i (by omega)) out
      exact ⟨out', hok, trivial, hval⟩) trivial
  obtain ⟨out, hout, -, hvout⟩ := foldlM_runs (l := range' (2 ^ m) (2 ^ m)) (s := low)
    (P := fun _ _ => True) (μ := value F D)
    (f := fun out idx => embedHighSlot (K := K) (2 ^ m) (idx - 2 ^ m + D / 2) (fun j => coords[idx * K + j]?) out)
    (g := fun i => root F D ^ (i - 2 ^ m) * (root F D ^ (K * 2 ^ m) * subfieldValue F D K m (slot K coords i))) (by
      intro made i rest out hl _
      have hi : i ∈ range' (2 ^ m) (2 ^ m) := by rw [hl]; simp
      rw [mem_range'_1] at hi
      obtain ⟨out', hok, hval⟩ := embedHighSlot_ok hs (by omega : i - 2 ^ m < 2 ^ m) (hcoord i (by omega)) out
      exact ⟨out', hok, trivial, hval⟩) trivial
  refine ⟨out, ?_, ?_⟩
  · simp only [psiEmbed, ensure, if_pos hlen, hs.step_eq, hs.packed_eq, show 2 * 2 ^ m - 2 ^ m = 2 ^ m by omega, bind,
      Except.bind, hlow]
    exact hout
  · rw [hvout, hvlow, map_zero, zero_add, sum_map_range, sum_map_range', packed, ← sum_add_distrib]
    refine sum_congr rfl fun i _ => ?_
    rw [Nat.add_sub_cancel_left, mul_add]

theorem embedSubfield_ok (params : SubfieldParams D K) (hlen : coords.length = K) :
    ∃ out, embedSubfield params coords = .ok out ∧ value F D out = subfieldValue F D K m fun j => coords.getD j 0 := by
  have hD : D = K * 2 ^ m + K * 2 ^ m := by rw [hs.D_eq]; ring
  have hpos : 0 < 2 ^ m := by positivity
  obtain ⟨out₁, hok₁, hval₁, hother₁⟩ := update_ok (a := (0 : CyclotomicRing F D)) (i := 0) hs.D_pos
    (f := fun _ => coords.getD 0 0) fun n _ => (zero_add _).symm
  have hpass : ∀ made j rest (out : CyclotomicRing F D), range' 1 (K - 1) = made ++ j :: rest →
      (∀ n : Fin D, (n : ℕ) ≠ 0 → (∀ i ∈ made, (n : ℕ) ≠ i * 2 ^ m ∧ (n : ℕ) ≠ D - i * 2 ^ m) → out n = 0) → ∃ out', (do
        let cj ← okOr coords[j]? outOfBounds
        let out ← update out (j * 2 ^ m) (fun _ => cj)
        update out (D - j * 2 ^ m) (fun _ => -cj)) = .ok out' ∧
        (∀ n : Fin D, (n : ℕ) ≠ 0 → (∀ i ∈ made ++ [j], (n : ℕ) ≠ i * 2 ^ m ∧ (n : ℕ) ≠ D - i * 2 ^ m) → out' n = 0) ∧
        value F D out' = value F D out + coords.getD j 0 • conjSum (root F D ^ 2 ^ m) (2 * K) j := by
    intro made j rest out hl hP
    have hj : j ∈ range' 1 (K - 1) := by rw [hl]; simp
    rw [mem_range'_1] at hj
    have hoff := offset_le (m := m) (by omega : j < K)
    have hstep : 2 ^ m ≤ j * 2 ^ m := Nat.le_mul_of_pos_left _ (by omega)
    -- the places of this pass differ from those of the earlier ones
    have hnew : ∀ i ∈ made, i * 2 ^ m ≠ j * 2 ^ m ∧ i * 2 ^ m + 2 ^ m ≤ K * 2 ^ m := by
      intro i hi
      have hmem : i ∈ range' 1 (K - 1) := by rw [hl]; simp [hi]
      rw [mem_range'_1] at hmem
      refine ⟨fun h => ?_, offset_le (by omega)⟩
      have hnodup := nodup_range' (s := 1) (n := K - 1)
      rw [hl, nodup_append] at hnodup
      exact hnodup.2.2 i hi j (by simp) (Nat.eq_of_mul_eq_mul_right hpos h)
    obtain ⟨out₁, hok₁, hval₁, hother₁⟩ := update_ok (a := out) (i := j * 2 ^ m) (by omega)
      (f := fun _ => coords.getD j 0) (c := coords.getD j 0) (fun n hn => by
        rw [hP n (by omega) fun i hi => by have := hnew i hi; omega, zero_add])
    obtain ⟨out₂, hok₂, hval₂, hother₂⟩ := update_ok (a := out₁) (i := D - j * 2 ^ m) (by omega)
      (f := fun _ => -coords.getD j 0) (c := -coords.getD j 0) (fun n hn => by
        rw [hother₁ n (by omega), hP n (by omega) fun i hi => by have := hnew i hi; omega, zero_add])
    refine ⟨out₂, ?_, ?_, ?_⟩
    · rw [okOr_getElem? (by omega)]
      simp only [bind, Except.bind, hok₁, hok₂]
    · intro n hn0 hn
      have hlast := hn j (by simp)
      rw [hother₂ n hlast.2, hother₁ n hlast.1, hP n hn0 fun i hi => hn i (by simp [hi])]
    · have hneg : D - j * 2 ^ m = 2 ^ m * (2 * K - j) := by
        rw [Nat.mul_sub, mul_comm (2 ^ m) j, show 2 ^ m * (2 * K) = D by rw [hs.D_eq]; ring]
      rw [hval₂, hval₁, hneg, conjSum, pow_mul', pow_mul _ (2 ^ m), smul_sub, neg_smul]
      abel
  obtain ⟨out₂, hok₂, -, hval₂⟩ := foldlM_runs (s := out₁) hpass (fun n hn _ => hother₁ n hn)
  refine ⟨out₂, ?_, ?_⟩
  · rw [embedSubfield, okOr_getElem? (by have := hs.K_pos; omega), hs.step_eq]
    simp only [bind, Except.bind, hok₁]
    exact hok₂
  · rw [hval₂, hval₁, map_zero, zero_add, pow_zero, sum_map_range', subfieldValue, subfieldSum, Finset.sum_Ico_eq_sum_range]

omit hs in
theorem getD_ofFn (c : Fin D → F) (n : ℕ) : (ofFn c).getD n 0 = coef c n := by
  rw [List.getD_eq_getElem?_getD, List.getElem?_ofFn, coef]
  split_ifs <;> rfl

def slotCoords (K m : ℕ) (a : CyclotomicRing F D) (n : ℕ) : F :=
  if n / K < 2 ^ m then lowCoords K (fun b => coef a (n / K + b * 2 ^ m)) (n % K)
  else highCoords K (fun b => coef a (n / K - 2 ^ m + b * 2 ^ m)) (n % K)

omit hs in
theorem slotCoords_low (a : CyclotomicRing F D) (hr : r < 2 ^ m) (hj : j < K) :
    slotCoords K m a (r * K + j) = lowCoords K (fun b => coef a (r + b * 2 ^ m)) j := by
  have hdiv : (r * K + j) / K = r := by
    rw [add_comm, Nat.add_mul_div_right _ _ (by omega), Nat.div_eq_of_lt hj, zero_add]
  rw [slotCoords, hdiv, if_pos hr, Nat.mul_add_mod_self_right, Nat.mod_eq_of_lt hj]

omit hs in
theorem slotCoords_high (a : CyclotomicRing F D) (hj : j < K) :
    slotCoords K m a ((2 ^ m + r) * K + j) = highCoords K (fun b => coef a (r + b * 2 ^ m)) j := by
  have hdiv : ((2 ^ m + r) * K + j) / K = 2 ^ m + r := by
    rw [add_comm, Nat.add_mul_div_right _ _ (by omega), Nat.div_eq_of_lt hj, zero_add]
  rw [slotCoords, hdiv, if_neg (by omega), Nat.mul_add_mod_self_right, Nat.mod_eq_of_lt hj, Nat.add_sub_cancel_left]

theorem Shape.index_lt {i : ℕ} (hi : i < 2 * 2 ^ m) (hj : j < K) : i * K + j < D := by
  have hrow : i * K + K ≤ 2 * 2 ^ m * K := by
    rw [← Nat.succ_mul]
    exact Nat.mul_le_mul_right _ hi
  rw [hs.D_eq, show 2 * K * 2 ^ m = 2 * 2 ^ m * K by ring]
  omega

/-- **Packing is a linear bijection** of the coordinates onto the ring. -/
theorem psiEmbed_bijective (h2 : (2 : F) ≠ 0) (params : SubfieldParams D K) :
    ∃ Ψ : (Fin D → F) ≃ₗ[F] CyclotomicRing F D, (∀ c, psiEmbed params (ofFn c) = .ok (Ψ c)) ∧
      ∀ a n, coef (Ψ.symm a) n = if n < D then slotCoords K m a n else 0 := by
  have hinj := value_injective (F := F) hs.D_pos
  have hpack : ∀ c : Fin D → F, ∃ out, psiEmbed params (ofFn c) = .ok out ∧ value F D out = packed K (2 ^ m)
      (fun i => subfieldValue F D K m fun j => coef c (i * K + j))
      (fun i => subfieldValue F D K m fun j => coef c ((2 ^ m + i) * K + j)) := by
    intro c
    obtain ⟨out, hok, hval⟩ := psiEmbed_ok hs params (length_ofFn (f := c))
    have hslot : ∀ i, slot K (ofFn c) i = fun j => coef c (i * K + j) := fun i => funext fun j => getD_ofFn c _
    simp only [hslot] at hval
    exact ⟨out, hok, hval⟩
  choose psi hpsi hval using hpack
  let Ψ : (Fin D → F) →ₗ[F] CyclotomicRing F D :=
    { toFun := psi
      map_add' := by
        intro c c'
        apply hinj
        rw [map_add, hval, hval, hval, packed, packed, packed, ← sum_add_distrib]
        refine sum_congr rfl fun i _ => ?_
        have hsum : ∀ n, coef (c + c') n = coef c n + coef c' n := by
          intro n
          simp only [coef]
          split_ifs <;> simp
        simp only [hsum, subfieldValue, subfieldSum_add]
        ring
      map_smul' := by
        intro x c
        apply hinj
        rw [map_smul, hval, hval, packed, packed, RingHom.id_apply, smul_sum]
        refine sum_congr rfl fun i _ => ?_
        have hsmul : ∀ n, coef (x • c) n = x * coef c n := by
          intro n
          simp only [coef]
          split_ifs <;> simp
        simp only [hsmul, subfieldValue, subfieldSum_smul, mul_smul_comm, ← smul_add] }
  have hright : ∀ a : CyclotomicRing F D, Ψ (fun n => slotCoords K m a n) = a := by
    intro a
    apply hinj
    have hcoef : ∀ n < D, coef (fun n : Fin D => slotCoords K m a n) n = slotCoords K m a n := fun n hn => by
      rw [coef, dif_pos hn]
    rw [value_eq_packed h2 hs.K_pos hs.D_eq a]
    refine (hval _).trans (sum_congr rfl fun r hr => ?_)
    rw [mem_range] at hr
    have hlow : subfieldValue F D K m (fun j => coef (fun n : Fin D => slotCoords K m a n) (r * K + j)) =
        subfieldSum (root F D ^ 2 ^ m) K (lowCoords K fun b => coef a (r + b * 2 ^ m)) :=
      subfieldSum_congr hs.K_pos fun j hj => by
        rw [hcoef _ (hs.index_lt (by omega) hj), slotCoords_low a hr hj]
    have hhigh : subfieldValue F D K m (fun j => coef (fun n : Fin D => slotCoords K m a n) ((2 ^ m + r) * K + j)) =
        subfieldSum (root F D ^ 2 ^ m) K (highCoords K fun b => coef a (r + b * 2 ^ m)) :=
      subfieldSum_congr hs.K_pos fun j hj => by
        rw [hcoef _ (hs.index_lt (by omega) hj), slotCoords_high a hj]
    simp only [hlow, hhigh]
  have hbij : Function.Bijective Ψ := by
    have hsurj : Function.Surjective Ψ := fun a => ⟨_, hright a⟩
    exact ⟨LinearMap.injective_iff_surjective.2 hsurj, hsurj⟩
  refine ⟨LinearEquiv.ofBijective Ψ hbij, hpsi, fun a n => ?_⟩
  have hsymm : (LinearEquiv.ofBijective Ψ hbij).symm a = fun n : Fin D => slotCoords K m a n := by
    rw [LinearEquiv.symm_apply_eq]
    exact (hright a).symm
  rw [hsymm, coef]
  split_ifs <;> rfl

theorem subfieldValue_injective (h2 : (2 : F) ≠ 0) (params : SubfieldParams D K) {c' : ℕ → F}
    (heq : subfieldValue F D K m c = subfieldValue F D K m c') : ∀ j < K, c j = c' j := by
  obtain ⟨Ψ, hpsi, -⟩ := psiEmbed_bijective hs h2 params
  -- the element alone in slot zero
  have hzero : ∀ c : ℕ → F, value F D (Ψ fun n => if (n : ℕ) < K then c n else 0) = subfieldValue F D K m c := by
    intro c
    obtain ⟨out, hok, hval⟩ := psiEmbed_ok hs params
      (length_ofFn (f := fun n : Fin D => if (n : ℕ) < K then c n else 0))
    obtain rfl : Ψ (fun n => if (n : ℕ) < K then c n else 0) = out := by
      have hboth := (hpsi _).symm.trans hok
      exact Except.ok.inj hboth
    have hslot : ∀ i < 2 * 2 ^ m, ∀ j < K,
        slot K (ofFn fun n : Fin D => if (n : ℕ) < K then c n else 0) i j = if i = 0 then c j else 0 := by
      intro i hi j hj
      rw [slot, getD_ofFn, coef, dif_pos (hs.index_lt hi hj)]
      rcases Nat.eq_zero_or_pos i with rfl | hpos
      · simp [hj]
      · have hge : K ≤ i * K := Nat.le_mul_of_pos_left _ hpos
        rw [if_neg (by simp only; omega), if_neg (by omega)]
    have hnull : subfieldValue F D K m (fun _ => 0) = 0 := by simp [subfieldValue, subfieldSum]
    have hlow : ∀ i < 2 * 2 ^ m, subfieldValue F D K m
        (slot K (ofFn fun n : Fin D => if (n : ℕ) < K then c n else 0) i) =
        if i = 0 then subfieldValue F D K m c else 0 := by
      intro i hi
      rw [subfieldValue, subfieldSum_congr hs.K_pos fun j hj => hslot i hi j hj]
      split_ifs
      · rfl
      · exact hnull
    have hpos : 0 < 2 ^ m := by positivity
    rw [hval, packed, sum_eq_single_of_mem 0 (mem_range.2 hpos)]
    · rw [hlow 0 (by omega), hlow (2 ^ m + 0) (by omega), if_pos rfl, if_neg (by omega), pow_zero, one_mul, mul_zero, add_zero]
    · intro i hi hne
      rw [mem_range] at hi
      rw [hlow i (by omega), hlow (2 ^ m + i) (by omega), if_neg hne, if_neg (by omega), mul_zero, add_zero, mul_zero]
  intro j hj
  have hΨ : (fun n : Fin D => if (n : ℕ) < K then c n else 0) = (fun n : Fin D => if (n : ℕ) < K then c' n else 0) := by
    apply Ψ.injective
    apply value_injective hs.D_pos
    rw [hzero, hzero, heq]
  have hpos : 0 < 2 ^ m := by positivity
  have hjD := hs.index_lt (i := 0) (by omega) hj
  rw [zero_mul, zero_add] at hjD
  have hread := congrFun hΨ ⟨j, hjD⟩
  simpa [hj] using hread

/-- **The trace** is the sum of the automorphisms of the subgroup. -/
theorem traceH_ok (params : SubfieldParams D K) (x : CyclotomicRing F D) :
    ∃ out, traceH params x = .ok out ∧ value F D out = trace K (2 ^ m) (value F D x) := by
  obtain ⟨H, hH, hnodup, hmem⟩ := params.hExponents_ok hs
  have hpass : ∀ (made : List ℕ) (n : ℕ) (rest : List ℕ) (out : CyclotomicRing F D), H = made ++ n :: rest → True →
      ∃ out', (do
        let image ← x.sigma n
        return out + image : Result (CyclotomicRing F D)) = .ok out' ∧ True ∧
        value F D out' = value F D out + power n (value F D x) := by
    intro made n rest out hl _
    have hodd := odd_of_mem_traceExponents ((hmem n).1 (by rw [hl]; simp))
    obtain ⟨image, hok, hval⟩ := sigma_ok hs.D_pos hodd x
    refine ⟨out + image, by rw [hok]; rfl, trivial, ?_⟩
    rw [map_add, hval, power_of_odd hodd]
  obtain ⟨out, hok, -, hval⟩ := foldlM_runs (s := (0 : CyclotomicRing F D)) hpass trivial
  refine ⟨out, by rw [traceH, hH]; exact hok, ?_⟩
  have hfin : H.toFinset = traceExponents K (2 ^ m) := by
    ext n
    rw [mem_toFinset, hmem]
  rw [hval, map_zero, zero_add, trace_apply, ← hfin, sum_toFinset _ hnodup]

omit hs in
theorem get_eq (a : CyclotomicRing F D) (hn : n < D) : a.get n = some (coef a n) := by
  rw [CyclotomicRing.get, coef, dif_pos hn, dif_pos hn]

/-- **The check accepts what the ring identity accepts**, by one scalar at degree one. -/
theorem checkTraceInnerProduct_ok [DecidableEq F] (h2 : (2 : F) ≠ 0) (params : SubfieldParams D K) (input : CyclotomicRing F D)
    (hlen : coords.length = K) : ∃ lhs embedded, traceH params input = .ok lhs ∧ embedSubfield params coords = .ok embedded ∧
      checkTraceInnerProduct params input coords = .ok (decide (lhs = embedded.scale (params.packedLen : F))) := by
  obtain ⟨lhs, hlhs, hvlhs⟩ := traceH_ok hs params input
  obtain ⟨embedded, hemb, hvemb⟩ := embedSubfield_ok hs params hlen
  refine ⟨lhs, embedded, hlhs, hemb, ?_⟩
  by_cases hone : K = 1
  · have hscale : (2 * 2 ^ m : F) ≠ 0 := mul_ne_zero h2 (pow_ne_zero _ h2)
    have hpacked : (params.packedLen : F) = 2 * 2 ^ m := by rw [SubfieldParams.packedLen, hs.packed_eq]; push_cast; rfl
    -- at degree one both sides are constants
    have hiff : lhs = embedded.scale (params.packedLen : F) ↔ coef input 0 = coords.getD 0 0 := by
      rw [← (value_injective hs.D_pos).eq_iff (a := lhs), value_scale, hvlhs, hvemb, trace_value h2 hs.K_pos hs.D_eq, hpacked,
        (smul_right_injective _ hscale).eq_iff]
      constructor
      · intro heq
        have hread := subfieldValue_injective hs h2 params heq 0 hs.K_pos
        rwa [lowCoords, if_pos rfl, zero_mul] at hread
      · intro heq
        refine subfieldSum_congr hs.K_pos fun j hj => ?_
        rw [show j = 0 by omega, lowCoords, if_pos rfl, zero_mul, heq]
    rw [checkTraceInnerProduct, if_pos hone, get_eq input hs.D_pos, okOr_getElem? (by omega)]
    simp only [okOr, ok_bind, ← hiff]
    rfl
  · rw [checkTraceInnerProduct, if_neg hone, hlhs, hemb]
    rfl

end packing

end Akita.FieldReduction
