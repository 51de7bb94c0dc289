import Akita.Lib.Enumerate
import Akita.Lib.Negacyclic
import Akita.Proof.TrigTables

/-!
# The operator-norm decision is sound

The accumulators of a frequency are within `r = ||c||_1 eps_root` of the exact value of the
challenge at that root, so the upper and lower bounds of `decide_frequency` decide the norm
there. The frequencies scanned are half of the roots of `X^d + 1`; the others are their
conjugates.
-/

namespace Akita.OpNorm

open Lib Finset List
open Real (pi cos sin)

/-- `||c||_1`. -/
def l1Norm (coeffs : List ℤ) : ℤ := (coeffs.map fun c => |c|).sum

/-- The value of the challenge at `ζ`. -/
noncomputable def evalAt (positions : List ℕ) (coeffs : List ℤ) (ζ : ℂ) : ℂ :=
  ((positions.zip coeffs).map fun term => (term.2 : ℂ) * ζ ^ term.1).sum

/-- The fixed-point value of frequency `k` in a table of rows of `halfD`. -/
def freqSum (row : List ℤ) (terms : List (ℕ × ℤ)) (halfD k : ℕ) : ℤ :=
  (terms.map fun term => term.2 * row.getD (term.1 * halfD + k) 0).sum

/-- What `new` establishes of a table. -/
structure OpNormTable.Ok (table : OpNormTable) (d q maxL1 maxT : ℕ) : Prop where
  d_eq : table.d = d
  q_eq : table.q = q
  eps_eq : table.epsRoot = (buildTables d q).2.2
  maxL1_eq : table.maxL1 = maxL1
  maxT_eq : table.maxT = maxT
  cos_eq : table.freqCosAt = buildFreqAtTable d (buildTables d q).1
  sin_eq : table.freqSinAt = buildFreqAtTable d (buildTables d q).2.1
  d_ge : 4 ≤ d
  d_mod : d % 4 = 0
  q_ge : 1 ≤ q
  q_le : q ≤ 56
  acc_le : (maxL1 : ℤ) * 2 ^ q ≤ 2 ^ 63 - 1
  upper_lt : maxL1 * 2 ^ q * (maxL1 * 2 ^ q) * 2 + maxL1 * 2 ^ q * 4 * (maxL1 * table.epsRoot) +
    maxL1 * table.epsRoot * (maxL1 * table.epsRoot) * 2 < 2 ^ 127
  t_lt : (maxT : ℤ) * maxT < 2 ^ 127

theorem downcast_eq_ok {name : String} {table table' : List ℤ} (h : downcast name table = .ok table') : table' = table := by
  unfold downcast at h
  induction table generalizing table' with
  | nil => simpa [pure, Except.pure, eq_comm] using h
  | cons v table ih =>
    rw [mapM_cons] at h
    simp only [result_ok, checkedI64_eq_some] at h
    obtain ⟨_, ⟨-, rfl⟩, rest, hrest, rfl⟩ := h
    rw [ih hrest]

theorem shl128_one {q : ℕ} (hq : q ≤ 56) : shl128 1 q = 2 ^ q := by
  have hpow : (2 : ℤ) ^ q ≤ 2 ^ 56 := pow_le_pow_right₀ (by norm_num) hq
  have hpos : (0 : ℤ) < 2 ^ q := by positivity
  unfold shl128
  rw [one_mul]
  apply Int.bmod_eq_of_le <;> omega

theorem new_eq_ok {d q maxL1 maxT : ℕ} {table : OpNormTable} (h : OpNormTable.new d q maxL1 maxT = .ok table) :
    table.Ok d q maxL1 maxT := by
  simp only [OpNormTable.new, result_ok] at h
  obtain ⟨hd, hq, hvalid, hacc, cos, hcos, sin, hsin, rfl⟩ := h
  have hscale := shl128_one hq.2
  simp only [validateNoOverflow, result_ok, checkedI128_eq_some, checkedShl128, option_some,
    Option.ite_none_right_eq_some, hscale] at hvalid
  obtain ⟨_, ⟨-, rfl⟩, _, ⟨-, rfl⟩, _, ⟨-, rfl⟩, _, ⟨-, rfl⟩, _, ⟨-, rfl⟩, _, ⟨_, ⟨-, rfl⟩, -, rfl⟩,
    _, ⟨_, ⟨-, rfl⟩, -, rfl⟩, _, ⟨_, ⟨-, rfl⟩, hupper, rfl⟩, _, ⟨_, ⟨ht, rfl⟩, -, -⟩, -⟩ := hvalid
  simp only [validateI64Accumulators, result_ok, checkedI128_eq_some, checkedShl128, Option.ite_none_right_eq_some,
    Option.some.injEq, hscale] at hacc
  obtain ⟨_, ⟨-, rfl⟩, _, ⟨-, rfl⟩, hacc⟩ := hacc
  exact ⟨rfl, rfl, rfl, rfl, rfl, by rw [downcast_eq_ok hcos], by rw [downcast_eq_ok hsin], by omega, by omega, hq.1, hq.2,
    hacc, hupper.2, ht.2⟩

section

variable {d q maxL1 maxT : ℕ} {table : OpNormTable}

theorem buildFreqAtTable_getElem? {base : List ℤ} {pos k : ℕ} (hpos : pos < d) (hk : k < d / 2) :
    (buildFreqAtTable d base)[pos * (d / 2) + k]? = some (base.getD ((2 * k + 1) % (2 * d) * pos % (2 * d)) 0) :=
  getElem?_rows (fun pos k => base.getD ((2 * k + 1) % (2 * d) * pos % (2 * d)) 0) hpos hk

theorem length_buildFreqAtTable (base : List ℤ) : (buildFreqAtTable d base).length = d * (d / 2) := by
  simp [buildFreqAtTable, length_flatMap]

/-- The index of an entry keeps its angle, up to whole turns. -/
theorem angle_mod (hd : 0 < d) (n : ℕ) : cos (pi * (n % (2 * d) : ℕ) / d) = cos (pi * n / d) ∧
      sin (pi * (n % (2 * d) : ℕ) / d) = sin (pi * n / d) := by
  have hsplit : pi * n / d = pi * (n % (2 * d) : ℕ) / d + (n / (2 * d) : ℕ) * (2 * pi) := by
    have hnat : (n : ℝ) = (n % (2 * d) : ℕ) + 2 * d * (n / (2 * d) : ℕ) := by
      exact_mod_cast (Nat.mod_add_div n (2 * d)).symm
    rw [hnat]
    field_simp
  rw [hsplit, Real.cos_add_nat_mul_two_pi, Real.sin_add_nat_mul_two_pi]
  exact ⟨rfl, rfl⟩

/-- **The entries of the rows**: the recorded error, and at most `2^q`. -/
theorem freq_entry (h : table.Ok d q maxL1 maxT) {pos k : ℕ} (hpos : pos < d) (hk : k < d / 2) :
    (∃ e, table.freqCosAt[pos * (d / 2) + k]? = some e ∧
      |(e : ℝ) - 2 ^ q * cos (pi * ((2 * k + 1) * pos : ℕ) / d)| ≤ table.epsRoot ∧ |e| ≤ 2 ^ q) ∧
    ∃ e, table.freqSinAt[pos * (d / 2) + k]? = some e ∧
      |(e : ℝ) - 2 ^ q * sin (pi * ((2 * k + 1) * pos : ℕ) / d)| ≤ table.epsRoot ∧ |e| ≤ 2 ^ q := by
  have hodd : (2 * k + 1) % (2 * d) = 2 * k + 1 := Nat.mod_eq_of_lt (by omega)
  obtain ⟨hcos, hsin⟩ := angle_mod (by omega : 0 < d) ((2 * k + 1) * pos)
  obtain ⟨⟨hc, hcb⟩, hs, hsb⟩ := buildTables_ok (by omega) h.d_mod h.q_le
    (Nat.mod_lt ((2 * k + 1) * pos) (by omega : 0 < 2 * d))
  rw [hcos] at hc
  rw [hsin] at hs
  rw [h.cos_eq, h.sin_eq, buildFreqAtTable_getElem? hpos hk, buildFreqAtTable_getElem? hpos hk, hodd, h.eps_eq]
  exact ⟨⟨_, rfl, hc, hcb⟩, _, rfl, hs, hsb⟩

end

section

variable {row : List ℤ} {len startK : ℕ}

theorem checkedI64_of_abs {v : ℤ} (h : |v| ≤ 2 ^ 63 - 1) : checkedI64 v = some v := by
  obtain ⟨h1, h2⟩ := abs_le.1 h
  exact checkedI64_eq_some.2 ⟨by constructor <;> linarith, rfl⟩

theorem accumulateRow_eq {start : ℕ} {coeff Q A : ℤ} {F entry : ℕ → ℤ}
    (hentry : ∀ lane < len, row[start + (startK + lane)]? = some (entry lane) ∧ |entry lane| ≤ Q)
    (hF : ∀ lane < len, |F lane| ≤ A) (hA : 0 ≤ A) (hfit : A + |coeff| * Q ≤ 2 ^ 63 - 1) :
    accumulateRow row start coeff startK ((List.range len).map F) =
      some ((List.range len).map fun lane => F lane + coeff * entry lane) ∧
      ∀ lane < len, |F lane + coeff * entry lane| ≤ A + |coeff| * Q := by
  have hprod : ∀ lane < len, |coeff * entry lane| ≤ |coeff| * Q := by
    intro lane hlane
    rw [abs_mul]
    exact mul_le_mul_of_nonneg_left (hentry lane hlane).2 (abs_nonneg _)
  have hsum : ∀ lane < len, |F lane + coeff * entry lane| ≤ A + |coeff| * Q := by
    intro lane hlane
    exact (abs_add_le _ _).trans (add_le_add (hF lane hlane) (hprod lane hlane))
  refine ⟨?_, hsum⟩
  have hzip : ((List.range len).map F).zipIdx = (List.range len).map fun lane => (F lane, lane) := by
    apply List.ext_getElem
    · simp
    · intro i h1 h2
      simp
  unfold accumulateRow
  rw [hzip, List.mapM_map]
  apply mapM_some_of_forall
  intro lane hlane
  have hlane' := List.mem_range.1 hlane
  have h1 := checkedI64_of_abs ((hprod lane hlane').trans (by linarith))
  have h2 := checkedI64_of_abs ((hsum lane hlane').trans hfit)
  change (do
    let entry ← row[start + (startK + lane)]?
    let product ← checkedI64 (coeff * entry)
    checkedI64 (F lane + product)) = some (F lane + coeff * entry lane)
  rw [(hentry lane hlane').1]
  change (do
    let product ← checkedI64 (coeff * entry lane)
    checkedI64 (F lane + product)) = some (F lane + coeff * entry lane)
  rw [h1]
  exact h2

/-- **The scalar accumulation** neither overflows nor reads outside its rows: every lane is the
exact fixed-point sum of its frequency. -/
theorem accumulate_terms {halfD : ℕ} {Q : ℤ} {cosAt sinAt : List ℤ} (hQ : 0 ≤ Q) :
    ∀ (terms : List (ℕ × ℤ)) (F G : ℕ → ℤ) (A : ℤ), 0 ≤ A →
      (∀ term ∈ terms, ∀ lane < len, (∃ e, cosAt[term.1 * halfD + (startK + lane)]? = some e ∧ |e| ≤ Q) ∧
        ∃ e, sinAt[term.1 * halfD + (startK + lane)]? = some e ∧ |e| ≤ Q) →
      (∀ lane < len, |F lane| ≤ A ∧ |G lane| ≤ A) → A + (terms.map fun term => |term.2|).sum * Q ≤ 2 ^ 63 - 1 →
      terms.foldlM (fun (acc : List ℤ × List ℤ) term => do
          let re ← accumulateRow cosAt (term.1 * halfD) term.2 startK acc.1
          let im ← accumulateRow sinAt (term.1 * halfD) term.2 startK acc.2
          return (re, im)) ((List.range len).map F, (List.range len).map G) =
        some ((List.range len).map fun lane => F lane + freqSum cosAt terms halfD (startK + lane),
          (List.range len).map fun lane => G lane + freqSum sinAt terms halfD (startK + lane)) ∧
        ∀ lane < len, |F lane + freqSum cosAt terms halfD (startK + lane)| ≤ A + (terms.map fun term => |term.2|).sum * Q ∧
          |G lane + freqSum sinAt terms halfD (startK + lane)| ≤ A + (terms.map fun term => |term.2|).sum * Q := by
  intro terms
  induction terms with
  | nil =>
    intro F G A _ _ hFG _
    simpa [freqSum] using hFG
  | cons term terms ih =>
    intro F G A hA hentry hFG hfit
    rw [List.map_cons, List.sum_cons, add_mul] at hfit
    have hrest : 0 ≤ (terms.map fun term => |term.2|).sum * Q := by
      apply mul_nonneg _ hQ
      apply List.sum_nonneg
      intro x hx
      obtain ⟨t, -, rfl⟩ := List.mem_map.1 hx
      exact abs_nonneg _
    have hterm := hentry term (by simp)
    have hc : ∀ lane < len, cosAt[term.1 * halfD + (startK + lane)]? = some (cosAt.getD (term.1 * halfD + (startK + lane)) 0) ∧
        |cosAt.getD (term.1 * halfD + (startK + lane)) 0| ≤ Q := by
      intro lane hlane
      obtain ⟨e, he, hle⟩ := (hterm lane hlane).1
      rw [List.getD_eq_getElem?_getD, he]
      exact ⟨rfl, hle⟩
    have hs : ∀ lane < len, sinAt[term.1 * halfD + (startK + lane)]? = some (sinAt.getD (term.1 * halfD + (startK + lane)) 0) ∧
        |sinAt.getD (term.1 * halfD + (startK + lane)) 0| ≤ Q := by
      intro lane hlane
      obtain ⟨e, he, hle⟩ := (hterm lane hlane).2
      rw [List.getD_eq_getElem?_getD, he]
      exact ⟨rfl, hle⟩
    have hfit' : A + |term.2| * Q ≤ 2 ^ 63 - 1 := by linarith
    obtain ⟨hre, hreA⟩ := accumulateRow_eq hc (fun lane hlane => (hFG lane hlane).1) hA hfit'
    obtain ⟨him, himA⟩ := accumulateRow_eq hs (fun lane hlane => (hFG lane hlane).2) hA hfit'
    obtain ⟨hfold, hbound⟩ := ih _ _ (A + |term.2| * Q) (by positivity) (fun t ht => hentry t (by simp [ht]))
      (fun lane hlane => ⟨hreA lane hlane, himA lane hlane⟩) (by linarith)
    have hsplit : ∀ (row : List ℤ) (k : ℕ) (v : ℤ), v + freqSum row (term :: terms) halfD k =
        v + term.2 * row.getD (term.1 * halfD + k) 0 + freqSum row terms halfD k := by
      intro row k v
      simp only [freqSum, List.map_cons, List.sum_cons]
      ring
    have hstep : A + (((term :: terms).map fun term => |term.2|).sum) * Q =
        A + |term.2| * Q + (terms.map fun term => |term.2|).sum * Q := by
      rw [List.map_cons, List.sum_cons]
      ring
    simp only [hsplit, hstep]
    refine ⟨?_, hbound⟩
    rw [List.foldlM_cons, hre, him]
    exact hfold

end

section

variable {x y r M : ℤ}

/-- The upper bound on the squared norm at a frequency of accumulators `x`, `y`. -/
def upperBound (x y r : ℤ) : ℤ := x * x + y * y + 2 * r * (x + y) + 2 * r * r

def lowerBound (x y r : ℤ) : ℤ := max (x - r) 0 * max (x - r) 0 + max (y - r) 0 * max (y - r) 0

theorem checkedI128_of_range {v : ℤ} (h0 : -2 ^ 127 ≤ v) (h1 : v < 2 ^ 127) : checkedI128 v = some v :=
  checkedI128_eq_some.2 ⟨⟨h0, h1⟩, rfl⟩

/-- **One frequency**: no step overflows, and the verdict is what the bounds say. -/
theorem decideFrequency_spec (threshold : ℤ) (hx : 0 ≤ x) (hxM : x ≤ M) (hy : 0 ≤ y) (hyM : y ≤ M) (hr : 0 ≤ r)
    (hfit : M * M * 2 + M * 4 * r + r * r * 2 < 2 ^ 127) :
    ∃ v, decideFrequency x y r (2 * r) (2 * r * r) threshold = some v ∧
      (v = .accept → upperBound x y r ≤ threshold) ∧ (v = .reject → threshold < lowerBound x y r) := by
  have hM : 0 ≤ M := hx.trans hxM
  have hxx : x * x ≤ M * M := mul_le_mul hxM hxM hx hM
  have hyy : y * y ≤ M * M := mul_le_mul hyM hyM hy hM
  have hxx0 : 0 ≤ x * x := mul_self_nonneg x
  have hyy0 : 0 ≤ y * y := mul_self_nonneg y
  have hrr0 : 0 ≤ r * r := mul_self_nonneg r
  have hMr0 : 0 ≤ M * r := mul_nonneg hM hr
  have hcross : 2 * r * (x + y) ≤ M * 4 * r := by
    have hsum : r * (x + y) ≤ r * (M + M) := mul_le_mul_of_nonneg_left (by linarith) hr
    linarith
  have hcross0 : 0 ≤ 2 * r * (x + y) := by positivity
  have hM0 : M ≤ M * M := by
    rcases hM.eq_or_lt with h | h
    · rw [← h]; rfl
    · nlinarith
  have hlow : ∀ {z : ℤ}, 0 ≤ z → z ≤ M → max (z - r) 0 * max (z - r) 0 ≤ M * M ∧ 0 ≤ max (z - r) 0 * max (z - r) 0 := by
    intro z hz hzM
    have h1 : max (z - r) 0 ≤ M := max_le (by linarith) hM
    exact ⟨mul_le_mul h1 h1 (le_max_right _ _) hM, mul_self_nonneg _⟩
  have hr1 : r ≤ r * r := by
    rcases hr.eq_or_lt with h | h
    · rw [← h]; rfl
    · nlinarith
  obtain ⟨hlx, hlx0⟩ := hlow hx hxM
  obtain ⟨hly, hly0⟩ := hlow hy hyM
  have c1 := checkedI128_of_range (v := x * x) (by linarith) (by linarith)
  have c2 := checkedI128_of_range (v := y * y) (by linarith) (by linarith)
  have c3 := checkedI128_of_range (v := x * x + y * y) (by linarith) (by linarith)
  have c4 := checkedI128_of_range (v := x + y) (by linarith) (by linarith)
  have c5 := checkedI128_of_range (v := 2 * r * (x + y)) (by linarith) (by linarith)
  have c6 := checkedI128_of_range (v := x * x + y * y + 2 * r * (x + y)) (by linarith) (by linarith)
  have c7 := checkedI128_of_range (v := x * x + y * y + 2 * r * (x + y) + 2 * r * r) (by linarith) (by linarith)
  have c8 := checkedI128_of_range (v := x - r) (by linarith) (by linarith)
  have c9 := checkedI128_of_range (v := y - r) (by linarith) (by linarith)
  have c10 := checkedI128_of_range (v := max (x - r) 0 * max (x - r) 0) (by linarith) (by linarith)
  have c11 := checkedI128_of_range (v := max (y - r) 0 * max (y - r) 0) (by linarith) (by linarith)
  have c12 := checkedI128_of_range (v := max (x - r) 0 * max (x - r) 0 + max (y - r) 0 * max (y - r) 0)
    (by linarith) (by linarith)
  unfold decideFrequency
  simp only [c1, c2, c3, c4, c5, c6, c7, c8, c9, c10, c11, c12, option_some, Option.bind_some]
  by_cases hup : x * x + y * y + 2 * r * (x + y) + 2 * r * r ≤ threshold
  · rw [if_pos hup]
    exact ⟨.accept, rfl, fun _ => hup, fun h => by cases h⟩
  · rw [if_neg hup]
    by_cases hlo : max (x - r) 0 * max (x - r) 0 + max (y - r) 0 * max (y - r) 0 > threshold
    · rw [if_pos hlo]
      exact ⟨.reject, rfl, fun h => (by cases h), fun _ => hlo⟩
    · rw [if_neg hlo]
      exact ⟨.indeterminate, rfl, fun h => (by cases h), fun h => (by cases h)⟩

/-- The lanes of a chunk: the scan goes on with the flag, or stops at a rejecting lane. -/
theorem decideLanes_spec (threshold : ℤ) (hr : 0 ≤ r) (hfit : M * M * 2 + M * 4 * r + r * r * 2 < 2 ^ 127) :
    ∀ (lanes : List (ℤ × ℤ)) (flag : Bool), (∀ lane ∈ lanes, |lane.1| ≤ M ∧ |lane.2| ≤ M) →
      (∃ flag', decideLanes r (2 * r) (2 * r * r) threshold lanes flag = some (.ok flag') ∧
        (flag' = false → flag = false ∧ ∀ lane ∈ lanes, upperBound |lane.1| |lane.2| r ≤ threshold)) ∨
      decideLanes r (2 * r) (2 * r * r) threshold lanes flag = some (.error .reject) ∧
        ∃ lane ∈ lanes, threshold < lowerBound |lane.1| |lane.2| r := by
  intro lanes
  induction lanes with
  | nil =>
    intro flag _
    exact .inl ⟨flag, rfl, fun h => ⟨h, by simp⟩⟩
  | cons lane lanes ih =>
    intro flag hM
    obtain ⟨hre, him⟩ := hM lane (by simp)
    obtain ⟨v, hv, hacc, hrej⟩ := decideFrequency_spec threshold (abs_nonneg _) hre (abs_nonneg _) him hr hfit
    have hrest := fun flag => ih flag fun lane hlane => hM lane (by simp [hlane])
    rw [decideLanes, hv]
    cases v with
    | reject => exact .inr ⟨rfl, lane, by simp, hrej rfl⟩
    | accept =>
      rcases hrest flag with ⟨flag', heq, hflag⟩ | ⟨heq, l, hl, hlt⟩
      · refine .inl ⟨flag', heq, fun h => ⟨(hflag h).1, ?_⟩⟩
        intro l hl
        rcases mem_cons.1 hl with rfl | hl
        · exact hacc rfl
        · exact (hflag h).2 l hl
      · exact .inr ⟨heq, l, by simp [hl], hlt⟩
    | indeterminate =>
      rcases hrest true with ⟨flag', heq, hflag⟩ | ⟨heq, l, hl, hlt⟩
      · exact .inl ⟨flag', heq, fun h => absurd (hflag h).1 (by decide)⟩
      · exact .inr ⟨heq, l, by simp [hl], hlt⟩

end

section scan

variable {d q maxL1 maxT : ℕ} {table : OpNormTable} {positions : List ℕ} {coeffs : List ℤ} {t : ℕ}

theorem l1_terms (hlen : positions.length = coeffs.length) :
    ((positions.zip coeffs).map fun term => |term.2|).sum = l1Norm coeffs := by
  have hsnd : (positions.zip coeffs).map Prod.snd = coeffs := List.map_snd_zip (by omega)
  conv_rhs => rw [← hsnd]
  unfold l1Norm
  rw [List.map_map]
  rfl

/-- **The accumulators of a chunk** are the fixed-point sums of its frequencies. -/
theorem accumulate_chunk {startK len : ℕ} (h : table.Ok d q maxL1 maxT) (hlen : positions.length = coeffs.length)
    (hpos : ∀ p ∈ positions, p < d) (hl1 : l1Norm coeffs ≤ maxL1) (hend : startK + len ≤ d / 2) :
    accumulateTransposedChunkScalar table positions coeffs startK len (d / 2) =
      some ((List.range len).map fun lane => freqSum table.freqCosAt (positions.zip coeffs) (d / 2) (startK + lane),
        (List.range len).map fun lane => freqSum table.freqSinAt (positions.zip coeffs) (d / 2) (startK + lane)) ∧
      ∀ lane < len, |freqSum table.freqCosAt (positions.zip coeffs) (d / 2) (startK + lane)| ≤ maxL1 * 2 ^ q ∧
        |freqSum table.freqSinAt (positions.zip coeffs) (d / 2) (startK + lane)| ≤ maxL1 * 2 ^ q := by
  have hentry : ∀ term ∈ positions.zip coeffs, ∀ lane < len,
      (∃ e, table.freqCosAt[term.1 * (d / 2) + (startK + lane)]? = some e ∧ |e| ≤ 2 ^ q) ∧
        ∃ e, table.freqSinAt[term.1 * (d / 2) + (startK + lane)]? = some e ∧ |e| ≤ 2 ^ q := by
    intro term hterm lane hlane
    have hp := hpos term.1 (of_mem_zip (show (term.1, term.2) ∈ _ from hterm)).1
    obtain ⟨⟨e, he, -, hle⟩, e', he', -, hle'⟩ := freq_entry h hp (by omega : startK + lane < d / 2)
    exact ⟨⟨e, he, hle⟩, e', he', hle'⟩
  have hmul : l1Norm coeffs * 2 ^ q ≤ maxL1 * 2 ^ q := mul_le_mul_of_nonneg_right hl1 (by positivity)
  have hacc := h.acc_le
  obtain ⟨hfold, hbound⟩ := accumulate_terms (Q := 2 ^ q) (by positivity) (positions.zip coeffs) (fun _ => 0) (fun _ => 0) 0
    le_rfl hentry (by simp) (by rw [l1_terms hlen]; linarith)
  simp only [zero_add, l1_terms hlen] at hfold hbound
  constructor
  · unfold accumulateTransposedChunkScalar
    rw [← hfold, map_const', length_range]
  · intro lane hlane
    exact ⟨(hbound lane hlane).1.trans hmul, (hbound lane hlane).2.trans hmul⟩

/-- The accumulators of frequency `k`. -/
def accAt (table : OpNormTable) (terms : List (ℕ × ℤ)) (k : ℕ) : ℤ × ℤ :=
  (freqSum table.freqCosAt terms (table.d / 2) k, freqSum table.freqSinAt terms (table.d / 2) k)

/-- The upper bound of frequency `k` is within the threshold. -/
def Below (table : OpNormTable) (terms : List (ℕ × ℤ)) (r threshold : ℤ) (k : ℕ) : Prop :=
  upperBound |(accAt table terms k).1| |(accAt table terms k).2| r ≤ threshold

/-- The lower bound of frequency `k` is above it. -/
def Above (table : OpNormTable) (terms : List (ℕ × ℤ)) (r threshold : ℤ) (k : ℕ) : Prop :=
  threshold < lowerBound |(accAt table terms k).1| |(accAt table terms k).2| r

/-- **The chunk loop** from frequency `startK` on: it does not overflow, accepts only if every
frequency passes and rejects only at a frequency that fails. -/
theorem decideChunks_spec {r : ℤ} (h : table.Ok d q maxL1 maxT) (hlen : positions.length = coeffs.length)
    (hpos : ∀ p ∈ positions, p < d) (hl1 : l1Norm coeffs ≤ maxL1) (threshold : ℤ) (hr : 0 ≤ r)
    (hr1 : r ≤ maxL1 * table.epsRoot) : ∀ (passes startK : ℕ) (flag : Bool), d / 2 - startK ≤ passes →
      ∃ v, decideChunks table positions coeffs r (2 * r) (2 * r * r) threshold passes startK flag = some v ∧
        (v = .accept → flag = false ∧ ∀ k < d / 2, startK ≤ k → Below table (positions.zip coeffs) r threshold k) ∧
        (v = .reject → ∃ k < d / 2, Above table (positions.zip coeffs) r threshold k) := by
  have hfit : (maxL1 * 2 ^ q : ℤ) * (maxL1 * 2 ^ q) * 2 + maxL1 * 2 ^ q * 4 * r + r * r * 2 < 2 ^ 127 := by
    have h1 : (maxL1 * 2 ^ q : ℤ) * 4 * r ≤ maxL1 * 2 ^ q * 4 * (maxL1 * table.epsRoot) :=
      mul_le_mul_of_nonneg_left hr1 (by positivity)
    have h2 : r * r ≤ maxL1 * table.epsRoot * (maxL1 * table.epsRoot) := mul_le_mul hr1 hr1 hr (hr.trans hr1)
    have h3 := h.upper_lt
    linarith
  -- both ends of the loop return the flag's verdict with no frequency left
  have hdone : ∀ (startK : ℕ) (flag : Bool), d / 2 ≤ startK →
      ∃ v, some (if flag then Decision.indeterminate else .accept) = some v ∧
        (v = .accept → flag = false ∧ ∀ k < d / 2, startK ≤ k → Below table (positions.zip coeffs) r threshold k) ∧
        (v = .reject → ∃ k < d / 2, Above table (positions.zip coeffs) r threshold k) := by
    intro startK flag hstart
    refine ⟨_, rfl, ?_, ?_⟩
    · intro hv
      refine ⟨by cases flag <;> simp_all, ?_⟩
      intro k hk hle
      omega
    · intro hv
      cases flag <;> simp at hv
  intro passes
  induction passes with
  | zero =>
    intro startK flag hpasses
    exact hdone startK flag (by omega)
  | succ passes ih =>
    intro startK flag hpasses
    rw [decideChunks, h.d_eq]
    by_cases hk : startK < d / 2
    · obtain ⟨hfold, hbound⟩ := accumulate_chunk h hlen hpos hl1
        (by omega : startK + min (d / 2 - startK) fusedChunkFreqs ≤ d / 2)
      simp only [hk, if_true, hfold, Option.bind_eq_bind, Option.bind_some]
      set len := min (d / 2 - startK) fusedChunkFreqs with hlendef
      have hlen1 : 1 ≤ len := by unfold fusedChunkFreqs at hlendef; omega
      have hzip : ((List.range len).map fun lane => freqSum table.freqCosAt (positions.zip coeffs) (d / 2) (startK + lane)).zip
          ((List.range len).map fun lane => freqSum table.freqSinAt (positions.zip coeffs) (d / 2) (startK + lane)) =
          (List.range len).map fun lane => accAt table (positions.zip coeffs) (startK + lane) := by
        rw [List.zip_map']
        simp only [accAt, h.d_eq]
      rw [hzip]
      have hlanes : ∀ lane ∈ (List.range len).map fun lane => accAt table (positions.zip coeffs) (startK + lane),
          |lane.1| ≤ maxL1 * 2 ^ q ∧ |lane.2| ≤ maxL1 * 2 ^ q := by
        intro lane hlane
        obtain ⟨j, hj, rfl⟩ := List.mem_map.1 hlane
        simpa only [accAt, h.d_eq] using hbound j (List.mem_range.1 hj)
      rcases decideLanes_spec threshold hr hfit _ flag hlanes with ⟨flag', heq, hflag⟩ | ⟨heq, lane, hlane, hlt⟩
      · rw [heq]
        obtain ⟨v, hv, hacc, hrej⟩ := ih (startK + len) flag' (by omega)
        refine ⟨v, hv, ?_, hrej⟩
        intro hvacc
        obtain ⟨hf', hrest⟩ := hacc hvacc
        obtain ⟨hf, hhere⟩ := hflag hf'
        refine ⟨hf, ?_⟩
        intro k hk' hle
        by_cases hkl : k < startK + len
        · have hmem := hhere _ (List.mem_map.2 ⟨k - startK, List.mem_range.2 (by omega), rfl⟩)
          rwa [Nat.add_sub_cancel' hle] at hmem
        · exact hrest k hk' (by omega)
      · rw [heq]
        obtain ⟨j, hj, rfl⟩ := List.mem_map.1 hlane
        have hj' := List.mem_range.1 hj
        exact ⟨.reject, rfl, fun hv => (by cases hv), fun _ => ⟨startK + j, by omega, hlt⟩⟩
    · simp only [hk, if_false]
      exact hdone startK flag (by omega)

theorem l1Norm_nonneg (coeffs : List ℤ) : 0 ≤ l1Norm coeffs := by
  apply List.sum_nonneg
  intro v hv
  obtain ⟨c, -, rfl⟩ := List.mem_map.1 hv
  exact abs_nonneg c

section

variable (h : table.Ok d q maxL1 maxT) (hlen : positions.length = coeffs.length) (hpos : ∀ p ∈ positions, p < d) (hl1 : l1Norm coeffs ≤ maxL1) (ht : t ≤ maxT)

include h hlen hpos hl1 ht

theorem checkParts_eq : table.checkParts positions coeffs t = .ok (l1Norm coeffs) := by
  have hfold : ∀ (terms : List (ℕ × ℤ)) (init : ℤ), (∀ term ∈ terms, term.1 < d) → terms.foldlM (fun l1 term => do
        ensure (term.1 < table.d) (.invalidInput ("operator-norm predicate: position " ++ toString term.1 ++
          " out of range for D = " ++ toString table.d))
        return l1 + |term.2|) init = (.ok (init + (terms.map fun term => |term.2|).sum) : Result ℤ) := by
    intro terms
    induction terms with
    | nil => intro init _; simp [pure, Except.pure]
    | cons term terms ih =>
      intro init hterms
      rw [List.foldlM_cons, (ensure_eq_ok (u := ())).2 (by rw [h.d_eq]; exact hterms term (by simp)), List.map_cons, List.sum_cons,
        ← add_assoc]
      exact ih _ fun t ht => hterms t (by simp [ht])
  unfold OpNormTable.checkParts
  rw [(ensure_eq_ok (u := ())).2 hlen, hfold _ 0 fun term hterm => hpos term.1 (List.of_mem_zip (show (term.1, term.2) ∈ _ from hterm)).1,
    l1_terms hlen, zero_add]
  change (do
    ensure (l1Norm coeffs ≤ table.maxL1) _
    ensure ((t : ℤ) ≤ table.maxT) _
    return l1Norm coeffs) = _
  rw [(ensure_eq_ok (u := ())).2 (by rw [h.maxL1_eq]; exact hl1), (ensure_eq_ok (u := ())).2 (by rw [h.maxT_eq]; exact_mod_cast ht)]
  rfl

/-- **The decision** on a challenge of the validated size: no register overflows, and the verdict
compares the bounds with the shifted threshold. -/
theorem decideParts_spec : ∃ v, table.decideParts positions coeffs t = .ok (some v) ∧ (v = .accept → ∀ k < d / 2,
        Below table (positions.zip coeffs) (l1Norm coeffs * table.epsRoot) (shl128 (t * t) (2 * q)) k) ∧
      (v = .reject → ∃ k < d / 2,
        Above table (positions.zip coeffs) (l1Norm coeffs * table.epsRoot) (shl128 (t * t) (2 * q)) k) := by
  have heps : 0 ≤ table.epsRoot := by rw [h.eps_eq]; exact epsRoot_nonneg d q
  set r := l1Norm coeffs * table.epsRoot with hrdef
  have hr : 0 ≤ r := mul_nonneg (l1Norm_nonneg coeffs) heps
  have hr1 : r ≤ maxL1 * table.epsRoot := mul_le_mul_of_nonneg_right hl1 heps
  have hrr : r * r ≤ maxL1 * table.epsRoot * (maxL1 * table.epsRoot) := mul_le_mul hr1 hr1 hr (hr.trans hr1)
  have hself : r ≤ r * r := by
    rcases hr.eq_or_lt with h0 | h0
    · rw [← h0]; rfl
    · nlinarith
  have hslack : 2 * r * r < 2 ^ 127 := by
    have h1 := h.upper_lt
    have h2 : (0 : ℤ) ≤ maxL1 * 2 ^ q * (maxL1 * 2 ^ q) * 2 := by positivity
    have h3 : (0 : ℤ) ≤ maxL1 * 2 ^ q * 4 * (maxL1 * table.epsRoot) := by positivity
    linarith
  have htt : (t : ℤ) * t < 2 ^ 127 := by
    have hle : (t : ℤ) * t ≤ maxT * maxT := by exact_mod_cast Nat.mul_le_mul ht ht
    exact hle.trans_lt h.t_lt
  have htt0 : (0 : ℤ) ≤ t * t := by positivity
  have c1 := checkedI128_of_range (v := r) (by linarith) (by nlinarith)
  have c2 := checkedI128_of_range (v := 2 * r) (by linarith) (by linarith)
  have c3 := checkedI128_of_range (v := 2 * r * r) (by linarith) hslack
  have c4 := checkedI128_of_range (v := t * t) (by linarith) htt
  obtain ⟨v, hv, hacc, hrej⟩ := decideChunks_spec h hlen hpos hl1 (shl128 (t * t) (2 * q)) hr hr1 (d / 2) 0 false (by omega)
  refine ⟨v, ?_, fun hva k hk => (hacc hva).2 k hk (Nat.zero_le k), hrej⟩
  unfold OpNormTable.decideParts
  rw [checkParts_eq h hlen hpos hl1 ht]
  change Except.ok (do
    let r ← checkedI128 (l1Norm coeffs * table.epsRoot)
    let twoR ← checkedI128 (2 * r)
    let twoRSq ← checkedI128 ((← checkedI128 (2 * r)) * r)
    let threshold := shl128 (← checkedI128 (t * t)) (2 * table.q)
    decideChunks table positions coeffs r twoR twoRSq threshold (table.d / 2) 0 false) = _
  simp only [← hrdef, c1, c2, c3, c4, Option.bind_eq_bind, Option.bind_some, h.d_eq, h.q_eq, hv]

end

end scan

section real

variable {d q maxL1 maxT : ℕ} {table : OpNormTable} {positions : List ℕ} {coeffs : List ℤ} {k : ℕ} {v : ℤ}

/-- The error of a fixed-point sum whose entries have error at most `eps`. -/
theorem freqSum_error {row : List ℤ} {halfD : ℕ} {eps : ℤ} {f : ℕ → ℝ} : ∀ (terms : List (ℕ × ℤ)),
    (∀ term ∈ terms, |(row.getD (term.1 * halfD + k) 0 : ℝ) - 2 ^ q * f term.1| ≤ eps) →
      |(freqSum row terms halfD k : ℝ) - 2 ^ q * (terms.map fun term => (term.2 : ℝ) * f term.1).sum| ≤
        ((terms.map fun term => |term.2|).sum * eps : ℤ) := by
  intro terms
  induction terms with
  | nil => intro _; simp [freqSum]
  | cons term terms ih =>
    intro hterms
    have hhead : |(term.2 : ℝ) * ((row.getD (term.1 * halfD + k) 0 : ℝ) - 2 ^ q * f term.1)| ≤ |(term.2 : ℝ)| * eps := by
      rw [abs_mul]
      exact mul_le_mul_of_nonneg_left (hterms term (by simp)) (abs_nonneg _)
    have htail := ih fun t ht => hterms t (by simp [ht])
    calc |(freqSum row (term :: terms) halfD k : ℝ) -
          2 ^ q * ((term :: terms).map fun term => (term.2 : ℝ) * f term.1).sum|
        = |(term.2 : ℝ) * ((row.getD (term.1 * halfD + k) 0 : ℝ) - 2 ^ q * f term.1) +
          ((freqSum row terms halfD k : ℝ) - 2 ^ q * (terms.map fun term => (term.2 : ℝ) * f term.1).sum)| := by
          simp only [freqSum, List.map_cons, List.sum_cons]
          push_cast
          ring_nf
      _ ≤ |(term.2 : ℝ)| * eps + ((terms.map fun term => |term.2|).sum * eps : ℤ) := (abs_add_le _ _).trans (add_le_add hhead htail)
      _ = (((term :: terms).map fun term => |term.2|).sum * eps : ℤ) := by
          simp only [List.map_cons, List.sum_cons]
          push_cast
          ring

theorem sum_re (f : ℕ × ℤ → ℂ) (terms : List (ℕ × ℤ)) : (terms.map f).sum.re = (terms.map fun term => (f term).re).sum := by
  induction terms with
  | nil => simp
  | cons term terms ih => simp [ih]

theorem sum_im (f : ℕ × ℤ → ℂ) (terms : List (ℕ × ℤ)) : (terms.map f).sum.im = (terms.map fun term => (f term).im).sum := by
  induction terms with
  | nil => simp
  | cons term terms ih => simp [ih]

/-- **The error radius**: the accumulators of a frequency are within `||c||_1 eps_root` of the value there. -/
theorem accAt_error (h : table.Ok d q maxL1 maxT) (hlen : positions.length = coeffs.length) (hpos : ∀ p ∈ positions, p < d)
    (hk : k < d / 2) :
    |((accAt table (positions.zip coeffs) k).1 : ℝ) - 2 ^ q * (evalAt positions coeffs (negacyclicRoot d k)).re| ≤
        (l1Norm coeffs * table.epsRoot : ℤ) ∧
      |((accAt table (positions.zip coeffs) k).2 : ℝ) - 2 ^ q * (evalAt positions coeffs (negacyclicRoot d k)).im| ≤
        (l1Norm coeffs * table.epsRoot : ℤ) := by
  have hentry : ∀ term ∈ positions.zip coeffs,
      |(table.freqCosAt.getD (term.1 * (d / 2) + k) 0 : ℝ) - 2 ^ q * (negacyclicRoot d k ^ term.1).re| ≤ table.epsRoot ∧
        |(table.freqSinAt.getD (term.1 * (d / 2) + k) 0 : ℝ) - 2 ^ q * (negacyclicRoot d k ^ term.1).im| ≤ table.epsRoot := by
    intro term hterm
    have hp := hpos term.1 (of_mem_zip (show (term.1, term.2) ∈ _ from hterm)).1
    obtain ⟨⟨e, he, herr, -⟩, e', he', herr', -⟩ := freq_entry h hp hk
    rw [getD_eq_getElem?_getD, getD_eq_getElem?_getD, he, he', negacyclicRoot_pow_re, negacyclicRoot_pow_im]
    exact ⟨herr, herr'⟩
  have hre := freqSum_error (f := fun pos => (negacyclicRoot d k ^ pos).re) (positions.zip coeffs)
    fun term hterm => (hentry term hterm).1
  have him := freqSum_error (f := fun pos => (negacyclicRoot d k ^ pos).im) (positions.zip coeffs)
    fun term hterm => (hentry term hterm).2
  rw [l1_terms hlen] at hre him
  have hmul_re : ∀ (c : ℤ) (z : ℂ), ((c : ℂ) * z).re = c * z.re := by intro c z; simp
  have hmul_im : ∀ (c : ℤ) (z : ℂ), ((c : ℂ) * z).im = c * z.im := by intro c z; simp
  simp only [accAt, h.d_eq, evalAt, sum_re, sum_im, hmul_re, hmul_im]
  exact ⟨hre, him⟩

theorem sq_le_of_error {X P a r : ℝ} (h : |X - P * a| ≤ r) : (P * a) * (P * a) ≤ (|X| + r) * (|X| + r) := by
  have hle : |P * a| ≤ |X| + r := by
    have htri := abs_sub_abs_le_abs_sub (P * a) X
    rw [abs_sub_comm] at htri
    linarith
  rw [← abs_mul_abs_self (P * a)]
  exact mul_self_le_mul_self (abs_nonneg _) hle

theorem le_sq_of_error {X P a r : ℝ} (h : |X - P * a| ≤ r) : max (|X| - r) 0 * max (|X| - r) 0 ≤ (P * a) * (P * a) := by
  have hle : max (|X| - r) 0 ≤ |P * a| := by
    have htri := abs_sub_abs_le_abs_sub X (P * a)
    exact max_le (by linarith) (abs_nonneg _)
  rw [← abs_mul_abs_self (P * a)]
  exact mul_self_le_mul_self (le_max_right _ _) hle

theorem normSq_between (h : table.Ok d q maxL1 maxT) (hlen : positions.length = coeffs.length) (hpos : ∀ p ∈ positions, p < d)
    (hk : k < d / 2) : (lowerBound |(accAt table (positions.zip coeffs) k).1| |(accAt table (positions.zip coeffs) k).2|
        (l1Norm coeffs * table.epsRoot) : ℝ) ≤ 2 ^ (2 * q) * ‖evalAt positions coeffs (negacyclicRoot d k)‖ ^ 2 ∧
    2 ^ (2 * q) * ‖evalAt positions coeffs (negacyclicRoot d k)‖ ^ 2 ≤
      (upperBound |(accAt table (positions.zip coeffs) k).1| |(accAt table (positions.zip coeffs) k).2|
        (l1Norm coeffs * table.epsRoot) : ℝ) := by
  obtain ⟨hre, him⟩ := accAt_error h hlen hpos hk
  have hnorm : (2 : ℝ) ^ (2 * q) * ‖evalAt positions coeffs (negacyclicRoot d k)‖ ^ 2 =
      2 ^ q * (evalAt positions coeffs (negacyclicRoot d k)).re * (2 ^ q * (evalAt positions coeffs (negacyclicRoot d k)).re) +
      2 ^ q * (evalAt positions coeffs (negacyclicRoot d k)).im * (2 ^ q * (evalAt positions coeffs (negacyclicRoot d k)).im) := by
    rw [Complex.sq_norm, Complex.normSq_apply, two_mul, pow_add]
    ring
  have hu1 := sq_le_of_error hre
  have hu2 := sq_le_of_error him
  have hl1 := le_sq_of_error hre
  have hl2 := le_sq_of_error him
  rw [hnorm]
  unfold lowerBound upperBound
  push_cast at hu1 hu2 hl1 hl2 ⊢
  exact ⟨by linarith, by linarith⟩

theorem norm_conj_eval (positions : List ℕ) (coeffs : List ℤ) (ζ : ℂ) :
    ‖evalAt positions coeffs ((starRingEnd ℂ) ζ)‖ = ‖evalAt positions coeffs ζ‖ := by
  have hconj : evalAt positions coeffs ((starRingEnd ℂ) ζ) = (starRingEnd ℂ) (evalAt positions coeffs ζ) := by
    unfold evalAt
    rw [map_list_sum, List.map_map]
    congr 1
    apply List.map_congr_left
    intro term _
    simp
  rw [hconj, Complex.norm_conj]

/-- **The frequencies scanned suffice**: every root of `X^d + 1` is one of them or the conjugate of one. -/
theorem norm_at_scanned (hd : 0 < d) (h2 : d % 2 = 0) {ζ : ℂ} (hζ : ζ ^ d = -1) :
    ∃ k < d / 2, ‖evalAt positions coeffs ζ‖ = ‖evalAt positions coeffs (negacyclicRoot d k)‖ := by
  obtain ⟨k, hk, rfl⟩ := eq_negacyclicRoot hd hζ
  by_cases hhalf : k < d / 2
  · exact ⟨k, hhalf, rfl⟩
  · refine ⟨d - 1 - k, by omega, ?_⟩
    rw [← conj_negacyclicRoot hk, norm_conj_eval]

theorem shl128_le (hv : 0 ≤ v) (sh : ℕ) : shl128 v sh ≤ v * 2 ^ sh := by
  have hpos : 0 ≤ v * 2 ^ sh := by positivity
  unfold shl128
  generalize v * 2 ^ sh = w at hpos ⊢
  have hmod := Int.emod_add_mul_ediv w ((2 ^ 128 : ℕ) : ℤ)
  have hquot : 0 ≤ ((2 ^ 128 : ℕ) : ℤ) * (w / ((2 ^ 128 : ℕ) : ℤ)) := by positivity
  rw [Int.bmod_def]
  split
  · linarith
  · have hm : (0 : ℤ) ≤ ((2 ^ 128 : ℕ) : ℤ) := by positivity
    linarith

theorem shl128_eq (hv : 0 ≤ v) {sh : ℕ} (h : v * 2 ^ sh < 2 ^ 127) : shl128 v sh = v * 2 ^ sh := by
  have hpos : 0 ≤ v * 2 ^ sh := by positivity
  apply Int.bmod_eq_of_le <;> omega

section

variable (h : table.Ok d q maxL1 maxT) (hlen : positions.length = coeffs.length) (hpos : ∀ p ∈ positions, p < d) (hk : k < d / 2)

include h hlen hpos hk

theorem accept_norm_le {t : ℕ}
    (hbelow : Below table (positions.zip coeffs) (l1Norm coeffs * table.epsRoot) (shl128 (t * t) (2 * q)) k) :
    ‖evalAt positions coeffs (negacyclicRoot d k)‖ ≤ t := by
  -- a threshold that loses its high bits only gets smaller
  have hshl : shl128 (t * t) (2 * q) ≤ t * t * 2 ^ (2 * q) := shl128_le (by positivity) _
  have hle : ((upperBound |(accAt table (positions.zip coeffs) k).1| |(accAt table (positions.zip coeffs) k).2|
      (l1Norm coeffs * table.epsRoot) : ℤ) : ℝ) ≤ ((t * t * 2 ^ (2 * q) : ℤ) : ℝ) := by
    exact_mod_cast hbelow.trans hshl
  have hnorm := (normSq_between h hlen hpos hk).2.trans hle
  push_cast at hnorm
  have hpow : (0 : ℝ) < 2 ^ (2 * q) := by positivity
  have hsq : ‖evalAt positions coeffs (negacyclicRoot d k)‖ ^ 2 ≤ (t : ℝ) ^ 2 := by
    apply le_of_mul_le_mul_left _ hpow
    linarith only [hnorm]
  exact (sq_le_sq₀ (norm_nonneg _) (by positivity)).1 hsq

theorem reject_lt_norm {t : ℕ} (ht : t ^ 2 * 2 ^ (2 * q) < 2 ^ 127)
    (habove : Above table (positions.zip coeffs) (l1Norm coeffs * table.epsRoot) (shl128 (t * t) (2 * q)) k) :
    t < ‖evalAt positions coeffs (negacyclicRoot d k)‖ := by
  have hshl : shl128 (t * t) (2 * q) = t * t * 2 ^ (2 * q) := by
    apply shl128_eq (by positivity)
    rw [← pow_two]
    exact_mod_cast ht
  have hlt : ((t * t * 2 ^ (2 * q) : ℤ) : ℝ) < ((lowerBound |(accAt table (positions.zip coeffs) k).1|
      |(accAt table (positions.zip coeffs) k).2| (l1Norm coeffs * table.epsRoot) : ℤ) : ℝ) := by
    rw [hshl] at habove
    exact_mod_cast habove
  have hnorm := hlt.trans_le (normSq_between h hlen hpos hk).1
  push_cast at hnorm
  have hpow : (0 : ℝ) < 2 ^ (2 * q) := by positivity
  have hsq : (t : ℝ) ^ 2 < ‖evalAt positions coeffs (negacyclicRoot d k)‖ ^ 2 := by
    apply lt_of_mul_lt_mul_left _ hpow.le
    linarith only [hnorm]
  exact (sq_lt_sq₀ (by positivity) (norm_nonneg _)).1 hsq

end

/-- **The operator-norm predicate is sound.** The entries of a table that `new` returns have
the recorded error. On a challenge and a threshold within the validated bounds the decision
overflows no register; `Accept` bounds the challenge at every root of `X^d + 1`, which every
primitive `2d`-th root of unity is; and `Reject`, when the shifted threshold fits the
register, shows a root of `X^d + 1` where the challenge is larger, a primitive one when `d`
is a power of two. -/
theorem opNorm_sound (hnew : OpNormTable.new d q maxL1 maxT = .ok table) :
    (table.freqCosAt.length = d * (d / 2) ∧ table.freqSinAt.length = d * (d / 2) ∧
      ∀ pos < d, ∀ k < d / 2, ∃ c s, table.freqCosAt[pos * (d / 2) + k]? = some c ∧
        table.freqSinAt[pos * (d / 2) + k]? = some s ∧
        |(c : ℝ) - 2 ^ q * Real.cos (Real.pi * ((2 * k + 1) * pos : ℕ) / d)| ≤ table.epsRoot ∧
        |(s : ℝ) - 2 ^ q * Real.sin (Real.pi * ((2 * k + 1) * pos : ℕ) / d)| ≤ table.epsRoot) ∧
    ∀ (positions : List ℕ) (coeffs : List ℤ) (t : ℕ), positions.length = coeffs.length → (∀ p ∈ positions, p < d) →
      l1Norm coeffs ≤ maxL1 → t ≤ maxT → ∃ v, table.decideParts positions coeffs t = .ok (some v) ∧
        (v = .accept → (∀ ζ : ℂ, ζ ^ d = -1 → ‖evalAt positions coeffs ζ‖ ≤ t) ∧
          ∀ ζ : ℂ, IsPrimitiveRoot ζ (2 * d) → ‖evalAt positions coeffs ζ‖ ≤ t) ∧
        (v = .reject → t ^ 2 * 2 ^ (2 * q) < 2 ^ 127 → ∃ ζ : ℂ, ζ ^ d = -1 ∧ t < ‖evalAt positions coeffs ζ‖ ∧
          ((∃ m, d = 2 ^ m) → IsPrimitiveRoot ζ (2 * d))) := by
  have h := new_eq_ok hnew
  have hd := h.d_ge
  have hmod := h.d_mod
  constructor
  · refine ⟨by rw [h.cos_eq, length_buildFreqAtTable], by rw [h.sin_eq, length_buildFreqAtTable], ?_⟩
    intro pos hpos k hk
    obtain ⟨⟨c, hc, hcerr, -⟩, s, hs, hserr, -⟩ := freq_entry h hpos hk
    exact ⟨c, s, hc, hs, hcerr, hserr⟩
  · intro positions coeffs t hlen hpos hl1 ht
    obtain ⟨v, hv, hacc, hrej⟩ := decideParts_spec h hlen hpos hl1 ht
    have hroot : v = .accept → ∀ ζ : ℂ, ζ ^ d = -1 → ‖evalAt positions coeffs ζ‖ ≤ t := by
      intro hva ζ hζ
      obtain ⟨k, hk, heq⟩ := norm_at_scanned (by omega) (by omega) hζ
      rw [heq]
      exact accept_norm_le h hlen hpos hk (hacc hva k hk)
    refine ⟨v, hv, ?_, ?_⟩
    · intro hva
      exact ⟨hroot hva, fun ζ hζ => hroot hva ζ (primitive_pow_half hζ (by omega))⟩
    · intro hvr hfit
      obtain ⟨k, hk, habove⟩ := hrej hvr
      have hself := negacyclicRoot_pow_self (by omega : 0 < d) k
      refine ⟨negacyclicRoot d k, hself, reject_lt_norm h hlen hpos hk hfit habove, ?_⟩
      intro hpow
      obtain ⟨m, rfl⟩ := hpow
      exact isPrimitiveRoot_of_pow_eq_neg_one (by norm_num) hself

end real

theorem opNorm_sound_eight : ∃ table, OpNormTable.new 8 16 4 4 = .ok table ∧
    table.decideParts [0, 5] [2, -1] 4 = .ok (some .accept) ∧ ∀ ζ : ℂ, ζ ^ 8 = -1 → ‖evalAt [0, 5] [2, -1] ζ‖ ≤ (4 : ℕ) := by
  have hrun : (do (← OpNormTable.new 8 16 4 4).decideParts [0, 5] [2, -1] 4) = .ok (some .accept) := by decide +kernel
  obtain ⟨table, hnew, haccept⟩ := bind_eq_ok.1 hrun
  obtain ⟨v, hv, hacc, -⟩ := (opNorm_sound hnew).2 [0, 5] [2, -1] 4 rfl (by decide) (by decide) le_rfl
  have hva : v = .accept := by simpa [haccept, eq_comm] using hv
  exact ⟨table, hnew, haccept, (hacc hva).1⟩

/-- The scan covers the roots of `X^d + 1`, not only the primitive ones: `1 - X^4 + X^8` is
rejected at `d = 12` although it vanishes at every primitive 24th root of unity. -/
theorem opNorm_reject_nonprimitive : ¬ ∀ (d q maxL1 maxT : ℕ) (table : OpNormTable),
    OpNormTable.new d q maxL1 maxT = .ok table → ∀ (positions : List ℕ) (coeffs : List ℤ) (t : ℕ),
      positions.length = coeffs.length → (∀ p ∈ positions, p < d) → l1Norm coeffs ≤ maxL1 → t ≤ maxT →
      table.decideParts positions coeffs t = .ok (some .reject) →
      ∃ ζ : ℂ, IsPrimitiveRoot ζ (2 * d) ∧ t < ‖evalAt positions coeffs ζ‖ := by
  intro hall
  have hrun : (do (← OpNormTable.new 12 4 3 1).decideParts [0, 4, 8] [1, -1, 1] 1) = .ok (some .reject) := by
    decide +kernel
  obtain ⟨table, hnew, hreject⟩ := bind_eq_ok.1 hrun
  obtain ⟨ζ, hζ, hlt⟩ := hall 12 4 3 1 table hnew [0, 4, 8] [1, -1, 1] 1 rfl (by decide) (by decide) le_rfl hreject
  have hpow := primitive_pow_half hζ (by norm_num)
  have hne : 1 + ζ ^ 4 ≠ 0 := by
    intro h0
    have h8 : ζ ^ 8 = 1 := by linear_combination (ζ ^ 4 - 1) * h0
    exact hζ.pow_ne_one_of_pos_of_lt (by norm_num) (by norm_num) h8
  have hzero : 1 - ζ ^ 4 + ζ ^ 8 = 0 := by
    apply (mul_eq_zero.1 _).resolve_left hne
    linear_combination hpow
  have heval : evalAt [0, 4, 8] [1, -1, 1] ζ = 1 - ζ ^ 4 + ζ ^ 8 := by
    simp [evalAt]
    ring
  rw [heval, hzero] at hlt
  norm_num at hlt

end Akita.OpNorm
