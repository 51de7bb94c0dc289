import Akita.Lib.Enclosure
import Akita.Spec.OpNorm
import Mathlib.Analysis.Real.Pi.Bounds

/-!
# The fixed-point trigonometric tables

The interval Taylor evaluation encloses the cosine and the sine of every first-octant angle,
so an entry of the tables is within its recorded error of the exact value. The enclosures stay
close enough to `[-1, 1]` that no entry exceeds `2^q` in absolute value.
-/

namespace Akita.OpNorm

open Lib Finset
open List (range')
open Real (pi cos sin pi_pos)

/-- `2^61` as a real number. -/
noncomputable def trigUnit : ℝ := 2 ^ 61

theorem trigUnit_pos : 0 < trigUnit := by unfold trigUnit; positivity

theorem trigOne_cast : ((trigOne : ℤ) : ℝ) = trigUnit := by
  unfold trigOne trigScale trigUnit
  norm_num

theorem fshr_eq (x : ℤ) (sh : ℕ) : fshr x sh = x / 2 ^ sh := by
  rw [fshr, Int.shiftRight_eq_div_pow]
  norm_cast

theorem cshr_eq (x : ℤ) (sh : ℕ) : cshr x sh = -(-x / 2 ^ sh) := by
  rw [cshr, Int.shiftRight_eq_div_pow]
  norm_cast

section

variable {a b : ℤ × ℤ} {x y : ℝ}

theorem imul_encloses (ha : Encloses a x) (hb : Encloses b y) (ha0 : 0 ≤ a.1) (hb0 : 0 ≤ b.1) :
    Encloses (imul a b) (x * y / trigUnit) := by
  have hscale : ((2 ^ 61 : ℤ) : ℝ) = trigUnit := by unfold trigUnit; norm_num
  have h := (ha.mul hb ha0 hb0).div (b := 2 ^ 61) (by positivity)
  rw [hscale] at h
  unfold imul trigScale
  rw [fshr_eq, cshr_eq]
  exact h

theorem imul_fst_nonneg (ha : 0 ≤ a.1) (hb : 0 ≤ b.1) : 0 ≤ (imul a b).1 := by
  unfold imul trigScale
  rw [fshr_eq]
  exact Int.ediv_nonneg (mul_nonneg ha hb) (by positivity)

theorem imul_snd_le {P : ℤ} (h : a.2 * b.2 ≤ P * trigOne) : (imul a b).2 ≤ P := by
  unfold trigOne at h
  unfold imul
  rw [cshr_eq]
  have hlt : -(-(a.2 * b.2) / 2 ^ trigScale) * 2 ^ trigScale < a.2 * b.2 + 2 ^ trigScale :=
    neg_ediv_neg_lt (a.2 * b.2) (by positivity)
  by_contra hgt
  have hmul : (P + 1) * 2 ^ trigScale ≤ -(-(a.2 * b.2) / 2 ^ trigScale) * 2 ^ trigScale :=
    mul_le_mul_of_nonneg_right (by omega) (by positivity)
  have hring : (P + 1) * 2 ^ trigScale = P * 2 ^ trigScale + 2 ^ trigScale := by ring
  omega

theorem cdiv_le {n P f : ℤ} (hf : 0 < f) (h : n ≤ P * f) : cdiv n f ≤ P := by
  unfold cdiv
  have hlt := neg_ediv_neg_lt n hf
  by_contra hgt
  have hmul : (P + 1) * f ≤ -(-n / f) * f := mul_le_mul_of_nonneg_right (by omega) hf.le
  have hring : (P + 1) * f = P * f + f := by ring
  omega

theorem cdiv_mul_lt {f : ℤ} (n : ℤ) (hf : 0 < f) : cdiv n f * f < n + f := neg_ediv_neg_lt n hf

theorem cdiv_nonneg {n f : ℤ} (hf : 0 < f) (h : 0 ≤ n) : 0 ≤ cdiv n f := by
  unfold cdiv
  have hle : -n / f ≤ 0 := Int.ediv_nonpos_of_nonpos_of_neg (by omega) hf
  omega

end

section

/-- The cosine (`s = 0`) or the sine (`s = 1`) of `φ`, evaluated up to term `n`. -/
structure TaylorOk (s : ℕ) (φ : ℝ) (n : ℕ) (state : Taylor) : Prop where
  sum : Encloses state.sum (trigUnit * alternating s (n + 1) φ)
  pow : Encloses state.pow (trigUnit * φ ^ (2 * n + s))
  pow_nonneg : 0 ≤ state.pow.1
  fact : state.fact = ((2 * n + s).factorial : ℤ)

variable {s : ℕ} {φ : ℝ} {phi2 : ℤ × ℤ} {factor : ℤ → ℤ}

/-- The first factor of a Taylor loop past `(2n+s)!`. -/
def Factors (s : ℕ) (factor : ℤ → ℤ) : Prop := ∀ n : ℕ, factor (n + 1 : ℕ) = (2 * n + s + 1) * (2 * n + s + 2)

theorem factorial_step (s n : ℕ) :
    (((2 * (n + 1) + s).factorial : ℕ) : ℤ) = ((2 * n + s).factorial : ℤ) * ((2 * n + s + 1) * (2 * n + s + 2)) := by
  have hidx : 2 * (n + 1) + s = 2 * n + s + 1 + 1 := by ring
  rw [hidx, Nat.factorial_succ, Nat.factorial_succ]
  push_cast
  ring

theorem taylorStep_ok {n : ℕ} {state : Taylor} (hfactor : Factors s factor) (hphi2 : Encloses phi2 (trigUnit * φ ^ 2)) (h0 : 0 ≤ phi2.1) (h : TaylorOk s φ n state) : TaylorOk s φ (n + 1) (taylorStep phi2 factor state (n + 1)) := by
  have hfact : state.fact * factor (n + 1 : ℕ) = ((2 * (n + 1) + s).factorial : ℤ) := by
    rw [hfactor n, h.fact, factorial_step]
  have hpos : (0 : ℤ) < ((2 * (n + 1) + s).factorial : ℤ) := by exact_mod_cast Nat.factorial_pos _
  have hpow : Encloses (imul state.pow phi2) (trigUnit * φ ^ (2 * (n + 1) + s)) := by
    have hmul := imul_encloses h.pow hphi2 h.pow_nonneg h0
    have hring : trigUnit * φ ^ (2 * n + s) * (trigUnit * φ ^ 2) / trigUnit = trigUnit * φ ^ (2 * (n + 1) + s) := by
      field_simp
      ring
    rwa [hring] at hmul
  have hterm : Encloses (fdiv (imul state.pow phi2).1 ((2 * (n + 1) + s).factorial : ℤ),
      cdiv (imul state.pow phi2).2 ((2 * (n + 1) + s).factorial : ℤ))
      (trigUnit * (φ ^ (2 * (n + 1) + s) / ((2 * (n + 1) + s).factorial : ℝ))) := by
    have hdiv := hpow.div hpos
    rw [mul_div_assoc] at hdiv
    exact_mod_cast hdiv
  have hsplit : alternating s (n + 1 + 1) φ =
      alternating s (n + 1) φ + (-1) ^ (n + 1) * (φ ^ (2 * (n + 1) + s) / ((2 * (n + 1) + s).factorial : ℝ)) :=
    sum_range_succ _ _
  refine ⟨?_, hpow, imul_fst_nonneg h.pow_nonneg h0, hfact⟩
  simp only [taylorStep]
  rw [hfact, hsplit, mul_add trigUnit]
  -- odd terms are subtracted, even ones added
  rcases Nat.even_or_odd (n + 1) with heven | hodd
  · rw [if_neg (by rw [Nat.even_iff.1 heven]; decide), heven.neg_one_pow, one_mul]
    exact h.sum.add hterm
  · rw [if_pos (Nat.odd_iff.1 hodd), hodd.neg_one_pow, neg_one_mul, mul_neg, ← sub_eq_add_neg]
    exact h.sum.sub hterm

theorem taylorLoop_ok (hfactor : Factors s factor) (hphi2 : Encloses phi2 (trigUnit * φ ^ 2)) (h0 : 0 ≤ phi2.1)
    {start : Taylor} (h : TaylorOk s φ 0 start) (n : ℕ) :
    TaylorOk s φ n ((range' 1 n).foldl (taylorStep phi2 factor) start) := by
  induction n with
  | zero => exact h
  | succ n ih =>
    rw [List.range'_concat, List.foldl_append]
    simpa [add_comm 1 n] using taylorStep_ok hfactor hphi2 h0 ih

theorem taylorStart_ok {first : ℤ × ℤ} (hs : s ≤ 1) (hfirst : Encloses first (trigUnit * φ ^ s)) (h0 : 0 ≤ first.1) :
    TaylorOk s φ 0 { sum := first, pow := first, fact := 1 } := by
  have hfact : s.factorial = 1 := by interval_cases s <;> rfl
  refine ⟨?_, by simpa using hfirst, h0, by simp [hfact]⟩
  simpa [alternating, hfact] using hfirst

/-- **A Taylor evaluation encloses the limit of its series.** -/
theorem taylor_encloses {phi first : ℤ × ℤ} {l : ℝ} (hs : s ≤ 1) (hfactor : Factors s factor)
    (hphi : Encloses phi (trigUnit * φ)) (hphi0 : 0 ≤ phi.1) (hfirst : Encloses first (trigUnit * φ ^ s))
    (hfirst0 : 0 ≤ first.1) (hl : l ≤ alternating s 13 φ ∧ alternating s 13 φ - φ ^ (26 + s) / (26 + s).factorial ≤ l) :
    Encloses (taylor phi first factor (2 * nterms + 1 + s)) (trigUnit * l) := by
  have hunit := trigUnit_pos
  have hphi2 : Encloses (imul phi phi) (trigUnit * φ ^ 2) := by
    have hmul := imul_encloses hphi hphi hphi0 hphi0
    have hring : trigUnit * φ * (trigUnit * φ) / trigUnit = trigUnit * φ ^ 2 := by
      field_simp
    rwa [hring] at hmul
  have h20 := imul_fst_nonneg hphi0 hphi0
  have hloop := taylorLoop_ok hfactor hphi2 h20 (taylorStart_ok hs hfirst hfirst0) nterms
  have hnext : (((range' 1 nterms).foldl (taylorStep (imul phi phi) factor)
      { sum := first, pow := first, fact := 1 }).fact) * (2 * nterms + 1 + s) * (2 * nterms + 1 + s + 1) =
      ((26 + s).factorial : ℤ) := by
    rw [hloop.fact]
    have hstep := factorial_step s 12
    have hidx : 2 * (12 + 1) + s = 26 + s := by ring
    have hcast : ((nterms : ℕ) : ℤ) = 12 := rfl
    rw [hidx] at hstep
    rw [hstep, hcast]
    have htwelve : 2 * nterms + s = 2 * 12 + s := rfl
    rw [htwelve]
    ring
  have hpos : (0 : ℤ) < ((26 + s).factorial : ℤ) := by exact_mod_cast Nat.factorial_pos _
  have hrem : trigUnit * (φ ^ (26 + s) / (26 + s).factorial) ≤
      (cdiv (imul ((range' 1 nterms).foldl (taylorStep (imul phi phi) factor)
        { sum := first, pow := first, fact := 1 }).pow (imul phi phi)).2 ((26 + s).factorial : ℤ) : ℝ) := by
    have hmul := imul_encloses hloop.pow hphi2 hloop.pow_nonneg h20
    have hring : trigUnit * φ ^ (2 * nterms + s) * (trigUnit * φ ^ 2) / trigUnit = trigUnit * φ ^ (26 + s) := by
      have hsum : φ ^ (26 + s) = φ ^ (2 * nterms + s) * φ ^ 2 := by
        rw [← pow_add]
        congr 1
        unfold nterms
        ring
      rw [hsum]
      field_simp
    rw [hring] at hmul
    have hdiv := (hmul.div hpos).2
    rw [mul_div_assoc] at hdiv
    exact_mod_cast hdiv
  obtain ⟨hsum1, hsum2⟩ := hloop.sum
  have hthirteen : alternating s (nterms + 1) φ = alternating s 13 φ := rfl
  rw [hthirteen] at hsum1 hsum2
  have hl1 := mul_le_mul_of_nonneg_left hl.1 hunit.le
  have hl2 := mul_le_mul_of_nonneg_left hl.2 hunit.le
  rw [mul_sub] at hl2
  unfold taylor addRemainder
  simp only
  rw [hnext]
  have hterm : (0 : ℝ) ≤ cdiv (imul ((range' 1 nterms).foldl (taylorStep (imul phi phi) factor)
      { sum := first, pow := first, fact := 1 }).pow (imul phi phi)).2 ((26 + s).factorial : ℤ) := by
    have hφ : 0 ≤ φ := by
      have hlow : (0 : ℝ) ≤ trigUnit * φ := le_trans (by exact_mod_cast hphi0) hphi.1
      exact (mul_nonneg_iff_of_pos_left hunit).1 hlow
    exact (mul_nonneg hunit.le (div_nonneg (pow_nonneg hφ _) (Nat.cast_nonneg _))).trans hrem
  refine ⟨?_, ?_⟩ <;> push_cast <;> linarith

end

section

variable {f : ℤ} {state : Taylor} {n : ℕ}

/-- The ranges of a Taylor loop after `n` terms, `n` at least one: the power is at most `P`, the
terms after the first are at most `E`. -/
structure TaylorRange (first t1 : ℤ × ℤ) (P E : ℤ) (n : ℕ) (state : Taylor) : Prop where
  pow_le : state.pow.2 ≤ P
  pow_nonneg : 0 ≤ state.pow.1
  pow_order : 0 ≤ state.pow.2
  sum_le : state.sum.2 ≤ first.2 - t1.1 + (n / 2 : ℕ) * E
  le_sum : first.1 - t1.2 - ((n - 1) / 2 : ℕ) * E ≤ state.sum.1

variable {phi2 first t1 : ℤ × ℤ} {factor : ℤ → ℤ} {P E : ℤ}

theorem next_term {pow : ℤ × ℤ} {fact : ℤ} (hphi2 : 0 ≤ phi2.1) (hle : phi2.1 ≤ phi2.2) (hone : phi2.2 ≤ trigOne)
    (hpow0 : 0 ≤ pow.1) (hpow1 : 0 ≤ pow.2) (hpow : pow.2 ≤ P) (hP : P ≤ E * f) (hf : 0 < f) (hE : 0 ≤ E) (hfact : f ≤ fact) :
    (imul pow phi2).2 ≤ P ∧ 0 ≤ (imul pow phi2).1 ∧ 0 ≤ (imul pow phi2).2 ∧
      0 ≤ fdiv (imul pow phi2).1 fact ∧ cdiv (imul pow phi2).2 fact ≤ E := by
  have hle2 : (imul pow phi2).2 ≤ P := by
    apply imul_snd_le
    have hmul : pow.2 * phi2.2 ≤ pow.2 * trigOne := mul_le_mul_of_nonneg_left hone hpow1
    have hmul' : pow.2 * trigOne ≤ P * trigOne := mul_le_mul_of_nonneg_right hpow (by decide)
    omega
  have h0 := imul_fst_nonneg hpow0 hphi2
  have h1 : 0 ≤ (imul pow phi2).2 := by
    have hprod : 0 ≤ pow.2 * phi2.2 := mul_nonneg hpow1 (by omega)
    unfold imul
    rw [cshr_eq]
    exact cdiv_nonneg (f := 2 ^ trigScale) (by positivity) hprod
  have hfact0 : 0 < fact := by omega
  refine ⟨hle2, h0, h1, Int.ediv_nonneg h0 hfact0.le, ?_⟩
  apply cdiv_le hfact0
  have hmul : E * f ≤ E * fact := mul_le_mul_of_nonneg_left hfact hE
  omega

theorem taylorStep_sum_even (hn : Even n) : (taylorStep phi2 factor state n).sum =
    (state.sum.1 + fdiv (imul state.pow phi2).1 (state.fact * factor n),
      state.sum.2 + cdiv (imul state.pow phi2).2 (state.fact * factor n)) := by
  have hmod := Nat.even_iff.1 hn
  simp [taylorStep, iadd, hmod]

theorem taylorStep_sum_odd (hn : Odd n) : (taylorStep phi2 factor state n).sum =
    (state.sum.1 - cdiv (imul state.pow phi2).2 (state.fact * factor n),
      state.sum.2 - fdiv (imul state.pow phi2).1 (state.fact * factor n)) := by
  have hmod := Nat.odd_iff.1 hn
  simp [taylorStep, isub, hmod]

theorem taylorStep_range (hphi2 : 0 ≤ phi2.1) (hle : phi2.1 ≤ phi2.2) (hone : phi2.2 ≤ trigOne) (hf : 0 < f) (hE : 0 ≤ E)
    (hP : P ≤ E * f) (hn : 1 ≤ n) (h : TaylorRange first t1 P E n state) (hfact : f ≤ state.fact * factor (n + 1 : ℕ)) :
    TaylorRange first t1 P E (n + 1) (taylorStep phi2 factor state (n + 1)) := by
  obtain ⟨h1, h2, h3, h4, h5⟩ := next_term hphi2 hle hone h.pow_nonneg h.pow_order h.pow_le hP hf hE hfact
  have hsum := h.sum_le
  have hsum' := h.le_sum
  rcases Nat.even_or_odd (n + 1) with heven | hodd
  · have hhalf : (((n + 1) / 2 : ℕ) : ℤ) = ((n / 2 : ℕ) : ℤ) + 1 := by have := Nat.even_iff.1 heven; omega
    have hpred : (n + 1 - 1) / 2 = (n - 1) / 2 := by have := Nat.even_iff.1 heven; omega
    refine ⟨h1, h2, h3, ?_, ?_⟩
    · rw [taylorStep_sum_even heven, hhalf, add_mul, one_mul]
      omega
    · rw [taylorStep_sum_even heven, hpred]
      omega
  · have hhalf : (n + 1) / 2 = n / 2 := by have := Nat.odd_iff.1 hodd; omega
    have hpred : (((n + 1 - 1) / 2 : ℕ) : ℤ) = (((n - 1) / 2 : ℕ) : ℤ) + 1 := by have := Nat.odd_iff.1 hodd; omega
    refine ⟨h1, h2, h3, ?_, ?_⟩
    · rw [taylorStep_sum_odd hodd, hhalf]
      omega
    · rw [taylorStep_sum_odd hodd, hpred, add_mul, one_mul]
      omega

/-- **The enclosure leaves its first two terms by a few `E`.** -/
theorem taylor_range {s : ℕ} {φ : ℝ} {phi : ℤ × ℤ} (hs : s ≤ 1) (hfactor : Factors s factor) (hphi : Encloses phi (trigUnit * φ))
    (hphi0 : 0 ≤ phi.1) (hfirst : Encloses first (trigUnit * φ ^ s)) (hfirst0 : 0 ≤ first.1) (hone : (imul phi phi).2 ≤ trigOne)
    (hpow : (imul first (imul phi phi)).2 ≤ P) (hE : 0 ≤ E) (hf : f = (4 + s).factorial) (hP : P ≤ E * f)
    (ht1 : t1 = (fdiv (imul first (imul phi phi)).1 ((2 + s).factorial), cdiv (imul first (imul phi phi)).2 ((2 + s).factorial))) :
    (taylor phi first factor (2 * nterms + 1 + s)).2 ≤ first.2 - t1.1 + 7 * E ∧
      first.1 - t1.2 - 6 * E ≤ (taylor phi first factor (2 * nterms + 1 + s)).1 := by
  have hphi2 : Encloses (imul phi phi) (trigUnit * φ ^ 2) := by
    have hmul := imul_encloses hphi hphi hphi0 hphi0
    have hring : trigUnit * φ * (trigUnit * φ) / trigUnit = trigUnit * φ ^ 2 := by
      field_simp
    rwa [hring] at hmul
  have h20 := imul_fst_nonneg hphi0 hphi0
  have hf0 : 0 < f := by rw [hf]; exact_mod_cast Nat.factorial_pos _
  have hstart := taylorStart_ok hs hfirst hfirst0
  have hloop : ∀ n, 1 ≤ n → TaylorRange first t1 P E n
      ((range' 1 n).foldl (taylorStep (imul phi phi) factor) { sum := first, pow := first, fact := 1 }) := by
    intro n hn
    induction n, hn using Nat.le_induction with
    | base =>
      have hfact : factor 1 = ((2 + s).factorial : ℤ) := by
        have h1 := (taylorStep_ok hfactor hphi2 h20 hstart).fact
        have hidx : 2 * (0 + 1) + s = 2 + s := by ring
        rw [hidx] at h1
        simpa [taylorStep] using h1
      have hpow1 : Encloses _ _ := (taylorStep_ok hfactor hphi2 h20 hstart).pow
      refine ⟨hpow, imul_fst_nonneg hfirst0 h20, (imul_fst_nonneg hfirst0 h20).trans hpow1.le, ?_, ?_⟩ <;>
        simp [taylorStep, isub, hfact, ht1]
    | succ n hn ih =>
      rw [List.range'_concat, List.foldl_append]
      have hok := taylorLoop_ok hfactor hphi2 h20 hstart n
      have hfact : f ≤ ((range' 1 n).foldl (taylorStep (imul phi phi) factor)
          { sum := first, pow := first, fact := 1 }).fact * factor (n + 1 : ℕ) := by
        rw [hok.fact, hfactor n, ← factorial_step, hf]
        exact_mod_cast Nat.factorial_le (by omega)
      simpa [add_comm 1 n] using taylorStep_range h20 hphi2.le hone hf0 hE hP hn ih hfact
  have hend := hloop nterms (by decide)
  have hok := taylorLoop_ok hfactor hphi2 h20 hstart nterms
  have hfactEnd : f ≤ ((range' 1 nterms).foldl (taylorStep (imul phi phi) factor)
      { sum := first, pow := first, fact := 1 }).fact * (2 * nterms + 1 + s) * (2 * nterms + 1 + s + 1) := by
    have hstep := factorial_step s nterms
    rw [hok.fact, mul_assoc]
    have hring : (2 * (nterms : ℤ) + 1 + s) * (2 * nterms + 1 + s + 1) = (2 * nterms + s + 1) * (2 * nterms + s + 2) := by ring
    rw [hring, ← hstep, hf]
    exact_mod_cast Nat.factorial_le (by unfold nterms; omega)
  obtain ⟨-, -, h3, -, h5⟩ := next_term h20 hphi2.le hone hend.pow_nonneg hend.pow_order hend.pow_le hP hf0 hE hfactEnd
  have hsum := hend.sum_le
  have hsum' := hend.le_sum
  have hsix : ((nterms / 2 : ℕ) : ℤ) = 6 := rfl
  have hfive : (((nterms - 1) / 2 : ℕ) : ℤ) = 5 := rfl
  rw [hsix] at hsum
  rw [hfive] at hsum'
  unfold taylor addRemainder
  simp only
  constructor <;> omega

end

section angles

theorem piEnclosure_eq : piEnclosure = (7244019458077122644, 7244019458077123100) := by decide +kernel

theorem piEnclosure_encloses : Encloses piEnclosure (trigUnit * pi) := by
  have hlo := Real.pi_gt_d20
  have hhi := Real.pi_lt_d20
  rw [piEnclosure_eq]
  unfold trigUnit
  refine ⟨?_, ?_⟩ <;> norm_num at * <;> linarith

/-- The first-octant angle interval of index `r`. -/
def octantAngle (d r : ℕ) : ℤ × ℤ := (fdiv (piEnclosure.1 * r) d, cdiv (piEnclosure.2 * r) d)

variable {d r : ℕ}

theorem octantAngle_encloses (hd : 0 < d) (r : ℕ) : Encloses (octantAngle d r) (trigUnit * (pi * r / d)) := by
  have hr : Encloses ((r : ℤ), (r : ℤ)) (r : ℝ) := ⟨by norm_cast, by norm_cast⟩
  have hmul := piEnclosure_encloses.mul hr (by rw [piEnclosure_eq]; decide) (by positivity)
  have hdiv := hmul.div (b := d) (by exact_mod_cast hd)
  have hring : trigUnit * pi * r / ((d : ℤ) : ℝ) = trigUnit * (pi * r / d) := by
    push_cast
    ring
  rwa [hring] at hdiv

/-- The integers of an angle interval: nonnegative, at most an eighth turn and nearly equal. -/
theorem octantAngle_range (hd : 0 < d) (hr : 4 * r ≤ d) : 0 ≤ (octantAngle d r).1 ∧
    (octantAngle d r).2 ≤ 1811004864519280775 ∧ 1000 * (octantAngle d r).2 ≤ 1001 * (octantAngle d r).1 + 2001 := by
  have hd' : (0 : ℤ) < d := by exact_mod_cast hd
  unfold octantAngle
  rw [piEnclosure_eq]
  have hlo : (7244019458077122644 : ℤ) * r < (fdiv (7244019458077122644 * r) d + 1) * d :=
    Int.lt_ediv_add_one_mul_self _ hd'
  have hhi : cdiv (7244019458077123100 * r) d * d < 7244019458077123100 * r + d := cdiv_mul_lt _ hd'
  refine ⟨Int.ediv_nonneg (by positivity) hd'.le, cdiv_le hd' ?_, ?_⟩
  · have hr' : (4 : ℤ) * r ≤ d := by exact_mod_cast hr
    linarith
  · dsimp only
    by_contra hgt
    nlinarith

theorem octant_angle_mem (hd : 0 < d) (hr : 4 * r ≤ d) : 0 ≤ pi * r / d ∧ pi * r / d ≤ pi / 4 := by
  have hpi := pi_pos
  have hd' : (0 : ℝ) < d := by exact_mod_cast hd
  have hr' : (4 : ℝ) * r ≤ d := by exact_mod_cast hr
  refine ⟨by positivity, ?_⟩
  rw [div_le_div_iff₀ hd' (by norm_num)]
  nlinarith

theorem octant_angle_le_one (hd : 0 < d) (hr : 4 * r ≤ d) : pi * r / d ≤ 1 := by
  have hpi := Real.pi_lt_four
  have h := (octant_angle_mem hd hr).2
  linarith

theorem factors_cos : Factors 0 fun n => (2 * n - 1) * (2 * n) := by
  intro n
  push_cast
  ring

theorem factors_sin : Factors 1 fun n => (2 * n) * (2 * n + 1) := by
  intro n
  push_cast
  ring

theorem one_encloses (φ : ℝ) : Encloses (trigOne, trigOne) (trigUnit * φ ^ 0) := by
  rw [pow_zero, mul_one, ← trigOne_cast]
  exact ⟨le_rfl, le_rfl⟩

theorem taylorCos_encloses (hd : 0 < d) (hr : 4 * r ≤ d) :
    Encloses (taylorCos (octantAngle d r)) (trigUnit * cos (pi * r / d)) := by
  obtain ⟨h0, -⟩ := octant_angle_mem hd hr
  have hseries := cos_alternating h0 (octant_angle_le_one hd hr) 6
  have h := taylor_encloses (s := 0) (by omega) factors_cos (octantAngle_encloses hd r) (octantAngle_range hd hr).1
    (one_encloses _) (by decide) hseries
  unfold taylorCos
  simpa using h

theorem taylorSin_encloses (hd : 0 < d) (hr : 4 * r ≤ d) :
    Encloses (taylorSin (octantAngle d r)) (trigUnit * sin (pi * r / d)) := by
  obtain ⟨h0, -⟩ := octant_angle_mem hd hr
  have hseries := sin_alternating h0 (octant_angle_le_one hd hr) 6
  have hφ := octantAngle_encloses hd r
  have h := taylor_encloses (s := 1) (by omega) factors_sin hφ (octantAngle_range hd hr).1
    (by simpa using hφ) (octantAngle_range hd hr).1 hseries
  unfold taylorSin
  have hnext : (2 * (nterms : ℤ) + 2) = 2 * nterms + 1 + (1 : ℕ) := by push_cast; ring
  rw [hnext]
  exact h

/-- An enclosure within `[-1, 1]`, up to 32 units above and exact where it reaches one. -/
structure Tight (v : ℤ × ℤ) : Prop where
  lower : -trigOne ≤ v.1
  order : v.1 ≤ v.2
  upper : v.2 ≤ trigOne + 32
  strict : v.1 < trigOne ∨ v = (trigOne, trigOne)

section

variable (hd : 0 < d) (hr : 4 * r ≤ d)

include hd hr

theorem angle_sq_range : (imul (octantAngle d r) (octantAngle d r)).2 ≤ 1811004864519280775 ∧
      10 * (imul (octantAngle d r) (octantAngle d r)).2 ≤ 13 * (imul (octantAngle d r) (octantAngle d r)).1 + 200 := by
  obtain ⟨h0, hK, hclose⟩ := octantAngle_range hd hr
  have hle := (octantAngle_encloses hd r).le
  generalize octantAngle d r = phi at *
  have hone : trigOne = 2305843009213693952 := by decide
  constructor
  · refine (imul_snd_le (P := phi.2) ?_).trans hK
    exact mul_le_mul_of_nonneg_left (by omega) (by omega)
  · unfold imul trigScale
    rw [fshr_eq, cshr_eq]
    have hlo : phi.1 * phi.1 < (phi.1 * phi.1 / 2 ^ 61 + 1) * 2 ^ 61 := Int.lt_ediv_add_one_mul_self _ (by positivity)
    have hhi : -(-(phi.2 * phi.2) / 2 ^ 61) * 2 ^ 61 < phi.2 * phi.2 + 2 ^ 61 := neg_ediv_neg_lt _ (by positivity)
    generalize phi.1 * phi.1 / 2 ^ 61 = low at *
    generalize -(-(phi.2 * phi.2) / 2 ^ 61) = high at *
    have hsq : 1000000 * (phi.2 * phi.2) ≤ (1001 * phi.1 + 2001) * (1001 * phi.1 + 2001) := by nlinarith
    have hlin : phi.1 ≤ 2 ^ 61 := by omega
    nlinarith

theorem taylorCos_tight : Tight (taylorCos (octantAngle d r)) := by
  have henc := taylorCos_encloses hd hr
  obtain ⟨h0, hK, -⟩ := octantAngle_range hd hr
  obtain ⟨hP, hclose⟩ := angle_sq_range hd hr
  have hone : trigOne = 2305843009213693952 := by decide
  have hsq := (imul_encloses (octantAngle_encloses hd r) (octantAngle_encloses hd r) h0 h0).le
  have hsq0 := imul_fst_nonneg h0 h0
  set phi2 := imul (octantAngle d r) (octantAngle d r) with hphi2
  have hunit : imul (trigOne, trigOne) phi2 = phi2 := by
    unfold imul trigScale
    rw [fshr_eq, cshr_eq]
    have h1 : trigOne * phi2.1 / 2 ^ 61 = phi2.1 := Int.mul_ediv_cancel_left _ (by decide)
    have h2 : -(trigOne * phi2.2) / 2 ^ 61 = -phi2.2 := by
      rw [← mul_neg]
      exact Int.mul_ediv_cancel_left _ (by decide)
    rw [h1, h2, neg_neg]
  have hE : cdiv phi2.2 24 * 24 < phi2.2 + 24 := cdiv_mul_lt _ (by decide)
  have hE' : phi2.2 ≤ cdiv phi2.2 24 * 24 := by
    have := Int.ediv_mul_le (-phi2.2) (by decide : (24 : ℤ) ≠ 0)
    unfold cdiv
    linarith
  have ht1 : cdiv phi2.2 2 * 2 < phi2.2 + 2 := cdiv_mul_lt _ (by decide)
  obtain ⟨hupper, hlower⟩ := taylor_range (s := 0) (E := cdiv phi2.2 24) (P := phi2.2) (f := 24) (by omega) factors_cos
    (octantAngle_encloses hd r) h0 (one_encloses _) (by decide) (by rw [← hphi2]; omega) (by rw [← hphi2, hunit])
    (cdiv_nonneg (by decide) (by omega)) (by decide) hE' rfl
  rw [← hphi2, hunit] at hupper hlower
  have hfact : (((2 + 0 : ℕ).factorial : ℕ) : ℤ) = 2 := by decide
  rw [hfact] at hupper hlower
  have htaylor : taylor (octantAngle d r) (trigOne, trigOne) (fun n => (2 * n - 1) * (2 * n)) (2 * nterms + 1 + (0 : ℕ)) =
      taylorCos (octantAngle d r) := by simp [taylorCos]
  rw [htaylor] at hupper hlower
  have hhalf : fdiv phi2.1 2 * 2 ≤ phi2.1 ∧ phi2.1 < fdiv phi2.1 2 * 2 + 2 := by unfold fdiv; omega
  refine ⟨by dsimp only at hlower; omega, henc.le, by dsimp only at hupper; omega, ?_⟩
  -- at angle zero the enclosure is exact, elsewhere the cosine is below one
  rcases Nat.eq_zero_or_pos r with rfl | hrpos
  · refine Or.inr ?_
    have hzero : octantAngle d 0 = (0, 0) := by simp [octantAngle, fdiv, cdiv]
    rw [hzero]
    decide +kernel
  · refine Or.inl ?_
    have hφ : 0 < pi * r / d := by
      have := pi_pos
      have hr' : (0 : ℝ) < r := by exact_mod_cast hrpos
      have hd' : (0 : ℝ) < d := by exact_mod_cast hd
      positivity
    have hφ' := (octant_angle_mem hd hr).2
    have hcos : cos (pi * r / d) < 1 := by
      rw [← Real.cos_zero]
      exact Real.cos_lt_cos_of_nonneg_of_le_pi_div_two le_rfl (by linarith [pi_pos]) hφ
    have hlt : ((taylorCos (octantAngle d r)).1 : ℝ) < trigUnit := by
      refine lt_of_le_of_lt henc.1 ?_
      have := trigUnit_pos
      nlinarith
    rw [← trigOne_cast] at hlt
    exact_mod_cast hlt

theorem taylorSin_tight : Tight (taylorSin (octantAngle d r)) := by
  have henc := taylorSin_encloses hd hr
  obtain ⟨h0, hK, -⟩ := octantAngle_range hd hr
  obtain ⟨hP, -⟩ := angle_sq_range hd hr
  have hφ := octantAngle_encloses hd r
  have hone : trigOne = 2305843009213693952 := by decide
  have hsq0 := imul_fst_nonneg h0 h0
  set phi := octantAngle d r with hphi
  have hle := hφ.le
  have hcube : (imul phi (imul phi phi)).2 ≤ phi.2 := by
    apply imul_snd_le
    exact mul_le_mul_of_nonneg_left (by omega) (by omega)
  have hcube0 := imul_fst_nonneg h0 hsq0
  have hE : cdiv phi.2 120 * 120 < phi.2 + 120 := cdiv_mul_lt _ (by decide)
  have hE' : phi.2 ≤ cdiv phi.2 120 * 120 := by
    have := Int.ediv_mul_le (-phi.2) (by decide : (120 : ℤ) ≠ 0)
    unfold cdiv
    linarith
  have ht1 : cdiv (imul phi (imul phi phi)).2 6 * 6 < (imul phi (imul phi phi)).2 + 6 := cdiv_mul_lt _ (by decide)
  obtain ⟨hupper, hlower⟩ := taylor_range (s := 1) (E := cdiv phi.2 120) (P := phi.2) (f := 120) (by omega) factors_sin
    hφ h0 (by simpa using hφ) h0 (by omega) hcube (cdiv_nonneg (by decide) (by omega)) (by decide) hE' rfl
  have hfact : (((2 + 1 : ℕ).factorial : ℕ) : ℤ) = 6 := by decide
  rw [hfact] at hupper hlower
  have htaylor : taylor phi phi (fun n => (2 * n) * (2 * n + 1)) (2 * nterms + 1 + (1 : ℕ)) = taylorSin phi := by
    congr 1
  rw [htaylor] at hupper hlower
  have hdiv : 0 ≤ fdiv (imul phi (imul phi phi)).1 6 := Int.ediv_nonneg hcube0 (by decide)
  exact ⟨by omega, henc.le, by omega, Or.inl (by have := henc.le; omega)⟩

end

end angles

section entries

variable {d q : ℕ} {t : ℕ} {v : ℤ × ℤ} {x : ℝ} {sign : ℤ}

/-- What the reduction to the first octant says of the angle. -/
structure Reduced (d t : ℕ) (red : ℕ × Bool × ℤ × ℤ) : Prop where
  index_le : 4 * red.1 ≤ d
  cos_eq : cos (pi * t / d) = red.2.2.1 * (if red.2.1 then sin (pi * red.1 / d) else cos (pi * red.1 / d))
  sin_eq : sin (pi * t / d) = red.2.2.2 * (if red.2.1 then cos (pi * red.1 / d) else sin (pi * red.1 / d))
  cos_sign : red.2.2.1 = 1 ∨ red.2.2.1 = -1
  sin_sign : red.2.2.2 = 1 ∨ red.2.2.2 = -1

theorem octantReduce_reduced (hd : 0 < d) (h4 : d % 4 = 0) (ht : t < 2 * d) : Reduced d t (octantReduce t d) := by
  obtain ⟨k, rfl⟩ : ∃ k, d = 4 * k := ⟨d / 4, by omega⟩
  have hk : (k : ℝ) ≠ 0 := by exact_mod_cast (by omega : k ≠ 0)
  have hturn : ∀ u : ℕ, pi * ((2 * (4 * k) - u : ℤ) : ℝ) / (4 * k : ℕ) = 2 * pi - pi * u / (4 * k : ℕ) := by
    intro u
    push_cast
    field_simp
  have hhalf : ∀ u : ℕ, pi * ((4 * k - u : ℤ) : ℝ) / (4 * k : ℕ) = pi - pi * u / (4 * k : ℕ) := by
    intro u
    push_cast
    field_simp
  have hquarter : ∀ u : ℕ, pi * ((2 * k - u : ℤ) : ℝ) / (4 * k : ℕ) = pi / 2 - pi * u / (4 * k : ℕ) := by
    intro u
    push_cast
    field_simp
    ring
  -- first reflection: the half turn with its sine sign
  obtain ⟨t₁, sinSign, hred₁, ht₁, hcos₁, hsin₁, hsign₁⟩ : ∃ (t₁ : ℕ) (sinSign : ℤ),
      (if t > 4 * k then (2 * (4 * k) - t, (-1 : ℤ)) else (t, 1)) = (t₁, sinSign) ∧ t₁ ≤ 4 * k ∧
      cos (pi * t / (4 * k : ℕ)) = cos (pi * t₁ / (4 * k : ℕ)) ∧
      sin (pi * t / (4 * k : ℕ)) = sinSign * sin (pi * t₁ / (4 * k : ℕ)) ∧ (sinSign = 1 ∨ sinSign = -1) := by
    by_cases hgt : t > 4 * k
    · have hcast : ((2 * (4 * k) - t : ℕ) : ℝ) = ((2 * (4 * k) - t : ℤ) : ℝ) := by
        push_cast [Nat.cast_sub ht.le]
        ring
      refine ⟨2 * (4 * k) - t, -1, if_pos hgt, by omega, ?_, ?_, Or.inr rfl⟩
      · rw [hcast, hturn, Real.cos_two_pi_sub]
      · rw [hcast, hturn, Real.sin_two_pi_sub]
        ring
    · exact ⟨t, 1, if_neg hgt, by omega, rfl, by simp, Or.inl rfl⟩
  -- second reflection: the quarter turn with its cosine sign
  obtain ⟨t₂, cosSign, hred₂, ht₂, hcos₂, hsin₂, hsign₂⟩ : ∃ (t₂ : ℕ) (cosSign : ℤ),
      (if t₁ > 4 * k / 2 then (4 * k - t₁, (-1 : ℤ)) else (t₁, 1)) = (t₂, cosSign) ∧ t₂ ≤ 2 * k ∧
      cos (pi * t₁ / (4 * k : ℕ)) = cosSign * cos (pi * t₂ / (4 * k : ℕ)) ∧
      sin (pi * t₁ / (4 * k : ℕ)) = sin (pi * t₂ / (4 * k : ℕ)) ∧ (cosSign = 1 ∨ cosSign = -1) := by
    by_cases hgt : t₁ > 4 * k / 2
    · have hcast : ((4 * k - t₁ : ℕ) : ℝ) = ((4 * k - t₁ : ℤ) : ℝ) := by
        push_cast [Nat.cast_sub ht₁]
        ring
      refine ⟨4 * k - t₁, -1, if_pos hgt, by omega, ?_, ?_, Or.inr rfl⟩
      · rw [hcast, hhalf, Real.cos_pi_sub]
        push_cast
        ring
      · rw [hcast, hhalf, Real.sin_pi_sub]
    · exact ⟨t₁, 1, if_neg hgt, by omega, by simp, rfl, Or.inl rfl⟩
  have hmod : t % (2 * (4 * k)) = t := Nat.mod_eq_of_lt ht
  have hunfold : octantReduce t (4 * k) =
      (if t₂ > 4 * k / 4 then (4 * k / 2 - t₂, true, cosSign, sinSign) else (t₂, false, cosSign, sinSign)) := by
    unfold octantReduce
    simp only [hmod, hred₁, hred₂]
    split <;> rfl
  rw [hunfold]
  by_cases hgt : t₂ > 4 * k / 4
  · have hcast : ((4 * k / 2 - t₂ : ℕ) : ℝ) = ((2 * k - t₂ : ℤ) : ℝ) := by
      have hdiv : 4 * k / 2 = 2 * k := by omega
      rw [hdiv]
      push_cast [Nat.cast_sub ht₂]
      ring
    rw [if_pos hgt]
    refine ⟨by dsimp only; omega, ?_, ?_, hsign₂, hsign₁⟩
    · rw [hcos₁, hcos₂]
      dsimp only
      rw [if_pos rfl, hcast, hquarter, Real.sin_pi_div_two_sub]
    · rw [hsin₁, hsin₂]
      dsimp only
      rw [if_pos rfl, hcast, hquarter, Real.cos_pi_div_two_sub]
  · rw [if_neg hgt]
    refine ⟨by dsimp only; omega, ?_, ?_, hsign₂, hsign₁⟩
    · rw [hcos₁, hcos₂]
      simp
    · rw [hsin₁, hsin₂]
      simp

theorem applySign_encloses (hv : Encloses v (trigUnit * x)) (hsign : sign = 1 ∨ sign = -1) :
    Encloses (applySign v sign) (trigUnit * (sign * x)) := by
  rcases hsign with rfl | rfl
  · simpa [applySign] using hv
  · have hneg := hv.neg
    simpa [applySign] using hneg

/-- **A rounded entry** is within its error bound of the exact value. -/
theorem downscaleRound_error (hq : q ≤ 61) (hv : Encloses v (trigUnit * x)) :
    |((downscaleRound v (trigScale - q)).1 : ℝ) - 2 ^ q * x| ≤ ((downscaleRound v (trigScale - q)).2 : ℝ) := by
  have hdiv := hv.div (b := 2 ^ (61 - q)) (by positivity)
  have hscale : trigUnit * x / (((2 : ℤ) ^ (61 - q) : ℤ) : ℝ) = 2 ^ q * x := by
    have hpow : trigUnit = 2 ^ q * 2 ^ (61 - q) := by
      rw [trigUnit, ← pow_add]
      congr 1
      omega
    rw [hpow]
    push_cast
    field_simp
  rw [hscale] at hdiv
  unfold downscaleRound trigScale
  rw [fshr_eq, cshr_eq]
  generalize v.1 / 2 ^ (61 - q) = lo at *
  generalize -(-v.2 / 2 ^ (61 - q)) = hi at *
  obtain ⟨h1, h2⟩ := hdiv
  have hleft : ((fdiv (lo + hi) 2 - lo : ℤ) : ℝ) ≤ (max (fdiv (lo + hi) 2 - lo) (hi - fdiv (lo + hi) 2) : ℤ) := by
    exact_mod_cast le_max_left _ _
  have hright : ((hi - fdiv (lo + hi) 2 : ℤ) : ℝ) ≤ (max (fdiv (lo + hi) 2 - lo) (hi - fdiv (lo + hi) 2) : ℤ) := by
    exact_mod_cast le_max_right _ _
  push_cast only [Int.cast_sub] at hleft hright
  rw [abs_le]
  constructor <;> linarith

theorem downscaleRound_abs_le (hq : q ≤ 56) (hv : Tight v) (hsign : sign = 1 ∨ sign = -1) :
    |(downscaleRound (applySign v sign) (trigScale - q)).1| ≤ 2 ^ q := by
  obtain ⟨hlower, horder, hupper, hstrict⟩ := hv
  have hpow : trigOne = 2 ^ q * 2 ^ (61 - q) := by
    rw [trigOne, trigScale, ← pow_add]
    congr 1
    omega
  have hshift : (32 : ℤ) ≤ 2 ^ (61 - q) := by
    calc (32 : ℤ) = 2 ^ 5 := by norm_num
      _ ≤ 2 ^ (61 - q) := pow_le_pow_right₀ (by norm_num) (by omega)
  have hpos : (0 : ℤ) < 2 ^ (61 - q) := by positivity
  rw [hpow] at hlower hupper hstrict
  unfold downscaleRound trigScale
  simp only [fshr_eq, cshr_eq]
  generalize (2 : ℤ) ^ (61 - q) = B at *
  generalize (2 : ℤ) ^ q = Q at *
  rcases hsign with rfl | rfl
  · simp only [applySign, (by decide : ¬ (1 : ℤ) < 0), if_false]
    have hhi : -(-v.2 / B) * B < v.2 + B := neg_ediv_neg_lt _ hpos
    have hloQ : v.1 / B ≤ Q := by
      apply Int.ediv_le_of_le_mul hpos
      rcases hstrict with h | h
      · exact h.le
      · rw [h]
    have hloQ' : -Q ≤ v.1 / B := by
      apply Int.le_ediv_of_mul_le hpos
      linarith
    have hhiQ : -(-v.2 / B) ≤ Q + 1 := by
      by_contra hgt
      have hmul : (Q + 2) * B ≤ -(-v.2 / B) * B := mul_le_mul_of_nonneg_right (by omega) hpos.le
      nlinarith
    have hle : v.1 / B ≤ -(-v.2 / B) := by
      have hneg : v.1 ≤ -(-v.2 / B) * B := by
        have := Int.ediv_mul_le (-v.2) hpos.ne'
        linarith
      exact Int.ediv_le_of_le_mul hpos hneg
    unfold fdiv
    rw [abs_le]
    constructor <;> omega
  · simp only [applySign, (by decide : (-1 : ℤ) < 0), if_true, neg_neg]
    have hlo : -(-v.2 / B) * B < v.2 + B := neg_ediv_neg_lt _ hpos
    have hloQ : -(Q + 1) ≤ -v.2 / B := by
      by_contra hgt
      have hmul : (Q + 2) * B ≤ -(-v.2 / B) * B := mul_le_mul_of_nonneg_right (by omega) hpos.le
      nlinarith
    have hhiQ : -(v.1 / B) ≤ Q := by
      have : -Q ≤ v.1 / B := by
        apply Int.le_ediv_of_mul_le hpos
        linarith
      omega
    have hle : -v.2 / B ≤ -(v.1 / B) := by
      have h1 := Int.ediv_mul_le v.1 hpos.ne'
      apply Int.ediv_le_of_le_mul hpos
      linarith
    unfold fdiv
    rcases hstrict with h | h
    · have hlt : v.1 / B ≤ Q - 1 := by
        have := Int.ediv_lt_of_lt_mul hpos h
        omega
      rw [abs_le]
      constructor <;> omega
    · -- the exact value one
      have h1 : v.1 / B = Q := by rw [h]; exact Int.mul_ediv_cancel _ hpos.ne'
      have h2 : -v.2 / B = -Q := by
        rw [h, ← neg_mul]
        exact Int.mul_ediv_cancel _ hpos.ne'
      rw [h1, h2, abs_le]
      constructor <;> omega

/-- **Every table entry** is within its recorded error of the exact value and at most `2^q`. -/
theorem tableEntry_ok (hd : 0 < d) (h4 : d % 4 = 0) (hq : q ≤ 56) (ht : t < 2 * d) :
    (|((tableEntry d q t).1.1 : ℝ) - 2 ^ q * cos (pi * t / d)| ≤ (tableEntry d q t).1.2 ∧
      |(tableEntry d q t).1.1| ≤ 2 ^ q) ∧
    |((tableEntry d q t).2.1 : ℝ) - 2 ^ q * sin (pi * t / d)| ≤ (tableEntry d q t).2.2 ∧
      |(tableEntry d q t).2.1| ≤ 2 ^ q := by
  have hred := octantReduce_reduced hd h4 ht
  have hcosE := taylorCos_encloses hd hred.index_le
  have hsinE := taylorSin_encloses hd hred.index_le
  have hcosT := taylorCos_tight hd hred.index_le
  have hsinT := taylorSin_tight hd hred.index_le
  have hcos := hred.cos_eq
  have hsin := hred.sin_eq
  unfold tableEntry firstOctant
  cases hswap : (octantReduce t d).2.1 with
  | false =>
    simp only [hswap, Bool.false_eq_true, if_false] at hcos hsin ⊢
    rw [hcos, hsin]
    exact ⟨⟨downscaleRound_error (by omega) (applySign_encloses hcosE hred.cos_sign),
      downscaleRound_abs_le hq hcosT hred.cos_sign⟩,
      downscaleRound_error (by omega) (applySign_encloses hsinE hred.sin_sign),
      downscaleRound_abs_le hq hsinT hred.sin_sign⟩
  | true =>
    simp only [hswap, if_true] at hcos hsin ⊢
    rw [hcos, hsin]
    exact ⟨⟨downscaleRound_error (by omega) (applySign_encloses hsinE hred.cos_sign),
      downscaleRound_abs_le hq hsinT hred.cos_sign⟩,
      downscaleRound_error (by omega) (applySign_encloses hcosE hred.sin_sign),
      downscaleRound_abs_le hq hcosT hred.sin_sign⟩

/-- A loop that keeps the largest of two values of every item bounds them all. -/
theorem foldl_max_ge {α : Type*} (f g : α → ℤ) : ∀ (l : List α) (init : ℤ),
    init ≤ l.foldl (fun m e => max (max m (f e)) (g e)) init ∧
      ∀ e ∈ l, f e ≤ l.foldl (fun m e => max (max m (f e)) (g e)) init ∧
        g e ≤ l.foldl (fun m e => max (max m (f e)) (g e)) init := by
  intro l
  induction l with
  | nil => intro init; simp
  | cons x l ih =>
    intro init
    obtain ⟨hinit, hall⟩ := ih (max (max init (f x)) (g x))
    rw [List.foldl_cons]
    refine ⟨le_trans (by omega) hinit, ?_⟩
    intro e he
    rcases List.mem_cons.1 he with rfl | he
    · exact ⟨le_trans (by omega) hinit, le_trans (by omega) hinit⟩
    · exact hall e he

/-- **The tables of `build_tables`**, entry by entry, against `eps_root`. -/
theorem buildTables_ok (hd : 0 < d) (h4 : d % 4 = 0) (hq : q ≤ 56) (ht : t < 2 * d) :
    (|((buildTables d q).1.getD t 0 : ℝ) - 2 ^ q * cos (pi * t / d)| ≤ (buildTables d q).2.2 ∧
      |(buildTables d q).1.getD t 0| ≤ 2 ^ q) ∧
    |((buildTables d q).2.1.getD t 0 : ℝ) - 2 ^ q * sin (pi * t / d)| ≤ (buildTables d q).2.2 ∧
      |(buildTables d q).2.1.getD t 0| ≤ 2 ^ q := by
  obtain ⟨⟨hc, hcb⟩, hs, hsb⟩ := tableEntry_ok hd h4 hq ht
  have hmem : tableEntry d q t ∈ (List.range (2 * d)).map (tableEntry d q) :=
    List.mem_map.2 ⟨t, List.mem_range.2 ht, rfl⟩
  obtain ⟨hce, hse⟩ := (foldl_max_ge (fun e : (ℤ × ℤ) × (ℤ × ℤ) => e.1.2) (fun e => e.2.2) _ 0).2 _ hmem
  have hcos : (buildTables d q).1.getD t 0 = (tableEntry d q t).1.1 := by simp [buildTables, ht]
  have hsin : (buildTables d q).2.1.getD t 0 = (tableEntry d q t).2.1 := by simp [buildTables, ht]
  rw [hcos, hsin]
  refine ⟨⟨hc.trans ?_, hcb⟩, hs.trans ?_, hsb⟩
  · exact_mod_cast hce
  · exact_mod_cast hse

theorem epsRoot_nonneg (d q : ℕ) : 0 ≤ (buildTables d q).2.2 := (foldl_max_ge _ _ _ 0).1

end entries

end Akita.OpNorm
