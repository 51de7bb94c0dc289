import Akita.Spec.SparseStream

/-!
# The candidate pool is least

The Chernoff test holds upward from its larger root, so a step down and a step up from the rounded
root end at its least size. The union test is decided class by class of bit length, and within one
class it is a lower bound on the size.

* `chernoffTest_succ`: the Chernoff test is monotone.
* `search_isLeast`: where the two Chernoff loops end.
* `unionTest_iff`: the union test inside one class.
* `unionBound_spec`: the first class whose bound lands in it holds the least size.
* `poolLen_isLeast`: the pool is the least size that meets either test.
-/

namespace Akita.SparseStream

/-- `(B - W + 1) r >= 161 + (W - 1) bitlen(B)` for `r = failBits.1 / failBits.2`. -/
def UnionTest (w : ℕ) (failBits : ℕ × ℕ) (b : ℕ) : Prop :=
  (161 + ((w : ℤ) - 1) * b.size) * failBits.2 ≤ ((b : ℤ) - w + 1) * failBits.1

/-- `B u > W v` and `(B u - W v)^2 >= 224 B u v`. -/
def ChernoffTest (w : ℕ) (accept : ℕ × ℕ) (b : ℕ) : Prop := (w : ℤ) * accept.2 < b * accept.1 ∧
    224 * (b : ℤ) * accept.1 * accept.2 ≤ (b * accept.1 - w * accept.2) ^ 2

section

variable {w u v : ℕ} {b : ℕ}

theorem chernoff_eq_some {ok : Bool} (h : chernoff w u v b = some ok) : ok = true ↔ ChernoffTest w (u, v) b := by
  unfold chernoff at h
  simp only [option_some, checkedMul_eq_some] at h
  obtain ⟨bu, ⟨-, rfl⟩, wv, ⟨-, rfl⟩, h⟩ := h
  unfold ChernoffTest
  split at h
  · rename_i hle
    obtain rfl : false = ok := Option.some.inj h
    simp only [Bool.false_eq_true, false_iff, not_and]
    intro hlt
    omega
  · rename_i hlt
    simp only [Option.bind_eq_some_iff, checkedMul_eq_some] at h
    obtain ⟨square, ⟨-, rfl⟩, scaled, ⟨-, rfl⟩, scaledU, ⟨-, rfl⟩, bound, ⟨-, rfl⟩, h⟩ := h
    cases h
    have hlt' : (w : ℤ) * v < b * u := by exact_mod_cast not_le.1 hlt
    have hsq : (((b * u - w * v) * (b * u - w * v) : ℕ) : ℤ) = (b * u - w * v) ^ 2 := by
      rw [Nat.cast_mul, Nat.cast_sub (by omega)]; push_cast; ring
    rw [decide_eq_true_eq, ge_iff_le, ← Nat.cast_le (α := ℤ), hsq, and_iff_right hlt']
    simp [poolChernoffScale]

/-- **The Chernoff test is monotone**: once it holds, the gap exceeds `224 v`. -/
theorem chernoffTest_succ (h : ChernoffTest w (u, v) b) : ChernoffTest w (u, v) (b + 1) := by
  obtain ⟨hlt, hsq⟩ := h
  dsimp only at hlt hsq
  have hgap : 224 * (v : ℤ) ≤ b * u - w * v := by
    have hpos : (0 : ℤ) < b * u - w * v := by omega
    have hwv : (0 : ℤ) ≤ w * v * v := by positivity
    refine le_of_mul_le_mul_right ?_ hpos
    calc 224 * (v : ℤ) * (b * u - w * v) ≤ 224 * b * u * v := by linarith
      _ ≤ (b * u - w * v) * (b * u - w * v) := by rw [← sq]; exact hsq
  have hu : (0 : ℤ) ≤ u := Nat.cast_nonneg _
  have hcross : 0 ≤ (u : ℤ) * (b * u - w * v) := mul_nonneg hu (by omega)
  constructor
  · push_cast; linarith
  · push_cast; nlinarith [sq_nonneg (u : ℤ)]

theorem chernoffTest_mono {b' : ℕ} (h : ChernoffTest w (u, v) b) (hle : b ≤ b') : ChernoffTest w (u, v) b' :=
  Nat.le_induction h (fun _ _ => chernoffTest_succ) b' hle

theorem lt_of_chernoffTest (huv : u < v) (h : ChernoffTest w (u, v) b) : w < b := by
  by_contra hle
  have : b * u ≤ w * v := Nat.mul_le_mul (by omega) huv.le
  have hlt : w * v < b * u := by exact_mod_cast h.1
  omega

/-- `b` is not past the least size: it is `W`, or the size below it fails the test. -/
def Floor (w u v b : ℕ) : Prop := w ≤ b ∧ (b = w ∨ ¬ ChernoffTest w (u, v) (b - 1))

theorem stepDown_floor {start : ℕ} (hstart : w ≤ start) (h : stepDown w u v start = .ok b) : Floor w u v b := by
  induction start with
  | zero =>
    obtain rfl : 0 = b := Except.ok.inj h
    exact ⟨hstart, Or.inl (by omega)⟩
  | succ start ih =>
    rw [stepDown] at h
    split at h
    · obtain ⟨ok, hok, h⟩ := bind_eq_ok.1 h
      have htest := chernoff_eq_some (okOr_eq_ok.1 hok)
      split at h
      · exact ih (by omega) h
      · rename_i hfail
        cases h
        exact ⟨hstart, Or.inr (htest.not.1 hfail)⟩
    · cases h
      exact ⟨hstart, Or.inl (by omega)⟩

theorem stepUp_floor {room start : ℕ} (hstart : Floor w u v start) (h : stepUp w u v room start = .ok b) :
    Floor w u v b ∧ ChernoffTest w (u, v) b := by
  induction room generalizing start with
  | zero => cases h
  | succ room ih =>
    rw [stepUp] at h
    obtain ⟨ok, hok, h⟩ := bind_eq_ok.1 h
    have htest := chernoff_eq_some (okOr_eq_ok.1 hok)
    split at h
    · rename_i htrue
      cases h
      exact ⟨hstart, htest.1 htrue⟩
    · rename_i hfail
      have hnext : Floor w u v (start + 1) := ⟨hstart.1.trans (Nat.le_succ _), Or.inr (htest.not.1 hfail)⟩
      exact ih hnext h

/-- **Where the two Chernoff loops end.** -/
theorem search_isLeast (huv : u < v) (hfloor : Floor w u v b) (htest : ChernoffTest w (u, v) b) :
    IsLeast {b | ChernoffTest w (u, v) b} b := by
  refine ⟨htest, fun b' hb' => ?_⟩
  by_contra hlt
  rcases hfloor.2 with rfl | hbelow
  · exact absurd (lt_of_chernoffTest huv htest) (lt_irrefl _)
  · exact hbelow (chernoffTest_mono hb' (by omega))

end

section

/-- **The doubling loop ends by its own test**: the cap stops it before its fuel does. -/
theorem doubleUpTo_ok {least bits d doubled : ℕ} (hbits : 0 < bits) (hfuel : 2 ^ 34 ≤ d * 2 ^ bits)
    (h : doubleUpTo least bits d = .ok doubled) : least ≤ doubled ∧ (doubled = d ∨ doubled ≤ maxPoolCandidates) := by
  induction bits generalizing d with
  | zero => omega
  | succ bits ih =>
    rw [doubleUpTo] at h
    split at h
    · obtain ⟨next, hnext, h⟩ := bind_eq_ok.1 h
      obtain ⟨hmul, hcap⟩ := Option.filter_eq_some_iff.1 (okOr_eq_ok.1 hnext)
      obtain ⟨-, rfl⟩ := checkedMul_eq_some.1 hmul
      have hcap : d * 2 ≤ 2 ^ 32 := of_decide_eq_true hcap
      have hfuel' : 2 ^ 34 ≤ d * 2 * 2 ^ bits := by rwa [mul_assoc, ← pow_succ']
      have hpos : 0 < bits := by
        by_contra h0
        obtain rfl : bits = 0 := by omega
        omega
      obtain ⟨hle, hcase⟩ := ih hpos hfuel' h
      refine ⟨hle, Or.inr ?_⟩
      rcases hcase with rfl | hle
      · exact hcap
      · exact hle
    · cases h
      exact ⟨by omega, Or.inl rfl⟩

end

section

variable {w l rNum rDen : ℕ} {b : ℕ}

theorem size_eq_iff {len : ℕ} (hlen : 0 < len) : b.size = len ↔ 2 ^ (len - 1) ≤ b ∧ b ≤ 2 ^ len - 1 := by
  have hlow : 2 ^ (len - 1) ≤ b ↔ len - 1 < b.size := Nat.lt_size.symm
  have hhigh : b < 2 ^ len ↔ b.size ≤ len := Nat.size_le.symm
  have hpos : 0 < 2 ^ len := by positivity
  omega

def classTail (w rNum rDen len : ℕ) : ℕ := (((w - 1) * len + 161) * rDen + (rNum - 1)) / rNum

/-- **The union test inside one class** is a lower bound on the size. -/
theorem unionTest_iff (hw : 1 ≤ w) (hr : 0 < rNum) (hb : w ≤ b) :
    UnionTest w (rNum, rDen) b ↔ w - 1 + classTail w rNum rDen b.size ≤ b := by
  have htail : classTail w rNum rDen b.size ≤ b - (w - 1) ↔ ((w - 1) * b.size + 161) * rDen ≤ (b - (w - 1)) * rNum := by
    rw [classTail, Nat.div_le_iff_le_mul_add_pred hr, mul_comm rNum]
    omega
  have hcast : (((w - 1) * b.size + 161) * rDen ≤ (b - (w - 1)) * rNum) ↔ UnionTest w (rNum, rDen) b := by
    unfold UnionTest
    rw [← Nat.cast_le (α := ℤ)]
    push_cast [Nat.cast_sub hw, Nat.cast_sub (show w - 1 ≤ b by omega)]
    rw [add_comm _ (161 : ℤ), sub_sub_eq_add_sub, add_sub_right_comm]
  rw [← hcast, ← htail]
  omega

theorem le_of_unionTest (hw : 1 ≤ w) (hd : 0 < rDen) (h : UnionTest w (rNum, rDen) b) : w ≤ b := by
  unfold UnionTest at h
  dsimp only at h
  by_contra hlt
  have hneg : ((b : ℤ) - w + 1) * rNum ≤ 0 := mul_nonpos_of_nonpos_of_nonneg (by omega) (Nat.cast_nonneg _)
  have hsize : 0 ≤ ((w : ℤ) - 1) * b.size := mul_nonneg (by omega) (Nat.cast_nonneg _)
  have hpos : 0 < (161 + ((w : ℤ) - 1) * b.size) * rDen := mul_pos (by omega) (by exact_mod_cast hd)
  omega

/-- **The first class whose bound lands in it holds the least size.** -/
theorem unionBound_spec (hw : 1 ≤ w) {classes len pool : ℕ} (hlen : w.size ≤ len)
    (hclasses : len + classes = (l - 1).size + 1) (hwl : w < l)
    (hbelow : ∀ b, w ≤ b → b < l → b.size < len → ¬ UnionTest w (rNum, rDen) b)
    (h : unionBound w l rNum rDen classes len = .ok pool) :
    w ≤ pool ∧ pool ≤ l ∧ (pool < l → UnionTest w (rNum, rDen) pool) ∧
      ∀ b, w ≤ b → b < pool → ¬ UnionTest w (rNum, rDen) b := by
  induction classes generalizing len with
  | zero =>
    cases h
    refine ⟨hwl.le, le_rfl, fun hlt => absurd hlt (lt_irrefl _), fun b hb hlt => hbelow b hb hlt ?_⟩
    have : b.size ≤ (l - 1).size := Nat.size_le_size (by omega)
    omega
  | succ classes ih =>
    have hpos : 0 < len := (Nat.size_pos.2 hw).trans_le hlen
    rw [unionBound] at h
    simp only [result_ok, option_some, checked_some] at h
    obtain ⟨tail, ⟨product, ⟨-, rfl⟩, bits, ⟨-, rfl⟩, need, ⟨-, rfl⟩, pred, ⟨hr, rfl⟩, sum, ⟨-, rfl⟩, htail⟩,
      first, ⟨-, rfl⟩, h⟩ := h
    rw [if_neg (by omega)] at htail
    obtain rfl : classTail w rNum rDen len = tail := Option.some.inj htail
    have hclass : ∀ b, w ≤ b → b < l → b.size = len →
        (UnionTest w (rNum, rDen) b ↔ max (w - 1 + classTail w rNum rDen len) (max w (2 ^ (len - 1))) ≤ b) := by
      intro b hb hbl hsize
      have hrange := (size_eq_iff hpos).1 hsize
      rw [unionTest_iff hw hr hb, hsize]
      omega
    have hfirst : max w (2 ^ (len - 1)) ≤ max (w - 1 + classTail w rNum rDen len) (max w (2 ^ (len - 1))) :=
      le_max_right _ _
    generalize max (w - 1 + classTail w rNum rDen len) (max w (2 ^ (len - 1))) = first at *
    have hsize_lt : ∀ b, b ≤ 2 ^ len - 1 → b.size ≤ len := fun b hb =>
      Nat.size_le.mpr (by have : 0 < 2 ^ len := by positivity
                          omega)
    split at h
    · rename_i hle
      obtain rfl := Except.ok.inj h
      have hsize : first.size = len := (size_eq_iff hpos).2 ⟨by omega, by omega⟩
      refine ⟨by omega, by omega, fun hlt => (hclass first (by omega) hlt hsize).mpr le_rfl, fun b hb hlt htest => ?_⟩
      rcases lt_or_ge b.size len with hsmall | hbig
      · exact hbelow b hb (by omega) hsmall htest
      · have := (hclass b hb (by omega) (le_antisymm (hsize_lt b (by omega)) hbig)).mp htest
        omega
    · rename_i hgt
      refine ih (by omega) (by omega) (fun b hb hbl hsmall htest => ?_) h
      rcases lt_or_ge b.size len with hlt | hge
      · exact hbelow b hb hbl hlt htest
      · have hsize : b.size = len := by omega
        have hrange := (size_eq_iff hpos).mp hsize
        have := (hclass b hb hbl hsize).mp htest
        omega

end

/-- **The pool is the least size that meets either test.** Its Chernoff search ends at the least size of that
test, the doubling loop by its own test, and every class has a bit length of at most 32, so the unchecked
shifts stay inside a `u128`. -/
theorem poolLen_isLeast {w : ℕ} {rates : PoolRates} (hw : 1 ≤ w) (huv : rates.accept.1 < rates.accept.2)
    (hd : 0 < rates.failBits.2) {pool : ℕ} (h : poolLen w rates = .ok pool) :
    w ≤ pool ∧ IsLeast {b | UnionTest w rates.failBits b ∨ ChernoffTest w rates.accept b} pool ∧
      ∃ least doubled, IsLeast {b | ChernoffTest w rates.accept b} least ∧
        doubleUpTo least 129 (max w 1) = .ok doubled ∧ least ≤ doubled ∧ (least - 1).size ≤ 32 := by
  obtain ⟨⟨u, v⟩, ⟨rNum, rDen⟩⟩ := rates
  unfold poolLen at h
  simp only [bind_eq_ok] at h
  obtain ⟨root, -, low, hlow, least, hleast, doubled, hdoubled, h⟩ := h
  rw [if_neg (by omega)] at h
  obtain ⟨pool', hpool, h⟩ := bind_eq_ok.1 h
  obtain rfl : pool' = pool := by
    have := okOr_eq_ok.1 h
    split at this
    · exact Option.some.inj this
    · cases this
  obtain ⟨hfloor, htest⟩ := stepUp_floor (stepDown_floor (le_max_right _ _) hlow) hleast
  have hchernoff := search_isLeast huv hfloor htest
  have hlt := lt_of_chernoffTest huv htest
  have hpow : 2 ^ 34 ≤ max w 1 * 2 ^ 129 :=
    (show 2 ^ 34 ≤ 1 * 2 ^ 129 by norm_num).trans (Nat.mul_le_mul_right _ (le_max_right _ _))
  obtain ⟨hcover, hcap⟩ := doubleUpTo_ok (by norm_num) hpow hdoubled
  have hcap : least - 1 < 2 ^ 32 := by unfold maxPoolCandidates at hcap; omega
  have hsize : w.size ≤ (least - 1).size := Nat.size_le_size (by omega)
  have hbelow : ∀ b, w ≤ b → b < least → b.size < w.size → ¬ UnionTest w (rNum, rDen) b := fun b hb _ hlt =>
    absurd (Nat.size_le_size hb) (by omega)
  obtain ⟨hwp, hle, hunion, hmin⟩ := unionBound_spec hw le_rfl (by omega) hlt hbelow hpool
  refine ⟨hwp, ⟨?_, ?_⟩, least, doubled, hchernoff, hdoubled, hcover, Nat.size_le.2 hcap⟩
  · rcases hle.lt_or_eq with hlt | rfl
    · exact Or.inl (hunion hlt)
    · exact Or.inr htest
  · rintro b (hb | hb)
    · by_contra hlt
      exact hmin b (le_of_unionTest hw hd hb) (by omega) hb
    · exact hle.trans (hchernoff.2 hb)

/-- One challenge at an acceptance of one half takes a pool of 161. -/
theorem poolLen_isLeast_one : IsLeast {b | UnionTest 1 (1, 1) b ∨ ChernoffTest 1 (1, 2) b} 161 := by
  have hsqrt : Nat.sqrt 12768 = 112 := (Nat.eq_sqrt.2 (by norm_num)).symm
  have h : poolLen 1 ⟨(1, 2), (1, 1)⟩ = .ok 161 := by
    -- the square root is by well-founded recursion and does not evaluate
    decide +kernel
  exact (poolLen_isLeast (by decide) (by decide) (by decide) h).2.1

end Akita.SparseStream
