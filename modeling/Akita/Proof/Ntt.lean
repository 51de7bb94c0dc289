import Akita.Lib.Fourier
import Akita.Proof.NttTwiddles

/-!
# The transforms are correct and never overflow

An array represents the residues that its raw values stand for. A stage of butterflies is a stage of
the radix-two transform on what it represents, so the transforms are the radix-two transforms of the
coefficients, twisted by the powers of `psi` for the negacyclic ones.

* `stage_ok`: a stage of butterflies, in place.
* `forwardStages_ok`, `inverseStages_ok`: all the stages.
* `ntt_exact`: ranges, inverse and convolution.
-/

namespace Akita.Ntt

open Lib List RadixTwo

variable {W : PrimeWidth} {p : ℕ} [Fact p.Prime] {prime : NttPrime W} {a : List ℤ} {v w : ZMod p} {x y : ℤ}

/-- An array of raw values in `(-p, p)` that stand for `v`. -/
structure Represents (W : PrimeWidth) (p : ℕ) [Fact p.Prime] (n : ℕ) (a : List ℤ) (v : ℕ → ZMod p) : Prop where
  length_eq : a.length = n
  entry : ∀ i < n, Holds W p (a.getD i 0) (v i)

theorem Represents.congr {n : ℕ} {v v' : ℕ → ZMod p} (h : Represents W p n a v) (hv : ∀ i < n, v i = v' i) :
    Represents W p n a v' := ⟨h.length_eq, fun i hi => hv i hi ▸ h.entry i hi⟩

section

variable {len block i j : ℕ}

theorem butterfly_positions (hlen : 0 < len) (hdiv : i / (2 * len) = block) (hmod : i % len = j) :
    i = block * (2 * len) + j ∨ i = block * (2 * len) + j + len := by
  have hi := Nat.div_add_mod i (2 * len)
  have hlt := Nat.mod_lt i (show 0 < 2 * len by omega)
  have hfold : i % (2 * len) % len = j := by rw [Nat.mod_mul_left_mod, hmod]
  rw [hdiv] at hi
  rcases lt_or_ge (i % (2 * len)) len with hlow | hhigh
  · rw [Nat.mod_eq_of_lt hlow] at hfold
    exact Or.inl (by rw [← hfold, mul_comm block]; omega)
  · rw [Nat.mod_eq_sub_mod hhigh, Nat.mod_eq_of_lt (by omega)] at hfold
    exact Or.inr (by rw [← hfold, mul_comm block]; omega)

variable (block) in
theorem lower_position (hj : j < len) : (block * (2 * len) + j) / (2 * len) = block ∧ (block * (2 * len) + j) % len = j ∧
    (block * (2 * len) + j) / len % 2 = 0 := by
  have hlen : 0 < len := by omega
  refine ⟨?_, ?_, ?_⟩
  · rw [mul_comm block, Nat.mul_add_div (by omega), Nat.div_eq_of_lt (by omega), add_zero]
  · rw [show block * (2 * len) + j = len * (2 * block) + j by ring, Nat.mul_add_mod, Nat.mod_eq_of_lt hj]
  · rw [show block * (2 * len) + j = len * (2 * block) + j by ring, Nat.mul_add_div hlen, Nat.div_eq_of_lt hj, add_zero]
    omega

variable (block) in
theorem upper_position (hj : j < len) : (block * (2 * len) + j + len) / (2 * len) = block ∧
    (block * (2 * len) + j + len) % len = j ∧ (block * (2 * len) + j + len) / len % 2 ≠ 0 := by
  have hlen : 0 < len := by omega
  obtain ⟨-, hmod, hhalf⟩ := lower_position block hj
  refine ⟨?_, by rw [Nat.add_mod_right, hmod], ?_⟩
  · rw [mul_comm block, add_assoc, Nat.mul_add_div (by omega), Nat.div_eq_of_lt (by omega), add_zero]
  · rw [Nat.add_div_right _ hlen]
    omega

theorem packed_lt {k s : ℕ} (hs : s < k) (hj : j < 2 ^ s) : 2 ^ s - 1 + j < 2 ^ k := by
  have hle : 2 ^ (s + 1) ≤ 2 ^ k := Nat.pow_le_pow_right (by norm_num) hs
  rw [pow_succ] at hle
  omega

end

/-- **A stage in place**: butterflies that rewrite their two positions rewrite the array. -/
theorem stage_ok {n len : ℕ} {butterfly : Keep → ℕ → ℕ → List ℤ → ℕ → Result (List ℤ)} (hlen : 0 < len) (hn : 2 * len ∣ n)
    {old new : ℕ → ZMod p} (hbutterfly : ∀ block j a, j < len → block * (2 * len) + j + len < n → a.length = n →
      Holds W p (a.getD (block * (2 * len) + j) 0) (old (block * (2 * len) + j)) →
      Holds W p (a.getD (block * (2 * len) + j + len) 0) (old (block * (2 * len) + j + len)) →
      ∃ x y, Fits (fun keep => butterfly keep len (block * (2 * len)) a j)
          ((a.set (block * (2 * len) + j) x).set (block * (2 * len) + j + len) y) ∧
        Holds W p x (new (block * (2 * len) + j)) ∧ Holds W p y (new (block * (2 * len) + j + len))) (ha : Represents W p n a old) :
    ∃ b, Fits (fun keep => stage (butterfly keep) n len a) b ∧ Represents W p n b new := by
  obtain ⟨blocks, rfl⟩ := hn
  have hcount : (2 * len * blocks + 2 * len - 1) / (2 * len) = blocks := by
    rw [show 2 * len * blocks + 2 * len - 1 = 2 * len * blocks + (2 * len - 1) by omega, Nat.mul_add_div (by omega),
      Nat.div_eq_of_lt (by omega), add_zero]
  have hblock : ∀ i, i / (2 * len) < blocks ↔ i < 2 * len * blocks := fun i => by
    rw [Nat.div_lt_iff_lt_mul (by omega), mul_comm]
  have hroom : ∀ block < blocks, ∀ j < len, block * (2 * len) + j + len < 2 * len * blocks := by
    intro block hb j hj
    rw [← hblock, (upper_position block hj).1]
    exact hb
  obtain ⟨b, hrun, hb, hnew, -⟩ := @foldlM_in_place _ _ _ Keep.Sound
    (fun keep a block => (range len).foldlM (butterfly keep len (block * (2 * len))) a) _
    (fun a i v => Holds W p (a.getD i 0) v) (fun a => a.length = 2 * len * blocks) (fun i => i / (2 * len)) old new blocks (by
      intro block hb a ha hold
      obtain ⟨b, hrun, hb, hnew, hframe⟩ := @foldlM_in_place _ _ _ Keep.Sound (fun keep => butterfly keep len (block * (2 * len))) _
        (fun a i v => Holds W p (a.getD i 0) v) (fun a => a.length = 2 * len * blocks)
        (fun i => if i / (2 * len) = block then i % len else len) old new len (by
          intro j hj a ha hold
          have hlow := lower_position block hj
          have hup := upper_position block hj
          have hin := hroom block hb j hj
          obtain ⟨x, y, hrun, hx, hy⟩ := hbutterfly block j a hj hin ha
            (hold _ (by rw [if_pos hlow.1, hlow.2.1])) (hold _ (by rw [if_pos hup.1, hup.2.1]))
          refine ⟨_, hrun, by rw [length_set, length_set, ha], fun i hi => ?_, fun i hi v hv => ?_⟩
          · have hdiv : i / (2 * len) = block := by
              by_contra hne
              rw [if_neg hne] at hi
              omega
            rw [if_pos hdiv] at hi
            rcases butterfly_positions hlen hdiv hi with rfl | rfl
            · rw [getD_set_ne (by omega), getD_set_self (by omega)]
              exact hx
            · rw [getD_set_self (by rw [length_set]; omega)]
              exact hy
          · have hne : block * (2 * len) + j ≠ i := by
              rintro rfl
              exact hi (by rw [if_pos hlow.1, hlow.2.1])
            have hne' : block * (2 * len) + j + len ≠ i := by
              rintro rfl
              exact hi (by rw [if_pos hup.1, hup.2.1])
            rwa [getD_set_ne hne', getD_set_ne hne]) a ha (by
          intro i hi
          refine hold i ?_
          by_contra hne
          rw [if_neg hne] at hi
          omega)
      refine ⟨b, hrun, hb, fun i hi => hnew i ?_, fun i hi => hframe i ?_⟩
      · rw [if_pos hi]
        exact Nat.mod_lt i hlen
      · rw [if_neg hi]) a ha.length_eq (fun i hi => ha.entry i ((hblock i).1 hi))
  refine ⟨b, fun keep hkeep => ?_, hb, fun i hi => hnew i ((hblock i).2 hi)⟩
  unfold stage
  rw [hcount]
  exact hrun keep hkeep

theorem Holds.add_lt (hx : Holds W p x v) (hy : Holds W p y w) : |x + y| < 2 * p :=
  (abs_add_le x y).trans_lt (by linarith [hx.lt, hy.lt])

theorem Holds.sub_lt (hx : Holds W p x v) (hy : Holds W p y w) : |x - y| < 2 * p :=
  (abs_sub x y).trans_lt (by linarith [hx.lt, hy.lt])

section

variable {k : ℕ} {ψ : ZMod p} {tw : NttTwiddles} (h : PrimeOk prime) (hp : prime.p = p) (htw : TwiddlesOk W p k ψ tw) {s : ℕ}
  {v : ℕ → ZMod p}

include h hp htw

/-- **A stage of the forward transforms.** -/
theorem forwardStage_ok (hs : s < k) (ha : Represents W p (2 ^ k) a v) :
    ∃ b, Fits (fun keep => stage (forwardButterfly keep prime tw) (2 ^ k) (2 ^ s) a) b ∧
      Represents W p (2 ^ k) b (split (stageRoot k ψ s) (2 ^ s) v) := by
  refine stage_ok (by positivity) (by rw [← pow_succ']; exact pow_dvd_pow 2 hs) (fun block j a hj hin hlen hu hv => ?_) ha
  have htable := packed_lt hs hj
  have hlow := lower_position block hj
  have hup := upper_position block hj
  have hsum := hu.add_lt hv
  have hdiff := hu.sub_lt hv
  obtain ⟨x, hx, hxOk⟩ := reduce_holds h hp hsum
  obtain ⟨y, hy, hyOk⟩ := mul_ok h hp hdiff (htw.fwd s hs j hj)
  rw [montValue_add, hu.value, hv.value] at hxOk
  rw [montValue_sub, hu.value, hv.value] at hyOk
  refine ⟨x, y, fun keep hkeep => ?_, ?_, ?_⟩
  · change forwardButterfly keep prime tw _ _ _ _ = _
    unfold forwardButterfly
    rw [readAt_ok 0 (by rw [htw.fwd_length]; exact htable), ok_bind, readAt_ok 0 (by omega), ok_bind, readAt_ok 0 (by omega), ok_bind,
      h.width_keeps hkeep (by rwa [hp]), ok_bind, h.width_keeps hkeep (by rwa [hp]), ok_bind, hx.run hkeep, ok_bind,
      writeAt_ok (by omega), ok_bind, hy.run hkeep, ok_bind, writeAt_ok (by rw [length_set]; omega)]
  · rwa [split, if_pos hlow.2.2]
  · rwa [split, if_neg hup.2.2, Nat.add_sub_cancel, hup.2.1]

/-- **A stage of the inverse transforms.** -/
theorem inverseStage_ok (hs : s < k) (ha : Represents W p (2 ^ k) a v) :
    ∃ b, Fits (fun keep => stage (inverseButterfly keep prime tw) (2 ^ k) (2 ^ s) a) b ∧
      Represents W p (2 ^ k) b (RadixTwo.join (stageRoot k ψ⁻¹ s) (2 ^ s) v) := by
  refine stage_ok (by positivity) (by rw [← pow_succ']; exact pow_dvd_pow 2 hs) (fun block j a hj hin hlen hu hv => ?_) ha
  have htable := packed_lt hs hj
  have hlow := lower_position block hj
  have hup := upper_position block hj
  have htwice : |a.getD (block * (2 * 2 ^ s) + j + 2 ^ s) 0| < 2 * (p : ℤ) := by
    linarith [hv.lt, abs_nonneg (a.getD (block * (2 * 2 ^ s) + j + 2 ^ s) 0)]
  obtain ⟨t, ht, htOk⟩ := mul_ok h hp htwice (htw.inv s hs j hj)
  rw [hv.value] at htOk
  have hsum := hu.add_lt htOk
  have hdiff := hu.sub_lt htOk
  obtain ⟨x, hx, hxOk⟩ := reduce_holds h hp hsum
  obtain ⟨y, hy, hyOk⟩ := reduce_holds h hp hdiff
  rw [montValue_add, hu.value, htOk.value] at hxOk
  rw [montValue_sub, hu.value, htOk.value] at hyOk
  refine ⟨x, y, fun keep hkeep => ?_, ?_, ?_⟩
  · change inverseButterfly keep prime tw _ _ _ _ = _
    unfold inverseButterfly
    rw [readAt_ok 0 (by rw [htw.inv_length]; exact htable), ok_bind, readAt_ok 0 (by omega), ok_bind, readAt_ok 0 (by omega), ok_bind,
      ht.run hkeep, ok_bind, h.width_keeps hkeep (by rwa [hp]), ok_bind, h.width_keeps hkeep (by rwa [hp]), ok_bind, hx.run hkeep,
      ok_bind, writeAt_ok (by omega), ok_bind, hy.run hkeep, ok_bind, writeAt_ok (by rw [length_set]; omega)]
  · rwa [RadixTwo.join, if_pos hlow.2.2, hlow.2.1]
  · rwa [RadixTwo.join, if_neg hup.2.2, Nat.add_sub_cancel, hup.2.1]

/-- **All the stages of the forward transforms.** -/
theorem forwardStages_ok (hs : s ≤ k) : ∀ {a : List ℤ} {v : ℕ → ZMod p}, Represents W p (2 ^ k) a v →
    ∃ b, Fits (fun keep => forwardStages keep prime tw (2 ^ k) (2 ^ s / 2) a) b ∧
      Represents W p (2 ^ k) b (forward (stageRoot k ψ) s v) := by
  induction s with
  | zero =>
    intro a v ha
    refine ⟨a, fun keep _ => ?_, ha⟩
    change forwardStages keep prime tw _ _ _ = _
    rw [forwardStages]
    rfl
  | succ s ih =>
    intro a v ha
    obtain ⟨b, hb, hbOk⟩ := forwardStage_ok h hp htw (show s < k by omega) ha
    obtain ⟨c, hc, hcOk⟩ := ih (by omega) hbOk
    refine ⟨c, fun keep hkeep => ?_, hcOk⟩
    change forwardStages keep prime tw _ _ _ = _
    rw [forwardStages, pow_succ, Nat.mul_div_cancel _ (by norm_num), if_neg (by positivity), hb.run hkeep, ok_bind, hc.run hkeep]

/-- **The stages of the inverse transforms** from one on. -/
theorem inverseStages_ok (m : ℕ) : ∀ {s : ℕ} {a : List ℤ} {v : ℕ → ZMod p}, s + m = k →
    Represents W p (2 ^ k) a (inverse (stageRoot k ψ⁻¹) s v) →
    ∃ b, Fits (fun keep => inverseStages keep prime tw (2 ^ k) (2 ^ s) a) b ∧
      Represents W p (2 ^ k) b (inverse (stageRoot k ψ⁻¹) k v) := by
  induction m with
  | zero =>
    rintro s a v hsm ha
    rw [add_zero] at hsm
    subst hsm
    refine ⟨a, fun keep _ => ?_, ha⟩
    change inverseStages keep prime tw _ _ _ = _
    rw [inverseStages, if_neg (by simp)]
  | succ m ih =>
    rintro s a v hsm ha
    obtain ⟨b, hb, hbOk⟩ := inverseStage_ok h hp htw (show s < k by omega) ha
    obtain ⟨c, hc, hcOk⟩ := @ih (s + 1) b v (by omega) hbOk
    refine ⟨c, fun keep hkeep => ?_, hcOk⟩
    change inverseStages keep prime tw _ _ _ = _
    rw [inverseStages, if_pos ⟨Nat.pow_lt_pow_right (by norm_num) (by omega), by positivity⟩, hb.run hkeep, ok_bind, ← pow_succ']
    exact hc.run hkeep

end

section

variable (h : PrimeOk prime) (hp : prime.p = p) {n : ℕ} {b : List ℤ} {v w : ℕ → ZMod p}

theorem mapM_represents {α : Type} {f : Keep → α → Result ℤ} {l : List α} (d : α) (hlen : l.length = n)
    (hf : ∀ i < n, ∃ r, Fits (fun keep => f keep (l.getD i d)) r ∧ Holds W p r (v i)) :
    ∃ c, Fits (fun keep => l.mapM (f keep)) c ∧ Represents W p n c v := by
  subst hlen
  obtain ⟨c, hc, hcLen, hcOk⟩ := @mapM_runs_all _ _ _ _ Keep.Sound f (fun i r => Holds W p r (v i)) l d 0 hf
  exact ⟨c, hc, hcLen, hcOk⟩

include h hp

theorem mul_represents {c d : ℤ} {x y : ZMod p} (hc : Holds W p c x) (hd : Holds W p d y) :
    ∃ r, Fits (fun keep => prime.mul keep c d) r ∧ Holds W p r (x * y) := by
  obtain ⟨r, hr, hrOk⟩ := mul_ok h hp (show |c| < 2 * (p : ℤ) by linarith [hc.lt, abs_nonneg c]) hd
  exact ⟨r, hr, hc.value ▸ hrOk⟩

/-- **A pointwise Montgomery product.** -/
theorem pointwise_ok (ha : Represents W p n a v) (hb : Represents W p n b w) :
    ∃ c, Fits (fun keep => pointwiseMul keep prime a b) c ∧ Represents W p n c fun i => v i * w i := by
  have hlen : (a.zip b).length = n := by rw [length_zip, ha.length_eq, hb.length_eq, Nat.min_self]
  refine mapM_represents (0, 0) hlen fun i hi => ?_
  have hget : (a.zip b).getD i (0, 0) = (a.getD i 0, b.getD i 0) := by
    rw [getD_eq_getElem _ _ (by omega), getElem_zip, getD_eq_getElem _ _ (by rw [ha.length_eq]; exact hi),
      getD_eq_getElem _ _ (by rw [hb.length_eq]; exact hi)]
  rw [hget]
  exact mul_represents h hp (ha.entry i hi) (hb.entry i hi)

theorem reduceInPlace_ok (ha : Represents W p n a v) :
    ∃ c, Fits (fun keep => a.mapM (prime.reduceRange keep)) c ∧ Represents W p n c v := by
  refine mapM_represents 0 ha.length_eq fun i hi => ?_
  have hentry := ha.entry i hi
  obtain ⟨r, hr, hrOk⟩ := reduce_holds h hp (show |a.getD i 0| < 2 * (p : ℤ) by linarith [hentry.lt, abs_nonneg (a.getD i 0)])
  exact ⟨r, hr, hentry.value ▸ hrOk⟩

theorem scale_ok {d : ℤ} {x : ZMod p} (ha : Represents W p n a v) (hd : Holds W p d x) :
    ∃ c, Fits (fun keep => a.mapM fun c => prime.mul keep c d) c ∧ Represents W p n c fun i => v i * x :=
  mapM_represents 0 ha.length_eq fun i hi => mul_represents h hp (ha.entry i hi) hd

variable {k : ℕ} {ψ : ZMod p} {tw : NttTwiddles} (htw : TwiddlesOk W p k ψ tw)

include htw

section

variable (ha : Represents W p (2 ^ k) a v)

include ha

theorem forwardNttCyclic_ok : ∃ b, Fits (fun keep => forwardNttCyclic keep prime tw (2 ^ k) a) b ∧
      Represents W p (2 ^ k) b (forward (stageRoot k ψ) k v) := by
  obtain ⟨b, hb, hbOk⟩ := forwardStages_ok h hp htw le_rfl ha
  obtain ⟨c, hc, hcOk⟩ := reduceInPlace_ok h hp hbOk
  exact ⟨c, hb.bind hc, hcOk⟩

theorem forwardNtt_ok : ∃ b, Fits (fun keep => forwardNtt keep prime tw (2 ^ k) a) b ∧
      Represents W p (2 ^ k) b (forward (stageRoot k ψ) k fun i => v i * ψ ^ i) := by
  obtain ⟨twisted, htwisted, htwistedOk⟩ := pointwise_ok h hp ha ⟨htw.psi_length, htw.psi⟩
  obtain ⟨b, hb, hbOk⟩ := forwardNttCyclic_ok h hp htw htwistedOk
  exact ⟨b, htwisted.bind hb, hbOk⟩

theorem inverseNttCyclic_ok : ∃ b, Fits (fun keep => inverseNttCyclic keep prime tw (2 ^ k) a) b ∧
      Represents W p (2 ^ k) b fun i => inverse (stageRoot k ψ⁻¹) k v i * (2 ^ k)⁻¹ := by
  obtain ⟨b, hb, hbOk⟩ := inverseStages_ok h hp htw k (zero_add k) ha
  obtain ⟨c, hc, hcOk⟩ := scale_ok h hp hbOk htw.dInv
  exact ⟨c, hb.bind hc, hcOk⟩

theorem inverseNtt_ok : ∃ b, Fits (fun keep => inverseNtt keep prime tw (2 ^ k) a) b ∧
      Represents W p (2 ^ k) b fun i => inverse (stageRoot k ψ⁻¹) k v i * ((2 ^ k)⁻¹ * ψ⁻¹ ^ i) := by
  obtain ⟨b, hb, hbOk⟩ := inverseStages_ok h hp htw k (zero_add k) ha
  obtain ⟨c, hc, hcOk⟩ := pointwise_ok h hp hbOk ⟨htw.fused_length, htw.fused⟩
  exact ⟨c, hb.bind hc, hcOk⟩

end

end

/-- An array of raw values in `(-p, p)`. -/
def InRange (p n : ℕ) (a : List ℤ) : Prop := a.length = n ∧ ∀ i < n, |a.getD i 0| < p

/-- **A transform and its inverse**, on raw values: both stay in range, the inverse undoes the transform, and the inverse of a
pointwise Montgomery product is the convolution that wraps with `sign`. The radix on its left is what a Montgomery product drops. -/
structure TransformOk (W : PrimeWidth) (p n : ℕ) (sign : ℤ) (prime : NttPrime W) (forward inverse : Keep → List ℤ → Result (List ℤ)) :
    Prop where
  forward_ok : ∀ a, InRange p n a → ∃ b, Fits (fun keep => forward keep a) b ∧ InRange p n b
  inverse_ok : ∀ a, InRange p n a → ∃ b, Fits (fun keep => inverse keep a) b ∧ InRange p n b
  roundtrip : ∀ a, InRange p n a → ∃ b c, Fits (fun keep => forward keep a) b ∧ Fits (fun keep => inverse keep b) c ∧
    InRange p n c ∧ ∀ i < n, c.getD i 0 ≡ a.getD i 0 [ZMOD p]
  convolution : ∀ a b, InRange p n a → InRange p n b → ∃ a' b' c' c, Fits (fun keep => forward keep a) a' ∧
    Fits (fun keep => forward keep b) b' ∧ Fits (fun keep => pointwiseMul keep prime a' b') c' ∧
    Fits (fun keep => inverse keep c') c ∧ InRange p n c ∧
    ∀ i < n, 2 ^ W.rLog * c.getD i 0 ≡ wrapConv n sign (fun j => a.getD j 0) (fun j => b.getD j 0) i [ZMOD p]

section

variable {n : ℕ} {v : ℕ → ZMod p}

omit [Fact p.Prime] in
theorem InRange.represents [Fact p.Prime] (ha : InRange p n a) : Represents W p n a fun i => montValue W p (a.getD i 0) :=
  ⟨ha.1, fun i hi => ⟨ha.2 i hi, rfl⟩⟩

theorem Represents.inRange (ha : Represents W p n a v) : InRange p n a := ⟨ha.length_eq, fun i hi => (ha.entry i hi).lt⟩

theorem montValue_inj (h : PrimeOk prime) (hp : prime.p = p) (hxy : montValue W p x = montValue W p y) : x ≡ y [ZMOD p] := by
  exact (ZMod.intCast_eq_intCast_iff x y p).1 (mul_right_cancel₀ (inv_ne_zero (two_pow_ne_zero h hp W.rLog)) hxy)

/-- **A twisted transform and its inverse.** -/
theorem transform_ok {k : ℕ} (h : PrimeOk prime) (hp : prime.p = p) {ψ τ : ZMod p} {sign : ℤ} (hψ : ψ ^ 2 ^ k = -1)
    (hτ : τ ^ 2 ^ k = sign) (hτ0 : τ ≠ 0) {forward inverse : Keep → List ℤ → Result (List ℤ)}
    (hforward : ∀ {a v}, Represents W p (2 ^ k) a v → ∃ b, Fits (fun keep => forward keep a) b ∧
      Represents W p (2 ^ k) b (RadixTwo.forward (stageRoot k ψ) k fun i => v i * τ ^ i))
    (hinverse : ∀ {a v}, Represents W p (2 ^ k) a v → ∃ b, Fits (fun keep => inverse keep a) b ∧
      Represents W p (2 ^ k) b fun i => RadixTwo.inverse (stageRoot k ψ⁻¹) k v i * ((2 ^ k)⁻¹ * τ⁻¹ ^ i)) :
    TransformOk W p (2 ^ k) sign prime forward inverse := by
  have hD : (2 : ZMod p) ^ k ≠ 0 := two_pow_ne_zero h hp k
  have hψ0 := root_ne_zero hψ
  have hroots : ∀ s < k, stageRoot k ψ s ^ 2 ^ s = -1 := by
    intro s hs
    rw [stageRoot, ← pow_mul, ← pow_add, Nat.sub_add_cancel hs.le, hψ]
  have hinv : ∀ s < k, stageRoot k ψ s * stageRoot k ψ⁻¹ s = 1 := by
    intro s _
    rw [stageRoot, stageRoot, ← mul_pow, mul_inv_cancel₀ hψ0, one_pow]
  -- the inverse of a transform
  have hundo : ∀ v : ℕ → ZMod p, ∀ i,
      RadixTwo.inverse (stageRoot k ψ⁻¹) k (RadixTwo.forward (stageRoot k ψ) k fun i => v i * τ ^ i) i * ((2 ^ k)⁻¹ * τ⁻¹ ^ i) = v i := by
    intro v i
    rw [RadixTwo.inverse_forward hinv]
    have hone : τ ^ i * τ⁻¹ ^ i = 1 := by rw [← mul_pow, mul_inv_cancel₀ hτ0, one_pow]
    field_simp
    linear_combination v i * hone
  refine ⟨fun a ha => ?_, fun a ha => ?_, fun a ha => ?_, fun a b ha hb => ?_⟩
  · obtain ⟨b, hb, hbOk⟩ := hforward ha.represents
    exact ⟨b, hb, hbOk.inRange⟩
  · obtain ⟨b, hb, hbOk⟩ := hinverse ha.represents
    exact ⟨b, hb, hbOk.inRange⟩
  · obtain ⟨b, hb, hbOk⟩ := hforward ha.represents
    obtain ⟨c, hc, hcOk⟩ := hinverse hbOk
    refine ⟨b, c, hb, hc, hcOk.inRange, fun i hi => montValue_inj h hp ?_⟩
    rw [(hcOk.entry i hi).value, hundo]
  · obtain ⟨a', ha', haOk⟩ := hforward ha.represents
    obtain ⟨b', hb', hbOk⟩ := hforward hb.represents
    obtain ⟨c', hc', hcOk'⟩ := pointwise_ok h hp haOk hbOk
    obtain ⟨c, hc, hcOk⟩ := hinverse (hcOk'.congr fun i hi => RadixTwo.forward_mul hroots τ _ _ hi)
    refine ⟨a', b', c', c, ha', hb', hc', hc, hcOk.inRange, fun i hi => ?_⟩
    have hvalue := (hcOk.entry i hi).value
    rw [hundo, hτ] at hvalue
    refine (ZMod.intCast_eq_intCast_iff _ _ p).1 ?_
    have hR := two_pow_ne_zero h hp W.rLog
    unfold montValue at hvalue
    rw [RadixTwo.wrapConv_mul, ← RadixTwo.intCast_wrapConv, ← mul_assoc] at hvalue
    have hvalue := mul_right_cancel₀ (inv_ne_zero hR) hvalue
    push_cast
    rw [hvalue]
    field_simp

end

/-- **The scalar transforms are exact and never overflow**, negacyclic and cyclic, with the computed constants and tables. -/
theorem ntt_exact (W : PrimeWidth) {p D : ℕ} (hprime : p.Prime) (hodd : p % 2 = 1) (hlt : p < 2 ^ (W.rLog - 2))
    (hD : D.isPowerOfTwo) (hdvd : 2 * D ∣ p - 1) :
    ∃ tw, Fits (fun keep => NttTwiddles.compute keep (NttPrime.compute W p) D) tw ∧
      TransformOk W p D (-1) (NttPrime.compute W p) (fun keep => forwardNtt keep (NttPrime.compute W p) tw D)
        (fun keep => inverseNtt keep (NttPrime.compute W p) tw D) ∧
      TransformOk W p D 1 (NttPrime.compute W p) (fun keep => forwardNttCyclic keep (NttPrime.compute W p) tw D)
        (fun keep => inverseNttCyclic keep (NttPrime.compute W p) tw D) := by
  have : Fact p.Prime := ⟨hprime⟩
  obtain ⟨k, rfl⟩ := hD
  have h : PrimeOk (NttPrime.compute W p) := compute_ok ⟨by exact_mod_cast hprime.one_lt, by exact_mod_cast hlt, by omega⟩
  have hp : (NttPrime.compute W (p : ℤ)).p = p := rfl
  obtain ⟨tw, ψ, hcompute, htw⟩ := compute_twiddles h hp hdvd
  have hψ0 := root_ne_zero htw.root
  refine ⟨tw, hcompute, ?_, ?_⟩
  · exact transform_ok h hp htw.root (by rw [htw.root]; norm_num) hψ0 (fun ha => forwardNtt_ok h hp htw ha)
      (fun ha => inverseNtt_ok h hp htw ha)
  · refine transform_ok h hp htw.root (show (1 : ZMod p) ^ 2 ^ k = ((1 : ℤ) : ZMod p) by norm_num) one_ne_zero (fun ha => ?_) fun ha => ?_
    · obtain ⟨b, hb, hbOk⟩ := forwardNttCyclic_ok h hp htw ha
      refine ⟨b, hb, ?_⟩
      simpa only [one_pow, mul_one] using hbOk
    · obtain ⟨b, hb, hbOk⟩ := inverseNttCyclic_ok h hp htw ha
      refine ⟨b, hb, ?_⟩
      simpa only [inv_one, one_pow, mul_one] using hbOk

/-- The prime 257 at degree eight. -/
theorem ntt_exact_eight : ∃ tw, Fits (fun keep => NttTwiddles.compute keep (NttPrime.compute .i16 257) 8) tw ∧
    TransformOk .i16 257 8 (-1) (NttPrime.compute .i16 257) (fun keep => forwardNtt keep (NttPrime.compute .i16 257) tw 8)
      (fun keep => inverseNtt keep (NttPrime.compute .i16 257) tw 8) ∧
    TransformOk .i16 257 8 1 (NttPrime.compute .i16 257) (fun keep => forwardNttCyclic keep (NttPrime.compute .i16 257) tw 8)
      (fun keep => inverseNttCyclic keep (NttPrime.compute .i16 257) tw 8) :=
  ntt_exact .i16 (by norm_num) (by norm_num) (by decide) ⟨3, rfl⟩ (by decide)

end Akita.Ntt
