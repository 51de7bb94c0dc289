import Akita.Proof.NttPrime

/-!
# The twiddle tables

The search finds a primitive `2D`-th root `psi`, and every table entry is the Montgomery form of
its power.

* `powMod_ok`: square and multiply.
* `findPrimitiveRoot2d_ok`: the root exists and is found.
* `compute_twiddles`: the tables.
-/

namespace Akita.Ntt

open Lib List NttTwiddles

variable {W : PrimeWidth} {p : ℕ} {prime : NttPrime W} {v : ZMod p} {d : ℕ}

structure Residue (p : ℕ) (x : ℤ) (v : ZMod p) : Prop where
  nonneg : 0 ≤ x
  lt : x < p
  value : (x : ZMod p) = v

theorem Residue.unique {x y : ℤ} (hx : Residue p x v) (hy : Residue p y v) : x = y := by
  have hcongr := (ZMod.intCast_eq_intCast_iff x y p).1 (hx.value.trans hy.value.symm)
  rwa [Int.ModEq, Int.emod_eq_of_lt hx.nonneg hx.lt, Int.emod_eq_of_lt hy.nonneg hy.lt] at hcongr

theorem Residue.abs_lt {x : ℤ} (h : Residue p x v) : |x| < p := by
  rw [abs_of_nonneg h.nonneg]
  exact h.lt

theorem Residue.mul {x y : ℤ} {w : ZMod p} (hx : Residue p x v) (hy : Residue p y w) (hp : (p : ℤ) < 2 ^ 30) :
    i64 (x * y) = .ok (x * y) ∧ Residue p ((x * y).tmod p) (v * w) := by
  have hpos : (0 : ℤ) < p := hx.nonneg.trans_lt hx.lt
  have hnonneg := mul_nonneg hx.nonneg hy.nonneg
  have hlt : x * y < 2 ^ 30 * 2 ^ 30 := mul_lt_mul'' (hx.lt.trans hp) (hy.lt.trans hp) hx.nonneg hy.nonneg
  refine ⟨i64_ok (by rw [abs_of_nonneg hnonneg]; linarith), ?_⟩
  rw [Int.tmod_eq_emod_of_nonneg hnonneg]
  refine ⟨Int.emod_nonneg _ hpos.ne', Int.emod_lt_of_pos _ hpos, ?_⟩
  rw [ZMod.intCast_mod, Int.cast_mul, hx.value, hy.value]

theorem powLoop_ok {mul : ℤ → ℤ → Result ℤ}
    (hmul : ∀ {x y : ℤ} {v w : ZMod p}, Residue p x v → Residue p y w → ∃ r, mul x y = .ok r ∧ Residue p r (v * w)) (exp : ℕ) :
    ∀ {result base : ℤ} {v w : ZMod p}, Residue p result v → Residue p base w →
      ∃ r, powLoop mul result base exp = .ok r ∧ Residue p r (v * w ^ exp) := by
  induction exp using Nat.strong_induction_on with
  | _ exp ih =>
    intro result base v w hresult hbase
    rw [powLoop]
    rcases Nat.eq_zero_or_pos exp with rfl | hpos
    · exact ⟨result, rfl, by rwa [pow_zero, mul_one]⟩
    rw [if_neg hpos.ne']
    obtain ⟨square, hsquare, hsquareOk⟩ := hmul hbase hbase
    have hhalf : w ^ exp = (w * w) ^ (exp / 2) * w ^ (exp % 2) := by
      rw [← pow_two, ← pow_mul, ← pow_add, Nat.div_add_mod]
    rcases Nat.mod_two_eq_zero_or_one exp with hbit | hbit
    · obtain ⟨r, hr, hrOk⟩ := ih (exp / 2) (by omega) hresult hsquareOk
      refine ⟨r, ?_, ?_⟩
      · rw [if_neg (by omega), ok_bind, hsquare]
        exact hr
      · rwa [hhalf, hbit, pow_zero, mul_one]
    · obtain ⟨next, hnext, hnextOk⟩ := hmul hresult hbase
      obtain ⟨r, hr, hrOk⟩ := ih (exp / 2) (by omega) hnextOk hsquareOk
      refine ⟨r, ?_, ?_⟩
      · rw [if_pos hbit, hnext, ok_bind, hsquare]
        exact hr
      · rwa [hhalf, hbit, pow_one, mul_comm ((w * w) ^ (exp / 2)), ← mul_assoc]

variable [Fact p.Prime]

/-- **Square and multiply.** -/
theorem powMod_ok (hp : (p : ℤ) < 2 ^ 30) {base : ℤ} (hbase : 0 ≤ base) (exp : ℤ) :
    ∃ r, powMod base exp p = .ok r ∧ Residue p r ((base : ZMod p) ^ exp.toNat) := by
  have hone : (1 : ℤ) < p := by exact_mod_cast (Fact.out : p.Prime).one_lt
  have hbaseOk : Residue p (base.tmod p) (base : ZMod p) := by
    rw [Int.tmod_eq_emod_of_nonneg hbase]
    exact ⟨Int.emod_nonneg _ (by omega), Int.emod_lt_of_pos _ (by omega), ZMod.intCast_mod base p⟩
  obtain ⟨r, hr, hrOk⟩ := @powLoop_ok p (fun lhs rhs => do return (← i64 (lhs * rhs)).tmod p) (by
      intro x y v w hx hy
      obtain ⟨hrun, hres⟩ := hx.mul hy hp
      exact ⟨_, by rw [hrun]; rfl, hres⟩) exp.toNat 1 (base.tmod p) 1 base ⟨by norm_num, hone, by norm_num⟩ hbaseOk
  refine ⟨r, ?_, by rwa [one_mul] at hrOk⟩
  unfold powMod
  rw [if_pos (by linarith)]
  exact hr

theorem searchRoot_ok (hp : (p : ℤ) < 2 ^ 30) {half exp : ℤ} (hexp : exp.toNat * d = half.toNat) {candidates : List ℕ}
    (h : ∃ a ∈ candidates, (a : ZMod p) ^ half.toNat = -1) :
    ∃ psi v, searchRoot p half exp d candidates = .ok psi ∧ Residue p psi v ∧ v ^ d = -1 := by
  have hone : (1 : ℤ) < p := by exact_mod_cast (Fact.out : p.Prime).one_lt
  have hneg : Residue p ((p : ℤ) - 1) (-1) := ⟨by omega, by omega, by push_cast; simp⟩
  induction candidates with
  | nil => simp at h
  | cons a candidates ih =>
    obtain ⟨symbol, hsymbol, hsymbolOk⟩ := powMod_ok hp (Int.natCast_nonneg a) half
    rw [searchRoot, hsymbol, ok_bind]
    by_cases hroot : symbol = p - 1
    · obtain ⟨psi, hpsi, hpsiOk⟩ := powMod_ok hp (Int.natCast_nonneg a) exp
      obtain ⟨check, hcheck, hcheckOk⟩ := powMod_ok hp hpsiOk.nonneg d
      have hpow : (psi : ZMod p) ^ d = -1 := by
        rw [hpsiOk.value, ← pow_mul, hexp, ← hsymbolOk.value, hroot]
        exact hneg.value
      have hcheckEq : check = p - 1 := by
        rw [Int.toNat_natCast, hpow] at hcheckOk
        exact hcheckOk.unique hneg
      refine ⟨psi, _, ?_, hpsiOk, hpsiOk.value ▸ hpow⟩
      rw [if_pos hroot, hpsi, ok_bind, hcheck, ok_bind, ensure, if_pos hcheckEq]
      rfl
    · rw [if_neg hroot]
      obtain ⟨b, hb, hvalue⟩ := h
      rcases mem_cons.1 hb with rfl | hb
      · rw [Int.cast_natCast, hvalue] at hsymbolOk
        exact absurd (hsymbolOk.unique hneg) hroot
      · exact ih ⟨b, hb, hvalue⟩

/-- **A primitive `2D`-th root is found.** -/
theorem findPrimitiveRoot2d_ok (hp : (p : ℤ) < 2 ^ 30) (hodd : (p : ℤ) % 2 = 1) (hd : 2 * d ∣ p - 1) :
    ∃ psi v, findPrimitiveRoot2d p d = .ok psi ∧ Residue p psi v ∧ v ^ d = -1 := by
  have hprime : p.Prime := Fact.out
  have hone := hprime.one_lt
  obtain ⟨a, ha⟩ := FiniteField.exists_nonsquare (F := ZMod p) (by rw [ZMod.ringChar_zmod_n]; omega)
  have hane : a ≠ 0 := by
    rintro rfl
    exact ha (IsSquare.zero)
  have hpow : a ^ (p / 2) = -1 := by
    rcases ZMod.pow_div_two_eq_neg_one_or_one p hane with hpos | hneg
    · exact absurd ((ZMod.euler_criterion p hane).2 hpos) ha
    · exact hneg
  obtain ⟨m, hm⟩ := hd
  rcases Nat.eq_zero_or_pos d with rfl | hdpos
  · omega
  have hhalf : (((p : ℤ) - 1) / 2).toNat = p / 2 := by omega
  have hexp : ((p : ℤ) - 1) / (2 * d) = m := by
    rw [show (p : ℤ) - 1 = 2 * d * m by exact_mod_cast (show (p : ℤ) - 1 = ((p - 1 : ℕ) : ℤ) by omega).trans (by rw [hm])]
    exact Int.mul_ediv_cancel_left _ (by positivity)
  refine searchRoot_ok hp ?_ ⟨a.val, ?_, ?_⟩
  · rw [hhalf, hexp, Int.toNat_natCast, mul_comm]
    have : p - 1 = 2 * (d * m) := by rw [hm]; ring
    omega
  · have hlt := ZMod.val_lt a
    have hval : a.val ≠ 0 := fun h0 => hane ((ZMod.val_eq_zero a).1 h0)
    have hval' : a.val ≠ 1 := fun h1 => ha (by
      rw [(ZMod.val_eq_one hone a).1 h1]
      exact IsSquare.one)
    rw [mem_range'_1]
    omega
  · rw [hhalf, ZMod.natCast_zmod_val, hpow]

theorem root_ne_zero {k : ℕ} {ψ : ZMod p} (hroot : ψ ^ 2 ^ k = -1) : ψ ≠ 0 :=
  ne_zero_pow (Nat.two_pow_pos k).ne' (hroot ▸ neg_ne_zero.2 one_ne_zero)

section tables

variable (h : PrimeOk prime) (hp : prime.p = p) {x : ℤ} {ψ ψ' : ZMod p} {k : ℕ}

include h hp

omit [Fact p.Prime] in
theorem prime_lt_thirty : (p : ℤ) < 2 ^ 30 := hp ▸ h.modulus.lt_thirty

theorem enter_ok (hx : Residue p x v) : ∃ r, Fits (fun keep => prime.fromCanonical keep (W.fromI64 x)) r ∧ Holds W p r v := by
  have hlt := hx.abs_lt
  rw [h.modulus.fromI64_eq (by rwa [hp]), ← hx.value]
  exact fromCanonical_ok h hp hlt

theorem psiLoop_ok {psi psiInv : ℤ} (hpsi : Residue p psi ψ) (hpsiInv : Residue p psiInv ψ') (n : ℕ) :
    ∀ {cur curInv : ℤ} {v v' : ZMod p}, Residue p cur v → Residue p curInv v' →
      ∃ pows, Fits (fun keep => psiLoop keep prime psi psiInv n cur curInv) pows ∧ pows.1.length = n ∧
        pows.2.length = n ∧ ∀ i < n, Holds W p (pows.1.getD i 0) (v * ψ ^ i) ∧ Holds W p (pows.2.getD i 0) (v' * ψ' ^ i) := by
  have hlt := prime_lt_thirty h hp
  induction n with
  | zero => exact fun _ _ => ⟨([], []), fun _ _ => rfl, rfl, rfl, fun i hi => absurd hi (Nat.not_lt_zero i)⟩
  | succ n ih =>
    intro cur curInv v v' hcur hcurInv
    obtain ⟨psiPow, hpsiPow, hpsiPowOk⟩ := enter_ok h hp hcur
    obtain ⟨psiInvPow, hpsiInvPow, hpsiInvPowOk⟩ := enter_ok h hp hcurInv
    obtain ⟨hnext, hnextOk⟩ := hcur.mul hpsi hlt
    obtain ⟨hnextInv, hnextInvOk⟩ := hcurInv.mul hpsiInv hlt
    obtain ⟨rest, hrest, hlen, hlenInv, hall⟩ := ih hnextOk hnextInvOk
    refine ⟨(psiPow :: rest.1, psiInvPow :: rest.2), fun keep hkeep => ?_, by simp [hlen], by simp [hlenInv], ?_⟩
    · change psiLoop keep prime psi psiInv (n + 1) cur curInv = _
      rw [psiLoop, hpsiPow.run hkeep, ok_bind, hpsiInvPow.run hkeep, ok_bind, hnext, ok_bind, hnextInv, ok_bind, hp,
        hrest.run hkeep]
      rfl
    · rintro (_ | i) hi
      · rw [pow_zero, pow_zero, mul_one, mul_one]
        exact ⟨hpsiPowOk, hpsiInvPowOk⟩
      · rw [getD_cons_succ, getD_cons_succ, pow_succ', pow_succ', ← mul_assoc, ← mul_assoc]
        exact hall i (by omega)

/-- The root of a stage of half-length `2^s`. -/
def stageRoot (k : ℕ) (ψ : ZMod p) (s : ℕ) : ZMod p := ψ ^ 2 ^ (k - s)

/-- The stage roots fill both tables. -/
theorem wlenLoop_ok {psi psi' : ZMod p} {omega omegaInv : ℤ} (homega : Residue p omega (psi ^ 2))
    (homegaInv : Residue p omegaInv (psi' ^ 2)) (m : ℕ) :
    ∀ {s : ℕ} {fwd inv : List ℤ}, s + m = k → fwd.length = 2 ^ k → inv.length = 2 ^ k →
      (∀ i < s, Holds W p (fwd.getD i 0) (stageRoot k psi i) ∧ Holds W p (inv.getD i 0) (stageRoot k psi' i)) →
      ∃ fwdWlen invWlen, Fits (fun keep => wlenLoop keep prime (2 ^ k) omega omegaInv (2 ^ s) s fwd inv)
          (fwdWlen, invWlen, k) ∧ fwdWlen.length = 2 ^ k ∧ invWlen.length = 2 ^ k ∧
        ∀ i < k, Holds W p (fwdWlen.getD i 0) (stageRoot k psi i) ∧ Holds W p (invWlen.getD i 0) (stageRoot k psi' i) := by
  have hlt := prime_lt_thirty h hp
  induction m with
  | zero =>
    rintro s fwd inv rfl hfwd hinv hroots
    refine ⟨fwd, inv, fun keep _ => ?_, hfwd, hinv, hroots⟩
    change wlenLoop keep prime _ _ _ _ _ _ _ = _
    rw [wlenLoop, if_neg (by simp), add_zero]
  | succ m ih =>
    rintro s fwd inv rfl hfwd hinv hroots
    have hdiv : 2 ^ (s + (m + 1)) / (2 * 2 ^ s) = 2 ^ m := by
      rw [← pow_succ', Nat.pow_div (by omega) (by norm_num)]
      congr 1
      omega
    have hroot : ∀ v : ZMod p, (v ^ 2) ^ 2 ^ m = stageRoot (s + (m + 1)) v s := by
      intro v
      rw [stageRoot, ← pow_mul, ← pow_succ']
      congr 2
      omega
    have hstage : s < 2 ^ (s + (m + 1)) := (Nat.lt_two_pow_self).trans_le (Nat.pow_le_pow_right (by norm_num) (by omega))
    obtain ⟨root, hpow, hpowOk⟩ := powMod_ok hlt homega.nonneg ((2 ^ m : ℕ) : ℤ)
    obtain ⟨rootInv, hpowInv, hpowInvOk⟩ := powMod_ok hlt homegaInv.nonneg ((2 ^ m : ℕ) : ℤ)
    rw [Int.toNat_natCast, homega.value, hroot] at hpowOk
    rw [Int.toNat_natCast, homegaInv.value, hroot] at hpowInvOk
    obtain ⟨r, hr, hrOk⟩ := enter_ok h hp hpowOk
    obtain ⟨r', hr', hrOk'⟩ := enter_ok h hp hpowInvOk
    obtain ⟨fwdWlen, invWlen, hrun, hlen, hlenInv, hall⟩ := @ih (s + 1) (fwd.set s r) (inv.set s r') (by omega)
      (by rw [length_set, hfwd]) (by rw [length_set, hinv]) (by
        intro i hi
        rcases eq_or_ne s i with rfl | hne
        · rw [getD_set_self (by omega), getD_set_self (by omega)]
          exact ⟨hrOk, hrOk'⟩
        · rw [getD_set_ne hne, getD_set_ne hne]
          exact hroots i (by omega))
    refine ⟨fwdWlen, invWlen, fun keep hkeep => ?_, hlen, hlenInv, hall⟩
    change wlenLoop keep prime _ _ _ _ _ _ _ = _
    rw [wlenLoop, if_pos ⟨Nat.pow_lt_pow_right (by norm_num) (by omega), by positivity⟩]
    dsimp only
    rw [hdiv, hp, hpow, ok_bind, hr.run hkeep, ok_bind, writeAt_ok (by omega), ok_bind, hpowInv, ok_bind, hr'.run hkeep, ok_bind,
      writeAt_ok (by omega), ok_bind, ← pow_succ']
    exact hrun.run hkeep

def packedEntry (k : ℕ) (ψ : ZMod p) (i : ℕ) : ZMod p := stageRoot k ψ (Nat.log 2 (i + 1)) ^ (i + 1 - 2 ^ Nat.log 2 (i + 1))

omit h hp in
theorem packedEntry_stage (k : ℕ) (ψ : ZMod p) {s j : ℕ} (hj : j < 2 ^ s) : packedEntry k ψ (2 ^ s - 1 + j) = stageRoot k ψ s ^ j := by
  have hlog : Nat.log 2 (2 ^ s - 1 + j + 1) = s :=
    (Nat.log_eq_iff (Or.inr ⟨by norm_num, by omega⟩)).2 ⟨by omega, by rw [pow_succ]; omega⟩
  rw [packedEntry, hlog]
  congr 1
  omega

structure Packed (k : ℕ) (ψ ψ' : ZMod p) (tables : List ℤ × List ℤ) (below : ℕ) : Prop where
  fwd_length : tables.1.length = 2 ^ k
  inv_length : tables.2.length = 2 ^ k
  fwd : ∀ i < below, Holds W p (tables.1.getD i 0) (packedEntry k ψ i)
  inv : ∀ i < below, Holds W p (tables.2.getD i 0) (packedEntry k ψ' i)

/-- **One stage of packed twiddles.** -/
theorem packStage_ok {fwdWlen invWlen : List ℤ} {one : ℤ} (hone : Holds W p one 1) {s : ℕ} (hs : s < k)
    (hlen : fwdWlen.length = 2 ^ k) (hlenInv : invWlen.length = 2 ^ k) (hroot : Holds W p (fwdWlen.getD s 0) (stageRoot k ψ s))
    (hrootInv : Holds W p (invWlen.getD s 0) (stageRoot k ψ' s)) {tables : List ℤ × List ℤ}
    (htables : Packed (W := W) k ψ ψ' tables (2 ^ s - 1)) :
    ∃ out, Fits (fun keep => packStage keep prime fwdWlen invWlen one tables s) out ∧
      Packed (W := W) k ψ ψ' out (2 ^ (s + 1) - 1) := by
  have hroom : ∀ j < 2 ^ s, 2 ^ s - 1 + j < 2 ^ k := by
    intro j hj
    have : 2 ^ (s + 1) ≤ 2 ^ k := Nat.pow_le_pow_right (by norm_num) (by omega)
    rw [pow_succ] at this
    omega
  have hstage : s < 2 ^ k := hs.trans (Nat.lt_two_pow_self)
  obtain ⟨last, hrun, hlast, -, -⟩ := @foldlM_range_runs_all _ _ _ Keep.Sound (fun keep (st : NttTwiddles.Packing) j => do
      let fwd ← writeAt st.fwd (2 ^ s - 1 + j) st.wFwd
      let inv ← writeAt st.inv (2 ^ s - 1 + j) st.wInv
      let wFwd ← prime.mul keep st.wFwd (← readAt fwdWlen s)
      let wInv ← prime.mul keep st.wInv (← readAt invWlen s)
      return { fwd, inv, wFwd, wInv : NttTwiddles.Packing })
    (fun j st => Packed (W := W) k ψ ψ' (st.fwd, st.inv) (2 ^ s - 1 + j) ∧ Holds W p st.wFwd (stageRoot k ψ s ^ j) ∧
      Holds W p st.wInv (stageRoot k ψ' s ^ j)) (2 ^ s) (by
      rintro j hj st ⟨hpacked, hw, hw'⟩
      have hfwd := hpacked.fwd_length
      have hinv := hpacked.inv_length
      dsimp only at hfwd hinv
      have hin := hroom j hj
      obtain ⟨next, hnext, hnextOk⟩ := mul_ok h hp (show |st.wFwd| < 2 * (p : ℤ) by linarith [hw.lt]) hroot
      obtain ⟨next', hnext', hnextOk'⟩ := mul_ok h hp (show |st.wInv| < 2 * (p : ℤ) by linarith [hw'.lt]) hrootInv
      rw [hw.value, ← pow_succ] at hnextOk
      rw [hw'.value, ← pow_succ] at hnextOk'
      refine ⟨⟨st.fwd.set (2 ^ s - 1 + j) st.wFwd, st.inv.set (2 ^ s - 1 + j) st.wInv, next, next'⟩, fun keep hkeep => ?_,
        ⟨by rw [length_set, hfwd], by rw [length_set, hinv], fun i hi => ?_, fun i hi => ?_⟩, hnextOk, hnextOk'⟩
      · rw [writeAt_ok (by omega), ok_bind, writeAt_ok (by omega), ok_bind, readAt_ok 0 (by omega), ok_bind, hnext.run hkeep, ok_bind,
          readAt_ok 0 (by omega), ok_bind, hnext'.run hkeep]
        rfl
      · rcases eq_or_ne (2 ^ s - 1 + j) i with rfl | hne
        · rw [getD_set_self (by omega), packedEntry_stage k ψ hj]
          exact hw
        · rw [getD_set_ne hne]
          exact hpacked.fwd i (by omega)
      · rcases eq_or_ne (2 ^ s - 1 + j) i with rfl | hne
        · rw [getD_set_self (by omega), packedEntry_stage k ψ' hj]
          exact hw'
        · rw [getD_set_ne hne]
          exact hpacked.inv i (by omega)) ⟨tables.1, tables.2, one, one⟩
    ⟨htables, by rwa [pow_zero], by rwa [pow_zero]⟩
  refine ⟨(last.fwd, last.inv), fun keep hkeep => ?_, ?_⟩
  · change packStage keep prime fwdWlen invWlen one tables s = _
    unfold packStage
    dsimp only
    rw [hrun keep hkeep]
    rfl
  · rwa [show 2 ^ (s + 1) - 1 = 2 ^ s - 1 + 2 ^ s by
      have : 0 < 2 ^ s := by positivity
      rw [pow_succ]; omega]

/-- The tables of a root `ψ` with `ψ^D = -1`. -/
structure TwiddlesOk (W : PrimeWidth) (p : ℕ) [Fact p.Prime] (k : ℕ) (ψ : ZMod p) (tw : NttTwiddles) : Prop where
  root : ψ ^ 2 ^ k = -1
  psi_length : tw.psiPows.length = 2 ^ k
  psi : ∀ i < 2 ^ k, Holds W p (tw.psiPows.getD i 0) (ψ ^ i)
  fused_length : tw.dInvPsiInv.length = 2 ^ k
  fused : ∀ i < 2 ^ k, Holds W p (tw.dInvPsiInv.getD i 0) ((2 ^ k)⁻¹ * ψ⁻¹ ^ i)
  dInv : Holds W p tw.dInv (2 ^ k)⁻¹
  fwd_length : tw.fwdTwiddles.length = 2 ^ k
  fwd : ∀ s < k, ∀ j < 2 ^ s, Holds W p (tw.fwdTwiddles.getD (2 ^ s - 1 + j) 0) (stageRoot k ψ s ^ j)
  inv_length : tw.invTwiddles.length = 2 ^ k
  inv : ∀ s < k, ∀ j < 2 ^ s, Holds W p (tw.invTwiddles.getD (2 ^ s - 1 + j) 0) (stageRoot k ψ⁻¹ s ^ j)

theorem powMod_inverse (hx : 0 ≤ x) (hvalue : (x : ZMod p) = v) (hv : v ≠ 0) :
    ∃ r, powMod x ((p : ℤ) - 2) p = .ok r ∧ Residue p r v⁻¹ := by
  have htwo := (Fact.out : p.Prime).two_le
  obtain ⟨r, hr, hrOk⟩ := powMod_ok (prime_lt_thirty h hp) hx ((p : ℤ) - 2)
  refine ⟨r, hr, ?_⟩
  have hpow : v ^ ((p : ℤ) - 2).toNat = v⁻¹ := by
    refine eq_inv_of_mul_eq_one_left ?_
    rw [← pow_succ, show ((p : ℤ) - 2).toNat + 1 = p - 1 by omega]
    exact ZMod.pow_card_sub_one_eq_one hv
  rwa [hvalue, hpow] at hrOk

/-- **The tables of a prime and a degree.** -/
theorem compute_twiddles (hdvd : 2 * 2 ^ k ∣ p - 1) :
    ∃ tw ψ, Fits (fun keep => compute keep prime (2 ^ k)) tw ∧ TwiddlesOk W p k ψ tw := by
  have hlt := prime_lt_thirty h hp
  have hone := (Fact.out : p.Prime).one_lt
  have hD : (2 : ZMod p) ^ k ≠ 0 := two_pow_ne_zero h hp k
  obtain ⟨psi, ψ, hpsi, hpsiOk, hroot⟩ := findPrimitiveRoot2d_ok hlt (hp ▸ h.modulus.odd) hdvd
  have hψ := root_ne_zero hroot
  obtain ⟨hsquare, homegaOk⟩ := hpsiOk.mul hpsiOk hlt
  rw [← pow_two ψ] at homegaOk
  obtain ⟨omegaInv, homegaInv, homegaInvOk⟩ := powMod_inverse h hp homegaOk.nonneg homegaOk.value (pow_ne_zero 2 hψ)
  rw [← inv_pow] at homegaInvOk
  obtain ⟨psiInv, hpsiInv, hpsiInvOk⟩ := powMod_inverse h hp hpsiOk.nonneg hpsiOk.value hψ
  have honeOk : Residue p 1 1 := ⟨by norm_num, by exact_mod_cast hone, by norm_num⟩
  obtain ⟨pows, hpows, hlen, hlenInv, hpowsOk⟩ := psiLoop_ok h hp hpsiOk hpsiInvOk (2 ^ k) honeOk honeOk
  have hrep : (replicate (2 ^ k) (0 : ℤ)).length = 2 ^ k := length_replicate
  obtain ⟨fwdWlen, invWlen, hwlen, hfwdLen, hinvLen, hroots⟩ := wlenLoop_ok h hp homegaOk homegaInvOk k (zero_add k)
    hrep hrep fun i hi => absurd hi (Nat.not_lt_zero i)
  rw [pow_zero] at hwlen
  obtain ⟨dInvCanonical, hdInvRun, hdInvOk⟩ := powMod_inverse h hp (Int.natCast_nonneg (2 ^ k)) (by push_cast; rfl) hD
  obtain ⟨dInv, hdInv, hdInvHolds⟩ := enter_ok h hp hdInvOk
  obtain ⟨fused, hfused, hfusedLen, hfusedOk⟩ := @mapM_runs_all _ _ _ _ Keep.Sound (fun keep psiInvPow => prime.mul keep dInv psiInvPow)
    (fun i r => Holds W p r ((2 ^ k)⁻¹ * ψ⁻¹ ^ i)) pows.2 0 0 (by
      intro i hi
      obtain ⟨r, hr, hrOk⟩ := mul_ok h hp (show |dInv| < 2 * (p : ℤ) by linarith [hdInvHolds.lt, abs_nonneg dInv])
        (hpowsOk i (by omega)).2
      rw [hdInvHolds.value, one_mul] at hrOk
      exact ⟨r, hr, hrOk⟩)
  obtain ⟨one, honeRun, honeHolds⟩ := enter_ok h hp honeOk
  obtain ⟨packed, hpacked, hpackedOk⟩ := @foldlM_range_runs_all _ _ _ Keep.Sound
    (fun keep => packStage keep prime fwdWlen invWlen one)
    (fun s tables => Packed (W := W) k ψ ψ⁻¹ tables (2 ^ s - 1)) k
    (fun s hs tables htables => packStage_ok h hp honeHolds hs hfwdLen hinvLen (hroots s hs).1 (hroots s hs).2 htables)
    (replicate (2 ^ k) 0, replicate (2 ^ k) 0)
    ⟨hrep, hrep, fun i hi => absurd hi (Nat.not_lt_zero i), fun i hi => absurd hi (Nat.not_lt_zero i)⟩
  have hbelow : ∀ s < k, ∀ j < 2 ^ s, 2 ^ s - 1 + j < 2 ^ k - 1 := by
    intro s hs j hj
    have : 2 ^ (s + 1) ≤ 2 ^ k := Nat.pow_le_pow_right (by norm_num) (by omega)
    rw [pow_succ] at this
    omega
  have hdvd' : ((p : ℤ) - 1).tmod (2 * (2 ^ k : ℕ)) = 0 := by
    rw [Int.tmod_eq_emod_of_nonneg (by omega)]
    refine Int.emod_eq_zero_of_dvd ?_
    have := Int.natCast_dvd_natCast.2 hdvd
    rwa [Nat.cast_mul, Nat.cast_sub hone.le] at this
  refine ⟨⟨fwdWlen, invWlen, pows.1, pows.2, fused, packed.1, packed.2, dInv, k⟩, ψ, fun keep hkeep => ?_,
    ⟨hroot, hlen, fun i hi => ?_, by rw [hfusedLen, hlenInv], fun i hi => hfusedOk i (by omega), hdInvHolds,
    hpackedOk.fwd_length, fun s hs j hj => ?_, hpackedOk.inv_length, fun s hs j hj => ?_⟩⟩
  · change compute keep prime (2 ^ k) = _
    unfold compute
    rw [ensure, if_pos ⟨k, rfl⟩, ok_bind]
    dsimp only
    rw [hp, ensure, if_pos hdvd', ok_bind, hpsi, ok_bind, hsquare, ok_bind, homegaInv, ok_bind, hpsiInv, ok_bind, hpows.run hkeep,
      ok_bind, hwlen.run hkeep, ok_bind, hdInvRun, ok_bind, hdInv.run hkeep, ok_bind, hfused keep hkeep, ok_bind,
      honeRun.run hkeep, ok_bind, hpacked keep hkeep]
    rfl
  · have := (hpowsOk i hi).1
    rwa [one_mul] at this
  · rw [← packedEntry_stage k ψ hj]
    exact hpackedOk.fwd _ (hbelow s hs j hj)
  · rw [← packedEntry_stage k ψ⁻¹ hj]
    exact hpackedOk.inv _ (hbelow s hs j hj)

end tables

end Akita.Ntt
