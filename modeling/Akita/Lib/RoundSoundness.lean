import Akita.Lib.Coefficients

/-!
# Soundness of rounds that reduce a claim

A round turns a body and the running claim into a polynomial, and its value at the challenge is the next claim. Where a wrong claim never
gives the true polynomial, a claim can become true only at a challenge at which two different polynomials agree.
-/

namespace Akita.Lib

open Polynomial List

variable {E β : Type*} [Field E] [Inhabited β] {poly : List E → E → β → E[X]} {truth : List E → E[X]} {d n : ℕ}

/-- The claim after some challenges. The polynomial of a round is made of the challenges before it, the running claim and its body. -/
def claimAfter (poly : List E → E → β → E[X]) : List E → E → List β → List E → E
  | bound, claim, body :: bodies, r :: rs => claimAfter poly (bound ++ [r]) ((poly bound claim body).eval r) bodies rs
  | _, claim, _, _ => claim

/-- The challenges at which the polynomial of the next round agrees with the true one. -/
noncomputable def lucky (poly : List E → E → β → E[X]) (truth : List E → E[X]) (bound : List E) (claim : E) (bodies : List β)
    (rs : List E) : Multiset E :=
  (poly (bound ++ rs) (claimAfter poly bound claim bodies rs) (bodies.getD rs.length default) - truth (bound ++ rs)).roots

theorem card_lucky_le (hpoly : ∀ bound claim body, (poly bound claim body).natDegree ≤ d) (htruth : ∀ bound, (truth bound).natDegree ≤ d)
    (bound : List E) (claim : E) (bodies : List β) (rs : List E) : (lucky poly truth bound claim bodies rs).card ≤ d :=
  (card_roots' _).trans ((natDegree_sub_le _ _).trans (max_le (hpoly ..) (htruth _)))

/-- **A wrong claim becomes true only by luck.** -/
theorem exists_lucky {value : List E → E} (hne : ∀ bound claim body, bound.length < n → poly bound claim body = truth bound → claim = value bound)
    (hvalue : ∀ bound r, (truth bound).eval r = value (bound ++ [r])) {bodies : List β} {rs : List E} (hlen : bodies.length = rs.length) :
    ∀ {bound : List E} {claim : E}, bound.length + rs.length = n → claim ≠ value bound →
      claimAfter poly bound claim bodies rs = value (bound ++ rs) → ∃ i r, rs[i]? = some r ∧
        r ∈ lucky poly truth bound claim (bodies.take (i + 1)) (rs.take i) := by
  induction bodies generalizing rs with
  | nil =>
    intro bound claim _ hwrong htrue
    rw [length_eq_zero_iff.1 hlen.symm, append_nil] at htrue
    exact absurd htrue hwrong
  | cons body bodies ih =>
    intro bound claim hn hwrong htrue
    obtain _ | ⟨r, rs⟩ := rs
    · simp at hlen
    rw [length_cons] at hn
    by_cases heval : (poly bound claim body).eval r = (truth bound).eval r
    · have hsub : poly bound claim body - truth bound ≠ 0 := fun hzero => hwrong (hne _ _ _ (by omega) (sub_eq_zero.1 hzero))
      exact ⟨0, r, rfl, by simpa [lucky, claimAfter, hsub, sub_eq_zero] using heval⟩
    · rw [hvalue] at heval
      obtain ⟨i, r', hr', hmem⟩ := ih (Nat.succ.inj hlen) (by simp; omega) heval (by simpa [claimAfter] using htrue)
      exact ⟨i + 1, r', hr', by simpa [lucky, claimAfter] using hmem⟩

end Akita.Lib
