import Mathlib.Tactic

/-!
# Numerals of a semiring

A numeral of a semiring carries a proof that it is at least two. Naming the proofs of the small
numerals lets every definition that uses one refer to the same proof.
-/

namespace Akita.Lib

instance atLeastTwo_two : Nat.AtLeastTwo 2 := ⟨le_rfl⟩

instance atLeastTwo_three : Nat.AtLeastTwo 3 := ⟨Nat.le_add_left 2 1⟩

instance atLeastTwo_four : Nat.AtLeastTwo 4 := ⟨Nat.le_add_left 2 2⟩

/-!
## Small prime fields

The prime fields that samples compute in, beside those Mathlib has.
-/

instance fact_prime_five : Fact (Nat.Prime 5) := ⟨by norm_num⟩

instance fact_prime_seven : Fact (Nat.Prime 7) := ⟨by norm_num⟩

end Akita.Lib
