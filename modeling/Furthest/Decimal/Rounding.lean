/-!
# Rounding a quotient

`roundEven` is the integer nearest to a quotient of naturals, and of two equally near ones the even one.
Main statements: `roundEven_near` (within half a unit) and `roundEven_tie` (a tie goes to the even
neighbour).
-/

namespace Furthest.Decimal

/-- The power of ten of an exponent. -/
def powerOfTen (exponent : Nat) : Nat := Nat.pow 10 exponent

/-- The integer nearest to `num / den`; a tie goes to the even neighbour. -/
def roundEven (num den : Nat) : Nat :=
  let whole := num / den
  let rest := 2 * (num % den)
  if rest < den then whole
  else if den < rest then whole + 1
  else whole + whole % 2

/-- The rounded quotient is within half a unit. -/
theorem roundEven_near {num den : Nat} (h : 0 < den) :
    2 * (roundEven num den * den) ≤ 2 * num + den ∧ 2 * num ≤ 2 * (roundEven num den * den) + den := by
  have hdiv := Nat.div_add_mod num den
  rw [Nat.mul_comm] at hdiv
  have hmod := Nat.mod_lt num h
  simp only [roundEven]
  split
  · omega
  · split
    · rw [Nat.add_one_mul (num / den)]; omega
    · rcases Nat.mod_two_eq_zero_or_one (num / den) with hw | hw <;> rw [hw]
      · rw [Nat.add_zero]; omega
      · rw [Nat.add_one_mul (num / den)]; omega

/-- A tie goes to the even neighbour. -/
theorem roundEven_tie {num den : Nat} (h : 2 * (num % den) = den) : roundEven num den % 2 = 0 := by
  simp only [roundEven, h, Nat.lt_irrefl, if_false]
  omega

end Furthest.Decimal
