import Mathlib

/-!
# Decimal digits

What a number is written with in base ten.
-/

namespace PyText

theorem isDigit_toDigits (n : Nat) : ∀ c ∈ Nat.toDigits 10 n, c.isDigit = true := fun _ hc =>
  Nat.isDigit_of_mem_toDigits (by omega) (by omega) hc

/-- A number is written without a leading zero. -/
theorem toDigits_head (n : Nat) :
    Nat.toDigits 10 n = ['0'] ∨ ∃ c rest, Nat.toDigits 10 n = c :: rest ∧ c ≠ '0' := by
  induction n using Nat.strong_induction_on with
  | _ n ih =>
    by_cases hn : n < 10
    · rw [Nat.toDigits_of_lt_base hn]
      interval_cases n
      · exact .inl rfl
      all_goals exact .inr ⟨_, _, rfl, by decide⟩
    · rw [Nat.toDigits_of_base_le (by omega) (by omega)]
      rcases ih (n / 10) (by omega) with hzero | ⟨c, rest, hc, hne⟩
      · have hlt : n / 10 = 0 := by
          have hvalue : Nat.ofDigitChars 10 (Nat.toDigits 10 (n / 10)) 0 = n / 10 :=
            Nat.ofDigitChars_ten_toDigits
          rw [hzero] at hvalue
          exact hvalue.symm
        omega
      · exact .inr ⟨c, rest ++ [Nat.digitChar (n % 10)], by rw [hc, List.cons_append], hne⟩

end PyText
