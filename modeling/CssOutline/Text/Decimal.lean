import CssOutline.Text.Bytes

/-!
# Numbers in decimal digits

## Main definitions

* `decimal`: the digits of a number

## Main results

* `decimal_injective`: the digits determine the number
-/

namespace CssOutline

/-- A number in decimal digits, without leading zeros. -/
def decimal (n : Nat) : Text := Nat.toDigits 10 n

theorem decimal_injective {m n : Nat} (h : decimal m = decimal n) : m = n := by
  rw [← @Nat.ofDigitChars_ten_toDigits m, ← @Nat.ofDigitChars_ten_toDigits n]
  exact congrArg (Nat.ofDigitChars 10 · 0) h

/-- A number is written with digits only. -/
theorem isDigit_of_mem_decimal {c : Char} {n : Nat} (h : c ∈ decimal n) : c.isDigit :=
  Nat.isDigit_of_mem_toDigits (by decide) (by decide) h

theorem decimal_ne_nil (n : Nat) : decimal n ≠ [] := Nat.toDigits_ne_nil

end CssOutline
