import RuleLang.Text.Blank

/-!
Decimal numerals. A numeral is written with the fewest digits and, below zero, a minus sign;
it is read digit by digit, with any number of leading zeros.
-/
namespace RuleLang.Text

def ofNat (n : Nat) : Text := Nat.toDigits 10 n

def ofInt : Int → Text
  | .ofNat n => ofNat n
  | .negSucc n => '-' :: ofNat (n + 1)

/-- The number that a text of decimal digits denotes. -/
def natValue (digits : Text) : Nat := Nat.ofDigitChars 10 digits 0

end RuleLang.Text
