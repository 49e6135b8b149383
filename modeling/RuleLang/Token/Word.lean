import RuleLang.Fault
import RuleLang.Text.Numeral
import RuleLang.Token.Keyword

/-!
Words in an expression. A word that begins with a digit is a number: it has to consist of
digits, and its value may not exceed 2147483647. Any other word is a name.
-/
namespace RuleLang

inductive Word
  | number (value : Int32)
  | name (letters : Text)
  deriving DecidableEq

namespace Word

def maxNumber : Nat := 2147483647

def ofLetters? : Text → Except Fault (Option Word)
  | [] => .ok none
  | c :: letters =>
    if !c.isDigit then .ok (some (name (c :: letters)))
    else if letters.all Char.isDigit && Text.natValue (c :: letters) ≤ maxNumber then
      .ok (some (number (Int32.ofNat (Text.natValue (c :: letters)))))
    else .error (.syntactic ⟨.badNumber, [c :: letters]⟩)

/-- The word that a text begins with, if it begins with one. -/
def atStart? (text : Text) : Except Fault (Option Word) := ofLetters? text.firstWord

end Word
end RuleLang
