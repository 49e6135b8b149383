import RuleLang.Token.Keyword
import RuleLang.Tree.Basic

/-!
Operators. An operator of two characters is taken before one of a single character, and the
words `and` and `or` are operators only when they stand as whole words.
-/
namespace RuleLang

inductive Operator
  | assign
  | and
  | or
  | equal
  | notEqual
  | less
  | greater
  | lessEqual
  | greaterEqual
  | plus
  | minus
  | star
  | slash
  | percent
  | bang
  | increment
  | decrement
  deriving DecidableEq

namespace Operator

def spelling : Operator → String
  | assign => "="
  | and => "&&"
  | or => "||"
  | equal => "=="
  | notEqual => "!="
  | less => "<"
  | greater => ">"
  | lessEqual => "<="
  | greaterEqual => ">="
  | plus => "+"
  | minus => "-"
  | star => "*"
  | slash => "/"
  | percent => "%"
  | bang => "!"
  | increment => "++"
  | decrement => "--"

def ofWord? : Text → Option Operator
  | ['a', 'n', 'd'] => some and
  | ['o', 'r'] => some or
  | _ => none

/-- The operator that a text begins with, and how many characters spell it. Each of them takes one
byte, so the number of bytes is the same. -/
def atStart? : Text → Option (Operator × Nat)
  | '=' :: '=' :: _ => some (equal, 2)
  | '!' :: '=' :: _ => some (notEqual, 2)
  | '<' :: '=' :: _ => some (lessEqual, 2)
  | '>' :: '=' :: _ => some (greaterEqual, 2)
  | '&' :: '&' :: _ => some (and, 2)
  | '|' :: '|' :: _ => some (or, 2)
  | '+' :: '+' :: _ => some (increment, 2)
  | '-' :: '-' :: _ => some (decrement, 2)
  | '=' :: _ => some (assign, 1)
  | '<' :: _ => some (less, 1)
  | '>' :: _ => some (greater, 1)
  | '+' :: _ => some (plus, 1)
  | '-' :: _ => some (minus, 1)
  | '*' :: _ => some (star, 1)
  | '/' :: _ => some (slash, 1)
  | '%' :: _ => some (percent, 1)
  | '!' :: _ => some (bang, 1)
  | text => (ofWord? text.firstWord).map fun op => (op, text.firstWord.length)

/-- What an operator does between two operands, if it can stand there. -/
def binary? : Operator → Option BinaryOp
  | assign => some .assign
  | and => some .and
  | or => some .or
  | equal => some .equal
  | notEqual => some .notEqual
  | less => some .less
  | greater => some .greater
  | lessEqual => some .lessEqual
  | greaterEqual => some .greaterEqual
  | plus => some .add
  | minus => some .subtract
  | star => some .multiply
  | slash => some .divide
  | percent => some .remainder
  | bang | increment | decrement => none

def level? (op : Operator) : Option Nat := op.binary?.bind BinaryOp.level?

end Operator
end RuleLang
