import RuleLang.Text.Numeral

/-!
The data that a host hands to a rule: one integer, a vector of integers, or a matrix, which is
a vector of rows of any lengths. Integers have 32 bits and wrap.
-/
namespace RuleLang

inductive Shape
  | scalar
  | vector
  | matrix
  deriving DecidableEq

namespace Shape

/-- The matrix flag wins over the vector flag. -/
def ofFlags (isVector isMatrix : Bool) : Shape :=
  if isMatrix then matrix else if isVector then vector else scalar

/-- A matrix is a vector of rows. -/
def isVector : Shape → Bool
  | scalar => false
  | vector | matrix => true

def isMatrix : Shape → Bool
  | matrix => true
  | scalar | vector => false

def text : Shape → Text
  | scalar => "a scalar".toList
  | vector => "a vector".toList
  | matrix => "a matrix".toList

end Shape

inductive Value
  | scalar (number : Int32)
  | vector (items : Array Int32)
  | matrix (rows : Array (Array Int32))
  deriving DecidableEq

namespace Value

def shape : Value → Shape
  | scalar _ => .scalar
  | vector _ => .vector
  | matrix _ => .matrix

/-- The parts in brackets, with a comma and a space between them. -/
def listText (parts : List Text) : Text :=
  '[' :: ([',', ' '].intercalate parts ++ [']'])

def vectorText (items : Array Int32) : Text :=
  listText (items.toList.map fun n => Text.ofInt n.toInt)

def text : Value → Text
  | scalar n => Text.ofInt n.toInt
  | vector items => vectorText items
  | matrix rows => listText (rows.toList.map vectorText)

end Value
end RuleLang
