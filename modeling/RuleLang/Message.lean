import RuleLang.Text.Blank

/-!
Messages. A message is one of a fixed list of templates together with the texts that fill it:
each `#` of the template stands for the next argument. Keeping the two apart lets a host fill a
template of its own, in another language, with the same arguments.
-/
namespace RuleLang

inductive Category
  | syntactic
  | name
  | shape
  | arithmetic
  | runaway
  deriving DecidableEq

def Category.heading : Category → String
  | syntactic => "syntax error: "
  | name => "name error: "
  | shape => "shape error: "
  | arithmetic => "arithmetic error: "
  | runaway => "runaway execution: "

inductive Template
  | unbalanced
  | badNumber
  | keywordInExpression
  | parenExpected
  | strayElse
  | notAssignable
  | argumentCount
  | clauseCount
  | strayBreak
  | unexpected
  | missingExpression
  | blockAsValue
  | unknownMethod
  | methodTakesNothing
  | methodTarget
  | tooDeep
  | notATree
  | unknownName
  | readOnly
  | unset
  | undeclared
  | badName
  | notAVector
  | notAMatrix
  | needsTwoIndices
  | outOfRange
  | needsIndex
  | noSize
  | notSortable
  | matrixCopy
  | wrongShape
  | divisionByZero
  | stalled
  deriving DecidableEq

namespace Template

def text : Template → String
  | unbalanced => "unmatched '#' in '#'"
  | badNumber => "invalid number '#'"
  | keywordInExpression => "'#' cannot be used in an expression"
  | parenExpected => "expected '(' after '#'"
  | strayElse => "'else' without a matching 'if': '#'"
  | notAssignable => "cannot assign to '#'"
  | argumentCount => "'#' expects # arguments, got #"
  | clauseCount => "'for' needs three clauses separated by ';', got #"
  | strayBreak => "'break' outside of a loop"
  | unexpected => "unexpected '#'"
  | missingExpression => "expected an expression after '#'"
  | blockAsValue => "a block cannot be used as a value: '#'"
  | unknownMethod => "unknown method '#'"
  | methodTakesNothing => "'#()' takes no arguments"
  | methodTarget => "'.#()' cannot be applied to '#'"
  | tooDeep => "nesting deeper than # levels in '#'"
  | notATree => "node # is missing or referenced twice"
  | unknownName => "unknown symbol or variable '#'"
  | readOnly => "'#' is a symbol and cannot be modified"
  | unset => "symbol '#' has no value"
  | undeclared => "symbol '#' is not declared"
  | badName => "'#' is not a valid symbol name"
  | notAVector => "'#' is not a vector"
  | notAMatrix => "'#' is not a matrix"
  | needsTwoIndices => "matrix '#' needs two indices"
  | outOfRange => "index # is out of range for '#'"
  | needsIndex => "'#' holds several values and needs an index"
  | noSize => "'#' has no size"
  | notSortable => "'#' cannot be sorted"
  | matrixCopy => "matrix '#' cannot be copied"
  | wrongShape => "symbol '#' is declared as #, got #"
  | divisionByZero => "division by zero in '#'"
  | stalled => "stalled loop: more than # iterations"

/-- The category under which a template is listed. -/
def category : Template → Category
  | unbalanced | badNumber | keywordInExpression | parenExpected | strayElse | notAssignable
  | argumentCount | clauseCount | strayBreak | unexpected | missingExpression | blockAsValue
  | unknownMethod | methodTakesNothing | methodTarget | tooDeep | notATree => .syntactic
  | unknownName | readOnly | unset | undeclared | badName => .name
  | notAVector | notAMatrix | needsTwoIndices | outOfRange | needsIndex | noSize | notSortable
  | matrixCopy | wrongShape => .shape
  | divisionByZero => .arithmetic
  | stalled => .runaway

end Template

/-- Puts the arguments for the placeholders of a pattern, in order. Arguments are not searched
for placeholders, those left over are dropped, and a placeholder without argument stays. -/
def fill : Text → List Text → Text
  | [], _ => []
  | '#' :: pattern, arg :: args => arg ++ fill pattern args
  | c :: pattern, args => c :: fill pattern args

structure Message where
  template : Template
  args : List Text
  deriving DecidableEq

namespace Message

def fillIn (message : Message) (pattern : String) : Text := fill pattern.toList message.args

def text (message : Message) : Text := message.fillIn message.template.text

end Message

/-- A message as an error of a category. -/
structure Report where
  category : Category
  message : Message

def Report.text (report : Report) : Text :=
  report.category.heading.toList ++ report.message.text

end RuleLang
