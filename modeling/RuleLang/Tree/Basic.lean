import RuleLang.Text.Blank

/-!
The syntax trees of rules. One type covers expressions and statements, since a rule is a
statement whose value is that of one of its expressions; which trees a source can give is a
property of the grammar. A block is a list of statements, and a whole rule is a block.
-/
namespace RuleLang

inductive UnaryOp
  | negate
  | not
  | preIncrement
  | preDecrement
  | postIncrement
  | postDecrement
  | size
  | rowSize
  | sort
  | returning
  deriving DecidableEq

inductive BinaryOp
  | add
  | subtract
  | multiply
  | divide
  | remainder
  | equal
  | notEqual
  | less
  | greater
  | lessEqual
  | greaterEqual
  | and
  | or
  | max
  | min
  | assign
  deriving DecidableEq

def BinaryOp.symbol : BinaryOp → Text
  | add => ['+']
  | subtract => ['-']
  | multiply => ['*']
  | divide => ['/']
  | remainder => ['%']
  | equal => ['=', '=']
  | notEqual => ['!', '=']
  | less => ['<']
  | greater => ['>']
  | lessEqual => ['<', '=']
  | greaterEqual => ['>', '=']
  | and => ['&', '&']
  | or => ['|', '|']
  | max => ['m', 'a', 'x']
  | min => ['m', 'i', 'n']
  | assign => ['=']

/-- The level on which an operator binds its operands in a chain, the highest tightest. -/
def BinaryOp.level? : BinaryOp → Option Nat
  | assign | and | or => some 0
  | equal | notEqual | less | greater | lessEqual | greaterEqual => some 1
  | add | subtract => some 2
  | multiply | divide | remainder => some 3
  | max | min => none

inductive Tree
  | empty
  | number (value : Int32)
  | name (x : String)
  | element (x : String) (index : Tree)
  | cell (x : String) (row column : Tree)
  | unary (op : UnaryOp) (operand : Tree)
  | binary (op : BinaryOp) (left right : Tree)
  | ifThen (condition yes : Tree)
  | ifElse (condition yes no : Tree)
  | whileLoop (condition body : Tree)
  | forLoop (start condition update body : Tree)
  | block (statements : List Tree)
  | breakLoop

namespace Tree

/-- Whether a tree names something that can be assigned to. -/
def isLvalue : Tree → Bool
  | name _ | element .. => true
  | _ => false

/-- Whether an `else` can still follow a statement: some `if` that no braces close off has no
`else`. Gives the number of loops between the statement and the innermost such `if`. -/
def openIf? : Tree → Option Nat
  | ifThen _ yes => yes.openIf? <|> some 0
  | ifElse _ _ no => no.openIf?
  | whileLoop _ body => body.openIf?.map (· + 1)
  | forLoop _ _ _ body => body.openIf?.map (· + 1)
  | _ => none

/-- A statement with its innermost open `if` given an `else` branch, if it has an open one. -/
def withElse? (tree branch : Tree) : Option Tree :=
  match tree with
  | ifThen condition yes =>
    match yes.withElse? branch with
    | some yes => some (ifThen condition yes)
    | none => some (ifElse condition yes branch)
  | ifElse condition yes no => (no.withElse? branch).map (ifElse condition yes)
  | whileLoop condition body => (body.withElse? branch).map (whileLoop condition)
  | forLoop start condition update body =>
    (body.withElse? branch).map (forLoop start condition update)
  | _ => none

/-- There is a place for an `else` exactly where `openIf?` finds one. -/
theorem isSome_withElse? (tree branch : Tree) :
    (tree.withElse? branch).isSome = tree.openIf?.isSome := by
  fun_induction withElse? tree branch <;> simp_all [openIf?]

end Tree
end RuleLang
