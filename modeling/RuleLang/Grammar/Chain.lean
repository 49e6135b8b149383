import RuleLang.Fault
import RuleLang.Token.Operator
import RuleLang.Tree.Basic

/-!
Chains: operands with binary operators between them. A chain is read from left to right and
then joined, operators of a higher level first and, on one level, from the left. An assignment
ends the chain: all before it is its target, and the value is a chain of its own.
-/
namespace RuleLang.Grammar

/-- A tree that has been read, with the text after it. -/
abbrev Read := Except Fault (Tree × Text)

/-- Joins the operands around the operators of one level, from the left. -/
def joinLevel (level : Nat) (first : Tree) :
    List (BinaryOp × Tree) → Tree × List (BinaryOp × Tree)
  | [] => (first, [])
  | (op, next) :: links =>
    if op.level? = some level then joinLevel level (.binary op first next) links
    else
      let (next, links) := joinLevel level next links
      (first, (op, next) :: links)

/-- The tree of a chain without assignment, given by its first operand and, for each operator,
the operand after it. -/
def join (first : Tree) (links : List (BinaryOp × Tree)) : Tree :=
  let (first, links) := joinLevel 3 first links
  let (first, links) := joinLevel 2 first links
  let (first, links) := joinLevel 1 first links
  (joinLevel 0 first links).1

/-- Reads the rest of a chain that began at `start` with `first` and `links` (backwards). Each
operator takes up a character, so a bound on the length of `text` bounds the rounds. -/
def links (operand : Text → Read) (bound : Nat) (start : Text) (first : Tree)
    (read : List (BinaryOp × Tree)) (text : Text) : Read :=
  let rest := text.trimStart
  match bound, (Operator.atStart? rest).bind fun (op, n) => op.binary?.map (·, n) with
  | bound + 1, some (.assign, n) => do
    let target := join first read.reverse
    if target.isLvalue then
      let start := Text.trimStart (rest.drop n)
      let (first, rest) ← operand start
      let (value, rest) ← links operand bound start first [] rest
      return (.binary .assign target value, rest)
    else throw (.syntactic ⟨.notAssignable, [start.upTo rest]⟩)
  | bound + 1, some (op, n) => do
    let (next, rest) ← operand (rest.drop n)
    links operand bound start first ((op, next) :: read) rest
  | _, _ => return (join first read.reverse, rest)

/-- Reads a chain of what `operand` reads. -/
def chain (operand : Text → Read) (text : Text) : Read := do
  let start := text.trimStart
  let (first, rest) ← operand start
  links operand start.length start first [] rest

end RuleLang.Grammar
