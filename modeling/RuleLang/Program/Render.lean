import RuleLang.Program.Basic
import RuleLang.Tree.Render

/-!
The written form of programs. A node is written with the nodes under it, which are looked up by
their numbers.
-/
namespace RuleLang

/-- Writes a node in front of a text, given how the nodes under it are written. -/
def Node.renderOnto (render : Text → Nat → Text) (tail : Text) : Node → Text
  | empty => '(' :: ')' :: tail
  | number value => Text.ofInt value.toInt ++ tail
  | name x => x.toList ++ tail
  | element x index => x.toList ++ '[' :: render (']' :: tail) index
  | cell x row column =>
    x.toList ++ '[' :: render (']' :: '[' :: render (']' :: tail) column) row
  | unary op operand => '(' :: (op.label ++ ' ' :: render (')' :: tail) operand)
  | binary op left right =>
    '(' :: (op.symbol ++ ' ' :: render (' ' :: render (')' :: tail) right) left)
  | ifThen condition yes =>
    ['(', 'i', 'f', ' '] ++ render (' ' :: render (')' :: tail) yes) condition
  | ifElse condition yes no =>
    ['(', 'i', 'f', ' '] ++ render (' ' :: render (' ' :: render (')' :: tail) no) yes) condition
  | whileLoop condition body =>
    ['(', 'w', 'h', 'i', 'l', 'e', ' '] ++ render (' ' :: render (')' :: tail) body) condition
  | forLoop start condition update body =>
    ['(', 'f', 'o', 'r', ' '] ++
      render (' ' :: render (' ' :: render (' ' :: render (')' :: tail) body) update) condition)
        start
  | block statements =>
    ['(', 's', 'e', 'q'] ++ statements.foldr (fun id tail => ' ' :: render tail id) (')' :: tail)
  | breakLoop => ['b', 'r', 'e', 'a', 'k'] ++ tail

namespace Program

/-- Writes the node with a number, and those under it down to the given depth. -/
def renderOnto (program : Program) : Nat → Text → Nat → Text
  | 0, tail, _ => '(' :: ')' :: tail
  | depth + 1, tail, id => (program.node id).renderOnto (program.renderOnto depth) tail

/-- Writes the node with a number. In a tree no path is longer than the number of nodes. -/
def renderAt (program : Program) (tail : Text) (id : Nat) : Text :=
  program.renderOnto program.nodes.size tail id

def text (program : Program) : Text := program.renderAt [] program.root

end Program
end RuleLang
