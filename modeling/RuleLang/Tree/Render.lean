import RuleLang.Text.Numeral
import RuleLang.Tree.Basic

/-!
The written form of trees: every operation in parentheses with its operator first, so that the
text shows the structure. A tree is written in front of a given text, which keeps the work
linear in the length of the result.
-/
namespace RuleLang

def UnaryOp.label : UnaryOp → Text
  | negate => "neg".toList
  | not => "!".toList
  | preIncrement => "++pre".toList
  | preDecrement => "--pre".toList
  | postIncrement => "post++".toList
  | postDecrement => "post--".toList
  | size | rowSize => "size".toList
  | sort => "sort".toList
  | returning => "return".toList

namespace Tree

mutual

def renderOnto (tail : Text) : Tree → Text
  | empty => '(' :: ')' :: tail
  | number value => Text.ofInt value.toInt ++ tail
  | name x => x.toList ++ tail
  | element x index => x.toList ++ '[' :: index.renderOnto (']' :: tail)
  | cell x row column =>
    x.toList ++ '[' :: row.renderOnto (']' :: '[' :: column.renderOnto (']' :: tail))
  | unary op operand => '(' :: (op.label ++ ' ' :: operand.renderOnto (')' :: tail))
  | binary op left right =>
    '(' :: (op.symbol ++ ' ' :: left.renderOnto (' ' :: right.renderOnto (')' :: tail)))
  | ifThen condition yes =>
    "(if ".toList ++ condition.renderOnto (' ' :: yes.renderOnto (')' :: tail))
  | ifElse condition yes no =>
    "(if ".toList ++
      condition.renderOnto (' ' :: yes.renderOnto (' ' :: no.renderOnto (')' :: tail)))
  | whileLoop condition body =>
    "(while ".toList ++ condition.renderOnto (' ' :: body.renderOnto (')' :: tail))
  | forLoop start condition update body =>
    "(for ".toList ++
      start.renderOnto (' ' :: condition.renderOnto (' ' :: update.renderOnto
        (' ' :: body.renderOnto (')' :: tail))))
  | block statements => "(seq".toList ++ renderAllOnto (')' :: tail) statements
  | breakLoop => "break".toList ++ tail

/-- Each tree with a space before it. -/
def renderAllOnto (tail : Text) : List Tree → Text
  | [] => tail
  | tree :: trees => ' ' :: tree.renderOnto (renderAllOnto tail trees)

end

def render (tree : Tree) : Text := tree.renderOnto []

end Tree
end RuleLang
