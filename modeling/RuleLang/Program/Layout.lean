import RuleLang.Program.Basic

/-!
Numbering the nodes of a tree. Nodes are numbered children first, with one exception: the
`else` branches of a statement are numbered after the rest of the whole statement, the branch
of an inner `if` before that of the `if` around it. The statements of a block are numbered one
after the other, each with its `else` branches, and the block itself after them. So the root,
which is a block, has the last number. In this order the nodes are allocated when a text is read
that gives the tree. The numbers are natural ones; a tree with 2 ^ 32 nodes or more is none of those
meant.

The *stem* of a statement is the statement without the `else` branches that are put off. While
a statement is laid out, the nodes of its stem and the late nodes are kept in two lists; the
first late number is known beforehand, since it is the size of the stem away.
-/
namespace RuleLang

namespace Tree

mutual

/-- The number of all nodes of a tree. -/
def size : Tree → Nat
  | empty | number _ | name _ | breakLoop => 1
  | element _ index => index.size + 1
  | cell _ row column => row.size + column.size + 1
  | unary _ operand => operand.size + 1
  | binary _ left right => left.size + right.size + 1
  | ifThen condition yes => condition.size + yes.size + 1
  | ifElse condition yes no => condition.size + yes.size + no.size + 1
  | whileLoop condition body => condition.size + body.size + 1
  | forLoop start condition update body =>
    start.size + condition.size + update.size + body.size + 1
  | block statements => sizeAll statements + 1

def sizeAll : List Tree → Nat
  | [] => 0
  | tree :: trees => tree.size + sizeAll trees

end

/-- The number of nodes of the stem of a tree. -/
def stemSize : Tree → Nat
  | empty | number _ | name _ | breakLoop => 1
  | element _ index => index.stemSize + 1
  | cell _ row column => row.stemSize + column.stemSize + 1
  | unary _ operand => operand.stemSize + 1
  | binary _ left right => left.stemSize + right.stemSize + 1
  | ifThen condition yes => condition.stemSize + yes.stemSize + 1
  | ifElse condition yes _ => condition.stemSize + yes.stemSize + 1
  | whileLoop condition body => condition.stemSize + body.stemSize + 1
  | forLoop start condition update body =>
    start.stemSize + condition.stemSize + update.stemSize + body.stemSize + 1
  | block statements => sizeAll statements + 1

end Tree

/-- A layout under way. Both lists of nodes are kept backwards. -/
structure Layout where
  stem : List Node
  next : Nat
  late : List Node
  nextLate : Nat

namespace Layout

/-- A layout that begins at a number with a stem of the given size. -/
def start (next stemSize : Nat) : Layout := ⟨[], next, [], next + stemSize⟩

/-- Appends a node to the stem and gives its number. -/
def push (node : Node) : StateM Layout Nat := fun layout =>
  (layout.next, { layout with stem := node :: layout.stem, next := layout.next + 1 })

/-- Puts what `place` lays out, whose stem has the given size, after all late nodes. -/
def putOff (stemSize : Nat) (place : StateM Layout Nat) : StateM Layout Nat := fun layout =>
  let (id, branch) := place (start layout.nextLate stemSize)
  (id, { layout with
    late := branch.late ++ (branch.stem ++ layout.late), nextLate := branch.nextLate })

/-- Puts what `place` lays out, whose stem has the given size, into the stem with all its late
nodes. -/
def putWhole (stemSize : Nat) (place : StateM Layout Nat) : StateM Layout Nat := fun layout =>
  let (id, whole) := place (start layout.next stemSize)
  (id, { layout with
    stem := whole.late ++ (whole.stem ++ layout.stem), next := whole.nextLate })

end Layout

namespace Tree

open Layout

mutual

/-- Lays a tree out and gives the number of its root. -/
def place : Tree → StateM Layout Nat
  | empty => push .empty
  | number value => push (.number value)
  | name x => push (.name x)
  | element x index => do push (.element x (← index.place))
  | cell x row column => do
    let row ← row.place
    let column ← column.place
    push (.cell x row column)
  | unary op operand => do push (.unary op (← operand.place))
  | binary op left right => do
    let left ← left.place
    let right ← right.place
    push (.binary op left right)
  | ifThen condition yes => do
    let condition ← condition.place
    let yes ← yes.place
    push (.ifThen condition yes)
  | ifElse condition yes no => do
    let condition ← condition.place
    let yes ← yes.place
    let no ← putOff no.stemSize no.place
    push (.ifElse condition yes no)
  | whileLoop condition body => do
    let condition ← condition.place
    let body ← body.place
    push (.whileLoop condition body)
  | forLoop start condition update body => do
    let start ← start.place
    let condition ← condition.place
    let update ← update.place
    let body ← body.place
    push (.forLoop start condition update body)
  | block statements => do push (.block (← placeAll statements))
  | breakLoop => push .breakLoop

def placeAll : List Tree → StateM Layout (List Nat)
  | [] => return []
  | tree :: trees => do
    let id ← putWhole tree.stemSize tree.place
    return id :: (← placeAll trees)

end
end Tree

/-- The program whose nodes are those of a block, numbered as described. -/
def Program.ofTree (tree : Tree) : Program :=
  let (root, layout) := tree.place (.start 0 tree.stemSize)
  ⟨(layout.late ++ layout.stem).reverse.toArray, root⟩

end RuleLang
