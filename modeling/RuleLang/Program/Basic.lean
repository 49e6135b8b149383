import RuleLang.Fault
import RuleLang.Text.Numeral
import RuleLang.Tree.Basic

/-!
Programs: trees stored as a numbered list of nodes, in which a node refers to its children by
their numbers. A stored program is accepted only if it is a tree: every reference is to a node
that exists, and no node is referred to twice, the root being referred to once by the program
itself. Nodes that the root does not reach are allowed, and may even refer to each other.

A number of a node is any natural number here. The programs meant are those with fewer than 2 ^ 32
nodes, whose numbers all have 32 bits.

To write or to run a program is to follow the numbers down from the root. What comes of it is said
by the tree that unfolds from the root.
-/
namespace RuleLang

inductive Node
  | empty
  | number (value : Int32)
  | name (x : String)
  | element (x : String) (index : Nat)
  | cell (x : String) (row column : Nat)
  | unary (op : UnaryOp) (operand : Nat)
  | binary (op : BinaryOp) (left right : Nat)
  | ifThen (condition yes : Nat)
  | ifElse (condition yes no : Nat)
  | whileLoop (condition body : Nat)
  | forLoop (start condition update body : Nat)
  | block (statements : List Nat)
  | breakLoop
  deriving DecidableEq

namespace Node

def children : Node → List Nat
  | empty | number _ | name _ | breakLoop => []
  | element _ index => [index]
  | cell _ row column => [row, column]
  | unary _ operand => [operand]
  | binary _ left right => [left, right]
  | ifThen condition yes => [condition, yes]
  | ifElse condition yes no => [condition, yes, no]
  | whileLoop condition body => [condition, body]
  | forLoop start condition update body => [start, condition, update, body]
  | block statements => statements

def isLvalue : Node → Bool
  | name _ | element .. => true
  | _ => false

/-- The tree of a node, given the trees of its children. -/
def tree (subtree : Nat → Tree) : Node → Tree
  | empty => .empty
  | number value => .number value
  | name x => .name x
  | element x index => .element x (subtree index)
  | cell x row column => .cell x (subtree row) (subtree column)
  | unary op operand => .unary op (subtree operand)
  | binary op left right => .binary op (subtree left) (subtree right)
  | ifThen condition yes => .ifThen (subtree condition) (subtree yes)
  | ifElse condition yes no => .ifElse (subtree condition) (subtree yes) (subtree no)
  | whileLoop condition body => .whileLoop (subtree condition) (subtree body)
  | forLoop start condition update body =>
    .forLoop (subtree start) (subtree condition) (subtree update) (subtree body)
  | block statements => .block (statements.map subtree)
  | breakLoop => .breakLoop

end Node

structure Program where
  nodes : Array Node
  root : Nat
  deriving DecidableEq

namespace Program

/-- The node with a number; an empty one if there is none. -/
def node (program : Program) (id : Nat) : Node := program.nodes[id]?.getD .empty

theorem node_eq {program : Program} {id : Nat} {node : Node} (h : program.nodes[id]? = some node) :
    program.node id = node := by
  rw [Program.node, h]
  rfl

/-- All references of a program: the children of its nodes in turn, then the root. -/
def references (program : Program) : List Nat :=
  program.nodes.toList.flatMap Node.children ++ [program.root]

/-- The first reference that is not to an existing node or repeats an earlier one. -/
def badReference? (seen : Array Bool) : List Nat → Option Nat
  | [] => none
  | id :: ids =>
    if seen[id]? = some false then badReference? (seen.setIfInBounds id true) ids else some id

/-- Accepts a program if it is a tree. -/
def check (program : Program) : Except Fault Program :=
  match badReference? (Array.replicate program.nodes.size false) program.references with
  | none => .ok program
  | some id => .error (.syntactic ⟨.notATree, [.ofNat id]⟩)

/-- The tree under a node, to the given depth; deeper down and at missing nodes it is empty. -/
def unfold (program : Program) : Nat → Nat → Tree
  | 0, _ => .empty
  | depth + 1, id => (program.node id).tree (program.unfold depth)

/-- The tree under a node. In a tree no path is longer than the number of nodes. -/
def subtree (program : Program) (id : Nat) : Tree := program.unfold program.nodes.size id

def tree (program : Program) : Tree := program.subtree program.root

def children (program : Program) (id : Nat) : List Nat :=
  (program.nodes[id]?.map Node.children).getD []

/-- The nodes under a node, itself first and then those under its children in turn, to the
given depth. -/
def preorderTo (program : Program) : Nat → Nat → List Nat
  | 0, _ => []
  | depth + 1, id => id :: (program.children id).flatMap (program.preorderTo depth)

/-- The nodes that the root reaches, every node before those under it. -/
def preorder (program : Program) : List Nat :=
  program.preorderTo program.nodes.size program.root

def isLvalue (program : Program) (id : Nat) : Bool :=
  (program.nodes[id]?.map Node.isLvalue).getD false

end Program
end RuleLang
