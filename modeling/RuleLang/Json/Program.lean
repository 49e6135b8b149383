import RuleLang.Json.Basic
import RuleLang.Program.Basic

/-!
The stored form of programs. A node is a value tagged with its kind; an absent second index or
`else` branch is written as null, and is null or missing when read. Reading a program checks
that it is a tree.
-/
namespace RuleLang

open Json

/-- The names of operators in stored programs. -/
def UnaryOp.tag : UnaryOp → String
  | negate => "Negate"
  | not => "Not"
  | preIncrement => "PreIncrement"
  | preDecrement => "PreDecrement"
  | postIncrement => "PostIncrement"
  | postDecrement => "PostDecrement"
  | size => "Size"
  | rowSize => "RowSize"
  | sort => "Sort"
  | returning => "Return"

def UnaryOp.all : List UnaryOp :=
  [negate, not, preIncrement, preDecrement, postIncrement, postDecrement, size, rowSize, sort,
    returning]

def UnaryOp.toJson (op : UnaryOp) : Json := .string op.tag

def UnaryOp.ofJson? (json : Json) : Option UnaryOp := do
  let tag ← json.bareTag?
  all.find? fun op => op.tag == tag

/-- The names of operators in stored programs. -/
def BinaryOp.tag : BinaryOp → String
  | add => "Add"
  | subtract => "Subtract"
  | multiply => "Multiply"
  | divide => "Divide"
  | remainder => "Remainder"
  | equal => "Equal"
  | notEqual => "NotEqual"
  | less => "Less"
  | greater => "Greater"
  | lessEqual => "LessEqual"
  | greaterEqual => "GreaterEqual"
  | and => "And"
  | or => "Or"
  | max => "Max"
  | min => "Min"
  | assign => "Assign"

def BinaryOp.all : List BinaryOp :=
  [add, subtract, multiply, divide, remainder, equal, notEqual, less, greater, lessEqual,
    greaterEqual, and, or, max, min, assign]

def BinaryOp.toJson (op : BinaryOp) : Json := .string op.tag

def BinaryOp.ofJson? (json : Json) : Option BinaryOp := do
  let tag ← json.bareTag?
  all.find? fun op => op.tag == tag

namespace Node

def toJson : Node → Json
  | empty => .string "Empty"
  | breakLoop => .string "Break"
  | number value => tag "Number" (ofInt32 value)
  | name x => tag "Name" (.string x)
  | element x index =>
    tag "Index" (.object [("name", .string x), ("index", ofNat index), ("column", .null)])
  | cell x row column =>
    tag "Index" (.object [("name", .string x), ("index", ofNat row), ("column", ofNat column)])
  | unary op operand =>
    tag "Unary" (.object [("op", op.toJson), ("operand", ofNat operand)])
  | binary op left right =>
    tag "Binary" (.object [("op", op.toJson), ("left", ofNat left), ("right", ofNat right)])
  | ifThen condition yes =>
    tag "Conditional" (.object
      [("condition", ofNat condition), ("then_branch", ofNat yes), ("else_branch", .null)])
  | ifElse condition yes no =>
    tag "Conditional" (.object
      [("condition", ofNat condition), ("then_branch", ofNat yes), ("else_branch", ofNat no)])
  | whileLoop condition body =>
    tag "While" (.object [("condition", ofNat condition), ("body", ofNat body)])
  | forLoop start condition update body =>
    tag "For" (.object [("init", ofNat start), ("condition", ofNat condition),
      ("update", ofNat update), ("body", ofNat body)])
  | block statements => tag "Sequence" (.array (statements.map ofNat))

/-- A node that carries something, by the name of its kind. -/
def ofTagged? (kind : String) (json : Json) : Option Node :=
  match kind with
  | "Number" => number <$> json.int32?
  | "Name" => name <$> json.string?
  | "Index" => do
    let x ← (← json.field? "name").string?
    let row ← (← json.field? "index").nodeId?
    match ← json.maybe? "column" nodeId? with
    | none => return element x row
    | some column => return cell x row column
  | "Unary" => do
    let op ← UnaryOp.ofJson? (← json.field? "op")
    return unary op (← (← json.field? "operand").nodeId?)
  | "Binary" => do
    let op ← BinaryOp.ofJson? (← json.field? "op")
    let left ← (← json.field? "left").nodeId?
    return binary op left (← (← json.field? "right").nodeId?)
  | "Conditional" => do
    let condition ← (← json.field? "condition").nodeId?
    let yes ← (← json.field? "then_branch").nodeId?
    match ← json.maybe? "else_branch" nodeId? with
    | none => return ifThen condition yes
    | some no => return ifElse condition yes no
  | "While" => do
    let condition ← (← json.field? "condition").nodeId?
    return whileLoop condition (← (← json.field? "body").nodeId?)
  | "For" => do
    let start ← (← json.field? "init").nodeId?
    let condition ← (← json.field? "condition").nodeId?
    let update ← (← json.field? "update").nodeId?
    return forLoop start condition update (← (← json.field? "body").nodeId?)
  | "Sequence" => block <$> json.list? nodeId?
  | _ => none

def ofJson? (json : Json) : Option Node :=
  match json.bareTag?, json.tagged? with
  | some "Empty", _ => some empty
  | some "Break", _ => some breakLoop
  | _, some (kind, carried) => ofTagged? kind carried
  | _, none => none

end Node

namespace Program

def toJson (program : Program) : Json :=
  .object
    [("arena", .object [("nodes", .array (program.nodes.toList.map Node.toJson))]),
      ("root", ofNat program.root)]

/-- Reads a program without the check that it is a tree. -/
def ofJson? (json : Json) : Option Program := do
  let nodes ← (← (← json.field? "arena").field? "nodes").list? Node.ofJson?
  let root ← (← json.field? "root").nodeId?
  return ⟨nodes.toArray, root⟩

/-- Why a stored program is refused. -/
inductive Unreadable
  | wrongForm
  | fault (fault : Fault)

/-- Reads a program and accepts it if it is a tree. -/
def load (json : Json) : Except Unreadable Program :=
  match ofJson? json with
  | none => .error .wrongForm
  | some program => program.check.mapError .fault

end Program
end RuleLang
