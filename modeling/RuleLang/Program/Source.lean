import RuleLang.Grammar.Statement
import RuleLang.Program.Basic

/-!
Programs from source texts. While a text is read, nodes are allocated one after the other, each once
its children are there. An `else` is read after the whole statement before it, so its branch has
later numbers than the `if` it belongs to. The `if` is looked for among the nodes, from the root of
the statement down, and is then given the branch.

Statements are read as in the grammar, but into nodes. An expression is read by the grammar and
allocated when it has been read.
-/
namespace RuleLang

/-- Reading a text into nodes, of which some have been allocated. -/
abbrev Building := StateT (Array Node) (Except Fault)

namespace Building

open Grammar (Inner header enclosed clause)

/-- Adds a node and gives its number. -/
def alloc (node : Node) : Building Nat := fun nodes => .ok (nodes.size, nodes.push node)

/-- Allocates what can be read without statements in it. -/
def allocTree : Tree → Building Nat
  | .number value => alloc (.number value)
  | .name x => alloc (.name x)
  | .element x index => do alloc (.element x (← allocTree index))
  | .cell x row column => do
    let row ← allocTree row
    let column ← allocTree column
    alloc (.cell x row column)
  | .unary op operand => do alloc (.unary op (← allocTree operand))
  | .binary op left right => do
    let left ← allocTree left
    let right ← allocTree right
    alloc (.binary op left right)
  | .breakLoop => alloc .breakLoop
  | _ => alloc .empty

/-- The innermost `if` without `else` under a node that no braces close off, and the number of loops
between the two, to the given depth. -/
def openIf? (nodes : Array Node) : Nat → Nat → Option (Nat × Nat)
  | 0, _ => none
  | depth + 1, id =>
    match nodes[id]? with
    | some (.ifThen _ yes) => openIf? nodes depth yes <|> some (id, 0)
    | some (.ifElse _ _ no) => openIf? nodes depth no
    | some (.whileLoop _ body) | some (.forLoop _ _ _ body) =>
      (openIf? nodes depth body).map fun (target, loops) => (target, loops + 1)
    | _ => none

/-- An `if` with another `else` branch, or with one if it had none. -/
def withElse (branch : Nat) : Node → Node
  | .ifThen condition yes | .ifElse condition yes _ => .ifElse condition yes branch
  | node => node

/-- Gives the `if` with a number an `else` branch. -/
def attach (target branch : Nat) : Building Unit :=
  modify fun nodes => nodes.modify target (withElse branch)

/-- Reads a text as a statement inside some number of loops. -/
abbrev Within := Nat → Text → Building Nat

/-- Reads the pieces of a block one by one, after the statements `done` (backwards). -/
def arrange (statement : Within) (loops : Nat) (done : List Nat) :
    List Text → Building (List Nat)
  | [] => return done.reverse
  | piece :: pieces => do
    match Keyword.atStart? piece, done with
    | some (.elseWord, rest), last :: _ =>
      let nodes ← get
      match openIf? nodes nodes.size last with
      | some (target, crossed) =>
        let branch ← statement (loops + crossed) rest
        attach target branch
        arrange statement loops done pieces
      | none => throw (.syntactic ⟨.strayElse, [piece]⟩)
    | some (.elseWord, _), [] => throw (.syntactic ⟨.strayElse, [piece]⟩)
    | _, _ =>
      let id ← statement loops piece
      arrange statement loops (id :: done) pieces

def block (statement : Within) (loops : Nat) (text : Text) : Building Nat := do
  let pieces ← Division.statements.pieces text
  alloc (.block (← arrange statement loops [] pieces))

def conditional (inner : Inner) (statement : Within) (loops : Nat) (text : Text) :
    Building Nat := do
  let (condition, body) ← header .ifWord text
  let condition ← allocTree (← inner condition "if (".toList)
  alloc (.ifThen condition (← statement loops body))

def whileLoop (inner : Inner) (statement : Within) (loops : Nat) (text : Text) :
    Building Nat := do
  let (condition, body) ← header .whileWord text
  let condition ← allocTree (← inner condition "while (".toList)
  alloc (.whileLoop condition (← statement (loops + 1) body))

def forLoop (inner : Inner) (statement : Within) (loops : Nat) (text : Text) :
    Building Nat := do
  let (clauses, body) ← header .forWord text
  match ← Division.clauses.pieces clauses with
  | [start, condition, update] => do
    let start ← allocTree (← clause inner .empty start)
    let condition ← allocTree (← clause inner (.number 1) condition)
    let update ← allocTree (← clause inner .empty update)
    alloc (.forLoop start condition update (← statement (loops + 1) body))
  | pieces => throw (.syntactic ⟨.clauseCount, [.ofNat pieces.length]⟩)

/-- Reads a statement that is not in braces, told by the keyword it begins with. -/
def plain (inner : Inner) (statement : Within) (loops : Nat) (text : Text) : Building Nat :=
  match Keyword.atStart? text with
  | some (.ifWord, rest) => conditional inner statement loops rest
  | some (.whileWord, rest) => whileLoop inner statement loops rest
  | some (.forWord, rest) => forLoop inner statement loops rest
  | some (.breakWord, rest) => do allocTree (← Grammar.breakLoop loops rest)
  | some (.returnWord, rest) => do allocTree (← Grammar.returning inner rest)
  | some (.elseWord, _) => throw (.syntactic ⟨.strayElse, [text]⟩)
  | none => do allocTree (← inner text text)

/-- Reads a text as a statement inside `loops` loops. -/
def statement (limit room loops : Nat) (text : Text) : Building Nat :=
  match room with
  | 0 => throw (.syntactic ⟨.tooDeep, [.ofNat limit, text.trim]⟩)
  | room + 1 =>
    let nested := statement limit room
    let text := text.trim
    match text with
    | [] => alloc .empty
    | '{' :: _ => do
      let (inside, rest) ← enclosed '{' '}' text
      match rest.trimStart with
      | [] => block nested loops inside
      | rest => throw (.syntactic ⟨.unexpected, [rest]⟩)
    | _ => plain (Grammar.expression limit room) nested loops text

end Building

/-- Reads a source text in which statements and expressions nest at most `limit` deep. -/
def Program.parse (limit : Nat) (source : String) : Except Fault Program := do
  let text := Text.stripComments source.toList
  let (root, nodes) ← Building.block (Building.statement limit limit) 0 text #[]
  return ⟨nodes, root⟩

end RuleLang
