import RuleLang.Grammar.Expression
import RuleLang.Text.Comment

/-!
Statements. A statement is a block in braces, an `if`, a loop, a `break`, a `return` or an
expression. The statements of a block are the pieces of its text. Since `;` and `}` end a piece,
an `else` is a piece of its own: it belongs to the innermost `if` of the statement before it
that has none yet and that no braces close off, possibly inside loops.

A statement is told how many loops stand around it, for a `break` needs one. Statements take up
room for nesting as expressions do; a block takes none beyond that of its statements.

The readers give trees, and so say what a source means. The readers of programs do the same with
nodes.
-/
namespace RuleLang.Grammar

/-- Reads a text as a statement inside some number of loops. -/
abbrev Within := Nat → Text → Except Fault Tree

/-- Reads the pieces of a block one by one, after the statements `done` (backwards). -/
def arrange (statement : Within) (loops : Nat) (done : List Tree) :
    List Text → Except Fault (List Tree)
  | [] => .ok done.reverse
  | piece :: pieces => do
    match Keyword.atStart? piece, done with
    | some (.elseWord, rest), last :: earlier =>
      match last.openIf? with
      | some crossed =>
        let branch ← statement (loops + crossed) rest
        arrange statement loops ((last.withElse? branch).getD last :: earlier) pieces
      | none => throw (.syntactic ⟨.strayElse, [piece]⟩)
    | some (.elseWord, _), [] => throw (.syntactic ⟨.strayElse, [piece]⟩)
    | _, _ =>
      let tree ← statement loops piece
      arrange statement loops (tree :: done) pieces

def block (statement : Within) (loops : Nat) (text : Text) : Except Fault Tree := do
  let pieces ← Division.statements.pieces text
  return .block (← arrange statement loops [] pieces)

/-- The parenthesised header after a keyword, and the text after it. -/
def header (keyword : Keyword) (text : Text) : Except Fault (Text × Text) :=
  match text.trimStart with
  | '(' :: rest => enclosed '(' ')' ('(' :: rest)
  | _ => throw (.syntactic ⟨.parenExpected, [keyword.spelling]⟩)

/-- A clause of a loop header, or `absent` if it is left out. -/
def clause (inner : Inner) (absent : Tree) (text : Text) : Except Fault Tree :=
  if text.isEmpty then return absent else inner text "for (".toList

def conditional (inner : Inner) (statement : Within) (loops : Nat) (text : Text) :
    Except Fault Tree := do
  let (condition, body) ← header .ifWord text
  let condition ← inner condition "if (".toList
  return .ifThen condition (← statement loops body)

def whileLoop (inner : Inner) (statement : Within) (loops : Nat) (text : Text) :
    Except Fault Tree := do
  let (condition, body) ← header .whileWord text
  let condition ← inner condition "while (".toList
  return .whileLoop condition (← statement (loops + 1) body)

/-- A condition that is left out is always true. -/
def forLoop (inner : Inner) (statement : Within) (loops : Nat) (text : Text) :
    Except Fault Tree := do
  let (clauses, body) ← header .forWord text
  match ← Division.clauses.pieces clauses with
  | [start, condition, update] => do
    let start ← clause inner .empty start
    let condition ← clause inner (.number 1) condition
    let update ← clause inner .empty update
    return .forLoop start condition update (← statement (loops + 1) body)
  | pieces => throw (.syntactic ⟨.clauseCount, [.ofNat pieces.length]⟩)

def breakLoop (loops : Nat) (text : Text) : Except Fault Tree :=
  if !text.isBlank then throw (.syntactic ⟨.unexpected, [text.trim]⟩)
  else if loops = 0 then throw (.syntactic ⟨.strayBreak, []⟩)
  else return .breakLoop

def returning (inner : Inner) (text : Text) : Except Fault Tree := do
  return .unary .returning (← inner text "return".toList)

/-- Reads a text as a statement inside `loops` loops. -/
def statement (limit room loops : Nat) (text : Text) : Except Fault Tree :=
  match room with
  | 0 => throw (.syntactic ⟨.tooDeep, [.ofNat limit, text.trim]⟩)
  | room + 1 =>
    let inner := expression limit room
    let nested := statement limit room
    let text := text.trim
    match text with
    | [] => return .empty
    | '{' :: _ => do
      let (inside, rest) ← enclosed '{' '}' text
      match rest.trimStart with
      | [] => block nested loops inside
      | rest => throw (.syntactic ⟨.unexpected, [rest]⟩)
    | _ =>
      match Keyword.atStart? text with
      | some (.ifWord, rest) => conditional inner nested loops rest
      | some (.whileWord, rest) => whileLoop inner nested loops rest
      | some (.forWord, rest) => forLoop inner nested loops rest
      | some (.breakWord, rest) => breakLoop loops rest
      | some (.returnWord, rest) => returning inner rest
      | some (.elseWord, _) => throw (.syntactic ⟨.strayElse, [text]⟩)
      | none => inner text text

/-- The tree of a source text, in which statements and expressions nest at most `limit` deep. -/
def rule (limit : Nat) (source : Text) : Except Fault Tree :=
  block (statement limit limit) 0 source.stripComments

end RuleLang.Grammar
