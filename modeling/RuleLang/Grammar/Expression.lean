import RuleLang.Division
import RuleLang.Grammar.Chain
import RuleLang.Text.Bracket
import RuleLang.Token.Word

/-!
Expressions. An operand of a chain is an atom with prefix operators before it, and a step
operator `++` or `--` before or after it if it can be assigned to. An atom is a number, an
expression in parentheses, a call of `max` or `min`, or a name with up to two indices and a
method call.

The readers of operands and atoms are not recursive: what they need for the expressions inside
brackets (`inner`, which is told what stands before it) and for the operand after a prefix
operator (`below`) is passed to them. Each use of these two takes one level of the room that
nesting has, and the recursion is on this room.
-/
namespace RuleLang.Grammar

/-- Reads the whole of a text as an expression, told what stands before it. -/
abbrev Inner := Text → Text → Except Fault Tree

def enclosed (opening closing : Char) (text : Text) : Except Fault (Text × Text) :=
  match text.enclosed? opening closing with
  | some parts => .ok parts
  | none => .error (.syntactic ⟨.unbalanced, [[opening], text]⟩)

/-- An index in brackets, if there is one. -/
def index? (inner : Inner) (name text : Text) : Except Fault (Option (Tree × Text)) :=
  match text.trimStart with
  | '[' :: rest => do
    let (index, rest) ← enclosed '[' ']' ('[' :: rest)
    let index ← inner index (name ++ ['['])
    return some (index, rest)
  | _ => return none

/-- The operation that a method stands for on a target. -/
def methodOp (method : Text) (target : Tree) (source : Text) : Except Fault UnaryOp :=
  if method = "size".toList then
    match target with
    | .name _ => .ok .size
    | .element .. => .ok .rowSize
    | _ => .error (.syntactic ⟨.methodTarget, [method, source]⟩)
  else if method = "sort".toList then
    match target with
    | .name _ => .ok .sort
    | _ => .error (.syntactic ⟨.methodTarget, [method, source]⟩)
  else .error (.syntactic ⟨.unknownMethod, [method]⟩)

/-- A method call on `target`, which begins at `start`, if there is one. -/
def call (start : Text) (target : Tree) (text : Text) : Read :=
  match text.trimStart with
  | '.' :: rest => do
    let called := Text.trimStart rest
    match ← Word.atStart? called with
    | some (.name method) =>
      match called.afterWord.trimStart with
      | '(' :: rest => do
        let (arguments, rest) ← enclosed '(' ')' ('(' :: rest)
        if arguments.isBlank then
          let op ← methodOp method target (start.upTo text.trimStart)
          return (.unary op target, rest)
        else throw (.syntactic ⟨.methodTakesNothing, [method]⟩)
      | _ => throw (.syntactic ⟨.parenExpected, [method]⟩)
    | _ => throw (.syntactic ⟨.unknownMethod, [called.afterWord.trim]⟩)
  | rest => return (target, rest)

/-- A name, already read, with its indices and its method call. -/
def reference (inner : Inner) (name start text : Text) : Read := do
  let x := String.ofList name
  match ← index? inner name text with
  | none => call start (.name x) text
  | some (row, text) =>
    match ← index? inner name text with
    | none => call start (.element x row) text
    | some (column, text) => call start (.cell x row column) text

def extremum? (word : Text) : Option BinaryOp :=
  if word = "max".toList then some .max
  else if word = "min".toList then some .min
  else none

/-- The two arguments of `max` or `min`. -/
def extremum (inner : Inner) (op : BinaryOp) (word text : Text) : Read := do
  let (arguments, rest) ← enclosed '(' ')' text
  match ← Division.arguments.pieces arguments with
  | [left, right] => do
    let left ← inner left (word ++ ['('])
    let right ← inner right (word ++ ['('])
    return (.binary op left right, rest)
  | pieces => throw (.syntactic ⟨.argumentCount, [word, .ofNat 2, .ofNat pieces.length]⟩)

/-- Reads an atom of the expression `source`. -/
def atom (inner : Inner) (source text : Text) : Read :=
  let start := text.trimStart
  match start with
  | [] => throw (.syntactic ⟨.missingExpression, [source.trim]⟩)
  | '(' :: _ => do
    let (inside, rest) ← enclosed '(' ')' start
    return (← inner inside ['('], rest)
  | '{' :: _ => throw (.syntactic ⟨.blockAsValue, [start.trim]⟩)
  | _ => do
    match ← Word.atStart? start with
    | none => throw (.syntactic ⟨.unexpected, [start.trim]⟩)
    | some (.number value) => return (.number value, start.afterWord)
    | some (.name word) =>
      match Keyword.ofWord? word with
      | some keyword => throw (.syntactic ⟨.keywordInExpression, [keyword.spelling]⟩)
      | none =>
        let rest := start.afterWord.trimStart
        match extremum? word, rest with
        | some op, '(' :: _ => extremum inner op word rest
        | _, _ => reference inner word start rest

/-- Applies a step operator to what has been read between `start` and `rest`. -/
def step (op : UnaryOp) (target : Tree) (start rest : Text) : Except Fault Tree :=
  if target.isLvalue then .ok (.unary op target)
  else .error (.syntactic ⟨.notAssignable, [start.upTo rest]⟩)

/-- Reads an atom and a step operator after it. -/
def stepped (inner : Inner) (source text : Text) : Read := do
  let start := text.trimStart
  let (target, rest) ← atom inner source start
  let rest := rest.trimStart
  match Operator.atStart? rest with
  | some (.increment, n) => return (← step .postIncrement target start rest, rest.drop n)
  | some (.decrement, n) => return (← step .postDecrement target start rest, rest.drop n)
  | _ => return (target, rest)

/-- What follows the digits of the least number, which is a number only after a minus sign. -/
def afterLeast? (text : Text) : Option Text :=
  if text.trimStart.firstWord = "2147483648".toList then some text.trimStart.afterWord else none

/-- Reads an operand of the expression `source`. -/
def operand (inner : Inner) (below : Text → Read) (source text : Text) : Read :=
  let start := text.trimStart
  match Operator.atStart? start with
  | some (.increment, n) => do
    let (target, rest) ← stepped inner source (start.drop n)
    return (← step .preIncrement target start rest, rest)
  | some (.decrement, n) => do
    let (target, rest) ← stepped inner source (start.drop n)
    return (← step .preDecrement target start rest, rest)
  | some (.minus, n) =>
    match afterLeast? (start.drop n) with
    | some rest => return (.number Int32.minValue, rest)
    | none => do
      let (target, rest) ← below (start.drop n)
      return (.unary .negate target, rest)
  | some (.bang, n) => do
    let (target, rest) ← below (start.drop n)
    return (.unary .not target, rest)
  | some (.plus, n) => below (start.drop n)
  | _ => stepped inner source start

mutual

/-- Reads the whole of `text` as an expression; `after` is what stands before it. -/
def expression (limit room : Nat) (text after : Text) : Except Fault Tree :=
  if text.isBlank then throw (.syntactic ⟨.missingExpression, [after]⟩)
  else
    match room with
    | 0 => throw (.syntactic ⟨.tooDeep, [.ofNat limit, text.trim]⟩)
    | room + 1 => do
      let inner := expression limit room
      let (tree, rest) ← chain (operand inner (prefixed limit room text) text) text
      match rest.trimStart with
      | [] => return tree
      | rest => throw (.syntactic ⟨.unexpected, [rest]⟩)

/-- Reads the operand after a prefix operator, in the expression `source`. -/
def prefixed (limit room : Nat) (source text : Text) : Read :=
  match room with
  | 0 => throw (.syntactic ⟨.tooDeep, [.ofNat limit, text.trim]⟩)
  | room + 1 => operand (expression limit room) (prefixed limit room source) source text

end

end RuleLang.Grammar
