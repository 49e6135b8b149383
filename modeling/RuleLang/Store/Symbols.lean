import RuleLang.Fault
import RuleLang.Token.Keyword
import RuleLang.Value

/-!
The symbol table: the names that a host declares, each with a description, a shape and, once it
is set, a value of that shape. Symbols keep the order of their first declaration; declaring a
name again replaces its description and shape where it stands and takes its value away. An index
tells the place at which the symbol of a name stands.
-/
namespace RuleLang

structure Declaration where
  name : String
  description : String
  shape : Shape
  deriving DecidableEq

/-- The words with a meaning of their own inside expressions. -/
def reservedNames : List String := ["and", "or", "max", "min"]

/-- Whether a name can be declared: a word that is neither a number nor a word of the language. -/
def isSymbolName (name : String) : Bool :=
  match name.toList with
  | [] => false
  | c :: letters =>
    (c.isAlpha || c == '_') && letters.all inWord && Keyword.ofWord? (c :: letters) == none &&
      !reservedNames.contains name

structure Symbol extends Declaration where
  value? : Option Value
  deriving DecidableEq

/-- The symbols in the order of declaration, and the place of each under its name. -/
structure Symbols where
  entries : Array Symbol
  index : List (String × Nat)

namespace Symbols

def empty : Symbols := ⟨#[], []⟩

def place? (symbols : Symbols) (name : String) : Option Nat := symbols.index.lookup name

def find? (symbols : Symbols) (name : String) : Option Symbol := do
  symbols.entries[← symbols.place? name]?

def declares (symbols : Symbols) (name : String) : Bool := (symbols.find? name).isSome

/-- Changes the symbol of a name. -/
def modify (name : String) (change : Symbol → Symbol) (symbols : Symbols) : Symbols :=
  match symbols.place? name with
  | some place => { symbols with entries := symbols.entries.modify place change }
  | none => symbols

/-- Puts a symbol in the place of the one of its name, or at the end. -/
def insert (new : Symbol) (symbols : Symbols) : Symbols :=
  match symbols.place? new.name with
  | some place => { symbols with entries := symbols.entries.setIfInBounds place new }
  | none => ⟨symbols.entries.push new, (new.name, symbols.entries.size) :: symbols.index⟩

def declare (declaration : Declaration) (symbols : Symbols) : Except Fault Symbols :=
  if isSymbolName declaration.name then .ok (symbols.insert ⟨declaration, none⟩)
  else .error (.name ⟨.badName, [declaration.name.toList]⟩)

def set (name : String) (value : Value) (symbols : Symbols) : Except Fault Symbols :=
  match symbols.find? name with
  | none => .error (.name ⟨.undeclared, [name.toList]⟩)
  | some symbol =>
    if value.shape = symbol.shape then
      .ok (symbols.modify name fun symbol => { symbol with value? := some value })
    else .error (.shape ⟨.wrongShape, [name.toList, symbol.shape.text, value.shape.text]⟩)

def unset (name : String) (symbols : Symbols) : Except Fault Symbols :=
  if symbols.declares name then
    .ok (symbols.modify name fun symbol => { symbol with value? := none })
  else .error (.name ⟨.undeclared, [name.toList]⟩)

def unsetAll (symbols : Symbols) : Symbols :=
  { symbols with entries := symbols.entries.map fun symbol => { symbol with value? := none } }

end Symbols
end RuleLang
